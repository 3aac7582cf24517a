/-
The host buffers as they are allocated (`hbm.c`, and `allocate_hbm` in
`acq400_drv.c`).

`hbm_allocate` asks the kernel for pages, one buffer at a time.  With `buffer_coal` the
buffers are sorted by address and joined pair by pair, so many times over, and a pair
that does not touch is lost.  What is left is entered in `hb`.
-/
import Acq400.Driver.Device
import Acq400.Lib.CInt
import Acq400.Lib.Extents

namespace Acq400

def pageSize : Nat := 4096

/-- `struct HBM`, with the address that the hardware has for it. -/
structure MappedHbm extends Hbm where
  pa : Nat

namespace MappedHbm

/-- The addresses of a buffer. -/
abbrev cells (b : MappedHbm) : Set Nat := Extents.cells MappedHbm.pa (fun b => b.len) b

/-- `b1->pa == b0->pa + b0->len`. -/
abbrev Adjacent (b0 b1 : MappedHbm) : Prop :=
  Extents.Adjacent MappedHbm.pa (fun b => b.len) b0 b1

/-- `b0->len += b1->len`. -/
def join (b0 b1 : MappedHbm) : MappedHbm := { b0 with len := b0.len + b1.len }

end MappedHbm

/-- The pages that the kernel hands out for one buffer. -/
structure Grant where
  va : Nat → UInt32
  pa : Nat

/-- `getOrder`, from the order that its loop has come to. -/
def getOrderFrom (pages order : Nat) : Nat :=
  if 2 ^ order < pages then getOrderFrom pages (order + 1) else order
termination_by pages - order
decreasing_by
  have := order.lt_two_pow_self
  omega

def getOrder (len : Nat) : Nat := getOrderFrom (len / pageSize) 0

/-- The length of the buffers that `hbm_allocate` makes for a length asked for. -/
def hbmLen (len : Nat) : Nat := 2 ^ getOrder len * pageSize

/-- A conversion to `short`. -/
def toShort (x : Int) : Int := x.bmod 65536

/-- `fillpa`: each word of a buffer holds its own address. -/
def fillpa (hbm : MappedHbm) : MappedHbm :=
  { hbm with va := fun w => if w < hbm.len / 4 then UInt32.ofNat (hbm.pa + 4 * w) else hbm.va w }

/-- One turn of `hbm_allocate`. -/
def hbmNew (grant : Grant) (len : Nat) (ix : Int) : MappedHbm :=
  fillpa {
    va := grant.va
    pa := grant.pa
    len := len
    ix := toShort ix
    bstate := .empty
    poisonData := (0, 0) }

/-- `hbm_allocate`: the return value, and the list.  `grants` are the pages by the index
that they are asked for. -/
def hbmAllocate (grants : Int → Grant) (ix nbuffers : Int) (len : Nat)
    (buffers : List MappedHbm) : Int × List MappedHbm :=
  (nbuffers, buffers ++ (List.range nbuffers.toNat).map fun (ii : Nat) =>
    hbmNew (grants (ix + ii)) (hbmLen len) (ix + ii))

def hbmPaCompare (a b : MappedHbm) : Int := if a.pa > b.pa then 1 else if a.pa < b.pa then -1 else 0

/-- The variables of `_coalesce_buffers`; `b0` is there in the state `GET_B1`. -/
structure Coalescing where
  b0 : Option MappedHbm
  empties : List MappedHbm
  nbuffers : Int
  bufferlen : Int

/-- One turn of `_coalesce_buffers`. -/
def Coalescing.next (st : Coalescing) (cur : MappedHbm) : Coalescing :=
  match st.b0 with
  | none => { st with b0 := some cur }
  | some b0 =>
    if MappedHbm.Adjacent b0 cur then
      { b0 := none
        empties := st.empties ++ [b0.join cur]
        nbuffers := st.nbuffers + 1
        bufferlen :=
          if st.bufferlen = 0 then CInt.wrap (b0.join cur).len else st.bufferlen }
    -- not contiguous, discard
    else { st with b0 := none }

/-- EMPTIES and the module's own `nbuffers` and `bufferlen`. -/
structure HbmPool where
  empties : List MappedHbm
  nbuffers : Int
  bufferlen : Int

namespace HbmPool

variable (pool : HbmPool)

/-- `_coalesce_buffers`, of all of EMPTIES. -/
def _coalesceBuffers : HbmPool :=
  let st := pool.empties.foldl Coalescing.next ⟨none, [], 0, 0⟩
  { empties := st.empties, nbuffers := st.nbuffers, bufferlen := st.bufferlen }

def coalesceBuffers : Nat → HbmPool → HbmPool
  | 0, pool => pool
  | coalFactor + 1, pool => coalesceBuffers coalFactor pool._coalesceBuffers

/-- `list_sort`, with `hbm_pa_compare`. -/
def sort : HbmPool := { pool with empties := pool.empties.mergeSort (hbmPaCompare · · ≤ 0) }

end HbmPool

/-- What `allocate_hbm` leaves behind. -/
structure HbmTable extends HbmPool where
  gresv : List MappedHbm
  hb : List MappedHbm
  adevNbuffers : Int
  adevBufferlen : Int

/-- The buffers of `allocate_hbm`: GRESV and EMPTIES. -/
def allocateLists (isSc : Bool) (reserveBuffers : Nat) (grants : Int → Grant) (nb : Int)
    (bl : Nat) : List MappedHbm × List MappedHbm :=
  if isSc then
    let (ix, gresv) := hbmAllocate grants 0 reserveBuffers bl []
    (gresv, (hbmAllocate grants ix (nb - reserveBuffers) bl []).2)
  else ([], (hbmAllocate grants 0 nb bl []).2)

/-- `allocate_hbm`, of a device that has no buffers yet and with the module's `nbuffers` and
`bufferlen`.  There is room for `nb` entries in `hb`: none if it writes more of them. -/
def allocateHbm (isSc : Bool) (reserveBuffers bufferCoal : Nat) (grants : Int → Grant)
    (nbuffers bufferlen : Int) (nb bl : Nat) : Option HbmTable :=
  let (gresv, empties) := allocateLists isSc reserveBuffers grants nb bl
  let pool : HbmPool := { empties := empties, nbuffers := nbuffers, bufferlen := bufferlen }
  let pool := if bufferCoal ≠ 0 then pool.sort.coalesceBuffers bufferCoal else pool
  let gresv := gresv.map fun cursor => { cursor with bstate := .reserved }
  let hb := gresv ++ pool.empties
  if hb.length ≤ nb then
    some { pool with
      gresv := gresv
      hb := hb
      adevNbuffers := hb.length
      adevBufferlen := bl }
  else none

end Acq400
