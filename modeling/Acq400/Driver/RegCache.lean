/-
The register cache (`acq400_reg_cache.c`) and the register accesses that go
through it (`acq400_core.c`).

`map` has one bit for every register that is cached and `data` has the value of
each.  A byte offset is turned into a register number by each routine for itself
and tested against `max_reg` there.  An access outside `map` or `data` is `none`.

The registers are 32 bits wide and answer at each of their four byte addresses.
`int` offsets are passed on as `unsigned` and addresses are 32 bits, so an
offset is the 32 bits of it.
-/
import Acq400.Driver.AxiChain
import Acq400.Lib.Bitmap
import Acq400.Lib.Run

namespace Acq400

def regCacheMapRegs : Nat := 4

def regCacheBits : Nat := 32

def regCacheBitMask : Nat := 0x1f

def regCacheMax : Nat := regCacheMapRegs * regCacheBits

/-- `reg2map`: the word and the bit of a register. -/
def reg2map (reg : Nat) : Nat × Nat := (reg / regCacheBits, reg &&& regCacheBitMask)

def map2reg (ix bit : Nat) : Nat := ix * regCacheBits + bit

structure RegCache where
  maxReg : Nat
  map : Vector (BitVec regCacheBits) regCacheMapRegs
  data : Vector UInt32 regCacheMax

/-- Of `struct acq400_dev`: the cache of the control registers, and the registers. -/
structure RegDev where
  ctrlRegCache : RegCache
  devVirtaddr : Nat → UInt32

/-- `reg_bytes/sizeof(unsigned)`. -/
def regOf (offset : UInt32) : Nat := offset.toNat / usz

/-- `ioread32` at a byte offset from the registers. -/
def ioread32 (va : Nat → UInt32) (offset : UInt32) : UInt32 := va (regOf offset)

/-- `iowrite32` at a byte offset from the registers. -/
def iowrite32 (value : UInt32) (va : Nat → UInt32) (offset : UInt32) : Nat → UInt32 :=
  Function.update va (regOf offset) value

namespace RegCache

/-- `dev_rc_init`, of a cache and data that are zero as they are allocated. -/
def devRcInit : RegCache where
  maxReg := regCacheMax
  map := Vector.replicate _ 0
  data := Vector.replicate _ 0

/-- `dev_rc_register`; the return value is 0 for a register that is cached from then on. -/
def devRcRegister (rc : RegCache) (regBytes : UInt32) : Option (RegCache × Int) :=
  let reg := regOf regBytes
  if reg < rc.maxReg then
    let (ix, bit) := reg2map reg
    match rc.map[ix]? with
    | none => none
    | some word => some ({ rc with map := Bitmap.add rc.map ix bit word }, 0)
  else
    some (rc, -1)

/-- The bits of one word of `map`, from `bit` on, in `dev_rc_update`. -/
def updateBits (maxReg : Nat) (va : Nat → UInt32) (ix bit : Nat) (map : BitVec regCacheBits)
    (data : Vector UInt32 regCacheMax) : Option (Vector UInt32 regCacheMax) :=
  if h : map = 0 then
    some data
  else
    let reg := map2reg ix bit
    if map &&& 1 ≠ 0 then
      if hreg : reg < regCacheMax then
        updateBits maxReg va ix (bit + 1) (map >>> 1) (data.set reg (va reg))
      else
        none
    else if reg > maxReg then
      some data
    else
      updateBits maxReg va ix (bit + 1) (map >>> 1) data
termination_by map.toNat
decreasing_by
  all_goals
    have hpos : map.toNat ≠ 0 := fun e => h (BitVec.eq_of_toNat_eq e)
    rw [BitVec.toNat_ushiftRight, Nat.shiftRight_eq_div_pow]
    omega

/-- One word of `map` in `dev_rc_update`. -/
def updateWord (va : Nat → UInt32) (rc : RegCache) (ix : Nat) : Option RegCache :=
  match rc.map[ix]? with
  | none => none
  | some map => (updateBits rc.maxReg va ix 0 map rc.data).map fun data => { rc with data := data }

def devRcUpdate (rc : RegCache) (va : Nat → UInt32) : Option RegCache :=
  (List.range regCacheMapRegs).foldlM (updateWord va) rc

/-- What `dev_rc_read` returns: 1, or 0 and the value. -/
inductive Answer
  | notInCache
  | inCache (value : UInt32)
deriving DecidableEq, Repr

def devRcRead (rc : RegCache) (offset : UInt32) : Option Answer :=
  let reg := regOf offset
  if reg > rc.maxReg then
    some .notInCache
  else
    let (ix, bit) := reg2map reg
    match rc.map[ix]? with
    | none => none
    | some word =>
      if word &&& 1#_ <<< bit ≠ 0 then rc.data[reg]?.map .inCache else some .notInCache

end RegCache

namespace RegDev

/-- `dev_rc_write` to the control registers' cache; `true` for a return of 1, not in cache. -/
def devRcWrite (adev : RegDev) (offset value : UInt32) : Option (RegDev × Bool) :=
  let rc := adev.ctrlRegCache
  let reg := regOf offset
  if reg > rc.maxReg then
    some (adev, true)
  else
    let (ix, bit) := reg2map reg
    match rc.map[ix]? with
    | none => none
    | some word =>
      if word &&& 1#_ <<< bit ≠ 0 then
        if hreg : reg < regCacheMax then
          some ({ ctrlRegCache := { rc with data := rc.data.set reg value },
                  devVirtaddr := iowrite32 value adev.devVirtaddr offset }, false)
        else
          none
      else
        some (adev, true)

def acq400wr32 (adev : RegDev) (offset value : UInt32) : Option RegDev :=
  (adev.devRcWrite offset value).map fun (adev, notInCache) =>
    if notInCache then { adev with devVirtaddr := iowrite32 value adev.devVirtaddr offset }
    else adev

def _acq400rd32 (adev : RegDev) (offset : UInt32) (nocache : Bool) : Option UInt32 :=
  if nocache then
    some (ioread32 adev.devVirtaddr offset)
  else
    (adev.ctrlRegCache.devRcRead offset).map fun
      | .notInCache => ioread32 adev.devVirtaddr offset
      | .inCache rc => rc

def acq400rd32 (adev : RegDev) (offset : UInt32) : Option UInt32 := _acq400rd32 adev offset false

def acq400rd32Nocache (adev : RegDev) (offset : UInt32) : Option UInt32 :=
  _acq400rd32 adev offset true

/-- A device with its registers cached, by `dev_rc_register` for one after the other. -/
def probe (va : Nat → UInt32) (regBytes : List UInt32) : Option RegDev :=
  (regBytes.foldlM (fun (rc : RegCache) b => (rc.devRcRegister b).map (·.1))
    RegCache.devRcInit).map fun rc =>
    ⟨rc, va⟩

/-- What happens to the registers. -/
inductive Act
  | wr32 (offset value : UInt32)
  | rd32 (offset : UInt32)
  | rcUpdate
  /-- The hardware changes a register. -/
  | hardware (reg : Nat) (value : UInt32)

/-- One action on the registers. -/
def step (adev : RegDev) : Act → Option RegDev
  | .wr32 offset value => adev.acq400wr32 offset value
  | .rd32 offset => (adev.acq400rd32 offset).map fun _ => adev
  | .rcUpdate => (adev.ctrlRegCache.devRcUpdate adev.devVirtaddr).map fun rc =>
      { adev with ctrlRegCache := rc }
  | .hardware reg value =>
    some { adev with devVirtaddr := Function.update adev.devVirtaddr reg value }

end RegDev

end Acq400
