/-
The descriptors of the AXI DMA engine (`acq400_xilinx_axidma.c`), for one channel.

`init_descriptor_cache` makes a wrapper for each descriptor, and builds descriptors
only when it has made new ones.  Linking them up is done at each load.

A wrapper whose `va` is null and a wrapper past the end of the array are no wrappers
to follow: `none`.  So is a loop that never meets its last wrapper because that is
before the first.
-/
import Acq400.Driver.AxiSegments

namespace Acq400

/-- `struct xilinx_dma_desc_hw`, of which the driver writes these. -/
structure DmaDesc where
  nextDesc : Nat
  bufAddr : Nat
  control : Nat
  status : Nat
deriving DecidableEq

/-- `memset(.., 0, ..)`. -/
def DmaDesc.zero : DmaDesc := ⟨0, 0, 0, 0⟩

/-- A pool of descriptors: the one it gives out is none of those that are out. -/
structure DmaPool where
  /-- `dma_pool_alloc`. -/
  alloc : List Nat → Nat
  fresh : ∀ out, alloc out ∉ out

/-- The device, as far as the channel needs it. -/
structure AxiDev where
  pool : DmaPool
  bufferlen : Nat
  /-- The addresses of the host buffers of the channel, `axi64_hb[]->pa`. -/
  axi64Hb : List Nat
  nodup : axi64Hb.Nodup

/-- The module parameters, which can be written at any time. -/
structure AxiParams where
  axiBufferCount : Nat
  axiOneshot : Int
  axiDebugLoopbackIndex : Int
deriving DecidableEq

/-- `struct ACQ400_AXIPOOL`, and the descriptors by address. -/
structure AxiPool where
  ndescriptors : Nat
  /-- The wrappers: `none` where `va` is null, else the address of the descriptor. -/
  channelWrappers : List (Option Nat)
  dumpPa : Nat
  activeDescriptors : Nat
  segments : SegmentTable
  desc : Nat → DmaDesc

namespace AxiPool

/-- The pool of `axi64_init_dmac`. -/
def init (segments : Nat → AxiSegment) : AxiPool where
  ndescriptors := 0
  channelWrappers := []
  dumpPa := 0
  activeDescriptors := 0
  segments := { segments, segmentCursor := 0 }
  desc := fun _ => DmaDesc.zero

/-- The descriptors that are out of the pool. -/
def held (s : AxiPool) : List Nat := s.channelWrappers.filterMap id

def setDesc (s : AxiPool) (pa : Nat) (d : DmaDesc) : AxiPool :=
  { s with desc := Function.update s.desc pa d }

/-- `wrapper->va = dma_pool_alloc(..)`. -/
def allocDesc (dev : AxiDev) (s : AxiPool) (wrapper : Nat) : Nat × AxiPool :=
  let pa := dev.pool.alloc s.held
  (pa, { s with channelWrappers := s.channelWrappers.set wrapper (some pa) })

def va (s : AxiPool) (wrapper : Nat) : Option Nat := s.channelWrappers[wrapper]?.join

/-- `wrapper->pa`, zero where there is no descriptor. -/
def pa (s : AxiPool) (wrapper : Nat) : Option Nat :=
  s.channelWrappers[wrapper]?.map fun va => va.getD 0

/-! ### `_finalize_descriptor_chain` -/

/-- `control` and `status`. -/
def finish (dev : AxiDev) (par : AxiParams) (d : DmaDesc) (nextDesc : Nat) : DmaDesc :=
  { d with
    control := dev.bufferlen
    status := if par.axiOneshot ≠ 0 then 0 else 0xd1ac0000
    nextDesc := nextDesc }

/-- The loop, with `left` wrappers to go to the last. -/
def linkUp (dev : AxiDev) (par : AxiParams) : Nat → Nat → AxiPool → Option AxiPool
  | 0, _, s => some s
  | left + 1, cursor, s => do
    let va ← s.va cursor
    let next ← s.pa (cursor + 1)
    linkUp dev par left (cursor + 1) (s.setDesc va (finish dev par (s.desc va) next))

/-- Where the last one leads. -/
def tieOff (par : AxiParams) (s : AxiPool) (last : Nat) : Option Nat :=
  if par.axiOneshot ≠ 0 then s.pa last
  else if 0 < par.axiDebugLoopbackIndex then s.pa par.axiDebugLoopbackIndex.toNat
  else s.pa 0

def _finalizeDescriptorChain (dev : AxiDev) (par : AxiParams) (s : AxiPool)
    (ndescriptors : Nat) : Option AxiPool :=
  if ndescriptors = 0 then none
  else do
    let last := ndescriptors - 1
    let s ← linkUp dev par last 0 s
    let va ← s.va last
    let next ← s.tieOff par last
    let s := s.setDesc va (finish dev par (s.desc va) next)
    return { s with activeDescriptors := ndescriptors }

/-! ### `init_descriptor_cache_nonseg` -/

/-- The loop, with `left` descriptors to go. -/
def buildNonseg (dev : AxiDev) : Nat → Nat → AxiPool → Option AxiPool
  | 0, _, s => some s
  | left + 1, ii, s => do
    let hb ← dev.axi64Hb[ii]?
    let (pa, s) := s.allocDesc dev ii
    buildNonseg dev left (ii + 1) (s.setDesc pa { DmaDesc.zero with bufAddr := hb })

def initDescriptorCacheNonseg (dev : AxiDev) (par : AxiParams) (s : AxiPool)
    (ndescriptors : Nat) (newPool : Bool) : Option AxiPool := do
  let s ← if newPool then buildNonseg dev ndescriptors 0 s else some s
  s._finalizeDescriptorChain dev par ndescriptors

/-! ### `init_descriptor_cache_segmented` -/

/-- The variables of the function. -/
structure Cursors where
  wrapper : Nat
  ihb : Nat

/-- The descriptor of a wrapper, a new one `if (wrapper->va == 0)`. -/
def ensureDesc (dev : AxiDev) (s : AxiPool) (wrapper : Nat) : Option (Nat × AxiPool) :=
  match s.channelWrappers[wrapper]? with
  | none => none
  | some none => some (s.allocDesc dev wrapper)
  | some (some pa) => some (pa, s)

/-- The blocks of one segment, with `left` to go; it leaves off when it is out of buffers. -/
def buildBlocks (dev : AxiDev) (lastBuffer : Nat) (mode : SegmentMode) :
    Nat → Cursors → AxiPool → Option (Cursors × AxiPool)
  | 0, c, s => some (c, s)
  | left + 1, c, s => do
    let (pa, s) ← s.ensureDesc dev c.wrapper
    let s := s.setDesc pa DmaDesc.zero
    match mode with
    | .store =>
      if lastBuffer ≤ c.ihb then some (c, s)
      else do
        let hb ← dev.axi64Hb[c.ihb]?
        buildBlocks dev lastBuffer mode left ⟨c.wrapper + 1, c.ihb + 1⟩
          (s.setDesc pa { DmaDesc.zero with bufAddr := hb, control := dev.bufferlen })
    | .dump =>
      buildBlocks dev lastBuffer mode left ⟨c.wrapper + 1, c.ihb⟩
        (s.setDesc pa { DmaDesc.zero with bufAddr := s.dumpPa, control := dev.bufferlen })

def buildSegments (dev : AxiDev) (lastBuffer : Nat) :
    List AxiSegment → Cursors → AxiPool → Option (Cursors × AxiPool)
  | [], c, s => some (c, s)
  | segment :: rest, c, s => do
    let (c, s) ← buildBlocks dev lastBuffer segment.mode segment.nblocks c s
    buildSegments dev lastBuffer rest c s

def initDescriptorCacheSegmented (dev : AxiDev) (par : AxiParams) (s : AxiPool)
    (ndescriptors : Nat) (newPool : Bool) : Option AxiPool :=
  if ndescriptors = 0 then none
  else do
    let lastBuffer := ndescriptors - 1
    let dumpPa ← dev.axi64Hb[lastBuffer]?
    let s := { s with dumpPa := dumpPa }
    let (c, s) ← if newPool then buildSegments dev lastBuffer s.segments.table ⟨0, 0⟩ s
      else some (⟨0, 0⟩, s)
    s._finalizeDescriptorChain dev par c.wrapper

/-! ### `init_descriptor_cache` -/

def deletePool (s : AxiPool) : AxiPool := { s with channelWrappers := [], ndescriptors := 0 }

/-- New wrappers, by `kzalloc`. -/
def newWrappers (s : AxiPool) (ndescriptors : Nat) : AxiPool :=
  { s with channelWrappers := List.replicate ndescriptors none, ndescriptors := ndescriptors }

@[simp] theorem newWrappers_segments (s : AxiPool) (n : Nat) :
    (s.newWrappers n).segments = s.segments := rfl

/-- The call through `init_cache`. -/
def initCache (dev : AxiDev) (par : AxiParams) (s : AxiPool) (ndescriptors : Nat)
    (newPool : Bool) : Option AxiPool :=
  if s.segments.segmentCursor ≠ 0 then
    s.initDescriptorCacheSegmented dev par ndescriptors newPool
  else s.initDescriptorCacheNonseg dev par ndescriptors newPool

def initDescriptorCache (dev : AxiDev) (par : AxiParams) (s : AxiPool) : Option AxiPool :=
  let ndescriptors := par.axiBufferCount
  let s := if s.ndescriptors ≠ 0 ∧ s.ndescriptors < ndescriptors then s.deletePool else s
  if s.ndescriptors = 0 then
    (s.newWrappers ndescriptors).initCache dev par ndescriptors true
  else s.initCache dev par ndescriptors false

/-! ### `axi64_tie_off_dmac` -/

/-- `loop_to_self(&wrappers[itie])`. -/
def loopToSelf (s : AxiPool) (itie : Int) : Option AxiPool :=
  if itie < 0 then none
  else do
    let va ← s.va itie.toNat
    let pa ← s.pa itie.toNat
    return s.setDesc va { s.desc va with nextDesc := pa }

/-- The loop that looks for the cursor, with `left` wrappers to go. -/
def tieOffLoop (s : AxiPool) (cursorPa : Nat) (nbuffers : Int) :
    Nat → Nat → Option (Int × AxiPool)
  | 0, _ => some (-1, s)
  | left + 1, ii => do
    let pa ← s.pa ii
    if pa = cursorPa then
      let itie := (ii : Int) + nbuffers
      let itie := if (s.ndescriptors : Int) < itie then itie - s.ndescriptors else itie
      let s ← s.loopToSelf itie
      return (0, s)
    else tieOffLoop s cursorPa nbuffers left (ii + 1)

/-- `axi64_tie_off_dmac`, where the engine is at `cursorPa`. -/
def axi64TieOffDmac (s : AxiPool) (cursorPa : Nat) (nbuffers : Int) : Option (Int × AxiPool) :=
  s.tieOffLoop cursorPa nbuffers s.ndescriptors 0

/-- What the user can do. -/
inductive Op where
  /-- Write the table of segments. -/
  | segments (buffer : List Char)
  /-- `axi64_load_dmac`, of one channel and with the parameters as they are then. -/
  | load (par : AxiParams)

def step (dev : AxiDev) (s : AxiPool) : Op → Option AxiPool
  | .segments buffer =>
    (s.segments.procSegmentsWrite buffer).map fun written => { s with segments := written.1 }
  | .load par => s.initDescriptorCache dev par

end AxiPool

end Acq400
