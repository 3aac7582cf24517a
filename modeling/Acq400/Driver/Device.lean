/-
The host buffers of a device and the lists they are linked into.

`struct HBM` (`hbm.h`) is one host buffer: its memory, its state tag, its index
and the two words stashed by the poison code.  `struct acq400_dev`
(`acq400_structs.h`) owns the buffers and the list heads EMPTIES, INFLIGHT,
REFILLS, OPENS and STASH; every open descriptor owns one more, RESERVED.

A `struct HBM*` is a number here and the device maps it to the structure it
points to, so that a buffer keeps its identity while it moves between lists.
The lists are the sequences of entries from head to tail.  Of the run-time
record and of the module parameters only what the modelled functions use is kept.
-/
import Mathlib.Algebra.Group.Nat.Defs
import Mathlib.Logic.Function.Basic

namespace Acq400

inductive BState
  | empty | filling | full | fullApp | reserved
deriving DecidableEq, Repr

/-- A `struct HBM*`. -/
abbrev HbmPtr := Nat

/-- `struct HBM`.  `va` is the buffer memory by 32-bit words. -/
structure Hbm where
  va : Nat → UInt32
  len : Nat
  ix : Int
  bstate : BState
  poisonData : UInt32 × UInt32

/-- The list heads a buffer's `list` member can be linked into. -/
inductive ListHead
  | empties | inflight | refills | opens | stash
  /-- `RESERVED` of one open `acq400_path_descriptor`. -/
  | reserved (pd : Nat)
deriving DecidableEq, Repr

structure RtQueueReport where
  reportActive : Bool
  errors : Nat

structure RunTime where
  refillError : Bool
  buffersDropped : Nat
  pleaseStop : Bool
  nget : Nat
  ngetr : Nat
  nput : Nat
  axi64Ints : Nat
  axi64Wakeups : Nat
  axi64Firstups : Nat
  axi64Catchups : Nat
  getEmptyErrors : RtQueueReport
  putFullErrors : RtQueueReport

/-- The module parameters. -/
structure Params where
  runBuffers : Nat
  openBacklog : Int
  axiPoisonOffset : Nat
  axiInitBuffers : Bool
  axiDebugLoopbackIndex : Int
  axiDmaHasCatchup : Bool
  quitOnBufferExhaustion : Bool
  axiOneshot : Bool
  /-- `AXI_ONESHOT`, a parameter other than `axi_oneshot`. -/
  axiOneshotCount : Nat
  axi64DualPoisonUdelay : Nat

/-- The parameters as the module is loaded without options. -/
def Params.loaded : Params :=
  { runBuffers := 0
    openBacklog := 0
    axiPoisonOffset := 0
    axiInitBuffers := false
    axiDebugLoopbackIndex := 0
    axiDmaHasCatchup := true
    quitOnBufferExhaustion := false
    axiOneshot := false
    axiOneshotCount := 0
    axi64DualPoisonUdelay := 100 }

/-- What `adev->onPutEmpty` points to. -/
inductive OnPutEmpty
  | nullPutEmpty | poisonOneBufferFastidious
deriving DecidableEq, Repr

/-- `struct acq400_dev`. -/
structure Dev where
  hb : HbmPtr → Hbm
  lists : ListHead → List HbmPtr
  bufferlen : Nat
  /-- `axi64[ichan].axi64_hb[0 .. ndesc-1]`. -/
  axi64Hb : Nat → List HbmPtr
  taskActive : Bool
  statsErrors : Nat
  onPutEmpty : OnPutEmpty
  rt : RunTime
  par : Params

/-- The run-time record as it is cleared when a capture starts. -/
def RunTime.cleared : RunTime :=
  { refillError := false
    buffersDropped := 0
    pleaseStop := false
    nget := 0
    ngetr := 0
    nput := 0
    axi64Ints := 0
    axi64Wakeups := 0
    axi64Firstups := 0
    axi64Catchups := 0
    getEmptyErrors := { reportActive := false, errors := 0 }
    putFullErrors := { reportActive := false, errors := 0 } }

namespace Dev

/--
A device with its buffers allocated: `nbuffers` of them on EMPTIES in index order,
as `hbm_allocate` links them, over pages that hold `va`.
-/
def allocated (nbuffers bufferlen : Nat) (par : Params) (va : HbmPtr → Nat → UInt32) : Dev :=
  { hb := fun hbm =>
      { va := va hbm, len := bufferlen, ix := hbm, bstate := .empty, poisonData := (0, 0) }
    lists := fun
      | .empties => List.range nbuffers
      | _ => []
    bufferlen := bufferlen
    axi64Hb := fun _ => []
    taskActive := false
    statsErrors := 0
    onPutEmpty := .nullPutEmpty
    rt := .cleared
    par := par }

/-- `hbm->bstate = b`. -/
def setBstate (adev : Dev) (hbm : HbmPtr) (b : BState) : Dev :=
  { adev with hb := Function.update adev.hb hbm { adev.hb hbm with bstate := b } }

/-- `list_move_tail(&hbm->list, dst)` of an entry of `src`. -/
def listMoveTail (adev : Dev) (hbm : HbmPtr) (src dst : ListHead) : Dev :=
  let unlinked := Function.update adev.lists src ((adev.lists src).erase hbm)
  { adev with lists := Function.update unlinked dst (unlinked dst ++ [hbm]) }

/-- `list_move(&hbm->list, dst)` of an entry of `src`: to the head. -/
def listMove (adev : Dev) (hbm : HbmPtr) (src dst : ListHead) : Dev :=
  let unlinked := Function.update adev.lists src ((adev.lists src).erase hbm)
  { adev with lists := Function.update unlinked dst (hbm :: unlinked dst) }

/-- `hbm->va[word] = value`. -/
def setWord (adev : Dev) (hbm : HbmPtr) (word : Nat) (value : UInt32) : Dev :=
  { adev with
    hb := Function.update adev.hb hbm
      { adev.hb hbm with va := Function.update (adev.hb hbm).va word value } }

@[simp] theorem setBstate_lists (adev : Dev) (hbm : HbmPtr) (b : BState) :
    (adev.setBstate hbm b).lists = adev.lists := rfl

@[simp] theorem setWord_lists (adev : Dev) (hbm : HbmPtr) (w : Nat) (v : UInt32) :
    (adev.setWord hbm w v).lists = adev.lists := rfl

@[simp] theorem listMoveTail_hb (adev : Dev) (hbm : HbmPtr) (src dst : ListHead) :
    (adev.listMoveTail hbm src dst).hb = adev.hb := rfl

@[simp] theorem listMove_hb (adev : Dev) (hbm : HbmPtr) (src dst : ListHead) :
    (adev.listMove hbm src dst).hb = adev.hb := rfl

theorem setBstate_bstate (adev : Dev) (hbm cur : HbmPtr) (b : BState) :
    ((adev.setBstate hbm b).hb cur).bstate = if cur = hbm then b else (adev.hb cur).bstate := by
  unfold setBstate
  by_cases h : cur = hbm
  · simp [h]
  · simp [h]

@[simp] theorem setBstate_ix (adev : Dev) (hbm cur : HbmPtr) (b : BState) :
    ((adev.setBstate hbm b).hb cur).ix = (adev.hb cur).ix := by
  unfold setBstate
  by_cases h : cur = hbm
  · simp [h]
  · simp [h]

@[simp] theorem setWord_bstate (adev : Dev) (hbm cur : HbmPtr) (w : Nat) (v : UInt32) :
    ((adev.setWord hbm w v).hb cur).bstate = (adev.hb cur).bstate := by
  unfold setWord
  by_cases h : cur = hbm
  · simp [h]
  · simp [h]

end Dev

end Acq400
