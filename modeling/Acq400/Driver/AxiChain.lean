/-
Poison: how `acq400_axi_chain.c` tells a finished buffer from one the DMA engine
is still to fill.

Two words near the end of a buffer are overwritten with constants that data does
not take; when both constants are gone the DMA engine has passed.  The words that
were there are stashed in the buffer's `poison_data`, and put back by
`clear_poison_from_buffer` when capture stops before the engine gets there.

`dma_sync_single_*` only moves cache lines and has no counterpart here.  Word
indices are `unsigned`, so `FIRST_POISON_WORD` wraps for an offset under 8 bytes.
-/
import Acq400.Driver.Device

namespace Acq400

def poison0 : UInt32 := 0xc0de0000
def poison1 : UInt32 := 0xc1de0000

def usz : Nat := 4

/-- `FIRST_POISON_WORD(pob)`, as the `unsigned` it is assigned to. -/
def firstPoisonWord (pob : Nat) : Nat := (pob / usz + 2 ^ 32 - 2) % 2 ^ 32

namespace Dev

/-- `poison_offset`: the offset, and the device after the parameter has been cut to it. -/
def poisonOffset (adev : Dev) : Nat × Dev :=
  if adev.par.axiPoisonOffset = 0 then
    (adev.bufferlen, adev)
  else
    let offset := if adev.bufferlen < adev.par.axiPoisonOffset then adev.bufferlen
      else adev.par.axiPoisonOffset
    (offset, { adev with par := { adev.par with axiPoisonOffset := offset } })

/-- The index of `va[first_word+0]`, which holds POISON0. -/
def poisonWord0 (adev : Dev) : Nat := firstPoisonWord adev.poisonOffset.1

/-- The index of `va[first_word+1]`, which holds POISON1. -/
def poisonWord1 (adev : Dev) : Nat := (adev.poisonWord0 + 1) % 2 ^ 32

def initOneBuffer (adev : Dev) (hbm : HbmPtr) : Dev :=
  (List.range (adev.bufferlen / usz)).foldl
    (fun adev ii => adev.setWord hbm ii (UInt32.ofNat ii)) adev

/-- The stash of `poison_one_buffer`: a word that is poison already is not stashed. -/
def stash (hbm : Hbm) (w0 w1 : Nat) : UInt32 × UInt32 :=
  (if hbm.va w0 ≠ poison0 then hbm.va w0 else hbm.poisonData.1,
   if hbm.va w1 ≠ poison1 then hbm.va w1 else hbm.poisonData.2)

def poisonOneBuffer (adev : Dev) (hbm : HbmPtr) : Dev :=
  let w0 := adev.poisonWord0
  let w1 := adev.poisonWord1
  let adev := adev.poisonOffset.2
  let stashed : Dev :=
    { adev with
      hb := Function.update adev.hb hbm
        { adev.hb hbm with poisonData := stash (adev.hb hbm) w0 w1 } }
  (stashed.setWord hbm w0 poison0).setWord hbm w1 poison1

def poisonOneBufferFastidious (adev : Dev) (hbm : HbmPtr) : Dev :=
  if adev.par.axiDebugLoopbackIndex ≤ (adev.hb hbm).ix then adev.poisonOneBuffer hbm else adev

def poisonOverwritten (adev : Dev) (hbm : HbmPtr) : Bool × Dev :=
  (decide ((adev.hb hbm).va adev.poisonWord0 ≠ poison0) &&
    decide ((adev.hb hbm).va adev.poisonWord1 ≠ poison1), adev.poisonOffset.2)

def dmaDone (adev : Dev) (hbm : HbmPtr) : Bool × Dev := adev.poisonOverwritten hbm

def clearPoisonFromBuffer (adev : Dev) (hbm : HbmPtr) : Dev :=
  let w0 := adev.poisonWord0
  let w1 := adev.poisonWord1
  let (overwritten, adev) := adev.poisonOverwritten hbm
  if overwritten then adev
  else
    (adev.setWord hbm w0 (adev.hb hbm).poisonData.1).setWord hbm w1 (adev.hb hbm).poisonData.2

/-- `_poison_all_buffers` for both channels, as `poison_all_buffers` calls it. -/
def poisonAllBuffers (adev : Dev) : Dev :=
  (adev.axi64Hb 0 ++ adev.axi64Hb 1).foldl
    (fun adev hbm =>
      (if adev.par.axiInitBuffers then adev.initOneBuffer hbm else adev).poisonOneBuffer hbm) adev

def clearPoisonAllBuffers (adev : Dev) : Dev :=
  (adev.axi64Hb 0 ++ adev.axi64Hb 1).foldl clearPoisonFromBuffer adev

/-- `check_all_buffers_are_poisoned`: how many buffers on EMPTIES fail. -/
def checkAllBuffersArePoisoned (adev : Dev) : Nat :=
  ((adev.lists .empties).filter fun cursor => (adev.poisonOverwritten cursor).1).length

/-- The call through `adev->onPutEmpty`. -/
def callOnPutEmpty (adev : Dev) (hbm : HbmPtr) : Dev :=
  match adev.onPutEmpty with
  | .nullPutEmpty => adev
  | .poisonOneBufferFastidious => adev.poisonOneBufferFastidious hbm

/-! ### Poison leaves the lists and the state tags alone -/

@[simp] theorem poisonOffset_lists (adev : Dev) : adev.poisonOffset.2.lists = adev.lists := by
  unfold poisonOffset
  split <;> rfl

@[simp] theorem poisonOffset_hb (adev : Dev) : adev.poisonOffset.2.hb = adev.hb := by
  unfold poisonOffset
  split <;> rfl

@[simp] theorem poisonOneBuffer_lists (adev : Dev) (hbm : HbmPtr) :
    (adev.poisonOneBuffer hbm).lists = adev.lists := by
  simp [poisonOneBuffer]

@[simp] theorem poisonOneBuffer_bstate (adev : Dev) (hbm cur : HbmPtr) :
    ((adev.poisonOneBuffer hbm).hb cur).bstate = (adev.hb cur).bstate := by
  simp only [poisonOneBuffer, setWord_bstate, poisonOffset_hb]
  by_cases h : cur = hbm
  · simp [h]
  · simp [h]

@[simp] theorem poisonOverwritten_lists (adev : Dev) (hbm : HbmPtr) :
    (adev.poisonOverwritten hbm).2.lists = adev.lists := adev.poisonOffset_lists

@[simp] theorem dmaDone_lists (adev : Dev) (hbm : HbmPtr) :
    (adev.dmaDone hbm).2.lists = adev.lists := adev.poisonOffset_lists

@[simp] theorem callOnPutEmpty_lists (adev : Dev) (hbm : HbmPtr) :
    (adev.callOnPutEmpty hbm).lists = adev.lists := by
  unfold callOnPutEmpty poisonOneBufferFastidious
  split
  · rfl
  · split
    · exact poisonOneBuffer_lists adev hbm
    · rfl

@[simp] theorem callOnPutEmpty_bstate (adev : Dev) (hbm cur : HbmPtr) :
    ((adev.callOnPutEmpty hbm).hb cur).bstate = (adev.hb cur).bstate := by
  unfold callOnPutEmpty poisonOneBufferFastidious
  split
  · rfl
  · split
    · exact poisonOneBuffer_bstate adev hbm cur
    · rfl

private theorem foldl_lists (f : Dev → HbmPtr → Dev)
    (hf : ∀ adev hbm, (f adev hbm).lists = adev.lists) :
    ∀ (l : List HbmPtr) (adev : Dev), (l.foldl f adev).lists = adev.lists := by
  intro l
  induction l with
  | nil => intro adev; rfl
  | cons hbm rest ih => intro adev; rw [List.foldl_cons, ih, hf]

@[simp] theorem initOneBuffer_lists (adev : Dev) (hbm : HbmPtr) :
    (adev.initOneBuffer hbm).lists = adev.lists :=
  foldl_lists _ (fun adev ii => adev.setWord_lists hbm ii _) _ adev

@[simp] theorem poisonAllBuffers_lists (adev : Dev) :
    adev.poisonAllBuffers.lists = adev.lists := by
  refine foldl_lists _ (fun adev hbm => ?_) _ adev
  rw [poisonOneBuffer_lists]
  split
  · exact adev.initOneBuffer_lists hbm
  · rfl

@[simp] theorem clearPoisonFromBuffer_lists (adev : Dev) (hbm : HbmPtr) :
    (adev.clearPoisonFromBuffer hbm).lists = adev.lists := by
  unfold clearPoisonFromBuffer
  simp only
  split
  · exact adev.poisonOverwritten_lists hbm
  · simp

@[simp] theorem clearPoisonAllBuffers_lists (adev : Dev) :
    adev.clearPoisonAllBuffers.lists = adev.lists :=
  foldl_lists _ (fun adev hbm => adev.clearPoisonFromBuffer_lists hbm) _ adev

end Dev

end Acq400
