/-
Reading a host buffer through its device node: `acq400_hb_read` (`acq400_ui.c`).

A buffer that is poisoned holds two words that are not data.  The read that
reaches the end of the buffer leaves its last `POISON_SZ` bytes out of the plain
copy and takes them from the two words at `FIRST_POISON_WORD`, with the stashed
word in place of one that is still poison.

`count` and `copy_count` are `size_t` of 32 bits and so is the headroom they are
compared with.  `copy_to_user` refuses a length no user range can have, which is
what a `copy_count` below zero has become.
-/
import Acq400.Driver.AxiChain
import Acq400.Lib.Reads

namespace Acq400

/-- `acq400_set_bufferlen`; `bufferlen` is the module parameter. -/
def Dev.acq400SetBufferlen (adev : Dev) (bufferlen request : Nat) : Dev :=
  { adev with bufferlen := if request ≠ 0 then min bufferlen request else bufferlen }

/-- The device with other words in a buffer, and another stash. -/
def Dev.withContents (adev : Dev) (hbm : HbmPtr) (va : Nat → UInt32) (stash : UInt32 × UInt32) :
    Dev :=
  { adev with
    hb := Function.update adev.hb hbm { adev.hb hbm with va := va, poisonData := stash } }

@[simp] theorem Dev.withContents_va (adev : Dev) (hbm : HbmPtr) (va : Nat → UInt32)
    (stash : UInt32 × UInt32) : ((adev.withContents hbm va stash).hb hbm).va = va := by
  simp [withContents]

@[simp] theorem Dev.withContents_poisonData (adev : Dev) (hbm : HbmPtr) (va : Nat → UInt32)
    (stash : UInt32 × UInt32) : ((adev.withContents hbm va stash).hb hbm).poisonData = stash := by
  simp [withContents]

@[simp] theorem Dev.withContents_len (adev : Dev) (hbm : HbmPtr) (va : Nat → UInt32)
    (stash : UInt32 × UInt32) :
    ((adev.withContents hbm va stash).hb hbm).len = (adev.hb hbm).len := by
  simp [withContents]

@[simp] theorem Dev.withContents_par (adev : Dev) (hbm : HbmPtr) (va : Nat → UInt32)
    (stash : UInt32 × UInt32) : (adev.withContents hbm va stash).par = adev.par := rfl

@[simp] theorem Dev.withContents_bufferlen (adev : Dev) (hbm : HbmPtr) (va : Nat → UInt32)
    (stash : UInt32 × UInt32) : (adev.withContents hbm va stash).bufferlen = adev.bufferlen := rfl

def poisonSz : Nat := 2 * usz

/-- `TASK_SIZE`: a longer range is not in user space. -/
def taskSize : Nat := 0xbf000000

/-- Byte `b` of a word, as a little-endian machine stores it. -/
def wordByte (word : UInt32) (b : Nat) : UInt8 := UInt8.ofNat (word.toNat / 256 ^ b)

/-- `((char*)hbm->va)[i]`. -/
def Hbm.byte (hbm : Hbm) (i : Nat) : UInt8 := wordByte (hbm.va (i / usz)) (i % usz)

/-- A host buffer's node while it is open. -/
structure HbFile where
  adev : Dev
  fPos : Nat

namespace HbFile

/-- `count - POISON_SZ`, as the `size_t` it is. -/
def lessPoison (count : Nat) : Nat := (count + 2 ^ 32 - poisonSz) % 2 ^ 32

/-- `px[0]` and `px[1]` as they are copied out. -/
def px (adev : Dev) (hbm : HbmPtr) : UInt32 × UInt32 :=
  let px0 := (adev.hb hbm).va adev.poisonWord0
  let px1 := (adev.hb hbm).va adev.poisonWord1
  (if px0 = poison0 then (adev.hb hbm).poisonData.1 else px0,
   if px1 = poison1 then (adev.hb hbm).poisonData.2 else px1)

/-- The `POISON_SZ` bytes of `px`. -/
def pxBytes (adev : Dev) (hbm : HbmPtr) : List UInt8 :=
  (List.range usz).map (wordByte (px adev hbm).1) ++ (List.range usz).map (wordByte (px adev hbm).2)

/-- `acq400_hb_read`: the bytes returned and the file after, `none` for a return of -1. -/
def acq400HbRead (hbm : HbmPtr) (file : HbFile) (count : Nat) : Option (List UInt8 × HbFile) :=
  let len := (file.adev.hb hbm).len
  let cursor := file.fPos % 2 ^ 32
  if len ≤ cursor then
    some ([], file)
  else
    let headroom := len - cursor
    let count := min count headroom
    let copyCount := if count = headroom then lessPoison count else count
    if taskSize < copyCount then
      none
    else
      let copied := Reads.cells (file.adev.hb hbm).byte cursor copyCount
      if copyCount = lessPoison count then
        some (copied ++ pxBytes file.adev hbm,
          { adev := file.adev.poisonOffset.2, fPos := file.fPos + count })
      else
        some (copied, { file with fPos := file.fPos + count })

/-- The subtractions of one read stay above zero: only the read that reaches the end has one. -/
def NoWrap (hbm : HbmPtr) (file : HbFile) (count : Nat) : Prop :=
  let len := (file.adev.hb hbm).len
  file.fPos < len → len - file.fPos ≤ count → poisonSz ≤ len - file.fPos

end HbFile

end Acq400
