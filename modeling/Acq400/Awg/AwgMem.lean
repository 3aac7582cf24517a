/-
The memory of the AWG through its device node (`acq400_ui.c`): `xo400_awg_open`,
`xo400_awg_read` and `xo400_awg_write`.

The position of a file counts bytes, over all host buffers, and what is to play is counted in
samples.  A call ends at the end of its buffer at the latest.  The buffers are memory of a machine
of 32 bits, and copies from and to the user succeed.
-/
import Acq400.Awg.LoadPad
import Acq400.Lib.Reads

namespace Acq400

/-- The device, as far as its memory is concerned. -/
structure AwgDev where
  nchanEnabled : Nat
  wordSize : Nat
  nchanEnabled_pos : 0 < nchanEnabled
  wordSize_pos : 0 < wordSize
  isAo424 : Bool
  spanIsBipolar : Bool
  len : Nat
  len_pos : 0 < len
  len_lt : len < 2 ^ 31
  /-- How many buffers are in `cursor.hb`. -/
  nbuffers : Nat
  hb_lt : nbuffers * len < 2 ^ 32

/-- An open file. -/
structure AwgFile where
  /-- `cursor.hb[ib]->va`, for each of them. -/
  hb : Nat → Nat → UInt8
  length : Nat
  fPos : Nat

/-- `flip_x16_sign_bit` of `nwords` words from `bp` on; the sign is in the second byte. -/
def flipX16SignBit (mem : Nat → UInt8) (bp nwords : Nat) : Nat → UInt8 :=
  fun a => if bp ≤ a ∧ a < bp + 2 * nwords ∧ (a - bp) % 2 = 1 then mem a ^^^ 0x80 else mem a

namespace AwgDev

variable (dev : AwgDev)

def aoss : Nat := dev.nchanEnabled * dev.wordSize

/-- `xo400_awg_open`, to write or to read. -/
def xo400AwgOpen (hb : Nat → Nat → UInt8) (length : Nat) (wronly : Bool) : AwgFile :=
  { hb := hb, length := if wronly then 0 else length, fPos := 0 }

/-- `xo400_awg_read`: what is read, and the file behind it; none if there is no such buffer. -/
def xo400AwgRead (f : AwgFile) (count : Nat) : Option (List UInt8 × AwgFile) :=
  let pll := f.length * dev.aoss % 2 ^ 32
  let bcursor := f.fPos % 2 ^ 32
  let ib := bcursor / dev.len
  let offset := bcursor - ib * dev.len
  if bcursor ≥ pll then some ([], f)
  else
    let headroom := min (dev.len - offset) (pll - bcursor)
    let count := min count headroom
    if dev.nbuffers ≤ ib then none
    else some (Reads.cells (f.hb ib) offset count, { f with fPos := f.fPos + count })

/-- `xo400_awg_write`: what it returns, and the file behind it; none if there is no such buffer. -/
def xo400AwgWrite (f : AwgFile) (buf : List UInt8) : Option (Nat × AwgFile) :=
  let bcursor := f.fPos % 2 ^ 32
  let ib := bcursor / dev.len
  let offset := bcursor - ib * dev.len
  let headroom := dev.len - offset
  let count := min buf.length headroom
  if dev.nbuffers ≤ ib then none
  else
    let va := memcpy (f.hb ib) offset (fun k => buf.getD k 0) count
    let va := if dev.isAo424 ∧ dev.spanIsBipolar then flipX16SignBit va offset (count / 2) else va
    some (count,
      { hb := fun jb => if jb = ib then va else f.hb jb
        length := (f.length + count / dev.aoss) % 2 ^ 32
        fPos := f.fPos + count })

end AwgDev

end Acq400
