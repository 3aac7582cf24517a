/-
The decoder of ACQ435 data (`acq435_decode.cpp`): `Decoder::analyse`, `resync`, and the loop of
`main` with the default decoder.

The input has no end, and a state of the program is the place it has read to, with `imatch`.  The
loop of `resync` ends where it returns; with too little fuel it has no value.
-/
import Mathlib.Data.BitVec

namespace Acq400

namespace Acq435Decode

/-- `stdin`, word by word. -/
abbrev Input := Nat → BitVec 32

/-- The low five bits. -/
def testId (data : BitVec 32) : Nat := (data &&& 0x1f).toNat

def nc : Nat := 32

/-- The place in the input, and `imatch`. -/
structure Decoder where
  pos : Nat
  imatch : Nat
deriving DecidableEq, Repr

def incr (ii : Nat) : Nat := (ii + 1) &&& 0x1f

/-- `analyse`, of some words from a place on: the result, and `imatch`. -/
def analyse (input : Input) : Nat → Nat → Nat → Bool × Nat
  | 0, _, imatch => (true, imatch)
  | n + 1, pos, imatch =>
    if testId (input pos) = imatch then analyse input n (pos + 1) (incr imatch)
    else (false, testId (input pos))

/-- The `switch` of `resync`. -/
def next (ic testId : Nat) : Nat :=
  match ic with
  | 0 => if testId = 0 then 1 else 0
  | 1 => if testId = 1 then 2 else 0
  | 2 => if testId = 2 then 3 else 0
  | 3 => if testId = 3 then 4 else 0
  | ic => ic + 1

/-- `resync`: the place behind what it reads. -/
def resync (input : Input) : Nat → Nat → Nat → Option Nat
  | 0, _, _ => none
  | fuel + 1, pos, ic =>
    let ic := next ic (testId (input pos))
    if ic = nc then some (pos + 1) else resync input fuel (pos + 1) ic

/-- A turn of the loop of `main`, and what `analyse` returns. -/
inductive Turn (input : Input) : Decoder → Bool → Decoder → Prop
  | good {s : Decoder} {imatch : Nat} : analyse input nc s.pos s.imatch = (true, imatch) →
      Turn input s true ⟨s.pos + nc, imatch⟩
  | bad {s : Decoder} {imatch fuel pos : Nat} : analyse input nc s.pos s.imatch = (false, imatch) →
      resync input fuel (s.pos + nc) 0 = some pos → Turn input s false ⟨pos, imatch⟩

/-- Some turns, with what `analyse` returns in each. -/
inductive Turns (input : Input) : Decoder → List Bool → Decoder → Prop
  | nil {s : Decoder} : Turns input s [] s
  | cons {s s' t : Decoder} {ok : Bool} {oks : List Bool} :
      Turn input s ok s' → Turns input s' oks t → Turns input s (ok :: oks) t

/-- `main` begins with this. -/
def start : Decoder := ⟨0, 0⟩

end Acq435Decode

end Acq400
