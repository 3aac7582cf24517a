/-
One sample for each buffer: `OversamplingMapBufferSingleSample` in `acq400_stream.cpp`, which
adds up about `oversampling` of the samples of a buffer, `nsam / oversampling` apart.

The words of the buffer are a function of their index, and go on behind its end.  A sum
is an `int`; where it overflows there is no result, and neither is there where the loop
does not end.  `reads` and `count` are not in the source: they record the words that have
been looked at, and how many samples have been summed.
-/
import Acq400.Lib.CInt

namespace Acq400

/-- The loop of `ASR`, for an `int`. -/
def asrLoop (os : Nat) : Nat → Nat → Nat
  | 0, asr => asr
  | fuel + 1, asr => if 2 ^ asr < os then asrLoop os fuel (asr + 1) else asr

/-- `ASR`. -/
def asrOf (os : Nat) : Nat := asrLoop os 31 0

/-- `OversamplingMapBufferSingleSample<T>`, as `createOversamplingBuffer` makes it. -/
structure SingleSample where
  /-- T is `int`, and not `short`. -/
  wide : Bool
  oversampling : Nat
  nsam : Nat
  nchan : Nat
  checkiten : Bool
  showFirstSample : Bool

namespace SingleSample

variable (b : SingleSample)

/-- The bits of T. -/
def bits : Nat := if b.wide then 32 else 16

def asr : Nat := if b.wide ∧ 8 < asrOf b.oversampling then 8 else asrOf b.oversampling

def asr1 : Nat := if b.wide then 8 + asrOf b.oversampling - b.asr else 0

variable (src : Nat → BitVec b.bits)

/-- `src[w] >> asr1`. -/
def shifted (w : Nat) : Int := (src w).toInt >>> b.asr1

/-- The loop of `checkit_ok`, over the channels that are left of 1, 2 and 3; with the words it
looks at. -/
def checkitLoop (checkit : Int) (isam : Nat) : List Nat → Bool × List Nat
  | [] => (false, [])
  | ic :: rest =>
    let w := isam * b.nchan + ic
    if b.shifted src w ≠ checkit then (true, [w])
    else
      let (ok, reads) := checkitLoop checkit isam rest
      (ok, w :: reads)

def checkitOk (isam : Nat) : Bool × List Nat :=
  let w := isam * b.nchan + 0
  let (ok, reads) := b.checkitLoop src (b.shifted src w) isam [1, 2, 3]
  (ok, w :: reads)

/-- What `if (checkiten)` does: `isam` as it is then, unless the buffer is rejected. -/
def check (isam : Nat) : Option Nat × List Nat :=
  if b.checkiten then
    let (ok, reads) := b.checkitOk src isam
    if ok then (some isam, reads)
    else
      let (ok', reads') := b.checkitOk src (isam + 1)
      (if ok' then some (isam + 1) else none, reads ++ reads')
  else (some isam, [])

/-- The words of a sample. -/
def words (isam : Nat) : List Nat := (List.range b.nchan).map (isam * b.nchan + ·)

/-- What `writeBuffer` has come to. -/
structure Summed where
  rejected : Bool
  count : Nat
  sums : Nat → Int
  reads : List Nat

/-- The loop over `ic`. -/
def addSample (sums : Nat → Int) (isam : Nat) : Option (Nat → Int) :=
  let sums' := fun ic => sums ic + b.shifted src (isam * b.nchan + ic)
  if ∀ ic < b.nchan, CInt.InRange (sums' ic) then some sums' else none

/-- The loop over `isam`. -/
def sumLoop : Nat → Nat → Summed → Option Summed
  | 0, _, _ => none
  | fuel + 1, isam, s =>
    if isam < b.nsam then
      match b.check src isam with
      | (none, reads) => some { s with rejected := true, reads := s.reads ++ reads }
      | (some isam', reads) => do
        let sums ← b.addSample src s.sums isam'
        sumLoop fuel (isam' + b.nsam / b.oversampling)
          { rejected := false
            count := s.count + 1
            sums := sums
            reads := s.reads ++ reads ++ b.words isam' }
    else some s

/-- `writeBuffer`, up to the `write` of the sums. -/
def writeBuffer (fuel : Nat) : Option Summed := do
  let s ← b.sumLoop src fuel 0
    { rejected := false
      count := 0
      sums := fun _ => 0
      reads := if b.showFirstSample then b.words 0 else [] }
  if s.rejected then some s
  else some { s with sums := fun ic => s.sums ic >>> b.asr }

end SingleSample

end Acq400
