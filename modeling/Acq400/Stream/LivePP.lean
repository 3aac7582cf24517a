/-
The live display around an event: `StreamHeadLivePP::_stream` in `acq400_stream.cpp`.

Once `findEvent` has found an event at `es` in buffer `ibuf`, the data before and after it
is handed to the demux, as an offset from buffer 0 and a length.  The lengths are made
longer by what `countES` counts of event signatures, which are not shown.

`prelen` and the like are `int`.  An `int` that overflows is `none`, as is a count that
does not come to its end; only the product in `prelen` and `postlen` is unsigned, and
wraps.  `pre` and `post` are what `getPP` has read; waiting and reports are left out.
-/
import Acq400.Lib.CInt
import Acq400.Stream.BufferDistribution
import Acq400.Stream.FindEvent

namespace Acq400.StreamHeadLivePP

/-- What `writeBuffer` is called with, `BUFFER_OPTS` first. -/
structure LiveWrite where
  bo : Nat
  startOff : Int
  len : Int
deriving DecidableEq, Repr

variable (g : PrePost) (m : Mem)

def prelen : Int := CInt.wrap (g.pre * g.sampleSize)

def postlen : Int := CInt.wrap (g.post * g.sampleSize)

def evX : ES := ES.evX g.isAcq480

/-- The `stride` of `countES`, in 32 bit words. -/
def stride : Nat := g.sampleSize / 4

/-- The loop of `countES`, with `cursor - base` at `pos`. -/
def countESLoop (start : Nat) (lenw : Int) : Nat → Nat → Nat → Option Nat
  | 0, _, _ => none
  | fuel + 1, pos, escount =>
    if (pos : Int) < lenw then
      countESLoop start lenw fuel (pos + stride g)
        (if (evX g).isES m (start + 4 * pos) then escount + 1 else escount)
    else some escount

/-- `countES`; `len / G::wordsize` is a division of unsigned numbers. -/
def countES (fuel start : Nat) (len : Int) : Option Nat :=
  countESLoop g m start (CInt.wrap (CInt.unsigned len / g.wordsize)) fuel 0 0

/-- The loop of `countES`, with the addresses of the words that it inspects. -/
def countESLoopInspect (start : Nat) (lenw : Int) : Nat → Nat → Nat → Option (Nat × List Nat)
  | 0, _, _ => none
  | fuel + 1, pos, escount =>
    if (pos : Int) < lenw then
      (countESLoopInspect start lenw fuel (pos + stride g)
        (if (evX g).isES m (start + 4 * pos) then escount + 1 else escount)).map
          (Prod.map id ((evX g).inspects m (start + 4 * pos) ++ ·))
    else some (escount, [])

def countESInspect (fuel start : Nat) (len : Int) : Option (Nat × List Nat) :=
  countESLoopInspect g m start (CInt.wrap (CInt.unsigned len / g.wordsize)) fuel 0 0

/-- `es1`, where the data after the event is taken to start. -/
def es1 (es : Nat) : Nat := es + (if g.showEs then 0 else g.esSize)

/-- What is checked of an event before anything is written; MAX_FORTRACK is 0 here. -/
def passes (ibuf es : Nat) : Bool :=
  !decide ((g.nbuffers : Int) - 1 ≤ ibuf) &&
  !decide ((MapBuffer.getBase g.toG ibuf + g.bufferlen : Nat) < (es : Int) + postlen g) &&
  (decide ((MapBuffer.getBase g.toG 0 : Int) < es - prelen g) &&
    decide (es1 g es + postlen g < MapBuffer.baHi g.toG))

/-- `bo1` has BO_START where there is data before the event, and BO_FINISH where there is none
after it. -/
def bo1 : Nat := (if g.pre ≠ 0 then 1 else 0) + if g.post = 0 then 2 else 0

def bo2 : Nat := (if g.pre ≠ 0 then 0 else 1) + if g.post = 0 then 0 else 2

/-- The write of the data before the event. -/
def writePre (fuel es : Nat) : Option LiveWrite := do
  let b0 := MapBuffer.getBase g.toG 0
  let escount ← countES g m fuel ((es : Int) - prelen g).toNat (prelen g)
  let eslen ← CInt.value (escount * g.esSize)
  let startOff ← CInt.value (es - prelen g - b0 - eslen)
  let len ← CInt.value (prelen g + eslen)
  some { bo := bo1 g, startOff := startOff, len := len }

/-- What is done `if (pre)`. -/
def writeBefore (fuel es : Nat) : Option (Option LiveWrite) :=
  if g.pre ≠ 0 then (writePre g m fuel es).map some else some none

/-- The write of the data after it. -/
def writePost (fuel es : Nat) : Option LiveWrite := do
  let b0 := MapBuffer.getBase g.toG 0
  let escount ← countES g m fuel (es1 g es) (postlen g)
  let eslen ← CInt.value (escount * g.esSize)
  let startOff ← CInt.value (es1 g es - b0)
  let len ← CInt.value (postlen g + eslen)
  some { bo := bo2 g, startOff := startOff, len := len }

/-- What is done `if (post)`. -/
def writeAfter (fuel es : Nat) : Option (Option LiveWrite) :=
  if g.post ≠ 0 then (writePost g m fuel es).map some else some none

/-- What is written for the event at `es`, before it and after it; nothing where it is dropped. -/
def writes (fuel ibuf es : Nat) : Option (Option LiveWrite × Option LiveWrite) :=
  if passes g ibuf es then do
    let before ← writeBefore g m fuel es
    let after ← writeAfter g m fuel es
    some (before, after)
  else some (none, none)

end Acq400.StreamHeadLivePP
