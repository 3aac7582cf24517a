/-
The search for an event in `acq400_stream.cpp`: `StreamHeadImpl::findEvent`, over the
event signatures of `ES.cpp` and the ring of buffers of `Buffer.h`.

A signature is looked for in one buffer after the other: in the one the event was
announced for, in some of those behind it, in the one before it, and then backwards.
`buffer_0_reserved` is 0 or, after `MapBuffer::reserve`, 2, and `Buffer::last_buf` is
the number of buffers.  `event_info` is taken as the two numbers that are scanned from
it, and what is only reported (`report`, `reportFindEvent`) is left out.

A loop that may not come to its end has `fuel`, and `none` is also what an index
outside `the_buffers` gives.
-/
import Acq400.Stream.Buffer

namespace Acq400

/-! ### Event signatures -/

/-- `*reinterpret_cast<unsigned*>(a)`, the low byte first. -/
def Mem.load32 (m : Mem) (a : Nat) : UInt32 :=
  (m a).toUInt32 ||| (m (a + 1)).toUInt32 <<< 8 ||| (m (a + 2)).toUInt32 <<< 16
    ||| (m (a + 3)).toUInt32 <<< 24

/-- `ES<MASK, PAT, MATCHES>`. -/
structure ES where
  mask : UInt32
  pat : UInt32
  matchBits : Nat

namespace ES

def isEsWord (es : ES) (word : UInt32) : Bool := word &&& es.mask == es.pat

/-- The loop of `isES`: `left` is what is left of the match bits, of which there are 32. -/
def isESLoop (es : ES) (m : Mem) (cursor : Nat) : Nat → Nat → Nat → Bool → Bool
  | 0, _, _, isEs => isEs
  | bits + 1, left, ic, isEs =>
    if left = 0 then isEs
    else if left % 2 ≠ 0 then
      if es.isEsWord (m.load32 (cursor + 4 * ic)) then
        isESLoop es m cursor bits (left / 2) (ic + 1) true
      else false
    else isESLoop es m cursor bits (left / 2) (ic + 1) isEs

def isES (es : ES) (m : Mem) (cursor : Nat) : Bool := isESLoop es m cursor 32 es.matchBits 0 false

/-- The loop of `isES`, with the addresses of the words that it inspects. -/
def isESInspect (es : ES) (m : Mem) (cursor : Nat) : Nat → Nat → Nat → Bool → Bool × List Nat
  | 0, _, _, isEs => (isEs, [])
  | bits + 1, left, ic, isEs =>
    if left = 0 then (isEs, [])
    else if left % 2 ≠ 0 then
      if es.isEsWord (m.load32 (cursor + 4 * ic)) then
        (isESInspect es m cursor bits (left / 2) (ic + 1) true).map id ((cursor + 4 * ic) :: ·)
      else (false, [cursor + 4 * ic])
    else isESInspect es m cursor bits (left / 2) (ic + 1) isEs

/-- The addresses of the words that `isES` inspects. -/
def inspects (es : ES) (m : Mem) (cursor : Nat) : List Nat :=
  (isESInspect es m cursor 32 es.matchBits 0 false).2

/-- MATCHES of the instances. -/
def instanceMatches (isAcq480 : Bool) : Nat := if isAcq480 then 0x0a else 0x0f

/-- `evX_instance`. -/
def evX (isAcq480 : Bool) : ES := ⟨0xfffffff0, 0xaa55f150, instanceMatches isAcq480⟩

/-- `ev0_instance`. -/
def ev0 (isAcq480 : Bool) : ES := ⟨0xffffffff, 0xaa55f151, instanceMatches isAcq480⟩

/-- `ev1_instance`. -/
def ev1 (isAcq480 : Bool) : ES := ⟨0xffffffff, 0xaa55f152, instanceMatches isAcq480⟩

/-- What `StreamHeadImpl` takes for its active event signature. -/
def evA (isAcq480 : Bool) (findEventMask : Nat) : ES :=
  if findEventMask &&& 3 = 3 then evX isAcq480
  else if findEventMask &&& 2 = 2 then ev1 isAcq480
  else ev0 isAcq480

end ES

/-! ### The ring of buffers -/

namespace MapBuffer

/-- `pred`, of buffer `ibuf`. -/
def pred (g : G) (buffer0Reserved ibuf : Nat) : Int :=
  if ibuf = buffer0Reserved then (g.nbuffers : Int) - 1 else (ibuf : Int) - 1

def succ (g : G) (buffer0Reserved ibuf : Nat) : Int :=
  if (g.nbuffers : Int) - 1 ≤ ibuf then buffer0Reserved else (ibuf : Int) + 1

/-- `Buffer::the_buffers[ib]`, by its index. -/
def theBuffers (g : G) (ib : Int) : Option Nat :=
  if 0 ≤ ib ∧ ib < g.nbuffers then some ib.toNat else none

end MapBuffer

/-! ### The search -/

/-- What the search reads of a `StreamHeadImpl` and of the globals. -/
structure StreamHeadImpl extends G where
  buffer0Reserved : Nat
  evA : ES
  maxBacktrack : Int
  maxFortrack : Int
  stopOnFail : Bool

/-- How `findEvent` ends: true with `*ibuf` and `*espp`, false, or in `exit(1)`. -/
inductive FindEventResult where
  | found (ibuf : Int) (esp : Nat)
  | notFound
  | exited
deriving DecidableEq, Repr

namespace StreamHeadImpl

variable (h : StreamHeadImpl) (m : Mem)

/-- The `stride` of the search, in 32 bit words. -/
def stride : Nat := h.nchan * h.wordsize / 4

def len32 : Nat := h.bufferlen / 4

/-- The loop of `findEvent(Buffer*)`, with `cursor - base` at `pos`. -/
def findEventLoop (base : Nat) : Nat → Nat → Option (Option Nat)
  | 0, _ => none
  | fuel + 1, pos =>
    if pos < h.len32 then
      if h.evA.isES m (base + 4 * pos) then some (some (base + 4 * pos))
      else findEventLoop base fuel (pos + h.stride)
    else some none

/-- `findEvent(Buffer*)`. -/
def findEventBuffer (fuel theBuffer : Nat) : Option (Option Nat) :=
  findEventLoop h m (MapBuffer.getBase h.toG theBuffer) fuel 0

/-- The loop over `iforward`, with `n` turns to come; where it finds one, `b3` and `esp`. -/
def forward (fuel : Nat) : Nat → Nat → Option (Option (Int × Nat))
  | 0, _ => some none
  | n + 1, buffer3 => do
    let b3 := MapBuffer.succ h.toG h.buffer0Reserved buffer3
    let buffer3 ← MapBuffer.theBuffers h.toG b3
    match ← h.findEventBuffer m fuel buffer3 with
    | some esp => some (some (b3, esp))
    | none => forward fuel n buffer3

/-- The loop over `backtrack`. -/
def backtrackLoop (scanFuel buffer2 : Nat) : Nat → Int → Nat → Option (Option Nat)
  | 0, _, _ => none
  | fuel + 1, backtrack, buffer1 => do
    let buffer1 ← MapBuffer.theBuffers h.toG (MapBuffer.pred h.toG h.buffer0Reserved buffer1)
    if buffer1 = buffer2 then some none
    else
      match ← h.findEventBuffer m scanFuel buffer1 with
      | some esp => some (some esp)
      | none =>
        if h.maxBacktrack ≤ backtrack then some none
        else backtrackLoop scanFuel buffer2 fuel (backtrack + 1) buffer1

/-- `findEvent(int*, char**)`, where `event_info` names `b1` and `b2`. -/
def findEvent (fuel : Nat) (b1 b2 : Int) : Option FindEventResult :=
  if b1 = -1 ∧ b2 = -1 then some .notFound
  else do
    let buffer2 ← MapBuffer.theBuffers h.toG b2
    match ← h.findEventBuffer m fuel buffer2 with
    | some esp => some (.found b2 esp)
    | none =>
      match ← h.forward m fuel (h.maxFortrack - 1).toNat buffer2 with
      | some (b3, esp) => some (.found b3 esp)
      | none =>
        let b1 := if b1 = -1 then MapBuffer.pred h.toG h.buffer0Reserved buffer2 else b1
        let buffer1 ← MapBuffer.theBuffers h.toG b1
        match ← h.findEventBuffer m fuel buffer1 with
        | some esp => some (.found b1 esp)
        | none =>
          match ← h.backtrackLoop m fuel buffer2 fuel 1 buffer1 with
          | some esp => some (.found b1 esp)
          | none => some (if h.stopOnFail then .exited else .notFound)

end StreamHeadImpl

end Acq400
