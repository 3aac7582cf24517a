/-
Samples of the buffers that are full, sent to a host: `bbq_send_ai.cpp`, `send` and the loop of
`run`.

An address is an offset from the base of the buffer, and it has 32 bits, as `int` and `unsigned`
have: a product of them keeps the low ones.  A send is what the sender is called with; what
`verbose` writes beside it is left out, and so is what becomes of it on the way.
-/
import Acq400.Stream.FindEvent

namespace Acq400

namespace BbqSend

/-- `namespace G`, as far as it is used. -/
structure Globals where
  samplesPerPacket : Nat
  bufferDataBytes : BitVec 32
  sampleSizeBytes : BitVec 32
  packetsPerBuffer : Nat
  /-- `spad` is not 0. -/
  spad : Bool

structure LocalSpad where
  w0 : UInt32
  w1 : UInt32
  w2 : UInt32
  w3 : UInt32
deriving DecidableEq, Repr

/-- A call of `G::sender->send`: with some bytes of the buffer, or with `local_spad`, for which four
words have been looked at in the buffer. -/
inductive Send
  | data (off len : BitVec 32)
  | spad (src : BitVec 32) (words : LocalSpad)
deriving DecidableEq, Repr

variable (g : Globals)

def lspadlen : BitVec 32 := 16

/-- `instrument_spad`, which looks at the end of the sample. -/
def instrumentSpad (buf : Mem) (ib : Nat) (cursor : BitVec 32) (localSpad : LocalSpad) :
    BitVec 32 × LocalSpad :=
  let src := cursor + g.sampleSizeBytes - lspadlen
  let spad0 := buf.load32 src.toNat
  let spad1 := buf.load32 (src.toNat + 4)
  (src, { w0 := spad0, w1 := spad1, w2 := spad0 - localSpad.w0, w3 := UInt32.ofNat ib })

/-- What is sent of one sample. -/
def sendSample (buf : Mem) (ib : Nat) (cursor : BitVec 32) (localSpad : LocalSpad) :
    List Send × LocalSpad :=
  if g.spad then
    let (src, words) := instrumentSpad g buf ib cursor localSpad
    ([.data cursor (g.sampleSizeBytes - lspadlen), .spad src words], words)
  else ([.data cursor g.sampleSizeBytes], localSpad)

/-- The loop over the samples of a packet, of which `left` are left. -/
def packetLoop (buf : Mem) (ib : Nat) (cursor : BitVec 32) : Nat → Nat → LocalSpad →
    List Send × LocalSpad
  | 0, _, localSpad => ([], localSpad)
  | left + 1, ii, localSpad =>
    let (sends, words) :=
      sendSample g buf ib (cursor + BitVec.ofNat 32 ii * g.sampleSizeBytes) localSpad
    let (more, words) := packetLoop buf ib cursor left (ii + 1) words
    (sends ++ more, words)

/-- The loop over the packets. -/
def packets (buf : Mem) (ib : Nat) (stride : BitVec 32) : Nat → BitVec 32 → LocalSpad →
    List Send × LocalSpad
  | 0, _, localSpad => ([], localSpad)
  | left + 1, cursor, localSpad =>
    let (sends, words) := packetLoop g buf ib cursor g.samplesPerPacket 0 localSpad
    let (more, words) := packets buf ib stride left (cursor + stride) words
    (sends ++ more, words)

/-- The loop over all of a buffer. -/
def messages (len : BitVec 32) : Nat → BitVec 32 → List Send
  | 0, _ => []
  | left + 1, cursor => .data cursor len :: messages len left (cursor + len)

/-- `send`; it does not divide by 0. -/
def send (buf : Mem) (ib : Nat) (localSpad : LocalSpad) : Option (List Send × LocalSpad) :=
  if 0 < g.packetsPerBuffer then
    let stride := g.bufferDataBytes / BitVec.ofNat 32 g.packetsPerBuffer
    some (packets g buf ib stride g.packetsPerBuffer 0 localSpad)
  else
    let len := g.sampleSizeBytes * BitVec.ofNat 32 g.samplesPerPacket
    if len = 0 then none
    else
      let imax := g.bufferDataBytes / len
      some (messages len imax.toInt.toNat 0, localSpad)

/-- `run`, of the buffers in the order in which they are full, with what they hold. -/
def run : List (Nat × Mem) → LocalSpad → Option (List (List Send))
  | [], _ => some []
  | (ib, buf) :: rest, localSpad => do
    let (sends, words) ← send g buf ib localSpad
    let more ← run rest words
    some (sends :: more)

/-- `local_spad` is static. -/
def zeroSpad : LocalSpad := { w0 := 0, w1 := 0, w2 := 0, w3 := 0 }

end BbqSend

end Acq400
