/-
Loading the play buffers from a stream (`bb.cpp`): `_fread` and `_load_by_buffer`.

A turn is one `pselect` and what follows, up to the next one or to the end.  It times out,
or finds the descriptor readable; where the stream has ended that is a read of no bytes.
The descriptor has no exceptional condition, and no call fails.  The buffers are as long
as `play_bufferlen`, mapped one behind the other.
-/
import Acq400.Awg.LoadPad
import Acq400.Lib.Run

namespace Acq400

/-- How a `pselect` ends. -/
inductive LoadEv
  /-- One byte is there and `more` behind it, if the stream has as many left. -/
  | ready (more : Nat)
  | timeout
deriving DecidableEq, Repr

/-- `_load_by_buffer`, in an `_fread` or at its end. -/
structure LoadSt where
  mem : Nat → UInt8
  /-- What is left of the stream, and how many bytes of it have been received. -/
  stream : List UInt8
  received : Nat
  buf : Nat
  nsamples : Nat
  /-- `bp - bp0`, of `_fread`. -/
  got : Nat
  /-- `nread`, of `_fread`. -/
  nread : Nat
  /-- The memory before it was padded, and what was returned. -/
  loaded : Nat → UInt8
  ret : Option Nat

namespace LoadPrams

variable (g : LoadPrams)

def spb : Nat := g.playBufferlen / g.sampleSize

def maxbytes : Nat := g.spb * g.sampleSize

/-- Append whole samples until the DMAC will accept the byte count: `room` is how many go in. -/
def pingPad (last : Nat → UInt8) : Nat → Nat → (Nat → UInt8) → Nat × (Nat → UInt8)
  | 0, nsamples, mem => (nsamples, mem)
  | room + 1, nsamples, mem =>
    if pl330AwgLenOk (nsamples * g.sampleSize) then (nsamples, mem)
    else
      pingPad last room (nsamples + 1)
        (memcpy mem (nsamples * g.sampleSize) last g.sampleSize)

/-- What is returned once an `_fread` has read no sample, and the memory. -/
def endLoad (buf nsamples : Nat) (mem : Nat → UInt8) : Option (Nat × (Nat → UInt8)) :=
  if buf = 1 ∧ 0 < g.spb then
    -- PING only
    if 0 < nsamples then
      let last := g.last mem (nsamples * g.sampleSize)
      some (g.pingPad last (g.spb - nsamples) nsamples mem)
    else some (nsamples, mem)
  else g._loadPad mem nsamples

end LoadPrams

namespace LoadSt

variable (g : LoadPrams) (nbuffers : Nat) (s : LoadSt)

/-- `_load_by_buffer` returns. -/
def finish (r : Option (Nat × (Nat → UInt8))) : Option LoadSt :=
  r.map fun (count, mem) => { s with loaded := s.mem, mem := mem, ret := some count }

/-- The loop of `_load_by_buffer` goes on to buffer `s.buf`. -/
def enter : Option LoadSt :=
  if s.buf < nbuffers then
    if 0 < g.maxbytes then some { s with got := 0, nread := 0 }
    else s.finish (g.endLoad s.buf s.nsamples s.mem)
  else s.finish (g._loadPad s.mem s.nsamples)

/-- `_fread` returns. -/
def freadReturn : Option LoadSt :=
  let nread := s.got / g.sampleSize
  if 0 < nread then enter g nbuffers { s with nsamples := s.nsamples + nread, buf := s.buf + 1 }
  else s.finish (g.endLoad s.buf s.nsamples s.mem)

/-- The condition of the loop of `_fread`. -/
def freadLoop : Option LoadSt :=
  if s.got < g.maxbytes then some s else s.freadReturn g nbuffers

/-- `read(fd, bp, maxbytes - (bp - bp0))`, of `n` bytes. -/
def read (n : Nat) : LoadSt :=
  let bp := s.buf * g.playBufferlen + s.got
  { s with
    mem := memcpy s.mem bp (fun k => s.stream.getD k 0) n
    stream := s.stream.drop n
    received := s.received + n
    nread := n }

/-- One turn. -/
def step (ev : LoadEv) : Option LoadSt :=
  if s.ret.isSome then none
  else
    match ev with
    | .ready more =>
      let n := min (more + 1) (min (g.maxbytes - s.got) s.stream.length)
      let s := s.read g n
      if n = 0 then s.freadReturn g nbuffers
      else { s with got := s.got + s.nread }.freadLoop g nbuffers
    | .timeout =>
      -- `continue` also moves `bp` on
      if s.got = 0 then { s with got := s.got + s.nread }.freadLoop g nbuffers
      else s.freadReturn g nbuffers

/-- `_load_by_buffer`, up to its first `pselect`. -/
def start (mem : Nat → UInt8) (stream : List UInt8) : Option LoadSt :=
  enter g nbuffers
    { mem := mem
      stream := stream
      received := 0
      buf := 0
      nsamples := 0
      got := 0
      nread := 0
      loaded := mem
      ret := none }

end LoadSt

end Acq400
