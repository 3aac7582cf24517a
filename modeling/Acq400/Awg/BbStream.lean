/-
The feeder of the streaming DAC (`bb_stream.cpp`): `playloop` and its two readers.

The device hands out the ids of two buffers, the reader fills them from its file, and the
ids are written back.  A buffer is then played, so what it holds when its id is written
back is what comes out.
-/
import Acq400.Lib.CInt
import Acq400.Lib.Reads
import Acq400.Awg.LoadPad

namespace Acq400

/-- A `FILE` that is read: its content, and how far it has been read.  A stream that has not
ended yet is one that is longer than what has been read of it. -/
structure InFile where
  data : Nat → UInt8
  size : Nat
  pos : Nat

def InFile.rewind (fp : InFile) : InFile := { fp with pos := 0 }

/-- The buffers, mapped one behind the other, and the file of the reader. -/
structure Feed where
  mem : Nat → UInt8
  fp : InFile

/-- `fread(bp, 1, n, fp)`: the count it returns. -/
def Feed.count (s : Feed) (n : Nat) : Nat := min n (s.fp.size - s.fp.pos)

/-- And what it does. -/
def Feed.fread (s : Feed) (bp n : Nat) : Feed where
  mem := memcpy s.mem bp (fun k => s.fp.data (s.fp.pos + k)) (s.count n)
  fp := { s.fp with pos := s.fp.pos + s.count n }

/-- What the device does in one turn of `playloop`: how many ids `fread` gets, the ids, and how
many of them `fwrite` gets rid of. -/
structure DacTurn where
  nr : Nat
  descriptor0 : Nat
  descriptor1 : Nat
  nw : Nat

/-- How far `playloop` has come: it waits for ids, has returned, or the process has ended. -/
inductive PlayStatus
  | waiting
  | returned (rc : Int)
  | exited
  deriving DecidableEq

/-- The variables of `playloop`.  Beside them is what it has done: the ids that it has written
back, each with what was in its buffer then, and how often it has set `soft_trigger`. -/
structure StreamPlay where
  feed : Feed
  totbuf : Int
  softTriggerRequested : Bool
  written : List (Nat × List UInt8)
  softTriggers : Nat

/-- `Buffer::bufferlen`, and `G` with what `ui` makes sure of. -/
structure BbStream where
  bufferlen : Nat
  playBufferlen : Nat
  autoSoftTrigger : Int
  abSwap : Bool
  pos : 0 < playBufferlen
  le : playBufferlen ≤ bufferlen
  /-- The driver's `bufferlen` is an `int`. -/
  int : bufferlen < 2 ^ 31

namespace BbStream

variable (g : BbStream)

/-- The loop of `BufferReader::read_buffers`. -/
def readEach : Int → Feed → List Nat → Int × Feed
  | totbytes, s, [] => (totbytes, s)
  | totbytes, s, id :: rest =>
    let nb := CInt.wrap (s.count g.playBufferlen)
    let s' := s.fread (id * g.bufferlen) g.playBufferlen
    if nb ≤ 0 then (0, s') else readEach (CInt.wrap (totbytes + nb)) s' rest

def readBuffers (s : Feed) (descriptors : List Nat) : Option (Int × Feed) :=
  some (g.readEach 0 s descriptors)

/-- The inner loop of `LoopFileReader::read_buffers`; none if it exits. -/
def fillLooped (bp : Nat) (s : Feed) (nbuf : Nat) (nb0 : Int) : Option Feed :=
  if nbuf < g.playBufferlen then
    let nb := CInt.wrap (s.count (g.playBufferlen - nbuf))
    let s' := s.fread (bp + nbuf) (g.playBufferlen - nbuf)
    if nb ≤ 0 then
      -- two strikes and out
      if nb0 ≤ 0 then none else fillLooped bp { s' with fp := s'.fp.rewind } nbuf nb
    else fillLooped bp s' (nbuf + nb.toNat) nb
  else some s
termination_by (g.playBufferlen - nbuf, if 0 < nb0 then 1 else 0)
decreasing_by
  · apply Prod.Lex.right
    rw [if_neg (by omega), if_pos (by omega)]
    exact Nat.one_pos
  · apply Prod.Lex.left
    omega

/-- The loop of `LoopFileReader::read_buffers`. -/
def loopEach : Int → Feed → List Nat → Option (Int × Feed)
  | totbytes, s, [] => some (totbytes, s)
  | totbytes, s, id :: rest =>
    (g.fillLooped (id * g.bufferlen) s 0 999).bind fun s' =>
      loopEach (CInt.wrap (totbytes + g.playBufferlen)) s' rest

/-- `LoopFileReader::read_buffers`. -/
def loopBuffers (s : Feed) (descriptors : List Nat) : Option (Int × Feed) :=
  g.loopEach 0 s descriptors

/-- What is in a buffer. -/
def buffer (mem : Nat → UInt8) (id : Nat) : List UInt8 :=
  Reads.cells mem (id * g.bufferlen) g.playBufferlen

/-- `playloop` at its start. -/
def start (feed : Feed) : StreamPlay where
  feed := feed
  totbuf := 0
  softTriggerRequested := decide (g.autoSoftTrigger ≠ 0)
  written := []
  softTriggers := 0

/-- `soft_trigger`, when it is time for it. -/
def trigger (s : StreamPlay) : StreamPlay :=
  if s.softTriggerRequested ∧ g.autoSoftTrigger ≤ s.totbuf then
    { s with softTriggerRequested := false, softTriggers := s.softTriggers + 1 }
  else s

/-- The ids in the order in which they are written back. -/
def swapped (t : DacTurn) : List Nat :=
  if g.abSwap then [t.descriptor1, t.descriptor0] else [t.descriptor0, t.descriptor1]

/-- `fwrite` of the ids. -/
def writeBack (s : StreamPlay) (t : DacTurn) : StreamPlay :=
  { s with
    totbuf := CInt.wrap (s.totbuf + t.nw)
    written := s.written ++
      ((g.swapped t).take t.nw).map fun id => (id, g.buffer s.feed.mem id) }

/-- `playloop` with one reader or the other, over the turns of the device. -/
def playloop (reader : Feed → List Nat → Option (Int × Feed)) :
    StreamPlay → List DacTurn → StreamPlay × PlayStatus
  | s, [] => (s, .waiting)
  | s, t :: rest =>
    if t.nr ≠ 2 then (s, .returned (-1))
    else
      match reader s.feed [t.descriptor0, t.descriptor1] with
      | none => (s, .exited)
      | some (nbytes, feed) =>
        if nbytes ≤ 0 then ({ s with feed := feed }, .returned nbytes)
        else
          let s' := g.writeBack (g.trigger { s with feed := feed }) t
          if t.nw = 2 then playloop reader s' rest else (s', .returned (-1))

end BbStream

end Acq400
