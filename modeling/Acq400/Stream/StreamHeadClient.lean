/-
The clients of a stream (`acq400_stream.cpp`) that hand out some of its channels:
`SubsetStreamHeadClientImpl` a range of them, `SubsetStreamHeadClientChannelMask` those of a mask,
and `SumStreamHeadClientImpl` the sum of a range.

A client's own array is a memory of its own, with the elements that are stored to.  A client that
is not made is `none`: its length is negative, or a sample has no bytes.  A `write` takes all of
what it gets.  A loop that does not end is `none`, and so is nothing else in it.
-/
import Acq400.Awg.LoadPad
import Acq400.Lib.Reads
import Acq400.Lib.Strides
import Acq400.Stream.ChannelMask
import Acq400.Stream.FindEvent

namespace Acq400

open Reads (cells)

/-- `sizeof(T)`, for the `T` that the clients are made with. -/
def G.sizeofT (g : G) : Nat := if g.wordsize = 4 then 4 else 2

/-! ### A range of channels -/

structure SubsetStreamHeadClientImpl where
  start : Nat
  len : Nat
  /-- The elements of `buf`. -/
  nbuf : Nat
  totchan : Nat
  evX : ES

/-- The array of a client: `pb`, counted in elements, and the elements that are stored to. -/
structure ClientBuf where
  mem : Nat → UInt8
  pb : Nat
  stored : List Nat

namespace SubsetStreamHeadClientImpl

variable (g : G)

def create (isAcq480 : Bool) (def_ : List Char) : Option SubsetStreamHeadClientImpl :=
  let (start, len) := getStartLen g.nchan def_
  if len < 0 ∨ g.sampleSize = 0 then none
  else
    let step := if g.doubleUp then 2 else 1
    some
      { start := step * start.toNat
        len := step * len.toNat
        nbuf := g.bufferlen / g.sampleSize * len.toNat
        totchan := step * g.nchan
        evX := ES.evX isAcq480 }

variable (c : SubsetStreamHeadClientImpl) (m : Mem)

/-- `buf`, and what has been written to the output. -/
structure Streamed where
  buf : ClientBuf
  out : List UInt8

/-- `write(STDOUT, buf, (pb-buf)*sizeof(T))`. -/
def flushed (s : Streamed) : List UInt8 := s.out ++ cells s.buf.mem 0 (s.buf.pb * g.sizeofT)

/-- The body of the loop, for the sample at `data`. -/
def sample (s : Streamed) (data : Nat) : Streamed :=
  if c.evX.isES m data then
    { buf := { s.buf with pb := 0 }
      out := flushed g s ++ cells m data (c.totchan * g.sizeofT) }
  else
    { s with
      buf :=
        { s.buf with
          mem := memcpy s.buf.mem (s.buf.pb * g.sizeofT)
            (fun k => m (data + c.start * g.sizeofT + k)) (c.len * g.sizeofT)
          stored := s.buf.stored ++ List.range' s.buf.pb c.len } }

/-- A turn of the loop: the body, and `pb += len`. -/
def turn (base : Nat) (s : Streamed) (pos : Nat) : Streamed :=
  let s := c.sample g m s (base + pos)
  { s with buf := { s.buf with pb := s.buf.pb + c.len } }

/-- `onStreamBufferStart`, with `buf` as it is before. -/
def onStreamBufferStart (ib : Nat) (buf : Nat → UInt8) : Option Streamed :=
  (Strides.loop (c.turn g m (MapBuffer.getBase g ib)) (c.totchan * g.sizeofT) g.bufferlen
    (g.bufferlen + 1) 0 { buf := { mem := buf, pb := 0, stored := [] }, out := [] }).map
      fun s => { s with out := flushed g s }

end SubsetStreamHeadClientImpl

/-! ### The channels of a mask -/

structure SubsetStreamHeadClientChannelMask extends SubsetStreamHeadClientImpl where
  cm : ChannelMask
  topchan : Nat
  firstchan : Nat

namespace SubsetStreamHeadClientChannelMask

variable (g : G)

def create (isAcq480 : Bool) (cm : ChannelMask) : Option SubsetStreamHeadClientChannelMask :=
  (SubsetStreamHeadClientImpl.create g isAcq480
    (Sscanf.decimalText cm.getChannelcount)).map fun impl =>
      { impl with
        cm := cm
        topchan := cm.getTopchan.toNat
        firstchan := cm.getFirstchan.toNat }

variable (c : SubsetStreamHeadClientChannelMask) (m : Mem)

/-- `buf` and `csample`, the words that have been read of the buffer, and the output. -/
structure Streamed where
  buf : ClientBuf
  csample : ClientBuf
  reads : List Nat
  out : List UInt8

/-- The body of the loop of `gather`. -/
def gatherChan (sample : Nat) (s : ClientBuf × List Nat) (ii : Nat) : ClientBuf × List Nat :=
  if c.cm.bits ii then
    ({ mem := memcpy s.1.mem (s.1.pb * g.sizeofT) (fun k => m (sample + ii * g.sizeofT + k))
        g.sizeofT
       pb := s.1.pb + 1
       stored := s.1.stored ++ [s.1.pb] },
      s.2 ++ [sample + ii * g.sizeofT])
  else s

def gather (s : ClientBuf × List Nat) (sample : Nat) : ClientBuf × List Nat :=
  (List.range' c.firstchan (c.topchan + 1 - c.firstchan)).foldl (c.gatherChan g m sample)
    ({ s.1 with pb := 0 }, s.2)

/-- A turn of the loop. -/
def turn (base : Nat) (s : Streamed) (pos : Nat) : Streamed :=
  let (csample, reads) := c.gather g m (s.csample, s.reads) (base + pos)
  { s with
    buf :=
      { mem := memcpy s.buf.mem (s.buf.pb * g.sizeofT) csample.mem (c.len * g.sizeofT)
        pb := s.buf.pb + c.len
        stored := s.buf.stored ++ List.range' s.buf.pb c.len }
    csample := csample
    reads := reads }

/-- `onStreamBufferStart`, with `buf` and `csample` as they are before. -/
def onStreamBufferStart (ib : Nat) (buf csample : Nat → UInt8) : Option Streamed :=
  (Strides.loop (c.turn g m (MapBuffer.getBase g ib)) (c.totchan * g.sizeofT) g.bufferlen
    (g.bufferlen + 1) 0
      { buf := { mem := buf, pb := 0, stored := [] }
        csample := { mem := csample, pb := 0, stored := [] }
        reads := []
        out := [] }).map
      fun s => { s with out := s.out ++ cells s.buf.mem 0 (s.buf.pb * g.sizeofT) }

end SubsetStreamHeadClientChannelMask

/-! ### The sum of a range -/

structure SumStreamHeadClientImpl where
  start : Nat
  /-- Where it is negative, 0 does for it. -/
  len : Nat
  nbuf : Nat

/-- `*reinterpret_cast<T*>(a)`. -/
def G.loadT (g : G) (m : Mem) (a : Nat) : Int :=
  if g.sizeofT = 4 then (m.load32 a).toBitVec.toInt
  else ((m (a + 1)).toBitVec ++ (m a).toBitVec).toInt

namespace SumStreamHeadClientImpl

variable (g : G)

def create (def_ : List Char) : Option SumStreamHeadClientImpl :=
  let (start, len) := getStartLen g.nchan def_
  if g.sampleSize = 0 then none
  else
    some
      { start := start.toNat
        len := len.toNat
        nbuf := g.bufferlen / g.sampleSize }

variable (c : SumStreamHeadClientImpl) (m : Mem)

/-- `sum_buf`, with the elements that are stored to, and the words that have been read. -/
structure Streamed where
  sumBuf : Nat → Int
  isam : Nat
  stored : List Nat
  reads : List Nat

def shr : Nat := if g.sizeofT = 4 then 8 else 0

/-- The sum of the words, which is an `int`. -/
def sumOf (words : List Nat) : Int :=
  words.foldl (fun sum a => CInt.wrap (sum + g.loadT m a >>> shr g)) 0

/-- A turn of the loop. -/
def turn (base : Nat) (s : Streamed) (pos : Nat) : Streamed :=
  let words := (List.range' c.start c.len).map (base + pos + · * g.sizeofT)
  { sumBuf := Function.update s.sumBuf s.isam (sumOf g m words)
    isam := s.isam + 1
    stored := s.stored ++ [s.isam]
    reads := s.reads ++ words }

/-- `onStreamBufferStart`, with `sum_buf` as it is before. -/
def onStreamBufferStart (ib : Nat) (sumBuf : Nat → Int) : Option (Streamed × List Int) :=
  (Strides.loop (c.turn g m (MapBuffer.getBase g ib)) (g.nchan * g.sizeofT) g.bufferlen
    (g.bufferlen + 1) 0 { sumBuf := sumBuf, isam := 0, stored := [], reads := [] }).map
      fun s => (s, cells s.sumBuf 0 c.nbuf)

end SumStreamHeadClientImpl

end Acq400
