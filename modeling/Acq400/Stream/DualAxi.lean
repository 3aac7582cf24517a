/-
The demultiplexers of the layouts DB_2D_REGULAR and DB_2D_DOUBLE in `acq400_stream.cpp`.

Two AXI DMA channels fill an even and an odd buffer side by side; a sample has the first
half of its channels in the one and the second half in the other, in the order of two
tables.  `DemuxBuffer<short, DB_2D_REGULAR>::demux` takes a pair apart as the data comes
in, `DualAxiDemuxerImpl<DB_2D_REGULAR>::_demux` after a transient capture, back into the
memory.  Memory is in 16-bit words here, and an address is the number of a word.

Both list what they put out as `Put`s, a channel and a value, in their order.  In
DB_2D_DOUBLE the channels are in order, and a channel can have two samples in a row.
-/
import Acq400.Stream.Demuxer
import Mathlib.Logic.Function.Iterate

namespace Acq400

open Memory

/-- `DB_2D_R_MEM_PIN_LUT_48_DMA0`. -/
def dma0Lut : List Nat :=
  [0, 1, 2, 3, 4, 5, 6, 7,
    16, 17, 18, 19, 20, 21, 22, 23,
    32, 33, 34, 35, 36, 37, 38, 39]

/-- `DB_2D_R_MEM_PIN_LUT_48_DMA1`. -/
def dma1Lut : List Nat :=
  [8, 9, 10, 11, 12, 13, 14, 15,
    24, 25, 26, 27, 28, 29, 30, 31,
    40, 41, 42, 43, 44, 45, 46, 47]

/-- `DB_2D_R_MEM_PIN_LUT_48_DMA0[chan]`. -/
def dma0Pin (chan : Nat) : Nat := dma0Lut.getD chan 0

/-- `DB_2D_R_MEM_PIN_LUT_48_DMA1[chan]`. -/
def dma1Pin (chan : Nat) : Nat := dma1Lut.getD chan 0

/-- A value put out for a channel. -/
structure Put where
  chan : Nat
  value : UInt16
deriving DecidableEq, Repr

/-- What has been put out for one channel. -/
def chanSeq (puts : List Put) (chan : Nat) : List UInt16 :=
  (puts.filter fun put => put.chan = chan).map Put.value

def bufshorts (g : G) : Nat := g.bufferlen / 2

/-! ### Live: `DemuxBuffer<short, DB_2D_REGULAR>::demux` -/

/-- What `demux` has from its `DemuxBuffer`, besides the globals. -/
structure DemuxBuffer where
  mask : Nat → UInt16
  showEs : Bool
  /-- `evX.isES`, by the address it looks at. -/
  isES : Nat → Bool
  nchanES : Nat

namespace DemuxBuffer

/-- The two loops over the channels for the sample at `src`. -/
def samplePuts (g : G) (buf : DemuxBuffer) (mem : Nat → UInt16) (src : Nat) : List Put :=
  ((List.range (g.nchan / 2)).map fun ichan =>
      { chan := dma0Pin ichan, value := mem (src + ichan) &&& buf.mask (dma0Pin ichan) })
    ++ ((List.range (g.nchan / 2)).map fun ichan =>
      { chan := dma1Pin ichan
        value := mem (src + bufshorts g + ichan) &&& buf.mask (dma1Pin ichan) })

/-- `for (isam = 0; true; ++isam)` from `src`, for at most `fuel` turns. -/
def demuxLoop (g : G) (buf : DemuxBuffer) (mem : Nat → UInt16) (src000 shortlen : Nat) :
    Nat → Nat → List Put → Option (List Put)
  | 0, _, _ => none
  | fuel + 1, src, puts =>
    let src := if !buf.showEs && buf.isES src then src + buf.nchanES else src
    let puts := puts ++ samplePuts g buf mem src
    let src := src + g.nchan
    if shortlen ≤ src - src000 then some puts
    else demuxLoop g buf mem src000 shortlen fuel src puts

/--
`demux` of the buffer with number `b1` from `src000` on, with what it returns; `none` where
the loop would not end.
-/
def demux (g : G) (buf : DemuxBuffer) (mem : Nat → UInt16) (b1 src000 len : Nat) :
    Option (Bool × List Put) :=
  let shortlen := len / 2 / 2
  if b1 % 2 = 1 then some (true, [])
  else (demuxLoop g buf mem src000 shortlen (shortlen + 1) src000 []).map fun puts => (false, puts)

end DemuxBuffer

/-! ### Transient: `DualAxiDemuxerImpl<DB_2D_REGULAR>::_demux` -/

/-- The local variables of `_demux`, the memory, and what it has put out. -/
structure DualAxiDemux where
  mem : Nat → UInt16
  srcbuf : Nat → UInt16
  start : Nat
  /-- `psrc - srcbuf`. -/
  psrc : Nat
  pdst : Nat
  sambuf : Nat
  changeOver : Nat
  decims : List UInt16
  puts : List Put

namespace DualAxiDemux

/-- `channel_buffer_bytes` of the constructor. -/
def channelBufferBytes (g : G) : Nat := 2 * g.bufferlen / g.nchan

/-- `channel_buffer_sam()/2`. -/
def cbs (g : G) : Nat := channelBufferBytes g / 2 / 2

/-- `MAX(nbytes/sizeof(short), 2*BUFSHORTS)`. -/
def nsrc (g : G) (nbytes : Nat) : Nat := max (nbytes / 2) (2 * bufshorts g)

/-- `memcpy(psrc, start, nsrc*sizeof(short))`. -/
def loadSrcbuf (mem srcbuf : Nat → UInt16) (start nsrc : Nat) : Nat → UInt16 := fun k =>
  if k < nsrc then mem (start + k) else srcbuf k

/-- The low bits of the first eight channels of DMA0 are not data. -/
def pinValue (chan : Nat) (xx : UInt16) : UInt16 := if chan < 8 then xx &&& 0xFFFC else xx

/-- The loops over the channels for the sample at `psrc`. -/
def samplePuts (g : G) (srcbuf : Nat → UInt16) (psrc : Nat) : List Put :=
  ((List.range (g.nchan / 2)).map fun chan =>
      { chan := dma0Pin chan, value := pinValue chan (srcbuf (psrc + chan)) })
    ++ ((List.range (g.nchan / 2)).map fun chan =>
      { chan := dma1Pin chan, value := srcbuf (psrc + bufshorts g + chan) })

/-- `if (sambuf >= cbs)`: to the next destination buffer, and after two to the next pair. -/
def changeBuffer (g : G) (nbytes : Nat) (s : DualAxiDemux) : DualAxiDemux :=
  if cbs g ≤ s.sambuf then
    let s := { s with pdst := s.pdst + bufshorts g, sambuf := 0, changeOver := s.changeOver + 1 }
    if s.changeOver = 2 then
      let start := s.start + g.bufferlen
      { s with
        psrc := 0
        start := start
        srcbuf := loadSrcbuf s.mem s.srcbuf start (nsrc g nbytes)
        changeOver := 0 }
    else s
  else s

/-- One turn of the loop over the samples. -/
def sample (g : G) (nbytes : Nat) (s : DualAxiDemux) : DualAxiDemux :=
  let s := changeBuffer g nbytes s
  let puts := samplePuts g s.srcbuf s.psrc
  { s with
    mem := puts.foldl
      (fun mem put => Function.update mem (s.pdst + put.chan * cbs g + s.sambuf) put.value) s.mem
    decims := s.decims ++ [s.srcbuf s.psrc &&& 3]
    puts := s.puts ++ puts
    sambuf := s.sambuf + 1
    psrc := s.psrc + g.nchan / 2 }

/-- The variables as the loop begins. -/
def begin (g : G) (mem : Nat → UInt16) (cursor start nbytes : Nat) : DualAxiDemux :=
  { mem := mem
    srcbuf := loadSrcbuf mem (fun _ => 0) start (nsrc g nbytes)
    start := start
    psrc := 0
    pdst := cursor
    sambuf := 0
    changeOver := 0
    decims := []
    puts := [] }

/-- `_demux`, with the new `dst.cursor` in bytes; it returns `nbytes`. -/
def demux (g : G) (mem : Nat → UInt16) (cursor start nbytes : Nat) : Nat × DualAxiDemux :=
  (2 * cursor + nbytes / g.nchan,
    (sample g nbytes)^[g.b2s nbytes] (begin g mem cursor start nbytes))

/-! ### Transient: `DualAxiDemuxerImpl<DB_2D_DOUBLE>::_demux`

The local variables are the same ones; `decims` and `puts` stay empty. -/

def srcinc (g : G) : Nat := if Demuxer.step g = 2 then g.nchan else g.nchan / 2

/-- `if (sambuf == cbs)`. -/
def changeBufferDouble (g : G) (nbytes : Nat) (s : DualAxiDemux) : DualAxiDemux :=
  if s.sambuf = cbs g then
    let s := { s with pdst := s.pdst + bufshorts g, sambuf := 0, changeOver := s.changeOver + 1 }
    if s.changeOver = 2 then
      let start := s.start + g.bufferlen
      { s with
        psrc := 0
        start := start
        srcbuf := loadSrcbuf s.mem s.srcbuf start (nsrc g nbytes)
        changeOver := 0 }
    else s
  else s

/--
One of the loops over half of the channels, from `chan0` on: `pdst[chan*cbs+sambuf] = *psrct++`,
and `pdst[chan*cbs+sambuf+1] = *psrct++` where there are two samples in a row.
-/
def harvest (g : G) (s : DualAxiDemux) (chan0 nchan psrct : Nat) : List (Nat × UInt16) :=
  (List.range nchan).flatMap fun i =>
    (List.range (Demuxer.step g)).map fun k =>
      (s.pdst + (chan0 + i) * cbs g + s.sambuf + k, s.srcbuf (psrct + i * Demuxer.step g + k))

/-- One turn of the loop over the samples. -/
def sampleDouble (g : G) (nbytes : Nat) (s : DualAxiDemux) : DualAxiDemux :=
  let s := changeBufferDouble g nbytes s
  let nc2 := g.nchan / 2
  { s with
    mem := runWrites s.mem
      (harvest g s 0 nc2 s.psrc ++ harvest g s nc2 (g.nchan - nc2) (s.psrc + bufshorts g))
    sambuf := s.sambuf + Demuxer.step g
    psrc := s.psrc + srcinc g }

/-- `_demux`, with the new `dst.cursor` in bytes; it returns `nbytes`. -/
def demuxDouble (g : G) (mem : Nat → UInt16) (cursor start nbytes : Nat) : Nat × DualAxiDemux :=
  (2 * cursor + nbytes / g.nchan,
    (sampleDouble g nbytes)^[Demuxer.turns g (g.b2s nbytes)] (begin g mem cursor start nbytes))

end DualAxiDemux

end Acq400
