/-
`BufferDistribution` of `acq400_stream.cpp`: the pre and post data of a transient as
segments of linear memory.

The event is at `esp`.  Where the pre or the post data goes over the corner of the ring,
`sortToLinearBuffer` numbers the buffers in time, then swaps whole buffers until number
`iseq` is in buffer `iseq`, with buffer 0 as the scratch buffer, and `esp` goes where its
buffer went.  The vector `mm` has the indices of `MapBuffer`, so that it is a function
of them here, and an entry's `ibuf` is its index.

Then `postProcess`: with pre samples the data is made linear, and the demux takes its
segments one after the other; without, it takes the post samples from the event on.
Progress reports, the script that may run before and the report of the event are left out.
-/
import Acq400.Lib.Run
import Acq400.Stream.Demuxer

namespace Acq400

open Memory

/--
`get_nchan_ES`; `site` is what the first aggregator site's knobs `active_chan` and `data32`
say, where there is one.
-/
def getNchanES (isAcq480 : Bool) (site : Option (Nat × Bool)) (nchan : Nat) : Nat :=
  if isAcq480 then nchan
  else
    match site with
    | none => nchan
    | some (activeChan, data32) =>
      let nlongs := activeChan / (if data32 then 1 else 2)
      nchan * (if 8 ≤ nlongs then 1 else if 4 ≤ nlongs then 2 else 4)

/-- The globals of a transient capture with an event. -/
structure PrePost extends G where
  isAcq480 : Bool
  site : Option (Nat × Bool)
  pre : Nat
  post : Nat
  showEs : Bool

def PrePost.esSize (g : PrePost) : Nat := getNchanES g.isAcq480 g.site g.nchan * g.wordsize

theorem nchan_le_getNchanES (isAcq480 : Bool) (site : Option (Nat × Bool)) (nchan : Nat) :
    nchan ≤ getNchanES isAcq480 site nchan := by
  unfold getNchanES
  split
  · exact Nat.le_refl _
  · split
    · exact Nat.le_refl _
    · apply Nat.le_mul_of_pos_right
      repeat' split
      all_goals omega

theorem PrePost.sampleSize_le_esSize (g : PrePost) : g.sampleSize ≤ g.esSize :=
  Nat.mul_le_mul_right _ (nchan_le_getNchanES _ _ _)

/-! ### The entries of `mm` -/

inductive BsState
  | unknown
  | empty
  | pre
  | post
  | es
deriving DecidableEq, Repr

structure BufferSeq where
  state : BsState
  iseq : Nat
  esp : Option Nat
deriving Repr

/-- `BufferSeq(int _ibuf)`. -/
def BufferSeq.new : BufferSeq := { state := .unknown, iseq := 0, esp := none }

/-- The memory and `mm` while the buffers are sorted. -/
structure Sorting where
  mem : Mem
  mm : Nat → BufferSeq

namespace Sorting

/-- `to->copy(from)`. -/
def copy (g : G) (s : Sorting) (ibTo ibFrom : Nat) : Sorting :=
  { mem := Memory.copy s.mem (MapBuffer.getBase g ibTo) (MapBuffer.getBase g ibFrom) g.bufferlen
    mm := Function.update s.mm ibTo
      { state := (s.mm ibFrom).state
        iseq := (s.mm ibFrom).iseq
        esp := (s.mm ibFrom).esp.map fun esp =>
          esp + MapBuffer.getBase g ibTo - MapBuffer.getBase g ibFrom } }

def clr (s : Sorting) (ib : Nat) : Sorting :=
  { s with mm := Function.update s.mm ib { state := .empty, iseq := 0, esp := none } }

def mv (g : G) (s : Sorting) (ibFrom ibTo : Nat) : Sorting := (s.copy g ibTo ibFrom).clr ibFrom

def swap (g : G) (s : Sorting) (aa bb tt : Nat) : Sorting :=
  ((s.copy g tt aa).copy g aa bb).copy g bb tt

/-- `findSeq`; `none` is the -1. -/
def findSeq (g : G) (s : Sorting) (iseq : Nat) : Option Nat :=
  (List.range g.nbuffers).find? fun ib => decide ((s.mm ib).iseq = iseq)

/-- `findES`; `none` is the -1. -/
def findES (g : G) (s : Sorting) : Option Nat :=
  (List.range g.nbuffers).find? fun ib => decide ((s.mm ib).state = .es)

/-- The turn of `for (iseq = 1; iseq <= iseq99; ++iseq)`; `none` where the assert fails. -/
def sortStep (g : G) (s : Sorting) (iseq : Nat) : Option Sorting :=
  (s.findSeq g iseq).bind fun ibFrom =>
    if g.nbuffers ≤ iseq then none
    else if (s.mm iseq).state = .empty then some (s.mv g ibFrom iseq)
    else some (s.swap g ibFrom iseq 0)

end Sorting

/--
One of the numbering loops: the entries get the next numbers in turn, the state is as
`stateOf` says, and the entry of the event has `esp`.
-/
def assignSeq (stateOf : Nat → BsState) (esp : Nat) (seq : Nat × (Nat → BufferSeq)) (ib : Nat) :
    Nat × (Nat → BufferSeq) :=
  (seq.1 + 1, Function.update seq.2 ib
    { state := stateOf ib
      iseq := seq.1 + 1
      esp := if stateOf ib = .es then some esp else (seq.2 ib).esp })

/-! ### The distribution -/

inductive BdMode
  | error
  | linear
  | precorner
  | postcorner
deriving DecidableEq, Repr

structure BufferDistribution where
  segments : List Segment
  ibuf : Nat
  esp : Nat
  baLo : Nat
  baHi : Nat
  tailroom : Nat
  headroom : Nat
  preFits : Bool
  postFits : Bool
  bdScale : Nat

namespace BufferDistribution

/-- The constructor. -/
def new (g : PrePost) (ibuf esp bdScale : Nat) : BufferDistribution :=
  let tailroom := g.b2s (esp - MapBuffer.baLo g.toG)
  let headroom := g.b2s (MapBuffer.baHi g.toG - esp)
  { segments := []
    ibuf := ibuf
    esp := esp
    baLo := MapBuffer.baLo g.toG
    baHi := MapBuffer.baHi g.toG
    tailroom := tailroom
    headroom := headroom
    preFits := decide (g.pre ≤ tailroom)
    postFits := decide (g.post ≤ headroom)
    bdScale := bdScale }

def mode (bd : BufferDistribution) : BdMode :=
  if bd.preFits && bd.postFits then .linear
  else if !bd.preFits && !bd.postFits then .error
  else if !bd.preFits then .precorner
  else .postcorner

/-- How far `esp` is wound back for data that is split over two buffers. -/
def espDecrDouble (g : PrePost) (bd : BufferDistribution) (prebytes : Nat) : Nat :=
  let ib := MapBuffer.getBuffer g.toG bd.esp
  let offbytes := bd.esp - MapBuffer.getBase g.toG ib
  if offbytes < prebytes / bd.bdScale then
    let bbbs := prebytes - offbytes / bd.bdScale
    let nb := bbbs / g.bufferlen
    let residue := bbbs - nb * g.bufferlen
    offbytes + (nb + 2) * g.bufferlen + (g.bufferlen - residue / bd.bdScale)
  else prebytes / bd.bdScale

def getSegmentsLinear (g : PrePost) (bd : BufferDistribution) : BufferDistribution :=
  let prebytes := g.s2b g.pre
  let postbytes := g.s2b g.post
  let espDecr := if bd.bdScale = 2 then espDecrDouble g bd prebytes else prebytes
  { bd with
    segments := bd.segments ++ { base := bd.esp - espDecr, len := prebytes } ::
      ((if g.showEs then [{ base := bd.esp, len := g.esSize }] else []) ++
        [{ base := bd.esp + g.esSize, len := postbytes }]) }

/-- The first numbering loop, from the buffer of `start` to the last buffer. -/
def assignUpper (g : PrePost) (ibEsp esp start : Nat) (seq : Nat × (Nat → BufferSeq)) :
    Nat × (Nat → BufferSeq) :=
  let ibStart := MapBuffer.getBuffer g.toG start
  (List.range' ibStart (g.nbuffers - ibStart)).foldl
    (assignSeq (fun ib => if ib < ibEsp then .pre else if ib = ibEsp then .es else .post) esp) seq

/-- The second one, from the buffer of `ba_lo` to that of `finish`. -/
def assignLower (g : PrePost) (ibEsp esp ibFin : Nat) (seq : Nat × (Nat → BufferSeq)) :
    Nat × (Nat → BufferSeq) :=
  let ibLo := MapBuffer.getBuffer g.toG (MapBuffer.baLo g.toG)
  (List.range' ibLo (ibFin + 1 - ibLo)).foldl
    (assignSeq (fun ib =>
      if ibEsp < ibFin ∧ ib < ibEsp then .pre else if ib = ibEsp then .es else .post) esp) seq

/-- `sortToLinearBuffer`; `none` where an assert fails or `mm` ends before the index. -/
def sortToLinearBuffer (g : PrePost) (mem : Mem) (bd : BufferDistribution) (start finish : Nat) :
    Option (Mem × BufferDistribution) :=
  let ibEsp := MapBuffer.getBuffer g.toG bd.esp
  let ibFin := MapBuffer.getBuffer g.toG finish
  if g.nbuffers ≤ ibFin then none
  else
    let upper := assignUpper g ibEsp bd.esp start (0, fun _ => BufferSeq.new)
    let seq := assignLower g ibEsp bd.esp ibFin upper
    (Lts.run (Sorting.sortStep g.toG) { mem := mem, mm := seq.2 } (List.range' 1 seq.1)).bind
      fun s =>
        let s := s.clr 0
        (s.findES g.toG).bind fun ibEs =>
          (s.mm ibEs).esp.map fun esp => (s.mem, getSegmentsLinear g { bd with esp := esp })

def getSegmentsPrecorner (g : PrePost) (mem : Mem) (bd : BufferDistribution) :
    Option (Mem × BufferDistribution) :=
  sortToLinearBuffer g mem bd (bd.baHi - g.s2b (g.pre - bd.tailroom))
    (bd.baLo + g.s2b bd.tailroom + g.s2b g.post)

def getSegmentsPostcorner (g : PrePost) (mem : Mem) (bd : BufferDistribution) :
    Option (Mem × BufferDistribution) :=
  sortToLinearBuffer g mem bd (bd.esp - g.s2b g.pre) (bd.baLo + g.s2b (g.post - bd.headroom))

/-- `getSegments`; `none` where the program exits. -/
def getSegments (g : PrePost) (mem : Mem) (bd : BufferDistribution) :
    Option (Mem × BufferDistribution) :=
  if bd.segments = [] then
    match bd.mode with
    | .linear => some (mem, getSegmentsLinear g bd)
    | .precorner => getSegmentsPrecorner g mem bd
    | .postcorner => getSegmentsPostcorner g mem bd
    | .error => none
  else some (mem, bd)

end BufferDistribution

/-- The `NSAMPLES` of `notify_result`. -/
def PrePost.notifyResult (g : PrePost) : Nat := g.pre + g.post

/-- `postProcess`, with `bd_scale` 1; `none` where the program ends, or out of fuel. -/
def postProcess (g : PrePost) (fuel : Nat) (mem : Mem) (ibuf es : Nat) : Option Demuxer :=
  if g.pre = 0 then
    ((Demuxer.start g.toG mem).demux g.toG fuel es (g.s2b g.post)).map Prod.snd
  else
    (BufferDistribution.getSegments g mem (.new g ibuf es 1)).bind fun (mem, bd) =>
      Demuxer.demuxSegments g.toG fuel (.start g.toG mem) bd.segments

end Acq400
