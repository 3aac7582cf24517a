/-
`Demuxer` and `DemuxerImpl<T>` of `acq400_stream.cpp`: the transient demux in place.

`dst` goes over the buffers from the first on and fills each channel by channel; the
source is cut at the ends of the destination buffers.  The word copies of `_demux` are
listed in the order in which its loops make them and run one after the other in the
memory that source and destination share.  What `_demux` only reads, logs or displays
(event signatures, the buffer the source is in) has no counterpart.

`calls` is not in the source: it records what `_demux` was called with.
-/
import Acq400.Stream.Buffer

namespace Acq400

open Memory

/-- `BufferCursor`, without `channel_buffer_bytes`, which is a constant of the geometry. -/
structure BufferCursor where
  ibuf : Nat
  base : Nat
  cursor : Nat

namespace BufferCursor

def channelBufferBytes (g : G) : Nat := g.bufferlen / g.nchan

/-- `channel_remain_bytes`; the cursor does not go past the end of its channel. -/
def channelRemainBytes (g : G) (dst : BufferCursor) : Nat :=
  channelBufferBytes g - (dst.cursor - dst.base)

def totalRemainBytes (g : G) (dst : BufferCursor) : Nat := dst.channelRemainBytes g * g.nchan

def init (g : G) (ibuf : Nat) : BufferCursor :=
  { ibuf := ibuf, base := MapBuffer.getBase g ibuf, cursor := MapBuffer.getBase g ibuf }

end BufferCursor

/-- One call of `_demux`, with the number of samples it copied. -/
structure DemuxCall where
  start : Nat
  nbytes : Nat
  copied : Nat
deriving DecidableEq, Repr

structure Demuxer where
  mem : Mem
  dst : BufferCursor
  calls : List DemuxCall

namespace Demuxer

def channelBufferSam (g : G) : Nat := BufferCursor.channelBufferBytes g / g.wordsize

/-- `bufstep` of `DemuxerImpl`. -/
def bufstep : Nat := 1

/-- The constructor. -/
def start (g : G) (mem : Mem) : Demuxer :=
  { mem := mem, dst := BufferCursor.init g 0, calls := [] }

/-- `G::double_up? 2: 1`. -/
def step (g : G) : Nat := if g.doubleUp then 2 else 1

/-- The turns of `for (sam = 0; sam < nsam; sam += step)`. -/
def turns (g : G) (nsam : Nat) : Nat := (nsam + step g - 1) / step g

/--
`pdst[chan*cbs+sam] = *psrct++`, and `pdst[chan*cbs+sam+1] = *psrct++` when the data is
doubled up, for the channels of one turn.
-/
def turnMoves (g : G) (pdst psrc sam : Nat) : List Move :=
  (List.range g.nchan).flatMap fun chan =>
    (List.range (step g)).map fun k =>
      { dst := pdst + (chan * channelBufferSam g + sam + k) * g.wordsize
        src := psrc + (chan * step g + k) * g.wordsize
        len := g.wordsize }

/-- The copies of `_demux` in their order. -/
def demuxMoves (g : G) (pdst psrc nsam : Nat) : List Move :=
  (List.range (turns g nsam)).flatMap fun turn =>
    turnMoves g pdst (psrc + turn * (g.nchan * step g) * g.wordsize) (turn * step g)

/-- `_demux`; it returns `nbytes`. -/
def demuxBlock (g : G) (d : Demuxer) (start nbytes : Nat) : Demuxer :=
  let nsam := g.b2s nbytes
  { mem := runMoves d.mem (demuxMoves g d.dst.cursor start nsam)
    dst := { d.dst with cursor := d.dst.cursor + nsam * g.wordsize }
    calls := d.calls ++ [{ start := start, nbytes := nbytes, copied := turns g nsam * step g }] }

/-- `while(nbytes)`, for at most `fuel` turns; `rc` counts the bytes. -/
def demuxLoop (g : G) : Nat → Demuxer → Nat → Nat → Nat → Option (Nat × Demuxer)
  | 0, d, _, nbytes, rc => if nbytes = 0 then some (rc, d) else none
  | fuel + 1, d, startp, nbytes, rc =>
    if nbytes = 0 then some (rc, d)
    else
      let trb := d.dst.totalRemainBytes g
      if nbytes < trb then demuxLoop g fuel (d.demuxBlock g startp nbytes) startp 0 (rc + nbytes)
      else
        let d := d.demuxBlock g startp trb
        demuxLoop g fuel { d with dst := BufferCursor.init g (d.dst.ibuf + bufstep) }
          (startp + trb) (nbytes - trb) (rc + trb)

/-- `demux`; `none` where the assert fails or `fuel` does not do. -/
def demux (g : G) (fuel : Nat) (d : Demuxer) (start nbytes : Nat) : Option (Nat × Demuxer) :=
  if nbytes % g.sampleSize = 0 then demuxLoop g fuel d start nbytes 0 else none

/-- `postProcess`: `demuxer((*it).base, (*it).len)` for the segments in order. -/
def demuxSegments (g : G) (fuel : Nat) : Demuxer → List Segment → Option Demuxer
  | d, [] => some d
  | d, seg :: rest =>
    (d.demux g fuel seg.base seg.len).bind fun (_, d) => demuxSegments g fuel d rest

/-! ### The loop, turn by turn -/

theorem demuxLoop_done (g : G) (fuel : Nat) (d : Demuxer) (startp rc : Nat) :
    demuxLoop g fuel d startp 0 rc = some (rc, d) := by
  cases fuel with
  | zero => simp [demuxLoop]
  | succ fuel => simp [demuxLoop]

theorem demuxLoop_last {g : G} {d : Demuxer} {nbytes : Nat} (fuel startp rc : Nat)
    (hpos : nbytes ≠ 0) (hlt : nbytes < d.dst.totalRemainBytes g) :
    demuxLoop g (fuel + 1) d startp nbytes rc
      = some (rc + nbytes, d.demuxBlock g startp nbytes) := by
  rw [demuxLoop, if_neg hpos]
  simp only
  rw [if_pos hlt, demuxLoop_done]

theorem demuxLoop_next {g : G} {d : Demuxer} {nbytes : Nat} (fuel startp rc : Nat)
    (hpos : nbytes ≠ 0) (hge : d.dst.totalRemainBytes g ≤ nbytes) :
    demuxLoop g (fuel + 1) d startp nbytes rc
      = demuxLoop g fuel
          { d.demuxBlock g startp (d.dst.totalRemainBytes g) with
            dst := BufferCursor.init g (d.dst.ibuf + bufstep) }
          (startp + d.dst.totalRemainBytes g) (nbytes - d.dst.totalRemainBytes g)
          (rc + d.dst.totalRemainBytes g) := by
  rw [demuxLoop, if_neg hpos]
  simp only
  rw [if_neg (Nat.not_lt.mpr hge)]
  rfl

theorem demuxLoop_mono {g : G} {r : Nat × Demuxer} :
    ∀ (fuel : Nat) (d : Demuxer) (startp nbytes rc : Nat),
      demuxLoop g fuel d startp nbytes rc = some r →
        demuxLoop g (fuel + 1) d startp nbytes rc = some r := by
  intro fuel
  induction fuel with
  | zero =>
      intro d startp nbytes rc h
      rw [demuxLoop] at h
      split at h
      · rename_i hzero
        rw [hzero, demuxLoop_done]
        exact h
      · simp at h
  | succ fuel ih =>
      intro d startp nbytes rc h
      by_cases hzero : nbytes = 0
      · subst hzero
        rw [demuxLoop_done] at h ⊢
        exact h
      · by_cases hlt : nbytes < d.dst.totalRemainBytes g
        · rw [demuxLoop_last _ _ _ hzero hlt] at h ⊢
          exact h
        · have hge := Nat.not_lt.mp hlt
          rw [demuxLoop_next _ _ _ hzero hge] at h ⊢
          exact ih _ _ _ _ h

theorem demuxLoop_le {g : G} {r : Nat × Demuxer} {fuel fuel' : Nat} (hle : fuel ≤ fuel')
    {d : Demuxer} {startp nbytes rc : Nat} (h : demuxLoop g fuel d startp nbytes rc = some r) :
    demuxLoop g fuel' d startp nbytes rc = some r := by
  induction hle with
  | refl => exact h
  | step _ ih => exact demuxLoop_mono _ _ _ _ _ ih

end Demuxer

end Acq400
