/-
The transient demux of two AXI channels from any half sample on.

Two rows of buffers hold the two halves of the samples.  `_demux` reads on word by word
from the start address and loads its source again only when two destination buffers are
full.  From the end of an even source buffer it therefore goes on in the odd one, and what
it puts out is right as long as the samples end within the buffer that they start in.
-/
import Acq400.Lib.PairRows
import Acq400.Proofs.DualAxi

namespace Acq400

open Memory

/-- Word `i` of the even buffers, taken one after the other. -/
def evenWord (g : G) (i : Nat) : Nat := MapBuffer.ba0 / 2 + PairRows.even (bufshorts g) i

/-- Buffers that whole half samples fill. -/
structure PairLayout (g : G) : Prop extends Regular2D g where
  whole : g.nchan ∣ g.bufferlen
  bufferlen_pos : 0 < g.bufferlen

/-- The half samples in a buffer. -/
def halfSamples (g : G) : Nat := g.bufferlen / g.nchan

namespace DualAxiDemux

/-- Where sample `s` of a channel is in the destination buffers from `cursor` on. -/
def cellAt (g : G) (cursor chan s : Nat) : Nat :=
  cursor + s / cbs g * bufshorts g + chan * cbs g + s % cbs g

/-- What DB_2D_REGULAR should put out for `nsam` samples from half sample `u` on. -/
def PutsOut (g : G) (mem mem' : Nat → UInt16) (cursor u nsam : Nat) : Prop :=
  ∀ s, s < nsam → ∀ i, i < g.nchan / 2 →
    mem' (cellAt g cursor (dma0Pin i) s)
        = pinValue i (mem (evenWord g ((u + s) * (g.nchan / 2) + i))) ∧
      mem' (cellAt g cursor (dma1Pin i) s)
        = mem (evenWord g ((u + s) * (g.nchan / 2) + i) + bufshorts g)

/-- Which word from the start sample `s` of channel `i` of a half is, where a channel has `step`
samples in a row. -/
def wordOf (g : G) (step i s : Nat) : Nat :=
  s / step * (step * (g.nchan / 2)) + i * step + s % step

/-- What DB_2D_DOUBLE should put out. -/
def PutsOutDouble (g : G) (mem mem' : Nat → UInt16) (cursor u nsam : Nat) : Prop :=
  ∀ s, s < nsam → ∀ i, i < g.nchan / 2 →
    mem' (cellAt g cursor i s)
        = mem (evenWord g (u * (g.nchan / 2) + wordOf g (Demuxer.step g) i s)) ∧
      mem' (cellAt g cursor (g.nchan / 2 + i) s)
        = mem (evenWord g (u * (g.nchan / 2) + wordOf g (Demuxer.step g) i s) + bufshorts g)

end DualAxiDemux

/-! ### The sizes -/

namespace PairLayout

open DualAxiDemux

variable {g : G}

theorem nchan_eq (h : PairLayout g) : g.nchan = 2 * (g.nchan / 2) ∧ 8 ≤ g.nchan / 2 := by
  have hsites := h.sites
  have hpos := h.pos
  omega

theorem bufferlen_eq (h : PairLayout g) : g.bufferlen = halfSamples g * g.nchan :=
  (Nat.div_mul_cancel h.whole).symm

theorem bufshorts_eq (h : PairLayout g) : bufshorts g = halfSamples g * (g.nchan / 2) := by
  rw [bufshorts, h.bufferlen_eq, Nat.mul_div_assoc _ (Dvd.intro _ h.nchan_eq.1.symm)]

theorem cbs_eq (h : PairLayout g) : cbs g = halfSamples g / 2 := by
  have hbytes : channelBufferBytes g = 2 * halfSamples g := Nat.mul_div_assoc _ h.whole
  rw [cbs, hbytes, Nat.mul_div_cancel_left _ Nat.zero_lt_two]

theorem halfSamples_pos (h : PairLayout g) : 0 < halfSamples g := by
  apply Nat.pos_of_ne_zero
  intro hzero
  have hpos := h.bufferlen_pos
  rw [h.bufferlen_eq, hzero, Nat.zero_mul] at hpos
  exact Nat.lt_irrefl 0 hpos

theorem bufshorts_pos (h : PairLayout g) : 0 < bufshorts g := by
  rw [h.bufshorts_eq]
  exact Nat.mul_pos h.halfSamples_pos (Nat.lt_of_lt_of_le (by decide) h.nchan_eq.2)

theorem channels_fit (h : PairLayout g) : g.nchan * cbs g ≤ bufshorts g := by
  have hchan := h.nchan_eq.1
  have htwo : 2 * (halfSamples g / 2) ≤ halfSamples g := Nat.mul_div_le _ _
  calc g.nchan * cbs g = 2 * (g.nchan / 2) * (halfSamples g / 2) := by rw [← hchan, h.cbs_eq]
    _ = 2 * (halfSamples g / 2) * (g.nchan / 2) := by ring
    _ ≤ halfSamples g * (g.nchan / 2) := Nat.mul_le_mul_right _ htwo
    _ = bufshorts g := h.bufshorts_eq.symm

/-- Two destination buffers of samples come from one source buffer. -/
theorem samples_le (h : PairLayout g) : 2 * cbs g * (g.nchan / 2) ≤ bufshorts g := by
  rw [h.bufshorts_eq, h.cbs_eq]
  exact Nat.mul_le_mul_right _ (Nat.mul_div_le _ _)

theorem b2s_s2b (h : PairLayout g) (nsam : Nat) : g.b2s (g.s2b nsam) = nsam := by
  have hpos : 0 < g.sampleSize := Nat.mul_pos h.pos (by rw [h.word]; decide)
  exact Nat.mul_div_cancel _ hpos

theorem cellAt_inj (h : PairLayout g) {cursor chan chan' s s' : Nat} (hchan : chan < g.nchan)
    (hchan' : chan' < g.nchan) (hcbs : 0 < cbs g)
    (heq : cellAt g cursor chan s = cellAt g cursor chan' s') : chan = chan' ∧ s = s' := by
  have hfit := h.channels_fit
  have hin : ∀ c k, c < g.nchan → c * cbs g + k % cbs g < bufshorts g := by
    intro c k hc
    have hle : (c + 1) * cbs g ≤ g.nchan * cbs g := Nat.mul_le_mul_right _ hc
    have hlt := Nat.mod_lt k hcbs
    rw [Nat.succ_mul] at hle
    omega
  unfold cellAt at heq
  -- first the buffer, then the channel, then the place in the channel
  obtain ⟨hbuf, hrest⟩ := PairRows.mul_add_inj (hin chan s hchan) (hin chan' s' hchan')
    (show s / cbs g * bufshorts g + (chan * cbs g + s % cbs g)
      = s' / cbs g * bufshorts g + (chan' * cbs g + s' % cbs g) by omega)
  obtain ⟨hch, hmod⟩ := PairRows.mul_add_inj (Nat.mod_lt s hcbs) (Nat.mod_lt s' hcbs) hrest
  refine ⟨hch, ?_⟩
  rw [← Nat.div_add_mod' s (cbs g), ← Nat.div_add_mod' s' (cbs g), hbuf, hmod]

/-- A word is where the code reads it if and only if it is not past the end of the buffer. -/
theorem evenWord_add_iff (h : PairLayout g) (u k : Nat) :
    evenWord g (u * (g.nchan / 2)) + k = evenWord g (u * (g.nchan / 2) + k) ↔
      u % halfSamples g * (g.nchan / 2) + k < halfSamples g * (g.nchan / 2) := by
  have hiff := PairRows.even_add_iff (i := u * (g.nchan / 2)) (k := k) h.bufshorts_pos
  rw [h.bufshorts_eq, Nat.mul_mod_mul_right] at hiff
  rw [← hiff, evenWord, evenWord, h.bufshorts_eq]
  omega

end PairLayout

/-! ### The turns -/

namespace DualAxiDemux

variable {g : G} {mem : Nat → UInt16} {cursor start nbytes : Nat}

/-- The destination of the next sample after `n` samples, at the test for a full buffer. -/
structure Filled (g : G) (cursor n : Nat) (s : DualAxiDemux) : Prop where
  place : (n ≤ cbs g ∧ s.pdst = cursor ∧ s.sambuf = n ∧ s.changeOver = 0) ∨
    (cbs g < n ∧ s.pdst = cursor + bufshorts g ∧ s.sambuf = n - cbs g ∧ s.changeOver = 1)

/-- And after the test. -/
structure Chosen (g : G) (cursor n : Nat) (s s' : DualAxiDemux) : Prop where
  mem : s'.mem = s.mem
  srcbuf : s'.srcbuf = s.srcbuf
  psrc : s'.psrc = s.psrc
  place : (n < cbs g ∧ s'.pdst = cursor ∧ s'.sambuf = n ∧ s'.changeOver = 0) ∨
    (cbs g ≤ n ∧ s'.pdst = cursor + bufshorts g ∧ s'.sambuf = n - cbs g ∧ s'.changeOver = 1)

theorem Filled.changeBuffer {n : Nat} {s : DualAxiDemux} (h : Filled g cursor n s)
    (hlt : n < 2 * cbs g) (nbytes : Nat) : Chosen g cursor n s (changeBuffer g nbytes s) := by
  unfold DualAxiDemux.changeBuffer
  rcases h.place with ⟨hle, hpdst, hsam, hover⟩ | ⟨hlt', hpdst, hsam, hover⟩
  · by_cases hfull : cbs g ≤ s.sambuf
    · rw [if_pos hfull]
      simp only [hover, Nat.zero_add, OfNat.one_ne_ofNat, if_false]
      exact ⟨rfl, rfl, rfl, Or.inr ⟨by omega, by rw [hpdst], by simp only; omega, rfl⟩⟩
    · rw [if_neg hfull]
      exact ⟨rfl, rfl, rfl, Or.inl ⟨by omega, hpdst, hsam, hover⟩⟩
  · rw [if_neg (by omega)]
    exact ⟨rfl, rfl, rfl, Or.inr ⟨by omega, hpdst, hsam, hover⟩⟩

theorem Filled.changeBufferDouble {n : Nat} {s : DualAxiDemux} (h : Filled g cursor n s)
    (hlt : n < 2 * cbs g) (nbytes : Nat) :
    Chosen g cursor n s (changeBufferDouble g nbytes s) := by
  have hfull : s.sambuf = cbs g ↔ cbs g ≤ s.sambuf := by
    rcases h.place with ⟨_, _, hsam, _⟩ | ⟨_, _, hsam, _⟩
    · omega
    · omega
  have heq : DualAxiDemux.changeBufferDouble g nbytes s = DualAxiDemux.changeBuffer g nbytes s :=
    if_congr hfull rfl rfl
  exact heq ▸ h.changeBuffer hlt nbytes

namespace Chosen

variable {n : Nat} {s s' t : DualAxiDemux}

/-- The sample goes to its place, and so does the one that comes with it. -/
theorem cell (h : Chosen g cursor n s s') (hlt : n < 2 * cbs g) (chan : Nat) {k : Nat}
    (hk : n % cbs g + k < cbs g) :
    s'.pdst + chan * cbs g + s'.sambuf + k = cellAt g cursor chan (n + k) := by
  unfold cellAt
  rcases h.place with ⟨hfirst, hpdst, hsam, -⟩ | ⟨hsecond, hpdst, hsam, -⟩
  · rw [Nat.mod_eq_of_lt hfirst] at hk
    rw [Nat.div_eq_of_lt hk, Nat.mod_eq_of_lt hk, hpdst, hsam]
    omega
  · rw [Nat.mod_eq_sub_mod hsecond, Nat.mod_eq_of_lt (by omega)] at hk
    have hdivmod : (n + k) / cbs g = 1 ∧ (n + k) % cbs g = n - cbs g + k := by
      rw [Nat.div_mod_unique (by omega)]
      omega
    rw [hdivmod.1, hdivmod.2, hpdst, hsam]
    omega

theorem filled (h : Chosen g cursor n s s') {step : Nat} (hstep : 0 < step)
    (hfit : n < cbs g → n + step ≤ cbs g) (hpdst : t.pdst = s'.pdst)
    (hsam : t.sambuf = s'.sambuf + step) (hover : t.changeOver = s'.changeOver) :
    Filled g cursor (n + step) t := by
  refine ⟨?_⟩
  rw [hpdst, hsam, hover]
  rcases h.place with ⟨hfirst, hpdst, hsam, hover⟩ | ⟨hsecond, hpdst, hsam, hover⟩
  · exact Or.inl ⟨hfit hfirst, hpdst, by rw [hsam], hover⟩
  · exact Or.inr ⟨by omega, hpdst, by omega, hover⟩

end Chosen

/-- After `t` turns of `step` samples, `inc` words of source and the writes `writes`. -/
structure AfterTurns (g : G) (mem : Nat → UInt16) (cursor start nbytes step inc : Nat)
    (writes : Nat → List (Nat × UInt16)) (t : Nat) (s : DualAxiDemux) : Prop
    extends Filled g cursor (t * step) s where
  mem_eq : s.mem = runWrites mem ((List.range t).flatMap writes)
  srcbuf_eq : s.srcbuf = loadSrcbuf mem (fun _ => 0) start (nsrc g nbytes)
  psrc_eq : s.psrc = t * inc

theorem afterTurns_begin (g : G) (mem : Nat → UInt16) (cursor start nbytes step inc : Nat)
    (writes : Nat → List (Nat × UInt16)) :
    AfterTurns g mem cursor start nbytes step inc writes 0 (begin g mem cursor start nbytes) where
  place := Or.inl ⟨by omega, rfl, (Nat.zero_mul step).symm, rfl⟩
  mem_eq := rfl
  srcbuf_eq := rfl
  psrc_eq := (Nat.zero_mul inc).symm

/-- The writes of turn `t` of DB_2D_REGULAR. -/
def regularWrites (g : G) (srcbuf : Nat → UInt16) (cursor t : Nat) : List (Nat × UInt16) :=
  (samplePuts g srcbuf (t * (g.nchan / 2))).map fun put =>
    (cellAt g cursor put.chan t, put.value)

/-- And of DB_2D_DOUBLE. -/
def doubleWrites (g : G) (srcbuf : Nat → UInt16) (cursor t : Nat) : List (Nat × UInt16) :=
  ((List.range (g.nchan / 2)).flatMap fun i =>
    (List.range (Demuxer.step g)).map fun k =>
      (cellAt g cursor i (t * Demuxer.step g + k),
        srcbuf (t * srcinc g + i * Demuxer.step g + k)))
  ++ (List.range (g.nchan - g.nchan / 2)).flatMap fun i =>
    (List.range (Demuxer.step g)).map fun k =>
      (cellAt g cursor (g.nchan / 2 + i) (t * Demuxer.step g + k),
        srcbuf (t * srcinc g + bufshorts g + i * Demuxer.step g + k))

theorem afterTurns_sample {t : Nat} {s : DualAxiDemux} (hlt : t < 2 * cbs g)
    (h : AfterTurns g mem cursor start nbytes 1 (g.nchan / 2)
      (regularWrites g (loadSrcbuf mem (fun _ => 0) start (nsrc g nbytes)) cursor) t s) :
    AfterTurns g mem cursor start nbytes 1 (g.nchan / 2)
      (regularWrites g (loadSrcbuf mem (fun _ => 0) start (nsrc g nbytes)) cursor) (t + 1)
      (sample g nbytes s) := by
  have hchosen := h.toFilled.changeBuffer (by omega) nbytes
  have hfilled : Filled g cursor (t * 1 + 1) (sample g nbytes s) :=
    hchosen.filled Nat.one_pos (fun hfirst => hfirst) rfl rfl rfl
  refine ⟨⟨?_⟩, ?_, ?_, ?_⟩
  · rw [Nat.succ_mul]
    exact hfilled.place
  · rw [List.range_succ, List.flatMap_append, runWrites_append, ← h.mem_eq]
    show List.foldl _ (changeBuffer g nbytes s).mem _ = _
    rw [List.flatMap_cons, List.flatMap_nil, List.append_nil, regularWrites, runWrites,
      List.foldl_map, hchosen.mem, hchosen.srcbuf, hchosen.psrc, h.srcbuf_eq, h.psrc_eq]
    congr 1
    funext m put
    have hcell := hchosen.cell (by omega) put.chan (k := 0)
      (by rw [Nat.add_zero]; exact Nat.mod_lt _ (by omega))
    rw [Nat.mul_one, Nat.add_zero, Nat.add_zero] at hcell
    rw [hcell]
  · exact hchosen.srcbuf.trans h.srcbuf_eq
  · show (changeBuffer g nbytes s).psrc + g.nchan / 2 = _
    rw [hchosen.psrc, h.psrc_eq, Nat.succ_mul]

theorem step_cases (g : G) :
    (g.doubleUp = false ∧ Demuxer.step g = 1) ∨ (g.doubleUp = true ∧ Demuxer.step g = 2) := by
  unfold Demuxer.step
  cases g.doubleUp with
  | false => exact Or.inl ⟨rfl, rfl⟩
  | true => exact Or.inr ⟨rfl, rfl⟩

theorem step_pos (g : G) : 0 < Demuxer.step g := by
  rcases step_cases g with ⟨-, hstep⟩ | ⟨-, hstep⟩
  · omega
  · omega

/-- A turn of DB_2D_DOUBLE whose samples stay together in a destination buffer. -/
theorem afterTurns_sampleDouble {t : Nat} {s : DualAxiDemux}
    (hlt : t * Demuxer.step g < 2 * cbs g)
    (hroom : t * Demuxer.step g % cbs g + Demuxer.step g ≤ cbs g)
    (h : AfterTurns g mem cursor start nbytes (Demuxer.step g) (srcinc g)
      (doubleWrites g (loadSrcbuf mem (fun _ => 0) start (nsrc g nbytes)) cursor) t s) :
    AfterTurns g mem cursor start nbytes (Demuxer.step g) (srcinc g)
      (doubleWrites g (loadSrcbuf mem (fun _ => 0) start (nsrc g nbytes)) cursor) (t + 1)
      (sampleDouble g nbytes s) := by
  have hchosen := h.toFilled.changeBufferDouble hlt nbytes
  have hfilled : Filled g cursor (t * Demuxer.step g + Demuxer.step g)
      (sampleDouble g nbytes s) := by
    refine hchosen.filled (step_pos g) (fun hfirst => ?_) rfl rfl rfl
    rw [Nat.mod_eq_of_lt hfirst] at hroom
    exact hroom
  have hharvest : ∀ chan0 n off,
      harvest g (changeBufferDouble g nbytes s) chan0 n (t * srcinc g + off) =
        (List.range n).flatMap fun i => (List.range (Demuxer.step g)).map fun k =>
          (cellAt g cursor (chan0 + i) (t * Demuxer.step g + k),
            loadSrcbuf mem (fun _ => 0) start (nsrc g nbytes)
              (t * srcinc g + off + i * Demuxer.step g + k)) := by
    intro chan0 n off
    unfold harvest
    refine List.flatMap_congr fun i _ => List.map_congr_left fun k hk => ?_
    rw [List.mem_range] at hk
    rw [hchosen.cell hlt (chan0 + i) (by omega), hchosen.srcbuf, h.srcbuf_eq]
  refine ⟨⟨?_⟩, ?_, ?_, ?_⟩
  · rw [Nat.succ_mul]
    exact hfilled.place
  · rw [List.range_succ, List.flatMap_append, runWrites_append, ← h.mem_eq]
    show runWrites (changeBufferDouble g nbytes s).mem _ = _
    have hfirst := hharvest 0 (g.nchan / 2) 0
    have hsecond := hharvest (g.nchan / 2) (g.nchan - g.nchan / 2) (bufshorts g)
    simp only [Nat.zero_add, Nat.add_zero] at hfirst
    rw [List.flatMap_cons, List.flatMap_nil, List.append_nil, doubleWrites, hchosen.mem,
      hchosen.psrc, h.psrc_eq, hfirst, hsecond]
  · exact hchosen.srcbuf.trans h.srcbuf_eq
  · show (changeBufferDouble g nbytes s).psrc + srcinc g = _
    rw [hchosen.psrc, h.psrc_eq, Nat.succ_mul]

theorem afterTurns_iterate (g : G) (mem : Nat → UInt16) (cursor start nbytes : Nat) {step inc : Nat}
    {writes : Nat → List (Nat × UInt16)} (turn : DualAxiDemux → DualAxiDemux) :
    ∀ n, (∀ t s, t < n → AfterTurns g mem cursor start nbytes step inc writes t s →
        AfterTurns g mem cursor start nbytes step inc writes (t + 1) (turn s)) →
      AfterTurns g mem cursor start nbytes step inc writes n
        (turn^[n] (begin g mem cursor start nbytes)) := by
  intro n
  induction n with
  | zero => exact fun _ => afterTurns_begin g mem cursor start nbytes step inc writes
  | succ n ih =>
      intro hturn
      rw [Function.iterate_succ_apply']
      exact hturn n _ (Nat.lt_succ_self n) (ih fun t s hlt => hturn t s (by omega))

/-! ### What is put out -/

/-- Writes that are each to the place of a sample, with its value, leave all of them there. -/
theorem runWrites_cells (h : PairLayout g) (hcbs : 0 < cbs g) {chanOf : Nat → Nat}
    (hin : ∀ j, j < g.nchan → chanOf j < g.nchan)
    (hinj : ∀ j, j < g.nchan → ∀ j', j' < g.nchan → chanOf j = chanOf j' → j = j')
    {value : Nat → Nat → UInt16} {writes : List (Nat × UInt16)}
    (hform : ∀ w ∈ writes, ∃ j s, j < g.nchan ∧ w = (cellAt g cursor (chanOf j) s, value j s))
    {j s : Nat} (hj : j < g.nchan)
    (hmem : (cellAt g cursor (chanOf j) s, value j s) ∈ writes) :
    runWrites mem writes (cellAt g cursor (chanOf j) s) = value j s := by
  refine runWrites_get writes mem hmem fun w hw heq => ?_
  obtain ⟨j', s', hj', rfl⟩ := hform w hw
  obtain ⟨hchan, rfl⟩ := h.cellAt_inj (hin j' hj') (hin j hj) hcbs heq
  rw [hinj j' hj' j hj hchan]

theorem loadSrcbuf_lt {srcbuf : Nat → UInt16} {nsrc k : Nat} (hk : k < nsrc) :
    loadSrcbuf mem srcbuf start nsrc k = mem (start + k) := if_pos hk

/-- The channels of the tables. -/
def pinOf (g : G) (j : Nat) : Nat :=
  if j < g.nchan / 2 then dma0Pin j else dma1Pin (j - g.nchan / 2)

theorem pinOf_lt (h : PairLayout g) (j : Nat) (hj : j < g.nchan) : pinOf g j < g.nchan := by
  have htables : ∀ sites, sites < 4 → ∀ i, i < 8 * sites →
      dma0Pin i < 16 * sites ∧ dma1Pin i < 16 * sites := by
    decide +kernel
  obtain ⟨sites, hsites⟩ := h.sites
  have hfits := h.fits
  have hhalf : g.nchan / 2 = 8 * sites := by omega
  unfold pinOf
  rw [hhalf, hsites]
  split
  · rename_i hlt
    exact (htables sites (by omega) j hlt).1
  · exact (htables sites (by omega) (j - 8 * sites) (by omega)).2

theorem pinOf_inj (h : PairLayout g) (j : Nat) (hj : j < g.nchan) (j' : Nat) (hj' : j' < g.nchan)
    (heq : pinOf g j = pinOf g j') : j = j' := by
  have hfits := h.fits
  have hchan := h.nchan_eq
  unfold pinOf at heq
  split at heq
  · split at heq
    · exact dma0Pin_inj j (by omega) j' (by omega) heq
    · exact absurd heq (dma0Pin_ne_dma1Pin j (by omega) (j' - g.nchan / 2) (by omega))
  · split at heq
    · exact absurd heq.symm (dma0Pin_ne_dma1Pin j' (by omega) (j - g.nchan / 2) (by omega))
    · have := dma1Pin_inj (j - g.nchan / 2) (by omega) (j' - g.nchan / 2) (by omega) heq
      omega

/-- DB_2D_REGULAR puts out the words that follow the start one after the other. -/
theorem demux_cells (h : PairLayout g) {nsam : Nat} (hfits : nsam ≤ 2 * cbs g)
    (mem : Nat → UInt16) (cursor start : Nat) {s i : Nat} (hs : s < nsam) (hi : i < g.nchan / 2) :
    (demux g mem cursor start (g.s2b nsam)).2.mem (cellAt g cursor (dma0Pin i) s)
        = pinValue i (mem (start + (s * (g.nchan / 2) + i))) ∧
      (demux g mem cursor start (g.s2b nsam)).2.mem (cellAt g cursor (dma1Pin i) s)
        = mem (start + (s * (g.nchan / 2) + i) + bufshorts g) := by
  have hchan := h.nchan_eq
  have hafter := afterTurns_iterate g mem cursor start (g.s2b nsam)
    (sample g (g.s2b nsam)) nsam
    fun t s hlt hs => afterTurns_sample (by omega) hs
  have hword : s * (g.nchan / 2) + i + bufshorts g < nsrc g (g.s2b nsam) := by
    have hle := h.samples_le
    have hrow : (s + 1) * (g.nchan / 2) ≤ 2 * cbs g * (g.nchan / 2) :=
      Nat.mul_le_mul_right _ (by omega)
    rw [Nat.succ_mul] at hrow
    exact Nat.lt_of_lt_of_le (by omega) (Nat.le_max_right _ _)
  unfold demux
  rw [h.b2s_s2b, hafter.mem_eq]
  generalize hbuf : loadSrcbuf mem (fun _ => 0) start (nsrc g (g.s2b nsam)) = srcbuf
  let value := fun j s => if j < g.nchan / 2 then pinValue j (srcbuf (s * (g.nchan / 2) + j))
    else srcbuf (s * (g.nchan / 2) + bufshorts g + (j - g.nchan / 2))
  have hform : ∀ w ∈ (List.range nsam).flatMap (regularWrites g srcbuf cursor),
      ∃ j s, j < g.nchan ∧ w = (cellAt g cursor (pinOf g j) s, value j s) := by
    intro w hw
    obtain ⟨t, -, hw⟩ := List.mem_flatMap.mp hw
    obtain ⟨put, hput, rfl⟩ := List.mem_map.mp hw
    rcases List.mem_append.mp hput with hput | hput
    · obtain ⟨i, hi, rfl⟩ := List.mem_map.mp hput
      rw [List.mem_range] at hi
      exact ⟨i, t, by omega, by simp only [pinOf, value, if_pos hi]⟩
    · obtain ⟨i, hi, rfl⟩ := List.mem_map.mp hput
      rw [List.mem_range] at hi
      refine ⟨g.nchan / 2 + i, t, by omega, ?_⟩
      simp only [pinOf, value, if_neg (Nat.not_lt.mpr (Nat.le_add_right _ i)),
        Nat.add_sub_cancel_left]
  have hmem : ∀ put ∈ samplePuts g srcbuf (s * (g.nchan / 2)),
      (cellAt g cursor put.chan s, put.value)
        ∈ (List.range nsam).flatMap (regularWrites g srcbuf cursor) := fun put hput =>
    List.mem_flatMap.mpr ⟨s, List.mem_range.mpr hs, List.mem_map_of_mem hput⟩
  have hcells : ∀ {j}, j < g.nchan → (cellAt g cursor (pinOf g j) s, value j s)
      ∈ (List.range nsam).flatMap (regularWrites g srcbuf cursor) →
      runWrites mem ((List.range nsam).flatMap (regularWrites g srcbuf cursor))
        (cellAt g cursor (pinOf g j) s) = value j s := fun hj hw =>
    runWrites_cells h (by omega) (pinOf_lt h) (pinOf_inj h) hform hj hw
  constructor
  · have hcell := hcells (j := i) (by omega)
    simp only [pinOf, value, if_pos hi] at hcell
    rw [hcell (hmem _ (List.mem_append_left _ (List.mem_map_of_mem (List.mem_range.mpr hi)))),
      ← hbuf, loadSrcbuf_lt (by omega)]
  · have hcell := hcells (j := g.nchan / 2 + i) (by omega)
    simp only [pinOf, value, if_neg (Nat.not_lt.mpr (Nat.le_add_right _ i)),
      Nat.add_sub_cancel_left] at hcell
    rw [hcell (hmem _ (List.mem_append_right _ (List.mem_map_of_mem (List.mem_range.mpr hi)))),
      ← hbuf, loadSrcbuf_lt (by omega)]
    congr 1
    omega

theorem srcinc_eq (h : PairLayout g) : srcinc g = Demuxer.step g * (g.nchan / 2) := by
  have hchan := h.nchan_eq
  unfold srcinc
  rcases step_cases g with ⟨-, hstep⟩ | ⟨-, hstep⟩
  · rw [hstep, if_neg (by decide), Nat.one_mul]
  · rw [hstep, if_pos rfl]
    omega

theorem turns_mul (g : G) (nsam : Nat) :
    nsam ≤ Demuxer.turns g nsam * Demuxer.step g ∧
      Demuxer.turns g nsam * Demuxer.step g < nsam + Demuxer.step g := by
  unfold Demuxer.turns
  rcases step_cases g with ⟨-, hstep⟩ | ⟨-, hstep⟩
  · rw [hstep]
    omega
  · rw [hstep]
    omega

theorem turns_mul_le {nsam : Nat} (hfits : nsam ≤ 2 * cbs g) :
    Demuxer.turns g nsam * Demuxer.step g ≤ 2 * cbs g := by
  unfold Demuxer.turns
  rcases step_cases g with ⟨-, hstep⟩ | ⟨-, hstep⟩
  · rw [hstep]
    omega
  · rw [hstep]
    omega

theorem wordOf_lt {step n i s : Nat} (hstep : 0 < step) (hs : s < n * step)
    (hi : i < g.nchan / 2) : wordOf g step i s < n * step * (g.nchan / 2) := by
  have hturn : s / step + 1 ≤ n := Nat.div_lt_of_lt_mul (by rw [Nat.mul_comm]; exact hs)
  have hmod := Nat.mod_lt s hstep
  have hrow : (i + 1) * step ≤ g.nchan / 2 * step := Nat.mul_le_mul_right _ hi
  have hall : (s / step + 1) * (step * (g.nchan / 2)) ≤ n * (step * (g.nchan / 2)) :=
    Nat.mul_le_mul_right _ hturn
  rw [Nat.succ_mul] at hrow hall
  rw [Nat.mul_comm (g.nchan / 2)] at hrow
  rw [Nat.mul_assoc]
  unfold wordOf
  omega

/-- What DB_2D_DOUBLE reads where it goes on word by word. -/
def ReadsOn (g : G) (mem mem' : Nat → UInt16) (cursor start nsam : Nat) : Prop :=
  ∀ s, s < nsam → ∀ i, i < g.nchan / 2 →
    mem' (cellAt g cursor i s) = mem (start + wordOf g (Demuxer.step g) i s) ∧
      mem' (cellAt g cursor (g.nchan / 2 + i) s)
        = mem (start + wordOf g (Demuxer.step g) i s + bufshorts g)

theorem word_loaded (h : PairLayout g) {nsam s i : Nat} (hfits : nsam ≤ 2 * cbs g)
    (hs : s < nsam) (hi : i < g.nchan / 2) :
    wordOf g (Demuxer.step g) i s + bufshorts g < nsrc g (g.s2b nsam) := by
  have hword := wordOf_lt (g := g) (n := Demuxer.turns g nsam) (step_pos g)
    (Nat.lt_of_lt_of_le hs (turns_mul g nsam).1) hi
  have hle := Nat.mul_le_mul_right (g.nchan / 2) (turns_mul_le hfits)
  have hbuf := h.samples_le
  exact Nat.lt_of_lt_of_le (by omega) (Nat.le_max_right _ _)

/-- It does so where the samples of every turn stay together in a destination buffer. -/
theorem demuxDouble_readsOn (h : PairLayout g) {nsam : Nat} (hfits : nsam ≤ 2 * cbs g)
    (hroom : ∀ t, t < Demuxer.turns g nsam →
      t * Demuxer.step g % cbs g + Demuxer.step g ≤ cbs g)
    (mem : Nat → UInt16) (cursor start : Nat) :
    ReadsOn g mem (demuxDouble g mem cursor start (g.s2b nsam)).2.mem cursor start nsam := by
  intro s hs i hi
  have hchan := h.nchan_eq
  have hstep := step_pos g
  have hmul := turns_mul_le hfits
  have hafter := afterTurns_iterate g mem cursor start (g.s2b nsam)
    (sampleDouble g (g.s2b nsam)) (Demuxer.turns g nsam)
    fun t s hlt hs => afterTurns_sampleDouble
      (Nat.lt_of_lt_of_le (Nat.mul_lt_mul_of_pos_right hlt hstep) hmul) (hroom t hlt) hs
  have hloaded := word_loaded h hfits hs hi
  have hturn : s / Demuxer.step g < Demuxer.turns g nsam := by
    refine Nat.div_lt_of_lt_mul ?_
    rw [Nat.mul_comm]
    exact Nat.lt_of_lt_of_le hs (turns_mul g nsam).1
  have hmod := Nat.mod_lt s hstep
  unfold demuxDouble
  rw [h.b2s_s2b, hafter.mem_eq]
  generalize hbuf : loadSrcbuf mem (fun _ => 0) start (nsrc g (g.s2b nsam)) = srcbuf
  let value := fun j s => if j < g.nchan / 2 then srcbuf (wordOf g (Demuxer.step g) j s)
    else srcbuf (wordOf g (Demuxer.step g) (j - g.nchan / 2) s + bufshorts g)
  have hword : ∀ t i k, k < Demuxer.step g → wordOf g (Demuxer.step g) i (t * Demuxer.step g + k)
      = t * srcinc g + i * Demuxer.step g + k := by
    intro t i k hk
    rw [wordOf, srcinc_eq h, Nat.add_comm (t * _) k, Nat.add_mul_div_right _ _ hstep,
      Nat.div_eq_of_lt hk, Nat.zero_add, Nat.add_mul_mod_self_right, Nat.mod_eq_of_lt hk]
  have hform : ∀ w ∈ (List.range (Demuxer.turns g nsam)).flatMap (doubleWrites g srcbuf cursor),
      ∃ j s, j < g.nchan ∧ w = (cellAt g cursor (id j) s, value j s) := by
    intro w hw
    obtain ⟨t, -, hw⟩ := List.mem_flatMap.mp hw
    rcases List.mem_append.mp hw with hw | hw
    · obtain ⟨i, hi, hw⟩ := List.mem_flatMap.mp hw
      obtain ⟨k, hk, rfl⟩ := List.mem_map.mp hw
      rw [List.mem_range] at hi hk
      refine ⟨i, t * Demuxer.step g + k, by omega, ?_⟩
      simp only [id, value, if_pos hi]
      rw [hword t i k hk]
    · obtain ⟨i, hi, hw⟩ := List.mem_flatMap.mp hw
      obtain ⟨k, hk, rfl⟩ := List.mem_map.mp hw
      rw [List.mem_range] at hi hk
      refine ⟨g.nchan / 2 + i, t * Demuxer.step g + k, by omega, ?_⟩
      simp only [id, value, if_neg (Nat.not_lt.mpr (Nat.le_add_right _ i)),
        Nat.add_sub_cancel_left]
      rw [hword t i k hk]
      congr 2
      omega
  have hsplit : s / Demuxer.step g * Demuxer.step g + s % Demuxer.step g = s :=
    Nat.div_add_mod' s _
  have hturnMem : ∀ w ∈ doubleWrites g srcbuf cursor (s / Demuxer.step g),
      w ∈ (List.range (Demuxer.turns g nsam)).flatMap (doubleWrites g srcbuf cursor) :=
    fun w hw => List.mem_flatMap.mpr ⟨_, List.mem_range.mpr hturn, hw⟩
  have hcells : ∀ {j}, j < g.nchan → (cellAt g cursor (id j) s, value j s)
      ∈ doubleWrites g srcbuf cursor (s / Demuxer.step g) →
      runWrites mem ((List.range (Demuxer.turns g nsam)).flatMap (doubleWrites g srcbuf cursor))
        (cellAt g cursor (id j) s) = value j s := fun hj hw =>
    runWrites_cells h (by omega) (fun j hj => hj) (fun j _ j' _ heq => heq) hform hj
      (hturnMem _ hw)
  constructor
  · have hcell := hcells (j := i) (by omega)
    simp only [id, value, if_pos hi] at hcell
    rw [hcell ?_, ← hbuf, loadSrcbuf_lt (by omega)]
    refine List.mem_append_left _ (List.mem_flatMap.mpr ⟨i, List.mem_range.mpr hi,
      List.mem_map.mpr ⟨s % Demuxer.step g, List.mem_range.mpr hmod, ?_⟩⟩)
    rw [← hword _ i _ hmod, hsplit]
  · have hcell := hcells (j := g.nchan / 2 + i) (by omega)
    simp only [id, value, if_neg (Nat.not_lt.mpr (Nat.le_add_right _ i)),
      Nat.add_sub_cancel_left] at hcell
    rw [hcell ?_, ← hbuf, loadSrcbuf_lt hloaded, Nat.add_assoc]
    refine List.mem_append_right _ (List.mem_flatMap.mpr ⟨i, List.mem_range.mpr (by omega),
      List.mem_map.mpr ⟨s % Demuxer.step g, List.mem_range.mpr hmod, ?_⟩⟩)
    rw [hsplit]
    congr 2
    have := hword (s / Demuxer.step g) i _ hmod
    rw [hsplit] at this
    omega

/-! ### Where the words are -/

/-- The words of all samples are where the code reads on if and only if the turns end within the
source buffer. -/
theorem words_iff (h : PairLayout g) {step : Nat} (hstep : 0 < step) (hle : step ≤ 2) (u : Nat)
    {n turns : Nat} (hlo : n ≤ turns * step) (hhi : turns * step < n + step) :
    (∀ s, s < n → ∀ i, i < g.nchan / 2 →
      evenWord g (u * (g.nchan / 2)) + wordOf g step i s
        = evenWord g (u * (g.nchan / 2) + wordOf g step i s)) ↔
      u % halfSamples g + turns * step ≤ halfSamples g := by
  have hchan := h.nchan_eq
  constructor
  · intro hall
    cases turns with
    | zero =>
        rw [Nat.zero_mul]
        exact Nat.le_of_lt (Nat.mod_lt u h.halfSamples_pos)
    | succ m =>
        -- the last word of the last turn
        rw [Nat.succ_mul] at hhi
        have hlast := (h.evenWord_add_iff u _).mp
          (hall (m * step) (by omega) (g.nchan / 2 - 1) (by omega))
        have hword : wordOf g step (g.nchan / 2 - 1) (m * step) + step
            = (m + 1) * step * (g.nchan / 2) := by
          have hrow : (g.nchan / 2 - 1) * step + step = g.nchan / 2 * step := by
            rw [← Nat.succ_mul]
            congr 1
            omega
          unfold wordOf
          rw [Nat.mul_div_cancel _ hstep, Nat.mul_mod_left, Nat.add_zero, Nat.add_assoc, hrow]
          ring
        have hlt : (u % halfSamples g + (m + 1) * step) * (g.nchan / 2)
            < (halfSamples g + 1) * (g.nchan / 2) := by
          rw [Nat.add_mul, Nat.succ_mul (halfSamples g)]
          omega
        exact Nat.le_of_lt_succ (Nat.lt_of_mul_lt_mul_right hlt)
  · intro hfit s hs i hi
    rw [h.evenWord_add_iff]
    have hword := wordOf_lt hstep (Nat.lt_of_lt_of_le hs hlo) hi
    have hrow := Nat.mul_le_mul_right (g.nchan / 2) hfit
    rw [Nat.add_mul] at hrow
    omega

theorem wordOf_one (i s : Nat) : wordOf g 1 i s = s * (g.nchan / 2) + i := by
  rw [wordOf, Nat.div_one, Nat.one_mul, Nat.mul_one, Nat.mod_one, Nat.add_zero]

theorem eq_of_mem_eq {a b : Nat} (h : ∀ mem : Nat → UInt16, mem a = mem b) : a = b := by
  have hone := h fun x => if x = a then 1 else 0
  simp only [if_true] at hone
  by_contra hne
  rw [if_neg (Ne.symm hne)] at hone
  exact absurd hone (by decide)

theorem putsOut_iff (h : PairLayout g) (cursor u : Nat) {nsam : Nat} (hfits : nsam ≤ 2 * cbs g) :
    (∀ mem, PutsOut g mem (demux g mem cursor (evenWord g (u * (g.nchan / 2)))
        (g.s2b nsam)).2.mem cursor u nsam) ↔
      u % halfSamples g + nsam ≤ halfSamples g := by
  have hwords := words_iff h Nat.one_pos (by decide) u (show nsam ≤ nsam * 1 by omega)
    (by omega)
  rw [Nat.mul_one] at hwords
  rw [← hwords]
  have hindex : ∀ s i, (u + s) * (g.nchan / 2) + i = u * (g.nchan / 2) + wordOf g 1 i s := by
    intro s i
    rw [wordOf_one, Nat.add_mul, Nat.add_assoc]
  constructor
  · intro hall s hs i hi
    refine Nat.add_right_cancel (eq_of_mem_eq fun mem => ?_ : _ + bufshorts g = _ + bufshorts g)
    have hput := (hall mem s hs i hi).2
    rw [(demux_cells h hfits mem cursor _ hs hi).2, hindex] at hput
    rw [wordOf_one] at hput ⊢
    exact hput
  · intro hall mem s hs i hi
    have hword := hall s hs i hi
    obtain ⟨h0, h1⟩ := demux_cells h hfits mem cursor (evenWord g (u * (g.nchan / 2))) hs hi
    rw [h0, h1, hindex, ← hword, wordOf_one]
    exact ⟨rfl, rfl⟩

/-- Of whatever reads on, not only of DB_2D_DOUBLE where turns stay together. -/
theorem putsOutDouble_iff_of_readsOn (h : PairLayout g) (cursor u nsam : Nat)
    {out : (Nat → UInt16) → Nat → UInt16}
    (hreads : ∀ mem, ReadsOn g mem (out mem) cursor (evenWord g (u * (g.nchan / 2))) nsam) :
    (∀ mem, PutsOutDouble g mem (out mem) cursor u nsam) ↔
      u % halfSamples g + Demuxer.turns g nsam * Demuxer.step g ≤ halfSamples g := by
  have hle : Demuxer.step g ≤ 2 := by
    rcases step_cases g with ⟨-, hstep⟩ | ⟨-, hstep⟩
    · omega
    · omega
  rw [← words_iff h (step_pos g) hle u (turns_mul g nsam).1 (turns_mul g nsam).2]
  constructor
  · intro hall s hs i hi
    refine Nat.add_right_cancel (eq_of_mem_eq fun mem => ?_ : _ + bufshorts g = _ + bufshorts g)
    exact (hreads mem s hs i hi).2.symm.trans (hall mem s hs i hi).2
  · intro hall mem s hs i hi
    obtain ⟨h0, h1⟩ := hreads mem s hs i hi
    rw [h0, h1, hall s hs i hi]
    exact ⟨rfl, rfl⟩

/-! ### Two samples in a row and an odd number in a buffer

`sambuf` steps over `cbs`, and the destination never changes. -/

/-- The writes of turn `t` then. -/
def straightWrites (g : G) (srcbuf : Nat → UInt16) (cursor t : Nat) : List (Nat × UInt16) :=
  ((List.range (g.nchan / 2)).flatMap fun i =>
    (List.range 2).map fun k => (cursor + i * cbs g + t * 2 + k, srcbuf (t * g.nchan + i * 2 + k)))
  ++ (List.range (g.nchan - g.nchan / 2)).flatMap fun i =>
    (List.range 2).map fun k =>
      (cursor + (g.nchan / 2 + i) * cbs g + t * 2 + k,
        srcbuf (t * g.nchan + bufshorts g + i * 2 + k))

/-- The state after `t` turns. -/
structure Straight (g : G) (mem : Nat → UInt16) (cursor start nbytes t : Nat) (s : DualAxiDemux) :
    Prop where
  pdst_eq : s.pdst = cursor
  sambuf_eq : s.sambuf = t * 2
  psrc_eq : s.psrc = t * g.nchan
  srcbuf_eq : s.srcbuf = loadSrcbuf mem (fun _ => 0) start (nsrc g nbytes)
  mem_eq : s.mem = runWrites mem ((List.range t).flatMap
    (straightWrites g (loadSrcbuf mem (fun _ => 0) start (nsrc g nbytes)) cursor))

theorem straight_iterate (hstep : Demuxer.step g = 2) (hodd : cbs g % 2 = 1)
    (mem : Nat → UInt16) (cursor start nbytes : Nat) :
    ∀ t, Straight g mem cursor start nbytes t
      ((sampleDouble g nbytes)^[t] (begin g mem cursor start nbytes)) := by
  intro t
  induction t with
  | zero => exact ⟨rfl, rfl, (Nat.zero_mul _).symm, rfl, rfl⟩
  | succ t ih =>
      rw [Function.iterate_succ_apply']
      generalize (sampleDouble g nbytes)^[t] (begin g mem cursor start nbytes) = s at ih ⊢
      have hsame : changeBufferDouble g nbytes s = s := by
        unfold changeBufferDouble
        rw [if_neg]
        have hsam := ih.sambuf_eq
        omega
      have hinc : srcinc g = g.nchan := if_pos hstep
      refine ⟨?_, ?_, ?_, ?_, ?_⟩
      · simp only [sampleDouble, hsame]
        exact ih.pdst_eq
      · simp only [sampleDouble, hsame]
        rw [ih.sambuf_eq, hstep, Nat.succ_mul]
      · simp only [sampleDouble, hsame]
        rw [ih.psrc_eq, hinc, Nat.succ_mul]
      · simp only [sampleDouble, hsame]
        exact ih.srcbuf_eq
      · rw [List.range_succ, List.flatMap_append, runWrites_append, ← ih.mem_eq]
        simp only [sampleDouble, hsame]
        rw [List.flatMap_cons, List.flatMap_nil, List.append_nil]
        simp only [harvest, straightWrites, hstep, ih.pdst_eq, ih.sambuf_eq, ih.psrc_eq,
          ih.srcbuf_eq, Nat.zero_add]

theorem demuxDouble_straight (h : PairLayout g) (hstep : Demuxer.step g = 2)
    (hodd : cbs g % 2 = 1) (mem : Nat → UInt16) (cursor start nsam : Nat) :
    (demuxDouble g mem cursor start (g.s2b nsam)).2.mem
      = runWrites mem ((List.range (Demuxer.turns g nsam)).flatMap (straightWrites g
          (loadSrcbuf mem (fun _ => 0) start (nsrc g (g.s2b nsam))) cursor)) := by
  unfold demuxDouble
  rw [h.b2s_s2b]
  exact (straight_iterate hstep hodd mem cursor start (g.s2b nsam) _).mem_eq

theorem straightWrites_mem (h : PairLayout g) {srcbuf : Nat → UInt16} {t : Nat}
    {w : Nat × UInt16} (hw : w ∈ straightWrites g srcbuf cursor t) :
    ∃ j k, j < g.nchan ∧ k < 2 ∧ w.1 = cursor + j * cbs g + t * 2 + k ∧
      (j = 0 → w.2 = srcbuf (t * g.nchan + k)) := by
  have hchan := h.nchan_eq
  rcases List.mem_append.mp hw with hw | hw
  · obtain ⟨i, hi, hw⟩ := List.mem_flatMap.mp hw
    obtain ⟨k, hk, rfl⟩ := List.mem_map.mp hw
    rw [List.mem_range] at hi hk
    refine ⟨i, k, by omega, hk, rfl, fun hzero => ?_⟩
    simp only
    rw [hzero, Nat.zero_mul, Nat.add_zero]
  · obtain ⟨i, hi, hw⟩ := List.mem_flatMap.mp hw
    obtain ⟨k, hk, rfl⟩ := List.mem_map.mp hw
    rw [List.mem_range] at hi hk
    exact ⟨g.nchan / 2 + i, k, by omega, hk, rfl, fun hzero => by omega⟩

/-- Writes of two cells each, one cell further with each, leave the first of the two. -/
theorem runWrites_overlapping {a : Nat} {v w : Nat → UInt16} (m : Nat → UInt16) :
    ∀ n c, c < n →
      runWrites m ((List.range n).flatMap fun i => [(a + i, v i), (a + i + 1, w i)]) (a + c)
        = v c := by
  intro n
  induction n with
  | zero =>
      intro c hc
      omega
  | succ n ih =>
      intro c hc
      rw [List.range_succ, List.flatMap_append, runWrites_append]
      simp only [List.flatMap_cons, List.flatMap_nil, List.append_nil, runWrites_cons,
        runWrites_nil]
      rw [Function.update_of_ne (by omega)]
      by_cases hlast : c = n
      · rw [hlast, Function.update_self]
      · rw [Function.update_of_ne (by omega)]
        exact ih c (by omega)

/-- A single sample is right even where a buffer has room for one only: what is written into the
next channel is written over. -/
theorem demuxDouble_single (h : PairLayout g) (hstep : Demuxer.step g = 2) (hone : cbs g = 1)
    (mem : Nat → UInt16) (cursor start : Nat) :
    ReadsOn g mem (demuxDouble g mem cursor start (g.s2b 1)).2.mem cursor start 1 := by
  intro s hs i hi
  obtain rfl : s = 0 := by omega
  have hchan := h.nchan_eq
  have hloaded := word_loaded h (show 1 ≤ 2 * cbs g by omega) Nat.one_pos hi
  have hturns : Demuxer.turns g 1 = 1 := by
    unfold Demuxer.turns
    rw [hstep]
  have hcell : ∀ c, cellAt g cursor c 0 = cursor + c := by
    intro c
    rw [cellAt, hone, Nat.zero_div, Nat.zero_mul, Nat.mul_one, Nat.zero_mod]
    rfl
  have hword : wordOf g 2 i 0 = i * 2 := by
    rw [wordOf, Nat.zero_div, Nat.zero_mul, Nat.zero_mod]
    omega
  rw [hstep, hword] at hloaded ⊢
  rw [demuxDouble_straight h hstep (by rw [hone]), hturns]
  generalize hbuf : loadSrcbuf mem (fun _ => 0) start (nsrc g (g.s2b 1)) = srcbuf
  have hlist : ∀ a off n, ((List.range n).flatMap fun i => (List.range 2).map fun k =>
      (cursor + (a + i) * cbs g + 0 * 2 + k, srcbuf (0 * g.nchan + off + i * 2 + k)))
      = (List.range n).flatMap fun i => [(cursor + a + i, srcbuf (off + i * 2)),
        (cursor + a + i + 1, srcbuf (off + i * 2 + 1))] := by
    intro a off n
    refine List.flatMap_congr fun i _ => ?_
    show [_, _] = _
    simp only [hone, Nat.mul_one, Nat.zero_mul, Nat.add_zero, Nat.zero_add, Nat.add_assoc]
  have hwrites : (List.range 1).flatMap (straightWrites g srcbuf cursor) = ((List.range
        (g.nchan / 2)).flatMap fun i => [(cursor + 0 + i, srcbuf (0 + i * 2)),
          (cursor + 0 + i + 1, srcbuf (0 + i * 2 + 1))])
      ++ (List.range (g.nchan - g.nchan / 2)).flatMap fun i =>
        [(cursor + g.nchan / 2 + i, srcbuf (bufshorts g + i * 2)),
          (cursor + g.nchan / 2 + i + 1, srcbuf (bufshorts g + i * 2 + 1))] := by
    rw [← hlist, ← hlist]
    simp [straightWrites]
  rw [hwrites, runWrites_append, hcell, hcell]
  constructor
  · rw [runWrites_outside]
    · rw [show cursor + i = cursor + 0 + i by omega, runWrites_overlapping _ _ _ hi, ← hbuf,
        Nat.zero_add, loadSrcbuf_lt (by omega)]
    · intro w hw
      obtain ⟨j, -, hw⟩ := List.mem_flatMap.mp hw
      rcases List.mem_pair.mp hw with rfl | rfl
      · simp only
        omega
      · simp only
        omega
  · rw [← Nat.add_assoc, runWrites_overlapping _ _ _ (by omega), ← hbuf,
      loadSrcbuf_lt (by omega)]
    congr 1
    omega

theorem not_putsOutDouble_second (h : PairLayout g) (hstep : Demuxer.step g = 2)
    (hodd : cbs g % 2 = 1) {nsam : Nat} (hfits : nsam ≤ 2 * cbs g) (hmore : cbs g < nsam)
    (cursor u : Nat) :
    ¬ ∀ mem, PutsOutDouble g mem (demuxDouble g mem cursor (evenWord g (u * (g.nchan / 2)))
      (g.s2b nsam)).2.mem cursor u nsam := by
  intro hall
  have hchan := h.nchan_eq
  have hcells := h.channels_fit
  have hplace : ∀ i, 0 < i → i < g.nchan / 2 → cellAt g cursor i (cbs g)
      = evenWord g (u * (g.nchan / 2) + wordOf g 2 i (cbs g)) := by
    intro i hpos hi
    refine eq_of_mem_eq fun mem => ?_
    have hput := (hall mem (cbs g) hmore i hi).1
    rw [demuxDouble_straight h hstep hodd, runWrites_outside, hstep] at hput
    · exact hput
    · intro w hw
      obtain ⟨t, ht, hw⟩ := List.mem_flatMap.mp hw
      obtain ⟨j, k, hj, hk, haddr, -⟩ := straightWrites_mem h hw
      have hturns := turns_mul_le hfits
      rw [hstep] at hturns
      rw [List.mem_range] at ht
      have hrow : (j + 1) * cbs g ≤ g.nchan * cbs g := Nat.mul_le_mul_right _ hj
      have hone : 1 * cbs g ≤ i * cbs g := Nat.mul_le_mul_right _ hpos
      rw [Nat.succ_mul] at hrow
      rw [haddr, cellAt, Nat.div_self (by omega), Nat.mod_self]
      omega
  -- the places of two channels are an odd distance apart, their words an even one
  have hone := hplace 1 (by omega) (by omega)
  have htwo := hplace 2 (by omega) (by omega)
  have hword : wordOf g 2 2 (cbs g) = wordOf g 2 1 (cbs g) + 2 := by
    unfold wordOf
    omega
  rw [hword, ← Nat.add_assoc] at htwo
  generalize u * (g.nchan / 2) + wordOf g 2 1 (cbs g) = x at hone htwo
  rw [cellAt, evenWord, PairRows.even_eq_add] at hone htwo
  have hlt : cbs g < bufshorts g := by
    have hrow : 2 * cbs g ≤ g.nchan * cbs g := Nat.mul_le_mul_right _ (by omega)
    omega
  have hrows : x / bufshorts g ≤ (x + 2) / bufshorts g := Nat.div_le_div_right (by omega)
  rcases Nat.eq_or_lt_of_le hrows with heq | hnext
  · rw [← heq] at htwo
    omega
  · have hmul : (x / bufshorts g + 1) * bufshorts g ≤ (x + 2) / bufshorts g * bufshorts g :=
      Nat.mul_le_mul_right _ hnext
    rw [Nat.succ_mul] at hmul
    omega

/-- The last of an odd number of samples that fill a buffer goes over the first of the next
channel. -/
theorem not_putsOutDouble_last (h : PairLayout g) (hstep : Demuxer.step g = 2)
    (hodd : cbs g % 2 = 1) (hmore : 1 < cbs g) (cursor u : Nat) :
    ¬ ∀ mem, PutsOutDouble g mem (demuxDouble g mem cursor (evenWord g (u * (g.nchan / 2)))
      (g.s2b (cbs g))).2.mem cursor u (cbs g) := by
  intro hall
  have hchan := h.nchan_eq
  have hturns : Demuxer.turns g (cbs g) = cbs g / 2 + 1 := by
    unfold Demuxer.turns
    rw [hstep]
    omega
  have hloaded := word_loaded h (show cbs g ≤ 2 * cbs g by omega) (show cbs g - 1 < cbs g by omega)
    (show 0 < g.nchan / 2 by omega)
  have hlast : wordOf g 2 0 (cbs g - 1) = cbs g / 2 * g.nchan := by
    have hdiv : (cbs g - 1) / 2 = cbs g / 2 := by omega
    have hmod : (cbs g - 1) % 2 = 0 := by omega
    rw [wordOf, hdiv, hmod, ← hchan.1]
    omega
  rw [hstep, hlast] at hloaded
  have haddr : evenWord g (u * (g.nchan / 2)) + (cbs g / 2 * g.nchan + 1)
      = evenWord g (u * (g.nchan / 2) + 2) := by
    refine eq_of_mem_eq fun mem => ?_
    have hput := (hall mem 0 (by omega) 1 (by omega)).1
    have hcell : cellAt g cursor 1 0 = cursor + cbs g := by
      rw [cellAt, Nat.zero_div, Nat.zero_mul, Nat.zero_mod]
      omega
    have hword : wordOf g 2 1 0 = 2 := by
      rw [wordOf, Nat.zero_div, Nat.zero_mul, Nat.zero_mod]
    rw [demuxDouble_straight h hstep hodd, hturns, List.range_succ, List.flatMap_append,
      runWrites_append, hcell, hstep, hword] at hput
    rw [← hput, List.flatMap_cons, List.flatMap_nil, List.append_nil]
    refine (runWrites_get (v := mem (evenWord g (u * (g.nchan / 2)) + (cbs g / 2 * g.nchan + 1)))
      _ _ ?_ ?_).symm
    · refine List.mem_append_left _ (List.mem_flatMap.mpr ⟨0, List.mem_range.mpr (by omega),
        List.mem_map.mpr ⟨1, by simp, ?_⟩⟩)
      have hbufpos := h.bufshorts_pos
      have hnchan := h.pos
      rw [loadSrcbuf_lt (by omega)]
      congr 1
      · omega
    · intro w hw heq
      obtain ⟨j, k, hj, hk, hat, hvalue⟩ := straightWrites_mem h hw
      have hbufpos := h.bufshorts_pos
      have hzero : j = 0 := by
        by_contra hne
        have hrow : 1 * cbs g ≤ j * cbs g := Nat.mul_le_mul_right _ (Nat.pos_of_ne_zero hne)
        omega
      have hk1 : k = 1 := by
        rw [hzero] at hat
        omega
      rw [hvalue hzero, hk1, loadSrcbuf_lt (by omega)]
  -- the word after the last turn's first is not the first channel's second
  have hnear : evenWord g (u * (g.nchan / 2) + 2) = evenWord g (u * (g.nchan / 2)) + 2 := by
    refine ((h.evenWord_add_iff u 2).mpr ?_).symm
    have hrow : (u % halfSamples g + 1) * (g.nchan / 2) ≤ halfSamples g * (g.nchan / 2) :=
      Nat.mul_le_mul_right _ (Nat.mod_lt u h.halfSamples_pos)
    rw [Nat.succ_mul] at hrow
    omega
  have hrow : 1 * g.nchan ≤ cbs g / 2 * g.nchan := Nat.mul_le_mul_right _ (by omega)
  omega

/-- Two samples in a row stay in one destination buffer: a buffer has room for an even number, or
it is not filled, or there is one sample only. -/
def PairsFit (g : G) (nsam : Nat) : Prop :=
  g.doubleUp = true → cbs g % 2 = 0 ∨ nsam < cbs g ∨ nsam ≤ 1

theorem putsOutDouble_iff (h : PairLayout g) (cursor u : Nat) {nsam : Nat}
    (hfits : nsam ≤ 2 * cbs g) :
    (∀ mem, PutsOutDouble g mem (demuxDouble g mem cursor (evenWord g (u * (g.nchan / 2)))
        (g.s2b nsam)).2.mem cursor u nsam) ↔
      u % halfSamples g + Demuxer.turns g nsam * Demuxer.step g ≤ halfSamples g ∧
        PairsFit g nsam := by
  have htogether : (∀ t, t < Demuxer.turns g nsam →
        t * Demuxer.step g % cbs g + Demuxer.step g ≤ cbs g) →
      ((∀ mem, PutsOutDouble g mem (demuxDouble g mem cursor (evenWord g (u * (g.nchan / 2)))
        (g.s2b nsam)).2.mem cursor u nsam) ↔
        u % halfSamples g + Demuxer.turns g nsam * Demuxer.step g ≤ halfSamples g) := fun hroom =>
    putsOutDouble_iff_of_readsOn h cursor u nsam fun mem =>
      demuxDouble_readsOn h hfits hroom mem cursor _
  have hturns := turns_mul g nsam
  rcases step_cases g with ⟨hsingle, hstep⟩ | ⟨hdouble, hstep⟩
  · -- single samples always stay together
    rw [htogether, and_iff_left]
    · intro hdouble
      rw [hsingle] at hdouble
      exact absurd hdouble (by decide)
    · intro t ht
      rw [hstep, Nat.mul_one] at hturns ⊢
      exact Nat.mod_lt t (by omega)
  · by_cases hpairs : PairsFit g nsam
    · rw [and_iff_left hpairs]
      rcases hpairs hdouble with heven | hless | hone
      · refine htogether fun t ht => ?_
        rw [hstep] at hturns ⊢
        have hmod := Nat.mod_lt (t * 2) (show 0 < cbs g by omega)
        have hparity : t * 2 % cbs g % 2 = 0 := by
          rw [Nat.mod_mod_of_dvd _ (Nat.dvd_of_mod_eq_zero heven)]
          exact Nat.mul_mod_left t 2
        omega
      · refine htogether fun t ht => ?_
        rw [hstep] at hturns ⊢
        rcases Nat.mod_two_eq_zero_or_one (cbs g) with heven | hodd
        · rw [Nat.mod_eq_of_lt (by omega)]
          omega
        · rw [Nat.mod_eq_of_lt (by omega)]
          omega
      · by_cases hcbs : cbs g = 1 ∧ nsam = 1
        · obtain ⟨hcbs, rfl⟩ := hcbs
          exact putsOutDouble_iff_of_readsOn h cursor u 1 fun mem =>
            demuxDouble_single h hstep hcbs mem cursor _
        · refine htogether fun t ht => ?_
          rw [hstep] at hturns ⊢
          rw [Nat.mod_eq_of_lt (by omega)]
          omega
    · refine iff_of_false ?_ fun hboth => hpairs hboth.2
      rw [PairsFit, Classical.not_imp] at hpairs
      obtain ⟨-, hnot⟩ := hpairs
      have hodd : cbs g % 2 = 1 := by omega
      rcases Nat.lt_or_eq_of_le (show cbs g ≤ nsam by omega) with hmore | rfl
      · exact not_putsOutDouble_second h hstep hodd hfits hmore cursor u
      · exact not_putsOutDouble_last h hstep hodd (by omega) cursor u

/--
**From any half sample on.**  As many samples as fit the destination pair are put out right,
whatever the memory has, if and only if they end within the source buffer that they start in;
where a channel has two samples in a row these also have to stay together in the destination.
-/
theorem demux_offset_iff (g : G) (h : PairLayout g) (cursor u nsam : Nat)
    (hfits : nsam ≤ 2 * cbs g) :
    ((∀ mem, PutsOut g mem (demux g mem cursor (evenWord g (u * (g.nchan / 2)))
        (g.s2b nsam)).2.mem cursor u nsam) ↔
      u % halfSamples g + nsam ≤ halfSamples g) ∧
    ((∀ mem, PutsOutDouble g mem (demuxDouble g mem cursor (evenWord g (u * (g.nchan / 2)))
        (g.s2b nsam)).2.mem cursor u nsam) ↔
      u % halfSamples g + Demuxer.turns g nsam * Demuxer.step g ≤ halfSamples g ∧
        PairsFit g nsam) :=
  ⟨putsOut_iff h cursor u hfits, putsOutDouble_iff h cursor u hfits⟩

/-- Sixteen channels in buffers of a page, two samples in a row in DB_2D_DOUBLE. -/
private def pageOfSixteen : G :=
  { nchan := 16, wordsize := 2, doubleUp := true, bufferlen := 4096, nbuffers := 8 }

private theorem pageOfSixteen_layout : PairLayout pageOfSixteen := by
  constructor
  · constructor <;> decide
  · decide
  · decide

/-- From half sample 6 of buffer 2 a whole pair of buffers does not go, but 250 samples do. -/
theorem demux_offset_within :
    (∀ mem, PutsOut pageOfSixteen mem (demux pageOfSixteen mem (MapBuffer.ba0 / 2)
        (evenWord pageOfSixteen (262 * 8)) 8000).2.mem (MapBuffer.ba0 / 2) 262 250) ∧
      ∀ mem, PutsOutDouble pageOfSixteen mem (demuxDouble pageOfSixteen mem (MapBuffer.ba0 / 2)
        (evenWord pageOfSixteen (262 * 8)) 8000).2.mem (MapBuffer.ba0 / 2) 262 250 := by
  obtain ⟨hregular, hdouble⟩ := demux_offset_iff pageOfSixteen pageOfSixteen_layout
    (MapBuffer.ba0 / 2) 262 250 (by decide)
  exact ⟨hregular.mpr (by decide), hdouble.mpr ⟨by decide, fun _ => Or.inl (by decide)⟩⟩

/-- Two samples from the last half sample of buffer 2 on: the second one is in buffer 4, and the
first word of buffer 3 is put out. -/
theorem demux_offset_past_end :
    ∃ mem, ¬ PutsOut pageOfSixteen mem (demux pageOfSixteen mem (MapBuffer.ba0 / 2)
      (evenWord pageOfSixteen (511 * 8)) 64).2.mem (MapBuffer.ba0 / 2) 511 2 := by
  refine ⟨fun a => if a = MapBuffer.ba0 / 2 + 4 * 2048 then 4 else 0, fun hput => ?_⟩
  have hout := (hput 1 (by decide) 0 (by decide)).1
  have hcell := (demux_cells pageOfSixteen_layout (show 2 ≤ 2 * cbs pageOfSixteen by decide)
    (fun a => if a = MapBuffer.ba0 / 2 + 4 * 2048 then 4 else 0) (MapBuffer.ba0 / 2)
    (evenWord pageOfSixteen (511 * 8)) (s := 1) (i := 0) (by decide) (by decide)).1
  exact absurd (hcell.symm.trans hout) (by decide)

end DualAxiDemux

end Acq400
