/-
The live and the transient demux of DB_2D_REGULAR against each other.

A sample takes half of its channels from either buffer of a pair, so the next one is
`nchan / 2` words on.  The transient demux goes on by that much; the live one goes on by
`nchan`, as the loop of DB_2D_DOUBLE does, where a turn takes two samples.  It skips every
other sample and puts out half as many, and agrees with the transient demux only on
buffers too short for this to show.
-/
import Acq400.Stream.DualAxi
import Mathlib.Data.List.Nodup

namespace Acq400

/-! ### The sequence of a channel -/

theorem chanSeq_append (as bs : List Put) (chan : Nat) :
    chanSeq (as ++ bs) chan = chanSeq as chan ++ chanSeq bs chan := by
  simp [chanSeq]

/-- One value is put out for a channel that the table has in one place. -/
private theorem chanSeq_keyed {n k : Nat} {pin : Nat → Nat} {value : Nat → UInt16} (hk : k < n)
    (hinj : ∀ i, i < n → pin i = pin k → i = k) :
    chanSeq ((List.range n).map fun i => { chan := pin i, value := value i }) (pin k)
      = [value k] := by
  unfold chanSeq
  rw [List.filter_map, List.map_map]
  have hfilter : (List.range n).filter
      ((fun put : Put => decide (put.chan = pin k)) ∘ fun i => ⟨pin i, value i⟩)
      = (List.range n).filter fun i => decide (i = k) := by
    refine List.filter_congr fun i hi => ?_
    have hiff : pin i = pin k ↔ i = k :=
      ⟨hinj i (List.mem_range.mp hi), fun h => by rw [h]⟩
    simp [hiff]
  have hone : (List.range n).filter (fun i => decide (i = k)) = [k] := by
    rw [List.filter_eq, List.count_eq_one_of_mem List.nodup_range (List.mem_range.mpr hk)]
    rfl
  rw [hfilter, hone]
  rfl

/-- Nothing is put out for a channel that the table does not have. -/
private theorem chanSeq_other {n chan : Nat} {pin : Nat → Nat} {value : Nat → UInt16}
    (hne : ∀ i, i < n → pin i ≠ chan) :
    chanSeq ((List.range n).map fun i => { chan := pin i, value := value i }) chan = [] := by
  unfold chanSeq
  rw [List.filter_map, List.map_map, List.filter_eq_nil_iff.mpr]
  · rfl
  · intro i hi
    simpa using hne i (List.mem_range.mp hi)

theorem dma0Pin_inj : ∀ i, i < 24 → ∀ j, j < 24 → dma0Pin i = dma0Pin j → i = j := by decide

theorem dma1Pin_inj : ∀ i, i < 24 → ∀ j, j < 24 → dma1Pin i = dma1Pin j → i = j := by decide

theorem dma0Pin_ne_dma1Pin : ∀ i, i < 24 → ∀ j, j < 24 → dma0Pin i ≠ dma1Pin j := by decide

/-- A layout the tables are made for. -/
structure Regular2D (g : G) : Prop where
  pos : 0 < g.nchan
  sites : 16 ∣ g.nchan
  fits : g.nchan ≤ 48
  word : g.wordsize = 2

theorem Regular2D.chan_cases {g : G} (h : Regular2D g) {chan : Nat} (hchan : chan < g.nchan) :
    (∃ k, k < g.nchan / 2 ∧ chan = dma0Pin k) ∨ (∃ k, k < g.nchan / 2 ∧ chan = dma1Pin k) := by
  have htables : ∀ sites, sites < 4 → ∀ chan, chan < 16 * sites →
      (∃ k, k < 8 * sites ∧ chan = dma0Pin k) ∨ (∃ k, k < 8 * sites ∧ chan = dma1Pin k) := by
    decide +kernel
  obtain ⟨sites, hsites⟩ := h.sites
  have hfits := h.fits
  have hhalf : g.nchan / 2 = 8 * sites := by omega
  rw [hhalf]
  exact htables sites (by omega) chan (by omega)

/-- The two halves of a sample, channel by channel. -/
theorem chanSeq_halves {g : G} (h : Regular2D g) {value0 value1 : Nat → UInt16} {k : Nat}
    (hk : k < g.nchan / 2) :
    chanSeq (((List.range (g.nchan / 2)).map fun i => { chan := dma0Pin i, value := value0 i })
        ++ (List.range (g.nchan / 2)).map fun i => { chan := dma1Pin i, value := value1 i })
      (dma0Pin k) = [value0 k] ∧
    chanSeq (((List.range (g.nchan / 2)).map fun i => { chan := dma0Pin i, value := value0 i })
        ++ (List.range (g.nchan / 2)).map fun i => { chan := dma1Pin i, value := value1 i })
      (dma1Pin k) = [value1 k] := by
  have hfits := h.fits
  rw [chanSeq_append, chanSeq_append]
  refine ⟨?_, ?_⟩
  · rw [chanSeq_keyed hk fun i hi => dma0Pin_inj i (by omega) k (by omega),
      chanSeq_other fun i hi => (dma0Pin_ne_dma1Pin k (by omega) i (by omega)).symm]
    rfl
  · rw [chanSeq_other fun i hi => dma0Pin_ne_dma1Pin i (by omega) k (by omega),
      chanSeq_keyed hk fun i hi => dma1Pin_inj i (by omega) k (by omega)]
    rfl

/-! ### The live demux -/

namespace DemuxBuffer

variable {g : G} {buf : DemuxBuffer} {mem : Nat → UInt16}

/-- The samples a live demux without event signatures takes from `src` on. -/
def livePuts (g : G) (buf : DemuxBuffer) (mem : Nat → UInt16) (src n : Nat) : List Put :=
  (List.range n).flatMap fun i => samplePuts g buf mem (src + i * g.nchan)

theorem livePuts_succ (src n : Nat) :
    livePuts g buf mem src (n + 1)
      = samplePuts g buf mem src ++ livePuts g buf mem (src + g.nchan) n := by
  unfold livePuts
  rw [List.range_succ_eq_map, List.flatMap_cons, List.flatMap_map]
  congr 1
  · simp
  · refine List.flatMap_congr fun i _ => ?_
    congr 1
    rw [Nat.succ_eq_add_one, Nat.add_mul]
    omega

/-- The loop takes the samples that begin before the end, and at least one. -/
theorem demuxLoop_eq (mem : Nat → UInt16) (hES : ∀ a, buf.isES a = false)
    (src000 shortlen : Nat) :
    ∀ (n fuel off : Nat) (puts : List Put), n < fuel → shortlen ≤ off + (n + 1) * g.nchan →
      (n = 0 ∨ off + n * g.nchan < shortlen) →
        demuxLoop g buf mem src000 shortlen fuel (src000 + off) puts
          = some (puts ++ livePuts g buf mem (src000 + off) (n + 1)) := by
  intro n
  induction n with
  | zero =>
      intro fuel off puts hfuel hend _
      cases fuel with
      | zero => omega
      | succ fuel =>
          simp only [demuxLoop, hES, Bool.and_false, Bool.false_eq_true, if_false]
          rw [if_pos (by omega), livePuts_succ]
          simp [livePuts]
  | succ n ih =>
      intro fuel off puts hfuel hend hbefore
      have hlt : off + (n + 1) * g.nchan < shortlen := hbefore.resolve_left (by omega)
      rw [Nat.add_mul] at hlt hend
      rw [Nat.add_mul] at hend
      cases fuel with
      | zero => omega
      | succ fuel =>
          simp only [demuxLoop, hES, Bool.and_false, Bool.false_eq_true, if_false]
          have hnext : src000 + off + g.nchan = src000 + (off + g.nchan) := by omega
          rw [if_neg (by omega), hnext, ih fuel (off + g.nchan) _ (by omega)
            (by rw [Nat.add_mul]; omega) (Or.inr (by omega)), livePuts_succ (n := n + 1),
            List.append_assoc, hnext]

/-- How many samples the live demux takes from a pair of buffers. -/
def liveSamples (g : G) : Nat := (bufshorts g - 1) / g.nchan + 1

theorem demux_eq (hpos : 0 < g.nchan) (hES : ∀ a, buf.isES a = false) {b1 : Nat}
    (heven : b1 % 2 = 0) (src000 : Nat) :
    demux g buf mem b1 src000 (2 * g.bufferlen)
      = some (false, livePuts g buf mem src000 (liveSamples g)) := by
  have hshort : 2 * g.bufferlen / 2 / 2 = bufshorts g := by
    rw [Nat.mul_div_cancel_left _ Nat.zero_lt_two]
    rfl
  have hle : (bufshorts g - 1) / g.nchan ≤ bufshorts g - 1 := Nat.div_le_self _ _
  have hlo : (bufshorts g - 1) / g.nchan * g.nchan ≤ bufshorts g - 1 := Nat.div_mul_le_self _ _
  have hhi := Nat.lt_div_mul_add (a := bufshorts g - 1) hpos
  have hzero : bufshorts g = 0 → (bufshorts g - 1) / g.nchan = 0 := by
    intro hz
    rw [hz]
    exact Nat.zero_div _
  have hloop := demuxLoop_eq (g := g) mem hES src000 (bufshorts g)
    ((bufshorts g - 1) / g.nchan) (bufshorts g + 1) 0 [] (by omega)
    (by rw [Nat.add_mul]; omega) (by omega)
  rw [Nat.add_zero src000, List.nil_append] at hloop
  unfold demux
  simp only [hshort]
  rw [if_neg (by omega), hloop]
  rfl

theorem chanSeq_samplePuts (buf : DemuxBuffer) (mem : Nat → UInt16) (h : Regular2D g)
    (src : Nat) {k : Nat} (hk : k < g.nchan / 2) :
    chanSeq (samplePuts g buf mem src) (dma0Pin k) = [mem (src + k) &&& buf.mask (dma0Pin k)] ∧
    chanSeq (samplePuts g buf mem src) (dma1Pin k)
      = [mem (src + bufshorts g + k) &&& buf.mask (dma1Pin k)] :=
  chanSeq_halves h hk

/-- As many values for a channel as there are samples. -/
theorem length_chanSeq_livePuts (h : Regular2D g) {k : Nat} (hk : k < g.nchan / 2) (n : Nat) :
    ∀ src, (chanSeq (livePuts g buf mem src n) (dma0Pin k)).length = n := by
  induction n with
  | zero => intro src; rfl
  | succ n ih =>
      intro src
      rw [livePuts_succ, chanSeq_append, (chanSeq_samplePuts buf mem h src hk).1,
        List.length_append, ih]
      exact Nat.add_comm 1 n

end DemuxBuffer

/-! ### The transient demux -/

namespace DualAxiDemux

variable {g : G} {nbytes : Nat}

@[simp] theorem changeBuffer_puts (s : DualAxiDemux) : (changeBuffer g nbytes s).puts = s.puts := by
  unfold changeBuffer
  split
  · simp only
    split
    · rfl
    · rfl
  · rfl

/-- `srcbuf` is only loaded again at the second change of buffers. -/
theorem changeBuffer_keep (g : G) (nbytes : Nat) {s : DualAxiDemux}
    (h : s.sambuf < cbs g ∨ s.changeOver = 0) :
    (changeBuffer g nbytes s).srcbuf = s.srcbuf ∧ (changeBuffer g nbytes s).psrc = s.psrc := by
  unfold changeBuffer
  split
  · rename_i hle
    have hzero : s.changeOver = 0 := h.resolve_left (by omega)
    simp [hzero]
  · exact ⟨rfl, rfl⟩

theorem chanSeq_samplePuts (h : Regular2D g) (srcbuf : Nat → UInt16) (psrc : Nat) {k : Nat}
    (hk : k < g.nchan / 2) :
    chanSeq (samplePuts g srcbuf psrc) (dma0Pin k) = [pinValue k (srcbuf (psrc + k))] ∧
    chanSeq (samplePuts g srcbuf psrc) (dma1Pin k) = [srcbuf (psrc + bufshorts g + k)] :=
  chanSeq_halves h hk

theorem length_chanSeq_iterate (h : Regular2D g) {k : Nat} (hk : k < g.nchan / 2) (n : Nat) :
    ∀ s : DualAxiDemux, (chanSeq ((sample g nbytes)^[n] s).puts (dma0Pin k)).length
      = (chanSeq s.puts (dma0Pin k)).length + n := by
  induction n with
  | zero => intro s; rfl
  | succ n ih =>
      intro s
      rw [Function.iterate_succ_apply, ih]
      have hone : (chanSeq (sample g nbytes s).puts (dma0Pin k)).length
          = (chanSeq s.puts (dma0Pin k)).length + 1 := by
        show (chanSeq ((changeBuffer g nbytes s).puts ++ samplePuts g _ _) (dma0Pin k)).length = _
        rw [chanSeq_append, (chanSeq_samplePuts h _ _ hk).1, changeBuffer_puts,
          List.length_append]
        rfl
      omega

theorem sample_begin (mem : Nat → UInt16) (cursor start : Nat) :
    (sample g nbytes (begin g mem cursor start nbytes)).puts
      = samplePuts g (loadSrcbuf mem (fun _ => 0) start (nsrc g nbytes)) 0 := by
  obtain ⟨hbuf, hpsrc⟩ := changeBuffer_keep g nbytes
    (s := begin g mem cursor start nbytes) (Or.inr rfl)
  show (changeBuffer g nbytes _).puts ++ samplePuts g (changeBuffer g nbytes _).srcbuf
    (changeBuffer g nbytes _).psrc = _
  rw [hbuf, hpsrc, changeBuffer_puts]
  rfl

/-- And the first two, where a channel has one sample in a destination buffer. -/
theorem sample_sample_begin (hcbs : cbs g = 1) (mem : Nat → UInt16) (cursor start : Nat) :
    (sample g nbytes (sample g nbytes (begin g mem cursor start nbytes))).puts
      = samplePuts g (loadSrcbuf mem (fun _ => 0) start (nsrc g nbytes)) 0
        ++ samplePuts g (loadSrcbuf mem (fun _ => 0) start (nsrc g nbytes)) (g.nchan / 2) := by
  have hfirst : changeBuffer g nbytes (begin g mem cursor start nbytes)
      = begin g mem cursor start nbytes := by
    unfold changeBuffer
    rw [if_neg]
    show ¬ cbs g ≤ 0
    omega
  obtain ⟨hbuf, hpsrc⟩ := changeBuffer_keep g nbytes
    (s := sample g nbytes (begin g mem cursor start nbytes)) (Or.inr (by
      show (changeBuffer g nbytes _).changeOver = 0
      rw [hfirst]
      rfl))
  show (changeBuffer g nbytes _).puts ++ samplePuts g (changeBuffer g nbytes _).srcbuf
    (changeBuffer g nbytes _).psrc = _
  rw [hbuf, hpsrc, changeBuffer_puts, sample_begin]
  congr 2
  · show (changeBuffer g nbytes _).srcbuf = _
    rw [hfirst]
    rfl
  · show (changeBuffer g nbytes _).psrc + g.nchan / 2 = _
    rw [hfirst]
    exact Nat.zero_add _

end DualAxiDemux

/-! ### Agreement -/

/-- The bits of a channel that the transient demux keeps. -/
def pinMask (chan : Nat) (value : UInt16) : UInt16 := if chan < 8 then value &&& 0xFFFC else value

/-- Both put out the same for every channel of a pair of buffers, up to the mask. -/
def DualDemuxAgree (g : G) (buf : DemuxBuffer) (mem : Nat → UInt16)
    (b1 cursor start : Nat) : Prop :=
  ∃ live, buf.demux g mem b1 start (2 * g.bufferlen) = some (false, live) ∧
    ∀ chan, chan < g.nchan →
      chanSeq (DualAxiDemux.demux g mem cursor start (2 * g.bufferlen)).2.puts chan
        = (chanSeq live chan).map (pinMask chan)

/-- The second sample of either demux is the same, though they take it from different places. -/
def SecondAgrees (g : G) (mem : Nat → UInt16) (start : Nat) : Prop :=
  ∀ k, k < g.nchan / 2 →
    DualAxiDemux.pinValue k (mem (start + (g.nchan / 2 + k)))
        = DualAxiDemux.pinValue k (mem (start + g.nchan + k)) ∧
      mem (start + (g.nchan / 2 + bufshorts g + k)) = mem (start + g.nchan + bufshorts g + k)

section Agreement

variable {g : G} {buf : DemuxBuffer} {mem : Nat → UInt16} {cursor start : Nat}

theorem pinMask_dma0Pin {k : Nat} (hk : k < 24) (value : UInt16) :
    pinMask (dma0Pin k) value = DualAxiDemux.pinValue k value := by
  have hpin : ∀ k, k < 24 → (dma0Pin k < 8 ↔ k < 8) := by decide
  unfold pinMask DualAxiDemux.pinValue
  simp only [hpin k hk]

theorem pinMask_dma1Pin {k : Nat} (hk : k < 24) (value : UInt16) :
    pinMask (dma1Pin k) value = value := by
  have hpin : ∀ k, k < 24 → ¬ dma1Pin k < 8 := by decide
  unfold pinMask
  rw [if_neg (hpin k hk)]

theorem b2s_pair (h : Regular2D g) : g.b2s (2 * g.bufferlen) = g.bufferlen / g.nchan := by
  unfold G.b2s G.sampleSize
  rw [h.word, Nat.mul_comm g.nchan 2]
  exact Nat.mul_div_mul_left _ _ Nat.zero_lt_two

theorem agree_iff_halves (h : Regular2D g) (hES : ∀ a, buf.isES a = false) {b1 : Nat}
    (heven : b1 % 2 = 0) :
    DualDemuxAgree g buf mem b1 cursor start ↔
      ∀ k, k < g.nchan / 2 →
        chanSeq (DualAxiDemux.demux g mem cursor start (2 * g.bufferlen)).2.puts (dma0Pin k)
            = (chanSeq (DemuxBuffer.livePuts g buf mem start (DemuxBuffer.liveSamples g))
                (dma0Pin k)).map (DualAxiDemux.pinValue k) ∧
          chanSeq (DualAxiDemux.demux g mem cursor start (2 * g.bufferlen)).2.puts (dma1Pin k)
            = chanSeq (DemuxBuffer.livePuts g buf mem start (DemuxBuffer.liveSamples g))
                (dma1Pin k) := by
  have hfits := h.fits
  have hpins : ∀ sites, sites < 4 → ∀ k, k < 8 * sites →
      dma0Pin k < 16 * sites ∧ dma1Pin k < 16 * sites := by decide
  obtain ⟨sites, hsites⟩ := h.sites
  have hmask0 : ∀ {k : Nat}, k < 24 → pinMask (dma0Pin k) = DualAxiDemux.pinValue k :=
    fun hk => funext (pinMask_dma0Pin hk)
  have hmask1 : ∀ {k : Nat}, k < 24 → pinMask (dma1Pin k) = id :=
    fun hk => funext (pinMask_dma1Pin hk)
  unfold DualDemuxAgree
  rw [DemuxBuffer.demux_eq h.pos hES heven]
  constructor
  · rintro ⟨live, hlive, hall⟩ k hk
    obtain rfl := (Prod.mk.inj (Option.some.inj hlive)).2
    obtain ⟨hpin0, hpin1⟩ := hpins sites (by omega) k (by omega)
    have h0 := hall (dma0Pin k) (by omega)
    have h1 := hall (dma1Pin k) (by omega)
    rw [hmask0 (by omega)] at h0
    rw [hmask1 (by omega), List.map_id] at h1
    exact ⟨h0, h1⟩
  · intro hall
    refine ⟨_, rfl, fun chan hchan => ?_⟩
    rcases h.chan_cases hchan with ⟨k, hk, rfl⟩ | ⟨k, hk, rfl⟩
    · rw [hmask0 (by omega)]
      exact (hall k hk).1
    · rw [hmask1 (by omega), List.map_id]
      exact (hall k hk).2

/-- The numbers of samples are the same for one sample and for two, and not for more. -/
theorem samples_eq_iff (hpos : 0 < g.nchan) :
    g.bufferlen / g.nchan = DemuxBuffer.liveSamples g ↔
      (g.nchan ≤ g.bufferlen ∧ g.bufferlen < 2 * g.nchan) ∨
        (2 * g.nchan + 2 ≤ g.bufferlen ∧ g.bufferlen < 3 * g.nchan) := by
  have hlo := Nat.div_mul_le_self g.bufferlen g.nchan
  have hhi := Nat.lt_div_mul_add (a := g.bufferlen) hpos
  have hlo' := Nat.div_mul_le_self (bufshorts g - 1) g.nchan
  have hhi' := Nat.lt_div_mul_add (a := bufshorts g - 1) hpos
  have hshorts : bufshorts g = g.bufferlen / 2 := rfl
  unfold DemuxBuffer.liveSamples
  constructor
  · intro heq
    rw [heq, Nat.add_mul] at hlo hhi
    generalize hq : (bufshorts g - 1) / g.nchan = q at *
    rcases q with _ | _ | q
    · left; omega
    · right; omega
    · -- the live demux would have taken half as many
      exfalso
      have hmul : (q + 1 + 1) * g.nchan = q * g.nchan + 2 * g.nchan := by
        rw [Nat.add_assoc, Nat.add_mul]
      omega
  · rintro (⟨hge, hlt⟩ | ⟨hge, hlt⟩)
    · have hone : g.bufferlen / g.nchan = 1 := Nat.div_eq_of_lt_le (by omega) (by omega)
      rw [hone, Nat.div_eq_of_lt (by omega)]
    · have htwo : g.bufferlen / g.nchan = 2 := Nat.div_eq_of_lt_le (by omega) (by omega)
      have hone : (bufshorts g - 1) / g.nchan = 1 := Nat.div_eq_of_lt_le (by omega) (by omega)
      rw [htwo, hone]

/-- What the transient demux has in its copy of a pair of buffers. -/
theorem loadSrcbuf_pair {k : Nat} (hk : k < g.bufferlen) :
    DualAxiDemux.loadSrcbuf mem (fun _ => 0) start (DualAxiDemux.nsrc g (2 * g.bufferlen)) k
      = mem (start + k) := by
  unfold DualAxiDemux.loadSrcbuf DualAxiDemux.nsrc
  rw [if_pos]
  rw [Nat.mul_div_cancel_left _ Nat.zero_lt_two]
  omega

/-- The live demux with all ones for a mask, sample by sample. -/
theorem chanSeq_live (mem : Nat → UInt16) (h : Regular2D g)
    (hmask : ∀ chan, buf.mask chan = 0xFFFF) {k : Nat} (hk : k < g.nchan / 2) (src : Nat) :
    chanSeq (DemuxBuffer.samplePuts g buf mem src) (dma0Pin k) = [mem (src + k)] ∧
      chanSeq (DemuxBuffer.samplePuts g buf mem src) (dma1Pin k)
        = [mem (src + bufshorts g + k)] := by
  have hones : ∀ x : UInt16, x &&& 0xFFFF = x := fun x => UInt16.and_neg_one
  obtain ⟨h0, h1⟩ := DemuxBuffer.chanSeq_samplePuts buf mem h src hk
  rw [h0, h1, hmask, hmask, hones, hones]
  exact ⟨rfl, rfl⟩

theorem halves_one (h : Regular2D g) (hmask : ∀ chan, buf.mask chan = 0xFFFF)
    (hge : g.nchan ≤ g.bufferlen) (hone : g.bufferlen / g.nchan = 1) {k : Nat}
    (hk : k < g.nchan / 2) :
    chanSeq (DualAxiDemux.demux g mem cursor start (2 * g.bufferlen)).2.puts (dma0Pin k)
        = (chanSeq (DemuxBuffer.livePuts g buf mem start 1) (dma0Pin k)).map
            (DualAxiDemux.pinValue k) ∧
      chanSeq (DualAxiDemux.demux g mem cursor start (2 * g.bufferlen)).2.puts (dma1Pin k)
        = chanSeq (DemuxBuffer.livePuts g buf mem start 1) (dma1Pin k) := by
  have hshorts : bufshorts g = g.bufferlen / 2 := rfl
  unfold DualAxiDemux.demux
  simp only [b2s_pair h, hone, Function.iterate_one, DualAxiDemux.sample_begin]
  obtain ⟨ht0, ht1⟩ := DualAxiDemux.chanSeq_samplePuts h (DualAxiDemux.loadSrcbuf mem (fun _ => 0)
    start (DualAxiDemux.nsrc g (2 * g.bufferlen))) 0 hk
  obtain ⟨hl0, hl1⟩ := chanSeq_live mem h hmask hk start
  rw [ht0, ht1, DemuxBuffer.livePuts_succ, chanSeq_append, chanSeq_append, hl0, hl1,
    loadSrcbuf_pair (by omega), loadSrcbuf_pair (by omega)]
  refine ⟨by simp [DemuxBuffer.livePuts, chanSeq], ?_⟩
  simp [DemuxBuffer.livePuts, chanSeq, Nat.add_assoc]

theorem halves_two_iff (h : Regular2D g) (hmask : ∀ chan, buf.mask chan = 0xFFFF)
    (hge : 2 * g.nchan + 2 ≤ g.bufferlen) (hlt : g.bufferlen < 3 * g.nchan) {k : Nat}
    (hk : k < g.nchan / 2) :
    (chanSeq (DualAxiDemux.demux g mem cursor start (2 * g.bufferlen)).2.puts (dma0Pin k)
        = (chanSeq (DemuxBuffer.livePuts g buf mem start 2) (dma0Pin k)).map
            (DualAxiDemux.pinValue k) ∧
      chanSeq (DualAxiDemux.demux g mem cursor start (2 * g.bufferlen)).2.puts (dma1Pin k)
        = chanSeq (DemuxBuffer.livePuts g buf mem start 2) (dma1Pin k)) ↔
    DualAxiDemux.pinValue k (mem (start + (g.nchan / 2 + k)))
        = DualAxiDemux.pinValue k (mem (start + g.nchan + k)) ∧
      mem (start + (g.nchan / 2 + bufshorts g + k)) = mem (start + g.nchan + bufshorts g + k) := by
  have hshorts : bufshorts g = g.bufferlen / 2 := rfl
  have hpos := h.pos
  have htwo : g.bufferlen / g.nchan = 2 := Nat.div_eq_of_lt_le (by omega) (by omega)
  have hcbs : DualAxiDemux.cbs g = 1 := by
    unfold DualAxiDemux.cbs DualAxiDemux.channelBufferBytes
    rw [Nat.div_div_eq_div_mul, Nat.div_div_eq_div_mul]
    exact Nat.div_eq_of_lt_le (by omega) (by omega)
  unfold DualAxiDemux.demux
  simp only [b2s_pair h, htwo, Function.iterate_succ_apply, Function.iterate_zero, id]
  rw [DualAxiDemux.sample_sample_begin hcbs]
  obtain ⟨ht0, ht1⟩ := DualAxiDemux.chanSeq_samplePuts h (DualAxiDemux.loadSrcbuf mem (fun _ => 0)
    start (DualAxiDemux.nsrc g (2 * g.bufferlen))) 0 hk
  obtain ⟨hs0, hs1⟩ := DualAxiDemux.chanSeq_samplePuts h (DualAxiDemux.loadSrcbuf mem (fun _ => 0)
    start (DualAxiDemux.nsrc g (2 * g.bufferlen))) (g.nchan / 2) hk
  obtain ⟨hl0, hl1⟩ := chanSeq_live mem h hmask hk start
  obtain ⟨hm0, hm1⟩ := chanSeq_live mem h hmask hk (start + g.nchan)
  rw [DemuxBuffer.livePuts_succ, DemuxBuffer.livePuts_succ]
  simp only [chanSeq_append, ht0, ht1, hs0, hs1, hl0, hl1, hm0, hm1]
  rw [loadSrcbuf_pair (by omega), loadSrcbuf_pair (by omega), loadSrcbuf_pair (by omega),
    loadSrcbuf_pair (by omega)]
  simp [DemuxBuffer.livePuts, chanSeq, Nat.add_assoc]

/--
**The live and the transient demux agree exactly on buffers of one sample, or of two with
the second the same in both places.**  A pair of buffers is demuxed from its beginning,
with all ones for a mask and no event signature.
-/
theorem dual_demux_agree_iff {g : G} {buf : DemuxBuffer} {mem : Nat → UInt16} {b1 : Nat}
    (cursor start : Nat) (h : Regular2D g) (hmask : ∀ chan, buf.mask chan = 0xFFFF)
    (hES : ∀ a, buf.isES a = false) (heven : b1 % 2 = 0) :
    DualDemuxAgree g buf mem b1 cursor start ↔
      (g.nchan ≤ g.bufferlen ∧ g.bufferlen < 2 * g.nchan) ∨
        (2 * g.nchan + 2 ≤ g.bufferlen ∧ g.bufferlen < 3 * g.nchan ∧
          SecondAgrees g mem start) := by
  have hpos := h.pos
  have hhalf : 0 < g.nchan / 2 := by
    obtain ⟨sites, hsites⟩ := h.sites
    omega
  rw [agree_iff_halves h hES heven]
  constructor
  · intro hall
    -- the first channel has as many values as there are samples
    have hsamples : g.bufferlen / g.nchan = DemuxBuffer.liveSamples g := by
      have hlen := congrArg List.length (hall 0 hhalf).1
      rw [List.length_map, DemuxBuffer.length_chanSeq_livePuts h hhalf] at hlen
      rw [← hlen, ← b2s_pair h]
      unfold DualAxiDemux.demux
      simp only
      rw [DualAxiDemux.length_chanSeq_iterate h hhalf]
      exact (Nat.zero_add _).symm
    rcases (samples_eq_iff hpos).mp hsamples with hone | ⟨hge, hlt⟩
    · exact Or.inl hone
    · refine Or.inr ⟨hge, hlt, fun k hk => ?_⟩
      have htwo : DemuxBuffer.liveSamples g = 2 := by
        rw [← hsamples]
        exact Nat.div_eq_of_lt_le (by omega) (by omega)
      rw [htwo] at hall
      exact (halves_two_iff h hmask hge hlt hk).mp (hall k hk)
  · rintro (⟨hge, hlt⟩ | ⟨hge, hlt, hsecond⟩)
    · intro k hk
      have hone : g.bufferlen / g.nchan = 1 := Nat.div_eq_of_lt_le (by omega) (by omega)
      rw [← (samples_eq_iff hpos).mpr (Or.inl ⟨hge, hlt⟩), hone]
      exact halves_one h hmask hge hone hk
    · intro k hk
      have htwo : g.bufferlen / g.nchan = 2 := Nat.div_eq_of_lt_le (by omega) (by omega)
      rw [← (samples_eq_iff hpos).mpr (Or.inr ⟨hge, hlt⟩), htwo]
      exact (halves_two_iff h hmask hge hlt hk).mpr (hsecond k hk)

end Agreement

private def dualGeometry (nchan bufferlen : Nat) : G :=
  { nchan := nchan, wordsize := 2, doubleUp := false, bufferlen := bufferlen, nbuffers := 4 }

private def allOnes : DemuxBuffer :=
  { mask := fun _ => 0xFFFF, showEs := false, isES := fun _ => false, nchanES := 32 }

/-- A buffer of one sample of sixteen channels, with the address for data. -/
theorem dual_demux_agree_short :
    DualDemuxAgree (dualGeometry 16 16) allOnes (fun a => UInt16.ofNat a) 2 8 16 :=
  (dual_demux_agree_iff 8 16 ⟨by decide, by decide, by decide, rfl⟩ (fun _ => rfl) (fun _ => rfl)
    rfl).mpr (Or.inl ⟨by decide, by decide⟩)

/-- A page of sixteen channels: 128 samples live, and 256 of the same pair as a transient. -/
theorem dual_demux_disagree_page :
    ¬ DualDemuxAgree (dualGeometry 16 4096) allOnes (fun a => UInt16.ofNat a) 2 2048 4096 := by
  have h : Regular2D (dualGeometry 16 4096) := ⟨by decide, by decide, by decide, rfl⟩
  intro hagree
  have hall := (agree_iff_halves h (fun _ => rfl) rfl).mp hagree
  have hlen := congrArg List.length (hall 0 (by decide)).1
  rw [List.length_map, DemuxBuffer.length_chanSeq_livePuts h (by decide)] at hlen
  unfold DualAxiDemux.demux at hlen
  simp only at hlen
  rw [DualAxiDemux.length_chanSeq_iterate h (by decide)] at hlen
  exact absurd hlen (by decide)

end Acq400
