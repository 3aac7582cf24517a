/-
The transient demux in place loses nothing and reads nothing it has written.

Samples are numbered over all segments.  Sample `s` goes to buffer `s / cbs`, and there
channel `c` of it to word `c * cbs + s % cbs`.  `AtSample` says that the cursor of the
demuxer is where sample `s` goes; every block of the loop moves it on by its samples, so
that the whole run is the list of word moves of all samples in order (`movesFrom`),
wherever the buffers and the segments end.

What a sample's words are written over lies within the buffer before the one the same
sample is read from, and that is why no move disturbs a later one.
-/
import Acq400.Lib.PairRows
import Acq400.Stream.Demuxer
import Mathlib.Tactic.Ring

namespace Acq400

open Memory

namespace Demuxer

/-- A geometry with whole samples in a buffer, and one word for each channel. -/
structure WholeSamples (g : G) : Prop where
  nchan : 0 < g.nchan
  word : 0 < g.wordsize
  single : g.doubleUp = false
  whole : g.sampleSize ∣ g.bufferlen

/-- Where channel `c` of sample `s` goes. -/
def sampleWord (g : G) (s c : Nat) : Nat :=
  MapBuffer.getBase g (s / channelBufferSam g)
    + (c * channelBufferSam g + s % channelBufferSam g) * g.wordsize

/-- The moves of sample `s`, which is read from `a`. -/
def sampleMoves (g : G) (s a : Nat) : List Move :=
  (List.range g.nchan).map fun c =>
    { dst := sampleWord g s c, src := a + c * g.wordsize, len := g.wordsize }

/-- The moves of the samples from number `s` on, which are read from `addrs`. -/
def movesFrom (g : G) : Nat → List Nat → List Move
  | _, [] => []
  | s, a :: rest => sampleMoves g s a ++ movesFrom g (s + 1) rest

/-- Where `n` samples from `start` on are read from. -/
def blockAddrs (g : G) (start n : Nat) : List Nat :=
  (List.range n).map fun i => start + i * g.sampleSize

/-- Where the samples of all segments are read from, by their number. -/
def sampleAddrs (g : G) (segs : List Segment) : List Nat :=
  segs.flatMap fun seg => blockAddrs g seg.base (g.b2s seg.len)

/-- The cursor is where sample `s` goes. -/
structure AtSample (g : G) (s : Nat) (dst : BufferCursor) : Prop where
  ibuf : dst.ibuf = s / channelBufferSam g
  base : dst.base = MapBuffer.getBase g dst.ibuf
  cursor : dst.cursor = dst.base + (s % channelBufferSam g) * g.wordsize

/-! ### The geometry -/

namespace WholeSamples

variable {g : G}

theorem sampleSize_pos (h : WholeSamples g) : 0 < g.sampleSize := Nat.mul_pos h.nchan h.word

theorem channelBufferBytes_eq (h : WholeSamples g) :
    BufferCursor.channelBufferBytes g = channelBufferSam g * g.wordsize := by
  obtain ⟨k, hk⟩ := h.whole
  have hbytes : BufferCursor.channelBufferBytes g = g.wordsize * k := by
    unfold BufferCursor.channelBufferBytes
    rw [hk, G.sampleSize, Nat.mul_assoc]
    exact Nat.mul_div_cancel_left _ h.nchan
  unfold channelBufferSam
  rw [hbytes, Nat.mul_div_cancel_left _ h.word, Nat.mul_comm]

theorem bufferlen_eq (h : WholeSamples g) :
    g.bufferlen = channelBufferSam g * g.sampleSize := by
  obtain ⟨k, hk⟩ := h.whole
  have hsam : channelBufferSam g = k := by
    unfold channelBufferSam BufferCursor.channelBufferBytes
    rw [hk, G.sampleSize, Nat.mul_assoc, Nat.mul_div_cancel_left _ h.nchan,
      Nat.mul_div_cancel_left _ h.word]
  rw [hsam, hk, Nat.mul_comm]

theorem step_eq (h : WholeSamples g) : step g = 1 := by
  simp [step, h.single]

theorem turns_eq (h : WholeSamples g) (nsam : Nat) : turns g nsam = nsam := by
  simp [turns, h.step_eq]

theorem b2s_mul (h : WholeSamples g) (n : Nat) : g.b2s (n * g.sampleSize) = n :=
  Nat.mul_div_cancel _ h.sampleSize_pos

theorem totalRemainBytes_eq (h : WholeSamples g) {s : Nat} {dst : BufferCursor}
    (hat : AtSample g s dst) :
    dst.totalRemainBytes g
      = (channelBufferSam g - s % channelBufferSam g) * g.sampleSize := by
  unfold BufferCursor.totalRemainBytes BufferCursor.channelRemainBytes
  rw [h.channelBufferBytes_eq, hat.cursor, Nat.add_sub_cancel_left, ← Nat.sub_mul,
    G.sampleSize, Nat.mul_assoc, Nat.mul_comm g.wordsize]

theorem div_mod_add {s i k : Nat} (hi : s % k + i < k) :
    (s + i) / k = s / k ∧ (s + i) % k = s % k + i := by
  have hk : 0 < k := by omega
  refine (Nat.div_mod_unique hk).mpr ⟨?_, hi⟩
  have hs := Nat.mod_add_div s k
  omega

theorem div_mod_next {s k : Nat} (hk : 0 < k) :
    (s + (k - s % k)) / k = s / k + 1 ∧ (s + (k - s % k)) % k = 0 := by
  refine (Nat.div_mod_unique hk).mpr ⟨?_, hk⟩
  have hs := Nat.mod_add_div s k
  have hlt := Nat.mod_lt s hk
  rw [Nat.mul_add]
  omega

end WholeSamples

/-! ### A block -/

theorem movesFrom_append (g : G) (as bs : List Nat) :
    ∀ s, movesFrom g s (as ++ bs) = movesFrom g s as ++ movesFrom g (s + as.length) bs := by
  induction as with
  | nil => intro s; simp [movesFrom]
  | cons a rest ih =>
      intro s
      rw [List.cons_append, movesFrom, movesFrom, ih, List.length_cons, List.append_assoc]
      congr 3
      omega

@[simp] theorem length_blockAddrs (g : G) (start n : Nat) : (blockAddrs g start n).length = n := by
  simp [blockAddrs]

theorem blockAddrs_add (g : G) (start n m : Nat) :
    blockAddrs g start (n + m)
      = blockAddrs g start n ++ blockAddrs g (start + n * g.sampleSize) m := by
  unfold blockAddrs
  rw [List.range_add, List.map_append, List.map_map]
  congr 1
  refine List.map_congr_left fun i _ => ?_
  simp only [Function.comp_apply]
  ring

variable {g : G}

theorem turnMoves_eq (h : WholeSamples g) {s i a : Nat} {dst : BufferCursor}
    (hat : AtSample g s dst) (hi : s % channelBufferSam g + i < channelBufferSam g) :
    turnMoves g dst.cursor a i = sampleMoves g (s + i) a := by
  obtain ⟨hdiv, hmod⟩ := WholeSamples.div_mod_add hi
  unfold turnMoves sampleMoves
  rw [h.step_eq]
  rw [show (List.range 1) = [0] from rfl]
  simp only [List.map_cons, List.map_nil]
  rw [← List.map_eq_flatMap]
  refine List.map_congr_left fun c _ => ?_
  unfold sampleWord
  rw [hdiv, hmod, hat.cursor, hat.base, hat.ibuf]
  congr 1
  · ring
  · ring

theorem demuxMoves_eq (h : WholeSamples g) {s n start : Nat} {dst : BufferCursor}
    (hat : AtSample g s dst) (hfit : s % channelBufferSam g + n ≤ channelBufferSam g) :
    demuxMoves g dst.cursor start n = movesFrom g s (blockAddrs g start n) := by
  unfold demuxMoves
  rw [h.turns_eq, h.step_eq]
  induction n with
  | zero => rfl
  | succ n ih =>
      rw [List.range_succ, List.flatMap_append, ih (by omega), blockAddrs_add, movesFrom_append,
        length_blockAddrs]
      congr 1
      have haddr : start + n * (g.nchan * 1) * g.wordsize = start + n * g.sampleSize := by
        rw [G.sampleSize]
        ring
      simp only [List.flatMap_cons, List.flatMap_nil, List.append_nil, Nat.mul_one] at haddr ⊢
      rw [haddr, turnMoves_eq h hat (by omega)]
      simp [blockAddrs, movesFrom]

/-- What a demuxer has done by the time it has taken in the samples from `addrs`. -/
structure TakesIn (g : G) (s : Nat) (d : Demuxer) (addrs : List Nat) (d' : Demuxer) : Prop where
  mem : d'.mem = runMoves d.mem (movesFrom g s addrs)
  dst : AtSample g (s + addrs.length) d'.dst
  copied : (d'.calls.map DemuxCall.copied).sum
    = (d.calls.map DemuxCall.copied).sum + addrs.length

theorem TakesIn.refl {s : Nat} {d : Demuxer} (hat : AtSample g s d.dst) : TakesIn g s d [] d :=
  ⟨rfl, hat, rfl⟩

theorem TakesIn.trans {s : Nat} {d d' d'' : Demuxer} {as bs : List Nat}
    (h : TakesIn g s d as d') (h' : TakesIn g (s + as.length) d' bs d'') :
    TakesIn g s d (as ++ bs) d'' := by
  refine ⟨?_, ?_, ?_⟩
  · rw [h'.mem, h.mem, movesFrom_append, runMoves_append]
  · rw [List.length_append, ← Nat.add_assoc]
    exact h'.dst
  · rw [h'.copied, h.copied, List.length_append, Nat.add_assoc]

theorem demuxBlock_eq (h : WholeSamples g) (d : Demuxer) (start n : Nat) :
    d.demuxBlock g start (n * g.sampleSize)
      = { mem := runMoves d.mem (demuxMoves g d.dst.cursor start n)
          dst := { d.dst with cursor := d.dst.cursor + n * g.wordsize }
          calls := d.calls ++
            [{ start := start, nbytes := n * g.sampleSize, copied := n }] } := by
  simp [demuxBlock, h.b2s_mul, h.turns_eq, h.step_eq]

theorem takesIn_last (h : WholeSamples g) {s n start : Nat} {d : Demuxer}
    (hat : AtSample g s d.dst) (hfit : s % channelBufferSam g + n < channelBufferSam g) :
    TakesIn g s d (blockAddrs g start n) (d.demuxBlock g start (n * g.sampleSize)) := by
  obtain ⟨hdiv, hmod⟩ := WholeSamples.div_mod_add hfit
  rw [demuxBlock_eq h]
  refine ⟨?_, ⟨?_, hat.base, ?_⟩, ?_⟩
  · show runMoves d.mem (demuxMoves g d.dst.cursor start n) = _
    rw [demuxMoves_eq h hat (by omega)]
  · rw [length_blockAddrs, hdiv]
    exact hat.ibuf
  · rw [length_blockAddrs, hmod]
    show d.dst.cursor + n * g.wordsize = _
    rw [hat.cursor]
    ring
  · simp

/-- A block that fills the destination buffer, and the step to the next. -/
theorem takesIn_next (h : WholeSamples g) (start : Nat) {s : Nat} {d : Demuxer}
    (hat : AtSample g s d.dst) (hcbs : 0 < channelBufferSam g) :
    TakesIn g s d (blockAddrs g start (channelBufferSam g - s % channelBufferSam g))
      { d.demuxBlock g start (d.dst.totalRemainBytes g) with
        dst := BufferCursor.init g (d.dst.ibuf + bufstep) } := by
  obtain ⟨hdiv, hmod⟩ := WholeSamples.div_mod_next (s := s) hcbs
  have hlt := Nat.mod_lt s hcbs
  rw [h.totalRemainBytes_eq hat, demuxBlock_eq h]
  refine ⟨?_, ⟨?_, rfl, ?_⟩, ?_⟩
  · show runMoves d.mem (demuxMoves g d.dst.cursor start _) = _
    rw [demuxMoves_eq h hat (by omega)]
  · rw [length_blockAddrs, hdiv]
    show d.dst.ibuf + bufstep = _
    rw [hat.ibuf, bufstep]
  · rw [length_blockAddrs, hmod]
    simp [BufferCursor.init]
  · simp

/-! ### A segment, and all of them -/

/-- `demux` takes in the samples of a segment, in as many turns as it needs. -/
theorem demuxLoop_takesIn (h : WholeSamples g) :
    ∀ (n s start rc : Nat) (d : Demuxer), AtSample g s d.dst →
      (0 < n → 0 < channelBufferSam g) →
      ∃ fuel d', demuxLoop g fuel d start (n * g.sampleSize) rc
          = some (rc + n * g.sampleSize, d') ∧ TakesIn g s d (blockAddrs g start n) d' := by
  intro n
  induction n using Nat.strong_induction_on with
  | _ n ih =>
      intro s start rc d hat hcbs
      rcases Nat.eq_zero_or_pos n with rfl | hpos
      · refine ⟨0, d, ?_, TakesIn.refl hat⟩
        rw [Nat.zero_mul, demuxLoop_done, Nat.add_zero]
      · have hk := hcbs hpos
        have hlt := Nat.mod_lt s hk
        have hss := h.sampleSize_pos
        have hbytes : n * g.sampleSize ≠ 0 := by
          have := Nat.mul_pos hpos hss
          omega
        have hremain := h.totalRemainBytes_eq hat
        by_cases hfit : s % channelBufferSam g + n < channelBufferSam g
        · -- the rest of the segment is within this buffer
          refine ⟨1, d.demuxBlock g start (n * g.sampleSize), ?_, takesIn_last h hat hfit⟩
          refine demuxLoop_last 0 start rc hbytes ?_
          rw [hremain]
          exact Nat.mul_lt_mul_of_pos_right (by omega) hss
        · -- this buffer is filled, and the rest goes on in the next
          have hnext := takesIn_next h start hat hk
          have hsplit : n = (channelBufferSam g - s % channelBufferSam g)
              + (n - (channelBufferSam g - s % channelBufferSam g)) := by omega
          have hdst := hnext.dst
          rw [length_blockAddrs] at hdst
          obtain ⟨fuel, d', hrun, htakes⟩ :=
            ih (n - (channelBufferSam g - s % channelBufferSam g)) (by omega)
              (s + (channelBufferSam g - s % channelBufferSam g))
              (start + (channelBufferSam g - s % channelBufferSam g) * g.sampleSize)
              (rc + (channelBufferSam g - s % channelBufferSam g) * g.sampleSize) _ hdst
              (fun _ => hk)
          have hge : d.dst.totalRemainBytes g ≤ n * g.sampleSize := by
            rw [hremain]
            exact Nat.mul_le_mul_right _ (by omega)
          refine ⟨fuel + 1, d', ?_, ?_⟩
          · rw [demuxLoop_next fuel start rc hbytes hge, hremain, ← Nat.sub_mul]
            rw [hremain] at hrun
            rw [hrun, Nat.add_assoc, ← Nat.add_mul, ← hsplit]
          · rw [hsplit, blockAddrs_add]
            refine hnext.trans ?_
            rw [length_blockAddrs]
            exact htakes

theorem demuxSegments_takesIn (h : WholeSamples g) :
    ∀ (segs : List Segment) (s : Nat) (d : Demuxer), AtSample g s d.dst →
      (∀ seg ∈ segs, g.sampleSize ∣ seg.len) →
      (sampleAddrs g segs ≠ [] → 0 < channelBufferSam g) →
      ∃ fuel₀ d', (∀ fuel, fuel₀ ≤ fuel → demuxSegments g fuel d segs = some d') ∧
        TakesIn g s d (sampleAddrs g segs) d' := by
  intro segs
  induction segs with
  | nil => intro s d hat _ _; exact ⟨0, d, fun _ _ => rfl, TakesIn.refl hat⟩
  | cons seg rest ih =>
      intro s d hat hwhole hcbs
      obtain ⟨n, hn⟩ : g.sampleSize ∣ seg.len := hwhole seg List.mem_cons_self
      rw [Nat.mul_comm] at hn
      have haddrs : sampleAddrs g (seg :: rest)
          = blockAddrs g seg.base n ++ sampleAddrs g rest := by
        simp [sampleAddrs, hn, h.b2s_mul]
      have hpos : 0 < n → 0 < channelBufferSam g := by
        intro hpos
        refine hcbs ?_
        rw [haddrs]
        refine List.append_ne_nil_of_left_ne_nil ?_ _
        rw [← List.length_pos_iff, length_blockAddrs]
        exact hpos
      obtain ⟨fuel₁, d₁, hrun₁, htakes₁⟩ := demuxLoop_takesIn h n s seg.base 0 d hat hpos
      have hat₁ : AtSample g (s + n) d₁.dst := by
        have hdst := htakes₁.dst
        rw [length_blockAddrs] at hdst
        exact hdst
      obtain ⟨fuel₂, d₂, hrun₂, htakes₂⟩ := ih (s + n) d₁ hat₁
        (fun seg' hmem => hwhole seg' (List.mem_cons_of_mem _ hmem))
        (fun hne => hcbs (by rw [haddrs]; exact List.append_ne_nil_of_right_ne_nil _ hne))
      refine ⟨max fuel₁ fuel₂, d₂, fun fuel hfuel => ?_, ?_⟩
      · have hone : d.demux g fuel seg.base seg.len = some (0 + n * g.sampleSize, d₁) := by
          unfold demux
          rw [if_pos (by rw [hn]; exact Nat.mul_mod_left _ _), hn]
          exact demuxLoop_le (by omega) hrun₁
        rw [demuxSegments, hone]
        exact hrun₂ fuel (by omega)
      · rw [haddrs]
        refine htakes₁.trans ?_
        rw [length_blockAddrs]
        exact htakes₂

/-! ### The moves do not disturb each other -/

theorem mem_movesFrom {mv : Move} :
    ∀ (addrs : List Nat) (s : Nat), mv ∈ movesFrom g s addrs ↔
      ∃ (i : Nat) (a : Nat), addrs[i]? = some a ∧ mv ∈ sampleMoves g (s + i) a := by
  intro addrs
  induction addrs with
  | nil => intro s; simp [movesFrom]
  | cons a rest ih =>
      intro s
      rw [movesFrom, List.mem_append, ih]
      constructor
      · rintro (hmem | ⟨i, b, hb, hmem⟩)
        · exact ⟨0, a, rfl, hmem⟩
        · refine ⟨i + 1, b, by simpa using hb, ?_⟩
          rw [show s + (i + 1) = s + 1 + i by omega]
          exact hmem
      · rintro ⟨i, b, hb, hmem⟩
        cases i with
        | zero =>
            obtain rfl : a = b := by simpa using hb
            exact Or.inl hmem
        | succ i =>
            refine Or.inr ⟨i, b, by simpa using hb, ?_⟩
            rw [show s + 1 + i = s + (i + 1) by omega]
            exact hmem

theorem mem_sampleMoves {s a : Nat} {mv : Move} :
    mv ∈ sampleMoves g s a ↔ ∃ c, c < g.nchan ∧
      mv = { dst := sampleWord g s c, src := a + c * g.wordsize, len := g.wordsize } := by
  unfold sampleMoves
  rw [List.mem_map]
  constructor
  · rintro ⟨c, hc, rfl⟩
    exact ⟨c, List.mem_range.mp hc, rfl⟩
  · rintro ⟨c, hc, rfl⟩
    exact ⟨c, List.mem_range.mpr hc, rfl⟩

/-- The words of a sample end before the buffer after the one they begin in. -/
theorem sampleWord_end (h : WholeSamples g) (hcbs : 0 < channelBufferSam g) {s c : Nat}
    (hc : c < g.nchan) :
    sampleWord g s c + g.wordsize ≤ MapBuffer.ba0 + g.bufferlen + s * g.sampleSize := by
  have hmod := Nat.mod_lt s hcbs
  -- within its buffer
  have hword : (c * channelBufferSam g + s % channelBufferSam g + 1) * g.wordsize
      ≤ g.bufferlen := by
    have hrow : (c + 1) * channelBufferSam g ≤ g.nchan * channelBufferSam g :=
      Nat.mul_le_mul_right _ hc
    rw [h.bufferlen_eq, G.sampleSize, ← Nat.mul_assoc,
      Nat.mul_comm (channelBufferSam g) g.nchan]
    refine Nat.mul_le_mul_right _ ?_
    rw [Nat.add_mul] at hrow
    omega
  -- and the buffers before it hold no more than the samples before
  have hbuf : s / channelBufferSam g * g.bufferlen ≤ s * g.sampleSize := by
    rw [h.bufferlen_eq, ← Nat.mul_assoc]
    exact Nat.mul_le_mul_right _ (Nat.div_mul_le_self s _)
  rw [Nat.add_mul] at hword
  unfold sampleWord MapBuffer.getBase
  omega

/-- Two words are the same only for the same channel of the same sample. -/
theorem sampleWord_apart (h : WholeSamples g) (hcbs : 0 < channelBufferSam g) {s s' c c' : Nat}
    (hc : c < g.nchan) (hc' : c' < g.nchan) (hne : s ≠ s' ∨ c ≠ c') :
    Apart (sampleWord g s c) g.wordsize (sampleWord g s' c') g.wordsize := by
  have hword : ∀ s c, sampleWord g s c = MapBuffer.ba0
      + (s / channelBufferSam g * (g.nchan * channelBufferSam g)
        + (c * channelBufferSam g + s % channelBufferSam g)) * g.wordsize := by
    intro s c
    unfold sampleWord MapBuffer.getBase
    rw [h.bufferlen_eq, G.sampleSize]
    ring
  have hapart : ∀ {i j : Nat}, i < j →
      MapBuffer.ba0 + i * g.wordsize + g.wordsize ≤ MapBuffer.ba0 + j * g.wordsize := by
    intro i j hij
    have hle := Nat.mul_le_mul_right g.wordsize (show i + 1 ≤ j from hij)
    rw [Nat.add_mul] at hle
    omega
  rw [hword s c, hword s' c']
  have hdistinct : s / channelBufferSam g * (g.nchan * channelBufferSam g)
        + (c * channelBufferSam g + s % channelBufferSam g)
      ≠ s' / channelBufferSam g * (g.nchan * channelBufferSam g)
        + (c' * channelBufferSam g + s' % channelBufferSam g) := by
    intro heq
    have hinner : ∀ {s c : Nat}, c < g.nchan →
        c * channelBufferSam g + s % channelBufferSam g < g.nchan * channelBufferSam g := by
      intro s c hc
      have hmod := Nat.mod_lt s hcbs
      have hrow := Nat.mul_le_mul_right (channelBufferSam g) (show c + 1 ≤ g.nchan from hc)
      rw [Nat.add_mul] at hrow
      omega
    -- first the buffer, then the channel, then the place in the channel
    obtain ⟨hbuf, hrest⟩ := PairRows.mul_add_inj (hinner hc) (hinner hc') heq
    obtain ⟨hchan, hmod⟩ := PairRows.mul_add_inj (Nat.mod_lt s hcbs) (Nat.mod_lt s' hcbs) hrest
    rcases hne with hs | hc
    · have h1 := Nat.div_add_mod s (channelBufferSam g)
      have h2 := Nat.div_add_mod s' (channelBufferSam g)
      rw [hbuf, hmod] at h1
      exact hs (h1.symm.trans h2)
    · exact hc hchan
  rcases Nat.lt_or_gt_of_ne hdistinct with hlt | hgt
  · exact Or.inl (hapart hlt)
  · exact Or.inr (hapart hgt)

/-- Sample `s + i` is read from behind the first buffer and all samples before it. -/
def ReadBehind (g : G) (s : Nat) (addrs : List Nat) : Prop :=
  ∀ i a, addrs[i]? = some a → MapBuffer.ba0 + g.bufferlen + (s + i) * g.sampleSize ≤ a

/-- A sample's moves and those of the sample itself or a later one. -/
theorem undisturbed (h : WholeSamples g) (hcbs : 0 < channelBufferSam g) {s s' a a' c c' : Nat}
    (hc : c < g.nchan) (hc' : c' < g.nchan) (hle : s ≤ s') (hne : s ≠ s' ∨ c ≠ c')
    (ha : MapBuffer.ba0 + g.bufferlen + s' * g.sampleSize ≤ a') :
    Undisturbed { dst := sampleWord g s c, src := a + c * g.wordsize, len := g.wordsize }
      { dst := sampleWord g s' c', src := a' + c' * g.wordsize, len := g.wordsize } := by
  refine ⟨Or.inl ?_, sampleWord_apart h hcbs hc hc' hne⟩
  have hend := sampleWord_end h hcbs (s := s) hc
  have hsam := Nat.mul_le_mul_right g.sampleSize hle
  show sampleWord g s c + g.wordsize ≤ a' + c' * g.wordsize
  omega

theorem movesFrom_undisturbed (h : WholeSamples g) (hcbs : 0 < channelBufferSam g) :
    ∀ (addrs : List Nat) (s : Nat), ReadBehind g s addrs →
      (movesFrom g s addrs).Pairwise Undisturbed := by
  intro addrs
  induction addrs with
  | nil => intro s _; exact List.Pairwise.nil
  | cons a rest ih =>
      intro s hread
      have hrest : ReadBehind g (s + 1) rest := by
        intro i b hb
        rw [show s + 1 + i = s + (i + 1) by omega]
        exact hread (i + 1) b (by simpa using hb)
      rw [movesFrom, List.pairwise_append]
      refine ⟨?_, ih (s + 1) hrest, ?_⟩
      · -- the channels of one sample
        unfold sampleMoves
        rw [List.pairwise_map]
        refine List.Pairwise.imp_of_mem ?_ (List.pairwise_lt_range (n := g.nchan))
        intro c c' hc hc' hlt
        exact undisturbed h hcbs (List.mem_range.mp hc) (List.mem_range.mp hc') (Nat.le_refl s)
          (Or.inr (Nat.ne_of_lt hlt)) (hread 0 a rfl)
      · intro mv hmv mv' hmv'
        obtain ⟨c, hc, rfl⟩ := mem_sampleMoves.mp hmv
        obtain ⟨i, b, hb, hmv'⟩ := (mem_movesFrom rest (s + 1)).mp hmv'
        obtain ⟨c', hc', rfl⟩ := mem_sampleMoves.mp hmv'
        exact undisturbed h hcbs hc hc' (by omega) (Or.inl (by omega)) (hrest i b hb)

/--
**The demux in place brings every sample over.**  Let the samples of the segments, numbered
over all of them, each be read from behind the first buffer and the samples before it, and
from inside the mapping.  Then the demux of the segments ends; word `c * cbs + s % cbs` of
buffer `s / cbs` holds what channel `c` of sample `s` held before; as many samples have
been copied as there are; and the cursor has not left the buffers.
-/
theorem demux_in_place {g : G} (hnchan : 0 < g.nchan) (hword : g.wordsize = 2 ∨ g.wordsize = 4)
    (hup : g.doubleUp = false) (hlen : g.sampleSize ∣ g.bufferlen) (segs : List Segment)
    (hwhole : ∀ seg ∈ segs, g.sampleSize ∣ seg.len)
    (hsrc : ∀ s a, (sampleAddrs g segs)[s]? = some a →
      MapBuffer.ba0 + g.bufferlen + s * g.sampleSize ≤ a ∧
        a + g.sampleSize ≤ MapBuffer.ba1 g) (mem : Mem) :
    ∃ fuel₀ d, (∀ fuel, fuel₀ ≤ fuel → demuxSegments g fuel (start g mem) segs = some d) ∧
      (∀ s a, (sampleAddrs g segs)[s]? = some a → ∀ c, c < g.nchan → ∀ k, k < g.wordsize →
        d.mem (sampleWord g s c + k) = mem (a + c * g.wordsize + k)) ∧
      (d.calls.map DemuxCall.copied).sum = (sampleAddrs g segs).length ∧
      (sampleAddrs g segs ≠ [] → d.dst.ibuf < g.nbuffers) := by
  have hwordpos : 0 < g.wordsize := by omega
  have h : WholeSamples g := ⟨hnchan, hwordpos, hup, hlen⟩
  have hss := h.sampleSize_pos
  -- a sample needs room behind the first buffer, so there is a buffer
  have hroom : ∀ s a, (sampleAddrs g segs)[s]? = some a →
      (s + 1) * g.sampleSize + g.bufferlen ≤ g.nbuffers * g.bufferlen := by
    intro s a hs
    obtain ⟨hlo, hhi⟩ := hsrc s a hs
    rw [MapBuffer.ba1] at hhi
    rw [Nat.add_mul]
    omega
  have hcbs : sampleAddrs g segs ≠ [] → 0 < channelBufferSam g := by
    intro hne
    obtain ⟨a, rest, hcons⟩ := List.exists_cons_of_ne_nil hne
    have hbytes := hroom 0 a (by simp [hcons])
    rcases Nat.eq_zero_or_pos (channelBufferSam g) with hzero | hpos
    · rw [h.bufferlen_eq, hzero] at hbytes
      simp at hbytes
      omega
    · exact hpos
  have hat : AtSample g 0 (start g mem).dst := by
    refine ⟨?_, rfl, ?_⟩
    · simp [start, BufferCursor.init]
    · simp [start, BufferCursor.init]
  obtain ⟨fuel₀, d, hrun, htakes⟩ := demuxSegments_takesIn h segs 0 _ hat hwhole hcbs
  refine ⟨fuel₀, d, hrun, ?_, ?_, ?_⟩
  · intro s a hs c hc k hk
    have hne : sampleAddrs g segs ≠ [] := by
      intro hnil
      simp [hnil] at hs
    have hread : ReadBehind g 0 (sampleAddrs g segs) := by
      intro i b hb
      rw [Nat.zero_add]
      exact (hsrc i b hb).1
    have hmem : ({ dst := sampleWord g s c, src := a + c * g.wordsize, len := g.wordsize } : Move)
        ∈ movesFrom g 0 (sampleAddrs g segs) := by
      refine (mem_movesFrom _ 0).mpr ⟨s, a, hs, ?_⟩
      rw [Nat.zero_add]
      exact mem_sampleMoves.mpr ⟨c, hc, rfl⟩
    rw [htakes.mem]
    exact runMoves_get _ _ (movesFrom_undisturbed h (hcbs hne) _ 0 hread) _ hmem hk
  · rw [htakes.copied]
    simp [start]
  · intro hne
    have hpos := hcbs hne
    rw [htakes.dst.ibuf, Nat.zero_add]
    -- the last sample leaves a whole buffer behind it
    have hlast : (sampleAddrs g segs).length * g.sampleSize + g.bufferlen
        ≤ g.nbuffers * g.bufferlen := by
      have hlenpos : 0 < (sampleAddrs g segs).length := List.length_pos_iff.mpr hne
      have hbytes := hroom ((sampleAddrs g segs).length - 1) _
        (List.getElem?_eq_getElem (by omega))
      rw [Nat.sub_add_cancel hlenpos] at hbytes
      exact hbytes
    rw [Nat.div_lt_iff_lt_mul hpos]
    have hbuf : (sampleAddrs g segs).length * g.sampleSize
        < g.nbuffers * channelBufferSam g * g.sampleSize := by
      have hlenpos : 0 < g.bufferlen := by
        rw [h.bufferlen_eq]
        exact Nat.mul_pos hpos hss
      rw [Nat.mul_assoc, ← h.bufferlen_eq]
      omega
    exact Nat.lt_of_mul_lt_mul_right hbuf

private def pairGeometry : G :=
  { nchan := 2, wordsize := 2, doubleUp := false, bufferlen := 8, nbuffers := 5 }

/-- Two samples, then another one further on: the third begins the second buffer. -/
private def twoSegments : List Segment :=
  [{ base := MapBuffer.ba0 + 8, len := 8 }, { base := MapBuffer.ba0 + 20, len := 4 }]

theorem demux_in_place_pair :
    ∃ fuel₀ d, (∀ fuel, fuel₀ ≤ fuel →
        demuxSegments pairGeometry fuel (start pairGeometry fun a => UInt8.ofNat a) twoSegments
          = some d) ∧
      (∀ s a, (sampleAddrs pairGeometry twoSegments)[s]? = some a →
        ∀ c, c < pairGeometry.nchan → ∀ k, k < pairGeometry.wordsize →
          d.mem (sampleWord pairGeometry s c + k)
            = UInt8.ofNat (a + c * pairGeometry.wordsize + k)) ∧
      (d.calls.map DemuxCall.copied).sum = (sampleAddrs pairGeometry twoSegments).length ∧
      (sampleAddrs pairGeometry twoSegments ≠ [] → d.dst.ibuf < pairGeometry.nbuffers) := by
  refine demux_in_place (by decide) (Or.inl rfl) rfl (by decide) twoSegments (by decide) ?_ _
  intro s a hs
  have haddrs : sampleAddrs pairGeometry twoSegments
      = [MapBuffer.ba0 + 8, MapBuffer.ba0 + 12, MapBuffer.ba0 + 20] := by decide
  have hend : MapBuffer.ba1 pairGeometry = MapBuffer.ba0 + 40 := by decide
  have hss : pairGeometry.sampleSize = 4 := by decide
  have hlen : pairGeometry.bufferlen = 8 := rfl
  rw [haddrs] at hs
  rw [hend, hss, hlen]
  rcases s with _ | _ | _ | s
  · simp at hs
    omega
  · simp at hs
    omega
  · simp at hs
    omega
  · simp at hs

end Demuxer

end Acq400

/-! ### By blocks

When `Demuxer::demux` loses samples.

`demux` cuts its source by bytes: a block is what is left of the destination buffer,
`channel_remain_bytes() * nchan`.  `_demux` copies whole samples, and two at a time when
the data is doubled up.  Where a block is not a whole number of these, the loop goes on
behind bytes that have not been copied.

`Blocks` is the loop as a relation on the source alone, so that the calls it makes can be
reasoned about by induction on the source.
-/

namespace Acq400

namespace Demuxer

variable {g : G}

/-- The bytes of the samples `_demux` moves in one turn. -/
def turnBytes (g : G) : Nat := step g * g.sampleSize

/-- The block of a destination buffer from its beginning. -/
def bufferBlock (g : G) : Nat := BufferCursor.channelBufferBytes g * g.nchan

/-- The samples `_demux` copies when it is called with `nbytes`. -/
def copiedOf (g : G) (nbytes : Nat) : Nat := turns g (g.b2s nbytes) * step g

/-- The calls the loop makes for `nbytes` at `startp`, the first block being `trb`. -/
inductive Blocks (g : G) : Nat → Nat → Nat → List DemuxCall → Prop
  | done (trb startp : Nat) : Blocks g trb startp 0 []
  | last {trb startp nbytes : Nat} : nbytes ≠ 0 → nbytes < trb →
      Blocks g trb startp nbytes
        [{ start := startp, nbytes := nbytes, copied := copiedOf g nbytes }]
  | next {trb startp nbytes : Nat} {calls : List DemuxCall} : nbytes ≠ 0 → trb ≤ nbytes →
      Blocks g (bufferBlock g) (startp + trb) (nbytes - trb) calls →
      Blocks g trb startp nbytes
        ({ start := startp, nbytes := trb, copied := copiedOf g trb } :: calls)

/-- Every call starts at the sample after the last one copied by the call before. -/
def Contiguous (g : G) : Nat → List DemuxCall → Prop
  | _, [] => True
  | startp, call :: rest =>
    call.start = startp ∧ Contiguous g (startp + call.copied * g.sampleSize) rest

/-- `demux` ends, its calls are contiguous, and they copy as many samples as there are. -/
def Lossless (g : G) (d : Demuxer) (startp nbytes : Nat) : Prop :=
  ∃ fuel rc d' calls, d.demux g fuel startp nbytes = some (rc, d') ∧
    d'.calls = d.calls ++ calls ∧ Contiguous g startp calls ∧
    (calls.map DemuxCall.copied).sum = nbytes / g.sampleSize

/--
The blocks are a whole number of turns: there is nothing to do, or the source is and fits
into what is left of the destination buffer, or it is, what is left is, and the same holds
of the buffers after it.
-/
def WholeBlocks (g : G) (dst : BufferCursor) (nbytes : Nat) : Prop :=
  nbytes = 0 ∨
    (turnBytes g ∣ nbytes ∧
      (nbytes < dst.totalRemainBytes g ∨
        (0 < bufferBlock g ∧ turnBytes g ∣ dst.totalRemainBytes g ∧
          (nbytes - dst.totalRemainBytes g < bufferBlock g ∨ turnBytes g ∣ bufferBlock g))))

/-! ### The loop makes these calls -/

theorem init_totalRemainBytes (g : G) (ibuf : Nat) :
    (BufferCursor.init g ibuf).totalRemainBytes g = bufferBlock g := by
  simp [BufferCursor.totalRemainBytes, BufferCursor.channelRemainBytes, BufferCursor.init,
    bufferBlock]

theorem demuxBlock_calls (d : Demuxer) (startp nbytes : Nat) :
    (d.demuxBlock g startp nbytes).calls
      = d.calls ++ [{ start := startp, nbytes := nbytes, copied := copiedOf g nbytes }] := rfl

theorem blocks_of_demuxLoop :
    ∀ (fuel : Nat) (d : Demuxer) (startp nbytes rc : Nat) (r : Nat × Demuxer),
      demuxLoop g fuel d startp nbytes rc = some r →
        ∃ calls, r.2.calls = d.calls ++ calls ∧
          Blocks g (d.dst.totalRemainBytes g) startp nbytes calls := by
  intro fuel
  induction fuel with
  | zero =>
      intro d startp nbytes rc r h
      rw [demuxLoop] at h
      split at h
      · rename_i hzero
        obtain rfl := Option.some.inj h
        rw [hzero]
        exact ⟨[], (List.append_nil _).symm, .done _ _⟩
      · simp at h
  | succ fuel ih =>
      intro d startp nbytes rc r h
      by_cases hzero : nbytes = 0
      · subst hzero
        rw [demuxLoop_done] at h
        obtain rfl := Option.some.inj h
        exact ⟨[], (List.append_nil _).symm, .done _ _⟩
      · by_cases hlt : nbytes < d.dst.totalRemainBytes g
        · rw [demuxLoop_last _ _ _ hzero hlt] at h
          obtain rfl := Option.some.inj h
          exact ⟨_, demuxBlock_calls d startp nbytes, .last hzero hlt⟩
        · have hge := Nat.not_lt.mp hlt
          rw [demuxLoop_next _ _ _ hzero hge] at h
          obtain ⟨calls, hcalls, hblocks⟩ := ih _ _ _ _ _ h
          rw [init_totalRemainBytes] at hblocks
          refine ⟨_, ?_, .next hzero hge hblocks⟩
          rw [hcalls, demuxBlock_calls, List.append_assoc]
          rfl

theorem demuxLoop_of_blocks {trb startp nbytes : Nat} {calls : List DemuxCall}
    (h : Blocks g trb startp nbytes calls) :
    ∀ (d : Demuxer) (rc : Nat), d.dst.totalRemainBytes g = trb →
      ∃ fuel r, demuxLoop g fuel d startp nbytes rc = some r ∧ r.2.calls = d.calls ++ calls := by
  induction h with
  | done trb startp =>
      intro d rc _
      exact ⟨0, (rc, d), demuxLoop_done g 0 d startp rc, (List.append_nil _).symm⟩
  | last hzero hlt =>
      intro d rc hd
      rw [← hd] at hlt
      exact ⟨1, _, demuxLoop_last 0 _ rc hzero hlt, demuxBlock_calls d _ _⟩
  | next hzero hge _ ih =>
      intro d rc hd
      subst hd
      obtain ⟨fuel, r, hrun, hcalls⟩ := ih
        { d.demuxBlock g _ (d.dst.totalRemainBytes g) with
          dst := BufferCursor.init g (d.dst.ibuf + bufstep) }
        (rc + d.dst.totalRemainBytes g) (init_totalRemainBytes g _)
      refine ⟨fuel + 1, r, ?_, ?_⟩
      · rw [demuxLoop_next fuel _ rc hzero hge]
        exact hrun
      · rw [hcalls]
        show (d.demuxBlock g _ (d.dst.totalRemainBytes g)).calls ++ _ = _
        rw [demuxBlock_calls, List.append_assoc]
        rfl

/-! ### What a call copies -/

theorem step_pos (g : G) : 0 < step g := by
  unfold step
  split
  · exact Nat.zero_lt_two
  · exact Nat.one_pos

/-- A call copies what it is called with exactly when that is a whole number of turns. -/
theorem copiedOf_eq_iff (hss : 0 < g.sampleSize) {nbytes : Nat} :
    copiedOf g nbytes * g.sampleSize = nbytes ↔ turnBytes g ∣ nbytes := by
  unfold copiedOf turnBytes
  constructor
  · intro h
    refine ⟨turns g (g.b2s nbytes), ?_⟩
    rw [Nat.mul_comm (step g * g.sampleSize), ← Nat.mul_assoc]
    exact h.symm
  · rintro ⟨q, rfl⟩
    have hstep := step_pos g
    have hsam : g.b2s (step g * g.sampleSize * q) = q * step g := by
      unfold G.b2s
      rw [show step g * g.sampleSize * q = q * step g * g.sampleSize by ring]
      exact Nat.mul_div_cancel _ hss
    have hturns : turns g (q * step g) = q := by
      unfold turns
      rw [Nat.add_sub_assoc hstep]
      rw [Nat.add_comm, Nat.add_mul_div_right _ _ hstep, Nat.div_eq_of_lt (by omega)]
      omega
    rw [hsam, hturns]
    ring

/-! ### Contiguous calls are whole blocks -/

/-- With no room for a byte of each channel the loop does not end. -/
theorem blocks_no_room (hroom : bufferBlock g = 0) {trb startp nbytes : Nat}
    {calls : List DemuxCall} (h : Blocks g trb startp nbytes calls) : trb = 0 → nbytes = 0 := by
  induction h with
  | done trb startp => exact fun _ => rfl
  | last _ hlt => intro htrb; omega
  | next _ _ _ ih =>
      intro htrb
      have hrest := ih hroom
      omega

/-- Either there was nothing to do, or the first call is at the beginning of the source. -/
theorem Blocks.first {trb startp nbytes : Nat} {calls : List DemuxCall}
    (h : Blocks g trb startp nbytes calls) :
    (calls = [] ∧ nbytes = 0) ∨ ∃ call rest, calls = call :: rest ∧ call.start = startp := by
  cases h with
  | done => exact Or.inl ⟨rfl, rfl⟩
  | last _ _ => exact Or.inr ⟨_, _, rfl, rfl⟩
  | next _ _ _ => exact Or.inr ⟨_, _, rfl, rfl⟩

theorem whole_of_blocks (hss : 0 < g.sampleSize) {trb startp nbytes : Nat}
    {calls : List DemuxCall} (h : Blocks g trb startp nbytes calls) :
    Contiguous g startp calls →
      (calls.map DemuxCall.copied).sum * g.sampleSize = nbytes →
        turnBytes g ∣ nbytes ∧ (nbytes = 0 ∨ nbytes < trb ∨
          (turnBytes g ∣ trb ∧ (nbytes - trb < bufferBlock g ∨ turnBytes g ∣ bufferBlock g))) := by
  induction h with
  | done trb startp => exact fun _ _ => ⟨Nat.dvd_zero _, Or.inl rfl⟩
  | last _ hlt =>
      intro _ hsum
      rw [List.map_cons, List.map_nil, List.sum_cons, List.sum_nil, Nat.add_zero] at hsum
      exact ⟨(copiedOf_eq_iff hss).mp hsum, Or.inr (Or.inl hlt)⟩
  | @next trb startp nbytes calls hzero hge hblocks ih =>
      rintro ⟨-, hcont⟩ hsum
      rw [List.map_cons, List.sum_cons, Nat.add_mul] at hsum
      simp only at hcont hsum
      -- the call after this block starts behind it, and so behind all it has copied
      have hall : copiedOf g trb * g.sampleSize = trb := by
        rcases hblocks.first with ⟨rfl, hrest⟩ | ⟨call, rest, rfl, hstart⟩
        · rw [List.map_nil, List.sum_nil, Nat.zero_mul, Nat.add_zero] at hsum
          omega
        · have hnext := hcont.1
          omega
      have htrb : turnBytes g ∣ trb := (copiedOf_eq_iff hss).mp hall
      rw [hall] at hcont hsum
      obtain ⟨hdvd, hrest⟩ := ih hcont (by omega)
      have hbytes : turnBytes g ∣ nbytes := by
        rw [← Nat.sub_add_cancel hge]
        exact Nat.dvd_add hdvd htrb
      refine ⟨hbytes, Or.inr (Or.inr ⟨htrb, ?_⟩)⟩
      rcases hrest with hdone | hfit | ⟨hbuf, -⟩
      · rcases Nat.eq_zero_or_pos (bufferBlock g) with hbuf | hpos
        · exact Or.inr (hbuf ▸ Nat.dvd_zero _)
        · exact Or.inl (by omega)
      · exact Or.inl hfit
      · exact Or.inr hbuf

/-- Whole blocks from the beginning of a buffer on make contiguous calls. -/
theorem blocks_of_whole (hss : 0 < g.sampleSize) (hroom : 0 < bufferBlock g) :
    ∀ (nbytes startp : Nat), turnBytes g ∣ nbytes →
      (nbytes < bufferBlock g ∨ turnBytes g ∣ bufferBlock g) →
        ∃ calls, Blocks g (bufferBlock g) startp nbytes calls ∧ Contiguous g startp calls ∧
          (calls.map DemuxCall.copied).sum * g.sampleSize = nbytes := by
  intro nbytes
  induction nbytes using Nat.strong_induction_on with
  | _ nbytes ih =>
      intro startp hdvd hwhole
      by_cases hzero : nbytes = 0
      · subst hzero
        exact ⟨[], .done _ _, trivial, by simp⟩
      · by_cases hfit : nbytes < bufferBlock g
        · refine ⟨_, .last hzero hfit, ⟨rfl, trivial⟩, ?_⟩
          simpa using (copiedOf_eq_iff hss).mpr hdvd
        · have hge := Nat.not_lt.mp hfit
          have hbuf : turnBytes g ∣ bufferBlock g := hwhole.resolve_left hfit
          have hall := (copiedOf_eq_iff hss).mpr hbuf
          obtain ⟨calls, hblocks, hcont, hsum⟩ :=
            ih (nbytes - bufferBlock g) (by omega) (startp + bufferBlock g)
              (Nat.dvd_sub hdvd hbuf) (Or.inr hbuf)
          refine ⟨_, .next hzero hge hblocks, ⟨rfl, ?_⟩, ?_⟩
          · simp only
            rw [hall]
            exact hcont
          · rw [List.map_cons, List.sum_cons, Nat.add_mul, hsum]
            simp only
            rw [hall]
            omega

/--
**`demux` loses nothing exactly when its blocks are whole.**  The calls of `_demux` are
contiguous, copy as many samples as the source has, and come to an end, if and only if the
source and the blocks it is cut into are a whole number of turns.
-/
theorem demux_lossless_iff {g : G} (hnchan : 0 < g.nchan)
    (hword : g.wordsize = 2 ∨ g.wordsize = 4) (d : Demuxer)
    (startp : Nat) {nbytes : Nat} (hbytes : g.sampleSize ∣ nbytes) :
    Lossless g d startp nbytes ↔ WholeBlocks g d.dst nbytes := by
  have hss : 0 < g.sampleSize := Nat.mul_pos hnchan (by omega)
  have hdiv : ∀ sum : Nat, sum = nbytes / g.sampleSize ↔ sum * g.sampleSize = nbytes := by
    intro sum
    rw [Nat.eq_div_iff_mul_eq_left (by omega) hbytes, Nat.mul_comm]
    exact eq_comm
  constructor
  · rintro ⟨fuel, rc, d', calls, hrun, hcalls, hcont, hsum⟩
    unfold demux at hrun
    rw [if_pos (Nat.mod_eq_zero_of_dvd hbytes)] at hrun
    obtain ⟨calls', hcalls', hblocks⟩ := blocks_of_demuxLoop _ _ _ _ _ _ hrun
    obtain rfl : calls = calls' := List.append_cancel_left (hcalls.symm.trans hcalls')
    obtain ⟨hdvd, hwhole⟩ := whole_of_blocks hss hblocks hcont ((hdiv _).mp hsum)
    by_cases hzero : nbytes = 0
    · exact Or.inl hzero
    · refine Or.inr ⟨hdvd, ?_⟩
      rcases hwhole with hzero' | hfit | hblock
      · exact absurd hzero' hzero
      · exact Or.inl hfit
      · refine Or.inr ⟨?_, hblock⟩
        rcases Nat.eq_zero_or_pos (bufferBlock g) with hroom | hpos
        · -- nothing of a channel fits into a buffer, and there is something to do
          exfalso
          have hle : d.dst.totalRemainBytes g ≤ bufferBlock g :=
            Nat.mul_le_mul_right _ (Nat.sub_le _ _)
          exact hzero (blocks_no_room hroom hblocks (by omega))
        · exact hpos
  · intro hwhole
    have hcalls : ∃ calls, Blocks g (d.dst.totalRemainBytes g) startp nbytes calls ∧
        Contiguous g startp calls ∧
        (calls.map DemuxCall.copied).sum * g.sampleSize = nbytes := by
      rcases hwhole with hzero | ⟨hdvd, hfit | ⟨hroom, htrb, hbuf⟩⟩
      · subst hzero
        exact ⟨[], .done _ _, trivial, by simp⟩
      · by_cases hzero : nbytes = 0
        · subst hzero
          exact ⟨[], .done _ _, trivial, by simp⟩
        · refine ⟨_, .last hzero hfit, ⟨rfl, trivial⟩, ?_⟩
          simpa using (copiedOf_eq_iff hss).mpr hdvd
      · by_cases hzero : nbytes = 0
        · subst hzero
          exact ⟨[], .done _ _, trivial, by simp⟩
        · by_cases hlt : nbytes < d.dst.totalRemainBytes g
          · refine ⟨_, .last hzero hlt, ⟨rfl, trivial⟩, ?_⟩
            simpa using (copiedOf_eq_iff hss).mpr hdvd
          · have hge := Nat.not_lt.mp hlt
            have hall := (copiedOf_eq_iff hss).mpr htrb
            obtain ⟨calls, hblocks, hcont, hsum⟩ := blocks_of_whole hss hroom _
              (startp + d.dst.totalRemainBytes g) (Nat.dvd_sub hdvd htrb) hbuf
            refine ⟨_, .next hzero hge hblocks, ⟨rfl, ?_⟩, ?_⟩
            · simp only
              rw [hall]
              exact hcont
            · rw [List.map_cons, List.sum_cons, Nat.add_mul, hsum]
              simp only
              rw [hall]
              omega
    obtain ⟨calls, hblocks, hcont, hsum⟩ := hcalls
    obtain ⟨fuel, ⟨rc, d'⟩, hrun, hcalls⟩ := demuxLoop_of_blocks hblocks d 0 rfl
    refine ⟨fuel, rc, d', calls, ?_, hcalls, hcont, (hdiv _).mpr hsum⟩
    unfold demux
    rw [if_pos (Nat.mod_eq_zero_of_dvd hbytes)]
    exact hrun

private def pageOf (nchan : Nat) : G :=
  { nchan := nchan, wordsize := 2, doubleUp := false, bufferlen := 4096, nbuffers := 8 }

/-- Two channels in a page: more than a buffer of samples. -/
theorem demux_lossless_two_channels :
    Lossless (pageOf 2) (start (pageOf 2) fun _ => 0) (MapBuffer.ba0 + 4096) 4104 :=
  (demux_lossless_iff (by decide) (Or.inl rfl) _ _ (by decide)).mpr
    (Or.inr ⟨by decide, Or.inr ⟨by decide, by decide, by decide⟩⟩)

/--
Three channels in a page of 1365 bytes each: the block of 4095 bytes is 682 samples and
three bytes, the loop goes on behind these, and sample 683 is not copied.
-/
theorem demux_loses_sample :
    (pageOf 3).sampleSize ∣ 4098 ∧
      ¬ Lossless (pageOf 3) (start (pageOf 3) fun _ => 0) (MapBuffer.ba0 + 4096) 4098 := by
  refine ⟨by decide, ?_⟩
  rintro ⟨fuel, rc, d, calls, hrun, hcalls, -, hsum⟩
  have hblocks := blocks_of_demuxLoop _ _ _ _ _ _ (show demuxLoop (pageOf 3) fuel _ _ 4098 0
    = some (rc, d) from hrun)
  obtain ⟨calls', hcalls', hblocks⟩ := hblocks
  obtain rfl : calls = calls' := List.append_cancel_left (hcalls.symm.trans hcalls')
  have htrb : (start (pageOf 3) fun _ => 0).dst.totalRemainBytes (pageOf 3) = 4095 := by decide
  rw [htrb] at hblocks
  cases hblocks with
  | last _ hlt => omega
  | next _ _ hrest =>
      cases hrest with
      | last _ _ =>
          exact absurd hsum (by decide)
      | next _ hge _ =>
          have hbuf : bufferBlock (pageOf 3) = 4095 := by decide
          omega

end Demuxer

end Acq400
