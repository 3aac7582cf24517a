/-
When the bits change for the first time, counted in two ways.

Either loop has the bits that have changed so far.  The live count has the number of the sample for
each of them, and ends when those of the mask are among them.  The count of a file writes the clock
that it starts with, and ends only if those are all.
-/
import Acq400.Stream.FirstEdge

namespace Acq400

namespace FirstEdge

variable {ws ys : List (BitVec 32)} {finished : BitVec 32} {j : Nat} {r : Reader} {g : G}

/-! ### The words are read in order -/

/-- So many words are read, one after the other. -/
def readWords : Nat → Reader → Option (List (BitVec 32))
  | 0, _ => some []
  | n + 1, r => r.readw.bind fun p => (readWords n p.2).map (p.1 :: ·)

theorem readWords_eq (n : Nat) : ∀ r : Reader,
    readWords n r = if n ≤ r.words.length then some (r.words.take n) else none := by
  induction n with
  | zero => exact fun r => rfl
  | succ n ih =>
      intro r
      unfold readWords
      cases hwords : r.words with
      | nil =>
          rw [Reader.readw_nil hwords]
          rfl
      | cons x rest =>
          obtain ⟨r', hread, hrest⟩ := Reader.readw_cons hwords
          rw [hread, Option.bind_some, ih r', hrest, List.length_cons, List.take_succ_cons]
          by_cases hle : n ≤ rest.length
          · rw [if_pos hle, if_pos (Nat.succ_le_succ hle)]
            rfl
          · rw [if_neg hle, if_neg fun h => hle (Nat.le_of_succ_le_succ h)]
            rfl

/-! ### The transitions -/

/-- The sample. -/
def sample (ys : List (BitVec 32)) (i : Nat) : BitVec 32 := ys.getD i 0

/-- The bit of a sample differs from that of the one before it. -/
def Differs (ys : List (BitVec 32)) (ib i : Nat) : Prop :=
  1 ≤ i ∧ (sample ys i ^^^ sample ys (i - 1)).getLsbD ib = true

/-- The number of the first sample in which the bit differs. -/
def First (ys : List (BitVec 32)) (ib i : Nat) : Prop :=
  Differs ys ib i ∧ ∀ k < i, ¬Differs ys ib k

/-- All bits of the mask have changed. -/
def Covered (ys : List (BitVec 32)) (finished : BitVec 32) (j : Nat) : Prop :=
  ∀ ib, finished.getLsbD ib = true → ∃ i ≤ j, Differs ys ib i

/-- The first sample after which all bits of the mask have changed. -/
structure Stops (ys : List (BitVec 32)) (finished : BitVec 32) (j : Nat) : Prop where
  lt : j < ys.length
  covered : Covered ys finished j
  first : ∀ k < j, ¬Covered ys finished k

/-- The bits that have changed. -/
def changed (ys : List (BitVec 32)) : Nat → BitVec 32
  | 0 => 0
  | j + 1 => changed ys j ||| (sample ys (j + 1) ^^^ sample ys j)

theorem changed_getLsbD (ys : List (BitVec 32)) (ib : Nat) :
    ∀ j, (changed ys j).getLsbD ib = true ↔ ∃ i ≤ j, Differs ys ib i := by
  intro j
  induction j with
  | zero =>
      refine iff_of_false (fun h => ?_) ?_
      · rw [changed, BitVec.ofNat_eq_ofNat, BitVec.getLsbD_zero] at h
        cases h
      · rintro ⟨i, hi, hpos, -⟩
        omega
  | succ j ih =>
      rw [changed, BitVec.getLsbD_or, Bool.or_eq_true, ih]
      constructor
      · rintro (⟨i, hi, hdiffers⟩ | hdiffers)
        · exact ⟨i, Nat.le_succ_of_le hi, hdiffers⟩
        · exact ⟨j + 1, Nat.le_refl _, Nat.succ_pos j, hdiffers⟩
      · rintro ⟨i, hi, hdiffers⟩
        rcases Nat.of_le_succ hi with hle | rfl
        · exact .inl ⟨i, hle, hdiffers⟩
        · exact .inr hdiffers.2

theorem covered_iff : Covered ys finished j ↔ changed ys j &&& finished = finished := by
  unfold Covered
  simp only [← changed_getLsbD]
  constructor
  · intro h
    apply BitVec.eq_of_getLsbD_eq
    intro ib _
    rw [BitVec.getLsbD_and]
    cases hbit : finished.getLsbD ib with
    | false => rw [Bool.and_false]
    | true => rw [h ib hbit, Bool.and_true]
  · intro h ib hbit
    rw [← h, BitVec.getLsbD_and, Bool.and_eq_true] at hbit
    exact hbit.1

theorem exists_first {ib : Nat} (h : ∃ i ≤ j, Differs ys ib i) : ∃ i ≤ j, First ys ib i := by
  classical
  obtain ⟨i, hi, hdiffers⟩ := h
  have hex : ∃ i, Differs ys ib i := ⟨i, hdiffers⟩
  exact ⟨Nat.find hex, Nat.le_trans (Nat.find_min' hex hdiffers) hi, Nat.find_spec hex,
    fun k hk => Nat.find_min hex hk⟩

/-! ### One sample -/

theorem onBit_fin {n : Nat} (hn : n < 32) (change : BitVec 32) (clk : Nat) (g : G) (k : Nat) :
    (g.onBit change clk n).fin.getLsbD k =
      (g.fin.getLsbD k || (decide (k = n) && change.getLsbD k)) := by
  unfold G.onBit
  split
  · rename_i hset
    show (g.fin ||| BitVec.twoPow 32 n).getLsbD k = _
    rw [BitVec.getLsbD_or, BitVec.getLsbD_twoPow, decide_eq_true hn, Bool.true_and]
    by_cases hk : k = n
    · rw [hk, hset.2, Bool.and_true]
    · rw [decide_eq_false (Ne.symm hk), decide_eq_false hk, Bool.false_and]
  · rename_i hset
    by_cases hk : k = n
    · rw [hk, decide_eq_true rfl, Bool.true_and]
      cases hg : g.fin.getLsbD n with
      | true => rfl
      | false => exact (Bool.eq_false_iff.mpr fun hc => hset ⟨hg, hc⟩).symm
    · rw [decide_eq_false hk, Bool.false_and, Bool.or_false]

theorem onBit_clocks (change : BitVec 32) (clk : Nat) (g : G) (n k : Nat) :
    (g.onBit change clk n).clocks k =
      if k = n ∧ g.fin.getLsbD k = false ∧ change.getLsbD k = true then clk
      else g.clocks k := by
  unfold G.onBit
  split
  · rename_i hset
    show Function.update g.clocks n clk k = _
    by_cases hk : k = n
    · subst hk
      rw [Function.update_self, if_pos ⟨rfl, hset⟩]
    · rw [Function.update_of_ne hk, if_neg fun h => hk h.1]
  · rename_i hset
    rw [if_neg]
    rintro ⟨rfl, hnew⟩
    exact hset hnew

theorem foldl_onBit (change : BitVec 32) (clk : Nat) (g : G) (n : Nat) (hn : n ≤ 32) :
    (∀ k, ((List.range n).foldl (G.onBit change clk) g).fin.getLsbD k =
        (g.fin.getLsbD k || (decide (k < n) && change.getLsbD k))) ∧
      ∀ k, ((List.range n).foldl (G.onBit change clk) g).clocks k =
        if k < n ∧ g.fin.getLsbD k = false ∧ change.getLsbD k = true then clk
        else g.clocks k := by
  induction n with
  | zero =>
      refine ⟨fun k => ?_, fun k => ?_⟩
      · rw [decide_eq_false (Nat.not_lt_zero k), Bool.false_and, Bool.or_false]
        rfl
      · rw [if_neg fun h => Nat.not_lt_zero k h.1]
        rfl
  | succ n ih =>
      obtain ⟨hfin, hclocks⟩ := ih (Nat.le_of_succ_le hn)
      rw [List.range_succ, List.foldl_append, List.foldl_cons, List.foldl_nil]
      generalize (List.range n).foldl (G.onBit change clk) g = t at *
      refine ⟨fun k => ?_, fun k => ?_⟩
      · rw [onBit_fin (Nat.lt_of_succ_le hn), hfin, Bool.or_assoc, ← Bool.and_or_distrib_right]
        simp only [Nat.lt_succ_iff_lt_or_eq, Bool.decide_or]
      · rw [onBit_clocks, hfin, hclocks]
        by_cases hk : k = n
        · simp [hk]
        · have hlt : k < n + 1 ↔ k < n := by omega
          rw [if_neg fun h => hk h.1]
          simp only [hlt]

/-- A sample sets the bits that have changed, and the clocks of those that are new. -/
theorem onChange_spec (g : G) (clk : Nat) (x0 x1 : BitVec 32) :
    (g.onChange clk x0 x1).fin = g.fin ||| (x1 ^^^ x0) ∧
      ∀ k, (g.onChange clk x0 x1).clocks k =
        if g.fin.getLsbD k = false ∧ (x1 ^^^ x0).getLsbD k = true then clk else g.clocks k := by
  unfold G.onChange
  generalize x1 ^^^ x0 = change
  obtain ⟨hfin, hclocks⟩ := foldl_onBit change clk g nbits (Nat.le_refl 32)
  by_cases hnew : change &&& ~~~g.fin ≠ 0
  · rw [if_pos hnew]
    refine ⟨BitVec.eq_of_getLsbD_eq fun k hk => ?_, fun k => ?_⟩
    · rw [hfin, BitVec.getLsbD_or, decide_eq_true (show k < nbits from hk), Bool.true_and]
    · rw [hclocks]
      have hlt : change.getLsbD k = true → k < nbits := BitVec.lt_of_getLsbD
      by_cases hset : g.fin.getLsbD k = false ∧ change.getLsbD k = true
      · rw [if_pos hset, if_pos ⟨hlt hset.2, hset⟩]
      · rw [if_neg hset, if_neg fun h => hset h.2]
  · have hold : ∀ k, g.fin.getLsbD k = false → change.getLsbD k = false := by
      intro k hk
      rw [← Bool.not_eq_true]
      intro hc
      have hzero := congrArg (fun x : BitVec 32 => x.getLsbD k) (not_not.mp hnew)
      rw [BitVec.getLsbD_and, BitVec.getLsbD_not, hc, hk,
        decide_eq_true (BitVec.lt_of_getLsbD hc), BitVec.ofNat_eq_ofNat,
        BitVec.getLsbD_zero] at hzero
      exact Bool.noConfusion hzero
    rw [if_neg hnew]
    refine ⟨BitVec.eq_of_getLsbD_eq fun k _ => ?_, fun k => ?_⟩
    · rw [BitVec.getLsbD_or]
      cases hg : g.fin.getLsbD k with
      | true => rfl
      | false => rw [hold k hg, Bool.or_false]
    · rw [if_neg fun h => Bool.false_ne_true ((hold k h.1).symm.trans h.2)]

theorem onChange_clk (g : G) (clk : Nat) (x0 x1 : BitVec 32) :
    (g.onChange clk x0 x1).clk = g.clk := by
  have hfold : ∀ (change : BitVec 32) (ibs : List Nat) (g : G),
      (ibs.foldl (G.onBit change clk) g).clk = g.clk := by
    intro change ibs
    induction ibs with
    | nil => exact fun g => rfl
    | cons ib ibs ih =>
        intro g
        rw [List.foldl_cons, ih]
        unfold G.onBit
        split <;> rfl
  unfold G.onChange
  dsimp only
  split
  · exact hfold _ _ g
  · rfl

/-- The bits that have changed have the number of their first sample, as it is counted. -/
structure Counted (value : Nat → Nat) (ys : List (BitVec 32)) (j : Nat) (g : G) : Prop where
  fin : g.fin = changed ys j
  clocks : ∀ ib i, i ≤ j → First ys ib i → g.clocks ib = value i

theorem Counted.zero (value : Nat → Nat) (ys : List (BitVec 32)) (clk : Nat) :
    Counted value ys 0 { G.zero with clk := clk } :=
  ⟨rfl, fun ib i hi hfirst => absurd hfirst.1.1 (by omega)⟩

theorem Counted.next {value : Nat → Nat} (h : Counted value ys j g) (clk' : Nat) :
    Counted value ys (j + 1)
      { g.onChange (value (j + 1)) (sample ys j) (sample ys (j + 1)) with clk := clk' } := by
  obtain ⟨hfin, hclocks⟩ :=
    onChange_spec g (value (j + 1)) (sample ys j) (sample ys (j + 1))
  refine ⟨?_, fun ib i hi hfirst => ?_⟩
  · show (g.onChange (value (j + 1)) (sample ys j) (sample ys (j + 1))).fin = _
    rw [hfin, h.fin]
    rfl
  · show (g.onChange (value (j + 1)) (sample ys j) (sample ys (j + 1))).clocks ib = _
    rw [hclocks, h.fin]
    rcases Nat.of_le_succ hi with hle | rfl
    · have hbit : (changed ys j).getLsbD ib = true :=
        (changed_getLsbD ys ib j).mpr ⟨i, hle, hfirst.1⟩
      rw [if_neg fun hnew => Bool.false_ne_true (hnew.1.symm.trans hbit)]
      exact h.clocks ib i hle hfirst
    · have hbit : (changed ys j).getLsbD ib = false := by
        rw [← Bool.not_eq_true, changed_getLsbD]
        rintro ⟨k, hk, hdiffers⟩
        exact hfirst.2 k (Nat.lt_succ_of_le hk) hdiffers
      exact if_pos ⟨hbit, hfirst.1.2⟩

/-! ### The loops -/

/-- The reader is behind the sample `j`. -/
structure At (ys : List (BitVec 32)) (j : Nat) (r : Reader) : Prop where
  lt : j < ys.length
  words : r.words = ys.drop (j + 1)

theorem At.readw (h : At ys j r) : r.readw = none ∧ ys.length = j + 1 ∨
    ∃ r', r.readw = some (sample ys (j + 1), r') ∧ At ys (j + 1) r' := by
  by_cases hlt : j + 1 < ys.length
  · have hwords : r.words = sample ys (j + 1) :: ys.drop (j + 1 + 1) := by
      rw [h.words, List.drop_eq_getElem_cons hlt]
      unfold sample
      rw [List.getD_eq_getElem?_getD, List.getElem?_eq_getElem hlt, Option.getD_some]
    obtain ⟨r', hread, hrest⟩ := Reader.readw_cons hwords
    exact .inr ⟨r', hread, hlt, hrest⟩
  · have hwords : r.words = [] := by
      rw [h.words]
      exact List.drop_eq_nil_of_le (Nat.not_lt.mp hlt)
    exact .inl ⟨Reader.readw_nil hwords, by have := h.lt; omega⟩

theorem liveLoop_step (hne : g.fin &&& finished ≠ finished) (x0 : BitVec 32) :
    liveLoop finished r x0 g = r.readw.bind fun p =>
      liveLoop finished p.2 p.1 { g.onChange g.clk x0 p.1 with clk := g.clk + 1 } := by
  -- a word that has not changed changes nothing
  have hsame : ∀ x1, (if x1 ≠ x0 then g.onChange g.clk x0 x1 else g) = g.onChange g.clk x0 x1 := by
    intro x1
    split
    · rfl
    · rename_i heq
      obtain rfl := not_not.mp heq
      unfold G.onChange
      rw [BitVec.xor_self, if_neg (by simp)]
  rw [liveLoop, if_pos hne]
  split
  · rename_i hread
    rw [hread, Option.bind_none]
  · rename_i hread
    rw [hread, Option.bind_some]
    dsimp only
    rw [hsame, onChange_clk]

theorem countLoop_step {clk : Nat} (hne : g.fin ≠ finished) (x0 : BitVec 32) :
    countLoop finished clk r x0 g = r.readw.bind fun p =>
      countLoop finished clk p.2 p.1 { g.onChange clk x0 p.1 with clk := g.clk + 1 } := by
  rw [countLoop, if_pos hne]
  split
  · rename_i hread
    rw [hread, Option.bind_none]
  · rename_i hread
    rw [hread, Option.bind_some]

/-- A loop over the samples ends behind the first one at which it is done, if there is one. -/
theorem loop_spec (loop : Reader → BitVec 32 → G → Option (G × Reader))
    (next : G → BitVec 32 → BitVec 32 → G) (P : Nat → G → Prop) (done : Nat → Prop)
    (hend : ∀ {j r g} x, P j g → done j → loop r x g = some (g, r))
    (hstep : ∀ {j r g} x, P j g → ¬done j →
      loop r x g = r.readw.bind fun p => loop p.2 p.1 (next g x p.1))
    (hnext : ∀ {j g}, P j g → P (j + 1) (next g (sample ys j) (sample ys (j + 1)))) (n : Nat) :
    ∀ (j : Nat) (r : Reader) (g : G), ys.length - j = n → At ys j r → P j g →
      (∀ k < j, ¬done k) →
      (∃ stop g' r', loop r (sample ys j) g = some (g', r') ∧ done stop ∧
        (∀ k < stop, ¬done k) ∧ At ys stop r' ∧ P stop g') ∨
      loop r (sample ys j) g = none ∧ ∀ k < ys.length, ¬done k := by
  induction n with
  | zero =>
      intro j r g hn hat _ _
      have := hat.lt
      omega
  | succ n ih =>
      intro j r g hn hat hg hbefore
      by_cases hdone : done j
      · rw [hend _ hg hdone]
        exact .inl ⟨j, g, r, rfl, hdone, hbefore, hat, hg⟩
      · rw [hstep _ hg hdone]
        have hbefore' : ∀ k < j + 1, ¬done k := by
          intro k hk
          rcases Nat.lt_succ_iff_lt_or_eq.mp hk with hlt | rfl
          · exact hbefore k hlt
          · exact hdone
        rcases hat.readw with ⟨hnone, hlen⟩ | ⟨r', hread, hat'⟩
        · rw [hnone]
          exact .inr ⟨rfl, fun k hk => hbefore' k (by omega)⟩
        · rw [hread, Option.bind_some]
          exact ih (j + 1) r' _ (by omega) hat' (hnext hg) hbefore'

/-- The live count ends at the first sample behind which the mask is covered, if there is one. -/
theorem liveLoop_spec (hat : At ys 0 r) :
    (∃ stop g' r', liveLoop finished r (sample ys 0) { G.zero with clk := 1 } = some (g', r') ∧
      Stops ys finished stop ∧ At ys stop r' ∧ Counted (fun i => i) ys stop g') ∨
    liveLoop finished r (sample ys 0) { G.zero with clk := 1 } = none ∧
      ∀ stop, ¬Stops ys finished stop := by
  have hcovered : ∀ {j g}, Counted (fun i => i) ys j g ∧ g.clk = j + 1 →
      (g.fin &&& finished = finished ↔ Covered ys finished j) := by
    intro j g hg
    rw [covered_iff, hg.1.fin]
  have hloop := loop_spec (liveLoop finished)
    (fun g x0 x1 => { g.onChange g.clk x0 x1 with clk := g.clk + 1 })
    (fun j g => Counted (fun i => i) ys j g ∧ g.clk = j + 1) (Covered ys finished)
    (fun x hg hcov => by rw [liveLoop, if_neg (not_not.mpr ((hcovered hg).mpr hcov))])
    (fun x hg hcov => liveLoop_step (fun h => hcov ((hcovered hg).mp h)) x)
    (fun {j g} hg => ⟨by dsimp only; rw [hg.2]; exact hg.1.next (j + 2), by rw [hg.2]⟩)
    _ 0 r { G.zero with clk := 1 } rfl hat ⟨Counted.zero _ _ 1, rfl⟩
    fun k hk => absurd hk (Nat.not_lt_zero k)
  rcases hloop with ⟨stop, g', r', heq, hcov, hbefore, hat', hg'⟩ | ⟨hnone, hall⟩
  · exact .inl ⟨stop, g', r', heq, ⟨hat'.lt, hcov, hbefore⟩, hat', hg'.1⟩
  · exact .inr ⟨hnone, fun stop hstop => hall stop hstop.lt hstop.covered⟩

/-- The count of a file ends when the bits that have changed are those of the mask. -/
theorem countLoop_spec {clk : Nat} (hat : At ys 0 r) :
    (∃ stop g' r', countLoop finished clk r (sample ys 0) G.zero = some (g', r') ∧
      changed ys stop = finished ∧ (∀ k < stop, changed ys k ≠ finished) ∧ At ys stop r' ∧
      Counted (fun _ => clk) ys stop g') ∨
    countLoop finished clk r (sample ys 0) G.zero = none ∧
      ∀ k < ys.length, changed ys k ≠ finished :=
  loop_spec (countLoop finished clk)
    (fun g x0 x1 => { g.onChange clk x0 x1 with clk := g.clk + 1 })
    (Counted (fun _ => clk) ys) (fun j => changed ys j = finished)
    (fun x hg hdone => by rw [countLoop, if_neg (not_not.mpr (hg.fin.trans hdone))])
    (fun x hg hdone => countLoop_step (fun h => hdone (hg.fin.symm.trans h)) x)
    (fun hg => hg.next _) _ 0 r G.zero rfl hat (Counted.zero _ _ 0)
    fun k hk => absurd hk (Nat.not_lt_zero k)

/-! ### The programs -/

theorem skipLoop_eq (turns : Nat) : ∀ (x0 : BitVec 32) (r : Reader) (ys : List (BitVec 32)),
    ys = x0 :: r.words →
    (turns < ys.length → ∃ r', skipLoop turns x0 r = some (sample (ys.drop turns) 0, r') ∧
      At (ys.drop turns) 0 r') ∧ (ys.length ≤ turns → skipLoop turns x0 r = none) := by
  induction turns with
  | zero =>
      rintro x0 r ys rfl
      refine ⟨fun hlt => ⟨r, rfl, hlt, rfl⟩, fun hle => absurd hle (by simp)⟩
  | succ turns ih =>
      rintro x0 r ys rfl
      unfold skipLoop
      cases hwords : r.words with
      | nil =>
          rw [Reader.readw_nil hwords]
          exact ⟨fun hlt => absurd hlt (by simp), fun _ => rfl⟩
      | cons x rest =>
          obtain ⟨r', hread, hrest⟩ := Reader.readw_cons hwords
          have hmore := ih x r' (x :: rest) (by rw [hrest])
          rw [hread, Option.bind_eq_bind, Option.bind_some, List.drop_succ_cons]
          exact ⟨fun hlt => hmore.1 (Nat.lt_of_succ_lt_succ hlt),
            fun hle => hmore.2 (Nat.le_of_succ_le_succ hle)⟩

theorem countClocksLive_spec (finished : BitVec 32) (ys : List (BitVec 32)) :
    (∃ stop g r, countClocksLive finished (.ofInput ys) = some (g, r) ∧
      Stops ys finished stop ∧ At ys stop r ∧ Counted (fun i => i) ys stop g) ∨
    countClocksLive finished (.ofInput ys) = none ∧ ∀ stop, ¬Stops ys finished stop := by
  unfold countClocksLive
  cases ys with
  | nil =>
      rw [Reader.readw_nil rfl]
      exact .inr ⟨rfl, fun stop hstop => Nat.not_lt_zero stop hstop.lt⟩
  | cons x rest =>
      obtain ⟨r, hread, hrest⟩ := Reader.readw_cons (r := .ofInput (x :: rest)) rfl
      rw [hread, Option.bind_eq_bind, Option.bind_some]
      have hat : At (x :: rest) 0 r := ⟨Nat.succ_pos rest.length, hrest⟩
      exact liveLoop_spec hat

/-- The samples that are not skipped. -/
def kept (ws : List (BitVec 32)) (skip : Nat) : List (BitVec 32) := ws.drop (skip - 1)

theorem countClocks_spec (skip : Nat) (finished : BitVec 32) (ws : List (BitVec 32)) :
    (∃ stop g r, countClocks skip finished (.ofInput ws) = some (g, r) ∧
      changed (kept ws skip) stop = finished ∧
      (∀ k < stop, changed (kept ws skip) k ≠ finished) ∧ At (kept ws skip) stop r ∧
      Counted (fun _ => max 1 skip) (kept ws skip) stop g) ∨
    countClocks skip finished (.ofInput ws) = none ∧
      ∀ k < (kept ws skip).length, changed (kept ws skip) k ≠ finished := by
  have hclk : 1 + (skip - 1) = max 1 skip := by omega
  unfold countClocks kept
  cases ws with
  | nil =>
      rw [Reader.readw_nil rfl, List.drop_nil]
      exact .inr ⟨rfl, fun k hk => absurd hk (Nat.not_lt_zero k)⟩
  | cons x rest =>
      obtain ⟨r, hread, hrest⟩ := Reader.readw_cons (r := .ofInput (x :: rest)) rfl
      rw [hread, Option.bind_eq_bind, Option.bind_some]
      obtain ⟨hskip, hshort⟩ := skipLoop_eq (skip - 1) x r (x :: rest) (by rw [hrest])
      by_cases hlt : skip - 1 < (x :: rest).length
      · obtain ⟨r', hr', hat⟩ := hskip hlt
        dsimp only
        rw [hr', Option.bind_some, hclk]
        exact countLoop_spec hat
      · have hle := Nat.not_lt.mp hlt
        dsimp only
        rw [hshort hle, List.drop_eq_nil_of_le hle]
        exact .inr ⟨rfl, fun k hk => absurd hk (Nat.not_lt_zero k)⟩

/-! ### Both counts -/

/-- Both counts give the first transitions, and end at the same sample. -/
structure Right (ws : List (BitVec 32)) (finished : BitVec 32) (skip : Nat) : Prop where
  delivered : ∀ n, readWords n (.ofInput ws) = if n ≤ ws.length then some (ws.take n) else none
  counted : ∃ stop g r l s, Stops (kept ws skip) finished stop ∧
    countClocks skip finished (.ofInput ws) = some (g, r) ∧
    countClocksLive finished (.ofInput (kept ws skip)) = some (l, s) ∧
    r.words = (kept ws skip).drop (stop + 1) ∧ s.words = (kept ws skip).drop (stop + 1) ∧
    ∀ ib i, i ≤ stop → First (kept ws skip) ib i → g.clocks ib = i ∧ l.clocks ib = i

/-- There is no bit to wait for, or the bits of the mask all change at once and no other one does:
in the first sample that is looked at, or as many behind it as have been skipped. -/
def AllAtOnce (ws : List (BitVec 32)) (finished : BitVec 32) (skip : Nat) : Prop :=
  finished = 0 ∧ kept ws skip ≠ [] ∨
    ∃ x rest, kept ws skip = List.replicate (max 1 skip) x ++ (x ^^^ finished) :: rest

theorem stops_unique {k : Nat} (hj : Stops ys finished j) (hk : Stops ys finished k) : j = k := by
  rcases Nat.lt_trichotomy j k with hlt | heq | hlt
  · exact absurd hj.covered (hk.first j hlt)
  · exact heq
  · exact absurd hk.covered (hj.first k hlt)

theorem changed_eq_zero_iff : changed ys j = 0 ↔ ∀ ib, ∀ i ≤ j, ¬Differs ys ib i := by
  constructor
  · intro h ib i hi hdiffers
    have hbit := (changed_getLsbD ys ib j).mpr ⟨i, hi, hdiffers⟩
    rw [h, BitVec.ofNat_eq_ofNat, BitVec.getLsbD_zero] at hbit
    exact Bool.noConfusion hbit
  · intro h
    refine BitVec.eq_of_getLsbD_eq fun ib _ => ?_
    rw [BitVec.ofNat_eq_ofNat, BitVec.getLsbD_zero, ← Bool.not_eq_true, changed_getLsbD]
    rintro ⟨i, hi, hdiffers⟩
    exact h ib i hi hdiffers

theorem sample_eq_of_changed (h : changed ys j = 0) : ∀ i ≤ j, sample ys i = sample ys 0 := by
  have hnone := changed_eq_zero_iff.mp h
  intro i hi
  induction i with
  | zero => rfl
  | succ i ih =>
      rw [← ih (Nat.le_of_succ_le hi)]
      have hzero : sample ys (i + 1) ^^^ sample ys i = 0 := by
        refine BitVec.eq_of_getLsbD_eq fun ib _ => ?_
        rw [BitVec.ofNat_eq_ofNat, BitVec.getLsbD_zero, ← Bool.not_eq_true]
        exact fun hbit => hnone ib (i + 1) hi ⟨Nat.succ_pos i, hbit⟩
      exact BitVec.xor_eq_zero_iff.mp hzero

theorem At.unique {k : Nat} (hj : At ys j r) (hk : k < ys.length)
    (hwords : r.words = ys.drop (k + 1)) : j = k := by
  have hlen := congrArg List.length (hj.words.symm.trans hwords)
  rw [List.length_drop, List.length_drop] at hlen
  have := hj.lt
  omega

/-- Where all first transitions are in one sample, it is the last one, and the bits of the mask
change in it. -/
theorem eq_replicate_of_first {stop m : Nat} (hstops : Stops ys finished stop)
    (hchanged : changed ys stop = finished)
    (hfirst : ∀ ib i, i ≤ stop → First ys ib i → i = m) (hzero : finished ≠ 0) :
    ∃ x rest, ys = List.replicate m x ++ (x ^^^ finished) :: rest := by
  have hdiffers : ∀ ib i, i ≤ stop → Differs ys ib i → Differs ys ib m ∧ m ≤ i := by
    intro ib i hi hd
    obtain ⟨k, hk, hfirstk⟩ := exists_first ⟨i, Nat.le_refl i, hd⟩
    obtain rfl := hfirst ib k (Nat.le_trans hk hi) hfirstk
    exact ⟨hfirstk.1, hk⟩
  have hcovered : Covered ys finished m := by
    intro ib hbit
    obtain ⟨i, hi, hd⟩ := hstops.covered ib hbit
    exact ⟨m, Nat.le_refl m, (hdiffers ib i hi hd).1⟩
  have hle : stop ≤ m := Nat.le_of_not_lt fun hlt => hstops.first m hlt hcovered
  have hpos : stop ≠ 0 := by
    rintro rfl
    exact hzero hchanged.symm
  have hbefore : ∀ k < m, k ≤ stop → changed ys k = 0 := by
    intro k hk hks
    refine changed_eq_zero_iff.mpr fun ib i hi hd => ?_
    have := (hdiffers ib i (Nat.le_trans hi hks) hd).2
    omega
  have hstop : stop = m := by
    by_contra hne
    exact hzero (hchanged.symm.trans (hbefore stop (by omega) (Nat.le_refl stop)))
  subst hstop
  obtain ⟨k, rfl⟩ := Nat.exists_eq_succ_of_ne_zero hpos
  have hnone := hbefore k (Nat.lt_succ_self k) (Nat.le_succ k)
  have hsame := sample_eq_of_changed hnone
  have hlast : sample ys (k + 1) = sample ys 0 ^^^ finished := by
    rw [← hchanged, changed, hnone, ← hsame k (Nat.le_refl k), BitVec.ofNat_eq_ofNat,
      BitVec.zero_or, BitVec.xor_comm, BitVec.xor_assoc, BitVec.xor_self, BitVec.xor_zero]
  refine ⟨sample ys 0, ys.drop (k + 1 + 1), ?_⟩
  have hget : ∀ i (hi : i < ys.length), ys[i] = sample ys i := by
    intro i hi
    unfold sample
    rw [List.getD_eq_getElem?_getD, List.getElem?_eq_getElem hi, Option.getD_some]
  have htake : ys.take (k + 1) = List.replicate (k + 1) (sample ys 0) := by
    have hlt := hstops.lt
    refine List.eq_replicate_iff.mpr ⟨by rw [List.length_take]; omega, fun y hy => ?_⟩
    obtain ⟨i, hi, rfl⟩ := List.getElem_of_mem hy
    rw [List.length_take] at hi
    rw [List.getElem_take, hget]
    exact hsame i (by omega)
  calc ys = ys.take (k + 1) ++ ys.drop (k + 1) := (List.take_append_drop (k + 1) ys).symm
    _ = _ := by rw [htake, List.drop_eq_getElem_cons hstops.lt, hget, hlast]

theorem Right.allAtOnce {skip : Nat} (h : Right ws finished skip) : AllAtOnce ws finished skip := by
  obtain ⟨stop, g, r, l, s, hstops, hcount, -, hr, -, hclocks⟩ := h.counted
  by_cases hzero : finished = 0
  · exact .inl ⟨hzero, List.ne_nil_of_length_pos (Nat.zero_lt_of_lt hstops.lt)⟩
  · rcases countClocks_spec skip finished ws with
      ⟨stop', g', r', hcount', hchanged, -, hat, hg⟩ | hnone
    · obtain ⟨rfl, rfl⟩ := Prod.mk.inj (Option.some.inj (hcount'.symm.trans hcount))
      obtain rfl := hat.unique hstops.lt hr
      refine .inr (eq_replicate_of_first hstops hchanged (fun ib i hi hfirst => ?_) hzero)
      exact (hclocks ib i hi hfirst).1.symm.trans (hg.clocks ib i hi hfirst)
    · exact absurd (hnone.1.symm.trans hcount) nofun

/-- Samples that are alike up to the one in which the bits of the mask change. -/
theorem replicate_changed {m : Nat} (hm : 1 ≤ m) (x : BitVec 32) (rest : List (BitVec 32)) :
    (∀ k < m, changed (List.replicate m x ++ (x ^^^ finished) :: rest) k = 0) ∧
      changed (List.replicate m x ++ (x ^^^ finished) :: rest) m = finished := by
  have hsame : ∀ i < m, sample (List.replicate m x ++ (x ^^^ finished) :: rest) i = x := by
    intro i hi
    unfold sample
    rw [List.getD_eq_getElem?_getD, List.getElem?_append_left (by simpa using hi),
      List.getElem?_replicate_of_lt hi, Option.getD_some]
  have hlast : sample (List.replicate m x ++ (x ^^^ finished) :: rest) m = x ^^^ finished := by
    unfold sample
    rw [List.getD_eq_getElem?_getD, List.getElem?_append_right (by simp)]
    simp
  have hnone : ∀ k < m, changed (List.replicate m x ++ (x ^^^ finished) :: rest) k = 0 := by
    intro k hk
    induction k with
    | zero => rfl
    | succ k ih =>
        rw [changed, ih (Nat.lt_of_succ_lt hk), hsame _ hk, hsame k (Nat.lt_of_succ_lt hk),
          BitVec.xor_self]
        exact BitVec.or_zero
  refine ⟨hnone, ?_⟩
  obtain ⟨k, rfl⟩ := Nat.exists_eq_succ_of_ne_zero (Nat.ne_of_gt hm)
  rw [changed, hnone k (Nat.lt_succ_self k), hlast, hsame k (Nat.lt_succ_self k),
    BitVec.ofNat_eq_ofNat, BitVec.zero_or, BitVec.xor_comm x, BitVec.xor_assoc, BitVec.xor_self,
    BitVec.xor_zero]

/-- Both counts end where the bits of the mask change, and have its number. -/
theorem right_of_stops {skip stop : Nat} (hstops : Stops (kept ws skip) finished stop)
    (hchanged : changed (kept ws skip) stop = finished)
    (hbefore : ∀ k < stop, changed (kept ws skip) k ≠ finished)
    (hfirst : ∀ ib i, i ≤ stop → First (kept ws skip) ib i → i = max 1 skip) :
    Right ws finished skip := by
  refine ⟨fun n => readWords_eq n (.ofInput ws), ?_⟩
  rcases countClocks_spec skip finished ws with ⟨j, g, r, hcount, hj, hjfirst, hat, hg⟩ | hnone
  · rcases countClocksLive_spec finished (kept ws skip) with
      ⟨k, l, s, hlive, hk, hat', hl⟩ | hnone
    · obtain rfl : k = stop := stops_unique hk hstops
      obtain rfl : j = k := by
        rcases Nat.lt_trichotomy j k with hlt | heq | hlt
        · exact absurd hj (hbefore j hlt)
        · exact heq
        · exact absurd hchanged (hjfirst k hlt)
      refine ⟨j, g, r, l, s, hstops, hcount, hlive, hat.words, hat'.words, fun ib i hi hf => ?_⟩
      refine ⟨?_, hl.clocks ib i hi hf⟩
      rw [hg.clocks ib i hi hf, hfirst ib i hi hf]
    · exact absurd hstops (hnone.2 stop)
  · exact absurd hchanged (hnone.2 stop hstops.lt)

theorem AllAtOnce.right {skip : Nat} (h : AllAtOnce ws finished skip) : Right ws finished skip := by
  by_cases hzero : finished = 0
  · have hne : kept ws skip ≠ [] := by
      rcases h with ⟨-, hne⟩ | ⟨x, rest, hkept⟩
      · exact hne
      · rw [hkept]
        exact List.append_ne_nil_of_right_ne_nil _ (List.cons_ne_nil _ _)
    subst hzero
    refine right_of_stops ⟨List.length_pos_of_ne_nil hne, fun ib hbit => ?_,
      fun k hk => absurd hk (Nat.not_lt_zero k)⟩ rfl (fun k hk => absurd hk (Nat.not_lt_zero k))
      fun ib i hi hf => absurd hf.1.1 (by omega)
    rw [BitVec.ofNat_eq_ofNat, BitVec.getLsbD_zero] at hbit
    exact absurd hbit Bool.false_ne_true
  · obtain ⟨x, rest, hkept⟩ := h.resolve_left fun h => hzero h.1
    have hm : 1 ≤ max 1 skip := Nat.le_max_left 1 skip
    have hchanged := @replicate_changed finished _ hm x rest
    obtain ⟨hnone, hlast⟩ := hchanged
    rw [← hkept] at hnone hlast
    have hfirst : ∀ ib i, i ≤ max 1 skip → First (kept ws skip) ib i → i = max 1 skip := by
      intro ib i hi hf
      by_contra hne
      exact changed_eq_zero_iff.mp (hnone i (by omega)) ib i (Nat.le_refl i) hf.1
    refine right_of_stops ⟨?_, ?_, fun k hk hcov => ?_⟩ hlast
      (fun k hk heq => hzero (heq.symm.trans (hnone k hk))) hfirst
    · rw [hkept, List.length_append, List.length_replicate, List.length_cons]
      omega
    · rw [covered_iff, hlast, BitVec.and_self]
    · rw [covered_iff, hnone k hk, BitVec.ofNat_eq_ofNat, BitVec.zero_and] at hcov
      exact hzero hcov.symm

/--
**Both counts give the first transitions if and only if there is no bit to wait for, or all bits
of the mask change at once, in the sample whose number is the clock that the count of a file
has.**
-/
theorem counts_right_iff (ws : List (BitVec 32)) (finished : BitVec 32) (skip : Nat) :
    Right ws finished skip ↔ AllAtOnce ws finished skip :=
  ⟨Right.allAtOnce, AllAtOnce.right⟩

/-- Bit 0 changes in sample 1, and bit 1 in sample 2: the count of a file has 1 for both. -/
theorem second_not_right : ¬Right [0, 1, 3] 3 0 := by
  intro hright
  rcases hright.allAtOnce with ⟨hzero, -⟩ | ⟨x, rest, hkept⟩
  · revert hzero
    decide
  · obtain ⟨rfl, hmore⟩ := List.cons.inj hkept
    have hnext := (List.cons.inj hmore).1
    revert hnext
    decide

end FirstEdge

end Acq400
