/-
How the decoder finds the frames again.

Where the well-formed frames begin, the decoder stands at some word and expects some id.  If that is
the id of the word, it goes on without an error from there, whether it stands at the start of a
frame or not.  If it is not, there is an error, and the id of that word is what it expects where
`resync` ends: at the start of a frame.
-/
import Acq400.Stream.Acq435Decode
import Mathlib.Algebra.Order.Ring.Nat

namespace Acq400

namespace Acq435Decode

variable {input : Input} {start0 pos p ic imatch : Nat} {s s' t : Decoder} {ok : Bool}
  {oks : List Bool}

/-- Frames of 32 words from a place on, with their ids in order. -/
def Frames (input : Input) (start0 : Nat) : Prop := ∀ i, testId (input (start0 + i)) = i % 32

/-! ### `analyse` -/

theorem testId_lt (data : BitVec 32) : testId data < 32 := by
  have hmod : testId data = data.toNat % 2 ^ 5 := by
    unfold testId
    rw [BitVec.toNat_and]
    exact Nat.and_two_pow_sub_one_eq_mod data.toNat 5
  rw [hmod]
  exact Nat.mod_lt _ (by decide)

theorem incr_eq (ii : Nat) : incr ii = (ii + 1) % 32 :=
  Nat.and_two_pow_sub_one_eq_mod (ii + 1) 5

theorem Frames.testId (h : Frames input start0) (hpos : start0 ≤ pos) :
    Acq435Decode.testId (input pos) = (pos - start0) % 32 := by
  have hid := h (pos - start0)
  rwa [Nat.add_sub_cancel' hpos] at hid

theorem analyse_of_ids (n : Nat) :
    ∀ {pos imatch : Nat}, imatch < 32 →
      (∀ k < n, testId (input (pos + k)) = (imatch + k) % 32) →
      analyse input n pos imatch = (true, (imatch + n) % 32) := by
  induction n with
  | zero =>
      intro pos imatch hlt _
      rw [Nat.add_zero, Nat.mod_eq_of_lt hlt]
      rfl
  | succ n ih =>
      intro pos imatch hlt hids
      have hfirst := hids 0 (Nat.succ_pos n)
      rw [Nat.add_zero, Nat.add_zero, Nat.mod_eq_of_lt hlt] at hfirst
      rw [analyse, if_pos hfirst, incr_eq, ih (Nat.mod_lt _ (by decide))]
      · congr 1
        omega
      · intro k hk
        have hnext := hids (k + 1) (Nat.succ_lt_succ hk)
        rw [show pos + 1 + k = pos + (k + 1) by omega, hnext]
        omega

theorem ids_of_analyse (n : Nat) :
    ∀ {pos imatch last : Nat}, imatch < 32 → analyse input n pos imatch = (true, last) →
      last = (imatch + n) % 32 ∧ ∀ k < n, testId (input (pos + k)) = (imatch + k) % 32 := by
  induction n with
  | zero =>
      intro pos imatch last hlt h
      rw [Nat.add_zero, Nat.mod_eq_of_lt hlt]
      exact ⟨(Prod.mk.inj h).2.symm, fun k hk => absurd hk (Nat.not_lt_zero k)⟩
  | succ n ih =>
      intro pos imatch last hlt h
      rw [analyse] at h
      split at h
      · rename_i hfirst
        rw [incr_eq] at h
        obtain ⟨hlast, hids⟩ := ih (Nat.mod_lt _ (by decide)) h
        refine ⟨by omega, fun k hk => ?_⟩
        cases k with
        | zero => rw [Nat.add_zero, Nat.add_zero, hfirst, Nat.mod_eq_of_lt hlt]
        | succ k =>
            have hnext := hids k (Nat.lt_of_succ_lt_succ hk)
            rw [show pos + (k + 1) = pos + 1 + k by omega, hnext]
            omega
      · cases h

/-! ### `resync` -/

theorem resync_succ (input : Input) (fuel pos ic : Nat) :
    resync input (fuel + 1) pos ic =
      if next ic (testId (input pos)) = 32 then some (pos + 1)
      else resync input fuel (pos + 1) (next ic (testId (input pos))) := rfl

/-- `resync` ends, with this place. -/
def Resyncs (input : Input) (pos ic p : Nat) : Prop := ∃ fuel, resync input fuel pos ic = some p

theorem Resyncs.last (h : next ic (testId (input pos)) = 32) : Resyncs input pos ic (pos + 1) :=
  ⟨1, (resync_succ input 0 pos ic).trans (if_pos h)⟩

theorem Resyncs.step (hne : next ic (testId (input pos)) ≠ 32)
    (h : Resyncs input (pos + 1) (next ic (testId (input pos))) p) : Resyncs input pos ic p := by
  obtain ⟨fuel, hfuel⟩ := h
  refine ⟨fuel + 1, ?_⟩
  rw [resync_succ, if_neg hne, hfuel]

theorem Resyncs.cases (h : Resyncs input pos ic p) :
    next ic (testId (input pos)) = 32 ∧ p = pos + 1 ∨
      next ic (testId (input pos)) ≠ 32 ∧
        Resyncs input (pos + 1) (next ic (testId (input pos))) p := by
  obtain ⟨fuel, hfuel⟩ := h
  cases fuel with
  | zero => cases hfuel
  | succ fuel =>
      rw [resync_succ] at hfuel
      by_cases hlast : next ic (testId (input pos)) = 32
      · rw [if_pos hlast] at hfuel
        exact .inl ⟨hlast, (Option.some.inj hfuel).symm⟩
      · rw [if_neg hlast] at hfuel
        exact .inr ⟨hlast, fuel, hfuel⟩

theorem Resyncs.unique {p' : Nat} (h : Resyncs input pos ic p) :
    Resyncs input pos ic p' → p = p' := by
  obtain ⟨fuel, hfuel⟩ := h
  induction fuel generalizing pos ic with
  | zero => cases hfuel
  | succ fuel ih =>
      intro h'
      rw [resync_succ] at hfuel
      rcases h'.cases with ⟨hlast, rfl⟩ | ⟨hne, hrest⟩
      · rw [if_pos hlast] at hfuel
        exact (Option.some.inj hfuel).symm
      · rw [if_neg hne] at hfuel
        exact ih hfuel hrest

theorem Resyncs.lt (h : Resyncs input pos ic p) : pos < p := by
  obtain ⟨fuel, hfuel⟩ := h
  induction fuel generalizing pos ic with
  | zero => cases hfuel
  | succ fuel ih =>
      rw [resync_succ] at hfuel
      split at hfuel
      · exact (Option.some.inj hfuel) ▸ Nat.lt_succ_self pos
      · exact Nat.lt_of_succ_lt (ih hfuel)

theorem next_of_le (h : 4 ≤ ic) (id : Nat) : next ic id = ic + 1 := by
  obtain ⟨k, rfl⟩ := Nat.exists_eq_add_of_le' h
  rfl

theorem next_le (h : ic ≤ 31) (id : Nat) : next ic id ≤ 32 := by
  unfold next
  split
  all_goals first | omega | (split <;> decide)

/-- Behind four ids, words are counted. -/
theorem resyncs_count (input : Input) (left : Nat) :
    ∀ {pos ic : Nat}, 4 ≤ ic → ic + left = 31 → Resyncs input pos ic (pos + left + 1) := by
  induction left with
  | zero =>
      intro pos ic hic hleft
      refine .last ?_
      rw [next_of_le hic]
      omega
  | succ left ih =>
      intro pos ic hic hleft
      refine .step ?_ ?_
      · rw [next_of_le hic]
        omega
      · rw [next_of_le hic, show pos + (left + 1) + 1 = pos + 1 + left + 1 by omega]
        exact ih (by omega) (by omega)

section frames

variable (h : Frames input start0)
include h

/-- From the start of a frame, `resync` reads it. -/
theorem resyncs_frame (hpos : start0 ≤ pos) (hframe : (pos - start0) % 32 = 0) :
    Resyncs input pos 0 (pos + 32) := by
  have h0 : testId (input pos) = 0 := by rw [h.testId hpos, hframe]
  have h1 : testId (input (pos + 1)) = 1 := by rw [h.testId (by omega)]; omega
  have h2 : testId (input (pos + 2)) = 2 := by rw [h.testId (by omega)]; omega
  have h3 : testId (input (pos + 3)) = 3 := by rw [h.testId (by omega)]; omega
  refine .step (by rw [h0]; decide) ?_
  rw [h0]
  refine .step (by rw [h1]; decide) ?_
  rw [h1]
  refine .step (by rw [h2]; decide) ?_
  rw [h2]
  refine .step (by rw [h3]; decide) ?_
  rw [h3]
  exact resyncs_count input 27 (by decide) rfl

/-- From within a frame, it reads the next one too. -/
theorem resyncs_within (left : Nat) :
    ∀ {pos : Nat}, start0 ≤ pos → (pos - start0) % 32 + left = 31 → (pos - start0) % 32 ≠ 0 →
      Resyncs input pos 0 (pos + left + 33) := by
  induction left with
  | zero =>
      intro pos hpos hleft hne
      have hid := h.testId hpos
      have hzero : next 0 (testId (input pos)) = 0 := by
        rw [hid]
        exact if_neg hne
      refine .step (by rw [hzero]; decide) ?_
      rw [hzero, show pos + 0 + 33 = pos + 1 + 32 by omega]
      exact resyncs_frame h (by omega) (by omega)
  | succ left ih =>
      intro pos hpos hleft hne
      have hid := h.testId hpos
      have hzero : next 0 (testId (input pos)) = 0 := by
        rw [hid]
        exact if_neg hne
      refine .step (by rw [hzero]; decide) ?_
      rw [hzero, show pos + (left + 1) + 33 = pos + 1 + left + 33 by omega]
      exact ih (by omega) (by omega) (by omega)

/-- Where `resync` ends, of what it has counted where the frames begin. -/
theorem resyncs_landing (hic : ic ≤ 31) : ∃ p, Resyncs input start0 ic p ∧ p ≤ start0 + 64 ∧
    ((p - start0) % 32 = 0 ↔ ic < 4) ∧ ((p - start0) % 32 ≠ 0 → p ≤ start0 + 31) := by
  have h0 : testId (input start0) = 0 := by
    rw [h.testId (Nat.le_refl _), Nat.sub_self]
  by_cases hfour : 4 ≤ ic
  · refine ⟨_, resyncs_count input (31 - ic) hfour (by omega), by omega, by omega, ?_⟩
    intro _
    omega
  · by_cases hzero : ic = 0
    · subst hzero
      refine ⟨_, resyncs_frame h (Nat.le_refl _) (by omega), by omega, by omega, ?_⟩
      intro hne
      omega
    · -- the first id of the frame is not the one that is looked for
      have hback : next ic (testId (input start0)) = 0 := by
        have hthree : ic = 1 ∨ ic = 2 ∨ ic = 3 := by omega
        rw [h0]
        rcases hthree with rfl | rfl | rfl <;> rfl
      refine ⟨start0 + 1 + 30 + 33, .step (by rw [hback]; decide) ?_, by omega, by omega, ?_⟩
      · rw [hback]
        exact resyncs_within h 30 (by omega) (by omega) (by omega)
      · intro hne
        omega

/-- From a place in front of the frames, `resync` ends there, or it comes to where they begin. -/
theorem resyncs_before (left : Nat) :
    ∀ pos ic : Nat, pos + left = start0 → ic ≤ 31 → ∃ p, Resyncs input pos ic p ∧
      (start0 ≤ p → p ≤ start0 + 64 ∧ ((p - start0) % 32 ≠ 0 → p ≤ start0 + 31)) := by
  induction left with
  | zero =>
      intro pos ic hpos hic
      obtain rfl : pos = start0 := hpos
      obtain ⟨p, hp, hle, -, hwithin⟩ := resyncs_landing h hic
      exact ⟨p, hp, fun _ => ⟨hle, hwithin⟩⟩
  | succ left ih =>
      intro pos ic hpos hic
      by_cases hlast : next ic (testId (input pos)) = 32
      · refine ⟨pos + 1, .last hlast, fun hle => ?_⟩
        omega
      · have hle := next_le hic (testId (input pos))
        obtain ⟨p, hp, hwhere⟩ := ih (pos + 1) (next ic (testId (input pos))) (by omega) (by omega)
        exact ⟨p, .step hlast hp, hwhere⟩

theorem resyncs_total (pos : Nat) : ∃ p, Resyncs input pos 0 p ∧
    (pos < start0 + 32 → start0 ≤ p →
      p ≤ start0 + 64 ∧ ((p - start0) % 32 ≠ 0 → p ≤ start0 + 31)) ∧
    (start0 ≤ pos → p = pos + 32 + (32 - (pos - start0) % 32) % 32) := by
  by_cases hbefore : pos < start0
  · obtain ⟨p, hp, hwhere⟩ := resyncs_before h (start0 - pos) pos 0 (by omega) (by decide)
    exact ⟨p, hp, fun _ => hwhere, fun hle => absurd hbefore (Nat.not_lt.mpr hle)⟩
  · by_cases hframe : (pos - start0) % 32 = 0
    · refine ⟨_, resyncs_frame h (by omega) hframe, fun _ _ => ⟨by omega, fun hne => ?_⟩, ?_⟩
      · omega
      · intro _
        omega
    · refine ⟨_, resyncs_within h (31 - (pos - start0) % 32) (by omega) (by omega) hframe,
        fun _ _ => ⟨by omega, fun hne => ?_⟩, ?_⟩
      · omega
      · intro _
        omega

end frames

/-! ### A turn -/

theorem Turn.unique {ok' : Bool} (h : Turn input s ok s') (h' : Turn input s ok' t) :
    ok = ok' ∧ s' = t := by
  cases h with
  | good hgood =>
      cases h' with
      | good hgood' =>
          obtain ⟨-, rfl⟩ := Prod.mk.inj (hgood.symm.trans hgood')
          exact ⟨rfl, rfl⟩
      | bad hbad => exact absurd (Prod.mk.inj (hgood.symm.trans hbad)).1 (by decide)
  | bad hbad hresync =>
      cases h' with
      | good hgood => exact absurd (Prod.mk.inj (hbad.symm.trans hgood)).1 (by decide)
      | bad hbad' hresync' =>
          obtain ⟨-, rfl⟩ := Prod.mk.inj (hbad.symm.trans hbad')
          obtain rfl := Resyncs.unique ⟨_, hresync⟩ ⟨_, hresync'⟩
          exact ⟨rfl, rfl⟩

theorem Turn.pos_le (h : Turn input s ok s') : s.pos + 32 ≤ s'.pos := by
  cases h with
  | good _ => exact Nat.le_refl _
  | bad _ hresync => exact Nat.le_of_lt (Resyncs.lt ⟨_, hresync⟩)

theorem Turns.append {oks' : List Bool} (h : Turns input s oks s') (h' : Turns input s' oks' t) :
    Turns input s (oks ++ oks') t := by
  induction h with
  | nil => exact h'
  | cons hturn _ ih => exact .cons hturn (ih h')

theorem Turns.concat (h : Turns input s oks s') (h' : Turn input s' ok t) :
    Turns input s (oks ++ [ok]) t := h.append (.cons h' .nil)

theorem Turns.split : ∀ {oks : List Bool} {s : Decoder}, Turns input s (oks ++ [ok]) t →
    ∃ s', Turns input s oks s' ∧ Turn input s' ok t := by
  intro oks
  induction oks with
  | nil =>
      intro s h
      cases h with
      | cons hturn hnil =>
          cases hnil
          exact ⟨s, .nil, hturn⟩
  | cons ok' oks ih =>
      intro s h
      cases h with
      | cons hturn hrest =>
          obtain ⟨s', hs', hlast⟩ := ih hrest
          exact ⟨s', .cons hturn hs', hlast⟩

/-- Of two runs, one goes on from where the other has come to. -/
theorem Turns.meet {oks' : List Bool} (h : Turns input s oks s') (h' : Turns input s oks' t) :
    (∃ more, Turns input s' more t) ∨ ∃ more, Turns input t more s' := by
  induction h generalizing oks' t with
  | nil => exact .inl ⟨_, h'⟩
  | cons hturn hturns ih =>
      cases h' with
      | nil => exact .inr ⟨_, .cons hturn hturns⟩
      | cons hturn' hturns' =>
          obtain ⟨rfl, rfl⟩ := hturn.unique hturn'
          exact ih hturns'

theorem Turns.pos_le (h : Turns input s oks t) : s.pos ≤ t.pos := by
  induction h with
  | nil => exact Nat.le_refl _
  | cons hturn _ ih => exact (Nat.le_of_add_right_le hturn.pos_le).trans ih

section turns

variable (h : Frames input start0)
include h

theorem turn_total (s : Decoder) : ∃ ok s', Turn input s ok s' := by
  obtain ⟨p, ⟨fuel, hp⟩, -⟩ := resyncs_total h (s.pos + nc)
  cases hanalyse : analyse input nc s.pos s.imatch with
  | mk ok imatch =>
      cases ok with
      | true => exact ⟨true, _, .good hanalyse⟩
      | false => exact ⟨false, _, .bad hanalyse hp⟩

/-- The id of the next word is the one that is expected. -/
def InStep (input : Input) (s : Decoder) : Prop := s.imatch = testId (input s.pos)

theorem turn_inStep (hpos : start0 ≤ s.pos) (hstep : InStep input s) :
    Turn input s true ⟨s.pos + 32, s.imatch⟩ := by
  have hlt : s.imatch < 32 := by
    rw [hstep]
    exact testId_lt _
  have hids : ∀ k < 32, testId (input (s.pos + k)) = (s.imatch + k) % 32 := by
    intro k _
    rw [hstep, h.testId hpos, h.testId (by omega)]
    omega
  have hgood := analyse_of_ids 32 hlt hids
  rw [show (s.imatch + 32) % 32 = s.imatch by omega] at hgood
  exact .good hgood

/-- In step, there is no error any more, and the place in the frame stays the same. -/
theorem turns_inStep (hturns : Turns input s oks t) (hpos : start0 ≤ s.pos)
    (hstep : InStep input s) :
    (∀ ok ∈ oks, ok = true) ∧ (t.pos - start0) % 32 = (s.pos - start0) % 32 := by
  induction hturns with
  | nil => exact ⟨fun ok hok => absurd hok List.not_mem_nil, rfl⟩
  | @cons s s' t ok oks hturn _ ih =>
      obtain ⟨rfl, rfl⟩ := hturn.unique (turn_inStep h hpos hstep)
      have hnext : InStep input ⟨s.pos + 32, s.imatch⟩ := by
        unfold InStep
        rw [hstep, h.testId hpos, h.testId (by dsimp only; omega)]
        dsimp only
        omega
      obtain ⟨hall, hplace⟩ := ih (by dsimp only; omega) hnext
      refine ⟨fun ok hok => ?_, ?_⟩
      · rcases List.mem_cons.mp hok with rfl | hin
        · rfl
        · exact hall ok hin
      · rw [hplace]
        dsimp only
        omega

/-- Out of step, there is an error, and the id of the next word is expected behind it, at the
start of a frame. -/
theorem turn_outOfStep (hpos : start0 ≤ s.pos) (hstep : ¬InStep input s) :
    Turn input s false
      ⟨s.pos + 64 + (32 - (s.pos - start0) % 32) % 32, (s.pos - start0) % 32⟩ := by
  have hbad : analyse input nc s.pos s.imatch = (false, (s.pos - start0) % 32) := by
    unfold nc
    rw [analyse, if_neg fun heq => hstep heq.symm, h.testId hpos]
  obtain ⟨p, ⟨fuel, hp⟩, -, hwhere⟩ := resyncs_total h (s.pos + nc)
  have hend : p = s.pos + 64 + (32 - (s.pos - start0) % 32) % 32 := by
    rw [hwhere (by unfold nc; omega)]
    unfold nc
    omega
  rw [hend] at hp
  exact .bad hbad hp

/-- The decoder stands at the start of a frame. -/
def Aligned (start0 : Nat) (s : Decoder) : Prop := start0 ≤ s.pos ∧ (s.pos - start0) % 32 = 0

theorem turn_aligned (hs : Aligned start0 s) (hturn : Turn input s ok s') :
    Aligned start0 s' := by
  obtain ⟨hpos, hframe⟩ := hs
  by_cases hstep : InStep input s
  · obtain ⟨-, rfl⟩ := hturn.unique (turn_inStep h hpos hstep)
    exact ⟨by dsimp only; omega, by dsimp only; omega⟩
  · obtain ⟨-, rfl⟩ := hturn.unique (turn_outOfStep h hpos hstep)
    exact ⟨by dsimp only; omega, by dsimp only; omega⟩

theorem turns_aligned (hturns : Turns input s oks t) (hs : Aligned start0 s) :
    Aligned start0 t := by
  induction hturns with
  | nil => exact hs
  | cons hturn _ ih => exact ih (turn_aligned h hs hturn)

/-- Where the decoder comes to the frames. -/
theorem turn_enters (hbefore : s.pos < start0) (hturn : Turn input s ok s')
    (hpos : start0 ≤ s'.pos) :
    s'.pos ≤ start0 + 64 ∧ ((s'.pos - start0) % 32 ≠ 0 → s'.pos ≤ start0 + 31) := by
  cases hturn with
  | good _ =>
      unfold nc
      dsimp only
      exact ⟨by omega, fun _ => by omega⟩
  | @bad _ fuel p _ hresync =>
      obtain ⟨p', hp', hwhere, -⟩ := resyncs_total h (s.pos + nc)
      obtain rfl : p = p' := Resyncs.unique ⟨fuel, hresync⟩ hp'
      exact hwhere (by unfold nc; omega) hpos

end turns

/-! ### The run -/

/-- The first state in which the decoder stands in the frames, and the results before. -/
def Enters (input : Input) (start0 : Nat) (oks : List Bool) (s : Decoder) : Prop :=
  start0 ≤ s.pos ∧ (oks = [] ∧ s = start ∨ ∃ before s1 ok, oks = before ++ [ok] ∧
    Turns input start before s1 ∧ s1.pos < start0 ∧ Turn input s1 ok s)

theorem Enters.turns (h : Enters input start0 oks s) : Turns input start oks s := by
  obtain ⟨-, ⟨rfl, rfl⟩ | ⟨before, s1, ok, rfl, hturns, -, hturn⟩⟩ := h
  · exact .nil
  · exact hturns.concat hturn

section run

variable (h : Frames input start0)
include h

theorem exists_enters : ∃ oks s, Enters input start0 oks s := by
  have hfrom : ∀ left oks s, Turns input start oks s → s.pos < start0 →
      start0 ≤ s.pos + left → ∃ oks s, Enters input start0 oks s := by
    intro left
    induction left with
    | zero =>
        intro oks s _ hbefore hleft
        omega
    | succ left ih =>
        intro oks s hturns hbefore hleft
        obtain ⟨ok, s', hturn⟩ := turn_total h s
        have hle := hturn.pos_le
        by_cases hpos : start0 ≤ s'.pos
        · exact ⟨_, s', hpos, .inr ⟨oks, s, ok, rfl, hturns, hbefore, hturn⟩⟩
        · exact ih _ s' (hturns.concat hturn) (by omega) (by omega)
  by_cases hstart : start0 = 0
  · exact ⟨[], start, by rw [hstart]; exact Nat.zero_le _, .inl ⟨rfl, rfl⟩⟩
  · exact hfrom start0 [] start .nil (Nat.pos_of_ne_zero hstart) (Nat.le_add_left _ _)

theorem Enters.pos_le (hs : Enters input start0 oks s) :
    s.pos ≤ start0 + 64 ∧ ((s.pos - start0) % 32 ≠ 0 → s.pos ≤ start0 + 31) := by
  obtain ⟨hpos, ⟨-, rfl⟩ | ⟨before, s1, ok, -, -, hbefore, hturn⟩⟩ := hs
  · have hzero : start.pos = 0 := rfl
    exact ⟨by omega, fun hne => by omega⟩
  · exact turn_enters h hbefore hturn hpos

omit h in
/-- Up to the first error, the words are in order. -/
theorem ids_of_turns (n : Nat) :
    ∀ {s t : Decoder}, s.imatch = 0 → Turns input s (List.replicate n true) t →
      t.pos = s.pos + 32 * n ∧ t.imatch = 0 ∧
        ∀ k < 32 * n, testId (input (s.pos + k)) = k % 32 := by
  induction n with
  | zero =>
      intro s t hs hturns
      cases hturns
      exact ⟨rfl, hs, fun k hk => absurd hk (Nat.not_lt_zero k)⟩
  | succ n ih =>
      intro s t hs hturns
      rw [List.replicate_succ] at hturns
      cases hturns with
      | cons hturn hturns =>
          cases hturn with
          | good hgood =>
              rw [hs] at hgood
              obtain ⟨hlast, hids⟩ := ids_of_analyse nc (by decide) hgood
              have hzero : (0 + nc) % 32 = 0 := rfl
              obtain ⟨hpos, himatch, hrest⟩ := ih (hlast.trans hzero) hturns
              refine ⟨?_, himatch, fun k hk => ?_⟩
              · rw [hpos]
                unfold nc
                dsimp only
                omega
              · by_cases hfirst : k < 32
                · rw [hids k hfirst, Nat.zero_add]
                · have hnext := hrest (k - 32) (by omega)
                  unfold nc at hnext
                  dsimp only at hnext
                  rw [show s.pos + k = s.pos + 32 + (k - 32) by omega, hnext]
                  omega

/-- The first error is in front of the frames. -/
theorem first_error_before {n : Nat} (hturns : Turns input start (List.replicate n true) s)
    (hturn : Turn input s false s') : s.pos < start0 := by
  obtain ⟨hpos, himatch, hids⟩ := ids_of_turns n rfl hturns
  have hzero : start.pos = 0 := rfl
  by_contra hge
  have hframe : (s.pos - start0) % 32 = 0 := by
    by_cases heq : start0 = s.pos
    · rw [heq, Nat.sub_self]
    · have hid := hids start0 (by omega)
      rw [hzero, Nat.zero_add, h.testId (Nat.le_refl _), Nat.sub_self] at hid
      omega
  have hstep : InStep input s := by
    unfold InStep
    rw [himatch, h.testId (by omega), hframe]
  exact absurd (hturn.unique (turn_inStep h (by omega) hstep)).1 (by decide)

end run

/-! ### What is right -/

/-- All analyses succeeded but for the last one. -/
def FirstError (oks : List Bool) : Prop := ∃ n, oks = List.replicate n true ++ [false]

/-- The decoder finds the frames again. -/
structure Right (input : Input) (start0 : Nat) : Prop where
  goesOn : ∀ s, ∃ ok s', Turn input s ok s'
  /-- It stands at the start of a frame, within the first three, and stays there. -/
  aligned : ∃ oks s, Turns input start oks s ∧ s.pos ≤ start0 + 96 ∧
    ∀ oks' t, Turns input s oks' t → Aligned start0 t
  /-- One disturbance gives one error. -/
  once : ∀ oks s, FirstError oks → Turns input start oks s → start0 ≤ s.pos →
    ∀ oks' t, Turns input s oks' t → ∀ ok ∈ oks', ok = true

/-- The decoder comes to the frames at the start of one and in step, or out of step and not from
the first error. -/
def ComesInStep (input : Input) (oks : List Bool) (s : Decoder) : Prop :=
  InStep input s ∧ testId (input s.pos) = 0 ∨ ¬InStep input s ∧ ¬FirstError oks

theorem enters_of_first_error (h : Frames input start0) (hfirst : FirstError oks)
    (hturns : Turns input start oks s) (hpos : start0 ≤ s.pos) : Enters input start0 oks s := by
  obtain ⟨n, rfl⟩ := hfirst
  obtain ⟨s1, hgood, hbad⟩ := hturns.split
  exact ⟨hpos, .inr ⟨_, s1, false, rfl, hgood, first_error_before h hgood hbad, hbad⟩⟩

/-! ### The first error -/

/-- The end of the 32 words with place `e`. -/
def blockEnd (e : Nat) : Nat := 32 * (e / 32 + 1)

/-- What `resync` has counted of some words. -/
def counted (input : Input) (pos : Nat) : Nat → Nat
  | 0 => 0
  | n + 1 => next (counted input pos n) (testId (input (pos + n)))

/-- The first word that is out of order is the one at `e`, and `resync` does not end in front of
the frames. -/
structure FirstBad (input : Input) (start0 e : Nat) : Prop where
  before : ∀ i < e, testId (input i) = i % 32
  bad : testId (input e) ≠ e % 32
  goesOn : ∀ n, blockEnd e + n ≤ start0 → counted input (blockEnd e) n ≠ 32

theorem counted_le {n : Nat} (hne : ∀ m ≤ n, counted input pos m ≠ 32) :
    counted input pos n ≤ 31 := by
  induction n with
  | zero => exact Nat.zero_le _
  | succ n ih =>
      have hle := next_le (ih fun m hm => hne m (Nat.le_succ_of_le hm)) (testId (input (pos + n)))
      have hlast := hne (n + 1) (Nat.le_refl _)
      rw [counted] at hlast ⊢
      omega

theorem resyncs_counted {n : Nat} (hne : ∀ m ≤ n, counted input pos m ≠ 32)
    (h : Resyncs input (pos + n) (counted input pos n) p) : Resyncs input pos 0 p := by
  induction n with
  | zero => exact h
  | succ n ih =>
      refine ih (fun m hm => hne m (Nat.le_succ_of_le hm)) (.step ?_ h)
      exact hne (n + 1) (Nat.le_refl _)

/-- The word that is out of order ends an analysis, and its id is expected behind it. -/
theorem analyse_bad (j : Nat) :
    ∀ {n pos imatch : Nat}, imatch < 32 → j < n →
      (∀ k < j, testId (input (pos + k)) = (imatch + k) % 32) →
      testId (input (pos + j)) ≠ (imatch + j) % 32 →
      analyse input n pos imatch = (false, testId (input (pos + j))) := by
  induction j with
  | zero =>
      intro n pos imatch hlt hj _ hbad
      rw [Nat.add_zero, Nat.add_zero, Nat.mod_eq_of_lt hlt] at hbad
      cases n with
      | zero => exact absurd hj (Nat.lt_irrefl 0)
      | succ n => rw [analyse, if_neg hbad, Nat.add_zero]
  | succ j ih =>
      intro n pos imatch hlt hj hids hbad
      cases n with
      | zero => exact absurd hj (Nat.not_lt_zero _)
      | succ n =>
          have hfirst := hids 0 (Nat.succ_pos j)
          rw [Nat.add_zero, Nat.add_zero, Nat.mod_eq_of_lt hlt] at hfirst
          have hshift : ∀ k, pos + 1 + k = pos + (k + 1) := by
            intro k
            omega
          rw [analyse, if_pos hfirst, incr_eq, ih (Nat.mod_lt _ (by decide)) (by omega), hshift]
          · intro k hk
            rw [hshift, hids (k + 1) (by omega)]
            omega
          · rw [hshift]
            intro heq
            exact hbad (heq.trans (by omega))

theorem turns_good (n : Nat) :
    ∀ {pos : Nat}, (∀ k < 32 * n, testId (input (pos + k)) = k % 32) →
      Turns input ⟨pos, 0⟩ (List.replicate n true) ⟨pos + 32 * n, 0⟩ := by
  induction n with
  | zero => intro pos _; exact .nil
  | succ n ih =>
      intro pos hids
      have hgood : analyse input nc pos 0 = (true, 0) :=
        analyse_of_ids nc (by decide) fun k hk => by
          unfold nc at hk
          rw [hids k (by omega), Nat.zero_add]
      have hnext : ∀ k < 32 * n, testId (input (pos + 32 + k)) = k % 32 := by
        intro k hk
        rw [Nat.add_assoc, hids (32 + k) (by omega)]
        omega
      have hrest := ih hnext
      rw [Nat.add_assoc, show 32 + 32 * n = 32 * (n + 1) by omega] at hrest
      exact .cons (.good hgood) hrest

variable {e : Nat}

/-- The state behind the first error. -/
theorem first_error (h : Frames input start0) (hbad : FirstBad input start0 e) :
    ∃ oks s, FirstError oks ∧ Enters input start0 oks s ∧ s.imatch = testId (input e) ∧
      ((s.pos - start0) % 32 = 0 ↔
        start0 ≤ blockEnd e ∨ counted input (blockEnd e) (start0 - blockEnd e) < 4) := by
  have hblock : blockEnd e = 32 * (e / 32) + 32 := by
    unfold blockEnd
    omega
  have hgood : Turns input start (List.replicate (e / 32) true) ⟨0 + 32 * (e / 32), 0⟩ :=
    turns_good (e / 32) fun k hk => by rw [Nat.zero_add, hbad.before k (by omega)]
  rw [Nat.zero_add] at hgood
  have hanalyse : analyse input nc (32 * (e / 32)) 0 = (false, testId (input e)) := by
    have hplace : 32 * (e / 32) + e % 32 = e := Nat.div_add_mod e 32
    have hmiss : analyse input nc (32 * (e / 32)) 0 =
        (false, testId (input (32 * (e / 32) + e % 32))) := by
      refine analyse_bad (e % 32) (by decide) (Nat.mod_lt _ (by decide)) (fun k hk => ?_) ?_
      · rw [hbad.before _ (by omega)]
        omega
      · rw [hplace, Nat.zero_add, Nat.mod_mod]
        exact hbad.bad
    rwa [hplace] at hmiss
  have hend : ∃ p, Resyncs input (blockEnd e) 0 p ∧ start0 ≤ p ∧ ((p - start0) % 32 = 0 ↔
      start0 ≤ blockEnd e ∨ counted input (blockEnd e) (start0 - blockEnd e) < 4) := by
    by_cases hin : start0 ≤ blockEnd e
    · obtain ⟨p, hp, -, hwhere⟩ := resyncs_total h (blockEnd e)
      have hp' := hwhere hin
      exact ⟨p, hp, by omega, iff_of_true (by omega) (.inl hin)⟩
    · have hne : ∀ m ≤ start0 - blockEnd e, counted input (blockEnd e) m ≠ 32 :=
        fun m hm => hbad.goesOn m (by omega)
      obtain ⟨p, hp, -, hframe, -⟩ := resyncs_landing h (counted_le hne)
      have hreach : blockEnd e + (start0 - blockEnd e) = start0 := by omega
      have hresync : Resyncs input (blockEnd e) 0 p := by
        refine resyncs_counted hne ?_
        rw [hreach]
        exact hp
      exact ⟨p, hresync, Nat.le_of_lt hp.lt, hframe.trans (or_iff_right hin).symm⟩
  obtain ⟨p, ⟨fuel, hp⟩, hpos, hframe⟩ := hend
  rw [hblock] at hp
  have hturn : Turn input ⟨32 * (e / 32), 0⟩ false ⟨p, testId (input e)⟩ := .bad hanalyse hp
  have hfirst : FirstError (List.replicate (e / 32) true ++ [false]) := ⟨_, rfl⟩
  exact ⟨_, _, hfirst, enters_of_first_error h hfirst (hgood.concat hturn) hpos, rfl, hframe⟩

/-- The decoder comes to the frames in one state only. -/
theorem Enters.unique {oks' : List Bool} (hs : Enters input start0 oks s)
    (ht : Enters input start0 oks' t) : s = t := by
  have hmore : ∀ {oks oks' : List Bool} {s t : Decoder}, Enters input start0 oks s →
      Enters input start0 oks' t → ∃ more, Turns input s more t := by
    intro oks oks' s t hs ht
    obtain ⟨hpos, ⟨-, rfl⟩ | ⟨before, s1, ok, -, hturns, hbefore, hturn⟩⟩ := hs
    · exact ⟨oks', ht.turns⟩
    · rcases hturns.meet ht.turns with ⟨more, hmore⟩ | ⟨more, hmore⟩
      · cases hmore with
        | nil => exact absurd hbefore (Nat.not_lt.mpr ht.1)
        | cons hturn' hrest =>
            obtain ⟨-, rfl⟩ := hturn.unique hturn'
            exact ⟨_, hrest⟩
      · exact absurd (ht.1.trans hmore.pos_le) (Nat.not_le.mpr hbefore)
  obtain ⟨more, hst⟩ := hmore hs ht
  obtain ⟨more', hts⟩ := hmore ht hs
  cases hst with
  | nil => rfl
  | cons hturn hrest =>
      have h1 := hturn.pos_le
      have h2 := hrest.pos_le
      have h3 := hts.pos_le
      omega

/-- The frames are found again exactly where the decoder comes to them in step, at the start of
one, or out of step and not from the first error. -/
theorem resynced_iff (h : Frames input start0) :
    Right input start0 ↔ ∀ oks s, Enters input start0 oks s → ComesInStep input oks s := by
  constructor
  · intro hright oks s hs
    have hpos := hs.1
    by_cases hstep : InStep input s
    · -- in step it stays at its place in the frame, and that is the start of one in the end
      refine .inl ⟨hstep, ?_⟩
      obtain ⟨oks', s', hturns, -, haligned⟩ := hright.aligned
      have hplace : ∀ t, Aligned start0 t → (∃ more, Turns input s more t) →
          (s.pos - start0) % 32 = 0 := by
        intro t ht hmore
        obtain ⟨more, hmore⟩ := hmore
        rw [← (turns_inStep h hmore hpos hstep).2]
        exact ht.2
      rw [h.testId hpos]
      rcases hs.turns.meet hturns with hmore | ⟨more, hmore⟩
      · exact hplace s' (haligned [] s' .nil) hmore
      · exact (haligned more s hmore).2
    · refine .inr ⟨hstep, fun hfirst => ?_⟩
      have hbad := turn_outOfStep h hpos hstep
      have hall := hright.once oks s hfirst hs.turns hpos _ _ (.cons hbad .nil)
      exact absurd (hall false List.mem_cons_self) (by decide)
  · intro hcomes
    refine ⟨turn_total h, ?_, fun oks s hfirst hturns hpos oks' t hmore => ?_⟩
    · obtain ⟨oks, s, hs⟩ := exists_enters h
      obtain ⟨hle, hwithin⟩ := hs.pos_le h
      have hpos := hs.1
      by_cases hframe : (s.pos - start0) % 32 = 0
      · exact ⟨oks, s, hs.turns, by omega, fun oks' t hmore =>
          turns_aligned h hmore ⟨hpos, hframe⟩⟩
      · -- within a frame it is out of step, and the error takes it to the start of one
        have hstep : ¬InStep input s := by
          rcases hcomes oks s hs with ⟨-, hzero⟩ | ⟨hstep, -⟩
          · rw [h.testId hpos] at hzero
            exact absurd hzero hframe
          · exact hstep
        have hbad := turn_outOfStep h hpos hstep
        refine ⟨_, _, hs.turns.concat hbad, ?_, fun oks' t hmore => turns_aligned h hmore ?_⟩
        · have := hwithin hframe
          dsimp only
          omega
        · exact ⟨by dsimp only; omega, by dsimp only; omega⟩
    · rcases hcomes oks s (enters_of_first_error h hfirst hturns hpos) with ⟨hstep, -⟩ | ⟨-, hnot⟩
      · exact (turns_inStep h hmore hpos hstep).1
      · exact absurd hfirst hnot

/--
**The frames are found again exactly where the decoder comes to them in step, at the start of one,
or out of step and not from the first error.**  Where the first error takes it to them, this is
where the first word out of order has the id 0, and `resync` has not counted four ids or more
where the frames begin.
-/
theorem decoder_right_iff (input : Input) (start0 : Nat) (h : Frames input start0) :
    (Right input start0 ↔ ∀ oks s, Enters input start0 oks s → ComesInStep input oks s) ∧
      ∀ e, FirstBad input start0 e →
        (Right input start0 ↔ testId (input e) = 0 ∧
          (start0 ≤ blockEnd e ∨ counted input (blockEnd e) (start0 - blockEnd e) < 4)) := by
  refine ⟨resynced_iff h, fun e hbad => ?_⟩
  obtain ⟨oks, s, hfirst, hs, himatch, hframe⟩ := first_error h hbad
  have hid := h.testId hs.1
  have hstep : InStep input s ↔ testId (input e) = (s.pos - start0) % 32 := by
    unfold InStep
    rw [himatch, hid]
  rw [resynced_iff h, ← hframe]
  constructor
  · intro hcomes
    rcases hcomes oks s hs with ⟨hin, hzero⟩ | ⟨-, hnot⟩
    · rw [hid] at hzero
      exact ⟨(hstep.mp hin).trans hzero, hzero⟩
    · exact absurd hfirst hnot
  · rintro ⟨hzero, hplace⟩ oks' s' hs'
    obtain rfl := hs.unique hs'
    exact .inl ⟨hstep.mpr (hzero.trans hplace.symm), hid.trans hplace⟩

/-- A word, and frames behind it. -/
def wordAndFrames (word : BitVec 32) : Input := fun i =>
  if i = 0 then word else BitVec.ofNat 32 ((i - 1) % 32)

theorem frames_wordAndFrames (word : BitVec 32) : Frames (wordAndFrames word) 1 := by
  intro i
  have hid : ∀ k < 32, testId (BitVec.ofNat 32 k) = k := by decide
  unfold wordAndFrames
  rw [if_neg (by omega), Nat.add_sub_cancel_left]
  exact hid _ (Nat.mod_lt _ (by decide))

theorem firstBad_second : FirstBad (wordAndFrames 0) 1 1 := by
  refine ⟨fun i hi => ?_, by decide, fun n hn => absurd hn (by unfold blockEnd; omega)⟩
  obtain rfl := Nat.lt_one_iff.mp hi
  rfl

/-- The second word is out of order, and has the id 0. -/
theorem zero_word_right : Right (wordAndFrames 0) 1 :=
  ((decoder_right_iff (wordAndFrames 0) 1 (frames_wordAndFrames 0)).2 1 firstBad_second).mpr
    ⟨rfl, .inl (by decide)⟩

theorem firstBad_first : FirstBad (wordAndFrames 5) 1 0 :=
  ⟨fun i hi => absurd hi (Nat.not_lt_zero i), by decide,
    fun n hn => absurd hn (by unfold blockEnd; omega)⟩

/-- The id 5 is expected at the start of a frame. -/
theorem other_word_not_right :
    ¬∀ (input : Input) (start0 : Nat), Frames input start0 → Right input start0 := by
  intro h
  have hframes := frames_wordAndFrames 5
  obtain ⟨oks, s, hfirst, hs, himatch, hframe⟩ := first_error hframes firstBad_first
  have hplace := hframe.mpr (.inl (by decide))
  have hstep : ¬InStep (wordAndFrames 5) s := by
    unfold InStep
    rw [himatch, hframes.testId hs.1, hplace]
    decide
  have hall := (h _ 1 hframes).once oks s hfirst hs.turns hs.1 _ _
    (.cons (turn_outOfStep hframes hs.1 hstep) .nil)
  exact absurd (hall false List.mem_cons_self) (by decide)

end Acq435Decode

end Acq400
