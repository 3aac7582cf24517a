/-
What a one-shot transfer hands to the DMA engine.

A call hands over `min nb 16` buffers, and the next one begins 16 further on.  So all the calls
are of one length, and as long as the engine takes them, `Taken` says what it has: the buffers of
the first calls, side by side.  After the last call that is the whole list just where the calls
come out even; otherwise the last call has read behind the list.
-/
import Acq400.Driver.AxiOneshot

namespace Acq400.RxChan

variable {cookie : Nat → Int} {blocks : Mem} {nb k : Nat} {c d : RxChan}

/-- No descriptor was refused. -/
def Succeeds (c : RxChan) : Prop := ∀ k, k < c.submitted → 0 ≤ c.cookie k

/-- What the transfer of `nb` buffers is to be. -/
structure OnceRight (blocks : Mem) (nb : Nat) (c : RxChan) : Prop where
  /-- On success, the engine has got the list. -/
  handed : c.Succeeds → c.handed = Reads.cells blocks 0 nb
  /-- Nothing behind the list was read. -/
  read : ∀ i ∈ c.read, i < nb

/-- The engine has taken `k` calls of `group` buffers, and nothing else. -/
structure Taken (cookie : Nat → Int) (blocks : Mem) (group k : Nat) (c : RxChan) : Prop where
  engine : c.cookie = cookie
  submitted : c.submitted = k
  accepted : ∀ j, j < k → 0 ≤ cookie j
  handed : c.handed = Reads.cells blocks 0 (group * k)
  read : c.read = List.range' 0 (group * k)

/-- It has refused call `k`, and taken those before. -/
structure Refused (cookie : Nat → Int) (group k : Nat) (c : RxChan) : Prop where
  engine : c.cookie = cookie
  submitted : c.submitted = k + 1
  refused : cookie k < 0
  accepted : ∀ j, j < k → 0 ≤ cookie j
  read : c.read = List.range' 0 (group * (k + 1))

theorem Taken.idle (cookie : Nat → Int) (blocks : Mem) (group : Nat) :
    Taken cookie blocks group 0 (idle cookie) :=
  ⟨rfl, rfl, fun _ hj => absurd hj (Nat.not_lt_zero _), rfl, rfl⟩

theorem Taken.submit {group : Nat} (h : Taken cookie blocks group k c) :
    (0 ≤ cookie k ∧ (c.submit blocks (group * k) group).1 = 0 ∧
        Taken cookie blocks group (k + 1) (c.submit blocks (group * k) group).2) ∨
      ((c.submit blocks (group * k) group).1 ≠ 0 ∧
        Refused cookie group k (c.submit blocks (group * k) group).2) := by
  have hread : c.read ++ List.range' (group * k) group = List.range' 0 (group * (k + 1)) := by
    rw [h.read, Nat.mul_succ]
    have := @List.range'_append_1 0 (group * k) group
    rwa [Nat.zero_add] at this
  have herror : c.submitError = decide (cookie k < 0) := by
    rw [submitError, h.engine, h.submitted]
  unfold RxChan.submit
  rw [herror]
  by_cases hneg : cookie k < 0
  · right
    rw [if_pos (decide_eq_true hneg)]
    refine ⟨show (-1 : Int) ≠ 0 by decide, ⟨h.engine, ?_, hneg, h.accepted, hread⟩⟩
    rw [h.submitted]
  · left
    rw [if_neg (by simpa using hneg)]
    refine ⟨by omega, rfl, ⟨h.engine, ?_, ?_, ?_, hread⟩⟩
    · rw [h.submitted]
    · intro j hj
      by_cases hjk : j = k
      · subst hjk
        omega
      · exact h.accepted j (by omega)
    · have := Reads.cells_append blocks 0 (group * k) group
      rw [Nat.zero_add] at this
      rw [h.handed, this, Nat.mul_succ]

/-- A call that is made begins at the end of those before: the first one does, and when there is
another one they are of full length. -/
theorem mul_maxsg_eq (h : k * maxsg < nb) : k * maxsg = min nb maxsg * k := by
  unfold maxsg at *
  cases k with
  | zero => rfl
  | succ k =>
      have : min nb 16 = 16 := by omega
      rw [this, Nat.mul_comm]

theorem sgLoop_succ (blocks : Mem) (nb turns ii : Nat) (c : RxChan) :
    sgLoop blocks nb (turns + 1) ii c =
      if ii < nb then
        if (c.submit blocks ii (min nb maxsg)).1 ≠ 0 then (c.submit blocks ii (min nb maxsg)).2
        else sgLoop blocks nb turns (ii + maxsg) (c.submit blocks ii (min nb maxsg)).2
      else c := rfl

/-- The list is done after `k` calls, and was not before. -/
def Done (nb k : Nat) : Prop := nb ≤ k * maxsg ∧ (0 < k → (k - 1) * maxsg < nb)

/-- The loop goes on to the end of the list, or to the first call that is refused. -/
theorem Taken.sgLoop : ∀ (turns k : Nat) (c : RxChan),
    Taken cookie blocks (min nb maxsg) k c → (0 < k → (k - 1) * maxsg < nb) →
    nb ≤ k * maxsg + turns →
    (∃ n, Taken cookie blocks (min nb maxsg) n (sgLoop blocks nb turns (k * maxsg) c) ∧
        Done nb n) ∨
      ∃ n, Refused cookie (min nb maxsg) n (sgLoop blocks nb turns (k * maxsg) c) ∧
        n * maxsg < nb := by
  intro turns
  induction turns with
  | zero =>
      intro k c h hk hturns
      exact Or.inl ⟨k, h, hturns, hk⟩
  | succ turns ih =>
      intro k c h hk hturns
      rw [sgLoop_succ]
      by_cases hlt : k * maxsg < nb
      · rw [if_pos hlt]
        have hfirst := mul_maxsg_eq hlt
        have hnext : (k + 1) * maxsg = k * maxsg + maxsg := Nat.succ_mul k maxsg
        rcases h.submit with ⟨-, hrc, htaken⟩ | ⟨hrc, hrefused⟩
        · rw [← hfirst] at hrc htaken
          rw [if_neg (not_not.mpr hrc), ← hnext]
          refine ih (k + 1) _ htaken (fun _ => hlt) ?_
          unfold maxsg at *
          omega
        · rw [← hfirst] at hrc hrefused
          rw [if_pos hrc]
          exact Or.inr ⟨k, hrefused, hlt⟩
      · rw [if_neg hlt]
        exact Or.inl ⟨k, h, Nat.le_of_not_lt hlt, hk⟩

theorem axi64DataOnce_eq (c : RxChan) (useSgAlways : Bool) (blocks : Mem) (nb : Nat) :
    c.axi64DataOnce useSgAlways blocks nb = sgLoop blocks nb nb 0 c := by
  unfold axi64DataOnce
  by_cases h : nb = 1 ∧ ¬useSgAlways
  · rw [if_pos h]
    obtain ⟨rfl, -⟩ := h
    rw [sgLoop_succ, if_pos Nat.one_pos, show min 1 maxsg = 1 from rfl]
    exact (ite_self _).symm
  · rw [if_neg h]

theorem Done.group_mul (h : Done nb k) (hnb : 1 ≤ nb) :
    min nb maxsg * k ≤ nb ↔ nb ≤ maxsg ∨ maxsg ∣ nb := by
  obtain ⟨hend, hlast⟩ := h
  unfold maxsg at *
  have hpos : 0 < k := by omega
  have hprev := hlast hpos
  by_cases hle : nb ≤ 16
  · have : k = 1 := by omega
    subst this
    omega
  · have : min nb 16 = 16 := by omega
    rw [this]
    omega

theorem Done.group_mul_eq (h : Done nb k) (hnb : 1 ≤ nb) (heven : nb ≤ maxsg ∨ maxsg ∣ nb) :
    min nb maxsg * k = nb := by
  have hle := (h.group_mul hnb).mpr heven
  obtain ⟨hend, hlast⟩ := h
  unfold maxsg at *
  have hpos : 0 < k := by omega
  have hprev := hlast hpos
  by_cases hsmall : nb ≤ 16
  · have : k = 1 := by omega
    subst this
    omega
  · have : min nb 16 = 16 := by omega
    rw [this] at hle ⊢
    omega

theorem Refused.not_succeeds {group : Nat} (h : Refused cookie group k c) : ¬c.Succeeds := by
  intro hs
  have := hs k (by rw [h.submitted]; exact Nat.lt_succ_self k)
  rw [h.engine] at this
  exact absurd h.refused (by omega)

theorem range'_lt_iff {n m : Nat} (hn : 0 < n) : (∀ i ∈ List.range' 0 n, i < m) ↔ n ≤ m := by
  simp only [List.mem_range'_1, Nat.zero_le, Nat.zero_add, true_and]
  constructor
  · intro h
    have := h (n - 1) (by omega)
    omega
  · intro h i hi
    omega

/-- The list comes out even in calls of 16, or a call that would not be the last is refused. -/
def Even (cookie : Nat → Int) (nb : Nat) : Prop :=
  nb ≤ maxsg ∨ maxsg ∣ nb ∨ ∃ k, (k + 1) * maxsg < nb ∧ cookie k < 0

theorem Taken.onceRight_iff (h : Taken cookie blocks (min nb maxsg) k c) (hdone : Done nb k)
    (hnb : 1 ≤ nb) : OnceRight blocks nb c ↔ Even cookie nb := by
  have hpos : 0 < k := by
    have := hdone.1
    unfold maxsg at this
    omega
  have hgroup : 0 < min nb maxsg * k := Nat.mul_pos (Nat.lt_min.mpr ⟨hnb, by decide⟩) hpos
  constructor
  · intro hright
    have hread := hright.read
    rw [h.read, range'_lt_iff hgroup, hdone.group_mul hnb] at hread
    exact hread.elim Or.inl fun hdvd => Or.inr (Or.inl hdvd)
  · intro heven
    have heven : nb ≤ maxsg ∨ maxsg ∣ nb := by
      rcases heven with hle | hdvd | ⟨j, hj, hneg⟩
      · exact Or.inl hle
      · exact Or.inr hdvd
      · have hjk : j < k := by
          have := hdone.1
          unfold maxsg at *
          omega
        exact absurd (h.accepted j hjk) (by omega)
    have heq := hdone.group_mul_eq hnb heven
    refine ⟨fun _ => by rw [h.handed, heq], ?_⟩
    rw [h.read, range'_lt_iff hgroup, heq]

theorem Refused.onceRight_iff (h : Refused cookie (min nb maxsg) k c) (hk : k * maxsg < nb) :
    OnceRight blocks nb c ↔ Even cookie nb := by
  have hgroup : 0 < min nb maxsg * (k + 1) := by
    refine Nat.mul_pos (Nat.lt_min.mpr ⟨by omega, by decide⟩) (Nat.succ_pos k)
  have hread : (∀ i ∈ c.read, i < nb) ↔ min nb maxsg * (k + 1) ≤ nb := by
    rw [h.read, range'_lt_iff hgroup]
  have hnext : (k + 1) * maxsg = k * maxsg + maxsg := Nat.succ_mul k maxsg
  -- the call that is refused is of full length, and ends inside the list
  have hends : min nb maxsg * (k + 1) ≤ nb ↔ nb ≤ maxsg ∨ (k + 1) * maxsg ≤ nb := by
    rw [Nat.mul_succ, ← mul_maxsg_eq hk, hnext]
    unfold maxsg at *
    omega
  constructor
  · intro hright
    rcases hends.mp (hread.mp hright.read) with hle | hle
    · exact Or.inl hle
    · rcases Nat.lt_or_eq_of_le hle with hlt | heq
      · exact Or.inr (Or.inr ⟨k, hlt, h.refused⟩)
      · exact Or.inr (Or.inl ⟨k + 1, by rw [← heq, Nat.mul_comm]⟩)
  · intro heven
    refine ⟨fun hs => absurd hs h.not_succeeds, hread.mpr (hends.mpr ?_)⟩
    rcases heven with hle | hdvd | ⟨j, hj, hneg⟩
    · exact Or.inl hle
    · right
      unfold maxsg at *
      omega
    · right
      have hkj : k ≤ j := by
        by_contra hlt
        exact absurd (h.accepted j (by omega)) (by omega)
      have : (k + 1) * maxsg ≤ (j + 1) * maxsg := Nat.mul_le_mul_right _ (by omega)
      omega

/--
**The buffers that the engine gets are those of the list, and nothing behind the list is read, if
and only if the list comes out even in calls of 16.**
-/
theorem axi64DataOnce_right_iff (cookie : Nat → Int) (useSgAlways : Bool) (blocks : Mem) (nb : Nat)
    (hnb : 1 ≤ nb) :
    OnceRight blocks nb ((idle cookie).axi64DataOnce useSgAlways blocks nb) ↔
      Even cookie nb := by
  rw [axi64DataOnce_eq]
  have hloop := (Taken.idle cookie blocks (min nb maxsg)).sgLoop nb 0 _
    (fun h => absurd h (Nat.lt_irrefl 0)) (by omega)
  rw [Nat.zero_mul] at hloop
  rcases hloop with ⟨n, htaken, hdone⟩ | ⟨n, hrefused, hlt⟩
  · exact htaken.onceRight_iff hdone hnb
  · exact hrefused.onceRight_iff hlt

theorem axi64DataOnce_right_sixteen :
    1 ≤ 16 ∧ (OnceRight (fun a => UInt8.ofNat a) 16
        ((idle fun _ => 1).axi64DataOnce false (fun a => UInt8.ofNat a) 16) ↔
      Even (fun _ => 1) 16) :=
  ⟨by decide, axi64DataOnce_right_iff (fun _ => 1) false (fun a => UInt8.ofNat a) 16 (by decide)⟩

/-- The line that is written to hand over seventeen buffers. -/
def seventeenBuffers : List Char := "0 1 2 3 4 5 6 7 8 9 10 11 12 13 14 15 16\n".toList

/-- The second call is for sixteen buffers again, and fifteen of them are not in the list. -/
theorem seventeenBuffers_not_right :
    (AxiOnce.scanned seventeenBuffers).length = 17 ∧
      ¬OnceRight (AxiOnce.stored (fun _ => 0) seventeenBuffers) 17
        (AxiOnce.write (idle fun _ => 1) false (fun _ => 0) seventeenBuffers).2.2 := by
  have hlength : (AxiOnce.scanned seventeenBuffers).length = 17 := by decide +kernel
  refine ⟨hlength, fun hright => ?_⟩
  have hread := hright.read 31
  unfold AxiOnce.write at hread
  rw [hlength] at hread
  exact absurd (hread (by decide +kernel)) (by decide)

end Acq400.RxChan

namespace Acq400.AxiOnce

end Acq400.AxiOnce
