/-
Putting things in order by swaps.

What lies at the positions is to be brought into the order `o`: position 1 is to
get `o 1`, position 2 then `o 2`, and so on, each by a swap with the position where
it lies at that time.  `place o k` is the arrangement after `k` swaps, as a
permutation from positions to what was there at first.  The positions up to `k`
hold what they are to hold (`place_done`); what is in nobody's order has been sent
from place to place, and `Lands` follows it.
-/
import Mathlib.Logic.Equiv.Basic

namespace Place

/-- Swap position `k` with the one that holds `o k`, for every `k` from 1. -/
def place (o : Nat → Nat) : Nat → Equiv.Perm Nat
  | 0 => Equiv.refl Nat
  | k + 1 => (Equiv.swap (k + 1) ((place o k).symm (o (k + 1)))).trans (place o k)

/-- `c`, pushed out of each place up to `n` by the one that belongs there, ends at `q`. -/
inductive Lands (o : Nat → Nat) (n : Nat) : Nat → Nat → Prop
  | stay {c : Nat} (h : c = 0 ∨ n < c) : Lands o n c c
  | push {c q : Nat} (hpos : 0 < c) (hle : c ≤ n) (h : Lands o n (o c) q) : Lands o n c q

/-- Nobody among the first `n` is in the order twice. -/
def Distinct (o : Nat → Nat) (n : Nat) : Prop :=
  ∀ i j, 0 < i → i < j → j ≤ n → o i ≠ o j

/-- `c` is not among the first `n` of the order. -/
def Free (o : Nat → Nat) (n c : Nat) : Prop := ∀ i, 0 < i → i ≤ n → o i ≠ c

variable {o : Nat → Nat} {n k c q r : Nat}

theorem Distinct.mono (h : Distinct o n) (hk : k ≤ n) : Distinct o k := by
  intro i j hi hij hj
  exact h i j hi hij (Nat.le_trans hj hk)

theorem Free.mono (h : Free o n c) (hk : k ≤ n) : Free o k c := by
  intro i hi hik
  exact h i hi (Nat.le_trans hik hk)

theorem Distinct.free_next (h : Distinct o (k + 1)) : Free o k (o (k + 1)) := by
  intro i hi hik
  exact h i (k + 1) hi (by omega) (by omega)

/-! ### Where the pushed ones land -/

theorem Lands.unique (h : Lands o n c q) : ∀ {r}, Lands o n c r → q = r := by
  induction h with
  | stay hc =>
      intro r hr
      cases hr with
      | stay _ => rfl
      | push hpos hle _ => omega
  | push hpos hle _ ih =>
      intro r hr
      cases hr with
      | stay hc => omega
      | push _ _ hr => exact ih hr

/-- One more place to be filled does not concern what has not landed there. -/
theorem Lands.succ (h : Lands o k c q) (hq : q ≠ k + 1) : Lands o (k + 1) c q := by
  induction h with
  | stay hc => exact Lands.stay (by omega)
  | push hpos hle _ ih => exact Lands.push hpos (by omega) (ih hq)

/-- What has landed in the next place to be filled is pushed on. -/
theorem Lands.pushed (h : Lands o k c (k + 1)) (hr : Lands o (k + 1) (o (k + 1)) r) :
    Lands o (k + 1) c r := by
  generalize hq : k + 1 = q at h
  induction h with
  | stay _ =>
      subst hq
      exact Lands.push (by omega) (by omega) hr
  | push hpos hle _ ih => exact Lands.push hpos (by omega) (ih hq)

/-! ### The arrangement -/

@[simp] theorem place_zero : place o 0 = Equiv.refl Nat := rfl

theorem place_succ_apply :
    place o (k + 1) q
      = place o k (Equiv.swap (k + 1) ((place o k).symm (o (k + 1))) q) := rfl

/-- The swap brings the next one to its place. -/
theorem place_next : place o (k + 1) (k + 1) = o (k + 1) := by
  rw [place_succ_apply, Equiv.swap_apply_left, Equiv.apply_symm_apply]

/-- **Every position that has been filled holds what it is to hold.** -/
theorem place_done : ∀ {k}, Distinct o k → ∀ j, 0 < j → j ≤ k → place o k j = o j := by
  intro k
  induction k with
  | zero => intro _ j hj hle; omega
  | succ k ih =>
      intro hdist j hj hle
      rcases Nat.lt_or_ge k j with hlt | hle
      · have hjk : j = k + 1 := by omega
        subst hjk
        exact place_next
      · have hkept : place o k j = o j := ih (hdist.mono (by omega)) j hj hle
        have hne : j ≠ (place o k).symm (o (k + 1)) := by
          intro heq
          rw [heq, Equiv.apply_symm_apply, ← heq] at hkept
          exact hdist.free_next j hj hle hkept.symm
        rw [place_succ_apply, Equiv.swap_apply_of_ne_of_ne (by omega) hne, hkept]

/-- **What is not in the order is where it lands.** -/
theorem place_free :
    ∀ {k}, Distinct o k → ∀ {c}, Free o k c → Lands o k c ((place o k).symm c) := by
  intro k
  induction k with
  | zero =>
      intro _ c _
      exact Lands.stay (Nat.eq_zero_or_pos c)
  | succ k ih =>
      intro hdist c hfree
      have hbefore := hdist.mono (Nat.le_succ k)
      have hc : Lands o k c ((place o k).symm c) := ih hbefore (hfree.mono (Nat.le_succ k))
      have hnext : Lands o k (o (k + 1)) ((place o k).symm (o (k + 1))) :=
        ih hbefore hdist.free_next
      have hne : o (k + 1) ≠ c := hfree (k + 1) (by omega) (Nat.le_refl _)
      have hpos : (place o k).symm (o (k + 1)) ≠ (place o k).symm c := by
        intro heq
        exact hne ((place o k).symm.injective heq)
      have hsymm : (place o (k + 1)).symm c
          = Equiv.swap (k + 1) ((place o k).symm (o (k + 1))) ((place o k).symm c) := rfl
      rw [hsymm]
      by_cases hhere : (place o k).symm c = k + 1
      · -- it lies where the next one belongs, and goes where that one lay
        rw [hhere, Equiv.swap_apply_left]
        rw [hhere] at hc hpos
        exact hc.pushed (hnext.succ hpos)
      · rw [Equiv.swap_apply_of_ne_of_ne hhere hpos.symm]
        exact hc.succ hhere

/-- Where one that is not in the order lies in the end. -/
theorem place_eq_iff (hdist : Distinct o n) (hfree : Free o n c) :
    place o n q = c ↔ Lands o n c q := by
  rw [← Equiv.eq_symm_apply]
  constructor
  · intro heq
    rw [heq]
    exact place_free hdist hfree
  · intro h
    exact h.unique (place_free hdist hfree)

/-- What is in no place to be filled and not in the order stays. -/
theorem place_fixed (hdist : Distinct o n) (hfree : Free o n c) (hc : c = 0 ∨ n < c) :
    place o n c = c :=
  (place_eq_iff hdist hfree).mpr (Lands.stay hc)

/-! ### Positions that are left alone -/

/-- The first `n` of the order are different ones of those from 1 to before `top`. -/
structure Within (o : Nat → Nat) (n top : Nat) : Prop where
  distinct : Distinct o n
  pos : ∀ i, 0 < i → i ≤ n → 0 < o i
  lt : ∀ i, 0 < i → i ≤ n → o i < top
  length_lt : n < top

namespace Within

variable {top : Nat}

theorem place_zero (h : Within o n top) (hk : k ≤ n) : place o k 0 = 0 := by
  apply place_fixed (h.distinct.mono hk) _ (Or.inl rfl)
  intro i hi hik
  exact Nat.ne_of_gt (h.pos i hi (Nat.le_trans hik hk))

theorem place_top (h : Within o n top) (hk : k ≤ n) (hc : top ≤ c) : place o k c = c := by
  have hlt := h.length_lt
  apply place_fixed (h.distinct.mono hk) _ (Or.inr (by omega))
  intro i hi hik
  exact Nat.ne_of_lt (Nat.lt_of_lt_of_le (h.lt i hi (Nat.le_trans hik hk)) hc)

theorem symm_pos (h : Within o n top) (hk : k ≤ n) (hc : 0 < c) : 0 < (place o k).symm c := by
  apply Nat.pos_of_ne_zero
  intro heq
  rw [Equiv.symm_apply_eq, h.place_zero hk] at heq
  omega

theorem symm_lt (h : Within o n top) (hk : k ≤ n) (hc : c < top) :
    (place o k).symm c < top := by
  by_contra hge
  have hfix := h.place_top hk (Nat.not_lt.mp hge)
  rw [Equiv.apply_symm_apply] at hfix
  omega

theorem place_pos (h : Within o n top) (hk : k ≤ n) (hq : 0 < q) : 0 < place o k q := by
  apply Nat.pos_of_ne_zero
  intro heq
  have hzero := (place o k).injective (heq.trans (h.place_zero hk).symm)
  omega

theorem place_lt (h : Within o n top) (hk : k ≤ n) (hq : q < top) : place o k q < top := by
  by_contra hge
  have hfix := (place o k).injective (h.place_top hk (Nat.not_lt.mp hge))
  omega

end Within

end Place
