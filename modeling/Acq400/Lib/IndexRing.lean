/-
Indices that go round.

The indices from `lo` up to `hi` form a ring: behind the last one comes `lo` again.
`next` and `prev` go one place on and one place back, and `(next lo hi)^[k]` is where
`k` places on is.  What is needed of them is that they undo each other, and that
nothing less than the whole way round leads back to where one was.
-/
import Mathlib.Algebra.Group.Nat.Defs
import Mathlib.Logic.Function.Iterate
import Mathlib.Tactic.SplitIfs

namespace IndexRing

variable {lo hi i j k : Nat}

/-- One of the indices. -/
def InRing (lo hi i : Nat) : Prop := lo ≤ i ∧ i < hi

instance : Decidable (InRing lo hi i) := inferInstanceAs (Decidable (_ ∧ _))

/-- The place behind `i`. -/
def next (lo hi i : Nat) : Nat := if hi - 1 ≤ i then lo else i + 1

/-- The place before `i`. -/
def prev (lo hi i : Nat) : Nat := if i = lo then hi - 1 else i - 1

theorem InRing.next (h : InRing lo hi i) : InRing lo hi (next lo hi i) := by
  unfold InRing IndexRing.next at *
  split <;> omega

theorem InRing.prev (h : InRing lo hi i) : InRing lo hi (prev lo hi i) := by
  unfold InRing IndexRing.prev at *
  split <;> omega

theorem prev_next (h : InRing lo hi i) : prev lo hi (next lo hi i) = i := by
  unfold InRing prev next at *
  split_ifs <;> omega

theorem next_prev (h : InRing lo hi i) : next lo hi (prev lo hi i) = i := by
  unfold InRing prev next at *
  split_ifs <;> omega

theorem InRing.iterate_next (h : InRing lo hi i) (k : Nat) :
    InRing lo hi ((IndexRing.next lo hi)^[k] i) := by
  induction k generalizing i with
  | zero => exact h
  | succ k ih => exact ih h.next

theorem InRing.iterate_prev (h : InRing lo hi i) (k : Nat) :
    InRing lo hi ((IndexRing.prev lo hi)^[k] i) := by
  induction k generalizing i with
  | zero => exact h
  | succ k ih => exact ih h.prev

/-- Where `k` places on is. -/
theorem iterate_next_eq (h : InRing lo hi i) (k : Nat) :
    (next lo hi)^[k] i = lo + (i - lo + k) % (hi - lo) := by
  induction k with
  | zero =>
      unfold InRing at h
      rw [Function.iterate_zero_apply, Nat.add_zero, Nat.mod_eq_of_lt (by omega)]
      omega
  | succ k ih =>
      rw [Function.iterate_succ_apply', ih, ← Nat.add_assoc, Nat.add_mod _ 1]
      have hpos : 0 < hi - lo := by unfold InRing at h; omega
      have hlt := Nat.mod_lt (i - lo + k) hpos
      generalize (i - lo + k) % (hi - lo) = r at hlt ⊢
      unfold next
      rcases Nat.lt_or_ge (r + 1) (hi - lo) with hr | hr
      · have hone : 1 % (hi - lo) = 1 := Nat.mod_eq_of_lt (by omega)
        rw [if_neg (by omega), hone, Nat.mod_eq_of_lt hr, Nat.add_assoc]
      · have hlen : hi - lo = r + 1 := by omega
        rw [if_pos (by omega), hlen, Nat.add_mod_mod, Nat.mod_self, Nat.add_zero]

/-- Short of the end nothing goes round. -/
theorem iterate_next_of_lt (hk : i + k < hi) : (next lo hi)^[k] i = i + k := by
  induction k with
  | zero => rfl
  | succ k ih =>
      rw [Function.iterate_succ_apply', ih (by omega)]
      unfold next
      rw [if_neg (by omega), Nat.add_assoc]

/-- From the end on what has gone round starts at `lo`. -/
theorem iterate_next_of_ge (h : InRing lo hi i) (hk : k < hi - lo) (hend : hi ≤ i + k) :
    (next lo hi)^[k] i = lo + (i + k - hi) := by
  unfold InRing at h
  rw [iterate_next_eq h, Nat.mod_eq_sub_mod (by omega), Nat.mod_eq_of_lt (by omega)]
  omega

/-- Nothing less than the whole way round leads back. -/
theorem iterate_next_ne (h : InRing lo hi i) (hpos : 0 < k) (hk : k < hi - lo) :
    (next lo hi)^[k] i ≠ i := by
  unfold InRing at h
  rcases Nat.lt_or_ge (i + k) hi with hlt | hge
  · rw [iterate_next_of_lt hlt]
    omega
  · rw [iterate_next_of_ge h hk hge]
    omega

theorem iterate_next_iterate_prev (h : InRing lo hi i) (k : Nat) :
    (next lo hi)^[k] ((prev lo hi)^[k] i) = i := by
  induction k generalizing i with
  | zero => rfl
  | succ k ih =>
      rw [Function.iterate_succ_apply', Function.iterate_succ_apply, ih h.prev, next_prev h]

theorem iterate_prev_iterate_next (h : InRing lo hi i) (k : Nat) :
    (prev lo hi)^[k] ((next lo hi)^[k] i) = i := by
  induction k generalizing i with
  | zero => rfl
  | succ k ih =>
      rw [Function.iterate_succ_apply', Function.iterate_succ_apply, ih h.next, prev_next h]

theorem iterate_prev_ne (h : InRing lo hi i) (hpos : 0 < k) (hk : k < hi - lo) :
    (prev lo hi)^[k] i ≠ i := by
  intro heq
  refine iterate_next_ne h hpos hk ?_
  rw [← congrArg (next lo hi)^[k] heq, iterate_next_iterate_prev h]

/-- Going back from any place leads to any other, after the whole way round at the latest. -/
theorem exists_iterate_prev (hi' : InRing lo hi i) (hj : InRing lo hi j) :
    ∃ k, 0 < k ∧ k ≤ hi - lo ∧ (prev lo hi)^[k] i = j := by
  unfold InRing at hi' hj
  rcases Nat.lt_or_ge j i with hlt | hge
  · refine ⟨i - j, by omega, by omega, ?_⟩
    have hon : (next lo hi)^[i - j] j = i := by
      rw [iterate_next_of_lt (by omega)]
      omega
    have hback := iterate_prev_iterate_next hj (i - j)
    rwa [hon] at hback
  · refine ⟨i + (hi - lo) - j, by omega, by omega, ?_⟩
    have hon : (next lo hi)^[i + (hi - lo) - j] j = i := by
      rw [iterate_next_eq hj, show j - lo + (i + (hi - lo) - j) = i - lo + (hi - lo) by omega,
        Nat.add_mod_right, Nat.mod_eq_of_lt (by omega)]
      omega
    have hback := iterate_prev_iterate_next hj (i + (hi - lo) - j)
    rwa [hon] at hback

end IndexRing
