/-
Cells laid out in pairs of rows.

Memory is cut into rows of `len` cells, and a stream of cells is in every other row: it
fills row 0, then row 2, then row 4.  The rows between have a second stream beside it.
`even` says where a cell of the first stream is; the cell beside it is one row on.
-/
import Mathlib.Data.Nat.Basic
import Mathlib.Order.Monotone.Defs
import Mathlib.Tactic.Ring

namespace PairRows

/-- Row and place are determined by the number of the cell. -/
theorem mul_add_inj {k q q' r r' : Nat} (hr : r < k) (hr' : r' < k)
    (heq : q * k + r = q' * k + r') : q = q' ∧ r = r' := by
  have hk : 0 < k := by omega
  have h1 : (q * k + r) / k = q ∧ (q * k + r) % k = r :=
    (Nat.div_mod_unique hk).mpr ⟨by rw [Nat.mul_comm k]; omega, hr⟩
  have h2 : (q * k + r) / k = q' ∧ (q * k + r) % k = r' :=
    (Nat.div_mod_unique hk).mpr ⟨by rw [Nat.mul_comm k]; omega, hr'⟩
  exact ⟨h1.1.symm.trans h2.1, h1.2.symm.trans h2.2⟩

variable {len i j k : Nat}

/-- Where cell `i` of the first stream is. -/
def even (len i : Nat) : Nat := i / len * (2 * len) + i % len

theorem even_eq_row (len i : Nat) : even len i = 2 * (i / len) * len + i % len := by
  unfold even
  ring

theorem even_eq_add (len i : Nat) : even len i = i + i / len * len := by
  have hsum := Nat.div_add_mod' i len
  rw [even_eq_row, Nat.mul_assoc]
  omega

theorem even_div (hlen : 0 < len) : even len i / len = 2 * (i / len) := by
  rw [even_eq_row, Nat.add_comm, Nat.add_mul_div_right _ _ hlen,
    Nat.div_eq_of_lt (Nat.mod_lt i hlen), Nat.zero_add]

theorem even_mod : even len i % len = i % len := by
  rw [even_eq_row, Nat.add_comm, Nat.add_mul_mod_self_right, Nat.mod_mod]

theorem even_injective (hlen : 0 < len) : Function.Injective (even len) := by
  intro i j h
  have hdiv : 2 * (i / len) = 2 * (j / len) := by rw [← even_div hlen, ← even_div hlen, h]
  have hmod : i % len = j % len := by rw [← even_mod, ← even_mod (i := j), h]
  rw [← Nat.div_add_mod' i len, ← Nat.div_add_mod' j len, hmod,
    Nat.eq_of_mul_eq_mul_left Nat.zero_lt_two hdiv]

/-- An address whose row is even is that of a cell. -/
theorem even_of_row {a : Nat} (h : a / len % 2 = 0) :
    even len (a / len / 2 * len + a % len) = a := by
  rcases Nat.eq_zero_or_pos len with rfl | hlen
  · simp [even]
  · have hrow : (a / len / 2 * len + a % len) / len = a / len / 2 := by
      rw [Nat.add_comm, Nat.add_mul_div_right _ _ hlen, Nat.div_eq_of_lt (Nat.mod_lt a hlen),
        Nat.zero_add]
    have hcell : (a / len / 2 * len + a % len) % len = a % len := by
      rw [Nat.add_comm, Nat.add_mul_mod_self_right, Nat.mod_mod]
    have htwo : 2 * (a / len / 2) = a / len := by omega
    rw [even_eq_row, hrow, hcell, htwo]
    exact Nat.div_add_mod' a len

/-- Within a row the stream goes on cell by cell. -/
theorem even_add (h : i % len + k < len) : even len (i + k) = even len i + k := by
  have hlen : 0 < len := by omega
  have hdiv : (i + k) / len = i / len := by
    rw [Nat.add_div hlen, Nat.mod_eq_of_lt (by omega : k < len),
      Nat.div_eq_of_lt (by omega : k < len), if_neg (by omega)]
    rfl
  have hmod : (i + k) % len = i % len + k := by
    rw [Nat.add_mod, Nat.mod_eq_of_lt (by omega : k < len), Nat.mod_eq_of_lt h]
  rw [even, even, hdiv, hmod]
  omega

theorem even_sub (h : k ≤ i % len) : even len (i - k) = even len i - k := by
  rcases Nat.eq_zero_or_pos len with rfl | hlen
  · simp [even]
  · have hle := Nat.le_trans h (Nat.mod_le i len)
    have hlt := Nat.mod_lt i hlen
    have hsum := Nat.div_add_mod' i len
    have hdivmod : (i - k) / len = i / len ∧ (i - k) % len = i % len - k := by
      rw [Nat.div_mod_unique hlen, Nat.mul_comm]
      omega
    rw [even, even, hdivmod.1, hdivmod.2]
    omega

/-- The stream goes on cell by cell as far as the end of the row, and no further. -/
theorem even_add_iff (hlen : 0 < len) : even len (i + k) = even len i + k ↔ i % len + k < len := by
  refine ⟨fun h => ?_, even_add⟩
  have hdiv : (i + k) / len = i / len := by
    rw [even_eq_add, even_eq_add] at h
    exact Nat.eq_of_mul_eq_mul_right hlen (by omega)
  have hsum := Nat.div_add_mod' i len
  have hnext := Nat.div_add_mod' (i + k) len
  have hlt := Nat.mod_lt (i + k) hlen
  rw [hdiv] at hnext
  omega

end PairRows
