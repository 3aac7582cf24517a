/-
The 32-bit `int` of C.

A conversion to `int` or to `unsigned` keeps the low 32 bits.  Signed arithmetic
that leaves the range of `int` has no defined value, and neither has a division
by zero: both are `none`.
-/
import Mathlib.Algebra.Group.Nat.Defs
import Mathlib.Data.Int.Init
import Mathlib.Tactic.Common
import Mathlib.Data.Rat.Floor
import Mathlib.Tactic.Linarith

namespace CInt

/-- `x` is a value of type `int`. -/
def InRange (x : Int) : Prop := -2147483648 ≤ x ∧ x < 2147483648

instance (x : Int) : Decidable (InRange x) := inferInstanceAs (Decidable (_ ∧ _))

/-- A conversion to `int`. -/
def wrap (x : Int) : Int := x.bmod 4294967296

/-- A conversion to `unsigned`. -/
def unsigned (x : Int) : Int := x % 4294967296

/-- The value of an expression of type `int`. -/
def value (x : Int) : Option Int := if InRange x then some x else none

/-- `a/b`, rounded towards zero. -/
def div (a b : Int) : Option Int := if b = 0 then none else some (a.tdiv b)

theorem inRange_of_lt {n : Nat} (h : n < 2 ^ 31) : InRange n := by
  unfold InRange
  omega

theorem wrap_of_inRange {x : Int} (h : InRange x) : wrap x = x := by
  unfold InRange at h
  unfold wrap
  rw [Int.bmod_def]
  split
  · omega
  · omega

theorem inRange_wrap (x : Int) : InRange (wrap x) :=
  ⟨Int.le_bmod (by decide), Int.bmod_lt (by decide)⟩

theorem wrap_eq_self_iff {x : Int} : wrap x = x ↔ InRange x := by
  refine ⟨fun heq => ?_, wrap_of_inRange⟩
  have hwrap := inRange_wrap x
  rwa [heq] at hwrap

theorem wrap_natCast {n : Nat} (h : n < 2 ^ 31) : wrap n = n := wrap_of_inRange (inRange_of_lt h)

theorem wrap_add (x y : Int) : wrap (wrap x + y) = wrap (x + y) := Int.bmod_add_bmod

theorem unsigned_natCast {n : Nat} (h : n < 2 ^ 32) : unsigned n = n := by
  unfold unsigned
  omega

theorem value_of_inRange {x : Int} (h : InRange x) : value x = some x := if_pos h

theorem value_eq_some {x y : Int} : value x = some y ↔ InRange x ∧ x = y := by
  unfold value
  split
  · rename_i h
    simp [h]
  · rename_i h
    simp [h]

theorem value_natCast {n : Nat} (h : n < 2 ^ 31) : value n = some (n : Int) :=
  value_of_inRange (inRange_of_lt h)

theorem value_natCast_none {n : Nat} (h : 2 ^ 31 ≤ n) : value n = none := by
  unfold value
  rw [if_neg]
  unfold InRange
  omega

@[simp] theorem div_zero (a : Int) : div a 0 = none := if_pos rfl

theorem div_natCast (a : Nat) {b : Nat} (hb : 0 < b) : div a b = some ((a / b : Nat) : Int) := by
  unfold div
  rw [if_neg (by omega), Int.ofNat_tdiv]

/-- `a - a/b*b`. -/
theorem sub_div_mul (a b : Nat) : (a : Int) - (a / b : Nat) * (b : Int) = (a % b : Nat) := by
  have := Nat.div_add_mod' a b
  rw [← Int.natCast_mul]
  omega

end CInt

/-! ### Doubles

Conversions of an exact real to an integer type of C.

A conversion drops the fraction.  A value whose whole part is not in the range of the
type has no defined result: `none`.
-/

namespace CDouble

/-- The whole part of `x`, rounded towards zero. -/
def trunc (x : ℚ) : Int := if 0 ≤ x then ⌊x⌋ else ⌈x⌉

/-- A conversion to a type with the values from `lo` on below `hi`. -/
def toInt (lo hi : Int) (x : ℚ) : Option Int :=
  if lo ≤ trunc x ∧ trunc x < hi then some (trunc x) else none

/-- A conversion to `unsigned`. -/
def toUnsigned (x : ℚ) : Option Nat := (toInt 0 4294967296 x).map Int.toNat

/-- A conversion to `long`, which has `w` bits. -/
def toLong (w : Nat) (x : ℚ) : Option Int := toInt (-2 ^ (w - 1)) (2 ^ (w - 1)) x

theorem trunc_of_nonneg {x : ℚ} (h : 0 ≤ x) : trunc x = ⌊x⌋ := if_pos h

@[simp] theorem trunc_natCast (n : Nat) : trunc n = n := by
  rw [trunc_of_nonneg (Nat.cast_nonneg n), Int.floor_natCast]

theorem toUnsigned_of_lt {x : ℚ} (h0 : 0 ≤ x) (h : x < 4294967296) :
    toUnsigned x = some ⌊x⌋.toNat := by
  have hlo : 0 ≤ trunc x := by
    rw [trunc_of_nonneg h0]
    exact Int.floor_nonneg.mpr h0
  have hhi : trunc x < 4294967296 := by
    rw [trunc_of_nonneg h0, Int.floor_lt]
    exact_mod_cast h
  rw [toUnsigned, toInt, if_pos ⟨hlo, hhi⟩, trunc_of_nonneg h0]
  rfl

/-- What a conversion gives is not above the value. -/
theorem le_of_toUnsigned {x : ℚ} {n : Nat} (h0 : 0 ≤ x) (h : toUnsigned x = some n) :
    (n : ℚ) ≤ x := by
  rw [toUnsigned, toInt, trunc_of_nonneg h0] at h
  split at h
  · rw [Option.map_some, Option.some.injEq] at h
    rw [← h, ← Int.cast_natCast, Int.toNat_of_nonneg (Int.floor_nonneg.mpr h0)]
    exact Int.floor_le x
  · simp at h

theorem toLong_natCast {w n : Nat} (h : n < 2 ^ (w - 1)) : toLong w n = some (n : Int) := by
  have hlo : (-2 ^ (w - 1) : Int) ≤ n := by
    have : (0 : Int) < 2 ^ (w - 1) := by positivity
    omega
  have hhi : (n : Int) < 2 ^ (w - 1) := by exact_mod_cast h
  rw [toLong, toInt, trunc_natCast, if_pos ⟨hlo, hhi⟩]

/-- A conversion of a whole number gives that number or nothing. -/
theorem eq_of_toLong_natCast {w n : Nat} {v : Int} (h : toLong w n = some v) : v = n := by
  rw [toLong, toInt, trunc_natCast] at h
  split at h
  · exact (Option.some.inj h).symm
  · simp at h

end CDouble
