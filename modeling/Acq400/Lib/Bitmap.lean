/-
A set of small numbers, kept as the bits of an array of words.

Number `i` is bit `i % w` of word `i / w`.  Testing a bit is an and with a word
that has only that bit, adding a number is an or with it, and what the two
operations mean for the set does not depend on how many words there are.
-/
import Mathlib.Data.Nat.Notation
import Mathlib.Tactic.Common

namespace Bitmap

variable {w n : Nat}

/-- The number `i` is in the set. -/
def has (map : Vector (BitVec w) n) (i : Nat) : Bool := (map[i / w]?.getD 0).getLsbD (i % w)

/-- The set with one bit more. -/
def add (map : Vector (BitVec w) n) (ix bit : Nat) (word : BitVec w) : Vector (BitVec w) n :=
  map.setIfInBounds ix (word ||| 1#w <<< bit)

theorem and_bit_ne_zero (word : BitVec w) {bit : Nat} (hbit : bit < w) :
    word &&& 1#w <<< bit ≠ 0 ↔ word.getLsbD bit = true := by
  rw [← BitVec.twoPow_eq, BitVec.and_twoPow]
  cases hb : word.getLsbD bit with
  | false => simp
  | true =>
      have hne : BitVec.twoPow w bit ≠ 0 := fun h => by
        have := congrArg (·.getLsbD bit) h
        simp [hbit] at this
      simpa using hne

theorem has_of_getElem? {map : Vector (BitVec w) n} {i : Nat} {word : BitVec w}
    (h : map[i / w]? = some word) : has map i = word.getLsbD (i % w) := by
  rw [has, h, Option.getD_some]

theorem not_has_of_le {map : Vector (BitVec w) n} {i : Nat} (hw : 0 < w) (h : n * w ≤ i) :
    has map i = false := by
  have hle : n ≤ i / w := (Nat.le_div_iff_mul_le hw).mpr h
  rw [has, Vector.getElem?_eq_none hle]
  simp

theorem has_replicate_zero (i : Nat) : has (Vector.replicate n (0 : BitVec w)) i = false := by
  unfold has
  rw [Vector.getElem?_replicate]
  split
  · simp
  · simp

/-- Adding a number adds that number. -/
theorem has_add {map : Vector (BitVec w) n} {i : Nat} {word : BitVec w} (hw : 0 < w)
    (h : map[i / w]? = some word) (j : Nat) :
    has (add map (i / w) (i % w) word) j = true ↔ j = i ∨ has map j = true := by
  obtain ⟨hlt, hword⟩ := Vector.getElem?_eq_some_iff.mp h
  by_cases hix : i / w = j / w
  · have hj : map[j / w]? = some word := hix ▸ h
    have hij : j = i ↔ j % w = i % w := by
      constructor
      · intro e
        rw [e]
      · intro e
        rw [← Nat.div_add_mod j w, ← Nat.div_add_mod i w, hix, e]
    rw [has_of_getElem? hj, has, add, ← hix, Vector.getElem?_setIfInBounds_self_of_lt hlt]
    rw [Option.getD_some, ← BitVec.twoPow_eq, BitVec.getLsbD_or, BitVec.getLsbD_twoPow, hij]
    simp only [Bool.or_eq_true, Bool.and_eq_true, decide_eq_true_eq, Nat.mod_lt _ hw, true_and]
    rw [or_comm, eq_comm]
  · have hne : j ≠ i := fun e => hix (by rw [e])
    rw [has, add, Vector.getElem?_setIfInBounds_ne hix]
    simp [hne, has]

end Bitmap
