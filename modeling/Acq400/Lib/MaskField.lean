/-
Fields of a word that are given by their masks.

A field is a number of bits next to each other.  It is taken out of a word by its mask and a shift,
and put into one by clearing the mask and masking the new value.  That changes no bit outside the
mask, so fields that have no bit in common are put in and taken out apart from each other.
-/
import Mathlib.Data.BitVec

namespace MaskField

variable {n : Nat}

/-- Bits next to each other in a word of `n`. -/
structure Span (n : Nat) where
  shl : Nat
  width : Nat
  pos : 0 < width
  le : shl + width ≤ n

namespace Span

/-- Bit `i` is one of the field. -/
def Has (s : Span n) (i : Nat) : Prop := s.shl ≤ i ∧ i < s.shl + s.width

instance (s : Span n) (i : Nat) : Decidable (s.Has i) := inferInstanceAs (Decidable (_ ∧ _))

def mask (s : Span n) : BitVec n := (BitVec.allOnes n >>> (n - s.width)) <<< s.shl

/-- The value of the field. -/
def get (s : Span n) (reg : BitVec n) : BitVec n := (reg &&& s.mask) >>> s.shl

/-- The two have no bit in common. -/
def Apart (s t : Span n) : Prop := s.shl + s.width ≤ t.shl ∨ t.shl + t.width ≤ s.shl

instance (s t : Span n) : Decidable (s.Apart t) := inferInstanceAs (Decidable (_ ∨ _))

end Span

/-- The bits of the mask are taken from `x`, the others from `reg`. -/
def put (mask x reg : BitVec n) : BitVec n := (reg &&& ~~~mask) ||| (x &&& mask)

variable {s t : Span n} {x reg reg' : BitVec n} {i : Nat}

@[simp] theorem getLsbD_mask (s : Span n) (i : Nat) : s.mask.getLsbD i = decide (s.Has i) := by
  have hle := s.le
  have hpos := s.pos
  rw [Bool.eq_iff_iff, decide_eq_true_iff]
  unfold Span.mask Span.Has
  simp only [BitVec.getLsbD_shiftLeft, BitVec.getLsbD_ushiftRight, BitVec.getLsbD_allOnes,
    Bool.and_eq_true, decide_eq_true_eq, Bool.not_eq_true', decide_eq_false_iff_not]
  omega

theorem Span.Apart.not_has (h : s.Apart t) (hi : s.Has i) : ¬t.Has i := by
  unfold Span.Apart at h
  unfold Span.Has at hi ⊢
  omega

theorem Span.Apart.symm (h : s.Apart t) : t.Apart s := Or.symm h

theorem getLsbD_put (mask x reg : BitVec n) (i : Nat) :
    (put mask x reg).getLsbD i = if mask.getLsbD i then x.getLsbD i else reg.getLsbD i := by
  unfold put
  rw [BitVec.getLsbD_or, BitVec.getLsbD_and, BitVec.getLsbD_and, BitVec.getLsbD_not]
  cases hm : mask.getLsbD i with
  | true => simp
  | false =>
      by_cases hi : i < n
      · simp [hi]
      · simp [hi, BitVec.getLsbD_of_ge reg i (by omega)]

theorem toNat_mask (s : Span n) : s.mask.toNat = (2 ^ s.width - 1) * 2 ^ s.shl := by
  refine Nat.eq_of_testBit_eq fun j => ?_
  have hbit := getLsbD_mask s j
  rw [BitVec.getLsbD] at hbit
  rw [hbit, Nat.testBit_mul_two_pow, Nat.testBit_two_pow_sub_one, Bool.eq_iff_iff,
    decide_eq_true_iff]
  unfold Span.Has
  simp only [decide_eq_true_eq, Bool.and_eq_true]
  omega

/-- A field is put in and the rest is kept. -/
theorem put_outside (h : ¬s.Has i) : (put s.mask x reg).getLsbD i = reg.getLsbD i := by
  rw [getLsbD_put, getLsbD_mask, decide_eq_false h]
  rfl

theorem getLsbD_get (s : Span n) (reg : BitVec n) (j : Nat) :
    (s.get reg).getLsbD j = (reg.getLsbD (s.shl + j) && decide (j < s.width)) := by
  unfold Span.get
  rw [BitVec.getLsbD_ushiftRight, BitVec.getLsbD_and, getLsbD_mask]
  unfold Span.Has
  congr 1
  simp

/-- A field is what its bits are. -/
theorem get_eq_iff : s.get reg = s.get reg' ↔ ∀ i, s.Has i → reg.getLsbD i = reg'.getLsbD i := by
  constructor
  · intro h i hi
    have hbit := congrArg (fun v => v.getLsbD (i - s.shl)) h
    have hplace : s.shl + (i - s.shl) = i := Nat.add_sub_cancel' hi.1
    have hin : i - s.shl < s.width := by
      unfold Span.Has at hi
      omega
    simpa [getLsbD_get, hplace, hin] using hbit
  · intro h
    refine BitVec.eq_of_getLsbD_eq fun j _ => ?_
    rw [getLsbD_get, getLsbD_get]
    by_cases hj : j < s.width
    · rw [h (s.shl + j) ⟨Nat.le_add_right _ _, by omega⟩]
    · simp [hj]

theorem toNat_get_lt (s : Span n) (reg : BitVec n) : (s.get reg).toNat < 2 ^ s.width := by
  refine Nat.lt_pow_two_of_testBit _ fun j hj => ?_
  have hbit := getLsbD_get s reg j
  rw [BitVec.getLsbD, decide_eq_false (by omega), Bool.and_false] at hbit
  exact hbit

/-- What is put into a field is cut to its width. -/
theorem toNat_get_put (s : Span n) (x reg : BitVec n) :
    (s.get (put s.mask (x <<< s.shl) reg)).toNat = x.toNat % 2 ^ s.width := by
  have hle := s.le
  refine Nat.eq_of_testBit_eq fun j => ?_
  have hbit := getLsbD_get s (put s.mask (x <<< s.shl) reg) j
  rw [getLsbD_put, getLsbD_mask] at hbit
  rw [Nat.testBit_mod_two_pow]
  by_cases hj : j < s.width
  · have hhas : s.Has (s.shl + j) := ⟨Nat.le_add_right _ _, by omega⟩
    rw [decide_eq_true hhas, if_pos rfl, BitVec.getLsbD_shiftLeft] at hbit
    rw [BitVec.getLsbD] at hbit
    rw [hbit]
    simp [hj, BitVec.getLsbD]
    omega
  · rw [BitVec.getLsbD] at hbit
    rw [hbit]
    simp [hj]

/-! ### Words made of their fields -/

/-- A value in the field, and nothing else. -/
def Span.place (s : Span n) (v : Nat) : BitVec n := BitVec.ofNat n v <<< s.shl

/-- Values in some fields, and nothing else. -/
def placeAll (l : List (Span n × Nat)) : BitVec n := l.foldr (fun p w => p.1.place p.2 ||| w) 0#n

/-- The values fit, into fields that are apart. -/
structure Fitting (l : List (Span n × Nat)) : Prop where
  fit : ∀ p ∈ l, p.2 < 2 ^ p.1.width
  apart : (l.map Prod.fst).Pairwise Span.Apart

theorem getLsbD_place {v : Nat} (hv : v < 2 ^ s.width) (i : Nat) :
    (s.place v).getLsbD i = (decide (s.Has i) && v.testBit (i - s.shl)) := by
  have hle := s.le
  unfold Span.place
  rw [BitVec.getLsbD_shiftLeft, BitVec.getLsbD_ofNat]
  by_cases hhas : s.Has i
  · have hin := hhas
    unfold Span.Has at hin
    simp only [hhas, decide_true, Bool.true_and]
    rw [decide_eq_true (by omega), decide_eq_false (by omega), decide_eq_true (by omega)]
    simp
  · rw [decide_eq_false hhas, Bool.false_and]
    by_cases hlow : i < s.shl
    · simp [hlow]
    · have hhigh : v.testBit (i - s.shl) = false := by
        refine Nat.testBit_lt_two_pow (Nat.lt_of_lt_of_le hv (Nat.pow_le_pow_right (by omega) ?_))
        unfold Span.Has at hhas
        omega
      simp [hhigh]

theorem placeAll_cons (p : Span n × Nat) (l : List (Span n × Nat)) :
    placeAll (p :: l) = p.1.place p.2 ||| placeAll l := rfl

theorem Fitting.tail {p : Span n × Nat} {l : List (Span n × Nat)} (h : Fitting (p :: l)) :
    Fitting l :=
  ⟨fun q hq => h.fit q (List.mem_cons_of_mem p hq), h.apart.tail⟩

/-- A bit of the word is one of a field. -/
theorem exists_of_getLsbD_placeAll {l : List (Span n × Nat)} (h : Fitting l)
    (hi : (placeAll l).getLsbD i = true) : ∃ p ∈ l, p.1.Has i := by
  induction l with
  | nil => simp [placeAll] at hi
  | cons p l ih =>
      rw [placeAll_cons, BitVec.getLsbD_or, Bool.or_eq_true] at hi
      rcases hi with hi | hi
      · rw [getLsbD_place (h.fit p List.mem_cons_self), Bool.and_eq_true, decide_eq_true_iff] at hi
        exact ⟨p, List.mem_cons_self, hi.1⟩
      · obtain ⟨q, hq, hhas⟩ := ih h.tail hi
        exact ⟨q, List.mem_cons_of_mem p hq, hhas⟩

theorem getLsbD_placeAll {l : List (Span n × Nat)} (h : Fitting l) {p : Span n × Nat} (hp : p ∈ l)
    (hi : p.1.Has i) : (placeAll l).getLsbD i = p.2.testBit (i - p.1.shl) := by
  induction l with
  | nil => cases hp
  | cons q l ih =>
      have hapart : ∀ r ∈ l, q.1.Apart r.1 := fun r hr =>
        (List.pairwise_cons.mp h.apart).1 r.1 (List.mem_map_of_mem hr)
      rw [placeAll_cons, BitVec.getLsbD_or, getLsbD_place (h.fit q List.mem_cons_self)]
      rcases List.mem_cons.mp hp with rfl | hp
      · have hnone : (placeAll l).getLsbD i = false := by
          rw [← Bool.not_eq_true]
          intro hbit
          obtain ⟨r, hr, hhas⟩ := exists_of_getLsbD_placeAll h.tail hbit
          exact (hapart r hr).not_has hi hhas
        rw [hnone, decide_eq_true hi, Bool.true_and, Bool.or_false]
      · rw [ih h.tail hp, decide_eq_false ((hapart p hp).symm.not_has hi), Bool.false_and,
          Bool.false_or]

/-- The values are read back. -/
theorem toNat_get_placeAll {l : List (Span n × Nat)} (h : Fitting l) {p : Span n × Nat}
    (hp : p ∈ l) : (p.1.get (placeAll l)).toNat = p.2 := by
  refine Nat.eq_of_testBit_eq fun j => ?_
  have hbit := getLsbD_get p.1 (placeAll l) j
  rw [BitVec.getLsbD] at hbit
  rw [hbit]
  by_cases hj : j < p.1.width
  · have hhas : p.1.Has (p.1.shl + j) := ⟨Nat.le_add_right _ _, by omega⟩
    rw [getLsbD_placeAll h hp hhas, decide_eq_true hj, Bool.and_true, Nat.add_sub_cancel_left]
  · rw [decide_eq_false hj, Bool.and_false]
    refine (Nat.testBit_lt_two_pow (Nat.lt_of_lt_of_le (h.fit p hp) ?_)).symm
    exact Nat.pow_le_pow_right (by omega) (by omega)

end MaskField
