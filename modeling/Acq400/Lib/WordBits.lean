/-
A word as fields and as the set of its bits.

A register word is put together with `|||` from values that are shifted to their places, and a
field is read from it with a shift and a mask.

As for the bits, masking is intersection, latching is union, and the loop that shifts a word down
and counts the ones gives the size of the set.
-/
import Mathlib.Data.BitVec
import Mathlib.Data.Finset.Card
import Mathlib.Data.Finset.Range
import Mathlib.Data.Nat.Bitwise

namespace BitField

/-- The `w` bits from bit `k` on. -/
def field (k w x : Nat) : Nat := (x >>> k) &&& (2 ^ w - 1)

theorem field_eq (k w x : Nat) : field k w x = x / 2 ^ k % 2 ^ w := by
  rw [field, Nat.and_two_pow_sub_one_eq_mod, Nat.shiftRight_eq_div_pow]

@[simp] theorem field_zero (k w : Nat) : field k w 0 = 0 := by
  rw [field_eq, Nat.zero_div, Nat.zero_mod]

@[simp] theorem field_or (k w a b : Nat) : field k w (a ||| b) = field k w a ||| field k w b := by
  rw [field, Nat.shiftRight_or_distrib, Nat.and_or_distrib_right]
  rfl

/-- A field reads what was put there. -/
theorem field_self {k w x : Nat} (h : x < 2 ^ w) : field k w (x <<< k) = x := by
  rw [field_eq, Nat.shiftLeft_eq, Nat.mul_div_cancel _ (Nat.two_pow_pos k), Nat.mod_eq_of_lt h]

/-- What lies above a field is not in it. -/
theorem field_above {k w j x : Nat} (h : k + w ≤ j) : field k w (x <<< j) = 0 := by
  obtain ⟨d, rfl⟩ := Nat.exists_eq_add_of_le h
  have hsplit : x * 2 ^ (k + w + d) = x * 2 ^ d * 2 ^ w * 2 ^ k := by
    rw [Nat.mul_assoc, Nat.mul_assoc, ← Nat.pow_add, ← Nat.pow_add]
    congr 2
    omega
  rw [field_eq, Nat.shiftLeft_eq, hsplit, Nat.mul_div_cancel _ (Nat.two_pow_pos k),
    Nat.mul_mod_left]

/-- What lies below a field is not in it. -/
theorem field_below {k w j n x : Nat} (hx : x < 2 ^ n) (h : j + n ≤ k) :
    field k w (x <<< j) = 0 := by
  have hlt : x * 2 ^ j < 2 ^ k := by
    calc x * 2 ^ j < 2 ^ n * 2 ^ j := Nat.mul_lt_mul_of_pos_right hx (Nat.two_pow_pos j)
      _ = 2 ^ (j + n) := by rw [← Nat.pow_add, Nat.add_comm]
      _ ≤ 2 ^ k := Nat.pow_le_pow_right (by decide) h
  rw [field_eq, Nat.shiftLeft_eq, Nat.div_eq_of_lt hlt, Nat.zero_mod]

/-- A flag is put in the word or left out. -/
theorem field_flag {k w j : Nat} (b : Bool) (h : j < k ∨ k + w ≤ j) :
    field k w (if b then 1 <<< j else 0) = 0 := by
  cases b with
  | false => exact field_zero k w
  | true =>
      rcases h with hlt | hge
      · exact field_below (n := 1) (by decide) hlt
      · exact field_above hge

/-- A value that is put into a word: from which bit on, how many bits it has, and what it is. -/
structure Slot where
  shl : Nat
  width : Nat
  val : Nat

/-- The word of all of these. -/
def pack : List Slot → Nat
  | [] => 0
  | f :: rest => f.val <<< f.shl ||| pack rest

/-- The two have no bit in common. -/
def Slot.Apart (f g : Slot) : Prop := f.shl + f.width ≤ g.shl ∨ g.shl + g.width ≤ f.shl

instance (f g : Slot) : Decidable (f.Apart g) := inferInstanceAs (Decidable (_ ∨ _))

theorem field_pack_apart {g : Slot} {l : List Slot} (hlt : ∀ f ∈ l, f.val < 2 ^ f.width)
    (hapart : ∀ f ∈ l, g.Apart f) : field g.shl g.width (pack l) = 0 := by
  induction l with
  | nil => exact field_zero _ _
  | cons f rest ih =>
      rw [pack, field_or, ih (fun f' h => hlt f' (List.mem_cons_of_mem f h))
        fun f' h => hapart f' (List.mem_cons_of_mem f h), Nat.or_zero]
      rcases hapart f List.mem_cons_self with h | h
      · exact field_above h
      · exact field_below (hlt f List.mem_cons_self) h

/-- A field of the word reads what was put there. -/
theorem field_pack {g : Slot} {l : List Slot} (hg : g ∈ l) (hlt : ∀ f ∈ l, f.val < 2 ^ f.width)
    (hapart : l.Pairwise Slot.Apart) : field g.shl g.width (pack l) = g.val := by
  induction l with
  | nil => exact absurd hg List.not_mem_nil
  | cons f rest ih =>
      obtain ⟨hf, hrest⟩ := List.pairwise_cons.mp hapart
      have hlt' : ∀ f' ∈ rest, f'.val < 2 ^ f'.width := fun f' h =>
        hlt f' (List.mem_cons_of_mem f h)
      rw [pack, field_or]
      rcases List.mem_cons.mp hg with rfl | hmem
      · rw [field_self (hlt g List.mem_cons_self), field_pack_apart hlt' hf, Nat.or_zero]
      · rw [ih hmem hlt' hrest]
        have hzero : field g.shl g.width (f.val <<< f.shl) = 0 := by
          rcases hf g hmem with h | h
          · exact field_below (hlt f List.mem_cons_self) h
          · exact field_above h
        rw [hzero, Nat.zero_or]

theorem pack_lt {l : List Slot} {n : Nat}
    (h : ∀ f ∈ l, f.val < 2 ^ f.width ∧ f.shl + f.width ≤ n) : pack l < 2 ^ n := by
  induction l with
  | nil => exact Nat.two_pow_pos n
  | cons f rest ih =>
      obtain ⟨hlt, hle⟩ := h f List.mem_cons_self
      refine Nat.or_lt_two_pow ?_ (ih fun f' h' => h f' (List.mem_cons_of_mem f h'))
      rw [Nat.shiftLeft_eq]
      calc f.val * 2 ^ f.shl < 2 ^ f.width * 2 ^ f.shl :=
            Nat.mul_lt_mul_of_pos_right hlt (Nat.two_pow_pos _)
        _ = 2 ^ (f.shl + f.width) := by rw [← Nat.pow_add, Nat.add_comm]
        _ ≤ 2 ^ n := Nat.pow_le_pow_right (by decide) hle

end BitField

namespace WordBits

variable {w : Nat}

/-- The places of the bits that are set. -/
def bits (x : BitVec w) : Finset Nat := (Finset.range w).filter fun i => x.getLsbD i = true

@[simp] theorem mem_bits {x : BitVec w} {i : Nat} : i ∈ bits x ↔ x.getLsbD i = true := by
  rw [bits, Finset.mem_filter, Finset.mem_range, and_iff_right_iff_imp]
  exact BitVec.lt_of_getLsbD

@[simp] theorem bits_zero : bits (0 : BitVec w) = ∅ := by
  ext i
  simp

theorem bits_or (x y : BitVec w) : bits (x ||| y) = bits x ∪ bits y := by
  ext i
  simp

theorem bits_and (x y : BitVec w) : bits (x &&& y) = bits x ∩ bits y := by
  ext i
  simp

theorem bits_injective : Function.Injective (bits : BitVec w → Finset Nat) := by
  intro x y h
  refine BitVec.eq_of_getLsbD_eq fun i _ => ?_
  have hi : i ∈ bits x ↔ i ∈ bits y := by rw [h]
  rw [mem_bits, mem_bits] at hi
  exact Bool.eq_iff_iff.mpr hi

theorem bits_eq_empty {x : BitVec w} : bits x = ∅ ↔ x = 0 := by
  rw [← bits_zero (w := w)]
  exact bits_injective.eq_iff

/-- A mask is set where all its bits are. -/
theorem and_eq_mask {x m : BitVec w} : x &&& m = m ↔ bits m ⊆ bits x := by
  rw [← bits_injective.eq_iff, bits_and, Finset.inter_eq_right]

/-! ### Counting by shifts -/

/-- Shift the word down until nothing is left of it, and count the ones; `fuel` bounds the
shifts. -/
def countFrom : Nat → BitVec w → Nat → Nat
  | 0, _, count => count
  | fuel + 1, x, count =>
    if x = 0 then count
    else countFrom fuel (x >>> 1) (if x &&& 1 ≠ 0 then count + 1 else count)

theorem and_one_ne_zero {x : BitVec w} : x &&& 1 ≠ 0 ↔ 0 ∈ bits x := by
  rw [Ne, ← bits_eq_empty, ← Ne, ← Finset.nonempty_iff_ne_empty, bits_and]
  constructor
  · rintro ⟨i, hi⟩
    rw [Finset.mem_inter, mem_bits, mem_bits] at hi
    have hzero : i = 0 := by
      have hone := hi.2
      simp only [BitVec.ofNat_eq_ofNat, BitVec.getLsbD_one, Bool.and_eq_true,
        decide_eq_true_eq] at hone
      exact hone.2
    rw [mem_bits, ← hzero]
    exact hi.1
  · intro h
    refine ⟨0, Finset.mem_inter.mpr ⟨h, ?_⟩⟩
    rw [mem_bits] at h ⊢
    have hw := BitVec.lt_of_getLsbD h
    simp [hw]

/-- Bit `i` of the word that is shifted down was bit `i + 1`. -/
theorem mem_bits_shift {x : BitVec w} {i : Nat} : i ∈ bits (x >>> 1) ↔ i + 1 ∈ bits x := by
  rw [mem_bits, mem_bits, BitVec.getLsbD_ushiftRight, Nat.add_comm]

theorem bits_eq_shift (x : BitVec w) :
    bits x = (if 0 ∈ bits x then {0} else ∅) ∪ (bits (x >>> 1)).image Nat.succ := by
  ext i
  cases i with
  | zero =>
      by_cases h : 0 ∈ bits x
      · simp [h]
      · simp [h]
  | succ i =>
      rw [Finset.mem_union, Finset.mem_image]
      constructor
      · intro h
        exact .inr ⟨i, mem_bits_shift.mpr h, rfl⟩
      · rintro (h | ⟨k, hk, heq⟩)
        · split_ifs at h
          · exact absurd (Finset.mem_singleton.mp h) (Nat.succ_ne_zero i)
          · exact absurd h (Finset.notMem_empty _)
        · obtain rfl := Nat.succ.inj heq
          exact mem_bits_shift.mp hk

theorem card_shift (x : BitVec w) :
    (bits x).card = (if x &&& 1 ≠ 0 then 1 else 0) + (bits (x >>> 1)).card := by
  have hdisjoint : Disjoint (if 0 ∈ bits x then {0} else ∅ : Finset Nat)
      ((bits (x >>> 1)).image Nat.succ) := by
    rw [Finset.disjoint_right]
    intro i hi hzero
    obtain ⟨k, -, rfl⟩ := Finset.mem_image.mp hi
    split_ifs at hzero
    · exact Nat.succ_ne_zero k (Finset.mem_singleton.mp hzero)
    · exact Finset.notMem_empty _ hzero
  conv_lhs => rw [bits_eq_shift x, Finset.card_union_of_disjoint hdisjoint,
    Finset.card_image_of_injective _ Nat.succ_injective]
  by_cases h : 0 ∈ bits x
  · rw [if_pos h, if_pos (and_one_ne_zero.mpr h), Finset.card_singleton]
  · rw [if_neg h, if_neg (mt and_one_ne_zero.mp h), Finset.card_empty]

/-- The ones are counted, if the fuel covers the word. -/
theorem countFrom_eq (fuel : Nat) {x : BitVec w} (h : ∀ i ∈ bits x, i < fuel) (count : Nat) :
    countFrom fuel x count = count + (bits x).card := by
  induction fuel generalizing x count with
  | zero =>
      have hnone : bits x = ∅ := Finset.eq_empty_of_forall_notMem fun i hi => nomatch h i hi
      rw [countFrom, hnone, Finset.card_empty, Nat.add_zero]
  | succ fuel ih =>
      rw [countFrom]
      by_cases hzero : x = 0
      · rw [if_pos hzero, hzero, bits_zero, Finset.card_empty, Nat.add_zero]
      · have hshift : ∀ i ∈ bits (x >>> 1), i < fuel := by
          intro i hi
          exact Nat.lt_of_succ_lt_succ (h _ (mem_bits_shift.mp hi))
        rw [if_neg hzero, ih hshift, card_shift x]
        split_ifs <;> omega

/-- A word is shifted out in as many steps as it is wide. -/
theorem countFrom_width (x : BitVec w) : countFrom w x 0 = (bits x).card := by
  rw [countFrom_eq w (fun i hi => BitVec.lt_of_getLsbD (mem_bits.mp hi)), Nat.zero_add]

end WordBits
