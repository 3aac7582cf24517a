/-
Counts that are gathered into blocks.

A block of a size is complete as soon as its counts add up to it, so only its last count may take
it beyond.  Counts are whole blocks if none is left over behind the last one.  `Completes` is about
a block that has been begun, and `whole_cons` is the rule by which one count is added to it.
-/
import Mathlib.Algebra.BigOperators.Group.List.Basic
import Mathlib.Algebra.GroupWithZero.Nat

namespace Gather

/-- The counts complete a block of which `acc` is there. -/
structure Completes (size acc : Nat) (block : List Nat) : Prop where
  ne_nil : block ≠ []
  before : acc + block.dropLast.sum < size
  size_le : size ≤ acc + block.sum

/-- The counts are blocks of `size`, one behind the other. -/
inductive Blocks (size : Nat) : List Nat → Prop
  | nil : Blocks size []
  | cons {block rest : List Nat} (h : Completes size 0 block) (hrest : Blocks size rest) :
      Blocks size (block ++ rest)

/-- The counts complete a block of `size` of which `acc` is there, and the others are blocks of
`next`. -/
def Begun (size next acc : Nat) (counts : List Nat) : Prop :=
  ∃ block rest, counts = block ++ rest ∧ Completes size acc block ∧ Blocks next rest

variable {size next acc n : Nat} {counts : List Nat}

theorem not_begun_nil : ¬Begun size next acc [] := by
  rintro ⟨block, rest, hcounts, hblock, -⟩
  exact hblock.ne_nil (List.append_eq_nil_iff.mp hcounts.symm).1

/-- A block begins with the first count. -/
theorem blocks_cons_iff : Blocks size (n :: counts) ↔ Begun size size 0 (n :: counts) := by
  constructor
  · intro h
    generalize hall : n :: counts = all at h
    cases h with
    | nil => exact absurd hall (List.cons_ne_nil n counts)
    | cons hblock hrest => exact ⟨_, _, rfl, hblock, hrest⟩
  · rintro ⟨block, rest, hcounts, hblock, hrest⟩
    rw [hcounts]
    exact .cons hblock hrest

theorem begun_cons_complete (hacc : acc < size) (hn : size ≤ acc + n) :
    Begun size next acc (n :: counts) ↔ Blocks next counts := by
  constructor
  · rintro ⟨block, rest, hcounts, hblock, hrest⟩
    cases block with
    | nil => exact absurd rfl hblock.ne_nil
    | cons m block =>
      obtain ⟨rfl, rfl⟩ := List.cons.inj hcounts
      cases block with
      | nil => exact hrest
      | cons m' block =>
        -- the block was complete before
        have hbefore := hblock.before
        rw [List.dropLast_cons_cons, List.sum_cons] at hbefore
        omega
  · intro h
    refine ⟨[n], counts, rfl, ⟨List.cons_ne_nil n [], ?_, ?_⟩, h⟩
    · rw [List.dropLast_singleton, List.sum_nil]
      exact hacc
    · rw [List.sum_singleton]
      exact hn

/-- One count does not complete the block. -/
theorem begun_cons_more (hn : acc + n < size) :
    Begun size next acc (n :: counts) ↔ Begun size next (acc + n) counts := by
  constructor
  · rintro ⟨block, rest, hcounts, hblock, hrest⟩
    cases block with
    | nil => exact absurd rfl hblock.ne_nil
    | cons m block =>
      obtain ⟨rfl, rfl⟩ := List.cons.inj hcounts
      have hle := hblock.size_le
      have hbefore := hblock.before
      cases block with
      | nil =>
        rw [List.sum_singleton] at hle
        omega
      | cons m' block =>
        refine ⟨m' :: block, rest, rfl, ⟨List.cons_ne_nil m' block, ?_, ?_⟩, hrest⟩
        · rwa [List.dropLast_cons_cons, List.sum_cons, ← Nat.add_assoc] at hbefore
        · rwa [List.sum_cons, ← Nat.add_assoc] at hle
  · rintro ⟨block, rest, rfl, hblock, hrest⟩
    refine ⟨n :: block, rest, rfl, ⟨List.cons_ne_nil n block, ?_, ?_⟩, hrest⟩
    · rw [List.dropLast_cons_of_ne_nil hblock.ne_nil, List.sum_cons, ← Nat.add_assoc]
      exact hblock.before
    · rw [List.sum_cons, ← Nat.add_assoc]
      exact hblock.size_le

/-- Whether nothing is left over of `acc` and of what follows it. -/
def Whole (size acc : Nat) (counts : List Nat) : Prop :=
  (acc = 0 ∧ Blocks size counts) ∨ Begun size size acc counts

theorem whole_nil_iff : Whole size acc [] ↔ acc = 0 := by
  constructor
  · rintro (⟨h, -⟩ | h)
    · exact h
    · exact absurd h not_begun_nil
  · intro h
    exact Or.inl ⟨h, .nil⟩

theorem whole_zero_iff : Whole size 0 counts ↔ Blocks size counts := by
  constructor
  · rintro (⟨-, h⟩ | ⟨block, rest, rfl, hblock, hrest⟩)
    · exact h
    · exact .cons hblock hrest
  · intro h
    exact Or.inl ⟨rfl, h⟩

theorem whole_cons_iff_begun :
    Whole size acc (n :: counts) ↔ Begun size size acc (n :: counts) := by
  constructor
  · rintro (⟨rfl, h⟩ | h)
    · exact blocks_cons_iff.mp h
    · exact h
  · intro h
    exact Or.inr h

theorem whole_cons (hacc : acc < size) (hn : 0 < n) :
    Whole size acc (n :: counts) ↔
      Whole size (if size ≤ acc + n then 0 else acc + n) counts := by
  rw [whole_cons_iff_begun]
  by_cases hfull : size ≤ acc + n
  · rw [if_pos hfull, begun_cons_complete hacc hfull, whole_zero_iff]
  · rw [if_neg hfull, begun_cons_more (Nat.lt_of_not_le hfull)]
    constructor
    · intro h
      exact Or.inr h
    · rintro (⟨hzero, -⟩ | h)
      · omega
      · exact h

end Gather
