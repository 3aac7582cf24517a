/-
A queue in a ring of `len` cells.

Items are put in at `head` and taken out at `tail`, and both go on to the next cell,
around the ring.  One cell is always left free: with all of them in use `head` would be
where `tail` is, as it is with none.
-/
import Mathlib.Algebra.Group.Nat.Defs
import Mathlib.Logic.Function.Basic
import Mathlib.Data.List.Basic
import Mathlib.Tactic.SplitIfs

namespace Ring

variable {α : Type} {len head tail : Nat}

/-- How many cells are in use. -/
def count (len head tail : Nat) : Nat := (head + (len - tail)) % len

/-- What is in them, the first to be taken out first. -/
def items (buf : Nat → α) (len head tail : Nat) : List α :=
  (List.range (count len head tail)).map fun i => buf ((tail + i) % len)

@[simp] theorem length_items (buf : Nat → α) : (items buf len head tail).length =
    count len head tail := by
  simp [items]

/-- A place in the ring, not yet once around. -/
theorem mod_of_lt {c : Nat} (h : c < 2 * len) : c % len = if c < len then c else c - len := by
  split
  · rename_i hlt
    exact Nat.mod_eq_of_lt hlt
  · rename_i hge
    rw [Nat.mod_eq_sub_mod (by omega), Nat.mod_eq_of_lt (by omega)]

theorem count_eq (hhead : head < len) (htail : tail < len) :
    count len head tail = if tail ≤ head then head - tail else head + len - tail := by
  unfold count
  rw [mod_of_lt (by omega)]
  split
  · rw [if_neg (by omega)]
    omega
  · rw [if_pos (by omega)]
    omega

theorem count_lt (head tail : Nat) (hlen : 0 < len) : count len head tail < len := Nat.mod_lt _ hlen

theorem count_self (hhead : head < len) : count len head head = 0 := by
  rw [count_eq hhead hhead]
  simp

/-- The cells are all in use but one. -/
theorem full_iff (hhead : head < len) (htail : tail < len) :
    (head + 1) % len = tail ↔ count len head tail + 1 = len := by
  rw [count_eq hhead htail, mod_of_lt (by omega)]
  split_ifs <;> omega

theorem empty_iff (hhead : head < len) (htail : tail < len) :
    head = tail ↔ count len head tail = 0 := by
  rw [count_eq hhead htail]
  split_ifs <;> omega

theorem count_put (hhead : head < len) (htail : tail < len)
    (hroom : count len head tail + 1 < len) :
    count len ((head + 1) % len) tail = count len head tail + 1 := by
  have hnext : (head + 1) % len < len := Nat.mod_lt _ (by omega)
  rw [count_eq hhead htail] at hroom ⊢
  rw [count_eq hnext htail, mod_of_lt (by omega)]
  split_ifs at hroom ⊢ <;> omega

theorem count_get (hhead : head < len) (htail : tail < len) (hsome : 0 < count len head tail) :
    count len head tail = count len head ((tail + 1) % len) + 1 := by
  have hnext : (tail + 1) % len < len := Nat.mod_lt _ (by omega)
  rw [count_eq hhead htail] at hsome ⊢
  rw [count_eq hhead hnext, mod_of_lt (by omega)]
  split_ifs at hsome ⊢ <;> omega

theorem items_put {buf : Nat → α} (hhead : head < len) (htail : tail < len)
    (hroom : count len head tail + 1 < len) (x : α) :
    items (Function.update buf head x) len ((head + 1) % len) tail =
      items buf len head tail ++ [x] := by
  unfold items
  rw [count_put hhead htail hroom, List.range_succ, List.map_append]
  have hend : (tail + count len head tail) % len = head := by
    rw [count_eq hhead htail] at hroom ⊢
    split_ifs at hroom ⊢
    · rw [mod_of_lt (by omega), if_pos (by omega)]
      omega
    · rw [mod_of_lt (by omega), if_neg (by omega)]
      omega
  congr 1
  · refine List.map_congr_left fun i hi => ?_
    have hlt := List.mem_range.mp hi
    have hcount := count_lt head tail (show 0 < len by omega)
    have hne : (tail + i) % len ≠ head := by
      rw [mod_of_lt (by omega)]
      rw [count_eq hhead htail] at hlt
      split_ifs at hlt ⊢ <;> omega
    rw [Function.update_of_ne hne]
  · rw [List.map_singleton, hend, Function.update_self]

theorem items_get {buf : Nat → α} (hhead : head < len) (htail : tail < len)
    (hsome : 0 < count len head tail) :
    items buf len head tail = buf tail :: items buf len head ((tail + 1) % len) := by
  unfold items
  rw [count_get hhead htail hsome, List.range_succ_eq_map, List.map_cons, List.map_map,
    Nat.add_zero, Nat.mod_eq_of_lt htail]
  congr 1
  refine List.map_congr_left fun i _ => ?_
  simp only [Function.comp_apply]
  rw [Nat.mod_add_mod, Nat.succ_eq_add_one, Nat.add_right_comm, Nat.add_assoc]

/-! ### Lengths that are a power of two -/

/-- The ends of a ring that is masked with its length less one. -/
structure Ends (len head tail : Nat) : Prop where
  pow : ∃ k, len = 2 ^ k
  head : head < len
  tail : tail < len

namespace Ends

theorem pos (h : Ends len head tail) : 0 < len := Nat.lt_of_le_of_lt (Nat.zero_le head) h.head

/-- The mask leaves the remainder. -/
theorem next (h : Ends len head tail) (cursor : Nat) :
    (cursor + 1) &&& (len - 1) = (cursor + 1) % len := by
  obtain ⟨k, rfl⟩ := h.pow
  exact Nat.and_two_pow_sub_one_eq_mod (cursor + 1) k

theorem put (h : Ends len head tail) : Ends len ((head + 1) % len) tail :=
  ⟨h.pow, Nat.mod_lt _ h.pos, h.tail⟩

theorem get (h : Ends len head tail) : Ends len head ((tail + 1) % len) :=
  ⟨h.pow, h.head, Nat.mod_lt _ h.pos⟩

theorem reset (h : Ends len head tail) : Ends len 0 0 := ⟨h.pow, h.pos, h.pos⟩

end Ends

/-- The count as it is computed from the difference of the ends. -/
theorem sub_emod (head : Nat) (htail : tail ≤ len) :
    (((head : Int) - tail) % len).toNat = count len head tail := by
  have hshift : (head : Int) - tail + len = (head + (len - tail) : Nat) := by omega
  rw [← Int.add_emod_right, hshift, ← Int.natCast_emod, Int.toNat_natCast]
  rfl

/-- What is left of it, less the cell that is never used. -/
theorem sub_emod_space (hhead : head < len) (htail : tail < len) :
    (((tail : Int) - (head + 1 : Nat)) % len).toNat = len - 1 - count len head tail := by
  rw [sub_emod tail (show head + 1 ≤ len by omega), count_eq hhead htail]
  unfold count
  rw [mod_of_lt (by omega)]
  split_ifs <;> omega

end Ring
