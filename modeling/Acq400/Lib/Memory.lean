/-
Copying and writing within one memory.

A memory is a function from addresses to cells.  A program that only copies, one
piece after the other and all of them in the same memory, is a list of moves.
Where no move writes what a later one is to read, and none writes over what an
earlier one has written, the whole list does what it would do if source and
destination were apart: every destination ends with what its source held before.

A program that only writes is a list of addresses and values; a cell that one value is
written to, once or more, ends with it.  `store` writes a list of values one behind the other.
-/
import Mathlib.Data.List.Pairwise
import Mathlib.Data.List.Basic
import Mathlib.Logic.Function.Basic

namespace Memory

variable {α : Type}

/-- `len` cells from `src` to `dst`, all of them read before any is written. -/
def copy (m : Nat → α) (dst src len : Nat) : Nat → α := fun a =>
  if dst ≤ a ∧ a < dst + len then m (src + (a - dst)) else m a

/-- A copy, by its addresses. -/
structure Move where
  dst : Nat
  src : Nat
  len : Nat
deriving DecidableEq, Repr

/-- The moves in their order. -/
def runMoves (m : Nat → α) (moves : List Move) : Nat → α :=
  moves.foldl (fun m mv => copy m mv.dst mv.src mv.len) m

/-- `a` is not in the cells from `start`. -/
def Outside (a start len : Nat) : Prop := a < start ∨ start + len ≤ a

/-- The cells from `a` and those from `b` are different ones. -/
def Apart (a la b lb : Nat) : Prop := a + la ≤ b ∨ b + lb ≤ a

/-- `mv`, which comes first, and `mv'` do not disturb each other. -/
structure Undisturbed (mv mv' : Move) : Prop where
  source : Apart mv.dst mv.len mv'.src mv'.len
  dest : Apart mv.dst mv.len mv'.dst mv'.len

theorem Apart.outside {a la b lb k : Nat} (h : Apart a la b lb) (hk : k < lb) :
    Outside (b + k) a la := by
  unfold Outside
  rcases h with h | h
  · right; omega
  · left; omega

theorem Apart.symm {a la b lb : Nat} (h : Apart a la b lb) : Apart b lb a la := Or.symm h

theorem copy_outside {m : Nat → α} {dst src len a : Nat} (h : Outside a dst len) :
    copy m dst src len a = m a := by
  unfold copy
  rw [if_neg]
  rintro ⟨hlo, hhi⟩
  rcases h with h | h
  · omega
  · omega

theorem copy_inside {m : Nat → α} {dst src len k : Nat} (hk : k < len) :
    copy m dst src len (dst + k) = m (src + k) := by
  unfold copy
  rw [if_pos (by omega), Nat.add_sub_cancel_left]

@[simp] theorem runMoves_nil (m : Nat → α) : runMoves m [] = m := rfl

@[simp] theorem runMoves_cons (m : Nat → α) (mv : Move) (rest : List Move) :
    runMoves m (mv :: rest) = runMoves (copy m mv.dst mv.src mv.len) rest := rfl

theorem runMoves_append (m : Nat → α) (as bs : List Move) :
    runMoves m (as ++ bs) = runMoves (runMoves m as) bs := List.foldl_append

theorem runMoves_outside {a : Nat} :
    ∀ (moves : List Move) (m : Nat → α), (∀ mv ∈ moves, Outside a mv.dst mv.len) →
      runMoves m moves a = m a := by
  intro moves
  induction moves with
  | nil => intro m _; rfl
  | cons mv rest ih =>
      intro m h
      rw [runMoves_cons, ih _ fun mv' hmem => h mv' (List.mem_cons_of_mem _ hmem)]
      exact copy_outside (h mv List.mem_cons_self)

/-- Moves that do not disturb each other bring everything over. -/
theorem runMoves_get {k : Nat} :
    ∀ (moves : List Move) (m : Nat → α), moves.Pairwise Undisturbed →
      ∀ mv ∈ moves, k < mv.len → runMoves m moves (mv.dst + k) = m (mv.src + k) := by
  intro moves
  induction moves with
  | nil => intro m _ mv hmem; simp at hmem
  | cons head rest ih =>
      intro m hpair mv hmem hk
      obtain ⟨hhead, hrest⟩ := List.pairwise_cons.mp hpair
      rw [runMoves_cons]
      rcases List.mem_cons.mp hmem with rfl | hmem
      · rw [runMoves_outside rest _ fun mv' hmv' => (hhead mv' hmv').dest.symm.outside hk]
        exact copy_inside hk
      · rw [ih _ hrest mv hmem hk]
        exact copy_outside ((hhead mv hmem).source.outside hk)

/-! ### Writes -/

/-- Values written one after the other, each with its address. -/
def runWrites (m : Nat → α) (writes : List (Nat × α)) : Nat → α :=
  writes.foldl (fun m w => Function.update m w.1 w.2) m

@[simp] theorem runWrites_nil (m : Nat → α) : runWrites m [] = m := rfl

@[simp] theorem runWrites_cons (m : Nat → α) (w : Nat × α) (rest : List (Nat × α)) :
    runWrites m (w :: rest) = runWrites (Function.update m w.1 w.2) rest := rfl

theorem runWrites_append (m : Nat → α) (as bs : List (Nat × α)) :
    runWrites m (as ++ bs) = runWrites (runWrites m as) bs := List.foldl_append

/-- What is not written stays as it is. -/
theorem runWrites_outside {a : Nat} :
    ∀ (writes : List (Nat × α)) (m : Nat → α), (∀ w ∈ writes, w.1 ≠ a) →
      runWrites m writes a = m a := by
  intro writes
  induction writes with
  | nil => intro m _; rfl
  | cons w rest ih =>
      intro m h
      rw [runWrites_cons, ih _ fun w' hmem => h w' (List.mem_cons_of_mem _ hmem)]
      exact Function.update_of_ne (h w List.mem_cons_self).symm _ _

/-- A cell that only one value is written to has it. -/
theorem runWrites_get {a : Nat} {v : α} :
    ∀ (writes : List (Nat × α)) (m : Nat → α), (a, v) ∈ writes →
      (∀ w ∈ writes, w.1 = a → w.2 = v) → runWrites m writes a = v := by
  intro writes
  induction writes with
  | nil => intro m hmem; simp at hmem
  | cons w rest ih =>
      intro m hmem hone
      have hone' : ∀ w' ∈ rest, w'.1 = a → w'.2 = v := fun w' h' =>
        hone w' (List.mem_cons_of_mem _ h')
      rw [runWrites_cons]
      by_cases hlater : (a, v) ∈ rest
      · exact ih _ hlater hone'
      · obtain rfl : (a, v) = w := (List.mem_cons.mp hmem).resolve_right hlater
        rw [runWrites_outside rest]
        · exact Function.update_self ..
        · intro w' h' heq
          refine hlater ?_
          rw [← heq, ← hone' w' h' heq]
          exact h'

/-- Cell for cell from `src` to `dst`, with what `src` held before. -/
theorem runWrites_copy (m : Nat → α) (dst src len : Nat) :
    runWrites m ((List.range len).map fun i => (dst + i, m (src + i))) = copy m dst src len := by
  funext a
  by_cases hin : dst ≤ a ∧ a < dst + len
  · obtain ⟨k, rfl⟩ := Nat.exists_eq_add_of_le hin.1
    rw [copy_inside (by omega)]
    refine runWrites_get _ _ (List.mem_map.mpr ⟨k, List.mem_range.mpr (by omega), rfl⟩) ?_
    rintro w hw heq
    obtain ⟨i, -, rfl⟩ := List.mem_map.mp hw
    rw [Nat.add_left_cancel heq]
  · rw [copy, if_neg hin]
    refine runWrites_outside _ _ fun w hw => ?_
    obtain ⟨i, hi, rfl⟩ := List.mem_map.mp hw
    rw [List.mem_range] at hi
    show dst + i ≠ a
    omega

/-! ### Values one behind the other -/

/-- `values` from `start` on. -/
def store (m : Nat → α) (start : Nat) (values : List α) : Nat → α := fun a =>
  if start ≤ a then (values[a - start]?).getD (m a) else m a

theorem store_outside {m : Nat → α} {start a : Nat} {values : List α}
    (h : Outside a start values.length) : store m start values a = m a := by
  unfold store
  rcases h with h | h
  · rw [if_neg (by omega)]
  · rw [if_pos (by omega), List.getElem?_eq_none (by omega)]
    rfl

theorem store_inside {m : Nat → α} {start k : Nat} {values : List α} (hk : k < values.length) :
    store m start values (start + k) = values[k] := by
  unfold store
  rw [if_pos (Nat.le_add_right _ _), Nat.add_sub_cancel_left, List.getElem?_eq_getElem hk]
  rfl

end Memory

/-! ### Filling

An array that is filled from the front.

The array is a function from indices to cells.  What has been put into it so far is a
list: the first cells hold the list, and from its end on the array is as it was before.
So it has changed only as far as the list says something new.
-/

variable {α : Type} {before mem : Nat → α} {l : List α}

/-- The list has been put into the array. -/
structure Filled (before mem : Nat → α) (l : List α) : Prop where
  holds : ∀ i a, l[i]? = some a → mem i = a
  frame : ∀ i, l.length ≤ i → mem i = before i

namespace Filled

theorem nil (mem : Nat → α) : Filled mem mem [] := by
  constructor
  · intro i a hi
    cases hi
  · intro i _
    rfl

/-- One more goes into the cell behind the list. -/
theorem push (h : Filled before mem l) (a : α) :
    Filled before (Function.update mem l.length a) (l ++ [a]) := by
  constructor
  · intro i b hi
    rcases Nat.lt_trichotomy i l.length with hlt | rfl | hgt
    · rw [List.getElem?_append_left hlt] at hi
      rw [Function.update_of_ne (by omega)]
      exact h.holds i b hi
    · rw [List.getElem?_concat_length] at hi
      rw [Function.update_self]
      exact Option.some.inj hi
    · rw [List.getElem?_eq_none (by rw [List.length_append, List.length_singleton]; omega)] at hi
      cases hi
  · intro i hi
    rw [List.length_append, List.length_singleton] at hi
    rw [Function.update_of_ne (by omega)]
    exact h.frame i (by omega)

theorem map_range (h : Filled before mem l) : (List.range l.length).map mem = l := by
  refine List.ext_getElem (by simp) ?_
  intro i hi hi'
  rw [List.getElem_map, List.getElem_range]
  exact h.holds i _ (List.getElem?_eq_getElem hi')

/-- The first `n` cells are as before exactly if the list says nothing new of them. -/
theorem map_range_eq_iff (h : Filled before mem l) (n : Nat) :
    (List.range n).map mem = (List.range n).map before ↔
      ∀ i < n, ∀ a, l[i]? = some a → before i = a := by
  rw [List.map_inj_left]
  constructor
  · intro hsame i hi a ha
    rw [← hsame i (List.mem_range.mpr hi), h.holds i a ha]
  · intro hsame i hi
    rcases Nat.lt_or_ge i l.length with hlt | hge
    · have ha : l[i]? = some l[i] := List.getElem?_eq_getElem hlt
      rw [h.holds i _ ha, hsame i (List.mem_range.mp hi) _ ha]
    · exact h.frame i hge

end Filled
