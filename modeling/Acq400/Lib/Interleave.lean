/-
Interleavings of two lists of steps.

A step is a function of the state.  Where every step of the one list commutes with every step of
the other, all interleavings come to the same as the two lists one behind the other.
-/
import Mathlib.Logic.Function.Basic

variable {α σ : Type}

/-- The steps of two lists in some order that keeps the order of either. -/
inductive Interleave : List α → List α → List α → Prop
  | nil : Interleave [] [] []
  | left {a : α} {as bs cs : List α} : Interleave as bs cs → Interleave (a :: as) bs (a :: cs)
  | right {b : α} {as bs cs : List α} : Interleave as bs cs → Interleave as (b :: bs) (b :: cs)

namespace Interleave

variable {step : σ → α → σ} {as bs cs : List α}

theorem append (as bs : List α) : Interleave as bs (as ++ bs) := by
  induction as with
  | nil =>
      induction bs with
      | nil => exact .nil
      | cons b bs ih => exact .right ih
  | cons a as ih => exact .left ih

/-- Two steps that may be exchanged. -/
def Commute (step : σ → α → σ) (a b : α) : Prop := ∀ s, step (step s a) b = step (step s b) a

theorem foldl_behind {b : α} (as : List α) (h : ∀ a ∈ as, Commute step a b) :
    ∀ s, as.foldl step (step s b) = step (as.foldl step s) b := by
  induction as with
  | nil => intro s; rfl
  | cons a as ih =>
      intro s
      rw [List.foldl_cons, ← h a List.mem_cons_self s,
        ih fun a' ha' => h a' (List.mem_cons_of_mem _ ha')]
      rfl

theorem foldl_eq (h : Interleave as bs cs) (hcomm : ∀ a ∈ as, ∀ b ∈ bs, Commute step a b) :
    ∀ s, cs.foldl step s = (as ++ bs).foldl step s := by
  induction h with
  | nil => intro s; rfl
  | @left a as bs cs _ ih =>
      intro s
      rw [List.foldl_cons, ih fun a' ha' => hcomm a' (List.mem_cons_of_mem _ ha')]
      rfl
  | @right b as bs cs _ ih =>
      intro s
      rw [List.foldl_cons, ih fun a ha b' hb' => hcomm a ha b' (List.mem_cons_of_mem _ hb'),
        List.foldl_append, List.foldl_append, List.foldl_cons,
        foldl_behind as fun a ha => hcomm a ha b List.mem_cons_self]

end Interleave
