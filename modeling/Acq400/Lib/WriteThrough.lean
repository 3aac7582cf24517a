/-
A store with copies of some of its cells.

The cells of a set are kept twice.  A write goes to the store and to the copy, a
refresh takes every copy from the store again, and the store may change by
itself.  A kept cell is read from its copy.  Such a read is right as long as the
cell has been written or refreshed since it last changed by itself.
-/
import Mathlib.Logic.Function.Basic

namespace WriteThrough

variable {ι β : Type} [DecidableEq ι]

/-- The store and the copies. -/
structure Cells (ι β : Type) where
  store : ι → β
  copy : ι → β

/-- What can happen to a cell. -/
inductive Act (ι β : Type)
  | write (i : ι) (v : β)
  | look (i : ι)
  | refresh
  /-- The store changes by itself. -/
  | drift (i : ι) (v : β)

/-- One action on the cells, those of `kept` with a copy. -/
def step (kept : ι → Bool) (c : Cells ι β) : Act ι β → Cells ι β
  | .write i v =>
    { store := Function.update c.store i v,
      copy := if kept i then Function.update c.copy i v else c.copy }
  | .look _ => c
  | .refresh => { c with copy := fun i => if kept i then c.store i else c.copy i }
  | .drift i v => { c with store := Function.update c.store i v }

/-- A read, from the copy where there is one. -/
def read (kept : ι → Bool) (c : Cells ι β) (i : ι) : β := if kept i then c.copy i else c.store i

/-- Whether cell `i` is current after an action. -/
def currentStep (i : ι) (current : Bool) : Act ι β → Bool
  | .write j _ => j = i || current
  | .look _ => current
  | .refresh => true
  | .drift j _ => j ≠ i && current

/-- Cell `i` has been written or refreshed since it last changed by itself. -/
def Current (i : ι) (acts : List (Act ι β)) : Prop := acts.foldl (currentStep i) false = true

theorem step_current {kept : ι → Bool} {c : Cells ι β} {i : ι} {current : Bool} (hk : kept i)
    (h : current = true → c.copy i = c.store i) (act : Act ι β)
    (hcur : currentStep i current act = true) :
    (step kept c act).copy i = (step kept c act).store i := by
  cases act with
  | write j v =>
      by_cases hij : j = i
      · subst hij
        simp [step, hk]
      · have hold : current = true := by simpa [currentStep, hij] using hcur
        have hne : i ≠ j := fun e => hij e.symm
        simp only [step, Function.update_of_ne hne]
        split
        · rw [Function.update_of_ne hne, h hold]
        · exact h hold
  | look j => exact h hcur
  | refresh => simp [step, hk]
  | drift j v =>
      have hold : j ≠ i ∧ current = true := by simpa [currentStep] using hcur
      simpa [step, Function.update_of_ne hold.1.symm] using h hold.2

theorem foldl_current {kept : ι → Bool} {i : ι} (hk : kept i) :
    ∀ (acts : List (Act ι β)) (c : Cells ι β) (current : Bool),
      (current = true → c.copy i = c.store i) → acts.foldl (currentStep i) current = true →
      (acts.foldl (step kept) c).copy i = (acts.foldl (step kept) c).store i := by
  intro acts
  induction acts with
  | nil => intro c current h hcur; exact h hcur
  | cons act rest ih =>
      intro c current h hcur
      exact ih (step kept c act) (currentStep i current act) (step_current hk h act) hcur

/-- **A read of a current cell is a read of the store**, and so is one of a cell without a copy. -/
theorem read_of_current {kept : ι → Bool} {i : ι} {acts : List (Act ι β)} (c : Cells ι β)
    (hcur : Current i acts) :
    read kept (acts.foldl (step kept) c) i = (acts.foldl (step kept) c).store i := by
  unfold read
  split
  · rename_i hk
    exact foldl_current hk acts c false (by simp) hcur
  · rfl

end WriteThrough
