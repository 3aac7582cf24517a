/-
Reading a file to its end.

A read gets the number of cells asked for and gives back cells and the state of
the open file after it, or an error.  The reader asks for counts of its own
choosing and goes on until a read gives back nothing.  What it has then is the
cells of all the reads, one after the other.

`readsTo_cells` is how a file is shown to be read correctly whatever the counts:
each read has to give back the next few cells of the content, at least one while
there are any left.
-/
import Acq400.Lib.Run
import Mathlib.Data.List.Range
import Mathlib.Data.List.Induction

namespace Reads

variable {σ α : Type}

/-- Cells `p .. p + k - 1` of a content given cell by cell. -/
def cells (f : Nat → α) (p k : Nat) : List α := (List.range' p k).map f

@[simp] theorem cells_zero (f : Nat → α) (p : Nat) : cells f p 0 = [] := rfl

@[simp] theorem length_cells (f : Nat → α) (p k : Nat) : (cells f p k).length = k := by
  simp [cells]

theorem cells_append (f : Nat → α) (p j k : Nat) :
    cells f p j ++ cells f (p + j) k = cells f p (j + k) := by
  unfold cells
  rw [← List.map_append, List.range'_append_1]

theorem cells_congr {f g : Nat → α} {p k : Nat} (h : ∀ i, p ≤ i → i < p + k → f i = g i) :
    cells f p k = cells g p k := by
  unfold cells
  refine List.map_congr_left fun i hi => ?_
  rw [List.mem_range'_1] at hi
  exact h i hi.1 hi.2

@[simp] theorem cells_eq_nil {f : Nat → α} {p k : Nat} : cells f p k = [] ↔ k = 0 := by
  rw [← List.length_eq_zero_iff, length_cells]

theorem getElem?_cells (f : Nat → α) (p k i : Nat) :
    (cells f p k)[i]? = if i < k then some (f (p + i)) else none := by
  unfold cells
  rw [List.getElem?_map]
  by_cases h : i < k
  · rw [if_pos h, List.getElem?_range' h, Option.map_some, Nat.one_mul]
  · rw [if_neg h, List.getElem?_eq_none (by simp; omega), Option.map_none]

theorem cells_eq_cells {f g : Nat → α} {p q k : Nat} (h : ∀ i, i < k → f (p + i) = g (q + i)) :
    cells f p k = cells g q k := by
  unfold cells
  rw [List.range'_eq_map_range, List.range'_eq_map_range, List.map_map, List.map_map]
  exact List.map_congr_left fun i hi => h i (List.mem_range.mp hi)

theorem cells_inj {f g : Nat → α} {p k : Nat} (h : cells f p k = cells g p k) {i : Nat}
    (hi : i < k) : f (p + i) = g (p + i) := by
  have hget : (cells f p k)[i]? = (cells g p k)[i]? := by rw [h]
  rw [getElem?_cells, getElem?_cells, if_pos hi, if_pos hi] at hget
  exact Option.some.inj hget

/-- Contents that are taken from the same places are the same whatever is in the places, and
no others are. -/
theorem cells_comp_all_iff {β : Type} [DecidableEq β] {a b : α} (hab : a ≠ b) (r w : Nat → β)
    (len : Nat) :
    (∀ m : β → α, cells (fun i => m (r i)) 0 len = cells (fun i => m (w i)) 0 len) ↔
      ∀ i, i < len → r i = w i := by
  constructor
  · intro hall i hi
    have h := cells_inj (hall fun x => if x = w i then a else b) hi
    simp only [Nat.zero_add, if_true] at h
    by_contra hne
    rw [if_neg hne] at h
    exact hab h.symm
  · intro heq m
    exact cells_congr fun i _ hi => by rw [heq i (by omega)]

/-- The counts after the first. -/
def later (counts : Nat → Nat) : Nat → Nat := fun k => counts (k + 1)

/-- How many cells the first `k` reads ask for together. -/
def asked (counts : Nat → Nat) : Nat → Nat
  | 0 => 0
  | k + 1 => counts 0 + asked (later counts) k

theorem asked_const (c : Nat) : ∀ k, asked (fun _ => c) k = k * c := by
  intro k
  induction k with
  | zero => rw [asked, Nat.zero_mul]
  | succ k ih =>
      have hlater : later (fun _ => c) = fun _ => c := rfl
      rw [asked, hlater, ih, Nat.succ_mul, Nat.add_comm]

/-- Reading on from `s` gives `out` and then a read that gives nothing. -/
inductive ReadsTo (read : σ → Nat → Option (List α × σ)) : σ → (Nat → Nat) → List α → Prop
  | eof {s s' : σ} {counts : Nat → Nat} (h : read s (counts 0) = some ([], s')) :
      ReadsTo read s counts []
  | more {s s' : σ} {counts : Nat → Nat} {got out : List α}
      (h : read s (counts 0) = some (got, s')) (hne : got ≠ [])
      (rest : ReadsTo read s' (later counts) out) : ReadsTo read s counts (got ++ out)

/-- The state after the first `n` reads. -/
def after (read : σ → Nat → Option (List α × σ)) (s : σ) (counts : Nat → Nat) : Nat → Option σ
  | 0 => some s
  | n + 1 => (after read s counts n).bind fun s' => (read s' (counts n)).map Prod.snd

variable {read : σ → Nat → Option (List α × σ)}

theorem ReadsTo.first {s : σ} {counts : Nat → Nat} {out : List α}
    (h : ReadsTo read s counts out) : read s (counts 0) ≠ none := by
  cases h with
  | eof h => simp [h]
  | more h _ _ => simp [h]

/-- What a state allows to be read does not depend on how it is derived. -/
theorem ReadsTo.unique {s : σ} {counts : Nat → Nat} {out : List α}
    (h : ReadsTo read s counts out) :
    ∀ {out' : List α}, ReadsTo read s counts out' → out = out' := by
  induction h with
  | eof h =>
      intro out' h'
      cases h' with
      | eof _ => rfl
      | more h2 hne _ =>
          have : ([] : List α) = _ := congrArg Prod.fst (Option.some.inj (h.symm.trans h2))
          exact absurd this.symm hne
  | more h hne rest ih =>
      intro out' h'
      cases h' with
      | eof h2 => exact absurd (congrArg Prod.fst (Option.some.inj (h.symm.trans h2))) hne
      | more h2 _ rest' =>
          have heq := Option.some.inj (h.symm.trans h2)
          cases heq
          rw [ih rest']

/--
**A file whose reads each give the next cells is read correctly to its end.**  `inv` may speak
of the counts still to come, where the reads are correct for some counts only.
-/
theorem readsTo_cells (f : Nat → α) (len : Nat) (pos : σ → Nat) (inv : σ → (Nat → Nat) → Prop)
    (hmore : ∀ s counts, inv s counts → pos s < len →
      ∃ k s', 0 < k ∧ pos s + k ≤ len ∧ read s (counts 0) = some (cells f (pos s) k, s') ∧
        pos s' = pos s + k ∧ inv s' (later counts))
    (hend : ∀ s counts, inv s counts → pos s = len → ∃ s', read s (counts 0) = some ([], s')) :
    ∀ (left : Nat) (s : σ) (counts : Nat → Nat), inv s counts → pos s ≤ len → len - pos s = left →
      ReadsTo read s counts (cells f (pos s) left) := by
  intro left
  induction left using Nat.strong_induction_on with
  | _ left ih =>
      intro s counts hinv hle hleft
      rcases Nat.lt_or_eq_of_le hle with hlt | heq
      · obtain ⟨k, s', hk, hkl, hread, hpos, hinv'⟩ := hmore s counts hinv hlt
        have hrest := ih (left - k) (by omega) s' (later counts) hinv' (by omega) (by omega)
        have hsplit : cells f (pos s) left = cells f (pos s) k ++ cells f (pos s') (left - k) := by
          rw [hpos, cells_append]
          congr 1
          omega
        rw [hsplit]
        refine .more hread ?_ hrest
        rw [ne_eq, cells_eq_nil]
        omega
      · obtain ⟨s', hread⟩ := hend s counts hinv heq
        have : left = 0 := by omega
        rw [this, cells_zero]
        exact .eof hread

/-- What is kept by every read that succeeds holds in every state on the way. -/
theorem after_invariant (counts : Nat → Nat) (inv : Nat → σ → Prop)
    (hstep : ∀ n s got s', inv n s → read s (counts n) = some (got, s') → inv (n + 1) s')
    {s : σ} (h0 : inv 0 s) : ∀ (n : Nat) (s' : σ), after read s counts n = some s' → inv n s' := by
  intro n
  induction n with
  | zero => intro s' h; exact Option.some.inj h ▸ h0
  | succ n ih =>
      intro s' h
      rw [after, Option.bind_eq_some_iff] at h
      obtain ⟨t, ht, h⟩ := h
      rw [Option.map_eq_some_iff] at h
      obtain ⟨⟨got, t'⟩, hread, rfl⟩ := h
      exact hstep n t got t' (ih t ht) hread

end Reads

/-! ### Writing

Writing a string to its end.

The writer hands over as much of what is left as it chooses to.  A call may take less of it than it
gets, and the writer goes on behind what was taken.  `Takes` is all that has to be known of a call:
that it takes no more than it gets, and moves the position on by what it takes.  So the position
says what is left (`At`).
-/

namespace Writes

variable {σ α : Type}

/-- The file, and what is left to be written. -/
structure Client (σ α : Type) where
  file : σ
  rest : List α

variable (write : σ → List α → Option (Nat × σ))

/-- The writer hands over `count` cells. -/
def step (w : Client σ α) (count : Nat) : Option (Client σ α) :=
  if w.rest = [] ∨ w.rest.length < count then none
  else (write w.file (w.rest.take count)).map fun (taken, file) =>
    { file := file, rest := w.rest.drop taken }

/-- What a call does to the position. -/
def Takes (pos : σ → Nat) : Prop :=
  ∀ s piece taken t, write s piece = some (taken, t) →
    taken ≤ piece.length ∧ pos t = pos s + taken

/-- The writer has come to the position of the file. -/
structure At (pos : σ → Nat) (data : List α) (w : Client σ α) : Prop where
  le : pos w.file ≤ data.length
  rest : w.rest = data.drop (pos w.file)

/-- The counts hand over `left` cells, where every call takes what it gets. -/
def Hands : Nat → List Nat → Prop
  | left, [] => left = 0
  | left, count :: counts => 0 < left ∧ count ≤ left ∧ Hands (left - count) counts

variable {write} {pos : σ → Nat} {data : List α} {w t : Client σ α} {count : Nat}

theorem Hands.nil {counts : List Nat} (h : Hands 0 counts) : counts = [] := by
  cases counts with
  | nil => rfl
  | cons count counts => exact absurd h.1 (Nat.lt_irrefl 0)

theorem length_piece {p : Nat} (h : p + count ≤ data.length) :
    ((data.drop p).take count).length = count := by
  rw [List.length_take, List.length_drop]
  omega

theorem At.start {s : σ} (h : pos s = 0) : At pos data { file := s, rest := data } :=
  ⟨by rw [h]; exact Nat.zero_le _, by rw [h]; rfl⟩

/-- A call of the writer gets the cells at the position. -/
theorem At.call (h : At pos data w) (hstep : step write w count = some t) :
    pos w.file < data.length ∧ pos w.file + count ≤ data.length ∧
      ∃ taken, write w.file ((data.drop (pos w.file)).take count) = some (taken, t.file) ∧
        t.rest = w.rest.drop taken := by
  unfold step at hstep
  by_cases hend : w.rest = [] ∨ w.rest.length < count
  · rw [if_pos hend] at hstep
    exact nomatch hstep
  rw [if_neg hend] at hstep
  obtain ⟨⟨taken, file⟩, hwrite, rfl⟩ := Option.map_eq_some_iff.mp hstep
  obtain ⟨hne, hcount⟩ := not_or.mp hend
  have hlength : w.rest.length = data.length - pos w.file := by
    rw [h.rest, List.length_drop]
  have hpos : 0 < w.rest.length := List.length_pos_iff.mpr hne
  have hle := h.le
  rw [h.rest] at hwrite
  exact ⟨by omega, by omega, taken, hwrite, rfl⟩

theorem At.step (hwrite : Takes write pos) (h : At pos data w)
    (hstep : step write w count = some t) : At pos data t := by
  obtain ⟨-, hcount, taken, hcall, hrest⟩ := h.call hstep
  obtain ⟨htaken, hpos⟩ := hwrite _ _ _ _ hcall
  have hpiece : ((data.drop (pos w.file)).take count).length ≤ count := List.length_take_le _ _
  refine ⟨by omega, ?_⟩
  rw [hrest, h.rest, List.drop_drop, hpos]

theorem At.pos_eq (h : At pos data w) (hrest : w.rest = []) : pos w.file = data.length := by
  have hempty := h.rest
  rw [hrest] at hempty
  have := List.drop_eq_nil_iff.mp hempty.symm
  exact Nat.le_antisymm h.le this

end Writes
