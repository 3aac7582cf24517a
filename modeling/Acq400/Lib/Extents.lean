/-
Extents of an address space, and joining the ones that touch.

An extent is anything with a start and a length.  `Tiles parts lo hi` says that the
extents `parts` stand one behind the other from `lo` to `hi`.  `joinPairs` takes the
extents of a list two by two and joins the pairs that touch; the others are dropped.
-/
import Mathlib.Algebra.GroupWithZero.Nat
import Mathlib.Order.CompletePartialOrder
import Mathlib.Order.Interval.Set.LinearOrder
import Mathlib.Data.Set.Lattice
import Mathlib.Tactic.Common

namespace Extents

variable {α : Type} (start len : α → Nat)

/-- What an extent is made of. -/
def cells (a : α) : Set Nat := Set.Ico (start a) (start a + len a)

/-- `b` begins where `a` ends. -/
def Adjacent (a b : α) : Prop := start b = start a + len a

instance (a b : α) : Decidable (Adjacent start len a b) := inferInstanceAs (Decidable (_ = _))

/-- `b` begins where `a` ends, or later. -/
def Below (a b : α) : Prop := start a + len a ≤ start b

/-- The parts stand one behind the other. -/
def Tiles : List α → Nat → Nat → Prop
  | [], lo, hi => lo = hi
  | a :: parts, lo, hi => start a = lo ∧ Tiles parts (lo + len a) hi

variable {start len}

theorem Below.disjoint {a b : α} (h : Below start len a b) :
    Disjoint (cells start len a) (cells start len b) := by
  rw [Set.disjoint_left]
  intro x hxa hxb
  have hend := hxa.2
  have hstart := hxb.1
  unfold Below at h
  omega

/-- Of two extents that do not meet, the one that starts first is below the other. -/
theorem below_of_disjoint {a b : α} (hle : start a ≤ start b) (hb : 0 < len b)
    (h : Disjoint (cells start len a) (cells start len b)) : Below start len a b := by
  by_contra hnot
  unfold Below at hnot
  have ha : start b ∈ cells start len a := ⟨hle, by omega⟩
  have hb' : start b ∈ cells start len b := ⟨Nat.le_refl _, by omega⟩
  exact Set.disjoint_left.mp h ha hb'

namespace Tiles

theorem single (a : α) : Tiles start len [a] (start a) (start a + len a) := ⟨rfl, rfl⟩

theorem le {parts : List α} {lo hi : Nat} (h : Tiles start len parts lo hi) : lo ≤ hi := by
  induction parts generalizing lo with
  | nil => exact Nat.le_of_eq h
  | cons a parts ih =>
      have := ih h.2
      omega

theorem append {parts parts' : List α} {lo mid hi : Nat} (h : Tiles start len parts lo mid)
    (h' : Tiles start len parts' mid hi) : Tiles start len (parts ++ parts') lo hi := by
  induction parts generalizing lo with
  | nil =>
      obtain rfl : lo = mid := h
      exact h'
  | cons a parts ih => exact ⟨h.1, ih h.2⟩

/-- Each part begins where the one before it ends. -/
theorem isChain {parts : List α} {lo hi : Nat} (h : Tiles start len parts lo hi) :
    parts.IsChain (Adjacent start len) := by
  induction parts generalizing lo with
  | nil => exact .nil
  | cons a parts ih =>
      cases parts with
      | nil => exact .singleton a
      | cons b parts =>
          refine .cons_cons ?_ (ih h.2)
          rw [Adjacent, h.2.1, h.1]

theorem snoc {parts : List α} {a : α} {lo : Nat} (h : Tiles start len parts lo (start a)) :
    Tiles start len (parts ++ [a]) lo (start a + len a) := h.append (single a)

theorem start_ge {parts : List α} {a : α} {lo hi : Nat} (h : Tiles start len parts lo hi)
    (ha : a ∈ parts) : lo ≤ start a := by
  induction parts generalizing lo with
  | nil => exact absurd ha List.not_mem_nil
  | cons b parts ih =>
      rcases List.mem_cons.mp ha with rfl | ha
      · exact Nat.le_of_eq h.1.symm
      · have := ih h.2 ha
        omega

theorem pairwise_below {parts : List α} {lo hi : Nat} (h : Tiles start len parts lo hi) :
    parts.Pairwise (Below start len) := by
  induction parts generalizing lo with
  | nil => exact .nil
  | cons a parts ih =>
      refine .cons ?_ (ih h.2)
      intro b hb
      have := h.2.start_ge hb
      rwa [← h.1] at this

theorem sum_len {parts : List α} {lo hi : Nat} (h : Tiles start len parts lo hi) :
    hi = lo + (parts.map len).sum := by
  induction parts generalizing lo with
  | nil =>
      obtain rfl : lo = hi := h
      rfl
  | cons a parts ih =>
      rw [ih h.2, List.map_cons, List.sum_cons]
      omega

/-- The parts together are all there is from `lo` to `hi`. -/
theorem iUnion_cells {parts : List α} {lo hi : Nat} (h : Tiles start len parts lo hi) :
    Set.Ico lo hi = ⋃ a ∈ parts, cells start len a := by
  induction parts generalizing lo with
  | nil =>
      obtain rfl : lo = hi := h
      simp
  | cons a parts ih =>
      have hle := h.2.le
      have hfirst : cells start len a = Set.Ico lo (lo + len a) := by
        rw [cells, h.1]
      rw [← Set.Ico_union_Ico_eq_Ico (Nat.le_add_right lo (len a)) hle, ih h.2, ← hfirst]
      simp

end Tiles

section JoinPairs

variable (start len) (join : α → α → α)

/-- The pairs of a list that touch, joined. -/
def joinPairs : List α → List α
  | a :: b :: rest =>
    if Adjacent start len a b then join a b :: joinPairs rest else joinPairs rest
  | _ => []

variable {start len join}

/-- What is joined comes of two extents of the list. -/
theorem mem_joinPairs {l : List α} {x : α} (hx : x ∈ joinPairs start len join l) :
    ∃ a ∈ l, ∃ b ∈ l, Adjacent start len a b ∧ x = join a b := by
  fun_induction joinPairs start len join l with
  | case1 a b rest hadj ih =>
      rcases List.mem_cons.mp hx with rfl | hx
      · exact ⟨a, by simp, b, by simp, hadj, rfl⟩
      · obtain ⟨c, hc, d, hd, h⟩ := ih hx
        exact ⟨c, by simp [hc], d, by simp [hd], h⟩
  | case2 a b rest hadj ih =>
      obtain ⟨c, hc, d, hd, h⟩ := ih hx
      exact ⟨c, by simp [hc], d, by simp [hd], h⟩
  | case3 => exact absurd hx List.not_mem_nil

variable (hstart : ∀ a b, start (join a b) = start a)
  (hlen : ∀ a b, len (join a b) = len a + len b)

include hstart hlen

theorem joinPairs_pairwise {l : List α} (h : l.Pairwise (Below start len)) :
    (joinPairs start len join l).Pairwise (Below start len) := by
  fun_induction joinPairs start len join l with
  | case1 a b rest hadj ih =>
      obtain ⟨-, hb, hrest⟩ := by simpa only [List.pairwise_cons] using h
      refine .cons ?_ (ih hrest)
      intro x hx
      obtain ⟨c, hc, d, -, -, rfl⟩ := mem_joinPairs hx
      have hbc := hb c hc
      unfold Below at hbc ⊢
      unfold Adjacent at hadj
      rw [hstart, hstart, hlen]
      omega
  | case2 a b rest hadj ih =>
      obtain ⟨-, -, hrest⟩ := by simpa only [List.pairwise_cons] using h
      exact ih hrest
  | case3 => exact .nil

omit hstart in
theorem len_joinPairs {l : List α} {n : Nat} (h : ∀ a ∈ l, len a = n) :
    ∀ a ∈ joinPairs start len join l, len a = 2 * n := by
  intro x hx
  obtain ⟨a, ha, b, hb, -, rfl⟩ := mem_joinPairs hx
  rw [hlen, h a ha, h b hb]
  omega

/-- Where each extent of a list is tiled by `n` of `parts`, each joined one is by `2n`. -/
theorem tiles_joinPairs {parts l : List α} {n : Nat}
    (h : ∀ a ∈ l, ∃ ps, ps ⊆ parts ∧ ps.length = n ∧
      Tiles start len ps (start a) (start a + len a)) :
    ∀ a ∈ joinPairs start len join l, ∃ ps, ps ⊆ parts ∧ ps.length = 2 * n ∧
      Tiles start len ps (start a) (start a + len a) := by
  intro x hx
  obtain ⟨a, ha, b, hb, hadj, rfl⟩ := mem_joinPairs hx
  obtain ⟨ps, hps, hpsLen, hpsTiles⟩ := h a ha
  obtain ⟨qs, hqs, hqsLen, hqsTiles⟩ := h b hb
  unfold Adjacent at hadj
  rw [hadj] at hqsTiles
  refine ⟨ps ++ qs, List.append_subset.mpr ⟨hps, hqs⟩, ?_, ?_⟩
  · rw [List.length_append]
    omega
  · rw [hstart, hlen, ← Nat.add_assoc]
    exact hpsTiles.append hqsTiles

end JoinPairs

end Extents
