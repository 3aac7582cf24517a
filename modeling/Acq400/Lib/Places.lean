/-
Tokens kept in a family of lists.

`Partition all p` says that the tokens of `all` are spread over the lists `p l`,
each in exactly one of them and there only once, and that nothing else is in any.
Moving one token from a list to another, wherever it is taken out and put in,
keeps that, and so does rearranging every list.
-/
import Mathlib.Data.List.Perm.Basic
import Mathlib.Data.List.Nodup
import Mathlib.Logic.ExistsUnique

namespace Places

variable {ι α : Type}

/-- Every token of `all` in exactly one list, once, and nothing else in any. -/
structure Partition (all : List α) (p : ι → List α) : Prop where
  nodup : ∀ l, (p l).Nodup
  disjoint : ∀ l l' x, x ∈ p l → x ∈ p l' → l = l'
  cover : ∀ x, x ∈ all ↔ ∃ l, x ∈ p l

namespace Partition

variable {all : List α} {p q : ι → List α}

theorem existsUnique (h : Partition all p) {x : α} (hx : x ∈ all) : ∃! l, x ∈ p l := by
  obtain ⟨l, hl⟩ := (h.cover x).mp hx
  exact ⟨l, hl, fun l' hl' => h.disjoint l' l x hl' hl⟩

theorem of_perm (h : Partition all p) (hq : ∀ l, (q l).Perm (p l)) : Partition all q where
  nodup l := (hq l).nodup_iff.mpr (h.nodup l)
  disjoint l l' x hl hl' := h.disjoint l l' x ((hq l).mem_iff.mp hl) ((hq l').mem_iff.mp hl')
  cover x := by
    rw [h.cover x]
    exact exists_congr fun l => (hq l).mem_iff.symm

theorem move [DecidableEq α] (h : Partition all p) {x : α} {src dst : ι}
    (hx : x ∈ p src) (hne : src ≠ dst)
    (hsrc : (q src).Perm ((p src).erase x)) (hdst : (q dst).Perm (x :: p dst))
    (hrest : ∀ l, l ≠ src → l ≠ dst → q l = p l) : Partition all q := by
  have hxdst : x ∉ p dst := fun hc => hne (h.disjoint src dst x hx hc)
  -- where a token is afterwards, in terms of where it was
  have hmem : ∀ l y, y ∈ q l ↔ if y = x then l = dst else y ∈ p l := by
    intro l y
    by_cases hl : l = dst
    · subst hl
      rw [hdst.mem_iff, List.mem_cons]
      by_cases hy : y = x
      · simp [hy]
      · simp [hy]
    · by_cases hs : l = src
      · subst hs
        rw [hsrc.mem_iff, (h.nodup l).mem_erase_iff]
        by_cases hy : y = x
        · simp [hy, hne]
        · simp [hy]
      · rw [hrest l hs hl]
        by_cases hy : y = x
        · subst hy
          simp only [if_true, hl, iff_false]
          exact fun hc => hs (h.disjoint l src y hc hx)
        · simp [hy]
  refine ⟨?_, ?_, ?_⟩
  · intro l
    by_cases hl : l = dst
    · subst hl
      exact hdst.nodup_iff.mpr (List.nodup_cons.mpr ⟨hxdst, h.nodup l⟩)
    · by_cases hs : l = src
      · subst hs
        exact hsrc.nodup_iff.mpr ((h.nodup l).erase x)
      · rw [hrest l hs hl]
        exact h.nodup l
  · intro l l' y hl hl'
    rw [hmem] at hl hl'
    by_cases hy : y = x
    · rw [if_pos hy] at hl hl'
      exact hl.trans hl'.symm
    · rw [if_neg hy] at hl hl'
      exact h.disjoint l l' y hl hl'
  · intro y
    simp only [hmem]
    by_cases hy : y = x
    · simp only [hy, if_true, exists_eq, iff_true]
      exact (h.cover x).mpr ⟨src, hx⟩
    · simp only [if_neg hy]
      exact h.cover y

/-- The first token of `src` goes to the end of `dst`. -/
theorem pass [DecidableEq α] (h : Partition all p) {x : α} {src dst : ι} (hne : src ≠ dst)
    (hsrc : p src = x :: q src) (hdst : q dst = p dst ++ [x])
    (hrest : ∀ l, l ≠ src → l ≠ dst → q l = p l) : Partition all q := by
  have hx : x ∈ p src := by
    rw [hsrc]
    exact List.mem_cons_self
  refine h.move hx hne ?_ ?_ hrest
  · rw [hsrc, List.erase_cons_head]
  · rw [hdst]
    exact List.perm_append_singleton x (p dst)

end Partition

end Places
