/-
A queue that may lose entries, and what its far end sees.

Entries are numbered in the order in which they are put in.  They leave by being
delivered from the head, by being dropped from the head, or by the whole queue
being dropped.  Whatever the order of events, what has been delivered and what is
still queued make up, in order, exactly the entries that were not dropped.
-/
import Mathlib.Data.List.Range
import Mathlib.Data.List.Nodup

namespace Fifo

/-- What can happen to the queue. -/
inductive Event (α : Type)
  | push (x : α)
  | deliver
  | drop
  | dropAll

/-- Everything that ever happened: the entries by number, and where each number went. -/
structure Hist (α : Type) where
  pushed : List α
  queued : List Nat
  delivered : List Nat
  dropped : List Nat

namespace Hist

variable {α : Type}

def start : Hist α := { pushed := [], queued := [], delivered := [], dropped := [] }

def step (h : Hist α) : Event α → Hist α
  | .push x => { h with pushed := h.pushed ++ [x], queued := h.queued ++ [h.pushed.length] }
  | .deliver =>
    { h with queued := h.queued.tail, delivered := h.delivered ++ h.queued.head?.toList }
  | .drop => { h with queued := h.queued.tail, dropped := h.dropped ++ h.queued.head?.toList }
  | .dropAll => { h with queued := [], dropped := h.dropped ++ h.queued }

/-- The entries with the given numbers. -/
def entries (h : Hist α) (ks : List Nat) : List α := ks.filterMap (h.pushed[·]?)

/-- What was put in, less what was dropped, in order. -/
def survivors (h : Hist α) : List Nat :=
  (List.range h.pushed.length).filter fun k => decide (k ∉ h.dropped)

/-- Nothing is lost but what is dropped, and nothing changes places. -/
structure Faithful (h : Hist α) : Prop where
  order : h.delivered ++ h.queued = h.survivors
  dropped_lt : ∀ k ∈ h.dropped, k < h.pushed.length

theorem faithful_start : (start : Hist α).Faithful :=
  ⟨rfl, fun k hk => by simp [start] at hk⟩

theorem Faithful.lt {h : Hist α} (hf : h.Faithful) {k : Nat}
    (hk : k ∈ h.delivered ++ h.queued) : k < h.pushed.length := by
  rw [hf.order, survivors, List.mem_filter] at hk
  exact List.mem_range.mp hk.1

theorem Faithful.sorted {h : Hist α} (hf : h.Faithful) :
    (h.delivered ++ h.queued).Pairwise (· < ·) := by
  rw [hf.order, survivors]
  exact List.Pairwise.filter _ List.pairwise_lt_range

/-- Dropping more numbers filters more of them out. -/
private theorem survivors_drop {h : Hist α} (hf : h.Faithful) (pre post more : List Nat)
    (hsplit : h.delivered ++ h.queued = pre ++ more ++ post) :
    (List.range h.pushed.length).filter (fun k => decide (k ∉ h.dropped ++ more))
      = pre ++ post := by
  have hsorted := hf.sorted
  have horder := hf.order
  rw [hsplit] at hsorted horder
  have hnodup : (pre ++ more ++ post).Nodup := hsorted.imp Nat.ne_of_lt
  have hfilter : (List.range h.pushed.length).filter (fun k => decide (k ∉ h.dropped ++ more))
      = (pre ++ more ++ post).filter fun k => decide (k ∉ more) := by
    rw [horder, survivors, List.filter_filter]
    refine List.filter_congr fun k _ => ?_
    simp only [List.mem_append, not_or, Bool.decide_and]
    exact Bool.and_comm _ _
  rw [hfilter, List.filter_append, List.filter_append]
  rw [List.nodup_append, List.nodup_append] at hnodup
  obtain ⟨⟨-, -, hpre⟩, -, hpost⟩ := hnodup
  have h1 : pre.filter (fun k => decide (k ∉ more)) = pre := by
    refine List.filter_eq_self.mpr fun k hk => ?_
    exact decide_eq_true fun hm => hpre k hk k hm rfl
  have h2 : more.filter (fun k => decide (k ∉ more)) = [] := by
    refine List.filter_eq_nil_iff.mpr fun k hk => ?_
    simp [hk]
  have h3 : post.filter (fun k => decide (k ∉ more)) = post := by
    refine List.filter_eq_self.mpr fun k hk => ?_
    exact decide_eq_true fun hm => hpost k (by simp [hm]) k hk rfl
  rw [h1, h2, h3, List.append_nil]

theorem Faithful.step {h : Hist α} (hf : h.Faithful) (e : Event α) : (h.step e).Faithful := by
  cases e with
  | push x =>
      refine ⟨?_, ?_⟩
      · have hlast : h.pushed.length ∉ h.dropped := fun hc => Nat.lt_irrefl _ (hf.dropped_lt _ hc)
        show h.delivered ++ (h.queued ++ [h.pushed.length])
          = (List.range (h.pushed ++ [x]).length).filter fun k => decide (k ∉ h.dropped)
        rw [List.length_append, List.length_singleton, List.range_succ, List.filter_append,
          ← List.append_assoc, hf.order, survivors]
        simp [hlast]
      · intro k hk
        have := hf.dropped_lt k hk
        simp only [Hist.step, List.length_append, List.length_singleton]
        omega
  | deliver =>
      refine ⟨?_, hf.dropped_lt⟩
      show h.delivered ++ h.queued.head?.toList ++ h.queued.tail = h.survivors
      rw [← hf.order]
      cases h.queued <;> simp
  | drop =>
      cases hq : h.queued with
      | nil =>
          refine ⟨?_, ?_⟩
          · have := hf.order
            simpa [Hist.step, survivors, hq] using this
          · simpa [Hist.step, hq] using hf.dropped_lt
      | cons k rest =>
          refine ⟨?_, ?_⟩
          · have := survivors_drop hf h.delivered rest [k]
              (by rw [hq]; simp)
            simpa [Hist.step, survivors, hq] using this.symm
          · intro j hj
            simp only [Hist.step, hq, List.head?_cons, Option.toList_some, List.mem_append,
              List.mem_singleton] at hj
            rcases hj with hj | rfl
            · exact hf.dropped_lt j hj
            · exact hf.lt (by simp [hq])
  | dropAll =>
      refine ⟨?_, ?_⟩
      · have := survivors_drop hf h.delivered [] h.queued
          (by simp)
        simpa [Hist.step, survivors] using this.symm
      · intro j hj
        rcases List.mem_append.mp hj with hj | hj
        · exact hf.dropped_lt j hj
        · exact hf.lt (by simp [hj])

end Hist

end Fifo
