/-
Tokens that go round four queues.

`Stations` are four queues in a circle: a token taken from the last is worked on,
is full, is open, and comes back to the last.  Read off in that order the queues
form one sequence, the `cycle`.  A token going on to the next queue leaves the
sequence as it is or carries its head to its tail, so the cyclic order never
changes.  What may change it is sending one queue past another, and
`isRotated_swap_iff` says when.
-/
import Mathlib.Data.List.Cycle

namespace Rotation

variable {α : Type}

/-- A rotation of a list without repetitions that starts at the same element is the list. -/
theorem eq_of_isRotated_cons {x : α} {l l' : List α} (hnodup : (x :: l).Nodup)
    (h : List.IsRotated (x :: l) (x :: l')) : l = l' := by
  obtain ⟨n, hn, hrot⟩ := List.isRotated_iff_mod.mp h
  rcases Nat.lt_or_ge n (x :: l).length with hlt | hge
  · have hhead : (x :: l)[n]? = (x :: l)[0]? := by
      rw [← List.head?_rotate hlt, hrot]
      simp
    have hzero : n = 0 := (List.getElem?_inj hlt hnodup).mp hhead
    subst hzero
    simpa using hrot
  · have hfull : n = (x :: l).length := Nat.le_antisymm hn hge
    rw [hfull, List.rotate_length] at hrot
    exact (List.cons.inj hrot).2

/-- Sending `b` past `c` keeps the cyclic order only where there is nothing to disturb. -/
theorem isRotated_swap_iff {a b c : List α} (hnodup : (a ++ b ++ c).Nodup) :
    List.IsRotated (a ++ b ++ c) (a ++ c ++ b) ↔ a = [] ∨ b = [] ∨ c = [] := by
  constructor
  · intro h
    rcases a with _ | ⟨x, a⟩
    · exact Or.inl rfl
    rcases b with _ | ⟨y, b⟩
    · exact Or.inr (Or.inl rfl)
    rcases c with _ | ⟨z, c⟩
    · exact Or.inr (Or.inr rfl)
    exfalso
    have heq : a ++ (y :: b) ++ (z :: c) = a ++ (z :: c) ++ (y :: b) :=
      eq_of_isRotated_cons hnodup h
    rw [List.append_assoc, List.append_assoc] at heq
    have hyz : y = z := (List.cons.inj (List.append_cancel_left heq)).1
    have hdisj := (List.nodup_append.mp hnodup).2.2
    exact hdisj y (by simp) z (by simp) hyz
  · rintro (rfl | rfl | rfl)
    · have hrot : List.IsRotated (b ++ c) (c ++ b) := List.isRotated_append
      simpa using hrot
    · simpa using List.IsRotated.refl (a ++ c)
    · simpa using List.IsRotated.refl (a ++ b)

/-- The four queues. -/
structure Stations (α : Type) where
  opens : List α
  refills : List α
  inflight : List α
  empties : List α

namespace Stations

/-- The queues in the order in which a token comes back. -/
def cycle (q : Stations α) : List α := q.opens ++ q.refills ++ q.inflight ++ q.empties

/-- The same tokens in the same cyclic order. -/
def Follows (ring : List α) (q : Stations α) : Prop := List.IsRotated q.cycle ring

variable {ring : List α} {q : Stations α}

theorem Follows.of_cycle_eq {q' : Stations α} (h : Follows ring q) (heq : q'.cycle = q.cycle) :
    Follows ring q' := by
  unfold Follows
  rw [heq]
  exact h

theorem take_cycle {x : α} {rest : List α} (he : q.empties = x :: rest) :
    cycle { q with inflight := q.inflight ++ [x], empties := rest } = q.cycle := by
  simp [cycle, he]

theorem complete_cycle {x : α} {rest : List α} (hi : q.inflight = x :: rest) :
    cycle { q with refills := q.refills ++ [x], inflight := rest } = q.cycle := by
  simp [cycle, hi]

theorem deliver_cycle {x : α} {rest : List α} (hr : q.refills = x :: rest) :
    cycle { q with opens := q.opens ++ [x], refills := rest } = q.cycle := by
  simp [cycle, hr]

/-- A token that comes back goes from the head of the sequence to its tail. -/
theorem Follows.release {x : α} {rest : List α} (h : Follows ring q)
    (ho : q.opens = x :: rest) :
    Follows ring { q with opens := rest, empties := q.empties ++ [x] } := by
  unfold Follows at h ⊢
  refine List.IsRotated.trans ?_ h
  have hcat : cycle { q with opens := rest, empties := q.empties ++ [x] }
      = (rest ++ q.refills ++ q.inflight ++ q.empties) ++ [x] := by
    simp [cycle]
  have hq : q.cycle = x :: (rest ++ q.refills ++ q.inflight ++ q.empties) := by
    simp [cycle, ho]
  rw [hcat, hq]
  exact List.isRotated_concat x _

theorem follows_discard_iff (hnodup : ring.Nodup) (h : Follows ring q) (hi : q.inflight = []) :
    Follows ring { q with refills := [], empties := q.empties ++ q.refills } ↔
      q.opens = [] ∨ q.refills = [] ∨ q.empties = [] := by
  have hcycle : q.cycle = q.opens ++ q.refills ++ q.empties := by
    simp [cycle, hi]
  have hdiscard : cycle { q with refills := [], empties := q.empties ++ q.refills }
      = q.opens ++ q.empties ++ q.refills := by
    simp [cycle, hi]
  unfold Follows at h ⊢
  rw [hcycle] at h
  rw [hdiscard, ← isRotated_swap_iff (h.nodup_iff.mpr hnodup)]
  exact ⟨fun h' => h.trans h'.symm, fun h' => h'.symm.trans h⟩

/-- The token in work is followed, in the ring, by the empty ones in their order. -/
theorem Follows.next {x : α} (h : Follows ring q) (hi : q.inflight = [x]) :
    List.IsRotated (x :: (q.empties ++ q.opens ++ q.refills)) ring := by
  refine List.IsRotated.trans ?_ h
  have hq : q.cycle = (q.opens ++ q.refills) ++ (x :: q.empties) := by
    simp [cycle, hi]
  have hx : x :: (q.empties ++ q.opens ++ q.refills)
      = (x :: q.empties) ++ (q.opens ++ q.refills) := by
    simp
  rw [hq, hx]
  exact List.isRotated_append

theorem Follows.next_eq [DecidableEq α] {x y : α} {rest : List α} (hnodup : ring.Nodup)
    (h : Follows ring q) (hi : q.inflight = [x]) (he : q.empties = y :: rest) :
    ∃ hx : x ∈ ring, ring.next x hx = y := by
  have hrot := h.next hi
  rw [he, List.cons_append, List.cons_append] at hrot
  have hx : x ∈ x :: y :: (rest ++ q.opens ++ q.refills) := by simp
  refine ⟨hrot.mem_iff.mp hx, ?_⟩
  rw [← List.isRotated_next_eq hrot (hrot.nodup_iff.mpr hnodup) hx]
  exact List.next_cons_cons_eq _ x y hx

end Stations

end Rotation
