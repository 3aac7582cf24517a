/-
Nodes linked one to the next.

`next` gives the node that a node leads to.  A list of nodes is a chain if each leads
to the one after it, and then following `next` from the first visits them in order.
What the last one leads to makes the chain a ring or a dead end.  A ring is tied off
where one of its nodes is made to lead to itself: whoever follows it then stays there.
-/
import Mathlib.Data.List.Iterate
import Mathlib.Data.List.Chain
import Mathlib.Data.Nat.ModEq
import Mathlib.Logic.Function.Basic

namespace Links

variable {ν : Type} {next : ν → ν}

/-- `b` is where `a` leads. -/
def To (next : ν → ν) (a b : ν) : Prop := next a = b

theorem iterate_of_isChain {first : ν} {rest : List ν}
    (h : (first :: rest).IsChain (To next)) :
    List.iterate next first (rest.length + 1) = first :: rest := by
  induction rest generalizing first with
  | nil => rfl
  | cons second rest ih =>
      rw [List.isChain_cons_cons] at h
      obtain ⟨hto, hrest⟩ := h
      have hnext : next first = second := hto
      rw [List.length_cons, List.iterate, hnext, ih hrest]

/-- The last node is reached after as many links as there are nodes besides the first. -/
theorem iterate_last {first : ν} {rest : List ν} (h : (first :: rest).IsChain (To next)) :
    next^[rest.length] first = (first :: rest).getLast (List.cons_ne_nil _ _) := by
  have hlen : rest.length < (List.iterate next first (rest.length + 1)).length := by
    rw [List.length_iterate]
    exact Nat.lt_succ_self _
  rw [← List.getElem_iterate next first (rest.length + 1) rest.length hlen, List.getLast_eq_getElem]
  simp only [iterate_of_isChain h, List.length_cons, Nat.add_sub_cancel]

theorem iterate_length {first : ν} {rest : List ν} (h : (first :: rest).IsChain (To next)) :
    next^[rest.length + 1] first = next ((first :: rest).getLast (List.cons_ne_nil _ _)) := by
  rw [Function.iterate_succ_apply', iterate_last h]

/-! ### Rings -/

/-- Each node leads to the one after it, and the last to the first. -/
def Ring (next : ν → ν) (nodes : List ν) : Prop :=
  ∀ k a, nodes[k]? = some a → nodes[(k + 1) % nodes.length]? = some (next a)

variable {nodes : List ν} {i j k n : Nat} {a b last : ν}

theorem Ring.iterate (h : Ring next nodes) (hi : nodes[i]? = some a) (j : Nat) :
    nodes[(i + j) % nodes.length]? = some (next^[j] a) := by
  induction j with
  | zero =>
      obtain ⟨hlt, -⟩ := List.getElem?_eq_some_iff.mp hi
      rw [Nat.add_zero, Nat.mod_eq_of_lt hlt]
      exact hi
  | succ j ih =>
      have hon := h _ _ ih
      rw [Nat.mod_add_mod] at hon
      rw [Function.iterate_succ_apply']
      exact hon

/-- Places less than the whole way round apart are different. -/
theorem add_mod_ne (hj : j < n) (hn : n < k) : (i + j) % k ≠ (i + n) % k := by
  intro heq
  have hmod : Nat.ModEq k j n := Nat.ModEq.add_left_cancel' i heq
  exact absurd (hmod.eq_of_lt_of_lt (by omega) hn) (by omega)

theorem Ring.next_ne (h : Ring next nodes) (hnodup : nodes.Nodup) (hlen : 1 < nodes.length)
    (hk : nodes[k]? = some a) : next a ≠ a := by
  intro hself
  obtain ⟨hlt, -⟩ := List.getElem?_eq_some_iff.mp hk
  have hon := h k a hk
  rw [hself, ← hk] at hon
  have hpos : (k + 1) % nodes.length < nodes.length := Nat.mod_lt _ (by omega)
  have heq := (List.getElem?_inj hpos hnodup).mp hon
  have hne : (k + 0) % nodes.length ≠ (k + 1) % nodes.length := add_mod_ne Nat.one_pos hlen
  rw [Nat.add_zero, Nat.mod_eq_of_lt hlt, heq] at hne
  exact hne rfl

/-- The links with one node made to lead to itself. -/
def tieOff [DecidableEq ν] (next : ν → ν) (last : ν) : ν → ν := Function.update next last last

section tieOff

variable [DecidableEq ν]

theorem tieOff_self : tieOff next last last = last := Function.update_self _ _ _

theorem tieOff_of_ne (h : a ≠ last) : tieOff next last a = next a := Function.update_of_ne h _ _

theorem iterate_tieOff_self (j : Nat) : (tieOff next last)^[j] last = last :=
  Function.iterate_fixed tieOff_self j

/-- Up to the node that is tied off the links are followed as before. -/
theorem Ring.iterate_tieOff_le (h : Ring next nodes) (hnodup : nodes.Nodup)
    (hi : nodes[i]? = some a) (hn : n < nodes.length)
    (hlast : nodes[(i + n) % nodes.length]? = some last) (hj : j ≤ n) :
    (tieOff next last)^[j] a = next^[j] a := by
  induction j with
  | zero => rfl
  | succ j ih =>
      rw [Function.iterate_succ_apply', Function.iterate_succ_apply', ih (by omega)]
      refine tieOff_of_ne ?_
      intro heq
      have hon := h.iterate hi j
      rw [heq, ← hlast] at hon
      have hlt : (i + j) % nodes.length < nodes.length := Nat.mod_lt _ (by omega)
      exact add_mod_ne hj hn ((List.getElem?_inj hlt hnodup).mp hon)

theorem Ring.iterate_tieOff_ge (h : Ring next nodes) (hnodup : nodes.Nodup)
    (hi : nodes[i]? = some a) (hn : n < nodes.length)
    (hlast : nodes[(i + n) % nodes.length]? = some last) (hj : n ≤ j) :
    (tieOff next last)^[j] a = last := by
  have hthere : (tieOff next last)^[n] a = last := by
    rw [h.iterate_tieOff_le hnodup hi hn hlast (Nat.le_refl n)]
    exact Option.some.inj ((h.iterate hi n).symm.trans hlast)
  obtain ⟨d, rfl⟩ := Nat.exists_eq_add_of_le hj
  rw [Nat.add_comm, Function.iterate_add_apply, hthere, iterate_tieOff_self]

/-- Of the ring's nodes it is the only one that leads to itself. -/
theorem Ring.tieOff_eq_self_iff (h : Ring next nodes) (hnodup : nodes.Nodup)
    (hi : nodes[i]? = some last) (hk : nodes[k]? = some a) :
    tieOff next last a = a ↔ a = last := by
  constructor
  · intro hself
    by_contra hne
    rw [tieOff_of_ne hne] at hself
    refine h.next_ne hnodup ?_ hk hself
    obtain ⟨hilt, rfl⟩ := List.getElem?_eq_some_iff.mp hi
    obtain ⟨hklt, rfl⟩ := List.getElem?_eq_some_iff.mp hk
    by_contra hone
    obtain rfl : i = k := by omega
    exact hne rfl
  · rintro rfl
    exact tieOff_self

end tieOff

end Links
