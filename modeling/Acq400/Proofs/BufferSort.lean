/-
The buffers go where the order says.

A buffer is taken with its entry of `mm` as one `Content`: the bytes, the state, the
number, and where in the buffer the event is.  On contents `copy` is an assignment and
`swap` through the scratch buffer a swap, whether the two buffers are different ones or
not.  `mv` is never taken: no entry is empty before the scratch entry is cleared at the
end.  So the loop of `sortToLinearBuffer` puts the contents in place as `Place.place` does.
-/
import Acq400.Lib.Place
import Acq400.Stream.BufferDistribution

namespace Acq400

open MapBuffer

/-- A buffer and its entry, by what is in them and not where they are. -/
@[ext]
structure Content where
  bytes : Nat → UInt8
  state : BsState
  iseq : Nat
  off : Option Nat

/-! ### Different buffers have no byte in common -/

theorem getBase_succ (g : G) (ib : Nat) : getBase g (ib + 1) = getBase g ib + g.bufferlen := by
  unfold getBase
  rw [Nat.succ_mul]
  omega

theorem getBase_add (g : G) (ib k : Nat) :
    getBase g (ib + k) = getBase g ib + k * g.bufferlen := by
  unfold getBase
  rw [Nat.add_mul]
  omega

theorem getBase_mono (g : G) {ib ib' : Nat} (h : ib ≤ ib') : getBase g ib ≤ getBase g ib' :=
  Nat.add_le_add_left (Nat.mul_le_mul_right _ h) _

theorem getBase_outside {g : G} {ib ib' k : Nat} (hne : ib ≠ ib') (hk : k < g.bufferlen) :
    Memory.Outside (getBase g ib + k) (getBase g ib') g.bufferlen := by
  unfold Memory.Outside
  rcases Nat.lt_or_gt_of_ne hne with hlt | hlt
  · left
    have hle := getBase_mono g (show ib + 1 ≤ ib' from hlt)
    rw [getBase_succ] at hle
    omega
  · right
    have hle := getBase_mono g (show ib' + 1 ≤ ib from hlt)
    rw [getBase_succ] at hle
    omega

namespace Sorting

variable {g : G} {s s' : Sorting} {o : Nat → Nat} {n k ib : Nat}

/-- What is in buffer `ib`. -/
def content (g : G) (s : Sorting) (ib : Nat) : Content :=
  { bytes := fun k => if k < g.bufferlen then s.mem (getBase g ib + k) else 0
    state := (s.mm ib).state
    iseq := (s.mm ib).iseq
    off := (s.mm ib).esp.map fun esp => esp - getBase g ib }

/-- No entry has an event before its buffer. -/
def EspInside (g : G) (s : Sorting) : Prop :=
  ∀ ib esp, (s.mm ib).esp = some esp → getBase g ib ≤ esp

/-! ### Copies and swaps -/

theorem copy_espInside (h : EspInside g s) (ibTo ibFrom : Nat) :
    EspInside g (s.copy g ibTo ibFrom) := by
  intro ib esp hesp
  by_cases heq : ib = ibTo
  · subst heq
    simp only [copy, Function.update_self, Option.map_eq_some_iff] at hesp
    obtain ⟨esp', hesp', rfl⟩ := hesp
    have hle := h ibFrom esp' hesp'
    omega
  · simp only [copy, Function.update_of_ne heq] at hesp
    exact h ib esp hesp

theorem copy_content (h : EspInside g s) (ibTo ibFrom : Nat) :
    content g (s.copy g ibTo ibFrom)
      = Function.update (content g s) ibTo (content g s ibFrom) := by
  funext ib
  by_cases heq : ib = ibTo
  · subst heq
    rw [Function.update_self]
    ext k
    · simp only [content, copy]
      split
      · rename_i hk
        rw [Memory.copy_inside hk]
      · rfl
    · simp [content, copy]
    · simp [content, copy]
    · cases hesp : (s.mm ibFrom).esp with
      | none => simp [content, copy, hesp]
      | some esp =>
          have hle := h ibFrom esp hesp
          simp only [content, copy, Function.update_self, hesp, Option.map_some]
          simp
          omega
  · rw [Function.update_of_ne heq]
    ext k
    · simp only [content, copy]
      split
      · rename_i hk
        rw [Memory.copy_outside (getBase_outside heq hk)]
      · rfl
    · simp [content, copy, Function.update_of_ne heq]
    · simp [content, copy, Function.update_of_ne heq]
    · simp [content, copy, Function.update_of_ne heq]

theorem swap_espInside (h : EspInside g s) (aa bb tt : Nat) :
    EspInside g (s.swap g aa bb tt) :=
  copy_espInside (copy_espInside (copy_espInside h tt aa) aa bb) bb tt

/-- The scratch buffer keeps what the first one had. -/
theorem swap_scratch (h : EspInside g s) {aa bb tt : Nat} (ha : aa ≠ tt) (hb : bb ≠ tt) :
    content g (s.swap g aa bb tt) tt = content g s aa := by
  have h₁ := copy_espInside h tt aa
  have h₂ := copy_espInside h₁ aa bb
  unfold swap
  rw [copy_content h₂, Function.update_of_ne hb.symm, copy_content h₁,
    Function.update_of_ne ha.symm, copy_content h, Function.update_self]

/-- `swap` swaps, also where the two are the same. -/
theorem swap_content (h : EspInside g s) {aa bb tt : Nat} (ha : aa ≠ tt) (hb : bb ≠ tt)
    (hib : ib ≠ tt) :
    content g (s.swap g aa bb tt) ib = content g s (Equiv.swap bb aa ib) := by
  have h₁ := copy_espInside h tt aa
  have h₂ := copy_espInside h₁ aa bb
  unfold swap
  rw [copy_content h₂]
  by_cases hibb : ib = bb
  · subst hibb
    rw [Function.update_self, copy_content h₁, Function.update_of_ne ha.symm, copy_content h,
      Function.update_self, Equiv.swap_apply_left]
  · rw [Function.update_of_ne hibb, copy_content h₁]
    by_cases hiba : ib = aa
    · subst hiba
      rw [Function.update_self, copy_content h, Function.update_of_ne hb, Equiv.swap_apply_right]
    · rw [Function.update_of_ne hiba, copy_content h, Function.update_of_ne hib,
        Equiv.swap_apply_of_ne_of_ne hibb hiba]

theorem clr_of_ne {ib' : Nat} (hne : ib ≠ ib') : (s.clr ib').mm ib = s.mm ib :=
  Function.update_of_ne hne _ _

theorem clr_state_self : ((s.clr ib).mm ib).state = .empty := by
  simp [clr]

/-! ### Searching `mm` -/

/-- The search finds the only entry that is looked for. -/
theorem find_range {P : Nat → Bool} {p : Nat} (hp : p < n) (hP : P p = true)
    (honly : ∀ q, q < n → P q = true → q = p) : (List.range n).find? P = some p := by
  rw [List.find?_range_eq_some]
  refine ⟨hP, List.mem_range.mpr hp, ?_⟩
  intro q hq
  cases hPq : P q with
  | false => rfl
  | true =>
      have heq := honly q (by omega) hPq
      omega

/-! ### The loop -/

/-- `mm` numbers the buffers from 1 on in the order `o`, and the scratch buffer has no number. -/
structure Numbered (g : G) (o : Nat → Nat) (n : Nat) (s : Sorting) : Prop where
  order : Place.Within o n g.nbuffers
  seq : ∀ ib, 0 < ib → ∀ k, 0 < k → k ≤ n → ((s.mm ib).iseq = k ↔ ib = o k)
  scratch : (s.mm 0).iseq = 0
  no_empty : ∀ ib, (s.mm ib).state ≠ .empty
  inside : EspInside g s

/-- After `k` turns the contents are those that `s₀` had where `Place.place` says. -/
structure Sorted (g : G) (o : Nat → Nat) (s₀ : Sorting) (k : Nat) (s : Sorting) : Prop where
  inside : EspInside g s
  content_eq : ∀ ib, 0 < ib → content g s ib = content g s₀ (Place.place o k ib)
  scratch_seq : (s.mm 0).iseq ≤ k
  scratch_state : (s.mm 0).state ≠ .empty

variable {s₀ : Sorting}

theorem Sorted.iseq_eq (h : Sorted g o s₀ k s) (hib : 0 < ib) :
    (s.mm ib).iseq = (s₀.mm (Place.place o k ib)).iseq :=
  congrArg Content.iseq (h.content_eq ib hib)

theorem Sorted.state_eq (h : Sorted g o s₀ k s) (hib : 0 < ib) :
    (s.mm ib).state = (s₀.mm (Place.place o k ib)).state :=
  congrArg Content.state (h.content_eq ib hib)

/-- `findSeq` finds the next one where it lies. -/
theorem Sorted.findSeq (hnum : Numbered g o n s₀) (h : Sorted g o s₀ k s) (hk : k < n) :
    s.findSeq g (k + 1) = some ((Place.place o k).symm (o (k + 1))) := by
  have hpos := hnum.order.symm_pos (Nat.le_of_lt hk) (hnum.order.pos (k + 1) (by omega) hk)
  unfold Sorting.findSeq
  apply find_range (hnum.order.symm_lt (Nat.le_of_lt hk) (hnum.order.lt (k + 1) (by omega) hk))
  · rw [decide_eq_true_eq, h.iseq_eq hpos, Equiv.apply_symm_apply]
    exact (hnum.seq _ (hnum.order.pos (k + 1) (by omega) hk) (k + 1) (by omega) hk).mpr rfl
  · intro ib _ hseq
    rw [decide_eq_true_eq] at hseq
    rcases Nat.eq_zero_or_pos ib with rfl | hib
    · have hle := h.scratch_seq
      omega
    · have hplace := hnum.order.place_pos (Nat.le_of_lt hk) hib
      rw [h.iseq_eq hib, hnum.seq _ hplace _ (by omega) hk] at hseq
      rw [Equiv.eq_symm_apply]
      exact hseq

theorem Sorted.step (hnum : Numbered g o n s₀) (h : Sorted g o s₀ k s) (hk : k < n) :
    ∃ s', s.sortStep g (k + 1) = some s' ∧ Sorted g o s₀ (k + 1) s' := by
  have hfind := h.findSeq hnum hk
  have hpos := hnum.order.symm_pos (Nat.le_of_lt hk) (hnum.order.pos (k + 1) (by omega) hk)
  generalize hp : (Place.place o k).symm (o (k + 1)) = p at hfind hpos
  have hlt := hnum.order.length_lt
  have hne : (s.mm (k + 1)).state ≠ .empty := by
    rw [h.state_eq (by omega)]
    exact hnum.no_empty _
  have hscratch := swap_scratch h.inside (Nat.ne_of_gt hpos) (Nat.succ_ne_zero k)
  refine ⟨s.swap g p (k + 1) 0, ?_, swap_espInside h.inside _ _ _, ?_, ?_, ?_⟩
  · rw [sortStep, hfind, Option.bind_some, if_neg (by omega), if_neg hne]
  · intro ib hib
    rw [swap_content h.inside (Nat.ne_of_gt hpos) (Nat.succ_ne_zero k) (Nat.ne_of_gt hib),
      Place.place_succ_apply, hp]
    apply h.content_eq
    -- neither of the two that are swapped is the scratch buffer
    rw [Equiv.swap_apply_def]
    split_ifs <;> omega
  · have hseq : ((s.swap g p (k + 1) 0).mm 0).iseq = (s.mm p).iseq :=
      congrArg Content.iseq hscratch
    rw [hseq, h.iseq_eq hpos, ← hp, Equiv.apply_symm_apply]
    exact Nat.le_of_eq
      ((hnum.seq _ (hnum.order.pos (k + 1) (by omega) hk) (k + 1) (by omega) hk).mpr rfl)
  · have hstate : ((s.swap g p (k + 1) 0).mm 0).state = (s.mm p).state :=
      congrArg Content.state hscratch
    rw [hstate, h.state_eq hpos]
    exact hnum.no_empty _

theorem Numbered.sorted_zero (hnum : Numbered g o n s₀) : Sorted g o s₀ 0 s₀ := by
  refine ⟨hnum.inside, ?_, Nat.le_of_eq hnum.scratch, hnum.no_empty 0⟩
  intro ib _
  rfl

/-- **The loop runs to its end, and then the contents are in place.** -/
theorem run_sorted (hnum : Numbered g o n s₀) :
    ∀ k, k ≤ n → ∃ s, Lts.run (sortStep g) s₀ (List.range' 1 k) = some s ∧
      Sorted g o s₀ k s := by
  intro k
  induction k with
  | zero =>
      intro _
      exact ⟨s₀, rfl, hnum.sorted_zero⟩
  | succ k ih =>
      intro hk
      obtain ⟨s, hrun, hsorted⟩ := ih (by omega)
      obtain ⟨s', hstep, hsorted'⟩ := hsorted.step hnum hk
      refine ⟨s', ?_, hsorted'⟩
      rw [List.range'_1_concat, Lts.run_append, hrun, Option.bind_some, Lts.run_cons,
        Nat.add_comm 1 k, hstep]
      rfl

end Sorting

/-! ### The numbers -/

/-- A numbering loop numbers what it goes over and nothing else. -/
theorem foldl_assignSeq (stateOf : Nat → BsState) (esp a : Nat) (seq : Nat × (Nat → BufferSeq)) :
    ∀ len, (List.range' a len).foldl (assignSeq stateOf esp) seq
      = (seq.1 + len, fun ib =>
          if a ≤ ib ∧ ib < a + len then
            { state := stateOf ib
              iseq := seq.1 + (ib - a) + 1
              esp := if stateOf ib = .es then some esp else (seq.2 ib).esp }
          else seq.2 ib) := by
  intro len
  induction len with
  | zero =>
      have hnone : ∀ ib, ¬(a ≤ ib ∧ ib < a) := by omega
      simp [hnone]
  | succ len ih =>
      rw [List.range'_concat, List.foldl_append, ih, Nat.one_mul]
      simp only [List.foldl_cons, List.foldl_nil, assignSeq]
      refine Prod.ext_iff.mpr ⟨by simp only; omega, ?_⟩
      funext ib
      by_cases heq : ib = a + len
      · subst heq
        have hnew : ¬(a ≤ a + len ∧ a + len < a + len) := by omega
        have hold : a ≤ a + len ∧ a + len < a + (len + 1) := by omega
        simp only [Function.update_self, if_neg hnew, if_pos hold, Nat.add_sub_cancel_left]
      · have hiff : (a ≤ ib ∧ ib < a + (len + 1)) ↔ (a ≤ ib ∧ ib < a + len) := by omega
        simp only [Function.update_of_ne heq, hiff]

/-- The buffer that is number `k` in time, when the data begins in `ibStart`. -/
def timeOrder (g : G) (ibStart k : Nat) : Nat :=
  if k ≤ g.nbuffers - ibStart then ibStart + k - 1 else k - (g.nbuffers - ibStart) + 1

/-- The number of buffers that are numbered. -/
def timeLength (g : G) (ibStart ibFin : Nat) : Nat := (g.nbuffers - ibStart) + (ibFin - 1)

/-- The arrangement that the sort leaves. -/
def arrangement (g : G) (ibStart ibFin : Nat) : Equiv.Perm Nat :=
  Place.place (timeOrder g ibStart) (timeLength g ibStart ibFin)

/-- The buffers that `sortToLinearBuffer` is about, as it finds them. -/
structure AtCorner (g : PrePost) (ibStart ibFin ibEsp esp : Nat) : Prop where
  fin_lo : 2 ≤ ibFin
  fin_lt : ibFin < ibStart
  start_lt : ibStart < g.nbuffers
  esp_lo : 2 ≤ ibEsp
  esp_lt : ibEsp < g.nbuffers
  esp_in : ibEsp ≤ ibFin ∨ ibStart ≤ ibEsp
  esp_ge : getBase g.toG ibEsp ≤ esp
  bufferlen_pos : 0 < g.bufferlen

namespace AtCorner

variable {g : PrePost} {ibStart ibFin ibEsp esp ib k : Nat} {mem : Mem}

theorem getBuffer_baLo (h : AtCorner g ibStart ibFin ibEsp esp) :
    getBuffer g.toG (baLo g.toG) = 2 := by
  have hstart := h.start_lt
  have hlt := h.fin_lt
  have hle : 2 * g.bufferlen ≤ g.nbuffers * g.bufferlen := Nat.mul_le_mul_right _ (by omega)
  unfold getBuffer baLo ba1
  rw [if_neg (by omega), if_neg (by omega), Nat.add_sub_cancel_left,
    Nat.mul_div_cancel _ h.bufferlen_pos]

/-- The entries after both numbering loops. -/
def entries (g : PrePost) (ibFin ibEsp esp start : Nat) : Nat × (Nat → BufferSeq) :=
  BufferDistribution.assignLower g ibEsp esp ibFin
    (BufferDistribution.assignUpper g ibEsp esp start (0, fun _ => BufferSeq.new))

variable {start : Nat}

theorem entries_length (h : AtCorner g ibStart ibFin ibEsp esp)
    (hstart : getBuffer g.toG start = ibStart) :
    (entries g ibFin ibEsp esp start).1 = timeLength g.toG ibStart ibFin := by
  have hlo := h.fin_lo
  rw [entries, BufferDistribution.assignLower, BufferDistribution.assignUpper, hstart,
    h.getBuffer_baLo, foldl_assignSeq, foldl_assignSeq, timeLength]
  simp only
  omega

/-- A numbering loop has `es` at the event's buffer alone. -/
theorem stateOf_eq_es (ib ibEsp : Nat) (c : Prop) [Decidable c] (hc : c → ib ≠ ibEsp) :
    (if c then BsState.pre else if ib = ibEsp then BsState.es else BsState.post) ≠ .empty ∧
      ((if c then BsState.pre else if ib = ibEsp then BsState.es else BsState.post) = .es
        ↔ ib = ibEsp) := by
  by_cases hpre : c
  · rw [if_pos hpre]
    exact ⟨BsState.noConfusion, fun h => BsState.noConfusion h, fun h => absurd h (hc hpre)⟩
  · rw [if_neg hpre]
    by_cases hes : ib = ibEsp
    · rw [if_pos hes]
      exact ⟨BsState.noConfusion, fun _ => hes, fun _ => rfl⟩
    · rw [if_neg hes]
      exact ⟨BsState.noConfusion, fun h => BsState.noConfusion h, fun h => absurd h hes⟩

/-- What the two loops leave in each entry. -/
theorem entries_apply (h : AtCorner g ibStart ibFin ibEsp esp)
    (hstart : getBuffer g.toG start = ibStart) (ib : Nat) :
    (entries g ibFin ibEsp esp start).2 ib
      = if 2 ≤ ib ∧ ib ≤ ibFin then
          { state := if ibEsp < ibFin ∧ ib < ibEsp then .pre
              else if ib = ibEsp then .es else .post
            iseq := g.nbuffers - ibStart + ib - 1
            esp := if ib = ibEsp then some esp else none }
        else if ibStart ≤ ib ∧ ib < g.nbuffers then
          { state := if ib < ibEsp then .pre else if ib = ibEsp then .es else .post
            iseq := ib - ibStart + 1
            esp := if ib = ibEsp then some esp else none }
        else BufferSeq.new := by
  have hlo := h.fin_lo
  have hlt := h.start_lt
  have hfin := h.fin_lt
  have hlower : (2 ≤ ib ∧ ib < 2 + (ibFin + 1 - 2)) ↔ (2 ≤ ib ∧ ib ≤ ibFin) := by omega
  have hupper : (ibStart ≤ ib ∧ ib < ibStart + (g.nbuffers - ibStart))
      ↔ (ibStart ≤ ib ∧ ib < g.nbuffers) := by omega
  rw [entries, BufferDistribution.assignLower, BufferDistribution.assignUpper, hstart,
    h.getBuffer_baLo, foldl_assignSeq, foldl_assignSeq]
  simp only [hlower, hupper]
  by_cases hlow : 2 ≤ ib ∧ ib ≤ ibFin
  · -- the lower range ends before the upper one begins
    have hnot : ¬(ibStart ≤ ib ∧ ib < g.nbuffers) := by omega
    have hiseq : 0 + (g.nbuffers - ibStart) + (ib - 2) + 1 = g.nbuffers - ibStart + ib - 1 := by
      omega
    have hes := (stateOf_eq_es ib ibEsp (ibEsp < ibFin ∧ ib < ibEsp)
      (fun hc => Nat.ne_of_lt hc.2)).2
    rw [if_pos hlow, if_pos hlow, if_neg hnot, hiseq]
    simp only [hes]
    rfl
  · rw [if_neg hlow, if_neg hlow]
    by_cases hup : ibStart ≤ ib ∧ ib < g.nbuffers
    · have hes := (stateOf_eq_es ib ibEsp (ib < ibEsp) Nat.ne_of_lt).2
      rw [if_pos hup, if_pos hup, Nat.zero_add]
      simp only [hes]
      rfl
    · rw [if_neg hup, if_neg hup]

theorem entries_iseq (h : AtCorner g ibStart ibFin ibEsp esp)
    (hstart : getBuffer g.toG start = ibStart) (ib : Nat) :
    ((entries g ibFin ibEsp esp start).2 ib).iseq
      = if 2 ≤ ib ∧ ib ≤ ibFin then g.nbuffers - ibStart + ib - 1
        else if ibStart ≤ ib ∧ ib < g.nbuffers then ib - ibStart + 1 else 0 := by
  rw [h.entries_apply hstart, apply_ite BufferSeq.iseq, apply_ite BufferSeq.iseq]
  rfl

theorem entries_state (h : AtCorner g ibStart ibFin ibEsp esp)
    (hstart : getBuffer g.toG start = ibStart) (ib : Nat) :
    ((entries g ibFin ibEsp esp start).2 ib).state ≠ .empty ∧
      (((entries g ibFin ibEsp esp start).2 ib).state = .es ↔ ib = ibEsp) ∧
      ((entries g ibFin ibEsp esp start).2 ib).esp = if ib = ibEsp then some esp else none := by
  rw [h.entries_apply hstart]
  by_cases hlow : 2 ≤ ib ∧ ib ≤ ibFin
  · rw [if_pos hlow]
    have hspec := stateOf_eq_es ib ibEsp (ibEsp < ibFin ∧ ib < ibEsp)
      (fun hc => Nat.ne_of_lt hc.2)
    exact ⟨hspec.1, hspec.2, rfl⟩
  · rw [if_neg hlow]
    by_cases hup : ibStart ≤ ib ∧ ib < g.nbuffers
    · rw [if_pos hup]
      have hspec := stateOf_eq_es ib ibEsp (ib < ibEsp) Nat.ne_of_lt
      exact ⟨hspec.1, hspec.2, rfl⟩
    · -- the event's buffer is in one of the two ranges
      have hne : ib ≠ ibEsp := by
        have hlo := h.esp_lo
        have hesp := h.esp_lt
        have hin := h.esp_in
        omega
      rw [if_neg hup, if_neg hne]
      exact ⟨BsState.noConfusion, ⟨fun hes => BsState.noConfusion hes, fun heq => absurd heq hne⟩,
        rfl⟩

theorem timeOrder_mapped (h : AtCorner g ibStart ibFin ibEsp esp) (hk : 0 < k)
    (hle : k ≤ timeLength g.toG ibStart ibFin) :
    2 ≤ timeOrder g.toG ibStart k ∧ timeOrder g.toG ibStart k < g.nbuffers := by
  have hlo := h.fin_lo
  have hlt := h.fin_lt
  have hstart := h.start_lt
  unfold timeLength at hle
  unfold timeOrder
  split
  · omega
  · omega

theorem timeOrder_within (h : AtCorner g ibStart ibFin ibEsp esp) :
    Place.Within (timeOrder g.toG ibStart) (timeLength g.toG ibStart ibFin) g.nbuffers := by
  have hlt := h.fin_lt
  have hslt := h.start_lt
  refine ⟨?_, ?_, ?_, ?_⟩
  · intro i j hi hij hle
    unfold timeLength at hle
    unfold timeOrder
    split_ifs <;> omega
  · intro k hk hle
    exact Nat.lt_of_lt_of_le Nat.zero_lt_two (h.timeOrder_mapped hk hle).1
  · intro k hk hle
    exact (h.timeOrder_mapped hk hle).2
  · unfold timeLength
    omega

theorem numbered (h : AtCorner g ibStart ibFin ibEsp esp)
    (hstart : getBuffer g.toG start = ibStart) (mem : Mem) :
    Sorting.Numbered g.toG (timeOrder g.toG ibStart) (timeLength g.toG ibStart ibFin)
      { mem := mem, mm := (entries g ibFin ibEsp esp start).2 } := by
  have hlo := h.fin_lo
  have hlt := h.fin_lt
  have hslt := h.start_lt
  refine ⟨h.timeOrder_within, ?_, ?_, ?_, ?_⟩
  · intro ib hib k hk hle
    unfold timeLength at hle
    rw [h.entries_iseq hstart]
    unfold timeOrder
    split_ifs <;> omega
  · rw [h.entries_iseq hstart, if_neg (by omega), if_neg (by omega)]
  · intro ib
    exact (h.entries_state hstart ib).1
  · intro ib esp' hesp
    simp only at hesp
    rw [(h.entries_state hstart ib).2.2] at hesp
    split at hesp
    · rename_i heq
      cases hesp
      rw [heq]
      exact h.esp_ge
    · simp at hesp

theorem arrangement_done (h : AtCorner g ibStart ibFin ibEsp esp) (hk : 0 < k)
    (hle : k ≤ timeLength g.toG ibStart ibFin) :
    arrangement g.toG ibStart ibFin k = timeOrder g.toG ibStart k :=
  Place.place_done h.timeOrder_within.distinct k hk hle

section

variable {s : Sorting} {p : Nat}

/-- `findES` finds the buffer of the event where it went; no other entry has the state. -/
theorem findES_sorted (h : AtCorner g ibStart ibFin ibEsp esp)
    (hstart : getBuffer g.toG start = ibStart)
    (hsorted : Sorting.Sorted g.toG (timeOrder g.toG ibStart)
      { mem := mem, mm := (entries g ibFin ibEsp esp start).2 } (timeLength g.toG ibStart ibFin) s)
    (hpos : 0 < p) (hmapped : p < g.nbuffers)
    (hplace : arrangement g.toG ibStart ibFin p = ibEsp) :
    (s.clr 0).findES g.toG = some p := by
  unfold Sorting.findES
  apply Sorting.find_range hmapped
  · rw [decide_eq_true_eq, Sorting.clr_of_ne (Nat.ne_of_gt hpos), hsorted.state_eq hpos]
    exact (h.entries_state hstart _).2.1.mpr hplace
  · intro q _ hstate
    rw [decide_eq_true_eq] at hstate
    rcases Nat.eq_zero_or_pos q with rfl | hq
    · rw [Sorting.clr_state_self] at hstate
      simp at hstate
    · rw [Sorting.clr_of_ne (Nat.ne_of_gt hq), hsorted.state_eq hq,
        (h.entries_state hstart _).2.1] at hstate
      exact (arrangement g.toG ibStart ibFin).injective (hstate.trans hplace.symm)

/-- The entry has the event as far into its buffer as it was. -/
theorem esp_sorted (h : AtCorner g ibStart ibFin ibEsp esp)
    (hstart : getBuffer g.toG start = ibStart)
    (hsorted : Sorting.Sorted g.toG (timeOrder g.toG ibStart)
      { mem := mem, mm := (entries g ibFin ibEsp esp start).2 } (timeLength g.toG ibStart ibFin) s)
    (hpos : 0 < p) (hplace : arrangement g.toG ibStart ibFin p = ibEsp) :
    ((s.clr 0).mm p).esp = some (getBase g.toG p + (esp - getBase g.toG ibEsp)) := by
  have hoff := congrArg Content.off (hsorted.content_eq p hpos)
  change (s.mm p).esp.map _ = _ at hoff
  have hplace' : Place.place (timeOrder g.toG ibStart) (timeLength g.toG ibStart ibFin) p
      = ibEsp := hplace
  rw [hplace'] at hoff
  simp only [Sorting.content] at hoff
  rw [(h.entries_state hstart ibEsp).2.2, if_pos rfl, Option.map_some] at hoff
  obtain ⟨esp', hesp', hdiff⟩ := Option.map_eq_some_iff.mp hoff
  have hge := hsorted.inside p esp' hesp'
  rw [Sorting.clr_of_ne (Nat.ne_of_gt hpos), hesp', ← hdiff]
  congr 1
  omega

end

/-- **The sort completes, moves whole buffers, and `esp` goes where its buffer goes.** -/
theorem sortToLinearBuffer_spec (bd : BufferDistribution) {finish : Nat}
    (h : AtCorner g ibStart ibFin ibEsp bd.esp) (hesp : getBuffer g.toG bd.esp = ibEsp)
    (hstart : getBuffer g.toG start = ibStart) (hfin : getBuffer g.toG finish = ibFin)
    (mem : Mem) :
    ∃ mem' p,
      BufferDistribution.sortToLinearBuffer g mem bd start finish
        = some (mem', BufferDistribution.getSegmentsLinear g
            { bd with esp := getBase g.toG p + (bd.esp - getBase g.toG ibEsp) }) ∧
      arrangement g.toG ibStart ibFin p = ibEsp ∧
      ∀ ib, 0 < ib → ∀ k, k < g.bufferlen →
        mem' (getBase g.toG ib + k)
          = mem (getBase g.toG (arrangement g.toG ibStart ibFin ib) + k) := by
  have hnum := h.numbered hstart mem
  obtain ⟨s, hrun, hsorted⟩ := Sorting.run_sorted hnum _ (Nat.le_refl _)
  have hlt := h.fin_lt
  have hslt := h.start_lt
  have hpos : 0 < (arrangement g.toG ibStart ibFin).symm ibEsp :=
    hnum.order.symm_pos (Nat.le_refl _) (Nat.lt_of_lt_of_le Nat.zero_lt_two h.esp_lo)
  have hmapped : (arrangement g.toG ibStart ibFin).symm ibEsp < g.nbuffers :=
    hnum.order.symm_lt (Nat.le_refl _) h.esp_lt
  have hplace : arrangement g.toG ibStart ibFin
      ((arrangement g.toG ibStart ibFin).symm ibEsp) = ibEsp := Equiv.apply_symm_apply _ _
  refine ⟨s.mem, (arrangement g.toG ibStart ibFin).symm ibEsp, ?_, hplace, ?_⟩
  · unfold BufferDistribution.sortToLinearBuffer
    simp only
    rw [hesp, hfin, if_neg (by omega)]
    change (Lts.run (Sorting.sortStep g.toG)
      { mem := mem, mm := (entries g ibFin ibEsp bd.esp start).2 }
      (List.range' 1 (entries g ibFin ibEsp bd.esp start).1)).bind _ = _
    rw [h.entries_length hstart, hrun, Option.bind_some,
      h.findES_sorted hstart hsorted hpos hmapped hplace, Option.bind_some,
      h.esp_sorted hstart hsorted hpos hplace, Option.map_some]
    rfl
  · intro ib hib k hk
    have hbytes := congrFun (congrArg Content.bytes (hsorted.content_eq ib hib)) k
    simp only [Sorting.content, if_pos hk] at hbytes
    exact hbytes

end AtCorner

end Acq400
