/-
A DIO432 and its immediate thread.

Nothing but the change from IMMEDIATE to CLOCKED stops the thread, and that only if the
thread has set `task_active`.  `Stops` is that a call made in mode IMMEDIATE is such a
change, or changes nothing.  In such runs there is one thread at most, and after each
call there is one exactly in mode IMMEDIATE.

The mode is stored before the thread is told to stop.  A thread that has passed the test
of its loop by then, or passes it before it is told, writes the FIFO in mode CLOCKED;
`Allowed` leaves that out too.
-/
import Acq400.Driver.Dio432

namespace Acq400

namespace Dio432

variable {s s' : Dio432}

/-- A call that leaves no thread behind: in mode IMMEDIATE it changes nothing, or it is a
change to CLOCKED after the thread has run. -/
def Stops (s : Dio432) (mode : Dio432Mode) (force alwaysImmediate : Bool) : Prop :=
  s.mode = .immediate →
    (mode = .immediate ∧ force = false) ∨
      (mode = .clocked ∧ alwaysImmediate = false ∧ s.taskActive = true)

instance (s : Dio432) (mode : Dio432Mode) (force alwaysImmediate : Bool) :
    Decidable (Stops s mode force alwaysImmediate) := inferInstanceAs (Decidable (_ → _))

/-- A thread that has passed the test of its loop and not yet written. -/
def Writes (s : Dio432) (i : Nat) : Prop := (s.threads i).map DioThread.pc = some .write

/-- A thread whose next step may bring it to the write. -/
def Tests (s : Dio432) (i : Nat) : Prop := (s.threads i).map DioThread.pc = some .test

instance (s : Dio432) (i : Nat) : Decidable (Writes s i) := inferInstanceAs (Decidable (_ = _))

instance (s : Dio432) (i : Nat) : Decidable (Tests s i) := inferInstanceAs (Decidable (_ = _))

/-- Every call stops the thread where it has to; the mode CLOCKED is stored when no thread is
about to write, and no thread gets there before it is told to stop. -/
def Allowed (s : Dio432) : Dio432Act → Prop
  | .setMode mode force alwaysImmediate => Stops s mode force alwaysImmediate
  | .caller => s.caller = .store .clocked → ∀ i < s.nthreads, ¬ Writes s i
  | .thread i => s.caller = .switch .clocked → ¬ Tests s i

instance (s : Dio432) : ∀ act, Decidable (Allowed s act)
  | .setMode _ _ _ => inferInstanceAs (Decidable (Stops ..))
  | .caller => inferInstanceAs (Decidable (_ → _))
  | .thread _ => inferInstanceAs (Decidable (_ → _))

/-! ### The invariant -/

/-- There is no thread. -/
structure Quiet (s : Dio432) : Prop where
  none : ∀ i, s.threads i = none
  inactive : s.taskActive = false

/-- The thread in `w_task` is the only one. -/
structure Sole (s : Dio432) (w : Nat) (t : DioThread) : Prop where
  wTask : s.wTask = some w
  lt : w < s.nthreads
  thread : s.threads w = some t
  others : ∀ i, i ≠ w → s.threads i = none
  active : s.taskActive = true ↔ t.pc ≠ .created
  done : t.pc = .done → t.shouldStop = true

/-- What there is, by where the caller is. -/
def Holds (s : Dio432) : Prop :=
  match s.caller with
  | .out => (s.mode = .immediate ∧ ∃ w t, Sole s w t ∧ t.shouldStop = false) ∨
      (s.mode ≠ .immediate ∧ Quiet s)
  | .store mode =>
      (s.mode = .immediate ∧ mode = .clocked ∧
        ∃ w t, Sole s w t ∧ t.shouldStop = false ∧ t.pc ≠ .created) ∨
      (s.mode ≠ .immediate ∧ Quiet s)
  | .switch mode => s.mode = mode ∧
      ((mode = .clocked ∧
        ∃ w t, Sole s w t ∧ t.shouldStop = false ∧ t.pc ≠ .created ∧ t.pc ≠ .write) ∨ Quiet s)
  | .stopping w => s.mode = .clocked ∧
      ((∃ t, Sole s w t ∧ t.shouldStop = true ∧ t.pc ≠ .created ∧ t.pc ≠ .write) ∨ Quiet s)

/-- The invariant. -/
structure Sound (s : Dio432) : Prop where
  holds : s.Holds
  writes : ∀ mode ∈ s.writes, mode = .immediate

theorem Sound.start : Sound start :=
  ⟨Or.inr ⟨by decide, fun _ => rfl, rfl⟩, fun _ h => absurd h List.not_mem_nil⟩

/-! ### The caller -/

theorem Sound.setMode (h : Sound s) (hout : s.caller = .out) {mode : Dio432Mode}
    {force alwaysImmediate : Bool} (hstops : Stops s mode force alwaysImmediate) :
    Sound (s.setMode mode force alwaysImmediate) := by
  have hh := h.holds
  rw [Holds, hout] at hh
  unfold Dio432.setMode
  split
  · exact h
  · rename_i hchange
    refine ⟨?_, h.writes⟩
    rcases hh with ⟨himm, w, t, hsole, hstop⟩ | ⟨hne, hquiet⟩
    · rcases hstops himm with ⟨rfl, hforce⟩ | ⟨rfl, halways, hactive⟩
      · exact absurd ⟨by simp [hforce], himm⟩ hchange
      · refine Or.inl ⟨himm, ?_, w, t, ?_, hstop, hsole.active.mp hactive⟩
        · simp [halways]
        · exact ⟨hsole.wTask, hsole.lt, hsole.thread, hsole.others, hsole.active, hsole.done⟩
    · exact Or.inr ⟨hne, hquiet.none, hquiet.inactive⟩

theorem Sound.callerStep (h : Sound s) (hallowed : Allowed s .caller)
    (hstep : s.callerStep = some s') : Sound s' := by
  have hh := h.holds
  unfold Dio432.callerStep at hstep
  split at hstep
  · simp at hstep
  · -- the mode is stored
    rename_i mode hcall
    rw [Holds, hcall] at hh
    obtain rfl := Option.some.inj hstep
    refine ⟨⟨rfl, ?_⟩, h.writes⟩
    rcases hh with ⟨-, rfl, w, t, hsole, hstop, hrun⟩ | ⟨-, hquiet⟩
    · have hwrite : t.pc ≠ .write := fun hc =>
        hallowed hcall w hsole.lt (by simp [Writes, hsole.thread, hc])
      refine Or.inl ⟨rfl, w, t, ?_, hstop, hrun, hwrite⟩
      exact ⟨hsole.wTask, hsole.lt, hsole.thread, hsole.others, hsole.active, hsole.done⟩
    · exact Or.inr ⟨hquiet.none, hquiet.inactive⟩
  · -- a thread is created: there was none
    rename_i hcall
    rw [Holds, hcall] at hh
    obtain rfl := Option.some.inj hstep
    obtain ⟨hmode, ⟨hc, -⟩ | hquiet⟩ := hh
    · exact absurd hc (by decide)
    · refine ⟨Or.inl ⟨hmode, s.nthreads, ⟨.created, false⟩, ?_, rfl⟩, h.writes⟩
      refine ⟨rfl, Nat.lt_succ_self _, ?_, fun i hi => ?_, ?_, ?_⟩
      · exact Function.update_self ..
      · exact (Function.update_of_ne hi ..).trans (hquiet.none i)
      · simp [initImmediate, hquiet.inactive]
      · simp
  · -- the thread is told to stop
    rename_i hcall
    rw [Holds, hcall] at hh
    obtain rfl := Option.some.inj hstep
    obtain ⟨hmode, ⟨-, w, t, hsole, -, hrun, hwrite⟩ | hquiet⟩ := hh
    · have hactive : s.taskActive = true := hsole.active.mpr hrun
      simp only [initClocked, hsole.wTask, hactive, if_true, hsole.thread, Option.map_some]
      refine ⟨⟨hmode, Or.inl ⟨⟨t.pc, true⟩, ?_, rfl, hrun, hwrite⟩⟩, h.writes⟩
      refine ⟨rfl, hsole.lt, ?_, fun i hi => ?_, ?_, fun _ => rfl⟩
      · exact Function.update_self ..
      · exact (Function.update_of_ne hi ..).trans (hsole.others i hi)
      · simp [hrun]
    · have hnone : s.initClocked = { s with caller := .out } := by
        unfold initClocked
        split
        · rw [if_neg (by simp [hquiet.inactive])]
        · rfl
      rw [hnone]
      refine ⟨Or.inr ⟨?_, hquiet.none, hquiet.inactive⟩, h.writes⟩
      rw [hmode]
      decide
  · rename_i hcall
    rw [Holds, hcall] at hh
    obtain rfl := Option.some.inj hstep
    obtain ⟨hmode, ⟨hc, -⟩ | hquiet⟩ := hh
    · exact absurd hc (by decide)
    · refine ⟨Or.inr ⟨?_, hquiet.none, hquiet.inactive⟩, h.writes⟩
      rw [hmode]
      decide
  · -- the thread has ended
    rename_i w hcall
    rw [Holds, hcall] at hh
    split at hstep
    · rename_i hended
      obtain rfl := Option.some.inj hstep
      obtain ⟨hmode, ⟨t, hsole, -⟩ | hquiet⟩ := hh
      · rw [hsole.thread] at hended
        simp at hended
      · refine ⟨Or.inr ⟨?_, hquiet.none, hquiet.inactive⟩, h.writes⟩
        rw [hmode]
        decide
    · simp at hstep

/-! ### The thread -/

theorem Sole.advance {w : Nat} {t : DioThread} (h : Sole s w t) (hrun : t.pc ≠ .created)
    (pc : DioPc) (hpc : pc ≠ .created) (hdone : pc = .done → t.shouldStop = true) :
    Sole (s.setThread w (some { t with pc := pc })) w { t with pc := pc } := by
  refine ⟨h.wTask, h.lt, Function.update_self .., fun i hi => ?_, ?_, hdone⟩
  · exact (Function.update_of_ne hi ..).trans (h.others i hi)
  · exact iff_of_true (h.active.mpr hrun) hpc

theorem Sound.thread_cases (h : Sound s) {i : Nat} {t : DioThread} (ht : s.threads i = some t) :
    Sole s i t ∧
      ((s.caller = .out ∧ s.mode = .immediate ∧ t.shouldStop = false) ∨
        (s.caller = .store .clocked ∧ s.mode = .immediate ∧ t.shouldStop = false ∧
          t.pc ≠ .created) ∨
        (s.caller = .switch .clocked ∧ s.mode = .clocked ∧ t.shouldStop = false ∧
          t.pc ≠ .created ∧ t.pc ≠ .write) ∨
        (s.caller = .stopping i ∧ s.mode = .clocked ∧ t.shouldStop = true ∧
          t.pc ≠ .created ∧ t.pc ≠ .write)) := by
  have hnone : ¬ Quiet s := fun hq => by simp [hq.none] at ht
  have hthis : ∀ {w t'}, Sole s w t' → i = w ∧ t = t' := by
    intro w t' hs
    obtain rfl : i = w := by
      by_contra hne
      simp [hs.others i hne] at ht
    exact ⟨rfl, Option.some.inj (ht.symm.trans hs.thread)⟩
  have hh := h.holds
  unfold Holds at hh
  split at hh
  · rename_i hcall
    rcases hh with ⟨himm, w, t', hs, hstop⟩ | ⟨-, hq⟩
    · obtain ⟨rfl, rfl⟩ := hthis hs
      exact ⟨hs, Or.inl ⟨hcall, himm, hstop⟩⟩
    · exact absurd hq hnone
  · rename_i mode hcall
    rcases hh with ⟨himm, rfl, w, t', hs, hstop, hrun⟩ | ⟨-, hq⟩
    · obtain ⟨rfl, rfl⟩ := hthis hs
      exact ⟨hs, Or.inr (Or.inl ⟨hcall, himm, hstop, hrun⟩)⟩
    · exact absurd hq hnone
  · rename_i mode hcall
    obtain ⟨hmode, ⟨rfl, w, t', hs, hrest⟩ | hq⟩ := hh
    · obtain ⟨rfl, rfl⟩ := hthis hs
      exact ⟨hs, Or.inr (Or.inr (Or.inl ⟨hcall, hmode, hrest⟩))⟩
    · exact absurd hq hnone
  · rename_i w hcall
    obtain ⟨hmode, ⟨t', hs, hrest⟩ | hq⟩ := hh
    · obtain ⟨rfl, rfl⟩ := hthis hs
      exact ⟨hs, Or.inr (Or.inr (Or.inr ⟨hcall, hmode, hrest⟩))⟩
    · exact absurd hq hnone

theorem Sound.advanced (h : Sound s) {i : Nat} {t : DioThread} (ht : s.threads i = some t)
    (pc : DioPc) (hsole : Sole s' i { t with pc := pc }) (hpc : pc ≠ .created)
    (hwrite : pc = .write → s.mode = .immediate)
    (hcaller : s'.caller = s.caller) (hmode : s'.mode = s.mode)
    (hwrites : ∀ mode ∈ s'.writes, mode = .immediate) : Sound s' := by
  refine ⟨?_, hwrites⟩
  have hclocked : s.mode = .clocked → pc ≠ .write := by
    intro hm hc
    rw [hwrite hc] at hm
    exact absurd hm (by decide)
  obtain ⟨-, ⟨hc, hm, hs⟩ | ⟨hc, hm, hs, -⟩ | ⟨hc, hm, hs, -⟩ | ⟨hc, hm, hs, -⟩⟩ :=
    h.thread_cases ht
  · rw [Holds, hcaller, hc]
    exact Or.inl ⟨hmode.trans hm, i, _, hsole, hs⟩
  · rw [Holds, hcaller, hc]
    exact Or.inl ⟨hmode.trans hm, rfl, i, _, hsole, hs, hpc⟩
  · rw [Holds, hcaller, hc]
    exact ⟨hmode.trans hm, Or.inl ⟨rfl, i, _, hsole, hs, hpc, hclocked hm⟩⟩
  · rw [Holds, hcaller, hc]
    exact ⟨hmode.trans hm, Or.inl ⟨_, hsole, hs, hpc, hclocked hm⟩⟩

theorem Sound.immediateLoop (h : Sound s) {i : Nat} (hallowed : Allowed s (.thread i))
    {t : DioThread} (ht : s.threads i = some t) : Sound (s.immediateLoop i t) := by
  obtain ⟨hsole, hwhere⟩ := h.thread_cases ht
  cases hpc : t.pc with
  | created =>
      obtain ⟨-, -, hstop⟩ | ⟨-, -, -, hc⟩ | ⟨-, -, -, hc, -⟩ | ⟨-, -, -, hc, -⟩ := hwhere
      · simp only [Dio432.immediateLoop, hpc, hstop, Bool.false_eq_true, if_false]
        refine h.advanced ht .init ?_ (by decide) (by simp) rfl rfl h.writes
        refine ⟨hsole.wTask, hsole.lt, ?_, fun j hj => ?_, by simp, by simp⟩
        · simp [setThread, hstop]
        · exact (Function.update_of_ne hj ..).trans (hsole.others j hj)
      · exact absurd hpc hc
      · exact absurd hpc hc
      · exact absurd hpc hc
  | init =>
      have hrun : t.pc ≠ .created := by simp [hpc]
      have hadv := hsole.advance hrun .test (by decide) (by simp)
      simp only [Dio432.immediateLoop, hpc]
      exact h.advanced ht _ hadv (by decide) (by simp) rfl rfl h.writes
  | test =>
      have hsw : s.caller ≠ .switch .clocked := fun hc =>
        hallowed hc (by simp [Tests, ht, hpc])
      have hrun : t.pc ≠ .created := by simp [hpc]
      by_cases hstop : t.shouldStop = true
      · have hadv := hsole.advance hrun .done (by decide) (fun _ => hstop)
        simp only [Dio432.immediateLoop, hpc, if_pos hstop]
        exact h.advanced ht _ hadv (by decide) (by simp) rfl rfl h.writes
      · have himm : s.mode = .immediate := by
          obtain ⟨-, hm, -⟩ | ⟨-, hm, -⟩ | ⟨hc, -⟩ | ⟨-, -, hs, -⟩ := hwhere
          · exact hm
          · exact hm
          · exact absurd hc hsw
          · exact absurd hs hstop
        have hadv := hsole.advance hrun .write (by decide) (by simp)
        simp only [Dio432.immediateLoop, hpc, if_neg hstop]
        exact h.advanced ht _ hadv (by decide) (fun _ => himm) rfl rfl h.writes
  | write =>
      have hm : s.mode = .immediate := by
        obtain ⟨-, hm, -⟩ | ⟨-, hm, -⟩ | ⟨-, -, -, -, hw⟩ | ⟨-, -, -, -, hw⟩ := hwhere
        · exact hm
        · exact hm
        · exact absurd hpc hw
        · exact absurd hpc hw
      have hrun : t.pc ≠ .created := by simp [hpc]
      have hadv := hsole.advance hrun .wait (by decide) (by simp)
      simp only [Dio432.immediateLoop, hpc]
      refine h.advanced ht .wait ?_ (by decide) (by simp) rfl rfl ?_
      · exact ⟨hadv.wTask, hadv.lt, hadv.thread, hadv.others, hadv.active, hadv.done⟩
      · intro mode hmem
        rcases List.mem_append.mp hmem with hold | hnew
        · exact h.writes mode hold
        · rw [List.mem_singleton.mp hnew, hm]
  | wait =>
      have hrun : t.pc ≠ .created := by simp [hpc]
      have hadv := hsole.advance hrun .test (by decide) (by simp)
      simp only [Dio432.immediateLoop, hpc]
      exact h.advanced ht _ hadv (by decide) (by simp) rfl rfl h.writes
  | done =>
      have hstop := hsole.done hpc
      obtain ⟨-, -, hs⟩ | ⟨-, -, hs, -⟩ | ⟨-, -, hs, -⟩ | ⟨hc, hm, -⟩ := hwhere
      · simp [hstop] at hs
      · simp [hstop] at hs
      · simp [hstop] at hs
      · simp only [Dio432.immediateLoop, hpc]
        refine ⟨?_, h.writes⟩
        show Holds { s.setThread i none with taskActive := false }
        unfold Holds
        simp only [setThread, hc]
        refine ⟨hm, Or.inr ⟨fun j => ?_, rfl⟩⟩
        by_cases hj : j = i
        · simp [hj]
        · simp [hj, hsole.others j hj]

theorem Sound.step (h : Sound s) {act : Dio432Act} (hallowed : Allowed s act)
    (hstep : dio432Step s act = some s') : Sound s' := by
  cases act with
  | setMode mode force alwaysImmediate =>
      simp only [dio432Step] at hstep
      split at hstep
      · rename_i hout
        obtain rfl := Option.some.inj hstep
        exact h.setMode hout hallowed
      · simp at hstep
  | caller => exact h.callerStep hallowed hstep
  | thread i =>
      simp only [dio432Step, Option.map_eq_some_iff] at hstep
      obtain ⟨t, ht, rfl⟩ := hstep
      exact h.immediateLoop hallowed ht

/-- A call that does not stop the thread leaves two, or one in another mode than IMMEDIATE. -/
theorem not_stops_leaks (h : Sound s) (hout : s.caller = .out) {mode : Dio432Mode}
    {force alwaysImmediate : Bool} (hnot : ¬ Stops s mode force alwaysImmediate) :
    ∃ s', Lts.run dio432Step s [.setMode mode force alwaysImmediate, .caller, .caller] = some s' ∧
      s'.caller = .out ∧
      ((∃ i j, i ≠ j ∧ s'.threads i ≠ none ∧ s'.threads j ≠ none) ∨
        (s'.mode ≠ .immediate ∧ ∃ i, s'.threads i ≠ none)) := by
  simp only [Stops, Classical.not_imp, not_or, not_and, Bool.not_eq_false] at hnot
  obtain ⟨himm, hforce, hclocked⟩ := hnot
  have hh := h.holds
  rw [Holds, hout] at hh
  rcases hh with ⟨-, w, t, hsole, -⟩ | ⟨hne, -⟩
  · have hw : s.threads w ≠ none := by simp [hsole.thread]
    have hnew : w ≠ s.nthreads := Nat.ne_of_lt hsole.lt
    have hrun : ∀ s₁, s.setMode mode force alwaysImmediate = s₁ →
        Lts.run dio432Step s [.setMode mode force alwaysImmediate, .caller, .caller] =
          (s₁.callerStep).bind callerStep := by
      rintro s₁ rfl
      simp only [Lts.run_cons, Lts.run_nil, dio432Step, hout, if_true, Option.bind_some]
      congr 1
      funext s₂
      cases s₂.callerStep <;> rfl
    have hcreate : s.setMode mode force alwaysImmediate = { s with caller := .store .immediate } →
        ∃ s', Lts.run dio432Step s [.setMode mode force alwaysImmediate, .caller, .caller] =
            some s' ∧ s'.caller = .out ∧
          ((∃ i j, i ≠ j ∧ s'.threads i ≠ none ∧ s'.threads j ≠ none) ∨
            (s'.mode ≠ .immediate ∧ ∃ i, s'.threads i ≠ none)) := by
      intro hset
      refine ⟨_, hrun _ hset, rfl, Or.inl ⟨w, s.nthreads, hnew, ?_, ?_⟩⟩
      · show Function.update s.threads s.nthreads _ w ≠ none
        rw [Function.update_of_ne hnew]
        exact hw
      · show Function.update s.threads s.nthreads _ s.nthreads ≠ none
        rw [Function.update_self]
        exact Option.some_ne_none _
    cases mode with
    | immediate => exact hcreate (by simp [Dio432.setMode, hforce rfl])
    | disable =>
        have hset : s.setMode .disable force alwaysImmediate =
            { s with caller := .store .disable } := by
          simp [Dio432.setMode, himm]
        exact ⟨{ s with mode := .disable, caller := .out }, hrun _ hset, rfl,
          Or.inr ⟨by simp, w, hw⟩⟩
    | clocked =>
        cases alwaysImmediate with
        | true => exact hcreate (by simp [Dio432.setMode, himm])
        | false =>
            have hset : s.setMode .clocked force false =
                { s with caller := .store .clocked } := by
              simp [Dio432.setMode, himm]
            have hinactive : s.taskActive = false := by
              simpa using hclocked rfl rfl
            refine ⟨{ s with mode := .clocked, caller := .out }, (hrun _ hset).trans ?_, rfl,
              Or.inr ⟨by simp, w, hw⟩⟩
            simp [callerStep, initClocked, hsole.wTask, hinactive]
  · exact absurd himm hne

/--
**DIO mode and its thread.**  In every run in which each call stops the thread where it
has to, and the mode CLOCKED is stored with no thread on its way to the FIFO: there is one
thread at most, outside a call there is one exactly in mode IMMEDIATE, and the FIFO is
written in mode IMMEDIATE only.
-/
theorem setMode_one_thread (acts : List Dio432Act)
    (hallowed : Lts.Meets dio432Step Allowed start acts)
    (hrun : Lts.run dio432Step start acts = some s) :
    (∀ i j, s.threads i ≠ none → s.threads j ≠ none → i = j) ∧
      (s.caller = .out → ((∃ i, s.threads i ≠ none) ↔ s.mode = .immediate)) ∧
      ∀ mode ∈ s.writes, mode = .immediate := by
  have h := Lts.run_invariant_of Sound (fun _ _ _ h ha hstep => h.step ha hstep) acts _ s
    Sound.start hallowed hrun
  refine ⟨fun i j hi hj => ?_, fun hout => ?_, h.writes⟩
  · obtain ⟨t, ht⟩ := Option.ne_none_iff_exists'.mp hi
    by_contra hne
    exact hj ((h.thread_cases ht).1.others j (Ne.symm hne))
  · have hh := h.holds
    rw [Holds, hout] at hh
    rcases hh with ⟨himm, w, t, hsole, -⟩ | ⟨hne, hquiet⟩
    · exact iff_of_true ⟨w, by simp [hsole.thread]⟩ himm
    · exact iff_of_false (fun ⟨i, hi⟩ => hi (hquiet.none i)) hne

/-- The thread runs, the mode is changed to CLOCKED and back. -/
private def thereAndBack : List Dio432Act :=
  [.setMode .immediate false false, .caller, .caller] ++ List.replicate 4 (.thread 0) ++
    [.setMode .clocked false false, .caller, .caller] ++ List.replicate 3 (.thread 0) ++
    [.caller, .setMode .immediate false false, .caller, .caller]

theorem setMode_one_thread_back :
    ∃ s, Lts.run dio432Step start thereAndBack = some s ∧
      (∀ i j, s.threads i ≠ none → s.threads j ≠ none → i = j) ∧
      (s.caller = .out → ((∃ i, s.threads i ≠ none) ↔ s.mode = .immediate)) ∧
      ∀ mode ∈ s.writes, mode = .immediate := by
  obtain ⟨s, hrun, -⟩ := Lts.exists_of_any dio432Step start thereAndBack
    (fun s => s.caller = .out) (by decide)
  exact ⟨s, hrun, setMode_one_thread thereAndBack (by decide) hrun⟩

/-- DISABLE leaves the thread, which goes on writing.  CLOCKED before the thread has run, and
then IMMEDIATE, leave two. -/
theorem setMode_leaks_thread :
    (∃ s, Lts.run dio432Step start
        ([.setMode .immediate false false, .caller, .caller, .thread 0,
          .setMode .disable false false, .caller, .caller] ++ List.replicate 3 (.thread 0)) =
        some s ∧
      s.caller = .out ∧ s.mode = .disable ∧ s.threads 0 ≠ none ∧ s.writes = [.disable]) ∧
    (∃ s, Lts.run dio432Step start
        [.setMode .immediate false false, .caller, .caller,
          .setMode .clocked false false, .caller, .caller,
          .setMode .immediate false false, .caller, .caller] = some s ∧
      s.caller = .out ∧ s.threads 0 ≠ none ∧ s.threads 1 ≠ none) := by
  refine ⟨?_, ?_⟩
  · obtain ⟨s, hrun, hs⟩ := Lts.exists_of_any dio432Step start
      ([.setMode .immediate false false, .caller, .caller, .thread 0,
        .setMode .disable false false, .caller, .caller] ++ List.replicate 3 (.thread 0))
      (fun s => s.caller = .out ∧ s.mode = .disable ∧ s.threads 0 ≠ none ∧
        s.writes = [.disable]) (by decide)
    exact ⟨s, hrun, of_decide_eq_true hs⟩
  · obtain ⟨s, hrun, hs⟩ := Lts.exists_of_any dio432Step start
      [.setMode .immediate false false, .caller, .caller,
        .setMode .clocked false false, .caller, .caller,
        .setMode .immediate false false, .caller, .caller]
      (fun s => s.caller = .out ∧ s.threads 0 ≠ none ∧ s.threads 1 ≠ none) (by decide)
    exact ⟨s, hrun, of_decide_eq_true hs⟩

end Dio432

end Acq400
