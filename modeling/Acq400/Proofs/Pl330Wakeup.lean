/-
No transfer of a DMA channel is left behind.

Whoever leaves work undone has seen to it that somebody comes back: a done descriptor has
scheduled the tasklet, a thread that `fill_queue` found full raises its event, and a request
that was put into an idle thread is followed by a `pl330_chan_ctrl` (`Awake`).  And the
tasklet, the interrupt and the controller between them have only so many steps to do (`due`),
so they come to an end, and there nothing is left.

All this leaves the controller time to end its program: `_start` takes a thread that is
between `DMASEV` and `DMAEND` for one that is busy and does nothing.  Where that is the
`_start` of the interrupt, the one of the tasklet comes later; where it is that of the tasklet
too, no other one comes (`prompt`, `pl330_start_lost`).
-/
import Acq400.Proofs.Pl330Order

namespace Acq400

/-- A step that is not the client's. -/
def ChanAct.own : ChanAct → Bool
  | .prep .. | .txSubmit _ | .issuePending => false
  | _ => true

/-- `_trigger` is yet to come. -/
def TaskletPc.starts : TaskletPc → Bool
  | .fill _ | .ctrl => true
  | .start active => active.isNone

namespace Pl330Chan

variable {pl330 : Pl330Dmac} {s s' : Pl330Chan} {d : DescPtr} {rest : List DescPtr}

/-! ### Somebody comes back -/

/-- `pl330_tasklet` is going to be entered. -/
def Coming (s : Pl330Chan) : Prop := s.reqDone ≠ [] ∨ s.scheduled = true ∨ 0 < s.entering

/-- What is to be done, and who is to do it. -/
structure Awake (s : Pl330Chan) : Prop where
  ripe : ∀ d ∈ s.workList, s.status d = .done → s.scheduled = true ∨ 0 < s.entering
  completed : s.completedList ≠ [] → s.locked ≠ none ∨ 0 < s.calling ∨ s.callbacks ≠ []
  unsent : s.unsent ≠ [] → s.thrd.queue ≠ [] ∨ Coming s ∨ ∃ cur, s.locked = some (.fill cur)
  waiting : s.thrd.queue ≠ [] →
    s.thrd.reqRunning ≠ none ∨ Coming s ∨ ∃ pc, s.locked = some pc ∧ pc.starts = true

/-- The controller has come to `DMAEND` when the `_start` of the tasklet looks at it. -/
def prompt (s : Pl330Chan) : ChanAct → Bool
  | .locked =>
    match s.locked with
    | some (.start none) => !s.ending
    | _ => true
  | _ => true

theorem ending_of_prompt (hprompt : s.prompt .locked = true)
    (hlocked : s.locked = some (.start none)) : s.ending = false := by
  rw [prompt, hlocked] at hprompt
  exact Bool.not_eq_true' _ ▸ hprompt

theorem Awake.alloc : Awake alloc :=
  ⟨by simp [Pl330Chan.alloc], fun h => absurd rfl h, fun h => absurd rfl h, fun h => absurd rfl h⟩

theorem Awake.prep (h : Awake s) (hsound : Sound pl330 s) {dst src len : Nat} {flags : PrepFlags}
    (hstep : s.prep pl330 dst src len flags = some s') : Awake s' := by
  obtain ⟨desc, pool, n, x, rfl, -, hnew⟩ := hsound.placed.prep_cases hstep
  have hwork : ∀ d ∈ s.workList, d ≠ desc := fun d hd => hnew d (by simp [held, hd])
  refine ⟨?_, h.completed, ?_, h.waiting⟩
  · intro d hd hdone
    exact h.ripe d hd ((Function.update_of_ne (hwork d hd) ..).symm.trans hdone)
  · intro hun
    refine h.unsent fun hnil => hun (Eq.trans (unsent_congr (s := s) rfl ?_) hnil)
    exact fun d hd => Function.update_of_ne (hwork d hd) ..

theorem Awake.pickUp : Awake s.pickUp where
  ripe := by
    intro d hd hdone
    have hnot : s.status d ≠ .done := by simpa using (List.mem_filter.mp hd).2
    exact absurd hdone hnot
  completed := fun _ => Or.inl (Option.some_ne_none _)
  unsent := fun _ => Or.inr (Or.inr ⟨_, rfl⟩)
  waiting := fun _ => Or.inr (Or.inr ⟨_, rfl, rfl⟩)

/-- A descriptor that is refused is done, and another tasklet is scheduled for it. -/
theorem Awake.fillQueue (h : Awake s) (hsound : Sound pl330 s) {cur : List DescPtr}
    (hlocked : s.locked = some (.fill cur)) : Awake (s.fillQueue pl330 cur) := by
  cases cur with
  | nil =>
      refine ⟨h.ripe, fun _ => Or.inl (Option.some_ne_none _), fun hun => absurd ?_ hun,
        fun _ => Or.inr (Or.inr ⟨_, rfl, rfl⟩)⟩
      obtain ⟨pre, hsplit, hpre, -⟩ := hsound.cursor.split _ hlocked
      rw [List.append_nil] at hsplit
      refine List.filter_eq_nil_iff.mpr fun e he hprep => ?_
      exact hpre e (hsplit ▸ he) (of_decide_eq_true hprep)
  | cons d rest =>
      rcases fillQueue_cases pl330 s d rest with
        ⟨-, heq⟩ | ⟨-, hfull, heq⟩ | ⟨-, -, heq⟩ | ⟨-, -, idx, -, heq⟩
      · rw [heq]
        exact ⟨h.ripe, fun _ => Or.inl (Option.some_ne_none _),
          fun _ => Or.inr (Or.inr ⟨rest, rfl⟩), fun _ => Or.inr (Or.inr ⟨_, rfl, rfl⟩)⟩
      · rw [heq]
        exact ⟨h.ripe, fun _ => Or.inl (Option.some_ne_none _),
          fun _ => Or.inl (Pl330Thread.queue_of_full hfull), fun _ => Or.inr (Or.inr ⟨_, rfl, rfl⟩)⟩
      · rw [heq]
        exact ⟨fun _ _ _ => Or.inl rfl, fun _ => Or.inl (Option.some_ne_none _),
          fun _ => Or.inr (Or.inl (Or.inr (Or.inl rfl))), fun _ => Or.inr (Or.inr ⟨_, rfl, rfl⟩)⟩
      · rw [heq]
        refine ⟨?_, fun _ => Or.inl (Option.some_ne_none _),
          fun _ => Or.inr (Or.inr ⟨rest, rfl⟩), fun _ => Or.inr (Or.inr ⟨_, rfl, rfl⟩)⟩
        intro e he hdone
        by_cases hed : e = d
        · rw [hed] at hdone
          exact absurd ((Function.update_self ..).symm.trans hdone) DescStatus.noConfusion
        · exact h.ripe e he ((Function.update_of_ne hed ..).symm.trans hdone)

/-- A stopped thread that is left with a request has been started. -/
theorem trigger_waiting (hexec : s.executing = false) (hq : s._trigger.thrd.queue ≠ []) :
    s._trigger.thrd.reqRunning ≠ none := by
  rw [trigger_queue] at hq
  rcases s.trigger_cases with ⟨hc | hnil, -⟩ | ⟨idx, d, rest, -, -, heq⟩
  · rw [hexec] at hc
    simp at hc
  · exact absurd hnil hq
  · rw [heq]
    exact Option.some_ne_none idx

/-- The end of `pl330_chan_ctrl`: it has started the thread, or there is somebody else to. -/
theorem Awake.start (h : Awake s) (hsound : Sound pl330 s) {active : Option (Fin 2)}
    (hlocked : s.locked = some (.start active)) (hprompt : s.prompt .locked = true) :
    Awake (s.taskletStep pl330 (.start active)) := by
  have hunsent : s.unsent ≠ [] → s.thrd.queue ≠ [] ∨ Coming s := by
    intro hun
    rcases h.unsent hun with hq | hc | ⟨cur, hcur⟩
    · exact Or.inl hq
    · exact Or.inr hc
    · rw [hlocked] at hcur
      simp at hcur
  cases active with
  | some idx =>
      refine ⟨h.ripe, fun _ => Or.inr (Or.inl (Nat.succ_pos _)),
        fun hun => (hunsent hun).imp_right Or.inl, fun hq => ?_⟩
      rcases h.waiting hq with hrun | hc | ⟨pc, hpc, hstarts⟩
      · exact Or.inl hrun
      · exact Or.inr (Or.inl hc)
      · rw [hlocked] at hpc
        obtain rfl := Option.some.inj hpc
        simp [TaskletPc.starts] at hstarts
  | none =>
      obtain ⟨hrunning, -⟩ := hsound.engaged.idle (hsound.engaged.starting hlocked)
      have hexec : s.executing = false := by
        rw [executing, hrunning, ending_of_prompt hprompt hlocked]
        rfl
      have hstep : s.taskletStep pl330 (.start none) =
          { s._trigger with locked := none, calling := s.calling + 1 } := rfl
      rw [hstep, trigger_frame]
      refine ⟨h.ripe, fun _ => Or.inr (Or.inl (Nat.succ_pos _)), fun hun => ?_,
        fun hq => Or.inl (trigger_waiting hexec hq)⟩
      exact (hunsent hun).imp (fun hq hnil => hq (trigger_queue.symm.trans hnil)) Or.inl

theorem Awake.taskletStep (h : Awake s) (hsound : Sound pl330 s) {pc : TaskletPc}
    (hlocked : s.locked = some pc) (hprompt : s.prompt .locked = true) :
    Awake (s.taskletStep pl330 pc) := by
  cases pc with
  | fill cur => exact h.fillQueue hsound hlocked
  | ctrl =>
      refine ⟨h.ripe, fun _ => Or.inl (Option.some_ne_none _), fun hun => ?_, fun _ => ?_⟩
      · rcases h.unsent hun with hq | hc | ⟨cur, hcur⟩
        · exact Or.inl hq
        · exact Or.inr (Or.inl hc)
        · rw [hlocked] at hcur
          simp at hcur
      · cases hrunning : s.thrd.reqRunning with
        | none => exact Or.inr (Or.inr ⟨_, rfl, by rw [TaskletPc.starts, hrunning]; rfl⟩)
        | some idx => exact Or.inl (hrunning ▸ Option.some_ne_none idx)
  | start active => exact h.start hsound hlocked hprompt

/-- What is taken off the list is no more to be done by the tasklet but its callback. -/
theorem Awake.call (h : Awake s) (hsound : Sound pl330 s) : Awake s.call := by
  unfold Pl330Chan.call
  split
  · rename_i hnil
    exact ⟨h.ripe, fun hc => absurd hnil hc, h.unsent, h.waiting⟩
  · rename_i desc rest hcompleted
    have hnodup := hsound.placed.work_nodup
    rw [hcompleted] at hnodup
    have hwork : ∀ d ∈ s.workList, d ≠ desc := fun d hd =>
      (List.nodup_append.mp hnodup).2.2 d hd desc List.mem_cons_self
    refine ⟨?_, fun _ => Or.inr (Or.inr ?_), ?_, h.waiting⟩
    · intro d hd hdone
      exact h.ripe d hd ((Function.update_of_ne (hwork d hd) ..).symm.trans hdone)
    · exact List.append_ne_nil_of_right_ne_nil _ (List.cons_ne_nil _ [])
    · intro hun
      refine h.unsent fun hnil => hun (Eq.trans (unsent_congr (s := s) rfl ?_) hnil)
      exact fun d hd => Function.update_of_ne (hwork d hd) ..

theorem Awake.update (h : Awake s) (hsound : Sound pl330 s) (hes : s.es = true) :
    Awake s.pl330Update := by
  obtain ⟨idx, d, rest, hactive, hreq, -⟩ := hsound.engaged.of_es hes
  have hdone : s.reqDone ++ [d] ≠ [] :=
    List.append_ne_nil_of_right_ne_nil _ (List.cons_ne_nil d [])
  rw [update_active hactive hreq]
  exact ⟨h.ripe, h.completed, fun _ => Or.inr (Or.inl (Or.inl hdone)),
    fun _ => Or.inr (Or.inl (Or.inl hdone))⟩

theorem Awake.step (h : Awake s) (hsound : Sound pl330 s) {a : ChanAct}
    (hprompt : s.prompt a = true) (hstep : pl330Step pl330 s a = some s') : Awake s' := by
  cases a <;> simp only [pl330Step, Option.ite_none_right_eq_some, Option.some.injEq] at hstep
  case prep => exact h.prep hsound hstep
  case txSubmit =>
    obtain ⟨-, rfl⟩ := hstep
    exact ⟨h.ripe, h.completed, h.unsent, h.waiting⟩
  case issuePending =>
    obtain ⟨-, rfl⟩ := hstep
    exact ⟨fun _ _ _ => Or.inr (Nat.succ_pos _), h.completed,
      fun _ => Or.inr (Or.inl (Or.inr (Or.inr (Nat.succ_pos _)))),
      fun _ => Or.inr (Or.inl (Or.inr (Or.inr (Nat.succ_pos _))))⟩
  case softirq =>
    obtain ⟨-, rfl⟩ := hstep
    exact ⟨fun _ _ _ => Or.inr (Nat.succ_pos _), h.completed,
      fun _ => Or.inr (Or.inl (Or.inr (Or.inr (Nat.succ_pos _)))),
      fun _ => Or.inr (Or.inl (Or.inr (Or.inr (Nat.succ_pos _))))⟩
  case enter =>
    obtain ⟨-, rfl⟩ := hstep
    exact Awake.pickUp
  case locked =>
    obtain ⟨pc, hpc, rfl⟩ := Option.map_eq_some_iff.mp hstep
    exact h.taskletStep hsound hpc hprompt
  case call =>
    obtain ⟨-, rfl⟩ := hstep
    exact h.call hsound
  case callback =>
    obtain ⟨x, -, rfl⟩ := Option.map_eq_some_iff.mp hstep
    exact ⟨h.ripe, fun _ => Or.inr (Or.inl (Nat.succ_pos _)), h.unsent, h.waiting⟩
  case update =>
    obtain ⟨hc, rfl⟩ := hstep
    exact h.update hsound hc
  case rqcb =>
    split at hstep
    · simp at hstep
    · simp only [Option.ite_none_right_eq_some, Option.some.injEq] at hstep
      obtain ⟨-, rfl⟩ := hstep
      exact ⟨fun _ _ _ => Or.inl rfl, h.completed, fun _ => Or.inr (Or.inl (Or.inr (Or.inl rfl))),
        fun _ => Or.inr (Or.inl (Or.inr (Or.inl rfl)))⟩
  case sev =>
    obtain ⟨⟨idx, x⟩, -, rfl⟩ := Option.map_eq_some_iff.mp hstep
    exact ⟨h.ripe, h.completed, h.unsent, h.waiting⟩
  case dmaEnd =>
    obtain ⟨-, rfl⟩ := hstep
    exact ⟨h.ripe, h.completed, h.unsent, h.waiting⟩

/-- Nothing of the channel is pending: nobody holds `pch->lock` or waits for it, no tasklet is
scheduled, no callback is to be made, and the controller is stopped. -/
structure Quiet (s : Pl330Chan) : Prop where
  locked : s.locked = none
  entering : s.entering = 0
  calling : s.calling = 0
  callbacks : s.callbacks = []
  scheduled : s.scheduled = false
  reqDone : s.reqDone = []
  running : s.running = none
  ending : s.ending = false
  es : s.es = false

theorem quiet_iff_stuck :
    Quiet s ↔ ∀ a : ChanAct, a.own = true → pl330Step pl330 s a = none := by
  constructor
  · rintro ⟨hlocked, hentering, hcalling, hcallbacks, hscheduled, hdone, hrunning, hend, hes⟩ a hown
    cases a <;> simp_all [pl330Step, ChanAct.own]
  · intro h
    have hlocked : s.locked = none := Option.map_eq_none_iff.mp (h .locked rfl)
    refine ⟨hlocked, ?_, ?_, ?_, ?_, ?_, ?_, ?_, ?_⟩
    · have henter := h .enter rfl
      simpa [pl330Step, hlocked] using henter
    · have hcall := h .call rfl
      simpa [pl330Step, hlocked] using hcall
    · have hcallback := h (.callback 0) rfl
      simpa [pl330Step] using hcallback
    · have hsoft := h .softirq rfl
      simpa [pl330Step] using hsoft
    · have hrqcb := h .rqcb rfl
      cases hdone : s.reqDone with
      | nil => rfl
      | cons d rest => simp [pl330Step, hdone, hlocked] at hrqcb
    · exact Option.map_eq_none_iff.mp (h .sev rfl)
    · have hend := h .dmaEnd rfl
      simpa [pl330Step] using hend
    · have hupdate := h .update rfl
      simpa [pl330Step] using hupdate

theorem Quiet.not_coming (h : Quiet s) : ¬Coming s := by
  rintro (hdone | hscheduled | hentering)
  · exact hdone h.reqDone
  · rw [h.scheduled] at hscheduled
    simp at hscheduled
  · exact Nat.lt_irrefl 0 (h.entering ▸ hentering)

/-- Where nothing is pending, nothing is left. -/
theorem Awake.nothing_left (h : Awake s) (hsound : Sound pl330 s) (hquiet : Quiet s) :
    s.workList = [] ∧ s.completedList = [] ∧ s.thrd.queue = [] := by
  have hidle : s.thrd.reqRunning = none := by
    cases hactive : s.thrd.reqRunning with
    | none => rfl
    | some idx =>
        obtain ⟨d, rest, -, -, ⟨hrun, -⟩ | ⟨-, hes⟩⟩ := hsound.engaged.active idx hactive
        · rw [hquiet.running] at hrun
          simp at hrun
        · rw [hquiet.es] at hes
          simp at hes
  have hqueue : s.thrd.queue = [] := by
    by_contra hq
    rcases h.waiting hq with hrun | hc | ⟨pc, hpc, -⟩
    · exact hrun hidle
    · exact hquiet.not_coming hc
    · rw [hquiet.locked] at hpc
      simp at hpc
  have hunsent : s.unsent = [] := by
    by_contra hun
    rcases h.unsent hun with hq | hc | ⟨cur, hcur⟩
    · exact hq hqueue
    · exact hquiet.not_coming hc
    · rw [hquiet.locked] at hcur
      simp at hcur
  have hnot : s.notDone = [] := by
    rw [hsound.live.order, hquiet.reqDone, hqueue, hunsent]
    rfl
  refine ⟨?_, ?_, hqueue⟩
  · refine List.eq_nil_iff_forall_not_mem.mpr fun d hd => ?_
    have hdone : s.status d = .done := by
      by_contra hc
      have hmem : d ∈ s.notDone := List.mem_filter.mpr ⟨hd, decide_eq_true hc⟩
      rw [hnot] at hmem
      exact List.not_mem_nil hmem
    exact hquiet.not_coming (Or.inr (h.ripe d hd hdone))
  · by_contra hc
    rcases h.completed hc with hl | hcall | hback
    · exact hl hquiet.locked
    · exact Nat.lt_irrefl 0 (hquiet.calling ▸ hcall)
    · exact hback hquiet.callbacks

/-! ### How much there is to do -/

/-- What the holder of the lock has to do yet, its last loop included. -/
def TaskletPc.due : TaskletPc → Nat
  | .fill rest => rest.length + 6
  | .ctrl => 5
  | .start _ => 4

/-- A bound on the steps of the tasklet, the interrupt and the controller, for a work list of
`k` descriptors at the most. -/
def due (k : Nat) (s : Pl330Chan) : Nat :=
  (k + 12) * (s.unsent.length + s.thrd.queue.length) + (k + 9) * s.reqDone.length +
    2 * (s.workList.length + s.completedList.length + s.callbacks.length) +
    (k + 8) * s.scheduled.toNat + (k + 7) * s.entering + s.locked.elim 0 TaskletPc.due +
    s.calling + 2 * s.running.isSome.toNat + s.ending.toNat

/-- Each turn of the loop has one less of the work list before it. -/
theorem Sound.due_fillQueue (h : Sound pl330 s) (k : Nat) {cur : List DescPtr}
    (hlocked : s.locked = some (.fill cur)) : (s.fillQueue pl330 cur).due k < s.due k := by
  cases cur with
  | nil =>
      have hstep : s.fillQueue pl330 [] = { s with locked := some .ctrl } := rfl
      simp only [hstep, due, unsent, hlocked, Option.elim_some, TaskletPc.due, List.length_nil]
      omega
  | cons d rest =>
      have hmem := h.fill_mem hlocked
      have hnotdone : s.status d ≠ .done := by
        obtain ⟨pre, -, -, hcurs⟩ := h.cursor.split _ hlocked
        exact hcurs d List.mem_cons_self
      have hsched := Bool.toNat_le s.scheduled
      rcases fillQueue_cases pl330 s d rest with
        ⟨-, heq⟩ | ⟨-, -, heq⟩ | ⟨hbusy, -, heq⟩ | ⟨hbusy, -, idx, hfree, heq⟩
      · simp only [heq, due, unsent, hlocked, Option.elim_some, TaskletPc.due, List.length_cons]
        omega
      · simp only [heq, due, unsent, hlocked, Option.elim_some, TaskletPc.due, List.length_cons]
        omega
      · have hun := h.cursor.unsent_cons hlocked (h.live.prep_of_not_busy hmem hnotdone hbusy)
        have hun' := h.cursor.unsent_update h.work_nodup hlocked (by simp : DescStatus.done ≠ .prep)
        rw [unsent] at hun
        simp only [heq, due, unsent, hun, hun', hlocked, Option.elim_some, TaskletPc.due,
          List.length_cons, Bool.toNat_true, Nat.add_mul, Nat.mul_add]
        omega
      · have hun := h.cursor.unsent_cons hlocked (h.live.prep_of_not_busy hmem hnotdone hbusy)
        have hun' := h.cursor.unsent_update h.work_nodup hlocked (by simp : DescStatus.busy ≠ .prep)
        rw [unsent] at hun
        simp only [heq, due, unsent, hun, hun', Pl330Thread.queue_put hfree, hlocked,
          Option.elim_some, TaskletPc.due, List.length_cons, List.length_append, List.length_nil,
          Nat.add_mul, Nat.mul_add]
        omega

theorem due_start (k : Nat) {active : Option (Fin 2)}
    (hlocked : s.locked = some (.start active)) :
    (s.taskletStep pl330 (.start active)).due k < s.due k := by
  cases active with
  | some idx =>
      have hstep : s.taskletStep pl330 (.start (some idx)) =
          { s with locked := none, calling := s.calling + 1 } := rfl
      simp only [hstep, due, unsent, hlocked, Option.elim_some, Option.elim_none, TaskletPc.due]
      omega
  | none =>
      have hrun := Bool.toNat_le s._trigger.running.isSome
      have hstep : s.taskletStep pl330 (.start none) =
          { s._trigger with locked := none, calling := s.calling + 1 } := rfl
      rw [hstep, trigger_frame]
      simp only [due, unsent, trigger_queue, hlocked, Option.elim_some, Option.elim_none,
        TaskletPc.due]
      omega

theorem Sound.due_taskletStep (h : Sound pl330 s) (k : Nat) {pc : TaskletPc}
    (hlocked : s.locked = some pc) : (s.taskletStep pl330 pc).due k < s.due k := by
  cases pc with
  | fill cur => exact h.due_fillQueue k hlocked
  | ctrl =>
      have hstep : s.taskletStep pl330 .ctrl =
          { s with locked := some (.start s.thrd.reqRunning) } := rfl
      simp only [hstep, due, unsent, hlocked, Option.elim_some, TaskletPc.due]
      omega
  | start active => exact due_start k hlocked

theorem due_pickUp {k : Nat} (hk : s.workList.length ≤ k) (hlocked : s.locked = none)
    (hentering : 0 < s.entering) : s.pickUp.due k < s.due k := by
  have hlen := (ripe_notDone_perm (s := s)).length_eq
  have hstep : s.pickUp = { s with
      completedList := s.completedList ++ s.ripe
      workList := s.pickUp.workList
      entering := s.entering - 1
      locked := some (.fill s.pickUp.workList) } := rfl
  have hmul : (k + 7) * s.entering = (k + 7) * (s.entering - 1) + (k + 7) := by
    rw [← Nat.mul_succ, Nat.succ_eq_add_one, Nat.sub_add_cancel hentering]
  unfold due
  rw [pickUp_unsent, hstep, pickUp_workList]
  simp only [hlocked, Option.elim_some, Option.elim_none, TaskletPc.due, List.length_append]
    at hlen ⊢
  omega

theorem Sound.due_call (h : Sound pl330 s) (k : Nat) (hcalling : 0 < s.calling) :
    s.call.due k < s.due k := by
  unfold Pl330Chan.call
  split
  · simp only [due, unsent]
    omega
  · rename_i desc rest hcompleted
    have hnodup := h.placed.work_nodup
    rw [hcompleted] at hnodup
    have hwork : ∀ d ∈ s.workList, d ≠ desc := fun d hd =>
      (List.nodup_append.mp hnodup).2.2 d hd desc List.mem_cons_self
    have hun : (s.workList.filter fun e => Function.update s.status desc .free e = .prep) =
        s.workList.filter fun e => s.status e = .prep :=
      List.filter_congr fun e he => by rw [Function.update_of_ne (hwork e he)]
    simp only [due, unsent, hun, hcompleted, List.length_cons, List.length_append, List.length_nil]
    omega

/-- A callback is one of those that are due, and its loop goes on behind it. -/
theorem due_callback (k : Nat) {i : Nat} {x : Pl330Xfer} (hx : s.callbacks[i]? = some x) :
    (s.callback i x).due k < s.due k := by
  obtain ⟨hi, -⟩ := List.getElem?_eq_some_iff.mp hx
  have hlen := List.length_eraseIdx_of_lt hi
  have hun : (s.callback i x).unsent = s.unsent := rfl
  rw [due, due, hun]
  simp only [callback, hlen]
  omega

theorem Sound.due_update (h : Sound pl330 s) (k : Nat) (hes : s.es = true) :
    s.pl330Update.due k < s.due k := by
  obtain ⟨idx, d, rest, hactive, hreq, hq, -⟩ := h.engaged.of_es hes
  have hqueue : (s.detach idx)._trigger.thrd.queue = rest :=
    (trigger_queue (s := s.detach idx)).trans (h.detach_queue hreq hq)
  have hrun := Bool.toNat_le (s.detach idx)._trigger.running.isSome
  rw [update_active hactive hreq]
  simp only [due, unsent, hqueue, hq, List.length_cons, List.length_append, List.length_nil,
    Nat.add_mul, Nat.mul_add]
  omega

theorem Sound.due_rqcb (h : Sound pl330 s) (k : Nat) (hdone : s.reqDone = d :: rest) :
    (s.dmaPl330Rqcb d rest).due k < s.due k := by
  have hsched := Bool.toNat_le s.scheduled
  unfold due
  rw [h.rqcb_unsent hdone, hdone]
  simp only [dmaPl330Rqcb, List.length_cons, Bool.toNat_true, Nat.add_mul, Nat.mul_add]
  omega

/-- A step that is not the client's is one less to do. -/
theorem Sound.due_step (h : Sound pl330 s) {k : Nat} (hk : s.workList.length ≤ k) {a : ChanAct}
    (hown : a.own = true) (hstep : pl330Step pl330 s a = some s') : s'.due k < s.due k := by
  cases a <;> simp only [pl330Step, Option.ite_none_right_eq_some, Option.some.injEq] at hstep
  case prep => exact absurd hown Bool.false_ne_true
  case txSubmit => exact absurd hown Bool.false_ne_true
  case issuePending => exact absurd hown Bool.false_ne_true
  case softirq =>
    obtain ⟨hsched, rfl⟩ := hstep
    simp only [due, unsent, hsched, Bool.toNat_true, Bool.toNat_false, Nat.mul_succ]
    omega
  case enter =>
    obtain ⟨hc, rfl⟩ := hstep
    exact due_pickUp hk (Option.isNone_iff_eq_none.mp hc.1) hc.2
  case locked =>
    obtain ⟨pc, hpc, rfl⟩ := Option.map_eq_some_iff.mp hstep
    exact h.due_taskletStep k hpc
  case call =>
    obtain ⟨hc, rfl⟩ := hstep
    exact h.due_call k hc.2
  case update =>
    obtain ⟨hc, rfl⟩ := hstep
    exact h.due_update k hc
  case rqcb =>
    split at hstep
    · simp at hstep
    · rename_i desc rest hdone
      simp only [Option.ite_none_right_eq_some, Option.some.injEq] at hstep
      obtain ⟨-, rfl⟩ := hstep
      exact h.due_rqcb k hdone
  case callback =>
    obtain ⟨x, hx, rfl⟩ := Option.map_eq_some_iff.mp hstep
    exact due_callback k hx
  case sev =>
    obtain ⟨⟨idx, x⟩, hrunning, rfl⟩ := Option.map_eq_some_iff.mp hstep
    simp only [due, unsent, hrunning, Option.isSome_some, Option.isSome_none, Bool.toNat_true,
      Bool.toNat_false]
    omega
  case dmaEnd =>
    obtain ⟨hend, rfl⟩ := hstep
    simp only [due, unsent, hend, Bool.toNat_true, Bool.toNat_false]
    omega

theorem taskletStep_workList (pc : TaskletPc) :
    (s.taskletStep pl330 pc).workList = s.workList := by
  cases pc with
  | fill cur =>
      cases cur with
      | nil => rfl
      | cons d rest =>
          rcases fillQueue_cases pl330 s d rest with
            ⟨-, heq⟩ | ⟨-, -, heq⟩ | ⟨-, -, heq⟩ | ⟨-, -, idx, -, heq⟩
          all_goals exact (congrArg workList heq).trans rfl
  | ctrl => rfl
  | start active =>
      cases active with
      | some idx => rfl
      | none => exact (congrArg workList (trigger_frame (s := s))).trans rfl

/-- The work list does not grow but through the client. -/
theorem Sound.work_step (h : Sound pl330 s) {a : ChanAct} (hown : a.own = true)
    (hstep : pl330Step pl330 s a = some s') : s'.workList.length ≤ s.workList.length := by
  cases a <;> simp only [pl330Step, Option.ite_none_right_eq_some, Option.some.injEq] at hstep
  case prep => exact absurd hown Bool.false_ne_true
  case txSubmit => exact absurd hown Bool.false_ne_true
  case issuePending => exact absurd hown Bool.false_ne_true
  case softirq =>
    obtain ⟨-, rfl⟩ := hstep
    exact Nat.le_refl _
  case enter =>
    obtain ⟨-, rfl⟩ := hstep
    exact List.length_filter_le ..
  case locked =>
    obtain ⟨pc, -, rfl⟩ := Option.map_eq_some_iff.mp hstep
    rw [taskletStep_workList]
  case call =>
    obtain ⟨-, rfl⟩ := hstep
    unfold Pl330Chan.call
    split <;> exact Nat.le_refl _
  case update =>
    obtain ⟨hc, rfl⟩ := hstep
    obtain ⟨idx, d, rest, hactive, hreq, -, -⟩ := h.engaged.of_es hc
    rw [update_active hactive hreq]
  case rqcb =>
    split at hstep
    · simp at hstep
    · simp only [Option.ite_none_right_eq_some, Option.some.injEq] at hstep
      obtain ⟨-, rfl⟩ := hstep
      exact Nat.le_refl _
  case callback =>
    obtain ⟨x, -, rfl⟩ := Option.map_eq_some_iff.mp hstep
    exact Nat.le_refl _
  case sev =>
    obtain ⟨⟨idx, x⟩, -, rfl⟩ := Option.map_eq_some_iff.mp hstep
    exact Nat.le_refl _
  case dmaEnd =>
    obtain ⟨-, rfl⟩ := hstep
    exact Nat.le_refl _

theorem run_awake {acts : List ChanAct}
    (hprompt : Lts.Meets (pl330Step pl330) (fun s a => s.prompt a = true) alloc acts)
    (hrun : Lts.run (pl330Step pl330) alloc acts = some s) : Awake s :=
  (Lts.run_invariant_of (fun s => Sound pl330 s ∧ Awake s)
    (fun _ _ _ h hG hstep => ⟨h.1.step hstep, h.2.step h.1 hG hstep⟩) acts _ _
    ⟨Sound.alloc pl330, Awake.alloc⟩ hprompt hrun).2

end Pl330Chan

open Pl330Chan

/-- Nothing of the channel is pending, as a test. -/
def quiet (s : Pl330Chan) : Bool :=
  s.locked.isNone && s.entering == 0 && s.calling == 0 && s.callbacks.isEmpty && !s.scheduled &&
    s.reqDone.isEmpty && s.running.isNone && !s.ending && !s.es

theorem stuck_of_quiet {pl330 : Pl330Dmac} {s : Pl330Chan} (h : quiet s = true) :
    ∀ a : ChanAct, a.own = true → pl330Step pl330 s a = none := by
  simp only [quiet, Bool.and_eq_true, beq_iff_eq, Bool.not_eq_true', Option.isNone_iff_eq_none,
    List.isEmpty_iff] at h
  obtain ⟨⟨⟨⟨⟨⟨⟨⟨hlocked, hentering⟩, hcalling⟩, hcallbacks⟩, hscheduled⟩, hdone⟩, hrunning⟩, hend⟩,
    hes⟩ := h
  exact quiet_iff_stuck.mp
    ⟨hlocked, hentering, hcalling, hcallbacks, hscheduled, hdone, hrunning, hend, hes⟩

/-- The interrupt and the tasklet both come between `DMASEV` and `DMAEND`: the second transfer
stays in the thread and nobody starts it. -/
theorem pl330_start_lost : ∃ s, Lts.run (pl330Step zynqPl330) alloc (bothTaken ++
      [.call, .sev, .update, .rqcb, .softirq, .enter, .locked, .locked, .locked, .locked, .dmaEnd,
        .call, .callback 0, .call]) = some s ∧
    (∀ a : ChanAct, a.own = true → pl330Step zynqPl330 s a = none) ∧ s.thrd.queue = [1] := by
  obtain ⟨s, hrun, hp⟩ := Lts.exists_of_any (pl330Step zynqPl330) alloc (bothTaken ++
    [.call, .sev, .update, .rqcb, .softirq, .enter, .locked, .locked, .locked, .locked, .dmaEnd,
      .call, .callback 0, .call]) (fun s => quiet s && s.thrd.queue = [1]) (by decide +kernel)
  obtain ⟨hquiet, hqueue⟩ := Bool.and_eq_true_iff.mp hp
  exact ⟨s, hrun, stuck_of_quiet hquiet, of_decide_eq_true hqueue⟩

end Acq400
