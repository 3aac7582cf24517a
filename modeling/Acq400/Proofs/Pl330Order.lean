/-
In which order a DMA channel performs and reports its transfers.

A transfer that `pl330_submit_req` finds unacceptable is retired without having been performed,
and not in its turn.  The others are performed in the order of `pl330_tx_submit` and taken off
`completed_list` in that order, and of all of them none is lost and none is called back for
twice.  The callbacks themselves are made without the lock: where two calls of `pl330_tasklet`
are at that point, either may come first.
-/
import Acq400.Proofs.Pl330Chan

namespace Acq400

namespace Pl330Chan

variable {pl330 : Pl330Dmac} {s s' : Pl330Chan} {d : DescPtr} {rest : List DescPtr}

/-- The descriptor is of a transfer that is performed. -/
def takes (pl330 : Pl330Dmac) (s : Pl330Chan) (d : DescPtr) : Bool := pl330.acceptable (s.xfer d)

/-- What the work list has that is done. -/
def ripe (s : Pl330Chan) : List DescPtr := s.workList.filter fun d => s.status d = .done

/-- What the controller has performed and the interrupt has not seen, -/
def atEvent (s : Pl330Chan) : List DescPtr := if s.es then s.thrd.queue.take 1 else []

/-- and what it has still to perform. -/
def toPerform (s : Pl330Chan) : List DescPtr := if s.es then s.thrd.queue.tail else s.thrd.queue

/-- The transfers in their orders. -/
structure Logged (pl330 : Pl330Dmac) (s : Pl330Chan) : Prop where
  /-- Those of the work list that are done come first. -/
  work : s.workList.filter (s.takes pl330) =
    s.ripe.filter (s.takes pl330) ++ s.notDone.filter (s.takes pl330)
  toDo : s.performed ++ (s.toPerform ++
      (s.unsent ++ s.submittedList).filter (s.takes pl330)).map s.xfer =
    s.submitted.filter pl330.acceptable
  toReport : s.retired.filter pl330.acceptable ++
      ((s.completedList ++ s.ripe).filter (s.takes pl330) ++ s.reqDone ++ s.atEvent).map s.xfer =
    s.performed
  /-- Every transfer that has been submitted is in one place. -/
  kept : (s.retired ++ (s.completedList ++ (s.workList ++ s.submittedList)).map s.xfer).Perm
    s.submitted
  /-- Every transfer that has been retired is called back for. -/
  called : (s.calledBack ++ s.callbacks).Perm s.retired

theorem Logged.alloc (pl330 : Pl330Dmac) : Logged pl330 alloc where
  work := rfl
  toDo := rfl
  toReport := rfl
  kept := List.Perm.refl _
  called := List.Perm.refl _

theorem atEvent_toPerform : s.atEvent ++ s.toPerform = s.thrd.queue := by
  unfold atEvent toPerform
  split_ifs
  · rw [← List.drop_one, List.take_append_drop]
  · rfl

/-- Done or not, a descriptor of the work list is in one of these. -/
theorem ripe_notDone_perm : (s.ripe ++ s.notDone).Perm s.workList := by
  have hsplit := List.filter_append_perm (fun d => decide (s.status d = .done)) s.workList
  have hnot : s.notDone = s.workList.filter fun d => !decide (s.status d = .done) := by
    refine List.filter_congr fun d _ => ?_
    by_cases hdone : s.status d = .done <;> simp [hdone]
  rw [hnot]
  exact hsplit

theorem takes_map (l : List DescPtr) :
    (l.filter (s.takes pl330)).map s.xfer = (l.map s.xfer).filter pl330.acceptable :=
  List.filter_map.symm

theorem Sound.takes_busy (h : Sound pl330 s) (hd : d ∈ s.reqDone ++ s.thrd.queue) :
    s.takes pl330 d = true := (h.live.busy d hd).2

/-- What the descriptors in hand say is all that the orders see of them. -/
theorem Logged.of_agree (h : Logged pl330 s) (hsound : Sound pl330 s)
    (hsubmittedList : s'.submittedList = s.submittedList) (hwork : s'.workList = s.workList)
    (hcompleted : s'.completedList = s.completedList) (hreq : s'.reqDone = s.reqDone)
    (hqueue : s'.thrd.queue = s.thrd.queue) (hes : s'.es = s.es)
    (hstatus : ∀ e ∈ s.held, s'.status e = s.status e) (hxfer : ∀ e ∈ s.held, s'.xfer e = s.xfer e)
    (hsubmitted : s'.submitted = s.submitted) (hperformed : s'.performed = s.performed)
    (hretired : s'.retired = s.retired)
    (hcalled : (s'.calledBack ++ s'.callbacks).Perm (s.calledBack ++ s.callbacks)) :
    Logged pl330 s' := by
  have hsub : ∀ e ∈ s.submittedList, e ∈ s.held := fun e he => by simp [held, he]
  have hheld : ∀ e ∈ s.workList, e ∈ s.held := fun e he => by simp [held, he]
  have hcomp : ∀ e ∈ s.completedList, e ∈ s.held := fun e he => by simp [held, he]
  have hbusy : ∀ e ∈ s.reqDone ++ s.thrd.queue, e ∈ s.held := fun e he =>
    hheld e (hsound.live.mem_workList he)
  have hripe : s'.ripe = s.ripe := by
    rw [ripe, hwork]
    exact List.filter_congr fun e he => by rw [hstatus e (hheld e he)]
  have hnot := notDone_congr hwork fun e he => hstatus e (hheld e he)
  have hun := unsent_congr hwork fun e he => hstatus e (hheld e he)
  have hat : s'.atEvent = s.atEvent := by rw [atEvent, atEvent, hes, hqueue]
  have hto : s'.toPerform = s.toPerform := by rw [toPerform, toPerform, hes, hqueue]
  have hfilter : ∀ l : List DescPtr, (∀ e ∈ l, e ∈ s.held) →
      l.filter (s'.takes pl330) = l.filter (s.takes pl330) := fun l hl =>
    List.filter_congr fun e he => by rw [takes, takes, hxfer e (hl e he)]
  have hmap : ∀ l : List DescPtr, (∀ e ∈ l, e ∈ s.held) → l.map s'.xfer = l.map s.xfer :=
    fun l hl => List.map_congr_left fun e he => hxfer e (hl e he)
  have hripeHeld : ∀ e ∈ s.ripe, e ∈ s.held := fun e he => hheld e (List.mem_of_mem_filter he)
  have hunHeld : ∀ e ∈ s.unsent, e ∈ s.held := fun e he => hheld e (List.mem_of_mem_filter he)
  refine ⟨?_, ?_, ?_, ?_, hretired ▸ hcalled.trans h.called⟩
  · rw [hwork, hripe, hnot, hfilter _ hheld, hfilter _ hripeHeld, hfilter s.notDone ?_]
    · exact h.work
    · exact fun e he => hheld e (List.mem_of_mem_filter he)
  · rw [hperformed, hto, hun, hsubmittedList, hsubmitted, hfilter _ ?_, hmap _ ?_]
    · exact h.toDo
    · intro e he
      rcases List.mem_append.mp he with he | he
      · refine hbusy e (List.mem_append_right _ ?_)
        rw [← atEvent_toPerform]
        exact List.mem_append_right _ he
      · rcases List.mem_append.mp (List.mem_of_mem_filter he) with he | he
        · exact hunHeld e he
        · exact hsub e he
    · intro e he
      rcases List.mem_append.mp he with he | he
      · exact hunHeld e he
      · exact hsub e he
  · rw [hretired, hcompleted, hripe, hreq, hat, hperformed, hfilter _ ?_, hmap _ ?_]
    · exact h.toReport
    · intro e he
      rcases List.mem_append.mp he with he | he
      · rcases List.mem_append.mp he with he | he
        · rcases List.mem_append.mp (List.mem_of_mem_filter he) with he | he
          · exact hcomp e he
          · exact hripeHeld e he
        · exact hbusy e (List.mem_append_left _ he)
      · refine hbusy e (List.mem_append_right _ ?_)
        rw [← atEvent_toPerform]
        exact List.mem_append_left _ he
    · intro e he
      rcases List.mem_append.mp he with he | he
      · exact hcomp e he
      · exact hripeHeld e he
  · rw [hretired, hcompleted, hwork, hsubmittedList, hsubmitted, hmap _ ?_]
    · exact h.kept
    · intro e he
      simp only [held, List.mem_append] at he ⊢
      tauto

/-! ### The client -/

theorem Logged.prep (h : Logged pl330 s) (hsound : Sound pl330 s) {dst src len : Nat}
    {flags : PrepFlags} (hstep : s.prep pl330 dst src len flags = some s') : Logged pl330 s' := by
  obtain ⟨desc, pool, n, x, rfl, -, hnew⟩ := hsound.placed.prep_cases hstep
  refine h.of_agree hsound rfl rfl rfl rfl rfl rfl ?_ ?_ rfl rfl rfl .rfl
  · exact fun e he => Function.update_of_ne (hnew e he) ..
  · exact fun e he => Function.update_of_ne (hnew e he) ..

theorem Logged.txSubmit (h : Logged pl330 s) : Logged pl330 (s.pl330TxSubmit d) where
  work := h.work
  toDo := by
    have hdo := h.toDo
    have hlast : ([d].filter (s.takes pl330)).map s.xfer = [s.xfer d].filter pl330.acceptable :=
      takes_map [d]
    show s.performed ++ (s.toPerform ++
      (s.unsent ++ (s.submittedList ++ [d])).filter (s.takes pl330)).map s.xfer =
        (s.submitted ++ [s.xfer d]).filter pl330.acceptable
    rw [List.filter_append (p := pl330.acceptable), ← hdo, ← hlast]
    simp only [List.filter_append, List.map_append, List.append_assoc]
  toReport := h.toReport
  kept := by
    have hkept := h.kept.append_right [s.xfer d]
    refine List.Perm.trans (List.Perm.of_eq ?_) hkept
    simp [pl330TxSubmit]
  called := h.called

theorem issue_ripe (h : Placed s) : s.pl330IssuePending.ripe = s.ripe := by
  simp only [ripe, pl330IssuePending, List.filter_append]
  refine (congrArg _ ?_).trans (List.append_nil _)
  exact List.filter_eq_nil_iff.mpr fun d hd => by simp [h.waiting d (List.mem_append_right _ hd)]

theorem Logged.issuePending (h : Logged pl330 s) (hsound : Sound pl330 s) :
    Logged pl330 s.pl330IssuePending := by
  refine ⟨?_, ?_, ?_, ?_, h.called⟩
  · rw [issue_ripe hsound.placed, hsound.placed.issue_notDone, List.filter_append,
      ← List.append_assoc]
    refine (List.filter_append ..).trans ?_
    exact congrArg (· ++ s.submittedList.filter (s.takes pl330)) h.work
  · have hnil : s.pl330IssuePending.submittedList = [] := rfl
    rw [hsound.placed.issue_unsent, hnil, List.append_nil]
    exact h.toDo
  · rw [issue_ripe hsound.placed]
    exact h.toReport
  · refine List.Perm.trans (List.Perm.of_eq ?_) h.kept
    simp [pl330IssuePending]

/-! ### The tasklet -/

theorem pickUp_workList : s.pickUp.workList = s.notDone := by
  refine List.filter_congr fun d _ => ?_
  by_cases hdone : s.status d = .done <;> simp [hdone]

theorem Logged.pickUp (h : Logged pl330 s) : Logged pl330 s.pickUp := by
  have hwork := pickUp_workList (s := s)
  have hripe : s.pickUp.ripe = [] := by
    unfold ripe
    rw [hwork]
    refine List.filter_eq_nil_iff.mpr fun d hd hdone => ?_
    exact of_decide_eq_true (List.mem_filter.mp hd).2 (of_decide_eq_true hdone)
  refine ⟨?_, ?_, ?_, ?_, h.called⟩
  · rw [hwork, hripe, pickUp_notDone]
    rfl
  · rw [pickUp_unsent]
    exact h.toDo
  · rw [hripe, List.append_nil]
    exact h.toReport
  · rw [hwork]
    refine List.Perm.trans ?_ h.kept
    refine List.Perm.append_left _ (List.Perm.map _ ?_)
    show ((s.completedList ++ s.ripe) ++ (s.notDone ++ s.submittedList)).Perm _
    rw [List.append_assoc, ← List.append_assoc s.ripe]
    exact (ripe_notDone_perm.append_right _).append_left _

/-- A descriptor that is not done, whatever else it is, leaves the ripe ones alone. -/
theorem ripe_update_busy (hnot : s.status d ≠ .done) :
    (s.workList.filter fun e => Function.update s.status d .busy e = .done) = s.ripe := by
  refine List.filter_congr fun e _ => ?_
  by_cases he : e = d
  · simp [he, hnot]
  · rw [Function.update_of_ne he]

theorem filter_update_of_not_takes (hnot : s.takes pl330 d = false) (st : DescStatus)
    (p : DescStatus → Bool) (l : List DescPtr) :
    (l.filter fun e => p (Function.update s.status d st e)).filter (s.takes pl330) =
      (l.filter fun e => p (s.status e)).filter (s.takes pl330) := by
  rw [List.filter_filter, List.filter_filter]
  refine List.filter_congr fun e _ => ?_
  by_cases he : e = d
  · rw [he, hnot]
    rfl
  · rw [Function.update_of_ne he]

/-- A request put behind the others is not the one whose event is set. -/
theorem Sound.put_split (h : Sound pl330 s) :
    (if s.es then (s.thrd.queue ++ [d]).take 1 else []) = s.atEvent ∧
      (if s.es then (s.thrd.queue ++ [d]).tail else s.thrd.queue ++ [d]) =
        s.toPerform ++ [d] := by
  unfold atEvent toPerform
  cases hes : s.es with
  | false => exact ⟨rfl, rfl⟩
  | true =>
      obtain ⟨i, e, tail, -, -, hq, -⟩ := h.engaged.of_es hes
      rw [hq]
      exact ⟨rfl, rfl⟩

theorem Logged.fillQueue (h : Logged pl330 s) (hsound : Sound pl330 s) {cur : List DescPtr}
    (hlocked : s.locked = some (.fill cur)) : Logged pl330 (s.fillQueue pl330 cur) := by
  cases cur with
  | nil =>
      exact h.of_agree hsound rfl rfl rfl rfl rfl rfl (fun _ _ => rfl) (fun _ _ => rfl) rfl rfl rfl
        .rfl
  | cons d rest =>
      have hmem := hsound.fill_mem hlocked
      have hnotdone : s.status d ≠ .done := by
        obtain ⟨pre, -, -, hcurs⟩ := hsound.cursor.split _ hlocked
        exact hcurs d List.mem_cons_self
      rcases fillQueue_cases pl330 s d rest with
        ⟨-, heq⟩ | ⟨-, -, heq⟩ | ⟨hbusy, hbad, heq⟩ | ⟨hbusy, hacc, idx, hfree, heq⟩
      · rw [heq]
        exact h.of_agree hsound rfl rfl rfl rfl rfl rfl (fun _ _ => rfl) (fun _ _ => rfl) rfl rfl
          rfl .rfl
      · rw [heq]
        exact h.of_agree hsound rfl rfl rfl rfl rfl rfl (fun _ _ => rfl) (fun _ _ => rfl) rfl rfl
          rfl .rfl
      · have hsame := fun p => filter_update_of_not_takes (s := s) hbad .done p
        rw [heq]
        refine ⟨?_, ?_, ?_, h.kept, h.called⟩
        · refine h.work.trans (congrArg₂ _ ?_ ?_)
          · exact (hsame (fun st => st = .done) _).symm
          · exact (hsame (fun st => st ≠ .done) _).symm
        · refine Eq.trans ?_ h.toDo
          refine congrArg (fun l : List DescPtr => s.performed ++ (s.toPerform ++ l).map s.xfer) ?_
          refine (List.filter_append ..).trans ?_
          rw [List.filter_append]
          exact congrArg (· ++ _) (hsame (fun st => st = .prep) _)
        · refine Eq.trans ?_ h.toReport
          refine congrArg (fun l : List DescPtr => _ ++ (l ++ s.reqDone ++ s.atEvent).map s.xfer) ?_
          refine (List.filter_append ..).trans ?_
          rw [List.filter_append]
          exact congrArg (_ ++ ·) (hsame (fun st => st = .done) _)
      · have hprep := hsound.live.prep_of_not_busy hmem hnotdone hbusy
        have hun := hsound.cursor.unsent_cons hlocked hprep
        have hun' := hsound.cursor.unsent_update hsound.work_nodup hlocked
          (by simp : DescStatus.busy ≠ .prep)
        have hqueue := Pl330Thread.queue_put (r := d) hfree
        obtain ⟨hat, hto⟩ := hsound.put_split (d := d)
        rw [← hqueue] at hat hto
        rw [heq]
        refine ⟨?_, ?_, ?_, h.kept, h.called⟩
        · refine h.work.trans (congrArg₂ _ ?_ ?_)
          · exact (congrArg _ (ripe_update_busy hnotdone)).symm
          · exact (congrArg _ (notDone_update_busy hprep)).symm
        · refine Eq.trans ?_ h.toDo
          refine congrArg (fun l : List DescPtr => s.performed ++ l.map s.xfer) ?_
          refine (congrArg₂ _ hto
            (congrArg (fun l : List DescPtr => (l ++ s.submittedList).filter _) hun')).trans ?_
          have htakes : s.takes pl330 d = true := hacc
          rw [hun, List.cons_append, List.filter_cons_of_pos htakes, List.append_assoc]
          rfl
        · refine Eq.trans ?_ h.toReport
          refine congrArg (fun l : List DescPtr => _ ++ l.map s.xfer) (congrArg₂ _ ?_ hat)
          exact congrArg (fun l : List DescPtr => (s.completedList ++ l).filter _ ++ _)
            (ripe_update_busy hnotdone)

/-- `_trigger` does not change what the thread has to do. -/
theorem Logged.start (h : Logged pl330 s) (hsound : Sound pl330 s) {active : Option (Fin 2)}
    (hlocked : s.locked = some (.start active)) :
    Logged pl330 (s.taskletStep pl330 (.start active)) := by
  cases active with
  | some idx =>
      exact h.of_agree hsound rfl rfl rfl rfl rfl rfl (fun _ _ => rfl) (fun _ _ => rfl) rfl rfl rfl
        .rfl
  | none =>
      have hstep : s.taskletStep pl330 (.start none) =
          { s._trigger with locked := none, calling := s.calling + 1 } := rfl
      rw [hstep, trigger_frame]
      exact h.of_agree hsound rfl rfl rfl rfl trigger_queue rfl (fun _ _ => rfl)
        (fun _ _ => rfl) rfl rfl rfl .rfl

theorem Logged.taskletStep (h : Logged pl330 s) (hsound : Sound pl330 s) {pc : TaskletPc}
    (hlocked : s.locked = some pc) : Logged pl330 (s.taskletStep pl330 pc) := by
  cases pc with
  | fill cur => exact h.fillQueue hsound hlocked
  | ctrl =>
      exact h.of_agree hsound rfl rfl rfl rfl rfl rfl (fun _ _ => rfl) (fun _ _ => rfl) rfl rfl rfl
        .rfl
  | start active => exact h.start hsound hlocked

theorem Logged.call (h : Logged pl330 s) (hsound : Sound pl330 s) : Logged pl330 s.call := by
  unfold Pl330Chan.call
  split
  · exact h.of_agree hsound rfl rfl rfl rfl rfl rfl (fun _ _ => rfl) (fun _ _ => rfl) rfl rfl rfl
        .rfl
  · rename_i desc rest hcompleted
    have hnodup := hsound.placed.work_nodup
    rw [hcompleted] at hnodup
    have hwork : ∀ d ∈ s.workList, d ≠ desc := fun d hd =>
      (List.nodup_append.mp hnodup).2.2 d hd desc List.mem_cons_self
    have hsame : ∀ p : DescStatus → Bool,
        (s.workList.filter fun e => p (Function.update s.status desc .free e)) =
          s.workList.filter fun e => p (s.status e) := fun p =>
      List.filter_congr fun e he => by rw [Function.update_of_ne (hwork e he)]
    refine ⟨?_, ?_, ?_, ?_, ?_⟩
    · refine h.work.trans (congrArg₂ _ ?_ ?_)
      · exact congrArg _ (hsame fun st => st = .done).symm
      · exact congrArg _ (hsame fun st => st ≠ .done).symm
    · refine Eq.trans ?_ h.toDo
      exact congrArg
        (fun l : List DescPtr => _ ++ (_ ++ (l ++ s.submittedList).filter _).map s.xfer)
        (hsame fun st => st = .prep)
    · refine Eq.trans ?_ h.toReport
      refine (congrArg (fun l : List DescPtr => _ ++ ((rest ++ l).filter (s.takes pl330) ++
        s.reqDone ++ s.atEvent).map s.xfer) (hsame fun st => st = .done)).trans ?_
      rw [List.filter_append, hcompleted, List.cons_append,
        ← List.singleton_append (l := rest ++ s.ripe), List.filter_append [desc]]
      simp only [List.map_append, takes_map, List.map_singleton, List.append_assoc]
      rfl
    · refine List.Perm.trans (List.Perm.of_eq ?_) h.kept
      simp [hcompleted]
    · rw [← List.append_assoc]
      exact h.called.append_right _

/-- A transfer that is called back for is not to be called back for any more. -/
theorem Logged.callback (h : Logged pl330 s) (hsound : Sound pl330 s) {i : Nat} {x : Pl330Xfer}
    (hx : s.callbacks[i]? = some x) : Logged pl330 (s.callback i x) := by
  obtain ⟨hi, rfl⟩ := List.getElem?_eq_some_iff.mp hx
  refine h.of_agree hsound rfl rfl rfl rfl rfl rfl (fun _ _ => rfl) (fun _ _ => rfl) rfl rfl rfl ?_
  show (s.calledBack ++ [s.callbacks[i]] ++ s.callbacks.eraseIdx i).Perm _
  rw [List.append_assoc]
  exact (List.getElem_cons_eraseIdx_perm hi).append_left _

/-! ### The interrupt and the controller -/

theorem Logged.update (h : Logged pl330 s) (hsound : Sound pl330 s) (hes : s.es = true) :
    Logged pl330 s.pl330Update := by
  obtain ⟨idx, d, rest, hactive, hreq, hq, hrunning⟩ := hsound.engaged.of_es hes
  have hqueue : (s.detach idx)._trigger.thrd.queue = rest :=
    (trigger_queue (s := s.detach idx)).trans (hsound.detach_queue hreq hq)
  have hat : s.atEvent = [d] := by
    rw [atEvent, if_pos hes, hq]
    rfl
  have hto : s.toPerform = rest := by
    rw [toPerform, if_pos hes, hq]
    rfl
  rw [update_active hactive hreq]
  refine ⟨h.work, ?_, ?_, h.kept, h.called⟩
  · refine Eq.trans ?_ h.toDo
    rw [hto]
    exact congrArg (fun l : List DescPtr => _ ++ (l ++ _).map s.xfer) hqueue
  · refine Eq.trans ?_ h.toReport
    rw [hat]
    refine congrArg (fun l : List DescPtr => _ ++ l.map s.xfer) ?_
    show _ ++ (s.reqDone ++ [d]) ++ [] = _
    rw [List.append_nil, List.append_assoc]
    rfl

theorem Logged.sev (h : Logged pl330 s) (hsound : Sound pl330 s) {idx : Fin 2} {x : Pl330Xfer}
    (hrunning : s.running = some (idx, x)) :
    Logged pl330 { s with
      running := none
      ending := true
      es := true
      performed := s.performed ++ [x] } := by
  obtain ⟨d, rest, -, hq, rfl, hes⟩ := hsound.engaged.of_running hrunning
  have hto : s.toPerform = [d] ++ rest := by
    rw [toPerform, hes, hq]
    rfl
  have hat : s.atEvent = [] := by
    rw [atEvent, hes]
    rfl
  refine ⟨h.work, ?_, ?_, h.kept, h.called⟩
  · show (s.performed ++ [s.xfer d]) ++ (s.thrd.queue.tail ++
      (s.unsent ++ s.submittedList).filter (s.takes pl330)).map s.xfer = _
    rw [← h.toDo, hto, hq]
    simp
  · show s.retired.filter pl330.acceptable ++ ((s.completedList ++ s.ripe).filter
      (s.takes pl330) ++ s.reqDone ++ s.thrd.queue.take 1).map s.xfer = s.performed ++ [s.xfer d]
    rw [← h.toReport, hat, hq]
    simp

/-- The oldest that is not done is done: it is the last of those then. -/
theorem ripe_update_done {tail : List DescPtr} (hnodup : s.workList.Nodup)
    (hwork : s.workList.filter (s.takes pl330) =
      s.ripe.filter (s.takes pl330) ++ s.notDone.filter (s.takes pl330))
    (htakes : s.takes pl330 d = true) (hsplit : s.notDone = d :: tail) :
    (s.workList.filter fun e => Function.update s.status d .done e = .done).filter
      (s.takes pl330) = s.ripe.filter (s.takes pl330) ++ [d] := by
  have hcomm : ∀ p : DescPtr → Bool, (s.workList.filter p).filter (s.takes pl330) =
      (s.workList.filter (s.takes pl330)).filter p := by
    intro p
    rw [List.filter_filter, List.filter_filter]
    exact List.filter_congr fun e _ => Bool.and_comm ..
  have hnd : (d :: tail).Nodup := hsplit ▸ hnodup.filter _
  rw [hcomm, hwork, hsplit, List.filter_cons_of_pos htakes, List.filter_append,
    List.filter_cons_of_pos (by simp)]
  have hripe : (s.ripe.filter (s.takes pl330)).filter
      (fun e => Function.update s.status d .done e = .done) = s.ripe.filter (s.takes pl330) := by
    refine List.filter_eq_self.mpr fun e he => ?_
    have hdone := (List.mem_filter.mp (List.mem_of_mem_filter he)).2
    by_cases hed : e = d
    · simp [hed]
    · rw [Function.update_of_ne hed]
      exact hdone
  have htail : (tail.filter (s.takes pl330)).filter
      (fun e => Function.update s.status d .done e = .done) = [] := by
    refine List.filter_eq_nil_iff.mpr fun e he => ?_
    have hmem := List.mem_of_mem_filter he
    have hed : e ≠ d := by
      rintro rfl
      exact (List.nodup_cons.mp hnd).1 hmem
    have hnot : e ∈ s.notDone := hsplit ▸ List.mem_cons_of_mem d hmem
    rw [Function.update_of_ne hed]
    simpa using (List.mem_filter.mp hnot).2
  rw [hripe, htail]

theorem Logged.rqcb (h : Logged pl330 s) (hsound : Sound pl330 s) (hdone : s.reqDone = d :: rest) :
    Logged pl330 (s.dmaPl330Rqcb d rest) := by
  have hmem : d ∈ s.reqDone ++ s.thrd.queue :=
    List.mem_append_left _ (hdone ▸ List.mem_cons_self)
  have hsplit : s.notDone = d :: (rest ++ s.thrd.queue ++ s.unsent) := by
    rw [hsound.live.order, hdone]
    rfl
  have htakes : s.takes pl330 d = true := hsound.takes_busy hmem
  have hripe := ripe_update_done hsound.work_nodup h.work htakes hsplit
  have hnot : _ = [] ++ _ := notDone_update_done hsound.work_nodup hsplit
  refine ⟨?_, ?_, ?_, h.kept, h.called⟩
  · show s.workList.filter (s.takes pl330) =
      ((s.workList.filter fun e => Function.update s.status d .done e = .done).filter
        (s.takes pl330)) ++ (s.workList.filter fun e =>
          Function.update s.status d .done e ≠ .done).filter (s.takes pl330)
    rw [hripe, hnot, h.work, hsplit, List.filter_cons_of_pos htakes, List.append_cons,
      List.nil_append]
  · rw [hsound.rqcb_unsent hdone]
    exact h.toDo
  · show s.retired.filter pl330.acceptable ++ ((s.completedList ++
      s.workList.filter fun e => Function.update s.status d .done e = .done).filter
        (s.takes pl330) ++ rest ++ s.atEvent).map s.xfer = s.performed
    rw [← h.toReport, hdone, List.filter_append, List.filter_append, hripe]
    simp

theorem Logged.step (h : Logged pl330 s) (hsound : Sound pl330 s) {a : ChanAct}
    (hstep : pl330Step pl330 s a = some s') : Logged pl330 s' := by
  cases a <;> simp only [pl330Step, Option.ite_none_right_eq_some, Option.some.injEq] at hstep
  case prep => exact h.prep hsound hstep
  case txSubmit =>
    obtain ⟨-, rfl⟩ := hstep
    exact h.txSubmit
  case issuePending =>
    obtain ⟨-, rfl⟩ := hstep
    exact h.issuePending hsound
  case softirq =>
    obtain ⟨-, rfl⟩ := hstep
    exact h.of_agree hsound rfl rfl rfl rfl rfl rfl (fun _ _ => rfl) (fun _ _ => rfl) rfl rfl rfl
        .rfl
  case enter =>
    obtain ⟨-, rfl⟩ := hstep
    exact h.pickUp
  case locked =>
    obtain ⟨pc, hpc, rfl⟩ := Option.map_eq_some_iff.mp hstep
    exact h.taskletStep hsound hpc
  case call =>
    obtain ⟨-, rfl⟩ := hstep
    exact h.call hsound
  case update =>
    obtain ⟨hc, rfl⟩ := hstep
    exact h.update hsound hc
  case rqcb =>
    split at hstep
    · simp at hstep
    · rename_i desc rest hdone
      simp only [Option.ite_none_right_eq_some, Option.some.injEq] at hstep
      obtain ⟨-, rfl⟩ := hstep
      exact h.rqcb hsound hdone
  case callback =>
    obtain ⟨x, hx, rfl⟩ := Option.map_eq_some_iff.mp hstep
    exact h.callback hsound hx
  case sev =>
    obtain ⟨⟨idx, x⟩, hrunning, rfl⟩ := Option.map_eq_some_iff.mp hstep
    exact h.sev hsound hrunning
  case dmaEnd =>
    obtain ⟨-, rfl⟩ := hstep
    exact h.of_agree hsound rfl rfl rfl rfl rfl rfl (fun _ _ => rfl) (fun _ _ => rfl) rfl rfl rfl
      .rfl

theorem run_logged {acts : List ChanAct} (hrun : Lts.run (pl330Step pl330) alloc acts = some s) :
    Sound pl330 s ∧ Logged pl330 s :=
  Lts.run_invariant (fun s => Sound pl330 s ∧ Logged pl330 s)
    (fun _ _ _ h hstep => ⟨h.1.step hstep, h.2.step h.1 hstep⟩) acts _ _
    ⟨Sound.alloc pl330, Logged.alloc pl330⟩ hrun

end Pl330Chan

open Pl330Chan

/-- The two are performed and called back for; the second is performed while the tasklet picks
up the first. -/
def ownRun : List ChanAct :=
  [.enter, .locked, .locked, .locked, .locked, .locked, .call, .sev, .dmaEnd, .update, .rqcb,
    .softirq, .sev, .dmaEnd, .enter, .update, .locked, .locked, .locked, .locked, .rqcb, .softirq,
    .call, .enter, .locked, .locked, .locked, .call, .callback 1, .callback 0, .call, .call]

end Acq400
