/-
What becomes of the transfers of a DMA channel.

The thread's two requests are a queue: the older one is the one that `lstenq` is not, it is
the one that runs, and a request is put behind it.  The work list is read with the
descriptors' states.  What is in it and not done is, in order, what the interrupt has yet to
report, what the thread has, and what has not been handed to it (`Live`).  All the orders
below come from that.
-/
import Acq400.Driver.Pl330Chan
import Acq400.Proofs.Pl330
import Mathlib.Data.List.Nodup
import Mathlib.Data.List.Perm.Basic

namespace Acq400

/-! ### The thread -/

namespace Pl330Thread

variable {pl330 : Pl330Dmac} {thrd thrd' : Pl330Thread} {r d : DescPtr} {x : Pl330Xfer}
  {rest : List DescPtr} {idx : Fin 2}

/-- What the thread has, the oldest first. -/
def queue (thrd : Pl330Thread) : List DescPtr :=
  (thrd.req (1 - thrd.lstenq)).toList ++ (thrd.req thrd.lstenq).toList

@[simp] theorem requested_queue : requested.queue = [] := rfl

private theorem one_of_two (i j : Fin 2) : i = j ∨ i = 1 - j := by
  revert i j
  decide

private theorem one_sub_one_sub (i : Fin 2) : 1 - (1 - i) = i := by
  revert i
  decide

private theorem one_sub_ne (i : Fin 2) : 1 - i ≠ i := by
  revert i
  decide

/-- With one request free, the other is all there is. -/
theorem queue_of_free (h : thrd.req idx = none) : thrd.queue = (thrd.req (1 - idx)).toList := by
  rcases one_of_two idx thrd.lstenq with hidx | hidx
  · rw [queue, ← hidx, h, Option.toList_none, List.append_nil]
  · rw [queue, ← hidx, h, hidx, one_sub_one_sub]
    rfl

/-- `_trigger` takes the oldest. -/
theorem nextReq_cases (thrd : Pl330Thread) :
    (thrd.nextReq = none ∧ thrd.queue = []) ∨
      ∃ idx d rest, thrd.nextReq = some idx ∧ thrd.req idx = some d ∧ thrd.queue = d :: rest := by
  unfold nextReq queue
  cases hold : thrd.req (1 - thrd.lstenq) with
  | some d => exact Or.inr ⟨1 - thrd.lstenq, d, _, by simp [hold], hold, rfl⟩
  | none =>
      cases hlast : thrd.req thrd.lstenq with
      | none => exact Or.inl ⟨by simp [hold], rfl⟩
      | some d => exact Or.inr ⟨thrd.lstenq, d, [], by simp [hold], hlast, rfl⟩

/-- What the thread has is in one of its requests. -/
theorem mem_queue : d ∈ thrd.queue ↔ ∃ idx, thrd.req idx = some d := by
  unfold queue
  rw [List.mem_append, Option.mem_toList, Option.mem_toList]
  constructor
  · rintro (h | h)
    · exact ⟨_, h⟩
    · exact ⟨_, h⟩
  · rintro ⟨idx, h⟩
    rcases one_of_two idx thrd.lstenq with rfl | rfl
    · exact Or.inr h
    · exact Or.inl h

/-- A request that is accepted goes into a free one and is the last then. -/
theorem submit_ok (h : thrd.pl330SubmitReq pl330 r x = .ok thrd') :
    pl330.acceptable x = true ∧
      ∃ idx, thrd.req idx = none ∧
        thrd' = { thrd with lstenq := idx, req := Function.update thrd.req idx (some r) } := by
  unfold pl330SubmitReq at h
  split at h
  · exact absurd h Submitted.noConfusion
  · rename_i hfull
    split at h
    · rename_i hok
      refine ⟨hok, _, ?_, (Submitted.ok.inj h).symm⟩
      cases hzero : thrd.req 0 with
      | none => simp [hzero]
      | some z =>
          cases hone : thrd.req 1 with
          | none => simp [hone]
          | some o => simp [queueFull, hzero, hone] at hfull
    · exact absurd h Submitted.noConfusion

theorem submit_eagain (h : thrd.pl330SubmitReq pl330 r x = .eagain) : thrd.queueFull = true := by
  unfold pl330SubmitReq at h
  split_ifs at h with hfull
  exact hfull

theorem submit_bad (h : thrd.pl330SubmitReq pl330 r x = .bad) : pl330.acceptable x = false := by
  unfold pl330SubmitReq at h
  split_ifs at h with hfull hok
  exact Bool.eq_false_iff.mpr hok

/-- A request that is put into a free one is behind the other. -/
theorem queue_put (h : thrd.req idx = none) :
    ({ thrd with lstenq := idx, req := Function.update thrd.req idx (some r) } :
      Pl330Thread).queue = thrd.queue ++ [r] := by
  rw [queue_of_free h, queue]
  simp [Function.update_of_ne (one_sub_ne idx)]

/-- The oldest is marked free. -/
theorem queue_markFree (hreq : thrd.req idx = some d) (hq : thrd.queue = d :: rest)
    (hd : d ∉ rest) : (thrd.markFree idx).queue = rest := by
  have hfree : (thrd.markFree idx).req idx = none := Function.update_self ..
  have hother : (thrd.markFree idx).req (1 - idx) = thrd.req (1 - idx) :=
    Function.update_of_ne (one_sub_ne idx) ..
  rw [queue_of_free hfree, hother]
  rcases one_of_two idx thrd.lstenq with hidx | hidx
  · rw [queue, ← hidx, hreq] at hq
    cases hold : thrd.req (1 - idx) with
    | none =>
        rw [hold] at hq
        exact (List.cons.inj hq).2
    | some e =>
        rw [hold] at hq
        obtain ⟨-, hrest⟩ := List.cons.inj hq
        exact absurd (hrest ▸ List.mem_singleton_self d) hd
  · rw [queue, ← hidx, hreq] at hq
    rw [hidx, one_sub_one_sub]
    exact (List.cons.inj hq).2

theorem queue_of_full (h : thrd.queueFull = true) : thrd.queue ≠ [] := by
  unfold queueFull at h
  obtain ⟨d, hd⟩ := Option.isSome_iff_exists.mp (Bool.and_eq_true _ _ ▸ h).1
  exact List.ne_nil_of_mem (mem_queue.mpr ⟨0, hd⟩)

/-- The two requests are of different descriptors. -/
theorem req_ne (hnodup : thrd.queue.Nodup) (hreq : thrd.req idx = some d) :
    thrd.req (1 - idx) ≠ some d := by
  intro hother
  rcases one_of_two idx thrd.lstenq with hidx | hidx
  · rw [queue, ← hidx, hreq, hother] at hnodup
    simp at hnodup
  · rw [queue, ← hidx, hreq, (by rw [hidx, one_sub_one_sub] : thrd.lstenq = 1 - idx), hother]
      at hnodup
    simp at hnodup

end Pl330Thread

namespace Pl330Chan

variable {pl330 : Pl330Dmac} {s s' : Pl330Chan} {d : DescPtr} {rest : List DescPtr}

/-! ### Where the descriptors are -/

/-- The descriptors of the work list that are not done, -/
def notDone (s : Pl330Chan) : List DescPtr := s.workList.filter fun d => s.status d ≠ .done

/-- and those that have not been handed to the thread. -/
def unsent (s : Pl330Chan) : List DescPtr := s.workList.filter fun d => s.status d = .prep

/-- The descriptors that are not in the pool. -/
def held (s : Pl330Chan) : List DescPtr :=
  s.prepared ++ (s.submittedList ++ (s.workList ++ s.completedList))

/-- Every descriptor is in one list, and in the state that the list stands for. -/
structure Placed (s : Pl330Chan) : Prop where
  all : (s.descPool ++ s.held).Perm (List.range s.ndesc)
  waiting : ∀ d ∈ s.prepared ++ s.submittedList, s.status d = .prep
  completed : ∀ d ∈ s.completedList, s.status d = .done

/-- What is not done, in the order in which it will be. -/
structure Live (pl330 : Pl330Dmac) (s : Pl330Chan) : Prop where
  order : s.notDone = s.reqDone ++ s.thrd.queue ++ s.unsent
  busy : ∀ d ∈ s.reqDone ++ s.thrd.queue,
    s.status d = .busy ∧ pl330.acceptable (s.xfer d) = true

/-- The controller runs the oldest request, or has set the event for it. -/
structure Engaged (s : Pl330Chan) : Prop where
  idle : s.thrd.reqRunning = none → s.running = none ∧ s.es = false
  active : ∀ idx, s.thrd.reqRunning = some idx → ∃ d rest,
    s.thrd.req idx = some d ∧ s.thrd.queue = d :: rest ∧
      ((s.running = some (idx, s.xfer d) ∧ s.es = false) ∨ (s.running = none ∧ s.es = true))
  starting : s.locked = some (.start none) → s.thrd.reqRunning = none

/-- Where `fill_queue` is in the work list. -/
structure Cursor (s : Pl330Chan) : Prop where
  split : ∀ cur, s.locked = some (.fill cur) → ∃ pre, s.workList = pre ++ cur ∧
    (∀ d ∈ pre, s.status d ≠ .prep) ∧ ∀ d ∈ cur, s.status d ≠ .done

/-- The invariant. -/
structure Sound (pl330 : Pl330Dmac) (s : Pl330Chan) : Prop where
  placed : Placed s
  live : Live pl330 s
  engaged : Engaged s
  cursor : Cursor s

theorem Placed.nodup (h : Placed s) : (s.descPool ++ s.held).Nodup :=
  h.all.nodup_iff.mpr List.nodup_range

theorem Live.mem_workList (h : Live pl330 s) (hd : d ∈ s.reqDone ++ s.thrd.queue) :
    d ∈ s.workList := by
  have hmem : d ∈ s.notDone := by
    rw [h.order]
    exact List.mem_append_left _ hd
  exact List.mem_of_mem_filter hmem

theorem Live.prep_of_not_busy (h : Live pl330 s) (hwork : d ∈ s.workList)
    (hdone : s.status d ≠ .done) (hbusy : s.status d ≠ .busy) : s.status d = .prep := by
  have hmem : d ∈ s.notDone := List.mem_filter.mpr ⟨hwork, decide_eq_true hdone⟩
  rw [h.order] at hmem
  rcases List.mem_append.mp hmem with hb | hp
  · exact absurd (h.busy d hb).1 hbusy
  · exact of_decide_eq_true (List.mem_filter.mp hp).2

theorem notDone_congr (hwork : s'.workList = s.workList)
    (hstatus : ∀ d ∈ s.workList, s'.status d = s.status d) : s'.notDone = s.notDone := by
  rw [notDone, hwork]
  exact List.filter_congr fun d hd => by rw [hstatus d hd]

theorem unsent_congr (hwork : s'.workList = s.workList)
    (hstatus : ∀ d ∈ s.workList, s'.status d = s.status d) : s'.unsent = s.unsent := by
  rw [unsent, hwork]
  exact List.filter_congr fun d hd => by rw [hstatus d hd]

/-- What happens to descriptors that are not in the work list does not matter. -/
theorem Live.of_agree (h : Live pl330 s) (hwork : s'.workList = s.workList)
    (hdone : s'.reqDone = s.reqDone) (hthrd : s'.thrd.queue = s.thrd.queue)
    (hstatus : ∀ d ∈ s.workList, s'.status d = s.status d)
    (hxfer : ∀ d ∈ s.workList, s'.xfer d = s.xfer d) : Live pl330 s' := by
  refine ⟨?_, ?_⟩
  · rw [notDone_congr hwork hstatus, unsent_congr hwork hstatus, hdone, hthrd]
    exact h.order
  · intro d hd
    rw [hdone, hthrd] at hd
    have hmem := h.mem_workList hd
    rw [hstatus d hmem, hxfer d hmem]
    exact h.busy d hd

theorem Engaged.of_agree (h : Engaged s) (hthrd : s'.thrd = s.thrd)
    (hrunning : s'.running = s.running) (hes : s'.es = s.es)
    (hlocked : s'.locked = some (.start none) → s.locked = some (.start none))
    (hxfer : ∀ d ∈ s.thrd.queue, s'.xfer d = s.xfer d) : Engaged s' := by
  refine ⟨?_, ?_, ?_⟩
  · rw [hthrd, hrunning, hes]
    exact h.idle
  · intro idx hidx
    rw [hthrd] at hidx
    obtain ⟨d, rest, hreq, hq, hrun⟩ := h.active idx hidx
    refine ⟨d, rest, by rw [hthrd, hreq], by rw [hthrd, hq], ?_⟩
    rw [hrunning, hes, hxfer d (hq ▸ List.mem_cons_self)]
    exact hrun
  · intro hstart
    rw [hthrd]
    exact h.starting (hlocked hstart)

theorem Cursor.of_not_fill (h : ∀ cur, s.locked ≠ some (.fill cur)) : Cursor s :=
  ⟨fun cur hcur => absurd hcur (h cur)⟩

theorem Sound.alloc (pl330 : Pl330Dmac) : Sound pl330 alloc where
  placed :=
    { all := List.Perm.of_eq (List.append_nil _)
      waiting := by simp [Pl330Chan.alloc]
      completed := by simp [Pl330Chan.alloc] }
  live := ⟨rfl, by simp [Pl330Chan.alloc]⟩
  engaged := ⟨fun _ => ⟨rfl, rfl⟩, by simp [Pl330Chan.alloc, Pl330Thread.requested], fun _ => rfl⟩
  cursor := Cursor.of_not_fill (by simp [Pl330Chan.alloc])

/-! ### The client -/

/-- A descriptor out of the pool, or a new one, is held by nobody. -/
theorem Placed.getDesc (h : Placed s) : ∃ desc pool n,
    s.pl330GetDesc = (desc, { s with
      descPool := pool
      ndesc := n
      status := Function.update s.status desc .prep }) ∧
    (desc :: (pool ++ s.held)).Perm (List.range n) := by
  have hall := h.all
  cases hpool : s.descPool with
  | nil =>
      rw [hpool] at hall
      refine ⟨s.ndesc, [], s.ndesc + 1, ?_, ?_⟩
      · simp only [pl330GetDesc, hpool]
      · rw [List.range_succ]
        exact (hall.cons _).trans (List.perm_append_singleton ..).symm
  | cons desc pool =>
      rw [hpool] at hall
      refine ⟨desc, pool, s.ndesc, ?_, hall⟩
      simp only [pl330GetDesc, hpool]

/-- Every descriptor stays in a list, and in the state that the list stands for. -/
theorem Placed.of_perm (h : Placed s)
    (hperm : (s'.descPool ++ s'.held).Perm (s.descPool ++ s.held)) (hn : s'.ndesc = s.ndesc)
    (hwaiting : ∀ d ∈ s'.prepared ++ s'.submittedList, s'.status d = .prep)
    (hcompleted : ∀ d ∈ s'.completedList, s'.status d = .done) : Placed s' :=
  ⟨hn ▸ hperm.trans h.all, hwaiting, hcompleted⟩

theorem Placed.waiting_or (h : Placed s) (hd : d ∈ s.prepared ++ s.submittedList) :
    d ∉ s.workList ++ s.completedList := by
  have hnodup := (List.nodup_append.mp h.nodup).2.1
  rw [held, ← List.append_assoc] at hnodup
  exact List.disjoint_of_nodup_append hnodup hd

theorem Placed.work_nodup (h : Placed s) : (s.workList ++ s.completedList).Nodup := by
  have hnodup := (List.nodup_append.mp h.nodup).2.1
  rw [held, ← List.append_assoc] at hnodup
  exact (List.nodup_append.mp hnodup).2.1

theorem Cursor.of_agree (h : Cursor s) (hlocked : s'.locked = s.locked)
    (hwork : s'.workList = s.workList)
    (hstatus : ∀ d ∈ s.workList, s'.status d = s.status d) : Cursor s' := by
  refine ⟨fun cur hcur => ?_⟩
  rw [hlocked] at hcur
  obtain ⟨pre, hsplit, hpre, hcurs⟩ := h.split cur hcur
  refine ⟨pre, by rw [hwork, hsplit], ?_, ?_⟩
  · intro d hd
    rw [hstatus d (hsplit ▸ List.mem_append_left _ hd)]
    exact hpre d hd
  · intro d hd
    rw [hstatus d (hsplit ▸ List.mem_append_right _ hd)]
    exact hcurs d hd

/-- What `pl330_prep_dma_memcpy` does to the channel. -/
theorem Placed.prep_cases (h : Placed s) {dst src len : Nat} {flags : PrepFlags}
    (hstep : s.prep pl330 dst src len flags = some s') : ∃ desc pool n x,
    s' = { s with
      descPool := pool
      ndesc := n
      status := Function.update s.status desc .prep
      xfer := Function.update s.xfer desc x
      prepared := s.prepared ++ [desc] } ∧
    (desc :: (pool ++ s.held)).Perm (List.range n) ∧ ∀ d ∈ s.held, d ≠ desc := by
  obtain ⟨desc, pool, n, hget, hall⟩ := h.getDesc
  unfold Pl330Chan.prep at hstep
  rw [hget] at hstep
  obtain ⟨rqcfg, -, rfl⟩ := Option.map_eq_some_iff.mp hstep
  refine ⟨desc, pool, n, _, rfl, hall, ?_⟩
  rintro d hd rfl
  have hnodup := hall.nodup_iff.mpr List.nodup_range
  exact (List.nodup_cons.mp hnodup).1 (List.mem_append_right _ hd)

theorem Sound.prep (h : Sound pl330 s) {dst src len : Nat} {flags : PrepFlags}
    (hstep : s.prep pl330 dst src len flags = some s') : Sound pl330 s' := by
  obtain ⟨desc, pool, n, x, rfl, hall, hnew⟩ := h.placed.prep_cases hstep
  have hwork : ∀ d ∈ s.workList, d ≠ desc := fun d hd => hnew d (by simp [held, hd])
  have hperm : (pool ++ ((s.prepared ++ [desc]) ++
      (s.submittedList ++ (s.workList ++ s.completedList)))).Perm (desc :: (pool ++ s.held)) := by
    rw [List.perm_iff_count]
    intro a
    simp only [held, List.count_append, List.count_cons, List.count_nil]
    omega
  refine ⟨⟨?_, ?_, ?_⟩, ?_, ?_, ?_⟩
  · exact hperm.trans hall
  · intro d hd
    by_cases hdesc : d = desc
    · subst hdesc
      exact Function.update_self ..
    · have hmem : d ∈ s.prepared ++ s.submittedList := by simpa [hdesc] using hd
      exact (Function.update_of_ne hdesc ..).trans (h.placed.waiting d hmem)
  · intro d hd
    have hdesc : d ≠ desc := hnew d (by simp only [held, List.mem_append]; tauto)
    exact (Function.update_of_ne hdesc ..).trans (h.placed.completed d hd)
  · refine h.live.of_agree rfl rfl rfl ?_ ?_
    · exact fun d hd => Function.update_of_ne (hwork d hd) ..
    · exact fun d hd => Function.update_of_ne (hwork d hd) ..
  · refine h.engaged.of_agree rfl rfl rfl id ?_
    intro d hd
    exact Function.update_of_ne (hwork d (h.live.mem_workList (List.mem_append_right _ hd))) ..
  · exact h.cursor.of_agree rfl rfl fun d hd => Function.update_of_ne (hwork d hd) ..

theorem Sound.txSubmit (h : Sound pl330 s) (hd : d ∈ s.prepared) :
    Sound pl330 (s.pl330TxSubmit d) where
  placed := by
    have hperm : (s.prepared.erase d ++ (s.submittedList ++ [d])).Perm
        (s.prepared ++ s.submittedList) := by
      rw [← List.append_assoc]
      refine (List.perm_append_singleton d _).trans ?_
      exact (List.perm_cons_erase hd).symm.append_right _
    refine h.placed.of_perm ?_ rfl ?_ h.placed.completed
    · rw [List.perm_iff_count] at hperm ⊢
      intro a
      have hcount := hperm a
      simp only [held, pl330TxSubmit, List.count_append] at hcount ⊢
      omega
    · exact fun e he => h.placed.waiting e (hperm.mem_iff.mp he)
  live := h.live.of_agree rfl rfl rfl (fun _ _ => rfl) fun _ _ => rfl
  engaged := h.engaged.of_agree rfl rfl rfl id fun _ _ => rfl
  cursor := h.cursor.of_agree rfl rfl fun _ _ => rfl

theorem Placed.issue_notDone (h : Placed s) :
    s.pl330IssuePending.notDone = s.notDone ++ s.submittedList := by
  simp only [notDone, pl330IssuePending, List.filter_append]
  congr 1
  exact List.filter_eq_self.mpr fun d hd => by simp [h.waiting d (List.mem_append_right _ hd)]

theorem Placed.issue_unsent (h : Placed s) :
    s.pl330IssuePending.unsent = s.unsent ++ s.submittedList := by
  simp only [unsent, pl330IssuePending, List.filter_append]
  congr 1
  exact List.filter_eq_self.mpr fun d hd => by simp [h.waiting d (List.mem_append_right _ hd)]

theorem Sound.issuePending (h : Sound pl330 s) (hlocked : s.locked = none) :
    Sound pl330 s.pl330IssuePending where
  placed := by
    refine h.placed.of_perm ?_ rfl ?_ h.placed.completed
    · rw [List.perm_iff_count]
      intro a
      simp only [held, pl330IssuePending, List.count_append, List.count_nil]
      omega
    · intro d hd
      exact h.placed.waiting d (by simpa [pl330IssuePending] using Or.inl hd)
  live := by
    refine ⟨?_, h.live.busy⟩
    rw [h.placed.issue_notDone, h.placed.issue_unsent, h.live.order, List.append_assoc]
    rfl
  engaged := h.engaged.of_agree rfl rfl rfl id fun _ _ => rfl
  cursor := Cursor.of_not_fill fun cur => by simp [pl330IssuePending, hlocked]

/-! ### The tasklet -/

theorem pickUp_notDone : s.pickUp.notDone = s.notDone := by
  simp only [notDone, Pl330Chan.pickUp, List.filter_filter]
  refine List.filter_congr fun d _ => ?_
  by_cases hdone : s.status d = .done <;> simp [hdone]

theorem pickUp_unsent : s.pickUp.unsent = s.unsent := by
  simp only [unsent, Pl330Chan.pickUp, List.filter_filter]
  refine List.filter_congr fun d _ => ?_
  by_cases hprep : s.status d = .prep <;> simp [hprep]

theorem Sound.pickUp (h : Sound pl330 s) : Sound pl330 s.pickUp where
  placed := by
    refine h.placed.of_perm ?_ rfl h.placed.waiting ?_
    · have hsplit := List.filter_append_perm (fun d => decide (s.status d = .done)) s.workList
      rw [List.perm_iff_count] at hsplit ⊢
      intro a
      have hcount := hsplit a
      simp only [held, Pl330Chan.pickUp, List.count_append] at hcount ⊢
      omega
    · intro d hd
      rcases List.mem_append.mp hd with hold | hripe
      · exact h.placed.completed d hold
      · exact of_decide_eq_true (List.mem_filter.mp hripe).2
  live := by
    refine ⟨?_, h.live.busy⟩
    rw [pickUp_notDone, pickUp_unsent]
    exact h.live.order
  engaged := h.engaged.of_agree rfl rfl rfl (by simp [Pl330Chan.pickUp]) fun _ _ => rfl
  cursor := by
    refine ⟨fun cur hcur => ⟨[], ?_, by simp, ?_⟩⟩
    · simp only [Pl330Chan.pickUp, Option.some.injEq, TaskletPc.fill.injEq] at hcur
      simp [Pl330Chan.pickUp, hcur]
    · intro d hd
      simp only [Pl330Chan.pickUp, Option.some.injEq, TaskletPc.fill.injEq] at hcur
      rw [← hcur] at hd
      simpa [Pl330Chan.pickUp] using (List.mem_filter.mp hd).2

/-- A descriptor that goes to the thread is still not done, -/
theorem notDone_update_busy (hprep : s.status d = .prep) :
    (s.workList.filter fun e => Function.update s.status d .busy e ≠ .done) = s.notDone := by
  unfold notDone
  refine List.filter_congr fun e _ => ?_
  by_cases he : e = d
  · rw [he, Function.update_self, hprep]
    rfl
  · rw [Function.update_of_ne he]

/-- and one that is done is not among these any longer. -/
theorem notDone_update_done {pre post : List DescPtr} (hnodup : s.workList.Nodup)
    (hsplit : s.notDone = pre ++ d :: post) :
    (s.workList.filter fun e => Function.update s.status d .done e ≠ .done) = pre ++ post := by
  have hfilter : (s.workList.filter fun e => Function.update s.status d .done e ≠ .done) =
      s.notDone.filter fun e => e ≠ d := by
    unfold notDone
    rw [List.filter_filter]
    refine List.filter_congr fun e _ => ?_
    by_cases he : e = d
    · rw [he, Function.update_self]
      simp
    · rw [Function.update_of_ne he]
      simp [he]
  have hnd : (pre ++ d :: post).Nodup := hsplit ▸ hnodup.filter _
  obtain ⟨-, hpost, hdisj⟩ := List.nodup_append.mp hnd
  rw [hfilter, hsplit, List.filter_append, List.filter_cons_of_neg (by simp)]
  congr 1
  · refine List.filter_eq_self.mpr fun e he => decide_eq_true ?_
    exact hdisj e he d List.mem_cons_self
  · refine List.filter_eq_self.mpr fun e he => decide_eq_true ?_
    rintro rfl
    exact (List.nodup_cons.mp hpost).1 he

/-- What has not been handed to the thread is, from where `fill_queue` is, the rest. -/
theorem Cursor.unsent_cons (h : Cursor s) (hlocked : s.locked = some (.fill (d :: rest)))
    (hprep : s.status d = .prep) :
    s.unsent = d :: rest.filter fun e => s.status e = .prep := by
  obtain ⟨pre, hsplit, hpre, -⟩ := h.split _ hlocked
  have hnone : (pre.filter fun e => s.status e = .prep) = [] :=
    List.filter_eq_nil_iff.mpr fun e he => by simpa using hpre e he
  rw [unsent, hsplit, List.filter_append, hnone, List.nil_append,
    List.filter_cons_of_pos (by simp [hprep])]

/-- The descriptor that `fill_queue` is at, and what its turn makes of it. -/
theorem Cursor.unsent_update (h : Cursor s) (hnodup : s.workList.Nodup)
    (hlocked : s.locked = some (.fill (d :: rest))) {st : DescStatus} (hst : st ≠ .prep) :
    (s.workList.filter fun e => Function.update s.status d st e = .prep) =
      rest.filter fun e => s.status e = .prep := by
  obtain ⟨pre, hsplit, hpre, -⟩ := h.split _ hlocked
  obtain ⟨-, hcur, hdisj⟩ := List.nodup_append.mp (hsplit ▸ hnodup)
  have hnone : (pre.filter fun e => Function.update s.status d st e = .prep) = [] := by
    refine List.filter_eq_nil_iff.mpr fun e he => ?_
    rw [Function.update_of_ne (hdisj e he d List.mem_cons_self)]
    simpa using hpre e he
  rw [hsplit, List.filter_append, hnone, List.nil_append,
    List.filter_cons_of_neg (by rw [Function.update_self]; simpa using hst)]
  refine List.filter_congr fun e he => ?_
  have hne : e ≠ d := by
    rintro rfl
    exact (List.nodup_cons.mp hcur).1 he
  rw [Function.update_of_ne hne]

/-- `fill_queue` goes past a descriptor that is not waiting any longer. -/
theorem Cursor.next (h : Cursor s) (hnodup : s.workList.Nodup)
    (hlocked : s.locked = some (.fill (d :: rest))) {st : DescStatus} (hst : st ≠ .prep)
    (hs' : s'.workList = s.workList) (hstatus : s'.status = Function.update s.status d st)
    (hlocked' : s'.locked = some (.fill rest)) : Cursor s' := by
  obtain ⟨pre, hsplit, hpre, hcurs⟩ := h.split _ hlocked
  obtain ⟨-, hcur, hdisj⟩ := List.nodup_append.mp (hsplit ▸ hnodup)
  refine ⟨fun cur hcur' => ⟨pre ++ [d], ?_, ?_, ?_⟩⟩
  · rw [hlocked', Option.some.injEq, TaskletPc.fill.injEq] at hcur'
    rw [hs', hsplit, ← hcur', List.append_assoc]
    rfl
  · intro e he
    rw [hstatus]
    rcases List.mem_append.mp he with hold | hnew
    · rw [Function.update_of_ne (hdisj e hold d List.mem_cons_self)]
      exact hpre e hold
    · rw [List.mem_singleton.mp hnew, Function.update_self]
      exact hst
  · intro e he
    rw [hlocked', Option.some.injEq, TaskletPc.fill.injEq] at hcur'
    rw [← hcur'] at he
    have hne : e ≠ d := by
      rintro rfl
      exact (List.nodup_cons.mp hcur).1 he
    rw [hstatus, Function.update_of_ne hne]
    exact hcurs e (List.mem_cons_of_mem d he)

/-- The states of descriptors that are in the work list change; their places do not. -/
theorem Placed.of_status (h : Placed s) (hpool : s'.descPool = s.descPool)
    (hheld : s'.held = s.held) (hn : s'.ndesc = s.ndesc) (hprepared : s'.prepared = s.prepared)
    (hsubmitted : s'.submittedList = s.submittedList)
    (hcompleted : s'.completedList = s.completedList)
    (hstatus : ∀ d, d ∉ s.workList → s'.status d = s.status d) : Placed s' := by
  refine h.of_perm (by rw [hpool, hheld]) hn ?_ ?_
  · intro d hd
    rw [hprepared, hsubmitted] at hd
    rw [hstatus d fun hc => h.waiting_or hd (List.mem_append_left _ hc)]
    exact h.waiting d hd
  · intro d hd
    rw [hcompleted] at hd
    have hnot : d ∉ s.workList := fun hc =>
      List.disjoint_of_nodup_append h.work_nodup hc hd
    rw [hstatus d hnot]
    exact h.completed d hd

/-- What the invariant does not speak of may change. -/
theorem Sound.aside (h : Sound pl330 s) (scheduled ending : Bool) (entering calling : Nat)
    (callbacks calledBack : List Pl330Xfer) : Sound pl330 { s with
      scheduled := scheduled
      ending := ending
      entering := entering
      calling := calling
      callbacks := callbacks
      calledBack := calledBack } :=
  ⟨h.placed.of_status rfl rfl rfl rfl rfl rfl fun _ _ => rfl,
    h.live.of_agree rfl rfl rfl (fun _ _ => rfl) fun _ _ => rfl,
    h.engaged.of_agree rfl rfl rfl id fun _ _ => rfl,
    h.cursor.of_agree rfl rfl fun _ _ => rfl⟩

theorem Sound.work_nodup (h : Sound pl330 s) : s.workList.Nodup :=
  (List.nodup_append.mp h.placed.work_nodup).1

theorem Sound.fill_mem (h : Sound pl330 s) (hlocked : s.locked = some (.fill (d :: rest))) :
    d ∈ s.workList := by
  obtain ⟨pre, hsplit, -, -⟩ := h.cursor.split _ hlocked
  rw [hsplit]
  exact List.mem_append_right _ List.mem_cons_self

/-- What a turn of `fill_queue` can do. -/
theorem fillQueue_cases (pl330 : Pl330Dmac) (s : Pl330Chan) (d : DescPtr) (rest : List DescPtr) :
    (s.status d = .busy ∧
      s.fillQueue pl330 (d :: rest) = { s with locked := some (.fill rest) }) ∨
    (s.status d ≠ .busy ∧ s.thrd.queueFull = true ∧
      s.fillQueue pl330 (d :: rest) = { s with locked := some .ctrl }) ∨
    (s.status d ≠ .busy ∧ pl330.acceptable (s.xfer d) = false ∧
      s.fillQueue pl330 (d :: rest) = { s with
        status := Function.update s.status d .done
        scheduled := true
        locked := some (.fill rest) }) ∨
    (s.status d ≠ .busy ∧ pl330.acceptable (s.xfer d) = true ∧ ∃ idx, s.thrd.req idx = none ∧
      s.fillQueue pl330 (d :: rest) = { s with
        thrd := { s.thrd with lstenq := idx, req := Function.update s.thrd.req idx (some d) }
        status := Function.update s.status d .busy
        locked := some (.fill rest) }) := by
  by_cases hbusy : s.status d = .busy
  · exact Or.inl ⟨hbusy, if_pos hbusy⟩
  · refine Or.inr ?_
    rw [show s.fillQueue pl330 (d :: rest) = _ from if_neg hbusy]
    cases hsub : s.thrd.pl330SubmitReq pl330 d (s.xfer d) with
    | ok thrd =>
        obtain ⟨hacc, idx, hfree, rfl⟩ := Pl330Thread.submit_ok hsub
        exact Or.inr (Or.inr ⟨hbusy, hacc, idx, hfree, rfl⟩)
    | eagain => exact Or.inl ⟨hbusy, Pl330Thread.submit_eagain hsub, rfl⟩
    | bad => exact Or.inr (Or.inl ⟨hbusy, Pl330Thread.submit_bad hsub, rfl⟩)

theorem Sound.fillQueue (h : Sound pl330 s) {cur : List DescPtr}
    (hlocked : s.locked = some (.fill cur)) : Sound pl330 (s.fillQueue pl330 cur) := by
  cases cur with
  | nil =>
      exact ⟨h.placed.of_status rfl rfl rfl rfl rfl rfl fun _ _ => rfl,
        h.live.of_agree rfl rfl rfl (fun _ _ => rfl) fun _ _ => rfl,
        h.engaged.of_agree rfl rfl rfl (by simp [Pl330Chan.fillQueue]) fun _ _ => rfl,
        Cursor.of_not_fill fun cur => by simp [Pl330Chan.fillQueue]⟩
  | cons d rest =>
      have hmem := h.fill_mem hlocked
      have hnodup := h.work_nodup
      have hother : ∀ st e, e ∉ s.workList → Function.update s.status d st e = s.status e := by
        intro st e he
        refine Function.update_of_ne ?_ ..
        rintro rfl
        exact he hmem
      have hnotdone : s.status d ≠ .done := by
        obtain ⟨pre, -, -, hcurs⟩ := h.cursor.split _ hlocked
        exact hcurs d List.mem_cons_self
      rcases fillQueue_cases pl330 s d rest with
        ⟨hbusy, heq⟩ | ⟨hbusy, -, heq⟩ | ⟨hbusy, -, heq⟩ | ⟨hbusy, hacc, idx, hfree, heq⟩
      · rw [heq]
        refine ⟨h.placed.of_status rfl rfl rfl rfl rfl rfl fun _ _ => rfl,
          h.live.of_agree rfl rfl rfl (fun _ _ => rfl) fun _ _ => rfl,
          h.engaged.of_agree rfl rfl rfl (by simp) fun _ _ => rfl,
          h.cursor.next hnodup hlocked (by simp : DescStatus.busy ≠ .prep) rfl ?_ rfl⟩
        rw [← hbusy, Function.update_eq_self]
      · rw [heq]
        exact ⟨h.placed.of_status rfl rfl rfl rfl rfl rfl fun _ _ => rfl,
          h.live.of_agree rfl rfl rfl (fun _ _ => rfl) fun _ _ => rfl,
          h.engaged.of_agree rfl rfl rfl (by simp) fun _ _ => rfl,
          Cursor.of_not_fill fun cur => by simp⟩
      · have hun := h.cursor.unsent_cons hlocked (h.live.prep_of_not_busy hmem hnotdone hbusy)
        rw [heq]
        refine ⟨h.placed.of_status rfl rfl rfl rfl rfl rfl (hother _), ⟨?_, ?_⟩,
          h.engaged.of_agree rfl rfl rfl (by simp) fun _ _ => rfl,
          h.cursor.next hnodup hlocked (by simp : DescStatus.done ≠ .prep) rfl rfl rfl⟩
        · have hsplit : s.notDone = (s.reqDone ++ s.thrd.queue) ++
              d :: rest.filter fun e => s.status e = .prep := hun ▸ h.live.order
          refine (notDone_update_done hnodup hsplit).trans ?_
          exact congrArg _ (h.cursor.unsent_update hnodup hlocked DescStatus.noConfusion).symm
        · intro e he
          have hed : e ≠ d := by
            rintro rfl
            exact hbusy (h.live.busy e he).1
          exact ⟨(Function.update_of_ne hed ..).trans (h.live.busy e he).1,
            (h.live.busy e he).2⟩
      · have hprep := h.live.prep_of_not_busy hmem hnotdone hbusy
        have hun := h.cursor.unsent_cons hlocked hprep
        have hqueue := Pl330Thread.queue_put (r := d) hfree
        rw [heq]
        refine ⟨h.placed.of_status rfl rfl rfl rfl rfl rfl (hother _), ⟨?_, ?_⟩, ⟨?_, ?_, ?_⟩,
          h.cursor.next hnodup hlocked (by simp : DescStatus.busy ≠ .prep) rfl rfl rfl⟩
        · refine (notDone_update_busy hprep).trans ?_
          refine Eq.trans ?_ (congrArg _
            (h.cursor.unsent_update hnodup hlocked DescStatus.noConfusion).symm)
          rw [h.live.order, hqueue, hun]
          simp
        · intro e he
          rw [hqueue, ← List.append_assoc] at he
          by_cases hed : e = d
          · subst hed
            exact ⟨Function.update_self .., hacc⟩
          · have hold : e ∈ s.reqDone ++ s.thrd.queue := by
              rcases List.mem_append.mp he with hold | hnew
              · exact hold
              · exact absurd (List.mem_singleton.mp hnew) hed
            exact ⟨(Function.update_of_ne hed ..).trans (h.live.busy e hold).1,
              (h.live.busy e hold).2⟩
        · exact h.engaged.idle
        · intro i hi
          obtain ⟨e, tail, hreq, hq, hrun⟩ := h.engaged.active i hi
          have hne : i ≠ idx := by
            rintro rfl
            rw [hfree] at hreq
            simp at hreq
          refine ⟨e, tail ++ [d], (Function.update_of_ne hne ..).trans hreq, ?_, hrun⟩
          rw [hqueue, hq]
          rfl
        · intro hstart
          simp at hstart

/-- `_trigger` does nothing, or it starts the oldest request. -/
theorem trigger_cases (s : Pl330Chan) :
    ((s.executing = true ∨ s.thrd.queue = []) ∧ s._trigger = s) ∨
      ∃ idx d rest, s.thrd.req idx = some d ∧ s.thrd.queue = d :: rest ∧
        s._trigger = { s with
          thrd := { s.thrd with reqRunning := some idx }
          running := some (idx, s.xfer d) } := by
  unfold Pl330Chan._trigger
  by_cases hexec : s.executing = true
  · exact Or.inl ⟨Or.inl hexec, if_pos hexec⟩
  rw [if_neg hexec]
  rcases Pl330Thread.nextReq_cases s.thrd with
    ⟨hnext, hq⟩ | ⟨idx, d, rest, hnext, hreq, hq⟩
  · exact Or.inl ⟨Or.inr hq, by simp [hnext]⟩
  · exact Or.inr ⟨idx, d, rest, hreq, hq, by simp [hnext, hreq]⟩

/-- `_trigger` takes nothing out of the queue and touches no descriptor. -/
theorem trigger_queue : s._trigger.thrd.queue = s.thrd.queue := by
  rcases s.trigger_cases with ⟨-, heq⟩ | ⟨idx, d, rest, -, -, heq⟩
  · rw [heq]
  · rw [heq]
    rfl

theorem trigger_frame : s._trigger = { s with
    thrd := s._trigger.thrd
    running := s._trigger.running } := by
  unfold Pl330Chan._trigger
  split
  · rfl
  · split <;> rfl

theorem Engaged.trigger (hrunning : s.running = none) (hes : s.es = false)
    (hnone : s.thrd.reqRunning = none) (hthrd : s'.thrd = s._trigger.thrd)
    (hrunning' : s'.running = s._trigger.running) (hes' : s'.es = s.es)
    (hxfer : s'.xfer = s.xfer) (hlocked : s'.locked ≠ some (.start none)) : Engaged s' := by
  refine ⟨?_, ?_, fun hstart => absurd hstart hlocked⟩
  · intro hidle
    rcases s.trigger_cases with ⟨-, heq⟩ | ⟨idx, d, rest, -, -, heq⟩
    · rw [hrunning', hes', heq]
      exact ⟨hrunning, hes⟩
    · rw [hthrd, heq] at hidle
      simp at hidle
  · intro i hi
    rcases s.trigger_cases with ⟨-, heq⟩ | ⟨idx, d, rest, hreq, hq, heq⟩
    · rw [hthrd, heq, hnone] at hi
      simp at hi
    · rw [hthrd, heq] at hi
      obtain rfl := Option.some.inj hi
      refine ⟨d, rest, ?_, ?_, Or.inl ⟨?_, hes'.trans hes⟩⟩
      · rw [hthrd, heq]
        exact hreq
      · rw [hthrd, trigger_queue]
        exact hq
      · rw [hrunning', heq, hxfer]

theorem Sound.start (h : Sound pl330 s) {active : Option (Fin 2)}
    (hlocked : s.locked = some (.start active)) :
    Sound pl330 (s.taskletStep pl330 (.start active)) := by
  cases active with
  | some idx =>
      exact ⟨h.placed.of_status rfl rfl rfl rfl rfl rfl fun _ _ => rfl,
        h.live.of_agree rfl rfl rfl (fun _ _ => rfl) fun _ _ => rfl,
        h.engaged.of_agree rfl rfl rfl (by simp [taskletStep]) fun _ _ => rfl,
        Cursor.of_not_fill fun cur => by simp [taskletStep]⟩
  | none =>
      have hnone := h.engaged.starting hlocked
      obtain ⟨hrunning, hes⟩ := h.engaged.idle hnone
      have hstep : s.taskletStep pl330 (.start none) =
          { s._trigger with locked := none, calling := s.calling + 1 } := rfl
      rw [hstep, trigger_frame]
      exact ⟨h.placed.of_status rfl rfl rfl rfl rfl rfl fun _ _ => rfl,
        h.live.of_agree rfl rfl (trigger_queue) (fun _ _ => rfl) fun _ _ => rfl,
        Engaged.trigger hrunning hes hnone rfl rfl rfl rfl (by simp),
        Cursor.of_not_fill fun cur => by simp⟩

theorem Sound.taskletStep (h : Sound pl330 s) {pc : TaskletPc} (hlocked : s.locked = some pc) :
    Sound pl330 (s.taskletStep pl330 pc) := by
  cases pc with
  | fill cur => exact h.fillQueue hlocked
  | ctrl =>
      refine ⟨h.placed.of_status rfl rfl rfl rfl rfl rfl fun _ _ => rfl,
        h.live.of_agree rfl rfl rfl (fun _ _ => rfl) fun _ _ => rfl,
        ⟨h.engaged.idle, h.engaged.active, ?_⟩,
        Cursor.of_not_fill fun cur => by simp [Pl330Chan.taskletStep]⟩
      intro hstart
      simpa [Pl330Chan.taskletStep] using hstart
  | start active => exact h.start hlocked

theorem Sound.call (h : Sound pl330 s) : Sound pl330 s.call := by
  unfold Pl330Chan.call
  split
  · exact h.aside ..
  · rename_i desc rest hcompleted
    have hnodup := h.placed.work_nodup
    rw [hcompleted] at hnodup
    obtain ⟨-, hcur, hdisj⟩ := List.nodup_append.mp hnodup
    have hwork : ∀ d ∈ s.workList, d ≠ desc := fun d hd =>
      hdisj d hd desc List.mem_cons_self
    refine ⟨h.placed.of_perm ?_ rfl ?_ ?_, h.live.of_agree rfl rfl rfl ?_ fun _ _ => rfl,
      h.engaged.of_agree rfl rfl rfl id fun _ _ => rfl, h.cursor.of_agree rfl rfl ?_⟩
    · rw [List.perm_iff_count]
      intro a
      simp only [held, hcompleted, List.count_append, List.count_cons, List.count_nil]
      omega
    · intro d hd
      have hne : d ≠ desc := by
        rintro rfl
        refine h.placed.waiting_or hd (List.mem_append_right _ ?_)
        rw [hcompleted]
        exact List.mem_cons_self
      exact (Function.update_of_ne hne ..).trans (h.placed.waiting d hd)
    · intro d hd
      have hne : d ≠ desc := by
        rintro rfl
        exact (List.nodup_cons.mp hcur).1 hd
      refine (Function.update_of_ne hne ..).trans (h.placed.completed d ?_)
      rw [hcompleted]
      exact List.mem_cons_of_mem _ hd
    · exact fun d hd => Function.update_of_ne (hwork d hd) ..
    · exact fun d hd => Function.update_of_ne (hwork d hd) ..

/-! ### The interrupt and the controller -/

/-- The event is cleared and its request detached. -/
def detach (s : Pl330Chan) (idx : Fin 2) : Pl330Chan :=
  { s with es := false, thrd := s.thrd.markFree idx }

theorem update_active {idx : Fin 2} (hactive : s.thrd.reqRunning = some idx)
    (hreq : s.thrd.req idx = some d) :
    s.pl330Update = { s with
      es := false
      thrd := (s.detach idx)._trigger.thrd
      running := (s.detach idx)._trigger.running
      reqDone := s.reqDone ++ [d] } := by
  have hstep : s.pl330Update = { (s.detach idx)._trigger with
      reqDone := s.reqDone ++ (s.thrd.req idx).toList } := by
    simp only [pl330Update, hactive]
    rfl
  rw [hstep, hreq, trigger_frame]
  rfl

/-- Where an event has been set, the request that was running is the oldest. -/
theorem Engaged.of_es (h : Engaged s) (hes : s.es = true) : ∃ idx d rest,
    s.thrd.reqRunning = some idx ∧ s.thrd.req idx = some d ∧ s.thrd.queue = d :: rest ∧
      s.running = none := by
  cases hactive : s.thrd.reqRunning with
  | none =>
      rw [(h.idle hactive).2] at hes
      simp at hes
  | some idx =>
      obtain ⟨d, rest, hreq, hq, hrun⟩ := h.active idx hactive
      rcases hrun with ⟨-, hc⟩ | ⟨hnone, -⟩
      · rw [hc] at hes
        simp at hes
      · exact ⟨idx, d, rest, rfl, hreq, hq, hnone⟩

theorem Sound.queue_nodup (h : Sound pl330 s) :
    (s.reqDone ++ s.thrd.queue ++ s.unsent).Nodup := by
  rw [← h.live.order]
  exact h.work_nodup.filter _

theorem Sound.detach_queue (h : Sound pl330 s) {idx : Fin 2} (hreq : s.thrd.req idx = some d)
    (hq : s.thrd.queue = d :: rest) : (s.detach idx).thrd.queue = rest := by
  refine Pl330Thread.queue_markFree hreq hq ?_
  have hnd := (List.nodup_append.mp (List.nodup_append.mp h.queue_nodup).1).2.1
  rw [hq] at hnd
  exact (List.nodup_cons.mp hnd).1

theorem Sound.update (h : Sound pl330 s) (hes : s.es = true) : Sound pl330 s.pl330Update := by
  obtain ⟨idx, d, rest, hactive, hreq, hq, hrunning⟩ := h.engaged.of_es hes
  have hqueue : (s.detach idx)._trigger.thrd.queue = rest :=
    (trigger_queue (s := s.detach idx)).trans (h.detach_queue hreq hq)
  rw [update_active hactive hreq]
  refine ⟨h.placed.of_status rfl rfl rfl rfl rfl rfl fun _ _ => rfl, ⟨?_, ?_⟩,
    Engaged.trigger (s := s.detach idx) hrunning rfl rfl rfl rfl rfl rfl ?_,
    h.cursor.of_agree rfl rfl fun _ _ => rfl⟩
  · refine h.live.order.trans ?_
    simp only [hqueue, hq]
    simp [unsent]
  · intro e he
    rw [hqueue] at he
    refine h.live.busy e ?_
    rw [hq]
    simpa [or_assoc] using he
  · intro hstart
    rw [h.engaged.starting hstart] at hactive
    simp at hactive

theorem Sound.rqcb_unsent (h : Sound pl330 s) (hdone : s.reqDone = d :: rest) :
    (s.dmaPl330Rqcb d rest).unsent = s.unsent := by
  have hbusy := (h.live.busy d (List.mem_append_left _ (hdone ▸ List.mem_cons_self))).1
  refine List.filter_congr fun e _ => ?_
  by_cases he : e = d
  · simp [dmaPl330Rqcb, he, hbusy]
  · simp [dmaPl330Rqcb, Function.update_of_ne he]

theorem Sound.rqcb (h : Sound pl330 s) (hdone : s.reqDone = d :: rest) (hlocked : s.locked = none) :
    Sound pl330 (s.dmaPl330Rqcb d rest) := by
  have hmem : d ∈ s.workList :=
    h.live.mem_workList (List.mem_append_left _ (hdone ▸ List.mem_cons_self))
  have hnodup := h.work_nodup
  have hsplit : s.notDone = [] ++ d :: (rest ++ s.thrd.queue ++ s.unsent) := by
    rw [h.live.order, hdone]
    simp
  have hnd : (d :: (rest ++ s.thrd.queue ++ s.unsent)).Nodup := by
    have hall := h.queue_nodup
    rw [hdone] at hall
    exact hall
  refine ⟨h.placed.of_status rfl rfl rfl rfl rfl rfl ?_, ⟨?_, ?_⟩,
    h.engaged.of_agree rfl rfl rfl id fun _ _ => rfl,
    Cursor.of_not_fill fun cur => by simp [dmaPl330Rqcb, hlocked]⟩
  · intro e he
    refine Function.update_of_ne ?_ ..
    rintro rfl
    exact he hmem
  · have hun := h.rqcb_unsent hdone
    refine (notDone_update_done hnodup hsplit).trans ?_
    rw [hun]
    rfl
  · intro e he
    have hne : e ≠ d := by
      rintro rfl
      exact (List.nodup_cons.mp hnd).1 (List.mem_append_left _ he)
    have hold : e ∈ s.reqDone ++ s.thrd.queue := by
      rw [hdone]
      exact List.mem_cons_of_mem _ he
    exact ⟨(Function.update_of_ne hne ..).trans (h.live.busy e hold).1, (h.live.busy e hold).2⟩

/-- What runs is the oldest request. -/
theorem Engaged.of_running (h : Engaged s) {idx : Fin 2} {x : Pl330Xfer}
    (hrunning : s.running = some (idx, x)) : ∃ d rest,
      s.thrd.req idx = some d ∧ s.thrd.queue = d :: rest ∧ x = s.xfer d ∧ s.es = false := by
  cases hactive : s.thrd.reqRunning with
  | none =>
      rw [(h.idle hactive).1] at hrunning
      simp at hrunning
  | some i =>
      obtain ⟨d, rest, hreq, hq, ⟨hrun, hes⟩ | ⟨hnone, -⟩⟩ := h.active i hactive
      · rw [hrun] at hrunning
        obtain ⟨rfl, rfl⟩ := Prod.mk.inj (Option.some.inj hrunning)
        exact ⟨d, rest, hreq, hq, rfl, hes⟩
      · rw [hnone] at hrunning
        simp at hrunning

theorem Sound.sev (h : Sound pl330 s) {idx : Fin 2} {x : Pl330Xfer}
    (hrunning : s.running = some (idx, x)) :
    Sound pl330 { s with
      running := none
      ending := true
      es := true
      performed := s.performed ++ [x] } := by
  refine ⟨h.placed.of_status rfl rfl rfl rfl rfl rfl fun _ _ => rfl,
    h.live.of_agree rfl rfl rfl (fun _ _ => rfl) fun _ _ => rfl, ⟨?_, ?_, h.engaged.starting⟩,
    h.cursor.of_agree rfl rfl fun _ _ => rfl⟩
  · intro hnone
    rw [(h.engaged.idle hnone).1] at hrunning
    simp at hrunning
  · intro i hi
    obtain ⟨d, rest, hreq, hq, -⟩ := h.engaged.active i hi
    exact ⟨d, rest, hreq, hq, Or.inr ⟨rfl, rfl⟩⟩

/-- Every step keeps the invariant. -/
theorem Sound.step (h : Sound pl330 s) {a : ChanAct} (hstep : pl330Step pl330 s a = some s') :
    Sound pl330 s' := by
  cases a <;> simp only [pl330Step, Option.ite_none_right_eq_some, Option.some.injEq] at hstep
  case prep => exact h.prep hstep
  case txSubmit =>
    obtain ⟨hc, rfl⟩ := hstep
    exact h.txSubmit hc.2
  case issuePending =>
    obtain ⟨hc, rfl⟩ := hstep
    exact h.issuePending (Option.isNone_iff_eq_none.mp hc)
  case softirq =>
    obtain ⟨-, rfl⟩ := hstep
    exact h.aside ..
  case enter =>
    obtain ⟨-, rfl⟩ := hstep
    exact h.pickUp
  case locked =>
    obtain ⟨pc, hpc, rfl⟩ := Option.map_eq_some_iff.mp hstep
    exact h.taskletStep hpc
  case call =>
    obtain ⟨-, rfl⟩ := hstep
    exact h.call
  case update =>
    obtain ⟨hc, rfl⟩ := hstep
    exact h.update hc
  case rqcb =>
    split at hstep
    · simp at hstep
    · rename_i desc rest hdone
      simp only [Option.ite_none_right_eq_some, Option.some.injEq] at hstep
      obtain ⟨hc, rfl⟩ := hstep
      exact h.rqcb hdone (Option.isNone_iff_eq_none.mp hc)
  case callback =>
    obtain ⟨x, -, rfl⟩ := Option.map_eq_some_iff.mp hstep
    exact h.aside ..
  case sev =>
    obtain ⟨⟨idx, x⟩, hrunning, rfl⟩ := Option.map_eq_some_iff.mp hstep
    exact h.sev hrunning
  case dmaEnd =>
    obtain ⟨-, rfl⟩ := hstep
    exact h.aside ..

end Pl330Chan

open Pl330Chan

/-- Two pushes to a FIFO, submitted and issued together. -/
def twoPushes : List ChanAct :=
  [.prep 0x4000 0x10000 128 awgPush, .prep 0x4000 0x10080 128 awgPush, .txSubmit 0, .txSubmit 1,
    .issuePending]

/-- The tasklet takes both, and starts the first. -/
def bothTaken : List ChanAct := twoPushes ++ [.enter, .locked, .locked, .locked, .locked, .locked]

/-- The device's controller, with its default buffers of microcode. -/
def zynqPl330 : Pl330Dmac := { pcfg := zynqDmac, managerNs := true, mcbufsz := 512, ev := 0 }

end Acq400
