/-
Which interrupt a line is about.

The handler records an event for a client that is ready, and takes its readiness away; the
event stays until the reader has set `client_ready` again.  A reader that reads while it is
not ready reads one event, and one that is not reported yet.  But it goes by `ints`, which
it has sampled before it is ready again: an interrupt in between makes it read the event of
the line before.
-/
import Acq400.Driver.EventReader
import Mathlib.Tactic.Common

namespace Acq400

namespace Atd9802

variable {g : GroupTrigger}

/-! ### What an interrupt does to the event -/

theorem siteLoop_rest (gsmode : GsMode) (siteState : Nat → BitVec 32) (n ix : Nat)
    (irqStat : BitVec 32) (adev : Atd9802) (allStat : Nat → BitVec 32) :
    ∃ statusLatch groupStatusLatch,
      (siteLoop gsmode siteState n ix irqStat adev allStat).1 =
        { adev with statusLatch := statusLatch, groupStatusLatch := groupStatusLatch } := by
  induction n generalizing ix irqStat adev allStat with
  | zero => exact ⟨_, _, rfl⟩
  | succ n ih =>
      rw [siteLoop]
      split_ifs
      · exact ⟨_, _, rfl⟩
      · obtain ⟨statusLatch, groupStatusLatch, heq⟩ := ih (ix + 1) (irqStat >>> 1)
          (adev.latchSite gsmode ix (siteState ix)) (Function.update allStat ix (siteState ix))
        exact ⟨statusLatch, groupStatusLatch, heq⟩
      · exact ih _ _ _ _

/-- What the handler leaves of the device but for its group latches. -/
theorem isr_rest (adev : Atd9802) (irq : AtdIrq) :
    ∃ groupStatusLatch, (adev.isr g irq).1 =
      { adev.isrRecord g.gsmode irq with groupStatusLatch := groupStatusLatch } := by
  simp only [isr]
  split_ifs
  · exact ⟨_, rfl⟩
  · exact ⟨_, rfl⟩

theorem isr_clientReady (adev : Atd9802) (irq : AtdIrq) :
    (adev.isr g irq).1.clientReady = false := by
  obtain ⟨_, heq⟩ := isr_rest (g := g) adev irq
  rw [heq]
  cases hready : adev.clientReady with
  | true =>
      simp only [isrRecord, hready, if_true]
      rfl
  | false =>
      simp only [isrRecord, hready, Bool.false_eq_true, if_false]
      obtain ⟨_, _, hrest⟩ := siteLoop_rest g.gsmode irq.siteState atdTrgMaxreg 0 irq.siteId adev
        fun _ => 0
      rw [hrest]
      exact hready

/-- An interrupt leaves the event to a client that is not ready. -/
theorem isr_event {adev : Atd9802} (h : adev.clientReady = false) (irq : AtdIrq) :
    (adev.isr g irq).1.event = adev.event := by
  obtain ⟨_, heq⟩ := isr_rest (g := g) adev irq
  rw [heq]
  simp only [isrRecord, h, Bool.false_eq_true, if_false]
  obtain ⟨_, _, hrest⟩ := siteLoop_rest g.gsmode irq.siteState atdTrgMaxreg 0 irq.siteId adev
    fun _ => 0
  rw [hrest]
  rfl

end Atd9802

namespace EventReader

variable {g : GroupTrigger}

/-! ### What the lines are to report -/

/-- The lines returned so far. -/
structure Reported (s : EventReader) : Prop where
  /-- Each line reports the event of one interrupt, later than the open and than those of the lines
  before. -/
  events : ∃ ks : List Nat,
    List.Forall₂ (fun k line => s.log[k]? = some (some line.event)) ks s.lines ∧
      ks.Pairwise (· < ·) ∧ ∀ k ∈ ks, s.opened ≤ k
  /-- The difference of a line is that of its counts. -/
  diffs : ∀ line ∈ s.lines, line.diff = line.sampleCount - line.latchCount
  /-- The interrupts that the lines count are those from the open on. -/
  deltas : ∀ line, s.lines.getLast? = some line →
    s.openInts + (s.lines.map EventLine.deltaInts).sum = line.intCount

/-- `int_count` is to be taken, as `delta_ints` has been. -/
def updating (s : EventReader) : Bool :=
  match s.pc with
  | .update _ => true
  | _ => false

/-- The fields of the event are read. -/
def formatting (s : EventReader) : Bool :=
  match s.pc with
  | .format _ _ => true
  | _ => false

/-- The reader takes `ints` twice alike, and reads an event that stays. -/
def Guarded (s : EventReader) : EventTurn → Prop
  | .irq _ => s.updating = false
  | .read _ => s.formatting = true → s.adev.clientReady = false
  | .fault => False
  | .go | .signal => True

instance (s : EventReader) : ∀ turn, Decidable (s.Guarded turn)
  | .irq _ => inferInstanceAs (Decidable (s.updating = false))
  | .read _ => inferInstanceAs (Decidable (s.formatting = true → s.adev.clientReady = false))
  | .fault => isFalse id
  | .go | .signal => isTrue trivial

/-! ### The events that are reported -/

/-- The lines report the events of the interrupts `ks`. -/
structure Lines (s : EventReader) (ks : List Nat) : Prop where
  events : List.Forall₂ (fun k line => s.log[k]? = some (some line.event)) ks s.lines
  later : ks.Pairwise (· < ·)
  opened : ∀ k ∈ ks, s.opened ≤ k
  past : ∀ k ∈ ks, k < s.log.length
  begun : s.opened ≤ s.log.length
  diffs : ∀ line ∈ s.lines, line.diff = line.sampleCount - line.latchCount
  deltas : ∀ line, s.lines.getLast? = some line →
    s.openInts + (s.lines.map EventLine.deltaInts).sum = line.intCount

/-- The event in the device is that of an interrupt that no line reports. -/
def Fresh (s : EventReader) (ks : List Nat) : Prop :=
  ∃ k, s.opened ≤ k ∧ (∀ k' ∈ ks, k' < k) ∧ s.log[k]? = some (some s.adev.event)

/-- What has been counted in lines. -/
def counted (s : EventReader) : BitVec 32 := s.openInts + (s.lines.map EventLine.deltaInts).sum

/-- What the reader has of the line in turn. -/
def InTurn (s : EventReader) : Prop :=
  match s.pc with
  | .closed => s.lines = [] ∧ s.adev.clientReady = false
  | .opening => s.lines = [] ∧ s.adev.clientReady = false ∧ s.openInts = s.intCount
  | .idle | .wait | .delta => s.counted = s.intCount
  | .update deltaInts => s.counted = s.intCount ∧ s.intCount + deltaInts = s.adev.ints
  | .format deltaInts args =>
    s.counted + deltaInts = s.intCount ∧
      ∀ field v, args field = some v → s.adev.clientReady = false ∧ v = s.adev.event.field field
  | .copied line =>
    s.counted + line.deltaInts = line.intCount ∧ line.intCount = s.intCount ∧
      s.adev.clientReady = false ∧ line.event = s.adev.event ∧
      line.diff = line.sampleCount - line.latchCount

/-- The reader has opened the device. -/
def Opened (s : EventReader) : Prop :=
  match s.pc with
  | .closed | .opening => False
  | _ => True

/-- The invariant. -/
structure Sound (s : EventReader) (ks : List Nat) : Prop where
  lines : s.Lines ks
  fresh : s.Opened → s.adev.clientReady = false → s.Fresh ks
  turn : s.InTurn

theorem opened_of {s : EventReader} (hclosed : s.pc ≠ .closed) (hopening : s.pc ≠ .opening) :
    s.Opened := by
  unfold Opened
  split <;> trivial

theorem Lines.reported {s : EventReader} {ks : List Nat} (h : s.Lines ks) : s.Reported :=
  ⟨⟨ks, h.events, h.later, h.opened⟩, h.diffs, h.deltas⟩

theorem getElem?_append_of_some {α : Type} {l : List α} {k : Nat} {a b : α}
    (h : l[k]? = some a) : (l ++ [b])[k]? = some a := by
  rw [List.getElem?_append_left (List.getElem?_eq_some_iff.mp h).1, h]

section

variable {s t : EventReader} {ks : List Nat}

/-! ### What a turn of the reader does -/

theorem read_cases {field : EventField} (ht : s.step g (.read field) = some t) :
    ∃ deltaInts args, s.pc = .format deltaInts args ∧
      t = { s with
        pc := .format deltaInts
          (Function.update args field (some (s.adev.event.field field))) } := by
  simp only [EventReader.step] at ht
  split at ht
  case h_1 deltaInts args hpc =>
    split_ifs at ht
    exact ⟨deltaInts, args, hpc, (Option.some.inj ht).symm⟩
  case h_2 => exact absurd ht nofun

theorem signal_cases (ht : s.step g .signal = some t) :
    s.pc = .wait ∧ t = { s with pc := .idle } := by
  simp only [EventReader.step] at ht
  split at ht
  case h_1 hpc => exact ⟨hpc, (Option.some.inj ht).symm⟩
  case h_2 => exact absurd ht nofun

/-! ### Interrupts -/

theorem Lines.interrupt (h : s.Lines ks) (irq : AtdIrq) : (s.interrupt g irq).Lines ks where
  events := h.events.imp fun _ _ hk => getElem?_append_of_some hk
  later := h.later
  opened := h.opened
  past k hk := by
    show k < (s.log ++ [_]).length
    rw [List.length_append]
    exact Nat.lt_add_right 1 (h.past k hk)
  begun := by
    show s.opened ≤ (s.log ++ [_]).length
    rw [List.length_append]
    exact Nat.le_add_right_of_le h.begun
  diffs := h.diffs
  deltas := h.deltas

/-- A client that was ready has a new event, one that was not has still the one it had. -/
theorem Sound.fresh_interrupt (h : s.Sound ks) (irq : AtdIrq) (hopened : s.Opened) :
    (s.interrupt g irq).Fresh ks := by
  cases hready : s.adev.clientReady with
  | true =>
      refine ⟨s.log.length, h.lines.begun, h.lines.past, ?_⟩
      simp only [EventReader.interrupt, hready, if_true]
      exact List.getElem?_concat_length
  | false =>
      obtain ⟨k, hk, hlater, hevent⟩ := h.fresh hopened hready
      refine ⟨k, hk, hlater, ?_⟩
      show (s.log ++ [_])[k]? = some (some (s.adev.isr g irq).1.event)
      rw [Atd9802.isr_event hready]
      exact getElem?_append_of_some hevent

/-- What has been read of an event stays true of it. -/
theorem InTurn.interrupt (h : s.InTurn) (irq : AtdIrq)
    (hguarded : s.updating = false) : (s.interrupt g irq).InTurn := by
  have hpc' : (s.interrupt g irq).pc = s.pc := rfl
  have hnot : (s.interrupt g irq).adev.clientReady = false :=
    Atd9802.isr_clientReady s.adev irq
  have hevent : s.adev.clientReady = false → (s.interrupt g irq).adev.event = s.adev.event :=
    fun hready => Atd9802.isr_event hready irq
  unfold InTurn at h ⊢
  rw [hpc']
  cases hpc : s.pc with
  | closed =>
      rw [hpc] at h
      exact ⟨h.1, hnot⟩
  | opening =>
      rw [hpc] at h
      exact ⟨h.1, hnot, h.2.2⟩
  | update deltaInts =>
      unfold updating at hguarded
      rw [hpc] at hguarded
      exact absurd hguarded nofun
  | format deltaInts args =>
      rw [hpc] at h
      refine ⟨h.1, ?_⟩
      intro field v hv
      obtain ⟨hready, hfield⟩ := h.2 field v hv
      exact ⟨hnot, by rw [hevent hready, hfield]⟩
  | copied line =>
      rw [hpc] at h
      obtain ⟨hcount, hint, hready, hline, hdiff⟩ := h
      exact ⟨hcount, hint, hnot, by rw [hevent hready, hline], hdiff⟩
  | _ =>
      rw [hpc] at h
      exact h

theorem Sound.interrupt (h : s.Sound ks) (irq : AtdIrq)
    (hguarded : s.updating = false) : (s.interrupt g irq).Sound ks :=
  ⟨h.lines.interrupt irq, fun hopened _ => h.fresh_interrupt irq hopened,
    h.turn.interrupt irq hguarded⟩

/-! ### Lines -/

theorem line_eq {args : EventArgs} {intCount deltaInts : BitVec 32} {line : EventLine}
    (hline : args.line intCount deltaInts = some line) {ev : AtdEvent}
    (hargs : ∀ field v, args field = some v → v = ev.field field) :
    line.intCount = intCount ∧ line.deltaInts = deltaInts ∧ line.event = ev ∧
      line.diff = line.sampleCount - line.latchCount ∧ ∃ field v, args field = some v := by
  unfold EventArgs.line at hline
  simp only [Option.bind_eq_bind, Option.bind_eq_some_iff, Option.pure_def,
    Option.some.injEq] at hline
  obtain ⟨status, hstatus, sampleCount, hsample, latchCount, hlatch, diffSample, hdiffSample,
    diffLatch, hdiffLatch, rfl⟩ := hline
  obtain rfl := hargs _ _ hstatus
  obtain rfl := hargs _ _ hsample
  obtain rfl := hargs _ _ hlatch
  obtain rfl := hargs _ _ hdiffSample
  obtain rfl := hargs _ _ hdiffLatch
  exact ⟨rfl, rfl, rfl, rfl, _, _, hstatus⟩

theorem Sound.returned (h : s.Sound ks) {line : EventLine} (hpc : s.pc = .copied line) :
    ∃ ks', Sound { s with
      adev := { s.adev with clientReady := true }
      lines := s.lines ++ [line]
      pc := .idle } ks' := by
  have hturn := h.turn
  unfold InTurn at hturn
  rw [hpc] at hturn
  obtain ⟨hcount, hint, hready, hline, hdiff⟩ := hturn
  have hopened : s.Opened := opened_of (by rw [hpc]; nofun) (by rw [hpc]; nofun)
  obtain ⟨k, hk, hlater, hlog⟩ := h.fresh hopened hready
  rw [← hline] at hlog
  have hsum : s.openInts + ((s.lines ++ [line]).map EventLine.deltaInts).sum = line.intCount := by
    rw [List.map_append, List.sum_append, ← BitVec.add_assoc]
    rw [List.map_singleton, List.sum_singleton]
    exact hcount
  refine ⟨ks ++ [k], ⟨?_, ?_, ?_, ?_, h.lines.begun, ?_, ?_⟩, nofun, hsum.trans hint⟩
  · exact List.rel_append h.lines.events (.cons hlog .nil)
  · refine List.pairwise_append.mpr ⟨h.lines.later, List.pairwise_singleton _ _, ?_⟩
    intro k' hk' k'' hk''
    obtain rfl := List.mem_singleton.mp hk''
    exact hlater k' hk'
  · intro k' hk'
    rcases List.mem_append.mp hk' with hold | hnew
    · exact h.lines.opened k' hold
    · obtain rfl := List.mem_singleton.mp hnew
      exact hk
  · intro k' hk'
    rcases List.mem_append.mp hk' with hold | hnew
    · exact h.lines.past k' hold
    · obtain rfl := List.mem_singleton.mp hnew
      exact (List.getElem?_eq_some_iff.mp hlog).1
  · intro line' hline'
    rcases List.mem_append.mp hline' with hold | hnew
    · exact h.lines.diffs line' hold
    · obtain rfl := List.mem_singleton.mp hnew
      exact hdiff
  · intro line' hlast
    rw [List.getLast?_concat] at hlast
    obtain rfl := Option.some.inj hlast
    exact hsum

/-! ### Turn by turn -/

theorem Sound.moved (h : s.Sound ks) {intCount : BitVec 32} {pc : EventPc} (hopened : s.Opened)
    (hturn : InTurn { s with intCount := intCount, pc := pc }) :
    Sound { s with intCount := intCount, pc := pc } ks where
  lines := ⟨h.lines.events, h.lines.later, h.lines.opened, h.lines.past, h.lines.begun,
    h.lines.diffs, h.lines.deltas⟩
  fresh _ hready := h.fresh hopened hready
  turn := hturn

theorem Sound.closed (h : s.Sound ks) (hpc : s.pc = .closed) :
    Sound { s with intCount := s.adev.ints, openInts := s.adev.ints, pc := .opening } ks := by
  have hturn := h.turn
  unfold InTurn at hturn
  rw [hpc] at hturn
  refine ⟨⟨h.lines.events, h.lines.later, h.lines.opened, h.lines.past, h.lines.begun,
    h.lines.diffs, ?_⟩, nofun, hturn.1, hturn.2, rfl⟩
  intro line hlast
  have hnone : s.lines.getLast? = some line := hlast
  rw [hturn.1] at hnone
  exact absurd hnone nofun

theorem Sound.opening (h : s.Sound ks) (hpc : s.pc = .opening) :
    Sound { s with
      adev := { s.adev with clientReady := true }
      opened := s.log.length
      pc := .idle } ks := by
  have hturn := h.turn
  unfold InTurn at hturn
  rw [hpc] at hturn
  obtain ⟨hlines, -, hcount⟩ := hturn
  have hnone : ks = [] := by
    have hevents := h.lines.events
    rw [hlines] at hevents
    exact List.forall₂_nil_right_iff.mp hevents
  refine ⟨⟨h.lines.events, h.lines.later, ?_, h.lines.past, Nat.le_refl _, h.lines.diffs,
    h.lines.deltas⟩, nofun, ?_⟩
  · rw [hnone]
    exact nofun
  · show s.openInts + (s.lines.map EventLine.deltaInts).sum = s.intCount
    rw [hlines, hcount]
    exact BitVec.add_zero _

theorem Sound.format (h : s.Sound ks) {deltaInts : BitVec 32} {args : EventArgs}
    (hpc : s.pc = .format deltaInts args) {line : EventLine}
    (hline : args.line s.intCount deltaInts = some line) :
    Sound { s with pc := .copied line } ks := by
  have hturn := h.turn
  unfold InTurn at hturn
  rw [hpc] at hturn
  obtain ⟨hcount, hargs⟩ := hturn
  obtain ⟨hint, hdelta, hevent, hdiff, field, v, hread⟩ :=
    line_eq hline fun field v hv => (hargs field v hv).2
  have hopened : s.Opened := opened_of (by rw [hpc]; nofun) (by rw [hpc]; nofun)
  refine h.moved hopened ⟨?_, hint, (hargs field v hread).1, hevent, hdiff⟩
  rw [hint, hdelta]
  exact hcount

theorem Sound.go (h : s.Sound ks) (ht : s.go = some t) : ∃ ks', t.Sound ks' := by
  have hturn := h.turn
  unfold InTurn at hturn
  unfold EventReader.go at ht
  by_cases hclosed : s.pc = .closed
  · rw [hclosed] at ht
    obtain rfl := Option.some.inj ht
    exact ⟨ks, h.closed hclosed⟩
  by_cases hopening : s.pc = .opening
  · rw [hopening] at ht
    obtain rfl := Option.some.inj ht
    exact ⟨ks, h.opening hopening⟩
  have hopened := opened_of hclosed hopening
  cases hpc : s.pc with
  | closed => exact absurd hpc hclosed
  | opening => exact absurd hpc hopening
  | idle =>
      rw [hpc] at ht hturn
      obtain rfl := Option.some.inj ht
      exact ⟨ks, h.moved hopened hturn⟩
  | wait =>
      rw [hpc] at ht hturn
      obtain rfl := Option.some.inj ht
      refine ⟨ks, h.moved hopened ?_⟩
      unfold InTurn
      split_ifs
      · exact hturn
      · exact hturn
  | delta =>
      rw [hpc] at ht hturn
      obtain rfl := Option.some.inj ht
      exact ⟨ks, h.moved hopened ⟨hturn, add_sub_cancel _ _⟩⟩
  | update deltaInts =>
      rw [hpc] at ht hturn
      obtain rfl := Option.some.inj ht
      refine ⟨ks, h.moved hopened ⟨?_, nofun⟩⟩
      show s.counted + deltaInts = s.adev.ints
      rw [hturn.1, hturn.2]
  | format deltaInts args =>
      rw [hpc] at ht
      obtain ⟨line, hline, rfl⟩ := Option.map_eq_some_iff.mp ht
      exact ⟨ks, h.format hpc hline⟩
  | copied line =>
      rw [hpc] at ht
      obtain rfl := Option.some.inj ht
      exact h.returned hpc

theorem Sound.read (h : s.Sound ks) {field : EventField} (hguarded : s.Guarded (.read field))
    (ht : s.step g (.read field) = some t) : t.Sound ks := by
  obtain ⟨deltaInts, args, hpc, rfl⟩ := read_cases ht
  have hturn := h.turn
  unfold InTurn at hturn
  rw [hpc] at hturn
  have hready : s.adev.clientReady = false := by
    refine hguarded ?_
    unfold formatting
    rw [hpc]
  refine h.moved (opened_of (by rw [hpc]; nofun) (by rw [hpc]; nofun)) ⟨hturn.1, ?_⟩
  intro field' v hv
  refine ⟨hready, ?_⟩
  by_cases hsame : field' = field
  · subst hsame
    rw [Function.update_self] at hv
    exact (Option.some.inj hv).symm
  · rw [Function.update_of_ne hsame] at hv
    exact (hturn.2 field' v hv).2

theorem Sound.signal (h : s.Sound ks) (ht : s.step g .signal = some t) : t.Sound ks := by
  obtain ⟨hpc, rfl⟩ := signal_cases ht
  have hturn := h.turn
  unfold InTurn at hturn
  rw [hpc] at hturn
  exact h.moved (opened_of (by rw [hpc]; nofun) (by rw [hpc]; nofun)) hturn

theorem Sound.step (h : s.Sound ks) {turn : EventTurn} (hguarded : s.Guarded turn)
    (ht : s.step g turn = some t) : ∃ ks', t.Sound ks' := by
  cases turn with
  | irq irq =>
      obtain rfl := Option.some.inj ht
      exact ⟨ks, h.interrupt irq hguarded⟩
  | go => exact h.go ht
  | read field => exact ⟨ks, h.read hguarded ht⟩
  | signal => exact ⟨ks, h.signal ht⟩
  | fault => exact absurd hguarded id

end

theorem init_sound (adev : Atd9802) : (init adev).Sound [] where
  lines := ⟨.nil, .nil, nofun, nofun, Nat.le_refl _, nofun, nofun⟩
  fresh := nofun
  turn := ⟨rfl, rfl⟩

/-- **Each line reports one interrupt, and they are all counted**, in every run of guarded turns. -/
theorem lines_reported (g : GroupTrigger) (adev : Atd9802) (turns : List EventTurn)
    {s : EventReader} (hguarded : Lts.Meets (step g) Guarded (init adev) turns)
    (hrun : Lts.run (step g) (init adev) turns = some s) : s.Reported := by
  have hsound : ∃ ks, s.Sound ks := by
    refine Lts.run_invariant_of (fun s => ∃ ks, s.Sound ks) ?_ turns (init adev) s
      ⟨[], init_sound adev⟩ hguarded hrun
    rintro u turn v ⟨ks, hu⟩ hturn hstep
    exact hu.step hturn hstep
  obtain ⟨ks, hs⟩ := hsound
  exact hs.lines.reported

/-! ### Runs without interrupts in between -/

/-- The reader has sampled `ints`, and is not ready yet. -/
def sampled (s : EventReader) : Bool :=
  match s.pc with
  | .opening | .update _ | .format _ _ | .copied _ => true
  | .closed | .idle | .wait | .delta => false

/-- No interrupt comes between a look at `ints` and `client_ready`. -/
def Quiet (s : EventReader) : EventTurn → Prop
  | .irq _ => s.sampled = false
  | .fault => False
  | .go | .read _ | .signal => True

/-- The reader goes by `ints`, and is right. -/
def InStep (s : EventReader) : Prop :=
  match s.pc with
  | .closed => True
  | .opening => s.adev.ints = s.intCount
  | .idle | .wait => s.adev.clientReady = true → s.adev.ints = s.intCount
  | .delta => s.adev.clientReady = false
  | .update _ => s.adev.clientReady = false
  | .format _ _ | .copied _ => s.adev.clientReady = false ∧ s.adev.ints = s.intCount

section

variable {s t : EventReader}

theorem InStep.guarded (h : s.InStep) {turn : EventTurn} (hquiet : s.Quiet turn) :
    s.Guarded turn := by
  unfold InStep at h
  cases turn with
  | irq irq =>
      have hsampled : s.sampled = false := hquiet
      show s.updating = false
      unfold sampled at hsampled
      unfold updating
      cases hpc : s.pc with
      | update deltaInts =>
          rw [hpc] at hsampled
          exact absurd hsampled nofun
      | _ => rfl
  | read field =>
      intro hformat
      unfold formatting at hformat
      cases hpc : s.pc with
      | format deltaInts args =>
          rw [hpc] at h
          exact h.1
      | _ =>
          rw [hpc] at hformat
          exact absurd hformat nofun
  | fault => exact hquiet
  | go => trivial
  | signal => trivial

theorem interrupt_inStep (irq : AtdIrq) (hquiet : s.sampled = false) :
    (s.interrupt g irq).InStep := by
  have hpc' : (s.interrupt g irq).pc = s.pc := rfl
  have hnot : (s.interrupt g irq).adev.clientReady = false :=
    Atd9802.isr_clientReady s.adev irq
  unfold sampled at hquiet
  unfold InStep
  rw [hpc']
  cases hpc : s.pc with
  | closed => trivial
  | idle => exact fun hready => absurd (hnot.symm.trans hready) nofun
  | wait => exact fun hready => absurd (hnot.symm.trans hready) nofun
  | delta => exact hnot
  | _ =>
      rw [hpc] at hquiet
      exact absurd hquiet nofun

theorem InStep.go (h : s.InStep) (ht : s.go = some t) : t.InStep := by
  unfold InStep at h
  unfold EventReader.go at ht
  cases hpc : s.pc with
  | closed =>
      rw [hpc] at ht
      obtain rfl := Option.some.inj ht
      exact rfl
  | opening =>
      rw [hpc] at ht h
      obtain rfl := Option.some.inj ht
      exact fun _ => h
  | idle =>
      rw [hpc] at ht h
      obtain rfl := Option.some.inj ht
      exact h
  | wait =>
      rw [hpc] at ht h
      obtain rfl := Option.some.inj ht
      unfold InStep
      split_ifs with hints
      · exact Bool.eq_false_of_not_eq_true fun hready => hints (h hready)
      · exact h
  | delta =>
      rw [hpc] at ht h
      obtain rfl := Option.some.inj ht
      exact h
  | update deltaInts =>
      rw [hpc] at ht h
      obtain rfl := Option.some.inj ht
      exact ⟨h, rfl⟩
  | format deltaInts args =>
      rw [hpc] at ht h
      obtain ⟨line, -, rfl⟩ := Option.map_eq_some_iff.mp ht
      exact h
  | copied line =>
      rw [hpc] at ht h
      obtain rfl := Option.some.inj ht
      exact fun _ => h.2

theorem InStep.step (h : s.InStep) {turn : EventTurn} (hquiet : s.Quiet turn)
    (ht : s.step g turn = some t) : t.InStep := by
  cases turn with
  | irq irq =>
      obtain rfl := Option.some.inj ht
      exact interrupt_inStep irq hquiet
  | go => exact h.go ht
  | read field =>
      obtain ⟨deltaInts, args, hpc, rfl⟩ := read_cases ht
      unfold InStep at h
      rw [hpc] at h
      exact h
  | signal =>
      obtain ⟨hpc, rfl⟩ := signal_cases ht
      unfold InStep at h
      rw [hpc] at h
      exact h
  | fault => exact absurd hquiet id

end

theorem guarded_of_quiet (adev : Atd9802) (turns : List EventTurn)
    (hquiet : Lts.Meets (step g) Quiet (init adev) turns) :
    Lts.Meets (step g) Guarded (init adev) turns :=
  Lts.Meets.imp_of InStep (fun _ _ hs hq => hs.guarded hq)
    (fun _ _ _ hs hq ht => hs.step hq ht) turns (init adev) trivial hquiet

/-! ### More lines than events -/

theorem sublist_drop {α : Type} {l : List α} {ks : List Nat} {es : List α}
    (h : List.Forall₂ (fun k e => l[k]? = some e) ks es) (hks : ks.Pairwise (· < ·)) :
    ∀ n, (∀ k ∈ ks, n ≤ k) → es.Sublist (l.drop n) := by
  induction h with
  | nil => intro n _; exact List.nil_sublist _
  | @cons k e ks es hk _ ih =>
      intro n hn
      obtain ⟨hlater, hks⟩ := List.pairwise_cons.mp hks
      obtain ⟨hlt, rfl⟩ := List.getElem?_eq_some_iff.mp hk
      have hrest : es.Sublist (l.drop (k + 1)) := ih hks (k + 1) hlater
      calc List.Sublist (l[k] :: es) (l[k] :: l.drop (k + 1)) := hrest.cons_cons _
        _ = l.drop k := List.getElem_cons_drop hlt
        List.Sublist _ (l.drop n) := List.drop_sublist_drop_left l (hn k List.mem_cons_self)

/-- The lines report events that have been recorded, in their order and each of them once. -/
theorem Reported.sublist {s : EventReader} (h : s.Reported) :
    (s.lines.map fun line => some line.event).Sublist s.log := by
  obtain ⟨ks, hevents, hlater, -⟩ := h.events
  rw [← List.drop_zero (l := s.log)]
  refine sublist_drop (List.forall₂_map_right_iff.mpr hevents) hlater 0 ?_
  exact fun k _ => Nat.zero_le k

theorem Reported.length_le {s : EventReader} (h : s.Reported) :
    s.lines.length ≤ s.log.countP Option.isSome := by
  have hall : (s.lines.map fun line => some line.event).countP Option.isSome =
      (s.lines.map fun line => some line.event).length := by
    refine List.countP_eq_length.mpr ?_
    intro e he
    obtain ⟨line, -, rfl⟩ := List.mem_map.mp he
    rfl
  calc s.lines.length = (s.lines.map fun line => some line.event).length := by
        rw [List.length_map]
    _ = (s.lines.map fun line => some line.event).countP Option.isSome := hall.symm
    _ ≤ s.log.countP Option.isSome := h.sublist.countP_le

/-! ### Runs -/

/-- No group trigger. -/
def noTrigger : GroupTrigger :=
  { activeSites := 0
    groupTriggerMask := fun _ => 0
    groupFirstNTriggers := 0
    gsmode := .gsNow }

def atRest : Atd9802 :=
  { ints := 0
    clientReady := false
    status := fun _ => 0
    statusLatch := fun _ => 0
    groupStatusLatch := fun _ => 0
    sampleCount := 0
    latchCount := 0 }

/-- The first site signals at sample `n`. -/
def signalAt (n : BitVec 32) : EventTurn :=
  .irq { siteId := 1, siteState := fun _ => n, aggSampleCount := n, adcLatchCount := n }

/-- `regfs_open`. -/
def openTurns : List EventTurn := [.go, .go]

/-- `regfs_event_read`, up to `int_count`; the fields of a line; and to its return. -/
def callTurns : List EventTurn := [.go, .go, .go, .go]

def readTurns : List EventTurn :=
  [.read .status, .read .sampleCount, .read .latchCount, .read .diffSampleCount,
    .read .diffLatchCount]

def returnTurns : List EventTurn := [.go, .go]

/-- Two interrupts for the first line, one for the second. -/
def twoLines : List EventTurn :=
  openTurns ++ [signalAt 1, signalAt 2] ++ callTurns ++ readTurns ++ returnTurns ++ [signalAt 3] ++
    callTurns ++ readTurns ++ returnTurns

theorem lines_reported_two :
    ∃ s, Lts.run (step noTrigger) (init atRest) twoLines = some s ∧ s.lines.length = 2 ∧
      s.Reported := by
  obtain ⟨s, hrun, hlength⟩ := Lts.exists_of_any (step noTrigger) (init atRest) twoLines
    (fun s => s.lines.length = 2) (by decide)
  exact ⟨s, hrun, of_decide_eq_true hlength,
    lines_reported noTrigger atRest twoLines (by decide) hrun⟩

/-- An interrupt comes while the line is made, and the event of the line is reported again. -/
def repeated : List EventTurn :=
  openTurns ++ [signalAt 1] ++ callTurns ++ readTurns ++ [signalAt 2] ++ returnTurns ++
    callTurns ++ readTurns ++ returnTurns

/-- An interrupt comes between the two looks at `ints`, and is not counted. -/
def uncounted : List EventTurn :=
  openTurns ++ [signalAt 1] ++ callTurns.take 3 ++ [signalAt 2] ++ callTurns.drop 3 ++ readTurns ++
    returnTurns

theorem lines_not_reported :
    (∃ s, Lts.run (step noTrigger) (init atRest) repeated = some s ∧ ¬s.Reported) ∧
      ∃ s, Lts.run (step noTrigger) (init atRest) uncounted = some s ∧ ¬s.Reported := by
  constructor
  · obtain ⟨s, hrun, hcount⟩ := Lts.exists_of_any (step noTrigger) (init atRest) repeated
      (fun s => s.lines.length = 2 ∧ s.log.countP Option.isSome = 1) (by decide)
    obtain ⟨hlines, hevents⟩ := of_decide_eq_true hcount
    refine ⟨s, hrun, ?_⟩
    intro h
    have hle := h.length_le
    rw [hlines, hevents] at hle
    exact absurd hle (by decide)
  · obtain ⟨s, hrun, hsum⟩ := Lts.exists_of_any (step noTrigger) (init atRest) uncounted
      (fun s => s.lines.getLast?.any fun line =>
        s.openInts + (s.lines.map EventLine.deltaInts).sum ≠ line.intCount) (by decide)
    refine ⟨s, hrun, ?_⟩
    intro h
    rw [Option.any_eq_true] at hsum
    obtain ⟨line, hlast, hne⟩ := hsum
    exact of_decide_eq_true hne (h.deltas line hlast)

end EventReader

end Acq400
