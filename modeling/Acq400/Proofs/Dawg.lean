/-
What a sequence executes.

The entries of a file are numbered in order, and the last one is found by its number.  A turn goes
up to that entry, or to the end of the list if it is not there.  The first entry is another one
from the second turn on, so with a single entry the last one is not there any more.
-/
import Acq400.Awg.Dawg

namespace Acq400

/-- What an entry sets. -/
def DawgEntry.chx (entry : DawgEntry) : BitVec 32 × BitVec 32 := (entry.ch01, entry.ch02)

/-- The states that are set. -/
def DawgEvent.states (events : List DawgEvent) : List (BitVec 32 × BitVec 32) :=
  events.filterMap fun
    | .slept _ => none
    | .state ch01 ch02 => some (ch01, ch02)

namespace Build

variable {b b' : Build}

/-! ### The entries of a file -/

/-- The entries so far. -/
def entries (b : Build) : List DawgEntry := b.instructions.tail

/-- The entries are numbered, and their times do not decrease. -/
structure Built (b : Build) : Prop where
  instructions : b.instructions = start.prev :: b.entries
  serials : b.instructions.map DawgEntry.serial = List.range' 1 b.instructions.length
  lastSerial : b.lastSerial = 1 + b.instructions.length
  prev : b.instructions.getLast? = some b.prev
  monotone : b.instructions.Pairwise fun e e' => e.abstime ≤ e'.abstime
  first : b.first.map Prod.snd = b.entries.head?

theorem built_start : start.Built := by
  refine ⟨rfl, rfl, rfl, rfl, ?_, rfl⟩
  exact List.pairwise_singleton _ _

theorem create_spec {mode : StateMode} {text : List Char} {abstime : BitVec 32} {serial : Nat}
    {prev now : DawgEntry} (h : DawgEntry.create mode text abstime serial (some prev) = some now) :
    now.serial = serial ∧ prev.abstime ≤ now.abstime := by
  unfold DawgEntry.create at h
  simp only [Option.bind_eq_bind, Option.bind_eq_some_iff] at h
  obtain ⟨⟨f1, rest1⟩, -, ⟨f2, rest2⟩, -, ⟨f3, rest3⟩, -, h⟩ := h
  obtain ⟨hnot, hnow⟩ := Option.ite_none_left_eq_some.mp h
  obtain rfl := Option.some.inj hnow
  refine ⟨rfl, ?_⟩
  rw [decide_eq_true_iff, BitVec.not_lt] at hnot
  exact hnot

/-- Every entry is at the time of the last one or before. -/
theorem Built.le_prev (h : b.Built) : ∀ e ∈ b.instructions, e.abstime ≤ b.prev.abstime := by
  intro e he
  obtain ⟨before, hsplit⟩ := List.getLast?_eq_some_iff.mp h.prev
  have hmono := h.monotone
  rw [hsplit] at he hmono
  rcases List.mem_append.mp he with hin | hlast
  · exact (List.pairwise_append.mp hmono).2.2 e hin b.prev (List.mem_singleton.mpr rfl)
  · rw [List.mem_singleton.mp hlast]
    exact BitVec.le_refl _

/-- A line is an entry, or it leaves the entries as they are. -/
theorem Built.line (h : b.Built) {seqLine : List Char} (hline : b.line seqLine = some b') :
    b'.Built := by
  unfold Build.line at hline
  split at hline
  · obtain rfl := Option.some.inj hline
    exact h
  · split at hline
    · obtain rfl := Option.some.inj hline
      exact h
    · split at hline
      · split at hline
        · obtain rfl := Option.some.inj hline
          exact ⟨h.instructions, h.serials, h.lastSerial, h.prev, h.monotone, h.first⟩
        · split at hline
          · obtain rfl := Option.some.inj hline
            exact ⟨h.instructions, h.serials, h.lastSerial, h.prev, h.monotone, h.first⟩
          · cases hline
      · split at hline
        · cases hline
        · rename_i now hcreate
          obtain ⟨hserial, hle⟩ := create_spec hcreate
          obtain rfl := Option.some.inj hline
          have hentries : (b.instructions ++ [now]).tail = b.entries ++ [now] := by
            rw [h.instructions]
            rfl
          refine ⟨?_, ?_, ?_, List.getLast?_concat, ?_, ?_⟩
          · change b.instructions ++ [now] = start.prev :: (b.instructions ++ [now]).tail
            rw [hentries, ← List.cons_append, ← h.instructions]
          · rw [List.map_append, List.map_singleton, List.length_append, List.length_singleton,
              List.range'_concat, ← h.serials, hserial, h.lastSerial, Nat.one_mul]
          · dsimp only
            rw [h.lastSerial, List.length_append, List.length_singleton, Nat.add_assoc]
          · refine List.pairwise_append.mpr ⟨h.monotone, List.pairwise_singleton _ _, ?_⟩
            intro e he e' he'
            rw [List.mem_singleton.mp he']
            exact BitVec.le_trans (h.le_prev e he) hle
          · change Option.map Prod.snd (if b.first = none then _ else _) =
              (b.instructions ++ [now]).tail.head?
            rw [hentries]
            have hfirst := h.first
            cases hb : b.first with
            | none =>
                rw [hb] at hfirst
                rw [List.head?_eq_none_iff.mp hfirst.symm]
                rfl
            | some first =>
                rw [hb] at hfirst
                rw [if_neg (by simp), hfirst, List.head?_append, ← hfirst]
                rfl

theorem Built.lines {ls : List (List Char)} :
    ∀ {b : Build}, b.Built → lines ls b = some b' → b'.Built := by
  induction ls with
  | nil =>
      intro b h hlines
      obtain rfl := Option.some.inj hlines
      exact h
  | cons l ls ih =>
      intro b h hlines
      rw [Build.lines, Option.bind_eq_some_iff] at hlines
      obtain ⟨b1, hline, hrest⟩ := hlines
      exact ih (h.line hline) hrest

end Build

theorem Sequence.built_scan {file : List Char} {b : Build} (h : Sequence.scan file = some b) :
    b.Built := Build.built_start.lines h

/-! ### A turn -/

namespace Sequence

variable (seq : Sequence) (timescaler : Nat)

/-- Entries are executed one after the other. -/
def execAll : List DawgEntry → BitVec 32 → List DawgEvent × BitVec 32
  | [], deadline0 => ([], deadline0)
  | entry :: it, deadline0 =>
    let done := exec seq timescaler entry deadline0
    (done.1 ++ (execAll it done.2).1, (execAll it done.2).2)

/-- As many turns that execute `body`. -/
def again (body : List DawgEntry) : Nat → BitVec 32 → List (List DawgEvent) × BitVec 32
  | 0, deadline0 => ([], deadline0)
  | count + 1, deadline0 =>
    let done := execAll seq timescaler body deadline0
    (done.1 :: (again body count done.2).1, (again body count done.2).2)

variable {seq timescaler} {deadline0 : BitVec 32}

theorem finishUp_eq (it : List DawgEntry) :
    ∀ deadline0, finishUp seq timescaler it deadline0 =
      (execAll seq timescaler it deadline0).1 := by
  induction it with
  | nil => intro deadline0; rfl
  | cons entry it ih =>
      intro deadline0
      rw [finishUp, execAll, ih]

theorem states_exec (entry : DawgEntry) :
    DawgEvent.states (exec seq timescaler entry deadline0).1 = [entry.chx] := by
  unfold exec
  dsimp only
  split
  · rfl
  · rfl

theorem states_append (events events' : List DawgEvent) :
    DawgEvent.states (events ++ events') =
      DawgEvent.states events ++ DawgEvent.states events' := List.filterMap_append ..

theorem states_execAll (it : List DawgEntry) :
    ∀ deadline0, DawgEvent.states (execAll seq timescaler it deadline0).1 =
      it.map DawgEntry.chx := by
  induction it with
  | nil => intro deadline0; rfl
  | cons entry it ih =>
      intro deadline0
      rw [execAll, states_append, states_exec, ih]
      rfl

theorem turn_last {last : DawgEntry} (hlast : last.serial = seq.lastInLoop)
    (it : List DawgEntry) {before : List DawgEntry} :
    ∀ deadline0, (∀ e ∈ before, e.serial ≠ seq.lastInLoop) →
      turn seq timescaler (before ++ last :: it) deadline0 =
        { events := (execAll seq timescaler (before ++ [last]) deadline0).1
          it
          deadline0 := (execAll seq timescaler (before ++ [last]) deadline0).2 } := by
  induction before with
  | nil =>
      intro deadline0 _
      rw [List.nil_append, turn, if_pos hlast, List.nil_append, execAll, execAll]
      simp
  | cons entry before ih =>
      intro deadline0 hne
      rw [List.cons_append, turn, if_neg (hne entry List.mem_cons_self),
        ih _ fun e he => hne e (List.mem_cons_of_mem _ he)]
      rfl

/-- Or with the list, if the last entry is not there. -/
theorem turn_through {it : List DawgEntry} :
    ∀ deadline0, (∀ e ∈ it, e.serial ≠ seq.lastInLoop) →
      turn seq timescaler it deadline0 =
        { events := (execAll seq timescaler it deadline0).1
          it := []
          deadline0 := (execAll seq timescaler it deadline0).2 } := by
  induction it with
  | nil => intro deadline0 _; rfl
  | cons entry it ih =>
      intro deadline0 hne
      rw [turn, if_neg (hne entry List.mem_cons_self),
        ih _ fun e he => hne e (List.mem_cons_of_mem _ he)]
      rfl

/-- All turns behind the first one execute the same entries. -/
theorem turns_again {body it left : List DawgEntry}
    (hturn : ∀ deadline0, turn seq timescaler (seq.loopFirst2 :: it) deadline0 =
      { events := (execAll seq timescaler body deadline0).1
        it := left
        deadline0 := (execAll seq timescaler body deadline0).2 }) (count : Nat) :
    ∀ (behind : List DawgEntry) (deadline0 : BitVec 32),
      turns seq timescaler count (seq.loopFirst2 :: it) behind deadline0 =
        ((again seq timescaler body count deadline0).1, if count = 0 then behind else left,
          (again seq timescaler body count deadline0).2) := by
  induction count with
  | zero => intro behind deadline0; rfl
  | succ count ih =>
      intro behind deadline0
      rw [turns, hturn, List.tail_cons, ih]
      dsimp only
      rw [if_neg (Nat.succ_ne_zero count), ite_self]
      rfl

theorem states_again (body : List DawgEntry) (count : Nat) :
    ∀ deadline0, ((again seq timescaler body count deadline0).1.map DawgEvent.states) =
      List.replicate count (body.map DawgEntry.chx) := by
  induction count with
  | zero => intro deadline0; rfl
  | succ count ih =>
      intro deadline0
      rw [again, List.map_cons, states_execAll, ih, List.replicate_succ]

end Sequence

namespace Build

variable {b : Build} {text : List Char} {entry : DawgEntry}

/-! ### The list that is executed -/

/-- The last entry opens all switches. -/
def allOpen (b : Build) : DawgEntry :=
  { serial := b.lastSerial + 1, abstime := 0, ch01 := 0, ch02 := 0 }

/-- The first entry from the second turn on. -/
def again (b : Build) (entry : DawgEntry) : DawgEntry := entry.createClone b.lastSerial

/-- What a turn executes from the second one on. -/
def later (b : Build) (entry : DawgEntry) : List DawgEntry :=
  if b.entries.tail = [] then [b.again entry, b.allOpen] else b.again entry :: b.entries.tail

/-- What is left behind it. -/
def left (b : Build) : List DawgEntry := if b.entries.tail = [] then [] else [b.allOpen]

/-- What is made of a file. -/
def sequence (b : Build) (entry : DawgEntry) : Sequence :=
  { instructions := b.instructions ++ [b.allOpen]
    lastInLoop := b.prev.serial
    loopFirst2 := b.again entry
    executor := b.executor }

theorem finish_eq (hfirst : b.first = some (text, entry)) :
    b.finish = if 243 < text.length then none else some (b.sequence entry) := by
  have hsize : lineSize < (text ++ " loop_first2".toList).length + 1 ↔ 243 < text.length := by
    rw [List.length_append]
    change 256 < text.length + 12 + 1 ↔ _
    omega
  unfold finish
  rw [hfirst]
  simp only [hsize]
  rfl

theorem Built.entries_eq (h : b.Built) (hfirst : b.first = some (text, entry)) :
    b.entries = entry :: b.entries.tail := by
  have hhead := h.first
  rw [hfirst] at hhead
  exact List.eq_cons_of_mem_head? hhead.symm

theorem Built.nodup (h : b.Built) : (b.instructions.map DawgEntry.serial).Nodup := by
  rw [h.serials]
  exact List.nodup_range'

theorem Built.serial_lt (h : b.Built) : ∀ e ∈ b.instructions, e.serial < b.lastSerial := by
  intro e he
  have hmem := List.mem_map_of_mem (f := DawgEntry.serial) he
  rw [h.serials, List.mem_range'_1] at hmem
  rw [h.lastSerial]
  exact hmem.2

theorem Built.prev_mem (h : b.Built) : b.prev ∈ b.instructions := List.mem_of_getLast? h.prev

/-- The entries in front of the last one have another number. -/
theorem Built.before_ne (h : b.Built) {before : List DawgEntry}
    (hsplit : b.instructions = before ++ [b.prev]) : ∀ e ∈ before, e.serial ≠ b.prev.serial := by
  have hnodup := h.nodup
  rw [hsplit, List.map_append] at hnodup
  intro e he heq
  exact (List.nodup_append.mp hnodup).2.2 _ (List.mem_map_of_mem he) _
    (List.mem_map_of_mem (List.mem_singleton.mpr rfl)) heq

variable {timescaler : Nat}

/-- The first turn executes the entries of the file. -/
theorem Built.turn_first (h : b.Built) (hne : b.entries ≠ []) (deadline0 : BitVec 32) :
    (b.sequence entry).turn timescaler (b.entries ++ [b.allOpen]) deadline0 =
      { events := ((b.sequence entry).execAll timescaler b.entries deadline0).1
        it := [b.allOpen]
        deadline0 := ((b.sequence entry).execAll timescaler b.entries deadline0).2 } := by
  obtain ⟨before, hsplit⟩ := List.getLast?_eq_some_iff.mp h.prev
  have hother := h.before_ne hsplit
  have hinstr := h.instructions
  cases before with
  | nil =>
      rw [hinstr] at hsplit
      exact absurd (List.cons.inj hsplit).2 hne
  | cons allClosed before =>
      rw [hinstr] at hsplit
      have hentries : b.entries = before ++ [b.prev] := (List.cons.inj hsplit).2
      rw [hentries, List.append_assoc]
      exact Sequence.turn_last rfl _ deadline0 fun e he =>
        hother e (List.mem_cons_of_mem _ he)

theorem Built.turn_later (h : b.Built) (hfirst : b.first = some (text, entry))
    (deadline0 : BitVec 32) :
    (b.sequence entry).turn timescaler (b.again entry :: (b.entries.tail ++ [b.allOpen]))
        deadline0 =
      { events := ((b.sequence entry).execAll timescaler (b.later entry) deadline0).1
        it := b.left
        deadline0 := ((b.sequence entry).execAll timescaler (b.later entry) deadline0).2 } := by
  have hprev := h.serial_lt b.prev h.prev_mem
  have hagain : (b.again entry).serial ≠ b.prev.serial := Nat.ne_of_gt hprev
  have hentries := h.entries_eq hfirst
  have hinstr := h.instructions
  rw [hentries] at hinstr
  unfold later left
  by_cases htail : b.entries.tail = []
  · rw [if_pos htail, if_pos htail, htail, List.nil_append]
    refine Sequence.turn_through deadline0 fun e he => ?_
    rcases List.mem_pair.mp he with rfl | rfl
    · exact hagain
    · change b.lastSerial + 1 ≠ b.prev.serial
      omega
  · rw [if_neg htail, if_neg htail]
    obtain ⟨before, hsplit⟩ := List.getLast?_eq_some_iff.mp h.prev
    have hother := h.before_ne hsplit
    obtain ⟨mid, hmid⟩ : ∃ mid, b.entries.tail = mid ++ [b.prev] := by
      refine List.getLast?_eq_some_iff.mp ?_
      have hlast := h.prev
      rw [hinstr, List.getLast?_cons_cons] at hlast
      obtain ⟨e, es, hes⟩ := List.exists_cons_of_ne_nil htail
      rw [hes, List.getLast?_cons_cons] at hlast
      rw [hes]
      exact hlast
    rw [hmid, List.append_assoc, ← List.cons_append]
    refine Sequence.turn_last rfl _ deadline0 fun e he => ?_
    rcases List.mem_cons.mp he with rfl | hin
    · exact hagain
    · refine hother e ?_
      have hall : start.prev :: entry :: mid ++ [b.prev] = before ++ [b.prev] := by
        rw [← hsplit, hinstr, hmid]
        rfl
      rw [← List.append_cancel_right hall]
      exact List.mem_cons_of_mem _ (List.mem_cons_of_mem _ hin)

theorem Built.run_eq (h : b.Built) (hfirst : b.first = some (text, entry)) {repeatCount : Nat}
    (hrepeat : repeatCount + 1 < 2147483647) :
    (b.sequence entry).run timescaler (repeatCount + 1) =
      some
        { first := [.state 0 0]
          turns := ((b.sequence entry).execAll timescaler b.entries 0).1 ::
            ((b.sequence entry).again timescaler (b.later entry) repeatCount
              ((b.sequence entry).execAll timescaler b.entries 0).2).1
          last := ((b.sequence entry).execAll timescaler
            (if repeatCount = 0 then [b.allOpen] else b.left)
            ((b.sequence entry).again timescaler (b.later entry) repeatCount
              ((b.sequence entry).execAll timescaler b.entries 0).2).2).1 } := by
  have hentries := h.entries_eq hfirst
  have hne : b.entries ≠ [] := by
    rw [hentries]
    exact List.cons_ne_nil _ _
  have hinstr : (b.sequence entry).instructions = start.prev :: (b.entries ++ [b.allOpen]) := by
    change b.instructions ++ [b.allOpen] = _
    rw [h.instructions]
    rfl
  have htail : (b.entries ++ [b.allOpen]).tail = b.entries.tail ++ [b.allOpen] := by
    rw [hentries]
    rfl
  have hturns : ∀ (behind : List DawgEntry) (deadline0 : BitVec 32),
      (b.sequence entry).turns timescaler repeatCount
          (b.again entry :: (b.entries.tail ++ [b.allOpen])) behind deadline0 =
        (((b.sequence entry).again timescaler (b.later entry) repeatCount deadline0).1,
          if repeatCount = 0 then behind else b.left,
          ((b.sequence entry).again timescaler (b.later entry) repeatCount deadline0).2) :=
    Sequence.turns_again (h.turn_later hfirst) repeatCount
  unfold Sequence.run
  rw [if_neg (by omega), hinstr]
  dsimp only
  rw [Sequence.turns, h.turn_first hne, htail]
  dsimp only
  rw [show (b.sequence entry).loopFirst2 = b.again entry from rfl, hturns, Sequence.finishUp_eq]
  rfl

theorem Built.first_of_ne (h : b.Built) (hne : b.entries ≠ []) :
    ∃ text entry, b.first = some (text, entry) := by
  have hfirst := h.first
  cases hb : b.first with
  | none =>
      rw [hb] at hfirst
      exact absurd (List.head?_eq_none_iff.mp hfirst.symm) hne
  | some first => exact ⟨first.1, first.2, rfl⟩

/-- The line of the first entry leaves room for what is put behind it. -/
def Room (b : Build) : Prop := ∀ text entry, b.first = some (text, entry) → text.length ≤ 243

theorem build_run {file : List Char} (hscan : Sequence.scan file = some b)
    (hfirst : b.first = some (text, entry)) {seq : Sequence}
    (hbuild : Sequence.build file = some seq) : text.length ≤ 243 ∧ seq = b.sequence entry := by
  unfold Sequence.build at hbuild
  rw [hscan, Option.bind_some, finish_eq hfirst] at hbuild
  obtain ⟨hroom, hseq⟩ := Option.ite_none_left_eq_some.mp hbuild
  exact ⟨Nat.le_of_not_lt hroom, (Option.some.inj hseq).symm⟩

theorem room_of_first (hfirst : b.first = some (text, entry)) (hroom : text.length ≤ 243) :
    b.Room := by
  intro text' entry' hfirst'
  rw [hfirst] at hfirst'
  obtain ⟨rfl, -⟩ := Prod.mk.inj (Option.some.inj hfirst')
  exact hroom

theorem build_of_room {file : List Char} (hscan : Sequence.scan file = some b)
    (hfirst : b.first = some (text, entry)) (hroom : b.Room) :
    Sequence.build file = some (b.sequence entry) := by
  unfold Sequence.build
  rw [hscan, Option.bind_some, finish_eq hfirst,
    if_neg (Nat.not_lt.mpr (hroom text entry hfirst))]

end Build

namespace Sequence

theorem counted_of_run {seq : Sequence} {timescaler repeatCount : Nat} {ran : Ran}
    (h : seq.run timescaler repeatCount = some ran) : repeatCount < 2147483647 := by
  by_contra hover
  unfold run at h
  rw [if_pos (by omega)] at h
  cases h

/-- All the states that a run sets. -/
def states (ran : Ran) : List (BitVec 32 × BitVec 32) :=
  DawgEvent.states ran.first ++ (ran.turns.map DawgEvent.states).flatten ++
    DawgEvent.states ran.last

/-- A run sets the states of the file as often as it is to, between two that open all switches. -/
def InOrder (file : List Char) (b : Build) (timescaler repeatCount : Nat) : Prop :=
  ∃ seq ran, build file = some seq ∧ seq.run timescaler repeatCount = some ran ∧
    (∀ e, b.entries.head? = some e →
      seq.loopFirst2.chx = e.chx ∧ seq.loopFirst2.abstime = e.abstime) ∧
    states ran = (0, 0) ::
      ((List.replicate repeatCount (b.entries.map DawgEntry.chx)).flatten ++ [(0, 0)])

variable {b : Build} {text : List Char} {entry : DawgEntry} {timescaler : Nat}

theorem states_run (h : b.Built) (hfirst : b.first = some (text, entry)) {repeatCount : Nat}
    (hrepeat : repeatCount + 1 < 2147483647) {ran : Ran}
    (hrun : (b.sequence entry).run timescaler (repeatCount + 1) = some ran) :
    states ran = (0, 0) :: (b.entries.map DawgEntry.chx ++
      (List.replicate repeatCount ((b.later entry).map DawgEntry.chx)).flatten ++
        (if repeatCount = 0 then [b.allOpen] else b.left).map DawgEntry.chx) := by
  rw [h.run_eq hfirst hrepeat] at hrun
  obtain rfl := Option.some.inj hrun
  unfold states
  rw [List.map_cons, states_again, states_execAll, states_execAll, List.flatten_cons]
  rfl

/--
**A run is in order unless a single entry is executed three times or more.**
-/
theorem build_run_in_order_iff (file : List Char) (b : Build) (timescaler repeatCount : Nat)
    (hscan : scan file = some b) (hne : b.entries ≠ []) (hrepeat : 1 ≤ repeatCount) :
    InOrder file b timescaler repeatCount ↔
      b.Room ∧ repeatCount < 2147483647 ∧ ¬(b.entries.length = 1 ∧ 3 ≤ repeatCount) := by
  have h := built_scan hscan
  obtain ⟨text, entry, hfirst⟩ := h.first_of_ne hne
  have hentries := h.entries_eq hfirst
  obtain ⟨count, rfl⟩ := Nat.exists_eq_add_of_le' hrepeat
  have hlater : b.entries.tail ≠ [] →
      (b.later entry).map DawgEntry.chx = b.entries.map DawgEntry.chx := by
    intro htail
    unfold Build.later
    rw [if_neg htail, hentries]
    rfl
  constructor
  · rintro ⟨seq, ran, hbuild, hrun, -, hstates⟩
    obtain ⟨hroom, rfl⟩ := Build.build_run hscan hfirst hbuild
    have hcounted := counted_of_run hrun
    refine ⟨Build.room_of_first hfirst hroom, hcounted, ?_⟩
    rintro ⟨hone, hthree⟩
    rw [states_run h hfirst hcounted hrun] at hstates
    have htail : b.entries.tail = [] := by
      rw [← List.length_eq_zero_iff, List.length_tail, hone]
    -- two states are set in every turn but the first
    have hlength := congrArg List.length hstates
    unfold Build.later Build.left at hlength
    rw [if_pos htail, if_pos htail, if_neg (by omega : ¬count = 0)] at hlength
    simp [hone] at hlength
    omega
  · rintro ⟨hroom, hcounted, hnot⟩
    refine ⟨b.sequence entry, _, Build.build_of_room hscan hfirst hroom,
      h.run_eq hfirst hcounted, fun e he => ?_, ?_⟩
    · rw [hentries] at he
      obtain rfl := Option.some.inj he
      exact ⟨rfl, rfl⟩
    · rw [states_run h hfirst hcounted (h.run_eq hfirst hcounted), List.replicate_succ,
        List.flatten_cons]
      by_cases htail : b.entries.tail = []
      · have hone : b.entries.length = 1 := by
          rw [hentries, htail]
          rfl
        have hcount : count = 0 ∨ count = 1 := by
          have := fun h3 => hnot ⟨hone, h3⟩
          omega
        rcases hcount with rfl | rfl
        · simp [DawgEntry.chx, Build.allOpen]
        · unfold Build.later Build.left
          rw [if_pos htail, if_pos htail, hentries, htail]
          simp [DawgEntry.chx, Build.allOpen, Build.again, DawgEntry.createClone]
      · rw [hlater htail]
        unfold Build.left
        rw [if_neg htail, ite_self]
        simp [DawgEntry.chx, Build.allOpen]

/-- Two entries, three times. -/
theorem two_entries_in_order :
    ∃ b, scan "0 0x1 0x2\n100 0x3 0x4\n".toList = some b ∧
      InOrder "0 0x1 0x2\n100 0x3 0x4\n".toList b 1 3 := by
  have hscan : scan "0 0x1 0x2\n100 0x3 0x4\n".toList =
      some
        { lastSerial := 4, abstime := 100, mode := .untilState, executor := .untilState
          instructions := [⟨1, 0, 0, 0⟩, ⟨2, 0, 1, 2⟩, ⟨3, 100, 3, 4⟩]
          prev := ⟨3, 100, 3, 4⟩
          first := some ("0 0x1 0x2".toList, ⟨2, 0, 1, 2⟩) } := by
    decide
  refine ⟨_, hscan, (build_run_in_order_iff _ _ 1 3 hscan (by decide) (by decide)).mpr
    ⟨fun text entry hfirst => ?_, by decide, by decide⟩⟩
  obtain ⟨rfl, -⟩ := Prod.mk.inj (Option.some.inj hfirst)
  decide

/-- A single entry, three times: the switches are opened in between. -/
theorem single_entry_not_in_order :
    ¬∀ (file : List Char) (b : Build) (timescaler repeatCount : Nat), scan file = some b →
      b.entries ≠ [] → 1 ≤ repeatCount → InOrder file b timescaler repeatCount := by
  intro h
  have hscan : scan "0 0x1 0x2\n".toList =
      some
        { lastSerial := 3, abstime := 0, mode := .untilState, executor := .untilState
          instructions := [⟨1, 0, 0, 0⟩, ⟨2, 0, 1, 2⟩]
          prev := ⟨2, 0, 1, 2⟩
          first := some ("0 0x1 0x2".toList, ⟨2, 0, 1, 2⟩) } := by
    decide
  obtain ⟨seq, ran, hbuild, hrun, -, hstates⟩ := h _ _ 1 3 hscan (by decide) (by decide)
  have hset : ((build "0 0x1 0x2\n".toList).bind fun seq => seq.run 1 3).map states =
      some [(0, 0), (1, 2), (1, 2), (0, 0), (1, 2), (0, 0)] := by
    decide
  rw [hbuild, Option.bind_some, hrun, Option.map_some, hstates] at hset
  exact absurd hset (by decide)

end Sequence

end Acq400
