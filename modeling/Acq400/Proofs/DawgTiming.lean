/-
When a sequence sets its states.

A wait is the difference of two deadlines, unless the later one is not the larger: then it is that
deadline, as if it were a time from now.  This is right where a turn begins, and where the deadline
before was 0.  Equal times within a turn are waited for twice.
-/
import Acq400.Proofs.Dawg
import Mathlib.Algebra.BigOperators.Ring.List
import Mathlib.Data.List.Chain

namespace Acq400

/-- How long `nanosleep` waits. -/
def Timespec.nanoseconds (ts : Timespec) : Nat := ts.tvSec * 1000000000 + ts.tvNsec

/-- The waits, in nanoseconds. -/
def DawgEvent.sleeps (events : List DawgEvent) : List Nat :=
  events.filterMap fun
    | .slept ts => some ts.nanoseconds
    | .state _ _ => none

namespace Sequence

/-! ### A wait -/

/-- The milliseconds of a wait. -/
def delay (deadline deadline0 : BitVec 32) : Nat :=
  if deadline0.toNat < deadline.toNat then deadline.toNat - deadline0.toNat else deadline.toNat

theorem nanoseconds_waitUntil (deadline deadline0 : BitVec 32) :
    (waitUntil deadline deadline0).nanoseconds = delay deadline deadline0 * 1000000 := by
  have hdelay : (if deadline > deadline0 then deadline - deadline0 else deadline).toNat =
      delay deadline deadline0 := by
    unfold delay
    by_cases hlt : deadline0 < deadline
    · rw [if_pos hlt, if_pos (BitVec.lt_def.mp hlt)]
      exact BitVec.toNat_sub_of_le (BitVec.le_of_lt hlt)
    · rw [if_neg hlt, if_neg fun h => hlt (BitVec.lt_def.mpr h)]
  unfold waitUntil Timespec.nanoseconds
  generalize (if deadline > deadline0 then deadline - deadline0 else deadline) = ddt at hdelay
  dsimp only
  rw [← hdelay]
  have hlt := ddt.isLt
  by_cases hge : ddt ≥ 1000
  · rw [if_pos hge]
    have hsec : (ddt / 1000).toNat = ddt.toNat / 1000 := BitVec.toNat_udiv
    have hsub : (ddt - 1000 * (ddt / 1000)).toNat = ddt.toNat % 1000 := by
      have hmul : (1000 * (ddt / 1000)).toNat = 1000 * (ddt.toNat / 1000) := by
        rw [BitVec.toNat_mul, hsec]
        exact Nat.mod_eq_of_lt (by change 1000 * (ddt.toNat / 1000) < _; omega)
      rw [BitVec.toNat_sub_of_le (by rw [BitVec.le_def, hmul]; omega), hmul]
      omega
    rw [BitVec.toNat_mul, hsub, hsec, Nat.mod_eq_of_lt (by change _ * 1000000 < _; omega)]
    change _ + _ * 1000000 = _
    omega
  · rw [if_neg hge]
    have hsmall : ddt.toNat < 1000 := BitVec.not_le.mp hge
    have hzero : ddt - 1000 * 0 = ddt := by simp
    rw [hzero, BitVec.toNat_mul, Nat.mod_eq_of_lt (by change _ * 1000000 < _; omega)]
    change 0 * 1000000000 + _ * 1000000 = _
    omega

variable {timescaler : Nat}

/-- The deadline of a time. -/
def deadline (timescaler : Nat) (time : BitVec 32) : BitVec 32 := time * BitVec.ofNat 32 timescaler

theorem toNat_deadline (timescaler : Nat) (time : BitVec 32) :
    (deadline timescaler time).toNat = time.toNat * timescaler % 4294967296 := by
  unfold deadline
  rw [BitVec.toNat_mul, BitVec.toNat_ofNat]
  exact Nat.mul_mod_mod _ _ _

/-- The waits of entries with these times, in milliseconds. -/
def delays (timescaler : Nat) : List (BitVec 32) → BitVec 32 → List Nat
  | [], _ => []
  | time :: times, deadline0 =>
    delay (deadline timescaler time) deadline0 ::
      delays timescaler times (deadline timescaler time)

/-- What is waited up to each time is that time. -/
def OnTime (timescaler : Nat) (times : List (BitVec 32)) (waited : Nat) (waits : List Nat) : Prop :=
  ∀ i time, times[i]? = some time → waited + (waits.take (i + 1)).sum = time.toNat * timescaler

theorem onTime_cons {time : BitVec 32} {times : List (BitVec 32)} {waited wait : Nat}
    {waits : List Nat} :
    OnTime timescaler (time :: times) waited (wait :: waits) ↔
      waited + wait = time.toNat * timescaler ∧
        OnTime timescaler times (waited + wait) waits := by
  constructor
  · intro h
    refine ⟨?_, fun i time' htime => ?_⟩
    · have hzero := h 0 time rfl
      rwa [List.take_succ_cons, List.take_zero, List.sum_singleton] at hzero
    · have hsucc := h (i + 1) time' htime
      rwa [List.take_succ_cons, List.sum_cons, ← Nat.add_assoc] at hsucc
  · rintro ⟨hwait, hrest⟩ i time' htime
    cases i with
    | zero =>
        obtain rfl := Option.some.inj htime
        rw [List.take_succ_cons, List.take_zero, List.sum_singleton, hwait]
    | succ i =>
        rw [List.take_succ_cons, List.sum_cons, ← Nat.add_assoc]
        exact hrest i time' htime

/-- The time before was 0, or it is over. -/
def Steady (time time' : BitVec 32) : Prop := time = 0 ∨ time < time'

theorem onTime_delays (hscale : 1 ≤ timescaler) (times : List (BitVec 32)) :
    ∀ time : BitVec 32, (time :: times).IsChain Steady →
      (∀ t ∈ time :: times, t.toNat * timescaler < 4294967296) →
      OnTime timescaler times (time.toNat * timescaler)
        (delays timescaler times (deadline timescaler time)) := by
  induction times with
  | nil =>
      intro time _ _ i time' htime
      cases htime
  | cons next times ih =>
      intro time hchain hfits
      have hnow := hfits time List.mem_cons_self
      have hnext := hfits next (List.mem_cons_of_mem _ List.mem_cons_self)
      have hdeadline := toNat_deadline timescaler time
      have hdeadline' := toNat_deadline timescaler next
      rw [Nat.mod_eq_of_lt hnow] at hdeadline
      rw [Nat.mod_eq_of_lt hnext] at hdeadline'
      obtain ⟨hsteady, hrest⟩ := List.isChain_cons_cons.mp hchain
      have hwait : time.toNat * timescaler +
          delay (deadline timescaler next) (deadline timescaler time) =
            next.toNat * timescaler := by
        unfold delay
        rw [hdeadline, hdeadline']
        rcases hsteady with rfl | hlt
        · have hzero : BitVec.toNat (0 : BitVec 32) = 0 := rfl
          rw [hzero, Nat.zero_mul, Nat.sub_zero, ite_self, Nat.zero_add]
        · have hmul : time.toNat * timescaler < next.toNat * timescaler :=
            Nat.mul_lt_mul_of_pos_right (BitVec.lt_def.mp hlt) hscale
          rw [if_pos hmul]
          omega
      rw [delays, onTime_cons, hwait]
      exact ⟨rfl, ih next hrest fun t ht => hfits t (List.mem_cons_of_mem _ ht)⟩

theorem steady_of_onTime (hscale : 1 ≤ timescaler) (times : List (BitVec 32)) :
    ∀ time : BitVec 32, time.toNat * timescaler < 4294967296 →
      OnTime timescaler times (time.toNat * timescaler)
        (delays timescaler times (deadline timescaler time)) →
      (time :: times).IsChain Steady ∧ ∀ t ∈ times, t.toNat * timescaler < 4294967296 := by
  induction times with
  | nil =>
      intro time _ _
      exact ⟨.singleton _, fun t ht => absurd ht List.not_mem_nil⟩
  | cons next times ih =>
      intro time hnow honTime
      rw [delays, onTime_cons] at honTime
      obtain ⟨hwait, hrest⟩ := honTime
      rw [hwait] at hrest
      have hdeadline := toNat_deadline timescaler time
      have hdeadline' := toNat_deadline timescaler next
      rw [Nat.mod_eq_of_lt hnow] at hdeadline
      unfold delay at hwait
      rw [hdeadline, hdeadline'] at hwait
      have hdiv := Nat.div_add_mod (next.toNat * timescaler) 4294967296
      have hmod := Nat.mod_lt (next.toNat * timescaler) (by decide : 4294967296 > 0)
      have hstep : next.toNat * timescaler < 4294967296 ∧
          (time.toNat * timescaler = 0 ∨
            time.toNat * timescaler < next.toNat * timescaler) := by
        split at hwait
        · omega
        · -- the deadline before is a multiple of 2^32
          omega
      have hsteady : Steady time next := by
        rcases hstep.2 with hzero | hlt
        · refine .inl (BitVec.eq_of_toNat_eq ?_)
          exact (Nat.mul_eq_zero.mp hzero).resolve_right (by omega)
        · exact .inr (BitVec.lt_def.mpr (Nat.lt_of_mul_lt_mul_right hlt))
      obtain ⟨hchain, hfits⟩ := ih next hstep.1 hrest
      refine ⟨List.isChain_cons_cons.mpr ⟨hsteady, hchain⟩, fun t ht => ?_⟩
      rcases List.mem_cons.mp ht with rfl | hin
      · exact hstep.1
      · exact hfits t hin

/-! ### The waits of a turn -/

variable {seq : Sequence} {b : Build} {text : List Char} {entry : DawgEntry}

theorem sleeps_append (events events' : List DawgEvent) :
    DawgEvent.sleeps (events ++ events') =
      DawgEvent.sleeps events ++ DawgEvent.sleeps events' := List.filterMap_append ..

theorem exec_deadline (entry : DawgEntry) (deadline0 : BitVec 32) :
    (exec seq timescaler entry deadline0).2 = deadline timescaler entry.abstime := rfl

theorem sleeps_exec (entry : DawgEntry) (deadline0 : BitVec 32) :
    DawgEvent.sleeps (exec seq timescaler entry deadline0).1 =
      [delay (deadline timescaler entry.abstime) deadline0 * 1000000] := by
  have hslept : (waitUntil (deadline timescaler entry.abstime) deadline0).nanoseconds =
      delay (deadline timescaler entry.abstime) deadline0 * 1000000 := nanoseconds_waitUntil _ _
  rw [← hslept]
  unfold exec
  dsimp only
  split
  · rfl
  · rfl

theorem sleeps_execAll (it : List DawgEntry) :
    ∀ deadline0, DawgEvent.sleeps (execAll seq timescaler it deadline0).1 =
      (delays timescaler (it.map DawgEntry.abstime) deadline0).map (· * 1000000) := by
  induction it with
  | nil => intro deadline0; rfl
  | cons entry it ih =>
      intro deadline0
      rw [execAll, sleeps_append, sleeps_exec, exec_deadline, ih]
      rfl

/-- What is left in `deadline0` is the deadline of the last entry. -/
theorem execAll_deadline (it : List DawgEntry) (last : DawgEntry) :
    ∀ deadline0, (execAll seq timescaler (it ++ [last]) deadline0).2 =
      deadline timescaler last.abstime := by
  induction it with
  | nil => intro deadline0; rfl
  | cons entry it ih =>
      intro deadline0
      rw [List.cons_append, execAll]
      exact ih _

/-- Every entry of the file is executed at its time, as far as this turn goes. -/
def TurnOnTime (b : Build) (timescaler : Nat) (turn : List DawgEvent) : Prop :=
  ∀ i e, b.entries[i]? = some e →
    ((DawgEvent.sleeps turn).take (i + 1)).sum = e.abstime.toNat * timescaler * 1000000

theorem turnOnTime_iff {it behind : List DawgEntry} (deadline0 : BitVec 32)
    (htimes : it.map DawgEntry.abstime = b.entries.map DawgEntry.abstime) :
    TurnOnTime b timescaler (execAll seq timescaler (it ++ behind) deadline0).1 ↔
      OnTime timescaler (b.entries.map DawgEntry.abstime) 0
        (delays timescaler (b.entries.map DawgEntry.abstime) deadline0) := by
  have hbehind : ∀ (times times' : List (BitVec 32)) (deadline0 : BitVec 32), ∃ waits,
      delays timescaler (times ++ times') deadline0 =
        delays timescaler times deadline0 ++ waits := by
    intro times times'
    induction times with
    | nil => intro deadline0; exact ⟨_, rfl⟩
    | cons time times ih =>
        intro deadline0
        obtain ⟨waits, hwaits⟩ := ih (deadline timescaler time)
        exact ⟨waits, by rw [List.cons_append, delays, hwaits]; rfl⟩
  have hlength : ∀ (times : List (BitVec 32)) (deadline0 : BitVec 32),
      (delays timescaler times deadline0).length = times.length := by
    intro times
    induction times with
    | nil => intro deadline0; rfl
    | cons time times ih =>
        intro deadline0
        rw [delays, List.length_cons, ih, List.length_cons]
  obtain ⟨waits, hwaits⟩ := hbehind (b.entries.map DawgEntry.abstime)
    (behind.map DawgEntry.abstime) deadline0
  have hsum : ∀ i e, b.entries[i]? = some e →
      ((DawgEvent.sleeps (execAll seq timescaler (it ++ behind) deadline0).1).take (i + 1)).sum =
        ((delays timescaler (b.entries.map DawgEntry.abstime) deadline0).take (i + 1)).sum *
          1000000 := by
    intro i e he
    have hi := (List.getElem?_eq_some_iff.mp he).1
    rw [sleeps_execAll, List.map_append, htimes, hwaits, ← List.map_take,
      List.take_append_of_le_length (by rw [hlength, List.length_map]; omega),
      List.sum_map_mul_right, List.map_id']
  constructor
  · intro h i time htime
    rw [List.getElem?_map, Option.map_eq_some_iff] at htime
    obtain ⟨e, he, rfl⟩ := htime
    have hturn := h i e he
    rw [hsum i e he] at hturn
    rw [Nat.zero_add]
    exact Nat.eq_of_mul_eq_mul_right (by decide) hturn
  · intro h i e he
    have htime := h i e.abstime (by rw [List.getElem?_map, he]; rfl)
    rw [Nat.zero_add] at htime
    rw [hsum i e he, htime]

/-! ### All turns -/

/-- A turn begins with a deadline that the first one does not exceed, unless it is 0. -/
def Begins (timescaler : Nat) (entry : DawgEntry) (deadline0 : BitVec 32) : Prop :=
  deadline0 = 0 ∨ deadline timescaler entry.abstime ≤ deadline0

theorem delay_begins {deadline0 : BitVec 32} (h : Begins timescaler entry deadline0) :
    delay (deadline timescaler entry.abstime) deadline0 =
      (deadline timescaler entry.abstime).toNat := by
  unfold delay
  rcases h with rfl | hle
  · exact ite_self _
  · exact if_neg (Nat.not_lt.mpr (BitVec.le_def.mp hle))

/-- What the times of a file have to be. -/
def SteadyFile (b : Build) (timescaler : Nat) : Prop :=
  b.entries.IsChain (fun e e' => Steady e.abstime e'.abstime) ∧
    ∀ e ∈ b.entries, e.abstime.toNat * timescaler < 4294967296

theorem SteadyFile.onTime (hsteady : SteadyFile b timescaler) (hscale : 1 ≤ timescaler)
    (hentries : b.entries = entry :: b.entries.tail) {deadline0 : BitVec 32}
    (hbegins : Begins timescaler entry deadline0) :
    OnTime timescaler (b.entries.map DawgEntry.abstime) 0
      (delays timescaler (b.entries.map DawgEntry.abstime) deadline0) := by
  obtain ⟨hchain, hfits⟩ := hsteady
  have hfirst := hfits entry (hentries ▸ List.mem_cons_self)
  rw [← List.isChain_map DawgEntry.abstime, hentries, List.map_cons] at hchain
  rw [hentries, List.map_cons, delays, delay_begins hbegins, onTime_cons, toNat_deadline,
    Nat.mod_eq_of_lt hfirst, Nat.zero_add]
  refine ⟨rfl, onTime_delays hscale _ _ hchain fun t ht => ?_⟩
  rw [← List.map_cons, ← hentries] at ht
  obtain ⟨e, he, rfl⟩ := List.mem_map.mp ht
  exact hfits e he

/-- Times that are waited for from the start are steady. -/
theorem steadyFile_of_onTime (hscale : 1 ≤ timescaler)
    (h : OnTime timescaler (b.entries.map DawgEntry.abstime) 0
      (delays timescaler (b.entries.map DawgEntry.abstime) 0)) : SteadyFile b timescaler := by
  have hzero : (0 : BitVec 32).toNat * timescaler = 0 := Nat.zero_mul timescaler
  have hstart : deadline timescaler 0 = 0 := BitVec.zero_mul
  have honTime := steady_of_onTime hscale (b.entries.map DawgEntry.abstime) 0
    (by rw [hzero]; decide)
  rw [hzero, hstart] at honTime
  obtain ⟨hchain, hfits⟩ := honTime h
  refine ⟨?_, fun e he => hfits _ (List.mem_map_of_mem he)⟩
  rw [← List.isChain_map DawgEntry.abstime]
  exact hchain.tail

theorem begins_last (hsteady : SteadyFile b timescaler) (h : b.Built)
    (hfirst : b.first = some (text, entry)) :
    Begins timescaler entry (deadline timescaler b.prev.abstime) := by
  have hentries := h.entries_eq hfirst
  have hin : entry ∈ b.entries := hentries ▸ List.mem_cons_self
  have hprev : b.prev ∈ b.entries := by
    have hlast := h.prev
    rw [h.instructions, hentries, List.getLast?_cons_cons, ← hentries] at hlast
    exact List.mem_of_getLast? hlast
  refine .inr (BitVec.le_def.mpr ?_)
  rw [toNat_deadline, toNat_deadline, Nat.mod_eq_of_lt (hsteady.2 entry hin),
    Nat.mod_eq_of_lt (hsteady.2 b.prev hprev)]
  refine Nat.mul_le_mul_right _ (BitVec.le_def.mp (h.le_prev entry ?_))
  rw [h.instructions]
  exact List.mem_cons_of_mem _ hin

/-- Every turn of a run is on time. -/
def Timely (file : List Char) (b : Build) (timescaler repeatCount : Nat) : Prop :=
  ∃ seq ran, build file = some seq ∧ seq.run timescaler repeatCount = some ran ∧
    ∀ turn ∈ ran.turns, TurnOnTime b timescaler turn

theorem forall_again {P : List DawgEvent → Prop} {Q : BitVec 32 → Prop} {body : List DawgEntry}
    (hturn : ∀ deadline0, Q deadline0 → P (execAll seq timescaler body deadline0).1)
    (hnext : ∀ deadline0, Q deadline0 → Q (execAll seq timescaler body deadline0).2)
    (count : Nat) :
    ∀ deadline0, Q deadline0 → ∀ turn ∈ (again seq timescaler body count deadline0).1, P turn := by
  induction count with
  | zero =>
      intro deadline0 _ turn hmem
      cases hmem
  | succ count ih =>
      intro deadline0 hq turn hmem
      rw [again] at hmem
      rcases List.mem_cons.mp hmem with rfl | hin
      · exact hturn deadline0 hq
      · exact ih _ (hnext deadline0 hq) turn hin

theorem later_split (h : b.Built) (hfirst : b.first = some (text, entry)) :
    ∃ behind, b.later entry = (b.again entry :: b.entries.tail) ++ behind ∧
      (b.again entry :: b.entries.tail).map DawgEntry.abstime =
        b.entries.map DawgEntry.abstime := by
  have htimes : (b.again entry :: b.entries.tail).map DawgEntry.abstime =
      b.entries.map DawgEntry.abstime := by
    conv_rhs => rw [h.entries_eq hfirst]
    rfl
  unfold Build.later
  by_cases htail : b.entries.tail = []
  · rw [if_pos htail]
    refine ⟨[b.allOpen], ?_, htimes⟩
    rw [htail]
    rfl
  · rw [if_neg htail]
    exact ⟨[], (List.append_nil _).symm, htimes⟩

theorem later_deadline (hsteady : SteadyFile b timescaler) (h : b.Built)
    (hfirst : b.first = some (text, entry)) (deadline0 : BitVec 32) :
    Begins timescaler entry
      (execAll (b.sequence entry) timescaler (b.later entry) deadline0).2 := by
  unfold Build.later
  by_cases htail : b.entries.tail = []
  · rw [if_pos htail]
    refine .inl ?_
    rw [show [b.again entry, b.allOpen] = [b.again entry] ++ [b.allOpen] from rfl,
      execAll_deadline]
    exact BitVec.zero_mul
  · rw [if_neg htail]
    obtain ⟨before, hbefore⟩ : ∃ before, b.again entry :: b.entries.tail = before ++ [b.prev] := by
      refine List.getLast?_eq_some_iff.mp ?_
      have hlast := h.prev
      obtain ⟨e, es, hes⟩ := List.exists_cons_of_ne_nil htail
      rw [h.instructions, h.entries_eq hfirst, hes, List.getLast?_cons_cons,
        List.getLast?_cons_cons] at hlast
      rw [hes, List.getLast?_cons_cons]
      exact hlast
    rw [hbefore, execAll_deadline]
    exact begins_last hsteady h hfirst

/--
**A run is on time when times increase from the first one that is not 0, and fit.**
-/
theorem run_timely_iff (file : List Char) (b : Build) (timescaler repeatCount : Nat)
    (hscan : scan file = some b) (hne : b.entries ≠ []) (hscale : 1 ≤ timescaler)
    (hrepeat : 1 ≤ repeatCount) :
    Timely file b timescaler repeatCount ↔
      b.Room ∧ repeatCount < 2147483647 ∧ SteadyFile b timescaler := by
  have h := built_scan hscan
  obtain ⟨text, entry, hfirst⟩ := h.first_of_ne hne
  have hentries := h.entries_eq hfirst
  obtain ⟨count, rfl⟩ := Nat.exists_eq_add_of_le' hrepeat
  have hturn : ∀ deadline0,
      TurnOnTime b timescaler ((b.sequence entry).execAll timescaler b.entries deadline0).1 ↔
        OnTime timescaler (b.entries.map DawgEntry.abstime) 0
          (delays timescaler (b.entries.map DawgEntry.abstime) deadline0) := by
    intro deadline0
    have hiff : TurnOnTime b timescaler
        ((b.sequence entry).execAll timescaler (b.entries ++ []) deadline0).1 ↔ _ :=
      turnOnTime_iff deadline0 rfl
    rwa [List.append_nil] at hiff
  constructor
  · rintro ⟨seq, ran, hbuild, hrun, hturns⟩
    obtain ⟨hroom, rfl⟩ := Build.build_run hscan hfirst hbuild
    have hcounted := counted_of_run hrun
    refine ⟨Build.room_of_first hfirst hroom, hcounted, ?_⟩
    rw [h.run_eq hfirst hcounted] at hrun
    obtain rfl := Option.some.inj hrun
    exact steadyFile_of_onTime hscale ((hturn 0).mp (hturns _ List.mem_cons_self))
  · rintro ⟨hroom, hcounted, hsteady⟩
    refine ⟨b.sequence entry, _, Build.build_of_room hscan hfirst hroom,
      h.run_eq hfirst hcounted, fun turn hmem => ?_⟩
    rcases List.mem_cons.mp hmem with rfl | hin
    · exact (hturn 0).mpr (hsteady.onTime hscale hentries (.inl rfl))
    · obtain ⟨behind, hlater, htimes⟩ := later_split h hfirst
      have hstart : Begins timescaler entry
          ((b.sequence entry).execAll timescaler b.entries 0).2 := by
        obtain ⟨before, hbefore⟩ : ∃ before, b.entries = before ++ [b.prev] := by
          refine List.getLast?_eq_some_iff.mp ?_
          have hlast := h.prev
          rw [h.instructions, hentries, List.getLast?_cons_cons, ← hentries] at hlast
          exact hlast
        rw [hbefore, execAll_deadline]
        exact begins_last hsteady h hfirst
      refine forall_again (fun deadline0 hbegins => ?_)
        (fun deadline0 _ => later_deadline hsteady h hfirst deadline0) count _ hstart turn hin
      rw [hlater, turnOnTime_iff deadline0 htimes]
      exact hsteady.onTime hscale hentries hbegins

/-- Two entries, at 0 and at 100. -/
theorem two_entries_timely :
    ∃ b, scan "0 0x1 0x2\n100 0x3 0x4\n".toList = some b ∧
      Timely "0 0x1 0x2\n100 0x3 0x4\n".toList b 2 3 := by
  have hscan : scan "0 0x1 0x2\n100 0x3 0x4\n".toList =
      some
        { lastSerial := 4, abstime := 100, mode := .untilState, executor := .untilState
          instructions := [⟨1, 0, 0, 0⟩, ⟨2, 0, 1, 2⟩, ⟨3, 100, 3, 4⟩]
          prev := ⟨3, 100, 3, 4⟩
          first := some ("0 0x1 0x2".toList, ⟨2, 0, 1, 2⟩) } := by
    decide
  refine ⟨_, hscan, (run_timely_iff _ _ 2 3 hscan (by decide) (by decide) (by decide)).mpr
    ⟨fun text entry hfirst => ?_, by decide, ?_, by decide⟩⟩
  · obtain ⟨rfl, -⟩ := Prod.mk.inj (Option.some.inj hfirst)
    decide
  · exact List.isChain_pair.mpr (.inl rfl)

/-- Two entries at 100: both are waited for. -/
theorem equal_times_not_timely :
    ¬∀ (file : List Char) (b : Build) (timescaler repeatCount : Nat), scan file = some b →
      b.entries ≠ [] → 1 ≤ timescaler → 1 ≤ repeatCount →
      Timely file b timescaler repeatCount := by
  intro h
  have hscan : scan "0 0x1 0x2\n100 0x3 0x4\n100 0x5 0x6\n".toList =
      some
        { lastSerial := 5, abstime := 100, mode := .untilState, executor := .untilState
          instructions := [⟨1, 0, 0, 0⟩, ⟨2, 0, 1, 2⟩, ⟨3, 100, 3, 4⟩, ⟨4, 100, 5, 6⟩]
          prev := ⟨4, 100, 5, 6⟩
          first := some ("0 0x1 0x2".toList, ⟨2, 0, 1, 2⟩) } := by
    decide
  obtain ⟨seq, ran, hbuild, hrun, hturns⟩ :=
    h _ _ 1 1 hscan (by decide) (by decide) (by decide)
  have hslept : ((build "0 0x1 0x2\n100 0x3 0x4\n100 0x5 0x6\n".toList).bind
      fun seq => seq.run 1 1).map (fun ran => ran.turns.map DawgEvent.sleeps) =
      some [[0, 100000000, 100000000]] := by
    decide
  rw [hbuild, Option.bind_some, hrun, Option.map_some] at hslept
  obtain ⟨turn, hmem, hsleeps⟩ : ∃ turn ∈ ran.turns,
      DawgEvent.sleeps turn = [0, 100000000, 100000000] := by
    have hmap := Option.some.inj hslept
    obtain ⟨turn, rest, hturns', hturn, -⟩ := List.map_eq_cons_iff.mp hmap
    exact ⟨turn, hturns' ▸ List.mem_cons_self, hturn⟩
  have hlast := hturns turn hmem 2 ⟨4, 100, 5, 6⟩ rfl
  rw [hsleeps] at hlast
  exact absurd hlast (by decide)

end Sequence

end Acq400
