/-
How many pulses a command for soft triggers gives.

A command for more than one pulse gives the first one itself, and its timer counts down by the
others.  So it gives as many as it says, as long as it cancels the timer that was there.  A command
for a single pulse does not: the burst that was running goes on behind it.

A callback comes before a command or behind it.  One that comes between the pulse of a command and
its cancel is as good as one before it.
-/
import Acq400.Driver.SysfsKnobs
import Acq400.Lib.Run
import Mathlib.Algebra.Order.Ring.Abs
import Mathlib.Tactic.LinearCombination

namespace Acq400

namespace SoftTrigger

variable {stt t : SoftTrigger} {n rate : Int}

/-! ### Runs -/

inductive Event where
  | store (buf : List Char)
  | fire
deriving DecidableEq, Repr

/-- The callback runs while the timer is active. -/
def step (stt : SoftTrigger) : Event → Option SoftTrigger
  | .store buf => some (stt.storeSoftTrigger buf).2
  | .fire => if stt.active then some stt.callback else none

/-- Behind the start of the module. -/
def boot (udelay : Int) : SoftTrigger :=
  { timerInit := false, active := false, period := 0, repeatCount := 0, softTriggerCount := 0,
    softTriggerUdelay := udelay }

/-- The timer has fired so many times. -/
def Fired (stt : SoftTrigger) (k : Nat) (t : SoftTrigger) : Prop :=
  Lts.run step stt (List.replicate k .fire) = some t

/-- The rate in Hz, where it is not in microhertz. -/
def hertz (rate : Int) : Int := max 1 (min rate 1000)

/-- The period is within 1 percent of that of the rate. -/
def InTime (period rate : Int) : Prop :=
  0 < period ∧
    if rate < 10000 then 100 * |period * hertz rate - 10 ^ 9| ≤ 10 ^ 9
    else 100 * |period * rate - 10 ^ 15| ≤ 10 ^ 15

/-- Behind the command there are as many pulses as it says, if no other one comes. -/
structure Bursts (stt : SoftTrigger) (n rate : Int) (t : SoftTrigger) : Prop where
  first : 1 ≤ n → t.softTriggerCount = stt.softTriggerCount + 1
  atMost : 0 ≤ n → ∀ k u, Fired t k u → (u.softTriggerCount : Int) ≤ stt.softTriggerCount + n
  all : 0 ≤ n → ∃ k u, Fired t k u ∧ u.active = false ∧
    (u.softTriggerCount : Int) = stt.softTriggerCount + n
  endless : n = -1 → ∀ k, ∃ u, Fired t k u ∧
    u.softTriggerCount = stt.softTriggerCount + k
  inTime : 2 ≤ n ∨ n = -1 → InTime t.period rate

/-- A single pulse comes when no other one is to follow, and a rate in microhertz has a period of
seconds. -/
structure Allowed (stt : SoftTrigger) (n rate : Int) : Prop where
  single : n = 1 → stt.active = true → stt.repeatCount = 1
  rate : 2 ≤ n ∨ n = -1 → rate < 10000 ∨ 1000000 % rate ≤ 10000

/-- What an active timer has. -/
structure Inv (stt : SoftTrigger) : Prop where
  init : stt.active = true → stt.timerInit = true
  repeats : stt.active = true → stt.repeatCount ≠ 0 ∧ CInt.InRange stt.repeatCount

/-! ### Callbacks -/

theorem fired_zero : Fired stt 0 t ↔ t = stt := by
  unfold Fired
  rw [List.replicate_zero, Lts.run_nil, Option.some.injEq, eq_comm]

theorem fired_succ (k : Nat) :
    Fired stt (k + 1) t ↔ stt.active = true ∧ Fired stt.callback k t := by
  unfold Fired
  rw [List.replicate_succ, Lts.run_cons]
  unfold step
  by_cases hactive : stt.active = true
  · rw [if_pos hactive, Option.bind_some]
    exact (and_iff_right hactive).symm
  · rw [if_neg hactive, Option.bind_none]
    exact iff_of_false (fun h => by cases h) fun h => hactive h.1

theorem fired_inactive (h : stt.active = false) {k : Nat} : Fired stt k t → t = stt := by
  cases k with
  | zero => exact fired_zero.mp
  | succ k =>
      rw [fired_succ, h]
      exact fun hfired => absurd hfired.1 Bool.false_ne_true

@[simp] theorem pulse_active (stt : SoftTrigger) : stt.pulse.active = stt.active := rfl

@[simp] theorem pulse_repeatCount (stt : SoftTrigger) :
    stt.pulse.repeatCount = stt.repeatCount := rfl

@[simp] theorem pulse_timerInit (stt : SoftTrigger) : stt.pulse.timerInit = stt.timerInit := rfl

@[simp] theorem pulse_count (stt : SoftTrigger) :
    stt.pulse.softTriggerCount = stt.softTriggerCount + 1 := rfl

theorem callback_infinite (h : stt.repeatCount = -1) : stt.callback = stt.pulse := if_pos h

theorem callback_last (h : stt.repeatCount = 1) :
    stt.callback = { stt with repeatCount := 0, active := false } := by
  have hwrap : CInt.wrap (1 - 1) = 0 := by decide
  unfold callback repeatInfinity
  rw [h, if_neg (by decide), if_neg (by decide), hwrap]
  rfl

/-- While more than one is left to count, the callback gives a pulse. -/
theorem callback_more (h : CInt.InRange stt.repeatCount) (hzero : stt.repeatCount ≠ 0)
    (hone : stt.repeatCount ≠ 1) : stt.callback.softTriggerCount = stt.softTriggerCount + 1 ∧
      stt.callback.active = stt.active ∧ stt.callback.timerInit = stt.timerInit ∧
      stt.callback.repeatCount ≠ 0 ∧ CInt.InRange stt.callback.repeatCount ∧
      (1 < stt.repeatCount → stt.callback.repeatCount = stt.repeatCount - 1) := by
  unfold callback repeatInfinity
  by_cases hinf : stt.repeatCount = -1
  · rw [if_pos hinf]
    exact ⟨rfl, rfl, rfl, hzero, h, fun hlt => by omega⟩
  · have hne : CInt.wrap (stt.repeatCount - 1) ≠ 0 := by
      unfold CInt.wrap
      unfold CInt.InRange at h
      rw [Int.bmod_def]
      split <;> omega
    rw [if_neg hinf, if_neg hzero]
    dsimp only
    rw [if_pos hne]
    refine ⟨rfl, rfl, rfl, hne, CInt.inRange_wrap _, fun hlt => ?_⟩
    unfold CInt.InRange at h
    exact CInt.wrap_of_inRange ⟨by omega, by omega⟩

/-- A callback between the pulse and the cancel is one before the command. -/
theorem late_callback (hn : 1 < n) (stt : SoftTrigger) (rate : Int) :
    stt.callback.command n rate =
      stt.pulse.callback.initTimer n (if rate < 10000 then hertz rate else rate) := by
  have hne : n ≠ 0 := by omega
  have hcomm : stt.pulse.callback = stt.callback.pulse := by
    unfold callback
    rw [pulse_repeatCount]
    by_cases hinf : stt.repeatCount = repeatInfinity
    · rw [if_pos hinf, if_pos hinf]
    · rw [if_neg hinf, if_neg hinf]
      by_cases hzero : stt.repeatCount = 0
      · rw [if_pos hzero, if_pos hzero]
        rfl
      · rw [if_neg hzero, if_neg hzero]
        by_cases hlast : CInt.wrap (stt.repeatCount - 1) ≠ 0
        · rw [if_pos hlast, if_pos hlast]
          rfl
        · rw [if_neg hlast, if_neg hlast]
          rfl
  unfold command hertz
  rw [if_neg (by omega), if_pos hn, hcomm]
  simp only [hne, ne_eq, not_false_eq_true, true_and]

/-! ### A burst -/

/-- The timer counts down by one a callback, and the last one gives no pulse. -/
theorem countdown (m : Nat) (hm : m < 2 ^ 31 - 1) :
    ∀ stt : SoftTrigger, stt.active = true → stt.repeatCount = m + 1 →
      (∀ k t, Fired stt k t → t.softTriggerCount ≤ stt.softTriggerCount + m) ∧
        ∃ k t, Fired stt k t ∧ t.active = false ∧
          t.softTriggerCount = stt.softTriggerCount + m := by
  induction m with
  | zero =>
      intro stt hactive hrepeat
      have hlast := callback_last hrepeat
      constructor
      · intro k t hfired
        cases k with
        | zero =>
            obtain rfl := fired_zero.mp hfired
            exact Nat.le_refl _
        | succ k =>
            obtain rfl := fired_inactive (by rw [hlast]) ((fired_succ k).mp hfired).2
            rw [hlast]
            exact Nat.le_refl _
      · refine ⟨1, stt.callback, (fired_succ 0).mpr ⟨hactive, fired_zero.mpr rfl⟩, ?_, ?_⟩
        · rw [hlast]
        · rw [hlast]
          rfl
  | succ m ih =>
      intro stt hactive hrepeat
      have hrange : CInt.InRange stt.repeatCount := by
        unfold CInt.InRange
        omega
      obtain ⟨hcount, hkeep, -, -, -, hless⟩ := callback_more hrange (by omega) (by omega)
      obtain ⟨hatMost, k, t, hfired, hend, hall⟩ :=
        ih (by omega) stt.callback (hkeep.trans hactive) (by rw [hless (by omega)]; omega)
      constructor
      · intro k t hfired
        cases k with
        | zero =>
            obtain rfl := fired_zero.mp hfired
            omega
        | succ k =>
            have hrest := hatMost k t ((fired_succ k).mp hfired).2
            omega
      · exact ⟨k + 1, t, (fired_succ k).mpr ⟨hactive, hfired⟩, hend, by omega⟩

/-- With an infinite count every callback gives a pulse. -/
theorem fired_infinite (k : Nat) :
    ∀ stt : SoftTrigger, stt.active = true → stt.repeatCount = -1 →
      ∃ t, Fired stt k t ∧ t.softTriggerCount = stt.softTriggerCount + k := by
  induction k with
  | zero => exact fun stt _ _ => ⟨stt, fired_zero.mpr rfl, rfl⟩
  | succ k ih =>
      intro stt hactive hrepeat
      obtain ⟨t, hfired, hcount⟩ := ih stt.pulse hactive hrepeat
      refine ⟨t, (fired_succ k).mpr ⟨hactive, ?_⟩, ?_⟩
      · rwa [callback_infinite hrepeat]
      · rw [hcount, pulse_count]
        omega

/-! ### The period -/

/-- The period that is set for a rate, which has been limited. -/
def periodOf (rate : Int) : Int :=
  ktimeSet (if rate ≥ 10000 then (1000000 : Int).tdiv rate else 0)
    ((if rate < 10000 then (1000000 : Int).tdiv rate else 0) * 1000)

/-- The rate that the timer is given. -/
def limited (rate : Int) : Int := if rate < 10000 then hertz rate else rate

theorem periodOf_hertz (h : rate < 10000) : InTime (periodOf (limited rate)) rate := by
  have hrange : 1 ≤ hertz rate ∧ hertz rate ≤ 1000 := by
    unfold hertz
    omega
  unfold limited
  rw [if_pos h]
  generalize hr : hertz rate = r at hrange
  unfold InTime periodOf ktimeSet
  rw [if_neg (by omega), if_pos (by omega : r < 10000), if_pos h, hr,
    Int.tdiv_eq_ediv_of_nonneg (by decide)]
  have hdiv := Int.mul_ediv_add_emod 1000000 r
  have hmod := Int.emod_nonneg 1000000 (by omega : r ≠ 0)
  have hlt := Int.emod_lt_of_pos 1000000 (by omega : 0 < r)
  have hquot : 1000 ≤ 1000000 / r := Int.le_ediv_of_mul_le (by omega) (by omega)
  have hprod : (0 * 1000000000 + 1000000 / r * 1000) * r - 10 ^ 9 = -(1000 * (1000000 % r)) := by
    linear_combination 1000 * hdiv
  rw [hprod, abs_neg, abs_of_nonneg (by omega)]
  exact ⟨by omega, by omega⟩

/-- A rate in microhertz has a period of whole seconds. -/
theorem periodOf_microhertz (h : ¬rate < 10000) :
    InTime (periodOf (limited rate)) rate ↔ 1000000 % rate ≤ 10000 := by
  unfold limited
  rw [if_neg h]
  unfold InTime periodOf ktimeSet
  rw [if_pos (by omega), if_neg h, if_neg h, Int.tdiv_eq_ediv_of_nonneg (by decide)]
  have hdiv := Int.mul_ediv_add_emod 1000000 rate
  have hmod := Int.emod_nonneg 1000000 (by omega : rate ≠ 0)
  have hprod : (1000000 / rate * 1000000000 + 0 * 1000) * rate - 10 ^ 15 =
      -(1000000000 * (1000000 % rate)) := by
    linear_combination 1000000000 * hdiv
  rw [hprod, abs_neg, abs_of_nonneg (by omega)]
  constructor
  · intro hin
    omega
  · intro hle
    refine ⟨?_, by omega⟩
    have hpos : 0 < 1000000 / rate := by
      by_contra hzero
      have hnone : 1000000 / rate = 0 := by
        have := Int.ediv_nonneg (by decide : (0 : Int) ≤ 1000000) (by omega : 0 ≤ rate)
        omega
      rw [hnone] at hdiv
      omega
    omega

/-! ### Commands -/

theorem initTimer_zero (hinv : Inv stt) (rate : Int) :
    (stt.initTimer 0 rate).active = false ∧
      (stt.initTimer 0 rate).softTriggerCount = stt.softTriggerCount := by
  unfold initTimer
  rw [if_neg (not_not.mpr rfl)]
  by_cases hinit : stt.timerInit = true
  · rw [if_pos hinit]
    exact ⟨rfl, rfl⟩
  · rw [if_neg hinit]
    exact ⟨Bool.eq_false_iff.mpr fun h => hinit (hinv.init h), rfl⟩

/-- A timer that is started. -/
structure Started (stt : SoftTrigger) (n rate : Int) (t : SoftTrigger) : Prop where
  timerInit : t.timerInit = true
  active : t.active = true
  repeatCount : t.repeatCount = n
  count : t.softTriggerCount = stt.softTriggerCount
  period : t.period = periodOf rate

theorem initTimer_started (stt : SoftTrigger) (hn : n ≠ 0) (rate : Int) :
    Started stt n rate (stt.initTimer n rate) := by
  unfold initTimer
  rw [if_pos hn]
  by_cases hinit : stt.timerInit = true
  · rw [if_pos hinit]
    exact ⟨rfl, rfl, rfl, rfl, rfl⟩
  · rw [if_neg hinit]
    exact ⟨rfl, rfl, rfl, rfl, rfl⟩

theorem command_one (stt : SoftTrigger) (rate : Int) : stt.command 1 rate = stt.pulse := if_pos rfl

theorem command_zero (stt : SoftTrigger) (rate : Int) :
    stt.command 0 rate = stt.initTimer 0 rate := by
  unfold command
  rw [if_neg (by decide), if_neg (by decide)]
  simp

/-- A command for more than one pulse gives one, and starts the timer. -/
theorem command_more (hn : 1 < n) (stt : SoftTrigger) (rate : Int) :
    stt.command n rate = stt.pulse.initTimer n (limited rate) := by
  have hne : n ≠ 0 := by omega
  unfold command limited hertz
  rw [if_neg (by omega), if_pos hn]
  simp only [hne, ne_eq, not_false_eq_true, true_and]

theorem command_negative (hn : n < 0) (stt : SoftTrigger) (rate : Int) :
    stt.command n rate = stt.initTimer n (limited rate) := by
  have hne : n ≠ 0 := by omega
  unfold command limited hertz
  rw [if_neg (by omega), if_neg (by omega)]
  simp only [hne, ne_eq, not_false_eq_true, true_and]

/-- In time is what the rate allows. -/
theorem period_inTime (rate : Int) :
    InTime (periodOf (limited rate)) rate ↔ rate < 10000 ∨ 1000000 % rate ≤ 10000 := by
  by_cases hrate : rate < 10000
  · exact iff_of_true (periodOf_hertz hrate) (.inl hrate)
  · rw [periodOf_microhertz hrate]
    exact (or_iff_right hrate).symm

/-- A single pulse is the only one, unless a burst goes on behind it. -/
theorem one_iff (hinv : Inv stt) :
    Bursts stt 1 rate (stt.command 1 rate) ↔ Allowed stt 1 rate := by
  rw [command_one]
  constructor
  · intro h
    refine ⟨fun _ hactive => ?_, fun hn => by omega⟩
    by_contra hone
    obtain ⟨hzero, hrange⟩ := hinv.repeats hactive
    obtain ⟨hcount, -⟩ := callback_more (by exact hrange : CInt.InRange stt.pulse.repeatCount)
      hzero hone
    have hmost := h.atMost (by decide) 1 _ ((fired_succ 0).mpr ⟨hactive, fired_zero.mpr rfl⟩)
    rw [hcount, pulse_count] at hmost
    omega
  · intro h
    have hburst : (∀ k u, Fired stt.pulse k u →
        u.softTriggerCount ≤ stt.pulse.softTriggerCount + 0) ∧
          ∃ k u, Fired stt.pulse k u ∧ u.active = false ∧
            u.softTriggerCount = stt.pulse.softTriggerCount + 0 := by
      by_cases hactive : stt.active = true
      · exact countdown 0 (by decide) stt.pulse hactive (h.single rfl hactive)
      · have hidle : stt.pulse.active = false := Bool.eq_false_iff.mpr hactive
        refine ⟨fun k u hfired => ?_, 0, stt.pulse, fired_zero.mpr rfl, hidle, rfl⟩
        rw [fired_inactive hidle hfired]
        exact Nat.le_refl _
    obtain ⟨hmost, k, u, hfired, hend, hall⟩ := hburst
    rw [pulse_count] at hall
    refine ⟨fun _ => rfl, fun _ k u hfired => ?_, fun _ => ⟨k, u, hfired, hend, by omega⟩,
      fun hn => by omega, fun hn => by omega⟩
    have hle := hmost k u hfired
    rw [pulse_count] at hle
    omega

theorem more_iff (hn : 1 < n) (hrange : CInt.InRange n) :
    Bursts stt n rate (stt.command n rate) ↔ Allowed stt n rate := by
  rw [command_more hn]
  obtain ⟨-, hactive, hrepeat, hcount, hperiod⟩ :=
    initTimer_started stt.pulse (by omega : n ≠ 0) (limited rate)
  generalize stt.pulse.initTimer n (limited rate) = t at *
  rw [pulse_count] at hcount
  constructor
  · intro h
    have hin := h.inTime (.inl (by omega))
    rw [hperiod, period_inTime] at hin
    exact ⟨fun hone => by omega, fun _ => hin⟩
  · intro h
    have hsmall := hrange.2
    obtain ⟨hmost, k, u, hfired, hend, hall⟩ :=
      countdown (n - 1).toNat (by omega) t hactive (by omega)
    refine ⟨fun _ => hcount, fun _ k u hfired => ?_,
      fun _ => ⟨k, u, hfired, hend, by omega⟩, fun hneg => by omega, fun htwo => ?_⟩
    · have hle := hmost k u hfired
      omega
    · rw [hperiod, period_inTime]
      exact h.rate htwo

theorem negative_iff (hn : n < 0) :
    Bursts stt n rate (stt.command n rate) ↔ Allowed stt n rate := by
  rw [command_negative hn]
  obtain ⟨-, hactive, hrepeat, hcount, hperiod⟩ :=
    initTimer_started stt (by omega : n ≠ 0) (limited rate)
  generalize stt.initTimer n (limited rate) = t at *
  constructor
  · intro h
    refine ⟨fun hone => by omega, fun hinf => ?_⟩
    have hin := h.inTime hinf
    rwa [hperiod, period_inTime] at hin
  · intro h
    refine ⟨fun hone => by omega, fun hzero => by omega, fun hzero => by omega,
      fun hinf k => ?_, fun hinf => ?_⟩
    · obtain ⟨u, hfired, hu⟩ := fired_infinite k t hactive (hrepeat.trans hinf)
      exact ⟨u, hfired, by omega⟩
    · rw [hperiod, period_inTime]
      exact h.rate hinf

theorem command_right_iff (hinv : Inv stt) (hrange : CInt.InRange n) :
    Bursts stt n rate (stt.command n rate) ↔ Allowed stt n rate := by
  rcases (by omega : n < 0 ∨ n = 0 ∨ n = 1 ∨ 1 < n) with hn | rfl | rfl | hn
  · exact negative_iff hn
  · obtain ⟨hidle, hcount⟩ := initTimer_zero hinv rate
    rw [command_zero]
    refine iff_of_true ⟨fun h => by omega, fun _ k u hfired => ?_, fun _ => ?_, fun h => by omega,
      fun h => by omega⟩ ⟨fun h => by omega, fun h => by omega⟩
    · rw [fired_inactive hidle hfired, hcount]
      omega
    · exact ⟨0, _, fired_zero.mpr rfl, hidle, by omega⟩
  · exact one_iff hinv
  · exact more_iff hn hrange

/-! ### Runs of commands and callbacks -/

theorem boot_inv (udelay : Int) : Inv (boot udelay) :=
  ⟨fun h => absurd h Bool.false_ne_true, fun h => absurd h Bool.false_ne_true⟩

theorem pulse_inv (h : Inv stt) : Inv stt.pulse := ⟨h.init, h.repeats⟩

theorem callback_inv (h : Inv stt) (hactive : stt.active = true) : Inv stt.callback := by
  obtain ⟨hzero, hrange⟩ := h.repeats hactive
  by_cases hone : stt.repeatCount = 1
  · rw [callback_last hone]
    exact ⟨fun h => absurd h Bool.false_ne_true, fun h => absurd h Bool.false_ne_true⟩
  · obtain ⟨-, -, hinit, hne, hwrap, -⟩ := callback_more hrange hzero hone
    exact ⟨fun _ => hinit.trans (h.init hactive), fun _ => ⟨hne, hwrap⟩⟩

theorem initTimer_inv (hinv : Inv stt) (hrange : CInt.InRange n) (rate : Int) :
    Inv (stt.initTimer n rate) := by
  by_cases hn : n = 0
  · obtain ⟨hidle, -⟩ := initTimer_zero hinv rate
    subst hn
    rw [← Bool.not_eq_true] at hidle
    exact ⟨fun h => absurd h hidle, fun h => absurd h hidle⟩
  · obtain ⟨hinit, -, hrepeat, -, -⟩ := initTimer_started stt hn rate
    exact ⟨fun _ => hinit, fun _ => by rw [hrepeat]; exact ⟨hn, hrange⟩⟩

theorem command_inv (hinv : Inv stt) (hrange : CInt.InRange n) (rate : Int) :
    Inv (stt.command n rate) := by
  unfold command
  split
  · exact pulse_inv hinv
  · refine initTimer_inv ?_ hrange _
    split
    · exact pulse_inv hinv
    · exact hinv

theorem scan_inRange {buf : List Char} (h : scan buf = some (n, rate)) : CInt.InRange n := by
  unfold scan at h
  cases hfirst : Sscanf.int buf with
  | none =>
      rw [hfirst] at h
      cases h
  | some scanned =>
      obtain ⟨m, rest⟩ := scanned
      have hm := Sscanf.int_inRange hfirst
      rw [hfirst] at h
      dsimp only at h
      split at h
      · obtain ⟨rfl, -⟩ := Prod.mk.inj (Option.some.inj h)
        exact hm
      · obtain ⟨rfl, -⟩ := Prod.mk.inj (Option.some.inj h)
        exact hm

theorem storeSoftTrigger_scan {buf : List Char} (h : scan buf = some (n, rate)) :
    stt.storeSoftTrigger buf = ((buf.length : Int), stt.command n rate) := by
  unfold storeSoftTrigger
  rw [h]

theorem step_inv (hinv : Inv stt) {ev : Event} (h : step stt ev = some t) : Inv t := by
  cases ev with
  | store buf =>
      obtain rfl := Option.some.inj h
      cases hscan : scan buf with
      | none =>
          unfold storeSoftTrigger
          rw [hscan]
          exact hinv
      | some scanned =>
          rw [storeSoftTrigger_scan hscan]
          exact command_inv hinv (scan_inRange hscan) _
  | fire =>
      unfold step at h
      by_cases hactive : stt.active = true
      · rw [if_pos hactive] at h
        obtain rfl := Option.some.inj h
        exact callback_inv hinv hactive
      · rw [if_neg hactive] at h
        cases h

/-- A command that is scanned does what it says. -/
def Right (stt : SoftTrigger) (ev : Event) (t : SoftTrigger) : Prop :=
  ∀ buf n rate, ev = .store buf → scan buf = some (n, rate) → Bursts stt n rate t

/-- The commands that are scanned are allowed. -/
def Harmless (stt : SoftTrigger) (ev : Event) : Prop :=
  ∀ buf n rate, ev = .store buf → scan buf = some (n, rate) → Allowed stt n rate

theorem step_right_iff (hinv : Inv stt) {ev : Event} (h : step stt ev = some t) :
    Harmless stt ev ↔ Right stt ev t := by
  refine forall_congr' fun buf => forall_congr' fun n => forall_congr' fun rate => ?_
  refine imp_congr_right fun hev => imp_congr_right fun hscan => ?_
  subst hev
  obtain rfl := Option.some.inj h
  rw [storeSoftTrigger_scan hscan]
  exact (command_right_iff hinv (scan_inRange hscan)).symm

/--
**Every command of a run gives the pulses that it says, in time, unless a single pulse is asked
for while a burst goes on, or a rate in microhertz that is no whole number of seconds.**
-/
theorem bursts_right_iff (udelay : Int) (evs : List Event) (t : SoftTrigger)
    (h : Lts.run step (boot udelay) evs = some t) :
    (∀ before ev behind stt stt', evs = before ++ ev :: behind →
      Lts.run step (boot udelay) before = some stt → step stt ev = some stt' →
        Right stt ev stt') ↔
      Lts.Meets step Harmless (boot udelay) evs :=
  (Lts.meets_iff_steps Inv Right
    (fun _ _ _ hinv hstep => ⟨step_right_iff hinv hstep, fun _ => step_inv hinv hstep⟩)
    evs (boot udelay) t (boot_inv udelay) h).symm

theorem bursts_right_pair :
    ∃ t, Lts.run step (boot 0) [.store "2 1000".toList, .fire] = some t ∧
      ∀ before ev behind stt stt',
        [.store "2 1000".toList, .fire] = before ++ ev :: behind →
        Lts.run step (boot 0) before = some stt → step stt ev = some stt' → Right stt ev stt' := by
  refine ⟨_, rfl, (bursts_right_iff 0 [.store "2 1000".toList, .fire] _ rfl).mpr
    ⟨?_, fun _ _ => ⟨?_, fun _ _ => trivial⟩⟩⟩
  · intro buf n rate hev hscan
    obtain rfl := Event.store.inj hev
    have htwo : scan "2 1000".toList = some (2, 1000) := by decide
    obtain ⟨rfl, rfl⟩ := Prod.mk.inj (Option.some.inj (htwo.symm.trans hscan))
    exact ⟨fun h => by omega, fun _ => .inl (by omega)⟩
  · intro buf n rate hev
    cases hev

/-- A burst without an end goes on behind a single pulse. -/
theorem single_not_right :
    ¬∀ (udelay : Int) (evs : List Event) (t : SoftTrigger),
      Lts.run step (boot udelay) evs = some t →
      ∀ before ev behind stt stt', evs = before ++ ev :: behind →
        Lts.run step (boot udelay) before = some stt → step stt ev = some stt' →
          Right stt ev stt' := by
  intro h
  have hscan : scan "1".toList = some (1, 0) := by decide
  have hone := h 0 [.store "-1 10".toList, .store "1".toList] _ rfl
    [.store "-1 10".toList] (.store "1".toList) [] _ _ rfl rfl rfl "1".toList 1 0 rfl hscan
  have hmost := hone.atMost (by decide) 1 _ rfl
  revert hmost
  decide

end SoftTrigger

end Acq400
