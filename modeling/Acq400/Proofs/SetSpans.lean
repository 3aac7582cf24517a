/-
What a change of the spans leaves of the modes of an AO424.

The change takes the module out of the odd channels and of two's complement, and one that fails
leaves it there.  One that succeeds counts the spans of the channels that are enabled, and sets the
control word from the copy that it has taken.
-/
import Acq400.Driver.Ao424
import Mathlib.Data.List.Count
import Mathlib.Tactic.Common

namespace Acq400

namespace Ao424

variable {p : Ao424Params} {swc : Nat → Bool} {s t : Ao424} {ctrl : BitVec 32}

/-! ### A change that leaves the modes right -/

/-- The mode of odd channels. -/
def IsOdd (s : Ao424) : Prop := s.cgen &&& oddChans ≠ 0

instance (s : Ao424) : Decidable s.IsOdd := inferInstanceAs (Decidable (_ ≠ _))

/-- All spans are bipolar. -/
def AllBipolar (s : Ao424) : Prop := ∀ ic < 32, isUnipolar (s.ao424Spans ic) = false

/-- A change that fails leaves the modes as they were, and one that succeeds leaves the encoding
that the spans allow. -/
structure SpansRight (s : Ao424) (ret : Int) (t : Ao424) : Prop where
  odd : t.IsOdd ↔ s.IsOdd
  nchan : t.nchanEnabled = s.nchanEnabled
  failed : ret ≠ 0 → t.encodedTwocmp = s.encodedTwocmp ∧ t.dacCtrl = s.dacCtrl
  done : ret = 0 → (t.encodedTwocmp = 1 ↔ s.AllBipolar) ∧
    (t.dacCtrl &&& twocmp ≠ 0 ↔ s.AllBipolar) ∧
    t.dacCtrl &&& ~~~twocmp = s.dacCtrl &&& ~~~twocmp

/-- The status comes before the timeout. -/
def InTime (p : Ao424Params) (swc : Nat → Bool) : Prop :=
  ∃ k ≤ p.setSpansTimeout.toNat, swc k = true

/-- The bits of the control word that `_ao424_set_spans` sets or clears. -/
def programmed : BitVec 32 := 0x135

/-- The change is refused at once. -/
def Refused (p : Ao424Params) (s : Ao424) : Prop :=
  s.taskActive = true ∨ s.IsOdd ∧ p.allowSpansInOddsMode = false

/-- The module plays, and a change is refused for it. -/
def Playing (s : Ao424) : Prop := s.dacCtrl &&& dacEn ≠ 0 ∧ s.playloopLength > 0

/-- There is no mode to be left. -/
def NoMode (s : Ao424) : Prop := ¬s.IsOdd ∧ s.encodedTwocmp ≠ 1

/-- Nothing is to be undone when the change fails, and what it takes for granted is so when it
succeeds: the channels that it restores, those whose spans it counts, and a control word with the
encoding that is left. -/
structure Allowed (p : Ao424Params) (swc : Nat → Bool) (s : Ao424) : Prop where
  playing : s.Playing → s.NoMode
  late : ¬s.Playing → ¬InTime p swc →
    s.NoMode ∧ s.dacCtrl &&& programmed = moduleEn ||| fifoEn
  channels : ¬s.Playing → InTime p swc → s.IsOdd → s.nchanEnabled = 16
  spans : ¬s.Playing → InTime p swc → ¬s.IsOdd →
    ((∀ ic < s.nchanEnabled, isUnipolar (s.ao424Spans ic) = false) ↔ s.AllBipolar)
  encoding : ¬s.Playing → InTime p swc → ¬s.AllBipolar → s.encodedTwocmp ≠ 1 →
    s.dacCtrl &&& twocmp = 0

/-! ### Bits -/

theorem clear_and (x m : BitVec 32) : x &&& ~~~m &&& m = 0 := by
  rw [BitVec.and_assoc]
  ext i hi
  simp

theorem clear_and_of_apart {m k : BitVec 32} (h : k &&& m = 0) (x : BitVec 32) :
    x &&& ~~~m &&& k = x &&& k := by
  ext i hi
  have hbit := congrArg (fun y : BitVec 32 => y[i]) h
  simp only [BitVec.getElem_and, BitVec.getElem_not, BitVec.ofNat_eq_ofNat,
    BitVec.getElem_zero] at hbit ⊢
  cases hm : m[i] <;> cases hk : k[i] <;> simp_all

theorem set_clear (x m : BitVec 32) : (x ||| m) &&& ~~~m = x &&& ~~~m := by
  ext i hi
  simp only [BitVec.getElem_and, BitVec.getElem_or, BitVec.getElem_not]
  cases m[i] <;> simp

theorem clear_clear (x m : BitVec 32) : x &&& ~~~m &&& ~~~m = x &&& ~~~m := by
  rw [BitVec.and_assoc, BitVec.and_self]

theorem set_and (x m : BitVec 32) : (x ||| m) &&& m = m := by
  ext i hi
  simp only [BitVec.getElem_and, BitVec.getElem_or]
  cases m[i] <;> simp

/-- The control word behind `_ao424_set_spans`. -/
def program (ctrl : BitVec 32) : BitVec 32 :=
  ((ctrl &&& ~~~(dacEn ||| fifoEn)) &&& ~~~ll ||| moduleEn ||| fifoEn ||| span) &&& ~~~span

theorem program_eq_iff (ctrl : BitVec 32) :
    program ctrl = ctrl ↔ ctrl &&& programmed = moduleEn ||| fifoEn := by
  have hput : program ctrl = ctrl &&& ~~~programmed ||| (moduleEn ||| fifoEn) := by
    refine BitVec.eq_of_getLsbD_eq fun i hi => ?_
    unfold program
    simp only [BitVec.getLsbD_and, BitVec.getLsbD_or, BitVec.getLsbD_not]
    generalize ctrl.getLsbD i = b
    revert b i
    decide
  rw [hput]
  constructor
  · intro h
    have hvalue : (ctrl &&& ~~~programmed ||| (moduleEn ||| fifoEn)) &&& programmed =
        moduleEn ||| fifoEn := by
      refine BitVec.eq_of_getLsbD_eq fun i hi => ?_
      simp only [BitVec.getLsbD_and, BitVec.getLsbD_or, BitVec.getLsbD_not]
      generalize ctrl.getLsbD i = b
      revert b i
      decide
    rwa [h] at hvalue
  · intro h
    rw [← h]
    ext i hi
    simp only [BitVec.getElem_and, BitVec.getElem_or, BitVec.getElem_not]
    cases ctrl[i] <;> simp

/-! ### The parts -/

theorem measureAoFifo_kept (p : Ao424Params) (s : Ao424) :
    (s.measureAoFifo p).cgen = s.cgen ∧ (s.measureAoFifo p).nchanEnabled = s.nchanEnabled ∧
      (s.measureAoFifo p).ao424Spans = s.ao424Spans ∧
      (s.measureAoFifo p).encodedTwocmp = s.encodedTwocmp ∧
      (s.measureAoFifo p).playloopLength = s.playloopLength := by
  unfold measureAoFifo resetFifo
  split
  · exact ⟨rfl, rfl, rfl, rfl, rfl⟩
  · exact ⟨rfl, rfl, rfl, rfl, rfl⟩

/-- The mode is set, with the number of channels that it has. -/
theorem setOddChannels_spec (p : Ao424Params) (s : Ao424) (odd : Bool) :
    ((s.setOddChannels p odd).IsOdd ↔ odd = true) ∧
      (s.setOddChannels p odd).nchanEnabled = (if odd then 16 else 32) ∧
      (s.setOddChannels p odd).ao424Spans = s.ao424Spans ∧
      (s.setOddChannels p odd).encodedTwocmp = s.encodedTwocmp ∧
      (s.setOddChannels p odd).playloopLength = s.playloopLength := by
  unfold setOddChannels IsOdd
  obtain ⟨hcgen, hnchan, hspans, hencoded, hlength⟩ := measureAoFifo_kept p
    (if odd then { s with cgen := s.cgen &&& ~~~disableX ||| oddChans, nchanEnabled := 16 }
      else { s with cgen := s.cgen &&& ~~~disableX &&& ~~~oddChans, nchanEnabled := 32 })
  dsimp only
  rw [hcgen, hnchan, hspans, hencoded, hlength]
  cases odd with
  | true =>
      refine ⟨iff_of_true ?_ rfl, rfl, rfl, rfl, rfl⟩
      show (_ ||| oddChans) &&& oddChans ≠ 0
      rw [set_and]
      decide
  | false =>
      refine ⟨iff_of_false ?_ Bool.false_ne_true, rfl, rfl, rfl, rfl⟩
      exact not_not.mpr (clear_and _ _)

theorem pollLoop_eq (swc : Nat → Bool) (more : Nat) : ∀ pollcat,
    pollLoop swc more pollcat =
      if (List.range (more + 1)).any (fun k => swc (pollcat + k)) then 0 else -1 := by
  induction more with
  | zero =>
      intro pollcat
      simp [pollLoop]
  | succ more ih =>
      intro pollcat
      have hshift : (List.range (more + 1 + 1)).any (fun k => swc (pollcat + k)) =
          (swc pollcat || (List.range (more + 1)).any (fun k => swc (pollcat + 1 + k))) := by
        rw [List.range_succ_eq_map, List.any_cons, List.any_map]
        refine congrArg (swc pollcat || ·) (congrArg (List.any _) (funext fun k => ?_))
        show swc (pollcat + (k + 1)) = _
        rw [Nat.add_assoc, Nat.add_comm 1 k]
      rw [pollLoop, ih, hshift]
      cases swc pollcat with
      | true => rfl
      | false => rw [Bool.false_or]; rfl

theorem pollLoop_eq_zero :
    pollLoop swc p.setSpansTimeout.toNat 0 = 0 ↔ InTime p swc := by
  have hany : (List.range (p.setSpansTimeout.toNat + 1)).any (fun k => swc (0 + k)) = true ↔
      InTime p swc := by
    unfold InTime
    simp only [List.any_eq_true, List.mem_range, Nat.zero_add, Nat.lt_add_one_iff]
  rw [pollLoop_eq, ← hany]
  split
  · rename_i h
    exact iff_of_true rfl h
  · rename_i h
    exact iff_of_false (by decide) h

/-- The module is out of its modes, with its control word. -/
def leave (p : Ao424Params) (s : Ao424) : Ao424 × BitVec 32 :=
  let t := if s.IsOdd then s.setOddChannels p false else s
  if t.encodedTwocmp = 1 then
    let ctrl := s.dacCtrl &&& ~~~twocmp
    ({ t with encodedTwocmp := 0, dacCtrl := ctrl }, ctrl)
  else (t, s.dacCtrl)

/-- What leaving the modes changes. -/
structure Left (s t : Ao424) (ctrl : BitVec 32) : Prop where
  odd : ¬t.IsOdd
  nchan : t.nchanEnabled = if s.IsOdd then 32 else s.nchanEnabled
  spans : t.ao424Spans = s.ao424Spans
  length : t.playloopLength = s.playloopLength
  encoded : t.encodedTwocmp = if s.encodedTwocmp = 1 then 0 else s.encodedTwocmp
  ctrl : ctrl = if s.encodedTwocmp = 1 then s.dacCtrl &&& ~~~twocmp else s.dacCtrl
  dacCtrl : s.NoMode → t.dacCtrl = s.dacCtrl

theorem leaveOdd_spec (p : Ao424Params) (s : Ao424) {t : Ao424}
    (ht : t = if s.IsOdd then s.setOddChannels p false else s) :
    ¬t.IsOdd ∧ t.nchanEnabled = (if s.IsOdd then 32 else s.nchanEnabled) ∧
      t.ao424Spans = s.ao424Spans ∧ t.encodedTwocmp = s.encodedTwocmp ∧
      t.playloopLength = s.playloopLength ∧ (¬s.IsOdd → t = s) := by
  obtain ⟨hodd, hnchan, hspans, hencoded, hlength⟩ := setOddChannels_spec p s false
  by_cases h : s.IsOdd
  · rw [if_pos h] at ht
    rw [if_pos h, ht]
    exact ⟨fun ho => Bool.false_ne_true (hodd.mp ho), hnchan, hspans, hencoded, hlength,
      fun hnot => absurd h hnot⟩
  · rw [if_neg h] at ht
    rw [if_neg h, ht]
    exact ⟨h, rfl, rfl, rfl, rfl, fun _ => rfl⟩

theorem leave_left (p : Ao424Params) (s : Ao424) : Left s (s.leave p).1 (s.leave p).2 := by
  obtain ⟨hodd, hnchan, hspans, hencoded, hlength, hsame⟩ := leaveOdd_spec p s rfl
  unfold leave
  dsimp only
  by_cases he : s.encodedTwocmp = 1
  · rw [if_pos (hencoded.trans he)]
    refine ⟨hodd, hnchan, hspans, hlength, ?_, ?_, fun hmode => absurd he hmode.2⟩
    · rw [if_pos he]
    · rw [if_pos he]
  · rw [if_neg fun h1 => he (hencoded.symm.trans h1)]
    refine ⟨hodd, hnchan, hspans, hlength, ?_, ?_, fun hmode => ?_⟩
    · rw [if_neg he]
      exact hencoded
    · rw [if_neg he]
    · rw [hsame hmode.1]

theorem setSpans_eq (h : ¬Refused p s) : s.setSpans p swc =
    if (s.leave p).2 &&& dacEn ≠ 0 ∧ (s.leave p).1.playloopLength > 0 then (-1, (s.leave p).1)
    else
      let set := (s.leave p).1.setSpansCtrl p swc (s.leave p).2
      if set.1 = 0 then (set.1, set.2.onSpansSet p (s.leave p).2 s.IsOdd) else set := by
  obtain ⟨htask, hodds⟩ := not_or.mp h
  have hallow : ¬(s.cgen &&& oddChans ≠ 0 ∧ (!p.allowSpansInOddsMode) = true) := by
    rintro ⟨hodd, hallow⟩
    refine hodds ⟨hodd, ?_⟩
    simpa using hallow
  unfold setSpans
  dsimp only
  rw [if_neg htask, if_neg (by simpa using hallow)]
  rfl

theorem setSpansCtrl_spec (p : Ao424Params) (swc : Nat → Bool) (t : Ao424) (ctrl : BitVec 32) :
    ((t.setSpansCtrl p swc ctrl).1 = 0 ↔ InTime p swc) ∧
      ((t.setSpansCtrl p swc ctrl).2.IsOdd ↔ t.IsOdd) ∧
      (t.setSpansCtrl p swc ctrl).2.nchanEnabled = t.nchanEnabled ∧
      (t.setSpansCtrl p swc ctrl).2.ao424Spans = t.ao424Spans ∧
      (t.setSpansCtrl p swc ctrl).2.encodedTwocmp = t.encodedTwocmp ∧
      (t.setSpansCtrl p swc ctrl).2.dacCtrl = program ctrl :=
  ⟨pollLoop_eq_zero, Iff.rfl, rfl, rfl, rfl, rfl⟩

/-- The spans of the channels that are counted are bipolar. -/
def NoneUnipolar (t : Ao424) : Prop := ∀ ic < t.nchanEnabled, isUnipolar (t.ao424Spans ic) = false

theorem onSpansSet_spec (p : Ao424Params) (t : Ao424) (ctrl : BitVec 32) (odd : Bool) :
    ((t.onSpansSet p ctrl odd).IsOdd ↔ odd = true ∨ t.IsOdd) ∧
      (t.onSpansSet p ctrl odd).nchanEnabled = (if odd then 16 else t.nchanEnabled) ∧
      (t.NoneUnipolar → (t.onSpansSet p ctrl odd).encodedTwocmp = 1 ∧
        (t.onSpansSet p ctrl odd).dacCtrl = ctrl ||| twocmp) ∧
      (¬t.NoneUnipolar → (t.onSpansSet p ctrl odd).encodedTwocmp = t.encodedTwocmp ∧
        (t.onSpansSet p ctrl odd).dacCtrl = ctrl) := by
  have hcount : (List.range t.nchanEnabled).countP (fun ic => isUnipolar (t.ao424Spans ic)) = 0 ↔
      t.NoneUnipolar := by
    rw [List.countP_eq_zero]
    unfold NoneUnipolar
    simp
  have hkept : ∀ u : Ao424, ((if odd then u.setOddChannels p true else u).IsOdd ↔
      odd = true ∨ u.IsOdd) ∧ (if odd then u.setOddChannels p true else u).nchanEnabled =
        (if odd then 16 else u.nchanEnabled) ∧
      (if odd then u.setOddChannels p true else u).encodedTwocmp = u.encodedTwocmp := by
    intro u
    obtain ⟨hodd, hnchan, -, hencoded, -⟩ := setOddChannels_spec p u true
    cases odd with
    | true => exact ⟨iff_of_true (hodd.mpr rfl) (.inl rfl), hnchan, hencoded⟩
    | false => exact ⟨(or_iff_right Bool.false_ne_true).symm, rfl, rfl⟩
  unfold onSpansSet
  by_cases hnone : t.NoneUnipolar
  · obtain ⟨hodd, hnchan, hencoded⟩ := hkept { t with encodedTwocmp := 1 }
    simp only [if_pos (hcount.mpr hnone)]
    exact ⟨hodd, hnchan, fun _ => ⟨hencoded, trivial⟩, fun h => absurd hnone h⟩
  · obtain ⟨hodd, hnchan, hencoded⟩ := hkept t
    simp only [if_neg fun h => hnone (hcount.mp h)]
    exact ⟨hodd, hnchan, fun h => absurd h hnone, fun _ => ⟨hencoded, trivial⟩⟩

/-! ### The whole -/

/-- What has left no mode has changed nothing. -/
theorem Left.unchanged_iff (h : Left s t ctrl) :
    ((t.IsOdd ↔ s.IsOdd) ∧ t.encodedTwocmp = s.encodedTwocmp ↔ s.NoMode) := by
  have hencoded : t.encodedTwocmp = s.encodedTwocmp ↔ s.encodedTwocmp ≠ 1 := by
    rw [h.encoded]
    split
    · rename_i h1
      rw [h1]
      decide
    · rename_i h1
      exact iff_of_true rfl h1
  rw [hencoded]
  unfold NoMode
  have hodd := h.odd
  tauto

theorem refused_right (h : Refused p s) :
    SpansRight s (s.setSpans p swc).1 (s.setSpans p swc).2 := by
  have heq : s.setSpans p swc = (-1, s) := by
    unfold setSpans
    dsimp only
    by_cases htask : s.taskActive = true
    · rw [if_pos htask]
    · obtain ⟨hodd, hallow⟩ := h.resolve_left htask
      unfold IsOdd at hodd
      rw [if_neg htask, if_pos ⟨by simpa using hodd, by rw [hallow]; rfl⟩]
  have hfailed : (-1 : Int) ≠ 0 := by decide
  rw [heq]
  exact ⟨Iff.rfl, rfl, fun _ => ⟨rfl, rfl⟩, fun h => absurd h hfailed⟩

/-- A change that fails behind the modes. -/
theorem failed_right_iff (hleft : Left s t ctrl) {u : Ao424} {ret : Int} (hret : ret ≠ 0)
    (hodd : u.IsOdd ↔ t.IsOdd) (hnchan : u.nchanEnabled = t.nchanEnabled)
    (hencoded : u.encodedTwocmp = t.encodedTwocmp) :
    SpansRight s ret u ↔ s.NoMode ∧ u.dacCtrl = s.dacCtrl := by
  rw [← hleft.unchanged_iff, ← hodd, ← hencoded]
  constructor
  · intro h
    exact ⟨⟨h.odd, (h.failed hret).1⟩, (h.failed hret).2⟩
  · rintro ⟨⟨hodd', hencoded'⟩, hctrl⟩
    refine ⟨hodd', ?_, fun _ => ⟨hencoded', hctrl⟩, fun h => absurd h hret⟩
    rw [hnchan, hleft.nchan, if_neg]
    rw [← hodd', hodd]
    exact hleft.odd

theorem both_iff {n a e c : Prop} :
    (n ↔ a) ∧ (n ∨ e ∧ c ↔ a) ↔ (n ↔ a) ∧ (¬a → e → ¬c) := by
  tauto

/-- Without the mode of odd channels, what is counted is not all. -/
theorem Left.counted_iff (h : Left s t ctrl) {u : Ao424}
    (hnchan : u.nchanEnabled = t.nchanEnabled) (hspans : u.ao424Spans = t.ao424Spans) :
    (u.NoneUnipolar ↔ s.AllBipolar) ↔ (¬s.IsOdd →
      ((∀ ic < s.nchanEnabled, isUnipolar (s.ao424Spans ic) = false) ↔ s.AllBipolar)) := by
  unfold NoneUnipolar
  rw [hnchan, hspans, h.nchan, h.spans]
  by_cases hodd : s.IsOdd
  · rw [if_pos hodd]
    exact iff_of_true Iff.rfl fun hnot => absurd hodd hnot
  · rw [if_neg hodd]
    exact ⟨fun hiff _ => hiff, fun hiff => hiff hodd⟩

variable {u : Ao424} {odd : Bool}

theorem Left.done_encoded (h : Left s t ctrl) (hencoded : u.encodedTwocmp = t.encodedTwocmp) :
    (u.onSpansSet p ctrl odd).encodedTwocmp = 1 ↔ u.NoneUnipolar := by
  obtain ⟨-, -, hnone, hsome⟩ := onSpansSet_spec p u ctrl odd
  by_cases hall : u.NoneUnipolar
  · exact iff_of_true (hnone hall).1 hall
  · refine iff_of_false ?_ hall
    rw [(hsome hall).1, hencoded, h.encoded]
    split
    · decide
    · assumption

theorem Left.done_twocmp (h : Left s t ctrl) :
    (u.onSpansSet p ctrl odd).dacCtrl &&& twocmp ≠ 0 ↔
      u.NoneUnipolar ∨ s.encodedTwocmp ≠ 1 ∧ s.dacCtrl &&& twocmp ≠ 0 := by
  obtain ⟨-, -, hnone, hsome⟩ := onSpansSet_spec p u ctrl odd
  by_cases hall : u.NoneUnipolar
  · refine iff_of_true ?_ (.inl hall)
    rw [(hnone hall).2, set_and]
    decide
  · rw [(hsome hall).2, or_iff_right hall, h.ctrl]
    split
    · rename_i h1
      exact iff_of_false (not_not.mpr (clear_and _ _)) fun hne => hne.1 h1
    · rename_i h1
      exact (and_iff_right h1).symm

theorem Left.done_others (h : Left s t ctrl) :
    (u.onSpansSet p ctrl odd).dacCtrl &&& ~~~twocmp = s.dacCtrl &&& ~~~twocmp := by
  obtain ⟨-, -, hnone, hsome⟩ := onSpansSet_spec p u ctrl odd
  have hctrl : ctrl &&& ~~~twocmp = s.dacCtrl &&& ~~~twocmp := by
    rw [h.ctrl]
    split
    · exact clear_clear _ _
    · rfl
  by_cases hall : u.NoneUnipolar
  · rw [(hnone hall).2, set_clear, hctrl]
  · rw [(hsome hall).2, hctrl]

theorem done_right_iff (hleft : Left s t ctrl) (hodd : u.IsOdd ↔ t.IsOdd)
    (hnchan : u.nchanEnabled = t.nchanEnabled) (hspans : u.ao424Spans = t.ao424Spans)
    (hencoded : u.encodedTwocmp = t.encodedTwocmp) :
    SpansRight s 0 (u.onSpansSet p ctrl s.IsOdd) ↔ (s.IsOdd → s.nchanEnabled = 16) ∧
      (¬s.IsOdd → ((∀ ic < s.nchanEnabled, isUnipolar (s.ao424Spans ic) = false) ↔ s.AllBipolar)) ∧
      (¬s.AllBipolar → s.encodedTwocmp ≠ 1 → s.dacCtrl &&& twocmp = 0) := by
  obtain ⟨hodd', hnchan', -, -⟩ := onSpansSet_spec p u ctrl s.IsOdd
  rw [decide_eq_true_eq] at hodd'
  have hodds : (u.onSpansSet p ctrl s.IsOdd).IsOdd ↔ s.IsOdd := by
    rw [hodd', hodd, or_iff_left hleft.odd]
  have hchannels : (u.onSpansSet p ctrl s.IsOdd).nchanEnabled = s.nchanEnabled ↔
      (s.IsOdd → s.nchanEnabled = 16) := by
    rw [hnchan', hnchan, hleft.nchan]
    by_cases h : s.IsOdd
    · simp only [h, decide_true, if_true, true_imp_iff]
      exact eq_comm
    · simp [h]
  have hright : SpansRight s 0 (u.onSpansSet p ctrl s.IsOdd) ↔
      (u.onSpansSet p ctrl s.IsOdd).nchanEnabled = s.nchanEnabled ∧
        ((u.onSpansSet p ctrl s.IsOdd).encodedTwocmp = 1 ↔ s.AllBipolar) ∧
        ((u.onSpansSet p ctrl s.IsOdd).dacCtrl &&& twocmp ≠ 0 ↔ s.AllBipolar) :=
    ⟨fun h => ⟨h.nchan, (h.done rfl).1, (h.done rfl).2.1⟩,
      fun ⟨h1, h2, h3⟩ =>
        ⟨hodds, h1, fun h => absurd rfl h, fun _ => ⟨h2, h3, hleft.done_others⟩⟩⟩
  rw [hright, hchannels, hleft.done_encoded hencoded, hleft.done_twocmp, both_iff,
    hleft.counted_iff hnchan hspans]
  simp only [ne_eq, not_not]

/--
**A change of the spans leaves the modes right if and only if it is allowed.**  One that fails is
to have nothing to undo, and one that succeeds is to find the channels, the spans and the control
word as it takes them for granted.
-/
theorem setSpans_right_iff (p : Ao424Params) (swc : Nat → Bool) (s : Ao424) :
    SpansRight s (s.setSpans p swc).1 (s.setSpans p swc).2 ↔ Refused p s ∨ Allowed p swc s := by
  by_cases hrefused : Refused p s
  · exact iff_of_true (refused_right hrefused) (.inl hrefused)
  · rw [or_iff_right hrefused, setSpans_eq hrefused]
    have hleft := leave_left p s
    generalize (s.leave p).1 = t at *
    generalize (s.leave p).2 = ctrl at *
    obtain ⟨hrc, hodd, hnchan, hspans, hencoded, hctrl⟩ := setSpansCtrl_spec p swc t ctrl
    have hplaying : ctrl &&& dacEn ≠ 0 ∧ t.playloopLength > 0 ↔ s.Playing := by
      have hbit : ctrl &&& dacEn = s.dacCtrl &&& dacEn := by
        rw [hleft.ctrl]
        split
        · exact clear_and_of_apart (by decide) _
        · rfl
      rw [hbit, hleft.length]
      rfl
    by_cases hplay : s.Playing
    · rw [if_pos (hplaying.mpr hplay)]
      have hfailed : (-1 : Int) ≠ 0 := by decide
      rw [failed_right_iff hleft hfailed Iff.rfl rfl rfl, and_iff_left_of_imp hleft.dacCtrl]
      exact ⟨fun h => ⟨fun _ => h, fun hnot => absurd hplay hnot, fun hnot => absurd hplay hnot,
        fun hnot => absurd hplay hnot, fun hnot => absurd hplay hnot⟩, fun h => h.playing hplay⟩
    · rw [if_neg fun h => hplay (hplaying.mp h)]
      by_cases htime : InTime p swc
      · rw [if_pos (hrc.mpr htime)]
        dsimp only
        rw [hrc.mpr htime, done_right_iff hleft hodd hnchan hspans hencoded]
        exact ⟨fun ⟨h1, h2, h3⟩ => ⟨fun h => absurd h hplay, fun _ h => absurd htime h,
          fun _ _ => h1, fun _ _ => h2, fun _ _ => h3⟩,
          fun h => ⟨h.channels hplay htime, h.spans hplay htime, h.encoding hplay htime⟩⟩
      · have hret := fun h => htime (hrc.mp h)
        rw [if_neg hret, failed_right_iff hleft hret hodd hnchan hencoded, hctrl]
        have hprogram : s.NoMode → (program ctrl = s.dacCtrl ↔
            s.dacCtrl &&& programmed = moduleEn ||| fifoEn) := by
          intro hmode
          rw [hleft.ctrl, if_neg hmode.2]
          exact program_eq_iff s.dacCtrl
        rw [and_congr_right_iff.mpr hprogram]
        exact ⟨fun h => ⟨fun h' => absurd h' hplay, fun _ _ => h, fun _ h' => absurd h' htime,
          fun _ h' => absurd h' htime, fun _ h' => absurd h' htime⟩, fun h => h.late hplay htime⟩

/-- The parameters as they are by default. -/
def defaults : Ao424Params :=
  { allowSpansInOddsMode := true, measureAoFifoOk := false, setSpansTimeout := 10 }

/-- A module that plays in two's complement. -/
def twosComplement : Ao424 :=
  { dacCtrl := moduleEn ||| fifoEn ||| dacEn ||| twocmp, cgen := 0, dacIntCsr := 0, fifo := [],
    nchanEnabled := 32, taskActive := false, ao424Spans := fun _ => 3,
    ao424Initvals := fun _ => 0x8000, encodedTwocmp := 1, playloopLength := 1000 }

/-- A change that is refused because the module plays has left two's complement. -/
theorem playing_not_right :
    ¬SpansRight twosComplement (twosComplement.setSpans defaults fun _ => true).1
      (twosComplement.setSpans defaults fun _ => true).2 := by
  intro h
  exact absurd (h.failed (by decide)).1 (by decide)

end Ao424

end Acq400
