/-
When the sites trigger together.

The latches hold, in the bits of the masks, what the sites have signalled since the last
soft trigger, or signal now, as long as no bit is left over from before.  Only the first
site's latch is cleared after a soft trigger, and a site that does not signal keeps its
latch.
-/
import Acq400.Driver.Atd9802
import Mathlib.Algebra.BigOperators.Group.Finset.Basic

namespace Acq400

open WordBits

/-! ### What the trigger is to mean -/

/-- The site signals at this interrupt. -/
def AtdIrq.signals (irq : AtdIrq) (ii : Nat) : Prop := ii ∈ bits irq.siteId

instance (irq : AtdIrq) (ii : Nat) : Decidable (irq.signals ii) :=
  inferInstanceAs (Decidable (_ ∈ _))

/-- The trigger word of a site at this interrupt, zero if the site does not signal. -/
def AtdIrq.word (irq : AtdIrq) (ii : Nat) : BitVec 32 :=
  if irq.signals ii then irq.siteState ii else 0

/-- The condition of a group trigger, for the bits that each site has. -/
def GroupTrigger.Met (g : GroupTrigger) (status : Nat → Finset Nat) : Prop :=
  if g.groupFirstNTriggers = groupFirstNTriggersAll then
    (∃ ii < g.activeSites, (bits (g.groupTriggerMask ii)).Nonempty) ∧
      ∀ ii < g.activeSites, (bits (g.groupTriggerMask ii)).Nonempty →
        bits (g.groupTriggerMask ii) ⊆ status ii
  else
    g.groupFirstNTriggers ≤
      ∑ ii ∈ Finset.range g.activeSites, (status ii ∩ bits (g.groupTriggerMask ii)).card

/-- The bits that a site has signalled at any of the interrupts. -/
def sinceBits (since : List AtdIrq) (ii : Nat) : Finset Nat :=
  (Finset.range 32).filter fun b => ∃ irq ∈ since, b ∈ bits (irq.word ii)

/-- The bits of a site that count: those of now, or of all interrupts since the last soft
trigger. -/
def GroupRun.considered (g : GroupTrigger) (s : GroupRun) (irq : AtdIrq) (ii : Nat) : Finset Nat :=
  match g.gsmode with
  | .gsNow => bits (irq.word ii)
  | .gsHistoric => sinceBits (s.since ++ [irq]) ii

namespace GroupTrigger

variable {g : GroupTrigger}

/-! ### `is_group_trigger` -/

theorem countSetBits_eq (xx : BitVec 32) : countSetBits xx = (bits xx).card := countFrom_width xx

theorem groupLoop_all (hall : g.groupFirstNTriggers = groupFirstNTriggersAll)
    (latch : Nat → BitVec 32) (sites : List Nat) (isActive : Bool) (setBits : Nat) :
    (g.groupLoop latch sites isActive setBits).2 = setBits ∧
      ((g.groupLoop latch sites isActive setBits).1 = true ↔
        (isActive = true ∨ ∃ ii ∈ sites, g.groupTriggerMask ii ≠ 0) ∧
          ∀ ii ∈ sites, g.groupTriggerMask ii ≠ 0 →
            latch ii &&& g.groupTriggerMask ii = g.groupTriggerMask ii) := by
  induction sites generalizing isActive with
  | nil => simp [groupLoop]
  | cons ii sites ih =>
      simp only [groupLoop, hall, if_true]
      split_ifs with hmask hset
      · refine ⟨(ih true).1, ?_⟩
        rw [(ih true).2]
        simp only [List.mem_cons, forall_eq_or_imp, exists_eq_or_imp]
        tauto
      · refine ⟨rfl, ?_⟩
        simp only [List.mem_cons, forall_eq_or_imp]
        tauto
      · refine ⟨(ih isActive).1, ?_⟩
        rw [(ih isActive).2]
        simp only [List.mem_cons, forall_eq_or_imp, exists_eq_or_imp]
        tauto

theorem groupLoop_first (hfirst : g.groupFirstNTriggers ≠ groupFirstNTriggersAll)
    (latch : Nat → BitVec 32) (sites : List Nat) (isActive : Bool) (setBits : Nat) :
    g.groupLoop latch sites isActive setBits =
      (isActive, setBits +
        (sites.map fun ii => (bits (latch ii) ∩ bits (g.groupTriggerMask ii)).card).sum) := by
  induction sites generalizing setBits with
  | nil => rfl
  | cons ii sites ih =>
      simp only [groupLoop, List.map_cons, List.sum_cons, if_neg hfirst]
      split_ifs with hmask
      · rw [ih, countSetBits_eq, bits_and, Nat.add_assoc]
      · rw [ih, not_not.mp hmask, bits_zero, Finset.inter_empty, Finset.card_empty, Nat.zero_add]

/-- The condition looks at the bits of the masks only, at the active sites. -/
theorem met_congr {status status' : Nat → Finset Nat}
    (h : ∀ ii < g.activeSites,
      status ii ∩ bits (g.groupTriggerMask ii) = status' ii ∩ bits (g.groupTriggerMask ii)) :
    g.Met status ↔ g.Met status' := by
  unfold Met
  split_ifs
  · refine and_congr_right fun _ => ?_
    refine forall_congr' fun ii => forall_congr' fun hii => forall_congr' fun _ => ?_
    rw [← Finset.inter_eq_right, h ii hii, Finset.inter_eq_right]
  · rw [Finset.sum_congr rfl fun ii hii => by rw [h ii (Finset.mem_range.mp hii)]]

theorem isGroupTrigger_iff (latch : Nat → BitVec 32) :
    g.isGroupTrigger latch = true ↔ g.Met fun ii => bits (latch ii) := by
  unfold isGroupTrigger Met
  by_cases hall : g.groupFirstNTriggers = groupFirstNTriggersAll
  · obtain ⟨hcount, hactive⟩ := groupLoop_all hall latch (List.range g.activeSites) false 0
    have hmask : ∀ ii, (bits (g.groupTriggerMask ii)).Nonempty ↔ g.groupTriggerMask ii ≠ 0 := by
      intro ii
      rw [Finset.nonempty_iff_ne_empty, Ne, bits_eq_empty]
    rw [if_pos hall]
    simp only [hcount, Bool.or_eq_true, Bool.and_eq_true, decide_eq_true_eq, ne_eq,
      not_true_eq_false, false_and, or_false, hactive, List.mem_range, Bool.false_eq_true,
      false_or, hmask, and_eq_mask]
  · rw [if_neg hall, groupLoop_first hall]
    have hsum : ∑ ii ∈ Finset.range g.activeSites,
        (bits (latch ii) ∩ bits (g.groupTriggerMask ii)).card =
        ((List.range g.activeSites).map fun ii =>
          (bits (latch ii) ∩ bits (g.groupTriggerMask ii)).card).sum := rfl
    have hpos : 0 < g.groupFirstNTriggers := Nat.pos_of_ne_zero hall
    simp only [Bool.false_or, Bool.and_eq_true, decide_eq_true_eq, Nat.zero_add]
    rw [hsum]
    omega

end GroupTrigger

namespace Atd9802

variable {g : GroupTrigger}

/-! ### `dsp_atd_9802_isr` -/

/-- What a site has latched, after an interrupt. -/
def latched (g : GroupTrigger) (groupStatusLatch : Nat → BitVec 32) (irq : AtdIrq) (ii : Nat) :
    BitVec 32 :=
  if irq.signals ii then g.gsmode.latch (groupStatusLatch ii) (irq.siteState ii)
  else groupStatusLatch ii

/-- The loop reaches the sites from `ix` on whose bit is in the word that is shifted. -/
theorem siteLoop_latch (gsmode : GsMode) (siteState : Nat → BitVec 32) (n ix : Nat)
    (irqStat : BitVec 32) (adev : Atd9802) (allStat : Nat → BitVec 32) (jj : Nat) :
    (siteLoop gsmode siteState n ix irqStat adev allStat).1.groupStatusLatch jj =
      if ix ≤ jj ∧ jj < ix + n ∧ jj - ix ∈ bits irqStat then
        gsmode.latch (adev.groupStatusLatch jj) (siteState jj)
      else adev.groupStatusLatch jj := by
  induction n generalizing ix irqStat adev allStat with
  | zero =>
      rw [siteLoop, if_neg (by omega)]
  | succ n ih =>
      rw [siteLoop]
      by_cases hzero : irqStat = 0
      · rw [if_pos hzero, if_neg]
        rw [hzero, bits_zero]
        exact fun h => Finset.notMem_empty _ h.2.2
      rw [if_neg hzero]
      by_cases hsite : jj = ix
      · -- this site, which the loop does not come back to
        subst hsite
        split_ifs with hbit hin hin
        · rw [ih, if_neg (by omega)]
          simp only [latchSite, Function.update_self]
        · refine absurd ⟨Nat.le_refl jj, by omega, ?_⟩ hin
          rw [Nat.sub_self]
          exact and_one_ne_zero.mp hbit
        · rw [Nat.sub_self] at hin
          exact absurd (and_one_ne_zero.mpr hin.2.2) hbit
        · rw [ih, if_neg (by omega)]
      · have hnext : (ix + 1 ≤ jj ∧ jj < ix + 1 + n ∧ jj - (ix + 1) ∈ bits (irqStat >>> 1)) ↔
            (ix ≤ jj ∧ jj < ix + (n + 1) ∧ jj - ix ∈ bits irqStat) := by
          rw [mem_bits_shift]
          constructor
          · rintro ⟨hle, hlt, hbit⟩
            rw [show jj - (ix + 1) + 1 = jj - ix by omega] at hbit
            exact ⟨by omega, by omega, hbit⟩
          · rintro ⟨hle, hlt, hbit⟩
            rw [show jj - ix = jj - (ix + 1) + 1 by omega] at hbit
            exact ⟨by omega, by omega, hbit⟩
        have hother : (adev.latchSite gsmode ix (siteState ix)).groupStatusLatch jj =
            adev.groupStatusLatch jj := Function.update_of_ne hsite _ _
        split_ifs with hbit hin hin
        · rw [ih, if_pos (hnext.mpr hin), hother]
        · rw [ih, if_neg (mt hnext.mp hin), hother]
        · rw [ih, if_pos (hnext.mpr hin)]
        · rw [ih, if_neg (mt hnext.mp hin)]

theorem isrRecord_latch (adev : Atd9802) (irq : AtdIrq) {ii : Nat} (hii : ii < atdTrgMaxreg) :
    (adev.isrRecord g.gsmode irq).groupStatusLatch ii =
      latched g adev.groupStatusLatch irq ii := by
  have hloop : ∀ adev' : Atd9802, adev'.groupStatusLatch = adev.groupStatusLatch →
      (siteLoop g.gsmode irq.siteState atdTrgMaxreg 0 irq.siteId adev'
        fun _ => 0).1.groupStatusLatch ii = latched g adev.groupStatusLatch irq ii := by
    intro adev' hlatch
    rw [siteLoop_latch, latched, hlatch]
    by_cases hsignals : irq.signals ii
    · rw [if_pos hsignals, if_pos ⟨Nat.zero_le _, by omega, hsignals⟩]
    · rw [if_neg hsignals, if_neg fun h => hsignals h.2.2]
  cases hready : adev.clientReady with
  | true =>
      simp only [isrRecord, hready, if_true]
      exact hloop _ rfl
  | false =>
      simp only [isrRecord, hready, Bool.false_eq_true, if_false]
      exact hloop _ rfl

theorem isr_trigger (adev : Atd9802) (irq : AtdIrq) :
    (adev.isr g irq).2 = g.isGroupTrigger (adev.isrRecord g.gsmode irq).groupStatusLatch := by
  simp only [isr]
  split_ifs with h
  · exact h.symm
  · exact (Bool.eq_false_of_not_eq_true h).symm

theorem isr_latch {adev : Atd9802} {irq : AtdIrq} (h : (adev.isr g irq).2 = false) :
    (adev.isr g irq).1.groupStatusLatch = (adev.isrRecord g.gsmode irq).groupStatusLatch := by
  rw [isr_trigger] at h
  simp only [isr]
  rw [if_neg (by rw [h]; decide)]

end Atd9802

namespace GroupRun

variable {g : GroupTrigger}

/-! ### Run after run -/

/-- A site's latch is not left from before: it is written now, or the last soft trigger is not the
interrupt before. -/
def Renewed (g : GroupTrigger) (s : GroupRun) (irq : AtdIrq) (ii : Nat) : Prop :=
  match g.gsmode with
  | .gsNow => irq.signals ii
  | .gsHistoric => s.since.isEmpty = false

/-- No bit of a mask is left over, of a site that does not signal now or from before the last soft
trigger. -/
def Fresh (g : GroupTrigger) (s : GroupRun) (irq : AtdIrq) : Prop :=
  ∀ ii < g.activeSites,
    ¬s.Renewed g irq ii → s.adev.groupStatusLatch ii &&& g.groupTriggerMask ii = 0

instance (g : GroupTrigger) (s : GroupRun) (irq : AtdIrq) (ii : Nat) :
    Decidable (s.Renewed g irq ii) :=
  match g with
  | ⟨_, _, _, .gsNow⟩ => inferInstanceAs (Decidable (irq.signals ii))
  | ⟨_, _, _, .gsHistoric⟩ => inferInstanceAs (Decidable (s.since.isEmpty = false))

instance (g : GroupTrigger) (s : GroupRun) (irq : AtdIrq) : Decidable (s.Fresh g irq) :=
  inferInstanceAs (Decidable (∀ ii < g.activeSites, ¬s.Renewed g irq ii → _ = _))

theorem sinceBits_nil (ii : Nat) : sinceBits [] ii = ∅ := by
  simp [sinceBits]

theorem sinceBits_append (since : List AtdIrq) (irq : AtdIrq) (ii : Nat) :
    sinceBits (since ++ [irq]) ii = sinceBits since ii ∪ bits (irq.word ii) := by
  ext b
  have hlt : b ∈ bits (irq.word ii) → b < 32 := fun h => BitVec.lt_of_getLsbD (mem_bits.mp h)
  simp only [sinceBits, Finset.mem_filter, Finset.mem_range, Finset.mem_union, List.mem_append,
    List.mem_singleton]
  constructor
  · rintro ⟨hb, i, hi | rfl, hbit⟩
    · exact .inl ⟨hb, i, hi, hbit⟩
    · exact .inr hbit
  · rintro (⟨hb, i, hi, hbit⟩ | hbit)
    · exact ⟨hb, i, .inl hi, hbit⟩
    · exact ⟨hlt hbit, irq, .inr rfl, hbit⟩

/-- The latches hold what has been signalled since the last soft trigger. -/
def Tracks (g : GroupTrigger) (s : GroupRun) : Prop :=
  g.gsmode = .gsHistoric → s.since ≠ [] → ∀ ii < g.activeSites,
    bits (s.adev.groupStatusLatch ii) ∩ bits (g.groupTriggerMask ii) =
      sinceBits s.since ii ∩ bits (g.groupTriggerMask ii)

theorem mask_eq_zero {x m : BitVec 32} (h : x &&& m = 0) : bits x ∩ bits m = ∅ := by
  rw [← bits_and, h, bits_zero]

theorem latched_historic (hmode : g.gsmode = .gsHistoric) (latch : Nat → BitVec 32) (irq : AtdIrq)
    (ii : Nat) : bits (Atd9802.latched g latch irq ii) = bits (latch ii) ∪ bits (irq.word ii) := by
  unfold Atd9802.latched AtdIrq.word
  split_ifs
  · rw [hmode]
    exact bits_or _ _
  · rw [bits_zero, Finset.union_empty]

theorem latched_considered {s : GroupRun} {irq : AtdIrq} (htracks : s.Tracks g)
    (hfresh : s.Fresh g irq) {ii : Nat} (hii : ii < g.activeSites) :
    bits (Atd9802.latched g s.adev.groupStatusLatch irq ii) ∩ bits (g.groupTriggerMask ii) =
      s.considered g irq ii ∩ bits (g.groupTriggerMask ii) := by
  have hsite := hfresh ii hii
  unfold Renewed at hsite
  unfold considered
  cases hmode : g.gsmode with
  | gsNow =>
      rw [hmode] at hsite
      unfold Atd9802.latched AtdIrq.word
      by_cases hsignals : irq.signals ii
      · rw [if_pos hsignals, if_pos hsignals, hmode]
        rfl
      · rw [if_neg hsignals, if_neg hsignals, mask_eq_zero (hsite hsignals), bits_zero,
          Finset.empty_inter]
  | gsHistoric =>
      rw [hmode] at hsite
      have hbefore : bits (s.adev.groupStatusLatch ii) ∩ bits (g.groupTriggerMask ii) =
          sinceBits s.since ii ∩ bits (g.groupTriggerMask ii) := by
        by_cases hnone : s.since = []
        · rw [mask_eq_zero (hsite (by rw [hnone]; exact nofun)), hnone, sinceBits_nil,
            Finset.empty_inter]
        · exact htracks hmode hnone ii hii
      rw [latched_historic hmode, sinceBits_append, Finset.union_inter_distrib_right,
        Finset.union_inter_distrib_right, hbefore]

/-- At an interrupt with nothing left over, the trigger is as it is to be. -/
theorem isr_iff (hsites : g.activeSites ≤ atdTrgMaxreg) {s : GroupRun} {irq : AtdIrq}
    (htracks : s.Tracks g) (hfresh : s.Fresh g irq) :
    (s.adev.isr g irq).2 = true ↔ g.Met (s.considered g irq) := by
  rw [Atd9802.isr_trigger, GroupTrigger.isGroupTrigger_iff]
  refine GroupTrigger.met_congr ?_
  intro ii hii
  rw [Atd9802.isrRecord_latch s.adev irq (Nat.lt_of_lt_of_le hii hsites)]
  exact latched_considered htracks hfresh hii

theorem Tracks.step (hsites : g.activeSites ≤ atdTrgMaxreg) {s t : GroupRun} {irq : AtdIrq}
    (htracks : s.Tracks g) (hfresh : s.Fresh g irq) (ht : s.step g irq = some t) :
    t.Tracks g := by
  obtain rfl := Option.some.inj ht
  intro hmode hsome ii hii
  cases htrigger : (s.adev.isr g irq).2 with
  | true =>
      refine absurd ?_ hsome
      show (if (s.adev.isr g irq).2 = true then [] else s.since ++ [irq]) = []
      rw [if_pos htrigger]
  | false =>
      show bits ((s.adev.isr g irq).1.groupStatusLatch ii) ∩ _ =
        sinceBits (if (s.adev.isr g irq).2 = true then [] else s.since ++ [irq]) ii ∩ _
      have hnone : ¬(s.adev.isr g irq).2 = true := by
        rw [htrigger]
        decide
      rw [if_neg hnone, Atd9802.isr_latch htrigger,
        Atd9802.isrRecord_latch s.adev irq (Nat.lt_of_lt_of_le hii hsites),
        latched_considered htracks hfresh hii]
      unfold considered
      rw [hmode]

theorem init_tracks (adev : Atd9802) : (init adev).Tracks g := fun _ h => absurd rfl h

/-- **The soft trigger comes when the sites have triggered together**, at every interrupt of every
run in which no bit is left over. -/
theorem softTrigger_iff (g : GroupTrigger) (hsites : g.activeSites ≤ atdTrgMaxreg)
    (adev : Atd9802) (irqs : List AtdIrq) (irq : AtdIrq) {s : GroupRun}
    (hfresh : Lts.Meets (step g) (Fresh g) (init adev) (irqs ++ [irq]))
    (hrun : Lts.run (step g) (init adev) irqs = some s) :
    (s.adev.isr g irq).2 = true ↔ g.Met (s.considered g irq) := by
  have htracks : s.Tracks g :=
    Lts.run_invariant_of (fun s => s.Tracks g)
      (fun _ _ _ hs hf ht => Tracks.step hsites hs hf ht) irqs (init adev) s (init_tracks adev)
      hfresh.left hrun
  exact isr_iff hsites htracks (hfresh.right hrun).1

/-- Two sites, to trigger together. -/
def together (gsmode : GsMode) (mask : Nat → BitVec 32) : GroupTrigger :=
  { activeSites := 2
    groupTriggerMask := mask
    groupFirstNTriggers := groupFirstNTriggersAll
    gsmode := gsmode }

/-- Sites that signal, each with the one trigger word. -/
def signal (siteId word : BitVec 32) : AtdIrq :=
  { siteId := siteId, siteState := fun _ => word, aggSampleCount := 0, adcLatchCount := 0 }

def idle : Atd9802 :=
  { ints := 0
    clientReady := false
    status := fun _ => 0
    statusLatch := fun _ => 0
    groupStatusLatch := fun _ => 0
    sampleCount := 0
    latchCount := 0 }

/-- Two bits of the first site. -/
def firstSite : GroupTrigger := together .gsHistoric fun ii => if ii = 0 then 3 else 0

/-- They come one after the other, and again after the soft trigger. -/
theorem softTrigger_twice :
    ∃ s, Lts.run (step firstSite) (init idle) [signal 1 1, signal 1 2, signal 1 2] = some s ∧
      s.since.length = 1 ∧ firstSite.Met (s.considered firstSite (signal 1 1)) := by
  obtain ⟨s, hrun, h⟩ := Lts.exists_of_any (step firstSite) (init idle)
    [signal 1 1, signal 1 2, signal 1 2]
    (fun s => s.since.length = 1 ∧ (s.adev.isr firstSite (signal 1 1)).2 = true)
    (by decide)
  obtain ⟨hsince, htrigger⟩ := of_decide_eq_true h
  exact ⟨s, hrun, hsince, (softTrigger_iff firstSite (by decide) idle
    [signal 1 1, signal 1 2, signal 1 2] (signal 1 1) (by decide) hrun).mp htrigger⟩

/-- The second site's bit, of the time before the last soft trigger or of the interrupt before, is
still there when the first one signals alone. -/
theorem softTrigger_stale :
    (∃ s, Lts.run (step (together .gsHistoric fun _ => 1)) (init idle) [signal 3 1] = some s ∧
      (s.adev.isr (together .gsHistoric fun _ => 1) (signal 1 1)).2 = true ∧
      ¬(together .gsHistoric fun _ => 1).Met
        (s.considered (together .gsHistoric fun _ => 1) (signal 1 1))) ∧
    ∃ s, Lts.run (step (together .gsNow fun _ => 1)) (init idle) [signal 2 1] = some s ∧
      (s.adev.isr (together .gsNow fun _ => 1) (signal 1 1)).2 = true ∧
      ¬(together .gsNow fun _ => 1).Met
        (s.considered (together .gsNow fun _ => 1) (signal 1 1)) := by
  refine ⟨⟨_, rfl, by decide, ?_⟩, ⟨_, rfl, by decide, ?_⟩⟩
  · intro h
    exact absurd (h.2 1 (by decide) (by decide)) (by decide)
  · intro h
    exact absurd (h.2 1 (by decide) (by decide)) (by decide)

end GroupRun

end Acq400
