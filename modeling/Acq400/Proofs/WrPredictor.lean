/-
What the predictor of White Rabbit stamps does.

A stamp is an instant modulo 16 seconds, and the distance of two is what has to go by from the one
to the other.  In the weights `1` stands for 100 per cent: so the sum that is divided by a hundred
is `99 * dt` too small, modulo 2³², and the quotient is the right one just where that does not
reach the hundreds (`SameHundred`).  The test for the successor asks whether the second before has
a successor other than 0: so a stamp in any other second counts as one in the next, except that
second 15 has none.
-/
import Acq400.Driver.WrClient
import Acq400.Lib.Run
import Mathlib.Data.Nat.ModEq

namespace Acq400.WrTsPredictor

/-! ### Stamps as instants -/

/-- The second of a stamp. -/
def sec (w : UInt32) : Nat := w.toNat / 2 ^ 28

/-- Its tick. -/
def tick (w : UInt32) : Nat := w.toNat % 2 ^ 28

/-- The ticks since the last second 0. -/
def instant (tps : Nat) (w : UInt32) : Nat := sec w * tps + tick w

/-- The ticks from stamp `p` to stamp `c`. -/
def distance (tps : Nat) (p c : UInt32) : Nat :=
  (instant tps c + 16 * tps - instant tps p) % (16 * tps)

/-- `c` is in the second of `p` and no earlier, or in the next second. -/
def Follows (p c : UInt32) : Prop :=
  (sec c = sec p ∧ tick p ≤ tick c) ∨ sec c = (sec p + 1) % 16

variable {par : WrTsParams} {s : WrTsPredictor} {w ts : UInt32} {tps : Nat}

theorem sec_lt (w : UInt32) : sec w < 16 := by
  have := w.toNat_lt
  unfold sec
  omega

theorem toNat_wrtsSec (w : UInt32) : (wrtsSec w).toNat = sec w := by
  unfold wrtsSec sec
  rw [UInt32.toNat_shiftRight, Nat.shiftRight_eq_div_pow]
  rfl

theorem toNat_wrtsTick (w : UInt32) : (wrtsTick w).toNat = tick w := by
  unfold wrtsTick tick
  rw [UInt32.toNat_and]
  exact Nat.and_two_pow_sub_one_eq_mod w.toNat 28

theorem toNat_wrtsNextSec (s : UInt32) :
    (wrtsNextSec s).toNat = (s.toNat + 1) % 16 := by
  unfold wrtsNextSec
  rw [UInt32.toNat_and, UInt32.toNat_add]
  have hmask : (15 : UInt32).toNat = 2 ^ 4 - 1 := rfl
  have hone : (1 : UInt32).toNat = 1 := rfl
  rw [hmask, hone, Nat.and_two_pow_sub_one_eq_mod]
  omega

theorem toNat_mkWrts {s t : UInt32} (hs : s.toNat < 16) (ht : t.toNat < 2 ^ 28) :
    (mkWrts s t).toNat = s.toNat * 2 ^ 28 + t.toNat := by
  have hshift : (28 : UInt32).toNat % 32 = 28 := rfl
  unfold mkWrts
  rw [UInt32.toNat_or, UInt32.toNat_shiftLeft, hshift, Nat.shiftLeft_eq,
    Nat.mod_eq_of_lt (by omega), ← Nat.shiftLeft_eq, ← Nat.shiftLeft_add_eq_or_of_lt ht]

theorem sec_mkWrts {s t : UInt32} (hs : s.toNat < 16) (ht : t.toNat < 2 ^ 28) :
    sec (mkWrts s t) = s.toNat := by
  unfold sec
  rw [toNat_mkWrts hs ht]
  omega

theorem tick_mkWrts {s t : UInt32} (hs : s.toNat < 16) (ht : t.toNat < 2 ^ 28) :
    tick (mkWrts s t) = t.toNat := by
  unfold tick
  rw [toNat_mkWrts hs ht]
  omega

theorem distance_same (hsec : sec ts = sec w) (htick : tick w ≤ tick ts) (hts : tick ts < tps) :
    distance tps w ts = tick ts - tick w := by
  unfold distance instant
  rw [hsec]
  have : sec w * tps + tick ts + 16 * tps - (sec w * tps + tick w) =
      tick ts - tick w + 16 * tps := by omega
  rw [this, Nat.add_mod_right, Nat.mod_eq_of_lt (by omega)]

theorem distance_next (hsec : sec ts = (sec w + 1) % 16) (hw : tick w < tps) (hts : tick ts < tps) :
    distance tps w ts = tick ts + tps - tick w := by
  have hlt := sec_lt w
  unfold distance instant
  by_cases hlast : sec w = 15
  · rw [hsec, hlast]
    have : (15 + 1) % 16 * tps + tick ts + 16 * tps - (15 * tps + tick w) =
        tick ts + tps - tick w := by omega
    rw [this, Nat.mod_eq_of_lt (by omega)]
  · have hmul : (sec w + 1) * tps = sec w * tps + tps := Nat.succ_mul (sec w) tps
    have hnext : (sec w + 1) % 16 = sec w + 1 := Nat.mod_eq_of_lt (by omega)
    rw [hsec, hnext, hmul]
    have : sec w * tps + tps + tick ts + 16 * tps - (sec w * tps + tick w) =
        tick ts + tps - tick w + 16 * tps := by omega
    rw [this, Nat.add_mod_right, Nat.mod_eq_of_lt (by omega)]

/-! ### The weights -/

/-- A hundred times the average. -/
def weighted (pc dta dt : Nat) : Nat := dta * pc + dt * (100 - pc)

/-- The products are of 32 bits. -/
def Fits (pc dta dt : Nat) : Prop := dta * pc < 2 ^ 32 ∧ dt * (100 - pc) < 2 ^ 32

/-- `99 * dt` less, modulo 2³², has `n` the same hundreds. -/
def SameHundred (n dt : Nat) : Prop :=
  (99 * dt % 2 ^ 32 ≤ n % 100 ∧ n - 99 * dt % 2 ^ 32 < 2 ^ 32) ∨
    (2 ^ 32 - 99 * dt % 2 ^ 32 + n % 100 < 100 ∧ n + (2 ^ 32 - 99 * dt % 2 ^ 32) < 2 ^ 32)

/-- What is `99 * dt` too small has the quotient of `n` just if it has the same hundreds. -/
theorem div_eq_iff_sameHundred {m n dt : Nat} (hm : m < 2 ^ 32)
    (h : (m + 99 * dt) % 2 ^ 32 = n % 2 ^ 32) : m / 100 = n / 100 ↔ SameHundred n dt := by
  unfold SameHundred
  generalize hr : 99 * dt % 2 ^ 32 = r
  have hlt : r < 2 ^ 32 := by
    rw [← hr]
    exact Nat.mod_lt _ (by decide)
  have h' : (m + r) % 2 ^ 32 = n % 2 ^ 32 := by
    rw [← hr]
    omega
  clear h hr
  omega

theorem average_between {pc : Nat} (hpc : pc ≤ 100) (a b : Nat) :
    min a b ≤ weighted pc a b / 100 ∧ weighted pc a b / 100 ≤ max a b := by
  have hsplit : ∀ c : Nat, c * 100 = c * pc + c * (100 - pc) := by
    intro c
    rw [← Nat.mul_add, Nat.add_sub_cancel' hpc]
  have hlow := hsplit (min a b)
  have hhigh := hsplit (max a b)
  have h1 : min a b * pc ≤ a * pc := Nat.mul_le_mul_right _ (Nat.min_le_left a b)
  have h2 : min a b * (100 - pc) ≤ b * (100 - pc) := Nat.mul_le_mul_right _ (Nat.min_le_right a b)
  have h3 : a * pc ≤ max a b * pc := Nat.mul_le_mul_right _ (Nat.le_max_left a b)
  have h4 : b * (100 - pc) ≤ max a b * (100 - pc) :=
    Nat.mul_le_mul_right _ (Nat.le_max_right a b)
  unfold weighted
  omega

theorem toNat_ofInt_one_sub {pc : Nat} (hpc : pc ≤ 100) :
    ((UInt32.ofInt (1 - pc)).toNat + 99) % 2 ^ 32 = 100 - pc := by
  have hofInt : (UInt32.ofInt (1 - pc)).toNat = ((1 - pc : Int) % 2 ^ 32).toNat % 2 ^ 32 := rfl
  rw [hofInt]
  omega

theorem toNat_ofInt_coeff {pc : Nat} (hpc : pc ≤ 100) : (UInt32.ofInt pc).toNat = pc := by
  have hofInt : (UInt32.ofInt pc).toNat = ((pc : Int) % 2 ^ 32).toNat % 2 ^ 32 := rfl
  rw [hofInt]
  omega

theorem toNat_sum (dta d : UInt32) {pc : Nat} (hpc : pc ≤ 100) :
    ((dta * UInt32.ofInt pc + d * UInt32.ofInt (1 - pc)).toNat + 99 * d.toNat) % 2 ^ 32 =
      weighted pc dta.toNat d.toNat % 2 ^ 32 := by
  have hone := toNat_ofInt_one_sub hpc
  rw [UInt32.toNat_add, UInt32.toNat_mul, UInt32.toNat_mul, toNat_ofInt_coeff hpc]
  generalize (UInt32.ofInt (1 - pc)).toNat = c at hone ⊢
  have hweight : d.toNat * (c + 99) ≡ d.toNat * (100 - pc) [MOD 2 ^ 32] := by
    refine Nat.ModEq.mul_left _ ?_
    show (c + 99) % 2 ^ 32 = (100 - pc) % 2 ^ 32
    rw [hone, Nat.mod_eq_of_lt (by omega)]
  have hsum : dta.toNat * pc + d.toNat * (c + 99) ≡ weighted pc dta.toNat d.toNat [MOD 2 ^ 32] :=
    Nat.ModEq.add_left _ hweight
  have hexpand : dta.toNat * pc + d.toNat * (c + 99) =
      dta.toNat * pc + d.toNat * c + 99 * d.toNat := by
    rw [Nat.mul_add, Nat.mul_comm 99, Nat.add_assoc]
  rw [hexpand] at hsum
  rw [← hsum]
  omega

/-! ### A call -/

/-- What a call with stamp `ts` is to make of `s`. -/
structure CallRight (par : WrTsParams) (s s' : WrTsPredictor) (ts : UInt32) : Prop where
  tsP : s'.tsP = ts
  /-- The average, with the new distance, where the arithmetic is of 32 bits. -/
  dta : Follows s.tsP ts →
    Fits par.coeffPc.toNat s.dta.toNat (distance par.ticksPerSec s.tsP ts) →
    s'.dta.toNat =
        weighted par.coeffPc.toNat s.dta.toNat (distance par.ticksPerSec s.tsP ts) / 100 ∧
      min s.dta.toNat (distance par.ticksPerSec s.tsP ts) ≤ s'.dta.toNat ∧
      s'.dta.toNat ≤ max s.dta.toNat (distance par.ticksPerSec s.tsP ts)
  /-- The stamp that many ticks later. -/
  tsN : Follows s.tsP ts → s'.dta.toNat < par.ticksPerSec →
    tick s'.tsN < par.ticksPerSec ∧
      instant par.ticksPerSec s'.tsN =
        (instant par.ticksPerSec ts + s'.dta.toNat) % (16 * par.ticksPerSec)
  /-- Any other stamp is only remembered. -/
  kept : ¬Follows s.tsP ts → s'.dta = s.dta ∧ s'.tsN = s.tsN

/-- The weights do no harm, with this distance. -/
def Harmless (par : WrTsParams) (s : WrTsPredictor) (ts : UInt32) : Prop :=
  Fits par.coeffPc.toNat s.dta.toNat (distance par.ticksPerSec s.tsP ts) →
    SameHundred (weighted par.coeffPc.toNat s.dta.toNat (distance par.ticksPerSec s.tsP ts))
      (distance par.ticksPerSec s.tsP ts)

/-- A tick fits a stamp, and the stamp is in the same second and no earlier, or in the next one
with no wrap between, and the weights do no harm; or the second before was the last one, and the
stamp is not in it or in second 0. -/
def Foreseen (par : WrTsParams) (s : WrTsPredictor) (ts : UInt32) : Prop :=
  par.ticksPerSec ≤ 2 ^ 28 ∧
    ((sec ts = sec s.tsP ∧ tick s.tsP ≤ tick ts ∧ Harmless par s ts) ∨
      (sec ts = sec s.tsP + 1 ∧ Harmless par s ts) ∨
      (sec s.tsP = 15 ∧ sec ts ≠ 15 ∧ sec ts ≠ 0))

theorem wrtsSec_eq_iff {a b : UInt32} : wrtsSec a = wrtsSec b ↔ sec a = sec b := by
  rw [← UInt32.toNat_inj, toNat_wrtsSec, toNat_wrtsSec]

theorem wrtsNextSec_ne_zero_iff {a : UInt32} : wrtsNextSec (wrtsSec a) ≠ 0 ↔ sec a ≠ 15 := by
  have hlt := sec_lt a
  have hzero : (0 : UInt32).toNat = 0 := rfl
  rw [ne_eq, ne_eq, ← UInt32.toNat_inj, toNat_wrtsNextSec, toNat_wrtsSec, hzero]
  omega

theorem dt_same (par : WrTsParams) (hsec : sec ts = sec s.tsP) (htick : tick s.tsP ≤ tick ts)
    (hts : tick ts < par.ticksPerSec) :
    ∃ d, s.dt par ts = some d ∧ d.toNat = distance par.ticksPerSec s.tsP ts := by
  refine ⟨wrtsTick ts - wrtsTick s.tsP, if_pos (wrtsSec_eq_iff.mpr hsec.symm), ?_⟩
  rw [UInt32.toNat_sub_of_le _ _ (UInt32.le_iff_toNat_le.mpr ?_), toNat_wrtsTick, toNat_wrtsTick,
    distance_same hsec htick hts]
  rw [toNat_wrtsTick, toNat_wrtsTick]
  exact htick

theorem dt_next (par : WrTsParams) (htps : par.ticksPerSec ≤ 2 ^ 28) (hsec : sec ts = sec s.tsP + 1)
    (hp : tick s.tsP < par.ticksPerSec) (hts : tick ts < par.ticksPerSec) :
    ∃ d, s.dt par ts = some d ∧ d.toNat = distance par.ticksPerSec s.tsP ts := by
  have hlt := sec_lt ts
  have hother : ¬wrtsSec s.tsP = wrtsSec ts := by
    rw [wrtsSec_eq_iff]
    omega
  have hnext : wrtsNextSec (wrtsSec s.tsP) ≠ 0 := wrtsNextSec_ne_zero_iff.mpr (by omega)
  refine ⟨wrtsTick ts + UInt32.ofNat par.ticksPerSec - wrtsTick s.tsP, ?_, ?_⟩
  · exact (if_neg hother).trans (if_pos hnext)
  · have hsum : (wrtsTick ts + UInt32.ofNat par.ticksPerSec).toNat =
        tick ts + par.ticksPerSec := by
      rw [UInt32.toNat_add, toNat_wrtsTick, UInt32.toNat_ofNat']
      omega
    rw [UInt32.toNat_sub_of_le _ _ (UInt32.le_iff_toNat_le.mpr ?_), hsum, toNat_wrtsTick,
      distance_next (by omega) hp hts]
    rw [hsum, toNat_wrtsTick]
    omega

theorem dt_missed (hp : sec s.tsP = 15) (hsec : sec ts ≠ 15) : s.dt par ts = none := by
  have hother : ¬wrtsSec s.tsP = wrtsSec ts := by
    rw [wrtsSec_eq_iff]
    omega
  have hnext : ¬wrtsNextSec (wrtsSec s.tsP) ≠ 0 := fun h => wrtsNextSec_ne_zero_iff.mp h hp
  exact (if_neg hother).trans (if_neg hnext)

/-- `ts_n` for an average `dta`. -/
def next (par : WrTsParams) (ts dta : UInt32) : UInt32 :=
  if wrtsTick ts + dta < UInt32.ofNat par.ticksPerSec then
    mkWrts (wrtsSec ts) (wrtsTick ts + dta)
  else mkWrts (wrtsNextSec (wrtsSec ts)) (wrtsTick ts + dta - UInt32.ofNat par.ticksPerSec)

theorem next_spec (htps : par.ticksPerSec ≤ 2 ^ 28) (hts : tick ts < par.ticksPerSec) {dta : UInt32}
    (hdta : dta.toNat < par.ticksPerSec) :
    tick (next par ts dta) < par.ticksPerSec ∧
      instant par.ticksPerSec (next par ts dta) =
        (instant par.ticksPerSec ts + dta.toNat) % (16 * par.ticksPerSec) := by
  have hsec := sec_lt ts
  have hsum : (wrtsTick ts + dta).toNat = tick ts + dta.toNat := by
    rw [UInt32.toNat_add, toNat_wrtsTick]
    omega
  have hofNat : (UInt32.ofNat par.ticksPerSec).toNat = par.ticksPerSec := by
    rw [UInt32.toNat_ofNat']
    omega
  have hwhole : ∀ k, k < 16 → ∀ t, t < par.ticksPerSec →
      k * par.ticksPerSec + t < 16 * par.ticksPerSec := by
    intro k hk t ht
    have := Nat.mul_le_mul_right par.ticksPerSec (show k + 1 ≤ 16 from hk)
    rw [Nat.succ_mul] at this
    omega
  unfold next
  by_cases hlt : tick ts + dta.toNat < par.ticksPerSec
  · rw [if_pos (by rw [UInt32.lt_iff_toNat_lt, hsum, hofNat]; exact hlt)]
    have hs : (wrtsSec ts).toNat < 16 := by
      rw [toNat_wrtsSec]
      exact hsec
    have ht : (wrtsTick ts + dta).toNat < 2 ^ 28 := by omega
    unfold instant
    rw [tick_mkWrts hs ht, sec_mkWrts hs ht, hsum, toNat_wrtsSec, Nat.add_assoc]
    exact ⟨hlt, (Nat.mod_eq_of_lt (hwhole _ hsec _ hlt)).symm⟩
  · rw [if_neg (by rw [UInt32.lt_iff_toNat_lt, hsum, hofNat]; exact hlt)]
    have hs : (wrtsNextSec (wrtsSec ts)).toNat < 16 := by
      rw [toNat_wrtsNextSec]
      exact Nat.mod_lt _ (by decide)
    have hdiff : (wrtsTick ts + dta - UInt32.ofNat par.ticksPerSec).toNat =
        tick ts + dta.toNat - par.ticksPerSec := by
      rw [UInt32.toNat_sub_of_le _ _ (UInt32.le_iff_toNat_le.mpr (by omega)), hsum, hofNat]
    have ht : (wrtsTick ts + dta - UInt32.ofNat par.ticksPerSec).toNat < 2 ^ 28 := by omega
    unfold instant
    rw [tick_mkWrts hs ht, sec_mkWrts hs ht, hdiff, toNat_wrtsNextSec, toNat_wrtsSec]
    refine ⟨by omega, ?_⟩
    have htick : tick ts + dta.toNat - par.ticksPerSec < par.ticksPerSec := by omega
    by_cases hlast : sec ts = 15
    · rw [hlast]
      have : 15 * par.ticksPerSec + tick ts + dta.toNat =
          (15 + 1) % 16 * par.ticksPerSec + (tick ts + dta.toNat - par.ticksPerSec) +
            16 * par.ticksPerSec := by omega
      rw [this, Nat.add_mod_right, Nat.mod_eq_of_lt (hwhole 0 (by decide) _ htick)]
    · have hmod : (sec ts + 1) % 16 = sec ts + 1 := Nat.mod_eq_of_lt (by omega)
      have hmul : (sec ts + 1) * par.ticksPerSec = sec ts * par.ticksPerSec + par.ticksPerSec :=
        Nat.succ_mul _ _
      have : sec ts * par.ticksPerSec + tick ts + dta.toNat =
          (sec ts + 1) * par.ticksPerSec + (tick ts + dta.toNat - par.ticksPerSec) := by
        rw [hmul]
        omega
      rw [hmod, this, Nat.mod_eq_of_lt (hwhole _ (by omega) _ htick)]

theorem callRight_of_dt (hpc : 0 ≤ par.coeffPc ∧ par.coeffPc ≤ 100)
    (htps : par.ticksPerSec ≤ 2 ^ 28) (hts : tick ts < par.ticksPerSec) {d : UInt32}
    (hdt : s.dt par ts = some d) (hd : d.toNat = distance par.ticksPerSec s.tsP ts)
    (hfollows : Follows s.tsP ts) (hharmless : Harmless par s ts) :
    CallRight par s (s.wrStreamerTriggerAction par ts) ts := by
  obtain ⟨pc, hpc'⟩ := Int.eq_ofNat_of_zero_le hpc.1
  have hle : pc ≤ 100 := by omega
  have hcoeff : par.coeffPc.toNat = pc := by
    rw [hpc']
    rfl
  unfold WrTsPredictor.wrStreamerTriggerAction
  rw [hdt]
  refine ⟨rfl, ?_, ?_, fun h => absurd hfollows h⟩
  · intro _ hfits
    have hsame := hharmless hfits
    rw [hcoeff, ← hd] at hsame ⊢
    have hquot : ((s.dta * UInt32.ofInt par.coeffPc +
        d * UInt32.ofInt (1 - par.coeffPc)) / 100).toNat =
        weighted pc s.dta.toNat d.toNat / 100 := by
      rw [UInt32.toNat_div, hpc']
      exact (div_eq_iff_sameHundred (UInt32.toNat_lt _) (toNat_sum s.dta d hle)).mpr hsame
    dsimp only
    rw [hquot]
    exact ⟨rfl, average_between hle _ _⟩
  · intro _ hlt
    exact next_spec htps hts hlt

theorem Foreseen.callRight (h : Foreseen par s ts) (hpc : 0 ≤ par.coeffPc ∧ par.coeffPc ≤ 100)
    (hp : tick s.tsP < par.ticksPerSec) (hts : tick ts < par.ticksPerSec) :
    CallRight par s (s.wrStreamerTriggerAction par ts) ts := by
  have hlt := sec_lt ts
  obtain ⟨htps, ⟨hsec, htick, hharmless⟩ | ⟨hsec, hharmless⟩ | ⟨hlast, hnot, hzero⟩⟩ := h
  · obtain ⟨d, hdt, hd⟩ := dt_same par hsec htick hts
    exact callRight_of_dt hpc htps hts hdt hd (Or.inl ⟨hsec, htick⟩) hharmless
  · obtain ⟨d, hdt, hd⟩ := dt_next par htps hsec hp hts
    have hmod : sec ts = (sec s.tsP + 1) % 16 := by omega
    exact callRight_of_dt hpc htps hts hdt hd (Or.inr hmod) hharmless
  · unfold WrTsPredictor.wrStreamerTriggerAction
    rw [dt_missed hlast hnot]
    have hnone : ¬Follows s.tsP ts := by
      unfold Follows
      omega
    exact ⟨rfl, fun h => absurd h hnone, fun h => absurd h hnone, fun _ => ⟨rfl, rfl⟩⟩

/-- Where a call that takes the distance is right, the weights did no harm. -/
theorem CallRight.harmless (hpc : 0 ≤ par.coeffPc ∧ par.coeffPc ≤ 100) {d : UInt32}
    (h : CallRight par s (s.wrStreamerTriggerAction par ts) ts) (hfollows : Follows s.tsP ts)
    (hdt : s.dt par ts = some d) (hd : d.toNat = distance par.ticksPerSec s.tsP ts) :
    Harmless par s ts := by
  obtain ⟨pc, hpc'⟩ := Int.eq_ofNat_of_zero_le hpc.1
  have hle : pc ≤ 100 := by omega
  have hcoeff : par.coeffPc.toNat = pc := by
    rw [hpc']
    rfl
  intro hfits
  have hquot := (h.dta hfollows hfits).1
  unfold WrTsPredictor.wrStreamerTriggerAction at hquot
  rw [hdt] at hquot
  dsimp only at hquot
  rw [hcoeff, ← hd] at hquot ⊢
  rw [UInt32.toNat_div, hpc'] at hquot
  exact (div_eq_iff_sameHundred (UInt32.toNat_lt _) (toNat_sum s.dta d hle)).mp hquot

/-- A call that changes the prediction is right only where the condition allows it. -/
theorem CallRight.foreseen (hpc : 0 ≤ par.coeffPc ∧ par.coeffPc ≤ 100)
    (htps : par.ticksPerSec ≤ 2 ^ 28) (hp : tick s.tsP < par.ticksPerSec)
    (hts : tick ts < par.ticksPerSec)
    (h : CallRight par s (s.wrStreamerTriggerAction par ts) ts)
    (hchanged : (s.wrStreamerTriggerAction par ts).dta ≠ s.dta ∨
      (s.wrStreamerTriggerAction par ts).tsN ≠ s.tsN) : Foreseen par s ts := by
  have hlt := sec_lt s.tsP
  have hfollows : Follows s.tsP ts := by
    by_contra hnot
    obtain ⟨hdta, htsN⟩ := h.kept hnot
    exact hchanged.elim (absurd hdta) (absurd htsN)
  refine ⟨htps, ?_⟩
  rcases hfollows with ⟨hsec, htick⟩ | hsec
  · obtain ⟨d, hdt, hd⟩ := dt_same par hsec htick hts
    exact Or.inl ⟨hsec, htick, h.harmless hpc (Or.inl ⟨hsec, htick⟩) hdt hd⟩
  · by_cases hlast : sec s.tsP = 15
    · -- the successor of the last second is not taken for one
      have hnone : s.dt par ts = none := dt_missed hlast (by omega)
      unfold WrTsPredictor.wrStreamerTriggerAction at hchanged
      rw [hnone] at hchanged
      rcases hchanged with hdta | htsN
      · exact absurd rfl hdta
      · exact absurd rfl htsN
    · have hsucc : sec ts = sec s.tsP + 1 := by omega
      obtain ⟨d, hdt, hd⟩ := dt_next par htps hsucc hp hts
      exact Or.inr (Or.inl ⟨hsucc, h.harmless hpc (Or.inr hsec) hdt hd⟩)

/-! ### Runs -/

/-- A call, with a stamp whose tick is one. -/
def step (par : WrTsParams) (s : WrTsPredictor) (ts : UInt32) : Option WrTsPredictor :=
  if tick ts < par.ticksPerSec then some (s.wrStreamerTriggerAction par ts) else none

theorem step_eq_some {s' : WrTsPredictor} (h : step par s ts = some s') :
    tick ts < par.ticksPerSec ∧ s' = s.wrStreamerTriggerAction par ts := by
  unfold step at h
  by_cases hts : tick ts < par.ticksPerSec
  · rw [if_pos hts] at h
    exact ⟨hts, (Option.some.inj h).symm⟩
  · rw [if_neg hts] at h
    exact nomatch h

theorem tsP_action (par : WrTsParams) (s : WrTsPredictor) (ts : UInt32) :
    (s.wrStreamerTriggerAction par ts).tsP = ts := by
  unfold WrTsPredictor.wrStreamerTriggerAction
  dsimp only
  split
  · rfl
  · rfl

/--
**In a run whose calls all meet the condition every call is right; and a call that changes the
prediction is right nowhere else.**
-/
theorem wrStreamerTriggerAction_right (par : WrTsParams)
    (hpc : 0 ≤ par.coeffPc ∧ par.coeffPc ≤ 100) :
    (∀ (stamps : List UInt32) (s : WrTsPredictor), tick s.tsP < par.ticksPerSec →
      Lts.Meets (step par) (Foreseen par) s stamps →
      ∀ as ts bs s' s'', stamps = as ++ ts :: bs → Lts.run (step par) s as = some s' →
        step par s' ts = some s'' → CallRight par s' s'' ts) ∧
    ∀ (s : WrTsPredictor) (ts : UInt32), par.ticksPerSec ≤ 2 ^ 28 →
      tick s.tsP < par.ticksPerSec → tick ts < par.ticksPerSec →
      CallRight par s (s.wrStreamerTriggerAction par ts) ts →
      ((s.wrStreamerTriggerAction par ts).dta ≠ s.dta ∨
        (s.wrStreamerTriggerAction par ts).tsN ≠ s.tsN) → Foreseen par s ts := by
  refine ⟨?_, fun s ts htps hp hts h hchanged => h.foreseen hpc htps hp hts hchanged⟩
  intro stamps s hstart hmeets as ts bs s' s'' hsplit hrun hstep
  have hkept : ∀ s a s', tick s.tsP < par.ticksPerSec → step par s a = some s' →
      tick s'.tsP < par.ticksPerSec := by
    intro s a s' _ h
    obtain ⟨ha, rfl⟩ := step_eq_some h
    rw [tsP_action]
    exact ha
  have hp : tick s'.tsP < par.ticksPerSec := Lts.run_invariant _ hkept as s s' hstart hrun
  rw [hsplit] at hmeets
  obtain ⟨hts, rfl⟩ := step_eq_some hstep
  exact (hmeets.right hrun).1.callRight hpc hp hts

/-- The parameters as they are unless they are set. -/
def nominal : WrTsParams := { ticksPerSec := 40000000, coeffPc := 80 }

/-- With another weight, a stamp in second 3 behind one in second 15, and one that is a tick later:
the average falls from 82 to 64. -/
theorem wrStreamerTriggerAction_right_tick :
    ∃ s, Lts.run (step ⟨40000000, 79⟩) ⟨82, 0xf0000000, 0⟩ [0x30000064] = some s ∧
      (s.wrStreamerTriggerAction ⟨40000000, 79⟩ 0x30000065).dta = 64 ∧
      CallRight ⟨40000000, 79⟩ s (s.wrStreamerTriggerAction ⟨40000000, 79⟩ 0x30000065)
        0x30000065 := by
  refine ⟨⟨82, 0x30000064, 0⟩, by decide, by decide, ?_⟩
  have hfirst : Foreseen ⟨40000000, 79⟩ ⟨82, 0xf0000000, 0⟩ 0x30000064 :=
    ⟨by decide, Or.inr (Or.inr (by decide))⟩
  have hnext : Foreseen ⟨40000000, 79⟩ ⟨82, 0x30000064, 0⟩ 0x30000065 :=
    ⟨by decide, Or.inl ⟨by decide, by decide, fun _ => Or.inl (by decide)⟩⟩
  refine (wrStreamerTriggerAction_right ⟨40000000, 79⟩ (by decide)).1 [0x30000064, 0x30000065]
    ⟨82, 0xf0000000, 0⟩ (by decide) ?_ [0x30000064] 0x30000065 [] _ _ rfl (by decide)
    (by decide)
  refine ⟨hfirst, fun s hs => ⟨?_, fun _ _ => trivial⟩⟩
  obtain rfl : s = ⟨82, 0x30000064, 0⟩ := (step_eq_some hs).2.trans (by decide)
  exact hnext

/-- A steady distance of 1000 ticks, and the average falls to 10. -/
theorem steady_not_right :
    ¬CallRight nominal ⟨1000, 0, 0⟩
      (WrTsPredictor.wrStreamerTriggerAction nominal ⟨1000, 0, 0⟩ 1000) 1000 := by
  intro h
  have hdta := (h.dta (Or.inl ⟨by decide, by decide⟩) ⟨by decide, by decide⟩).1
  exact absurd hdta (by decide)

end Acq400.WrTsPredictor
