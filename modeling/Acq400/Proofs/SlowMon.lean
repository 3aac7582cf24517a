/-
What is written of the samples that are accumulated.

`Goal` is the monitor as it should be: it keeps the samples since the last record or the last change
of the setting.  The sums of a sampler are theirs for as long as no sample comes between a new
`G::nacc` and `clear_sums`, which drops it.  The sum of `nacc` samples is divided as it should be
where the division is signed; `unsigned`, a negative one is divided as if 2^32 were added, which is
right only for a power of two that divides it.
-/
import Acq400.Lib.Run
import Acq400.Stream.SlowMon
import Mathlib.Algebra.Order.Ring.Int
import Mathlib.Data.Nat.Prime.Basic

namespace Acq400

namespace SlowMon

variable {k : Kind} {ndata : Nat}

/-! ### One mean -/

/-- The terms are from `-bound` and below `bound`. -/
def Kind.bound : Kind → Int
  | .short => 2 ^ 15
  | .int => 2 ^ 23

theorem term_bound (data : BitVec k.width) : -k.bound ≤ k.term data ∧ k.term data < k.bound := by
  cases k with
  | short => exact ⟨BitVec.le_toInt data, BitVec.toInt_lt⟩
  | int =>
      have hlo := BitVec.le_toInt data
      have hhi := BitVec.toInt_lt (x := data)
      have hterm : Kind.int.term data = data.toInt / 2 ^ 8 := by
        show (data.sshiftRight 8).toInt = _
        rw [BitVec.toInt_sshiftRight, Int.shiftRight_eq_div_pow]
        rfl
      rw [hterm]
      show -(2 ^ 23) ≤ _ ∧ _ < 2 ^ 23
      have hlo : -(2 ^ 31 : Int) ≤ data.toInt := hlo
      have hhi : data.toInt < (2 ^ 31 : Int) := hhi
      omega

/-- `v` is the mean of `nacc` samples with a sum, of which the last one is `last`. -/
def Kind.IsMean : (k : Kind) → Int → Nat → BitVec k.width → BitVec k.width → Prop
  | .short, sum, nacc, _, v => v.toInt = sum.tdiv nacc
  | .int, sum, nacc, last, v =>
    (v.sshiftRight 8).toInt = sum.tdiv nacc ∧ v &&& 0xff = last &&& 0xff

/-- The sums that are divided as they should be. -/
def Kind.Exact : Kind → Int → Nat → Prop
  | .short, sum, nacc => 0 ≤ sum ∨ ((∃ j, nacc = 2 ^ j) ∧ (nacc : Int) ∣ sum)
  | .int, _, _ => True

theorem sub_div_add_div {n s : Nat} (hn : 0 < n) (hroom : s + n ≤ 2 ^ 32) :
    (2 ^ 32 - s) / n + s / n =
      if s % n ≤ 2 ^ 32 % n then 2 ^ 32 / n else 2 ^ 32 / n - 1 := by
  have hall := Nat.div_add_mod' (2 ^ 32) n
  have hs := Nat.div_add_mod' s n
  have hlt := Nat.mod_lt (2 ^ 32) hn
  have hlt' := Nat.mod_lt s hn
  generalize 2 ^ 32 / n = q at *
  generalize 2 ^ 32 % n = r at *
  generalize s / n = a at *
  generalize s % n = b at *
  have hless : a < q := by
    by_contra hge
    have := Nat.mul_le_mul_right n (Nat.le_of_not_lt hge)
    omega
  split
  · have hdiv : (2 ^ 32 - s) / n = q - a := by
      refine Nat.div_eq_of_lt_le ?_ ?_
      · rw [Nat.sub_mul]
        omega
      · have := Nat.mul_le_mul_right n hless.le
        rw [Nat.succ_mul, Nat.sub_mul]
        omega
    omega
  · have hnext : (a + 1) * n ≤ q * n := Nat.mul_le_mul_right n hless
    have hdiv : (2 ^ 32 - s) / n = q - (a + 1) := by
      refine Nat.div_eq_of_lt_le ?_ ?_
      · rw [Nat.sub_mul]
        rw [Nat.succ_mul] at hnext ⊢
        omega
      · rw [Nat.succ_mul, Nat.sub_mul]
        rw [Nat.succ_mul] at hnext ⊢
        omega
    omega

theorem isPow_iff {n : Nat} (hlarge : n ≤ 256) : n ∣ 2 ^ 32 ↔ ∃ j, n = 2 ^ j := by
  rw [Nat.dvd_prime_pow Nat.prime_two]
  constructor
  · rintro ⟨j, -, rfl⟩
    exact ⟨j, rfl⟩
  · rintro ⟨j, rfl⟩
    have hj : j ≤ 8 := (Nat.pow_le_pow_iff_right (by decide)).mp hlarge
    exact ⟨j, by omega, rfl⟩

/-- Of the numbers up to 256 only a power of two has 0 in the low bits of its quotient, and none has
1. -/
theorem quotient_low {n : Nat} (hn : 0 < n) (hlarge : n ≤ 256) :
    (2 ^ 16 ∣ 2 ^ 32 / n ↔ n ∣ 2 ^ 32) ∧ (2 ^ 16 ∣ 2 ^ 32 / n - 1 → False) := by
  have hall := Nat.div_add_mod (2 ^ 32) n
  have hlt := Nat.mod_lt (2 ^ 32) hn
  have hpos : 1 ≤ 2 ^ 32 / n := (Nat.one_le_div_iff hn).mpr (by omega)
  refine ⟨⟨fun hdvd => ?_, fun hdvd => ?_⟩, fun hdvd => ?_⟩
  · have hmul : 2 ^ 16 ∣ n * (2 ^ 32 / n) := Nat.dvd_trans hdvd (Nat.dvd_mul_left _ _)
    refine Nat.dvd_of_mod_eq_zero ?_
    omega
  · obtain ⟨j, rfl⟩ := (isPow_iff hlarge).mp hdvd
    have hj : j ≤ 8 := (Nat.pow_le_pow_iff_right (by decide)).mp hlarge
    rw [Nat.pow_div (by omega) (by decide)]
    exact Nat.pow_dvd_pow 2 (by omega)
  · have hmul : 2 ^ 16 ∣ n * (2 ^ 32 / n - 1) := Nat.dvd_trans hdvd (Nat.dvd_mul_left _ _)
    rw [Nat.mul_sub, Nat.mul_one] at hmul
    have hle := Nat.le_mul_of_pos_right n hpos
    omega

theorem bmod_eq_neg_iff {x a : Nat} (ha : a ≤ 2 ^ 15) :
    (x : Int).bmod (2 ^ 16) = -a ↔ 2 ^ 16 ∣ x + a := by
  rw [Int.bmod_def]
  split
  · omega
  · omega

/-- A negative sum is copied back as the mean only if a power of two divides it. -/
theorem copyBack_neg_iff {s n : Nat} (hn : 0 < n) (hlarge : n ≤ 256)
    (hle : s ≤ n * 2 ^ 15) :
    2 ^ 16 ∣ (2 ^ 32 - s) / n + s / n ↔ (∃ j, n = 2 ^ j) ∧ n ∣ s := by
  obtain ⟨hlow, hnot⟩ := quotient_low hn hlarge
  rw [sub_div_add_div hn (by omega), ← isPow_iff hlarge, ← hlow]
  split
  · rename_i hrest
    refine (and_iff_left_of_imp fun hdvd => ?_).symm
    rw [Nat.mod_eq_zero_of_dvd (hlow.mp hdvd)] at hrest
    exact Nat.dvd_of_mod_eq_zero (Nat.le_zero.mp hrest)
  · rename_i hrest
    refine iff_of_false hnot fun hboth => hrest ?_
    rw [Nat.mod_eq_zero_of_dvd hboth.2]
    exact Nat.zero_le _

theorem copyBack_short_iff {sum : Int} {n : Nat} (hn : 0 < n) (hlarge : n ≤ 256)
    (hlo : -(n * 2 ^ 15) ≤ sum) (hhi : sum ≤ n * (2 ^ 15 - 1)) (last : BitVec 16) :
    Kind.short.IsMean sum n last (Kind.short.copyBack sum n last) ↔ Kind.short.Exact sum n := by
  show (BitVec.ofInt 16 (CInt.unsigned sum / n)).toInt = sum.tdiv n ↔
    0 ≤ sum ∨ (∃ j, n = 2 ^ j) ∧ (n : Int) ∣ sum
  rw [BitVec.toInt_ofInt]
  rcases Int.eq_nat_or_neg sum with ⟨s, rfl | rfl⟩
  · have hnonneg := Int.natCast_nonneg (s / n)
    have hmean : s / n ≤ 2 ^ 15 - 1 := Nat.div_le_of_le_mul (by omega)
    refine iff_of_true ?_ (.inl (Int.natCast_nonneg s))
    rw [CInt.unsigned_natCast (by omega), ← Int.natCast_ediv, ← Int.ofNat_tdiv]
    exact Int.bmod_eq_of_le (by omega) (by omega)
  · rcases Nat.eq_zero_or_pos s with rfl | hs
    · refine iff_of_true ?_ (.inl (by omega))
      simp [CInt.unsigned]
    · have hmean : s / n ≤ 2 ^ 15 := Nat.div_le_of_le_mul (by omega)
      have hunsigned : CInt.unsigned (-s) = ((2 ^ 32 - s : Nat) : Int) := by
        unfold CInt.unsigned
        omega
      rw [hunsigned, ← Int.natCast_ediv, Int.neg_tdiv, ← Int.ofNat_tdiv, bmod_eq_neg_iff hmean,
        copyBack_neg_iff hn hlarge (by omega), or_iff_right (by omega), Int.dvd_neg,
        Int.natCast_dvd_natCast]

theorem toInt_upper {mean : Int} (hlo : -2 ^ 23 ≤ mean) (hhi : mean < 2 ^ 23) (last : BitVec 32) :
    ((BitVec.ofInt 32 mean <<< 8 ||| (last &&& 0xff)).sshiftRight 8).toInt = mean ∧
      (BitVec.ofInt 32 mean <<< 8 ||| (last &&& 0xff)) &&& 0xff = last &&& 0xff := by
  have hmask : ∀ x : BitVec 32, (x &&& 0xff).toNat = x.toNat % 2 ^ 8 := fun x =>
    Nat.and_two_pow_sub_one_eq_mod x.toNat 8
  have hlow := Nat.mod_lt last.toNat (show 0 < 2 ^ 8 by decide)
  have hmean : ((BitVec.ofInt 32 mean).toNat : Int) = mean % 2 ^ 32 := by
    rw [BitVec.toNat_ofInt]
    omega
  have hshift : (BitVec.ofInt 32 mean <<< 8).toNat =
      2 ^ 8 * ((BitVec.ofInt 32 mean).toNat % 2 ^ 24) := by
    rw [BitVec.toNat_shiftLeft, Nat.shiftLeft_eq]
    omega
  have hword : (BitVec.ofInt 32 mean <<< 8 ||| (last &&& 0xff)).toNat =
      2 ^ 8 * ((BitVec.ofInt 32 mean).toNat % 2 ^ 24) + last.toNat % 2 ^ 8 := by
    rw [BitVec.toNat_or, hshift, hmask, Nat.two_pow_add_eq_or_of_lt hlow]
  constructor
  · rw [BitVec.toInt_sshiftRight, Int.shiftRight_eq_div_pow, BitVec.toInt_eq_toNat_cond, hword]
    split
    · omega
    · omega
  · rw [← BitVec.toNat_inj, hmask, hmask, hword, Nat.mul_add_mod, Nat.mod_mod]

/-- Both are signed, and all the means have their places. -/
theorem copyBack_int {sum : Int} {n : Nat} (hlo : -(n * 2 ^ 23) ≤ sum)
    (hhi : sum ≤ n * (2 ^ 23 - 1)) (last : BitVec 32) :
    Kind.int.IsMean sum n last (Kind.int.copyBack sum n last) := by
  have hmean : -2 ^ 23 ≤ sum.tdiv n ∧ sum.tdiv n < 2 ^ 23 := by
    rcases Int.eq_nat_or_neg sum with ⟨s, rfl | rfl⟩
    · have hnonneg := Int.natCast_nonneg (s / n)
      have hle : s / n ≤ 2 ^ 23 - 1 := Nat.div_le_of_le_mul (by omega)
      rw [← Int.ofNat_tdiv]
      omega
    · have hnonneg := Int.natCast_nonneg (s / n)
      have hle : s / n ≤ 2 ^ 23 := Nat.div_le_of_le_mul (by omega)
      rw [Int.neg_tdiv, ← Int.ofNat_tdiv]
      omega
  exact toInt_upper hmean.1 hmean.2 last

/-- What is copied back is the mean if and only if the sum is exact. -/
theorem copyBack_isMean_iff {sum : Int} {n : Nat} (hn : 0 < n) (hlarge : n ≤ 256)
    (hlo : -(n * k.bound) ≤ sum) (hhi : sum ≤ n * (k.bound - 1)) (last : BitVec k.width) :
    k.IsMean sum n last (k.copyBack sum n last) ↔ k.Exact sum n := by
  cases k with
  | short => exact copyBack_short_iff hn hlarge hlo hhi last
  | int => exact iff_of_true (copyBack_int hlo hhi last) trivial

/-! ### The monitor as it should be -/

/-- What is to be written: a sample, or the mean of some. -/
inductive Due (k : Kind) (ndata : Nat)
  | raw (sample : Sample k ndata)
  | mean (samples : List (Sample k ndata))

/-- The setting, the samples since the last record or the last change of the setting, and what has
been due. -/
structure Goal (k : Kind) (ndata : Nat) where
  nacc : Nat
  samples : List (Sample k ndata)
  due : List (Due k ndata)

def Goal.next (g : Goal k ndata) : Act k ndata → Goal k ndata
  | .ui fs fin =>
    if g.nacc ≠ naccOf fs fin then { g with nacc := naccOf fs fin, samples := [] } else g
  | .onSample sample =>
    if g.nacc = 1 then { g with due := g.due ++ [.raw sample] }
    else if g.samples.length + 1 = g.nacc then
      { g with samples := [], due := g.due ++ [.mean (g.samples ++ [sample])] }
    else { g with samples := g.samples ++ [sample] }
  | _ => g

def Goal.start : Goal k ndata := { nacc := 1, samples := [], due := [] }

/-- The sum of one channel. -/
def channelSum (samples : List (Sample k ndata)) (c : Fin ndata) : Int :=
  (samples.map fun sample => k.term sample.data[c]).sum

/-- What has been written is what was due: the mean of sums that are `long`s, and the scratchpad of
the last sample. -/
def Due.Done : Due k ndata → Sample k ndata → Prop
  | .raw sample, out => out = sample
  | .mean samples, out => ∃ last, samples.getLast? = some last ∧ out.spad = last.spad ∧
      ∀ c : Fin ndata, CInt.InRange (channelSum samples c) ∧
        k.IsMean (channelSum samples c) samples.length last.data[c] out.data[c]

/-- In the state that the acts come to, what has been written is all that was due. -/
def Right (junk : Vector Int ndata) (acts : List (Act k ndata)) : Prop :=
  ∀ s, Lts.run step (start k junk) acts = some s →
    List.Forall₂ Due.Done (acts.foldl Goal.next Goal.start).due s.out ∧
      ∀ c, CInt.InRange (channelSum (acts.foldl Goal.next Goal.start).samples c)

/-- A setting that can be asked for. -/
def Setting : Act k ndata → Prop
  | .ui fs fin => naccOf fs fin ≤ 256
  | _ => True

/-- No sample to be accumulated comes between a new `G::nacc` and `clear_sums`, and the sums of a
record can be divided. -/
def Harmless (s : Mon k ndata) : Act k ndata → Prop
  | .onSample sample => s.nacc = 1 ∨
      ((∀ usec, s.pc ≠ .assigned usec) ∧ (s.sampler.isam + 1 = s.nacc →
        ∀ c : Fin ndata, k.Exact (s.sampler.sums[c] + k.term sample.data[c]) s.nacc))
  | _ => True

/-! ### Sums -/

theorem channelSum_append (samples : List (Sample k ndata)) (sample : Sample k ndata)
    (c : Fin ndata) :
    channelSum (samples ++ [sample]) c = channelSum samples c + k.term sample.data[c] := by
  unfold channelSum
  rw [List.map_append, List.sum_append, List.map_singleton, List.sum_singleton]

theorem channelSum_bound (samples : List (Sample k ndata)) (c : Fin ndata) :
    -(samples.length * k.bound) ≤ channelSum samples c ∧
      channelSum samples c ≤ samples.length * (k.bound - 1) := by
  induction samples using List.reverseRecOn with
  | nil => simp [channelSum]
  | append_singleton samples sample ih =>
      have hterm := term_bound sample.data[c]
      rw [channelSum_append, List.length_append, List.length_singleton]
      push_cast
      rw [Int.add_mul, Int.add_mul, Int.one_mul, Int.one_mul]
      omega

theorem channelSum_inRange {samples : List (Sample k ndata)} (hfew : samples.length ≤ 256)
    (c : Fin ndata) : CInt.InRange (channelSum samples c) := by
  have hbound := channelSum_bound samples c
  unfold CInt.InRange
  cases k with
  | short =>
      have hk : Kind.short.bound = 2 ^ 15 := rfl
      rw [hk] at hbound
      omega
  | int =>
      have hk : Kind.int.bound = 2 ^ 23 := rfl
      rw [hk] at hbound
      omega

/-! ### Every step -/

/-- The sampler has the sums of the samples that there are, unless it is still to be cleared. -/
structure Inv (s : Mon k ndata) (g : Goal k ndata) : Prop where
  nacc : s.nacc = g.nacc
  pos : 0 < g.nacc
  most : g.nacc ≤ 256
  done : List.Forall₂ Due.Done g.due s.out
  few : g.samples.length < g.nacc
  fresh : ∀ usec, s.pc = .assigned usec → g.samples = []
  sums : (∀ usec, s.pc ≠ .assigned usec) → g.nacc ≠ 1 →
    s.sampler.isam = g.samples.length ∧
      ∀ c : Fin ndata, s.sampler.sums[c] = channelSum g.samples c

variable {s s' : Mon k ndata} {g : Goal k ndata}

theorem inv_start (junk : Vector Int ndata) : Inv (start k junk) Goal.start where
  nacc := rfl
  pos := Nat.one_pos
  most := Nat.le_of_ble_eq_true rfl
  done := List.Forall₂.nil
  few := Nat.one_pos
  fresh := fun _ _ => rfl
  sums := fun _ h => absurd rfl h

theorem naccOf_pos (fs fin : Nat) : 0 < naccOf fs fin :=
  Nat.lt_of_lt_of_le Nat.one_pos (Nat.le_max_right _ _)

theorem ui_cases {fs fin : Nat} (hstep : step s (.ui fs fin) = some s') :
    s.pc = .pause ∧
      ((s.nacc ≠ naccOf fs fin ∧
          s' = { s with nacc := naccOf fs fin, pc := .assigned (usecOf fs fin) }) ∨
        (s.nacc = naccOf fs fin ∧ s' = { s with pc := .settled (usecOf fs fin) })) := by
  obtain ⟨hpc, hstep⟩ := Option.ite_none_right_eq_some.mp hstep
  refine ⟨hpc, ?_⟩
  by_cases hne : s.nacc ≠ naccOf fs fin
  · rw [if_pos hne] at hstep
    exact .inl ⟨hne, (Option.some.inj hstep).symm⟩
  · rw [if_neg hne] at hstep
    exact .inr ⟨not_not.mp hne, (Option.some.inj hstep).symm⟩

theorem clearSums_cases (hstep : step s .clearSums = some s') :
    ∃ usec, s.pc = .assigned usec ∧
      s' = { s with sampler := s.sampler.clearSums, pc := .settled usec } := by
  cases hpc : s.pc with
  | assigned usec =>
      simp only [step, hpc] at hstep
      exact ⟨usec, rfl, (Option.some.inj hstep).symm⟩
  | pause =>
      simp only [step, hpc] at hstep
      cases hstep
  | settled usec =>
      simp only [step, hpc] at hstep
      cases hstep

theorem alarm_cases (hstep : step s .alarm = some s') :
    ∃ usec, s.pc = .settled usec ∧
      s' = { s with usec := if usec ≠ s.usec then usec else s.usec, pc := .pause } := by
  cases hpc : s.pc with
  | settled usec =>
      simp only [step, hpc] at hstep
      exact ⟨usec, rfl, (Option.some.inj hstep).symm⟩
  | pause =>
      simp only [step, hpc] at hstep
      cases hstep
  | assigned usec =>
      simp only [step, hpc] at hstep
      cases hstep

theorem inv_ui (h : Inv s g) {fs fin : Nat} (hset : naccOf fs fin ≤ 256)
    (hstep : step s (.ui fs fin) = some s') : Inv s' (g.next (.ui fs fin)) := by
  obtain ⟨hpc, ⟨hne, rfl⟩ | ⟨heq, rfl⟩⟩ := ui_cases hstep
  · rw [h.nacc] at hne
    rw [Goal.next, if_pos hne]
    exact ⟨rfl, naccOf_pos fs fin, hset, h.done, naccOf_pos fs fin, fun _ _ => rfl,
      fun hnot => absurd rfl (hnot _)⟩
  · rw [h.nacc] at heq
    rw [Goal.next, if_neg (not_not.mpr heq)]
    refine ⟨h.nacc, h.pos, h.most, h.done, h.few, ?_, fun _ => h.sums ?_⟩
    · intro usec hc
      cases hc
    · intro usec hc
      rw [hpc] at hc
      cases hc

theorem inv_clearSums (h : Inv s g) (hstep : step s .clearSums = some s') : Inv s' g := by
  obtain ⟨usec, hpc, rfl⟩ := clearSums_cases hstep
  have hnone := h.fresh usec hpc
  refine ⟨h.nacc, h.pos, h.most, h.done, h.few, ?_, fun _ _ => ⟨?_, fun c => ?_⟩⟩
  · intro usec hc
    cases hc
  · rw [hnone]
    rfl
  · rw [hnone]
    exact Vector.getElem_replicate _

theorem inv_alarm (h : Inv s g) (hstep : step s .alarm = some s') : Inv s' g := by
  obtain ⟨usec, hpc, rfl⟩ := alarm_cases hstep
  refine ⟨h.nacc, h.pos, h.most, h.done, h.few, ?_, fun _ => h.sums ?_⟩
  · intro usec hc
    cases hc
  · intro usec hc
    rw [hpc] at hc
    cases hc

theorem sumUp_sums (p : Sampler ndata) {samples : List (Sample k ndata)} (sample : Sample k ndata)
    (copyBack : Bool) (nacc : Nat) (hfew : samples.length < 256)
    (hsums : ∀ c : Fin ndata, p.sums[c] = channelSum samples c) (c : Fin ndata) :
    (p.sumUp sample.data copyBack nacc).1.sums[c] = channelSum (samples ++ [sample]) c := by
  have hmore : (samples ++ [sample]).length ≤ 256 := by
    rw [List.length_append, List.length_singleton]
    omega
  have hrange := channelSum_inRange hmore c
  have hzip : (p.sumUp sample.data copyBack nacc).1.sums[c] =
      CInt.wrap (p.sums[c] + k.term sample.data[c]) := Vector.getElem_zipWith _
  rw [hzip, hsums, ← channelSum_append, CInt.wrap_of_inRange hrange]

/-- The elements that are copied back are the means. -/
theorem sumUp_isMean (p : Sampler ndata) {samples : List (Sample k ndata)} (sample : Sample k ndata)
    (hfew : samples.length < 256) (hsums : ∀ c : Fin ndata, p.sums[c] = channelSum samples c)
    (hexact : ∀ c : Fin ndata, k.Exact (p.sums[c] + k.term sample.data[c]) (samples.length + 1))
    (c : Fin ndata) :
    k.IsMean (channelSum (samples ++ [sample]) c) (samples.length + 1) sample.data[c]
      (p.sumUp sample.data true (samples.length + 1)).2[c] := by
  have hsum := sumUp_sums p sample true (samples.length + 1) hfew hsums c
  have hbound := channelSum_bound (samples ++ [sample]) c
  have hexact := hexact c
  rw [List.length_append, List.length_singleton] at hbound
  rw [hsums, ← channelSum_append] at hexact
  have hzip : (p.sumUp sample.data true (samples.length + 1)).2[c] =
      k.copyBack (p.sumUp sample.data true (samples.length + 1)).1.sums[c] (samples.length + 1)
        sample.data[c] := Vector.getElem_zipWith _
  rw [hzip, hsum]
  exact (copyBack_isMean_iff (Nat.succ_pos _) hfew hbound.1 hbound.2 _).mpr hexact

theorem onSample_eq (sample : Sample k ndata) (hne : s.nacc ≠ 1) :
    s.onSample sample =
      let p : Sampler ndata := { s.sampler with isam := (s.sampler.isam + 1) % 2 ^ 32 }
      if p.isam = s.nacc then
        { s with
          sampler := p.clearSums
          out := s.out ++ [{ sample with data := (p.sumUp sample.data true s.nacc).2 }] }
      else { s with sampler := (p.sumUp sample.data false s.nacc).1 } := by
  unfold Mon.onSample
  rw [if_neg hne]
  dsimp only
  by_cases hfull : (s.sampler.isam + 1) % 2 ^ 32 = s.nacc
  · rw [if_pos hfull, if_pos hfull, decide_eq_true hfull]
    rfl
  · rw [if_neg hfull, if_neg hfull, decide_eq_false hfull]

theorem inv_onSample (h : Inv s g) (sample : Sample k ndata)
    (hharmless : Harmless s (.onSample sample)) :
    Inv (s.onSample sample) (g.next (.onSample sample)) := by
  by_cases hone : g.nacc = 1
  · have hraw : List.Forall₂ Due.Done (g.due ++ [.raw sample]) (s.out ++ [sample]) :=
      List.rel_append h.done (List.Forall₂.cons rfl List.Forall₂.nil)
    rw [Mon.onSample, if_pos (h.nacc.trans hone), Goal.next, if_pos hone]
    exact ⟨h.nacc, h.pos, h.most, hraw, h.few, h.fresh, h.sums⟩
  · have hne : s.nacc ≠ 1 := fun h1 => hone (h.nacc.symm.trans h1)
    obtain ⟨hpc, hexact⟩ := hharmless.resolve_left hne
    obtain ⟨hisam, hsums⟩ := h.sums hpc hone
    have hfew : g.samples.length < 256 := Nat.lt_of_lt_of_le h.few h.most
    rw [onSample_eq sample hne, Goal.next, if_neg hone, hisam, Nat.mod_eq_of_lt (by omega), h.nacc]
    rw [hisam, h.nacc] at hexact
    dsimp only
    by_cases hfull : g.samples.length + 1 = g.nacc
    · rw [if_pos hfull, if_pos hfull]
      have hmean : Due.Done (.mean (g.samples ++ [sample]))
          { sample with data := (Sampler.sumUp { s.sampler with isam := g.samples.length + 1 }
            sample.data true g.nacc).2 } := by
        refine ⟨sample, List.getLast?_concat, rfl, fun c => ⟨channelSum_inRange ?_ c, ?_⟩⟩
        · rw [List.length_append, List.length_singleton]
          exact hfew
        · rw [List.length_append, List.length_singleton, ← hfull]
          rw [← hfull] at hexact
          exact sumUp_isMean _ sample hfew hsums (hexact rfl) c
      refine ⟨rfl, h.pos, h.most,
        List.rel_append h.done (List.Forall₂.cons hmean List.Forall₂.nil), h.pos,
        fun _ _ => rfl, fun _ _ => ⟨rfl, fun c => ?_⟩⟩
      exact Vector.getElem_replicate _
    · rw [if_neg hfull, if_neg hfull]
      have hmore : g.samples.length + 1 < g.nacc := Nat.lt_of_le_of_ne h.few hfull
      refine ⟨rfl, h.pos, h.most, h.done, ?_, fun usec hc => absurd hc (hpc usec),
        fun _ _ => ⟨?_, fun c => ?_⟩⟩
      · rw [List.length_append, List.length_singleton]
        exact hmore
      · rw [List.length_append, List.length_singleton]
        rfl
      · exact sumUp_sums _ sample false g.nacc hfew hsums c

/-- Every step that is harmless keeps the sums those of the samples. -/
theorem inv_step (h : Inv s g) {a : Act k ndata} (hset : Setting a) (hharmless : Harmless s a)
    (hstep : step s a = some s') : Inv s' (g.next a) := by
  cases a with
  | ui fs fin => exact inv_ui h hset hstep
  | clearSums => exact inv_clearSums h hstep
  | alarm => exact inv_alarm h hstep
  | onSample sample =>
      obtain rfl := Option.some.inj hstep
      exact inv_onSample h sample hharmless

theorem inv_run (acts : List (Act k ndata)) : ∀ {s s' : Mon k ndata} {g : Goal k ndata},
    Inv s g → Lts.Meets step (fun s a => Setting a ∧ Harmless s a) s acts →
      Lts.run step s acts = some s' → Inv s' (acts.foldl Goal.next g) := by
  induction acts with
  | nil =>
      intro s s' g h _ hrun
      obtain rfl := Option.some.inj hrun
      exact h
  | cons a acts ih =>
      intro s s' g h hmeets hrun
      obtain ⟨⟨hset, hharmless⟩, hrest⟩ := hmeets
      rw [Lts.run_cons, Option.bind_eq_some_iff] at hrun
      obtain ⟨t, ht, hrun⟩ := hrun
      exact ih (inv_step h hset hharmless ht) (hrest t ht) hrun

/--
**In a run of which all steps are harmless, what has been written is all that was due.**
-/
theorem right_of_harmless (junk : Vector Int ndata) (acts : List (Act k ndata))
    (hmeets : Lts.Meets step (fun s a => Setting a ∧ Harmless s a) (start k junk) acts) :
    Right junk acts := by
  intro s hrun
  have h := inv_run acts (inv_start junk) hmeets hrun
  refine ⟨h.done, channelSum_inRange ?_⟩
  exact Nat.le_trans (Nat.le_of_lt h.few) h.most

/-- One channel, and a scratchpad that counts. -/
def one (k : Kind) (data : BitVec k.width) (count : BitVec 32) : Sample k 1 where
  data := #v[data]
  spad := #v[count, 0, 0, 0]

/-- Three samples of one value, with a record due for as many. -/
def three (k : Kind) (data : BitVec k.width) : List (Act k 1) :=
  [.ui 1 3, .clearSums, .alarm, .onSample (one k data 1), .onSample (one k data 2),
    .onSample (one k data 3)]

theorem three_int_right : Right #v[77] (three .int (-256)) := by
  have hpause : ∀ usec, Pc.pause ≠ .assigned usec := by
    intro usec h
    cases h
  refine right_of_harmless _ _ ⟨⟨show naccOf 1 3 ≤ 256 by decide, trivial⟩, fun s hs => ?_⟩
  obtain rfl := Option.some.inj hs
  refine ⟨⟨trivial, trivial⟩, fun s hs => ?_⟩
  obtain rfl := Option.some.inj hs
  refine ⟨⟨trivial, trivial⟩, fun s hs => ?_⟩
  obtain rfl := Option.some.inj hs
  refine ⟨⟨trivial, .inr ⟨hpause, fun _ _ => trivial⟩⟩, fun s hs => ?_⟩
  obtain rfl := Option.some.inj hs
  refine ⟨⟨trivial, .inr ⟨hpause, fun _ _ => trivial⟩⟩, fun s hs => ?_⟩
  obtain rfl := Option.some.inj hs
  exact ⟨⟨trivial, .inr ⟨hpause, fun _ _ => trivial⟩⟩, fun _ _ => trivial⟩

/-- The mean of three times -1 is written as 21844. -/
theorem three_short_not_right : ¬Right #v[77] (three .short (-1)) := by
  intro hright
  have hrun : (Lts.run step (start .short #v[77]) (three .short (-1))).map (·.out) =
      some [one .short 21844 3] := by decide +kernel
  obtain ⟨s, hs, hout⟩ := Option.map_eq_some_iff.mp hrun
  have hdone := (hright s hs).1
  rw [hout] at hdone
  cases hdone with
  | cons hmean _ =>
      obtain ⟨last, -, -, hall⟩ := hmean
      have hmean : (21844 : BitVec 16).toInt = Int.tdiv (-3) 3 := (hall 0).2
      exact absurd hmean (by decide)

/-- A sample that comes before `clear_sums` is dropped, and no record is written for it and the
next. -/
example : ¬Right #v[0] [.ui 1 2, .onSample (one .int 0 1), .clearSums, .alarm,
    .onSample (one .int 0 2)] := by
  intro hright
  have hlength := (hright _ rfl).1.length_eq
  exact absurd hlength (by decide)

end SlowMon

end Acq400
