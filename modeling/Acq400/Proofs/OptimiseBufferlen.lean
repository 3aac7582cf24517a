/-
Which buffer length is made for a sample size.

The loop of `lcm` takes one number from the other.  It comes to an end, at the gcd, when both are
positive, and it does not when one is 0.  What is divided by the gcd has been formed in 32 bits: a
product that reaches the sign bit is seen, one that reaches beyond it is not, and one that comes out
at 0 is divided by.  So is the product of the sample size and the burst.
-/
import Acq400.Driver.OptimiseBufferlen
import Mathlib.Order.Bounds.Basic

namespace Acq400.OptimiseBufferlen

variable {par : Params} {buf : List Char} {fuel sampleSize burstLen : Nat}

/-! ### The loop -/

theorem lcmLoop_mono {n1 n2 g : Int} (h : lcmLoop fuel n1 n2 = some g) :
    ∀ k, lcmLoop (fuel + k) n1 n2 = some g := by
  intro k
  induction fuel generalizing n1 n2 with
  | zero => simp [lcmLoop] at h
  | succ fuel ih =>
      rw [Nat.succ_add]
      unfold lcmLoop at h ⊢
      split at h
      · rename_i heq
        rw [if_pos heq]
        exact h
      · rename_i hne
        rw [if_neg hne]
        split at h
        · rename_i hgt
          rw [if_pos hgt]
          exact ih h
        · rename_i hle
          rw [if_neg hle]
          exact ih h

/-- Every turn makes the sum smaller and keeps the gcd. -/
theorem lcmLoop_gcd (fuel : Nat) :
    ∀ a b : Nat, 0 < a → 0 < b → a < 2 ^ 31 → b < 2 ^ 31 → a + b ≤ fuel →
      lcmLoop fuel a b = some ((Nat.gcd a b : Nat) : Int) := by
  induction fuel with
  | zero =>
      intro a b ha _ _ _ hfuel
      omega
  | succ fuel ih =>
      intro a b ha hb ha' hb' hfuel
      unfold lcmLoop
      by_cases heq : a = b
      · rw [if_pos (by omega), heq, Nat.gcd_self]
      rw [if_neg (by omega)]
      by_cases hgt : a > b
      · rw [if_pos (by omega), ← Int.ofNat_sub (by omega), CInt.wrap_natCast (by omega),
          ih (a - b) b (by omega) hb (by omega) hb' (by omega), Nat.gcd_sub_self_left (by omega)]
      · rw [if_neg (by omega), ← Int.ofNat_sub (by omega), CInt.wrap_natCast (by omega),
          ih a (b - a) ha (by omega) ha' (by omega) (by omega), Nat.gcd_sub_self_right (by omega)]

/-- Nothing is taken away from the other number when one is 0. -/
theorem lcmLoop_zero {b : Nat} (hb : 0 < b) (hb' : b < 2 ^ 31) (fuel : Nat) :
    lcmLoop fuel 0 b = none := by
  induction fuel with
  | zero => rfl
  | succ fuel ih =>
      unfold lcmLoop
      rw [if_neg (by omega), if_neg (by omega), Int.sub_zero, CInt.wrap_natCast hb', ih]

theorem lcmLoop_eq_some {a b : Nat} (ha : 0 < a) (hb : 0 < b) (ha' : a < 2 ^ 31) (hb' : b < 2 ^ 31)
    {g : Int} (h : lcmLoop fuel a b = some g) : g = (Nat.gcd a b : Nat) := by
  have hmore := lcmLoop_mono h (a + b)
  rw [lcmLoop_gcd (fuel + (a + b)) a b ha hb ha' hb' (by omega)] at hmore
  exact (Option.some.inj hmore).symm

/-! ### The length for a size -/

/-- What of the buffers is not made use of when they are filled in units of `m`.  All of it is made
use of when there is no room for one. -/
def leftover (par : Params) (m : Nat) : Nat := if m ≤ par.bufferlen then par.bufferlen % m else 0

theorem leftover_le (par : Params) (m : Nat) : leftover par m ≤ par.bufferlen := by
  unfold leftover
  split
  · exact Nat.mod_le _ _
  · exact Nat.zero_le _

/-- The product of the size and the block, in 32 bits. -/
def product (par : Params) (size : Nat) : Nat := size * block par % 4294967296

/-- What is not made use of when the lcm is made from that product.  With the sign bit it is not
used. -/
def overSeen (par : Params) (size : Nat) : Nat :=
  if 2147483648 ≤ product par size then 0
  else leftover par (product par size / Nat.gcd size (block par))

theorem overSeen_le (par : Params) (size : Nat) : overSeen par size ≤ par.bufferlen := by
  unfold overSeen
  split
  · exact Nat.zero_le _
  · exact leftover_le par _

theorem block_cases (par : Params) : block par = 4096 ∨ block par = 16384 := by
  unfold block
  split
  · exact Or.inl rfl
  · exact Or.inr rfl

theorem gcd_dvd_word (par : Params) (size : Nat) :
    Nat.gcd size (block par) ∣ 4294967296 := by
  refine Nat.dvd_trans (Nat.gcd_dvd_right size (block par)) ?_
  rcases block_cases par with h | h
  · rw [h]
    decide
  · rw [h]
    decide

theorem gcd_dvd_product (par : Params) (size : Nat) :
    Nat.gcd size (block par) ∣ product par size := by
  have hprod : Nat.gcd size (block par) ∣ size * block par :=
    Nat.dvd_mul_right_of_dvd (Nat.gcd_dvd_left size (block par)) (block par)
  exact (Nat.dvd_mod_iff (gcd_dvd_word par size)).mpr hprod

theorem product_lt (par : Params) (size : Nat) : product par size < 4294967296 :=
  Nat.mod_lt _ (by decide)

theorem wrap_product (par : Params) (size : Nat) :
    CInt.wrap ((size : Int) * (block par : Nat)) =
      if 2147483648 ≤ product par size then (product par size : Int) - 4294967296
      else product par size := by
  have hmod : ((size : Int) * (block par : Nat)) % 4294967296 = product par size := by
    unfold product
    rw [Int.natCast_mod, Int.natCast_mul]
    rfl
  unfold CInt.wrap
  rw [Int.bmod_def]
  have hword : ((4294967296 : Nat) : Int) = 4294967296 := rfl
  rw [hword, hmod]
  have hlt := product_lt par size
  split
  · rw [if_neg (by omega)]
  · rw [if_pos (by omega)]

section size

variable {size : Nat}

theorem gcd_pos (hsize : 0 < size) : 0 < Nat.gcd size (block par) :=
  Nat.gcd_pos_of_pos_left _ hsize

/-- The length of `_store_optimise_bufferlen`, from the gcd on. -/
theorem newbl_eq (hsize : 0 < size) :
    ((CInt.div (CInt.wrap ((size : Int) * (block par : Nat))) (Nat.gcd size (block par) : Nat)).bind
        fun mindma => newbl par mindma) =
      if product par size = 0 then none
      else some ((par.bufferlen - overSeen par size : Nat) : Int) := by
  have hg : 0 < Nat.gcd size (block par) := gcd_pos hsize
  have hlt := product_lt par size
  have hdvd := gcd_dvd_product par size
  have hword := gcd_dvd_word par size
  rw [wrap_product]
  unfold overSeen
  generalize product par size = p at *
  generalize Nat.gcd size (block par) = g at *
  by_cases hsign : 2147483648 ≤ p
  · -- what is missing up to 2³² is a multiple of the gcd, and not 0
    obtain ⟨q, hq⟩ := Nat.dvd_sub hword hdvd
    have hqpos : 0 < q := by
      rcases Nat.eq_zero_or_pos q with hzero | hpos
      · rw [hzero] at hq
        omega
      · exact hpos
    have hminus : (p : Int) - 4294967296 = -((g * q : Nat) : Int) := by omega
    have hdiv : CInt.div ((p : Int) - 4294967296) g = some (-(q : Int)) := by
      unfold CInt.div
      rw [if_neg (by omega), hminus, Int.neg_tdiv, ← Int.ofNat_tdiv, Nat.mul_div_cancel_left q hg]
    have hroll : lcmRollover (-(q : Int)) = true := decide_eq_true (by omega)
    rw [if_pos hsign, if_pos hsign, if_neg (by omega), hdiv, Option.bind_some]
    unfold newbl
    rw [if_pos (Or.inl hroll), Nat.sub_zero]
  · rw [if_neg hsign, if_neg hsign, CInt.div_natCast p hg, Option.bind_some]
    by_cases hzero : p = 0
    · rw [if_pos hzero, hzero, Nat.zero_div]
      unfold newbl
      simp [lcmRollover]
    rw [if_neg hzero]
    have hpos : 0 < p / g := Nat.div_pos (Nat.le_of_dvd (Nat.pos_of_ne_zero hzero) hdvd) hg
    generalize p / g = m at *
    have hroll : ¬lcmRollover m = true := by
      unfold lcmRollover
      simp
    unfold newbl leftover
    by_cases hroom : m ≤ par.bufferlen
    · have hfit : ¬(lcmRollover m = true ∨ (m : Int) > par.bufferlen) :=
        not_or.mpr ⟨hroll, by omega⟩
      have hsum := Nat.div_add_mod' par.bufferlen m
      rw [if_neg hfit, if_pos hroom, CInt.div_natCast _ hpos, Option.map_some, ← Int.natCast_mul]
      congr 2
      omega
    · rw [if_pos (Or.inr (by omega)), if_neg hroom, Nat.sub_zero]

theorem optimise_eq_some (hsize : 0 < size) (hint : size < 2 ^ 31) {len : Int} :
    (∃ fuel st, optimise par fuel size = some st ∧ st.newbl = len) ↔
      product par size ≠ 0 ∧ len = ((par.bufferlen - overSeen par size : Nat) : Int) := by
  have hblock : 0 < block par ∧ block par < 2 ^ 31 := by
    rcases block_cases par with h | h
    · omega
    · omega
  have hlcm : ∀ fuel g, lcmLoop fuel size (block par : Nat) = some g →
      (lcm fuel size (block par : Nat)).bind (newbl par) =
        if product par size = 0 then none
        else some ((par.bufferlen - overSeen par size : Nat) : Int) := by
    intro fuel g hloop
    obtain rfl := lcmLoop_eq_some hsize hblock.1 hint hblock.2 hloop
    unfold lcm
    rw [hloop, Option.bind_some]
    exact newbl_eq hsize
  have hopt : ∀ fuel, optimise par fuel size =
      ((lcm fuel size (block par : Nat)).bind (newbl par)).map fun n =>
        { newbl := n, bufferlen := acq400SetBufferlen par n, axiDmaEngineData :=
            if par.isAcq480 then some (acq400SetAxiDmaLen n) else none } := by
    intro fuel
    unfold optimise
    rw [CInt.wrap_natCast hint]
    cases lcm fuel size (block par : Nat) with
    | none => rfl
    | some m =>
        cases h : newbl par m with
        | none => simp [h]
        | some n => simp [h]
  constructor
  · rintro ⟨fuel, st, hst, rfl⟩
    rw [hopt, Option.map_eq_some_iff] at hst
    obtain ⟨n, hn, rfl⟩ := hst
    have hloop : ∃ g, lcmLoop fuel size (block par : Nat) = some g := by
      rw [Option.bind_eq_some_iff] at hn
      obtain ⟨m, hm, -⟩ := hn
      unfold lcm at hm
      rw [Option.bind_eq_some_iff] at hm
      obtain ⟨g, hg, -⟩ := hm
      exact ⟨g, hg⟩
    obtain ⟨g, hg⟩ := hloop
    rw [hlcm fuel g hg] at hn
    split at hn
    · cases hn
    · rename_i hne
      exact ⟨hne, (Option.some.inj hn).symm⟩
  · rintro ⟨hne, rfl⟩
    have hloop := lcmLoop_gcd (size + block par) size (block par) hsize hblock.1 hint hblock.2
      (Nat.le_refl _)
    have hn := hlcm _ _ hloop
    rw [if_neg hne] at hn
    exact ⟨size + block par, _, by rw [hopt, hn]; rfl, rfl⟩

theorem optimise_zero (fuel : Nat) : optimise par fuel 0 = none := by
  have hloop : lcmLoop fuel 0 (block par : Nat) = none := by
    rcases block_cases par with h | h
    · rw [h]
      exact lcmLoop_zero (by decide) (by decide) fuel
    · rw [h]
      exact lcmLoop_zero (by decide) (by decide) fuel
  have hzero : CInt.wrap ((0 : Nat) : Int) = 0 := CInt.wrap_natCast (by decide)
  unfold optimise lcm
  rw [hzero, hloop]
  rfl

end size

/-! ### Which lengths are right -/

/-- The bytes of a burst, if a buffer has room for them, or of a sample. -/
def effectiveSize (par : Params) (sampleSize burstLen : Nat) : Nat :=
  if burstLen > 1 ∧ burstLen * sampleSize < par.bufferlen then burstLen * sampleSize else sampleSize

/-- The length holds as many units of the size and the block as there is room for in a buffer; it
is that of a buffer when there is no room for one. -/
def IsBest (par : Params) (size : Nat) (len : Int) : Prop :=
  ∃ n : Nat, len = n ∧
    if Nat.lcm size (block par) ≤ par.bufferlen then
      IsGreatest {m | Nat.lcm size (block par) ∣ m ∧ m ≤ par.bufferlen} n
    else n = par.bufferlen

theorem isGreatest_multiple (m n k : Nat) :
    IsGreatest {j | m ∣ j ∧ j ≤ n} k ↔ k = n - n % m := by
  have hsum := Nat.div_add_mod n m
  have hbest : IsGreatest {j | m ∣ j ∧ j ≤ n} (n - n % m) := by
    refine ⟨⟨⟨n / m, by omega⟩, Nat.sub_le n _⟩, ?_⟩
    rintro j ⟨⟨q, rfl⟩, hle⟩
    have hmul : m * q ≤ m * (n / m) := by
      rcases Nat.eq_zero_or_pos m with hzero | hpos
      · simp [hzero]
      · exact Nat.mul_le_mul_left m ((Nat.le_div_iff_mul_le hpos).mpr (by rwa [Nat.mul_comm]))
    omega
  constructor
  · intro h
    exact h.unique hbest
  · intro h
    rw [h]
    exact hbest

theorem isBest_iff {size : Nat} {len : Int} :
    IsBest par size len ↔
      len = ((par.bufferlen - leftover par (Nat.lcm size (block par)) : Nat) : Int) := by
  unfold IsBest leftover
  by_cases hroom : Nat.lcm size (block par) ≤ par.bufferlen
  · simp only [if_pos hroom, isGreatest_multiple, exists_eq_right]
  · simp only [if_neg hroom, exists_eq_right, Nat.sub_zero]

/-- The text is done with: a text with a size leaves the best length for it behind, and one
without a size is refused. -/
def Right (par : Params) (buf : List Char) : Prop :=
  ∃ fuel res, storeOptimiseBufferlen par fuel buf = some res ∧
    match scanSizes buf with
    | none => res = none
    | some (sampleSize, burstLen) =>
      ∃ st, res = some st ∧ IsBest par (effectiveSize par sampleSize burstLen) st.newbl

/-- The lcm of the size and the block is formed in 32 bits, from the size that the product with the
burst has there, or it is not and leaves as much of the buffers over by chance. -/
structure Harmless (par : Params) (sampleSize burstLen : Nat) : Prop where
  pos : 0 < burstSize par sampleSize burstLen
  int : burstSize par sampleSize burstLen < 2 ^ 31
  product : product par (burstSize par sampleSize burstLen) ≠ 0
  leftover : overSeen par (burstSize par sampleSize burstLen) =
    leftover par (Nat.lcm (effectiveSize par sampleSize burstLen) (block par))

theorem scanned_right_iff (h : scanSizes buf = some (sampleSize, burstLen)) :
    Right par buf ↔
      ∃ len, (∃ fuel st, optimise par fuel (burstSize par sampleSize burstLen) = some st ∧
          st.newbl = len) ∧
        IsBest par (effectiveSize par sampleSize burstLen) len := by
  unfold Right storeOptimiseBufferlen
  simp only [h]
  constructor
  · rintro ⟨fuel, res, hres, st, rfl, hbest⟩
    rw [Option.map_eq_some_iff] at hres
    obtain ⟨st', hst, hst'⟩ := hres
    obtain rfl := Option.some.inj hst'
    exact ⟨st'.newbl, ⟨fuel, st', hst, rfl⟩, hbest⟩
  · rintro ⟨len, ⟨fuel, st, hst, rfl⟩, hbest⟩
    exact ⟨fuel, some st, by rw [hst]; rfl, st, rfl, hbest⟩

/-- For a size that is 2³¹ at least, the loop takes from a negative number. -/
theorem right_iff_harmless (h : scanSizes buf = some (sampleSize, burstLen))
    (hint : burstSize par sampleSize burstLen < 2 ^ 31) :
    Right par buf ↔ Harmless par sampleSize burstLen := by
  rw [scanned_right_iff h]
  by_cases hpos : 0 < burstSize par sampleSize burstLen
  · simp only [optimise_eq_some hpos hint, isBest_iff]
    have hseen := overSeen_le par (burstSize par sampleSize burstLen)
    have hbest := leftover_le par (Nat.lcm (effectiveSize par sampleSize burstLen) (block par))
    constructor
    · rintro ⟨len, ⟨hne, rfl⟩, heq⟩
      exact ⟨hpos, hint, hne, by omega⟩
    · intro hharm
      exact ⟨_, ⟨hharm.product, rfl⟩, by rw [hharm.leftover]⟩
  · have hzero : burstSize par sampleSize burstLen = 0 := by omega
    refine iff_of_false ?_ fun hharm => hpos hharm.pos
    rintro ⟨len, ⟨fuel, st, hst, -⟩, -⟩
    rw [hzero, optimise_zero] at hst
    cases hst

theorem harmless_of_lt (hpos : 0 < sampleSize) (hburst : burstLen * sampleSize < 4294967296)
    (hsize : effectiveSize par sampleSize burstLen * block par < 2 ^ 31) :
    Harmless par sampleSize burstLen := by
  have heq : burstSize par sampleSize burstLen = effectiveSize par sampleSize burstLen := by
    unfold burstSize effectiveSize
    rw [Nat.mod_eq_of_lt hburst]
  have heff : 0 < effectiveSize par sampleSize burstLen := by
    unfold effectiveSize
    split
    · exact Nat.mul_pos (by omega) hpos
    · exact hpos
  have hblock : 0 < block par := by
    rcases block_cases par with h | h
    · omega
    · omega
  have hle : effectiveSize par sampleSize burstLen ≤
      effectiveSize par sampleSize burstLen * block par := Nat.le_mul_of_pos_right _ hblock
  have hmul := Nat.mul_pos heff hblock
  have hprod : product par (burstSize par sampleSize burstLen) =
      effectiveSize par sampleSize burstLen * block par := by
    unfold product
    rw [heq, Nat.mod_eq_of_lt (by omega)]
  refine ⟨by omega, by omega, by omega, ?_⟩
  unfold overSeen
  rw [if_neg (by omega), hprod, heq]
  rfl

/-- The text has a harmless size, if it has one. -/
def HarmlessText (par : Params) (buf : List Char) : Prop :=
  ∀ sampleSize burstLen, scanSizes buf = some (sampleSize, burstLen) →
    Harmless par sampleSize burstLen

/--
**The buffer length is the best one for every text with a harmless size, and for no other one of a
size below 2³¹.**
-/
theorem storeOptimiseBufferlen_right (par : Params) (buf : List Char) :
    (HarmlessText par buf → Right par buf) ∧
      ((∀ sampleSize burstLen, scanSizes buf = some (sampleSize, burstLen) →
          burstSize par sampleSize burstLen < 2 ^ 31) →
        Right par buf → HarmlessText par buf) := by
  constructor
  · intro hharm
    cases hscan : scanSizes buf with
    | none =>
        refine ⟨0, none, ?_, ?_⟩
        · unfold storeOptimiseBufferlen
          rw [hscan]
        · rw [hscan]
    | some sizes =>
        obtain ⟨sampleSize, burstLen⟩ := sizes
        have hone := hharm sampleSize burstLen hscan
        exact (right_iff_harmless hscan hone.int).mpr hone
  · intro hsmall hright sampleSize burstLen hscan
    exact (right_iff_harmless hscan (hsmall sampleSize burstLen hscan)).mp hright

/-- Buffers of a megabyte and blocks of a page. -/
def megabyte : Params := { bufferlen := 1048576, isAxi64 := true, isAcq480 := false }

/-- 96 channels of 4 bytes. -/
theorem storeOptimiseBufferlen_right_384 :
    HarmlessText megabyte "384".toList ∧ Right megabyte "384".toList := by
  have hscan : scanSizes "384".toList = some (384, 1) := by decide
  have hharm : HarmlessText megabyte "384".toList := by
    intro sampleSize burstLen h
    obtain ⟨rfl, rfl⟩ := Prod.mk.inj (Option.some.inj (hscan.symm.trans h))
    exact harmless_of_lt (by decide) (by decide) (by decide)
  exact ⟨hharm, (storeOptimiseBufferlen_right megabyte "384".toList).1 hharm⟩

/-- The loop of `lcm` does not come to its end for a sample of no bytes. -/
theorem no_bytes_not_right : ¬Right megabyte "0".toList := by
  have hscan : scanSizes "0".toList = some (0, 1) := by decide
  intro h
  have hharm := (right_iff_harmless hscan (by decide)).mp h
  exact absurd hharm.pos (by decide)

end Acq400.OptimiseBufferlen
