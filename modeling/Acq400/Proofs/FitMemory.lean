/-
Whether `pre` and `post` fit into the buffers.

Each turn of the constructor's loop takes half a buffer of samples from `pre` and from
`post`.  As long as there are as many, after `i` turns the size is `sizeAfter i`; what the
loop compares is its remainder modulo 2^32 with that of the limit.  So the loop leaves
what fits if there is room for every turn up to the one that stops it, and the size there
is not one that has only wrapped to a small number.
-/
import Acq400.Stream.StreamHeadPrePost
import Mathlib.Tactic.SplitIfs

namespace Acq400.StreamHeadPrePost.Sizes

variable {z : Sizes} {pre post i j : Nat}

/-- `samples_buffer/2`. -/
def half (z : Sizes) : Nat := z.samplesBuffer / 2

/-- The true size after `i` turns, with room for each. -/
def sizeAfter (z : Sizes) (pre post i : Nat) : Nat :=
  (pre - i * z.half + (post - i * z.half)) * z.sampleSize

/-- Turn `j` is the first one with a size, modulo 2^32, that is not over the limit. -/
def StopsAt (z : Sizes) (pre post j : Nat) : Prop :=
  (∀ i < j, z.totalBufferLimit < z.sizeAfter pre post i % 2 ^ 32) ∧
    z.sizeAfter pre post j % 2 ^ 32 ≤ z.totalBufferLimit

/-- Half a buffer can be taken `j` times, or is taken until nothing is left. -/
def HasRoom (z : Sizes) (x j : Nat) : Prop := j ≤ x / z.half ∨ z.half ∣ x

/-- The loop ends, has never gone below zero, and what it leaves fits. -/
def Fits (z : Sizes) (pre post : Nat) : Prop :=
  ∃ fuel f, z.fit fuel { pre := pre, post := post, wrapped := false } = some f ∧
    f.wrapped = false ∧ f.pre ≤ pre ∧ f.post ≤ post ∧
    (f.pre + f.post) * z.sampleSize ≤ z.nbuffers * z.bufferlen

/-! ### One turn -/

/-- `pre` and `post` after `i` turns. -/
def after (z : Sizes) (pre post i : Nat) : Fitting :=
  { pre := pre - i * z.half, post := post - i * z.half, wrapped := false }

theorem size_after (i : Nat) : z.size (z.after pre post i) = z.sizeAfter pre post i % 2 ^ 32 := by
  unfold size after sizeAfter
  rw [Nat.mod_mul_mod]

theorem minusHalf_eq {x : Nat} (hx : x < 2 ^ 32) (hhalf : z.half < 2 ^ 31) (hroom : z.half ≤ x) :
    z.minusHalf x = x - z.half := by
  unfold minusHalf
  unfold half at hhalf hroom ⊢
  rw [show x + (2 ^ 32 - z.samplesBuffer / 2) = x - z.samplesBuffer / 2 + 2 ^ 32 by omega,
    Nat.add_mod_right, Nat.mod_eq_of_lt (by omega)]

/-- The room for turn `i`. -/
def RoomAt (z : Sizes) (x i : Nat) : Prop := x - i * z.half = 0 ∨ z.half ≤ x - i * z.half

theorem reduce_after (hpre : pre < 2 ^ 32) (hpost : post < 2 ^ 32) (hhalf : z.half < 2 ^ 31)
    (hroom : z.RoomAt pre i) (hroom' : z.RoomAt post i) :
    z.reduce (z.after pre post i) = z.after pre post (i + 1) := by
  have hsucc : (i + 1) * z.half = i * z.half + z.half := Nat.succ_mul i _
  have hminus : ∀ x < 2 ^ 32, z.RoomAt x i →
      (if x - i * z.half ≠ 0 then z.minusHalf (x - i * z.half) else x - i * z.half) =
        x - (i + 1) * z.half := by
    intro x hx hat
    unfold RoomAt at hat
    split
    · rw [minusHalf_eq (by omega) hhalf (by omega)]
      omega
    · omega
  unfold RoomAt at hroom hroom'
  unfold reduce after
  dsimp only
  rw [hminus pre hpre hroom, hminus post hpost hroom']
  unfold half at *
  rw [decide_eq_false (by omega)]
  rfl

theorem reduce_wrapped (hroom : ¬ (z.RoomAt pre i ∧ z.RoomAt post i)) :
    (z.reduce (z.after pre post i)).wrapped = true := by
  unfold RoomAt half at hroom
  unfold reduce after half
  dsimp only
  rw [decide_eq_true (by omega)]
  rfl

/-! ### The loop -/

theorem hasRoom_iff {x : Nat} (hpos : 0 < z.half) :
    z.HasRoom x j ↔ ∀ i < j, z.RoomAt x i := by
  have hdiv := Nat.div_add_mod x z.half
  rw [Nat.mul_comm] at hdiv
  have hlt := Nat.mod_lt x hpos
  unfold HasRoom RoomAt
  constructor
  · rintro hroom i hi
    rcases hroom with hle | ⟨q, rfl⟩
    · have hmul : (i + 1) * z.half ≤ x / z.half * z.half := Nat.mul_le_mul_right _ (by omega)
      rw [Nat.succ_mul] at hmul
      exact Or.inr (by omega)
    · rw [Nat.mul_comm z.half q]
      rcases Nat.lt_or_ge i q with hiq | hqi
      · have hmul : (i + 1) * z.half ≤ q * z.half := Nat.mul_le_mul_right _ hiq
        rw [Nat.succ_mul] at hmul
        exact Or.inr (by omega)
      · have hmul : q * z.half ≤ i * z.half := Nat.mul_le_mul_right _ hqi
        exact Or.inl (by omega)
  · intro hall
    by_contra hno
    rw [not_or, Nat.not_le, Nat.dvd_iff_mod_eq_zero] at hno
    rcases hall (x / z.half) hno.1 with hzero | hge
    · omega
    · omega

theorem fit_wrapped : ∀ {fuel : Nat} {f f' : Fitting}, f.wrapped = true →
    z.fit fuel f = some f' → f'.wrapped = true := by
  intro fuel
  induction fuel with
  | zero => intro f f' _ hfit; cases hfit
  | succ fuel ih =>
      intro f f' hwrapped hfit
      unfold fit at hfit
      split at hfit
      · refine ih ?_ hfit
        unfold reduce
        rw [hwrapped]
        rfl
      · obtain rfl := Option.some.inj hfit
        exact hwrapped

theorem stops_of_fit (hpre : pre < 2 ^ 32) (hpost : post < 2 ^ 32) (hhalf : z.half < 2 ^ 31) :
    ∀ {fuel i : Nat} {f : Fitting}, z.fit fuel (z.after pre post i) = some f →
      f.wrapped = false →
      ∃ j, f = z.after pre post j ∧ z.sizeAfter pre post j % 2 ^ 32 ≤ z.totalBufferLimit ∧
        ∀ t, i ≤ t → t < j → z.totalBufferLimit < z.sizeAfter pre post t % 2 ^ 32 ∧
          z.RoomAt pre t ∧ z.RoomAt post t := by
  intro fuel
  induction fuel with
  | zero => intro i f hfit _; cases hfit
  | succ fuel ih =>
      intro i f hfit hwrapped
      unfold fit at hfit
      rw [size_after] at hfit
      split at hfit
      · rename_i hlarge
        by_cases hroom : z.RoomAt pre i ∧ z.RoomAt post i
        · rw [reduce_after hpre hpost hhalf hroom.1 hroom.2] at hfit
          obtain ⟨j, hf, hstop, hbefore⟩ := ih hfit hwrapped
          refine ⟨j, hf, hstop, ?_⟩
          intro t hit htj
          rcases Nat.eq_or_lt_of_le hit with rfl | hlt
          · exact ⟨hlarge, hroom⟩
          · exact hbefore t hlt htj
        · rw [fit_wrapped (reduce_wrapped hroom) hfit] at hwrapped
          cases hwrapped
      · rename_i hsmall
        obtain rfl := Option.some.inj hfit
        exact ⟨i, rfl, Nat.le_of_not_lt hsmall, fun t hit hti => by omega⟩

theorem fit_of_stops (hpre : pre < 2 ^ 32) (hpost : post < 2 ^ 32) (hhalf : z.half < 2 ^ 31)
    {stop : Nat} (hstops : z.StopsAt pre post stop) (hroom : ∀ i < stop, z.RoomAt pre i)
    (hroom' : ∀ i < stop, z.RoomAt post i) :
    ∀ {j i : Nat}, i + j = stop →
      z.fit (j + 1) (z.after pre post i) = some (z.after pre post stop) := by
  intro j
  induction j with
  | zero =>
      intro i hi
      obtain rfl : i = stop := hi
      unfold fit
      rw [size_after, if_neg (Nat.not_lt.mpr hstops.2)]
  | succ j ih =>
      intro i hi
      unfold fit
      rw [size_after, if_pos (hstops.1 i (by omega)),
        reduce_after hpre hpost hhalf (hroom i (by omega)) (hroom' i (by omega))]
      exact ih (by omega)

theorem after_zero (z : Sizes) (pre post : Nat) :
    z.after pre post 0 = { pre := pre, post := post, wrapped := false } := by
  unfold after
  rw [Nat.zero_mul, Nat.sub_zero, Nat.sub_zero]

/-- What the constructor leaves fits exactly if it stops at a size that does. -/
theorem fits_iff_stops (hpre : pre < 2 ^ 32) (hpost : post < 2 ^ 32) (htwo : 2 ≤ z.samplesBuffer)
    (hint : z.samplesBuffer < 2 ^ 31) :
    z.Fits pre post ↔ ∃ j, z.StopsAt pre post j ∧ z.HasRoom pre j ∧ z.HasRoom post j ∧
      z.sizeAfter pre post j ≤ z.nbuffers * z.bufferlen := by
  have hpos : 0 < z.half := Nat.div_pos htwo (by decide)
  have hhalf : z.half < 2 ^ 31 := Nat.lt_of_le_of_lt (Nat.div_le_self _ _) hint
  unfold Fits
  rw [← after_zero z]
  constructor
  · rintro ⟨fuel, f, hfit, hwrapped, _, _, hfits⟩
    obtain ⟨j, rfl, hstop, hbefore⟩ := stops_of_fit hpre hpost hhalf hfit hwrapped
    refine ⟨j, ⟨fun i hi => (hbefore i (Nat.zero_le i) hi).1, hstop⟩, ?_, ?_, hfits⟩
    · exact (hasRoom_iff hpos).mpr fun i hi => (hbefore i (Nat.zero_le i) hi).2.1
    · exact (hasRoom_iff hpos).mpr fun i hi => (hbefore i (Nat.zero_le i) hi).2.2
  · rintro ⟨j, hstops, hroom, hroom', hfits⟩
    refine ⟨j + 1, z.after pre post j, ?_, rfl, Nat.sub_le _ _, Nat.sub_le _ _, hfits⟩
    exact fit_of_stops hpre hpost hhalf hstops ((hasRoom_iff hpos).mp hroom)
      ((hasRoom_iff hpos).mp hroom') (Nat.zero_add j)

/-! ### Memories of less than 2^32 bytes -/

theorem sizeAfter_zero (z : Sizes) (pre post : Nat) :
    z.sizeAfter pre post 0 = (pre + post) * z.sampleSize := by
  unfold sizeAfter
  rw [Nat.zero_mul, Nat.sub_zero, Nat.sub_zero]

theorem sizeAfter_succ (z : Sizes) (pre post i : Nat) :
    z.sizeAfter pre post (i + 1) ≤ z.sizeAfter pre post i ∧
      z.sizeAfter pre post i ≤ z.sizeAfter pre post (i + 1) + z.bufferlen := by
  have hsucc : (i + 1) * z.half = i * z.half + z.half := Nat.succ_mul i _
  have hbuffer : 2 * z.half * z.sampleSize ≤ z.bufferlen := by
    have htwice : 2 * z.half ≤ z.samplesBuffer := by
      unfold half
      omega
    exact Nat.le_trans (Nat.mul_le_mul_right _ htwice) (Nat.div_mul_le_self _ _)
  constructor
  · exact Nat.mul_le_mul_right _ (by omega)
  · refine Nat.le_trans (Nat.mul_le_mul_right z.sampleSize (m := pre - (i + 1) * z.half +
      (post - (i + 1) * z.half) + 2 * z.half) (by omega)) ?_
    rw [Nat.add_mul]
    exact Nat.add_le_add_left hbuffer _

theorem sizeAfter_le (z : Sizes) (pre post i : Nat) :
    z.sizeAfter pre post i ≤ (pre + post) * z.sampleSize := by
  refine Nat.mul_le_mul_right _ ?_
  omega

theorem small_of_stops (hbuffers : 0 < z.nbuffers) (hmem : z.nbuffers * z.bufferlen < 2 ^ 32)
    (hstops : z.StopsAt pre post j) (hfits : z.sizeAfter pre post j ≤ z.nbuffers * z.bufferlen) :
    (pre + post) * z.sampleSize < 2 ^ 32 := by
  have hbuffer : z.bufferlen ≤ z.nbuffers * z.bufferlen := Nat.le_mul_of_pos_left _ hbuffers
  have hlimit : z.totalBufferLimit = z.nbuffers * z.bufferlen := Nat.mod_eq_of_lt hmem
  have hsmall : ∀ i, i ≤ j → z.sizeAfter pre post (j - i) < 2 ^ 32 := by
    intro i
    induction i with
    | zero =>
        intro _
        rw [Nat.sub_zero]
        omega
    | succ i ih =>
        intro hi
        have hnext := ih (by omega)
        by_contra hlarge
        obtain ⟨-, hstep⟩ := sizeAfter_succ z pre post (j - (i + 1))
        rw [show j - (i + 1) + 1 = j - i by omega] at hstep
        have hover := hstops.1 (j - (i + 1)) (by omega)
        rw [hlimit, Nat.mod_eq_sub_mod (by omega), Nat.mod_eq_of_lt (by omega)] at hover
        omega
  have hzero := hsmall j (Nat.le_refl j)
  rwa [Nat.sub_self, sizeAfter_zero] at hzero

/-- **The constructor leaves what fits exactly if each turn has room and the loop is not stopped
by a size that has wrapped: in a memory of less than 2^32 bytes, if what is asked for is less than
2^32 bytes.** -/
theorem fits_iff (hpre : pre < 2 ^ 32) (hpost : post < 2 ^ 32) (htwo : 2 ≤ z.samplesBuffer)
    (hint : z.samplesBuffer < 2 ^ 31) :
    (z.Fits pre post ↔ ∃ j, z.StopsAt pre post j ∧ z.HasRoom pre j ∧ z.HasRoom post j ∧
      z.sizeAfter pre post j ≤ z.nbuffers * z.bufferlen) ∧
    (0 < z.nbuffers → z.nbuffers * z.bufferlen < 2 ^ 32 →
      (z.Fits pre post ↔ (pre + post) * z.sampleSize < 2 ^ 32 ∧
        ∃ j, (∀ i < j, z.nbuffers * z.bufferlen < z.sizeAfter pre post i) ∧
          z.sizeAfter pre post j ≤ z.nbuffers * z.bufferlen ∧
          z.HasRoom pre j ∧ z.HasRoom post j)) := by
  have hgeneral := fits_iff_stops hpre hpost htwo hint
  refine ⟨hgeneral, ?_⟩
  intro hbuffers hmem
  have hlimit : z.totalBufferLimit = z.nbuffers * z.bufferlen := Nat.mod_eq_of_lt hmem
  have hmod : (pre + post) * z.sampleSize < 2 ^ 32 →
      ∀ i, z.sizeAfter pre post i % 2 ^ 32 = z.sizeAfter pre post i :=
    fun hsmall i => Nat.mod_eq_of_lt (Nat.lt_of_le_of_lt (sizeAfter_le z pre post i) hsmall)
  rw [hgeneral]
  constructor
  · rintro ⟨j, hstops, hroom, hroom', hfits⟩
    have hsmall := small_of_stops hbuffers hmem hstops hfits
    refine ⟨hsmall, j, ?_, hfits, hroom, hroom'⟩
    intro i hi
    have hover := hstops.1 i hi
    rwa [hmod hsmall, hlimit] at hover
  · rintro ⟨hsmall, j, hbefore, hfits, hroom, hroom'⟩
    refine ⟨j, ⟨?_, ?_⟩, hroom, hroom', hfits⟩
    · intro i hi
      rw [hmod hsmall, hlimit]
      exact hbefore i hi
    · rw [hmod hsmall, hlimit]
      exact hfits

/-- 512 buffers of a megabyte, and samples of 128 bytes. -/
def halfGigabyte : Sizes where
  sampleSize := 128
  bufferlen := 0x100000
  nbuffers := 512

/-- Where `pre` and `post` are both large, one turn is enough. -/
theorem halfGigabyte_fits : halfGigabyte.Fits 2100000 2100000 := by
  refine (fits_iff (by decide) (by decide) (by decide) (by decide)).1.mpr ⟨1, ⟨?_, ?_⟩, ?_⟩
  · intro i hi
    obtain rfl : i = 0 := by omega
    decide
  · decide
  · exact ⟨Or.inl (by decide), Or.inl (by decide), by decide⟩

/-- A small `pre` with a large `post` goes below zero in the first turn. -/
theorem halfGigabyte_wraps : ¬ halfGigabyte.Fits 100 8000000 := by
  intro hfits
  obtain ⟨j, hstops, hroom, -⟩ :=
    (fits_iff_stops (by decide) (by decide) (by decide) (by decide)).mp hfits
  cases j with
  | zero => exact absurd hstops.2 (by decide)
  | succ j =>
      rcases hroom with hle | hdvd
      · rw [show 100 / halfGigabyte.half = 0 from rfl] at hle
        omega
      · exact absurd hdvd (by decide)

end Acq400.StreamHeadPrePost.Sizes
