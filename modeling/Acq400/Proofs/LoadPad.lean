/-
The buffers of a padded shot go out in pairs.

The loader rounds the shot up to whole buffers by bytes, and the worker counts buffers
of `bl/ss` samples each.  A buffer has room for `bl%ss` bytes more, and where enough of
these make whole samples the worker counts further buffers for them.
-/
import Acq400.Awg.LoadPad
import Acq400.Awg.XoDataLoop
import Acq400.Proofs.LoadByBuffer
import Mathlib.Algebra.Group.Int.Even

namespace Acq400

namespace LoadPrams

variable (g : LoadPrams)

/-- `ao_samples_per_hb`. -/
abbrev samplesPerBuffer : Nat := g.playBufferlen / g.sampleSize

/-- How many buffers the samples take, by their bytes. -/
def buffersFor (nsamples : Nat) : Nat :=
  (nsamples * g.sampleSize + (g.playBufferlen - 1)) / g.playBufferlen

/-- The samples that the ends of the buffers make, where a buffer is not a whole number of
samples. -/
def spare (nsamples : Nat) : Nat :=
  g.buffersFor nsamples * (g.playBufferlen % g.sampleSize) / g.sampleSize +
    if g.minbufs = 4 ∧ g.buffersFor nsamples ≤ 2 then
      2 * (g.playBufferlen % g.sampleSize) / g.sampleSize
    else 0

/-- How many buffers of whole samples the spare ones fill. -/
def spareBuffers (nsamples : Nat) : Nat :=
  (g.spare nsamples + (g.samplesPerBuffer - 1)) / g.samplesPerBuffer

/-- What playing `count` buffers is to do for a shot of `nsamples` padded to `padded`. -/
structure Plays (nsamples padded : Nat) (count : Int) : Prop where
  padded : nsamples ≤ padded
  pairs : Even count
  two : 2 ≤ count
  four : g.minbufs = 4 → 4 ≤ count
  covers : nsamples ≤ count * g.samplesPerBuffer

/-! ### Rounding -/

theorem roundUp_playbuffs (hbl : 0 < g.playBufferlen) (nsamples : Nat) :
    (g.roundUp nsamples).playbuffs = g.buffersFor nsamples := by
  have hdiv := Nat.div_add_mod (nsamples * g.sampleSize) g.playBufferlen
  have hlt := Nat.mod_lt (nsamples * g.sampleSize) hbl
  simp only [roundUp, buffersFor]
  generalize nsamples * g.sampleSize / g.playBufferlen = q at hdiv ⊢
  generalize nsamples * g.sampleSize % g.playBufferlen = r at hdiv hlt ⊢
  split_ifs with hr
  · rw [← hdiv, Nat.add_assoc, Nat.mul_add_div hbl]
    rw [show (r + (g.playBufferlen - 1)) / g.playBufferlen = 1 from
      Nat.div_eq_of_lt_le (by omega) (by omega)]
  · rw [← hdiv, Nat.add_assoc, Nat.mul_add_div hbl]
    rw [Nat.div_eq_of_lt (by omega)]
    rfl

/-- Padded to whole buffers, the shot is all the samples that the buffers hold. -/
theorem roundUp_samples (hss : 0 < g.sampleSize) (hbl : 0 < g.playBufferlen) (nsamples : Nat) :
    nsamples + (g.roundUp nsamples).padsam =
      g.buffersFor nsamples * g.playBufferlen / g.sampleSize := by
  rw [← g.roundUp_playbuffs hbl]
  have hdiv := Nat.div_add_mod (nsamples * g.sampleSize) g.playBufferlen
  have hlt := Nat.mod_lt (nsamples * g.sampleSize) hbl
  simp only [roundUp]
  generalize nsamples * g.sampleSize / g.playBufferlen = q at hdiv ⊢
  generalize nsamples * g.sampleSize % g.playBufferlen = r at hdiv hlt ⊢
  split_ifs with hr
  · have hbytes : (q + 1) * g.playBufferlen =
        nsamples * g.sampleSize + (g.playBufferlen - r) := by
      rw [← hdiv, Nat.succ_mul, Nat.mul_comm]
      omega
    show nsamples + (g.playBufferlen - r) / g.sampleSize =
      (q + 1) * g.playBufferlen / g.sampleSize
    rw [hbytes, Nat.mul_comm nsamples, Nat.mul_add_div hss]
  · have hbytes : q * g.playBufferlen = nsamples * g.sampleSize := by
      rw [← hdiv, Nat.mul_comm]
      omega
    show nsamples + 0 = q * g.playBufferlen / g.sampleSize
    rw [hbytes, Nat.mul_div_cancel _ hss]
    rfl

theorem samples_of_buffers (hss : 0 < g.sampleSize) (b : Nat) :
    b * g.playBufferlen / g.sampleSize =
      b * g.samplesPerBuffer + b * (g.playBufferlen % g.sampleSize) / g.sampleSize := by
  have hdiv := Nat.div_add_mod g.playBufferlen g.sampleSize
  calc b * g.playBufferlen / g.sampleSize
      = (g.sampleSize * (b * g.samplesPerBuffer) +
          b * (g.playBufferlen % g.sampleSize)) / g.sampleSize := by
        congr 1
        rw [← Nat.mul_assoc, Nat.mul_comm g.sampleSize b, Nat.mul_assoc, ← Nat.mul_add, hdiv]
    _ = _ := Nat.mul_add_div hss _ _

theorem pingPong_playbuffs (c : PadCount) :
    (g.pingPong c).playbuffs = c.playbuffs + c.playbuffs % 2 := by
  unfold pingPong
  split_ifs with hodd
  · show c.playbuffs + 1 = _
    omega
  · omega

theorem pingPong_padsam (c : PadCount) :
    (g.pingPong c).padsam = c.padsam + c.playbuffs % 2 * g.samplesPerBuffer := by
  unfold pingPong
  split_ifs with hodd
  · rw [show c.playbuffs % 2 = 1 by omega, Nat.one_mul]
  · rw [Decidable.not_not.mp hodd, Nat.zero_mul]
    rfl

theorem atLeast_padsam (c : PadCount) :
    (g.atLeast c).padsam =
      c.padsam + if g.tooFew c then 2 * g.playBufferlen / g.sampleSize else 0 := by
  unfold atLeast
  split_ifs
  · rfl
  · rfl

theorem loadPad_length {mem mem' : Nat → UInt8} {nsamples padded : Nat}
    (hload : g._loadPad mem nsamples = some (padded, mem')) :
    padded = nsamples + (g.atLeast (g.pingPong (g.roundUp nsamples))).padsam ∧
      (nsamples < 2 ^ 31 → padded < 2 ^ 31) := by
  simp only [_loadPad] at hload
  split_ifs at hload with _ _ _ hpad
  · simp only [padWith] at hload
    split_ifs at hload with hover
    · obtain rfl := congrArg Prod.fst (Option.some.inj hload)
      exact ⟨rfl, fun _ => Nat.not_le.mp hover⟩
    · obtain rfl := congrArg Prod.fst (Option.some.inj hload)
      exact ⟨rfl, fun _ => Nat.not_le.mp hover⟩
  · obtain rfl := congrArg Prod.fst (Option.some.inj hload)
    rw [Decidable.not_not.mp hpad]
    exact ⟨rfl, id⟩

/-- The buffers that the loader has expanded to. -/
def evenBuffers (nsamples : Nat) : Nat :=
  let even := g.buffersFor nsamples + g.buffersFor nsamples % 2
  if g.minbufs = 4 ∧ even = 2 then 4 else even

/-- The padded shot is that many buffers of whole samples, and the spare ones. -/
theorem padded_eq (hss : 0 < g.sampleSize) (hbl : 0 < g.playBufferlen) {nsamples : Nat}
    (hpos : 0 < g.buffersFor nsamples) :
    nsamples + (g.atLeast (g.pingPong (g.roundUp nsamples))).padsam =
      g.evenBuffers nsamples * g.samplesPerBuffer + g.spare nsamples := by
  have hround := g.roundUp_samples hss hbl nsamples
  rw [g.samples_of_buffers hss] at hround
  have htwo := g.samples_of_buffers hss 2
  rw [atLeast_padsam, pingPong_padsam, roundUp_playbuffs g hbl]
  simp only [evenBuffers, spare, tooFew, pingPong_playbuffs, roundUp_playbuffs g hbl]
  generalize g.buffersFor nsamples = b at *
  have heven : b % 2 * g.samplesPerBuffer + b * g.samplesPerBuffer =
      (b + b % 2) * g.samplesPerBuffer := by
    rw [← Nat.add_mul, Nat.add_comm]
  by_cases hfew : g.minbufs = 4 ∧ b + b % 2 = 2
  · rw [if_pos hfew, if_pos hfew, if_pos ⟨hfew.1, by omega⟩]
    rw [hfew.2] at heven
    omega
  · rw [if_neg hfew, if_neg hfew, if_neg fun h => hfew ⟨h.1, by omega⟩]
    omega

theorem shotBufferCount_eq (cfg : XoConfig) (playloop : AoPlayloop)
    (hmax : playloop.maxlen ≤ playloop.length) (hlt : playloop.length < 2 ^ 31)
    (ha : 0 < cfg.aoSamplesPerHb) {even spare : Nat}
    (hlength : playloop.length = even * cfg.aoSamplesPerHb + spare) :
    (XoLoop.init cfg playloop).shotBufferCount =
      (even + (spare + (cfg.aoSamplesPerHb - 1)) / cfg.aoSamplesPerHb : Nat) := by
  rw [(XoLoop.init_counts cfg playloop (Nat.max_eq_right hmax) hlt).2, hlength, Int.ofNat_inj]
  clear hlength
  generalize cfg.aoSamplesPerHb = a at *
  obtain ⟨q, r, rfl, hr⟩ : ∃ q r, spare = a * q + r ∧ r < a :=
    ⟨spare / a, spare % a, (Nat.div_add_mod spare a).symm, Nat.mod_lt spare ha⟩
  have hdown : (even * a + (a * q + r)) / a = even + q := by
    rw [Nat.mul_comm even, Nat.mul_add_div ha, Nat.mul_add_div ha, Nat.div_eq_of_lt hr]
    rfl
  have hwhole : (even + q) * a = even * a + a * q := by
    rw [Nat.add_mul, Nat.mul_comm q]
  rw [hdown, hwhole, Nat.add_assoc (a * q), Nat.mul_add_div ha]
  by_cases hrest : r = 0
  · rw [if_neg (by omega), hrest, Nat.zero_add, Nat.div_eq_of_lt (by omega)]
    rfl
  · have hup : (r + (a - 1)) / a = 1 := Nat.div_eq_of_lt_le (by omega) (by omega)
    rw [if_pos (by omega), hup]
    omega

theorem buffersFor_pos {nsamples : Nat} (hbl : 0 < g.playBufferlen)
    (hbytes : 0 < nsamples * g.sampleSize) : 0 < g.buffersFor nsamples := by
  refine Nat.div_pos ?_ hbl
  omega

theorem evenBuffers_even (nsamples : Nat) : Even (g.evenBuffers nsamples) := by
  simp only [evenBuffers]
  split_ifs
  · decide
  · rw [Nat.even_iff]
    omega

theorem evenBuffers_many {nsamples : Nat} (hbuffers : 0 < g.buffersFor nsamples) :
    2 ≤ g.evenBuffers nsamples ∧ (g.minbufs = 4 → 4 ≤ g.evenBuffers nsamples) := by
  simp only [evenBuffers]
  split_ifs with hfew
  · exact ⟨by decide, fun _ => Nat.le_refl _⟩
  · refine ⟨by omega, fun hfour => ?_⟩
    have hne : g.buffersFor nsamples + g.buffersFor nsamples % 2 ≠ 2 := fun h => hfew ⟨hfour, h⟩
    omega

/--
**The worker plays an even number of buffers, and enough of them, exactly if the spare samples
fill an even number of buffers.**
-/
theorem loadPad_plays_iff (mem mem' : Nat → UInt8) (nsamples padded : Nat) (cfg : XoConfig)
    (playloop : AoPlayloop) (hss : 0 < g.sampleSize) (hle : g.sampleSize ≤ g.playBufferlen)
    (hpos : 0 < nsamples) (hload : g._loadPad mem nsamples = some (padded, mem'))
    (hhb : cfg.hbLen = g.playBufferlen) (hsize : cfg.xoDistributorSampleSize = g.sampleSize)
    (hint : nsamples < 2 ^ 31) (hlength : playloop.length = padded)
    (hmax : playloop.maxlen ≤ padded) :
    g.Plays nsamples padded (XoLoop.init cfg playloop).shotBufferCount ↔
      Even (g.spareBuffers nsamples) := by
  have hbl : 0 < g.playBufferlen := Nat.lt_of_lt_of_le hss hle
  have ha : 0 < g.samplesPerBuffer := Nat.div_pos hle hss
  have hhba : cfg.aoSamplesPerHb = g.samplesPerBuffer := by
    rw [XoConfig.aoSamplesPerHb, hhb, hsize]
  have hbuffers : 0 < g.buffersFor nsamples := g.buffersFor_pos hbl (Nat.mul_pos hpos hss)
  obtain ⟨hpadded, hlt⟩ := g.loadPad_length hload
  have heq := g.padded_eq hss hbl hbuffers
  rw [← hpadded] at heq
  have hcount := shotBufferCount_eq cfg playloop (hlength ▸ hmax) (hlength ▸ hlt hint)
    (hhba ▸ ha) (hlength.trans (hhba ▸ heq))
  rw [hhba] at hcount
  have hpairs := g.evenBuffers_even nsamples
  have hcovers : padded ≤ (g.evenBuffers nsamples + g.spareBuffers nsamples) *
      g.samplesPerBuffer := by
    have hmod := Nat.div_add_mod (g.spare nsamples + (g.samplesPerBuffer - 1)) g.samplesPerBuffer
    have hlt := Nat.mod_lt (g.spare nsamples + (g.samplesPerBuffer - 1)) ha
    rw [heq, Nat.add_mul, spareBuffers, Nat.mul_comm (_ / _)]
    omega
  have hmany := g.evenBuffers_many hbuffers
  rw [hcount]
  constructor
  · intro h
    have heven := (Int.even_coe_nat _).mp h.pairs
    rw [Nat.even_add] at heven
    exact heven.mp hpairs
  · intro h
    refine ⟨by omega, (Int.even_coe_nat _).mpr (hpairs.add h), ?_, fun hfour => ?_, ?_⟩
    · exact Int.ofNat_le.mpr (Nat.le_add_right_of_le hmany.1)
    · exact Int.ofNat_le.mpr (Nat.le_add_right_of_le (hmany.2 hfour))
    · rw [← Int.natCast_mul]
      exact Int.ofNat_le.mpr (Nat.le_trans (by omega) hcovers)

/-- The worker's view of the loader's buffers. -/
def xoConfig : XoConfig where
  firstDistributorBuffer := 0
  hbLen := g.playBufferlen
  xoDistributorSampleSize := g.sampleSize

/-- A play of so many samples. -/
def playloopOf (length : Nat) : AoPlayloop where
  length := length
  cursor := 0
  oneshot := .oneshot
  repeats := 0
  maxlen := 0
  pullBuf := 0
  cycles := 0

/-- Samples of 12 bytes in buffers of a megabyte. -/
def megabyte : LoadPrams := { sampleSize := 12, playBufferlen := 1048576, minbufs := 4, pad := 1 }

/-- Two buffers, padded to four. -/
theorem loadPad_plays_two :
    ∃ mem', megabyte._loadPad (fun _ => 0) 100000 = some (349524, mem') ∧
      megabyte.Plays 100000 349524
        (XoLoop.init megabyte.xoConfig (playloopOf 349524)).shotBufferCount := by
  have hload : ∃ mem', megabyte._loadPad (fun _ => 0) 100000 = some (349524, mem') := ⟨_, rfl⟩
  obtain ⟨mem', hload⟩ := hload
  have heven : Even (megabyte.spareBuffers 100000) := by decide
  exact ⟨mem', hload, (megabyte.loadPad_plays_iff _ mem' 100000 349524 megabyte.xoConfig
    (playloopOf 349524) (by decide) (by decide) (by decide) hload rfl rfl (by decide) rfl
    (Nat.zero_le _)).mpr heven⟩

/-- Three buffers are padded to four, of which the ends make one sample more: the worker plays
five. -/
theorem loadPad_plays_five :
    ∃ mem', megabyte._loadPad (fun _ => 0) 262143 = some (349525, mem') ∧
      (XoLoop.init megabyte.xoConfig (playloopOf 349525)).shotBufferCount = 5 ∧
      ¬megabyte.Plays 262143 349525
        (XoLoop.init megabyte.xoConfig (playloopOf 349525)).shotBufferCount := by
  have hcount : (XoLoop.init megabyte.xoConfig (playloopOf 349525)).shotBufferCount = 5 :=
    (XoLoop.init_counts _ _ rfl (by decide)).2
  refine ⟨_, rfl, hcount, ?_⟩
  intro h
  have hpairs := h.pairs
  rw [hcount] at hpairs
  exact absurd hpairs (by decide)

end LoadPrams

end Acq400

/-! ### The room of the padding

The padding of a shot and the memory that is mapped.

Padded, the shot is a whole number of buffers, an even one; and `pad` fills one buffer more than
that.  So there has to be a buffer behind the padded shot, unless nothing is padded at all.  What
is filled is filled right in any case.
-/

namespace Acq400

namespace LoadPrams

variable (g : LoadPrams)

/-- What loading is to do: what is padded stays in the buffers, the samples are kept, and behind
them come the last one or zeros. -/
structure PadsWell (nbuffers nsamples padded : Nat) (mem mem' : Nat → UInt8) : Prop where
  inside : ∀ a, nbuffers * g.playBufferlen ≤ a → mem' a = mem a
  kept : ∀ a < nsamples * g.sampleSize, mem' a = mem a
  pads : g.pad ≠ 0 → ∀ k, nsamples ≤ k → k < padded → ∀ i < g.sampleSize,
    mem' (k * g.sampleSize + i) =
      if g.pad = gPadZero then 0 else mem ((nsamples - 1) * g.sampleSize + i)

/-- A load of so many bytes, whatever is in the memory before, pads well. -/
def LoadsWell (nbuffers nelems : Nat) (data : List UInt8) : Prop :=
  ∀ mem, ∃ padded mem', g._load nelems mem data = some (padded, mem') ∧
    g.PadsWell nbuffers ((g.received nelems data).length / g.sampleSize) padded
      (g.loaded nelems mem data) mem'

/-- No `int` and no `unsigned` overflows on the way to the padded shot. -/
structure PadInRange (nsamples : Nat) : Prop where
  padded : g.evenBuffers nsamples * g.samplesPerBuffer < 2 ^ 31
  few : g.tooFew (g.pingPong (g.roundUp nsamples)) → 2 * g.playBufferlen < 2 ^ 32
  copies : g.pad ≠ 0 → g.evenBuffers nsamples * g.samplesPerBuffer - nsamples +
    g.samplesPerBuffer < 2 ^ 31

/-- The shot is a number of buffers that is played as it is, or it can be padded to one: there is
to be no padding in the memory, or there is a buffer behind it. -/
def PadFits (nbuffers nsamples : Nat) : Prop :=
  nsamples = g.evenBuffers nsamples * g.samplesPerBuffer ∨
    g.PadInRange nsamples ∧ (g.pad = 0 ∨ g.evenBuffers nsamples < nbuffers)

/-! ### What `pad` fills -/

variable {g}

theorem padCopies_eq (hss : 0 < g.sampleSize) (last : Nat → UInt8) (copies : Nat) :
    ∀ (mem : Nat → UInt8) (stop a : Nat), g.padCopies last copies mem stop a =
      if stop ≤ a ∧ a < stop + copies * g.sampleSize then last ((a - stop) % g.sampleSize)
      else mem a := by
  induction copies with
  | zero =>
    intro mem stop a
    rw [if_neg (by omega)]
    rfl
  | succ copies ih =>
    intro mem stop a
    have hstep : g.padCopies last (copies + 1) mem stop a =
        g.padCopies last copies (memcpy mem stop last g.sampleSize) (stop + g.sampleSize) a := rfl
    rw [hstep, ih, Nat.succ_mul]
    by_cases hlater : stop + g.sampleSize ≤ a ∧
        a < stop + g.sampleSize + copies * g.sampleSize
    · rw [if_pos hlater, if_pos (by omega)]
      have hback : a - stop = a - (stop + g.sampleSize) + g.sampleSize := by omega
      rw [hback, Nat.add_mod_right]
    · rw [if_neg hlater]
      unfold memcpy
      by_cases hfirst : stop ≤ a ∧ a < stop + g.sampleSize
      · rw [if_pos hfirst, if_pos (by omega), Nat.mod_eq_of_lt (by omega)]
      · rw [if_neg hfirst, if_neg (by omega)]

/-! ### The length of the padded shot -/

theorem bytes_of_buffers (hdvd : g.sampleSize ∣ g.playBufferlen) (n : Nat) :
    n * g.samplesPerBuffer * g.sampleSize = n * g.playBufferlen := by
  rw [Nat.mul_assoc, Nat.div_mul_cancel hdvd]

theorem evenBuffers_of_none {nsamples : Nat} (hnone : g.buffersFor nsamples = 0) :
    g.evenBuffers nsamples = 0 := by
  unfold evenBuffers
  rw [hnone]
  exact if_neg fun h => absurd h.2 (by decide)

/-- With whole samples in a buffer, the padded shot is an even number of buffers. -/
theorem padded_whole (hss : 0 < g.sampleSize) (hdvd : g.sampleSize ∣ g.playBufferlen)
    (hbl : 0 < g.playBufferlen) (nsamples : Nat) :
    nsamples + (g.atLeast (g.pingPong (g.roundUp nsamples))).padsam =
      g.evenBuffers nsamples * g.samplesPerBuffer := by
  have hmod : g.playBufferlen % g.sampleSize = 0 := Nat.mod_eq_zero_of_dvd hdvd
  by_cases hpos : 0 < g.buffersFor nsamples
  · rw [padded_eq g hss hbl hpos]
    have hspare : g.spare nsamples = 0 := by
      unfold spare
      rw [hmod, Nat.mul_zero, Nat.mul_zero, Nat.zero_div, ite_self]
    rw [hspare, Nat.add_zero]
  · have hnone : g.buffersFor nsamples = 0 := by omega
    have hzero : nsamples = 0 := by
      by_contra hne
      exact hpos (buffersFor_pos g hbl (Nat.mul_pos (Nat.pos_of_ne_zero hne) hss))
    have hround := g.roundUp_samples hss hbl nsamples
    rw [hnone, Nat.zero_mul, Nat.zero_div] at hround
    have heven : g.evenBuffers nsamples = 0 := evenBuffers_of_none hnone
    have hfew : ¬g.tooFew (g.pingPong (g.roundUp nsamples)) := by
      unfold tooFew
      rw [pingPong_playbuffs, roundUp_playbuffs g hbl, hnone]
      exact fun h => absurd h.2 (by decide)
    rw [atLeast_padsam, pingPong_padsam, roundUp_playbuffs g hbl, hnone, if_neg hfew, heven]
    omega

theorem tooFew_iff (hbl : 0 < g.playBufferlen) (nsamples : Nat) :
    g.tooFew (g.pingPong (g.roundUp nsamples)) ↔
      g.minbufs = 4 ∧ g.buffersFor nsamples + g.buffersFor nsamples % 2 = 2 := by
  unfold tooFew
  rw [pingPong_playbuffs, roundUp_playbuffs g hbl]

theorem atLeast_playbuffs (hbl : 0 < g.playBufferlen) (nsamples : Nat) :
    (g.atLeast (g.pingPong (g.roundUp nsamples))).playbuffs = g.evenBuffers nsamples := by
  have heven : (g.pingPong (g.roundUp nsamples)).playbuffs =
      g.buffersFor nsamples + g.buffersFor nsamples % 2 := by
    rw [pingPong_playbuffs, roundUp_playbuffs g hbl]
  unfold atLeast evenBuffers
  by_cases hfew : g.tooFew (g.pingPong (g.roundUp nsamples))
  · rw [if_pos hfew, if_pos ((tooFew_iff hbl nsamples).mp hfew)]
    have := hfew.2
    dsimp only
    omega
  · rw [if_neg hfew, if_neg (fun h => hfew ((tooFew_iff hbl nsamples).mpr h))]
    exact heven

/-! ### What the loader makes of a shot -/

/-- The memory after `pad`, as it is called. -/
def padded (g : LoadPrams) (nsamples : Nat) (mem : Nat → UInt8) : Nat → UInt8 :=
  g.padCopies (g.last mem (nsamples * g.sampleSize))
    (g.evenBuffers nsamples * g.samplesPerBuffer - nsamples + g.samplesPerBuffer) mem
    (nsamples * g.sampleSize)

theorem loadPad_full (hss : 0 < g.sampleSize) (hdvd : g.sampleSize ∣ g.playBufferlen)
    (hle : g.sampleSize ≤ g.playBufferlen) {nsamples : Nat} (hn : nsamples * g.sampleSize < 2 ^ 31)
    (hfull : nsamples = g.evenBuffers nsamples * g.samplesPerBuffer) (mem : Nat → UInt8) :
    g._loadPad mem nsamples = some (nsamples, mem) := by
  have hbl : 0 < g.playBufferlen := Nat.lt_of_lt_of_le hss hle
  have hspb : 1 ≤ g.samplesPerBuffer := Nat.div_pos hle hss
  have hpadded := padded_whole hss hdvd hbl nsamples
  have hnone : (g.atLeast (g.pingPong (g.roundUp nsamples))).padsam = 0 := by omega
  have hbuffers : g.evenBuffers nsamples < 2 ^ 31 := by
    have h1 := Nat.le_mul_of_pos_right (g.evenBuffers nsamples) hspb
    have h2 := Nat.le_mul_of_pos_right nsamples hss
    omega
  have hfew : ¬g.tooFew (g.pingPong (g.roundUp nsamples)) := by
    intro hfew
    rw [atLeast_padsam, if_pos hfew] at hnone
    have : 1 ≤ 2 * g.playBufferlen / g.sampleSize := Nat.div_pos (by omega) hss
    omega
  unfold _loadPad
  dsimp only
  rw [if_neg (by omega), if_neg (fun h => hfew h.1), atLeast_playbuffs hbl, hnone,
    if_neg (by omega), if_neg (by omega)]

/-- A shot that does not fill them is, if no number overflows. -/
theorem loadPad_padded (hss : 0 < g.sampleSize) (hdvd : g.sampleSize ∣ g.playBufferlen)
    (hle : g.sampleSize ≤ g.playBufferlen) {nsamples : Nat} (hn : nsamples * g.sampleSize < 2 ^ 31)
    (hfull : nsamples ≠ g.evenBuffers nsamples * g.samplesPerBuffer) (mem : Nat → UInt8) :
    (∀ r, g._loadPad mem nsamples = some r → g.PadInRange nsamples) ∧
      (g.PadInRange nsamples → g._loadPad mem nsamples =
        some (g.evenBuffers nsamples * g.samplesPerBuffer,
          if g.pad = 0 then mem else g.padded nsamples mem)) := by
  have hbl : 0 < g.playBufferlen := Nat.lt_of_lt_of_le hss hle
  have hspb : 1 ≤ g.samplesPerBuffer := Nat.div_pos hle hss
  have hpadded := padded_whole hss hdvd hbl nsamples
  have hsome : (g.atLeast (g.pingPong (g.roundUp nsamples))).padsam ≠ 0 := by omega
  have hpadsam : (g.atLeast (g.pingPong (g.roundUp nsamples))).padsam =
      g.evenBuffers nsamples * g.samplesPerBuffer - nsamples := by omega
  have hbuffers := Nat.le_mul_of_pos_right (g.evenBuffers nsamples) hspb
  unfold _loadPad padWith padded
  dsimp only
  have hsame : g.playBufferlen / g.sampleSize = g.samplesPerBuffer := rfl
  rw [if_neg (by omega), atLeast_playbuffs hbl, if_pos hsome, hpadded, hpadsam, hsame]
  constructor
  · intro r hload
    split_ifs at hload with hfew hcounts hlen hpad hcopies
    · refine ⟨by omega, fun h => ?_, fun h => absurd hpad h⟩
      have := not_and.mp hfew h
      omega
    · refine ⟨by omega, fun h => ?_, fun _ => by omega⟩
      have := not_and.mp hfew h
      omega
  · intro h
    have hlen := h.padded
    rw [if_neg (fun hfew => absurd (h.few hfew.1) (by omega)), if_neg (by omega),
      if_neg (by omega)]
    by_cases hpad : g.pad = 0
    · rw [if_pos hpad, if_pos hpad]
    · have := h.copies hpad
      rw [if_neg hpad, if_neg hpad, if_neg (by omega)]

/-! ### What `_fread` has stored -/

/-- The bytes are in the buffers, and so are those of the samples that are counted. -/
theorem length_received_le (nbuffers playloopMaxlen : Nat) (data : List UInt8) :
    (g.received (g.maxSamples nbuffers playloopMaxlen) data).length < 2 ^ 31 ∧
      (g.received (g.maxSamples nbuffers playloopMaxlen) data).length ≤
        nbuffers * g.playBufferlen := by
  have hmod := Nat.mod_le (nbuffers * g.playBufferlen) (2 ^ 32)
  have hmax : g.maxSamples nbuffers playloopMaxlen * g.sampleSize % 2 ^ 32 ≤
      nbuffers * g.playBufferlen % 2 ^ 32 := by
    unfold maxSamples
    dsimp only
    split
    · rename_i h
      exact Nat.le_of_lt h.2
    · exact Nat.le_trans (Nat.mod_le _ _) (Nat.div_mul_le_self _ _)
  have hwrap : CInt.wrap ((g.maxSamples nbuffers playloopMaxlen * g.sampleSize : Nat) : Int) ≤
      (g.maxSamples nbuffers playloopMaxlen * g.sampleSize % 2 ^ 32 : Nat) := by
    unfold CInt.wrap
    rw [Int.bmod_def]
    split
    · omega
    · omega
  have hrange :=
    CInt.inRange_wrap ((g.maxSamples nbuffers playloopMaxlen * g.sampleSize : Nat) : Int)
  unfold CInt.InRange at hrange
  unfold received
  rw [List.length_take]
  omega

theorem loaded_of_le {nelems : Nat} {mem : Nat → UInt8} {data : List UInt8} {a : Nat}
    (ha : (g.received nelems data).length ≤ a) : g.loaded nelems mem data a = mem a := by
  unfold loaded memcpy
  rw [if_neg (by omega)]

theorem loaded_of_lt {nelems : Nat} {mem : Nat → UInt8} (mem₁ : Nat → UInt8) {data : List UInt8}
    {a : Nat} (ha : a < (g.received nelems data).length) :
    g.loaded nelems mem data a = g.loaded nelems mem₁ data a := by
  unfold loaded memcpy
  rw [if_pos (by omega), if_pos (by omega)]

/-! ### The copies of a sample -/

section copies

variable {nsamples : Nat} {mem : Nat → UInt8}

theorem copies_end (hdvd : g.sampleSize ∣ g.playBufferlen)
    (hle : nsamples ≤ g.evenBuffers nsamples * g.samplesPerBuffer) :
    nsamples * g.sampleSize + (g.evenBuffers nsamples * g.samplesPerBuffer - nsamples +
      g.samplesPerBuffer) * g.sampleSize = (g.evenBuffers nsamples + 1) * g.playBufferlen := by
  rw [← bytes_of_buffers hdvd, ← Nat.add_mul, Nat.succ_mul]
  congr 1
  omega

theorem padded_copy (hss : 0 < g.sampleSize) (hdvd : g.sampleSize ∣ g.playBufferlen)
    (hle : nsamples ≤ g.evenBuffers nsamples * g.samplesPerBuffer) {k i : Nat}
    (hk : nsamples ≤ k) (hi : i < g.sampleSize)
    (hend : k * g.sampleSize + i < (g.evenBuffers nsamples + 1) * g.playBufferlen) :
    g.padded nsamples mem (k * g.sampleSize + i) =
      if g.pad = gPadZero then 0 else mem ((nsamples - 1) * g.sampleSize + i) := by
  have hmul := Nat.mul_le_mul_right g.sampleSize hk
  have hrest : (k * g.sampleSize + i - nsamples * g.sampleSize) % g.sampleSize = i := by
    rw [Nat.sub_add_comm hmul, ← Nat.sub_mul, Nat.add_comm, Nat.add_mul_mod_self_right,
      Nat.mod_eq_of_lt hi]
  unfold padded
  rw [padCopies_eq hss, copies_end hdvd hle, if_pos (by omega), hrest]
  unfold last
  split
  · rfl
  · rw [← Nat.sub_one_mul]

theorem padded_outside (hss : 0 < g.sampleSize) (hdvd : g.sampleSize ∣ g.playBufferlen)
    (hle : nsamples ≤ g.evenBuffers nsamples * g.samplesPerBuffer) {a : Nat}
    (ha : a < nsamples * g.sampleSize ∨ (g.evenBuffers nsamples + 1) * g.playBufferlen ≤ a) :
    g.padded nsamples mem a = mem a := by
  unfold padded
  rw [padCopies_eq hss, copies_end hdvd hle, if_neg (by omega)]

end copies

/-! ### The load -/

theorem evenBuffers_zero (hbl : 0 < g.playBufferlen) : g.evenBuffers 0 = 0 := by
  refine evenBuffers_of_none ?_
  unfold buffersFor
  rw [Nat.zero_mul, Nat.zero_add]
  exact Nat.div_eq_of_lt (by omega)

theorem padsWell_full {nbuffers nsamples : Nat} {mem : Nat → UInt8} :
    g.PadsWell nbuffers nsamples nsamples mem mem := by
  refine ⟨fun _ _ => rfl, fun _ _ => rfl, ?_⟩
  intro _ k hk hlt
  omega

theorem padsWell_padded (hss : 0 < g.sampleSize) (hdvd : g.sampleSize ∣ g.playBufferlen)
    {nbuffers nsamples : Nat} {mem : Nat → UInt8}
    (hlen : nsamples ≤ g.evenBuffers nsamples * g.samplesPerBuffer)
    (hfits : g.evenBuffers nsamples < nbuffers) :
    g.PadsWell nbuffers nsamples (g.evenBuffers nsamples * g.samplesPerBuffer) mem
      (g.padded nsamples mem) := by
  have hbuffers := Nat.mul_le_mul_right g.playBufferlen
    (show g.evenBuffers nsamples + 1 ≤ nbuffers from hfits)
  refine ⟨fun a ha => ?_, fun a ha => ?_, fun _ k hk hlt i hi => ?_⟩
  · exact padded_outside hss hdvd hlen (Or.inr (by omega))
  · exact padded_outside hss hdvd hlen (Or.inl ha)
  · refine padded_copy hss hdvd hlen hk hi ?_
    have hmul := Nat.mul_le_mul_right g.sampleSize (show k + 1 ≤ _ from hlt)
    rw [bytes_of_buffers hdvd, Nat.succ_mul] at hmul
    rw [Nat.succ_mul]
    omega

section load

variable {nbuffers nelems : Nat} {data : List UInt8}

/-- The samples that are counted. -/
def count (g : LoadPrams) (nelems : Nat) (data : List UInt8) : Nat :=
  (g.received nelems data).length / g.sampleSize

theorem count_le (nelems : Nat) (data : List UInt8) :
    g.count nelems data * g.sampleSize ≤ (g.received nelems data).length :=
  Nat.div_mul_le_self _ _

theorem loadsWell_of_padFits (hss : 0 < g.sampleSize) (hbl : 0 < g.playBufferlen)
    (hdvd : g.sampleSize ∣ g.playBufferlen) (hint : (g.received nelems data).length < 2 ^ 31)
    (hfits : g.PadFits nbuffers (g.count nelems data)) : g.LoadsWell nbuffers nelems data := by
  have hle : g.sampleSize ≤ g.playBufferlen := Nat.le_of_dvd hbl hdvd
  have hbytes := count_le (g := g) nelems data
  have hlen := padded_whole hss hdvd hbl (g.count nelems data)
  intro mem
  unfold _load
  rw [show (g.received nelems data).length / g.sampleSize = g.count nelems data from rfl]
  unfold PadFits at hfits
  generalize g.count nelems data = n at *
  by_cases hfull : n = g.evenBuffers n * g.samplesPerBuffer
  · exact ⟨n, _, loadPad_full hss hdvd hle (by omega) hfull _, padsWell_full⟩
  · obtain ⟨hrange, hroom⟩ := hfits.resolve_left hfull
    refine ⟨_, _, (loadPad_padded hss hdvd hle (by omega) hfull _).2 hrange, ?_⟩
    by_cases hpad : g.pad = 0
    · rw [if_pos hpad]
      exact ⟨fun _ _ => rfl, fun _ _ => rfl, fun h => absurd hpad h⟩
    · rw [if_neg hpad]
      exact padsWell_padded hss hdvd (by omega) (hroom.resolve_left hpad)

theorem padFits_of_loadsWell (hss : 0 < g.sampleSize) (hbl : 0 < g.playBufferlen)
    (hdvd : g.sampleSize ∣ g.playBufferlen) (hint : (g.received nelems data).length < 2 ^ 31)
    (hroom : (g.received nelems data).length ≤ nbuffers * g.playBufferlen)
    (h : g.LoadsWell nbuffers nelems data) : g.PadFits nbuffers (g.count nelems data) := by
  have hle : g.sampleSize ≤ g.playBufferlen := Nat.le_of_dvd hbl hdvd
  have hbytes := count_le (g := g) nelems data
  have hlen := padded_whole hss hdvd hbl (g.count nelems data)
  unfold LoadsWell _load at h
  rw [show (g.received nelems data).length / g.sampleSize = g.count nelems data from rfl] at h
  unfold PadFits
  generalize g.count nelems data = n at *
  by_cases hfull : n = g.evenBuffers n * g.samplesPerBuffer
  · exact Or.inl hfull
  · have hpos : 0 < n := by
      refine Nat.pos_of_ne_zero fun hzero => hfull ?_
      rw [hzero, evenBuffers_zero hbl, Nat.zero_mul]
    obtain ⟨_, _, hload, -⟩ := h fun _ => 0
    have hrange := (loadPad_padded hss hdvd hle (by omega) hfull _).1 _ hload
    refine Or.inr ⟨hrange, ?_⟩
    by_contra hnot
    obtain ⟨hpad, hbuffers⟩ := not_or.mp hnot
    -- the byte behind the buffers is one that was not there before
    let w := if g.pad = gPadZero then 0
      else g.loaded nelems (fun _ => 0) data ((n - 1) * g.sampleSize)
    obtain ⟨_, _, hload, hwell⟩ := h fun _ => w + 1
    rw [(loadPad_padded hss hdvd hle (by omega) hfull _).2 hrange, if_neg hpad] at hload
    cases hload
    have hkept := hwell.inside (nbuffers * g.playBufferlen) (Nat.le_refl _)
    rw [loaded_of_le hroom] at hkept
    have hbuffer := bytes_of_buffers hdvd nbuffers
    have hcount : n ≤ nbuffers * g.samplesPerBuffer := by
      refine Nat.le_of_mul_le_mul_right ?_ hss
      omega
    have hend : nbuffers * g.samplesPerBuffer * g.sampleSize + 0 <
        (g.evenBuffers n + 1) * g.playBufferlen := by
      have := Nat.mul_le_mul_right g.playBufferlen (Nat.not_lt.mp hbuffers)
      rw [hbuffer, Nat.succ_mul]
      omega
    have hcopy : g.padded n (g.loaded nelems (fun _ => w + 1) data) _ = _ :=
      padded_copy hss hdvd (by omega) hcount hss hend
    have hlast : (n - 1) * g.sampleSize < (g.received nelems data).length := by
      have := Nat.succ_mul (n - 1) g.sampleSize
      rw [show (n - 1).succ = n by omega] at this
      omega
    rw [hbuffer, Nat.add_zero, hkept, Nat.add_zero, loaded_of_lt (fun _ => 0) hlast] at hcopy
    have hsame : w + 1 = w := hcopy
    exact absurd hsame (by simp)

end load

/--
**Loading a shot.**  What is padded stays in the buffers and is padded right exactly if the shot is
not padded at all, or no number overflows and there is no filling or a buffer behind it.
-/
theorem load_pads_iff (g : LoadPrams) (nbuffers playloopMaxlen : Nat) (data : List UInt8)
    (hss : 0 < g.sampleSize) (hbl : 0 < g.playBufferlen) (hdvd : g.sampleSize ∣ g.playBufferlen) :
    g.LoadsWell nbuffers (g.maxSamples nbuffers playloopMaxlen) data ↔
      g.PadFits nbuffers (g.count (g.maxSamples nbuffers playloopMaxlen) data) := by
  obtain ⟨hint, hroom⟩ := length_received_le (g := g) nbuffers playloopMaxlen data
  exact ⟨padFits_of_loadsWell hss hbl hdvd hint hroom, loadsWell_of_padFits hss hbl hdvd hint⟩

/-- Samples of four bytes in buffers of 64 K. -/
def awg (pad : Int) : LoadPrams :=
  { sampleSize := 4, playBufferlen := 65536, minbufs := 4, pad := pad }

theorem length_received_awg (pad : Int) {nelems k : Nat} (hk : 4 * k ≤ 4 * nelems)
    (hint : 4 * nelems < 2 ^ 31) :
    ((awg pad).received nelems (List.replicate (4 * k) 0)).length = 4 * k := by
  have hwrap : CInt.wrap ((nelems * (awg pad).sampleSize : Nat) : Int) = (4 * nelems : Nat) := by
    rw [show (awg pad).sampleSize = 4 from rfl, Nat.mul_comm]
    exact CInt.wrap_natCast hint
  unfold received
  rw [hwrap, Int.toNat_natCast, List.length_take, List.length_replicate, Nat.min_eq_right hk]

theorem count_awg (pad : Int) {nelems k : Nat} (hk : 4 * k ≤ 4 * nelems)
    (hint : 4 * nelems < 2 ^ 31) :
    (awg pad).count nelems (List.replicate (4 * k) 0) = k := by
  unfold count
  rw [length_received_awg pad hk hint]
  exact Nat.mul_div_cancel_left k (by decide)

/-- Of eight buffers, three are loaded and padded to four. -/
theorem load_pads_three :
    (awg 1).LoadsWell 8 ((awg 1).maxSamples 8 0) (List.replicate (4 * 40000) 0) := by
  have hmax : (awg 1).maxSamples 8 0 = 131072 := by decide
  refine (load_pads_iff (awg 1) 8 0 _ (by decide) (by decide) (by decide)).mpr ?_
  rw [hmax, count_awg 1 (by decide) (by decide)]
  exact Or.inr ⟨⟨by decide, by decide, by decide⟩, Or.inr (by decide)⟩

/-- The last of four buffers is partly loaded, and it is filled and one behind it. -/
theorem load_pads_behind :
    ¬(awg 1).LoadsWell 4 ((awg 1).maxSamples 4 0) (List.replicate (4 * 50000) 0) := by
  have hmax : (awg 1).maxSamples 4 0 = 65536 := by decide
  have hlen := length_received_awg 1 (show 4 * 50000 ≤ 4 * 65536 by decide) (by decide)
  rw [hmax]
  intro h
  have hfits := padFits_of_loadsWell (by decide) (by decide) (by decide) (by rw [hlen]; decide)
    (by rw [hlen]; decide) h
  rw [count_awg 1 (by decide) (by decide)] at hfits
  obtain hfull | ⟨-, hpad | hroom⟩ := hfits
  · exact absurd hfull (by decide)
  · exact absurd hpad (by decide)
  · exact absurd hroom (by decide)

end LoadPrams

end Acq400

/-! ### A single buffer

A load of one buffer goes on to the first count that the DMAC takes.

The loop of `_load_by_buffer` stops at a count whose bytes are taken, or at the end of the buffer.
A buffer of a multiple of 128 bytes is taken itself: bus words, and sixteen of them in a burst.  So
the loop always ends with a count that is taken, and it is the least one.

`Bounded` says of a run how many samples the buffers before the one in turn have: one each at
least, and no more than they hold.
-/

namespace Acq400

/-! ### Lengths that are taken -/

theorem lenOk_of_dvd {bytes : Nat} (h : 128 ∣ bytes) : pl330AwgLenOk bytes = true := by
  have hbs : awgBs bytes axiBusBs = 3 := by
    have hmod : bytes % (1 <<< 3) = 0 := Nat.mod_eq_zero_of_dvd (Nat.dvd_trans (by decide) h)
    show awgBs bytes (2 + 1) = 3
    rw [awgBs, if_pos hmod]
  have hbl : awgBl bytes 3 16 = 16 := by
    have hmod : bytes % (16 <<< 3) = 0 := Nat.mod_eq_zero_of_dvd h
    show awgBl bytes 3 (14 + 2) = 16
    rw [awgBl, if_pos hmod]
  have hq : bytes % 64 = 0 := Nat.mod_eq_zero_of_dvd (Nat.dvd_trans (by decide) h)
  unfold pl330AwgLenOk pl330AwgQuantum
  rw [hbs]
  simp only [hbl]
  have hquantum : (1 <<< 3 * if 3 > axiFifoBs then low4 ((16 >>> (3 - axiFifoBs) : Nat) - 1) + 1
      else 1) = 64 := by decide
  rw [hquantum, hq]
  rfl

namespace LoadPrams

variable (g : LoadPrams)

/-! ### The padding loop -/

/-- The loop copies until a count is taken, or to the end of the room. -/
theorem pingPad_spec (last : Nat → UInt8) (room : Nat) :
    ∀ (nsamples : Nat) (mem : Nat → UInt8), ∃ k ≤ room,
      g.pingPad last room nsamples mem =
        (nsamples + k, g.padCopies last k mem (nsamples * g.sampleSize)) ∧
      (∀ j < k, pl330AwgLenOk ((nsamples + j) * g.sampleSize) = false) ∧
      (k < room → pl330AwgLenOk ((nsamples + k) * g.sampleSize) = true) := by
  induction room with
  | zero =>
    intro nsamples mem
    exact ⟨0, Nat.le_refl _, rfl, fun j hj => absurd hj (Nat.not_lt_zero j),
      fun h => absurd h (Nat.lt_irrefl 0)⟩
  | succ room ih =>
    intro nsamples mem
    by_cases hok : pl330AwgLenOk (nsamples * g.sampleSize) = true
    · refine ⟨0, Nat.zero_le _, ?_, fun j hj => absurd hj (Nat.not_lt_zero j), fun _ => hok⟩
      rw [pingPad, if_pos hok]
      rfl
    · obtain ⟨k, hk, hpad, hnot, htaken⟩ := ih (nsamples + 1)
        (memcpy mem (nsamples * g.sampleSize) last g.sampleSize)
      refine ⟨k + 1, by omega, ?_, fun j hj => ?_, fun hlt => ?_⟩
      · rw [pingPad, if_neg hok, hpad, Nat.succ_mul]
        congr 1
        omega
      · cases j with
        | zero => exact Bool.eq_false_iff.mpr hok
        | succ j =>
          have := hnot j (by omega)
          rwa [Nat.add_assoc, Nat.add_comm 1 j] at this
      · have := htaken (by omega)
        rwa [Nat.add_assoc, Nat.add_comm 1 k] at this

/-- What the loop is to make of `nsamples` samples in the first buffer. -/
structure PingPads (nsamples count : Nat) (mem mem' : Nat → UInt8) : Prop where
  le : nsamples ≤ count
  most : count ≤ g.spb
  taken : pl330AwgLenOk (count * g.sampleSize) = true
  least : ∀ k, nsamples ≤ k → k < count → pl330AwgLenOk (k * g.sampleSize) = false
  kept : ∀ a < nsamples * g.sampleSize, mem' a = mem a
  pads : ∀ k, nsamples ≤ k → k < count → ∀ i < g.sampleSize,
    mem' (k * g.sampleSize + i) =
      if g.pad = gPadZero then 0 else mem ((nsamples - 1) * g.sampleSize + i)
  frame : ∀ a, count * g.sampleSize ≤ a → mem' a = mem a

variable {g}

theorem pingPad_pingPads (hss : 0 < g.sampleSize) (hdvd : g.sampleSize ∣ g.playBufferlen)
    (h128 : 128 ∣ g.playBufferlen) {nsamples count : Nat} {mem mem' : Nat → UInt8}
    (hle : nsamples ≤ g.spb)
    (hpad : g.pingPad (g.last mem (nsamples * g.sampleSize)) (g.spb - nsamples) nsamples mem =
      (count, mem')) : g.PingPads nsamples count mem mem' := by
  obtain ⟨k, hk, hspec, hnot, htaken⟩ :=
    g.pingPad_spec (g.last mem (nsamples * g.sampleSize)) (g.spb - nsamples) nsamples mem
  rw [hspec] at hpad
  obtain ⟨rfl, rfl⟩ := Prod.mk.inj hpad
  have hcopies := padCopies_eq hss (g.last mem (nsamples * g.sampleSize)) k mem
    (nsamples * g.sampleSize)
  rw [← Nat.add_mul] at hcopies
  refine ⟨by omega, by omega, ?_, fun m hm hlt => ?_, fun a ha => ?_, fun m hm hlt i hi => ?_,
    fun a ha => ?_⟩
  · by_cases hlt : k < g.spb - nsamples
    · exact htaken hlt
    · -- the buffer is full
      have hfull : nsamples + k = g.spb := by omega
      rw [hfull]
      exact lenOk_of_dvd (by rwa [spb, Nat.div_mul_cancel hdvd])
  · have := hnot (m - nsamples) (by omega)
    rwa [Nat.add_sub_cancel' hm] at this
  · rw [hcopies, if_neg (by omega)]
  · have hlow := Nat.mul_le_mul_right g.sampleSize hm
    have hhigh := Nat.mul_le_mul_right g.sampleSize (show m + 1 ≤ nsamples + k from hlt)
    rw [Nat.succ_mul] at hhigh
    have hrest : (m * g.sampleSize + i - nsamples * g.sampleSize) % g.sampleSize = i := by
      rw [Nat.sub_add_comm hlow, ← Nat.sub_mul, Nat.add_comm, Nat.add_mul_mod_self_right,
        Nat.mod_eq_of_lt hi]
    rw [hcopies, if_pos (by omega), hrest]
    unfold last
    split
    · rfl
    · rw [← Nat.sub_one_mul]
  · rw [hcopies, if_neg (by omega)]

theorem endLoad_single (hspb : 0 < g.spb) {nsamples : Nat} (hsome : 0 < nsamples)
    (mem : Nat → UInt8) :
    g.endLoad 1 nsamples mem =
      some (g.pingPad (g.last mem (nsamples * g.sampleSize)) (g.spb - nsamples) nsamples mem) := by
  unfold endLoad
  rw [if_pos ⟨rfl, hspb⟩, if_pos hsome]

end LoadPrams

namespace LoadSt

variable {g : LoadPrams} {nbuffers : Nat} {s t : LoadSt}

/-! ### What the buffers hold -/

/-- A sample at least in each buffer before the one in turn, and no more than it holds. -/
structure Bounded (g : LoadPrams) (s : LoadSt) : Prop where
  least : s.buf ≤ s.nsamples
  most : s.nsamples ≤ s.buf * g.spb

/-- An `_fread` waits for the stream. -/
structure Waiting (g : LoadPrams) (nbuffers : Nat) (s : LoadSt) : Prop where
  bounded : s.Bounded g
  buf : s.buf < nbuffers
  got : s.got < g.playBufferlen
  nread : s.got = 0 → s.nread = 0
  ret : s.ret = none

/-- The load has returned: where there was a buffer left, it is one that got no sample. -/
structure Returned (g : LoadPrams) (nbuffers : Nat) (s : LoadSt) : Prop where
  bounded : s.Bounded g
  ret : ∃ count, s.ret = some count ∧
    (s.buf < nbuffers → g.endLoad s.buf s.nsamples s.loaded = some (count, s.mem))

/-- Where a load is. -/
inductive Stage (g : LoadPrams) (nbuffers : Nat) (s : LoadSt) : Prop
  | waiting (h : s.Waiting g nbuffers)
  | returned (h : s.Returned g nbuffers)

theorem Bounded.finish (h : s.Bounded g) {r : Option (Nat × (Nat → UInt8))}
    (hr : s.buf < nbuffers → r = g.endLoad s.buf s.nsamples s.mem)
    (ht : s.finish r = some t) : t.Returned g nbuffers := by
  unfold LoadSt.finish at ht
  obtain ⟨⟨count, mem⟩, hcount, rfl⟩ := Option.map_eq_some_iff.mp ht
  refine ⟨⟨h.least, h.most⟩, count, rfl, ?_⟩
  intro hbuf
  exact (hr hbuf).symm.trans hcount

theorem Bounded.enter (h : s.Bounded g) (hg : Sized g) (hret : s.ret = none)
    (ht : s.enter g nbuffers = some t) : t.Stage g nbuffers := by
  have hmax : 0 < g.maxbytes := hg.maxbytes ▸ hg.playBufferlen
  unfold LoadSt.enter at ht
  by_cases hbuf : s.buf < nbuffers
  · rw [if_pos hbuf, if_pos hmax] at ht
    obtain rfl := Option.some.inj ht
    exact .waiting ⟨⟨h.least, h.most⟩, hbuf, hg.playBufferlen, fun _ => rfl, hret⟩
  · rw [if_neg hbuf] at ht
    exact .returned (h.finish (fun hlt => absurd hlt hbuf) ht)

theorem Bounded.freadReturn (h : s.Bounded g) (hg : Sized g) (hret : s.ret = none)
    (hgot : s.got ≤ g.playBufferlen) (ht : s.freadReturn g nbuffers = some t) :
    t.Stage g nbuffers := by
  unfold LoadSt.freadReturn at ht
  by_cases hsome : 0 < s.got / g.sampleSize
  · have hspb : s.got / g.sampleSize ≤ g.spb := Nat.div_le_div_right hgot
    have hmore : Bounded g
        { s with nsamples := s.nsamples + s.got / g.sampleSize, buf := s.buf + 1 } := by
      refine ⟨Nat.add_le_add h.least hsome, ?_⟩
      show s.nsamples + s.got / g.sampleSize ≤ (s.buf + 1) * g.spb
      rw [Nat.succ_mul]
      exact Nat.add_le_add h.most hspb
    simp only [hsome, if_true] at ht
    exact hmore.enter hg hret ht
  · simp only [hsome, if_false] at ht
    exact .returned (h.finish (fun _ => rfl) ht)

theorem Waiting.step (h : s.Waiting g nbuffers) (hg : Sized g) {ev : LoadEv}
    (ht : s.step g nbuffers ev = some t) : t.Stage g nbuffers := by
  cases ev with
  | timeout =>
    by_cases hgot : s.got = 0
    · rw [step_timeout_empty hg h.ret hgot (h.nread hgot)] at ht
      obtain rfl := Option.some.inj ht
      exact .waiting h
    · rw [step_timeout h.ret, if_neg hgot] at ht
      exact h.bounded.freadReturn hg h.ret (Nat.le_of_lt h.got) ht
  | ready more =>
    obtain ⟨n, hn, hstep⟩ := LoadSt.step_ready g nbuffers h.ret more
    rw [hg.maxbytes] at hn
    rw [hstep] at ht
    have hgot := h.got
    have hread : (s.read g n).Bounded g := ⟨h.bounded.least, h.bounded.most⟩
    by_cases hzero : n = 0
    · rw [if_pos hzero] at ht
      exact hread.freadReturn hg h.ret (Nat.le_of_lt hgot) ht
    · rw [if_neg hzero] at ht
      unfold LoadSt.freadLoop at ht
      rw [hg.maxbytes] at ht
      by_cases hmore : s.got + n < g.playBufferlen
      · rw [if_pos hmore] at ht
        obtain rfl := Option.some.inj ht
        refine .waiting ⟨⟨h.bounded.least, h.bounded.most⟩, h.buf, hmore, ?_, h.ret⟩
        intro hnone
        have : s.got + n = 0 := hnone
        omega
      · rw [if_neg hmore] at ht
        have hadvance : Bounded g { s.read g n with got := s.got + n } :=
          ⟨h.bounded.least, h.bounded.most⟩
        refine hadvance.freadReturn hg h.ret ?_ ht
        show s.got + n ≤ g.playBufferlen
        omega

theorem Stage.step (h : s.Stage g nbuffers) (hg : Sized g) {ev : LoadEv}
    (ht : s.step g nbuffers ev = some t) : t.Stage g nbuffers := by
  cases h with
  | waiting h => exact h.step hg ht
  | returned h =>
    obtain ⟨count, hret, -⟩ := h.ret
    rw [step_returned (by rw [hret]; rfl)] at ht
    exact absurd ht nofun

theorem stage_of_run (hg : Sized g) {mem : Nat → UInt8} {stream : List UInt8} {s₀ : LoadSt}
    (hstart : start g nbuffers mem stream = some s₀) (evs : List LoadEv)
    (hrun : Lts.run (LoadSt.step g nbuffers) s₀ evs = some s) : s.Stage g nbuffers := by
  have hfirst : s₀.Stage g nbuffers := by
    refine Bounded.enter ⟨Nat.le_refl 0, ?_⟩ hg rfl hstart
    exact Nat.zero_le _
  exact Lts.run_invariant (fun s => s.Stage g nbuffers)
    (fun u _ v hu hv => hu.step hg hv) evs s₀ s hfirst hrun

/-- The stream ends, and the second buffer has got no sample. -/
theorem step_end (hg : Sized g) (hret : s.ret = none) (hbuf : s.buf = 1) (hsome : 0 < s.nsamples)
    (hstream : s.stream = []) (hgot : s.got < g.sampleSize) (more : Nat) :
    ∃ t, s.step g nbuffers (.ready more) = some t ∧ t.buf = 1 ∧ ∃ count, t.ret = some count := by
  obtain ⟨n, hn, hstep⟩ := LoadSt.step_ready g nbuffers hret more
  obtain rfl : n = 0 := by
    rw [hn, hstream, List.length_nil, Nat.min_zero, Nat.min_zero]
  have hnone : ¬0 < s.got / g.sampleSize := by
    rw [Nat.div_eq_of_lt hgot]
    exact Nat.lt_irrefl 0
  have hend : (s.read g 0).freadReturn g nbuffers =
      (s.read g 0).finish (g.endLoad s.buf s.nsamples (s.read g 0).mem) := if_neg hnone
  rw [if_pos rfl, hend, hbuf, LoadPrams.endLoad_single hg.spb_pos hsome] at hstep
  exact ⟨_, hstep, hbuf, _, rfl⟩

/--
**A single buffer is padded to the least count that the DMAC takes.**  The load returns as soon as
the second buffer is found to get no sample.
-/
theorem singleBuffer_least (hg : Sized g) (h128 : 128 ∣ g.playBufferlen) (hnb : 1 < nbuffers)
    (mem : Nat → UInt8) (stream : List UInt8) (s₀ : LoadSt)
    (hstart : start g nbuffers mem stream = some s₀) (evs : List LoadEv)
    (hrun : Lts.run (LoadSt.step g nbuffers) s₀ evs = some s) (hbuf : s.buf = 1) :
    (1 ≤ s.nsamples ∧ s.nsamples ≤ g.spb) ∧
      (∀ count, s.ret = some count → g.PingPads s.nsamples count s.loaded s.mem) ∧
      (s.ret = none → s.stream = [] → s.got < g.sampleSize → ∀ more, ∃ t count,
        s.step g nbuffers (.ready more) = some t ∧ t.buf = 1 ∧ t.ret = some count) := by
  have hstage := stage_of_run hg hstart evs hrun
  have hbounded : s.Bounded g := by
    cases hstage with
    | waiting h => exact h.bounded
    | returned h => exact h.bounded
  have hleast : 1 ≤ s.nsamples := hbuf ▸ hbounded.least
  have hmost : s.nsamples ≤ g.spb := by
    have := hbounded.most
    rwa [hbuf, Nat.one_mul] at this
  refine ⟨⟨hleast, hmost⟩, ?_, ?_⟩
  · intro count hcount
    cases hstage with
    | waiting h =>
      rw [h.ret] at hcount
      exact absurd hcount nofun
    | returned h =>
      obtain ⟨count', hret, hend⟩ := h.ret
      obtain rfl : count' = count := Option.some.inj (hret.symm.trans hcount)
      have hping := hend (by omega)
      rw [hbuf, LoadPrams.endLoad_single hg.spb_pos hleast] at hping
      exact LoadPrams.pingPad_pingPads hg.sampleSize hg.whole h128 hmost
        (Option.some.inj hping)
  · intro hret hstream hgot more
    obtain ⟨t, hstep, hend, ⟨count, hcount⟩⟩ : ∃ t, s.step g nbuffers (.ready more) = some t ∧
        t.buf = 1 ∧ ∃ count, t.ret = some count :=
      step_end hg hret hbuf hleast hstream hgot more
    exact ⟨t, count, hstep, hend, hcount⟩

/-- Two channels of two bytes, and buffers of thirty-two samples. -/
def burstBuffers : LoadPrams := { sampleSize := 4, playBufferlen := 128, minbufs := 0, pad := 1 }

/-- Twelve bytes are three bursts of an odd length, and one more sample makes them even. -/
theorem singleBuffer_three :
    ∃ t : LoadSt, t.ret = some 4 ∧ burstBuffers.PingPads t.nsamples 4 t.loaded t.mem := by
  let s : LoadSt := ⟨fun _ => 0, List.replicate 12 0, 0, 0, 0, 0, 0, fun _ => 0, none⟩
  have hs : start burstBuffers 2 (fun _ => 0) (List.replicate 12 0) = some s := rfl
  obtain ⟨t, hrun, hend⟩ := Lts.exists_of_any (LoadSt.step burstBuffers 2) s
    [.ready 7, .ready 3, .ready 0, .timeout, .ready 0]
    (fun t => decide (t.buf = 1 ∧ t.ret = some 4)) (by decide)
  obtain ⟨hbuf, hret⟩ := of_decide_eq_true hend
  have hpads := singleBuffer_least ⟨by decide, by decide, by decide⟩ (by decide) (by decide)
    _ _ s hs _ hrun hbuf
  exact ⟨t, hret, hpads.2.1 4 hret⟩

end LoadSt

end Acq400
