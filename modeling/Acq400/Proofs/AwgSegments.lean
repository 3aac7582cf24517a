/-
Where `bb` loads a segment and where the driver plays it.

The two agree about where a segment begins only when no buffers are reserved: the
driver counts `reserve_buffers` in and `bb` does not.  With none reserved the
segments are apart as long as each has a buffer at all: a size of 0 is what `bb`
takes for no segments, and it loads every one of them over all the buffers.
-/
import Acq400.Awg.Segments

namespace Acq400

open CInt AwgParams

/-- `X` is one of the segments. -/
def AwgParams.IsSeg (p : AwgParams) (X : Char) : Prop := 'A' ≤ X ∧ X ≤ p.maxSeg

/-- The number of segments. -/
def AwgParams.nseg (p : AwgParams) : Nat := p.maxSeg.toNat - 'A'.toNat + 1

/-- What is asked of the segments of parameters as they are once the driver is loaded. -/
structure SegmentsAgree (p loaded : AwgParams) : Prop where
  /-- A segment is loaded where it is played. -/
  start : ∀ X, p.IsSeg X → ∃ selected bb, Bb.ui loaded X = some (selected, bb) ∧
    selected.firstDistributorBuffer = some bb.buffer0
  /-- All of its buffers are buffers of the device. -/
  inside : ∀ X selected bb, p.IsSeg X → Bb.ui loaded X = some (selected, bb) →
    ∀ i, 0 ≤ i → i < bb.nbuffers → bb.buffer i < p.nbuffers
  /-- No other segment has any of them. -/
  apart : ∀ X Y selected selected' bb bb', p.IsSeg X → p.IsSeg Y → X ≠ Y →
    Bb.ui loaded X = some (selected, bb) → Bb.ui loaded Y = some (selected', bb') →
    ∀ i j, 0 ≤ i → i < bb.nbuffers → 0 ≤ j → j < bb'.nbuffers → bb.buffer i ≠ bb'.buffer j

/-- Parameters that are numbers of buffers. -/
structure Counts (p : AwgParams) : Prop where
  nbuffers : 0 ≤ p.nbuffers ∧ InRange p.nbuffers
  first : 0 ≤ p.distributorFirstBuffer ∧ InRange p.distributorFirstBuffer

theorem char_le_iff (X Y : Char) : X ≤ Y ↔ X.toNat ≤ Y.toNat := by
  rw [Char.le_def, UInt32.le_iff_toNat_le]
  rfl

/-- Every letter is one of the segments of some parameters, by its number from `A` on. -/
theorem AwgParams.IsSeg.code {p : AwgParams} {X : Char} (h : p.IsSeg X) :
    ∃ seg : Nat, charCode X - charCode 'A' = seg ∧ X.toNat = seg + 'A'.toNat ∧ seg < p.nseg := by
  have hA := (char_le_iff _ _).mp h.1
  have hX := (char_le_iff _ _).mp h.2
  refine ⟨X.toNat - 'A'.toNat, ?_, by omega, by unfold nseg; omega⟩
  unfold charCode
  omega

theorem nseg_eq {p : AwgParams} (h : 'A' ≤ p.maxSeg) :
    charCode p.maxSeg - charCode 'A' + 1 = p.nseg := by
  have hA := (char_le_iff _ _).mp h
  unfold charCode nseg
  omega

/-! ### The size of a segment -/

section size

variable {p loaded : AwgParams}

/-- What `set_awg_seg_bufs` leaves as it is, and that it selects the first segment. -/
theorem setAwgSegBufs_keeps (hseg : 'A' ≤ p.maxSeg ∧ p.maxSeg ≤ 'Z')
    (h : p.setAwgSegBufs = some loaded) :
    loaded = { p with distributorSegmentOffset := 0, awgSegBufs := loaded.awgSegBufs } := by
  rw [setAwgSegBufs, if_pos hseg, _setAwgSegBufs] at h
  simp only [Option.bind_eq_bind, Option.bind_eq_some_iff] at h
  obtain ⟨first, -, total, -, share, -, fours, -, h⟩ := h
  obtain rfl := Option.some.inj h
  rfl

/-- With no buffers reserved and the first one among them, each segment gets a share of the
rest that is a multiple of four. -/
theorem setAwgSegBufs_eq (hp : Counts p) (hseg : 'A' ≤ p.maxSeg ∧ p.maxSeg ≤ 'Z')
    (hres : p.reserveBuffers = 0) {total : Nat}
    (htotal : p.nbuffers = p.distributorFirstBuffer + total) :
    p.setAwgSegBufs = some { p with
      distributorSegmentOffset := 0, awgSegBufs := (total / p.nseg / 4 * 4 : Nat) } := by
  have hn := hp.nbuffers
  have hd := hp.first
  have hpos : 0 < p.nseg := Nat.succ_pos _
  have htot : p.nbuffers - p.distributorFirstBuffer = (total : Nat) := by omega
  have hrange : total < 2 ^ 31 := by
    have := hn.2.2
    omega
  rw [setAwgSegBufs, if_pos hseg, _setAwgSegBufs]
  simp only [firstDistributorBuffer, hres, Int.zero_mul, Int.add_zero, Option.bind_eq_bind]
  rw [value_of_inRange hd.2, Option.bind_some, value_of_inRange (by decide), Option.bind_some,
    Int.add_zero, value_of_inRange hd.2, Option.bind_some, htot, value_natCast hrange,
    Option.bind_some, nseg_eq hseg.1, if_neg (by omega), div_natCast _ hpos, Option.bind_some,
    show (4 : Int) = ((4 : Nat) : Int) from rfl, div_natCast _ (by decide), Option.bind_some]
  rfl

theorem nseg_mul_le (total n : Nat) : n * (total / n / 4 * 4) ≤ total := by
  have hshare : total / n / 4 * 4 ≤ total / n := Nat.div_mul_le_self _ _
  exact Nat.le_trans (Nat.mul_le_mul_left n hshare) (Nat.mul_div_le total n)

theorem seg_room (total n seg : Nat) (h : seg < n) :
    seg * (total / n / 4 * 4) + total / n / 4 * 4 ≤ total := by
  have hmul := Nat.mul_le_mul_right (total / n / 4 * 4) (Nat.succ_le_of_lt h)
  rw [Nat.succ_mul] at hmul
  exact Nat.le_trans hmul (nseg_mul_le total n)

theorem seg_of_place (seg : Nat) {sb i : Nat} (h : i < sb) : (seg * sb + i) / sb = seg := by
  rw [Nat.mul_comm, Nat.mul_add_div (by omega), Nat.div_eq_of_lt h, Nat.add_zero]

theorem size_pos_iff {total n : Nat} (hn : 0 < n) : 0 < total / n / 4 * 4 ↔ 4 * n ≤ total := by
  rw [Nat.div_div_eq_div_mul, Nat.mul_comm n 4]
  constructor
  · intro h
    by_contra hlt
    rw [Nat.div_eq_of_lt (Nat.lt_of_not_le hlt)] at h
    omega
  · intro h
    have := Nat.div_pos h (by omega)
    omega

end size

/-! ### What `bb` makes of it -/

section loading

variable {p loaded : AwgParams}

theorem unsigned_of_inRange {x : Int} (h : 0 ≤ x ∧ InRange x) : unsigned x = x := by
  unfold InRange at h
  unfold unsigned
  omega

theorem ui_first (hp : Counts p) (hseg : 'A' ≤ p.maxSeg ∧ p.maxSeg ≤ 'Z') {sb : Int}
    (hloaded : loaded = { p with distributorSegmentOffset := 0, awgSegBufs := sb }) :
    Bb.ui loaded 'A' = some (loaded,
      { buffer00 := p.distributorFirstBuffer
        buffer0 := p.distributorFirstBuffer
        nbuffers := if unsigned sb ≠ 0 then unsigned sb
          else unsigned (p.nbuffers - p.distributorFirstBuffer) }) := by
  subst hloaded
  simp only [Bb.ui, hseg, and_self, if_true, Bb.setSegmentStart, Int.sub_self, Int.zero_mul,
    Int.add_zero, unsigned_of_inRange hp.first, unsigned_of_inRange hp.nbuffers, Char.le_refl]
  split
  · rfl
  · rfl

theorem ui_seg (hp : Counts p) (hseg : 'A' ≤ p.maxSeg ∧ p.maxSeg ≤ 'Z') {sb total seg : Nat}
    (hloaded : loaded = { p with distributorSegmentOffset := 0, awgSegBufs := (sb : Nat) })
    (htotal : p.nbuffers = p.distributorFirstBuffer + total) {X : Char} (hX : p.IsSeg X)
    (hXseg : charCode X - charCode 'A' = seg) (hroom : seg * sb + sb ≤ total) :
    Bb.ui loaded X = some
      ({ p with distributorSegmentOffset := seg, awgSegBufs := (sb : Nat) },
        { buffer00 := p.distributorFirstBuffer
          buffer0 := p.distributorFirstBuffer + (seg * sb : Nat)
          nbuffers := if sb ≠ 0 then (sb : Int) else (total : Int) }) := by
  subst hloaded
  have hn := hp.nbuffers
  have hd := hp.first
  have hlt : total < 2 ^ 31 := by
    have := hn.2.2
    omega
  have hsb : unsigned ((sb : Nat) : Int) = sb := unsigned_natCast (by omega)
  have hbuffer0 : unsigned (p.distributorFirstBuffer + (seg : Int) * (sb : Int)) =
      p.distributorFirstBuffer + (seg * sb : Nat) := by
    rw [← Int.natCast_mul]
    refine unsigned_of_inRange ⟨by omega, ?_⟩
    have := hn.2.2
    unfold InRange
    omega
  have hX' : 'A' ≤ X ∧ X ≤ p.maxSeg := hX
  simp only [Bb.ui, hseg, and_self, if_true, Bb.setSegmentStart, hX', hXseg,
    unsigned_of_inRange hd, unsigned_of_inRange hn, hsb, hbuffer0]
  by_cases hzero : sb = 0
  · subst hzero
    have hrest : unsigned (p.nbuffers - p.distributorFirstBuffer) = total := by
      rw [show p.nbuffers - p.distributorFirstBuffer = (total : Nat) by omega]
      exact unsigned_natCast (by omega)
    simp [hrest]
  · simp [hzero]

end loading

/-! ### When they agree -/

section agree

variable {p loaded : AwgParams}

/-- The first segment is played from where it is loaded only if no buffers are reserved. -/
theorem reserve_of_start (hp : Counts p) (hseg : 'A' ≤ p.maxSeg ∧ p.maxSeg ≤ 'Z')
    (hload : p.setAwgSegBufs = some loaded) (h : SegmentsAgree p loaded) :
    p.reserveBuffers = 0 := by
  have hkeeps := setAwgSegBufs_keeps hseg hload
  obtain ⟨selected, bb, hui, hstart⟩ := h.start 'A' ⟨Char.le_refl _, hseg.1⟩
  rw [ui_first hp hseg hkeeps] at hui
  obtain ⟨rfl, rfl⟩ := Prod.mk.inj (Option.some.inj hui)
  rw [hkeeps] at hstart
  simp only [firstDistributorBuffer, Int.zero_mul, Option.bind_eq_bind,
    Option.bind_eq_some_iff, value_eq_some] at hstart
  obtain ⟨first, ⟨-, rfl⟩, offset, ⟨-, rfl⟩, -, hsum⟩ := hstart
  omega

theorem first_le_of_inside (hp : Counts p) (hseg : 'A' ≤ p.maxSeg ∧ p.maxSeg ≤ 'Z')
    (hload : p.setAwgSegBufs = some loaded) (h : SegmentsAgree p loaded) :
    p.distributorFirstBuffer ≤ p.nbuffers := by
  have hd := hp.first
  have hn := hp.nbuffers
  by_contra hlt
  have hui := ui_first hp hseg (setAwgSegBufs_keeps hseg hload)
  have hsize : 0 < if unsigned loaded.awgSegBufs ≠ 0 then unsigned loaded.awgSegBufs
      else unsigned (p.nbuffers - p.distributorFirstBuffer) := by
    have := hd.2.2
    unfold unsigned
    split
    · omega
    · omega
  have := h.inside 'A' _ _ ⟨Char.le_refl _, hseg.1⟩ hui 0 (Int.le_refl 0) hsize
  rw [Bb.buffer, Int.add_zero, unsigned_of_inRange hd] at this
  exact hlt (Int.le_of_lt this)

theorem size_of_apart (hp : Counts p) (hseg : 'A' ≤ p.maxSeg ∧ p.maxSeg ≤ 'Z')
    (hres : p.reserveBuffers = 0) {total : Nat}
    (htotal : p.nbuffers = p.distributorFirstBuffer + total)
    (hload : p.setAwgSegBufs = some loaded) (h : SegmentsAgree p loaded) :
    p.nseg = 1 ∨ total = 0 ∨ 4 * p.nseg ≤ total := by
  have hpos : 0 < p.nseg := Nat.succ_pos _
  by_contra hcon
  have hsize : total / p.nseg / 4 * 4 = 0 := by
    have := @size_pos_iff total p.nseg hpos
    omega
  rw [setAwgSegBufs_eq hp hseg hres htotal, hsize] at hload
  have hloaded := (Option.some.inj hload).symm
  have hA : p.IsSeg 'A' := ⟨Char.le_refl _, hseg.1⟩
  have hB : p.IsSeg 'B' := by
    refine ⟨by decide, (char_le_iff _ _).mpr ?_⟩
    unfold nseg at hcon
    have : 'B'.toNat = 'A'.toNat + 1 := rfl
    omega
  have hcodeA : charCode 'A' - charCode 'A' = (0 : Nat) := rfl
  have hcodeB : charCode 'B' - charCode 'A' = (1 : Nat) := rfl
  have huiA := ui_seg hp hseg hloaded htotal hA hcodeA (by omega)
  have huiB := ui_seg hp hseg hloaded htotal hB hcodeB (by omega)
  have hsome : (0 : Int) < total := by omega
  exact h.apart 'A' 'B' _ _ _ _ hA hB (by decide) huiA huiB 0 0 (Int.le_refl 0) hsome
    (Int.le_refl 0) hsome rfl

/-- With none reserved, and a size for each segment, the segments are as they should be. -/
theorem segmentsAgree_of_size (hp : Counts p) (hseg : 'A' ≤ p.maxSeg ∧ p.maxSeg ≤ 'Z')
    (hres : p.reserveBuffers = 0) {total : Nat}
    (htotal : p.nbuffers = p.distributorFirstBuffer + total)
    (hsize : p.nseg = 1 ∨ total = 0 ∨ 4 * p.nseg ≤ total)
    (hload : p.setAwgSegBufs = some loaded) : SegmentsAgree p loaded := by
  have hn := hp.nbuffers
  have hd := hp.first
  have hpos : 0 < p.nseg := Nat.succ_pos _
  have hsizePos := @size_pos_iff total p.nseg hpos
  have hfit := seg_room total p.nseg
  rw [setAwgSegBufs_eq hp hseg hres htotal] at hload
  generalize total / p.nseg / 4 * 4 = sb at hload hsizePos hfit
  have hloaded := (Option.some.inj hload).symm
  have hrange : ∀ {x : Nat}, x ≤ total → InRange (p.distributorFirstBuffer + x) := by
    intro x hx
    have := hn.2.2
    unfold InRange
    omega
  -- a place among the buffers of the device is what it is as an unsigned number
  have hplace : ∀ {x : Nat} {i : Int}, 0 ≤ i → x + i < total →
      unsigned (p.distributorFirstBuffer + x + i) = p.distributorFirstBuffer + x + i := by
    intro x i hi hlt
    have := hn.2.2
    unfold unsigned
    omega
  refine ⟨?_, ?_, ?_⟩
  · intro X hX
    obtain ⟨seg, hXseg, -, hlt⟩ := hX.code
    have hroom := hfit seg hlt
    refine ⟨_, _, ui_seg hp hseg hloaded htotal hX hXseg hroom, ?_⟩
    simp only [firstDistributorBuffer, hres, Int.add_zero, Option.bind_eq_bind]
    rw [value_of_inRange hd.2, Option.bind_some, ← Int.natCast_mul, value_natCast (by
      have := hn.2.2
      omega), Option.bind_some, value_of_inRange (hrange (by omega))]
  · intro X selected bb hX hui i hi hlt
    obtain ⟨seg, hXseg, -, hseglt⟩ := hX.code
    have hroom := hfit seg hseglt
    rw [ui_seg hp hseg hloaded htotal hX hXseg hroom] at hui
    obtain ⟨-, rfl⟩ := Prod.mk.inj (Option.some.inj hui)
    simp only [Bb.buffer] at hlt ⊢
    have hin : ((seg * sb : Nat) : Int) + i < total := by
      split at hlt
      · omega
      · rename_i hzero
        simp only [ne_eq, Decidable.not_not] at hzero
        subst hzero
        omega
    rw [hplace hi hin]
    omega
  · intro X Y selected selected' bb bb' hX hY hne hui hui' i j hi hilt hj hjlt
    obtain ⟨segX, hXseg, hXnat, hXlt⟩ := hX.code
    obtain ⟨segY, hYseg, hYnat, hYlt⟩ := hY.code
    have hroomX := hfit segX hXlt
    have hroomY := hfit segY hYlt
    have hsegs : segX ≠ segY := by
      rintro rfl
      exact hne (Char.toNat_inj.mp (by omega))
    rw [ui_seg hp hseg hloaded htotal hX hXseg hroomX] at hui
    rw [ui_seg hp hseg hloaded htotal hY hYseg hroomY] at hui'
    obtain ⟨-, rfl⟩ := Prod.mk.inj (Option.some.inj hui)
    obtain ⟨-, rfl⟩ := Prod.mk.inj (Option.some.inj hui')
    simp only [Bb.buffer] at hilt hjlt ⊢
    by_cases hzero : sb = 0
    · -- no size: one segment at most has any buffers
      subst hzero
      simp only [ne_eq, not_true_eq_false, if_false] at hilt hjlt
      omega
    · rw [if_pos hzero] at hilt hjlt
      rw [hplace hi (by omega), hplace hj (by omega)]
      intro heq
      have heq' : segX * sb + i.toNat = segY * sb + j.toNat := by omega
      have hdiv := congrArg (· / sb) heq'
      rw [seg_of_place segX (by omega), seg_of_place segY (by omega)] at hdiv
      exact hsegs hdiv

/-- **What `bb` and the driver make of the segments agrees exactly if no buffers are
reserved, the first buffer is one of the device's or the one after, and there are four
buffers for each segment, unless there is one segment only or no buffer at all.** -/
theorem awgSegments_agree_iff (p : AwgParams) (hp : Counts p)
    (hseg : 'A' ≤ p.maxSeg ∧ p.maxSeg ≤ 'Z') :
    (∃ loaded, p.setAwgSegBufs = some loaded ∧ SegmentsAgree p loaded) ↔
      p.reserveBuffers = 0 ∧ p.distributorFirstBuffer ≤ p.nbuffers ∧
        (p.nseg = 1 ∨ p.nbuffers = p.distributorFirstBuffer ∨
          4 * (p.nseg : Int) ≤ p.nbuffers - p.distributorFirstBuffer) := by
  constructor
  · rintro ⟨loaded, hload, h⟩
    have hres := reserve_of_start hp hseg hload h
    have hle := first_le_of_inside hp hseg hload h
    have htotal : p.nbuffers =
        p.distributorFirstBuffer + (p.nbuffers - p.distributorFirstBuffer).toNat := by omega
    have hsize := size_of_apart hp hseg hres htotal hload h
    exact ⟨hres, hle, by omega⟩
  · rintro ⟨hres, hle, hsize⟩
    have htotal : p.nbuffers =
        p.distributorFirstBuffer + (p.nbuffers - p.distributorFirstBuffer).toNat := by omega
    have hload := setAwgSegBufs_eq hp hseg hres htotal
    exact ⟨_, hload, segmentsAgree_of_size hp hseg hres htotal (by omega) hload⟩

/-- Segments `A` to `E` of 64 buffers. -/
def fiveSegments : AwgParams :=
  { nbuffers := 64
    distributorFirstBuffer := 0
    distributorSegmentOffset := 0
    reserveBuffers := 0
    awgSegBufs := 100
    maxSeg := 'E' }

theorem awgSegments_agree_five :
    ∃ loaded, fiveSegments.setAwgSegBufs = some loaded ∧ SegmentsAgree fiveSegments loaded :=
  (awgSegments_agree_iff fiveSegments ⟨by decide, by decide⟩ (by decide)).mpr (by decide)

/-- With two buffers reserved, `A` is loaded from buffer 0 on and played from buffer 2 on. -/
theorem awgSegments_reserved :
    ¬ ∃ loaded, { fiveSegments with reserveBuffers := 2 }.setAwgSegBufs = some loaded ∧
      SegmentsAgree { fiveSegments with reserveBuffers := 2 } loaded := by
  rintro ⟨loaded, hload, h⟩
  have hres := reserve_of_start ⟨by decide, by decide⟩ (by decide) hload h
  exact absurd hres (by decide)

end agree

end Acq400
