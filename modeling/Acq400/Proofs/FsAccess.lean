/-
The data files and their buffers, whatever `CAPDAT` is.

An access stays inside exactly if no expression on the way to it is undefined, the buffer exists
and what is asked for at most, as much as is left, ends before the buffer does.  Each entry is
taken apart into these conditions, and the count is then done away with: the largest one decides.
Of words that are read a stride apart the first and the last decide, whatever the stride is.
-/
import Acq400.Driver.FsAccess
import Acq400.Proofs.RawChanFile
import Mathlib.Order.Basic
import Mathlib.Tactic.Linarith
import Mathlib.Tactic.Ring

namespace Acq400

open CInt Reads

/-- The buffer exists and the bytes are inside it. -/
def HbAccess.Inside (dev : FsDevice) (a : HbAccess) : Prop :=
  (0 ≤ a.ibuf ∧ a.ibuf < dev.nbuffers) ∧
    (a.len = 0 ∨ 0 ≤ a.start ∧ a.start + a.len ≤ dev.bufferlen)

namespace FsDevice

variable {dev : FsDevice} {capdat : CaptureData}

/-- All is defined, and all accesses are inside. -/
def Stays (dev : FsDevice) (r : Option (List HbAccess)) : Prop :=
  ∃ accesses, r = some accesses ∧ ∀ a ∈ accesses, a.Inside dev

/-! ### Taking an entry apart -/

@[simp] theorem stays_value {x : Int} {g : Int → Option (List HbAccess)} :
    Stays dev ((value x).bind g) ↔ InRange x ∧ Stays dev (g x) := by
  unfold value
  by_cases h : InRange x
  · simp [h]
  · simp [h, Stays]

@[simp] theorem stays_quot {a b : Int} {g : Int → Option (List HbAccess)} :
    Stays dev ((quot a b).bind g) ↔ b ≠ 0 ∧ InRange (a.tdiv b) ∧ Stays dev (g (a.tdiv b)) := by
  unfold quot div
  by_cases h : b = 0
  · simp [h, Stays]
  · simp [h]

@[simp] theorem stays_nil : Stays dev (some []) := ⟨[], rfl, fun _ h => nomatch h⟩

@[simp] theorem stays_singleton {a : HbAccess} : Stays dev (some [a]) ↔ a.Inside dev := by
  simp [Stays]

theorem stays_cons {a : HbAccess} {r : Option (List HbAccess)} :
    Stays dev (r.map (a :: ·)) ↔ a.Inside dev ∧ Stays dev r := by
  cases r with
  | none => simp [Stays]
  | some accesses => simp [Stays]

theorem stays_ite {c : Prop} [Decidable c] {r s : Option (List HbAccess)} :
    Stays dev (if c then r else s) ↔ (c → Stays dev r) ∧ (¬c → Stays dev s) := by
  by_cases h : c
  · simp [h]
  · simp [h]

/-! ### Division -/

/-- The rest of a division is smaller than the divisor and has the sign of what is divided. -/
theorem rest_spec (f : Int) {b : Int} (hb : b ≠ 0) :
    (f - f.tdiv b * b).natAbs < b.natAbs ∧ (0 ≤ f → 0 ≤ f - f.tdiv b * b) ∧
      (f ≤ 0 → f - f.tdiv b * b ≤ 0) := by
  have hrest : f - f.tdiv b * b = f.tmod b := by rw [Int.tmod_def, Int.mul_comm]
  rw [hrest]
  refine ⟨?_, fun hf => Int.tmod_nonneg b hf, fun hf => ?_⟩
  · rw [Int.natAbs_tmod]
    exact Nat.mod_lt _ (Int.natAbs_pos.mpr hb)
  · have hneg := Int.tmod_nonneg b (Int.neg_nonneg.mpr hf)
    rw [Int.neg_tmod] at hneg
    omega

/-- The buffer exists and the place in it is one, exactly if the offset is in the buffers. -/
theorem offset_inside_iff {f b : Int} {n : Nat} (hb : 0 < b) :
    ((0 ≤ f.tdiv b ∧ f.tdiv b < n) ∧ 0 ≤ f - f.tdiv b * b) ↔ 0 ≤ f ∧ f < n * b := by
  obtain ⟨-, hpos, -⟩ := rest_spec f (Int.ne_of_gt hb)
  constructor
  · intro ⟨⟨hq, hlt⟩, hr⟩
    have hnonneg : 0 ≤ f := by
      have := Int.mul_nonneg hq (Int.le_of_lt hb)
      omega
    rw [Int.tdiv_eq_ediv_of_nonneg hnonneg] at hlt
    exact ⟨hnonneg, (Int.ediv_lt_iff_lt_mul hb).mp hlt⟩
  · intro ⟨hnonneg, hlt⟩
    refine ⟨?_, hpos hnonneg⟩
    rw [Int.tdiv_eq_ediv_of_nonneg hnonneg]
    exact ⟨Int.ediv_nonneg hnonneg (Int.le_of_lt hb), (Int.ediv_lt_iff_lt_mul hb).mpr hlt⟩

/-- A quotient by a positive divisor is an `int` if what is divided is. -/
theorem inRange_tdiv {f b : Int} (hf : InRange f) (hb : 0 < b) : InRange (f.tdiv b) := by
  have habs : (f.tdiv b).natAbs ≤ f.natAbs := by
    rw [Int.natAbs_tdiv]
    exact Nat.div_le_self _ _
  unfold InRange at hf ⊢
  by_cases hneg : f < 0
  · have hback := Int.tdiv_nonneg (Int.neg_nonneg.mpr (Int.le_of_lt hneg)) (Int.le_of_lt hb)
    rw [Int.neg_tdiv] at hback
    omega
  · have := Int.tdiv_nonneg (Int.not_lt.mp hneg) (Int.le_of_lt hb)
    omega

/-! ### The largest count -/

theorem clip_eq (count : Nat) (h : Int) :
    A400Fs.clip count h = min count (unsigned h).toNat := by
  unfold A400Fs.clip unsigned
  split
  · omega
  · omega

theorem clip_of_neg {h : Int} (hr : InRange h) (hneg : h < 0) {count : Nat}
    (hcount : count < 2 ^ 31) : A400Fs.clip count h = count := by
  unfold A400Fs.clip unsigned InRange at *
  rw [if_neg (by omega)]

theorem clip_of_nonneg {h : Int} (hr : InRange h) (hpos : 0 ≤ h) (count : Nat) :
    A400Fs.clip count h = min count h.toNat := by
  unfold A400Fs.clip unsigned InRange at *
  split
  · omega
  · omega

/-- As much as is left is inside for every count, exactly if all that is left is. -/
theorem forall_inside_clip_iff {ibuf start h : Int} (hr : InRange h) :
    (∀ count < 2 ^ 32, HbAccess.Inside dev ⟨ibuf, start, A400Fs.clip count h⟩) ↔
      (0 ≤ ibuf ∧ ibuf < dev.nbuffers) ∧
        (h = 0 ∨ 0 < h ∧ 0 ≤ start ∧ start + h ≤ dev.bufferlen) := by
  have hlt := dev.bufferlen_lt
  unfold HbAccess.Inside
  constructor
  · intro hall
    have hmost := hall (2 ^ 31 - 1) (by decide)
    refine ⟨hmost.1, ?_⟩
    by_cases hneg : h < 0
    · rw [clip_of_neg hr hneg (by decide)] at hmost
      dsimp only at hmost
      omega
    · rw [clip_of_nonneg hr (by omega)] at hmost
      unfold InRange at hr
      dsimp only at hmost
      omega
  · intro ⟨hibuf, hleft⟩ count _
    refine ⟨hibuf, ?_⟩
    rw [clip_of_nonneg hr (by omega)]
    dsimp only
    omega

/-- What does not depend on the count comes before it. -/
theorem forall_count_and {c : Prop} {p : Nat → Prop} :
    (∀ count < 2 ^ 32, c ∧ p count) ↔ c ∧ ∀ count < 2 ^ 32, p count :=
  ⟨fun h => ⟨(h 0 (by decide)).1, fun count hcount => (h count hcount).2⟩,
    fun h count hcount => ⟨h.1, h.2 count hcount⟩⟩

theorem forall_count_imp {c : Prop} {p : Nat → Prop} :
    (∀ count < 2 ^ 32, c → p count) ↔ (c → ∀ count < 2 ^ 32, p count) :=
  ⟨fun h hc count hcount => h count hcount hc, fun h count hcount hc => h hc count hcount⟩

/-- The range test of the reads lets everything through. -/
theorem range_test (ibuf : Int) (n : Nat) : ibuf ≥ 0 ∨ ibuf < n := by omega

/-- A start that has been wrapped is inside only if it need not have been. -/
theorem wrap_start_iff {y h : Int} (hlow : -3221225472 ≤ y) (hhigh : y < 4294967296) (hh : 0 < h) :
    (0 ≤ wrap y ∧ wrap y + h ≤ dev.bufferlen) ↔ 0 ≤ y ∧ y + h ≤ dev.bufferlen := by
  have hlt := dev.bufferlen_lt
  by_cases hr : InRange y
  · rw [wrap_of_inRange hr]
  · have hout : wrap y = y - 4294967296 ∨ y < 0 ∧ wrap y = y + 4294967296 := by
      unfold InRange at hr
      unfold wrap
      rw [Int.bmod_def]
      split
      · omega
      · omega
    unfold InRange at hr
    omega

/-! ### Words that are a stride apart -/

def WordInside (dev : FsDevice) (start : Int) : Prop :=
  0 ≤ start ∧ start + dev.wordSize ≤ dev.bufferlen

/-- The first and the last of `n` words, `step` bytes apart. -/
def WordsInside (dev : FsDevice) (start step : Int) (n : Nat) : Prop :=
  n = 0 ∨ dev.WordInside start ∧ dev.WordInside (start + (n - 1 : Nat) * step)

/-- The words between the first and the last are between them. -/
theorem forall_word_iff {start step : Int} {n : Nat} :
    (∀ iw < n, dev.WordInside (start + (iw : Nat) * step)) ↔ dev.WordsInside start step n := by
  unfold WordsInside
  constructor
  · intro hall
    by_cases hn : n = 0
    · exact .inl hn
    · refine .inr ⟨?_, hall (n - 1) (by omega)⟩
      have hfirst := hall 0 (by omega)
      rwa [Nat.cast_zero, Int.zero_mul, Int.add_zero] at hfirst
  · rintro (rfl | ⟨⟨hlow, hhigh⟩, hlow', hhigh'⟩) iw hiw
    · exact absurd hiw (Nat.not_lt_zero iw)
    · have hle : (iw : Int) ≤ (n - 1 : Nat) := by omega
      unfold WordInside
      rcases Int.le_total 0 step with hstep | hstep
      · have hnonneg := Int.mul_nonneg (Int.natCast_nonneg iw) hstep
        have hmost := Int.mul_le_mul_of_nonneg_right hle hstep
        omega
      · have hnonpos := Int.mul_nonpos_of_nonneg_of_nonpos (Int.natCast_nonneg iw) hstep
        have hmost := Int.mul_le_mul_of_nonpos_right hle hstep
        omega

theorem WordsInside.of_le {start step : Int} {m n : Nat} (h : dev.WordsInside start step n)
    (hle : m ≤ n) : dev.WordsInside start step m :=
  forall_word_iff.mp fun iw hiw => forall_word_iff.mpr h iw (Nat.lt_of_lt_of_le hiw hle)

theorem wordsInside_wrap {y step : Int} {n : Nat} (hlow : -3221225472 ≤ y)
    (hhigh : y < 4294967296) : dev.WordsInside (wrap y) step n ↔ dev.WordsInside y step n := by
  have hword : dev.WordInside (wrap y) ↔ dev.WordInside y :=
    wrap_start_iff hlow hhigh (Int.natCast_pos.mpr dev.wordSize_pos)
  unfold WordsInside
  by_cases hin : dev.WordInside y
  · have hr : InRange y := by
      have := dev.bufferlen_lt
      unfold WordInside at hin
      unfold InRange
      omega
    rw [wrap_of_inRange hr]
  · rw [hword]
    simp only [hin, false_and]

theorem stays_strided {ibuf start stride : Int} {n : Nat}
    (hibuf : 0 ≤ ibuf ∧ ibuf < dev.nbuffers) :
    Stays dev (some (dev.strided ibuf start stride n)) ↔
      dev.WordsInside start (stride * dev.wordSize) n := by
  have hpos := dev.wordSize_pos
  rw [← forall_word_iff]
  unfold Stays strided
  simp only [Option.some.injEq, exists_eq_left', List.forall_mem_map, List.mem_range]
  exact forall₂_congr fun iw _ => ⟨fun h => h.2.resolve_left (Nat.ne_of_gt hpos),
    fun h => ⟨hibuf, .inr h⟩⟩

/-- The buffer is looked up before its words are read. -/
theorem stays_lookup {ibuf start stride : Int} {n : Nat} :
    Stays dev (some (⟨ibuf, start, 0⟩ :: dev.strided ibuf start stride n)) ↔
      (0 ≤ ibuf ∧ ibuf < dev.nbuffers) ∧ dev.WordsInside start (stride * dev.wordSize) n := by
  have hcons : Stays dev (some (⟨ibuf, start, 0⟩ :: dev.strided ibuf start stride n)) ↔
      HbAccess.Inside dev ⟨ibuf, start, 0⟩ ∧ Stays dev (some (dev.strided ibuf start stride n)) :=
    @stays_cons dev _ (some _)
  rw [hcons]
  constructor
  · intro ⟨hfirst, hwords⟩
    exact ⟨hfirst.1, (stays_strided hfirst.1).mp hwords⟩
  · intro ⟨hibuf, hwords⟩
    exact ⟨⟨hibuf, .inl rfl⟩, (stays_strided hibuf).mpr hwords⟩

/-! ### The raw file -/

/-- The length of a channel, and of the set. -/
def channelLen (dev : FsDevice) (capdat : CaptureData) : Int := capdat.nsamples * dev.wordSize

def setLen (dev : FsDevice) (capdat : CaptureData) : Int := dev.channelLen capdat * capdat.nchan

/-- The lengths are values of `int`, and the buffers up to the one the set ends in exist. -/
structure RawSyncs (dev : FsDevice) (capdat : CaptureData) : Prop where
  channelLen : InRange (dev.channelLen capdat)
  setLen : InRange (dev.setLen capdat)
  buffers : dev.syncLen (dev.setLen capdat) < 0 ∨
    dev.syncLen (dev.setLen capdat) / dev.bufferlen < dev.nbuffers ∧
      InRange ((dev.syncLen (dev.setLen capdat) / dev.bufferlen + 1) * dev.bufferlen)

/-- What is left is a value of `int`, and it is nothing or the position is in the buffers. -/
structure RawReads (dev : FsDevice) (capdat : CaptureData) (pos : Int) : Prop where
  channelLen : InRange (dev.channelLen capdat)
  setLen : InRange (dev.setLen capdat)
  left : InRange (dev.setLen capdat - wrap pos)
  position : dev.setLen capdat ≤ wrap pos ∨
    0 ≤ wrap pos ∧ wrap pos < dev.nbuffers * dev.bufferlen

theorem channelLen_eq : capdat.nsamples * dev.wordSize = dev.channelLen capdat := rfl

theorem setLen_eq : dev.channelLen capdat * capdat.nchan = dev.setLen capdat := rfl

theorem syncFrom_stays (setlen : Int) (ibuf : Nat) :
    Stays dev (syncFrom dev setlen ibuf) ↔ InRange (ibuf * dev.bufferlen : Nat) ∧
      (((ibuf * dev.bufferlen : Nat) : Int) ≤ setlen →
        ibuf < dev.nbuffers ∧ Stays dev (syncFrom dev setlen (ibuf + 1))) := by
  rw [syncFrom]
  by_cases h : ((ibuf * dev.bufferlen : Nat) : Int) ≤ setlen
  · rw [dif_pos h, stays_value, stays_cons]
    refine and_congr_right fun _ => ?_
    unfold HbAccess.Inside
    dsimp only
    constructor
    · intro ⟨hinside, hstays⟩ _
      exact ⟨by omega, hstays⟩
    · intro hgo
      exact ⟨by have := (hgo h).1; omega, (hgo h).2⟩
  · rw [dif_neg h, stays_value]
    exact and_congr_right fun _ => ⟨fun _ hle => absurd hle h, fun _ => stays_nil⟩

/-- The loop goes up to the buffer that `len` is in. -/
theorem syncFrom_stays_iff {len ibuf : Nat} (h : ibuf ≤ len / dev.bufferlen) :
    Stays dev (syncFrom dev len ibuf) ↔
      len / dev.bufferlen < dev.nbuffers ∧
        InRange ((len / dev.bufferlen + 1) * dev.bufferlen : Nat) := by
  have hpos := dev.bufferlen_pos
  obtain ⟨k, hk⟩ := Nat.exists_eq_add_of_le h
  induction k generalizing ibuf with
  | zero =>
    have hle := Nat.div_mul_le_self len dev.bufferlen
    have hlt : len < (ibuf + 1) * dev.bufferlen := by
      have := Nat.lt_div_mul_add (a := len) hpos
      rw [Nat.succ_mul]
      rw [hk, Nat.add_zero] at this
      omega
    rw [hk, Nat.add_zero] at hle
    have hnext : Stays dev (syncFrom dev len (ibuf + 1)) ↔
        InRange ((ibuf + 1) * dev.bufferlen : Nat) := by
      rw [syncFrom_stays]
      exact and_iff_left fun hle => absurd (Int.ofNat_le.mp hle) (Nat.not_le.mpr hlt)
    rw [syncFrom_stays, hnext, hk, Nat.add_zero]
    unfold InRange
    rw [Nat.succ_mul]
    omega
  | succ k ih =>
    have hle : ibuf * dev.bufferlen + dev.bufferlen ≤ len := by
      have hmul := Nat.mul_le_mul_right dev.bufferlen (show ibuf + 1 ≤ len / dev.bufferlen by omega)
      have hdiv := Nat.div_mul_le_self len dev.bufferlen
      rw [Nat.succ_mul] at hmul
      omega
    have hlast := Nat.lt_div_mul_add (a := len) hpos
    have hrest : Stays dev (syncFrom dev len (ibuf + 1)) ↔ _ := ih (by omega) (by omega)
    rw [syncFrom_stays, hrest]
    unfold InRange
    rw [Nat.succ_mul]
    omega

theorem a400fsOpenRaw_stays_iff : Stays dev (dev._a400fsOpenRaw capdat) ↔ dev.RawSyncs capdat := by
  have hsync : Stays dev (syncFrom dev (dev.syncLen (dev.setLen capdat)) 0) ↔
      (dev.syncLen (dev.setLen capdat) < 0 ∨
        dev.syncLen (dev.setLen capdat) / dev.bufferlen < dev.nbuffers ∧
          InRange ((dev.syncLen (dev.setLen capdat) / dev.bufferlen + 1) * dev.bufferlen)) := by
    generalize dev.syncLen (dev.setLen capdat) = len
    by_cases hneg : len < 0
    · rw [syncFrom_stays, Nat.zero_mul]
      refine ⟨fun _ => Or.inl hneg, fun _ => ⟨by decide, fun hle => ?_⟩⟩
      exact absurd hneg (Int.not_lt.mpr hle)
    · obtain ⟨n, rfl⟩ := Int.eq_ofNat_of_zero_le (Int.not_lt.mp hneg)
      rw [syncFrom_stays_iff (Nat.zero_le _), or_iff_right (by omega)]
      push_cast
      exact and_congr_left fun _ => Int.ofNat_lt.symm
  simp only [_a400fsOpenRaw, Option.bind_eq_bind, stays_value]
  constructor
  · intro ⟨hchannel, hset, hstays⟩
    exact ⟨hchannel, hset, hsync.mp hstays⟩
  · intro ⟨hchannel, hset, hbuffers⟩
    exact ⟨hchannel, hset, hsync.mpr hbuffers⟩

theorem readRawFile_stays_iff {file : A400FsPdesc} :
    (∀ count < 2 ^ 32, Stays dev (dev._readRawFile capdat file count)) ↔
      dev.RawReads capdat file.offset := by
  have hlen : (0 : Int) < dev.bufferlen := by exact_mod_cast dev.bufferlen_pos
  have hlt := dev.bufferlen_lt
  obtain ⟨hrest, -, -⟩ := rest_spec (wrap file.offset) (Int.ne_of_gt hlen)
  have hquot := inRange_tdiv (inRange_wrap file.offset) hlen
  have hinside := offset_inside_iff (f := wrap file.offset) (n := dev.nbuffers) hlen
  simp only [_readRawFile, Option.bind_eq_bind, stays_value, stays_quot, stays_ite, Option.pure_def,
    stays_nil, stays_singleton, channelLen_eq, setLen_eq, range_test, not_true, not_false_iff,
    true_implies, implies_true, true_and, forall_count_and, forall_count_imp]
  generalize hf : wrap file.offset = f at *
  have hwhole : InRange (dev.setLen capdat - f) → ¬dev.setLen capdat - f ≤ 0 →
      ((∀ count < 2 ^ 32, HbAccess.Inside dev ⟨f.tdiv dev.bufferlen,
          f - f.tdiv dev.bufferlen * dev.bufferlen,
          A400Fs.clip count (min (dev.bufferlen - (f - f.tdiv dev.bufferlen * dev.bufferlen))
            (dev.setLen capdat - f))⟩) ↔ 0 ≤ f ∧ f < dev.nbuffers * dev.bufferlen) := by
    intro hr hleft
    generalize f - f.tdiv dev.bufferlen * dev.bufferlen = r at *
    rw [forall_inside_clip_iff (by unfold InRange at hr ⊢; omega), ← hinside]
    exact and_congr_right fun _ => by omega
  constructor
  · intro ⟨_, _, hchannel, hset, hr, hin⟩
    refine ⟨hchannel, hset, hf ▸ hr, ?_⟩
    rw [hf]
    by_cases hleft : dev.setLen capdat - f ≤ 0
    · exact Or.inl (by omega)
    · exact Or.inr ((hwhole hr hleft).mp (hin hleft))
  · intro h
    have hr := hf ▸ h.left
    refine ⟨Int.ne_of_gt hlen, hquot, h.channelLen, h.setLen, hr, fun hleft => ?_⟩
    refine (hwhole hr hleft).mpr ((hf ▸ h.position).resolve_left ?_)
    omega

/-! ### The channel files of demuxed data -/

/-- The position that a demuxed file is read at. -/
def cookedPos (dev : FsDevice) (pos : Int) : Int := if wrap pos = 0 then dev.pcomp else wrap pos

/-- Where the demuxed data of a channel ends. -/
def cookedEnd (dev : FsDevice) (capdat : CaptureData) : Int := dev.channelLen capdat + dev.pcomp

/-- The bytes of a channel in a buffer. -/
def cookedLen (dev : FsDevice) (capdat : CaptureData) : Int :=
  (dev.bufferlen : Int).tdiv capdat.nchan

/-- The place of a byte among them. -/
def cookedOffset (dev : FsDevice) (capdat : CaptureData) (f : Int) : Int :=
  f - f.tdiv (dev.cookedLen capdat) * dev.cookedLen capdat

/-- The bytes that the buffer and the set have from there on. -/
def cookedLeft (dev : FsDevice) (capdat : CaptureData) (f : Int) : Int :=
  min (dev.cookedLen capdat - dev.cookedOffset capdat f) (dev.cookedEnd capdat - f)

/-- The bytes from position `f` on of a channel that starts at `start`, all of them or the words
that are a stride apart. -/
structure CookedPlace (dev : FsDevice) (capdat : CaptureData) (start stride f : Int) : Prop where
  divisor : stride ≠ 0
  buffer : 0 ≤ f.tdiv (dev.cookedLen capdat) ∧ f.tdiv (dev.cookedLen capdat) < dev.nbuffers
  bytes : stride = 1 → 0 < dev.cookedLeft capdat f ∧ 0 ≤ dev.cookedOffset capdat f + start ∧
    dev.cookedOffset capdat f + start + dev.cookedLeft capdat f ≤ dev.bufferlen
  words : stride ≠ 1 → dev.WordsInside (dev.cookedOffset capdat f + start) (stride * dev.wordSize)
    ((unsigned (dev.cookedLeft capdat f)).toNat / (unsigned stride).toNat / dev.wordSize)

/-- No channel is too short for a byte, all is a value of `int`, and the channel is not read or its
place is in the buffers. -/
structure CookedReads (dev : FsDevice) (capdat : CaptureData) (map : InodeMap)
    (start stride pos : Int) : Prop where
  nchan : capdat.nchan ≠ 0
  buffer : capdat.nchan.natAbs ≤ dev.bufferlen
  quotient : InRange ((dev.cookedPos pos).tdiv (dev.cookedLen capdat))
  channelLen : InRange (dev.channelLen capdat)
  cookedEnd : InRange (dev.cookedEnd capdat)
  left : InRange (dev.cookedEnd capdat - dev.cookedPos pos)
  place : dev.nchanEnabled map.adev < map.channel ∨
    dev.cookedEnd capdat ≤ dev.cookedPos pos ∨
    dev.CookedPlace capdat start stride (dev.cookedPos pos)

theorem wrap_add_unsigned (a b : Int) : wrap (a + unsigned b) = wrap (a + b) := by
  unfold wrap unsigned
  exact Int.add_emod_bmod b 4294967296

theorem cookedEnd_eq : dev.channelLen capdat + dev.pcomp = dev.cookedEnd capdat := rfl

theorem cookedPos_eq {pos : Int} :
    (if wrap pos = 0 then dev.pcomp else wrap pos) = dev.cookedPos pos := rfl

theorem tdiv_ne_zero_iff {n : Int} :
    (dev.bufferlen : Int).tdiv n ≠ 0 ↔ n ≠ 0 ∧ n.natAbs ≤ dev.bufferlen := by
  have habs : ((dev.bufferlen : Int).tdiv n).natAbs = dev.bufferlen / n.natAbs := by
    rw [Int.natAbs_tdiv, Int.natAbs_natCast]
    rfl
  rw [← Int.natAbs_ne_zero, habs, ← Int.natAbs_ne_zero, Nat.div_ne_zero_iff]

theorem bufferlen_tdiv_le (dev : FsDevice) (n : Int) :
    ((dev.bufferlen : Int).tdiv n).natAbs ≤ dev.bufferlen := by
  rw [Int.natAbs_tdiv, Int.natAbs_natCast]
  exact Nat.div_le_self _ _

theorem cookedLen_eq : (dev.bufferlen : Int).tdiv capdat.nchan = dev.cookedLen capdat := rfl

theorem cookedOffset_eq {f : Int} :
    f - f.tdiv (dev.cookedLen capdat) * dev.cookedLen capdat = dev.cookedOffset capdat f := rfl

theorem cookedLeft_eq {f : Int} :
    min (dev.cookedLen capdat - dev.cookedOffset capdat f) (dev.cookedEnd capdat - f) =
      dev.cookedLeft capdat f := rfl

/-- The words of as many bytes as a count can ask for are the most. -/
theorem forall_words_iff {file : A400FsPdesc} {ibuf cursor left : Int}
    (hzero : unsigned file.stride ≠ 0) (hone : file.stride ≠ 1) :
    (∀ lbuf lbufLen, ∀ count < 2 ^ 32, Stays dev (dev.copyChan
        { file with lbuf := lbuf, lbufLen := lbufLen } ibuf cursor (A400Fs.clip count left))) ↔
      (0 ≤ ibuf ∧ ibuf < dev.nbuffers) ∧ dev.WordsInside cursor (file.stride * dev.wordSize)
        ((unsigned left).toNat / (unsigned file.stride).toNat / dev.wordSize) := by
  obtain ⟨u, hu⟩ : ∃ u : Nat, unsigned file.stride = u := Int.eq_ofNat_of_zero_le (by
    unfold unsigned
    omega)
  have hpos : 0 < u := by omega
  have hwords : ∀ (count : Nat) (lbuf : Option (Nat → UInt8)) (lbufLen : Int),
      Stays dev (dev.copyChan { file with lbuf := lbuf, lbufLen := lbufLen } ibuf cursor count) ↔
        (0 ≤ ibuf ∧ ibuf < dev.nbuffers) ∧ dev.WordsInside cursor (file.stride * dev.wordSize)
          ((if lbuf.isSome then A400Fs.clip count lbufLen else count) / u / dev.wordSize) := by
    intro count lbuf lbufLen
    unfold copyChan
    dsimp only
    simp only [if_neg hone, hu, div_natCast _ hpos, Option.bind_eq_bind, Option.bind_some,
      div_natCast _ dev.wordSize_pos]
    exact stays_lookup
  rw [hu, Int.toNat_natCast]
  constructor
  · intro hall
    have hmost := hall none 0 (unsigned left).toNat (by
      unfold unsigned
      omega)
    rwa [clip_eq, Nat.min_self, hwords, if_neg (by simp)] at hmost
  · intro ⟨hibuf, hmost⟩ lbuf lbufLen count _
    refine (hwords _ lbuf lbufLen).mpr ⟨hibuf, hmost.of_le ?_⟩
    refine Nat.div_le_div_right (Nat.div_le_div_right ?_)
    simp only [clip_eq]
    split
    · omega
    · omega

theorem cooked_place_iff {file : A400FsPdesc} {start f : Int} (hlen : dev.cookedLen capdat ≠ 0)
    (hstart : InRange start) (hstride : InRange file.stride)
    (hr : InRange (dev.cookedEnd capdat - f)) (hbefore : f < dev.cookedEnd capdat) :
    (∀ lbuf lbufLen, ∀ count < 2 ^ 32, Stays dev (dev.copyChan
        { file with lbuf := lbuf, lbufLen := lbufLen } (f.tdiv (dev.cookedLen capdat))
        (wrap (dev.cookedOffset capdat f + unsigned start))
        (A400Fs.clip count (dev.cookedLeft capdat f)))) ↔
      dev.CookedPlace capdat start file.stride f := by
  have hmost := bufferlen_tdiv_le dev capdat.nchan
  rw [cookedLen_eq] at hmost
  have hlt := dev.bufferlen_lt
  obtain ⟨hrest, -, -⟩ := rest_spec f hlen
  rw [cookedOffset_eq] at hrest
  have hleft : dev.cookedLeft capdat f ≠ 0 ∧ InRange (dev.cookedLeft capdat f) := by
    unfold cookedLeft
    unfold InRange at hr ⊢
    omega
  have hbounds : -3221225472 ≤ dev.cookedOffset capdat f + start ∧
      dev.cookedOffset capdat f + start < 4294967296 := by
    unfold InRange at hstart
    omega
  rw [wrap_add_unsigned]
  by_cases hone : file.stride = 1
  · have hcopied : ∀ count lbuf lbufLen, Stays dev (dev.copyChan
        { file with lbuf := lbuf, lbufLen := lbufLen } (f.tdiv (dev.cookedLen capdat))
        (wrap (dev.cookedOffset capdat f + start)) count) ↔
          HbAccess.Inside dev ⟨f.tdiv (dev.cookedLen capdat),
            wrap (dev.cookedOffset capdat f + start), count⟩ := by
      intro count lbuf lbufLen
      unfold copyChan
      rw [if_pos hone, stays_singleton]
    simp only [hcopied, forall_const]
    rw [forall_inside_clip_iff hleft.2, or_iff_right hleft.1]
    constructor
    · intro ⟨hibuf, hpos, hbytes⟩
      exact ⟨by omega, hibuf,
        fun _ => ⟨hpos, (wrap_start_iff hbounds.1 hbounds.2 hpos).mp hbytes⟩,
        fun hne => absurd hone hne⟩
    · intro h
      obtain ⟨hpos, hbytes⟩ := h.bytes hone
      exact ⟨h.buffer, hpos, (wrap_start_iff hbounds.1 hbounds.2 hpos).mpr hbytes⟩
  · by_cases hzero : file.stride = 0
    · refine iff_of_false (fun hall => ?_) fun h => h.divisor hzero
      obtain ⟨accesses, hsome, -⟩ := hall none 0 0 (by decide)
      unfold copyChan at hsome
      rw [if_neg hone, hzero] at hsome
      cases hsome
    · have hunsigned : unsigned file.stride ≠ 0 := by
        unfold unsigned
        unfold InRange at hstride
        omega
      rw [forall_words_iff hunsigned hone, wordsInside_wrap hbounds.1 hbounds.2]
      exact ⟨fun ⟨hibuf, hwords⟩ => ⟨hzero, hibuf, fun h => absurd h hone, fun _ => hwords⟩,
        fun h => ⟨h.buffer, h.words hone⟩⟩

theorem readChanFile_stays_iff {file : A400FsPdesc} {start : Int} (hstart : InRange start)
    (hfile : file.bufferOffset = unsigned start) (hstride : InRange file.stride) :
    (∀ lbuf lbufLen, ∀ count < 2 ^ 32, Stays dev
        (dev.readChanFile capdat { file with lbuf := lbuf, lbufLen := lbufLen } count)) ↔
      dev.CookedReads capdat file.map start file.stride file.offset := by
  simp only [readChanFile, Option.bind_eq_bind, stays_value, stays_quot, stays_ite, Option.pure_def,
    stays_nil, channelLen_eq, cookedEnd_eq, cookedPos_eq, cookedLen_eq, cookedOffset_eq,
    cookedLeft_eq, range_test, not_true, not_false_iff, true_implies, implies_true, true_and,
    forall_count_and, forall_count_imp, hfile, gt_iff_lt]
  simp only [forall_and, forall_const]
  have hmost := bufferlen_tdiv_le dev capdat.nchan
  have hlt := dev.bufferlen_lt
  rw [cookedLen_eq] at hmost
  constructor
  · intro ⟨hn, _, hlen, hquot, hchannel, hend, hr, hin⟩
    refine ⟨hn, (tdiv_ne_zero_iff.mp hlen).2, hquot, hchannel, hend, hr, ?_⟩
    by_cases henabled : dev.nchanEnabled file.map.adev < file.map.channel
    · exact Or.inl henabled
    · by_cases hleft : dev.cookedEnd capdat - dev.cookedPos file.offset ≤ 0
      · exact Or.inr (Or.inl (by omega))
      · exact Or.inr (Or.inr ((cooked_place_iff hlen hstart hstride hr (by omega)).mp
          fun lbuf lbufLen => hin lbuf lbufLen henabled hleft))
  · intro h
    have hlen : dev.cookedLen capdat ≠ 0 := tdiv_ne_zero_iff.mpr ⟨h.nchan, h.buffer⟩
    refine ⟨h.nchan, by unfold InRange; omega, hlen, h.quotient, h.channelLen, h.cookedEnd, h.left,
      fun lbuf lbufLen henabled hleft => ?_⟩
    refine (cooked_place_iff hlen hstart hstride h.left (by omega)).mpr ?_ lbuf lbufLen
    exact (h.place.resolve_left henabled).resolve_left (by omega)

/-! ### The channel files of data that has not been demuxed -/

/-- The sample that a file is read at. -/
def muxSam (dev : FsDevice) (pos : Int) : Int :=
  (wrap (if pos = 0 then pos + dev.pcomp else pos)).tdiv dev.wordSize

/-- The samples of a buffer. -/
def muxBufferSam (dev : FsDevice) (capdat : CaptureData) : Int :=
  (dev.bufferlen : Int).tdiv (capdat.nchan * dev.wordSize)

/-- The place of a sample in its buffer. -/
def muxOffset (dev : FsDevice) (capdat : CaptureData) (fsam : Int) : Int :=
  fsam - fsam.tdiv (dev.muxBufferSam capdat) * dev.muxBufferSam capdat

/-- The samples that the buffer and the set have from there on. -/
def muxLeft (dev : FsDevice) (capdat : CaptureData) (fsam : Int) : Int :=
  min (dev.muxBufferSam capdat - dev.muxOffset capdat fsam) (capdat.nsamples - fsam)

/-- The most samples that a count can ask for; a negative number of them is taken for more. -/
def muxMost (dev : FsDevice) (capdat : CaptureData) (fsam : Int) : Nat :=
  if dev.muxLeft capdat fsam < 0 then 2147483647 / dev.wordSize
  else (dev.muxLeft capdat fsam).toNat

/-- A sample is no longer than a buffer, all is a value of `int`, and the channel is not read or its
words are in the buffer. -/
structure MuxReads (dev : FsDevice) (capdat : CaptureData) (map : InodeMap)
    (start stride pos : Int) : Prop where
  nchan : capdat.nchan ≠ 0
  sample : InRange (capdat.nchan * dev.wordSize)
  buffer : (capdat.nchan * dev.wordSize).natAbs ≤ dev.bufferlen
  quotient : InRange ((dev.muxSam pos).tdiv (dev.muxBufferSam capdat))
  samples : InRange (capdat.nsamples - dev.muxSam pos)
  bytes : InRange (dev.muxLeft capdat (dev.muxSam pos) * dev.wordSize)
  place : dev.nchanEnabled map.adev < map.channel ∨
    ¬(0 ≤ (dev.muxSam pos).tdiv (dev.muxBufferSam capdat) ∧
      (dev.muxSam pos).tdiv (dev.muxBufferSam capdat) < dev.nbuffers) ∨
    (dev.wordSize ≠ 2 ∧ dev.wordSize ≠ 4) ∨
    dev.WordsInside (dev.muxOffset capdat (dev.muxSam pos) * (capdat.nchan * dev.wordSize) + start)
      (stride * dev.wordSize) (dev.muxMost capdat (dev.muxSam pos))

theorem clipSamples_of_nonneg {w : Nat} {h : Int} (count : Nat) (hw : 0 < w) (hpos : 0 ≤ h)
    (hr : InRange (h * w)) :
    ∃ n, A400Fs.clipSamples w count h (h * w) = some (n, min h ((count / w : Nat) : Int)) := by
  obtain ⟨k, rfl⟩ := Int.eq_ofNat_of_zero_le hpos
  have hunsigned : unsigned ((k : Int) * w) = (k * w : Nat) := by
    rw [← Int.natCast_mul]
    refine unsigned_natCast ?_
    unfold InRange at hr
    push_cast at hr ⊢
    omega
  unfold A400Fs.clipSamples
  rw [hunsigned]
  have hle := Nat.div_mul_le_self count w
  by_cases hmore : k * w < count
  · rw [if_pos (Int.ofNat_lt.mpr hmore)]
    have : k ≤ count / w := (Nat.le_div_iff_mul_le hw).mpr (Nat.le_of_lt hmore)
    exact ⟨_, by rw [Int.min_eq_left (Int.ofNat_le.mpr this)]⟩
  · rw [if_neg (fun h => hmore (Int.ofNat_lt.mp h))]
    by_cases hless : count < k * w
    · have hcount : count / w ≤ k := Nat.div_le_of_le_mul (by rw [Nat.mul_comm]; omega)
      have hlt : count < 2 ^ 31 := by
        unfold InRange at hr
        omega
      rw [if_pos (Int.ofNat_lt.mpr hless), wrap_natCast hlt, div_natCast _ hw,
        Int.min_eq_right (Int.ofNat_le.mpr hcount)]
      exact ⟨_, rfl⟩
    · rw [if_neg (fun h => hless (Int.ofNat_lt.mp h))]
      have hcount : count = k * w := by omega
      rw [hcount, Nat.mul_div_cancel _ hw, Int.min_self]
      exact ⟨_, rfl⟩

/-- A negative number of samples is taken for more than any count. -/
theorem clipSamples_of_neg {w : Nat} {h : Int} (count : Nat) (hw : 0 < w) (hneg : h < 0)
    (hr : InRange (h * w)) (hcount : count < 2 ^ 31) :
    A400Fs.clipSamples w count h (h * w) = some (count, ((count / w : Nat) : Int)) := by
  have hprod : h * w < 0 := Int.mul_neg_of_neg_of_pos hneg (by omega)
  unfold InRange at hr
  have hunsigned : (count : Int) < unsigned (h * w) := by
    unfold unsigned
    omega
  unfold A400Fs.clipSamples
  rw [if_neg (by omega), if_pos hunsigned, wrap_natCast hcount, div_natCast _ hw]
  rfl

theorem clipSamples_some {w count : Nat} {h headcount : Int} (hw : 0 < w) :
    ∃ r, A400Fs.clipSamples w count h headcount = some r := by
  unfold A400Fs.clipSamples
  split
  · exact ⟨_, rfl⟩
  · split
    · unfold div
      rw [if_neg (by omega)]
      exact ⟨_, rfl⟩
    · exact ⟨_, rfl⟩

/-- The rows before a place in a buffer are not longer than the buffer. -/
theorem muxOffset_mul_le (fsam : Int) (hs : capdat.nchan * dev.wordSize ≠ 0)
    (hlen : (capdat.nchan * dev.wordSize).natAbs ≤ dev.bufferlen) :
    (dev.muxOffset capdat fsam * (capdat.nchan * dev.wordSize)).natAbs ≤ dev.bufferlen := by
  have hsam : dev.muxBufferSam capdat ≠ 0 := tdiv_ne_zero_iff.mpr ⟨hs, hlen⟩
  have hrest := (rest_spec fsam hsam).1
  have hfit : (dev.muxBufferSam capdat).natAbs * (capdat.nchan * dev.wordSize).natAbs ≤
      dev.bufferlen := by
    unfold muxBufferSam
    rw [Int.natAbs_tdiv, Int.natAbs_natCast]
    exact Nat.div_mul_le_self _ _
  rw [Int.natAbs_mul]
  exact Nat.le_trans (Nat.mul_le_mul_right _ (Nat.le_of_lt hrest)) hfit

/-- A multiple of the word size is one after it has been wrapped. -/
theorem wrap_word {w : Nat} (hw : w = 2 ∨ w = 4) (y : Int) :
    (wrap (y * w)).tdiv w * w = wrap (y * w) := by
  refine Int.tdiv_mul_cancel ?_
  unfold wrap
  rw [Int.bmod_def]
  obtain rfl | rfl := hw
  · split
    · omega
    · omega
  · split
    · omega
    · omega

/-- What holds of fewer samples holds of all counts if it holds of the most. -/
theorem forall_clipSamples_iff {w : Nat} {h : Int} (hw : 0 < w) (hr : InRange (h * w))
    {p : Nat → Prop} (hless : ∀ {m n}, p n → m ≤ n → p m) :
    (∀ count < 2 ^ 32, ∀ n hs, A400Fs.clipSamples w count h (h * w) = some (n, hs) → p hs.toNat) ↔
      p (if h < 0 then 2147483647 / w else h.toNat) := by
  by_cases hneg : h < 0
  · rw [if_pos hneg]
    constructor
    · intro hall
      have hmost := hall 2147483647 (by decide) _ _ (clipSamples_of_neg 2147483647 hw hneg hr
        (by decide))
      rwa [Int.toNat_natCast] at hmost
    · intro hmost count _ n hs hclip
      refine hless hmost ?_
      by_cases hcount : count < 2 ^ 31
      · rw [clipSamples_of_neg count hw hneg hr hcount] at hclip
        cases hclip
        rw [Int.toNat_natCast]
        exact Nat.div_le_div_right (by omega)
      · -- such a count is a negative `int`
        have hnone : hs ≤ 0 := by
          have hwrap : wrap count ≤ 0 := by
            unfold wrap
            rw [Int.bmod_def]
            split
            · omega
            · omega
          unfold A400Fs.clipSamples at hclip
          split at hclip
          · cases hclip
            omega
          · split at hclip
            · obtain ⟨q, hq, heq⟩ := Option.map_eq_some_iff.mp hclip
              cases heq
              unfold div at hq
              rw [if_neg (by omega)] at hq
              have hback := Int.tdiv_nonneg (Int.neg_nonneg.mpr hwrap) (Int.natCast_nonneg w)
              rw [Int.neg_tdiv, Option.some.inj hq] at hback
              omega
            · cases hclip
              omega
        rw [Int.toNat_of_nonpos hnone]
        exact Nat.zero_le _
  · rw [if_neg hneg]
    have hbytes : 0 ≤ h * w := Int.mul_nonneg (by omega) (Int.natCast_nonneg w)
    constructor
    · intro hall
      obtain ⟨n, hclip⟩ := clipSamples_of_nonneg (h * w).toNat hw (by omega) hr
      have hcount : ((h * w).toNat / w : Nat) = h := by
        rw [Int.natCast_ediv, Int.toNat_of_nonneg hbytes]
        exact Int.mul_ediv_cancel _ (by omega)
      rw [hcount, Int.min_self] at hclip
      exact hall _ (by unfold InRange at hr; omega) n h hclip
    · intro hmost count _ n hs hclip
      obtain ⟨n', hclip'⟩ := clipSamples_of_nonneg count hw (by omega) hr
      rw [hclip'] at hclip
      cases hclip
      exact hless hmost (by omega)

/-- The words of the samples, as many as there can be asked for. -/
theorem mux_words_iff {start stride fsam ibuf : Int} (hw : dev.wordSize = 2 ∨ dev.wordSize = 4)
    (hn : capdat.nchan ≠ 0) (hlen : (capdat.nchan * dev.wordSize).natAbs ≤ dev.bufferlen)
    (hstart : InRange (start * dev.wordSize))
    (hr : InRange (dev.muxLeft capdat fsam * dev.wordSize))
    (hibuf : 0 ≤ ibuf ∧ ibuf < dev.nbuffers) :
    (∀ count < 2 ^ 32, ∀ n hs, A400Fs.clipSamples dev.wordSize count (dev.muxLeft capdat fsam)
        (dev.muxLeft capdat fsam * dev.wordSize) = some (n, hs) →
      Stays dev (some (dev.strided ibuf
        ((wrap (dev.muxOffset capdat fsam * (capdat.nchan * dev.wordSize) +
          unsigned (start * dev.wordSize))).tdiv dev.wordSize * dev.wordSize) stride hs.toNat))) ↔
      dev.WordsInside (dev.muxOffset capdat fsam * (capdat.nchan * dev.wordSize) +
        start * dev.wordSize) (stride * dev.wordSize) (dev.muxMost capdat fsam) := by
  have hlt := dev.bufferlen_lt
  have hs : capdat.nchan * dev.wordSize ≠ 0 :=
    Int.mul_ne_zero hn (Int.ne_of_gt (Int.natCast_pos.mpr dev.wordSize_pos))
  have habs := muxOffset_mul_le fsam hs hlen
  have hfirst : dev.muxOffset capdat fsam * (capdat.nchan * dev.wordSize) + start * dev.wordSize =
      (dev.muxOffset capdat fsam * capdat.nchan + start) * dev.wordSize := by ring
  have hstays : ∀ n, Stays dev (some (dev.strided ibuf
      ((wrap (dev.muxOffset capdat fsam * (capdat.nchan * dev.wordSize) +
        unsigned (start * dev.wordSize))).tdiv dev.wordSize * dev.wordSize) stride n)) ↔
      dev.WordsInside (dev.muxOffset capdat fsam * (capdat.nchan * dev.wordSize) +
        start * dev.wordSize) (stride * dev.wordSize) n := by
    intro n
    rw [wrap_add_unsigned, hfirst, wrap_word hw, ← hfirst, stays_strided hibuf]
    unfold InRange at hstart
    exact wordsInside_wrap (by omega) (by omega)
  simp only [hstays]
  exact forall_clipSamples_iff dev.wordSize_pos hr WordsInside.of_le

theorem muxSam_eq {pos : Int} :
    (wrap (if pos = 0 then pos + dev.pcomp else pos)).tdiv dev.wordSize = dev.muxSam pos := rfl

theorem muxBufferSam_eq :
    (dev.bufferlen : Int).tdiv (capdat.nchan * dev.wordSize) = dev.muxBufferSam capdat := rfl

theorem muxOffset_eq {fsam : Int} :
    fsam - fsam.tdiv (dev.muxBufferSam capdat) * dev.muxBufferSam capdat =
      dev.muxOffset capdat fsam := rfl

theorem muxLeft_eq {fsam : Int} :
    min (dev.muxBufferSam capdat - dev.muxOffset capdat fsam) (capdat.nsamples - fsam) =
      dev.muxLeft capdat fsam := rfl

theorem stays_bind {r : Option (Nat × Int)} (hr : ∃ x, r = some x)
    {g : Nat × Int → Option (List HbAccess)} :
    Stays dev (r.bind g) ↔ ∀ n hs, r = some (n, hs) → Stays dev (g (n, hs)) := by
  obtain ⟨⟨n, hs⟩, rfl⟩ := hr
  constructor
  · intro h n' hs' heq
    cases heq
    exact h
  · intro h
    exact h n hs rfl

theorem readChanFileMuxdata_stays_iff {file : A400FsPdesc} {start : Int}
    (hstart : InRange (start * dev.wordSize))
    (hfile : file.bufferOffset = unsigned (start * dev.wordSize)) :
    (∀ count < 2 ^ 32, Stays dev (dev.readChanFileMuxdata capdat file count)) ↔
      dev.MuxReads capdat file.map (start * dev.wordSize) file.stride file.offset := by
  have hws : (0 : Int) < dev.wordSize := by exact_mod_cast dev.wordSize_pos
  have hclip : ∀ count h headcount,
      ∃ r, A400Fs.clipSamples dev.wordSize count h headcount = some r :=
    fun _ _ _ => clipSamples_some dev.wordSize_pos
  simp only [readChanFileMuxdata, Option.bind_eq_bind, stays_value, stays_quot, Option.pure_def,
    forall_count_and, hfile, muxSam_eq, muxBufferSam_eq, muxOffset_eq, muxLeft_eq,
    stays_bind (hclip _ _ _), stays_ite, stays_nil, implies_true, true_and]
  have hquot : InRange (dev.muxSam file.offset) := inRange_tdiv (inRange_wrap _) hws
  have hsam := bufferlen_tdiv_le dev (capdat.nchan * dev.wordSize)
  rw [muxBufferSam_eq] at hsam
  have hlt := dev.bufferlen_lt
  constructor
  · intro ⟨hsample, _, _, hssb, _, hbuffer, hquotient, _, _, hsamples, hbytes, hall⟩
    have hlen := (tdiv_ne_zero_iff.mp hbuffer).2
    have hn : capdat.nchan ≠ 0 := fun h => hssb (by rw [h, Int.zero_mul])
    refine ⟨hn, hsample, hlen, hquotient, hsamples, hbytes, ?_⟩
    by_contra hplace
    push Not at hplace
    obtain ⟨henabled, hibuf, hword, hnot⟩ := hplace
    have hw : dev.wordSize = 2 ∨ dev.wordSize = 4 := by omega
    refine hnot ((mux_words_iff hw hn hlen hstart hbytes hibuf).mp ?_)
    intro count hcount n hs hclip
    by_cases hsome : hs ≤ 0
    · rw [Int.toNat_of_nonpos hsome]
      exact (stays_strided hibuf).mpr (.inl rfl)
    · exact hall count hcount n hs hclip (by omega) hsome (fun h => h hibuf) (by omega)
  · intro h
    have hssb : capdat.nchan * dev.wordSize ≠ 0 := Int.mul_ne_zero h.nchan (Int.ne_of_gt hws)
    refine ⟨h.sample, Int.ne_of_gt hws, hquot, hssb, by unfold InRange; omega,
      tdiv_ne_zero_iff.mpr ⟨hssb, h.buffer⟩, h.quotient,
      Int.ne_of_gt hws, inRange_tdiv (inRange_wrap _) hws, h.samples, h.bytes, ?_⟩
    intro count hcount n hs hclip henabled _ hibuf hword
    have hplace := h.place
    rw [or_iff_right henabled, or_iff_right hibuf, or_iff_right hword] at hplace
    exact (mux_words_iff (by omega) h.nchan h.buffer hstart h.bytes
      (not_not.mp hibuf)).mpr hplace count hcount n hs hclip

/-! ### Opening and reading -/

/-- The stride of a file that has one from its open, or from the last call of `ACQ400_FS_STRIDE`. -/
def strideOf (set : Option Nat) (stride : Int) : Int :=
  match set with
  | none => stride
  | some arg => wrap arg

theorem unlockedIoctl_stride (file : A400FsPdesc) (arg : Nat) :
    A400Fs.a400fsUnlockedIoctl file A400Fs.acq400FsStride arg =
      (0, { file with stride := strideOf (some arg) file.stride }) := by
  unfold A400Fs.a400fsUnlockedIoctl
  rw [if_pos rfl]
  rfl

/-- A file as a read finds it, where the client has moved it, with what earlier calls have left. -/
def found (file : A400FsPdesc) (set : Option Nat) (pos : Int) (lbuf : Option (Nat → UInt8))
    (lbufLen : Int) : A400FsPdesc :=
  { file with stride := strideOf set file.stride, offset := pos, lbuf := lbuf, lbufLen := lbufLen }

/-- An open under one `CAPDAT` stays inside, and so do the reads of its file under another. -/
def StaysInBuffers (dev : FsDevice) (atOpen atRead : CaptureData) (map : InodeMap)
    (reading : Bool) (set : Option Nat) (pos : Int) : Prop :=
  ∀ heap, ∃ accesses file, dev.openFile atOpen map heap reading = some (accesses, file) ∧
    (∀ a ∈ accesses, a.Inside dev) ∧
    (reading = true → ∀ pd, file = some pd → ∀ lbuf lbufLen, ∀ count < 2 ^ 32,
      Stays dev (dev.readFile atRead atOpen (found pd set pos lbuf lbufLen) count))

/-- The channels can be counted, and what is read of the set is in the buffers. -/
def RawWithin (dev : FsDevice) (atOpen atRead : CaptureData) (reading : Bool) (pos : Int) : Prop :=
  atOpen.nchan ≠ 0 ∧ (reading = true → dev.RawSyncs atOpen ∧ dev.RawReads atRead pos)

/-- The start of the channel is a value of `int`, and what is read of it is in the buffers. -/
def MuxWithin (dev : FsDevice) (atOpen atRead : CaptureData) (map : InodeMap) (reading : Bool)
    (set : Option Nat) (pos : Int) : Prop :=
  InRange (dev.chanOffsetW map * dev.wordSize) ∧ (reading = true →
    dev.MuxReads atRead map (dev.chanOffsetW map * dev.wordSize) (strideOf set atOpen.nchan) pos)

def CookedWithin (dev : FsDevice) (atOpen atRead : CaptureData) (map : InodeMap) (reading : Bool)
    (set : Option Nat) (pos : Int) : Prop :=
  (InRange (dev.chanOffsetW map * dev.bufferlen) ∧ atOpen.nchan ≠ 0) ∧ (reading = true →
    dev.CookedReads atRead map ((dev.chanOffsetW map * dev.bufferlen).tdiv atOpen.nchan)
      (strideOf set 1) pos)

/-- The condition of the file; a channel file that has no place in a sample is not opened. -/
def Within (dev : FsDevice) (atOpen atRead : CaptureData) (map : InodeMap) (reading : Bool)
    (set : Option Nat) (pos : Int) : Prop :=
  if map.channel = 0 then dev.RawWithin atOpen atRead reading pos
  else dev.chanOffsetW map < 0 ∨
    if atOpen.isCooked = 0 then dev.MuxWithin atOpen atRead map reading set pos
    else dev.CookedWithin atOpen atRead map reading set pos

/-- A file as its open has made it. -/
def opened (map : InodeMap) (wordOffset bufferOffset stride : Int) (heap : Nat → Nat → UInt8) :
    A400FsPdesc :=
  { map := map, wordOffset := wordOffset, bufferOffset := unsigned bufferOffset, stride := stride,
    lbufLen := 0, lbuf := none, offset := 0, heap := heap }

section kinds

variable {atOpen atRead : CaptureData} {map : InodeMap} {reading : Bool} {set : Option Nat}
  {pos : Int}

/-- An open that succeeds under a condition, and the reads after it. -/
theorem staysInBuffers_of_open {c reads : Prop} [Decidable c] (accesses : List HbAccess)
    (file : (Nat → Nat → UInt8) → A400FsPdesc)
    (hopen : ∀ heap, dev.openFile atOpen map heap reading =
      if c then some (accesses, some (file heap)) else none)
    (hread : c → ∀ heap, (∀ lbuf lbufLen, ∀ count < 2 ^ 32,
      Stays dev (dev.readFile atRead atOpen (found (file heap) set pos lbuf lbufLen) count)) ↔
        reads) :
    dev.StaysInBuffers atOpen atRead map reading set pos ↔
      c ∧ (∀ a ∈ accesses, a.Inside dev) ∧ (reading = true → reads) := by
  constructor
  · intro h
    obtain ⟨accesses', file', hsome, hin, hreads⟩ := h fun _ _ => 0
    rw [hopen] at hsome
    by_cases hc : c
    · rw [if_pos hc] at hsome
      cases hsome
      exact ⟨hc, hin, fun hr => (hread hc _).mp (hreads hr _ rfl)⟩
    · rw [if_neg hc] at hsome
      cases hsome
  · intro ⟨hc, hin, hreads⟩ heap
    refine ⟨accesses, some (file heap), by rw [hopen, if_pos hc], hin, fun hr pd hpd => ?_⟩
    cases hpd
    exact (hread hc heap).mpr (hreads hr)

theorem staysInBuffers_of_open_nil {c reads : Prop} [Decidable c]
    (file : (Nat → Nat → UInt8) → A400FsPdesc)
    (hopen : ∀ heap, dev.openFile atOpen map heap reading =
      if c then some ([], some (file heap)) else none)
    (hread : c → ∀ heap, (∀ lbuf lbufLen, ∀ count < 2 ^ 32,
      Stays dev (dev.readFile atRead atOpen (found (file heap) set pos lbuf lbufLen) count)) ↔
        reads) :
    dev.StaysInBuffers atOpen atRead map reading set pos ↔ c ∧ (reading = true → reads) := by
  rw [staysInBuffers_of_open [] file hopen hread]
  exact and_congr_right fun _ => and_iff_right fun _ h => nomatch h

end kinds

theorem quot_offset {wo : Int} (hr : InRange (wo * dev.bufferlen)) (hwo : 0 ≤ wo) :
    InRange ((wo * dev.bufferlen).tdiv capdat.nchan) := by
  have hpos := Int.mul_nonneg hwo (Int.natCast_nonneg dev.bufferlen)
  have habs : ((wo * dev.bufferlen).tdiv capdat.nchan).natAbs ≤ (wo * dev.bufferlen).natAbs := by
    rw [Int.natAbs_tdiv]
    exact Nat.div_le_self _ _
  unfold InRange at hr ⊢
  omega

theorem getBufferOffsetB_eq {wo : Int} (hwo : 0 ≤ wo) :
    dev.getBufferOffsetB capdat wo =
      if InRange (wo * dev.bufferlen) ∧ capdat.nchan ≠ 0 then
        some ((wo * dev.bufferlen).tdiv capdat.nchan)
      else none := by
  unfold getBufferOffsetB
  by_cases hr : InRange (wo * dev.bufferlen)
  · rw [value_of_inRange hr, Option.bind_some]
    by_cases hn : capdat.nchan = 0
    · rw [if_neg (fun h => h.2 hn), hn]
      rfl
    · unfold quot div
      rw [if_neg hn, if_pos ⟨hr, hn⟩, Option.bind_some, value_of_inRange (quot_offset hr hwo)]
  · rw [if_neg (fun h => hr h.1)]
    unfold value
    rw [if_neg hr]
    rfl

/-! ### The three kinds of files -/

section kinds

variable {atOpen atRead : CaptureData} {map : InodeMap} {reading : Bool} {set : Option Nat}
  {pos : Int}

theorem raw_stays_iff (hraw : map.channel = 0) :
    dev.StaysInBuffers atOpen atRead map reading set pos ↔
      dev.RawWithin atOpen atRead reading pos := by
  have hoffset : dev.getBufferOffsetB atOpen 0 = if atOpen.nchan ≠ 0 then some 0 else none := by
    rw [getBufferOffsetB_eq (Int.le_refl 0), Int.zero_mul, Int.zero_tdiv]
    by_cases hn : atOpen.nchan = 0
    · rw [if_neg (fun h => h.2 hn), if_neg (not_not.mpr hn)]
    · rw [if_pos ⟨by decide, hn⟩, if_pos hn]
  have hread : ∀ heap, (∀ lbuf lbufLen, ∀ count < 2 ^ 32, Stays dev (dev.readFile atRead atOpen
      (found (opened map 0 0 1 heap) set pos lbuf lbufLen) count)) ↔ dev.RawReads atRead pos := by
    intro heap
    have : ∀ lbuf lbufLen count, dev.readFile atRead atOpen
        (found (opened map 0 0 1 heap) set pos lbuf lbufLen) count =
        dev._readRawFile atRead { opened map 0 0 1 heap with offset := pos } count := by
      intro lbuf lbufLen count
      exact if_pos hraw
    simp only [this, forall_const]
    exact readRawFile_stays_iff
  have hopen : ∀ heap, dev.a400fsOpen atOpen map heap =
      if atOpen.nchan ≠ 0 then some (some (opened map 0 0 1 heap)) else none := by
    intro heap
    unfold a400fsOpen
    rw [if_pos hraw]
    dsimp only
    rw [hoffset]
    split
    · rfl
    · rfl
  unfold RawWithin
  by_cases hr : reading = true
  · subst hr
    rw [forall_prop_of_true rfl, ← a400fsOpenRaw_stays_iff]
    cases hsync : dev._a400fsOpenRaw atOpen with
    | none =>
      refine iff_of_false (fun h => ?_) fun h => ?_
      · obtain ⟨accesses, file, hsome, -⟩ := h fun _ _ => 0
        unfold openFile at hsome
        rw [hopen, hsync] at hsome
        simp [hraw] at hsome
      · obtain ⟨accesses, hsome, -⟩ := h.2.1
        cases hsome
    | some accesses =>
      have hstays : Stays dev (some accesses) ↔ ∀ a ∈ accesses, a.Inside dev := by simp [Stays]
      rw [hstays]
      have hfile : ∀ heap, dev.openFile atOpen map heap true =
          if atOpen.nchan ≠ 0 then some (accesses, some (opened map 0 0 1 heap)) else none := by
        intro heap
        unfold openFile
        rw [hopen, hsync]
        split
        · exact if_pos ⟨hraw, rfl⟩
        · rfl
      rw [staysInBuffers_of_open accesses _ hfile fun _ => hread, forall_prop_of_true rfl]
  · rw [Bool.not_eq_true] at hr
    subst hr
    have hfile : ∀ heap, dev.openFile atOpen map heap false =
        if atOpen.nchan ≠ 0 then some ([], some (opened map 0 0 1 heap)) else none := by
      intro heap
      unfold openFile
      rw [hopen]
      split
      · exact if_neg fun h => nomatch h.2
      · rfl
    rw [staysInBuffers_of_open_nil _ hfile fun _ => hread]
    refine and_congr_right fun _ => ?_
    exact iff_of_true (fun h => nomatch h) fun h => nomatch h

theorem mux_stays_iff (hchan : map.channel ≠ 0) (hwo : 0 ≤ dev.chanOffsetW map)
    (hcooked : atOpen.isCooked = 0) :
    dev.StaysInBuffers atOpen atRead map reading set pos ↔
      dev.MuxWithin atOpen atRead map reading set pos := by
  refine staysInBuffers_of_open_nil (opened map (dev.chanOffsetW map)
    (dev.chanOffsetW map * dev.wordSize) atOpen.nchan) ?_ ?_
  · intro heap
    unfold openFile a400fsOpen
    rw [if_neg hchan]
    dsimp only
    rw [if_neg (Int.not_lt.mpr hwo), if_pos hcooked]
    unfold value
    split
    · simp [hchan, opened]
    · rfl
  · intro hx heap
    have : ∀ lbuf lbufLen count, dev.readFile atRead atOpen (found (opened map (dev.chanOffsetW map)
        (dev.chanOffsetW map * dev.wordSize) atOpen.nchan heap) set pos lbuf lbufLen) count =
        dev.readChanFileMuxdata atRead { opened map (dev.chanOffsetW map)
          (dev.chanOffsetW map * dev.wordSize) (strideOf set atOpen.nchan) heap with
            offset := pos } count := by
      intro lbuf lbufLen count
      exact (if_neg hchan).trans (if_pos hcooked)
    simp only [this, forall_const]
    exact readChanFileMuxdata_stays_iff hx rfl

theorem cooked_stays_iff (hchan : map.channel ≠ 0) (hwo : 0 ≤ dev.chanOffsetW map)
    (hcooked : atOpen.isCooked ≠ 0) :
    dev.StaysInBuffers atOpen atRead map reading set pos ↔
      dev.CookedWithin atOpen atRead map reading set pos := by
  refine staysInBuffers_of_open_nil (opened map (dev.chanOffsetW map)
    ((dev.chanOffsetW map * dev.bufferlen).tdiv atOpen.nchan) 1) ?_ ?_
  · intro heap
    unfold openFile a400fsOpen
    rw [if_neg hchan]
    dsimp only
    rw [if_neg (Int.not_lt.mpr hwo), if_neg hcooked, getBufferOffsetB_eq hwo]
    split
    · simp [hchan, opened]
    · rfl
  · intro hx heap
    obtain ⟨file, hfile⟩ : ∃ file, file = { opened map (dev.chanOffsetW map)
        ((dev.chanOffsetW map * dev.bufferlen).tdiv atOpen.nchan) (strideOf set 1) heap with
          offset := pos } := ⟨_, rfl⟩
    have hread : ∀ lbuf lbufLen count, dev.readFile atRead atOpen (found (opened map
        (dev.chanOffsetW map) ((dev.chanOffsetW map * dev.bufferlen).tdiv atOpen.nchan) 1 heap)
          set pos lbuf lbufLen) count =
        dev.readChanFile atRead { file with lbuf := lbuf, lbufLen := lbufLen } count := by
      intro lbuf lbufLen count
      rw [hfile]
      exact (if_neg hchan).trans (if_neg hcooked)
    have hstride : InRange (strideOf set 1) := by
      cases set with
      | none => exact (by decide : InRange 1)
      | some arg => exact inRange_wrap arg
    have hstays := @readChanFile_stays_iff dev atRead file _ (quot_offset hx.1 hwo)
      (by rw [hfile]; rfl) (by rw [hfile]; exact hstride)
    rw [hfile] at hstays
    simp only [hread, hfile]
    exact hstays

end kinds

/--
**The buffers of the data files.**  A file that is opened under one `CAPDAT` and read under another
stays in them, at a position, with the stride that has been set and for every count, exactly if the
condition of its kind is met.
-/
theorem files_stay_iff (dev : FsDevice) (atOpen atRead : CaptureData) (map : InodeMap)
    (reading : Bool) (set : Option Nat) (pos : Int) :
    dev.StaysInBuffers atOpen atRead map reading set pos ↔
      dev.Within atOpen atRead map reading set pos := by
  unfold Within
  by_cases hraw : map.channel = 0
  · rw [if_pos hraw]
    exact raw_stays_iff hraw
  · rw [if_neg hraw]
    by_cases hwo : dev.chanOffsetW map < 0
    · refine iff_of_true (fun heap => ⟨[], none, ?_, fun _ h => (nomatch h), fun _ _ h => ?_⟩)
        (Or.inl hwo)
      on_goal 2 => exact nomatch h
      unfold openFile a400fsOpen
      rw [if_neg hraw]
      dsimp only
      rw [if_pos hwo]
      exact if_neg fun h => hraw h.1
    · rw [or_iff_right hwo]
      by_cases hcooked : atOpen.isCooked = 0
      · rw [if_pos hcooked]
        exact mux_stays_iff hraw (by omega) hcooked
      · rw [if_neg hcooked]
        exact cooked_stays_iff hraw (by omega) hcooked

theorem fourChannels_pos : 0 < 0x100000 := by decide

/-- Sixty-four buffers of a megabyte, and one site of four channels of two bytes. -/
def fourChannels : FsDevice where
  bufferlen := 0x100000
  nbuffers := 64
  wordSize := 2
  pcomp := 0
  dmaCacheInvalidateLimit := -1
  aggregatorSet := [some 1]
  nchanEnabled := fun _ => 4
  bufferlen_pos := fourChannels_pos
  bufferlen_lt := by decide
  wordSize_pos := Nat.two_pos
  wordSize_lt := by decide
  inRange_pcomp := by decide

/-- `CAPDAT` before it has been written, one that fills the buffers, one that is longer, one of
fewer channels than there are, and a stride of 0. -/
theorem files_leave :
    ¬fourChannels.StaysInBuffers CaptureData.init CaptureData.init ⟨1, 1, 0⟩ true none 0 ∧
      ¬fourChannels.StaysInBuffers ⟨0, 0x800000, 4, ['x']⟩ ⟨0, 0x800000, 4, ['x']⟩ ⟨1, 1, 0⟩ true
        none 0 ∧
      ¬fourChannels.StaysInBuffers ⟨1, 0x1000000, 4, ['x']⟩ ⟨1, 0x1000000, 4, ['x']⟩ ⟨1, 1, 1⟩ true
        none 0x1000000 ∧
      ¬fourChannels.StaysInBuffers ⟨0, 1000000, 1, ['x']⟩ ⟨0, 1000000, 1, ['x']⟩ ⟨1, 1, 4⟩ true
        none 0 ∧
      ¬fourChannels.StaysInBuffers ⟨1, 100000, 4, ['x']⟩ ⟨1, 100000, 4, ['x']⟩ ⟨1, 1, 1⟩ true
        (some 0) 0 := by
  have hcooked : ∀ {n : Int} {set : Option Nat} {pos : Int}, fourChannels.StaysInBuffers
      ⟨1, n, 4, ['x']⟩ ⟨1, n, 4, ['x']⟩ ⟨1, 1, 1⟩ true set pos →
        fourChannels.CookedReads ⟨1, n, 4, ['x']⟩ ⟨1, 1, 1⟩ 0 (strideOf set 1) pos :=
    fun h => ((cooked_stays_iff (by decide) (by decide) Int.one_ne_zero).mp h).2 rfl
  refine ⟨fun h => ?_, fun h => ?_, fun h => ?_, fun h => ?_, fun h => ?_⟩
  · exact ((raw_stays_iff rfl).mp h).1 rfl
  · have hsync := (((raw_stays_iff rfl).mp h).2 rfl).1.buffers
    revert hsync
    decide
  · obtain hbad | hbad | hbad := (hcooked h).place
    · revert hbad
      decide
    · revert hbad
      decide
    · have hbuffer := hbad.buffer
      revert hbuffer
      decide
  · have hplace := (((mux_stays_iff (by decide) (by decide) rfl).mp h).2 rfl).place
    revert hplace
    unfold WordsInside WordInside
    decide
  · obtain hbad | hbad | hbad := (hcooked h).place
    · revert hbad
      decide
    · revert hbad
      decide
    · exact hbad.divisor rfl

end FsDevice

end Acq400
