/-
The channel file of raw data, against the raw file.

The raw file is the bytes of the buffers, one after the other.  The channel file
takes whole samples of each buffer, and copies whole words although the client may
ask for part of one.  The files agree as long as no sample is cut by the end of a
buffer and no word by the end of a read: `readChanFileMuxdata_raw_iff`.
-/
import Acq400.Proofs.ChanFile

namespace Acq400

open CInt Reads A400Fs

namespace A400Fs

/-- `ssb`: the bytes of a sample of all channels. -/
def ssb (fs : A400Fs) : Nat := fs.nchan * fs.wordSize

/-- `buffer_sam`: the samples in a buffer. -/
def bufferSam (fs : A400Fs) : Nat := fs.bufferlen / fs.ssb

/-- The buffer and the byte in it where the raw file has its byte `i`. -/
def rawAt (fs : A400Fs) (i : Nat) : Nat × Nat := (i / fs.bufferlen, i % fs.bufferlen)

/-- The byte of the raw file that is byte `f` of channel `c`. -/
def rawByte (fs : A400Fs) (c f : Nat) : Nat :=
  f / fs.wordSize * fs.ssb + c * fs.wordSize + f % fs.wordSize

/-- The buffer and the byte in it where the raw file has byte `f` of channel `c`. -/
def rawChanAt (fs : A400Fs) (c f : Nat) : Nat × Nat := fs.rawAt (fs.rawByte c f)

/-- The buffer and the byte in it where the channel file has byte `f` of channel `c`. -/
def muxAt (fs : A400Fs) (c f : Nat) : Nat × Nat :=
  (f / fs.wordSize / fs.bufferSam,
    f / fs.wordSize % fs.bufferSam * fs.ssb + c * fs.wordSize + f % fs.wordSize)

/-! ### Where the two places are the same -/

section places

variable {fs : A400Fs} {c : Nat}

theorem rawByte_lt (hws : 0 < fs.wordSize) (hc : c < fs.nchan) (f : Nat) :
    fs.rawByte c f < (f / fs.wordSize + 1) * fs.ssb := by
  have hmod : f % fs.wordSize < fs.wordSize := Nat.mod_lt _ hws
  have hchan : (c + 1) * fs.wordSize ≤ fs.ssb := Nat.mul_le_mul_right _ hc
  rw [Nat.succ_mul] at hchan
  unfold rawByte
  rw [Nat.succ_mul]
  omega

theorem rawByte_div (hws : 0 < fs.wordSize) (hc : c < fs.nchan) (f : Nat) :
    fs.rawByte c f / fs.ssb = f / fs.wordSize := by
  have hlt := rawByte_lt hws hc f
  refine Nat.div_eq_of_lt_le ?_ hlt
  unfold rawByte
  omega

theorem rawByte_inj (hws : 0 < fs.wordSize) (hc : c < fs.nchan) {f f' : Nat}
    (h : fs.rawByte c f = fs.rawByte c f') : f = f' := by
  have hdiv : f / fs.wordSize = f' / fs.wordSize := by
    rw [← rawByte_div hws hc f, h, rawByte_div hws hc f']
  have hmod : f % fs.wordSize = f' % fs.wordSize := by
    unfold rawByte at h
    rw [hdiv] at h
    omega
  rw [← Nat.div_add_mod f fs.wordSize, hdiv, hmod, Nat.div_add_mod]

theorem rawAt_inj {i j : Nat} (h : fs.rawAt i = fs.rawAt j) : i = j := by
  have hdiv : i / fs.bufferlen = j / fs.bufferlen := congrArg Prod.fst h
  have hmod : i % fs.bufferlen = j % fs.bufferlen := congrArg Prod.snd h
  rw [← Nat.div_add_mod i fs.bufferlen, hdiv, hmod, Nat.div_add_mod]

theorem rawChanAt_inj (hws : 0 < fs.wordSize) (hc : c < fs.nchan) {f f' : Nat}
    (h : fs.rawChanAt c f = fs.rawChanAt c f') : f = f' := rawByte_inj hws hc (rawAt_inj h)

theorem muxAt_of_dvd (hws : 0 < fs.wordSize) (hc : c < fs.nchan) (hdvd : fs.ssb ∣ fs.bufferlen)
    (f : Nat) : fs.muxAt c f = fs.rawChanAt c f := by
  have hbl : fs.bufferlen = fs.ssb * fs.bufferSam := (Nat.mul_div_cancel' hdvd).symm
  have hdiv := rawByte_div hws hc f
  have hmod : fs.rawByte c f % fs.ssb = c * fs.wordSize + f % fs.wordSize := by
    have := Nat.div_add_mod' (fs.rawByte c f) fs.ssb
    rw [hdiv] at this
    unfold rawByte at this ⊢
    omega
  unfold muxAt rawChanAt rawAt
  rw [hbl, ← Nat.div_div_eq_div_mul, Nat.mod_mul, hdiv, hmod]
  refine Prod.ext rfl ?_
  simp only
  rw [Nat.mul_comm fs.ssb]
  omega

theorem muxAt_of_lt (hws : 0 < fs.wordSize) (hc : c < fs.nchan) {f : Nat}
    (hf : f / fs.wordSize < fs.bufferSam) : fs.muxAt c f = fs.rawChanAt c f := by
  have hlt : fs.rawByte c f < fs.bufferlen := by
    calc fs.rawByte c f < (f / fs.wordSize + 1) * fs.ssb := rawByte_lt hws hc f
      _ ≤ fs.bufferSam * fs.ssb := Nat.mul_le_mul_right _ hf
      _ ≤ fs.bufferlen := Nat.div_mul_le_self _ _
  unfold muxAt rawChanAt rawAt
  rw [Nat.div_eq_of_lt hf, Nat.mod_eq_of_lt hf, Nat.div_eq_of_lt hlt, Nat.mod_eq_of_lt hlt]
  rfl

/-- The sample that the end of the first buffer cuts. -/
theorem muxAt_cut (hws : 0 < fs.wordSize) (hsam : 0 < fs.bufferSam)
    (hdvd : ¬fs.ssb ∣ fs.bufferlen) :
    fs.muxAt c (fs.bufferSam * fs.wordSize) ≠ fs.rawChanAt c (fs.bufferSam * fs.wordSize) := by
  intro h
  have hlt : fs.bufferSam * fs.ssb < fs.bufferlen :=
    Nat.lt_of_le_of_ne (Nat.div_mul_le_self _ _) fun e => hdvd ⟨_, by rw [← e, Nat.mul_comm]⟩
  simp only [muxAt, rawChanAt, rawAt, rawByte, Nat.mul_div_cancel _ hws, Nat.div_self hsam,
    Nat.mod_self, Nat.mul_mod_left, Nat.zero_mul, Nat.zero_add, Nat.add_zero, Prod.mk.injEq] at h
  -- in the next buffer both, so the raw file is less than `c` words into it
  obtain ⟨hbuf, hbyte⟩ := h
  have := Nat.div_add_mod (fs.bufferSam * fs.ssb + c * fs.wordSize) fs.bufferlen
  rw [← hbuf, ← hbyte] at this
  omega

end places

/-! ### The raw file -/

section raw

variable {fs : A400Fs}

/-- The bytes of the whole set. -/
def setBytes (fs : A400Fs) : Nat := fs.nsamples * fs.ssb

/-- The reads of the raw file. -/
def readRaw (fs : A400Fs) (m : Nat × Nat → UInt8) (file : A400FsPdesc) (count : Nat) :
    Option (List UInt8 × A400FsPdesc) := asRead ((fs.withBuffers m).readRawFile file count)

/-- The bytes left of the buffer, and of the set. -/
def rawHeadroom (fs : A400Fs) (p : Nat) : Nat :=
  min (fs.bufferlen - p % fs.bufferlen) (fs.setBytes - p)

theorem setBytes_eq (fs : A400Fs) :
    ((fs.nsamples * fs.wordSize : Nat) : Int) * fs.nchan = (fs.setBytes : Nat) := by
  rw [← Int.natCast_mul, setBytes, ssb, Nat.mul_assoc, Nat.mul_comm fs.wordSize]

theorem rawAt_add {p i : Nat} (h : p % fs.bufferlen + i < fs.bufferlen) :
    fs.rawAt (p + i) = (p / fs.bufferlen, p % fs.bufferlen + i) := by
  have hsplit : p + i = fs.bufferlen * (p / fs.bufferlen) + (p % fs.bufferlen + i) := by
    have := Nat.div_add_mod p fs.bufferlen
    omega
  unfold rawAt
  rw [hsplit, Nat.mul_add_div (by omega), Nat.div_eq_of_lt h, Nat.add_zero, Nat.mul_add_mod,
    Nat.mod_eq_of_lt h]

theorem nsamples_le_setBytes (fs : A400Fs) (hn : 0 < fs.nchan) :
    fs.nsamples * fs.wordSize ≤ fs.setBytes := by
  rw [setBytes, ssb, Nat.mul_comm fs.nchan, ← Nat.mul_assoc]
  exact Nat.le_mul_of_pos_right _ hn

theorem readRaw_eq {m : Nat × Nat → UInt8} {file : A400FsPdesc} {p : Nat} (h : file.offset = p)
    (hbl : 0 < fs.bufferlen) (hlen : fs.bufferlen < 2 ^ 31) (hn : 0 < fs.nchan)
    (hset : fs.setBytes < 2 ^ 31) (hp : p ≤ fs.setBytes) (count : Nat) :
    fs.readRaw m file count =
      some (cells (fun i => m (fs.rawAt i)) p (min count (fs.rawHeadroom p)),
        { file with offset := (p + min count (fs.rawHeadroom p) : Nat) }) := by
  have hoff : wrap file.offset = p := by
    rw [h]
    exact wrap_natCast (by omega)
  have hle := nsamples_le_setBytes fs hn
  have hleft : ((fs.setBytes : Nat) : Int) - p = (fs.setBytes - p : Nat) := by omega
  have hmod := Nat.mod_lt p hbl
  unfold readRaw readRawFile _readRawFile
  simp only [withBuffers, hoff, Option.bind_eq_bind]
  rw [if_pos (by omega), div_natCast _ hbl, Option.bind_some, value_natCast (by omega),
    Option.bind_some, setBytes_eq, value_natCast hset, Option.bind_some, hleft,
    value_natCast (by omega), Option.bind_some, sub_div_mul]
  by_cases hend : fs.setBytes - p = 0
  · have hzero : min count (fs.rawHeadroom p) = 0 := by
      unfold rawHeadroom
      omega
    rw [if_pos (by omega), hzero, cells_zero, Nat.add_zero, ← h]
    exact asRead_pure (Int.le_refl _) _ _
  · have hhead : min ((fs.bufferlen : Int) - (p % fs.bufferlen : Nat)) (fs.setBytes - p : Nat)
        = (fs.rawHeadroom p : Nat) := by
      unfold rawHeadroom
      omega
    have hsmall : fs.rawHeadroom p < 2 ^ 32 := by
      unfold rawHeadroom
      omega
    rw [if_neg (by omega), if_neg (by omega), hhead, clip_natCast _ hsmall, bytesAt_natCast,
      asRead_pure (by omega), h, ← Int.natCast_add]
    refine congrArg (fun out => some (out, _)) (cells_eq_cells fun i hi => ?_)
    have hin : p % fs.bufferlen + i < fs.bufferlen := by
      unfold rawHeadroom at hi
      omega
    rw [rawAt_add hin, Nat.zero_add]

theorem readsTo_raw (m : Nat × Nat → UInt8) (hbl : 0 < fs.bufferlen)
    (hlen : fs.bufferlen < 2 ^ 31) (hn : 0 < fs.nchan) (hset : fs.setBytes < 2 ^ 31)
    {file : A400FsPdesc} (h : file.offset = 0) {counts : Nat → Nat} (hpos : ∀ k, 0 < counts k) :
    ReadsTo (fs.readRaw m) file counts (cells (fun i => m (fs.rawAt i)) 0 fs.setBytes) := by
  have hzero : file.offset.toNat = 0 := by rw [h]; rfl
  have hall := @readsTo_cells _ _ (fs.readRaw m) (fun i => m (fs.rawAt i)) fs.setBytes
    (fun file => file.offset.toNat)
    (fun file counts => file.offset = file.offset.toNat ∧ ∀ k, 0 < counts k)
    (fun file counts hinv hlt => ?_) (fun file counts hinv hend => ?_)
    fs.setBytes file counts ⟨by rw [hzero, h]; rfl, hpos⟩ (by omega) (by omega)
  · rwa [hzero] at hall
  · have hmod := Nat.mod_lt file.offset.toNat hbl
    have hhead : 0 < fs.rawHeadroom file.offset.toNat := by
      unfold rawHeadroom
      omega
    have hle : fs.rawHeadroom file.offset.toNat ≤ fs.setBytes - file.offset.toNat :=
      Nat.min_le_right _ _
    have hcount := hinv.2 0
    refine ⟨min (counts 0) (fs.rawHeadroom file.offset.toNat), _, by omega, by omega,
      readRaw_eq hinv.1 hbl hlen hn hset (by omega) (counts 0), Int.toNat_natCast _,
      ⟨?_, fun k => hinv.2 (k + 1)⟩⟩
    exact (Int.toNat_natCast _).symm ▸ rfl
  · have hhead : min (counts 0) (fs.rawHeadroom file.offset.toNat) = 0 := by
      unfold rawHeadroom
      omega
    have hgot := readRaw_eq (m := m) hinv.1 hbl hlen hn hset (by omega) (counts 0)
    rw [hhead, cells_zero] at hgot
    exact ⟨_, hgot⟩

/-- A set that is too long for an `int` cannot be read. -/
theorem readRaw_none (m : Nat × Nat → UInt8) (h : 2 ^ 31 ≤ fs.setBytes)
    (file : A400FsPdesc) (count : Nat) : fs.readRaw m file count = none := by
  by_cases hbl : fs.bufferlen = 0
  · simp [readRaw, readRawFile, withBuffers, asRead, hbl]
  unfold readRaw readRawFile _readRawFile
  simp only [withBuffers, Option.bind_eq_bind, ne_eq, hbl, not_false_eq_true, if_true]
  rw [div, if_neg (by omega), Option.bind_some]
  by_cases hset : fs.nsamples * fs.wordSize < 2 ^ 31
  · rw [value_natCast hset, Option.bind_some, setBytes_eq, value_natCast_none h]
    rfl
  · rw [value_natCast_none (Nat.le_of_not_lt hset)]
    rfl

end raw

/-! ### One read of the channel file -/

section mux

variable {fs : A400Fs} {c : Nat}

theorem putWords_eq {wsize : Nat} (hws : 0 < wsize) (src : Int → UInt8) (stride : Int)
    (lbuf : Nat → UInt8) :
    ∀ (wcount i : Nat), putWords wsize src stride wcount lbuf i =
      if i < wcount * wsize then src ((i / wsize : Nat) * stride * wsize + (i % wsize : Nat))
      else lbuf i := by
  intro wcount
  induction wcount with
  | zero => intro i; simp [putWords]
  | succ wcount ih =>
      intro i
      have hlast : putWords wsize src stride (wcount + 1) lbuf i
          = putWord wsize src stride (putWords wsize src stride wcount lbuf) wcount i := by
        simp [putWords, List.range_succ]
      rw [hlast, putWord, ih, Nat.succ_mul]
      by_cases hin : wcount * wsize ≤ i ∧ i < wcount * wsize + wsize
      · have hdiv : i / wsize = wcount := Nat.div_eq_of_lt_le hin.1 (by rw [Nat.succ_mul]; omega)
        have hmod := Nat.div_add_mod' i wsize
        rw [hdiv] at hmod
        have hrest : i - wcount * wsize = i % wsize := by omega
        rw [if_pos hin, if_pos hin.2, hrest, hdiv]
      · rw [if_neg hin]
        by_cases hlt : i < wcount * wsize
        · rw [if_pos hlt, if_pos (by omega)]
        · rw [if_neg hlt, if_neg (by omega)]

/-- The file at a position, otherwise as it was opened. -/
structure MuxAt (fs : A400Fs) (c : Nat) (file : A400FsPdesc) (p : Nat) : Prop where
  offset : file.offset = p
  bufferOffset : file.bufferOffset = (c * fs.wordSize : Nat)
  stride : file.stride = fs.nchan
  enabled : file.map.channel ≤ fs.nchanEnabled file.map.adev

/-- The samples left of the buffer, and of the set, in bytes of the channel. -/
def muxHeadroom (fs : A400Fs) (p : Nat) : Nat :=
  min (fs.bufferSam - p / fs.wordSize % fs.bufferSam) (fs.nsamples - p / fs.wordSize) * fs.wordSize

/-- The bytes a read gives, unless it gives none. -/
def muxTake (fs : A400Fs) (p count : Nat) : Nat := min count (fs.muxHeadroom p)

/-- `lbuf` when it is copied: whole words of the channel, then what it has been before. -/
def muxLbuf (fs : A400Fs) (c : Nat) (m : Nat × Nat → UInt8) (p take : Nat) (lbuf : Nat → UInt8)
    (i : Nat) : UInt8 :=
  if i < take / fs.wordSize * fs.wordSize then m (fs.muxAt c (p + i)) else lbuf i

/-- The file after a read. -/
def muxNext (fs : A400Fs) (c : Nat) (m : Nat × Nat → UInt8) (p take : Nat) (file : A400FsPdesc) :
    A400FsPdesc :=
  { (growLbuf file take).2 with
    lbuf := some (fs.muxLbuf c m p take (growLbuf file take).1), offset := (p + take : Nat) }

/-- The reads of a channel file of raw data. -/
def readMux (fs : A400Fs) (m : Nat × Nat → UInt8) (file : A400FsPdesc) (count : Nat) :
    Option (List UInt8 × A400FsPdesc) := asRead ((fs.withBuffers m).readChanFileMuxdata file count)

theorem ssb_pos (hws : 0 < fs.wordSize) (hc : c < fs.nchan) : 0 < fs.ssb :=
  Nat.mul_pos (by omega) hws

theorem ssb_le (hsam : 0 < fs.bufferSam) : fs.ssb ≤ fs.bufferlen := by
  by_contra hlt
  rw [bufferSam, Nat.div_eq_of_lt (Nat.lt_of_not_le hlt)] at hsam
  exact Nat.lt_irrefl 0 hsam

theorem nsamples_le (fs : A400Fs) (hws : 0 < fs.wordSize) (hc : c < fs.nchan) :
    fs.nsamples ≤ fs.setBytes :=
  Nat.le_mul_of_pos_right _ (ssb_pos hws hc)

theorem muxHeadroom_le (p : Nat) (hc : c < fs.nchan) :
    fs.muxHeadroom p ≤ fs.bufferlen := by
  have hchan : fs.wordSize ≤ fs.ssb := Nat.le_mul_of_pos_left _ (by omega)
  calc fs.muxHeadroom p ≤ fs.bufferSam * fs.ssb := Nat.mul_le_mul (by omega) hchan
    _ ≤ fs.bufferlen := Nat.div_mul_le_self _ _

theorem buffOffset_lt (hws : 0 < fs.wordSize) (hc : c < fs.nchan) (hsam : 0 < fs.bufferSam)
    (sam : Nat) : sam % fs.bufferSam * fs.ssb + c * fs.wordSize < fs.bufferlen := by
  have hchan : (c + 1) * fs.wordSize ≤ fs.ssb := Nat.mul_le_mul_right _ hc
  have hin : (sam % fs.bufferSam + 1) * fs.ssb ≤ fs.bufferSam * fs.ssb :=
    Nat.mul_le_mul_right _ (Nat.mod_lt _ hsam)
  have hle : fs.bufferSam * fs.ssb ≤ fs.bufferlen := Nat.div_mul_le_self _ _
  rw [Nat.succ_mul] at hchan hin
  omega

/-- The words that a read copies, which are in the buffer it begins in. -/
theorem muxAt_add {p i : Nat} (hws : 0 < fs.wordSize) (hword : fs.wordSize ∣ p)
    (hi : i < fs.muxHeadroom p) :
    fs.muxAt c (p + i) = (p / fs.wordSize / fs.bufferSam,
      p / fs.wordSize % fs.bufferSam * fs.ssb + c * fs.wordSize +
        (i / fs.wordSize * fs.ssb + i % fs.wordSize)) := by
  obtain ⟨sam, rfl⟩ := hword
  have hlt : i / fs.wordSize <
      min (fs.bufferSam - sam % fs.bufferSam) (fs.nsamples - sam) := by
    rw [muxHeadroom, Nat.mul_div_cancel_left _ hws] at hi
    exact Nat.div_lt_of_lt_mul (by rwa [Nat.mul_comm])
  unfold muxAt
  rw [Nat.mul_add_div hws, Nat.mul_add_mod, Nat.mul_div_cancel_left _ hws]
  generalize i / fs.wordSize = j at hlt
  have hmod : sam % fs.bufferSam + j < fs.bufferSam := by omega
  have hsplit : sam + j = fs.bufferSam * (sam / fs.bufferSam) + (sam % fs.bufferSam + j) := by
    have := Nat.div_add_mod sam fs.bufferSam
    omega
  rw [hsplit, Nat.mul_add_div (by omega), Nat.div_eq_of_lt hmod, Nat.mul_add_mod,
    Nat.mod_eq_of_lt hmod, Nat.add_mul, Nat.add_zero]
  refine Prod.ext rfl ?_
  simp only
  omega

/-- The clipped count, and the samples it is counted in. -/
theorem clipSamples_eq {p : Nat} (count : Nat) (hws : 0 < fs.wordSize)
    (hsmall : fs.muxHeadroom p < 2 ^ 31) :
    clipSamples fs.wordSize count (fs.muxHeadroom p / fs.wordSize : Nat) (fs.muxHeadroom p : Nat) =
      some (fs.muxTake p count, ((fs.muxTake p count / fs.wordSize : Nat) : Int)) := by
  unfold clipSamples muxTake
  rw [unsigned_natCast (by omega)]
  rcases Nat.lt_trichotomy (fs.muxHeadroom p) count with hlt | heq | hgt
  · rw [if_pos (by omega), Nat.min_eq_right (by omega)]
    rfl
  · rw [if_neg (by omega), if_neg (by omega), ← heq, Nat.min_self]
  · rw [if_neg (by omega), if_pos (by omega), wrap_natCast (by omega), div_natCast _ hws,
      Nat.min_eq_left (by omega)]
    rfl

theorem cpMuxdata_eq (hws : fs.wordSize = 2 ∨ fs.wordSize = 4) (dst : Nat → UInt8)
    (src : Int → UInt8) (headsam : Nat) (stride : Int) :
    (if fs.wordSize = 2 then cpMuxdataLbufInt16 dst src headsam stride
      else cpMuxdataLbufInt32 dst src headsam stride) =
      putWords fs.wordSize src stride headsam dst := by
  rcases hws with h2 | h4
  · rw [if_pos h2, h2, cpMuxdataLbufInt16]
  · rw [if_neg (by omega), h4, cpMuxdataLbufInt32]

theorem growLbuf_eq (file : A400FsPdesc) (count : Nat) :
    ∃ len heap, (growLbuf file count).2 = { file with lbufLen := len, heap := heap } := by
  unfold growLbuf kmalloc
  generalize wrap (count : Int) = len
  split
  · exact ⟨len, _, rfl⟩
  · exact ⟨file.lbufLen, file.heap, rfl⟩

@[simp] theorem growLbuf_map (file : A400FsPdesc) (count : Nat) :
    (growLbuf file count).2.map = file.map := by
  obtain ⟨len, heap, h⟩ := growLbuf_eq file count
  rw [h]

@[simp] theorem growLbuf_bufferOffset (file : A400FsPdesc) (count : Nat) :
    (growLbuf file count).2.bufferOffset = file.bufferOffset := by
  obtain ⟨len, heap, h⟩ := growLbuf_eq file count
  rw [h]

@[simp] theorem growLbuf_stride (file : A400FsPdesc) (count : Nat) :
    (growLbuf file count).2.stride = file.stride := by
  obtain ⟨len, heap, h⟩ := growLbuf_eq file count
  rw [h]

@[simp] theorem growLbuf_offset (file : A400FsPdesc) (count : Nat) :
    (growLbuf file count).2.offset = file.offset := by
  obtain ⟨len, heap, h⟩ := growLbuf_eq file count
  rw [h]

/-- The words that are copied are those of the channel. -/
theorem putWords_muxAt (m : Nat × Nat → UInt8) {p count : Nat} (hws : 0 < fs.wordSize)
    (hword : fs.wordSize ∣ p) (lbuf : Nat → UInt8) :
    putWords fs.wordSize (fun i => buffers m (p / fs.wordSize / fs.bufferSam : Nat)
        (((p / fs.wordSize % fs.bufferSam * fs.ssb + c * fs.wordSize) / fs.wordSize : Nat) *
          fs.wordSize + i)) fs.nchan (fs.muxTake p count / fs.wordSize) lbuf
      = fs.muxLbuf c m p (fs.muxTake p count) lbuf := by
  funext i
  rw [putWords_eq hws, muxLbuf]
  by_cases hi : i < fs.muxTake p count / fs.wordSize * fs.wordSize
  · have hhead : i < fs.muxHeadroom p := by
      have htake : fs.muxTake p count / fs.wordSize * fs.wordSize ≤ fs.muxTake p count :=
        Nat.div_mul_le_self _ _
      have : fs.muxTake p count ≤ fs.muxHeadroom p := Nat.min_le_right _ _
      omega
    have hwhole : (p / fs.wordSize % fs.bufferSam * fs.ssb + c * fs.wordSize) / fs.wordSize *
        fs.wordSize = p / fs.wordSize % fs.bufferSam * fs.ssb + c * fs.wordSize := by
      refine Nat.div_mul_cancel (Nat.dvd_add ?_ (Nat.dvd_mul_left _ _))
      exact Nat.dvd_mul_left_of_dvd (Nat.dvd_mul_left _ _) _
    have hplace : ((i / fs.wordSize : Nat) : Int) * fs.nchan * fs.wordSize
        = (i / fs.wordSize * fs.ssb : Nat) := by
      rw [ssb, ← Nat.mul_assoc]
      push_cast
      rfl
    rw [if_pos hi, if_pos hi, muxAt_add hws hword hhead]
    rw [← Int.natCast_mul, hwhole, hplace]
    rfl
  · rw [if_neg hi, if_neg hi]

/-- **One read of a channel file of raw data**, at the beginning of a word. -/
theorem readMux_eq {m : Nat × Nat → UInt8} {file : A400FsPdesc} {p : Nat}
    (h : MuxAt fs c file p) (hpcomp : fs.pcomp = 0) (hws : fs.wordSize = 2 ∨ fs.wordSize = 4)
    (hlen : fs.bufferlen < 2 ^ 31) (hc : c < fs.nchan) (hsam : 0 < fs.bufferSam)
    (hset : fs.setBytes < 2 ^ 31) (hp : p ≤ fs.nsamples * fs.wordSize) (hword : fs.wordSize ∣ p)
    (hbuf : p < fs.nsamples * fs.wordSize → p / fs.wordSize / fs.bufferSam < fs.nbuffers)
    (count : Nat) :
    fs.readMux m file count =
      if fs.muxTake p count < fs.wordSize then some ([], file)
      else
        some (cells (fs.muxLbuf c m p (fs.muxTake p count) (growLbuf file (fs.muxTake p count)).1) 0
          (fs.muxTake p count), fs.muxNext c m p (fs.muxTake p count) file) := by
  have hws0 : 0 < fs.wordSize := by omega
  have hle := nsamples_le_setBytes fs (by omega)
  have hns := nsamples_le fs hws0 hc
  have hssb := ssb_le hsam
  have hheadroom := muxHeadroom_le p hc
  have hoff : wrap file.offset = p := by
    rw [h.offset]
    exact wrap_natCast (by omega)
  have hsamle : p / fs.wordSize ≤ fs.nsamples := Nat.div_le_of_le_mul (by rwa [Nat.mul_comm])
  have hplace := buffOffset_lt hws0 hc hsam (p / fs.wordSize)
  have hcursor : wrap ((p / fs.wordSize % fs.bufferSam : Nat) * (fs.ssb : Int) + file.bufferOffset)
      = (p / fs.wordSize % fs.bufferSam * fs.ssb + c * fs.wordSize : Nat) := by
    rw [h.bufferOffset, ← Int.natCast_mul, ← Int.natCast_add]
    exact wrap_natCast (by omega)
  have hopened : (if file.offset = 0 then { file with offset := file.offset + fs.pcomp }
      else file) = file := by
    rw [hpcomp, Int.add_zero, ite_self]
  have hleft : (fs.nsamples : Int) - (p / fs.wordSize : Nat) =
      (fs.nsamples - p / fs.wordSize : Nat) := by
    omega
  have hmod := Nat.mod_lt (p / fs.wordSize) hsam
  have hhead : min ((fs.bufferSam : Int) - (p / fs.wordSize % fs.bufferSam : Nat))
      (fs.nsamples - p / fs.wordSize : Nat) = (fs.muxHeadroom p / fs.wordSize : Nat) := by
    rw [muxHeadroom, Nat.mul_div_cancel _ hws0]
    omega
  have hcountv : ((fs.muxHeadroom p / fs.wordSize : Nat) : Int) * fs.wordSize
      = (fs.muxHeadroom p : Nat) := by
    rw [← Int.natCast_mul, muxHeadroom, Nat.mul_div_cancel _ hws0]
  unfold readMux readChanFileMuxdata
  simp only [withBuffers, hopened, hoff, Option.bind_eq_bind]
  rw [show fs.nchan * fs.wordSize = fs.ssb from rfl, value_natCast (by omega), Option.bind_some,
    div_natCast _ hws0, Option.bind_some, div_natCast _ (ssb_pos hws0 hc), Option.bind_some,
    show fs.bufferlen / fs.ssb = fs.bufferSam from rfl, div_natCast _ hsam, Option.bind_some,
    sub_div_mul, hcursor, div_natCast _ hws0, Option.bind_some, hleft,
    value_natCast (Nat.lt_of_le_of_lt (Nat.sub_le _ _) (Nat.lt_of_le_of_lt hns hset)),
    Option.bind_some, hhead, hcountv, value_natCast (by omega), Option.bind_some,
    clipSamples_eq count hws0 (by omega), Option.bind_some,
    if_neg (by have := h.enabled; omega)]
  simp only
  by_cases hnone : fs.muxTake p count < fs.wordSize
  · rw [if_pos hnone, Nat.div_eq_of_lt hnone, if_pos (by omega)]
    exact asRead_pure (Int.le_refl _) _ _
  · have hpos : fs.muxTake p count / fs.wordSize ≠ 0 := by
      intro hzero
      exact hnone (((Nat.div_eq_zero_iff_lt hws0).mp hzero))
    have hmore : p < fs.nsamples * fs.wordSize := by
      by_contra hend
      have hall : fs.nsamples ≤ p / fs.wordSize :=
        (Nat.le_div_iff_mul_le hws0).mpr (Nat.le_of_not_lt hend)
      have hzero : fs.muxHeadroom p = 0 := by
        rw [muxHeadroom, Nat.sub_eq_zero_of_le hall, Nat.min_zero, Nat.zero_mul]
      have : fs.muxTake p count ≤ fs.muxHeadroom p := Nat.min_le_right _ _
      omega
    have hbuf := hbuf hmore
    have hsams : (0 : Int) < (fs.muxTake p count / fs.wordSize : Nat) :=
      Int.natCast_pos.mpr (Nat.pos_of_ne_zero hpos)
    have hibuf : ((p / fs.wordSize / fs.bufferSam : Nat) : Int) ≥ 0 := Int.natCast_nonneg _
    rw [if_neg (Int.not_le.mpr hsams), if_neg (not_not.mpr ⟨hibuf, Int.ofNat_lt.mpr hbuf⟩),
      if_neg (by omega), if_neg hnone, muxNext,
      asRead_pure (by omega), cpMuxdata_eq hws, growLbuf_stride, h.stride, Int.toNat_natCast,
      putWords_muxAt m hws0 hword, growLbuf_offset, h.offset, ← Int.natCast_add]

theorem MuxAt.next {file : A400FsPdesc} {p : Nat} (h : MuxAt fs c file p)
    (m : Nat × Nat → UInt8) (take : Nat) : MuxAt fs c (fs.muxNext c m p take file) (p + take) := by
  refine ⟨rfl, ?_, ?_, ?_⟩
  · rw [← h.bufferOffset, ← growLbuf_bufferOffset file take]
    rfl
  · rw [← h.stride, ← growLbuf_stride file take]
    rfl
  · have := h.enabled
    rwa [← growLbuf_map file take] at this

theorem muxHeadroom_le_left {p : Nat} (hword : fs.wordSize ∣ p) :
    fs.muxHeadroom p ≤ fs.nsamples * fs.wordSize - p := by
  unfold muxHeadroom
  calc min (fs.bufferSam - p / fs.wordSize % fs.bufferSam) (fs.nsamples - p / fs.wordSize) *
        fs.wordSize
      ≤ (fs.nsamples - p / fs.wordSize) * fs.wordSize :=
        Nat.mul_le_mul_right _ (Nat.min_le_right _ _)
    _ = fs.nsamples * fs.wordSize - p := by rw [Nat.sub_mul, Nat.div_mul_cancel hword]

theorem muxHeadroom_pos {p : Nat} (hws : 0 < fs.wordSize) (hsam : 0 < fs.bufferSam)
    (hp : p < fs.nsamples * fs.wordSize) : 0 < fs.muxHeadroom p := by
  have hmod := Nat.mod_lt (p / fs.wordSize) hsam
  have hlt : p / fs.wordSize < fs.nsamples := Nat.div_lt_of_lt_mul (by rwa [Nat.mul_comm])
  exact Nat.mul_pos (by omega) hws

theorem dvd_muxHeadroom (p : Nat) : fs.wordSize ∣ fs.muxHeadroom p := Nat.dvd_mul_left _ _

/-- A read of whole words gives the bytes of the channel. -/
theorem cells_muxLbuf (m : Nat × Nat → UInt8) {p take : Nat} (hword : fs.wordSize ∣ take)
    (lbuf : Nat → UInt8) :
    cells (fs.muxLbuf c m p take lbuf) 0 take = cells (fun f => m (fs.muxAt c f)) p take := by
  refine cells_eq_cells fun i hi => ?_
  rw [muxLbuf, Nat.div_mul_cancel hword, Nat.zero_add, if_pos hi]

end mux

/-! ### Reads of whole words -/

section whole

variable {fs : A400Fs} {c : Nat}

/-- The position after `k` reads. -/
def muxPos (fs : A400Fs) (p : Nat) (counts : Nat → Nat) : Nat → Nat
  | 0 => p
  | k + 1 => fs.muxPos (p + fs.muxTake p (counts 0)) (later counts) k

/--
No read cuts a word: each asks for whole words, or for no less than is left of the channel in
the buffer and in the set.
-/
def WholeWords (fs : A400Fs) (p : Nat) (counts : Nat → Nat) : Prop :=
  ∀ k, fs.wordSize ∣ fs.muxTake (fs.muxPos p counts k) (counts k)

theorem WholeWords.here {p : Nat} {counts : Nat → Nat} (h : WholeWords fs p counts) :
    fs.wordSize ∣ fs.muxTake p (counts 0) := h 0

theorem WholeWords.later {p : Nat} {counts : Nat → Nat} (h : WholeWords fs p counts) :
    WholeWords fs (p + fs.muxTake p (counts 0)) (Reads.later counts) := fun k => h (k + 1)

theorem wholeWords_of_dvd {counts : Nat → Nat} (h : ∀ k, fs.wordSize ∣ counts k) (p : Nat) :
    WholeWords fs p counts := by
  intro k
  unfold muxTake
  rcases Nat.le_total (counts k) (fs.muxHeadroom (fs.muxPos p counts k)) with hle | hle
  · rw [Nat.min_eq_left hle]
    exact h k
  · rw [Nat.min_eq_right hle]
    exact dvd_muxHeadroom _

theorem readsTo_mux (m : Nat × Nat → UInt8) (hpcomp : fs.pcomp = 0)
    (hws : fs.wordSize = 2 ∨ fs.wordSize = 4) (hlen : fs.bufferlen < 2 ^ 31) (hc : c < fs.nchan)
    (hsam : 0 < fs.bufferSam) (hset : fs.setBytes < 2 ^ 31)
    (hbuf : ∀ p, p < fs.nsamples * fs.wordSize → p / fs.wordSize / fs.bufferSam < fs.nbuffers)
    {file : A400FsPdesc} (h : MuxAt fs c file 0) {counts : Nat → Nat}
    (hpos : ∀ k, 0 < counts k) (hwhole : WholeWords fs 0 counts) :
    ReadsTo (fs.readMux m) file counts
      (cells (fun f => m (fs.muxAt c f)) 0 (fs.nsamples * fs.wordSize)) := by
  have hws0 : 0 < fs.wordSize := by omega
  have hzero : file.offset.toNat = 0 := by rw [h.offset]; rfl
  have hall := @readsTo_cells _ _ (fs.readMux m) (fun f => m (fs.muxAt c f))
    (fs.nsamples * fs.wordSize) (fun file => file.offset.toNat)
    (fun file counts => MuxAt fs c file file.offset.toNat ∧ fs.wordSize ∣ file.offset.toNat ∧
      WholeWords fs file.offset.toNat counts ∧ ∀ k, 0 < counts k)
    (fun file counts hinv hlt => ?_) (fun file counts hinv hend => ?_)
    (fs.nsamples * fs.wordSize) file counts
    ⟨hzero.symm ▸ h, hzero.symm ▸ Nat.dvd_zero _, hzero.symm ▸ hwhole, hpos⟩ (by omega) (by omega)
  · rwa [hzero] at hall
  · obtain ⟨hat, hword, hwords, hcounts⟩ := hinv
    have hread := readMux_eq (m := m) hat hpcomp hws hlen hc hsam hset (by omega) hword (hbuf _)
      (counts 0)
    have hhead := muxHeadroom_pos hws0 hsam hlt
    have hle := muxHeadroom_le_left hword
    have hcount := hcounts 0
    have htake : 0 < fs.muxTake file.offset.toNat (counts 0) ∧
        fs.muxTake file.offset.toNat (counts 0) ≤ fs.muxHeadroom file.offset.toNat := by
      unfold muxTake
      omega
    have hge := Nat.le_of_dvd htake.1 hwords.here
    rw [if_neg (by omega), cells_muxLbuf m hwords.here] at hread
    have hnext : (fs.muxNext c m file.offset.toNat (fs.muxTake file.offset.toNat (counts 0))
        file).offset.toNat = file.offset.toNat + fs.muxTake file.offset.toNat (counts 0) :=
      Int.toNat_natCast _
    refine ⟨_, _, htake.1, by omega, hread, hnext, ?_⟩
    rw [hnext]
    exact ⟨hat.next m _, Nat.dvd_add hword hwords.here, hwords.later, fun k => hcounts (k + 1)⟩
  · obtain ⟨hat, hword, hwords, hcounts⟩ := hinv
    have hread := readMux_eq (m := m) hat hpcomp hws hlen hc hsam hset (by omega) hword (hbuf _)
      (counts 0)
    have hle := muxHeadroom_le_left hword
    have htake : fs.muxTake file.offset.toNat (counts 0) < fs.wordSize := by
      unfold muxTake
      omega
    rw [if_pos htake] at hread
    exact ⟨_, hread⟩

end whole

/-! ### Reads that go wrong -/

section wrong

variable {fs : A400Fs} {c X : Nat}

/--
The reads go wrong at byte `X` of the channel: it is at a place of its own in the channel file, or
it belongs to a word that a read cuts.
-/
inductive Hits (fs : A400Fs) (c X : Nat) : Nat → (Nat → Nat) → Prop
  | misplaced {counts : Nat → Nat} (h : fs.muxAt c X ≠ fs.rawChanAt c X) : Hits fs c X X counts
  | cut {p : Nat} {counts : Nat → Nat} (h : ¬fs.wordSize ∣ fs.muxTake p (counts 0))
      (hX : X = p + fs.muxTake p (counts 0) / fs.wordSize * fs.wordSize) : Hits fs c X p counts
  | later {p : Nat} {counts : Nat → Nat} (hword : fs.wordSize ∣ fs.muxTake p (counts 0))
      (hle : p + fs.muxTake p (counts 0) ≤ X)
      (rest : Hits fs c X (p + fs.muxTake p (counts 0)) (later counts)) : Hits fs c X p counts

theorem Hits.le {p : Nat} {counts : Nat → Nat} (h : Hits fs c X p counts) : p ≤ X := by
  cases h with
  | misplaced => exact Nat.le_refl _
  | cut _ hX => omega
  | later _ hle _ => omega

/-- There is nothing but zeros in `lbuf` and where the next ones will be. -/
structure Clean (file : A400FsPdesc) : Prop where
  heap : ∀ n i, file.heap n i = 0
  lbuf : ∀ i, (file.lbuf.getD fun _ => 0) i = 0

theorem Clean.grow {file : A400FsPdesc} (h : Clean file) (count : Nat) :
    (∀ i, (growLbuf file count).1 i = 0) ∧ ∀ n i, (growLbuf file count).2.heap n i = 0 := by
  unfold growLbuf kmalloc
  generalize wrap (count : Int) = len
  split
  · exact ⟨h.heap 0, fun n => h.heap (n + 1)⟩
  · exact ⟨h.lbuf, h.heap⟩

/-- Buffers of zeros, but for the byte that the raw file has for byte `X` of channel `c`. -/
def marked (fs : A400Fs) (c X : Nat) : Nat × Nat → UInt8 := fun a =>
  if a = fs.rawChanAt c X then 1 else 0

theorem muxLbuf_marked {p take i : Nat} {lbuf : Nat → UInt8} (hlbuf : lbuf i = 0)
    (h : i < take / fs.wordSize * fs.wordSize → fs.muxAt c (p + i) ≠ fs.rawChanAt c X) :
    fs.muxLbuf c (fs.marked c X) p take lbuf i = 0 := by
  unfold muxLbuf
  split
  · rename_i hi
    exact if_neg (h hi)
  · exact hlbuf

theorem Clean.next {file : A400FsPdesc} {p take : Nat} (h : Clean file)
    (hbefore : ∀ i, i < take / fs.wordSize * fs.wordSize →
      fs.muxAt c (p + i) ≠ fs.rawChanAt c X) :
    Clean (fs.muxNext c (fs.marked c X) p take file) :=
  ⟨(h.grow take).2, fun i => muxLbuf_marked ((h.grow take).1 i) (hbefore i)⟩

/-- Reading on from a position: nothing, or what one read gives and then the rest. -/
theorem readsTo_mux_cases {m : Nat × Nat → UInt8} {file : A400FsPdesc} {p : Nat}
    {counts : Nat → Nat} {out : List UInt8}
    (hread : fs.readMux m file (counts 0) =
      if fs.muxTake p (counts 0) < fs.wordSize then some ([], file)
      else
        some (cells (fs.muxLbuf c m p (fs.muxTake p (counts 0))
          (growLbuf file (fs.muxTake p (counts 0))).1) 0 (fs.muxTake p (counts 0)),
          fs.muxNext c m p (fs.muxTake p (counts 0)) file))
    (h : ReadsTo (fs.readMux m) file counts out) :
    out = [] ∨ fs.wordSize ≤ fs.muxTake p (counts 0) ∧ ∃ rest,
      out = cells (fs.muxLbuf c m p (fs.muxTake p (counts 0))
        (growLbuf file (fs.muxTake p (counts 0))).1) 0 (fs.muxTake p (counts 0)) ++ rest ∧
      ReadsTo (fs.readMux m) (fs.muxNext c m p (fs.muxTake p (counts 0)) file) (later counts)
        rest := by
  cases h with
  | eof _ => exact Or.inl rfl
  | more h hgot rest =>
      rw [hread] at h
      split at h
      · exact absurd (congrArg Prod.fst (Option.some.inj h)).symm hgot
      · rename_i htake
        obtain rfl := (congrArg Prod.fst (Option.some.inj h)).symm
        obtain rfl := (congrArg Prod.snd (Option.some.inj h)).symm
        exact Or.inr ⟨by omega, _, rfl, rest⟩

/-- What the reads make of the byte they go wrong at is not what the raw file has there. -/
theorem Hits.miss (hpcomp : fs.pcomp = 0) (hws : fs.wordSize = 2 ∨ fs.wordSize = 4)
    (hlen : fs.bufferlen < 2 ^ 31) (hc : c < fs.nchan) (hsam : 0 < fs.bufferSam)
    (hset : fs.setBytes < 2 ^ 31) (hX : X < fs.nsamples * fs.wordSize)
    (hbuf : ∀ p, p ≤ X → p / fs.wordSize / fs.bufferSam < fs.nbuffers)
    (hbefore : ∀ f, f < X → fs.muxAt c f ≠ fs.rawChanAt c X) {p : Nat} {counts : Nat → Nat}
    (h : Hits fs c X p counts) :
    ∀ {file : A400FsPdesc} {out : List UInt8}, MuxAt fs c file p → fs.wordSize ∣ p → Clean file →
      ReadsTo (fs.readMux (fs.marked c X)) file counts out → out[X - p]? ≠ some 1 := by
  have hcases {file : A400FsPdesc} {p : Nat} {counts : Nat → Nat} {out : List UInt8}
      (h : MuxAt fs c file p) (hword : fs.wordSize ∣ p) (hp : p ≤ X)
      (hreads : ReadsTo (fs.readMux (fs.marked c X)) file counts out) :=
    readsTo_mux_cases (readMux_eq h hpcomp hws hlen hc hsam hset (by omega) hword
      (fun _ => hbuf p hp) (counts 0)) hreads
  -- byte `X` of a read that has it, but does not copy it from where the raw file has it
  have hzero {file : A400FsPdesc} {p take : Nat} (rest : List UInt8) (hclean : Clean file)
      (hp : p ≤ X) (hin : X - p < take)
      (hcopied : X - p < take / fs.wordSize * fs.wordSize →
        fs.muxAt c (p + (X - p)) ≠ fs.rawChanAt c X) :
      (cells (fs.muxLbuf c (fs.marked c X) p take (growLbuf file take).1) 0 take ++ rest)[X - p]?
        ≠ some 1 := by
    have hbyte := muxLbuf_marked ((hclean.grow take).1 (X - p)) hcopied
    rw [List.getElem?_append_left (by rwa [length_cells]), getElem?_cells, if_pos hin, Nat.zero_add,
      hbyte]
    decide
  induction h with
  | @misplaced counts hne =>
      intro file out hat hword hclean hreads
      rcases hcases hat hword (Nat.le_refl _) hreads with rfl | ⟨htake, rest, rfl, -⟩
      · simp
      · refine hzero rest hclean (Nat.le_refl _) (by omega) fun _ => ?_
        rwa [Nat.sub_self, Nat.add_zero]
  | @cut p counts hcut hX' =>
      intro file out hat hword hclean hreads
      rcases hcases hat hword (by omega) hreads with rfl | ⟨htake, rest, rfl, -⟩
      · simp
      · have hlt : fs.muxTake p (counts 0) / fs.wordSize * fs.wordSize < fs.muxTake p (counts 0) :=
          Nat.lt_of_le_of_ne (Nat.div_mul_le_self _ _) fun e => hcut ⟨_, by rw [← e, Nat.mul_comm]⟩
        exact hzero rest hclean (by omega) (by omega) fun hi => absurd hi (by omega)
  | @later p counts hword' hle hits ih =>
      intro file out hat hword hclean hreads
      rcases hcases hat hword (by omega) hreads with rfl | ⟨htake, rest, rfl, hrest⟩
      · simp
      · have hwords := Nat.div_mul_le_self (fs.muxTake p (counts 0)) fs.wordSize
        have hnext := ih (hat.next _ _) (Nat.dvd_add hword hword')
          (hclean.next fun i hi => hbefore _ (by omega)) hrest
        rw [List.getElem?_append_right (by rw [length_cells]; omega), length_cells, Nat.sub_sub]
        exact hnext

/-- Where a sample is cut by the end of the first buffer the reads go wrong there or before. -/
theorem hits_of_sample_cut (hws : 0 < fs.wordSize) (hsam : 0 < fs.bufferSam)
    (hdvd : ¬fs.ssb ∣ fs.bufferlen) (hlong : fs.bufferSam < fs.nsamples) :
    ∀ (left p : Nat) (counts : Nat → Nat), fs.wordSize ∣ p → p + left = fs.bufferSam * fs.wordSize →
      (∀ k, 0 < counts k) → ∃ X, X ≤ fs.bufferSam * fs.wordSize ∧ Hits fs c X p counts := by
  intro left
  induction left using Nat.strong_induction_on with
  | _ left ih =>
      intro p counts hword hleft hpos
      by_cases hzero : left = 0
      · obtain rfl : p = fs.bufferSam * fs.wordSize := by omega
        exact ⟨_, Nat.le_refl _, .misplaced (muxAt_cut hws hsam hdvd)⟩
      have hset : fs.bufferSam * fs.wordSize < fs.nsamples * fs.wordSize :=
        Nat.mul_lt_mul_of_pos_right hlong hws
      have hhead : fs.muxHeadroom p ≤ left := by
        obtain ⟨sam, rfl⟩ := hword
        have hlt : sam < fs.bufferSam := by
          by_contra hge
          have := Nat.mul_le_mul_right fs.wordSize (Nat.le_of_not_lt hge)
          rw [Nat.mul_comm sam] at this
          omega
        rw [muxHeadroom, Nat.mul_div_cancel_left _ hws, Nat.mod_eq_of_lt hlt]
        calc min (fs.bufferSam - sam) (fs.nsamples - sam) * fs.wordSize
            ≤ (fs.bufferSam - sam) * fs.wordSize := Nat.mul_le_mul_right _ (Nat.min_le_left _ _)
          _ = left := by rw [Nat.sub_mul, Nat.mul_comm sam]; omega
      have hcount := hpos 0
      have hheadpos := muxHeadroom_pos (p := p) hws hsam (by omega)
      have htake : 0 < fs.muxTake p (counts 0) ∧ fs.muxTake p (counts 0) ≤ left := by
        unfold muxTake
        omega
      by_cases hcut : fs.wordSize ∣ fs.muxTake p (counts 0)
      · obtain ⟨X, hX, hhits⟩ := ih (left - fs.muxTake p (counts 0)) (by omega)
          (p + fs.muxTake p (counts 0)) (later counts) (Nat.dvd_add hword hcut) (by omega)
          fun k => hpos (k + 1)
        exact ⟨X, hX, .later hcut hhits.le hhits⟩
      · have := Nat.div_mul_le_self (fs.muxTake p (counts 0)) fs.wordSize
        exact ⟨_, by omega, .cut hcut rfl⟩

theorem cut_lt {p count : Nat} (hword : fs.wordSize ∣ p)
    (hcut : ¬fs.wordSize ∣ fs.muxTake p count) :
    p + fs.muxTake p count / fs.wordSize * fs.wordSize < fs.nsamples * fs.wordSize := by
  have hle := muxHeadroom_le_left hword
  have hne : fs.muxTake p count ≠ fs.muxHeadroom p := fun e => hcut (e ▸ dvd_muxHeadroom p)
  have hmin : fs.muxTake p count ≤ fs.muxHeadroom p := Nat.min_le_right _ _
  have := Nat.div_mul_le_self (fs.muxTake p count) fs.wordSize
  omega

theorem hits_of_word_cut :
    ∀ (k p : Nat) (counts : Nat → Nat), fs.wordSize ∣ p →
      ¬fs.wordSize ∣ fs.muxTake (fs.muxPos p counts k) (counts k) →
      ∃ X, X < fs.nsamples * fs.wordSize ∧ Hits fs c X p counts := by
  intro k
  induction k with
  | zero => intro p counts hword hcut; exact ⟨_, cut_lt hword hcut, .cut hcut rfl⟩
  | succ k ih =>
      intro p counts hword hcut
      by_cases hfirst : fs.wordSize ∣ fs.muxTake p (counts 0)
      · obtain ⟨X, hX, hhits⟩ := ih _ _ (Nat.dvd_add hword hfirst) hcut
        exact ⟨X, hX, .later hfirst hhits.le hhits⟩
      · exact ⟨_, cut_lt hword hfirst, .cut hfirst rfl⟩

end wrong

/-! ### The two files -/

section opened

variable {fs : A400Fs} {map : InodeMap} {c : Nat}

theorem a400fsOpen_raw (hn : 0 < fs.nchan) (hraw : map.channel = 0)
    (heap : Nat → Nat → UInt8) :
    ∃ file, fs.a400fsOpen map heap = some file ∧ file.offset = 0 := by
  have hzero : fs.getBufferOffsetB 0 = some ((0 * fs.bufferlen / fs.nchan : Nat) : Int) :=
    getBufferOffsetB_eq hn (by rw [Nat.zero_mul]; exact Nat.two_pow_pos 31)
  unfold a400fsOpen
  simp only [hraw, if_true]
  rw [hzero]
  exact ⟨_, rfl, rfl⟩

theorem a400fsOpen_mux (hraw : fs.isCooked = false) (hchan : map.channel ≠ 0)
    (henabled : map.channel ≤ fs.nchanEnabled map.adev) (hoff : fs.chanOffsetW map = c)
    (hplace : c * fs.wordSize < 2 ^ 31) (heap : Nat → Nat → UInt8) :
    ∃ file, fs.a400fsOpen map heap = some file ∧ MuxAt fs c file 0 ∧ file.heap = heap ∧
      file.lbuf = none := by
  unfold a400fsOpen
  simp only [hchan, if_false, hoff, hraw]
  rw [if_neg (by omega)]
  simp only [Bool.not_false, if_true]
  unfold openChanFileMuxdata
  simp only
  rw [← Int.natCast_mul, value_natCast hplace]
  exact ⟨_, rfl, ⟨rfl, unsigned_natCast (by omega), rfl, henabled⟩, rfl, rfl⟩

/-- A buffer that is shorter than a sample has no samples to divide by. -/
theorem readMux_none (m : Nat × Nat → UInt8) (hws : 0 < fs.wordSize) (hssb : 0 < fs.ssb)
    (hsam : fs.bufferSam = 0) (file : A400FsPdesc) (count : Nat) :
    fs.readMux m file count = none := by
  unfold readMux readChanFileMuxdata
  simp only [withBuffers, Option.bind_eq_bind]
  by_cases hrange : fs.ssb < 2 ^ 31
  · rw [show fs.nchan * fs.wordSize = fs.ssb from rfl, value_natCast hrange, Option.bind_some, div,
      if_neg (by omega), Option.bind_some, div_natCast _ hssb, Option.bind_some,
      show fs.bufferlen / fs.ssb = fs.bufferSam from rfl, hsam, Int.natCast_zero, div_zero]
    rfl
  · rw [show fs.nchan * fs.wordSize = fs.ssb from rfl, value_natCast_none (Nat.le_of_not_lt hrange)]
    rfl

end opened

end A400Fs

/-- The inode of the raw file. -/
def InodeMap.raw : InodeMap := ⟨0, 0, 0⟩

/--
Whatever is in the buffers and in the memory for the bounce buffers: the raw file, read to its
end, is so long that it has every word of channel `c`, and the channel file, read with these
counts, is those words.
-/
def ReadsRawChannel (fs : A400Fs) (map : InodeMap) (c : Nat) (counts : Nat → Nat) : Prop :=
  ∀ m heap rawCounts, (∀ k, 1 ≤ rawCounts k) →
    ∃ rawFile raw file out, (fs.withBuffers m).a400fsOpen .raw heap = some rawFile ∧
      ReadsTo (fs.readRaw m) rawFile rawCounts raw ∧
      (fs.withBuffers m).a400fsOpen map heap = some file ∧
      ReadsTo (fs.readMux m) file counts out ∧
      out.length = fs.nsamples * fs.wordSize ∧
      ∀ f, f < fs.nsamples * fs.wordSize → out[f]? = raw[fs.rawByte c f]?

theorem rawByte_lt_setBytes {fs : A400Fs} {c f : Nat} (hws : 0 < fs.wordSize) (hc : c < fs.nchan)
    (hf : f < fs.nsamples * fs.wordSize) : fs.rawByte c f < fs.setBytes := by
  have hsam : f / fs.wordSize < fs.nsamples := Nat.div_lt_of_lt_mul (by rwa [Nat.mul_comm])
  calc fs.rawByte c f < (f / fs.wordSize + 1) * fs.ssb := rawByte_lt hws hc f
    _ ≤ fs.setBytes := Nat.mul_le_mul_right _ hsam

section agreement

variable {fs : A400Fs} {map : InodeMap} {c : Nat} {counts : Nat → Nat}

/-- The places of the channel and of the raw file are the same for every byte of the set. -/
theorem muxAt_eq_rawChanAt (hws : 0 < fs.wordSize) (hc : c < fs.nchan)
    (h : fs.ssb ∣ fs.bufferlen ∨ fs.nsamples ≤ fs.bufferSam) {f : Nat}
    (hf : f < fs.nsamples * fs.wordSize) : fs.muxAt c f = fs.rawChanAt c f := by
  have hsam : f / fs.wordSize < fs.nsamples := Nat.div_lt_of_lt_mul (by rwa [Nat.mul_comm])
  rcases h with hdvd | hshort
  · exact muxAt_of_dvd hws hc hdvd f
  · exact muxAt_of_lt hws hc (by omega)

/-- A set that fits the buffers, of samples that are not cut, is in the buffers. -/
theorem buffer_lt (hssb : 0 < fs.ssb)
    (hfits : fs.setBytes ≤ fs.nbuffers * fs.bufferlen)
    (h : fs.ssb ∣ fs.bufferlen ∨ fs.nsamples ≤ fs.bufferSam) {p : Nat}
    (hp : p < fs.nsamples * fs.wordSize) : p / fs.wordSize / fs.bufferSam < fs.nbuffers := by
  have hsam : p / fs.wordSize < fs.nsamples := Nat.div_lt_of_lt_mul (by rwa [Nat.mul_comm])
  have hbufs : 0 < fs.nbuffers := by
    by_contra hzero
    have hpos : 0 < fs.setBytes := Nat.mul_pos (Nat.lt_of_le_of_lt (Nat.zero_le _) hsam) hssb
    rw [Nat.eq_zero_of_not_pos hzero, Nat.zero_mul] at hfits
    omega
  rcases h with hdvd | hshort
  · have hall : fs.nsamples * fs.ssb ≤ fs.nbuffers * fs.bufferSam * fs.ssb := by
      rw [Nat.mul_assoc, bufferSam, Nat.div_mul_cancel hdvd]
      exact hfits
    have hle := Nat.le_of_mul_le_mul_right hall hssb
    exact Nat.div_lt_of_lt_mul (by rw [Nat.mul_comm]; omega)
  · rwa [Nat.div_eq_of_lt (by omega)]

/-- With more samples than are in a buffer there is a second buffer. -/
theorem one_lt_nbuffers (hfits : fs.setBytes ≤ fs.nbuffers * fs.bufferlen) (hssb : 0 < fs.ssb)
    (hlong : fs.bufferSam < fs.nsamples) : 1 < fs.nbuffers := by
  by_contra hone
  have hle : fs.nbuffers * fs.bufferlen ≤ 1 * fs.bufferlen := Nat.mul_le_mul_right _ (by omega)
  have hmore : fs.bufferlen < (fs.bufferSam + 1) * fs.ssb := by
    rw [Nat.mul_comm]
    exact Nat.lt_mul_div_succ _ hssb
  have hset : (fs.bufferSam + 1) * fs.ssb ≤ fs.setBytes := Nat.mul_le_mul_right _ hlong
  omega

/-- Where a sample or a word is cut there is a first byte that the reads get wrong. -/
theorem exists_hits (hws : 0 < fs.wordSize) (hc : c < fs.nchan) (hsam : 0 < fs.bufferSam)
    (hfits : fs.setBytes ≤ fs.nbuffers * fs.bufferlen) (hpos : ∀ k, 0 < counts k)
    (h : ¬((fs.ssb ∣ fs.bufferlen ∨ fs.nsamples ≤ fs.bufferSam) ∧ WholeWords fs 0 counts)) :
    ∃ X, X < fs.nsamples * fs.wordSize ∧ Hits fs c X 0 counts ∧
      (∀ f, f < X → fs.muxAt c f = fs.rawChanAt c f) ∧
      ∀ p, p ≤ X → p / fs.wordSize / fs.bufferSam < fs.nbuffers := by
  have hssb := ssb_pos hws hc
  by_cases hgeom : fs.ssb ∣ fs.bufferlen ∨ fs.nsamples ≤ fs.bufferSam
  · obtain ⟨k, hk⟩ := not_forall.mp (not_and.mp h hgeom)
    obtain ⟨X, hX, hhits⟩ := hits_of_word_cut k 0 counts (Nat.dvd_zero _) hk
    exact ⟨X, hX, hhits, fun f hf => muxAt_eq_rawChanAt hws hc hgeom (by omega),
      fun p hp => buffer_lt hssb hfits hgeom (by omega)⟩
  · rw [not_or] at hgeom
    have hlong : fs.bufferSam < fs.nsamples := by omega
    have hset : fs.bufferSam * fs.wordSize < fs.nsamples * fs.wordSize :=
      Nat.mul_lt_mul_of_pos_right hlong hws
    have htwo := one_lt_nbuffers hfits hssb hlong
    obtain ⟨X, hX, hhits⟩ := hits_of_sample_cut (c := c) hws hsam hgeom.1 hlong
      (fs.bufferSam * fs.wordSize) 0 counts (Nat.dvd_zero _) (Nat.zero_add _) hpos
    refine ⟨X, by omega, hhits, fun f hf => muxAt_of_lt hws hc ?_, fun p hp => ?_⟩
    · exact Nat.div_lt_of_lt_mul (by rw [Nat.mul_comm]; omega)
    · have hsamp : p / fs.wordSize ≤ fs.bufferSam :=
        Nat.div_le_of_le_mul (by rw [Nat.mul_comm]; omega)
      have hone : p / fs.wordSize / fs.bufferSam ≤ 1 := Nat.div_le_of_le_mul (by omega)
      omega

/-- Files that agree have a buffer of at least a sample and a set that fits an `int`, and cut
neither a sample nor a word. -/
theorem ReadsRawChannel.uncut (hall : ReadsRawChannel fs map c counts)
    (hraw : fs.isCooked = false) (hpcomp : fs.pcomp = 0)
    (hws : fs.wordSize = 2 ∨ fs.wordSize = 4) (hlen : fs.bufferlen < 2 ^ 31) (hc : c < fs.nchan)
    (hfits : fs.setBytes ≤ fs.nbuffers * fs.bufferlen) (hchan : map.channel ≠ 0)
    (henabled : map.channel ≤ fs.nchanEnabled map.adev) (hoff : fs.chanOffsetW map = c)
    (hpos : ∀ k, 0 < counts k) :
    fs.setBytes < 2 ^ 31 ∧ 0 < fs.bufferSam ∧
      (fs.ssb ∣ fs.bufferlen ∨ fs.nsamples ≤ fs.bufferSam) ∧ WholeWords fs 0 counts := by
  have hws0 : 0 < fs.wordSize := by omega
  have hssb := ssb_pos hws0 hc
  have hset : fs.setBytes < 2 ^ 31 := by
    by_contra hlong
    obtain ⟨rawFile, raw, -, -, -, hreads, -⟩ := hall (fun _ => 0) (fun _ _ => 0) (fun _ => 1)
      fun _ => Nat.le_refl 1
    exact hreads.first (readRaw_none _ (Nat.le_of_not_lt hlong) _ _)
  have hsam : 0 < fs.bufferSam := by
    by_contra hnone
    obtain ⟨-, -, file, out, -, -, -, hreads, -⟩ := hall (fun _ => 0) (fun _ _ => 0) (fun _ => 1)
      fun _ => Nat.le_refl 1
    exact hreads.first (readMux_none _ hws0 hssb (Nat.eq_zero_of_not_pos hnone) _ _)
  refine ⟨hset, hsam, ?_⟩
  by_contra hcut
  obtain ⟨X, hX, hhits, hsame, hbuf⟩ := exists_hits hws0 hc hsam hfits hpos hcut
  have hplace : c * fs.wordSize < 2 ^ 31 := by
    have := ssb_le hsam
    have : c * fs.wordSize ≤ fs.ssb := Nat.mul_le_mul_right _ (Nat.le_of_lt hc)
    omega
  obtain ⟨rawFile, raw, file, out, hopenRaw, hreadsRaw, hopen, hreads, -, hagree⟩ :=
    hall (fs.marked c X) (fun _ _ => 0) (fun _ => 1) fun _ => Nat.le_refl 1
  obtain ⟨file', hopen', hat, hheap, hlbuf⟩ :=
    @a400fsOpen_mux (fs.withBuffers (fs.marked c X)) map c hraw hchan henabled hoff hplace
      fun _ _ => 0
  obtain rfl : file' = file := Option.some.inj (hopen'.symm.trans hopen)
  have hclean : Clean file' := ⟨fun n i => by rw [hheap], fun i => by rw [hlbuf]; rfl⟩
  have hmuxat : MuxAt fs c file' 0 := ⟨hat.offset, hat.bufferOffset, hat.stride, hat.enabled⟩
  have hmiss := hhits.miss hpcomp hws hlen hc hsam hset hX hbuf
    (fun f hf e => absurd (rawChanAt_inj hws0 hc ((hsame f hf).symm.trans e)) (by omega))
    hmuxat (Nat.dvd_zero _) hclean hreads
  obtain ⟨rawFile', hopenRaw', hoffset⟩ :=
    @a400fsOpen_raw (fs.withBuffers (fs.marked c X)) .raw (by simp only [withBuffers]; omega) rfl
      fun _ _ => 0
  obtain rfl : rawFile' = rawFile := Option.some.inj (hopenRaw'.symm.trans hopenRaw)
  have hlens : 0 < fs.bufferlen := Nat.lt_of_lt_of_le hssb (ssb_le hsam)
  have hcells := ReadsTo.unique (readsTo_raw (fs.marked c X) hlens hlen (by omega) hset hoffset
    fun _ => Nat.one_pos) hreadsRaw
  rw [Nat.sub_zero, hagree X hX, ← hcells, getElem?_cells,
    if_pos (rawByte_lt_setBytes hws0 hc hX), Nat.zero_add] at hmiss
  exact hmiss (congrArg some (if_pos rfl))

end agreement

/--
**The channel file of raw data agrees with the raw file if and only if** the set fits an `int`, a
buffer has at least one sample, no sample is cut by the end of a buffer and no word by the end of a
read.
-/
theorem readChanFileMuxdata_raw_iff (fs : A400Fs) (map : InodeMap) (c : Nat) (counts : Nat → Nat)
    (hraw : fs.isCooked = false) (hpcomp : fs.pcomp = 0)
    (hws : fs.wordSize = 2 ∨ fs.wordSize = 4) (hlen : fs.bufferlen < 2 ^ 31)
    (hfits : fs.setBytes ≤ fs.nbuffers * fs.bufferlen) (hchan : 1 ≤ map.channel)
    (henabled : map.channel ≤ fs.nchanEnabled map.adev) (hoff : fs.chanOffsetW map = c)
    (hc : c < fs.nchan) (hpos : ∀ k, 1 ≤ counts k) :
    ReadsRawChannel fs map c counts ↔
      fs.setBytes < 2 ^ 31 ∧ fs.ssb ≤ fs.bufferlen ∧
        (fs.ssb ∣ fs.bufferlen ∨ fs.nsamples ≤ fs.bufferlen / fs.ssb) ∧ WholeWords fs 0 counts := by
  have hws0 : 0 < fs.wordSize := by omega
  have hssb := ssb_pos hws0 hc
  have hsam : 0 < fs.bufferSam ↔ fs.ssb ≤ fs.bufferlen := by
    rw [bufferSam, Nat.div_pos_iff]
    exact and_iff_right hssb
  constructor
  · intro hall
    obtain ⟨hset, hpos, huncut⟩ := hall.uncut hraw hpcomp hws hlen hc hfits (by omega) henabled
      hoff hpos
    exact ⟨hset, hsam.mp hpos, huncut⟩
  · rintro ⟨hset, hle, hgeom, hwhole⟩ m heap rawCounts hrawCounts
    have hplace : c * fs.wordSize < 2 ^ 31 := by
      have : c * fs.wordSize ≤ fs.ssb := Nat.mul_le_mul_right _ (Nat.le_of_lt hc)
      omega
    obtain ⟨rawFile, hopenRaw, hoffset⟩ :=
      @a400fsOpen_raw (fs.withBuffers m) .raw (by simp only [withBuffers]; omega) rfl heap
    obtain ⟨file, hopen, hat, -, -⟩ :=
      @a400fsOpen_mux (fs.withBuffers m) map c hraw (by omega) henabled hoff hplace heap
    have hmuxat : MuxAt fs c file 0 := ⟨hat.offset, hat.bufferOffset, hat.stride, hat.enabled⟩
    refine ⟨rawFile, _, file, _, hopenRaw,
      readsTo_raw m (by omega) hlen (by omega) hset hoffset hrawCounts, hopen,
      readsTo_mux m hpcomp hws hlen hc (hsam.mpr hle) hset
        (fun p hp => buffer_lt hssb hfits hgeom hp) hmuxat hpos hwhole, length_cells _ _ _,
      fun f hf => ?_⟩
    rw [getElem?_cells, getElem?_cells, if_pos hf, if_pos (rawByte_lt_setBytes hws0 hc hf),
      Nat.zero_add, Nat.zero_add, muxAt_eq_rawChanAt hws0 hc hgeom hf]
    rfl

/-- The second of four channels, over three buffers, in reads of fifty words. -/
theorem readChanFileMuxdata_raw_four :
    ReadsRawChannel (.ofSite 4 1500 false) ⟨1, 1, 2⟩ 1 fun _ => 100 :=
  (readChanFileMuxdata_raw_iff (.ofSite 4 1500 false) ⟨1, 1, 2⟩ 1 (fun _ => 100) rfl rfl
    (Or.inl rfl) (by decide) (by decide) (by decide) (by decide) rfl (by decide)
    (fun _ => by decide)).mpr
    ⟨by decide, by decide, Or.inl (by decide), wholeWords_of_dvd (fun _ => by decide) 0⟩

/-- The same in reads of three bytes, a word and a half. -/
theorem readChanFileMuxdata_three_bytes :
    ¬ReadsRawChannel (.ofSite 4 1500 false) ⟨1, 1, 2⟩ 1 fun _ => 3 := by
  intro hall
  obtain ⟨-, -, -, hwhole⟩ := hall.uncut rfl rfl (Or.inl rfl) (by decide) (by decide) (by decide)
    (by decide) (by decide) rfl (fun _ => by decide)
  exact absurd hwhole.here (by decide)

end Acq400
