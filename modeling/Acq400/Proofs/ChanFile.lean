/-
The channel file of demuxed data, against the layout the demux leaves.

The demux gives a channel `channel_buffer_sam` whole samples of each buffer.  The
file takes `bufferlen/nchan` bytes of each and begins at `c*bufferlen/nchan`.  The
places the file reads are the places the demux has written for some geometries,
channels and lengths, and `readChanFile_demuxed_iff` says for which.
-/
import Acq400.Driver.A400Fs
import Acq400.Stream.Demuxer
import Mathlib.Tactic.Ring

namespace Acq400

open CInt Reads A400Fs

namespace A400Fs

/-- The geometry as the stream program has it, with data that is not doubled up. -/
def geometry (fs : A400Fs) : G where
  nchan := fs.nchan
  wordsize := fs.wordSize
  doubleUp := false
  bufferlen := fs.bufferlen
  nbuffers := fs.nbuffers

def channelBufferSam (fs : A400Fs) : Nat := Demuxer.channelBufferSam fs.geometry

/-- The bytes of a channel that the reader takes of each buffer. -/
def chanBytes (fs : A400Fs) : Nat := fs.bufferlen / fs.nchan

/-- The buffer and the byte in it where the demux puts byte `f` of channel `c`. -/
def demuxedAt (fs : A400Fs) (c f : Nat) : Nat × Nat :=
  (f / fs.wordSize / fs.channelBufferSam,
    (c * fs.channelBufferSam + f / fs.wordSize % fs.channelBufferSam) * fs.wordSize +
      f % fs.wordSize)

/-- The buffer and the byte in it where the file of channel `c` has its byte `f`. -/
def cookedAt (fs : A400Fs) (c f : Nat) : Nat × Nat :=
  (f / fs.chanBytes, c * fs.bufferlen / fs.nchan + f % fs.chanBytes)

/-- The bytes of the buffers by number of the buffer and byte. -/
def buffers (m : Nat × Nat → UInt8) : Int → Int → UInt8 := fun ibuf i => m (ibuf.toNat, i.toNat)

/-- The file system, with these bytes in the buffers. -/
def withBuffers (fs : A400Fs) (m : Nat × Nat → UInt8) : A400Fs := { fs with hb := buffers m }

/-- The buffers hold the samples `data` of all channels, as the demux leaves them. -/
def Demuxed (fs : A400Fs) (m : Nat × Nat → UInt8) (data : Nat → Nat → UInt8) : Prop :=
  ∀ c, c < fs.nchan → ∀ f, f < fs.nsamples * fs.wordSize → m (fs.demuxedAt c f) = data c f

/-! ### Where the two places are the same -/

section places

variable {fs : A400Fs} {c : Nat}

theorem mul_div_eq_iff (hn : 0 < fs.nchan) :
    c * fs.bufferlen / fs.nchan = c * fs.chanBytes ↔ c * (fs.bufferlen % fs.nchan) < fs.nchan := by
  have hsplit : c * fs.bufferlen =
      fs.nchan * (c * fs.chanBytes) + c * (fs.bufferlen % fs.nchan) := by
    conv => lhs; rw [← Nat.div_add_mod fs.bufferlen fs.nchan]
    unfold chanBytes
    ring
  rw [hsplit, Nat.mul_add_div hn]
  constructor
  · intro h
    have hzero : c * (fs.bufferlen % fs.nchan) / fs.nchan = 0 := by omega
    exact (Nat.div_eq_zero_iff_lt hn).mp hzero
  · intro h
    rw [Nat.div_eq_of_lt h, Nat.add_zero]

theorem cookedAt_of_whole (hn : 0 < fs.nchan) (hdvd : fs.wordSize ∣ fs.chanBytes)
    (hc : c * (fs.bufferlen % fs.nchan) < fs.nchan) (f : Nat) :
    fs.cookedAt c f = fs.demuxedAt c f := by
  have hcbs : fs.chanBytes = fs.wordSize * fs.channelBufferSam :=
    (Nat.mul_div_cancel' hdvd).symm
  have hbase := (mul_div_eq_iff hn).mpr hc
  unfold cookedAt demuxedAt
  rw [hbase, hcbs, ← Nat.div_div_eq_div_mul, Nat.mod_mul]
  refine Prod.ext rfl ?_
  simp only
  ring

theorem cookedAt_of_first {f : Nat} (hf : f < fs.channelBufferSam * fs.wordSize) :
    fs.cookedAt 0 f = fs.demuxedAt 0 f := by
  have hle : fs.channelBufferSam * fs.wordSize ≤ fs.chanBytes := Nat.div_mul_le_self _ _
  have hlt : f < fs.chanBytes := Nat.lt_of_lt_of_le hf hle
  have hsam : f / fs.wordSize < fs.channelBufferSam := Nat.div_lt_of_lt_mul (by rwa [Nat.mul_comm])
  unfold cookedAt demuxedAt
  rw [Nat.div_eq_of_lt hlt, Nat.mod_eq_of_lt hlt, Nat.div_eq_of_lt hsam, Nat.mod_eq_of_lt hsam]
  refine Prod.ext rfl ?_
  simp only [Nat.zero_mul, Nat.zero_div, Nat.zero_add]
  exact (Nat.div_add_mod' f fs.wordSize).symm

theorem cookedAt_eq_iff (hn : 0 < fs.nchan) (hws : 0 < fs.wordSize)
    (hcbs : 0 < fs.nsamples → 0 < fs.channelBufferSam) :
    (∀ f, f < fs.nsamples * fs.wordSize → fs.cookedAt c f = fs.demuxedAt c f) ↔
      fs.nsamples = 0 ∨
        (fs.wordSize ∣ fs.chanBytes ∧ c * (fs.bufferlen % fs.nchan) < fs.nchan) ∨
        (c = 0 ∧ fs.nsamples ≤ fs.channelBufferSam) := by
  constructor
  · intro hall
    by_cases hzero : fs.nsamples = 0
    · exact Or.inl hzero
    have hns : 0 < fs.nsamples := Nat.pos_of_ne_zero hzero
    have hle : fs.channelBufferSam * fs.wordSize ≤ fs.chanBytes := Nat.div_mul_le_self _ _
    have hbase : c * fs.bufferlen / fs.nchan = c * (fs.channelBufferSam * fs.wordSize) := by
      have h := congrArg Prod.snd (hall 0 (Nat.mul_pos hns hws))
      simp only [cookedAt, demuxedAt, Nat.zero_mod, Nat.zero_div, Nat.add_zero] at h
      rw [h, Nat.mul_assoc]
    have hfloor : c * fs.chanBytes ≤ c * fs.bufferlen / fs.nchan :=
      Nat.mul_div_le_mul_div_assoc c fs.bufferlen fs.nchan
    by_cases hdvd : fs.wordSize ∣ fs.chanBytes
    · have heq : fs.channelBufferSam * fs.wordSize = fs.chanBytes := Nat.div_mul_cancel hdvd
      rw [heq] at hbase
      exact Or.inr (Or.inl ⟨hdvd, (mul_div_eq_iff hn).mp hbase⟩)
    · have hlt : fs.channelBufferSam * fs.wordSize < fs.chanBytes :=
        Nat.lt_of_le_of_ne hle fun e => hdvd ⟨_, by rw [← e, Nat.mul_comm]⟩
      have hc : c = 0 := by
        by_contra hpos
        have := Nat.mul_lt_mul_of_pos_left hlt (Nat.pos_of_ne_zero hpos)
        omega
      refine Or.inr (Or.inr ⟨hc, ?_⟩)
      -- byte `channel_buffer_sam` samples on is in the next buffer for the demux only
      by_contra hlong
      have h := congrArg Prod.fst (hall (fs.channelBufferSam * fs.wordSize)
        (Nat.mul_lt_mul_of_pos_right (by omega) hws))
      simp only [cookedAt, demuxedAt] at h
      rw [Nat.div_eq_of_lt hlt, Nat.mul_div_cancel _ hws, Nat.div_self (hcbs hns)] at h
      omega
  · rintro (hzero | ⟨hdvd, hc⟩ | ⟨rfl, hshort⟩) f hf
    · rw [hzero, Nat.zero_mul] at hf
      omega
    · exact cookedAt_of_whole hn hdvd hc f
    · exact cookedAt_of_first (Nat.lt_of_lt_of_le hf (Nat.mul_le_mul_right _ hshort))

end places

/-! ### Reading the file -/

section reading

variable {fs : A400Fs} {map : InodeMap} {c : Nat}

theorem clip_natCast (count : Nat) {headroom : Nat} (h : headroom < 2 ^ 32) :
    clip count headroom = min count headroom := by
  unfold clip
  rw [unsigned_natCast h]
  split
  · omega
  · omega

theorem bytesAt_natCast (m : Nat × Nat → UInt8) (ibuf cursor k : Nat) :
    bytesAt (buffers m ibuf) cursor k = cells (fun i => m (ibuf, cursor + i)) 0 k := rfl

/-- The file of channel `c` as it is opened. -/
def cookedFile (fs : A400Fs) (map : InodeMap) (c : Nat) (heap : Nat → Nat → UInt8) :
    A400FsPdesc where
  map := map
  wordOffset := c
  bufferOffset := (c * fs.bufferlen / fs.nchan : Nat)
  stride := 1
  lbufLen := 0
  lbuf := none
  offset := 0
  heap := heap

theorem getBufferOffsetB_eq (hn : 0 < fs.nchan) (hc : c * fs.bufferlen < 2 ^ 31) :
    fs.getBufferOffsetB c = some ((c * fs.bufferlen / fs.nchan : Nat) : Int) := by
  unfold getBufferOffsetB
  rw [← Int.natCast_mul, value_natCast hc, Option.bind_some, div_natCast _ hn]

theorem a400fsOpen_cooked (fs : A400Fs) (hcooked : fs.isCooked = true) (hn : 0 < fs.nchan)
    (hchan : map.channel ≠ 0) (hoff : fs.chanOffsetW map = c)
    (hc : c * fs.bufferlen < 2 ^ 31) (heap : Nat → Nat → UInt8) :
    fs.a400fsOpen map heap = some (fs.cookedFile map c heap) := by
  have hlt : c * fs.bufferlen / fs.nchan < 2 ^ 31 := Nat.lt_of_le_of_lt (Nat.div_le_self _ _) hc
  unfold a400fsOpen
  simp only [hchan, if_false, hoff, hcooked]
  rw [if_neg (by omega), getBufferOffsetB_eq hn hc]
  simp only [Bool.not_true, Bool.false_eq_true, if_false, Option.map_some]
  rw [unsigned_natCast (by omega)]
  rfl

theorem a400fsOpen_overflow (fs : A400Fs) (hcooked : fs.isCooked = true) (hchan : map.channel ≠ 0)
    (hoff : fs.chanOffsetW map = c) (hc : 2 ^ 31 ≤ c * fs.bufferlen)
    (heap : Nat → Nat → UInt8) : fs.a400fsOpen map heap = none := by
  unfold a400fsOpen
  simp only [hchan, if_false, hoff, hcooked]
  rw [if_neg (by omega), getBufferOffsetB, ← Int.natCast_mul, value_natCast_none hc]
  rfl

/-- What the reads keep: the file at a position, otherwise as it was opened. -/
structure CookedAt (fs : A400Fs) (c : Nat) (file : A400FsPdesc) (p : Nat) : Prop where
  offset : file.offset = p
  bufferOffset : file.bufferOffset = (c * fs.bufferlen / fs.nchan : Nat)
  stride : file.stride = 1
  enabled : file.map.channel ≤ fs.nchanEnabled file.map.adev

/-- The bytes that are left of the channel in the buffer, and of the channel in all. -/
def chanHeadroom (fs : A400Fs) (p : Nat) : Nat :=
  min (fs.chanBytes - p % fs.chanBytes) (fs.nsamples * fs.wordSize - p)

theorem cookedAt_lt (hn : 0 < fs.nchan) (hbytes : 0 < fs.chanBytes) (hc : c < fs.nchan)
    (f : Nat) : (fs.cookedAt c f).2 < fs.bufferlen := by
  have hlt : f % fs.chanBytes < fs.chanBytes := Nat.mod_lt _ hbytes
  have hsum : c * fs.bufferlen / fs.nchan + fs.chanBytes ≤ fs.bufferlen := by
    calc c * fs.bufferlen / fs.nchan + fs.chanBytes
        ≤ (c * fs.bufferlen + fs.bufferlen) / fs.nchan := by
          rw [Nat.le_div_iff_mul_le hn, Nat.add_mul]
          exact Nat.add_le_add (Nat.div_mul_le_self _ _) (Nat.div_mul_le_self _ _)
      _ = (c + 1) * fs.bufferlen / fs.nchan := by rw [Nat.succ_mul]
      _ ≤ fs.nchan * fs.bufferlen / fs.nchan := Nat.div_le_div_right (Nat.mul_le_mul_right _ hc)
      _ = fs.bufferlen := Nat.mul_div_cancel_left _ hn
  simp only [cookedAt]
  omega

theorem cookedAt_add {p i : Nat} (h : p % fs.chanBytes + i < fs.chanBytes) :
    fs.cookedAt c (p + i) =
      (p / fs.chanBytes, c * fs.bufferlen / fs.nchan + (p % fs.chanBytes + i)) := by
  have hsplit : p + i = fs.chanBytes * (p / fs.chanBytes) + (p % fs.chanBytes + i) := by
    have := Nat.div_add_mod p fs.chanBytes
    omega
  unfold cookedAt
  rw [hsplit, Nat.mul_add_div (by omega), Nat.div_eq_of_lt h, Nat.add_zero, Nat.mul_add_mod,
    Nat.mod_eq_of_lt h]

theorem asRead_pure {rc : Int} (h : 0 ≤ rc) (copied : List UInt8) (file : A400FsPdesc) :
    asRead (pure ⟨rc, copied, file⟩) = some (copied, file) := by
  unfold asRead
  exact if_neg (by simpa using h)

theorem readChanFile_eq {m : Nat × Nat → UInt8} {file : A400FsPdesc} {p : Nat}
    (h : CookedAt fs c file p) (hpcomp : fs.pcomp = 0) (hn : 0 < fs.nchan)
    (hbytes : 0 < fs.chanBytes) (hlen : fs.bufferlen < 2 ^ 31)
    (hc : c < fs.nchan) (hset : fs.nsamples * fs.wordSize < 2 ^ 31)
    (hp : p ≤ fs.nsamples * fs.wordSize) (count : Nat) :
    asRead ((fs.withBuffers m).readChanFile file count) =
      some (cells (fun f => m (fs.cookedAt c f)) p (min count (fs.chanHeadroom p)),
        { file with offset := (p + min count (fs.chanHeadroom p) : Nat) }) := by
  have hoff : wrap file.offset = p := by
    rw [h.offset]
    exact wrap_natCast (by omega)
  have hfoffset : (if (p : Int) = 0 then (0 : Int) else p) = p := by
    split
    · omega
    · rfl
  have hleft : ((fs.nsamples * fs.wordSize : Nat) : Int) + 0 - p
      = (fs.nsamples * fs.wordSize - p : Nat) := by omega
  have hplace := cookedAt_lt hn hbytes hc p
  have hplace' : c * fs.bufferlen / fs.nchan + p % fs.chanBytes < fs.bufferlen := hplace
  have hcursor : wrap ((p % fs.chanBytes : Nat) + file.bufferOffset)
      = (c * fs.bufferlen / fs.nchan + p % fs.chanBytes : Nat) := by
    rw [h.bufferOffset, ← Int.natCast_add, Nat.add_comm]
    exact wrap_natCast (by omega)
  unfold readChanFile
  simp only [withBuffers, hoff, hfoffset, hpcomp, Option.bind_eq_bind, ne_eq, not_true_eq_false,
    and_false, if_false]
  rw [div_natCast _ hn, Option.bind_some, show fs.bufferlen / fs.nchan = fs.chanBytes from rfl,
    div_natCast _ hbytes, Option.bind_some, value_natCast hset, Option.bind_some, hleft,
    value_natCast (by omega),
    Option.bind_some, sub_div_mul, hcursor, if_neg (by have := h.enabled; omega)]
  by_cases hend : fs.nsamples * fs.wordSize - p = 0
  · have hzero : min count (fs.chanHeadroom p) = 0 := by
      unfold chanHeadroom
      omega
    rw [if_pos (by omega), hzero, cells_zero, Nat.add_zero, ← h.offset]
    exact asRead_pure (Int.le_refl _) _ _
  · have hhead : min ((fs.chanBytes : Int) - (p % fs.chanBytes : Nat))
        (fs.nsamples * fs.wordSize - p : Nat) = (fs.chanHeadroom p : Nat) := by
      have := Nat.mod_lt p hbytes
      unfold chanHeadroom
      omega
    have hsmall : fs.chanHeadroom p < 2 ^ 32 := by
      unfold chanHeadroom
      omega
    rw [if_neg (by omega), if_neg (by omega), if_pos h.stride, hhead, clip_natCast _ hsmall,
      bytesAt_natCast, asRead_pure (by omega), h.offset, ← Int.natCast_add]
    refine congrArg (fun out => some (out, _)) (cells_eq_cells fun i hi => ?_)
    have hin : p % fs.chanBytes + i < fs.chanBytes := by
      unfold chanHeadroom at hi
      omega
    rw [cookedAt_add hin, Nat.zero_add, Nat.add_assoc]

/-- The reads of a cooked channel file. -/
def readCooked (fs : A400Fs) (m : Nat × Nat → UInt8) (file : A400FsPdesc) (count : Nat) :
    Option (List UInt8 × A400FsPdesc) := asRead ((fs.withBuffers m).readChanFile file count)

theorem readsTo_cooked (m : Nat × Nat → UInt8) (hpcomp : fs.pcomp = 0) (hn : 0 < fs.nchan)
    (hbytes : 0 < fs.chanBytes) (hlen : fs.bufferlen < 2 ^ 31) (hc : c < fs.nchan)
    (hset : fs.nsamples * fs.wordSize < 2 ^ 31) {file : A400FsPdesc} (h : CookedAt fs c file 0)
    {counts : Nat → Nat} (hpos : ∀ k, 0 < counts k) :
    ReadsTo (fs.readCooked m) file counts
      (cells (fun f => m (fs.cookedAt c f)) 0 (fs.nsamples * fs.wordSize)) := by
  have hread {file : A400FsPdesc} {p : Nat} (h : CookedAt fs c file p)
      (hp : p ≤ fs.nsamples * fs.wordSize) (count : Nat) :=
    readChanFile_eq (m := m) h hpcomp hn hbytes hlen hc hset hp count
  have hzero : file.offset.toNat = 0 := by rw [h.offset]; rfl
  have hall := @readsTo_cells _ _ (fs.readCooked m) (fun f => m (fs.cookedAt c f))
    (fs.nsamples * fs.wordSize) (fun file => file.offset.toNat)
    (fun file counts => CookedAt fs c file file.offset.toNat ∧ ∀ k, 0 < counts k)
    (fun file counts hinv hlt => ?_) (fun file counts hinv hend => ?_)
    (fs.nsamples * fs.wordSize) file counts ⟨hzero.symm ▸ h, hpos⟩ (by omega) (by omega)
  · rwa [hzero] at hall
  · have hmod := Nat.mod_lt file.offset.toNat hbytes
    have hhead : 0 < fs.chanHeadroom file.offset.toNat := by
      unfold chanHeadroom
      omega
    have hle : fs.chanHeadroom file.offset.toNat ≤ fs.nsamples * fs.wordSize - file.offset.toNat :=
      Nat.min_le_right _ _
    have hcount := hinv.2 0
    refine ⟨min (counts 0) (fs.chanHeadroom file.offset.toNat), _, by omega, by omega,
      hread hinv.1 (by omega) (counts 0), Int.toNat_natCast _, ⟨?_, fun k => hinv.2 (k + 1)⟩⟩
    exact ⟨(Int.toNat_natCast _).symm ▸ rfl, hinv.1.bufferOffset, hinv.1.stride, hinv.1.enabled⟩
  · have hhead : min (counts 0) (fs.chanHeadroom file.offset.toNat) = 0 := by
      unfold chanHeadroom
      omega
    have hgot := hread hinv.1 (by omega) (counts 0)
    rw [hhead, cells_zero] at hgot
    exact ⟨_, hgot⟩

/-- With a channel of no bytes or a set too long for an `int` there is no read at all. -/
theorem readChanFile_none (m : Nat × Nat → UInt8)
    (h : fs.chanBytes = 0 ∨ 2 ^ 31 ≤ fs.nsamples * fs.wordSize) (hn : 0 < fs.nchan)
    (file : A400FsPdesc) (count : Nat) : (fs.withBuffers m).readChanFile file count = none := by
  unfold readChanFile
  simp only [withBuffers, Option.bind_eq_bind]
  rw [div_natCast _ hn, Option.bind_some, show fs.bufferlen / fs.nchan = fs.chanBytes from rfl]
  by_cases hbytes : fs.chanBytes = 0
  · rw [hbytes, Int.natCast_zero, div_zero]
    rfl
  · rw [value_natCast_none (h.resolve_left hbytes), div, if_neg (by omega), Option.bind_some]
    rfl

theorem readCooked_none (m : Nat × Nat → UInt8)
    (h : fs.chanBytes = 0 ∨ 2 ^ 31 ≤ fs.nsamples * fs.wordSize) (hn : 0 < fs.nchan)
    (file : A400FsPdesc) (count : Nat) : fs.readCooked m file count = none := by
  unfold readCooked
  rw [readChanFile_none m h hn]
  rfl

end reading

end A400Fs

/-- Whatever samples the demux has left in the buffers, the file of channel `c` gives those of
channel `c` to a client that reads with these counts. -/
def ReadsDemuxed (fs : A400Fs) (map : InodeMap) (c : Nat) (counts : Nat → Nat) : Prop :=
  ∀ m data heap, fs.Demuxed m data →
    ∃ file, (fs.withBuffers m).a400fsOpen map heap = some file ∧
      ReadsTo (fs.readCooked m) file counts (cells (data c) 0 (fs.nsamples * fs.wordSize))

theorem demuxed_self (fs : A400Fs) (m : Nat × Nat → UInt8) :
    fs.Demuxed m fun c f => m (fs.demuxedAt c f) := fun _ _ _ _ => rfl

/-- A file that is read with every set of samples is opened, is read at all, and is read from
where the demux has written. -/
theorem ReadsDemuxed.same_places {fs : A400Fs} {map : InodeMap} {c : Nat} {counts : Nat → Nat}
    (hall : ReadsDemuxed fs map c counts) (hcooked : fs.isCooked = true) (hpcomp : fs.pcomp = 0)
    (hn : 0 < fs.nchan) (hlen : fs.bufferlen < 2 ^ 31) (hchan : map.channel ≠ 0)
    (henabled : map.channel ≤ fs.nchanEnabled map.adev) (hoff : fs.chanOffsetW map = c)
    (hc : c < fs.nchan) (hpos : ∀ k, 0 < counts k) :
    0 < fs.chanBytes ∧ c * fs.bufferlen < 2 ^ 31 ∧ fs.nsamples * fs.wordSize < 2 ^ 31 ∧
      ∀ f, f < fs.nsamples * fs.wordSize → fs.cookedAt c f = fs.demuxedAt c f := by
  have hself := fun m => hall m _ (fun _ _ => 0) (demuxed_self fs m)
  have hopen : c * fs.bufferlen < 2 ^ 31 := by
    by_contra hover
    obtain ⟨file, hfile, -⟩ := hself fun _ => 0
    rw [a400fsOpen_overflow (fs.withBuffers _) hcooked hchan hoff
      (Nat.le_of_not_lt hover)] at hfile
    exact absurd hfile (by simp)
  have hsizes : ¬(fs.chanBytes = 0 ∨ 2 ^ 31 ≤ fs.nsamples * fs.wordSize) := by
    intro hbad
    obtain ⟨file, -, hreads⟩ := hself fun _ => 0
    exact hreads.first (readCooked_none _ hbad hn _ _)
  rw [not_or] at hsizes
  have hbytes := Nat.pos_of_ne_zero hsizes.1
  refine ⟨hbytes, hopen, by omega, ?_⟩
  refine (cells_comp_all_iff (by decide : (0 : UInt8) ≠ 1) _ _ _).mp fun m => ?_
  obtain ⟨file, hfile, hreads⟩ := hself m
  rw [a400fsOpen_cooked (fs.withBuffers m) hcooked hn hchan hoff hopen,
    Option.some.injEq] at hfile
  subst hfile
  have hstart : CookedAt fs c ((fs.withBuffers m).cookedFile map c fun _ _ => 0) 0 :=
    ⟨rfl, rfl, rfl, henabled⟩
  exact ReadsTo.unique (readsTo_cooked m hpcomp hn hbytes hlen hc (by omega) hstart hpos) hreads

/--
**A cooked channel file gives the samples of its channel if and only if** a channel has bytes in
a buffer, the sizes fit an `int`, and either the bytes of a channel are whole words and its
place is not rounded down, or it is the first channel and does not leave the first buffer.
-/
theorem readChanFile_demuxed_iff (fs : A400Fs) (map : InodeMap) (c : Nat) (counts : Nat → Nat)
    (hcooked : fs.isCooked = true) (hpcomp : fs.pcomp = 0) (hn : 1 ≤ fs.nchan)
    (hws : fs.wordSize = 2 ∨ fs.wordSize = 4) (hlen : fs.bufferlen < 2 ^ 31)
    (hfits : fs.nsamples ≤ fs.nbuffers * fs.channelBufferSam) (hchan : 1 ≤ map.channel)
    (henabled : map.channel ≤ fs.nchanEnabled map.adev) (hoff : fs.chanOffsetW map = c)
    (hc : c < fs.nchan) (hpos : ∀ k, 1 ≤ counts k) :
    ReadsDemuxed fs map c counts ↔
      fs.nchan ≤ fs.bufferlen ∧ c * fs.bufferlen < 2 ^ 31 ∧ fs.nsamples * fs.wordSize < 2 ^ 31 ∧
        (fs.nsamples = 0 ∨
          (fs.wordSize ∣ fs.bufferlen / fs.nchan ∧ c * (fs.bufferlen % fs.nchan) < fs.nchan) ∨
          (c = 0 ∧ fs.nsamples ≤ fs.bufferlen / fs.nchan / fs.wordSize)) := by
  have hcbs : 0 < fs.nsamples → 0 < fs.channelBufferSam := by
    intro hns
    by_contra hzero
    rw [Nat.eq_zero_of_not_pos hzero, Nat.mul_zero] at hfits
    omega
  have hplaces := cookedAt_eq_iff (c := c) hn (by omega) hcbs
  have hbytes : 0 < fs.chanBytes ↔ fs.nchan ≤ fs.bufferlen := by
    rw [chanBytes, Nat.div_pos_iff]
    exact and_iff_right hn
  constructor
  · intro hall
    obtain ⟨hchanBytes, hopen, hset, hsame⟩ :=
      hall.same_places hcooked hpcomp hn hlen (by omega) henabled hoff hc hpos
    exact ⟨hbytes.mp hchanBytes, hopen, hset, hplaces.mp hsame⟩
  · rintro ⟨hnchan, hopen, hset, hgood⟩ m data heap hdemuxed
    refine ⟨_, a400fsOpen_cooked (fs.withBuffers m) hcooked hn (by omega) hoff hopen heap, ?_⟩
    have hstart : CookedAt fs c ((fs.withBuffers m).cookedFile map c heap) 0 :=
      ⟨rfl, rfl, rfl, henabled⟩
    have hreads := readsTo_cooked m hpcomp hn (hbytes.mpr hnchan) hlen hc hset hstart hpos
    have hsame : cells (fun f => m (fs.cookedAt c f)) 0 (fs.nsamples * fs.wordSize)
        = cells (data c) 0 (fs.nsamples * fs.wordSize) := by
      refine cells_congr fun f _ hf => ?_
      rw [hplaces.mpr hgood f (by omega), hdemuxed c hc f (by omega)]
    rwa [hsame] at hreads

/-- A capture of `nsamples` 16-bit samples from one site, in eight buffers of a page. -/
def A400Fs.ofSite (nchan nsamples : Nat) (isCooked : Bool) : A400Fs where
  bufferlen := 4096
  nbuffers := 8
  wordSize := 2
  isCooked := isCooked
  nsamples := nsamples
  nchan := nchan
  pcomp := 0
  aggregatorSet := [some 1]
  nchanEnabled := fun _ => nchan
  hb := fun _ _ => 0

/-- The second of four channels, over three buffers. -/
theorem readChanFile_demuxed_four : ReadsDemuxed (.ofSite 4 1500 true) ⟨1, 1, 2⟩ 1 fun _ => 100 :=
  (readChanFile_demuxed_iff (.ofSite 4 1500 true) ⟨1, 1, 2⟩ 1 (fun _ => 100) rfl rfl (by decide)
    (Or.inl rfl) (by decide) (by decide) (by decide) (by decide) rfl (by decide)
    (fun _ => by decide)).mpr
    ⟨by decide, by decide, by decide, Or.inr (Or.inl ⟨by decide, by decide⟩)⟩

/-- The second of three channels: 1365 bytes of a page, of which the demux fills 1364. -/
theorem readChanFile_three_channels :
    ¬ReadsDemuxed (.ofSite 3 1 true) ⟨1, 1, 2⟩ 1 fun _ => 100 := by
  intro hall
  obtain ⟨-, -, -, hsame⟩ :=
    hall.same_places rfl rfl (by decide) (by decide) (by decide) (by decide)
    rfl (by decide) (fun _ => by decide)
  exact absurd (hsame 0 (by decide)) (by decide)

end Acq400
