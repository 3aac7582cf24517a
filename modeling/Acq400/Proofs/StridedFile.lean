/-
The channel file read with a stride.

A read divides its count by the stride and the quotient by the word size, and moves on by
the first quotient times the stride.  So from a word that is asked for it gets to another
one if the count, as far as there is room for it, is whole strides of words and less than
`stride` bytes more; otherwise it returns bytes that it has not copied, or nothing.  The
room ends with a buffer and with the set.
-/
import Acq400.Proofs.RawChanFile

namespace Acq400

open CInt Reads A400Fs

namespace A400Fs

/-- How long `lbuf` is, when there is one, and how far the file has been read. -/
structure StridePlace where
  limit : Option Nat
  pos : Nat

section strided

variable {fs : A400Fs} {c k : Nat}

/-- From one word that is asked for to the next. -/
def strideBytes (fs : A400Fs) (k : Nat) : Nat := k * fs.wordSize

/-- Where byte `f` of the words that are asked for is in the channel. -/
def stridedByte (fs : A400Fs) (k f : Nat) : Nat :=
  f / fs.wordSize * fs.strideBytes k + f % fs.wordSize

/-- The bytes of the words that are asked for: samples 0, `k`, `2k` and so on. -/
def stridedLen (fs : A400Fs) (k : Nat) : Nat := (fs.nsamples + (k - 1)) / k * fs.wordSize

/-- What a read takes for its count. -/
def strideTake (fs : A400Fs) (place : StridePlace) (count : Nat) : Nat :=
  place.limit.elim (min count (fs.chanHeadroom place.pos))
    (min (min count (fs.chanHeadroom place.pos)))

/-- Where it leaves the file. -/
def strideNext (fs : A400Fs) (k : Nat) (place : StridePlace) (count : Nat) : StridePlace :=
  if place.pos = fs.nsamples * fs.wordSize then place
  else
    { limit := some (place.limit.getD (fs.strideTake place count))
      pos := place.pos + fs.strideTake place count / k * k }

/-- And after `n` reads. -/
def stridePlace (fs : A400Fs) (k : Nat) : StridePlace → (Nat → Nat) → Nat → StridePlace
  | place, _, 0 => place
  | place, counts, n + 1 => fs.stridePlace k (fs.strideNext k place (counts 0)) (later counts) n

/-- A read at the end, or one that takes whole strides and less than `k` bytes more. -/
def StrideFits (fs : A400Fs) (k : Nat) (place : StridePlace) (count : Nat) : Prop :=
  place.pos = fs.nsamples * fs.wordSize ∨
    (fs.strideBytes k ≤ fs.strideTake place count ∧
      fs.strideTake place count % fs.strideBytes k < k)

/-- All the reads are such. -/
def StridesFit (fs : A400Fs) (k : Nat) (place : StridePlace) (counts : Nat → Nat) : Prop :=
  ∀ n, fs.StrideFits k (fs.stridePlace k place counts n) (counts n)

theorem StridesFit.here {place : StridePlace} {counts : Nat → Nat}
    (h : fs.StridesFit k place counts) : fs.StrideFits k place (counts 0) := h 0

theorem StridesFit.later {place : StridePlace} {counts : Nat → Nat}
    (h : fs.StridesFit k place counts) :
    fs.StridesFit k (fs.strideNext k place (counts 0)) (Reads.later counts) := fun n => h (n + 1)

/-- Byte `f` of the words that are asked for. -/
def stridedCell (fs : A400Fs) (c k : Nat) (m : Nat × Nat → UInt8) (f : Nat) : UInt8 :=
  m (fs.cookedAt c (fs.stridedByte k f))

/-! ### One read -/

/-- The file at a position, with its stride. -/
structure StridedAt (fs : A400Fs) (c k : Nat) (file : A400FsPdesc) (place : StridePlace) :
    Prop where
  offset : file.offset = place.pos
  bufferOffset : file.bufferOffset = (c * fs.bufferlen / fs.nchan : Nat)
  stride : file.stride = k
  enabled : file.map.channel ≤ fs.nchanEnabled file.map.adev
  fresh : place.limit = none → file.lbuf = none
  lbuf : ∀ l, place.limit = some l → (∃ lbuf, file.lbuf = some lbuf) ∧ file.lbufLen = l ∧ l < 2 ^ 31

/-- The reads of a client whose buffer holds `user` before each. -/
def readStrided (fs : A400Fs) (m : Nat × Nat → UInt8) (user : Nat → UInt8) (file : A400FsPdesc)
    (count : Nat) : Option (List UInt8 × A400FsPdesc) :=
  asClient user ((fs.withBuffers m).readChanFile file count)

/-- What a read that takes `take` bytes leaves in the client's buffer. -/
def stridedGot (fs : A400Fs) (c k : Nat) (m : Nat × Nat → UInt8) (user : Nat → UInt8)
    (p take : Nat) : List UInt8 :=
  cells (fun f => m (fs.cookedAt c (p + fs.stridedByte k f))) 0
      (take / k / fs.wordSize * fs.wordSize) ++
    cells user (take / k / fs.wordSize * fs.wordSize)
      (take / k - take / k / fs.wordSize * fs.wordSize)

theorem asClient_pure {rc : Int} (h : 0 ≤ rc) (user : Nat → UInt8) (copied : List UInt8)
    (file : A400FsPdesc) :
    asClient user (pure ⟨rc, copied, file⟩) =
      some (copied ++ cells user copied.length (rc.toNat - copied.length), file) := by
  unfold asClient
  exact if_neg (by simpa using h)

theorem strideTake_le (place : StridePlace) (count : Nat) :
    fs.strideTake place count ≤ fs.chanHeadroom place.pos := by
  unfold strideTake
  cases place.limit with
  | none => exact Nat.min_le_right _ _
  | some l =>
      show min (min count (fs.chanHeadroom place.pos)) l ≤ _
      omega

theorem stridedByte_lt (hws : 0 < fs.wordSize) (hk : 0 < k) {take f : Nat}
    (hf : f < take / k / fs.wordSize * fs.wordSize) : fs.stridedByte k f < take := by
  have hdiv : f / fs.wordSize < take / k / fs.wordSize :=
    Nat.div_lt_of_lt_mul (by rwa [Nat.mul_comm])
  have hmod : f % fs.wordSize < fs.wordSize := Nat.mod_lt f hws
  have hword : fs.wordSize ≤ fs.strideBytes k := Nat.le_mul_of_pos_left _ hk
  have hnext : (f / fs.wordSize + 1) * fs.strideBytes k ≤ take := by
    calc (f / fs.wordSize + 1) * fs.strideBytes k
        ≤ take / k / fs.wordSize * fs.strideBytes k := Nat.mul_le_mul_right _ hdiv
      _ = take / (k * fs.wordSize) * (k * fs.wordSize) := by
          rw [Nat.div_div_eq_div_mul]
          rfl
      _ ≤ take := Nat.div_mul_le_self _ _
  rw [Nat.succ_mul] at hnext
  unfold stridedByte
  omega

theorem putWords_strided (m : Nat × Nat → UInt8) (hws : 0 < fs.wordSize) (hk : 0 < k) {p take : Nat}
    (hbytes : 0 < fs.chanBytes) (htake : take ≤ fs.chanHeadroom p) (lbuf : Nat → UInt8) :
    cells (putWords fs.wordSize (fun i => buffers m (p / fs.chanBytes : Nat)
        ((c * fs.bufferlen / fs.nchan + p % fs.chanBytes : Nat) + i)) k (take / k / fs.wordSize)
        lbuf) 0 (take / k / fs.wordSize * fs.wordSize) =
      cells (fun f => m (fs.cookedAt c (p + fs.stridedByte k f))) 0
        (take / k / fs.wordSize * fs.wordSize) := by
  refine cells_congr fun i _ hi => ?_
  rw [Nat.zero_add] at hi
  have hlt := stridedByte_lt hws hk hi
  have hmod := Nat.mod_lt p hbytes
  have hin : p % fs.chanBytes + fs.stridedByte k i < fs.chanBytes := by
    unfold chanHeadroom at htake
    omega
  have hplace : ((i / fs.wordSize : Nat) : Int) * k * fs.wordSize + (i % fs.wordSize : Nat) =
      (fs.stridedByte k i : Nat) := by
    unfold stridedByte strideBytes
    push_cast
    ring
  rw [putWords_eq hws, if_pos hi, hplace, ← Int.natCast_add, cookedAt_add hin, Nat.add_assoc]
  rfl

theorem copy_strided (m : Nat × Nat → UInt8) (hws : 0 < fs.wordSize) (hk : 2 ≤ k)
    (hk' : k < 2 ^ 31) (hbytes : 0 < fs.chanBytes) {p take l : Nat}
    (htake : take ≤ fs.chanHeadroom p) (hl : l < 2 ^ 31) (file : A400FsPdesc)
    (hoffset : file.offset = p) (hbuffer : file.bufferOffset = (c * fs.bufferlen / fs.nchan : Nat))
    (hstride : file.stride = k) (henabled : file.map.channel ≤ fs.nchanEnabled file.map.adev)
    (hlen : file.lbufLen = l) (lbuf : Nat → UInt8) :
    ∃ file', StridedAt fs c k file' ⟨some l, p + take / k * k⟩ ∧
      ∀ user, asClient user
        ((div (take : Nat) (unsigned file.stride)).bind fun samples =>
          (div samples fs.wordSize).bind fun wcount =>
            let lbuf := putWords fs.wordSize (fun i => buffers m (p / fs.chanBytes : Nat)
              ((c * fs.bufferlen / fs.nchan + p % fs.chanBytes : Nat) + i)) file.stride
              wcount.toNat lbuf
            pure ⟨samples, cells lbuf 0 (wcount.toNat * fs.wordSize),
              { file with lbuf := some lbuf,
                          offset := file.offset + samples * unsigned file.stride }⟩) =
        some (fs.stridedGot c k m user p take, file') := by
  have hunsigned : unsigned file.stride = (k : Nat) := by
    rw [hstride]
    exact unsigned_natCast (by omega)
  rw [hunsigned, div_natCast _ (by omega), Option.bind_some, div_natCast _ hws, Option.bind_some]
  simp only [Int.toNat_natCast, hstride]
  have hcopied := putWords_strided (c := c) m hws (Nat.lt_of_lt_of_le Nat.two_pos hk) hbytes htake
    lbuf
  generalize putWords _ _ _ _ lbuf = words at hcopied ⊢
  refine ⟨{ file with lbuf := some words, stride := k,
                      offset := file.offset + (take / k : Nat) * (k : Int) }, ?_, fun user => ?_⟩
  rotate_left
  · rw [hcopied, asClient_pure (Int.natCast_nonneg _), length_cells, Int.toNat_natCast]
    rfl
  · refine ⟨?_, hbuffer, rfl, henabled, fun h => (nomatch h), fun l' hl' => ?_⟩
    · show file.offset + (take / k : Nat) * (k : Int) = (p + take / k * k : Nat)
      rw [hoffset]
      push_cast
      rfl
    · obtain rfl := Option.some.inj hl'
      exact ⟨⟨_, rfl⟩, hlen, hl⟩

theorem readStrided_eq {m : Nat × Nat → UInt8} {file : A400FsPdesc} {place : StridePlace}
    (h : StridedAt fs c k file place) (hpcomp : fs.pcomp = 0) (hn : 0 < fs.nchan)
    (hws : 0 < fs.wordSize) (hk : 2 ≤ k) (hk' : k < 2 ^ 31) (hbytes : 0 < fs.chanBytes)
    (hlen : fs.bufferlen < 2 ^ 31) (hc : c < fs.nchan) (hset : fs.nsamples * fs.wordSize < 2 ^ 31)
    (hp : place.pos ≤ fs.nsamples * fs.wordSize) (count : Nat) :
    ∃ file', StridedAt fs c k file' (fs.strideNext k place count) ∧
      ∀ user, fs.readStrided m user file count =
        some (if place.pos = fs.nsamples * fs.wordSize then []
          else fs.stridedGot c k m user place.pos (fs.strideTake place count), file') := by
  obtain ⟨limit, p⟩ := place
  simp only at hp
  have hoff : wrap file.offset = p := by
    rw [h.offset]
    exact wrap_natCast (Nat.lt_of_le_of_lt hp hset)
  have hfoffset : (if (p : Int) = 0 then (0 : Int) else p) = p := by
    split
    · omega
    · rfl
  have hleft : ((fs.nsamples * fs.wordSize : Nat) : Int) + 0 - p
      = (fs.nsamples * fs.wordSize - p : Nat) := by omega
  have hplace := cookedAt_lt hn hbytes hc p
  have hplace' : c * fs.bufferlen / fs.nchan + p % fs.chanBytes < fs.bufferlen := hplace
  have hcursor : wrap ((p % fs.chanBytes : Nat) + file.bufferOffset)
      = (c * fs.bufferlen / fs.nchan + p % fs.chanBytes : Nat) := by
    rw [h.bufferOffset, ← Int.natCast_add, Nat.add_comm]
    exact wrap_natCast (by omega)
  have hstride : unsigned file.stride = (k : Nat) := by
    rw [h.stride]
    exact unsigned_natCast (by omega)
  unfold readStrided readChanFile
  simp only [withBuffers, hoff, hfoffset, hpcomp, Option.bind_eq_bind, ne_eq, not_true_eq_false,
    and_false, if_false]
  rw [div_natCast _ hn, Option.bind_some, show fs.bufferlen / fs.nchan = fs.chanBytes from rfl,
    div_natCast _ hbytes, Option.bind_some, value_natCast hset, Option.bind_some, hleft,
    value_natCast (Nat.lt_of_le_of_lt (Nat.sub_le _ _) hset),
    Option.bind_some, sub_div_mul, hcursor, if_neg (by have := h.enabled; omega)]
  by_cases hend : p = fs.nsamples * fs.wordSize
  · refine ⟨file, ?_, fun user => ?_⟩
    · rw [strideNext, if_pos hend]
      exact h
    · rw [if_pos (by omega), if_pos hend]
      exact asClient_pure (Int.le_refl _) _ _ _
  · have hhead : min ((fs.chanBytes : Int) - (p % fs.chanBytes : Nat))
        (fs.nsamples * fs.wordSize - p : Nat) = (fs.chanHeadroom p : Nat) := by
      have := Nat.mod_lt p hbytes
      unfold chanHeadroom
      omega
    have hsmall : fs.chanHeadroom p < 2 ^ 31 := by
      unfold chanHeadroom
      omega
    rw [if_neg (by omega), if_neg (by omega), h.stride, if_neg (by omega), hhead,
      clip_natCast _ (by omega)]
    have htake : fs.strideTake ⟨limit, p⟩ count ≤ fs.chanHeadroom p := strideTake_le _ _
    simp only [strideNext, hend, if_false]
    cases limit with
    | none =>
        simp only [h.fresh rfl]
        exact copy_strided m hws hk hk' hbytes htake (Nat.lt_of_le_of_lt htake hsmall)
          { (kmalloc file).2 with lbufLen := (fs.strideTake ⟨none, p⟩ count : Nat) } h.offset
          h.bufferOffset h.stride h.enabled rfl _
    | some l =>
        obtain ⟨⟨lbuf, hlbuf⟩, hl, hllt⟩ := h.lbuf l rfl
        have hclip : clip (min count (fs.chanHeadroom p)) file.lbufLen =
            fs.strideTake ⟨some l, p⟩ count := by
          rw [hl]
          exact clip_natCast _ (by omega)
        simp only [hlbuf, hclip]
        exact copy_strided m hws hk hk' hbytes htake hllt file h.offset h.bufferOffset h.stride
          h.enabled hl lbuf

/-! ### Whole strides -/

/-- Whole strides and less than `k` bytes more come to whole words, and nothing else does. -/
theorem take_fits_iff (hws : 0 < fs.wordSize) (hk : 0 < k) (take : Nat) :
    (fs.strideBytes k ≤ take ∧ take % fs.strideBytes k < k) ↔
      take / k ≠ 0 ∧ take / k / fs.wordSize * fs.wordSize = take / k := by
  have hdiv : take / fs.strideBytes k = take / k / fs.wordSize :=
    (Nat.div_div_eq_div_mul take k fs.wordSize).symm
  have hmod : take % fs.strideBytes k = take % k + k * (take / k % fs.wordSize) := Nat.mod_mul
  have hlt := Nat.mod_lt take hk
  have hwhole := Nat.div_add_mod' (take / k) fs.wordSize
  have hS : 0 < fs.strideBytes k := Nat.mul_pos hk hws
  constructor
  · rintro ⟨hge, hrest⟩
    have hpos : 0 < take / k / fs.wordSize := hdiv ▸ Nat.div_pos hge hS
    have hzero : take / k % fs.wordSize = 0 := by
      by_contra hne
      have := Nat.le_mul_of_pos_right k (Nat.pos_of_ne_zero hne)
      omega
    refine ⟨?_, by omega⟩
    intro hnone
    rw [hnone, Nat.zero_div] at hpos
    exact Nat.lt_irrefl _ hpos
  · rintro ⟨hne, heq⟩
    have hzero : take / k % fs.wordSize = 0 := by omega
    have hpos : 0 < take / fs.strideBytes k := by
      rw [hdiv]
      refine Nat.pos_of_ne_zero fun hnone => hne ?_
      rw [← heq, hnone, Nat.zero_mul]
    refine ⟨(Nat.div_pos_iff.mp hpos).2, ?_⟩
    rw [hmod, hzero, Nat.mul_zero, Nat.add_zero]
    exact hlt

theorem stridedByte_add (hws : 0 < fs.wordSize) (j f : Nat) :
    fs.stridedByte k (j * fs.wordSize + f) = j * fs.strideBytes k + fs.stridedByte k f := by
  unfold stridedByte
  rw [Nat.mul_comm j fs.wordSize, Nat.mul_add_div hws, Nat.mul_add_mod, Nat.add_mul, Nat.add_assoc]

/-- There are words left exactly where the set does not end. -/
theorem lt_stridedLen_iff (hws : 0 < fs.wordSize) (hk : 0 < k) {j : Nat}
    (hle : j * fs.strideBytes k ≤ fs.nsamples * fs.wordSize) :
    j * fs.wordSize < fs.stridedLen k ↔ j * fs.strideBytes k ≠ fs.nsamples * fs.wordSize := by
  have hassoc : j * fs.strideBytes k = j * k * fs.wordSize := (Nat.mul_assoc _ _ _).symm
  rw [hassoc] at hle ⊢
  have hle' : j * k ≤ fs.nsamples := Nat.le_of_mul_le_mul_right hle hws
  have hceil : j < (fs.nsamples + (k - 1)) / k ↔ j * k < fs.nsamples := by
    rw [← Nat.succ_le_iff, Nat.le_div_iff_mul_le hk, Nat.succ_mul]
    omega
  rw [stridedLen, Nat.mul_lt_mul_right hws, hceil, ne_eq, Nat.mul_left_inj (by omega)]
  omega

theorem le_stridedLen (hws : 0 < fs.wordSize) (hk : 0 < k) {j : Nat}
    (hle : j * fs.strideBytes k ≤ fs.nsamples * fs.wordSize) :
    j * fs.wordSize ≤ fs.stridedLen k := by
  have hassoc : j * fs.strideBytes k = j * k * fs.wordSize := (Nat.mul_assoc _ _ _).symm
  rw [hassoc] at hle
  have hle' : j * k ≤ fs.nsamples := Nat.le_of_mul_le_mul_right hle hws
  refine Nat.mul_le_mul_right _ ((Nat.le_div_iff_mul_le hk).mpr ?_)
  exact Nat.le_add_right_of_le hle'

theorem strideFits_next (hws : 0 < fs.wordSize) (hk : 0 < k) (m : Nat × Nat → UInt8)
    {limit : Option Nat} {j count : Nat}
    (hle : j * fs.strideBytes k ≤ fs.nsamples * fs.wordSize)
    (hend : j * fs.strideBytes k ≠ fs.nsamples * fs.wordSize)
    (h : fs.StrideFits k ⟨limit, j * fs.strideBytes k⟩ count) :
    ∃ n l, 0 < n ∧ (j + n) * fs.strideBytes k ≤ fs.nsamples * fs.wordSize ∧
      fs.strideNext k ⟨limit, j * fs.strideBytes k⟩ count =
        ⟨some l, (j + n) * fs.strideBytes k⟩ ∧
      ∀ user, fs.stridedGot c k m user (j * fs.strideBytes k)
          (fs.strideTake ⟨limit, j * fs.strideBytes k⟩ count) =
        cells (fs.stridedCell c k m) (j * fs.wordSize) (n * fs.wordSize) := by
  have hfits := h.resolve_left hend
  have htake : fs.strideTake ⟨limit, j * fs.strideBytes k⟩ count ≤ _ := strideTake_le _ _
  have hroom : fs.chanHeadroom (j * fs.strideBytes k) ≤
      fs.nsamples * fs.wordSize - j * fs.strideBytes k := Nat.min_le_right _ _
  simp only [strideNext, hend, if_false] at hfits htake ⊢
  generalize fs.strideTake ⟨limit, j * fs.strideBytes k⟩ count = take at *
  obtain ⟨hne, hwhole⟩ := (take_fits_iff hws hk take).mp hfits
  have hbytes : take / k / fs.wordSize * fs.strideBytes k = take / k * k := by
    rw [strideBytes, Nat.mul_left_comm, hwhole, Nat.mul_comm]
  have hle' := Nat.div_mul_le_self take k
  refine ⟨take / k / fs.wordSize, limit.getD take, ?_, ?_, ?_, fun user => ?_⟩
  · refine Nat.pos_of_ne_zero fun hnone => hne ?_
    rw [← hwhole, hnone, Nat.zero_mul]
  · rw [Nat.add_mul, hbytes]
    omega
  · rw [Nat.add_mul, hbytes]
  · unfold stridedGot
    rw [hwhole, Nat.sub_self, cells_zero, List.append_nil]
    refine cells_eq_cells fun f _ => ?_
    rw [Nat.zero_add, stridedCell, stridedByte_add hws]

/-- A read that is not one leaves nothing, or what the client had in its buffer. -/
theorem got_of_not_fits (hws : 0 < fs.wordSize) (hk : 0 < k) (m : Nat × Nat → UInt8) {p take : Nat}
    (h : ¬(fs.strideBytes k ≤ take ∧ take % fs.strideBytes k < k)) :
    (∀ user, fs.stridedGot c k m user p take = []) ∨
      ∃ i, ∀ user, (fs.stridedGot c k m user p take)[i]? = some (user i) := by
  rw [take_fits_iff hws hk] at h
  by_cases hnone : take / k = 0
  · refine .inl fun user => ?_
    unfold stridedGot
    rw [hnone, Nat.zero_div, Nat.zero_mul]
    rfl
  · have hle := Nat.div_mul_le_self (take / k) fs.wordSize
    have hlt : take / k / fs.wordSize * fs.wordSize < take / k := by
      refine Nat.lt_of_le_of_ne hle fun heq => h ⟨hnone, heq⟩
    refine .inr ⟨take / k / fs.wordSize * fs.wordSize, fun user => ?_⟩
    unfold stridedGot
    rw [List.getElem?_append_right (by rw [length_cells]), length_cells, Nat.sub_self,
      getElem?_cells, if_pos (by omega), Nat.add_zero]

/-! ### Reading to the end -/

/-- The sizes that the reads are made with. -/
structure StrideSizes (fs : A400Fs) (c k : Nat) : Prop where
  pcomp : fs.pcomp = 0
  nchan : 0 < fs.nchan
  wordSize : 0 < fs.wordSize
  two : 2 ≤ k
  int : k < 2 ^ 31
  chanBytes : 0 < fs.chanBytes
  bufferlen : fs.bufferlen < 2 ^ 31
  chan : c < fs.nchan
  set : fs.nsamples * fs.wordSize < 2 ^ 31

theorem StrideSizes.read (hs : StrideSizes fs c k) {file : A400FsPdesc} {place : StridePlace}
    (h : StridedAt fs c k file place) (hp : place.pos ≤ fs.nsamples * fs.wordSize)
    (m : Nat × Nat → UInt8) (count : Nat) :
    ∃ file', StridedAt fs c k file' (fs.strideNext k place count) ∧
      ∀ user, fs.readStrided m user file count =
        some (if place.pos = fs.nsamples * fs.wordSize then []
          else fs.stridedGot c k m user place.pos (fs.strideTake place count), file') :=
  readStrided_eq h hs.pcomp hs.nchan hs.wordSize hs.two hs.int hs.chanBytes hs.bufferlen hs.chan
    hs.set hp count

/-- Reads of whole strides get the words that are asked for, to the end of the set. -/
theorem readsTo_strided (hs : StrideSizes fs c k) (m : Nat × Nat → UInt8) (user : Nat → UInt8)
    {file : A400FsPdesc} (h : StridedAt fs c k file ⟨none, 0⟩) {counts : Nat → Nat}
    (hfit : fs.StridesFit k ⟨none, 0⟩ counts) :
    ReadsTo (fs.readStrided m user) file counts
      (cells (fs.stridedCell c k m) 0 (fs.stridedLen k)) := by
  have hk : 0 < k := Nat.lt_of_lt_of_le Nat.two_pos hs.two
  have hpos {file : A400FsPdesc} {limit : Option Nat} {j : Nat}
      (h : StridedAt fs c k file ⟨limit, j * fs.strideBytes k⟩) :
      file.offset.toNat / k = j * fs.wordSize := by
    rw [h.offset, Int.toNat_natCast, strideBytes, Nat.mul_left_comm, Nat.mul_div_cancel_left _ hk]
  have hzero : file.offset.toNat / k = 0 := by
    rw [h.offset]
    exact Nat.zero_div k
  have hall := @readsTo_cells _ _ (fs.readStrided m user) (fs.stridedCell c k m)
    (fs.stridedLen k) (fun file => file.offset.toNat / k)
    (fun file counts => ∃ limit j, StridedAt fs c k file ⟨limit, j * fs.strideBytes k⟩ ∧
      j * fs.strideBytes k ≤ fs.nsamples * fs.wordSize ∧
      fs.StridesFit k ⟨limit, j * fs.strideBytes k⟩ counts)
    (fun file counts hinv hlt => ?_) (fun file counts hinv hend => ?_)
    (fs.stridedLen k) file counts ⟨none, 0, ?_⟩ (by omega) (by omega)
  · rwa [hzero] at hall
  · obtain ⟨limit, j, hat, hle, hfits⟩ := hinv
    rw [hpos hat] at hlt
    have hne := (lt_stridedLen_iff hs.wordSize hk hle).mp hlt
    obtain ⟨n, l, hn, hle', hnext, hgot⟩ := strideFits_next (c := c) hs.wordSize hk m hle hne
      hfits.here
    obtain ⟨file', hat', hread⟩ := hs.read hat hle m (counts 0)
    have hread := hread user
    rw [if_neg hne, hgot] at hread
    rw [hnext] at hat'
    have hlater := hfits.later
    rw [hnext] at hlater
    have hroom := le_stridedLen hs.wordSize hk hle'
    refine ⟨n * fs.wordSize, file', Nat.mul_pos hn hs.wordSize, ?_, ?_, ?_,
      some l, j + n, hat', hle', hlater⟩
    · rw [hpos hat, ← Nat.add_mul]
      exact hroom
    · rw [hpos hat]
      exact hread
    · rw [hpos hat, hpos hat', Nat.add_mul]
  · obtain ⟨limit, j, hat, hle, hfits⟩ := hinv
    rw [hpos hat] at hend
    have heq : j * fs.strideBytes k = fs.nsamples * fs.wordSize := by
      by_contra hne
      have := (lt_stridedLen_iff hs.wordSize hk hle).mpr hne
      omega
    obtain ⟨file', -, hread⟩ := hs.read hat hle m (counts 0)
    have hread := hread user
    rw [if_pos heq] at hread
    exact ⟨file', hread⟩
  · rw [Nat.zero_mul]
    exact ⟨h, Nat.zero_le _, hfit⟩

/-- Where the words are got whatever the client has in its buffer, the read is one of whole
strides. -/
theorem fits_of_readsTo (hs : StrideSizes fs c k) (m : Nat × Nat → UInt8) {file : A400FsPdesc}
    {limit : Option Nat} {j : Nat} {counts : Nat → Nat}
    (h : StridedAt fs c k file ⟨limit, j * fs.strideBytes k⟩)
    (hle : j * fs.strideBytes k ≤ fs.nsamples * fs.wordSize)
    (hall : ∀ user, ReadsTo (fs.readStrided m user) file counts
      (cells (fs.stridedCell c k m) (j * fs.wordSize) (fs.stridedLen k - j * fs.wordSize))) :
    fs.StrideFits k ⟨limit, j * fs.strideBytes k⟩ (counts 0) := by
  have hk : 0 < k := Nat.lt_of_lt_of_le Nat.two_pos hs.two
  by_cases hend : j * fs.strideBytes k = fs.nsamples * fs.wordSize
  · exact .inl hend
  refine .inr ?_
  by_contra hno
  obtain ⟨file', -, hread⟩ := hs.read h hle m (counts 0)
  have hlt := (lt_stridedLen_iff hs.wordSize hk hle).mpr hend
  rcases got_of_not_fits (c := c) (p := j * fs.strideBytes k) hs.wordSize hk m hno with
    hnone | ⟨i, hi⟩
  · have heof := hread fun _ => 0
    rw [if_neg hend, hnone] at heof
    have hnil := ReadsTo.unique (hall fun _ => 0) (.eof heof)
    rw [cells_eq_nil] at hnil
    omega
  · -- the client's buffer holds something else than the word
    have hread := hread fun _ => fs.stridedCell c k m (j * fs.wordSize + i) + 1
    have hi := hi fun _ => fs.stridedCell c k m (j * fs.wordSize + i) + 1
    rw [if_neg hend] at hread
    generalize fs.stridedGot c k m (fun _ => fs.stridedCell c k m (j * fs.wordSize + i) + 1)
      (j * fs.strideBytes k) _ = got at hread hi
    have hout := hall fun _ => fs.stridedCell c k m (j * fs.wordSize + i) + 1
    generalize hcells : cells (fs.stridedCell c k m) (j * fs.wordSize)
      (fs.stridedLen k - j * fs.wordSize) = out at hout
    have hget : out[i]? = some (fs.stridedCell c k m (j * fs.wordSize + i) + 1) := by
      cases hout with
      | eof h' =>
          obtain rfl : got = [] := congrArg Prod.fst (Option.some.inj (hread.symm.trans h'))
          exact hi
      | more h' _ _ =>
          obtain rfl : got = _ := congrArg Prod.fst (Option.some.inj (hread.symm.trans h'))
          rw [List.getElem?_append_left (List.getElem?_eq_some_iff.mp hi).1]
          exact hi
    rw [← hcells, getElem?_cells] at hget
    split at hget
    · have := Option.some.inj hget
      simp at this
    · cases hget

theorem readsTo_later {read : A400FsPdesc → Nat → Option (List UInt8 × A400FsPdesc)}
    {file file' : A400FsPdesc} {counts : Nat → Nat} {got rest : List UInt8} (hne : got ≠ [])
    (hread : read file (counts 0) = some (got, file'))
    (h : ReadsTo read file counts (got ++ rest)) : ReadsTo read file' (later counts) rest := by
  generalize hout : got ++ rest = out at h
  cases h with
  | eof h' => exact absurd (congrArg Prod.fst (Option.some.inj (hread.symm.trans h'))) hne
  | more h' _ hrest =>
      obtain ⟨rfl, rfl⟩ := Prod.mk.inj (Option.some.inj (hread.symm.trans h'))
      rw [List.append_cancel_left hout]
      exact hrest

theorem stridePlace_end {place : StridePlace} (hend : place.pos = fs.nsamples * fs.wordSize) :
    ∀ (n : Nat) (counts : Nat → Nat), fs.stridePlace k place counts n = place := by
  intro n
  induction n with
  | zero => intro counts; rfl
  | succ n ih =>
      intro counts
      rw [stridePlace, strideNext, if_pos hend]
      exact ih (later counts)

theorem stridesFit_of_readsTo (hs : StrideSizes fs c k) (m : Nat × Nat → UInt8) :
    ∀ (n : Nat) (file : A400FsPdesc) (limit : Option Nat) (j : Nat) (counts : Nat → Nat),
      StridedAt fs c k file ⟨limit, j * fs.strideBytes k⟩ →
      j * fs.strideBytes k ≤ fs.nsamples * fs.wordSize →
      (∀ user, ReadsTo (fs.readStrided m user) file counts
        (cells (fs.stridedCell c k m) (j * fs.wordSize) (fs.stridedLen k - j * fs.wordSize))) →
      fs.StrideFits k (fs.stridePlace k ⟨limit, j * fs.strideBytes k⟩ counts n) (counts n) := by
  have hk : 0 < k := Nat.lt_of_lt_of_le Nat.two_pos hs.two
  intro n
  induction n with
  | zero =>
      intro file limit j counts hat hle hall
      exact fits_of_readsTo hs m hat hle hall
  | succ n ih =>
      intro file limit j counts hat hle hall
      have hhere := fits_of_readsTo hs m hat hle hall
      by_cases hend : j * fs.strideBytes k = fs.nsamples * fs.wordSize
      · rw [stridePlace_end hend]
        exact .inl hend
      · obtain ⟨i, l, hi, hle', hnext, hgot⟩ := strideFits_next (c := c) hs.wordSize hk m hle hend
          hhere
        obtain ⟨file', hat', hread⟩ := hs.read hat hle m (counts 0)
        have hroom := le_stridedLen hs.wordSize hk hle'
        rw [hnext] at hat'
        rw [stridePlace, hnext]
        refine ih file' (some l) (j + i) (later counts) hat' hle' fun user => ?_
        have hread := hread user
        rw [if_neg hend, hgot] at hread
        refine readsTo_later ?_ hread ?_
        · rw [ne_eq, cells_eq_nil]
          exact Nat.ne_of_gt (Nat.mul_pos hi hs.wordSize)
        · rw [Nat.add_mul] at hroom ⊢
          rw [cells_append, show i * fs.wordSize +
            (fs.stridedLen k - (j * fs.wordSize + i * fs.wordSize)) =
            fs.stridedLen k - j * fs.wordSize by omega]
          exact hall user

/-! ### Where reads give nothing -/

theorem stridePlace_succ :
    ∀ (n : Nat) (place : StridePlace) (counts : Nat → Nat),
      fs.stridePlace k place counts (n + 1) =
        fs.strideNext k (fs.stridePlace k place counts n) (counts n) := by
  intro n
  induction n with
  | zero => intro place counts; rfl
  | succ n ih =>
      intro place counts
      rw [stridePlace, ih]
      rfl

theorem strideNext_le {place : StridePlace} (hle : place.pos ≤ fs.nsamples * fs.wordSize)
    (count : Nat) : (fs.strideNext k place count).pos ≤ fs.nsamples * fs.wordSize := by
  unfold strideNext
  split
  · exact hle
  · have htake : fs.strideTake place count ≤ _ := strideTake_le _ _
    have hdiv := Nat.div_mul_le_self (fs.strideTake place count) k
    show place.pos + fs.strideTake place count / k * k ≤ _
    unfold chanHeadroom at htake
    omega

theorem StridesFit.ends (hs : StrideSizes fs c k) (m : Nat × Nat → UInt8) (user : Nat → UInt8)
    {file : A400FsPdesc} (h : StridedAt fs c k file ⟨none, 0⟩) {counts : Nat → Nat}
    (hfit : fs.StridesFit k ⟨none, 0⟩ counts) (n : Nat) {file' file'' : A400FsPdesc}
    (hafter : after (fs.readStrided m user) file counts n = some file')
    (hread : fs.readStrided m user file' (counts n) = some ([], file'')) :
    file'.offset = (fs.nsamples * fs.wordSize : Nat) := by
  have hk : 0 < k := Nat.lt_of_lt_of_le Nat.two_pos hs.two
  obtain ⟨hat, hle⟩ := after_invariant counts
    (fun n file => StridedAt fs c k file (fs.stridePlace k ⟨none, 0⟩ counts n) ∧
      (fs.stridePlace k ⟨none, 0⟩ counts n).pos ≤ fs.nsamples * fs.wordSize)
    (fun n s got s' hinv hgot => by
      obtain ⟨t, ht, hall⟩ := hs.read hinv.1 hinv.2 m (counts n)
      obtain ⟨-, rfl⟩ := Prod.mk.inj (Option.some.inj ((hall user).symm.trans hgot))
      rw [stridePlace_succ]
      exact ⟨ht, strideNext_le hinv.2 _⟩)
    ⟨h, Nat.zero_le _⟩ n file' hafter
  have hfits := hfit n
  generalize fs.stridePlace k ⟨none, 0⟩ counts n = place at hat hle hfits
  rw [hat.offset]
  by_contra hend
  have hend : place.pos ≠ fs.nsamples * fs.wordSize := fun heq => hend (congrArg Nat.cast heq)
  obtain ⟨t, -, hall⟩ := hs.read hat hle m (counts n)
  have hnil := (Prod.mk.inj (Option.some.inj ((hall user).symm.trans hread))).1
  rw [if_neg hend] at hnil
  have hlen := congrArg List.length hnil
  unfold stridedGot at hlen
  rw [List.length_append, length_cells, length_cells, List.length_nil] at hlen
  have := Nat.div_mul_le_self (fs.strideTake place (counts n) / k) fs.wordSize
  exact ((take_fits_iff hs.wordSize hk _).mp (hfits.resolve_left hend)).1 (by omega)

/-! ### Whole strides throughout -/

theorem dvd_min {d a b : Nat} (ha : d ∣ a) (hb : d ∣ b) : d ∣ min a b := by
  rcases Nat.le_total a b with h | h
  · rwa [Nat.min_eq_left h]
  · rwa [Nat.min_eq_right h]

theorem min_pos {a b : Nat} (ha : 0 < a) (hb : 0 < b) : 0 < min a b := by omega

theorem strideTake_dvd (hbytes : 0 < fs.chanBytes) (hbuf : fs.strideBytes k ∣ fs.chanBytes)
    (hset : fs.strideBytes k ∣ fs.nsamples * fs.wordSize) {place : StridePlace} {count : Nat}
    (hcount : 0 < count ∧ fs.strideBytes k ∣ count) (hpos : fs.strideBytes k ∣ place.pos)
    (hlt : place.pos < fs.nsamples * fs.wordSize)
    (hlimit : ∀ l, place.limit = some l → 0 < l ∧ fs.strideBytes k ∣ l) :
    0 < fs.strideTake place count ∧ fs.strideBytes k ∣ fs.strideTake place count := by
  have hmod := Nat.mod_lt place.pos hbytes
  have hhead : 0 < fs.chanHeadroom place.pos ∧ fs.strideBytes k ∣ fs.chanHeadroom place.pos := by
    refine ⟨min_pos (by omega) (by omega), dvd_min (Nat.dvd_sub hbuf ?_) (Nat.dvd_sub hset hpos)⟩
    exact (Nat.dvd_mod_iff hbuf).mpr hpos
  have hroom : 0 < min count (fs.chanHeadroom place.pos) ∧
      fs.strideBytes k ∣ min count (fs.chanHeadroom place.pos) :=
    ⟨min_pos hcount.1 hhead.1, dvd_min hcount.2 hhead.2⟩
  unfold strideTake
  cases hl : place.limit with
  | none => exact hroom
  | some l => exact ⟨min_pos hroom.1 (hlimit l hl).1, dvd_min hroom.2 (hlimit l hl).2⟩

/-- What is read of a set of whole strides in buffers of whole strides, whole strides at a time,
is read as it should be. -/
theorem stridesFit_of_dvd (hk : 0 < k) (hbytes : 0 < fs.chanBytes)
    (hbuf : fs.strideBytes k ∣ fs.chanBytes) (hset : fs.strideBytes k ∣ fs.nsamples * fs.wordSize) :
    ∀ (n : Nat) (place : StridePlace) (counts : Nat → Nat),
      (∀ i, 0 < counts i ∧ fs.strideBytes k ∣ counts i) →
      fs.strideBytes k ∣ place.pos → place.pos ≤ fs.nsamples * fs.wordSize →
      (∀ l, place.limit = some l → 0 < l ∧ fs.strideBytes k ∣ l) →
      fs.StrideFits k (fs.stridePlace k place counts n) (counts n) := by
  intro n
  induction n with
  | zero =>
      intro place counts hcounts hpos hle hlimit
      by_cases hend : place.pos = fs.nsamples * fs.wordSize
      · exact .inl hend
      · obtain ⟨htake, hdvd⟩ := strideTake_dvd hbytes hbuf hset (hcounts 0) hpos
          (Nat.lt_of_le_of_ne hle hend) hlimit
        refine .inr ⟨Nat.le_of_dvd htake hdvd, ?_⟩
        show fs.strideTake place (counts 0) % fs.strideBytes k < k
        rw [Nat.mod_eq_zero_of_dvd hdvd]
        exact hk
  | succ n ih =>
      intro place counts hcounts hpos hle hlimit
      by_cases hend : place.pos = fs.nsamples * fs.wordSize
      · rw [stridePlace_end hend]
        exact .inl hend
      · obtain ⟨htake, hdvd⟩ := strideTake_dvd hbytes hbuf hset (hcounts 0) hpos
          (Nat.lt_of_le_of_ne hle hend) hlimit
        have hwhole : fs.strideTake place (counts 0) / k * k = fs.strideTake place (counts 0) :=
          Nat.div_mul_cancel (Nat.dvd_trans (Nat.dvd_mul_right _ _) hdvd)
        have hle' := strideNext_le (k := k) hle (counts 0)
        have hnext : fs.strideNext k place (counts 0) =
            ⟨some (place.limit.getD (fs.strideTake place (counts 0))),
              place.pos + fs.strideTake place (counts 0)⟩ := by
          rw [strideNext, if_neg hend, hwhole]
        rw [stridePlace, hnext]
        rw [hnext] at hle'
        refine ih _ (later counts) (fun i => hcounts (i + 1)) (Nat.dvd_add hpos hdvd) hle' ?_
        intro l hl
        obtain rfl := Option.some.inj hl
        cases hlim : place.limit with
        | none => exact ⟨htake, hdvd⟩
        | some l => exact hlimit l hlim

end strided

/-- The buffers hold the samples `data` of channel `c`. -/
def ChannelHeld (fs : A400Fs) (c : Nat) (m : Nat × Nat → UInt8) (data : Nat → UInt8) : Prop :=
  ∀ f, f < fs.nsamples * fs.wordSize → f / fs.chanBytes < fs.nbuffers →
    m (fs.cookedAt c f) = data f

/-- Whatever samples the buffers hold and whatever is in the client's buffer, the file of channel
`c` opens and takes the stride `k`, and reads with these counts then give samples 0, `k`, `2k` and
so on of the channel, end, and give nothing only at the end of the set. -/
def ReadsStrided (fs : A400Fs) (map : InodeMap) (c k : Nat) (counts : Nat → Nat) : Prop :=
  ∀ m data heap user, fs.ChannelHeld c m data →
    ∃ file, (fs.withBuffers m).a400fsOpen map heap = some file ∧
      (a400fsUnlockedIoctl file acq400FsStride k).1 = 0 ∧
      ReadsTo (fs.readStrided m user) (a400fsUnlockedIoctl file acq400FsStride k).2 counts
        (cells (fun f => data (fs.stridedByte k f)) 0 (fs.stridedLen k)) ∧
      ∀ n file' file'',
        after (fs.readStrided m user) (a400fsUnlockedIoctl file acq400FsStride k).2 counts n =
          some file' →
        fs.readStrided m user file' (counts n) = some ([], file'') →
        file'.offset = (fs.nsamples * fs.wordSize : Nat)

/-! ### The reads of an opened file -/

section Opened

variable {fs : A400Fs} {map : InodeMap} {c k : Nat} {counts : Nat → Nat}

theorem ioctl_stride (hk : k < 2 ^ 31) (file : A400FsPdesc) :
    a400fsUnlockedIoctl file acq400FsStride k = (0, { file with stride := k }) := by
  unfold a400fsUnlockedIoctl
  rw [if_pos rfl, wrap_natCast hk]

theorem stridedAt_open (henabled : map.channel ≤ fs.nchanEnabled map.adev)
    (heap : Nat → Nat → UInt8) :
    StridedAt fs c k { fs.cookedFile map c heap with stride := k } ⟨none, 0⟩ :=
  ⟨rfl, rfl, rfl, henabled, fun _ => rfl, fun _ h => (nomatch h)⟩

theorem stridedByte_sample (hk : 0 < k) {f : Nat}
    (hf : f < fs.stridedLen k) :
    f / fs.wordSize * k < fs.nsamples ∧
      fs.stridedByte k f = f / fs.wordSize * k * fs.wordSize + f % fs.wordSize := by
  have hdiv : f / fs.wordSize < (fs.nsamples + (k - 1)) / k :=
    Nat.div_lt_of_lt_mul (by rwa [Nat.mul_comm])
  refine ⟨?_, ?_⟩
  · rw [← Nat.succ_le_iff, Nat.le_div_iff_mul_le hk, Nat.succ_mul] at hdiv
    omega
  · unfold stridedByte strideBytes
    rw [Nat.mul_assoc]

/-- The words that are asked for lie in the buffers if the samples do. -/
theorem cells_held (hws : 0 < fs.wordSize) (hk : 0 < k) (hword : fs.wordSize ∣ fs.chanBytes)
    (hin : ∀ s, s < fs.nsamples → k ∣ s → s * fs.wordSize / fs.chanBytes < fs.nbuffers)
    {m : Nat × Nat → UInt8} {data : Nat → UInt8} (hheld : fs.ChannelHeld c m data) :
    cells (fs.stridedCell c k m) 0 (fs.stridedLen k) =
      cells (fun f => data (fs.stridedByte k f)) 0 (fs.stridedLen k) := by
  refine cells_congr fun f _ hf => ?_
  rw [Nat.zero_add] at hf
  obtain ⟨hlt, hbyte⟩ := stridedByte_sample hk hf
  have hmod := Nat.mod_lt f hws
  have hset : fs.stridedByte k f < fs.nsamples * fs.wordSize := by
    have := Nat.mul_le_mul_right fs.wordSize (Nat.succ_le_of_lt hlt)
    rw [Nat.succ_mul] at this
    omega
  refine hheld _ hset ?_
  have hbuf := hin _ hlt (Nat.dvd_mul_left _ _)
  obtain ⟨b, hb⟩ := hword
  rw [hbyte, hb, ← Nat.div_div_eq_div_mul]
  rw [hb, ← Nat.div_div_eq_div_mul, Nat.mul_div_cancel _ hws] at hbuf
  rwa [Nat.mul_comm _ fs.wordSize, Nat.mul_add_div hws, Nat.div_eq_of_lt hmod, Nat.add_zero]

/-- What is read with a stride is opened and has a set that an `int` can count. -/
theorem ReadsStrided.sizes (hall : ReadsStrided fs map c k counts) (hcooked : fs.isCooked = true)
    (hn : 0 < fs.nchan) (hchan : map.channel ≠ 0) (hoff : fs.chanOffsetW map = c) :
    c * fs.bufferlen < 2 ^ 31 ∧ fs.nsamples * fs.wordSize < 2 ^ 31 := by
  obtain ⟨file, hfile, -, hreads, -⟩ := hall (fun _ => 0) (fun _ => 0) (fun _ _ => 0) (fun _ => 0)
    fun _ _ _ => rfl
  constructor
  · by_contra hlong
    rw [a400fsOpen_overflow (fs.withBuffers _) hcooked hchan hoff (Nat.le_of_not_lt hlong)]
      at hfile
    cases hfile
  · by_contra hlong
    refine hreads.first ?_
    unfold readStrided
    rw [readChanFile_none _ (.inr (Nat.le_of_not_lt hlong)) hn]
    rfl

theorem ReadsStrided.reads (hall : ReadsStrided fs map c k counts) (hcooked : fs.isCooked = true)
    (hn : 0 < fs.nchan) (hchan : map.channel ≠ 0) (hoff : fs.chanOffsetW map = c)
    (hopen : c * fs.bufferlen < 2 ^ 31) (hk : k < 2 ^ 31) {m : Nat × Nat → UInt8}
    (data : Nat → UInt8) (hheld : fs.ChannelHeld c m data) (user : Nat → UInt8) :
    ReadsTo (fs.readStrided m user)
      { fs.cookedFile map c (fun _ _ => 0) with stride := k } counts
      (cells (fun f => data (fs.stridedByte k f)) 0 (fs.stridedLen k)) := by
  obtain ⟨file, hfile, -, hreads, -⟩ := hall m data (fun _ _ => 0) user hheld
  rw [a400fsOpen_cooked (fs.withBuffers m) hcooked hn hchan hoff hopen, Option.some.injEq] at hfile
  rw [← hfile, ioctl_stride hk] at hreads
  exact hreads

theorem ReadsStrided.held (hall : ReadsStrided fs map c k counts) (hcooked : fs.isCooked = true)
    (hn : 0 < fs.nchan) (hws : 0 < fs.wordSize) (hchan : map.channel ≠ 0)
    (hoff : fs.chanOffsetW map = c) (hopen : c * fs.bufferlen < 2 ^ 31) (hk : 0 < k)
    (hk' : k < 2 ^ 31) {s : Nat} (hs : s < fs.nsamples) (hdvd : k ∣ s) :
    s * fs.wordSize / fs.chanBytes < fs.nbuffers := by
  by_contra hout
  obtain ⟨j, rfl⟩ := hdvd
  -- a byte that is in no buffer may be what it likes
  have hreads := fun data hheld =>
    hall.reads hcooked hn hchan hoff hopen hk' (m := fun _ => 0) data hheld fun _ => 0
  have hsame := ReadsTo.unique (hreads (fun _ => 0) fun _ _ _ => rfl)
    (hreads (fun f => if f / fs.chanBytes < fs.nbuffers then 0 else 1)
      fun f _ hf => (if_pos hf).symm)
  have hplace : j * fs.strideBytes k = k * j * fs.wordSize := by
    rw [strideBytes, ← Nat.mul_assoc, Nat.mul_comm j]
  have hlt : k * j * fs.wordSize < fs.nsamples * fs.wordSize := Nat.mul_lt_mul_of_pos_right hs hws
  have hin := (lt_stridedLen_iff hws hk (hplace ▸ Nat.le_of_lt hlt)).mpr
    (hplace ▸ Nat.ne_of_lt hlt)
  have hbyte : fs.stridedByte k (j * fs.wordSize) = k * j * fs.wordSize := by
    have hzero : fs.stridedByte k 0 = 0 := by
      unfold stridedByte
      rw [Nat.zero_div, Nat.zero_mod, Nat.zero_mul]
    rw [← Nat.add_zero (j * fs.wordSize), stridedByte_add hws, hplace, hzero]
    rfl
  have hcell := cells_inj hsame hin
  simp only [Nat.zero_add, hbyte, if_neg hout] at hcell
  exact absurd hcell (by decide)

theorem ReadsStrided.fits (hall : ReadsStrided fs map c k counts) (hcooked : fs.isCooked = true)
    (hchan : map.channel ≠ 0) (henabled : map.channel ≤ fs.nchanEnabled map.adev)
    (hoff : fs.chanOffsetW map = c) (hopen : c * fs.bufferlen < 2 ^ 31)
    (hs : StrideSizes fs c k) : fs.StridesFit k ⟨none, 0⟩ counts := by
  intro n
  have h := stridesFit_of_readsTo hs (fun _ => 0) n
    { fs.cookedFile map c (fun _ _ => 0) with stride := k } none 0 counts
  rw [Nat.zero_mul, Nat.zero_mul] at h
  refine h (stridedAt_open henabled _) (Nat.zero_le _) fun user => ?_
  exact hall.reads hcooked hs.nchan hchan hoff hopen hs.int (m := fun _ => 0) (fun _ => 0)
    (fun _ _ _ => rfl) user

end Opened

/--
**A channel file with a stride gives the samples of its channel that are asked for if and only
if** the sizes fit an `int`, the samples are in the buffers, and every read takes whole strides
and less than `k` bytes more.
-/
theorem readChanFile_strided_iff (fs : A400Fs) (map : InodeMap) (c k : Nat) (counts : Nat → Nat)
    (hcooked : fs.isCooked = true) (hpcomp : fs.pcomp = 0) (hn : 1 ≤ fs.nchan)
    (hws : 1 ≤ fs.wordSize) (hlen : fs.bufferlen < 2 ^ 31) (hbuffer : 1 ≤ fs.bufferlen)
    (hdvd : fs.nchan * fs.wordSize ∣ fs.bufferlen) (hchan : 1 ≤ map.channel)
    (henabled : map.channel ≤ fs.nchanEnabled map.adev) (hoff : fs.chanOffsetW map = c)
    (hc : c < fs.nchan) (hk : 2 ≤ k) (hk' : k < 2 ^ 31) :
    ReadsStrided fs map c k counts ↔
      c * fs.bufferlen < 2 ^ 31 ∧ fs.nsamples * fs.wordSize < 2 ^ 31 ∧
        (∀ s, s < fs.nsamples → k ∣ s →
          s * fs.wordSize / (fs.bufferlen / fs.nchan) < fs.nbuffers) ∧
        fs.StridesFit k ⟨none, 0⟩ counts := by
  have hk0 : 0 < k := Nat.lt_of_lt_of_le Nat.two_pos hk
  obtain ⟨b, hb⟩ := hdvd
  have hchanBytes : fs.chanBytes = fs.wordSize * b := by
    rw [chanBytes, hb, Nat.mul_assoc, Nat.mul_div_cancel_left _ hn]
  have hbytes : 0 < fs.chanBytes := by
    rw [hchanBytes]
    refine Nat.mul_pos hws (Nat.pos_of_ne_zero ?_)
    rintro rfl
    omega
  have hsizes (hset : fs.nsamples * fs.wordSize < 2 ^ 31) : StrideSizes fs c k :=
    ⟨hpcomp, hn, hws, hk, hk', hbytes, hlen, hc, hset⟩
  have hchan0 : map.channel ≠ 0 := by omega
  constructor
  · intro hall
    obtain ⟨hopen, hset⟩ := hall.sizes hcooked hn hchan0 hoff
    exact ⟨hopen, hset,
      fun s hs hdvd => hall.held hcooked hn hws hchan0 hoff hopen hk0 hk' hs hdvd,
      hall.fits hcooked hchan0 henabled hoff hopen (hsizes hset)⟩
  · rintro ⟨hopen, hset, hin, hfit⟩ m data heap user hheld
    have hat := stridedAt_open (c := c) (k := k) henabled heap
    refine ⟨fs.cookedFile map c heap,
      a400fsOpen_cooked (fs.withBuffers m) hcooked hn hchan0 hoff hopen heap, ?_⟩
    rw [ioctl_stride hk', ← cells_held hws hk0 ⟨b, hchanBytes⟩ hin hheld]
    refine ⟨rfl, readsTo_strided (hsizes hset) m user hat hfit, ?_⟩
    intro n file' file'' hafter hread
    exact hfit.ends (hsizes hset) m user hat n hafter hread

end A400Fs

/-- Every second of 3000 samples of the second channel, over three buffers. -/
theorem readChanFile_every_second :
    ReadsStrided (.ofSite 2 3000 true) ⟨1, 1, 2⟩ 1 2 fun _ => 400 := by
  refine (readChanFile_strided_iff (.ofSite 2 3000 true) ⟨1, 1, 2⟩ 1 2 (fun _ => 400) rfl rfl
    (by decide) (by decide) (by decide) (by decide) (by decide) (by decide) (by decide) rfl
    (by decide) (by decide) (by decide)).mpr ⟨by decide, by decide, ?_, fun n => ?_⟩
  · intro s hs _
    show s * 2 / (4096 / 2) < 8
    have hs : s < 3000 := hs
    omega
  · exact A400Fs.stridesFit_of_dvd (by decide) (by decide) (by decide) (by decide) n _ _
      (fun _ => by decide) (Nat.dvd_zero _) (Nat.zero_le _) fun l h => (nomatch h)

/-- Every third of 1000 samples: the last one, sample 999, is not given. -/
theorem readChanFile_every_third :
    ¬ReadsStrided (.ofSite 1 1000 true) ⟨1, 1, 1⟩ 0 3 fun _ => 4096 := by
  intro hall
  have hfit := hall.fits rfl (by decide) (by decide) rfl (by decide)
    ⟨rfl, by decide, by decide, by decide, by decide, by decide, by decide, by decide, by decide⟩
  have hsecond := hfit 1
  revert hsecond
  unfold A400Fs.StrideFits
  decide

end Acq400
