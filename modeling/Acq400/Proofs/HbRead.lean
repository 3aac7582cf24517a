/-
What a client reads of a poisoned buffer.

The last read takes the final `POISON_SZ` bytes from where the poison stands, and
that is the end of the buffer only if the device's `bufferlen` is the buffer's own
length.  It also takes them off a length that has to be as long.  Both have to be
right, and no more than that: `acq400HbRead_reads_back_iff`.
-/
import Acq400.Driver.HbRead
import Acq400.Proofs.Poison

namespace Acq400

open Reads

namespace HbFile

/-- The words of the buffer with each poison word replaced by its stashed value. -/
def unpoisonedWord (adev : Dev) (hbm : HbmPtr) (w : Nat) : UInt32 :=
  let va := (adev.hb hbm).va
  if w = adev.poisonWord0 ∧ va w = poison0 then (adev.hb hbm).poisonData.1
  else if w = adev.poisonWord1 ∧ va w = poison1 then (adev.hb hbm).poisonData.2
  else va w

/-- The bytes a client is to read. -/
def unpoisoned (adev : Dev) (hbm : HbmPtr) (i : Nat) : UInt8 :=
  wordByte (unpoisonedWord adev hbm (i / usz)) (i % usz)

/--
The reads with these counts give the contents back, none gives more bytes than it
was asked for and none computes a length below zero.
-/
def ReadsBack (adev : Dev) (hbm : HbmPtr) (counts : Nat → Nat) : Prop :=
  ReadsTo (acq400HbRead hbm) { adev := adev, fPos := 0 } counts
      (cells (unpoisoned adev hbm) 0 (adev.hb hbm).len) ∧
    ∀ n file, after (acq400HbRead hbm) { adev := adev, fPos := 0 } counts n = some file →
      NoWrap hbm file (counts n) ∧
        ∀ got file', acq400HbRead hbm file (counts n) = some (got, file') →
          got.length ≤ counts n

/-- No read from `p` on stops inside the last `POISON_SZ` bytes. -/
def TailOk (len p : Nat) (counts : Nat → Nat) : Prop :=
  ∀ k, p + asked counts k + poisonSz ≤ len ∨ len ≤ p + asked counts k

theorem TailOk.here {len p : Nat} {counts : Nat → Nat} (h : TailOk len p counts) (hp : p < len) :
    p + poisonSz ≤ len := by
  have := h 0
  simp only [asked] at this
  omega

theorem TailOk.later {len p : Nat} {counts : Nat → Nat} (h : TailOk len p counts) :
    TailOk len (p + counts 0) (Reads.later counts) := by
  intro k
  have := h (k + 1)
  simp only [asked] at this
  omega

theorem TailOk.atEnd (len : Nat) (counts : Nat → Nat) : TailOk len len counts :=
  fun _ => Or.inr (Nat.le_add_right _ _)

/-! ### One read -/

section read

variable {hbm : HbmPtr} {file : HbFile} {count : Nat}

/-- A file of a buffer of which `AXI_POISON_OFFSET` says nothing, at a place in it. -/
structure Sane (hbm : HbmPtr) (file : HbFile) : Prop where
  offset : file.adev.par.axiPoisonOffset = 0
  /-- `hbm_allocate1` takes the length as an `int`. -/
  len : (file.adev.hb hbm).len < 2 ^ 31
  pos : file.fPos ≤ (file.adev.hb hbm).len

theorem Sane.cursor (h : Sane hbm file) : file.fPos % 2 ^ 32 = file.fPos := by
  have h1 := h.len
  have h2 := h.pos
  exact Nat.mod_eq_of_lt (by omega)

theorem Sane.adev (h : Sane hbm file) : file.adev.poisonOffset.2 = file.adev := by
  simp [Dev.poisonOffset, h.offset]

theorem lessPoison_of_le {count : Nat} (h : poisonSz ≤ count) (hlt : count < 2 ^ 31) :
    lessPoison count = count - poisonSz := by
  unfold lessPoison
  simp only [poisonSz, usz] at *
  omega

theorem lessPoison_of_lt {count : Nat} (h : count < poisonSz) :
    taskSize < lessPoison count := by
  unfold lessPoison taskSize
  simp only [poisonSz, usz] at *
  omega

theorem lessPoison_ne {count : Nat} (h : count < 2 ^ 31) : count ≠ lessPoison count := by
  unfold lessPoison
  simp only [poisonSz, usz]
  omega

theorem acq400HbRead_atEnd (h : Sane hbm file) (hend : file.fPos = (file.adev.hb hbm).len) :
    acq400HbRead hbm file count = some ([], file) := by
  unfold acq400HbRead
  simp only [h.cursor]
  rw [if_pos (by omega)]

/-- A read that stops before the end is a plain copy. -/
theorem acq400HbRead_short (h : Sane hbm file)
    (hshort : file.fPos + count < (file.adev.hb hbm).len) :
    acq400HbRead hbm file count
      = some (cells (file.adev.hb hbm).byte file.fPos count,
          { file with fPos := file.fPos + count }) := by
  have hlen := h.len
  have hmin : min count ((file.adev.hb hbm).len - file.fPos) = count := by omega
  unfold acq400HbRead
  simp only [h.cursor, hmin]
  rw [if_neg (by omega), if_neg (by omega : ¬count = _)]
  rw [if_neg (by unfold taskSize; omega), if_neg (lessPoison_ne (by omega))]

/-- The read that reaches the end takes the last bytes from where the poison stands. -/
theorem acq400HbRead_last (h : Sane hbm file)
    (hlast : file.fPos + poisonSz ≤ (file.adev.hb hbm).len)
    (hcount : (file.adev.hb hbm).len ≤ file.fPos + count) :
    acq400HbRead hbm file count
      = some (cells (file.adev.hb hbm).byte file.fPos
            ((file.adev.hb hbm).len - file.fPos - poisonSz) ++ pxBytes file.adev hbm,
          { file with fPos := (file.adev.hb hbm).len }) := by
  have hlen := h.len
  have hsz : poisonSz = 8 := rfl
  have hmin : min count ((file.adev.hb hbm).len - file.fPos)
      = (file.adev.hb hbm).len - file.fPos := by omega
  have hsum : file.fPos + ((file.adev.hb hbm).len - file.fPos) = (file.adev.hb hbm).len := by omega
  unfold acq400HbRead
  simp only [h.cursor, hmin, if_true, hsum, h.adev]
  rw [if_neg (by omega), lessPoison_of_le (by omega) (by omega)]
  rw [if_neg (by unfold taskSize; omega)]

/-- With fewer bytes left than the poison takes, the read that is to reach the end fails. -/
theorem acq400HbRead_wraps (h : Sane hbm file) (hpos : file.fPos < (file.adev.hb hbm).len)
    (hlast : (file.adev.hb hbm).len < file.fPos + poisonSz)
    (hcount : (file.adev.hb hbm).len ≤ file.fPos + count) : acq400HbRead hbm file count = none := by
  have hmin : min count ((file.adev.hb hbm).len - file.fPos)
      = (file.adev.hb hbm).len - file.fPos := by omega
  unfold acq400HbRead
  simp only [h.cursor, hmin, if_true]
  rw [if_neg (by omega), if_pos (lessPoison_of_lt (by omega))]

theorem acq400HbRead_cases (h : Sane hbm file) {got : List UInt8} {file' : HbFile}
    (hread : acq400HbRead hbm file count = some (got, file')) :
    (file.fPos = (file.adev.hb hbm).len ∧ got = [] ∧ file' = file) ∨
    (file.fPos + count < (file.adev.hb hbm).len ∧
      got = cells (file.adev.hb hbm).byte file.fPos count ∧
      file' = { file with fPos := file.fPos + count }) ∨
    (file.fPos + poisonSz ≤ (file.adev.hb hbm).len ∧
      (file.adev.hb hbm).len ≤ file.fPos + count ∧
      got = cells (file.adev.hb hbm).byte file.fPos
        ((file.adev.hb hbm).len - file.fPos - poisonSz) ++ pxBytes file.adev hbm ∧
      file' = { file with fPos := (file.adev.hb hbm).len }) := by
  have hpos := h.pos
  by_cases hend : file.fPos = (file.adev.hb hbm).len
  · rw [acq400HbRead_atEnd h hend] at hread
    cases hread
    exact Or.inl ⟨hend, rfl, rfl⟩
  by_cases hshort : file.fPos + count < (file.adev.hb hbm).len
  · rw [acq400HbRead_short h hshort] at hread
    cases hread
    exact Or.inr (Or.inl ⟨hshort, rfl, rfl⟩)
  by_cases hlast : file.fPos + poisonSz ≤ (file.adev.hb hbm).len
  · rw [acq400HbRead_last h hlast (by omega)] at hread
    cases hread
    exact Or.inr (Or.inr ⟨hlast, by omega, rfl, rfl⟩)
  · rw [acq400HbRead_wraps h (by omega) (by omega) (by omega)] at hread
    cases hread

end read

/-! ### What makes every read come out right -/

section back

variable {adev : Dev} {hbm : HbmPtr}

/-- The place of the poison is the end of the buffer. -/
def AtEnd (adev : Dev) (hbm : HbmPtr) : Prop :=
  adev.bufferlen = (adev.hb hbm).len ∧ usz ∣ (adev.hb hbm).len

theorem AtEnd.poisonWords (h : AtEnd adev hbm) (hoff : adev.par.axiPoisonOffset = 0)
    (hlen : (adev.hb hbm).len < 2 ^ 31) (hsz : poisonSz ≤ (adev.hb hbm).len) :
    usz * adev.poisonWord0 = (adev.hb hbm).len - poisonSz ∧
      adev.poisonWord1 = adev.poisonWord0 + 1 := by
  obtain ⟨hbl, hdvd⟩ := h
  have hword : adev.poisonWord0 = firstPoisonWord (adev.hb hbm).len := by
    simp [Dev.poisonWord0, Dev.poisonOffset, hoff, hbl]
  have hfirst : firstPoisonWord (adev.hb hbm).len = (adev.hb hbm).len / usz - 2 := by
    unfold firstPoisonWord
    simp only [poisonSz, usz] at *
    omega
  unfold Dev.poisonWord1
  rw [hword, hfirst]
  simp only [poisonSz, usz] at *
  omega

/-- Outside the poison words the bytes are those of the memory. -/
theorem unpoisoned_eq_byte {i : Nat} (h0 : i / usz ≠ adev.poisonWord0)
    (h1 : i / usz ≠ adev.poisonWord1) : unpoisoned adev hbm i = (adev.hb hbm).byte i := by
  unfold unpoisoned unpoisonedWord Hbm.byte
  simp only [h0, h1, false_and, if_false]

theorem range_map_wordByte (word : UInt32) (p : Nat) (f : Nat → UInt8) (hdvd : usz ∣ p)
    (hf : ∀ i, i / usz = p / usz → f i = wordByte word (i % usz)) :
    (List.range usz).map (wordByte word) = cells f p usz := by
  unfold cells
  rw [List.range'_eq_map_range, List.map_map]
  refine List.map_congr_left fun b hb => ?_
  rw [List.mem_range] at hb
  simp only [usz] at *
  rw [Function.comp_apply, hf (p + b) (by omega)]
  congr 1
  omega

/-- `px` is the unpoisoned end of the buffer where the poison stands there. -/
theorem pxBytes_eq (h : AtEnd adev hbm) (hoff : adev.par.axiPoisonOffset = 0)
    (hlen : (adev.hb hbm).len < 2 ^ 31) (hsz : poisonSz ≤ (adev.hb hbm).len) :
    pxBytes adev hbm
      = cells (unpoisoned adev hbm) ((adev.hb hbm).len - poisonSz) poisonSz := by
  obtain ⟨hw0, hw1⟩ := h.poisonWords hoff hlen hsz
  have hne := adev.poisonWord_ne
  have hfirst : (List.range usz).map (wordByte (px adev hbm).1)
      = cells (unpoisoned adev hbm) ((adev.hb hbm).len - poisonSz) usz := by
    refine range_map_wordByte _ _ _ ⟨_, hw0.symm⟩ fun i hi => ?_
    have hi0 : i / usz = adev.poisonWord0 := by
      simp only [usz] at *
      omega
    simp only [unpoisoned, unpoisonedWord, px, hi0, hne, true_and, false_and, if_false]
  have hsecond : (List.range usz).map (wordByte (px adev hbm).2)
      = cells (unpoisoned adev hbm) ((adev.hb hbm).len - poisonSz + usz) usz := by
    refine range_map_wordByte _ _ _ ⟨adev.poisonWord1, ?_⟩ fun i hi => ?_
    · simp only [usz] at *
      omega
    · have hi1 : i / usz = adev.poisonWord1 := by
        simp only [usz] at *
        omega
      simp only [unpoisoned, unpoisonedWord, px, hi1, hne.symm, true_and, false_and, if_false]
  rw [pxBytes, hfirst, hsecond, cells_append]
  rfl

theorem cells_unpoisoned (h : AtEnd adev hbm) (hoff : adev.par.axiPoisonOffset = 0)
    (hlen : (adev.hb hbm).len < 2 ^ 31) {p k : Nat} (hk : p + k + poisonSz ≤ (adev.hb hbm).len) :
    cells (adev.hb hbm).byte p k = cells (unpoisoned adev hbm) p k := by
  obtain ⟨hw0, hw1⟩ := h.poisonWords hoff hlen (by omega)
  refine cells_congr fun i _ hi => (unpoisoned_eq_byte ?_ ?_).symm
  · simp only [poisonSz, usz] at *
    omega
  · simp only [poisonSz, usz] at *
    omega

/-- What holds of the open file before every read, where no read stops in the tail. -/
structure Good (adev : Dev) (hbm : HbmPtr) (file : HbFile) (counts : Nat → Nat) : Prop where
  dev : file.adev = adev
  pos : file.fPos ≤ (adev.hb hbm).len
  tail : TailOk (adev.hb hbm).len file.fPos counts
  positive : ∀ k, 0 < counts k

theorem Good.sane {file : HbFile} {counts : Nat → Nat} (h : Good adev hbm file counts)
    (hoff : adev.par.axiPoisonOffset = 0) (hlen : (adev.hb hbm).len < 2 ^ 31) : Sane hbm file := by
  obtain ⟨rfl, hpos, -, -⟩ := h
  exact ⟨hoff, hlen, hpos⟩

/-- A read that succeeds leaves the file as it is to be. -/
theorem Good.next {file file' : HbFile} {counts : Nat → Nat} (h : Good adev hbm file counts)
    (hoff : adev.par.axiPoisonOffset = 0) (hlen : (adev.hb hbm).len < 2 ^ 31) {got : List UInt8}
    (hread : acq400HbRead hbm file (counts 0) = some (got, file')) :
    Good adev hbm file' (later counts) := by
  have hcases := acq400HbRead_cases (h.sane hoff hlen) hread
  obtain ⟨rfl, hpos, htail, hpositive⟩ := h
  have hpositive' : ∀ k, 0 < later counts k := fun k => hpositive (k + 1)
  rcases hcases with ⟨hend, -, rfl⟩ | ⟨hshort, -, rfl⟩ | ⟨-, -, -, rfl⟩
  · exact ⟨rfl, hpos, hend ▸ TailOk.atEnd _ _, hpositive'⟩
  · exact ⟨rfl, Nat.le_of_lt hshort, htail.later, hpositive'⟩
  · exact ⟨rfl, Nat.le_refl _, TailOk.atEnd _ _, hpositive'⟩

theorem readsTo_unpoisoned (h : AtEnd adev hbm) (hoff : adev.par.axiPoisonOffset = 0)
    (hlen : (adev.hb hbm).len < 2 ^ 31) {file : HbFile} {counts : Nat → Nat}
    (hgood : Good adev hbm file counts) :
    ReadsTo (acq400HbRead hbm) file counts
      (cells (unpoisoned adev hbm) file.fPos ((adev.hb hbm).len - file.fPos)) := by
  refine readsTo_cells _ (adev.hb hbm).len HbFile.fPos (Good adev hbm) ?_ ?_ _ _ _ hgood
    hgood.pos rfl
  · intro file counts hgood hlt
    have hsane := hgood.sane hoff hlen
    have hadev := hgood.dev
    have hcount := hgood.positive 0
    have htail := hgood.tail.here hlt
    subst hadev
    by_cases hshort : file.fPos + counts 0 < (file.adev.hb hbm).len
    · have hread := acq400HbRead_short hsane hshort
      have hnext := hgood.next hoff hlen hread
      have hleft := hnext.tail.here hshort
      refine ⟨counts 0, _, hcount, Nat.le_of_lt hshort, ?_, rfl, hnext⟩
      rw [hread, cells_unpoisoned h hoff hlen hleft]
    · have hread : acq400HbRead hbm file (counts 0) = _ :=
        acq400HbRead_last hsane htail (by omega)
      have hnext := hgood.next hoff hlen hread
      refine ⟨(file.adev.hb hbm).len - file.fPos, _, by omega, by omega, ?_, ?_, hnext⟩
      · have hbody : cells (file.adev.hb hbm).byte file.fPos
            ((file.adev.hb hbm).len - file.fPos - poisonSz) = _ :=
          cells_unpoisoned h hoff hlen (by omega)
        have hplace : (file.adev.hb hbm).len - poisonSz
            = file.fPos + ((file.adev.hb hbm).len - file.fPos - poisonSz) := by omega
        have hsum : (file.adev.hb hbm).len - file.fPos - poisonSz + poisonSz
            = (file.adev.hb hbm).len - file.fPos := by omega
        rw [hread, hbody, pxBytes_eq h hoff hlen (by omega), hplace, cells_append, hsum]
      · show (file.adev.hb hbm).len = _
        omega
  · intro file counts hgood hend
    have hsane := hgood.sane hoff hlen
    have hadev := hgood.dev
    subst hadev
    exact ⟨_, acq400HbRead_atEnd hsane hend⟩

theorem Good.within {file : HbFile} {counts : Nat → Nat} (h : Good adev hbm file counts)
    (hoff : adev.par.axiPoisonOffset = 0) (hlen : (adev.hb hbm).len < 2 ^ 31) :
    NoWrap hbm file (counts 0) ∧
      ∀ got file', acq400HbRead hbm file (counts 0) = some (got, file') →
        got.length ≤ counts 0 := by
  refine ⟨fun hlt _ => ?_, fun got file' hread => ?_⟩
  · obtain ⟨rfl, -, htail, -⟩ := h
    have := htail.here hlt
    omega
  · rcases acq400HbRead_cases (h.sane hoff hlen) hread with
      ⟨-, rfl, -⟩ | ⟨-, rfl, -⟩ | ⟨hlast, hcount, rfl, -⟩
    · exact Nat.zero_le _
    · rw [length_cells]
    · simp only [List.length_append, length_cells, pxBytes, List.length_map, List.length_range]
      simp only [poisonSz] at *
      omega

end back

/-! ### What reads that succeed tell -/

section ends

variable {hbm : HbmPtr}

theorem pxBytes_ne_nil (adev : Dev) : pxBytes adev hbm ≠ [] := by
  intro h
  have hlen := congrArg List.length h
  simp [pxBytes, usz] at hlen

/-- Where the reads come to an end without an error, none has stopped in the tail. -/
theorem tailOk_of_readsTo {file : HbFile} {counts : Nat → Nat} {out : List UInt8}
    (h : ReadsTo (acq400HbRead hbm) file counts out) :
    Sane hbm file → (∀ k, 0 < counts k) → TailOk (file.adev.hb hbm).len file.fPos counts := by
  induction h with
  | @eof file _ counts h =>
      intro hsane hpos
      have hcount := hpos 0
      rcases acq400HbRead_cases hsane h with ⟨hend, -, -⟩ | ⟨-, hgot, -⟩ | ⟨-, -, hgot, -⟩
      · exact hend ▸ TailOk.atEnd _ _
      · have := cells_eq_nil.mp hgot.symm
        omega
      · exact absurd (List.append_eq_nil_iff.mp hgot.symm).2 (pxBytes_ne_nil _)
  | @more file _ counts _ _ h hne _ ih =>
      intro hsane hpos
      have hpos' : ∀ k, 0 < later counts k := fun k => hpos (k + 1)
      rcases acq400HbRead_cases hsane h with ⟨-, hgot, -⟩ | ⟨hshort, -, rfl⟩ | ⟨hlast, hc, -, -⟩
      · exact absurd hgot hne
      · have htail := ih ⟨hsane.offset, hsane.len, Nat.le_of_lt hshort⟩ hpos'
        have hhere := htail.here hshort
        intro k
        cases k with
        | zero =>
            simp only [asked] at *
            omega
        | succ k =>
            have := htail k
            simp only [asked] at *
            omega
      · intro k
        cases k with
        | zero => exact Or.inl hlast
        | succ k =>
            simp only [asked]
            omega

/-- The reads end with the two words that stand where the poison is. -/
theorem readsTo_ends {file : HbFile} {counts : Nat → Nat} {out : List UInt8}
    (h : ReadsTo (acq400HbRead hbm) file counts out) :
    Sane hbm file → file.fPos < (file.adev.hb hbm).len → (∀ k, 0 < counts k) →
      ∃ front, out = front ++ pxBytes file.adev hbm := by
  induction h with
  | @eof file _ counts h =>
      intro hsane hlt hpos
      have hcount := hpos 0
      rcases acq400HbRead_cases hsane h with ⟨hend, -, -⟩ | ⟨-, hgot, -⟩ | ⟨-, -, hgot, -⟩
      · omega
      · have := cells_eq_nil.mp hgot.symm
        omega
      · exact absurd (List.append_eq_nil_iff.mp hgot.symm).2 (pxBytes_ne_nil _)
  | @more file _ counts got out h hne rest ih =>
      intro hsane hlt hpos
      have hpos' : ∀ k, 0 < later counts k := fun k => hpos (k + 1)
      rcases acq400HbRead_cases hsane h with ⟨-, hgot, -⟩ | ⟨hshort, -, rfl⟩ | ⟨-, -, hgot, rfl⟩
      · exact absurd hgot hne
      · obtain ⟨front, hfront⟩ := ih ⟨hsane.offset, hsane.len, Nat.le_of_lt hshort⟩ hshort hpos'
        exact ⟨got ++ front, by rw [hfront, List.append_assoc]⟩
      · have hsane' : Sane hbm { file with fPos := (file.adev.hb hbm).len } :=
          ⟨hsane.offset, hsane.len, Nat.le_refl _⟩
        have hnil : out = [] := rest.unique (.eof (acq400HbRead_atEnd hsane' rfl))
        exact ⟨_, by rw [hnil, List.append_nil, hgot]⟩

end ends

/-! ### A buffer whose poison stands before its end -/

theorem poisonOneBuffer_len (adev : Dev) (hbm : HbmPtr) :
    ((adev.poisonOneBuffer hbm).hb hbm).len = (adev.hb hbm).len := by
  simp [Dev.poisonOneBuffer, Dev.setWord]

theorem poisonOneBuffer_axiPoisonOffset {adev : Dev} {hbm : HbmPtr}
    (hoff : adev.par.axiPoisonOffset = 0) :
    (adev.poisonOneBuffer hbm).par.axiPoisonOffset = 0 := by
  simp [Dev.poisonOneBuffer, Dev.setWord, Dev.poisonOffset, hoff]

theorem poisonOneBuffer_bufferlen {adev : Dev} {hbm : HbmPtr}
    (hoff : adev.par.axiPoisonOffset = 0) :
    (adev.poisonOneBuffer hbm).bufferlen = adev.bufferlen := by
  simp [Dev.poisonOneBuffer, Dev.setWord, Dev.poisonOffset, hoff]

/-- Zero but for the word that holds the last byte. -/
def markedLast (len : Nat) : Nat → UInt32 := fun w => if w = (len - 1) / usz then 0xffffffff else 0

section marked

variable {adev : Dev} {hbm : HbmPtr}

/-- The poison leaves the last byte alone where its place is not the end of the buffer. -/
theorem poisonWords_ne_last (hoff : adev.par.axiPoisonOffset = 0)
    (hlen : (adev.hb hbm).len < 2 ^ 31) (hbl : adev.bufferlen ≤ (adev.hb hbm).len)
    (hsz : poisonSz ≤ (adev.hb hbm).len) (hnot : ¬AtEnd adev hbm) :
    adev.poisonWord0 ≠ ((adev.hb hbm).len - 1) / usz ∧
      adev.poisonWord1 ≠ ((adev.hb hbm).len - 1) / usz := by
  have hword : adev.poisonWord0 = firstPoisonWord adev.bufferlen := by
    simp [Dev.poisonWord0, Dev.poisonOffset, hoff]
  unfold Dev.poisonWord1
  rw [hword]
  unfold AtEnd at hnot
  unfold firstPoisonWord
  simp only [poisonSz, usz] at *
  omega

theorem wordByte_ones : ∀ b, b < usz → wordByte 0xffffffff b = 255 := by decide

theorem unpoisoned_marked (hne0 : adev.poisonWord0 ≠ ((adev.hb hbm).len - 1) / usz)
    (hne1 : adev.poisonWord1 ≠ ((adev.hb hbm).len - 1) / usz)
    (hva : (adev.hb hbm).va = Function.update (Function.update (markedLast (adev.hb hbm).len)
      adev.poisonWord0 poison0) adev.poisonWord1 poison1) :
    unpoisoned adev hbm ((adev.hb hbm).len - 1) = 255 := by
  have hword : markedLast (adev.hb hbm).len (((adev.hb hbm).len - 1) / usz) = 0xffffffff :=
    if_pos rfl
  rw [unpoisoned_eq_byte hne0.symm hne1.symm, Hbm.byte, hva, Function.update_of_ne hne1.symm,
    Function.update_of_ne hne0.symm, hword]
  exact wordByte_ones _ (Nat.mod_lt _ (by decide))

/-- What is read in its place is the stash of a word that was zero. -/
theorem px_marked (hne1 : adev.poisonWord1 ≠ ((adev.hb hbm).len - 1) / usz)
    (hva : (adev.hb hbm).va = markedLast (adev.hb hbm).len)
    (hstash : (adev.hb hbm).poisonData = (0, 0)) :
    (px (adev.poisonOneBuffer hbm) hbm).2 = 0 := by
  have hzero : markedLast (adev.hb hbm).len adev.poisonWord1 = 0 := if_neg hne1
  simp [px, Dev.poisonOneBuffer_va, Dev.poisonOneBuffer_poisonData, Dev.stash, hva, hstash, hzero]

theorem marked_not_back (hoff : adev.par.axiPoisonOffset = 0)
    (hlen : (adev.hb hbm).len < 2 ^ 31) (hbl : adev.bufferlen ≤ (adev.hb hbm).len)
    (hsz : poisonSz ≤ (adev.hb hbm).len) (hnot : ¬AtEnd adev hbm)
    (hva : (adev.hb hbm).va = markedLast (adev.hb hbm).len)
    (hstash : (adev.hb hbm).poisonData = (0, 0)) {counts : Nat → Nat} (hpos : ∀ k, 0 < counts k) :
    ¬ReadsBack (adev.poisonOneBuffer hbm) hbm counts := by
  rintro ⟨hreads, -⟩
  have hsz' : 0 < (adev.hb hbm).len := by
    simp only [poisonSz, usz] at hsz
    omega
  obtain ⟨hne0, hne1⟩ := poisonWords_ne_last hoff hlen hbl hsz hnot
  have hplen := poisonOneBuffer_len adev hbm
  have hlast : unpoisoned (adev.poisonOneBuffer hbm) hbm ((adev.hb hbm).len - 1) = 255 := by
    have hva' : ((adev.poisonOneBuffer hbm).hb hbm).va = Function.update (Function.update
        (markedLast (adev.hb hbm).len) adev.poisonWord0 poison0) adev.poisonWord1 poison1 := by
      rw [Dev.poisonOneBuffer_va, hva]
    rw [← hplen]
    refine unpoisoned_marked ?_ ?_ ?_
    all_goals simp only [Dev.poisonOneBuffer_poisonWord0, Dev.poisonOneBuffer_poisonWord1, hplen]
    · exact hne0
    · exact hne1
    · exact hva'
  have hsane : Sane hbm { adev := adev.poisonOneBuffer hbm, fPos := 0 } :=
    ⟨poisonOneBuffer_axiPoisonOffset hoff, hplen ▸ hlen, Nat.zero_le _⟩
  obtain ⟨front, hfront⟩ := readsTo_ends hreads hsane (hplen.symm ▸ hsz') hpos
  have hgot := congrArg List.getLast? hfront
  have hpxlast : (pxBytes (adev.poisonOneBuffer hbm) hbm).getLast? = some 0 := by
    simp [pxBytes, px_marked hne1 hva hstash, usz, List.range_succ, wordByte]
  rw [List.getLast?_append, hpxlast, List.getLast?_eq_getElem?, length_cells, getElem?_cells,
    hplen, if_pos (by omega), Nat.zero_add, hlast] at hgot
  exact absurd (Option.some.inj hgot) (by decide)

end marked

end HbFile

open HbFile

/--
**What a client reads of a poisoned buffer is its contents, whatever they are, if and only if
the poison stands at the end of the buffer and no read stops within its size of the end.**
-/
theorem acq400HbRead_reads_back_iff (adev : Dev) (hbm : HbmPtr) (counts : Nat → Nat)
    (hoff : adev.par.axiPoisonOffset = 0) (hlen : (adev.hb hbm).len < 2 ^ 31)
    (hbl : adev.bufferlen ≤ (adev.hb hbm).len) (hpos : ∀ k, 0 < counts k) :
    (∀ va stash, ReadsBack ((adev.withContents hbm va stash).poisonOneBuffer hbm) hbm counts) ↔
      (∀ k, asked counts k + poisonSz ≤ (adev.hb hbm).len ∨ (adev.hb hbm).len ≤ asked counts k) ∧
        ((adev.hb hbm).len = 0 ∨ adev.bufferlen = (adev.hb hbm).len ∧ usz ∣ (adev.hb hbm).len) := by
  have hlen' : ∀ va stash,
      (((adev.withContents hbm va stash).poisonOneBuffer hbm).hb hbm).len = (adev.hb hbm).len :=
    fun va stash => (poisonOneBuffer_len _ hbm).trans (adev.withContents_len hbm va stash)
  constructor
  · intro hall
    have htail : TailOk (adev.hb hbm).len 0 counts := by
      have hsane : Sane hbm
          { adev := (adev.withContents hbm (adev.hb hbm).va (0, 0)).poisonOneBuffer hbm
            fPos := 0 } :=
        ⟨poisonOneBuffer_axiPoisonOffset hoff, by rw [hlen']; exact hlen, Nat.zero_le _⟩
      have := tailOk_of_readsTo (hall (adev.hb hbm).va (0, 0)).1 hsane hpos
      rwa [hlen'] at this
    refine ⟨fun k => by simpa using htail k, ?_⟩
    by_contra hno
    rw [not_or] at hno
    have hsz := htail.here (Nat.pos_of_ne_zero hno.1)
    refine marked_not_back ?_ ?_ ?_ ?_ ?_ ?_ ?_ hpos
      (hall (markedLast (adev.hb hbm).len) (0, 0))
    all_goals simp only [Dev.withContents_par, Dev.withContents_len, Dev.withContents_va,
      Dev.withContents_poisonData,
      Dev.withContents_bufferlen, AtEnd]
    · exact hoff
    · exact hlen
    · exact hbl
    · omega
    · exact hno.2
  · rintro ⟨htail, hend⟩ va stash
    have hplen := hlen' va stash
    have hpoff : ((adev.withContents hbm va stash).poisonOneBuffer hbm).par.axiPoisonOffset = 0 :=
      poisonOneBuffer_axiPoisonOffset hoff
    have hpbl : ((adev.withContents hbm va stash).poisonOneBuffer hbm).bufferlen = adev.bufferlen :=
      poisonOneBuffer_bufferlen hoff
    generalize (adev.withContents hbm va stash).poisonOneBuffer hbm = poisoned at hplen hpoff hpbl
    have hlt : (poisoned.hb hbm).len < 2 ^ 31 := by rw [hplen]; exact hlen
    have hgood : Good poisoned hbm { adev := poisoned, fPos := 0 } counts :=
      ⟨rfl, Nat.zero_le _, fun k => by simpa [hplen] using htail k, hpos⟩
    refine ⟨?_, fun n file hafter => ?_⟩
    · rcases hend with hzero | hend
      · have hatEnd : acq400HbRead hbm { adev := poisoned, fPos := 0 } (counts 0) = _ :=
          acq400HbRead_atEnd (hgood.sane hpoff hlt) (by rw [hplen, hzero])
        rw [hplen, hzero, cells_zero]
        exact .eof hatEnd
      · have hat : AtEnd poisoned hbm := by
          unfold AtEnd
          rw [hplen, hpbl]
          exact hend
        exact readsTo_unpoisoned hat hpoff hlt hgood
    · have hinv := after_invariant counts
        (fun n file => Good poisoned hbm file fun k => counts (n + k))
        (fun n file got file' hg hread => ?_) ?_ n file hafter
      · exact hinv.within hpoff hlt
      · have hnext := hg.next hpoff hlt hread
        have hshift : later (fun k => counts (n + k)) = fun k => counts (n + 1 + k) :=
          funext fun k => congrArg counts (by omega)
        rwa [hshift] at hnext
      · simpa using hgood

/-- Two reads of eight bytes of a buffer of sixteen, poisoned at its end. -/
theorem acq400HbRead_reads_back_halves :
    ReadsBack (((Dev.allocated 1 16 .loaded fun _ _ => 0).withContents 0
      (fun w => UInt32.ofNat w) (0, 0)).poisonOneBuffer 0) 0 (fun _ => 8) := by
  refine (acq400HbRead_reads_back_iff (Dev.allocated 1 16 .loaded fun _ _ => 0) 0 (fun _ => 8)
    rfl (by decide) (by decide) (fun _ => by decide)).mpr ⟨fun k => ?_, Or.inr ?_⟩ _ _
  · have hlen : ((Dev.allocated 1 16 .loaded fun _ _ => 0).hb 0).len = 16 := rfl
    rw [asked_const, hlen]
    unfold poisonSz usz
    omega
  · exact ⟨rfl, by decide⟩

/-- With `bufferlen` set under the length of the buffer, its last word is not what is read last. -/
theorem acq400HbRead_sub_buffer :
    ¬ReadsBack (((Dev.allocated 1 16 .loaded fun _ w =>
      UInt32.ofNat (0x01010101 * w)).acq400SetBufferlen 16 12).poisonOneBuffer 0) 0
        fun _ => 16 := by
  rintro ⟨hreads, -⟩
  obtain ⟨front, hfront⟩ := readsTo_ends hreads ⟨rfl, by decide, Nat.zero_le _⟩ (by decide)
    (fun _ => by decide)
  have hlast := congrArg List.getLast? hfront
  rw [List.getLast?_append_of_ne_nil _ (pxBytes_ne_nil _)] at hlast
  exact absurd hlast (by decide +kernel)

end Acq400
