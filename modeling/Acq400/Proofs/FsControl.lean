/-
Writing the control file and reading it back.

The terminator goes behind an element of the line that is not stored.  So the scan sees a
character more than the client has written, unless it has come to its end before: at a
terminator in the client's bytes, at a mismatch, or where `TYPE` is full or followed by
white space.
-/
import Acq400.Driver.FsControl
import Mathlib.Data.List.GetD

namespace Acq400

open Sscanf

namespace CaptureData

/-- What `CAPDAT` can be. -/
structure WellFormed (cap : CaptureData) : Prop where
  isCooked : CInt.InRange cap.isCooked
  nsamples : CInt.InRange cap.nsamples
  nchan : CInt.InRange cap.nchan
  typ : cap.typ.length ≤ 7
  chars : ∀ c ∈ cap.typ, isSpace c = false ∧ c ≠ '\x00'

/-- The client's bytes, as far as they are taken. -/
def taken (buf : List Char) : List Char := buf.take (clipLine buf.length)

/-- The type is full or its end has been seen. -/
def WordEnds (str : List Char) : Prop :=
  7 ≤ (spaces str).length ∨ ∃ c ∈ spaces str, isSpace c = true

/-- The bytes settle what is scanned: they hold a terminator, or no type, or all of it. -/
def Settled (bytes : List Char) : Prop :=
  '\x00' ∈ bytes ∨ ∀ numbers rest, scanNumbers bytes = some (numbers, rest) → WordEnds rest

/-- What a write is to do: it stores in the line only, what it makes of the bytes does not depend
on what was there, and `CAPDAT` is replaced by the four fields or not at all. -/
structure WritesWell (cap : CaptureData) (buf : List Char) : Prop where
  stores : ∀ stack, ∀ i ∈ (ctrlWriteFile cap stack buf).stores, i < lineSize
  bytes : ∀ stack stack', (ctrlWriteFile cap stack buf).rc = (ctrlWriteFile cap stack' buf).rc ∧
    (ctrlWriteFile cap stack buf).capdat = (ctrlWriteFile cap stack' buf).capdat
  whole : ∀ stack, (ctrlWriteFile cap stack buf).capdat = (scan (tmpString stack buf)).getD cap

/-- What is read is accepted when it is written back, and changes nothing. -/
def RoundTrips (cap : CaptureData) : Prop :=
  ∀ stack stack' count, lineSize ≤ count →
    (ctrlWriteFile cap stack' (ctrlReadFile cap stack 0 count).1).rc =
        (ctrlReadFile cap stack 0 count).1.length ∧
      (ctrlWriteFile cap stack' (ctrlReadFile cap stack 0 count).1).capdat = cap

/-! ### The string that is scanned -/

theorem clipLine_le (count : Nat) : clipLine count ≤ count := by
  unfold clipLine lineSize
  split
  · omega
  · omega

theorem length_taken (buf : List Char) : (taken buf).length = clipLine buf.length := by
  rw [taken, List.length_take]
  exact Nat.min_eq_left (clipLine_le _)

theorem map_tmpLine (stack : Nat → Char) (buf : List Char) :
    (List.range (clipLine buf.length + 1)).map (tmpLine stack buf) =
      taken buf ++ [stack (clipLine buf.length)] := by
  have hle := clipLine_le buf.length
  rw [List.range_succ, List.map_append, List.map_singleton]
  congr 1
  · refine List.ext_getElem (by simp [length_taken]) ?_
    intro i hi hi'
    rw [List.length_map, List.length_range] at hi
    rw [List.getElem_map, List.getElem_range]
    simp only [tmpLine, taken]
    rw [Function.update_of_ne (by omega), if_pos hi, List.getElem_take,
      List.getD_eq_getElem _ _ (by omega)]
  · simp only [tmpLine]
    rw [Function.update_of_ne (by omega), if_neg (by omega)]

theorem tmpString_of_mem (stack : Nat → Char) {buf : List Char} (h : '\x00' ∈ taken buf) :
    tmpString stack buf = (taken buf).takeWhile (· ≠ '\x00') := by
  rw [tmpString, map_tmpLine, List.takeWhile_append, if_neg]
  intro hall
  have := List.takeWhile_eq_self_iff.mp ((List.takeWhile_prefix _).eq_of_length hall) _ h
  simp at this

theorem tmpString_of_not_mem (stack : Nat → Char) {buf : List Char} (h : '\x00' ∉ taken buf) :
    tmpString stack buf =
      if stack (clipLine buf.length) = '\x00' then taken buf
      else taken buf ++ [stack (clipLine buf.length)] := by
  have hself : (taken buf).takeWhile (· ≠ '\x00') = taken buf := by
    rw [List.takeWhile_eq_self_iff]
    intro c hc
    exact decide_eq_true fun e => h (e ▸ hc)
  rw [tmpString, map_tmpLine, List.takeWhile_append, hself, if_pos rfl]
  split
  · rename_i hnul
    rw [hnul]
    simp
  · rename_i hnul
    simp [hnul]

/-! ### The scan with a character more -/

theorem scanNumbers_eq_some {str rest : List Char} {a b c : Int} :
    scanNumbers str = some ((a, b, c), rest) ↔
      ∃ s1 s2 s3 s4 s5 s6, lit "COOKED=".toList str = some s1 ∧ int s1 = some (a, s2) ∧
        lit "NSAMPLES=".toList (spaces s2) = some s3 ∧ int s3 = some (b, s4) ∧
        lit "NCHAN=".toList (spaces s4) = some s5 ∧ int s5 = some (c, s6) ∧
        lit "TYPE=".toList (spaces s6) = some rest := by
  simp only [scanNumbers, Option.bind_eq_some_iff, Option.map_eq_some_iff, Prod.exists,
    Prod.mk.injEq]
  constructor
  · rintro ⟨s1, h1, a', s2, h2, s3, h3, b', s4, h4, s5, h5, c', s6, h6, s7, h7,
      ⟨rfl, rfl, rfl⟩, rfl⟩
    exact ⟨s1, s2, s3, s4, s5, s6, h1, h2, h3, h4, h5, h6, h7⟩
  · rintro ⟨s1, s2, s3, s4, s5, s6, h1, h2, h3, h4, h5, h6, h7⟩
    exact ⟨s1, h1, a, s2, h2, s3, h3, b, s4, h4, s5, h5, c, s6, h6, rest, h7, ⟨rfl, rfl, rfl⟩, rfl⟩

/-- The literals of the format are not empty. -/
theorem ne_nil_of_lit {f : Char} {fmt str r : List Char} (h : lit (f :: fmt) str = some r) :
    str ≠ [] := by
  rintro rfl
  cases h

theorem ne_nil_of_spaces {str : List Char} (h : spaces str ≠ []) : str ≠ [] := by
  rintro rfl
  exact h rfl

theorem lit_spaces_concat {f : Char} {fmt str r : List Char} (g : Char)
    (h : lit (f :: fmt) (spaces str) = some r) :
    str ≠ [] ∧ lit (f :: fmt) (spaces (str ++ [g])) = some (r ++ [g]) := by
  have hne := ne_nil_of_lit h
  refine ⟨ne_nil_of_spaces hne, ?_⟩
  rw [spaces_concat (dropWhile_concat_ne_nil hne)]
  exact lit_concat h

theorem lit_spaces_of_concat {f : Char} {fmt str r : List Char} {g : Char} (hr : r ≠ [])
    (h : lit (f :: fmt) (spaces (str ++ [g])) = some r) :
    ∃ r', r = r' ++ [g] ∧ lit (f :: fmt) (spaces str) = some r' := by
  rw [spaces_concat (ne_nil_of_lit h)] at h
  exact lit_of_concat hr h

theorem ne_nil_of_int {str r : List Char} {n : Int} (h : int str = some (n, r)) : str ≠ [] := by
  rintro rfl
  cases h

theorem scanNumbers_concat {str rest : List Char} {numbers : Int × Int × Int} (g : Char)
    (h : scanNumbers str = some (numbers, rest)) :
    scanNumbers (str ++ [g]) = some (numbers, rest ++ [g]) := by
  obtain ⟨a, b, c⟩ := numbers
  obtain ⟨s1, s2, s3, s4, s5, s6, h1, h2, h3, h4, h5, h6, h7⟩ := scanNumbers_eq_some.mp h
  obtain ⟨hne2, h3⟩ := lit_spaces_concat g h3
  obtain ⟨hne4, h5⟩ := lit_spaces_concat g h5
  obtain ⟨hne6, h7⟩ := lit_spaces_concat g h7
  exact scanNumbers_eq_some.mpr ⟨s1 ++ [g], s2 ++ [g], s3 ++ [g], s4 ++ [g], s5 ++ [g], s6 ++ [g],
    lit_concat h1, int_concat hne2 h2, h3, int_concat hne4 h4, h5, int_concat hne6 h6, h7⟩

theorem scanNumbers_of_concat {str rest : List Char} {numbers : Int × Int × Int} {g : Char}
    (hne : rest ≠ []) (h : scanNumbers (str ++ [g]) = some (numbers, rest)) :
    ∃ rest', rest = rest' ++ [g] ∧ scanNumbers str = some (numbers, rest') := by
  obtain ⟨a, b, c⟩ := numbers
  obtain ⟨s1, s2, s3, s4, s5, s6, h1, h2, h3, h4, h5, h6, h7⟩ := scanNumbers_eq_some.mp h
  obtain ⟨t1, rfl, k1⟩ := lit_of_concat (ne_nil_of_int h2) h1
  obtain ⟨t2, rfl, k2⟩ := int_of_concat (ne_nil_of_spaces (ne_nil_of_lit h3)) h2
  obtain ⟨t3, rfl, k3⟩ := lit_spaces_of_concat (ne_nil_of_int h4) h3
  obtain ⟨t4, rfl, k4⟩ := int_of_concat (ne_nil_of_spaces (ne_nil_of_lit h5)) h4
  obtain ⟨t5, rfl, k5⟩ := lit_spaces_of_concat (ne_nil_of_int h6) h5
  obtain ⟨t6, rfl, k6⟩ := int_of_concat (ne_nil_of_spaces (ne_nil_of_lit h7)) h6
  obtain ⟨t7, rfl, k7⟩ := lit_spaces_of_concat hne h7
  exact ⟨t7, rfl, scanNumbers_eq_some.mpr ⟨t1, t2, t3, t4, t5, t6, k1, k2, k3, k4, k5, k6, k7⟩⟩

/-! ### The type with a character more -/

theorem word_of_ends {str : List Char} (h : WordEnds str) (g : Char) :
    (word 7 (str ++ [g])).map Prod.fst = (word 7 str).map Prod.fst := by
  have hne : spaces str ≠ [] := by
    intro hnil
    rw [WordEnds, hnil] at h
    rcases h with h | ⟨c, hc, -⟩
    · exact absurd h (by decide)
    · cases hc
  have hgot : ((spaces str ++ [g]).take 7).takeWhile (fun c => !isSpace c) =
      ((spaces str).take 7).takeWhile fun c => !isSpace c := by
    by_cases hlen : 7 ≤ (spaces str).length
    · rw [List.take_append_of_le_length hlen]
    · obtain ⟨c, hc, hspace⟩ := h.resolve_left hlen
      have hstop : (spaces str).dropWhile (fun c => !isSpace c) ≠ [] := by
        intro hnil
        have := List.dropWhile_eq_nil_iff.mp hnil c hc
        simp [hspace] at this
      rw [List.take_of_length_le (by rw [List.length_append, List.length_singleton]; omega),
        List.take_of_length_le (by omega)]
      exact (while_concat (dropWhile_concat_ne_nil hstop)).2
  unfold word
  rw [if_neg (by simp), if_neg (ne_nil_of_spaces hne),
    spaces_concat (dropWhile_concat_ne_nil hne)]
  exact congrArg some hgot

theorem word_of_not_ends {str : List Char} (h : ¬WordEnds str) :
    (word 7 (str ++ ['x'])).map Prod.fst ≠ (word 7 str).map Prod.fst := by
  rw [WordEnds, not_or, not_exists] at h
  obtain ⟨hlen, hchars⟩ := h
  have hchars : ∀ c ∈ spaces str, (!isSpace c) = true := by
    intro c hc
    have := hchars c
    simpa [hc] using this
  have hspaces : spaces (str ++ ['x']) = spaces str ++ ['x'] := by
    refine spaces_concat ?_
    unfold spaces
    rw [List.dropWhile_append]
    split
    · rw [List.dropWhile_cons_of_neg (by decide)]
      simp
    · simp
  have hmore : ((spaces str ++ ['x']).take 7).takeWhile (fun c => !isSpace c) =
      spaces str ++ ['x'] := by
    rw [List.take_of_length_le (by rw [List.length_append, List.length_singleton]; omega),
      List.takeWhile_eq_self_iff]
    intro c hc
    rcases List.mem_append.mp hc with hc | hc
    · exact hchars c hc
    · rw [List.mem_singleton.mp hc]
      decide
  have hgot : ((spaces str).take 7).takeWhile (fun c => !isSpace c) = spaces str := by
    rw [List.take_of_length_le (by omega), List.takeWhile_eq_self_iff]
    exact hchars
  unfold word
  rw [if_neg (by simp), hspaces, hmore]
  split
  · exact fun h => (nomatch h)
  · rw [hgot]
    intro heq
    have := congrArg List.length (Option.some.inj heq)
    simp at this

/-! ### The writes -/

theorem scan_eq_none {str : List Char} (h : scanNumbers str = none) (g : Char) :
    scan (str ++ [g]) = none := by
  cases hmore : scanNumbers (str ++ [g]) with
  | none => rw [scan, hmore, Option.bind_none]
  | some found =>
      obtain ⟨numbers, rest⟩ := found
      have hnil : rest = [] := by
        by_contra hne
        obtain ⟨rest', -, hsome⟩ := scanNumbers_of_concat hne hmore
        rw [h] at hsome
        cases hsome
      rw [scan, hmore, hnil]
      rfl

/-- What the scan makes of a type. -/
def withTyp (numbers : Int × Int × Int) (typ : List Char) : CaptureData :=
  { isCooked := numbers.1, nsamples := numbers.2.1, nchan := numbers.2.2, typ := typ }

theorem scan_of_numbers {str rest : List Char} {numbers : Int × Int × Int}
    (h : scanNumbers str = some (numbers, rest)) :
    scan str = ((word 7 rest).map Prod.fst).map (withTyp numbers) := by
  rw [scan, h, Option.bind_some, Option.map_map]
  rfl

/-- The scan of a line does not depend on the element behind the client's bytes exactly if they
settle it. -/
theorem scan_tmpString_iff (buf : List Char) :
    (∀ stack stack', scan (tmpString stack buf) = scan (tmpString stack' buf)) ↔
      Settled (taken buf) := by
  by_cases hnul : '\x00' ∈ taken buf
  · refine iff_of_true (fun stack stack' => ?_) (.inl hnul)
    rw [tmpString_of_mem stack hnul, tmpString_of_mem stack' hnul]
  constructor
  · intro hall
    refine .inr fun numbers rest h => ?_
    by_contra hopen
    have hsame := hall (fun _ => 'x') (fun _ => '\x00')
    rw [tmpString_of_not_mem _ hnul, tmpString_of_not_mem _ hnul, if_neg (by decide), if_pos rfl,
      scan_of_numbers h, scan_of_numbers (scanNumbers_concat 'x' h)] at hsame
    refine word_of_not_ends hopen (Option.map_injective ?_ hsame)
    intro typ typ' heq
    exact congrArg CaptureData.typ heq
  · intro hsettled
    have hscan (stack : Nat → Char) : scan (tmpString stack buf) = scan (taken buf) := by
      rw [tmpString_of_not_mem stack hnul]
      split
      · rfl
      · cases h : scanNumbers (taken buf) with
        | none => rw [scan_eq_none h, scan, h, Option.bind_none]
        | some found =>
            obtain ⟨numbers, rest⟩ := found
            have hends := (hsettled.resolve_left hnul) numbers rest h
            rw [scan_of_numbers h, scan_of_numbers (scanNumbers_concat _ h), word_of_ends hends]
    intro stack stack'
    rw [hscan stack, hscan stack']

theorem ctrlWriteFile_eq (cap : CaptureData) (stack : Nat → Char) (buf : List Char) :
    (ctrlWriteFile cap stack buf).rc =
        (if (scan (tmpString stack buf)).isSome then (clipLine buf.length : Int) else -eInval) ∧
      (ctrlWriteFile cap stack buf).capdat = (scan (tmpString stack buf)).getD cap ∧
      (ctrlWriteFile cap stack buf).stores =
        List.range (clipLine buf.length) ++ [clipLine buf.length + 1] := by
  unfold ctrlWriteFile
  split
  · rename_i h
    rw [h]
    exact ⟨rfl, rfl, rfl⟩
  · rename_i h
    rw [h]
    exact ⟨rfl, rfl, rfl⟩

/-- What a write returns and leaves tells what has been scanned. -/
theorem scan_of_write {cap : CaptureData} {stack stack' : Nat → Char} {buf : List Char}
    (hrc : (ctrlWriteFile cap stack buf).rc = (ctrlWriteFile cap stack' buf).rc)
    (hcap : (ctrlWriteFile cap stack buf).capdat = (ctrlWriteFile cap stack' buf).capdat) :
    scan (tmpString stack buf) = scan (tmpString stack' buf) := by
  rw [(ctrlWriteFile_eq cap stack buf).1, (ctrlWriteFile_eq cap stack' buf).1] at hrc
  rw [(ctrlWriteFile_eq cap stack buf).2.1, (ctrlWriteFile_eq cap stack' buf).2.1] at hcap
  have hpos : (clipLine buf.length : Int) ≠ -eInval := by
    unfold eInval
    omega
  cases h : scan (tmpString stack buf) with
  | none =>
      cases h' : scan (tmpString stack' buf) with
      | none => rfl
      | some c' =>
          rw [h, h'] at hrc
          exact absurd hrc.symm hpos
  | some c =>
      cases h' : scan (tmpString stack' buf) with
      | none =>
          rw [h, h'] at hrc
          exact absurd hrc hpos
      | some c' =>
          rw [h, h'] at hcap
          exact congrArg some hcap

theorem stores_lt_iff (count : Nat) :
    (∀ i ∈ List.range (clipLine count) ++ [clipLine count + 1], i < lineSize) ↔
      count ≠ lineSize - 1 := by
  have hcount : clipLine count + 1 < lineSize ↔ count ≠ lineSize - 1 := by
    unfold clipLine lineSize
    split
    · omega
    · omega
  rw [← hcount]
  constructor
  · intro h
    exact h _ (List.mem_append_right _ (List.mem_singleton_self _))
  · intro h i hi
    rcases List.mem_append.mp hi with hi | hi
    · rw [List.mem_range] at hi
      omega
    · rw [List.mem_singleton.mp hi]
      exact h

/-- A write does what it is to do exactly if it is not one byte short of the line and its bytes
settle what is scanned. -/
theorem writesWell_iff (cap : CaptureData) (buf : List Char) :
    WritesWell cap buf ↔ buf.length ≠ lineSize - 1 ∧ Settled (taken buf) := by
  rw [← stores_lt_iff, ← scan_tmpString_iff]
  constructor
  · intro h
    refine ⟨?_, fun stack stack' => scan_of_write (h.bytes stack stack').1 (h.bytes stack stack').2⟩
    have hstores := h.stores fun _ => '\x00'
    rwa [(ctrlWriteFile_eq cap _ buf).2.2] at hstores
  · rintro ⟨hstores, hscan⟩
    refine ⟨fun stack => ?_, fun stack stack' => ?_, fun stack => (ctrlWriteFile_eq cap _ buf).2.1⟩
    · rw [(ctrlWriteFile_eq cap stack buf).2.2]
      exact hstores
    · rw [(ctrlWriteFile_eq cap stack buf).1, (ctrlWriteFile_eq cap stack buf).2.1,
        (ctrlWriteFile_eq cap stack' buf).1, (ctrlWriteFile_eq cap stack' buf).2.1,
        hscan stack stack']
      exact ⟨rfl, rfl⟩

/-! ### What `CAPDAT` can be -/

theorem wellFormed_init : init.WellFormed :=
  ⟨by decide, by decide, by decide, by decide, fun _ h => (nomatch h)⟩

theorem wellFormed_scan {str : List Char} (hnul : '\x00' ∉ str) {cap : CaptureData}
    (h : scan str = some cap) : cap.WellFormed := by
  cases hscan : scanNumbers str with
  | none =>
      rw [scan, hscan] at h
      cases h
  | some found =>
      obtain ⟨⟨a, b, c⟩, rest⟩ := found
      rw [scan, hscan, Option.bind_some, Option.map_eq_some_iff] at h
      obtain ⟨⟨typ, after⟩, hword, rfl⟩ := h
      obtain ⟨s1, s2, s3, s4, s5, s6, h1, h2, h3, h4, h5, h6, h7⟩ := scanNumbers_eq_some.mp hscan
      have hsuffix : rest <:+ str :=
        (lit_suffix h7).trans <| (spaces_suffix s6).trans <| (int_suffix h6).trans <|
        (lit_suffix h5).trans <| (spaces_suffix s4).trans <| (int_suffix h4).trans <|
        (lit_suffix h3).trans <| (spaces_suffix s2).trans <| (int_suffix h2).trans (lit_suffix h1)
      obtain ⟨hlen, hchars⟩ := word_chars hword
      refine ⟨int_inRange h2, int_inRange h4, int_inRange h6, hlen, fun d hd => ?_⟩
      exact ⟨(hchars d hd).1, fun e => hnul (hsuffix.mem (e ▸ (hchars d hd).2))⟩

theorem wellFormed_write {cap : CaptureData} (h : cap.WellFormed) (stack : Nat → Char)
    (buf : List Char) : (ctrlWriteFile cap stack buf).capdat.WellFormed := by
  rw [(ctrlWriteFile_eq cap stack buf).2.1]
  cases hscan : scan (tmpString stack buf) with
  | none => exact h
  | some capdat =>
      refine wellFormed_scan (fun hmem => ?_) hscan
      simpa using List.mem_takeWhile_imp hmem

/-- And after any writes. -/
theorem wellFormed_writes (ws : List ((Nat → Char) × List Char)) :
    ∀ cap : CaptureData, cap.WellFormed → (writes cap ws).WellFormed := by
  induction ws with
  | nil => intro cap h; exact h
  | cons w rest ih =>
      intro cap h
      exact ih _ (wellFormed_write h w.1 w.2)

/-! ### Reading and writing back -/

section back

variable {cap : CaptureData}

theorem line_eq (cap : CaptureData) :
    cap.line = "COOKED=".toList ++ (decimalText cap.isCooked ++ ' ' :: ("NSAMPLES=".toList ++
      (decimalText cap.nsamples ++ ' ' :: ("NCHAN=".toList ++ (decimalText cap.nchan ++
        ' ' :: ("TYPE=".toList ++ (cap.typ ++ ['\n']))))))) := by
  unfold line
  rw [show " NSAMPLES=".toList = ' ' :: "NSAMPLES=".toList from rfl,
    show " NCHAN=".toList = ' ' :: "NCHAN=".toList from rfl,
    show " TYPE=".toList = ' ' :: "TYPE=".toList from rfl]
  simp only [List.append_assoc, List.cons_append]

theorem WellFormed.length_line (h : cap.WellFormed) : cap.line.length < lineSize - 1 := by
  have ha := length_decimalText h.isCooked
  have hb := length_decimalText h.nsamples
  have hc := length_decimalText h.nchan
  have ht := h.typ
  rw [line_eq]
  simp only [List.length_append, List.length_cons, List.length_nil, String.length_toList]
  have h1 : "COOKED=".length = 7 := rfl
  have h2 : "NSAMPLES=".length = 9 := rfl
  have h3 : "NCHAN=".length = 6 := rfl
  have h4 : "TYPE=".length = 5 := rfl
  unfold lineSize
  omega

/-- The line that is read. -/
theorem ctrlReadFile_line (h : cap.WellFormed) (stack : Nat → Char) {count : Nat}
    (hcount : lineSize ≤ count) : (ctrlReadFile cap stack 0 count).1 = cap.line := by
  have hlen := h.length_line
  unfold ctrlReadFile
  simp only [Nat.not_lt_zero, gt_iff_lt, if_false, Nat.sub_zero]
  rw [if_pos (by omega)]
  refine List.ext_getElem (by simp) ?_
  intro i hi hi'
  rw [List.getElem_map, List.getElem_range', Nat.zero_add, Nat.one_mul]
  simp only [printed]
  rw [List.take_of_length_le (by omega), List.getElem?_eq_getElem hi']

theorem WellFormed.no_nul (h : cap.WellFormed) : '\x00' ∉ cap.line := by
  have hdigits (n : Int) : '\x00' ∉ decimalText n := by
    intro hmem
    rcases mem_decimalText hmem with h | h
    · exact absurd h (by decide)
    · exact absurd h (by decide)
  have htyp : '\x00' ∉ cap.typ := fun hmem => (h.chars _ hmem).2 rfl
  rw [line_eq]
  simp [hdigits, htyp]

/-- The numbers of the line are scanned from it. -/
theorem scanNumbers_line (h : cap.WellFormed) (more : List Char) :
    scanNumbers (cap.line ++ more) =
      some ((cap.isCooked, cap.nsamples, cap.nchan), cap.typ ++ '\n' :: more) := by
  have hspace (c : Char) (rest : List Char) (hc : (' ' :: rest).head? = some c) :
      c.isDigit = false := by
    obtain rfl := Option.some.inj hc
    decide
  have hskip (fmt rest : List Char) {c : Char} (hc : isSpace c = false) :
      spaces (' ' :: (c :: fmt ++ rest)) = c :: fmt ++ rest := by
    unfold spaces
    rw [List.dropWhile_cons_of_pos (by decide)]
    exact spaces_cons hc _
  rw [line_eq]
  simp only [List.append_assoc, List.cons_append, List.nil_append]
  have hfield (f : Char) (fmt rest : List Char) (hf : isSpace f = false) :
      lit (f :: fmt) (spaces (' ' :: (f :: fmt ++ rest))) = some rest := by
    rw [hskip fmt rest hf]
    exact lit_append (f :: fmt) rest
  exact scanNumbers_eq_some.mpr ⟨_, _, _, _, _, _, lit_append _ _,
    int_decimalText h.isCooked (hspace · _), hfield 'N' "SAMPLES=".toList _ (by decide),
    int_decimalText h.nsamples (hspace · _), hfield 'N' "CHAN=".toList _ (by decide),
    int_decimalText h.nchan (hspace · _), hfield 'T' "YPE=".toList _ (by decide)⟩

/-- What is scanned of the line that is written back. -/
theorem scan_line (h : cap.WellFormed) (stack : Nat → Char) :
    ∃ more, scan (tmpString stack cap.line) =
        ((word 7 (cap.typ ++ '\n' :: more)).map Prod.fst).map
          (withTyp (cap.isCooked, cap.nsamples, cap.nchan)) ∧
      (stack (clipLine cap.line.length) ≠ '\x00' → more = [stack (clipLine cap.line.length)]) := by
  have hlen := h.length_line
  have hclip : clipLine cap.line.length = cap.line.length := if_neg (by omega)
  have htaken : taken cap.line = cap.line := by
    rw [taken, hclip]
    exact List.take_of_length_le (Nat.le_refl _)
  have hnonul : '\x00' ∉ taken cap.line := by
    rw [htaken]
    exact h.no_nul
  have hstring := tmpString_of_not_mem stack hnonul
  rw [htaken] at hstring
  rw [hstring]
  split
  · rename_i hnul
    have hnumbers := scanNumbers_line h []
    rw [List.append_nil] at hnumbers
    exact ⟨[], scan_of_numbers hnumbers, fun hne => absurd hnul hne⟩
  · exact ⟨_, scan_of_numbers (scanNumbers_line h _), fun _ => rfl⟩

/-- A line goes back as it is exactly if it has a type. -/
theorem roundTrips_iff (h : cap.WellFormed) : RoundTrips cap ↔ cap.typ ≠ [] := by
  have hlen := h.length_line
  constructor
  · intro hall htyp
    -- the element behind the line is taken for the type
    have hback := (hall (fun _ => '\x00') (fun _ => 'x') lineSize (Nat.le_refl _)).2
    rw [ctrlReadFile_line h _ (Nat.le_refl _), (ctrlWriteFile_eq _ _ _).2.1] at hback
    obtain ⟨more, hscan, hmore⟩ := scan_line h fun _ => 'x'
    rw [hmore (by decide), htyp] at hscan
    have hword : (word 7 ([] ++ ['\n', 'x'])).map Prod.fst = some ['x'] := by decide
    rw [hword] at hscan
    rw [hscan] at hback
    have : ['x'] = cap.typ := congrArg CaptureData.typ hback
    rw [htyp] at this
    cases this
  · intro htyp stack stack' count hcount
    rw [ctrlReadFile_line h stack hcount]
    obtain ⟨more, hscan, -⟩ := scan_line h stack'
    rw [word_append htyp h.typ (fun c hc => (h.chars c hc).1) (by decide)] at hscan
    obtain ⟨hrc, hcap, -⟩ := ctrlWriteFile_eq cap stack' cap.line
    rw [hrc, hcap, hscan]
    exact ⟨congrArg Nat.cast (if_neg (by omega) : clipLine cap.line.length = _), rfl⟩

end back

/--
**The control file.**  In any sequence of writes, every one does what it is to do exactly if none
is one byte short of the line and each settles what is scanned of it; and the line that is read
then goes back as it is exactly if it has a type.
-/
theorem ctrlFiles_iff (ws : List ((Nat → Char) × List Char)) :
    ((∀ before w after, ws = before ++ w :: after → WritesWell (writes init before) w.2) ↔
      ∀ w ∈ ws, w.2.length ≠ lineSize - 1 ∧ Settled (taken w.2)) ∧
    (RoundTrips (writes init ws) ↔ (writes init ws).typ ≠ []) := by
  refine ⟨?_, roundTrips_iff (wellFormed_writes ws _ wellFormed_init)⟩
  constructor
  · intro h w hw
    obtain ⟨before, after, hsplit⟩ := List.append_of_mem hw
    exact (writesWell_iff _ _).mp (h before w after hsplit)
  · intro h before w after hsplit
    refine (writesWell_iff _ _).mpr (h w ?_)
    rw [hsplit]
    exact List.mem_append_right _ List.mem_cons_self

/-- A line that is one byte short, a line that ends in its type, and the line of `CAPDAT` before it
has been written. -/
theorem ctrlFiles_wrong :
    ¬WritesWell init (List.replicate 79 'x') ∧
      ¬WritesWell init "COOKED=1 NSAMPLES=1000 NCHAN=4 TYPE=int".toList ∧ ¬RoundTrips init := by
  refine ⟨fun h => ?_, fun h => ?_, fun h => ?_⟩
  · exact ((writesWell_iff _ _).mp h).1 (List.length_replicate ..)
  · have hsettled := ((writesWell_iff _ _).mp h).2
    rcases hsettled with hnul | hends
    · exact absurd hnul (by decide)
    · have hword := hends (1, 1000, 4) "int".toList (by decide)
      rcases hword with hlen | ⟨c, hc, hspace⟩
      · exact absurd hlen (by decide)
      · have hnone : (spaces "int".toList).any isSpace = false := by decide
        exact absurd (List.any_eq_false.mp hnone c hc) (not_not_intro hspace)
  · exact (roundTrips_iff wellFormed_init).mp h rfl

end CaptureData

end Acq400
