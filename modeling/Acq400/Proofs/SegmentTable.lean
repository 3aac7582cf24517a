/-
What becomes of the table of segments when a text is written to it.

`expand` says what the lines of a text stand for, as a list, line by line and up to the
first that is wrong.  `parse_user_segments` fills the table with just that list, from
the front.  Where all lines are right the list is the table; where one is wrong the length
stays, and the table with it if what the lines before have filled in was there already.
-/
import Acq400.Driver.AxiSegments
import Acq400.Lib.Memory
import Mathlib.Data.List.TakeWhile

namespace Acq400.SegmentTable

/-! ### What a text stands for -/

/-- What is wrong with a line. -/
inductive Fault where
  /-- An error that is returned. -/
  | error (e : Int)
  /-- It repeats what comes before the table. -/
  | before
deriving DecidableEq

/-- The mode that a character stands for. -/
def modeOf : Char → Option SegmentMode
  | '+' => some .store
  | '-' => some .dump
  | _ => none

theorem modeOf_eq_none {c : Char} (hstore : c ≠ '+') (hdump : c ≠ '-') : modeOf c = none := by
  unfold modeOf
  split
  · exact absurd rfl hstore
  · exact absurd rfl hdump
  · rfl

/-- What a line is. -/
inductive Line where
  | blank
  | loop (loopstart loopcount : Int)
  | segment (mode : SegmentMode) (nblocks : Nat)
  | badMode
  | badSpec

/-- What the line is taken for. -/
def lineOf (line : List Char) : Line :=
  if line = [] ∨ line.head? = some '#' then .blank
  else
    match sscanfLoop line with
    | some (loopstart, loopcount) => .loop loopstart loopcount
    | none =>
      match sscanfSegment line with
      | some (skipOrStore, blocks) =>
        match modeOf skipOrStore with
        | some mode => .segment mode (blocks % 65536).toNat
        | none => .badMode
      | none => .badSpec

/-- `n` copies of the entries from `loopstart` on, as far as there is room. -/
def repeated (entries : List AxiSegment) (loopstart n : Nat) : List AxiSegment :=
  (entries ++ (List.replicate n (entries.drop loopstart)).flatten).take maxSegments

/-- What a line makes of the entries before it. -/
def expandLine (entries : List AxiSegment) (line : List Char) : Except Fault (List AxiSegment) :=
  match lineOf line with
  | .blank => .ok entries
  | .loop loopstart loopcount =>
    if (entries.length : Int) ≤ loopstart then .error (.error einval)
    else if loopstart < 0 ∧ 0 < loopcount ∧ entries.length < maxSegments then .error .before
    else .ok (repeated entries loopstart.toNat loopcount.toNat)
  | .segment mode nblocks =>
    if entries.length < maxSegments then .ok (entries ++ [⟨mode, nblocks⟩])
    else .error (.error enospc)
  | .badMode => .error (.error (if entries.length < maxSegments then einval else enospc))
  | .badSpec => .error (.error einval)

/-- The entries of the lines before the first that is wrong, and what is wrong with that. -/
def expand : List (List Char) → List AxiSegment → List AxiSegment × Option Fault
  | [], entries => (entries, none)
  | line :: rest, entries =>
    match expandLine entries line with
    | .ok entries => expand rest entries
    | .error fault => (entries, some fault)

theorem parseLines_cons (line : List Char) (rest : List (List Char))
    (segments : Nat → AxiSegment) (iseg : Nat) :
    parseLines (line :: rest) segments iseg =
      match lineOf line with
      | .blank => parseLines rest segments iseg
      | .loop loopstart loopcount =>
        if (iseg : Int) ≤ loopstart then some (segments, .error einval)
        else (addLoop segments iseg loopstart loopcount).bind fun r => parseLines rest r.1 r.2
      | .segment mode nblocks =>
        if iseg < maxSegments then
          parseLines rest (Function.update segments iseg ⟨mode, nblocks⟩) (iseg + 1)
        else some (segments, .error enospc)
      | .badMode => some (segments, .error (if iseg < maxSegments then einval else enospc))
      | .badSpec => some (segments, .error einval) := by
  rw [parseLines, lineOf]
  by_cases hblank : line = [] ∨ line.head? = some '#'
  · rw [if_pos hblank, if_pos hblank]
  · rw [if_neg hblank, if_neg hblank]
    cases sscanfLoop line with
    | some loop =>
        dsimp only
        cases addLoop segments iseg loop.1 loop.2 <;> rfl
    | none =>
        cases sscanfSegment line with
        | none => rfl
        | some seg =>
            obtain ⟨skipOrStore, blocks⟩ := seg
            dsimp only
            by_cases hstore : skipOrStore = '+'
            · subst hstore
              rfl
            · by_cases hdump : skipOrStore = '-'
              · subst hdump
                rfl
              · rw [modeOf_eq_none hstore hdump]
                split
                · simp
                · rfl

/-! ### Loops -/

variable {before segments : Nat → AxiSegment} {entries list : List AxiSegment}

/-- One pass appends the entries that it goes through, until the table is full. -/
theorem addLoopPass_spec : ∀ (left : Nat) {segments : Nat → AxiSegment} {list : List AxiSegment},
    left ≤ entries.length → entries <+: list → list.length ≤ maxSegments →
    Filled before segments list →
    ∃ segments', addLoopPass entries.length left segments list.length =
        (decide (maxSegments < (list ++ entries.drop (entries.length - left)).length), segments',
          ((list ++ entries.drop (entries.length - left)).take maxSegments).length) ∧
      Filled before segments'
        ((list ++ entries.drop (entries.length - left)).take maxSegments) := by
  intro left
  induction left with
  | zero =>
      intro segments list _ _ hroom hfilled
      refine ⟨segments, ?_⟩
      rw [Nat.sub_zero, List.drop_length, List.append_nil, List.take_of_length_le hroom,
        decide_eq_false (by omega)]
      exact ⟨rfl, hfilled⟩
  | succ left ih =>
      intro segments list hleft hpre hroom hfilled
      have hlt : entries.length - (left + 1) < entries.length := by omega
      have hdrop : entries.drop (entries.length - (left + 1)) =
          entries[entries.length - (left + 1)] :: entries.drop (entries.length - left) := by
        rw [List.drop_eq_getElem_cons hlt]
        congr 2
        omega
      rw [addLoopPass]
      by_cases hfull : maxSegments ≤ list.length
      · refine ⟨segments, ?_⟩
        have htake :
            (list ++ entries.drop (entries.length - (left + 1))).take maxSegments = list := by
          rw [List.take_append_of_le_length hfull, List.take_of_length_le hroom]
        have hmore : maxSegments < (list ++ entries.drop (entries.length - (left + 1))).length := by
          rw [hdrop, List.length_append, List.length_cons]
          omega
        rw [if_pos hfull, htake, decide_eq_true hmore]
        exact ⟨rfl, hfilled⟩
      · -- the entry that is read has been there from the first
        have hget : list[entries.length - (left + 1)]? =
            some entries[entries.length - (left + 1)] := by
          obtain ⟨added, rfl⟩ := hpre
          rw [List.getElem?_append_left hlt, List.getElem?_eq_getElem hlt]
        have hread := hfilled.holds _ _ hget
        have hon := ih (by omega) (hpre.trans (List.prefix_append list _))
          (by rw [List.length_append, List.length_singleton]; omega)
          (hfilled.push entries[entries.length - (left + 1)])
        rw [List.length_append, List.length_singleton] at hon
        rw [if_neg hfull, hdrop, List.append_cons]
        dsimp only
        rw [hread]
        exact hon

theorem addLoopPasses_spec {loopstart : Nat} (hstart : loopstart ≤ entries.length) :
    ∀ (n : Nat) {segments : Nat → AxiSegment} {list : List AxiSegment},
    entries <+: list → list.length ≤ maxSegments → Filled before segments list →
    ∃ segments', addLoopPasses entries.length loopstart n segments list.length =
        (segments', ((list ++ (List.replicate n (entries.drop loopstart)).flatten).take
          maxSegments).length) ∧
      Filled before segments'
        ((list ++ (List.replicate n (entries.drop loopstart)).flatten).take maxSegments) := by
  intro n
  induction n with
  | zero =>
      intro segments list _ hroom hfilled
      refine ⟨segments, ?_⟩
      rw [List.replicate_zero, List.flatten_nil, List.append_nil, List.take_of_length_le hroom]
      exact ⟨rfl, hfilled⟩
  | succ n ih =>
      intro segments list hpre hroom hfilled
      obtain ⟨segments', hpass, hfilled'⟩ :=
        addLoopPass_spec (entries.length - loopstart) (Nat.sub_le _ _) hpre hroom hfilled
      rw [Nat.sub_sub_self hstart] at hpass hfilled'
      rw [addLoopPasses, hpass, List.replicate_succ, List.flatten_cons, ← List.append_assoc]
      by_cases hfull : maxSegments < (list ++ entries.drop loopstart).length
      · refine ⟨segments', ?_⟩
        rw [decide_eq_true hfull, List.take_append_of_le_length (Nat.le_of_lt hfull)]
        exact ⟨rfl, hfilled'⟩
      · have hle : (list ++ entries.drop loopstart).length ≤ maxSegments := Nat.le_of_not_lt hfull
        rw [List.take_of_length_le hle] at hfilled' ⊢
        rw [decide_eq_false hfull]
        exact ih (hpre.trans (List.prefix_append list _)) hle hfilled'

theorem repeated_length_le (loopstart n : Nat) :
    (repeated entries loopstart n).length ≤ maxSegments := by
  unfold repeated
  rw [List.length_take]
  exact Nat.min_le_left _ _

/-- A loop from within the table appends the copies, and one from before it is not done. -/
theorem addLoop_spec {loopstart loopcount : Int} (hstart : loopstart < entries.length)
    (hroom : entries.length ≤ maxSegments) (hfilled : Filled before segments entries)
    (hinside : ¬ (loopstart < 0 ∧ 0 < loopcount ∧ entries.length < maxSegments)) :
    ∃ segments', addLoop segments entries.length loopstart loopcount =
        some (segments', (repeated entries loopstart.toNat loopcount.toNat).length) ∧
      Filled before segments' (repeated entries loopstart.toNat loopcount.toNat) := by
  have hle : loopstart.toNat ≤ entries.length := by omega
  obtain ⟨segments', hpasses, hfilled'⟩ :=
    addLoopPasses_spec hle loopcount.toNat (List.prefix_refl entries) hroom hfilled
  refine ⟨segments', ?_, hfilled'⟩
  unfold addLoop repeated
  rw [if_neg hinside, hpasses]

/-! ### The text -/

/-- What the parser has done is what the lines stand for. -/
def Parsed (before : Nat → AxiSegment) (r : Option ((Nat → AxiSegment) × Except Int Nat)) :
    List AxiSegment × Option Fault → Prop
  | (entries, none) =>
    ∃ segments, r = some (segments, .ok entries.length) ∧ Filled before segments entries
  | (entries, some (.error e)) =>
    ∃ segments, r = some (segments, .error e) ∧ Filled before segments entries
  | (_, some .before) => r = none

theorem parseLines_spec (lines : List (List Char)) : ∀ {segments : Nat → AxiSegment}
    {entries : List AxiSegment}, entries.length ≤ maxSegments → Filled before segments entries →
    Parsed before (parseLines lines segments entries.length) (expand lines entries) := by
  induction lines with
  | nil =>
      intro segments entries _ hfilled
      exact ⟨segments, rfl, hfilled⟩
  | cons line rest ih =>
      intro segments entries hroom hfilled
      rw [parseLines_cons, expand, expandLine]
      cases lineOf line with
      | blank => exact ih hroom hfilled
      | loop loopstart loopcount =>
          dsimp only
          by_cases hlate : (entries.length : Int) ≤ loopstart
          · rw [if_pos hlate, if_pos hlate]
            exact ⟨segments, rfl, hfilled⟩
          · rw [if_neg hlate, if_neg hlate]
            by_cases hbefore : loopstart < 0 ∧ 0 < loopcount ∧ entries.length < maxSegments
            · rw [if_pos hbefore, addLoop, if_pos hbefore]
              rfl
            · obtain ⟨segments', hadd, hfilled'⟩ :=
                addLoop_spec (by omega) hroom hfilled hbefore
              rw [if_neg hbefore, hadd]
              exact ih (repeated_length_le _ _) hfilled'
      | segment mode nblocks =>
          dsimp only
          by_cases hspace : entries.length < maxSegments
          · rw [if_pos hspace, if_pos hspace]
            have hlength : (entries ++ [(⟨mode, nblocks⟩ : AxiSegment)]).length =
                entries.length + 1 := List.length_append
            have hon := ih (Nat.le_trans (Nat.le_of_eq hlength) hspace)
              (hfilled.push ⟨mode, nblocks⟩)
            rw [hlength] at hon
            exact hon
          · rw [if_neg hspace, if_neg hspace]
            exact ⟨segments, rfl, hfilled⟩
      | badMode => exact ⟨segments, rfl, hfilled⟩
      | badSpec => exact ⟨segments, rfl, hfilled⟩

theorem expandLine_error {line : List Char} {e : Int}
    (h : expandLine entries line = .error (.error e)) : e = einval ∨ e = enospc := by
  unfold expandLine at h
  cases hline : lineOf line with
  | blank =>
      rw [hline] at h
      cases h
  | loop loopstart loopcount =>
      rw [hline] at h
      dsimp only at h
      split at h
      · cases h
        exact Or.inl rfl
      · split at h <;> cases h
  | segment mode nblocks =>
      rw [hline] at h
      dsimp only at h
      split at h
      · cases h
      · cases h
        exact Or.inr rfl
  | badMode =>
      rw [hline] at h
      cases h
      split
      · exact Or.inl rfl
      · exact Or.inr rfl
  | badSpec =>
      rw [hline] at h
      cases h
      exact Or.inl rfl

theorem expand_error_pos (lines : List (List Char)) : ∀ {entries : List AxiSegment} {e : Int},
    (expand lines entries).2 = some (.error e) → 0 < e := by
  induction lines with
  | nil =>
      intro entries e h
      cases h
  | cons line rest ih =>
      intro entries e h
      unfold expand at h
      split at h
      · exact ih h
      · rename_i fault hline
        obtain rfl := Option.some.inj h
        rcases expandLine_error hline with rfl | rfl <;> decide

/-- An error leaves the table in use as it was, and without one the table is what the lines
stand for. -/
def WriteRight (s : SegmentTable) (buffer : List Char) : Prop :=
  ∃ s' rc, s.procSegmentsWrite buffer = some (s', rc) ∧
    (rc < 0 → s'.segmentCursor = s.segmentCursor ∧ s'.table = s.table) ∧
    (0 ≤ rc → expand (lines buffer) [] = (s'.table, none))

/-- No loop begins before the table, and the lines before one that is wrong stand for nothing
but what is in the table. -/
def Unchanging (s : SegmentTable) (buffer : List Char) : Prop :=
  match expand (lines buffer) [] with
  | (_, none) => True
  | (entries, some (.error _)) =>
    ∀ i < s.segmentCursor, ∀ a, entries[i]? = some a → s.segments i = a
  | (_, some .before) => False

/-- **An error leaves the table as it was exactly if the lines before it say nothing new.** -/
theorem writeRight_iff (s : SegmentTable) (buffer : List Char) :
    WriteRight s buffer ↔
      maxSegments * segdefLen < buffer.length ∨ Unchanging s buffer := by
  unfold WriteRight procSegmentsWrite
  by_cases hlong : maxSegments * segdefLen < buffer.length
  · refine iff_of_true ⟨s, -efbig, if_pos hlong, ?_, ?_⟩ (Or.inl hlong)
    · intro _
      exact ⟨rfl, rfl⟩
    · intro hpos
      exact absurd hpos (by decide)
  · have hparsed : Parsed s.segments (parseLines (lines buffer) s.segments 0)
        (expand (lines buffer) []) :=
      parseLines_spec (lines buffer) (Nat.zero_le _) (Filled.nil s.segments)
    have hpos : ∀ {e : Int}, (expand (lines buffer) []).2 = some (.error e) → 0 < e :=
      expand_error_pos (lines buffer)
    rw [if_neg hlong, or_iff_right hlong]
    unfold Unchanging parseUserSegments
    generalize expand (lines buffer) [] = expanded at hparsed hpos ⊢
    obtain ⟨entries, fault⟩ := expanded
    match fault with
    | none =>
        obtain ⟨segments, hparse, hfilled⟩ := hparsed
        refine iff_of_true ⟨⟨segments, entries.length⟩, buffer.length, ?_, ?_, ?_⟩ trivial
        · rw [hparse]
          rfl
        · intro hneg
          omega
        · intro _
          exact congrArg (·, none) hfilled.map_range.symm
    | some (.error e) =>
        obtain ⟨segments, hparse, hfilled⟩ := hparsed
        have hpos := hpos rfl
        rw [hparse]
        constructor
        · rintro ⟨s', rc, hwrite, herror, -⟩
          cases hwrite
          exact (hfilled.map_range_eq_iff s.segmentCursor).mp (herror (by omega)).2
        · intro hsame
          refine ⟨{ s with segments }, -e, rfl, ?_, ?_⟩
          · intro _
            exact ⟨rfl, (hfilled.map_range_eq_iff s.segmentCursor).mpr hsame⟩
          · intro hneg
            omega
    | some .before =>
        have hparse : parseLines (lines buffer) s.segments 0 = none := hparsed
        refine iff_of_false ?_ id
        rintro ⟨s', rc, hwrite, -⟩
        rw [hparse] at hwrite
        cases hwrite

/-- A table with five blocks to store. -/
def storeFive : SegmentTable where
  segments := fun _ => ⟨.store, 5⟩
  segmentCursor := 1

/-- `"+7\n*1"` is an error in the second line, and leaves seven blocks to store. -/
theorem storeFive_seven : ¬ WriteRight storeFive ['+', '7', '\n', '*', '1'] := by
  rintro ⟨s', rc, hwrite, herror, -⟩
  have htable : (storeFive.procSegmentsWrite ['+', '7', '\n', '*', '1']).map
      (fun r => (r.1.table, r.2)) = some ([⟨.store, 7⟩], -22) := by decide
  rw [hwrite] at htable
  obtain ⟨hs', hrc⟩ := Prod.mk.inj (Option.some.inj htable)
  obtain ⟨-, hsame⟩ := herror (by rw [show rc = -22 from hrc]; decide)
  exact absurd (hs'.symm.trans hsame) (by decide)

end Acq400.SegmentTable

/-! ### What is read and written

No segment outside the table is come to, but for what a loop before it repeats.

A loop comes to the entries from its start on and to those behind the last, of which there
is room for as many as are written.  So each segment that is written is come to twice, which
also says that the parser ends.  Only where a loop begins is not looked at.
-/

namespace Acq400.SegmentTable

variable {iseg seg : Nat} {loopstart loopcount : Int}

/-- The index of a segment of the table. -/
def InTable (a : Int) : Prop := 0 ≤ a ∧ a < maxSegments

/-! ### Loops -/

theorem passAccesses_length (iseg left : Nat) (hseg : seg ≤ maxSegments) :
    (passAccesses iseg left seg).2.1.length + 2 * seg = 2 * (passAccesses iseg left seg).2.2 ∧
      (passAccesses iseg left seg).2.2 ≤ maxSegments := by
  induction left generalizing seg with
  | zero => exact ⟨Nat.zero_add _, hseg⟩
  | succ left ih =>
      unfold passAccesses
      split
      · exact ⟨Nat.zero_add _, hseg⟩
      · obtain ⟨hlength, hle⟩ := ih (show seg + 1 ≤ maxSegments by omega)
        refine ⟨?_, hle⟩
        show (passAccesses iseg left (seg + 1)).2.1.length + 1 + 1 + 2 * seg =
          2 * (passAccesses iseg left (seg + 1)).2.2
        omega

theorem passesAccesses_length (iloop : Nat) (hseg : seg ≤ maxSegments) :
    (passesAccesses iseg loopstart iloop seg).1.length + 2 * seg =
        2 * (passesAccesses iseg loopstart iloop seg).2 ∧
      (passesAccesses iseg loopstart iloop seg).2 ≤ maxSegments := by
  induction iloop generalizing seg with
  | zero => exact ⟨Nat.zero_add _, hseg⟩
  | succ iloop ih =>
      obtain ⟨hlength, hle⟩ := passAccesses_length iseg (iseg - loopstart).toNat hseg
      unfold passesAccesses
      split
      · rename_i hpass
        rw [hpass] at hlength hle
        exact ⟨hlength, hle⟩
      · rename_i accesses seg' hpass
        rw [hpass] at hlength hle
        dsimp only at hlength hle
        obtain ⟨hlength', hle'⟩ := ih hle
        refine ⟨?_, hle'⟩
        show (accesses ++ (passesAccesses iseg loopstart iloop seg').1).length + 2 * seg =
          2 * (passesAccesses iseg loopstart iloop seg').2
        rw [List.length_append]
        omega

theorem passAccesses_inTable {left : Nat} (hleft : left ≤ iseg) (hiseg : iseg ≤ maxSegments) :
    ∀ a ∈ (passAccesses iseg left seg).2.1, InTable a := by
  induction left generalizing seg with
  | zero =>
      intro a ha
      cases ha
  | succ left ih =>
      unfold passAccesses
      split
      · intro a ha
        cases ha
      · simp only [List.mem_cons]
        rintro a (rfl | rfl | ha)
        · unfold InTable
          omega
        · unfold InTable
          omega
        · exact ih (by omega) a ha

theorem passesAccesses_inTable (hstart : 0 ≤ loopstart) (hiseg : iseg ≤ maxSegments)
    (iloop : Nat) : ∀ a ∈ (passesAccesses iseg loopstart iloop seg).1, InTable a := by
  induction iloop generalizing seg with
  | zero =>
      intro a ha
      cases ha
  | succ iloop ih =>
      have hpass : ∀ a ∈ (passAccesses iseg (iseg - loopstart).toNat seg).2.1, InTable a :=
        passAccesses_inTable (by omega) hiseg
      unfold passesAccesses
      split
      · rename_i heq
        rw [heq] at hpass
        exact hpass
      · rename_i heq
        rw [heq] at hpass
        intro a ha
        rcases List.mem_append.mp ha with ha | ha
        · exact hpass a ha
        · exact ih a ha

theorem passAccesses_eq (iseg left seg : Nat) (segments : Nat → AxiSegment) :
    (passAccesses iseg left seg).1 = (addLoopPass iseg left segments seg).1 ∧
      (passAccesses iseg left seg).2.2 = (addLoopPass iseg left segments seg).2.2 := by
  induction left generalizing seg segments with
  | zero => exact ⟨rfl, rfl⟩
  | succ left ih =>
      unfold passAccesses addLoopPass
      split
      · exact ⟨rfl, rfl⟩
      · exact ih _ _

theorem passesAccesses_eq (hstart : 0 ≤ loopstart) (iloop : Nat) (segments : Nat → AxiSegment) :
    (passesAccesses iseg loopstart iloop seg).2 =
      (addLoopPasses iseg loopstart.toNat iloop segments seg).2 := by
  induction iloop generalizing seg segments with
  | zero => rfl
  | succ iloop ih =>
      have hleft : (iseg - loopstart).toNat = iseg - loopstart.toNat := by omega
      obtain ⟨hfull, hseg⟩ :=
        passAccesses_eq iseg (iseg - loopstart.toNat) seg segments
      unfold passesAccesses addLoopPasses
      rw [hleft]
      generalize passAccesses iseg (iseg - loopstart.toNat) seg = r at hfull hseg ⊢
      generalize addLoopPass iseg (iseg - loopstart.toNat) segments seg = r' at hfull hseg ⊢
      obtain ⟨full, accesses, seg1⟩ := r
      obtain ⟨full', segments', seg1'⟩ := r'
      cases hfull
      cases hseg
      cases full with
      | true => rfl
      | false => exact ih segments'

theorem passesAccesses_full (hfull : maxSegments ≤ iseg) (hlate : loopstart < iseg)
    (iloop : Nat) : passesAccesses iseg loopstart iloop iseg = ([], iseg) := by
  cases iloop with
  | zero => rfl
  | succ iloop =>
      obtain ⟨left, hleft⟩ : ∃ left, (iseg - loopstart).toNat = left + 1 :=
        ⟨(iseg - loopstart).toNat - 1, by omega⟩
      unfold passesAccesses
      rw [hleft, passAccesses, if_pos hfull]

theorem addLoopPasses_full {loopstart : Nat} (hfull : maxSegments ≤ iseg)
    (hlate : loopstart < iseg) (iloop : Nat) (segments : Nat → AxiSegment) :
    addLoopPasses iseg loopstart iloop segments iseg = (segments, iseg) := by
  cases iloop with
  | zero => rfl
  | succ iloop =>
      obtain ⟨left, hleft⟩ : ∃ left, iseg - loopstart = left + 1 :=
        ⟨iseg - loopstart - 1, by omega⟩
      unfold addLoopPasses
      rw [hleft, addLoopPass, if_pos hfull]

theorem addLoopAccesses_inside (hlate : loopstart < iseg) (hiseg : iseg ≤ maxSegments)
    (hinside : ¬ (loopstart < 0 ∧ 0 < loopcount ∧ iseg < maxSegments))
    (segments : Nat → AxiSegment) :
    (∀ a ∈ (addLoopAccesses iseg loopstart loopcount).1, InTable a) ∧
      ∃ segments', addLoop segments iseg loopstart loopcount =
        some (segments', (addLoopAccesses iseg loopstart loopcount).2) := by
  unfold addLoop addLoopAccesses
  rw [if_neg hinside]
  rcases Int.lt_or_le loopstart 0 with hneg | hstart
  · rcases Int.lt_or_le 0 loopcount with hpos | hnone
    · have hfull : maxSegments ≤ iseg := by omega
      have hroom : 0 < maxSegments := by decide
      rw [passesAccesses_full hfull hlate, addLoopPasses_full hfull (by omega)]
      refine ⟨?_, segments, rfl⟩
      intro a ha
      cases ha
    · rw [Int.toNat_of_nonpos hnone]
      refine ⟨?_, segments, rfl⟩
      intro a ha
      cases ha
  · refine ⟨passesAccesses_inTable hstart hiseg _,
      (addLoopPasses iseg loopstart.toNat loopcount.toNat segments iseg).1, ?_⟩
    rw [passesAccesses_eq hstart]

theorem addLoopAccesses_before (hstart : loopstart < 0) (hcount : 0 < loopcount)
    (hiseg : iseg < maxSegments) : loopstart ∈ (addLoopAccesses iseg loopstart loopcount).1 := by
  obtain ⟨iloop, hiloop⟩ : ∃ iloop, loopcount.toNat = iloop + 1 :=
    ⟨loopcount.toNat - 1, by omega⟩
  obtain ⟨left, hleft⟩ : ∃ left, (iseg - loopstart).toNat = left + 1 :=
    ⟨(iseg - loopstart).toNat - 1, by omega⟩
  have hfirst : loopstart ∈ (passAccesses iseg (iseg - loopstart).toNat iseg).2.1 := by
    rw [hleft, passAccesses, if_neg (by omega)]
    refine List.mem_cons.mpr (Or.inl ?_)
    omega
  unfold addLoopAccesses
  rw [hiloop, passesAccesses]
  split
  · rename_i hpass
    rw [hpass] at hfirst
    exact hfirst
  · rename_i hpass
    rw [hpass] at hfirst
    exact List.mem_append_left _ hfirst

/-! ### Lines -/

/-- What the lines come to. -/
def linesAccesses : List (List Char) → Nat → List Int
  | [], _ => []
  | line :: rest, iseg =>
    match lineAccesses line iseg with
    | (accesses, none) => accesses
    | (accesses, some iseg) => accesses ++ linesAccesses rest iseg

theorem lineAccesses_eq (line : List Char) (iseg : Nat) :
    lineAccesses line iseg =
      match lineOf line with
      | .blank => ([], some iseg)
      | .loop loopstart loopcount =>
        if (iseg : Int) ≤ loopstart then ([], none)
        else ((addLoopAccesses iseg loopstart loopcount).1,
          some (addLoopAccesses iseg loopstart loopcount).2)
      | .segment _ _ =>
        if iseg < maxSegments then ([(iseg : Int), (iseg : Int)], some (iseg + 1)) else ([], none)
      | .badMode => ([], none)
      | .badSpec => ([], none) := by
  rw [lineAccesses, lineOf]
  by_cases hblank : line = [] ∨ line.head? = some '#'
  · rw [if_pos hblank, if_pos hblank]
  · rw [if_neg hblank, if_neg hblank]
    cases sscanfLoop line with
    | some loop => rfl
    | none =>
        cases sscanfSegment line with
        | none => rfl
        | some seg =>
            obtain ⟨skipOrStore, blocks⟩ := seg
            dsimp only
            by_cases hstore : skipOrStore = '+'
            · subst hstore
              rfl
            · by_cases hdump : skipOrStore = '-'
              · subst hdump
                rfl
              · rw [modeOf_eq_none hstore hdump]
                split
                · simp
                · rfl

/-- A line that is taken has come twice to each segment that it has written, and one that is
not to none. -/
theorem lineAccesses_length (line : List Char) (hiseg : iseg ≤ maxSegments) :
    ((lineAccesses line iseg).2 = none → (lineAccesses line iseg).1 = []) ∧
      ∀ iseg', (lineAccesses line iseg).2 = some iseg' →
        (lineAccesses line iseg).1.length + 2 * iseg = 2 * iseg' ∧ iseg' ≤ maxSegments := by
  rw [lineAccesses_eq]
  cases lineOf line with
  | blank =>
      refine ⟨fun h => (nomatch h), ?_⟩
      intro iseg' h
      obtain rfl := Option.some.inj h
      exact ⟨Nat.zero_add _, hiseg⟩
  | loop loopstart loopcount =>
      dsimp only
      split
      · exact ⟨fun _ => rfl, fun iseg' h => (nomatch h)⟩
      · refine ⟨fun h => (nomatch h), ?_⟩
        intro iseg' h
        obtain rfl := Option.some.inj h
        exact passesAccesses_length _ hiseg
  | segment mode nblocks =>
      dsimp only
      split
      · rename_i hspace
        refine ⟨fun h => (nomatch h), ?_⟩
        intro iseg' h
        obtain rfl := Option.some.inj h
        refine ⟨?_, hspace⟩
        rw [List.length_cons, List.length_singleton]
        omega
      · exact ⟨fun _ => rfl, fun iseg' h => (nomatch h)⟩
  | badMode => exact ⟨fun _ => rfl, fun iseg' h => (nomatch h)⟩
  | badSpec => exact ⟨fun _ => rfl, fun iseg' h => (nomatch h)⟩

theorem linesAccesses_length (lines : List (List Char)) (hiseg : iseg ≤ maxSegments) :
    (linesAccesses lines iseg).length + 2 * iseg ≤ 2 * maxSegments := by
  induction lines generalizing iseg with
  | nil =>
      rw [linesAccesses, List.length_nil]
      omega
  | cons line rest ih =>
      obtain ⟨hnone, hsome⟩ := lineAccesses_length line hiseg
      unfold linesAccesses
      split
      · rename_i accesses hline
        rw [hline] at hnone
        obtain rfl : accesses = [] := hnone rfl
        rw [List.length_nil]
        omega
      · rename_i accesses iseg' hline
        rw [hline] at hsome
        obtain ⟨hlength, hle⟩ := hsome iseg' rfl
        have hrest := ih hle
        rw [List.length_append]
        dsimp only at hlength
        omega

/-- The line comes to what is not in the table, and the model has no value for it. -/
def Strays (line : List Char) (iseg : Nat) (segments : Nat → AxiSegment) : Prop :=
  (∃ a ∈ (lineAccesses line iseg).1, ¬ InTable a) ∧
    ∀ rest, parseLines (line :: rest) segments iseg = none

/-- The line stays in the table, and does what it does in the model. -/
def Stays (line : List Char) (iseg : Nat) (segments : Nat → AxiSegment) : Prop :=
  (∀ a ∈ (lineAccesses line iseg).1, InTable a) ∧
    match (lineAccesses line iseg).2 with
    | none => ∀ rest, ∃ r, parseLines (line :: rest) segments iseg = some r
    | some iseg' =>
      ∃ segments', ∀ rest, parseLines (line :: rest) segments iseg =
        parseLines rest segments' iseg'

theorem strays_or_stays (line : List Char) (hiseg : iseg ≤ maxSegments)
    (segments : Nat → AxiSegment) : Strays line iseg segments ∨ Stays line iseg segments := by
  have hnone : ∀ a ∈ ([] : List Int), InTable a := by
    intro a ha
    cases ha
  unfold Strays Stays
  simp only [lineAccesses_eq, parseLines_cons]
  cases lineOf line with
  | blank => exact Or.inr ⟨hnone, segments, fun rest => rfl⟩
  | loop loopstart loopcount =>
      dsimp only
      by_cases hlate : (iseg : Int) ≤ loopstart
      · simp only [if_pos hlate]
        exact Or.inr ⟨hnone, fun rest => ⟨_, rfl⟩⟩
      · simp only [if_neg hlate]
        by_cases hbefore : loopstart < 0 ∧ 0 < loopcount ∧ iseg < maxSegments
        · obtain ⟨hneg, hpos, hspace⟩ := hbefore
          refine Or.inl ⟨⟨loopstart, addLoopAccesses_before hneg hpos hspace, ?_⟩, ?_⟩
          · intro hin
            exact absurd hin.1 (by omega)
          · intro rest
            rw [addLoop, if_pos ⟨hneg, hpos, hspace⟩, Option.bind_none]
        · obtain ⟨hin, segments', hadd⟩ :=
            addLoopAccesses_inside (by omega) hiseg hbefore segments
          refine Or.inr ⟨hin, segments', ?_⟩
          intro rest
          rw [hadd, Option.bind_some]
  | segment mode nblocks =>
      dsimp only
      by_cases hspace : iseg < maxSegments
      · simp only [if_pos hspace]
        refine Or.inr ⟨?_, _, fun rest => rfl⟩
        intro a ha
        obtain rfl : a = iseg := by simpa using ha
        unfold InTable
        omega
      · simp only [if_neg hspace]
        exact Or.inr ⟨hnone, fun rest => ⟨_, rfl⟩⟩
  | badMode => exact Or.inr ⟨hnone, fun rest => ⟨_, rfl⟩⟩
  | badSpec => exact Or.inr ⟨hnone, fun rest => ⟨_, rfl⟩⟩

/-- All that the lines come to is in the table exactly if the model has a value for them. -/
theorem linesAccesses_inTable_iff (lines : List (List Char)) {segments : Nat → AxiSegment}
    (hiseg : iseg ≤ maxSegments) :
    (∀ a ∈ linesAccesses lines iseg, InTable a) ↔ parseLines lines segments iseg ≠ none := by
  induction lines generalizing iseg segments with
  | nil =>
      refine iff_of_true ?_ ?_
      · intro a ha
        cases ha
      · intro h
        cases h
  | cons line rest ih =>
      have hle := (lineAccesses_length line hiseg).2
      have hsub : ∀ a ∈ (lineAccesses line iseg).1, a ∈ linesAccesses (line :: rest) iseg := by
        intro a ha
        unfold linesAccesses
        split
        · rename_i hline
          rw [hline] at ha
          exact ha
        · rename_i hline
          rw [hline] at ha
          exact List.mem_append_left _ ha
      rcases strays_or_stays line hiseg segments with ⟨⟨a, ha, hout⟩, hparse⟩ | ⟨hin, hparse⟩
      · refine iff_of_false ?_ ?_
        · intro hall
          exact hout (hall a (hsub a ha))
        · intro hne
          exact hne (hparse rest)
      · unfold linesAccesses
        split
        · rename_i accesses hline
          rw [hline] at hin hparse
          obtain ⟨r, hr⟩ := hparse rest
          rw [hr]
          exact iff_of_true hin (by rintro ⟨⟩)
        · rename_i accesses iseg' hline
          rw [hline] at hin hparse hle
          obtain ⟨segments', hrest⟩ := hparse
          rw [hrest rest, ← ih (hle iseg' rfl).2, List.forall_mem_append]
          exact and_iff_right hin

/-! ### The text -/

theorem inLine_eq_false_iff {c : Char} : inLine c = false ↔ (c = '\n' || c = '\x00') = true := by
  unfold inLine
  rw [Bool.not_eq_false']

theorem lines_eq (cursor : List Char) :
    lines cursor = cursor.takeWhile inLine ::
      if cursor.dropWhile inLine = [] then [] else lines ((cursor.dropWhile inLine).drop 1) := by
  have hline : ∀ c ∈ cursor.takeWhile inLine, (c = '\n' || c = '\x00') = false := by
    intro c hc
    have hin := List.mem_takeWhile_imp hc
    unfold inLine at hin
    rw [Bool.not_eq_true'] at hin
    exact hin
  have htext := List.takeWhile_append_dropWhile (p := inLine) (l := cursor)
  cases hdrop : cursor.dropWhile inLine with
  | nil =>
      rw [hdrop, List.append_nil] at htext
      rw [if_pos rfl, htext]
      rw [htext] at hline
      exact List.splitOnP_eq_singleton hline
  | cons c rest =>
      have hend : inLine c = false := by
        have hne : cursor.dropWhile inLine ≠ [] := by
          rw [hdrop]
          exact List.cons_ne_nil c rest
        have hhead := List.head_dropWhile_not inLine hne
        simp only [hdrop, List.head_cons] at hhead
        exact hhead
      rw [if_neg (List.cons_ne_nil c rest), List.drop_one, List.tail_cons]
      conv_lhs => rw [← htext, hdrop]
      exact List.splitOnP_append_cons_of_forall_mem hline c (inLine_eq_false_iff.mp hend) rest

theorem textAccesses_eq {fuel : Nat} : ∀ {cursor : List Char} {iseg : Nat},
    cursor.length < fuel →
    textAccesses fuel cursor iseg = some (linesAccesses (lines cursor) iseg) := by
  induction fuel with
  | zero =>
      intro cursor iseg hfuel
      omega
  | succ fuel ih =>
      intro cursor iseg hfuel
      unfold textAccesses
      by_cases hend : cursor = []
      · subst hend
        rfl
      · rw [if_neg hend, lines_eq, linesAccesses]
        have hdrop : ((cursor.dropWhile inLine).drop 1).length < fuel := by
          have hpos : 0 < cursor.length := List.length_pos_iff.mpr hend
          have hle := (List.dropWhile_sublist inLine (l := cursor)).length_le
          rw [List.length_drop]
          omega
        generalize lineAccesses (cursor.takeWhile inLine) iseg = turn
        obtain ⟨accesses, iseg'⟩ := turn
        cases iseg' with
        | none => rfl
        | some iseg' =>
            dsimp only
            rw [ih hdrop, Option.map_some]
            split
            · rename_i hlast
              rw [hlast]
              rfl
            · rfl

/-- The parser ends, with a turn for each character at most, and every segment that it has come
to is in the table. -/
def AccessesRight (text : List Char) : Prop :=
  ∃ accesses, textAccesses (text.length + 1) text 0 = some accesses ∧
    ∀ a ∈ accesses, InTable a

theorem parseLines_eq_none_iff (segments : Nat → AxiSegment) (text : List (List Char)) :
    parseLines text segments 0 = none ↔ (expand text []).2 = some .before := by
  have hparsed : Parsed segments (parseLines text segments 0) (expand text []) :=
    parseLines_spec text (Nat.zero_le _) (Filled.nil segments)
  generalize expand text [] = expanded at hparsed ⊢
  obtain ⟨entries, fault⟩ := expanded
  match fault with
  | none =>
      obtain ⟨segments', hparse, -⟩ := hparsed
      rw [hparse]
      exact iff_of_false (fun h => (nomatch h)) (fun h => (nomatch h))
  | some (.error e) =>
      obtain ⟨segments', hparse, -⟩ := hparsed
      rw [hparse]
      exact iff_of_false (fun h => (nomatch h)) (fun h => (nomatch h))
  | some .before => exact iff_of_true hparsed rfl

/-- **The parser ends, having come twice to each segment at most, and to those of the table only
unless a loop begins before it.** -/
theorem accessesRight_iff (text : List Char) :
    (∃ accesses, textAccesses (text.length + 1) text 0 = some accesses ∧
      accesses.length ≤ 2 * maxSegments) ∧
    (AccessesRight text ↔ (expand (lines text) []).2 ≠ some .before) := by
  have htext : textAccesses (text.length + 1) text 0 = some (linesAccesses (lines text) 0) :=
    textAccesses_eq (Nat.lt_succ_self text.length)
  refine ⟨⟨_, htext, linesAccesses_length (lines text) (Nat.zero_le _)⟩, ?_⟩
  have hnone := parseLines_eq_none_iff (fun _ => ⟨.dump, 0⟩) (lines text)
  rw [ne_eq, ← hnone, ← ne_eq, ← linesAccesses_inTable_iff (lines text) (Nat.zero_le _)]
  unfold AccessesRight
  rw [htext]
  constructor
  · rintro ⟨accesses, haccesses, hin⟩
    obtain rfl := Option.some.inj haccesses
    exact hin
  · intro hin
    exact ⟨_, rfl, hin⟩

/-- `"+1\nloop to=-3 count=1"`: the first entry that the loop repeats is three before the
table. -/
theorem loopBefore_strays :
    ¬ AccessesRight ['+', '1', '\n', 'l', 'o', 'o', 'p', ' ', 't', 'o', '=', '-', '3', ' ', 'c',
      'o', 'u', 'n', 't', '=', '1'] := by
  rintro ⟨accesses, haccesses, hin⟩
  have hcomes : some [0, 0, -3, 1, -2, 2, -1, 3, 0, 4] = some accesses := haccesses
  obtain rfl := Option.some.inj hcomes
  exact absurd (hin (-3) (by decide)).1 (by decide)

end Acq400.SegmentTable
