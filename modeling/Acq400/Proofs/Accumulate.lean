/-
What the numbers of a text make of the word for accumulation and decimation.

Each number is cut to what its field holds, so the word has its bits in the fields, and what is
shown of it is stored as the same word.  Two numbers are not taken as they are meant: a shift of
999, which stands for a shift that is missing, and a decimation of 0, of which 1 is taken all the
same.
-/
import Acq400.Driver.SysfsKnobs
import Acq400.Lib.MaskField
import Mathlib.Data.Nat.Log
import Mathlib.Order.Bounds.Basic

namespace Acq400

open MaskField

namespace AccDec

variable {w : BitVec 32} {buf : List Char} {length shift start psShl : Nat}

/-! ### Shifts -/

/-- The loop ends with the first power of two that is not below the number. -/
theorem shlFrom_spec {n : Nat} (fuel : Nat) :
    ∀ shl : Nat, n ≤ 2 ^ (shl + fuel) →
      n ≤ 2 ^ shlFrom fuel n shl ∧ ∀ j, shl ≤ j → j < shlFrom fuel n shl → 2 ^ j < n := by
  induction fuel with
  | zero =>
      intro shl h
      exact ⟨h, fun j hle hlt => absurd hlt (Nat.not_lt.mpr hle)⟩
  | succ fuel ih =>
      intro shl h
      unfold shlFrom
      rw [Nat.one_shiftLeft]
      split
      · rename_i hlt
        obtain ⟨hle, hbelow⟩ := ih (shl + 1) (by rwa [Nat.add_right_comm, Nat.add_assoc])
        refine ⟨hle, fun j hj hj' => ?_⟩
        rcases Nat.eq_or_lt_of_le hj with rfl | hj
        · exact hlt
        · exact hbelow j hj hj'
      · rename_i hle
        exact ⟨Nat.not_lt.mp hle, fun j hj hj' => absurd hj' (Nat.not_lt.mpr hj)⟩

theorem shlFrom_least {n : Nat} (h : n ≤ 2 ^ 31) : IsLeast { k | n ≤ 2 ^ k } (shlFrom 31 n 0) := by
  obtain ⟨hle, hbelow⟩ := shlFrom_spec 31 0 (by simpa using h)
  refine ⟨hle, fun k hk => ?_⟩
  by_contra hlt
  have hpow := hbelow k (Nat.zero_le k) (Nat.lt_of_not_le hlt)
  exact absurd hpow (Nat.not_lt.mpr hk)

/-- A power of two is its own. -/
theorem shlFrom_two_pow {k : Nat} (h : k ≤ 31) : shlFrom 31 (2 ^ k) 0 = k := by
  refine (shlFrom_least (Nat.pow_le_pow_right (by decide) h)).unique ⟨Nat.le_refl _, ?_⟩
  intro j hj
  exact (Nat.pow_le_pow_iff_right (by decide)).mp hj

/-- One less, where it is too large, is the logarithm. -/
theorem shift_eq_log2 {n : Nat} (hpos : 0 < n) (h : n ≤ 2 ^ 31) :
    (if 1 <<< shlFrom 31 n 0 > n then shlFrom 31 n 0 - 1 else shlFrom 31 n 0) = Nat.log2 n := by
  obtain ⟨hle, hleast⟩ := shlFrom_least h
  have hle : n ≤ 2 ^ shlFrom 31 n 0 := hle
  symm
  rw [Nat.log2_eq_iff hpos.ne', Nat.one_shiftLeft]
  split
  · rename_i hgt
    have hne : shlFrom 31 n 0 ≠ 0 := by
      intro hzero
      rw [hzero] at hgt
      omega
    rw [Nat.sub_add_cancel (Nat.pos_of_ne_zero hne)]
    refine ⟨?_, hgt⟩
    by_contra hlow
    have hless := hleast (Nat.le_of_lt (Nat.lt_of_not_le hlow) :
      shlFrom 31 n 0 - 1 ∈ { k | n ≤ 2 ^ k })
    omega
  · rename_i hgt
    refine ⟨Nat.le_of_not_lt hgt, Nat.lt_of_le_of_lt hle ?_⟩
    exact Nat.pow_lt_pow_right (by decide) (Nat.lt_succ_self _)

/-! ### The fields of the word -/

theorem lenField_pos : 0 < 8 := by decide

theorem shiftField_pos : 0 < 4 := by decide

theorem prescaleField_pos : 0 < 3 := by decide

def lenField : Span 32 := ⟨0, 8, lenField_pos, by decide⟩

def shiftField : Span 32 := ⟨8, 4, shiftField_pos, by decide⟩

def startField : Span 32 := ⟨16, 8, lenField_pos, by decide⟩

def prescaleField : Span 32 := ⟨24, 3, prescaleField_pos, by decide⟩

/-- What the fields are to hold, with the length less one. -/
def values (length shift start psShl : Nat) : List (Span 32 × Nat) :=
  [(lenField, length - 1), (shiftField, shift), (startField, start), (prescaleField, psShl)]

/-- The word has its bits in the fields, and they hold this. -/
structure Fields (w : BitVec 32) (length shift start psShl : Nat) : Prop where
  inside : ∀ i, w.getLsbD i = true →
    lenField.Has i ∨ shiftField.Has i ∨ startField.Has i ∨ prescaleField.Has i
  length : (lenField.get w).toNat + 1 = length
  shift : (shiftField.get w).toNat = shift
  start : (startField.get w).toNat = start
  prescale : (prescaleField.get w).toNat = psShl

/-- The numbers fit into their fields, and the start is below the length. -/
structure Fit (length shift start psShl : Nat) : Prop where
  pos : 1 ≤ length
  le : length ≤ 256
  shift_lt : shift < 16
  start_lt : start < length
  prescale_lt : psShl < 8

/-- The word that is made by or. -/
def wordOf (length shift start psShl : Nat) : BitVec 32 :=
  BitVec.ofNat 32 (length - 1) ||| (BitVec.ofNat 32 shift <<< getSHL adcAccDecShiftMask) |||
    (BitVec.ofNat 32 start <<< getSHL adcAccDecStartMask) |||
    (BitVec.ofNat 32 psShl <<< getSHL adcAccDecPrescaleMask)

theorem getSHL_masks : getSHL adcAccDecShiftMask = 8 ∧ getSHL adcAccDecStartMask = 16 ∧
    getSHL adcAccDecPrescaleMask = 24 := by
  decide

theorem wordOf_eq (length shift start psShl : Nat) :
    wordOf length shift start psShl = placeAll (values length shift start psShl) := by
  obtain ⟨hshift, hstart, hprescale⟩ := getSHL_masks
  unfold wordOf
  rw [hshift, hstart, hprescale]
  simp only [values, placeAll, List.foldr_cons, List.foldr_nil, Span.place, lenField, shiftField,
    startField, prescaleField, BitVec.shiftLeft_zero, BitVec.or_zero, BitVec.or_assoc]

/-- A word of numbers that fit. -/
theorem fields_wordOf (h : Fit length shift start psShl) :
    Fields (wordOf length shift start psShl) length shift start psShl := by
  have hlength := h.le
  have hstart := h.start_lt
  have hfit : Fitting (values length shift start psShl) := by
    refine ⟨fun p hp => ?_, ?_⟩
    · simp only [values, List.mem_cons, List.not_mem_nil, or_false] at hp
      rcases hp with rfl | rfl | rfl | rfl
      · exact (by omega : length - 1 < 2 ^ 8)
      · exact h.shift_lt
      · exact (by omega : start < 2 ^ 8)
      · exact h.prescale_lt
    · have hapart : [lenField, shiftField, startField, prescaleField].Pairwise Span.Apart := by
        decide
      exact hapart
  have hget := fun p => toNat_get_placeAll hfit (p := p)
  rw [wordOf_eq]
  refine ⟨fun i hi => ?_, ?_, ?_, ?_, ?_⟩
  · obtain ⟨p, hp, hhas⟩ := exists_of_getLsbD_placeAll hfit hi
    simp only [values, List.mem_cons, List.not_mem_nil, or_false] at hp
    rcases hp with rfl | rfl | rfl | rfl
    · exact .inl hhas
    · exact .inr (.inl hhas)
    · exact .inr (.inr (.inl hhas))
    · exact .inr (.inr (.inr hhas))
  · rw [hget (lenField, length - 1) (by simp [values]), Nat.sub_add_cancel h.pos]
  · exact hget (shiftField, shift) (by simp [values])
  · exact hget (startField, start) (by simp [values])
  · exact hget (prescaleField, psShl) (by simp [values])

/-! ### What is stored -/

theorem acdcOf_zero (shift start prescale : Nat) :
    acdcOf 0 shift start prescale = wordOf 1 0 0 0 := by
  have hzero : wordOf 1 0 0 0 = 0 := by decide
  rw [hzero]
  exact if_neg (Nat.lt_irrefl 0)

theorem acdcOf_shift {nacc : Nat} (hpos : 0 < nacc) (hshift : shift ≠ 999) (start prescale : Nat) :
    acdcOf nacc shift start prescale =
      wordOf (min nacc 256) (min shift 15) (min start (min nacc 256 - 1))
        (shlFrom 31 (min prescale 128) 0) := by
  unfold acdcOf
  rw [if_pos hpos]
  dsimp only
  rw [if_neg hshift]
  rfl

/-- Without a shift, the number of samples is the largest power of two. -/
theorem acdcOf_missing {nacc : Nat} (hpos : 0 < nacc) (start prescale : Nat) :
    acdcOf nacc 999 start prescale =
      wordOf (min nacc 256) (Nat.log2 (min nacc 256))
        (min nacc 256 - 2 ^ Nat.log2 (min nacc 256)) (shlFrom 31 (min prescale 128) 0) := by
  have hmin : 0 < min nacc 256 := by omega
  have hlog := shift_eq_log2 hmin (by omega)
  have hlt : Nat.log2 (min nacc 256) < 9 := (Nat.log2_lt hmin.ne').mpr (by omega)
  unfold acdcOf adcMaxNacc adcAccDecShiftMax
  rw [if_pos hpos]
  dsimp only
  rw [if_pos rfl, hlog, Nat.one_shiftLeft,
    Nat.min_eq_left (by omega : Nat.log2 (min nacc 256) ≤ 15)]
  rfl

/-- The prescale of a number that is at most 128. -/
theorem prescale_least (prescale : Nat) :
    IsLeast { k | min prescale 128 ≤ 2 ^ k } (shlFrom 31 (min prescale 128) 0) :=
  shlFrom_least (by omega)

theorem prescale_lt (prescale : Nat) : shlFrom 31 (min prescale 128) 0 < 8 := by
  have hseven : min prescale 128 ≤ 2 ^ 7 := Nat.min_le_right _ _
  have hle := (prescale_least prescale).2 hseven
  omega

theorem log2_length_lt {nacc : Nat} (hpos : 0 < nacc) : Nat.log2 (min nacc 256) < 9 :=
  (Nat.log2_lt (by omega)).mpr (by omega)

theorem fit_missing {nacc : Nat} (hpos : 0 < nacc) (prescale : Nat) :
    Fit (min nacc 256) (Nat.log2 (min nacc 256)) (min nacc 256 - 2 ^ Nat.log2 (min nacc 256))
      (shlFrom 31 (min prescale 128) 0) := by
  have hlt := log2_length_lt hpos
  have htwo := Nat.two_pow_pos (Nat.log2 (min nacc 256))
  exact ⟨by omega, by omega, by omega, by omega, prescale_lt prescale⟩

theorem fit_shift {nacc : Nat} (hpos : 0 < nacc) (shift start prescale : Nat) :
    Fit (min nacc 256) (min shift 15) (min start (min nacc 256 - 1))
      (shlFrom 31 (min prescale 128) 0) :=
  ⟨by omega, by omega, by omega, by omega, prescale_lt prescale⟩

theorem fit_off : Fit 1 0 0 0 := by
  refine ⟨?_, ?_, ?_, ?_, ?_⟩
  all_goals decide

/-- Whatever the numbers are, they are made to fit. -/
theorem acdcOf_fit (nacc shift start prescale : Nat) :
    ∃ length shift' start' psShl, Fit length shift' start' psShl ∧
      acdcOf nacc shift start prescale = wordOf length shift' start' psShl := by
  rcases Nat.eq_zero_or_pos nacc with rfl | hpos
  · exact ⟨_, _, _, _, fit_off, acdcOf_zero shift start prescale⟩
  · by_cases hshift : shift = 999
    · subst hshift
      exact ⟨_, _, _, _, fit_missing hpos prescale, acdcOf_missing hpos start prescale⟩
    · exact ⟨_, _, _, _, fit_shift hpos shift start prescale,
        acdcOf_shift hpos hshift start prescale⟩

/-- The word that is asked for by the numbers of `store_nacc`.  A length of 0 asks for no
accumulation at all. -/
def Asked (nacc : Nat) (more : List Nat) (w : BitVec 32) : Prop :=
  if nacc = 0 then Fields w 1 0 0 0
  else
    ∃ shift start psShl, Fields w (min nacc 256) shift start psShl ∧
      IsLeast { k | min (more.getD 2 0) 128 ≤ 2 ^ k } psShl ∧
      match more with
      | [] => shift = Nat.log2 (min nacc 256) ∧ start + 2 ^ shift = min nacc 256
      | asked :: more => shift = min asked 15 ∧ start = min (more.getD 0 0) (min nacc 256 - 1)

theorem asked_iff (nacc : Nat) (more : List Nat) :
    Asked nacc more (acdcOf nacc (more.getD 0 999) (more.getD 1 0) (more.getD 2 0)) ↔
      (0 < nacc → more.head? ≠ some 999) := by
  unfold Asked
  split
  · rename_i hzero
    subst hzero
    rw [acdcOf_zero]
    exact iff_of_true (fields_wordOf fit_off) fun h => absurd h (Nat.lt_irrefl 0)
  · rename_i hne
    have hpos : 0 < nacc := Nat.pos_of_ne_zero hne
    cases more with
    | nil =>
        refine iff_of_true ⟨_, min nacc 256 - 2 ^ Nat.log2 (min nacc 256), _, ?_,
          prescale_least _, rfl, ?_⟩ fun _ h => by cases h
        · rw [List.getD_nil, acdcOf_missing hpos]
          exact fields_wordOf (fit_missing hpos _)
        · exact Nat.sub_add_cancel (Nat.log2_self_le (by omega))
    | cons asked more =>
        by_cases hshift : asked = 999
        · -- 15 is asked for, and the logarithm is at most 8
          subst hshift
          refine iff_of_false ?_ fun h => h hpos rfl
          rintro ⟨shift, start, psShl, hfields, -, rfl, -⟩
          have hlt := log2_length_lt hpos
          have hget := hfields.shift
          have hmissing := (fields_wordOf (fit_missing hpos ((999 :: more).getD 2 0))).shift
          rw [List.getD_cons_zero, acdcOf_missing hpos] at hget
          omega
        · refine iff_of_true ⟨_, _, _, ?_, prescale_least _, rfl, rfl⟩ fun _ h =>
            hshift (Option.some.inj h)
          rw [List.getD_cons_zero, acdcOf_shift hpos hshift]
          exact fields_wordOf (fit_shift hpos _ _ _)

/-! ### What is shown -/

theorem masks : lenField.mask = adcAccDecLen ∧ shiftField.mask = adcAccDecShiftMask ∧
    startField.mask = adcAccDecStartMask ∧ prescaleField.mask = adcAccDecPrescaleMask := by
  decide

theorem length_shown (w : BitVec 32) :
    ((w &&& adcAccDecLen) + 1).toNat = (lenField.get w).toNat + 1 := by
  have hlt := toNat_get_lt lenField w
  have hget : lenField.get w = w &&& adcAccDecLen := by
    unfold Span.get
    rw [masks.1]
    exact BitVec.ushiftRight_zero _
  rw [hget] at hlt ⊢
  have hlt : (w &&& adcAccDecLen).toNat < 2 ^ 8 := hlt
  have hone : (1 : BitVec 32).toNat = 1 := rfl
  rw [BitVec.toNat_add, hone, Nat.mod_eq_of_lt (by omega)]

/-- The numbers that a text shows. -/
def text : List Nat → List Char
  | [] => []
  | [n] => Sscanf.decimalText n ++ ['\n']
  | n :: m :: rest => Sscanf.decimalText n ++ ',' :: text (m :: rest)

theorem showNacc_eq (h : Fields w length shift start psShl) :
    showNacc w = text [length, shift, start, 2 ^ psShl] := by
  obtain ⟨hshiftSHL, hstartSHL, hprescaleSHL⟩ := getSHL_masks
  obtain ⟨-, hshiftMask, hstartMask, hprescaleMask⟩ := masks
  have hshift : ((w &&& adcAccDecShiftMask) >>> getSHL adcAccDecShiftMask).toNat = shift := by
    rw [hshiftSHL, ← hshiftMask]
    exact h.shift
  have hstart : ((w &&& adcAccDecStartMask) >>> getSHL adcAccDecStartMask).toNat = start := by
    rw [hstartSHL, ← hstartMask]
    exact h.start
  have hprescale : ((w &&& adcAccDecPrescaleMask) >>> getSHL adcAccDecPrescaleMask).toNat =
      psShl := by
    rw [hprescaleSHL, ← hprescaleMask]
    exact h.prescale
  have hlength := (length_shown w).trans h.length
  unfold showNacc
  dsimp only
  rw [hshift, hstart, hprescale, hlength, Nat.one_shiftLeft]
  rfl

/-- Numbers that are shown are scanned, as many as there are fields. -/
theorem scanUints_text {l : List Nat} (hl : ∀ n ∈ l, n < 2 ^ 32) :
    ∀ fields, l.length ≤ fields → scanUints fields (text l) = l := by
  induction l with
  | nil =>
      intro fields _
      cases fields with
      | zero => rfl
      | succ fields => rfl
  | cons n rest ih =>
      intro fields hfields
      have hn := hl n List.mem_cons_self
      have ih := ih fun m hm => hl m (List.mem_cons_of_mem n hm)
      cases fields with
      | zero => exact absurd hfields (Nat.not_succ_le_zero _)
      | succ fields =>
          have hle := Nat.le_of_succ_le_succ hfields
          cases rest with
          | nil =>
              have hscan : Sscanf.uint (Sscanf.decimalText n ++ ['\n']) = some (n, ['\n']) :=
                Sscanf.uint_decimalText hn fun c hc => by
                  obtain rfl := Option.some.inj hc
                  rfl
              rw [text, scanUints, hscan]
              rfl
          | cons m rest =>
              have hscan : Sscanf.uint (Sscanf.decimalText n ++ ',' :: text (m :: rest)) =
                  some (n, ',' :: text (m :: rest)) :=
                Sscanf.uint_decimalText hn fun c hc => by
                  obtain rfl := Option.some.inj hc
                  rfl
              have hlit : Sscanf.lit [','] (',' :: text (m :: rest)) = some (text (m :: rest)) :=
                Sscanf.lit_append [','] _
              rw [text, scanUints, hscan]
              dsimp only
              rw [hlit]
              dsimp only
              rw [ih fields hle]

/-- A word of numbers that fit is stored again. -/
theorem storeNacc_showNacc (h : Fit length shift start psShl) :
    storeNacc (showNacc (wordOf length shift start psShl)) =
      some (wordOf length shift start psShl) := by
  have ⟨hpos, hlength, hshift, hstart, hps⟩ := h
  have hpow : 2 ^ psShl ≤ 2 ^ 7 := Nat.pow_le_pow_right (by decide) (by omega)
  have hsmall : ∀ n ∈ [length, shift, start, 2 ^ psShl], n < 2 ^ 32 := by
    simp only [List.mem_cons, List.not_mem_nil, or_false]
    rintro n (rfl | rfl | rfl | rfl)
    all_goals omega
  rw [showNacc_eq (fields_wordOf h)]
  unfold storeNacc
  rw [scanUints_text hsmall 4 (Nat.le_refl _)]
  dsimp only
  rw [List.getD_cons_zero, acdcOf_shift hpos (by omega)]
  have hprescale : ([shift, start, 2 ^ psShl].getD 2 0) = 2 ^ psShl := rfl
  have hbegin : ([shift, start, 2 ^ psShl].getD 1 0) = start := rfl
  rw [hprescale, hbegin, Nat.min_eq_left hlength, Nat.min_eq_left (by omega : shift ≤ 15),
    Nat.min_eq_left (by omega : start ≤ length - 1), Nat.min_eq_left (by omega : 2 ^ psShl ≤ 128),
    shlFrom_two_pow (by omega)]

/-- The first number that is shown is the length. -/
theorem uint_showNacc (h : Fit length shift start psShl) :
    ∃ rest, Sscanf.uint (showNacc (wordOf length shift start psShl)) = some (length, rest) := by
  have hlength := h.le
  rw [showNacc_eq (fields_wordOf h), text]
  exact ⟨_, Sscanf.uint_decimalText (by omega) fun c hc => by
    obtain rfl := Option.some.inj hc
    rfl⟩

theorem uint_showDacDec (h : Fit length shift start psShl) :
    Sscanf.uint (showDacDec (wordOf length shift start psShl)) = some (length, ['\n']) := by
  have hlength := h.le
  unfold showDacDec
  rw [length_shown, (fields_wordOf h).length]
  exact Sscanf.uint_decimalText (by omega) fun c hc => by
    obtain rfl := Option.some.inj hc
    rfl

/-! ### The knobs -/

/-- The length that is asked for by a number: 0 asks for none. -/
def lengthOf (n : Nat) : Nat := max 1 (min n 256)

theorem storeDec_eq {n : Nat} {rest : List Char} (h : Sscanf.uint buf = some (n, rest)) :
    storeDec buf = some (wordOf (lengthOf n) 0 (lengthOf n - 1) 0) := by
  have hzero : wordOf 1 0 0 0 = 0 := by decide
  unfold storeDec lengthOf
  rw [h]
  dsimp only
  split
  · rename_i hpos
    have hplain : ∀ x y : BitVec 32, x ||| (0 : BitVec 32) <<< 8 ||| y ||| (0 : BitVec 32) <<< 24 =
        x ||| y := by
      intro x y
      simp
    obtain ⟨hshift, hstart, hprescale⟩ := getSHL_masks
    unfold wordOf adcMaxNacc
    rw [hshift, hstart, hprescale, Nat.max_eq_right (by omega : 1 ≤ min n 256)]
    exact congrArg some (hplain _ _).symm
  · rename_i hpos
    obtain rfl : n = 0 := by omega
    exact congrArg some hzero.symm

theorem storeDacDec_eq {n : Nat} {rest : List Char} (h : Sscanf.uint buf = some (n, rest))
    (hpos : 0 < n) : storeDacDec buf = some (wordOf (lengthOf n) 0 0 0) := by
  have hplain : ∀ x : BitVec 32, x ||| (0 : BitVec 32) <<< 8 ||| (0 : BitVec 32) <<< 16 |||
      (0 : BitVec 32) <<< 24 = x := by
    intro x
    simp
  have hless : BitVec.ofNat 32 (min n 256) - 1 = BitVec.ofNat 32 (min n 256 - 1) := by
    refine BitVec.eq_of_toNat_eq ?_
    rw [BitVec.toNat_sub, BitVec.toNat_ofNat, BitVec.toNat_ofNat]
    show (2 ^ 32 - 1 + min n 256 % 2 ^ 32) % 2 ^ 32 = (min n 256 - 1) % 2 ^ 32
    omega
  obtain ⟨hshift, hstart, hprescale⟩ := getSHL_masks
  unfold storeDacDec lengthOf wordOf adcMaxNacc
  rw [h, hshift, hstart, hprescale, Nat.max_eq_right (by omega : 1 ≤ min n 256)]
  dsimp only
  rw [hless]
  exact congrArg some (hplain _).symm

/-- The knobs that set a length. -/
inductive Setter where
  | nacc | dec | dacDec
deriving DecidableEq, Repr

def Setter.store : Setter → List Char → Option (BitVec 32)
  | nacc => storeNacc
  | dec => storeDec
  | dacDec => storeDacDec

def Setter.shown : Setter → BitVec 32 → List Char
  | nacc => showNacc
  | dec => showNacc
  | dacDec => showDacDec

/-- What a text asks for: a decimation takes the last sample. -/
def Setter.Asked (buf : List Char) (w : BitVec 32) : Setter → Prop
  | nacc => ∀ n more, scanUints 4 buf = n :: more → AccDec.Asked n more w
  | dec => ∀ n rest, Sscanf.uint buf = some (n, rest) →
      Fields w (lengthOf n) 0 (lengthOf n - 1) 0
  | dacDec => ∀ n rest, Sscanf.uint buf = some (n, rest) → Fields w (lengthOf n) 0 0 0

/-- The word is what the text asks for, and what is shown of it is stored as the same word. -/
def Setter.Right (knob : Setter) (buf : List Char) : Prop :=
  ∀ w, knob.store buf = some w →
    knob.Asked buf w ∧ storeNacc (showNacc w) = some w ∧ knob.store (knob.shown w) = some w

/-- No number is taken for something else. -/
def Setter.Harmless (buf : List Char) : Setter → Prop
  | nacc => ∀ n more, scanUints 4 buf = n :: more → 0 < n → more.head? ≠ some 999
  | dec => True
  | dacDec => ∀ n rest, Sscanf.uint buf = some (n, rest) → n ≠ 0

theorem fit_lengthOf (n : Nat) :
    Fit (lengthOf n) 0 0 0 ∧ Fit (lengthOf n) 0 (lengthOf n - 1) 0 := by
  have hrange : 1 ≤ lengthOf n ∧ lengthOf n ≤ 256 := by
    unfold lengthOf
    omega
  exact ⟨⟨hrange.1, hrange.2, by decide, by omega, by decide⟩,
    ⟨hrange.1, hrange.2, by decide, by omega, by decide⟩⟩

theorem lengthOf_lengthOf (n : Nat) : lengthOf (lengthOf n) = lengthOf n := by
  unfold lengthOf
  omega

theorem nacc_right_iff (buf : List Char) :
    Setter.nacc.Right buf ↔ Setter.nacc.Harmless buf := by
  have hstore : ∀ n more, scanUints 4 buf = n :: more → storeNacc buf =
      some (acdcOf n (more.getD 0 999) (more.getD 1 0) (more.getD 2 0)) := by
    intro n more h
    unfold storeNacc
    rw [h]
  constructor
  · intro h n more hscan
    exact (asked_iff n more).mp ((h _ (hstore n more hscan)).1 n more hscan)
  · intro h w hw
    cases hscan : scanUints 4 buf with
    | nil =>
        have hnone : storeNacc buf = none := by
          unfold storeNacc
          rw [hscan]
        cases hnone.symm.trans hw
    | cons n more =>
        obtain rfl := Option.some.inj ((hstore n more hscan).symm.trans hw)
        have hagain : storeNacc (showNacc (acdcOf n (more.getD 0 999) (more.getD 1 0)
            (more.getD 2 0))) = some (acdcOf n (more.getD 0 999) (more.getD 1 0)
              (more.getD 2 0)) := by
          obtain ⟨length, shift, start, psShl, hfit, heq⟩ :=
            acdcOf_fit n (more.getD 0 999) (more.getD 1 0) (more.getD 2 0)
          rw [heq]
          exact storeNacc_showNacc hfit
        refine ⟨fun n' more' hscan' => ?_, hagain, hagain⟩
        obtain ⟨rfl, rfl⟩ := List.cons.inj (hscan.symm.trans hscan')
        exact (asked_iff n more).mpr (h n more hscan)

theorem dec_right (buf : List Char) : Setter.dec.Right buf := by
  intro w hw
  cases hscan : Sscanf.uint buf with
  | none =>
      have hnone : storeDec buf = none := by
        unfold storeDec
        rw [hscan]
      cases hnone.symm.trans hw
  | some scanned =>
      obtain ⟨n, rest⟩ := scanned
      obtain rfl := Option.some.inj ((storeDec_eq hscan).symm.trans hw)
      have hfit := (fit_lengthOf n).2
      refine ⟨fun n' rest' hscan' => ?_, storeNacc_showNacc hfit, ?_⟩
      · obtain ⟨rfl, -⟩ := Prod.mk.inj (Option.some.inj (hscan.symm.trans hscan'))
        exact fields_wordOf hfit
      · obtain ⟨rest, hshown⟩ := uint_showNacc hfit
        have hagain := storeDec_eq hshown
        rw [lengthOf_lengthOf] at hagain
        exact hagain

theorem dacDec_right_iff (buf : List Char) :
    Setter.dacDec.Right buf ↔ Setter.dacDec.Harmless buf := by
  constructor
  · rintro h n rest hscan rfl
    have hword : storeDacDec buf = some 0xffffffff := by
      unfold storeDacDec
      rw [hscan]
      rfl
    have hinside := ((h _ hword).1 0 rest hscan).inside 31 (by decide)
    revert hinside
    decide
  · intro h w hw
    cases hscan : Sscanf.uint buf with
    | none =>
        have hnone : storeDacDec buf = none := by
          unfold storeDacDec
          rw [hscan]
        cases hnone.symm.trans hw
    | some scanned =>
        obtain ⟨n, rest⟩ := scanned
        have hpos := Nat.pos_of_ne_zero (h n rest hscan)
        obtain rfl := Option.some.inj ((storeDacDec_eq hscan hpos).symm.trans hw)
        have hfit := (fit_lengthOf n).1
        refine ⟨fun n' rest' hscan' => ?_, storeNacc_showNacc hfit, ?_⟩
        · obtain ⟨rfl, -⟩ := Prod.mk.inj (Option.some.inj (hscan.symm.trans hscan'))
          exact fields_wordOf hfit
        · have hagain := storeDacDec_eq (uint_showDacDec hfit) hfit.pos
          rw [lengthOf_lengthOf] at hagain
          exact hagain

/--
**A text sets what it asks for, unless 999 is given for a shift, or 0 for the decimation of a
DAC.**
-/
theorem setter_right_iff (knob : Setter) (buf : List Char) :
    knob.Right buf ↔ knob.Harmless buf := by
  cases knob with
  | nacc => exact nacc_right_iff buf
  | dec => exact iff_of_true (dec_right buf) trivial
  | dacDec => exact dacDec_right_iff buf

/-- A decimation of 0 sets every bit. -/
theorem no_decimation_not_right : ¬∀ (knob : Setter) (buf : List Char), knob.Right buf := by
  intro h
  obtain ⟨n, rest, hscan⟩ : ∃ n rest, Sscanf.uint "0".toList = some (n, rest) ∧ n = 0 :=
    ⟨_, _, rfl, rfl⟩
  exact dacDec_right_iff "0".toList |>.mp (h .dacDec "0".toList) n rest hscan.1 hscan.2

end AccDec

end Acq400
