/-
The conversions of the `sscanf` of the kernel, and the `%d` of the C library.

Each takes what is left of the string and gives what it leaves of it.  White space
in a format matches any amount of it, none included; `%d` skips white space first,
and takes a minus but no plus, and `%u` takes no sign at all.  The `%d` of the C library
takes either sign, and a number that is too large becomes the largest one.

What `snprintf` prints of a number is scanned back, and what is scanned of a string does
not change when a character is put behind it that the scan does not get to.  `%i` takes the text of
an integer in any base.
-/
import Acq400.Lib.CInt
import Mathlib.Data.List.TakeWhile

namespace Sscanf

def isSpace (c : Char) : Bool := c = ' ' || ('\t' ≤ c && c ≤ '\r') || c = '\u00a0'

/-- White space of the format. -/
def spaces (str : List Char) : List Char := str.dropWhile isSpace

/-- Characters of the format that stand for themselves. -/
def lit : List Char → List Char → Option (List Char)
  | [], str => some str
  | c :: fmt, d :: str => if c = d then lit fmt str else none
  | _ :: _, [] => none

/-- `%c`. -/
def char : List Char → Option (Char × List Char)
  | [] => none
  | c :: str => some (c, str)

/-- The number that decimal digits are. -/
def decimal (digits : List Char) : Nat :=
  digits.foldl (fun n c => 10 * n + (c.toNat - '0'.toNat)) 0

/-- A number as text. -/
def IsDigits (digits : List Char) : Prop := digits ≠ [] ∧ ∀ c ∈ digits, c.isDigit = true

/-- `%d`. -/
def int (str : List Char) : Option (Int × List Char) :=
  let str := spaces str
  let minus := str.head? = some '-'
  let str := if minus then str.tail else str
  let digits := str.takeWhile Char.isDigit
  if digits = [] then none
  else
    let n : Int := decimal digits
    some (CInt.wrap (if minus then -n else n), str.dropWhile Char.isDigit)

/-- A number without a sign, however large. -/
def number (str : List Char) : Option (Nat × List Char) :=
  let str := spaces str
  let digits := str.takeWhile Char.isDigit
  if digits = [] then none else some (decimal digits, str.dropWhile Char.isDigit)

/-- `%u`. -/
def uint (str : List Char) : Option (Nat × List Char) :=
  (number str).map fun (n, rest) => (n % 4294967296, rest)

/-- The value of a hexadecimal digit, 16 for what is none. -/
def hexValue (c : Char) : Nat :=
  if c.isDigit then c.toNat - '0'.toNat
  else if 'a' ≤ c && c ≤ 'f' then c.toNat - 'a'.toNat + 10
  else if 'A' ≤ c && c ≤ 'F' then c.toNat - 'A'.toNat + 10
  else 16

/-- `%x`. -/
def hex (str : List Char) : Option (Nat × List Char) :=
  let str := spaces str
  if str.head?.all fun c => hexValue c = 16 then none
  else
    let str := if ['0', 'x'].isPrefixOf (str.map Char.toLower) then str.drop 2 else str
    let digits := str.takeWhile fun c => hexValue c ≠ 16
    some (digits.foldl (fun n c => 16 * n + hexValue c) 0 % 4294967296,
      str.dropWhile fun c => hexValue c ≠ 16)

/-- The number that digits of a base are. -/
def ofBase (base : Nat) (digits : List Char) : Nat :=
  digits.foldl (fun n c => base * n + hexValue c) 0

/-- The base that `%i` takes a number to be in, and the number without its prefix. -/
def fixupRadix : List Char → Nat × List Char
  | '0' :: x :: d :: str =>
    if x.toLower = 'x' ∧ hexValue d < 16 then (16, d :: str) else (8, '0' :: x :: d :: str)
  | '0' :: str => (8, '0' :: str)
  | str => (10, str)

/-- `%i`. -/
def anyInt (str : List Char) : Option (Int × List Char) :=
  let str := spaces str
  let minus := str.head? = some '-'
  let str := if minus then str.tail else str
  if str.head?.all fun c => !c.isDigit then none
  else
    let (base, str) := fixupRadix str
    let n : Int := ofBase base (str.takeWhile fun c => hexValue c < base)
    some (CInt.wrap (if minus then -n else n), str.dropWhile fun c => hexValue c < base)

/-- `%s` with a width.  There has to be something left of the string, if only white space. -/
def word (width : Nat) (str : List Char) : Option (List Char × List Char) :=
  if str = [] then none
  else
    let got := ((spaces str).take width).takeWhile fun c => !isSpace c
    some (got, (spaces str).drop got.length)

/-- What `%d` of `snprintf` makes of a number. -/
def decimalText (n : Int) : List Char :=
  if n < 0 then '-' :: Nat.toDigits 10 n.natAbs else Nat.toDigits 10 n.natAbs

/-- `%d` of the C library, with a `long` of 32 bits. -/
def cint (str : List Char) : Option (Int × List Char) :=
  let str := spaces str
  let minus := str.head? = some '-'
  let str := if minus ∨ str.head? = some '+' then str.tail else str
  let digits := str.takeWhile Char.isDigit
  if digits = [] then none
  else
    let n : Int := decimal digits
    some (max (-2147483648) (min (if minus then -n else n) 2147483647),
      str.dropWhile Char.isDigit)

/-! ### What is printed can be scanned -/

theorem isDigit_not_space {c : Char} (h : c.isDigit = true) : isSpace c = false := by
  rw [Char.isDigit_iff_toNat] at h
  have h0 : '0'.toNat = 48 := rfl
  have h9 : '9'.toNat = 57 := rfl
  have hspace : c ≠ ' ' := fun e => absurd (e ▸ h.1) (by decide)
  have hnbsp : c ≠ '\u00a0' := fun e => absurd (e ▸ h.2) (by decide)
  have hle : ¬c ≤ '\r' := fun hle => by
    have : c.toNat ≤ '\r'.toNat := hle
    have hr : '\r'.toNat = 13 := rfl
    omega
  simp [isSpace, hspace, hnbsp, hle]

theorem decimal_eq (digits : List Char) : decimal digits = Nat.ofDigitChars 10 digits 0 := by
  rw [Nat.ofDigitChars_eq_foldl]
  rfl

theorem lit_append (fmt rest : List Char) : lit fmt (fmt ++ rest) = some rest := by
  induction fmt with
  | nil => rfl
  | cons c fmt ih =>
      rw [List.cons_append, lit, if_pos rfl]
      exact ih

/-- What stands for itself is in front of what it leaves. -/
theorem lit_eq_some {fmt str r : List Char} : lit fmt str = some r ↔ str = fmt ++ r := by
  constructor
  · induction fmt generalizing str with
    | nil =>
        intro h
        exact Option.some.inj h
    | cons c fmt ih =>
        intro h
        cases str with
        | nil => cases h
        | cons d str =>
            rw [lit] at h
            split at h
            · rename_i hcd
              rw [hcd, ih h]
              rfl
            · cases h
  · rintro rfl
    exact lit_append fmt r

/-- Nothing is skipped in front of what is no white space. -/
theorem spaces_cons {c : Char} (h : isSpace c = false) (str : List Char) :
    spaces (c :: str) = c :: str := by
  unfold spaces
  rw [List.dropWhile_cons_of_neg (by simp [h])]

/-- The white space of a word that is given is looked for by computation. -/
theorem no_space_of_all {w : List Char} (h : (w.all fun c => !isSpace c) = true) :
    ∀ c ∈ w, isSpace c = false := by
  simpa using h

theorem takeWhile_append_stop {p : Char → Bool} {l rest : List Char} (hl : ∀ c ∈ l, p c = true)
    (hrest : ∀ c, rest.head? = some c → p c = false) :
    (l ++ rest).takeWhile p = l ∧ (l ++ rest).dropWhile p = rest := by
  rw [List.takeWhile_append_of_pos hl, List.dropWhile_append_of_pos hl]
  cases rest with
  | nil => exact ⟨List.append_nil l, rfl⟩
  | cons c rest =>
      have hc := hrest c rfl
      rw [List.takeWhile_cons_of_neg (by simp [hc]), List.dropWhile_cons_of_neg (by simp [hc]),
        List.append_nil]
      exact ⟨rfl, rfl⟩

theorem toDigits_isDigit {n : Nat} {c : Char} (h : c ∈ Nat.toDigits 10 n) : c.isDigit = true :=
  Nat.isDigit_of_mem_toDigits (by decide) (by decide) h

/-- A number that has been printed is scanned, as far as its digits go. -/
theorem int_decimalText {n : Int} (hn : CInt.InRange n) {rest : List Char}
    (hrest : ∀ c, rest.head? = some c → c.isDigit = false) :
    int (decimalText n ++ rest) = some (n, rest) := by
  obtain ⟨htake, hdrop⟩ := takeWhile_append_stop (p := Char.isDigit)
    (fun c => toDigits_isDigit (n := n.natAbs)) hrest
  have hvalue : decimal (Nat.toDigits 10 n.natAbs) = n.natAbs := by
    rw [decimal_eq, Nat.ofDigitChars_ten_toDigits]
  by_cases hneg : n < 0
  · have hspaces : spaces ('-' :: (Nat.toDigits 10 n.natAbs ++ rest)) =
        '-' :: (Nat.toDigits 10 n.natAbs ++ rest) := spaces_cons (by decide) _
    simp only [int, decimalText, hneg, if_true, hspaces, List.cons_append, List.head?_cons,
      List.tail_cons, htake, hdrop, Nat.toDigits_ne_nil, if_false, hvalue]
    rw [show -((n.natAbs : Nat) : Int) = n by omega, CInt.wrap_of_inRange hn]
  · obtain ⟨c, digits, hdigits⟩ := List.exists_cons_of_ne_nil (Nat.toDigits_ne_nil (n := n.natAbs)
      (b := 10))
    have hc : c.isDigit = true := toDigits_isDigit (n := n.natAbs) (hdigits ▸ List.mem_cons_self)
    have hminus : c ≠ '-' := fun e => absurd (e ▸ hc) (by decide)
    have hspaces : spaces (Nat.toDigits 10 n.natAbs ++ rest) =
        Nat.toDigits 10 n.natAbs ++ rest := by
      rw [hdigits]
      exact spaces_cons (isDigit_not_space hc) _
    have hhead : (Nat.toDigits 10 n.natAbs ++ rest).head? ≠ some '-' := by
      rw [hdigits, List.cons_append, List.head?_cons]
      exact fun e => hminus (Option.some.inj e)
    simp only [int, decimalText, hneg, if_false, hspaces, hhead, htake, hdrop,
      Nat.toDigits_ne_nil, hvalue]
    rw [show ((n.natAbs : Nat) : Int) = n by omega, CInt.wrap_of_inRange hn]

/-- Digits are scanned by the C library as the number that they are, if it is not too large. -/
theorem cint_digits {digits : List Char} (rest : List Char) (hne : digits ≠ [])
    (hdigits : ∀ c ∈ digits, c.isDigit = true) (hmax : decimal digits ≤ 2147483647)
    (hrest : ∀ c, rest.head? = some c → c.isDigit = false) :
    cint (digits ++ rest) = some ((decimal digits : Int), rest) := by
  obtain ⟨htake, hdrop⟩ := takeWhile_append_stop hdigits hrest
  obtain ⟨d, ds, rfl⟩ := List.exists_cons_of_ne_nil hne
  have hd : d.isDigit = true := hdigits d List.mem_cons_self
  have hminus : d ≠ '-' := fun h => absurd (h ▸ hd) (by decide)
  have hplus : d ≠ '+' := fun h => absurd (h ▸ hd) (by decide)
  have hspaces : spaces (d :: ds ++ rest) = d :: ds ++ rest :=
    spaces_cons (isDigit_not_space hd) (ds ++ rest)
  have hhead : (d :: ds ++ rest).head? = some d := rfl
  unfold cint
  simp only [hspaces, hhead, Option.some.injEq, hminus, hplus, or_self, if_false, htake,
    hdrop, hne]
  have hle : (decimal (d :: ds) : Int) ≤ 2147483647 := by omega
  have hge : (-2147483648 : Int) ≤ decimal (d :: ds) := by omega
  rw [Int.min_eq_left hle, Int.max_eq_right hge]

theorem number_digits {digits : List Char} (rest : List Char) (hne : digits ≠ [])
    (hdigits : ∀ c ∈ digits, c.isDigit = true)
    (hrest : ∀ c, rest.head? = some c → c.isDigit = false) :
    number (digits ++ rest) = some (decimal digits, rest) := by
  obtain ⟨htake, hdrop⟩ := takeWhile_append_stop hdigits hrest
  obtain ⟨d, ds, rfl⟩ := List.exists_cons_of_ne_nil hne
  have hspaces : spaces (d :: ds ++ rest) = d :: ds ++ rest :=
    spaces_cons (isDigit_not_space (hdigits d List.mem_cons_self)) (ds ++ rest)
  unfold number
  simp only [hspaces, htake, hdrop, hne, if_false]

/-- What does not begin with a digit is no number. -/
theorem number_none {c : Char} (str : List Char) (hspace : isSpace c = false)
    (hdigit : c.isDigit = false) : number (c :: str) = none := by
  unfold number
  rw [spaces_cons hspace]
  dsimp only
  rw [List.takeWhile_cons_of_neg (by simp [hdigit]), if_pos rfl]

theorem uint_eq_none {str : List Char} : uint str = none ↔ number str = none := by
  unfold uint
  rw [Option.map_eq_none_iff]

/-- A number of 32 bits that has been printed is scanned. -/
theorem uint_decimalText {n : Nat} (hn : n < 2 ^ 32) {rest : List Char}
    (hrest : ∀ c, rest.head? = some c → c.isDigit = false) :
    uint (decimalText n ++ rest) = some (n, rest) := by
  have htext : decimalText (n : Int) = Nat.toDigits 10 n := if_neg (by omega)
  have hvalue : decimal (Nat.toDigits 10 n) = n := by
    rw [decimal_eq, Nat.ofDigitChars_ten_toDigits]
  unfold uint
  rw [htext, number_digits rest Nat.toDigits_ne_nil (fun c => toDigits_isDigit) hrest, hvalue,
    Option.map_some]
  dsimp only
  rw [Nat.mod_eq_of_lt (by omega)]

/-- The text of an `int` is at most 11 characters. -/
theorem length_decimalText {n : Int} (hn : CInt.InRange n) : (decimalText n).length ≤ 11 := by
  have hdigits : (Nat.toDigits 10 n.natAbs).length ≤ 10 := by
    rw [Nat.length_toDigits_le_iff (by decide) (by decide)]
    unfold CInt.InRange at hn
    omega
  unfold decimalText
  split
  · rw [List.length_cons]
    omega
  · omega

/-- A word that ends before white space, or with the string. -/
theorem word_stop {width : Nat} {w : List Char} (hne : w ≠ []) (hw : w.length ≤ width)
    (hchars : ∀ c ∈ w, isSpace c = false) {rest : List Char}
    (hrest : ∀ c, rest.head? = some c → isSpace c = true) :
    word width (w ++ rest) = some (w, rest) := by
  obtain ⟨d, w', rfl⟩ := List.exists_cons_of_ne_nil hne
  have hspaces : spaces (d :: w' ++ rest) = d :: w' ++ rest :=
    spaces_cons (hchars d List.mem_cons_self) _
  have hgot : ((d :: w' ++ rest).take width).takeWhile (fun c => !isSpace c) = d :: w' := by
    rw [List.take_append, List.take_of_length_le hw]
    refine (takeWhile_append_stop (fun e he => by simp [hchars e he]) fun e he => ?_).1
    cases hk : width - (d :: w').length with
    | zero =>
        rw [hk] at he
        cases he
    | succ k =>
        rw [hk, List.head?_take, if_neg (Nat.succ_ne_zero k)] at he
        simp [hrest e he]
  unfold word
  rw [if_neg (by simp), hspaces]
  simp only [hgot, List.drop_left]

/-- A word that ends before white space. -/
theorem word_append {width : Nat} {w : List Char} (hne : w ≠ []) (hw : w.length ≤ width)
    (hchars : ∀ c ∈ w, isSpace c = false) {c : Char} (hc : isSpace c = true) (rest : List Char) :
    word width (w ++ c :: rest) = some (w, c :: rest) :=
  word_stop hne hw hchars fun d hd => by
    obtain rfl := Option.some.inj hd
    exact hc

theorem mem_decimalText {n : Int} {c : Char} (h : c ∈ decimalText n) :
    c = '-' ∨ c.isDigit = true := by
  unfold decimalText at h
  split at h
  · rcases List.mem_cons.mp h with h | h
    · exact .inl h
    · exact .inr (toDigits_isDigit h)
  · exact .inr (toDigits_isDigit h)

/-! ### One character more

What is scanned of a string is scanned of it with a character more behind, unless the scan gets
to the end of it. -/

section concat

variable {p : Char → Bool} {str r r' : List Char} {g : Char} {n : Int}

theorem while_concat (h : (str ++ [g]).dropWhile p ≠ []) :
    (str ++ [g]).dropWhile p = str.dropWhile p ++ [g] ∧
      (str ++ [g]).takeWhile p = str.takeWhile p := by
  induction str with
  | nil =>
      by_cases hg : p g = true
      · exact absurd (by simp [hg]) h
      · simp [hg]
  | cons c str ih =>
      by_cases hc : p c = true
      · rw [List.cons_append, List.dropWhile_cons_of_pos hc, List.takeWhile_cons_of_pos hc,
          List.dropWhile_cons_of_pos hc, List.takeWhile_cons_of_pos hc] at *
        exact ⟨(ih h).1, congrArg (c :: ·) (ih h).2⟩
      · rw [List.cons_append, List.dropWhile_cons_of_neg hc, List.takeWhile_cons_of_neg hc,
          List.dropWhile_cons_of_neg hc, List.takeWhile_cons_of_neg hc]
        exact ⟨rfl, rfl⟩

theorem dropWhile_concat_ne_nil (h : str.dropWhile p ≠ []) : (str ++ [g]).dropWhile p ≠ [] := by
  rw [List.dropWhile_append, if_neg (by simpa using h)]
  simp

theorem lit_concat : ∀ {fmt str : List Char}, lit fmt str = some r →
    lit fmt (str ++ [g]) = some (r ++ [g]) := by
  intro fmt
  induction fmt with
  | nil =>
      intro str h
      rw [lit, Option.some.inj h]
  | cons c fmt ih =>
      intro str h
      cases str with
      | nil => cases h
      | cons d str =>
          rw [lit] at h
          rw [List.cons_append, lit]
          split at h
          · rename_i hcd
            rw [if_pos hcd]
            exact ih h
          · cases h

theorem lit_of_concat (hne : r' ≠ []) : ∀ {fmt str : List Char}, lit fmt (str ++ [g]) = some r' →
    ∃ r, r' = r ++ [g] ∧ lit fmt str = some r := by
  intro fmt
  induction fmt with
  | nil =>
      intro str h
      exact ⟨str, (Option.some.inj h).symm, rfl⟩
  | cons c fmt ih =>
      intro str h
      cases str with
      | nil =>
          -- the character more is the last one of the format
          rw [List.nil_append, lit] at h
          split at h
          · cases fmt with
            | nil => exact absurd (Option.some.inj h).symm hne
            | cons => cases h
          · cases h
      | cons d str =>
          rw [List.cons_append, lit] at h
          rw [lit]
          split at h
          · rename_i hcd
            rw [if_pos hcd]
            exact ih h
          · cases h

theorem spaces_concat (h : spaces (str ++ [g]) ≠ []) : spaces (str ++ [g]) = spaces str ++ [g] :=
  (while_concat h).1

/-- What is left of a number behind its sign. -/
def afterSign (str : List Char) : List Char := if str.head? = some '-' then str.tail else str

theorem int_eq_some (str : List Char) :
    int str = some (n, r) ↔
      (afterSign (spaces str)).takeWhile Char.isDigit ≠ [] ∧
        (afterSign (spaces str)).dropWhile Char.isDigit = r ∧
        CInt.wrap (if (spaces str).head? = some '-' then
            -(decimal ((afterSign (spaces str)).takeWhile Char.isDigit) : Int)
          else decimal ((afterSign (spaces str)).takeWhile Char.isDigit)) = n := by
  have hint : int str =
      if (afterSign (spaces str)).takeWhile Char.isDigit = [] then none
      else some (CInt.wrap (if (spaces str).head? = some '-' then
          -(decimal ((afterSign (spaces str)).takeWhile Char.isDigit) : Int)
        else decimal ((afterSign (spaces str)).takeWhile Char.isDigit)),
        (afterSign (spaces str)).dropWhile Char.isDigit) := rfl
  rw [hint]
  split
  · rename_i h
    exact iff_of_false (by simp) fun h' => h'.1 h
  · rename_i h
    rw [Option.some.injEq, Prod.mk.injEq]
    exact ⟨fun e => ⟨h, e.2, e.1⟩, fun e => ⟨e.2.2, e.2.1⟩⟩

theorem afterSign_concat (hne : str ≠ []) :
    afterSign (str ++ [g]) = afterSign str ++ [g] ∧ (str ++ [g]).head? = str.head? := by
  obtain ⟨c, str, rfl⟩ := List.exists_cons_of_ne_nil hne
  refine ⟨?_, rfl⟩
  unfold afterSign
  rw [List.cons_append, List.head?_cons, List.head?_cons]
  split
  · rfl
  · rfl

/-- A number of which the end has been seen. -/
theorem int_of_concat (hne : r' ≠ []) (h : int (str ++ [g]) = some (n, r')) :
    ∃ r, r' = r ++ [g] ∧ int str = some (n, r) := by
  rw [int_eq_some] at h
  obtain ⟨hdigits, hrest, hval⟩ := h
  have hspaces : spaces (str ++ [g]) ≠ [] := by
    intro hnil
    rw [hnil] at hdigits
    exact hdigits rfl
  rw [spaces_concat hspaces] at hdigits hrest hval
  have hstr : spaces str ≠ [] := by
    intro hnil
    rw [hnil, List.nil_append] at hdigits hrest
    by_cases hminus : g = '-'
    · rw [hminus] at hdigits
      exact hdigits rfl
    · have hone : afterSign [g] = [g] := if_neg fun e => hminus (Option.some.inj e)
      rw [hone] at hdigits hrest
      by_cases hg : g.isDigit = true
      · rw [List.dropWhile_cons_of_pos hg] at hrest
        exact hne hrest.symm
      · rw [List.takeWhile_cons_of_neg hg] at hdigits
        exact hdigits rfl
  obtain ⟨hafter, hhead⟩ := afterSign_concat (g := g) hstr
  rw [hafter] at hdigits hrest hval
  obtain ⟨hdrop, htake⟩ := while_concat (hrest ▸ hne)
  rw [hhead, htake] at hval
  rw [htake] at hdigits
  exact ⟨_, hrest.symm.trans hdrop, (int_eq_some str).mpr ⟨hdigits, rfl, hval⟩⟩

theorem int_concat (hne : r ≠ []) (h : int str = some (n, r)) :
    int (str ++ [g]) = some (n, r ++ [g]) := by
  rw [int_eq_some] at h
  obtain ⟨hdigits, hrest, hval⟩ := h
  have hstr : spaces str ≠ [] := by
    intro hnil
    rw [hnil] at hdigits
    exact hdigits rfl
  have hspaces : spaces (str ++ [g]) = spaces str ++ [g] :=
    spaces_concat (dropWhile_concat_ne_nil hstr)
  obtain ⟨hafter, hhead⟩ := afterSign_concat (g := g) hstr
  obtain ⟨hdrop, htake⟩ := while_concat (dropWhile_concat_ne_nil (g := g) (hrest ▸ hne))
  rw [int_eq_some, hspaces, hafter, hhead, hdrop, htake]
  exact ⟨hdigits, by rw [hrest], hval⟩

end concat

/-- Digits behind a minus, or without one, are scanned. -/
theorem int_digits (minus : Bool) {digits rest : List Char} (hdigits : IsDigits digits)
    (hrest : ∀ c, rest.head? = some c → c.isDigit = false) :
    int ((if minus then ['-'] else []) ++ digits ++ rest) =
      some (CInt.wrap (if minus then -(decimal digits : Int) else decimal digits), rest) := by
  obtain ⟨htake, hdrop⟩ := takeWhile_append_stop hdigits.2 hrest
  obtain ⟨d, ds, rfl⟩ := List.exists_cons_of_ne_nil hdigits.1
  have hd : d.isDigit = true := hdigits.2 d List.mem_cons_self
  have hminus : d ≠ '-' := fun h => absurd (h ▸ hd) (by decide)
  rw [int_eq_some]
  cases minus with
  | true =>
      have hspaces : spaces ('-' :: (d :: ds ++ rest)) = '-' :: (d :: ds ++ rest) :=
        spaces_cons (by decide) _
      have hafter : afterSign ('-' :: (d :: ds ++ rest)) = d :: ds ++ rest := rfl
      simp only [if_true, List.cons_append, List.nil_append] at hspaces hafter htake hdrop ⊢
      rw [hspaces, hafter, htake, hdrop]
      exact ⟨hdigits.1, rfl, rfl⟩
  | false =>
      have hspaces : spaces (d :: ds ++ rest) = d :: ds ++ rest :=
        spaces_cons (isDigit_not_space hd) (ds ++ rest)
      have hhead : ¬(d :: ds ++ rest).head? = some '-' := fun h => hminus (Option.some.inj h)
      have hafter : afterSign (d :: ds ++ rest) = d :: ds ++ rest := if_neg hhead
      simp only [Bool.false_eq_true, if_false, List.nil_append]
      rw [hspaces, hafter, htake, hdrop, if_neg hhead]
      exact ⟨hdigits.1, rfl, rfl⟩

/-! ### What is left is the end of the string -/

theorem spaces_suffix (str : List Char) : spaces str <:+ str := List.dropWhile_suffix _

theorem lit_suffix {fmt str r : List Char} (h : lit fmt str = some r) : r <:+ str := by
  rw [lit_eq_some.mp h]
  exact List.suffix_append fmt r

theorem afterSign_suffix (str : List Char) : afterSign str <:+ str := by
  unfold afterSign
  split
  · exact List.tail_suffix str
  · exact List.suffix_refl str

theorem int_suffix {str r : List Char} {n : Int} (h : int str = some (n, r)) : r <:+ str := by
  rw [int_eq_some] at h
  rw [← h.2.1]
  exact (List.dropWhile_suffix _).trans ((afterSign_suffix _).trans (spaces_suffix str))

theorem int_inRange {str r : List Char} {n : Int} (h : int str = some (n, r)) :
    CInt.InRange n := by
  rw [int_eq_some] at h
  rw [← h.2.2]
  exact CInt.inRange_wrap _

theorem word_chars {width : Nat} {str w r : List Char} (h : word width str = some (w, r)) :
    w.length ≤ width ∧ ∀ c ∈ w, isSpace c = false ∧ c ∈ str := by
  unfold word at h
  split at h
  · cases h
  · obtain ⟨rfl, -⟩ := Prod.mk.inj (Option.some.inj h)
    have htake := List.length_take_le width (spaces str)
    have hpre := List.takeWhile_prefix (fun c => !isSpace c) (l := (spaces str).take width)
    refine ⟨Nat.le_trans hpre.length_le htake, fun c hc => ⟨?_, ?_⟩⟩
    · simpa using List.mem_takeWhile_imp hc
    · exact (spaces_suffix str).mem (List.mem_of_mem_take (hpre.mem hc))

/-! ### Integers in any base -/

/-- The text of a number without a sign, as `%i` takes it: its base, its digits, and the text. -/
inductive Numeral : Nat → List Char → List Char → Prop where
  | decimal {d : Char} {digits : List Char} : IsDigits (d :: digits) → d ≠ '0' →
      Numeral 10 (d :: digits) (d :: digits)
  | octal {digits : List Char} : (∀ c ∈ digits, hexValue c < 8) →
      Numeral 8 ('0' :: digits) ('0' :: digits)
  | hex {x : Char} {digits : List Char} : x.toLower = 'x' → digits ≠ [] →
      (∀ c ∈ digits, hexValue c < 16) → Numeral 16 digits ('0' :: x :: digits)

/-- The text of an integer. -/
structure Integer where
  blanks : List Char
  minus : Bool
  base : Nat
  digits : List Char
  body : List Char
  blanks_space : ∀ c ∈ blanks, isSpace c = true
  numeral : Numeral base digits body

def Integer.text (i : Integer) : List Char :=
  i.blanks ++ ((if i.minus then ['-'] else []) ++ i.body)

def Integer.value (i : Integer) : Int :=
  if i.minus then -(ofBase i.base i.digits : Int) else ofBase i.base i.digits

/-- A character at which every number ends. -/
def Ends (c : Char) : Prop := hexValue c = 16 ∧ c.toLower ≠ 'x'

theorem hexValue_isDigit {c : Char} (h : c.isDigit = true) : hexValue c < 10 := by
  have hle := Char.isDigit_iff_toNat.mp h
  have h9 : '9'.toNat = 57 := rfl
  have h0 : '0'.toNat = 48 := rfl
  unfold hexValue
  rw [if_pos h]
  omega

theorem toLower_of_hexValue {c : Char} (h : hexValue c < 8) : c.toLower ≠ 'x' := by
  have hdigit : c.isDigit = true := by
    by_contra hdigit
    unfold hexValue at h
    rw [if_neg hdigit] at h
    split at h
    · omega
    · split at h <;> omega
  have hle := (Char.isDigit_iff_toNat.mp hdigit).2
  have h9 : '9'.toNat = 57 := rfl
  have hsame : c.toLower = c := by
    unfold Char.toLower
    refine dif_neg fun hupper => ?_
    have : 65 ≤ c.toNat := hupper.1
    omega
  rw [hsame]
  rintro rfl
  revert hdigit
  decide

variable {base : Nat} {digits body rest : List Char}

theorem Numeral.base_le (h : Numeral base digits body) : base ≤ 16 := by
  cases h <;> decide

theorem Numeral.digits_lt (h : Numeral base digits body) : ∀ c ∈ digits, hexValue c < base := by
  cases h with
  | decimal hdigits _ => exact fun c hc => hexValue_isDigit (hdigits.2 c hc)
  | octal hdigits =>
      intro c hc
      rcases List.mem_cons.mp hc with rfl | hc
      · decide
      · exact hdigits c hc
  | hex _ _ hdigits => exact hdigits

theorem Numeral.head (h : Numeral base digits body) :
    ∃ d more, body = d :: more ∧ d.isDigit = true := by
  cases h with
  | decimal hdigits _ => exact ⟨_, _, rfl, hdigits.2 _ List.mem_cons_self⟩
  | octal _ => exact ⟨'0', _, rfl, rfl⟩
  | hex _ _ _ => exact ⟨'0', _, rfl, rfl⟩

theorem Numeral.fixupRadix (h : Numeral base digits body)
    (hrest : ∀ c, rest.head? = some c → Ends c) :
    fixupRadix (body ++ rest) = (base, digits ++ rest) := by
  cases h with
  | @decimal d digits _ hzero =>
      have hother : ∀ str, Sscanf.fixupRadix (d :: str) = (10, d :: str) := by
        intro str
        unfold Sscanf.fixupRadix
        split
        · rename_i heq
          exact absurd (List.cons.inj heq).1 hzero
        · rename_i heq
          exact absurd (List.cons.inj heq).1 hzero
        · rfl
      exact hother _
  | @octal digits hdigits =>
      have hnext : ∀ c, (digits ++ rest).head? = some c → c.toLower ≠ 'x' := by
        intro c hc
        cases digits with
        | nil => exact (hrest c hc).2
        | cons d digits =>
            obtain rfl := Option.some.inj hc
            exact toLower_of_hexValue (hdigits d List.mem_cons_self)
      cases hmore : digits ++ rest with
      | nil =>
          rw [List.cons_append, hmore]
          rfl
      | cons x more =>
          have hx : x.toLower ≠ 'x' := hnext x (by rw [hmore]; rfl)
          rw [List.cons_append, hmore]
          cases more with
          | nil => rfl
          | cons d str => exact if_neg fun h => hx h.1
  | @hex x digits hx hne hdigits =>
      obtain ⟨d, more, rfl⟩ := List.exists_cons_of_ne_nil hne
      exact if_pos ⟨hx, hdigits d List.mem_cons_self⟩

theorem anyInt_text (i : Integer) (hrest : ∀ c, rest.head? = some c → Ends c) :
    anyInt (i.text ++ rest) = some (CInt.wrap i.value, rest) := by
  obtain ⟨d, more, hbody, hd⟩ := i.numeral.head
  have hlt : ∀ c, rest.head? = some c → decide (hexValue c < i.base) = false := by
    intro c hc
    have := i.numeral.base_le
    have := (hrest c hc).1
    exact decide_eq_false (by omega)
  obtain ⟨htake, hdrop⟩ := takeWhile_append_stop (p := fun c => decide (hexValue c < i.base))
    (fun c hc => decide_eq_true (i.numeral.digits_lt c hc)) hlt
  have hfixup := i.numeral.fixupRadix hrest
  have hminus : d ≠ '-' := fun h => absurd (h ▸ hd) (by decide)
  have hspaces : spaces (i.text ++ rest) = (if i.minus then ['-'] else []) ++ (i.body ++ rest) := by
    unfold Integer.text spaces
    rw [List.append_assoc, List.dropWhile_append_of_pos i.blanks_space, hbody, List.append_assoc]
    cases i.minus with
    | true => exact spaces_cons (by decide) _
    | false => exact spaces_cons (isDigit_not_space hd) _
  have hhead : ((i.body ++ rest).head?.all fun c => !c.isDigit) = false := by
    rw [hbody]
    simp [hd]
  unfold anyInt Integer.value
  rw [hspaces]
  cases hneg : i.minus with
  | true =>
      simp only [if_true, List.cons_append, List.nil_append, List.head?_cons, List.tail_cons,
        hhead, hfixup, htake, hdrop]
      rfl
  | false =>
      have hhead' : (i.body ++ rest).head? ≠ some '-' := by
        rw [hbody]
        exact fun h => hminus (Option.some.inj h)
      simp only [Bool.false_eq_true, if_false, List.nil_append, hhead', hhead, hfixup, htake,
        hdrop]

theorem decimalText_inj {n k : Int} (hn : CInt.InRange n) (hk : CInt.InRange k)
    (h : decimalText n = decimalText k) : n = k := by
  have hnone : ∀ c, ([] : List Char).head? = some c → c.isDigit = false := fun c hc => by cases hc
  have hint := int_decimalText hn hnone
  rw [h, int_decimalText hk hnone] at hint
  exact (Prod.mk.inj (Option.some.inj hint)).1.symm

end Sscanf
