/-
Text as the C library reads it: lines, words and numbers.

A string ends with its last character.  A `long` has 32 bits, so a number that is too large becomes
the largest one.
-/
import Acq400.Lib.Memory
import Acq400.Lib.Sscanf
import Mathlib.Data.BitVec

namespace CText

def isSpace (c : Char) : Bool := c = ' ' || ('\t' ≤ c && c ≤ '\r')

/-- The string that is in front of the first 0. -/
def str (bytes : List Char) : List Char := bytes.takeWhile fun c => c ≠ '\x00'

/-! ### Lines -/

/-- The line that `fgets` reads, of at most `n` characters, and what is behind it. -/
def fgets : Nat → List Char → List Char × List Char
  | 0, file => ([], file)
  | _ + 1, [] => ([], [])
  | n + 1, c :: file =>
    if c = '\n' then ([c], file) else (c :: (fgets n file).1, (fgets n file).2)

/-- The lines of a file of at most `fuel` characters. -/
def linesFrom (n : Nat) : Nat → List Char → List (List Char)
  | 0, _ => []
  | fuel + 1, file =>
    if file = [] then [] else (fgets n file).1 :: linesFrom n fuel (fgets n file).2

/-- What `fgets` reads, one line after the other. -/
def lines (n : Nat) (file : List Char) : List (List Char) := linesFrom n file.length file

/-! ### Strings in memory -/

/-- The string at an address, of at most `n` characters. -/
def strAt (m : Nat → Char) (s n : Nat) : List Char := str ((List.range n).map fun i => m (s + i))

def strlen (m : Nat → Char) (s n : Nat) : Nat := (strAt m s n).length

/-- `fgets` into memory; none at the end of the file.  It has to read only if there is room for more
than the 0 behind the line. -/
def fgetsAt (m : Nat → Char) (s size : Nat) (file : List Char) :
    Option ((Nat → Char) × List Char) :=
  if size = 0 then none
  else if size = 1 then some (Memory.store m s ['\x00'], file)
  else if file = [] then none
  else some (Memory.store m s ((fgets (size - 1) file).1 ++ ['\x00']), (fgets (size - 1) file).2)

/-- `snprintf` of a text; what it returns is the length of all of it. -/
def snprintf (m : Nat → Char) (s size : Nat) (text : List Char) : (Nat → Char) × Int :=
  (if size = 0 then m else Memory.store m s (text.take (size - 1) ++ ['\x00']), text.length)

/-! ### Words and numbers -/

/-- `%s` with a width. -/
def word (width : Nat) (text : List Char) : Option (List Char × List Char) :=
  let text := text.dropWhile isSpace
  let got := (text.take width).takeWhile fun c => !isSpace c
  if got = [] then none else some (got, text.drop got.length)

/-- A number behind white space and a sign: whether it has a minus, and what is left. -/
def sign (text : List Char) : Bool × List Char :=
  let text := text.dropWhile isSpace
  if text.head? = some '-' then (true, text.tail)
  else if text.head? = some '+' then (false, text.tail)
  else (false, text)

def atoi (text : List Char) : Int :=
  let (minus, text) := sign text
  let n : Int := Sscanf.decimal (text.takeWhile Char.isDigit)
  max (-2147483648) (min (if minus then -n else n) 2147483647)

/-- `%d`. -/
def int (text : List Char) : Option (Int × List Char) :=
  let (minus, text) := sign text
  let digits := text.takeWhile Char.isDigit
  if digits = [] then none
  else
    let n : Int := Sscanf.decimal digits
    some (max (-2147483648) (min (if minus then -n else n) 2147483647),
      text.dropWhile Char.isDigit)

/-- The value of a digit, 36 for what is none. -/
def digitValue (c : Char) : Nat :=
  if c.isDigit then c.toNat - '0'.toNat
  else if c.isLower then c.toNat - 'a'.toNat + 10
  else if c.isUpper then c.toNat - 'A'.toNat + 10
  else 36

/-- The number that the digits of a base are. -/
def digits (base : Nat) (text : List Char) : Nat :=
  (text.takeWhile fun c => digitValue c < base).foldl (fun n c => base * n + digitValue c) 0

/-- `0x` with a digit behind it. -/
def hexPrefix : List Char → Bool
  | '0' :: x :: d :: _ => (x = 'x' || x = 'X') && digitValue d < 16
  | _ => false

/-- `strtoul`, for a base of 0 or one that takes no prefix. -/
def strtoul (text : List Char) (base : Nat) : BitVec 32 :=
  let (minus, text) := sign text
  let n :=
    if base ≠ 0 then digits base text
    else if hexPrefix text then digits 16 (text.drop 2)
    else if text.head? = some '0' then digits 8 text
    else digits 10 text
  if 4294967295 < n then 4294967295
  else if minus then -BitVec.ofNat 32 n else BitVec.ofNat 32 n

/-! ### What a scan leaves -/

variable {text rest got : List Char}

theorem isDigit_not_space {c : Char} (h : c.isDigit = true) : isSpace c = false := by
  have hkernel := Sscanf.isDigit_not_space h
  unfold Sscanf.isSpace at hkernel
  rw [Bool.or_eq_false_iff] at hkernel
  exact hkernel.1

theorem atoi_digits (h : Sscanf.IsDigits text) :
    atoi text = min (Sscanf.decimal text : Int) 2147483647 := by
  obtain ⟨hne, hdigits⟩ := h
  obtain ⟨d, ds, rfl⟩ := List.exists_cons_of_ne_nil hne
  have hd : d.isDigit = true := hdigits d List.mem_cons_self
  have hminus : d ≠ '-' := fun h => absurd (h ▸ hd) (by decide)
  have hplus : d ≠ '+' := fun h => absurd (h ▸ hd) (by decide)
  have hsign : sign (d :: ds) = (false, d :: ds) := by
    have hspaces : (d :: ds).dropWhile isSpace = d :: ds :=
      List.dropWhile_cons_of_neg (by rw [isDigit_not_space hd]; exact Bool.false_ne_true)
    unfold sign
    simp only [hspaces, List.head?_cons, Option.some.injEq, hminus, hplus, if_false]
  unfold atoi
  simp only [hsign, List.takeWhile_eq_self_iff.mpr hdigits, Bool.false_eq_true, if_false]
  omega

theorem sign_length (text : List Char) : (sign text).2.length ≤ text.length := by
  have hspaces := (List.dropWhile_suffix isSpace (l := text)).length_le
  have htail : (text.dropWhile isSpace).tail.length ≤ (text.dropWhile isSpace).length := by
    rw [List.length_tail]
    exact Nat.sub_le _ _
  unfold sign
  dsimp only
  split
  · exact htail.trans hspaces
  · split
    · exact htail.trans hspaces
    · exact hspaces

theorem int_length {n : Int} (h : int text = some (n, rest)) : rest.length ≤ text.length := by
  unfold int at h
  dsimp only at h
  obtain ⟨-, heq⟩ := Option.ite_none_left_eq_some.mp h
  obtain rfl := (Prod.mk.inj (Option.some.inj heq)).2
  exact (List.dropWhile_suffix _).length_le.trans (sign_length text)

theorem word_length {width : Nat} (h : word width text = some (got, rest)) :
    got.length ≤ text.length := by
  unfold word at h
  dsimp only at h
  obtain ⟨-, heq⟩ := Option.ite_none_left_eq_some.mp h
  obtain rfl := (Prod.mk.inj (Option.some.inj heq)).1
  refine (List.takeWhile_prefix _).length_le.trans ?_
  exact (List.length_take_le' _ _).trans (List.dropWhile_suffix _).length_le

theorem word_eq_none : word text.length text = none ↔ ∀ c ∈ text, isSpace c = true := by
  have hlen := (List.dropWhile_suffix isSpace (l := text)).length_le
  unfold word
  dsimp only
  rw [List.take_of_length_le hlen, ← List.dropWhile_eq_nil_iff]
  cases hdrop : text.dropWhile isSpace with
  | nil => simp
  | cons c cs =>
      have hc : isSpace c = false := by
        have hhead := List.head?_dropWhile_not isSpace text
        rw [hdrop] at hhead
        simpa using hhead
      simp [hc]

/-! ### What a line is -/

theorem fgets_cons (n : Nat) (c : Char) (file : List Char) :
    fgets (n + 1) (c :: file) =
      if c = '\n' then ([c], file) else (c :: (fgets n file).1, (fgets n file).2) := rfl

theorem fgets_append (n : Nat) (file : List Char) :
    (fgets n file).1 ++ (fgets n file).2 = file := by
  induction file generalizing n with
  | nil => cases n <;> rfl
  | cons c file ih =>
      cases n with
      | zero => rfl
      | succ n =>
          rw [fgets_cons]
          split
          · rfl
          · exact congrArg (c :: ·) (ih n)

theorem length_fgets_le (n : Nat) (file : List Char) : (fgets n file).1.length ≤ n := by
  induction file generalizing n with
  | nil => cases n <;> exact Nat.zero_le _
  | cons c file ih =>
      cases n with
      | zero => exact Nat.le_refl 0
      | succ n =>
          rw [fgets_cons]
          split
          · exact Nat.le_add_left 1 n
          · exact Nat.succ_le_succ (ih n)

theorem length_fgets_lt {n : Nat} {file : List Char} (hn : 0 < n) (hfile : file ≠ []) :
    (fgets n file).2.length < file.length := by
  obtain ⟨n, rfl⟩ := Nat.exists_eq_succ_of_ne_zero (Nat.ne_of_gt hn)
  obtain ⟨c, file, rfl⟩ := List.exists_cons_of_ne_nil hfile
  rw [fgets_cons]
  split
  · exact Nat.lt_succ_self _
  · have happend := congrArg List.length (fgets_append n file)
    rw [List.length_append] at happend
    show (fgets n file).2.length < file.length + 1
    omega

/-! ### Strings that have been stored -/

theorem str_of_forall (h : ∀ c ∈ text, c ≠ '\x00') : str text = text := by
  refine List.takeWhile_eq_self_iff.mpr fun c hc => ?_
  exact decide_eq_true (h c hc)

theorem str_append_nul (text rest : List Char) : str (text ++ '\x00' :: rest) = str text := by
  unfold str
  induction text with
  | nil => rfl
  | cons c text ih =>
      rw [List.cons_append, List.takeWhile_cons, List.takeWhile_cons, ih]

theorem strAt_store {m : Nat → Char} {s n : Nat} (hlen : text.length < n) :
    strAt (Memory.store m s (text ++ ['\x00'])) s n = str text := by
  have hmap : (List.range (text.length + 1)).map
      (fun i => Memory.store m s (text ++ ['\x00']) (s + i)) = text ++ ['\x00'] := by
    refine List.ext_getElem (by simp) fun i hi hi' => ?_
    rw [List.getElem_map, List.getElem_range, Memory.store_inside hi']
  obtain ⟨k, rfl⟩ := Nat.exists_eq_add_of_le (Nat.succ_le_of_lt hlen)
  unfold strAt
  rw [List.range_add, List.map_append, hmap, List.append_assoc]
  exact str_append_nul text _

end CText
