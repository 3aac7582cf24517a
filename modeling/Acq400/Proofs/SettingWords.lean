/-
The words of a setting, for the aggregator, a data engine and the distributor.

The words of a text are looked for one kind after the other, wherever they stand.  A needle is not
in a word that has not all its letters, so each is found in the words of its kind and no others,
but for one: there is an `on` in `sites=none`.

A part of the code that does the words of a kind keeps the bits of the others, so the parts come
one after the other to what all the words say.  What a word says is a parameter here: the registers
have their fields in other places.
-/
import Acq400.Driver.AggReg
import Acq400.Lib.MaskField

namespace Acq400

namespace AggReg

open MaskField Words

/-! ### The words of a text -/

/-- What a word is about. -/
inductive Kind where
  | label
  | sites
  | threshold
  | select
  | comms
  | pad
  | enable
deriving DecidableEq, Repr

/-- The words that set something, and what is shown in front of them. -/
inductive Word where
  | label (regval : BitVec 32)
  | sites (l : List Nat)
  | noSites
  | threshold (minus : Bool) (digits : List Char)
  | select (offset : Nat) (agg : Bool)
  | comms (letter : Char)
  | pad (digits : List Char)
  | enable (shown on : Bool)
deriving DecidableEq, Repr

/-- Sites with a comma between them. -/
def listText : List Nat → List Char
  | [] => []
  | d :: l => Sscanf.decimalText d ++ if l = [] then [] else ',' :: listText l

/-- `on` or `off`, or as it is shown. -/
def enableText (shown on : Bool) : List Char :=
  (if shown then "DATA_MOVER_EN=".toList else []) ++ (if on then "on" else "off").toList

namespace Rig

/-- The site that a number stands for. -/
def siteOf (rig : Rig) (d : Nat) : Int := if rig.isAcq1001sc ∧ d = 4 then 3 else d

/-- The number that a site is shown as. -/
def dsite (rig : Rig) (site : Nat) : Nat := if rig.isAcq1001sc ∧ site = 3 then 4 else site

end Rig

namespace Word

def kind : Word → Kind
  | label _ => .label
  | sites _ => .sites
  | noSites => .sites
  | threshold _ _ => .threshold
  | select _ _ => .select
  | comms _ => .comms
  | pad _ => .pad
  | enable _ _ => .enable

def text : Word → List Char
  | label regval => "reg=0x".toList ++ hexText regval
  | sites l => "sites=".toList ++ listText l
  | noSites => "sites=none".toList
  | threshold minus digits => thSel ++ ((if minus then ['-'] else []) ++ digits)
  | select offset agg => selText offset ++ [if agg then '1' else '0']
  | comms letter => "comms=".toList ++ [letter]
  | pad digits => "pad=".toList ++ digits
  | enable shown on => enableText shown on

/-- What a word may have behind its name. -/
def Fits (rig : Rig) : Word → Prop
  | sites l => ∀ d ∈ l, 1 ≤ d ∧ d ≤ 6 ∧ (d : Int) ∈ rig.goodSites
  | threshold _ digits => Sscanf.IsDigits digits
  | comms letter => letter.isAlphanum = true
  | pad digits => Sscanf.IsDigits digits ∧ Sscanf.decimal digits ≤ 256
  | _ => True

/-- The sites that a word names. -/
def siteList (rig : Rig) : Word → List Int
  | sites l => l.map rig.siteOf
  | _ => []

end Word

/-- A text of words that a knob may be given, at most one of each kind. -/
structure Spells (rig : Rig) (May : Word → Prop) (t : List Char) (ws : List Word) : Prop where
  text : ∃ tail ∈ ends, t = unwords tail (ws.map Word.text)
  fits : ∀ w ∈ ws, w.Fits rig
  may : ∀ w ∈ ws, May w
  nodup : (ws.map Word.kind).Nodup

variable {rig : Rig} {May : Word → Prop} {t rest : List Char} {ws : List Word} {w : Word} {c : Char}

/-! ### The letters of a word -/

def labelLetters : List Char :=
  ['r', 'e', 'g', '=', '0', 'x', '1', '2', '3', '4', '5', '6', '7', '8', '9', 'a', 'b', 'c', 'd',
    'f']

def siteLetters : List Char :=
  ['s', 'i', 't', 'e', '=', ',', '0', '1', '2', '3', '4', '5', '6', '7', '8', '9']

def noSiteLetters : List Char := ['s', 'i', 't', 'e', '=', 'n', 'o']

def thresholdLetters : List Char :=
  ['t', 'h', 'r', 'e', 's', 'o', 'l', 'd', '=', '-', '0', '1', '2', '3', '4', '5', '6', '7', '8',
    '9']

def padLetters : List Char := ['p', 'a', 'd', '=', '0', '1', '2', '3', '4', '5', '6', '7', '8', '9']

def enableLetters : List Char :=
  ['D', 'A', 'T', '_', 'M', 'O', 'V', 'E', 'R', 'N', '=', 'o', 'n', 'f']

/-- The letters that a word can have. -/
def Word.letters : Word → List Char
  | .label _ => labelLetters
  | .sites _ => siteLetters
  | .noSites => noSiteLetters
  | .threshold _ _ => thresholdLetters
  | .select offset _ => selText offset ++ ['0', '1']
  | .comms letter => "comms=".toList ++ [letter]
  | .pad _ => padLetters
  | .enable _ _ => enableLetters

theorem mem_hexText {n : BitVec 32} (h : c ∈ hexText n) : c ∈ labelLetters := by
  have hdigit : ∀ d < 16, Nat.digitChar d ∈ labelLetters := by decide
  obtain ⟨shl, -, rfl⟩ := List.mem_map.mp h
  exact hdigit _ (Nat.mod_lt _ (by decide))

def digitLetters : List Char := ['0', '1', '2', '3', '4', '5', '6', '7', '8', '9']

theorem mem_digits (h : c.isDigit = true) : c ∈ digitLetters := by
  have hall : ∀ n < 58, 48 ≤ n → Char.ofNat n ∈ digitLetters := by decide
  rw [Char.isDigit_iff_toNat] at h
  have h0 : '0'.toNat = 48 := rfl
  have h9 : '9'.toNat = 57 := rfl
  have hc := hall c.toNat (by omega) (by omega)
  rwa [Char.ofNat_toNat] at hc

theorem mem_decimalText {n : Nat} (h : c ∈ Sscanf.decimalText n) : c.isDigit = true := by
  have hnat : ¬(n : Int) < 0 := by omega
  unfold Sscanf.decimalText at h
  rw [if_neg hnat] at h
  exact Sscanf.toDigits_isDigit h

theorem mem_listText {l : List Nat} (h : c ∈ listText l) : c = ',' ∨ c.isDigit = true := by
  induction l with
  | nil => exact absurd h List.not_mem_nil
  | cons d l ih =>
      rw [listText] at h
      rcases List.mem_append.mp h with h | h
      · exact .inr (mem_decimalText h)
      · split at h
        · exact absurd h List.not_mem_nil
        · exact (List.mem_cons.mp h).elim .inl ih

theorem mem_letters (hfits : w.Fits rig) (h : c ∈ w.text) : c ∈ w.letters := by
  cases w with
  | label regval =>
      rcases List.mem_append.mp h with h | h
      · exact (by decide : "reg=0x".toList ⊆ labelLetters) h
      · exact mem_hexText h
  | sites l =>
      rcases List.mem_append.mp h with h | h
      · exact (by decide : "sites=".toList ⊆ siteLetters) h
      · rcases mem_listText h with rfl | h
        · exact (by decide : ',' ∈ siteLetters)
        · exact (by decide : digitLetters ⊆ siteLetters) (mem_digits h)
  | noSites => exact (by decide : "sites=none".toList ⊆ noSiteLetters) h
  | threshold minus digits =>
      rcases List.mem_append.mp h with h | h
      · exact (by decide : thSel ⊆ thresholdLetters) h
      · rcases List.mem_append.mp h with h | h
        · cases minus with
          | true => exact (by decide : ['-'] ⊆ thresholdLetters) h
          | false => exact absurd h List.not_mem_nil
        · exact (by decide : digitLetters ⊆ thresholdLetters) (mem_digits (hfits.2 c h))
  | select offset agg =>
      refine List.mem_append.mpr ((List.mem_append.mp h).imp_right fun h => ?_)
      cases agg with
      | true => exact (by decide : ['1'] ⊆ ['0', '1']) h
      | false => exact (by decide : ['0'] ⊆ ['0', '1']) h
  | comms letter => exact h
  | pad digits =>
      rcases List.mem_append.mp h with h | h
      · exact (by decide : "pad=".toList ⊆ padLetters) h
      · exact (by decide : digitLetters ⊆ padLetters) (mem_digits (hfits.1.2 c h))
  | enable shown on =>
      have hall : ∀ shown on, enableText shown on ⊆ enableLetters := by decide
      exact hall shown on h

/-! ### What is found in a word -/

variable {needle : List Char}

theorem strstr_none (hfits : w.Fits rig) (c : Char) (hc : c ∈ needle) (h : c ∉ w.letters) :
    strstr needle w.text = none :=
  strstr_none_of_letter hc fun hin => h (mem_letters hfits hin)

def selectLetters : List Char :=
  ['a', 'g', 'r', 'e', 't', 'o', 'd', 'i', 's', 'b', 'u', '=', '0', '1']

/-- A letter that neither selecting word has. -/
theorem not_mem_select (offset : Nat) (h : c ∉ selectLetters) :
    c ∉ selText offset ++ ['0', '1'] := by
  have hall : selText offset ++ ['0', '1'] ⊆ selectLetters := by
    unfold selText
    split <;> decide
  exact fun hin => h (hall hin)

/-- There is room for one letter behind `comms=`, and not for two. -/
theorem strstr_letter (letter a b : Char) (ha : a ∈ needle) (hb : b ∈ needle)
    (hab : a ≠ b) (hacomms : a ∉ "comms=".toList) (hbcomms : b ∉ "comms=".toList) :
    strstr needle (Word.comms letter).text = none := by
  by_cases hletter : letter = a
  · refine strstr_none_of_letter hb fun hin => ?_
    rcases List.mem_append.mp hin with hin | hin
    · exact hbcomms hin
    · exact hab (hletter.symm.trans (List.mem_singleton.mp hin).symm)
  · refine strstr_none_of_letter ha fun hin => ?_
    rcases List.mem_append.mp hin with hin | hin
    · exact hacomms hin
    · exact hletter (List.mem_singleton.mp hin).symm

/-- What is not in `comms` and has no `=` is not in the word. -/
theorem strstr_behind (letter : Char) (hlen : 1 < needle.length)
    (heq : '=' ∉ needle) (hcomms : strstr needle "comms".toList = none) :
    strstr needle (Word.comms letter).text = none := by
  have htext : (Word.comms letter).text = "comms".toList ++ '=' :: [letter] := rfl
  rw [htext, strstr_break (List.ne_nil_of_length_pos (Nat.zero_lt_of_lt hlen)) heq, hcomms]
  exact strstr_eq_none.mpr fun hin => absurd hin.length_le (Nat.not_le_of_lt hlen)

theorem strstr_sites (hfits : w.Fits rig) :
    strstr "sites=".toList w.text = if w.kind = .sites then some w.text else none := by
  have hs : 's' ∉ w.letters → strstr "sites=".toList w.text = none :=
    strstr_none hfits 's' (by decide)
  have hi : 'i' ∉ w.letters → strstr "sites=".toList w.text = none :=
    strstr_none hfits 'i' (by decide)
  cases w with
  | label regval => exact hs (by decide : 's' ∉ labelLetters)
  | sites l => exact strstr_prefix (by decide) _
  | noSites => exact strstr_prefix (by decide : "sites=".toList ≠ []) "none".toList
  | threshold minus digits => exact hi (by decide : 'i' ∉ thresholdLetters)
  | select offset agg =>
      have hlacks : 's' ∉ selText offset ++ ['0', '1'] ∨ 'e' ∉ selText offset ++ ['0', '1'] := by
        unfold selText
        split
        · exact .inr (by decide)
        · exact .inl (by decide)
      rcases hlacks with hlacks | hlacks
      · exact hs hlacks
      · exact strstr_none hfits 'e' (by decide) hlacks
  | comms letter =>
      exact strstr_letter letter 'i' 't' (by decide) (by decide) (by decide) (by decide) (by decide)
  | pad digits => exact hi (by decide : 'i' ∉ padLetters)
  | enable shown on => exact hs (by decide : 's' ∉ enableLetters)

theorem strstr_threshold (hfits : w.Fits rig) :
    strstr thSel w.text = if w.kind = .threshold then some w.text else none := by
  have hmem : 'h' ∈ thSel := by decide
  have hh : 'h' ∉ w.letters → strstr thSel w.text = none := strstr_none hfits 'h' hmem
  cases w with
  | label regval => exact hh (by decide : 'h' ∉ labelLetters)
  | sites l => exact hh (by decide : 'h' ∉ siteLetters)
  | noSites => exact hh (by decide : 'h' ∉ noSiteLetters)
  | threshold minus digits => exact strstr_prefix (List.ne_nil_of_mem hmem) _
  | select offset agg => exact hh (not_mem_select offset (by decide))
  | comms letter =>
      exact strstr_letter letter 'h' 't' hmem (by decide) (by decide) (by decide) (by decide)
  | pad digits => exact hh (by decide : 'h' ∉ padLetters)
  | enable shown on => exact hh (by decide : 'h' ∉ enableLetters)

/-- There is an `on` in the word for no sites. -/
theorem strstr_on (hfits : w.Fits rig) :
    strstr "on".toList w.text ≠ none ↔ w = .noSites ∨ ∃ shown, w = .enable shown true := by
  have hn : 'n' ∉ w.letters → strstr "on".toList w.text = none :=
    strstr_none hfits 'n' (by decide)
  cases w with
  | label regval =>
      rw [hn (by decide : 'n' ∉ labelLetters)]
      simp
  | sites l =>
      rw [hn (by decide : 'n' ∉ siteLetters)]
      simp
  | noSites =>
      have hfound : strstr "on".toList "sites=none".toList ≠ none := by decide
      exact iff_of_true hfound (.inl rfl)
  | threshold minus digits =>
      rw [hn (by decide : 'n' ∉ thresholdLetters)]
      simp
  | select offset agg =>
      rw [hn (not_mem_select offset (by decide))]
      simp
  | comms letter =>
      rw [strstr_behind letter (by decide) (by decide) (by decide)]
      simp
  | pad digits =>
      rw [hn (by decide : 'n' ∉ padLetters)]
      simp
  | enable shown on =>
      have hall : ∀ shown on, strstr "on".toList (enableText shown on) ≠ none ↔ on = true := by
        decide
      exact (hall shown on).trans (by simp)

theorem strstr_off (hfits : w.Fits rig) :
    strstr "off".toList w.text ≠ none ↔ ∃ shown, w = .enable shown false := by
  have hf : 'f' ∉ w.letters → strstr "off".toList w.text = none :=
    strstr_none hfits 'f' (by decide)
  cases w with
  | label regval =>
      rw [strstr_none hfits 'o' (by decide) (by decide : 'o' ∉ labelLetters)]
      simp
  | sites l =>
      rw [hf (by decide : 'f' ∉ siteLetters)]
      simp
  | noSites =>
      rw [hf (by decide : 'f' ∉ noSiteLetters)]
      simp
  | threshold minus digits =>
      rw [hf (by decide : 'f' ∉ thresholdLetters)]
      simp
  | select offset agg =>
      rw [hf (not_mem_select offset (by decide))]
      simp
  | comms letter =>
      rw [strstr_behind letter (by decide) (by decide) (by decide)]
      simp
  | pad digits =>
      rw [hf (by decide : 'f' ∉ padLetters)]
      simp
  | enable shown on =>
      have hall : ∀ shown on, strstr "off".toList (enableText shown on) ≠ none ↔ on = false := by
        decide
      exact (hall shown on).trans (by simp)

theorem kind_sites (h : w.kind = .sites) : w = .noSites ∨ ∃ l, w = .sites l := by
  cases w with
  | noSites => exact .inl rfl
  | sites l => exact .inr ⟨l, rfl⟩
  | _ => cases h

theorem kind_threshold (h : w.kind = .threshold) : ∃ minus digits, w = .threshold minus digits := by
  cases w with
  | threshold minus digits => exact ⟨minus, digits, rfl⟩
  | _ => cases h

theorem kind_enable (h : w.kind = .enable) : ∃ shown on, w = .enable shown on := by
  cases w with
  | enable shown on => exact ⟨shown, on, rfl⟩
  | _ => cases h

/-- A word that names a site is a list. -/
theorem eq_sites_of_mem {site : Int} (h : site ∈ w.siteList rig) :
    ∃ l, w = .sites l ∧ ∃ d ∈ l, rig.siteOf d = site := by
  cases w with
  | sites l => exact ⟨l, rfl, List.mem_map.mp h⟩
  | _ => exact absurd h List.not_mem_nil

/-! ### What is found in a text -/

/-- A word is found, however the words are ordered. -/
theorem Spells.find_ne_none (h : Spells rig May t ws) (hne : needle ≠ []) (hspace : ' ' ∉ needle)
    (hline : '\n' ∉ needle) :
    strstr needle t ≠ none ↔ ∃ w ∈ ws, strstr needle w.text ≠ none := by
  obtain ⟨tail, htail, rfl⟩ := h.text
  exact strstr_map_ne_none hne hspace hline htail

/-- The word of a kind is found where it stands, if there is one. -/
theorem Spells.find_kind (h : Spells rig May t ws) (hne : needle ≠ []) (hspace : ' ' ∉ needle)
    (hline : '\n' ∉ needle) {kind : Kind} (hkind : ∀ w ∈ ws,
      strstr needle w.text = if w.kind = kind then some w.text else none) :
    strstr needle t = none ∧ (∀ w ∈ ws, w.kind ≠ kind) ∨
      ∃ w ∈ ws, w.kind = kind ∧ ∃ rest, Stop rest ∧ strstr needle t = some (w.text ++ rest) := by
  obtain ⟨tail, htail, rfl⟩ := h.text
  exact strstr_map_kind hne hspace hline htail hkind

theorem on_spells (h : Spells rig May t ws) :
    strstr "on".toList t ≠ none ↔ Word.noSites ∈ ws ∨ ∃ shown, Word.enable shown true ∈ ws := by
  rw [h.find_ne_none (by decide) (by decide) (by decide)]
  constructor
  · rintro ⟨w, hw, hfound⟩
    rcases (strstr_on (h.fits w hw)).mp hfound with rfl | ⟨shown, rfl⟩
    · exact .inl hw
    · exact .inr ⟨shown, hw⟩
  · rintro (hw | ⟨shown, hw⟩)
    · exact ⟨_, hw, (strstr_on (h.fits _ hw)).mpr (.inl rfl)⟩
    · exact ⟨_, hw, (strstr_on (h.fits _ hw)).mpr (.inr ⟨shown, rfl⟩)⟩

theorem off_spells (h : Spells rig May t ws) :
    strstr "off".toList t ≠ none ↔ ∃ shown, Word.enable shown false ∈ ws := by
  rw [h.find_ne_none (by decide) (by decide) (by decide)]
  constructor
  · rintro ⟨w, hw, hfound⟩
    obtain ⟨shown, rfl⟩ := (strstr_off (h.fits w hw)).mp hfound
    exact ⟨shown, hw⟩
  · rintro ⟨shown, hw⟩
    exact ⟨_, hw, (strstr_off (h.fits _ hw)).mpr ⟨shown, rfl⟩⟩

/-- No digit comes behind a word. -/
theorem stop_no_digit (h : Stop rest) (hc : rest.head? = some c) : c.isDigit = false := by
  rcases h.head hc with rfl | rfl
  · decide
  · decide

/-! ### A list of sites -/

theorem siteOf_range (rig : Rig) {d : Nat} (hd : 1 ≤ d ∧ d ≤ 6) :
    1 ≤ rig.siteOf d ∧ rig.siteOf d ≤ 6 := by
  unfold Rig.siteOf
  split
  · decide
  · omega

theorem designated_good {d : Nat} (hgood : (d : Int) ∈ rig.goodSites) :
    rig.designated d = rig.siteOf d := by
  have hfour : ((d : Int) = 4) ↔ d = 4 := by omega
  unfold Rig.designated Rig.siteOf
  rw [if_pos hgood]
  simp only [hfour]

theorem getSite_decimalText (rig : Rig) {d : Nat} (hd : d ≤ 6)
    (hrest : ∀ c, rest.head? = some c → c.isDigit = false) :
    rig.getSite (Sscanf.decimalText d ++ rest) = rig.designated d := by
  have hrange : CInt.InRange (d : Int) := by
    unfold CInt.InRange
    omega
  unfold Rig.getSite
  rw [Sscanf.int_decimalText hrange hrest]

theorem decimalText_site {d : Nat} (hd : 1 ≤ d ∧ d ≤ 6) :
    Sscanf.decimalText (d : Int) = [Nat.digitChar d] ∧ Nat.digitChar d ≠ ' ' ∧
      ¬(Nat.digitChar d = ',' ∨ Nat.digitChar d = '\n') := by
  have hdigit : ∀ d < 7, 1 ≤ d → Sscanf.decimalText ((d : Nat) : Int) = [Nat.digitChar d] ∧
      Nat.digitChar d ≠ ' ' ∧ ¬(Nat.digitChar d = ',' ∨ Nat.digitChar d = '\n') := by decide
  exact hdigit d (by omega) hd.1

/-- What stands in a list is not `none`. -/
theorem listText_not_none (l : List Nat) (hstop : Stop rest) :
    ¬"none".toList.isPrefixOf (listText l ++ rest) = true := by
  intro hpre
  obtain ⟨more, hmore⟩ := List.isPrefixOf_iff_prefix.mp hpre
  have hhead : (listText l ++ rest).head? = some 'n' := by
    rw [← hmore]
    rfl
  cases hl : listText l with
  | nil =>
      rw [hl] at hhead
      rcases hstop.head hhead with h | h
      · exact absurd h (by decide)
      · exact absurd h (by decide)
  | cons c cs =>
      rw [hl] at hhead
      obtain rfl := Option.some.inj hhead
      have hmem : 'n' ∈ listText l := by
        rw [hl]
        exact List.mem_cons_self
      rcases mem_listText hmem with h | h
      · exact absurd h (by decide)
      · exact absurd h (by decide)

/-! ### The threshold -/

/-- `AGG_SIZE_MASK`, where it is shifted to. -/
def thresholdSpan : Span 32 := ⟨aggSizeShl, 8, by decide, by decide⟩

theorem thOf_le (thbytes : Int) : (rig.thOf thbytes).toNat ≤ 255 := by
  unfold Rig.thOf
  dsimp only
  split
  · decide
  · rename_i h
    exact Nat.le_of_not_lt h

/-- What does not fit is the largest threshold. -/
theorem thOf_natCast {n : Nat} (hn : n ≤ 2147483647) :
    (rig.thOf n).toNat = min (n / rig.aggSizeUnit) 255 := by
  have hdiv : (n : Int).tdiv rig.aggSizeUnit = ((n / rig.aggSizeUnit : Nat) : Int) := rfl
  have hle : n / rig.aggSizeUnit ≤ n := Nat.div_le_self _ _
  have hth : (BitVec.ofInt 32 ((n : Int).tdiv rig.aggSizeUnit)).toNat = n / rig.aggSizeUnit := by
    rw [hdiv, BitVec.ofInt_natCast, BitVec.toNat_ofNat]
    exact Nat.mod_eq_of_lt (by omega)
  have hmask : aggSizeMask.toNat = 255 := rfl
  unfold Rig.thOf
  dsimp only
  split
  · rename_i h
    rw [BitVec.lt_def, hth, hmask] at h
    rw [hmask]
    omega
  · rename_i h
    rw [BitVec.lt_def, hth, hmask] at h
    rw [hth]
    omega

/-- The threshold is put into its field. -/
theorem put_threshold {th : BitVec 32} (hth : th.toNat ≤ 255) (reg : BitVec 32) :
    (reg &&& ~~~(aggSizeMask <<< aggSizeShl)) ||| (th <<< aggSizeShl) =
      put thresholdSpan.mask (th <<< thresholdSpan.shl) reg := by
  have hmask : thresholdSpan.mask = aggSizeMask <<< aggSizeShl := by decide
  have hin : th &&& aggSizeMask = th := by
    refine BitVec.eq_of_toNat_eq ?_
    rw [BitVec.toNat_and]
    exact (Nat.and_two_pow_sub_one_eq_mod th.toNat 8).trans (Nat.mod_eq_of_lt (by omega))
  have hshift : th <<< aggSizeShl &&& aggSizeMask <<< aggSizeShl = th <<< aggSizeShl := by
    rw [← BitVec.shiftLeft_and_distrib, hin]
  unfold put
  rw [hmask]
  exact congrArg _ hshift.symm

/-- The number behind `threshold=` is scanned. -/
theorem scan_threshold (minus : Bool) {digits rest : List Char} (hdigits : Sscanf.IsDigits digits)
    (hstop : Stop rest) :
    (Sscanf.lit thSel ((Word.threshold minus digits).text ++ rest)).bind Sscanf.int =
      some (CInt.wrap (if minus then -(Sscanf.decimal digits : Int) else Sscanf.decimal digits),
        rest) := by
  unfold Word.text
  rw [List.append_assoc, Sscanf.lit_append]
  exact Sscanf.int_digits minus hdigits fun c hc => stop_no_digit hstop hc

theorem get_threshold {n : Nat} (hn : n ≤ 2147483647) (reg : BitVec 32) :
    (thresholdSpan.get (put thresholdSpan.mask
      (rig.thOf (CInt.wrap n) <<< thresholdSpan.shl) reg)).toNat =
        min (n / rig.aggSizeUnit) 255 := by
  have hwidth : 2 ^ thresholdSpan.width = 256 := rfl
  rw [toNat_get_put, CInt.wrap_natCast (by omega), thOf_natCast hn, hwidth]
  exact Nat.mod_eq_of_lt (by omega)

/-! ### One kind after the other -/

/-- What the words that a knob may be given are about, and what they say: each kind has bits of its
own, and only sites are about the set as well. -/
structure Meaning (May : Word → Prop) where
  Has : Word → Nat → Prop
  Holds : Word → Agg → Prop
  apart : ∀ {v w i}, May v → May w → v.kind ≠ w.kind → Has v i → ¬Has w i
  congr : ∀ {w agg agg'}, May w → Holds w agg →
    (∀ i, Has w i → agg'.reg.getLsbD i = agg.reg.getLsbD i) →
    (w.kind = .sites → agg'.set = agg.set) → Holds w agg'

variable {m : Meaning May} {kind : Kind} {K L : List Kind} {agg agg' agg'' : Agg}
  {pass pass' pass'' : Bool}

/-- The words of some kinds have been done, and nothing else. -/
structure Step (m : Meaning May) (ws : List Word) (K : List Kind) (agg agg' : Agg)
    (pass pass' : Bool) : Prop where
  kept : ∀ i, (∀ w ∈ ws, w.kind ∈ K → ¬m.Has w i) → agg'.reg.getLsbD i = agg.reg.getLsbD i
  holds : ∀ w ∈ ws, w.kind ∈ K → m.Holds w agg'
  pass : pass' = true ↔ pass = true ∨ ∃ w ∈ ws, w.kind ∈ K
  set : (∀ w ∈ ws, w.kind ∈ K → w.kind ≠ .sites) → agg'.set = agg.set

/-- There is nothing to do. -/
theorem Step.refl (hnone : ∀ w ∈ ws, w.kind ≠ kind) (agg : Agg) (pass : Bool) :
    Step m ws [kind] agg agg pass pass where
  kept := fun _ _ => rfl
  holds := fun w hw hkind => absurd (List.mem_singleton.mp hkind) (hnone w hw)
  pass := ⟨.inl, fun h => h.resolve_right fun ⟨w, hw, hkind⟩ =>
    hnone w hw (List.mem_singleton.mp hkind)⟩
  set := fun _ => rfl

/-- There is one word of the kind, and it is done. -/
theorem Step.of_word (hw : w ∈ ws) (hnodup : (ws.map Word.kind).Nodup) (hkind : w.kind = kind)
    (hholds : m.Holds w agg') (hkept : ∀ i, ¬m.Has w i → agg'.reg.getLsbD i = agg.reg.getLsbD i)
    (hset : kind ≠ .sites → agg'.set = agg.set) : Step m ws [kind] agg agg' pass true where
  kept := fun i hi => hkept i (hi w hw (List.mem_singleton.mpr hkind))
  holds := by
    intro v hv hk
    have hsame := (List.mem_singleton.mp hk).trans hkind.symm
    obtain rfl := List.inj_on_of_nodup_map hnodup hv hw hsame
    exact hholds
  pass := iff_of_true rfl (.inr ⟨w, hw, List.mem_singleton.mpr hkind⟩)
  set := fun hnone => hset (hkind ▸ hnone w hw (List.mem_singleton.mpr hkind))

/-- Some kinds and then others. -/
theorem Step.trans (h : Step m ws K agg agg' pass pass') (h' : Step m ws L agg' agg'' pass' pass'')
    (hmay : ∀ w ∈ ws, May w) (happart : ∀ k ∈ K, k ∉ L) :
    Step m ws (K ++ L) agg agg'' pass pass'' where
  kept := by
    intro i hi
    rw [h'.kept i fun w hw hkind => hi w hw (List.mem_append_right K hkind),
      h.kept i fun w hw hkind => hi w hw (List.mem_append_left L hkind)]
  holds := by
    intro w hw hkind
    rcases List.mem_append.mp hkind with hK | hL
    · refine m.congr (hmay w hw) (h.holds w hw hK)
        (fun i hi => h'.kept i fun v hv hvL => ?_) fun hsites => h'.set fun v _ hvL heq => ?_
      · exact m.apart (hmay w hw) (hmay v hv) (fun heq => happart _ hK (heq ▸ hvL)) hi
      · exact happart _ hK (hsites.trans heq.symm ▸ hvL)
    · exact h'.holds w hw hL
  pass := by
    rw [h'.pass, h.pass, or_assoc]
    refine or_congr_right ⟨?_, ?_⟩
    · rintro (⟨w, hw, hkind⟩ | ⟨w, hw, hkind⟩)
      · exact ⟨w, hw, List.mem_append_left L hkind⟩
      · exact ⟨w, hw, List.mem_append_right K hkind⟩
    · rintro ⟨w, hw, hkind⟩
      rcases List.mem_append.mp hkind with hK | hL
      · exact .inl ⟨w, hw, hK⟩
      · exact .inr ⟨w, hw, hL⟩
  set := fun hnone => (h'.set fun w hw hL => hnone w hw (List.mem_append_right K hL)).trans
    (h.set fun w hw hK => hnone w hw (List.mem_append_left L hK))

end AggReg

end Acq400
