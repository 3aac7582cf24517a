/-
The spellings of one range of channels.

A range of a list goes through `is_number_comma_string` and `sscanf`, and the constructor of a
range takes its end as one of the range and its start as counted from 0.  The masks and the lists
of numbers come out as they are written.  So the only range that is right is the one of all
channels, without a start: there the end is cut off.
-/
import Acq400.Stream.ChannelMask

namespace Acq400

open Sscanf

/-! ### Numbers in a string -/

/-- A number that is written in digits. -/
structure Digits where
  text : List Char
  ne_nil : text ≠ []
  isDigit : ∀ c ∈ text, c.isDigit = true

/-- The number. -/
def Digits.value (ds : Digits) : Nat := decimal ds.text

/-- Numbers with commas between them. -/
def listText : List Digits → List Char
  | [] => []
  | [ds] => ds.text
  | ds :: es :: rest => ds.text ++ ',' :: listText (es :: rest)

theorem head_comma {rest : List Char} (c : Char) (h : (',' :: rest).head? = some c) :
    c.isDigit = false := by
  obtain rfl := Option.some.inj h
  rfl

theorem head_nil (c : Char) (h : ([] : List Char).head? = some c) : c.isDigit = false := by
  cases h

namespace ChannelMask

/-- Behind a digit any number of digits changes nothing. -/
theorem numberCommaLoop_digits {ds : List Char} (hds : ∀ c ∈ ds, c.isDigit = true) (count : Nat)
    (rest : List Char) :
    numberCommaLoop true count (ds ++ rest) = numberCommaLoop true count rest := by
  induction ds with
  | nil => rfl
  | cons d ds ih =>
      have hd : d.isDigit = true := hds d List.mem_cons_self
      have hcomma : d ≠ ',' := fun h => absurd (h ▸ hd) (by decide)
      rw [List.cons_append, numberCommaLoop, if_neg hcomma, if_pos hd]
      exact ih fun c hc => hds c (List.mem_cons_of_mem d hc)

theorem numberCommaLoop_number (ds : Digits) (count : Nat) (rest : List Char) :
    numberCommaLoop false count (ds.text ++ rest) = numberCommaLoop true (count + 1) rest := by
  obtain ⟨text, hne, hds⟩ := ds
  obtain ⟨d, ds, rfl⟩ := List.exists_cons_of_ne_nil hne
  dsimp only
  rw [List.cons_append, numberCommaLoop, if_pos (hds d List.mem_cons_self)]
  exact numberCommaLoop_digits (fun c hc => hds c (List.mem_cons_of_mem d hc)) _ _

theorem numberCommaLoop_listText (ns : List Digits) (ds : Digits) (count : Nat) :
    numberCommaLoop false count (listText (ds :: ns)) = some (count + ns.length + 1) := by
  induction ns generalizing ds count with
  | nil =>
      have h := numberCommaLoop_number ds count []
      rw [List.append_nil] at h
      exact h
  | cons es ns ih =>
      rw [listText, numberCommaLoop_number, numberCommaLoop, if_pos rfl, ih, List.length_cons]
      congr 1
      omega

theorem listText_ne_nil (ns : List Digits) (ds : Digits) : listText (ds :: ns) ≠ [] := by
  cases ns with
  | nil => exact ds.ne_nil
  | cons es ns =>
      intro h
      exact ds.ne_nil (List.append_eq_nil_iff.mp h).1

/-- A list of numbers is one of `is_number_comma_string`, with their number. -/
theorem isNumberCommaString_listText (ns : List Digits) (ds : Digits) :
    isNumberCommaString (listText (ds :: ns)) = some (ns.length + 1) := by
  rw [isNumberCommaString, if_neg (listText_ne_nil ns ds), numberCommaLoop_listText, Nat.zero_add]

theorem cint_number (ds : Digits) (rest : List Char)
    (hrest : ∀ c, rest.head? = some c → c.isDigit = false) (hmax : ds.value ≤ 2147483647) :
    cint (ds.text ++ rest) = some ((ds.value : Int), rest) :=
  cint_digits rest ds.ne_nil ds.isDigit hmax hrest

theorem numbers_listText (ns : List Digits) (hmax : ∀ ds ∈ ns, ds.value ≤ 2147483647) (left : Nat)
    (hleft : ns.length ≤ left) : numbers left (listText ns) = ns.map Digits.value := by
  induction ns generalizing left with
  | nil =>
      cases left with
      | zero => rfl
      | succ left => rfl
  | cons ds ns ih =>
      rw [List.length_cons] at hleft
      obtain ⟨left, rfl⟩ : ∃ k, left = k + 1 := ⟨left - 1, by omega⟩
      have hds : ¬2147483647 < decimal ds.text :=
        Nat.not_lt.mpr (hmax ds List.mem_cons_self)
      have ih := ih (fun es hes => hmax es (List.mem_cons_of_mem ds hes)) left (by omega)
      have hread : ∀ rest : List Char, (∀ c, rest.head? = some c → c.isDigit = false) →
          numbers (left + 1) (ds.text ++ rest) =
            ds.value :: numbers left (rest.drop 1) := by
        intro rest hrest
        obtain ⟨htake, hdrop⟩ := takeWhile_append_stop ds.isDigit hrest
        rw [numbers, htake, hdrop, if_neg (not_or.mpr ⟨ds.ne_nil, hds⟩)]
        rfl
      cases ns with
      | nil =>
          have h := hread [] head_nil
          rw [List.append_nil] at h
          rw [listText, h, List.drop_nil, List.map_cons, ← ih]
          rfl
      | cons es ns =>
          rw [listText, hread _ head_comma, List.drop_one, List.tail_cons, ih]
          rfl

theorem length_le_listText (ns : List Digits) : ns.length ≤ (listText ns).length := by
  induction ns with
  | nil => exact Nat.le_refl _
  | cons ds ns ih =>
      have hds : 0 < ds.text.length := List.length_pos_of_ne_nil ds.ne_nil
      cases ns with
      | nil => exact hds
      | cons es ns =>
          rw [listText, List.length_append, List.length_cons, List.length_cons (a := ',')]
          omega

theorem intListToBitset_listText (ns : List Digits) (hmax : ∀ ds ∈ ns, ds.value ≤ 2147483647)
    (ii : Nat) :
    intListToBitset (listText ns) ii = true ↔ ii < maxbit ∧ ∃ ds ∈ ns, ds.value = ii + 1 := by
  unfold intListToBitset
  rw [numbers_listText ns hmax _ (length_le_listText ns), Bool.and_eq_true, decide_eq_true_eq,
    List.contains_iff_mem, List.mem_map]

/-! ### What describes a mask -/

section Describes

variable {bits : Nat → Bool} {first len : Nat}

/-- The channels of a mask are `len`, from `first` on. -/
structure IsRange (cm : ChannelMask) (first len : Nat) : Prop where
  bits : ∀ ii, cm.bits ii = true ↔ first ≤ ii ∧ ii < first + len
  channelcount : getChannelcount cm = len
  firstchan : 0 < len → getFirstchan cm = first
  topchan : 0 < len → getTopchan cm = (first + len - 1 : Nat)

theorem countP_range (h : ∀ ii, bits ii = true ↔ first ≤ ii ∧ ii < first + len) (n : Nat) :
    (List.range n).countP bits = min n (first + len) - min n first := by
  induction n with
  | zero => simp
  | succ n ih =>
      rw [List.range_succ, List.countP_append, ih, List.countP_singleton]
      by_cases hn : bits n = true
      · have := (h n).mp hn
        rw [if_pos hn]
        omega
      · have := mt (h n).mpr hn
        rw [if_neg hn]
        omega

theorem foldl_top (bits : Nat → Bool) (n : Nat) :
    let top := (List.range n).foldl (fun topchan ii => if bits ii then ii else topchan) 0
    (∀ ii, ii < n → bits ii = true → ii ≤ top) ∧ (top = 0 ∨ top < n ∧ bits top = true) := by
  induction n with
  | zero => exact ⟨fun ii hii => absurd hii (Nat.not_lt_zero ii), Or.inl rfl⟩
  | succ n ih =>
      rw [List.range_succ, List.foldl_append, List.foldl_cons, List.foldl_nil]
      by_cases hn : bits n = true
      · rw [if_pos hn]
        exact ⟨fun ii hii _ => Nat.lt_succ_iff.mp hii, Or.inr ⟨Nat.lt_succ_self n, hn⟩⟩
      · rw [if_neg hn]
        refine ⟨fun ii hii hb => ih.1 ii ?_ hb, ih.2.imp id fun h => ⟨by omega, h.2⟩⟩
        have hne : ii ≠ n := fun h => hn (h ▸ hb)
        omega

theorem find?_first (h : ∀ ii, bits ii = true ↔ first ≤ ii ∧ ii < first + len) (n : Nat)
    (hfirst : first < n) (hlen : 0 < len) : (List.range n).find? bits = some first := by
  rw [List.find?_range_eq_some]
  refine ⟨(h first).mpr ⟨Nat.le_refl _, by omega⟩, List.mem_range.mpr hfirst, ?_⟩
  intro j hj
  have : ¬bits j = true := fun hb => absurd ((h j).mp hb).1 (Nat.not_le.mpr hj)
  simpa using this

/-- The three functions describe a bitset of a range. -/
theorem isRange_of_bits {cm : ChannelMask} (hset : cm.isBitset = true)
    (h : ∀ ii, cm.bits ii = true ↔ first ≤ ii ∧ ii < first + len) (hfit : first + len ≤ 256) :
    IsRange cm first len := by
  refine ⟨h, ?_, ?_, ?_⟩
  · unfold getChannelcount
    rw [if_pos hset, countP_range h]
    omega
  · intro hlen
    unfold getFirstchan
    rw [if_pos hset, find?_first h 256 (by omega) hlen, Option.getD_some]
  · intro hlen
    unfold getTopchan
    rw [if_pos hset]
    obtain ⟨hle, htop⟩ := foldl_top cm.bits 256
    have hlast := hle (first + len - 1) (by omega) ((h _).mpr (by omega))
    rcases htop with htop | ⟨-, htop⟩
    · omega
    · have := (h _).mp htop
      omega

end Describes

/-! ### Ranges -/

/-- What `factory` makes of a string is a mask of `len` channels from `first` on. -/
def Selects (maxChan : Nat) (def_ : List Char) (first len : Nat) : Prop :=
  ∃ cm, factory maxChan true def_ = some cm ∧ IsRange cm first len

/-- A range of channels in a box of `maxChan`. -/
structure RangeDef (maxChan : Nat) where
  start : Option Digits
  length : Digits
  one_le : ∀ s ∈ start, 1 ≤ s.value
  fits : (start.map fun s => s.value - 1).getD 0 + length.value ≤ maxChan

namespace RangeDef

variable {maxChan : Nat} (d : RangeDef maxChan)

/-- `[start,]length`. -/
def text : List Char := listText (d.start.toList ++ [d.length])

/-- The first channel, from 0. -/
def first : Nat := (d.start.map fun s => s.value - 1).getD 0

/-- The number of channels. -/
def len : Nat := d.length.value

/-- All spellings of the range are one set of channels. -/
structure Right : Prop where
  range : Selects maxChan d.text d.first d.len
  startLen : getStartLen maxChan d.text = ((d.first : Int), (d.len : Int))
  mask : ∀ mask : List Char, mask.length ≤ maxbit → (∀ c ∈ mask, c = '0' ∨ c = '1') →
    (∀ ii, mask.reverse[ii]? = some '1' ↔ d.first ≤ ii ∧ ii < d.first + d.len) →
      Selects maxChan ('0' :: 'b' :: mask) d.first d.len
  list : ∀ ns : List Digits,
    (∀ n, (∃ ds ∈ ns, ds.value = n) ↔ d.first < n ∧ n ≤ d.first + d.len) →
      Selects maxChan ('C' :: 'H' :: listText ns) d.first d.len

theorem first_none (h : d.start = none) : d.first = 0 := by
  unfold first
  rw [h]
  rfl

theorem first_some {s : Digits} (h : d.start = some s) : d.first + 1 = s.value := by
  have := d.one_le s h
  unfold first
  rw [h]
  exact Nat.sub_add_cancel this

theorem first_add_len : d.first + d.len ≤ maxChan := d.fits

theorem scanFields_text (hmax : maxChan ≤ maxbit) :
    MultiEventServer.scanFields 2 d.text =
      (d.start.map fun s => (s.value : Int)).toList ++ [(d.len : Int)] := by
  have hfits := d.first_add_len
  have h256 : maxbit = 256 := rfl
  have hlen : d.length.value ≤ 2147483647 := by
    unfold len at hfits
    omega
  have hlast : ∀ n, MultiEventServer.scanFields (n + 1) d.length.text = [(d.len : Int)] := by
    intro n
    have h := cint_number d.length [] head_nil hlen
    rw [List.append_nil] at h
    rw [MultiEventServer.scanFields, h]
    rfl
  cases hstart : d.start with
  | none =>
      unfold text
      rw [hstart]
      exact hlast 1
  | some s =>
      have hs := d.first_some hstart
      have h := cint_number s (',' :: d.length.text) head_comma (by omega)
      have htext : d.text = s.text ++ ',' :: d.length.text := by
        unfold text
        rw [hstart]
        rfl
      rw [htext, MultiEventServer.scanFields, h]
      exact congrArg ((s.value : Int) :: ·) (hlast 0)

theorem isNumberCommaString_text :
    isNumberCommaString d.text = some (d.start.toList.length + 1) := by
  unfold text
  cases d.start with
  | none => exact isNumberCommaString_listText [] d.length
  | some s => exact isNumberCommaString_listText [d.length] s

theorem getStartLen_text (hmax : maxChan ≤ maxbit) :
    getStartLen maxChan d.text = ((d.first : Int), (d.len : Int)) := by
  unfold getStartLen
  rw [d.scanFields_text hmax]
  cases hstart : d.start with
  | none =>
      rw [d.first_none hstart]
      rfl
  | some s =>
      have hs := d.first_some hstart
      have hge : (s.value : Int) ≥ 1 := by omega
      have hfirst : (s.value : Int) - 1 = d.first := by omega
      change ((if (s.value : Int) ≥ 1 then (s.value : Int) - 1 else 0), (d.len : Int)) = _
      rw [if_pos hge, hfirst]

/-- The start and the length as they are written, 0 where there is no start. -/
def startOf : Nat := (d.start.map Digits.value).getD 0

/-- What `factory` makes of the range: the start is not counted from 0, and the end is in it. -/
theorem factory_text (hmax : maxChan ≤ maxbit) :
    factory maxChan true d.text =
      if 1 ≤ maxChan then some (ofRange maxChan true d.startOf d.len) else none := by
  have hfits := d.first_add_len
  have hrange : rangeOf maxChan (d.start.toList.length + 1) d.text =
      some ((d.startOf : Int), (d.len : Int)) := by
    unfold rangeOf startOf
    rw [d.scanFields_text hmax]
    cases d.start with
    | none => rfl
    | some s => rfl
  have hcount : ¬2 < d.start.toList.length + 1 := by
    cases d.start with
    | none => exact Nat.not_lt.mpr (Nat.le_succ 1)
    | some s => exact Nat.lt_irrefl 2
  unfold factory
  rw [d.isNumberCommaString_text]
  dsimp only
  rw [if_neg hcount, hrange, Option.bind_some]
  dsimp only
  by_cases h1 : 1 ≤ maxChan
  · rw [if_pos ⟨h1, by omega⟩, if_pos h1]
  · rw [if_neg fun h => h1 h.1, if_neg h1]

theorem ofRange_bits (start length : Nat) (ii : Nat) :
    (ofRange maxChan true start length).bits ii = true ↔
      ii < maxChan ∧ start ≤ ii ∧ ii ≤ start + length := by
  unfold ofRange
  simp only [if_true, Bool.and_eq_true, decide_eq_true_eq]
  omega

theorem isRange_ofRange {len : Nat} (hmax : maxChan ≤ maxbit) (h : maxChan ≤ len) :
    IsRange (ofRange maxChan true (0 : Nat) len) 0 maxChan := by
  refine isRange_of_bits rfl ?_ (by rw [Nat.zero_add]; exact hmax)
  intro ii
  rw [ofRange_bits]
  omega

/-! ### Masks and lists -/

theorem selects_mask {first len : Nat} (hfit : first + len ≤ maxbit) {mask : List Char}
    (hlen : mask.length ≤ maxbit) (hchars : ∀ c ∈ mask, c = '0' ∨ c = '1')
    (h : ∀ ii, mask.reverse[ii]? = some '1' ↔ first ≤ ii ∧ ii < first + len) :
    Selects maxChan ('0' :: 'b' :: mask) first len := by
  have hall : (mask.all fun c => c = '0' || c = '1') = true := by
    rw [List.all_eq_true]
    intro c hc
    simpa using hchars c hc
  have hloop : isNumberCommaString ('0' :: 'b' :: mask) = none := rfl
  have htake : ('0' :: 'b' :: mask).take 2 = ['0', 'b'] := rfl
  refine ⟨ofBits fun ii => mask.reverse[ii]? = some '1', ?_, isRange_of_bits rfl ?_ hfit⟩
  · unfold factory
    rw [hloop]
    dsimp only
    rw [if_neg (by simp), if_pos htake, List.drop_succ_cons, List.drop_succ_cons, List.drop_zero]
    unfold bitset
    rw [if_pos hall, List.take_of_length_le hlen]
    rfl
  · intro ii
    exact decide_eq_true_iff.trans (h ii)

/-- A list of numbers comes out as it is written. -/
theorem selects_list {first len : Nat} (hfit : first + len ≤ maxbit) {ds : Digits}
    {ns : List Digits}
    (h : ∀ n, (∃ es ∈ ds :: ns, es.value = n) ↔ first < n ∧ n ≤ first + len) :
    Selects maxChan ('C' :: 'H' :: listText (ds :: ns)) first len := by
  have h256 : maxbit = 256 := rfl
  have hmax : ∀ es ∈ ds :: ns, es.value ≤ 2147483647 := by
    intro es hes
    have := (h es.value).mp ⟨es, hes, rfl⟩
    omega
  have hloop : isNumberCommaString ('C' :: 'H' :: listText (ds :: ns)) = none := rfl
  refine ⟨ofBits (intListToBitset (listText (ds :: ns))), ?_, isRange_of_bits rfl ?_ hfit⟩
  · unfold factory
    rw [hloop]
    dsimp only
    rw [if_neg (by simp), if_neg (by simp)]
    rw [if_pos]
    · rfl
    · refine ⟨rfl, ?_⟩
      rw [List.drop_succ_cons, List.drop_succ_cons, List.drop_zero, isNumberCommaString_listText]
      rfl
  · intro ii
    rw [show (ofBits (intListToBitset (listText (ds :: ns)))).bits ii =
      intListToBitset (listText (ds :: ns)) ii from rfl, intListToBitset_listText _ hmax, h]
    omega

/-- The list without a number is taken for no list: it is all channels. -/
theorem factory_emptyList :
    factory maxChan true ('C' :: 'H' :: listText []) =
      some (ofRange maxChan true (0 : Nat) maxChan) := rfl

/-! ### The range that is right -/

/--
**A range is right if and only if it is the one of all channels, without a start.**
-/
theorem factory_right_iff (hmax : maxChan ≤ maxbit) :
    d.Right ↔ d.start = none ∧ d.len = maxChan ∧ 1 ≤ maxChan := by
  have hfits := d.first_add_len
  constructor
  · intro h
    obtain ⟨cm, hcm, hrange⟩ := h.range
    rw [d.factory_text hmax] at hcm
    have h1 : 1 ≤ maxChan := by
      by_contra hzero
      rw [if_neg hzero] at hcm
      cases hcm
    rw [if_pos h1] at hcm
    obtain rfl := Option.some.inj hcm
    have hbits : ∀ ii, (ii < maxChan ∧ d.startOf ≤ ii ∧ ii ≤ d.startOf + d.len) ↔
        d.first ≤ ii ∧ ii < d.first + d.len := by
      intro ii
      rw [← ofRange_bits, hrange.bits]
    cases hstart : d.start with
    | none =>
        refine ⟨rfl, ?_, h1⟩
        -- the end of the range is a channel of it, unless it is cut off
        have hzero : d.startOf = 0 := by
          unfold startOf
          rw [hstart]
          rfl
        have := hbits d.len
        rw [hzero, d.first_none hstart] at this
        rw [d.first_none hstart] at hfits
        omega
    | some s =>
        exfalso
        have hs := d.first_some hstart
        have hstartOf : d.startOf = s.value := by
          unfold startOf
          rw [hstart]
          rfl
        rcases Nat.eq_zero_or_pos d.len with hlen | hlen
        · -- no channel, but the list of none is all of them
          have hempty : ∀ n, (∃ ds ∈ ([] : List Digits), ds.value = n) ↔
              d.first < n ∧ n ≤ d.first + d.len := by
            intro n
            refine iff_of_false ?_ (by omega)
            rintro ⟨ds, hds, -⟩
            cases hds
          obtain ⟨cm, hcm, hrange⟩ := h.list [] hempty
          rw [factory_emptyList] at hcm
          obtain rfl := Option.some.inj hcm
          have := (hrange.bits 0).mp ((ofRange_bits 0 maxChan 0).mpr (by omega))
          omega
        · -- the first channel is missing
          have := (hbits d.first).mpr (by omega)
          omega
  · rintro ⟨hstart, hlen, h1⟩
    have hfirst := d.first_none hstart
    have hzero : d.startOf = 0 := by
      unfold startOf
      rw [hstart]
      rfl
    refine ⟨⟨ofRange maxChan true d.startOf d.len, ?_, ?_⟩, d.getStartLen_text hmax, ?_, ?_⟩
    · rw [d.factory_text hmax, if_pos h1]
    · rw [hzero, hfirst, hlen]
      exact isRange_ofRange hmax (Nat.le_refl _)
    · intro mask hmask hchars h
      exact selects_mask (Nat.le_trans hfits hmax) hmask hchars h
    · intro ns h
      cases ns with
      | nil =>
          obtain ⟨ds, hds, -⟩ := (h 1).mpr (by omega)
          cases hds
      | cons ds ns => exact selects_list (Nat.le_trans hfits hmax) h

/-- `8`. -/
def eight : Digits :=
  { text := ['8']
    ne_nil := List.cons_ne_nil _ _
    isDigit := fun _ hc => List.mem_singleton.mp hc ▸ rfl }

/-- Eight channels without a start. -/
def firstEight (h : 8 ≤ maxChan) : RangeDef maxChan :=
  { start := none
    length := eight
    one_le := fun _ hs => nomatch hs
    fits := (Nat.zero_add 8).symm ▸ h }

theorem factory_right_eight : (firstEight (Nat.le_refl 8)).Right :=
  (factory_right_iff _ (Nat.le_of_ble_eq_true rfl)).mpr
    ⟨rfl, rfl, Nat.le_of_ble_eq_true rfl⟩

/-- Of sixteen channels, nine are selected. -/
theorem eight_not_right :
    ¬∀ (maxChan : Nat) (d : RangeDef maxChan), maxChan ≤ maxbit → d.Right := by
  intro h
  have h16 : (8 : Nat) ≤ 16 := Nat.le_of_ble_eq_true rfl
  have hmax : (16 : Nat) ≤ maxbit := Nat.le_of_ble_eq_true rfl
  obtain ⟨cm, hcm, hrange⟩ := (h 16 (firstEight h16) hmax).range
  rw [factory_text _ hmax] at hcm
  obtain rfl := Option.some.inj hcm
  have hnine : (ofRange 16 true (0 : Nat) (8 : Nat)).bits 8 = true :=
    (ofRange_bits 0 8 8).mpr (by omega)
  exact absurd ((hrange.bits 8).mp hnine).2 (Nat.lt_irrefl 8)

end RangeDef

end ChannelMask

end Acq400
