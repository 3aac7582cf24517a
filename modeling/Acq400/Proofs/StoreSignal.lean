/-
The three forms of a signal.

Each form is scanned with one format, and what it finds goes to the same function.  What is known
of a text is said of its numbers as they stand there, however large; the code has them modulo 2^32.
Where a text is neither refused nor scanned as it should be is listed, and everywhere else the text
does what it says.
-/
import Acq400.Proofs.RegisterFields

namespace Acq400

namespace Signal

open MaskField

variable {sig : Signal} {reg : BitVec 32} {t : List Char}

/-- A word that stands for a setting of the mode bit. -/
structure IsName (w : List Char) : Prop where
  ne_nil : w ≠ []
  length_le : w.length ≤ 10
  no_space : ∀ c ∈ w, Sscanf.isSpace c = false
  no_digit : ∀ c, w.head? = some c → c.isDigit = false

/-- What the callers pass: a field of 4 bits, one mode bit, and two words. -/
structure Ok (sig : Signal) : Prop where
  field : sig.shl + 4 ≤ 32
  bit : ∃ k < 32, sig.mbit = BitVec.twoPow 32 k
  hi : IsName sig.mbitHi
  lo : IsName sig.mbitLo

/-! ### What a text says -/

/-- What a signal is routed to. -/
inductive Route where
  | off
  | on (dx : Nat) (rising : Bool)
deriving DecidableEq, Repr

/-- The four bits of a route. -/
def source (dx : Nat) (rising : Bool) : BitVec 32 :=
  BitVec.ofNat 32 dx ||| if rising then ctrlSigRising else 0

/-- The register with a route; the mode bit and the field are all that changes. -/
def routed (sig : Signal) (reg : BitVec 32) : Route → BitVec 32
  | .off => put sig.mbit 0 reg
  | .on dx rising =>
    put sig.mbit (BitVec.allOnes 32)
      (put (ctrlSigMask <<< sig.shl) (source dx rising <<< sig.shl) reg)

/-- What numbers say. -/
def route (imode dx : Nat) (rising : Bool) : Route := if imode = 0 then .off else .on dx rising

/-- The word of a sense. -/
def senseWord (rising : Bool) : List Char := (if rising then "rising" else "falling").toList

/-- The letter of a sense. -/
def senseLetter (rising : Bool) : Char := if rising then 'R' else 'F'

/-- What may stand behind a text. -/
def ends : List (List Char) := [[], ['\n']]

/-- The forms of a text that say something. -/
inductive Spells (sig : Signal) : List Char → Route → Prop where
  | numbers {a b c tail : List Char} : Sscanf.IsDigits a → Sscanf.IsDigits b → Sscanf.IsDigits c →
      Sscanf.decimal a ≤ 1 → (Sscanf.decimal a = 1 → Sscanf.decimal b ≤ 7) →
      Sscanf.decimal c ≤ 1 → tail ∈ ends →
      Spells sig (a ++ ',' :: (b ++ ',' :: (c ++ tail)))
        (route (Sscanf.decimal a) (Sscanf.decimal b) (decide (Sscanf.decimal c = 1)))
  | edge {a b tail : List Char} (rising : Bool) : Sscanf.IsDigits a → Sscanf.IsDigits b →
      Sscanf.decimal a ≤ 1 → (Sscanf.decimal a = 1 → Sscanf.decimal b ≤ 7) → tail ∈ ends →
      Spells sig (a ++ ',' :: 'd' :: (b ++ ',' :: (senseWord rising ++ tail)))
        (route (Sscanf.decimal a) (Sscanf.decimal b) rising)
  | letter {b tail : List Char} (rising : Bool) : Sscanf.IsDigits b → Sscanf.decimal b ≤ 7 →
      tail ∈ ends →
      Spells sig (sig.mbitHi ++ ' ' :: 'd' :: (b ++ ' ' :: senseLetter rising :: tail))
        (.on (Sscanf.decimal b) rising)
  | lo {tail : List Char} : tail ∈ ends → Spells sig (sig.mbitLo ++ tail) .off

/-- The word is neither of the two. -/
def UnknownWord (edge : List Char) : Prop :=
  edge.map Char.toLower ≠ senseWord true ∧ edge.map Char.toLower ≠ senseWord false

/-- The letter stands for no sense. -/
def UnknownLetter (sense : Char) : Prop :=
  sense ∉ "Ff-Nn".toList ∧ sense ∉ "Rr+Pp".toList

/-- The texts that have to be refused. -/
def Refused (sig : Signal) (t : List Char) : Prop :=
  match scanNumbers Sscanf.number t with
  | some (imode, dx, _) => imode ≠ 0 ∧ 7 < dx
  | none =>
    match scanEdge Sscanf.number t with
    | some (imode, dx, edge) => imode ≠ 0 ∧ (7 < dx ∨ UnknownWord edge)
    | none =>
      match scanMode Sscanf.number t with
      | .one mode => mode ≠ sig.mbitLo
      | .three mode dx sense => mode ≠ sig.mbitHi ∨ 7 < dx ∨ UnknownLetter sense
      | .other => True

/-- The numbers are taken modulo 2^32, so that they pass. -/
def Passes (imode dx : Nat) : Prop := imode % 4294967296 = 0 ∨ dx % 4294967296 ≤ 7

/-- The texts that are taken as something else. -/
def Wrong (sig : Signal) (t : List Char) : Prop :=
  match scanNumbers Sscanf.number t with
  | some (imode, dx, _) => imode ≠ 0 ∧ 7 < dx ∧ Passes imode dx
  | none =>
    match scanEdge Sscanf.number t with
    | some (imode, dx, edge) => modeSize ≤ edge.length ∨
        imode ≠ 0 ∧ (7 < dx ∨ UnknownWord edge) ∧ Passes imode dx
    | none =>
      match scanMode Sscanf.number t with
      | .one mode => mode = sig.mbitLo
      | .three mode dx sense => mode = sig.mbitHi ∧ 7 < dx ∧ ¬UnknownLetter sense ∧ Passes 1 dx
      | .other => False

/-- A text does what it says. -/
structure Right (sig : Signal) (reg : BitVec 32) (t : List Char) : Prop where
  busy : ∀ busy lock, sig.notWhileBusy = true ∧ busy = true ∨ lock = true →
    sig.storeSignal busy lock reg t = some { ret := -ebusy, reg := reg }
  inside : ∃ res, sig.storeSignal false false reg t = some res
  returned : ∀ res, sig.storeSignal false false reg t = some res →
    res.ret = t.length ∨ res.ret < 0 ∧ res.reg = reg
  refused : Refused sig t → ∀ res, sig.storeSignal false false reg t = some res → res.ret < 0
  stored : ∀ route, Spells sig t route → ∀ res, sig.storeSignal false false reg t = some res →
    res.ret = t.length ∧ res.reg = routed sig reg route ∧
      ∀ i, sig.mbit.getLsbD i = false → ¬(sig.shl ≤ i ∧ i < sig.shl + 4) →
        res.reg.getLsbD i = reg.getLsbD i

/-! ### Scanning -/

theorem uint_eq (str : List Char) :
    Sscanf.uint str = (Sscanf.number str).map fun (n, rest) => (n % 4294967296, rest) := rfl

theorem scanNumbers_uint (t : List Char) :
    scanNumbers Sscanf.uint t = (scanNumbers Sscanf.number t).map fun (imode, dx, rising) =>
      (imode % 4294967296, dx % 4294967296, rising % 4294967296) := by
  simp [scanNumbers, uint_eq, Option.map_bind, Option.bind_map]

theorem scanEdge_uint (t : List Char) :
    scanEdge Sscanf.uint t = (scanEdge Sscanf.number t).map fun (imode, dx, edge) =>
      (imode % 4294967296, dx % 4294967296, edge) := by
  simp [scanEdge, uint_eq, Option.map_bind, Option.bind_map]

/-- The number of the third form is taken modulo 2^32. -/
def Scanned.wrap : Scanned → Scanned
  | .three mode dx sense => .three mode (dx % 4294967296) sense
  | scanned => scanned

theorem scanMode_uint (t : List Char) :
    scanMode Sscanf.uint t = (scanMode Sscanf.number t).wrap := by
  unfold scanMode
  cases Sscanf.word 10 t with
  | none => rfl
  | some p =>
      dsimp only
      cases Sscanf.lit ['d'] (Sscanf.spaces p.2) with
      | none => rfl
      | some str =>
          simp only [Option.bind_some, uint_eq]
          cases Sscanf.number str with
          | none => rfl
          | some q =>
              simp only [Option.map_some]
              cases Sscanf.char (Sscanf.spaces q.2) with
              | none => rfl
              | some r => rfl

variable {imode dx rising : Nat} {edge : List Char}

theorem storeSignal_numbers (h : scanNumbers Sscanf.number t = some (imode, dx, rising)) :
    sig.storeSignal false false reg t = some (sig.storeCount reg t.length (imode % 4294967296)
      (dx % 4294967296) (decide (rising % 4294967296 ≠ 0))) := by
  unfold storeSignal
  rw [if_neg (by simp), if_neg (by simp), scanNumbers_uint, h]
  rfl

theorem storeSignal_edge (hnone : scanNumbers Sscanf.number t = none)
    (h : scanEdge Sscanf.number t = some (imode, dx, edge)) :
    sig.storeSignal false false reg t =
      if modeSize ≤ edge.length then none
      else some (sig.storeCount reg t.length (imode % 4294967296) (dx % 4294967296)
        (getEdgeSense edge)) := by
  unfold storeSignal
  rw [if_neg (by simp), if_neg (by simp), scanNumbers_uint, hnone, scanEdge_uint, h]
  rfl

theorem storeSignal_mode (hnone : scanNumbers Sscanf.number t = none)
    (hedge : scanEdge Sscanf.number t = none) :
    sig.storeSignal false false reg t =
      some (sig.storeMode reg t.length (scanMode Sscanf.number t).wrap) := by
  unfold storeSignal
  rw [if_neg (by simp), if_neg (by simp), scanNumbers_uint, hnone, scanEdge_uint, hedge,
    ← scanMode_uint]
  rfl

/-! ### The register -/

theorem getLsbD_field (sig : Signal) {i : Nat} (hi : i < 32) :
    (ctrlSigMask <<< sig.shl).getLsbD i = decide (sig.shl ≤ i ∧ i < sig.shl + 4) := by
  have hfour : ∀ j, ctrlSigMask.getLsbD j = decide (j < 4) := by
    intro j
    exact Nat.testBit_two_pow_sub_one 4 j
  rw [BitVec.getLsbD_shiftLeft, hfour, Bool.eq_iff_iff]
  simp only [hi, Bool.and_eq_true, decide_eq_true_eq, Bool.not_eq_true', decide_eq_false_iff_not,
    decide_true, true_and]
  omega

theorem routed_outside (route : Route) {i : Nat} (hbit : sig.mbit.getLsbD i = false)
    (hfield : ¬(sig.shl ≤ i ∧ i < sig.shl + 4)) :
    (routed sig reg route).getLsbD i = reg.getLsbD i := by
  by_cases hi : i < 32
  · cases route with
    | off =>
        rw [routed, getLsbD_put, hbit]
        rfl
    | on dx rising =>
        rw [routed, getLsbD_put, hbit, if_neg (by decide), getLsbD_put, getLsbD_field sig hi,
          decide_eq_false hfield]
        rfl
  · rw [BitVec.getLsbD_of_ge _ i (by omega), BitVec.getLsbD_of_ge _ i (by omega)]

/-- The bit that the mode is shifted to is the mode bit. -/
theorem shift_mbit (hok : sig.Ok) : BitVec.ofNat 32 1 <<< getSHL sig.mbit = sig.mbit := by
  obtain ⟨k, hk, hbit⟩ := hok.bit
  have hmask : (⟨k, 1, Nat.one_pos, hk⟩ : Field).mask = sig.mbit := by
    rw [hbit]
    refine BitVec.eq_of_getLsbD_eq fun i hi => ?_
    have hhas : (⟨k, 1, Nat.one_pos, hk⟩ : Field).Has i ↔ k = i :=
      ⟨fun h => Nat.le_antisymm h.1 (Nat.le_of_lt_succ h.2),
        fun h => ⟨h.le, Nat.lt_succ_of_le h.ge⟩⟩
    rw [getLsbD_mask, BitVec.getLsbD_twoPow, Bool.eq_iff_iff, decide_eq_true_iff, hhas]
    simp [hk]
  have hshl := Field.getSHL_mask ⟨k, 1, Nat.one_pos, hk⟩
  rw [hmask] at hshl
  rw [hshl, hbit, BitVec.twoPow_eq]

/-- A source has no bit outside its field. -/
theorem source_outside {dx : Nat} (hdx : dx ≤ 7) (rising : Bool) {i : Nat}
    (h : (ctrlSigMask <<< sig.shl).getLsbD i = false) :
    (source dx rising <<< sig.shl).getLsbD i = false := by
  have hin : source dx rising &&& ctrlSigMask = source dx rising := by
    have hall : ∀ dx < 8, ∀ rising, source dx rising &&& ctrlSigMask = source dx rising := by
      decide
    exact hall dx (Nat.lt_succ_of_le hdx) rising
  rw [← hin, BitVec.getLsbD_shiftLeft, BitVec.getLsbD_and]
  rw [BitVec.getLsbD_shiftLeft] at h
  cases hi : decide (i < 32) && !decide (i < sig.shl) with
  | false => rfl
  | true =>
      rw [hi, Bool.true_and] at h
      rw [h, Bool.and_false, Bool.and_false]

theorem storeSignal3_off (dx : Nat) (rising : Bool) :
    sig.storeSignal3 reg 0 dx rising = { ret := 0, reg := routed sig reg .off } := by
  have hput : put sig.mbit 0 reg = reg &&& ~~~sig.mbit := by
    unfold put
    simp
  rw [routed, hput]
  rfl

theorem storeSignal3_on (hok : sig.Ok) (hdx : dx ≤ 7) (rising : Bool) :
    sig.storeSignal3 reg 1 dx rising = { ret := 0, reg := routed sig reg (.on dx rising) } := by
  have hstored : sig.storeSignal3 reg 1 dx rising =
      { ret := 0,
        reg := ((reg &&& ~~~sig.mbit) &&& ~~~(ctrlSigMask <<< sig.shl)) |||
          (source dx rising <<< sig.shl) ||| (BitVec.ofNat 32 1 <<< getSHL sig.mbit) } := by
    unfold storeSignal3
    rw [if_pos (by decide), if_neg (by omega)]
    rfl
  rw [hstored, shift_mbit hok]
  congr 1
  refine BitVec.eq_of_getLsbD_eq fun i hi => ?_
  rw [routed, getLsbD_put, getLsbD_put]
  simp only [BitVec.getLsbD_or, BitVec.getLsbD_and, BitVec.getLsbD_not, hi, decide_true,
    Bool.true_and, BitVec.getLsbD_allOnes]
  cases hbit : sig.mbit.getLsbD i with
  | true => simp
  | false =>
      cases hfield : (ctrlSigMask <<< sig.shl).getLsbD i with
      | true => simp
      | false => simp [source_outside hdx rising hfield]

theorem storeSignal3_refused (himode : imode ≠ 0) (hdx : 7 < dx) (rising : Bool) :
    sig.storeSignal3 reg imode dx rising = { ret := -1, reg := reg } := by
  unfold storeSignal3
  rw [if_pos himode, if_pos hdx]

theorem storeCount_refused (count : Nat) (himode : imode ≠ 0) (hdx : 7 < dx) (rising : Bool) :
    sig.storeCount reg count imode dx rising = { ret := -1, reg := reg } := by
  unfold storeCount
  rw [storeSignal3_refused himode hdx]
  rfl

/-- Where nothing is refused, the length of the text is returned. -/
theorem storeCount_ret (count : Nat) (h : imode = 0 ∨ dx ≤ 7) (rising : Bool) :
    (sig.storeCount reg count imode dx rising).ret = count := by
  unfold storeCount storeSignal3
  rcases h with rfl | hdx
  · rfl
  · split
    · rw [if_neg (by omega)]
      rfl
    · rfl

theorem storeCount_route (hok : sig.Ok) (count : Nat) (himode : imode ≤ 1)
    (hdx : imode = 1 → dx ≤ 7) (rising : Bool) :
    sig.storeCount reg count imode dx rising =
      { ret := count, reg := routed sig reg (route imode dx rising) } := by
  unfold storeCount
  rcases Nat.le_one_iff_eq_zero_or_eq_one.mp himode with rfl | rfl
  · rw [storeSignal3_off]
    rfl
  · rw [storeSignal3_on hok (hdx rfl)]
    rfl

/-- A number that is not looked at may be any. -/
theorem storeCount_mod (hok : sig.Ok) (count : Nat) (himode : imode ≤ 1)
    (hdx : imode = 1 → dx ≤ 7) (rising : Bool) :
    sig.storeCount reg count imode (dx % 4294967296) rising =
      { ret := count, reg := routed sig reg (route imode dx rising) } := by
  rw [storeCount_route hok count himode fun h => Nat.le_trans (Nat.mod_le _ _) (hdx h)]
  unfold route
  split
  · rfl
  · rw [Nat.mod_eq_of_lt (by omega)]

/-- Either the length of the text is returned, or it is refused. -/
theorem storeCount_returned (count imode dx : Nat) (rising : Bool) :
    (sig.storeCount reg count imode dx rising).ret = count ∨
      sig.storeCount reg count imode dx rising = { ret := -1, reg := reg } := by
  by_cases h : imode = 0 ∨ dx ≤ 7
  · exact .inl (storeCount_ret count h rising)
  · rw [not_or] at h
    exact .inr (storeCount_refused count h.1 (Nat.lt_of_not_le h.2) rising)

/-! ### The forms -/

section forms

variable {a b c tail : List Char} {rest : List Char}

theorem head_ends (htail : tail ∈ ends) : ∀ c, tail.head? = some c → c = '\n' := by
  unfold ends at htail
  intro c hc
  rcases List.mem_pair.mp htail with rfl | rfl
  · cases hc
  · exact (Option.some.inj hc).symm

theorem number_comma (ha : Sscanf.IsDigits a) :
    Sscanf.number (a ++ ',' :: rest) = some (Sscanf.decimal a, ',' :: rest) := by
  refine Sscanf.number_digits _ ha.1 ha.2 fun c hc => ?_
  obtain rfl := Option.some.inj hc
  rfl

theorem scanNumbers_text (ha : Sscanf.IsDigits a) (hb : Sscanf.IsDigits b) (hc : Sscanf.IsDigits c)
    (htail : tail ∈ ends) :
    scanNumbers Sscanf.number (a ++ ',' :: (b ++ ',' :: (c ++ tail))) =
      some (Sscanf.decimal a, Sscanf.decimal b, Sscanf.decimal c) := by
  have hlast : Sscanf.number (c ++ tail) = some (Sscanf.decimal c, tail) := by
    refine Sscanf.number_digits _ hc.1 hc.2 fun d hd => ?_
    rw [head_ends htail d hd]
    rfl
  have hlit : ∀ str, Sscanf.lit [','] (',' :: str) = some str := Sscanf.lit_append [',']
  unfold scanNumbers
  simp only [number_comma ha, number_comma hb, hlast, hlit, Option.bind_eq_bind, Option.bind_some]
  rfl

theorem scanNumbers_edge (ha : Sscanf.IsDigits a) :
    scanNumbers Sscanf.number (a ++ ',' :: 'd' :: rest) = none := by
  have hlit : ∀ str, Sscanf.lit [','] (',' :: str) = some str := Sscanf.lit_append [',']
  have hnone : Sscanf.number ('d' :: rest) = none := Sscanf.number_none _ (by decide) (by decide)
  unfold scanNumbers
  simp only [number_comma ha, hlit, hnone, Option.bind_eq_bind, Option.bind_some, Option.bind_none]

theorem scanEdge_text (ha : Sscanf.IsDigits a) (hb : Sscanf.IsDigits b) (rising : Bool)
    (htail : tail ∈ ends) :
    scanEdge Sscanf.number (a ++ ',' :: 'd' :: (b ++ ',' :: (senseWord rising ++ tail))) =
      some (Sscanf.decimal a, Sscanf.decimal b, senseWord rising) := by
  have hlit : ∀ str, Sscanf.lit [',', 'd'] (',' :: 'd' :: str) = some str :=
    Sscanf.lit_append [',', 'd']
  have hcomma : ∀ str, Sscanf.lit [','] (',' :: str) = some str := Sscanf.lit_append [',']
  have hword : Sscanf.word 32767 (senseWord rising ++ tail) = some (senseWord rising, tail) := by
    refine Sscanf.word_stop ?_ ?_ ?_ fun c hc => ?_
    · cases rising <;> decide
    · cases rising <;> decide
    · exact Sscanf.no_space_of_all (by cases rising <;> rfl)
    · rw [head_ends htail c hc]
      rfl
  unfold scanEdge
  simp only [number_comma ha, number_comma hb, hlit, hcomma, hword, Option.bind_eq_bind,
    Option.bind_some]
  rfl

/-- A text that begins with the word of a mode is of the third form. -/
theorem number_name {w : List Char} (hw : IsName w) (rest : List Char) :
    Sscanf.number (w ++ rest) = none := by
  obtain ⟨c, w', rfl⟩ := List.exists_cons_of_ne_nil hw.ne_nil
  exact Sscanf.number_none _ (hw.no_space c List.mem_cons_self) (hw.no_digit c rfl)

theorem scanNumbers_name {w : List Char} (hw : IsName w) (rest : List Char) :
    scanNumbers Sscanf.number (w ++ rest) = none := by
  unfold scanNumbers
  rw [number_name hw]
  rfl

theorem scanEdge_name {w : List Char} (hw : IsName w) (rest : List Char) :
    scanEdge Sscanf.number (w ++ rest) = none := by
  unfold scanEdge
  rw [number_name hw]
  rfl

theorem scanMode_letter {w : List Char} (hw : IsName w) (hb : Sscanf.IsDigits b) (rising : Bool) :
    scanMode Sscanf.number (w ++ ' ' :: 'd' :: (b ++ ' ' :: senseLetter rising :: tail)) =
      .three w (Sscanf.decimal b) (senseLetter rising) := by
  have hnum : Sscanf.number (b ++ ' ' :: senseLetter rising :: tail) =
      some (Sscanf.decimal b, ' ' :: senseLetter rising :: tail) := by
    refine Sscanf.number_digits _ hb.1 hb.2 fun c hc => ?_
    obtain rfl := Option.some.inj hc
    rfl
  have hspaces : Sscanf.spaces (' ' :: senseLetter rising :: tail) =
      senseLetter rising :: tail := by
    cases rising <;> rfl
  unfold scanMode
  rw [Sscanf.word_append hw.ne_nil hw.length_le hw.no_space (by decide)]
  have hlit : Sscanf.lit ['d'] (Sscanf.spaces
      (' ' :: 'd' :: (b ++ ' ' :: senseLetter rising :: tail))) =
        some (b ++ ' ' :: senseLetter rising :: tail) := rfl
  simp only [hlit, Option.bind_some, hnum, hspaces]
  rfl

theorem scanMode_word {w : List Char} (hw : IsName w) (htail : tail ∈ ends) :
    scanMode Sscanf.number (w ++ tail) = .one w := by
  have hword : Sscanf.word 10 (w ++ tail) = some (w, tail) := by
    refine Sscanf.word_stop hw.ne_nil hw.length_le hw.no_space fun c hc => ?_
    rw [head_ends htail c hc]
    rfl
  have hspaces : Sscanf.spaces tail = [] := by
    unfold ends at htail
    rcases List.mem_pair.mp htail with rfl | rfl <;> rfl
  unfold scanMode
  simp only [hword, hspaces]
  rfl

end forms

/-! ### What is right -/

theorem storeMode_three {mode : List Char} {sense : Char} {count : Nat}
    (h : ¬(mode = sig.mbitHi ∧ 7 < dx ∧ ¬UnknownLetter sense ∧ Passes 1 dx)) :
    ((storeMode sig reg count (Scanned.three mode dx sense).wrap).ret = count ∨
      storeMode sig reg count (Scanned.three mode dx sense).wrap = { ret := -1, reg := reg }) ∧
      (mode ≠ sig.mbitHi ∨ 7 < dx ∨ UnknownLetter sense →
        storeMode sig reg count (Scanned.three mode dx sense).wrap =
          { ret := -1, reg := reg }) := by
  by_cases hmode : mode = sig.mbitHi
  · by_cases hletter : UnknownLetter sense
    · have hrefused : storeMode sig reg count (Scanned.three mode dx sense).wrap =
          { ret := -1, reg := reg } := by
        unfold storeMode Scanned.wrap
        dsimp only
        rw [if_pos hmode, if_pos ⟨hletter.2, hletter.1⟩]
      exact ⟨.inr hrefused, fun _ => hrefused⟩
    · have hstored : storeMode sig reg count (Scanned.three mode dx sense).wrap =
          sig.storeCount reg count 1 (dx % 4294967296) (decide (sense ∈ "Rr+Pp".toList)) := by
        unfold storeMode Scanned.wrap
        dsimp only
        rw [if_pos hmode, if_neg fun hboth => hletter ⟨hboth.2, hboth.1⟩]
      rw [hstored]
      refine ⟨storeCount_returned _ _ _ _, fun hrefused => ?_⟩
      have hdx : 7 < dx := by
        rcases hrefused with hne | hdx | hunknown
        · exact absurd hmode hne
        · exact hdx
        · exact absurd hunknown hletter
      have hpasses : ¬Passes 1 dx := fun hp => h ⟨hmode, hdx, hletter, hp⟩
      unfold Passes at hpasses
      rw [not_or] at hpasses
      exact storeCount_refused _ (by decide) (Nat.lt_of_not_le hpasses.2) _
  · have hrefused : storeMode sig reg count (Scanned.three mode dx sense).wrap =
        { ret := -1, reg := reg } := if_neg hmode
    exact ⟨.inr hrefused, fun _ => hrefused⟩

/-- Where a text is not taken as something else, it is refused or its length is returned. -/
theorem storeSignal_returned (reg : BitVec 32) (h : ¬Wrong sig t) :
    ∃ res, sig.storeSignal false false reg t = some res ∧
      (res.ret = t.length ∨ res = { ret := -1, reg := reg }) ∧
        (Refused sig t → res = { ret := -1, reg := reg }) := by
  unfold Wrong at h
  unfold Refused
  cases hnumbers : scanNumbers Sscanf.number t with
  | some numbers =>
      obtain ⟨imode, dx, rising⟩ := numbers
      rw [hnumbers] at h
      refine ⟨_, storeSignal_numbers hnumbers, storeCount_returned _ _ _ _, fun hrefused => ?_⟩
      have hpasses : ¬Passes imode dx := fun hp => h ⟨hrefused.1, hrefused.2, hp⟩
      unfold Passes at hpasses
      rw [not_or] at hpasses
      exact storeCount_refused _ hpasses.1 (Nat.lt_of_not_le hpasses.2) _
  | none =>
      rw [hnumbers] at h
      dsimp only at h ⊢
      cases hedge : scanEdge Sscanf.number t with
      | some scanned =>
          obtain ⟨imode, dx, edge⟩ := scanned
          rw [hedge] at h
          dsimp only at h ⊢
          rw [not_or] at h
          refine ⟨_, (storeSignal_edge hnumbers hedge).trans (if_neg h.1),
            storeCount_returned _ _ _ _, fun hrefused => ?_⟩
          have hpasses : ¬Passes imode dx := fun hp => h.2 ⟨hrefused.1, hrefused.2, hp⟩
          unfold Passes at hpasses
          rw [not_or] at hpasses
          exact storeCount_refused _ hpasses.1 (Nat.lt_of_not_le hpasses.2) _
      | none =>
          rw [hedge] at h
          dsimp only at h ⊢
          refine ⟨_, storeSignal_mode hnumbers hedge, ?_⟩
          cases hmode : scanMode Sscanf.number t with
          | one mode =>
              rw [hmode] at h
              have hrefused : storeMode sig reg t.length (Scanned.one mode).wrap =
                  { ret := -1, reg := reg } := if_neg h
              exact ⟨.inr hrefused, fun _ => hrefused⟩
          | three mode dx sense =>
              rw [hmode] at h
              exact storeMode_three h
          | other => exact ⟨.inr rfl, fun _ => rfl⟩

/-- What a text that has one of the forms says is stored. -/
theorem storeSignal_spells (hok : sig.Ok) {route : Route} (hspells : Spells sig t route)
    (h : ¬Wrong sig t) :
    sig.storeSignal false false reg t = some { ret := t.length, reg := routed sig reg route } := by
  cases hspells with
  | @numbers a b c tail ha hb hc himode hdx hrising htail =>
      rw [storeSignal_numbers (scanNumbers_text ha hb hc htail)]
      rw [Nat.mod_eq_of_lt (by omega : Sscanf.decimal a < 4294967296),
        Nat.mod_eq_of_lt (by omega : Sscanf.decimal c < 4294967296)]
      have hsense : decide (Sscanf.decimal c ≠ 0) = decide (Sscanf.decimal c = 1) := by
        rw [decide_eq_decide]
        omega
      rw [hsense, storeCount_mod hok _ himode hdx]
  | @edge a b tail rising ha hb himode hdx htail =>
      have hsense : getEdgeSense (senseWord rising) = rising := by
        cases rising <;> decide
      have hfits : ¬modeSize ≤ (senseWord rising).length := by
        cases rising <;> decide
      rw [storeSignal_edge (scanNumbers_edge ha) (scanEdge_text ha hb rising htail), if_neg hfits,
        Nat.mod_eq_of_lt (by omega : Sscanf.decimal a < 4294967296), hsense,
        storeCount_mod hok _ himode hdx]
  | @letter b tail rising hb hdx htail =>
      have hword : ∀ count, storeMode sig reg count
          (Scanned.three sig.mbitHi (Sscanf.decimal b) (senseLetter rising)).wrap =
            sig.storeCount reg count 1 (Sscanf.decimal b % 4294967296) rising := by
        intro count
        unfold storeMode Scanned.wrap
        dsimp only
        rw [if_pos rfl]
        cases rising <;> rfl
      rw [storeSignal_mode (scanNumbers_name hok.hi _) (scanEdge_name hok.hi _),
        scanMode_letter hok.hi hb, hword, storeCount_mod hok _ (Nat.le_refl 1) fun _ => hdx]
      rfl
  | @lo tail htail =>
      refine absurd ?_ h
      unfold Wrong
      rw [scanNumbers_name hok.lo, scanEdge_name hok.lo, scanMode_word hok.lo htail]

/-- A text that is to be refused, and is taken. -/
theorem taken_not_right {res : SignalStored} (hres : sig.storeSignal false false reg t = some res)
    (hret : res.ret = t.length) (hrefused : Refused sig t) : ¬Right sig reg t := by
  intro hright
  have hneg := hright.refused hrefused res hres
  omega

theorem numbers_not_right (hnumbers : scanNumbers Sscanf.number t = some (imode, dx, rising))
    (h : imode ≠ 0 ∧ 7 < dx ∧ Passes imode dx) : ¬Right sig reg t := by
  refine taken_not_right (storeSignal_numbers hnumbers) (storeCount_ret _ h.2.2 _) ?_
  unfold Refused
  rw [hnumbers]
  exact ⟨h.1, h.2.1⟩

theorem edge_not_right (hnumbers : scanNumbers Sscanf.number t = none)
    (hedge : scanEdge Sscanf.number t = some (imode, dx, edge))
    (h : modeSize ≤ edge.length ∨ imode ≠ 0 ∧ (7 < dx ∨ UnknownWord edge) ∧ Passes imode dx) :
    ¬Right sig reg t := by
  have hstored : sig.storeSignal false false reg t = _ := storeSignal_edge hnumbers hedge
  by_cases hlong : modeSize ≤ edge.length
  · -- the word does not fit
    intro hright
    obtain ⟨res, hres⟩ := hright.inside
    rw [hstored, if_pos hlong] at hres
    cases hres
  · rw [if_neg hlong] at hstored
    obtain ⟨himode, hwrong, hpasses⟩ := h.resolve_left hlong
    refine taken_not_right hstored (storeCount_ret _ hpasses _) ?_
    unfold Refused
    rw [hnumbers, hedge]
    exact ⟨himode, hwrong⟩

/-- The word for 0 returns 0. -/
theorem lo_not_right (hnumbers : scanNumbers Sscanf.number t = none)
    (hedge : scanEdge Sscanf.number t = none)
    (hmode : scanMode Sscanf.number t = .one sig.mbitLo) : ¬Right sig reg t := by
  intro hright
  have hzero : (storeMode sig reg t.length (Scanned.one sig.mbitLo).wrap).ret = 0 := by
    unfold storeMode Scanned.wrap
    dsimp only
    rw [if_pos rfl, storeSignal3_off]
  have hne : t ≠ [] := by
    rintro rfl
    cases hmode
  have hpos := List.length_pos_iff.mpr hne
  have hreturned := hright.returned _ (storeSignal_mode hnumbers hedge)
  rw [hmode, hzero] at hreturned
  omega

theorem hi_not_right (hnumbers : scanNumbers Sscanf.number t = none)
    (hedge : scanEdge Sscanf.number t = none)
    (hmode : scanMode Sscanf.number t = .three sig.mbitHi dx sense)
    (h : 7 < dx ∧ ¬UnknownLetter sense ∧ Passes 1 dx) : ¬Right sig reg t := by
  obtain ⟨hdx, hletter, hpasses⟩ := h
  have hret : (storeMode sig reg t.length (Scanned.three sig.mbitHi dx sense).wrap).ret =
      t.length := by
    unfold storeMode Scanned.wrap
    dsimp only
    rw [if_pos rfl, if_neg fun hboth => hletter ⟨hboth.2, hboth.1⟩,
      storeCount_ret _ (hpasses.imp_left fun h => absurd h (by decide))]
  refine taken_not_right (storeSignal_mode hnumbers hedge) (by rw [hmode, hret]) ?_
  unfold Refused
  rw [hnumbers, hedge, hmode]
  exact .inr (.inl hdx)

/-- A text that is taken as something else is stored, or returns 0, or has no value. -/
theorem wrong_not_right (h : Wrong sig t) : ¬Right sig reg t := by
  unfold Wrong at h
  split at h
  next hnumbers => exact numbers_not_right hnumbers h
  next hnumbers =>
    split at h
    next hedge => exact edge_not_right hnumbers hedge h
    next hedge =>
      split at h
      next hmode => exact lo_not_right hnumbers hedge (h ▸ hmode)
      next hmode =>
        obtain ⟨rfl, h⟩ := h
        exact hi_not_right hnumbers hedge hmode h
      next => exact absurd h not_false

/--
**A text does what it says, unless it is one of those that are taken as something else**: its mode
is longer than its sixteen characters, or a number or a word that is to be refused passes.
-/
theorem storeSignal_right_iff (sig : Signal) (reg : BitVec 32) (t : List Char) (hok : sig.Ok) :
    Right sig reg t ↔ ¬Wrong sig t := by
  constructor
  · intro h hwrong
    exact wrong_not_right hwrong h
  · intro h
    obtain ⟨res, hres, hret, hrefused⟩ := storeSignal_returned reg h
    refine ⟨fun busy lock hbusy => ?_, ⟨res, hres⟩, fun res' hres' => ?_,
      fun hr res' hres' => ?_, fun route hspells res' hres' => ?_⟩
    · unfold storeSignal
      by_cases hb : sig.notWhileBusy = true ∧ busy = true
      · rw [if_pos hb]
      · rw [if_neg hb, if_pos (hbusy.resolve_left hb)]
    · obtain rfl := Option.some.inj (hres.symm.trans hres')
      refine hret.imp_right fun he => ?_
      rw [he]
      exact ⟨Int.negSucc_lt_zero 0, rfl⟩
    · obtain rfl := Option.some.inj (hres.symm.trans hres')
      rw [hrefused hr]
      exact Int.negSucc_lt_zero 0
    · rw [storeSignal_spells hok hspells h] at hres'
      obtain rfl := Option.some.inj hres'
      exact ⟨rfl, rfl, fun i hbit hfield => routed_outside route hbit hfield⟩

def clk : Signal :=
  { shl := 12, mbit := BitVec.twoPow 32 0, mbitHi := "external".toList,
    mbitLo := "internal".toList, notWhileBusy := true }

theorem clk_ok : clk.Ok := by
  refine ⟨by decide, ⟨0, by decide, rfl⟩,
    ⟨by decide, by decide, Sscanf.no_space_of_all rfl, ?_⟩,
    ⟨by decide, by decide, Sscanf.no_space_of_all rfl, ?_⟩⟩
  · intro c hc
    obtain rfl := Option.some.inj hc
    rfl
  · intro c hc
    obtain rfl := Option.some.inj hc
    rfl

theorem storeSignal_right_external : Right clk 0 "external d3 R\n".toList :=
  (storeSignal_right_iff clk 0 _ clk_ok).mpr fun h => by
    unfold Wrong at h
    have hnumbers : scanNumbers Sscanf.number "external d3 R\n".toList = none := by decide
    have hedge : scanEdge Sscanf.number "external d3 R\n".toList = none := by decide
    have hmode : scanMode Sscanf.number "external d3 R\n".toList =
        .three "external".toList 3 'R' := by decide
    rw [hnumbers, hedge, hmode] at h
    exact absurd h.2.1 (by decide)

/-- The word of the second form goes to 16 characters, whatever its length is. -/
theorem long_word_not_right :
    ¬∀ (sig : Signal) (reg : BitVec 32) (t : List Char), sig.Ok → Right sig reg t := by
  intro h
  obtain ⟨res, hres⟩ := (h clk 0 "1,d3,risingrisingrising".toList clk_ok).inside
  have hnone : clk.storeSignal false false 0 "1,d3,risingrisingrising".toList = none := by
    decide
  cases hnone.symm.trans hres

end Signal

end Acq400
