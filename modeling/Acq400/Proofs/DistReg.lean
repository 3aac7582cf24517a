/-
The words that a distributor may be given, and the sites that they list.

The words are those of `Proofs/SettingWords.lean`, but for what selects the aggregator; `comms` and
`pad` are found where they stand and nowhere else.
-/
import Acq400.Driver.DistReg
import Acq400.Proofs.AggReg

namespace Acq400

namespace DistReg

open AggReg Words

/-- The words that a distributor may be given. -/
def May : Word → Prop
  | .label _ => False
  | .select _ _ => False
  | .enable shown _ => shown = false
  | _ => True

variable {rig : Rig} {t rest : List Char} {ws : List Word} {w : Word}

/-! ### What is found -/

theorem strstr_comms (hfits : w.Fits rig) (hmay : May w) :
    strstr "comms".toList w.text = if w.kind = .comms then some w.text else none := by
  cases w with
  | label regval => exact absurd hmay id
  | sites l => exact strstr_none hfits 'c' (by decide) (by decide : 'c' ∉ siteLetters)
  | noSites => exact strstr_none hfits 'c' (by decide) (by decide : 'c' ∉ noSiteLetters)
  | threshold minus digits =>
      exact strstr_none hfits 'c' (by decide) (by decide : 'c' ∉ thresholdLetters)
  | select offset agg => exact absurd hmay id
  | comms letter => exact strstr_prefix (by decide : "comms".toList ≠ []) ['=', letter]
  | pad digits => exact strstr_none hfits 'c' (by decide) (by decide : 'c' ∉ padLetters)
  | enable shown on => exact strstr_none hfits 'c' (by decide) (by decide : 'c' ∉ enableLetters)

theorem strstr_pad (hfits : w.Fits rig) (hmay : May w) :
    strstr "pad".toList w.text = if w.kind = .pad then some w.text else none := by
  cases w with
  | label regval => exact absurd hmay id
  | sites l => exact strstr_none hfits 'p' (by decide) (by decide : 'p' ∉ siteLetters)
  | noSites => exact strstr_none hfits 'p' (by decide) (by decide : 'p' ∉ noSiteLetters)
  | threshold minus digits =>
      exact strstr_none hfits 'p' (by decide) (by decide : 'p' ∉ thresholdLetters)
  | select offset agg => exact absurd hmay id
  | comms letter => exact strstr_behind letter (by decide) (by decide) (by decide)
  | pad digits => exact strstr_prefix (by decide : "pad".toList ≠ []) ('=' :: digits)
  | enable shown on => exact strstr_none hfits 'p' (by decide) (by decide : 'p' ∉ enableLetters)

theorem kind_comms (h : w.kind = .comms) : ∃ letter, w = .comms letter := by
  cases w with
  | comms letter => exact ⟨letter, rfl⟩
  | _ => cases h

theorem kind_pad (h : w.kind = .pad) : ∃ digits, w = .pad digits := by
  cases w with
  | pad digits => exact ⟨digits, rfl⟩
  | _ => cases h

theorem kind_on (hmay : May w) (h : w.kind = .enable) : ∃ on, w = .enable false on := by
  obtain ⟨shown, on, rfl⟩ := kind_enable h
  obtain rfl : shown = false := hmay
  exact ⟨on, rfl⟩

theorem mem_enable (h : Spells rig May t ws) (on : Bool) :
    (∃ shown, Word.enable shown on ∈ ws) ↔ .enable false on ∈ ws := by
  refine ⟨?_, fun hw => ⟨false, hw⟩⟩
  rintro ⟨shown, hw⟩
  obtain rfl : shown = false := h.may _ hw
  exact hw

/-! ### The sites -/

/-- The sites are walked through, up to the end of the word. -/
theorem walkDistSites_listText {l : List Nat}
    (hl : ∀ d ∈ l, 1 ≤ d ∧ d ≤ 6 ∧ (d : Int) ∈ rig.goodSites) (hstop : Stop rest) :
    ∀ regval set, rig.walkDistSites (listText l ++ rest) regval set =
      (true, (l.map rig.siteOf).foldl (fun reg site => reg ||| aggModEn site distMshift) regval,
        (l.map rig.siteOf).foldl rig.addAggregatorSet set) := by
  induction l with
  | nil =>
      intro regval set
      rcases hstop with hend | ⟨more, rfl⟩
      · rcases List.mem_pair.mp hend with rfl | rfl
        · rw [listText, List.nil_append, Rig.walkDistSites]
          rfl
        · rw [listText, List.nil_append, Rig.walkDistSites, if_neg (by decide),
            if_pos (.inr rfl), Rig.walkDistSites]
          rfl
      · rw [listText, List.nil_append, Rig.walkDistSites, if_pos rfl]
        rfl
  | cons d l ih =>
      intro regval set
      obtain ⟨hlow, hhigh, hgood⟩ := hl d List.mem_cons_self
      have ih := ih fun e he => hl e (List.mem_cons_of_mem d he)
      obtain ⟨htext, hspace, hskip⟩ := decimalText_site ⟨hlow, hhigh⟩
      have hrange := siteOf_range rig ⟨hlow, hhigh⟩
      -- a comma is skipped, and no digit is behind the number
      have hcomma : ∀ regval set,
          rig.walkDistSites ((if l = [] then [] else ',' :: listText l) ++ rest) regval set =
            rig.walkDistSites (listText l ++ rest) regval set := by
        intro regval set
        split
        · rename_i hnil
          rw [hnil]
          rfl
        · rw [List.cons_append, Rig.walkDistSites, if_neg (by decide), if_pos (.inl rfl)]
      have hhead : ∀ c, ((if l = [] then [] else ',' :: listText l) ++ rest).head? = some c →
          c.isDigit = false := by
        intro c hc
        split at hc
        · exact stop_no_digit hstop hc
        · obtain rfl := Option.some.inj hc
          decide
      have hdrop : ((if l = [] then [] else ',' :: listText l) ++ rest).dropWhile Char.isDigit =
          (if l = [] then [] else ',' :: listText l) ++ rest := by
        cases hmore : (if l = [] then [] else ',' :: listText l) ++ rest with
        | nil => rfl
        | cons c more =>
            rw [hmore] at hhead
            exact List.dropWhile_cons_of_neg (by simp [hhead c rfl])
      have hsite := getSite_decimalText rig hhigh hhead
      rw [htext, designated_good hgood] at hsite
      have hhalf : (rig.siteOf d).tmod halfSite = rig.siteOf d :=
        Int.tmod_eq_of_lt (by omega) (by unfold halfSite; omega)
      rw [listText, htext, List.append_assoc, List.cons_append, List.nil_append,
        Rig.walkDistSites, if_neg hspace, if_neg hskip]
      dsimp only
      rw [List.cons_append, List.nil_append] at hsite
      rw [hsite, if_pos (by omega), hdrop, hcomma, hhalf, ih]
      rfl

end DistReg

end Acq400

/-! ### The register

What the text of a distributor setting does.

The kinds of word are done one after the other, each to bits of its own, but for the pad: its mask
is complemented before it is shifted, so the bits that enable the distributor go as well.  What is
left of the register is written, and `on` or `off` does the rest.
-/

namespace Acq400

namespace DistReg

open AggReg MaskField Words

/-! ### What a text has to do -/

/-- What the distributor communicates with. -/
inductive DistComms where
  | a9
  | commsB
  | commsA
  | udp
deriving DecidableEq, Repr

namespace DistComms

def letter : DistComms → Char
  | a9 => '9'
  | commsB => 'B'
  | commsA => 'A'
  | udp => 'U'

/-- The other spelling. -/
def alt : DistComms → Char
  | a9 => '0'
  | commsB => '1'
  | commsA => '2'
  | udp => '3'

/-- The value of the field. -/
def code : DistComms → Nat
  | a9 => 0
  | commsB => 2
  | commsA => 1
  | udp => 3

/-- The letter stands for it. -/
def Spelt (dc : DistComms) (c : Char) : Prop := c = dc.letter ∨ c = dc.alt

end DistComms

def siteSpan : Span 32 := Knob.aggregator.siteSpan

theorem commsSpan_pos : 0 < 2 := by decide

theorem trashSpan_pos : 0 < 4 := by decide

def commsSpan : Span 32 := ⟨28, 2, commsSpan_pos, by decide⟩

/-- The trash length. -/
def trashSpan : Span 32 := ⟨aggSpadLenShl, 4, trashSpan_pos, by decide⟩

/-- The sites, and no others. -/
def SiteBits (sites : List Int) (reg : BitVec 32) : Prop :=
  ∀ i < 6, reg.getLsbD (distMshift + i) = decide ((i : Int) + 1 ∈ sites)

/-- The bits that a word is about. -/
def Has : Word → Nat → Prop
  | .sites _, i => siteSpan.Has i
  | .noSites, i => siteSpan.Has i
  | .threshold _ _, i => thresholdSpan.Has i
  | .comms _, i => commsSpan.Has i
  | .pad _, i => trashSpan.Has i ∨ i = 17
  | .enable _ on, i => i = 0 ∨ on = true ∧ i = 1
  | _, _ => False

/-- What a word says is so. -/
def Holds (rig : Rig) : Word → BitVec 32 → Prop
  | .sites l, reg => SiteBits (l.map rig.siteOf) reg
  | .noSites, reg => SiteBits [] reg
  | .threshold minus digits, reg =>
    minus = false → Sscanf.decimal digits ≤ 2147483647 →
      (thresholdSpan.get reg).toNat = min (Sscanf.decimal digits / rig.aggSizeUnit) 255
  | .comms c, reg => ∀ dc : DistComms, dc.Spelt c → (commsSpan.get reg).toNat = dc.code
  | .pad digits, reg =>
    reg.getLsbD 17 = decide (Sscanf.decimal digits ≠ 0) ∧
      (Sscanf.decimal digits ≠ 0 → Sscanf.decimal digits ≤ 16 →
        (trashSpan.get reg).toNat = Sscanf.decimal digits - 1)
  | .enable _ on, reg => reg.getLsbD 0 = on ∧ (on = true → reg.getLsbD 1 = false)
  | _, _ => True

/-- What is shown. -/
structure Shown where
  reg : BitVec 32
  sites : List Nat
  comms : Char
  pad : Int
  mover : Bool
deriving DecidableEq, Repr

def siteText (sites : List Nat) : List Char :=
  if sites = [] then "sites=none".toList else "sites=".toList ++ listText sites

def Shown.text (s : Shown) : List Char :=
  "reg=0x".toList ++ hexText s.reg ++ ' ' :: (siteText s.sites ++ ' ' :: ("comms=".toList ++
    s.comms :: " pad=".toList ++ Sscanf.decimalText s.pad ++ " DATA_MOVER_EN=".toList ++
      (if s.mover then "on\n" else "off\n").toList))

/-- What a word says is shown. -/
def ShownIn : Word → Shown → Prop
  | .sites l, s => ∀ d, d ∈ s.sites ↔ d ∈ l
  | .noSites, s => s.sites = []
  | .comms c, s => ∃ dc : DistComms, dc.Spelt c ∧ dc.Spelt s.comms
  | .pad digits, s => s.pad = Sscanf.decimal digits
  | _, _ => True

/-- The extended pad is available. -/
def Dist.Extended (d : Dist) : Prop := d.checkExtendedPad.hasExtendedPad ≠ 0

/-- A text does what its words say. -/
structure Right (rig : Rig) (d : Dist) (t : List Char) (ws : List Word) : Prop where
  ret : ws ≠ [] → (rig.storeDistReg d t).ret = t.length
  holds : ∀ w ∈ ws, Holds rig w (rig.storeDistReg d t).dist.reg
  kept : ∀ reg ∈ (rig.storeDistReg d t).dist.reg :: (rig.storeDistReg d t).writes,
    ∀ i, (∀ w ∈ ws, ¬Has w i) → reg.getLsbD i = d.reg.getLsbD i
  ovly : (∀ w ∈ ws, w.kind ≠ .pad) ∨ ¬d.Extended → (rig.storeDistReg d t).dist.ovly = d.ovly
  set : (∀ w ∈ ws, w.kind ≠ .sites) → (rig.storeDistReg d t).dist.set = d.set
  shown : d.Extended → ∃ s : Shown,
    rig.showDistReg (rig.storeDistReg d t).dist = s.text ∧ ∀ w ∈ ws, ShownIn w s

/-! ### The texts that do not -/

/-- A pad takes bits that are set, and nothing says so. -/
def Disturbs (reg : BitVec 32) (ws : List Word) : Prop :=
  (∃ w ∈ ws, w.kind = .pad) ∧
    (reg.getLsbD 2 = true ∨ reg.getLsbD 3 = true ∨
      reg.getLsbD 1 = true ∧ .enable false true ∉ ws ∨
      reg.getLsbD 0 = true ∧ ∀ w ∈ ws, w.kind ≠ .enable)

/-- A word is shown as another. -/
def Misread (rig : Rig) : Word → Prop
  | .comms c => ∀ dc : DistComms, ¬dc.Spelt c
  | .sites l => rig.isAcq1001sc = true ∧ 3 ∈ l
  | _ => False

/-- The texts that do something else. -/
def Wrong (rig : Rig) (d : Dist) (ws : List Word) : Prop :=
  .noSites ∈ ws ∧ .enable false true ∉ ws ∨ Disturbs d.reg ws ∨
    d.Extended ∧ ∃ w ∈ ws, Misread rig w

variable {rig : Rig} {d : Dist} {t : List Char} {ws : List Word} {e e' e'' : Edit} {i : Nat}

/-! ### One kind after the other -/

/-- Words that are shown by the same bits hold of the same registers. -/
theorem Holds.congr {w : Word} {reg reg' : BitVec 32} (h : Holds rig w reg)
    (hbits : ∀ i, Has w i → reg'.getLsbD i = reg.getLsbD i) : Holds rig w reg' := by
  have hsites : ∀ sites, (∀ i, siteSpan.Has i → reg'.getLsbD i = reg.getLsbD i) →
      SiteBits sites reg → SiteBits sites reg' := by
    intro sites hbits hsites i hi
    have hhas : siteSpan.Has (distMshift + i) :=
      ⟨Nat.le_add_right _ _, Nat.add_lt_add_left hi _⟩
    rw [hbits _ hhas]
    exact hsites i hi
  cases w with
  | label regval => trivial
  | sites l => exact hsites _ hbits h
  | noSites => exact hsites _ hbits h
  | threshold minus digits =>
      have hget : thresholdSpan.get reg' = thresholdSpan.get reg := get_eq_iff.mpr hbits
      intro hminus hmax
      rw [hget]
      exact h hminus hmax
  | select offset b => trivial
  | comms c =>
      have hget : commsSpan.get reg' = commsSpan.get reg := get_eq_iff.mpr hbits
      intro dc hdc
      rw [hget]
      exact h dc hdc
  | pad digits =>
      have hget : trashSpan.get reg' = trashSpan.get reg :=
        get_eq_iff.mpr fun i hi => hbits i (.inl hi)
      refine ⟨(hbits 17 (.inr rfl)).trans h.1, fun hne hmax => ?_⟩
      rw [hget]
      exact h.2 hne hmax
  | enable shown on =>
      exact ⟨(hbits 0 (.inl rfl)).trans h.1, fun hon => (hbits 1 (.inr ⟨hon, rfl⟩)).trans (h.2 hon)⟩

theorem has_iff (w : Word) (i : Nat) :
    Has w i ↔
      match w.kind with
      | .sites => 18 ≤ i ∧ i < 24
      | .threshold => 8 ≤ i ∧ i < 16
      | .comms => 28 ≤ i ∧ i < 30
      | .pad => 4 ≤ i ∧ i < 8 ∨ i = 17
      | .enable => i = 0 ∨ (∃ shown, w = .enable shown true) ∧ i = 1
      | _ => False := by
  cases w with
  | enable shown on =>
      unfold Has Word.kind
      simp
  | _ => exact Iff.rfl

/-- The low bits are those of `on` and `off`, and no others are. -/
theorem not_has_low {w : Word} (hkind : w.kind ≠ .enable) (hi : Has w i) : 4 ≤ i := by
  rw [has_iff] at hi
  cases hk : w.kind <;> simp only [hk] at hi hkind
  all_goals first | omega | exact absurd rfl hkind

/-- No two kinds have a bit in common. -/
theorem has_apart {v w : Word} (hne : v.kind ≠ w.kind) (h : Has v i) : ¬Has w i := by
  intro hw
  rw [has_iff] at h hw
  cases hv : v.kind <;> cases hk : w.kind <;>
    simp only [hv, hk, ne_eq, not_true_eq_false, reduceCtorEq] at h hw hne
  all_goals omega

/-- What the words for a distributor are about and say. -/
def meaning (rig : Rig) : Meaning May where
  Has := Has
  Holds := fun w agg => Holds rig w agg.reg
  apart := fun _ _ hne h => has_apart hne h
  congr := fun _ h hbits _ => Holds.congr h hbits

/-- The register and the set of a setting that is under way. -/
def Edit.agg (e : Edit) : Agg := ⟨e.regval, e.dist.set⟩

/-- The words of some kinds have been done, and nothing but the set is stored. -/
structure Edits (rig : Rig) (ws : List Word) (K : List Kind) (e e' : Edit) : Prop where
  step : Step (meaning rig) ws K e.agg e'.agg e.pass e'.pass
  dist : ∃ set, e'.dist = { e.dist with set := set }

theorem Edits.refl {kind : Kind} (hnone : ∀ w ∈ ws, w.kind ≠ kind) (e : Edit) :
    Edits rig ws [kind] e e :=
  ⟨.refl hnone _ _, e.dist.set, rfl⟩

theorem Edits.trans {K L : List Kind} (h : Edits rig ws K e e') (h' : Edits rig ws L e' e'')
    (hmay : ∀ w ∈ ws, May w) (happart : ∀ k ∈ K, k ∉ L) : Edits rig ws (K ++ L) e e'' := by
  obtain ⟨set, hset⟩ := h.dist
  obtain ⟨set', hset'⟩ := h'.dist
  exact ⟨h.step.trans h'.step hmay happart, set', by rw [hset', hset]⟩

/-! ### Sites, threshold and comms -/

theorem sites_step (h : Spells rig May t ws) (e : Edit) :
    ∃ e', rig.storeDistSites e t = .ok e' ∧ Edits rig ws [.sites] e e' := by
  have hbits : ∀ sites : List Int, (∀ site ∈ sites, 1 ≤ site ∧ site ≤ 6) →
      SiteBits sites (Rig.sitesReg distMshift sites e.regval) ∧
        ∀ i, ¬siteSpan.Has i →
          (Rig.sitesReg distMshift sites e.regval).getLsbD i = e.regval.getLsbD i :=
    fun sites hsites => bits_sitesReg .aggregator hsites e.regval
  unfold Rig.storeDistSites
  rcases h.find_kind (by decide) (by decide) (by decide)
    fun w hw => strstr_sites (h.fits w hw) with ⟨hnone, hall⟩ | ⟨w, hw, hkind, rest, hstop, htext⟩
  · rw [hnone]
    exact ⟨e, rfl, .refl hall e⟩
  · rcases kind_sites hkind with rfl | ⟨l, rfl⟩
    · obtain ⟨hholds, hkept⟩ := hbits [] fun site hsite => absurd hsite List.not_mem_nil
      rw [htext]
      exact ⟨_, rfl, .of_word hw h.nodup rfl hholds hkept fun hne => absurd rfl hne, _, rfl⟩
    · have hfits := h.fits _ hw
      obtain ⟨hholds, hkept⟩ := hbits (l.map rig.siteOf) fun site hsite => by
        obtain ⟨n, hn, rfl⟩ := List.mem_map.mp hsite
        exact siteOf_range rig ⟨(hfits n hn).1, (hfits n hn).2.1⟩
      have hdrop : ((Word.sites l).text ++ rest).drop "sites=".length = listText l ++ rest := rfl
      have hnone : ¬"none".toList.isPrefixOf (listText l ++ rest) = true :=
        listText_not_none l hstop
      rw [htext]
      dsimp only
      rw [hdrop, if_neg hnone, walkDistSites_listText hfits hstop]
      exact ⟨_, rfl, .of_word hw h.nodup rfl hholds hkept fun hne => absurd rfl hne, _, rfl⟩

theorem threshold_step (h : Spells rig May t ws) (e : Edit) :
    ∃ e', rig.storeDistThreshold e t = .ok e' ∧ Edits rig ws [.threshold] e e' := by
  unfold Rig.storeDistThreshold
  rcases h.find_kind (by decide) (by decide) (by decide)
    fun w hw => strstr_threshold (h.fits w hw) with
      ⟨hnone, hall⟩ | ⟨w, hw, hkind, rest, hstop, htext⟩
  · rw [hnone]
    exact ⟨e, rfl, .refl hall e⟩
  · obtain ⟨minus, digits, rfl⟩ := kind_threshold hkind
    rw [htext]
    dsimp only
    rw [scan_threshold minus (h.fits _ hw) hstop]
    dsimp only
    rw [put_threshold (thOf_le _)]
    refine ⟨_, rfl, .of_word hw h.nodup rfl (fun hminus hmax => ?_) (fun i hi => put_outside hi)
      fun _ => rfl, _, rfl⟩
    rw [hminus]
    exact get_threshold hmax _

theorem mask_commsSpan : commsSpan.mask = distCommsMask := by decide

/-- The letters have values of the field. -/
theorem toDistCommsFudge_and (c : Char) :
    toDistCommsFudge c &&& distCommsMask = toDistCommsFudge c := by
  unfold toDistCommsFudge
  repeat' split
  all_goals decide

theorem toDistCommsFudge_spelt {dc : DistComms} {c : Char} (h : dc.Spelt c) :
    (commsSpan.get (toDistCommsFudge c)).toNat = dc.code := by
  have hall : ∀ dc : DistComms, (commsSpan.get (toDistCommsFudge dc.letter)).toNat = dc.code ∧
      (commsSpan.get (toDistCommsFudge dc.alt)).toNat = dc.code := by
    intro dc
    cases dc <;> decide
  rcases h with rfl | rfl
  · exact (hall dc).1
  · exact (hall dc).2

theorem comms_step (h : Spells rig May t ws) (e : Edit) :
    ∃ e', e.storeComms t = .ok e' ∧ Edits rig ws [.comms] e e' := by
  unfold Edit.storeComms
  rcases h.find_kind (by decide) (by decide) (by decide)
    fun w hw => strstr_comms (h.fits w hw) (h.may w hw) with
      ⟨hnone, hall⟩ | ⟨w, hw, hkind, rest, hstop, htext⟩
  · rw [hnone]
    exact ⟨e, rfl, .refl hall e⟩
  · obtain ⟨c, rfl⟩ := kind_comms hkind
    have hlit : Sscanf.lit "comms=".toList ((Word.comms c).text ++ rest) = some (c :: rest) := by
      unfold Word.text
      rw [List.append_assoc, Sscanf.lit_append]
      rfl
    have hput : e.regval &&& ~~~distCommsMask ||| toDistCommsFudge c =
        put commsSpan.mask (toDistCommsFudge c) e.regval := by
      unfold put
      rw [mask_commsSpan, toDistCommsFudge_and]
    rw [htext]
    dsimp only
    rw [hlit]
    dsimp only
    rw [hput]
    refine ⟨_, rfl, .of_word hw h.nodup rfl (fun dc hdc => ?_) (fun i hi => put_outside hi)
      fun _ => rfl, _, rfl⟩
    have hget : commsSpan.get (put commsSpan.mask (toDistCommsFudge c) e.regval) =
        commsSpan.get (toDistCommsFudge c) := by
      refine get_eq_iff.mpr fun i hi => ?_
      rw [getLsbD_put, getLsbD_mask, decide_eq_true hi, if_pos rfl]
    exact (congrArg BitVec.toNat hget).trans (toDistCommsFudge_spelt hdc)

/-! ### The pad -/

theorem and_not_getLsbD (reg mask : BitVec 32) (i : Nat) :
    (reg &&& ~~~mask).getLsbD i = (reg.getLsbD i && !mask.getLsbD i) := by
  rw [BitVec.getLsbD_and, BitVec.getLsbD_not]
  by_cases hi : i < 32
  · simp [hi]
  · simp [BitVec.getLsbD_of_ge reg i (by omega)]

theorem getLsbD_padMask (i : Nat) :
    (~~~distTrashLenMask <<< aggSpadLenShl).getLsbD i = decide (8 ≤ i ∧ i < 32) := by
  have hall : ∀ i < 32, (~~~distTrashLenMask <<< aggSpadLenShl).getLsbD i =
      decide (8 ≤ i ∧ i < 32) := by decide
  by_cases hi : i < 32
  · exact hall i hi
  · rw [BitVec.getLsbD_of_ge _ i (by omega), eq_comm, decide_eq_false_iff_not]
    omega

theorem getLsbD_trashLenMask (i : Nat) : distTrashLenMask.getLsbD i = decide (i < 4) := by
  have hall : ∀ i < 32, distTrashLenMask.getLsbD i = decide (i < 4) := by decide
  by_cases hi : i < 32
  · exact hall i hi
  · rw [BitVec.getLsbD_of_ge _ i (by omega), eq_comm, decide_eq_false_iff_not]
    omega

theorem getLsbD_spadEn (i : Nat) : aggSpadEn.getLsbD i = decide (i = 17) := by
  have htwo : aggSpadEn = BitVec.twoPow 32 17 := by decide
  rw [htwo, BitVec.getLsbD_twoPow]
  simp [eq_comm]

theorem ofInt_pred {n : Nat} (hn : n ≠ 0) :
    BitVec.ofInt 32 ((n : Int) - 1) = BitVec.ofNat 32 (n - 1) := by
  have hcast : (n : Int) - 1 = ((n - 1 : Nat) : Int) := by omega
  rw [hcast, BitVec.ofInt_natCast]

theorem getLsbD_padKept (reg : BitVec 32) (i : Nat) :
    (reg &&& (~~~distTrashLenMask <<< aggSpadLenShl)).getLsbD i =
      (decide (8 ≤ i) && reg.getLsbD i) := by
  rw [BitVec.getLsbD_and, getLsbD_padMask]
  by_cases hi : i < 32
  · simp [hi, Bool.and_comm]
  · rw [BitVec.getLsbD_of_ge reg i (by omega)]
    simp

theorem getLsbD_padLen {n : Nat} (hn : n ≠ 0) (i : Nat) :
    ((BitVec.ofInt 32 ((n : Int) - 1) &&& distTrashLenMask) <<< aggSpadLenShl).getLsbD i =
      (decide (4 ≤ i ∧ i < 8) && (n - 1).testBit (i - 4)) := by
  rw [ofInt_pred hn, BitVec.getLsbD_shiftLeft, BitVec.getLsbD_and, getLsbD_trashLenMask,
    BitVec.getLsbD_ofNat]
  unfold aggSpadLenShl
  by_cases hin : 4 ≤ i ∧ i < 8
  · have h4 : ¬i < 4 := by omega
    have hlt : i < 32 := by omega
    have hw : i - 4 < 32 := by omega
    have hlt4 : i - 4 < 4 := by omega
    simp [hin, h4, hlt, hw, hlt4]
  · by_cases h4 : i < 4
    · simp [hin, h4]
    · have hlt4 : ¬i - 4 < 4 := by omega
      simp [hin, hlt4]

/-- The pad goes to its bits, and four more are cleared. -/
theorem getLsbD_padReg (reg : BitVec 32) (n i : Nat) :
    (padReg reg n).getLsbD i =
      if i < 4 then false
      else if i < 8 then decide (n ≠ 0) && (n - 1).testBit (i - 4)
      else if i = 17 then decide (n ≠ 0)
      else reg.getLsbD i := by
  have hall : (padReg reg n).getLsbD i =
      if n ≠ 0 then (decide (8 ≤ i) && reg.getLsbD i || decide (i = 17)) ||
        (decide (4 ≤ i ∧ i < 8) && (n - 1).testBit (i - 4))
      else decide (8 ≤ i) && reg.getLsbD i && !decide (i = 17) := by
    unfold padReg
    dsimp only
    by_cases hn : n = 0
    · rw [hn, if_neg (by decide), if_neg (by decide), and_not_getLsbD, getLsbD_padKept,
        getLsbD_spadEn]
    · rw [if_pos (by omega), if_pos hn, BitVec.getLsbD_or, BitVec.getLsbD_or, getLsbD_padKept,
        getLsbD_padLen hn, getLsbD_spadEn]
  rw [hall]
  by_cases h4 : i < 4
  · have h17 : i ≠ 17 := by omega
    have hge : ¬8 ≤ i := by omega
    have hnot : ¬(4 ≤ i ∧ i < 8) := by omega
    simp [h4, h17, hge, hnot]
  · by_cases h8 : i < 8
    · have h17 : i ≠ 17 := by omega
      have hge : ¬8 ≤ i := by omega
      have hin : 4 ≤ i ∧ i < 8 := by omega
      by_cases hn : n = 0
      · simp [h4, h8, hge, hn]
      · simp [h4, h8, h17, hin, hn]
    · have hge : 8 ≤ i := by omega
      by_cases h17 : i = 17
      · simp [h17]
      · simp [h4, h8, h17, hge]

/-- A pad keeps what is above the four bits and not its own. -/
theorem padReg_kept {reg : BitVec 32} {n : Nat} (hlow : 4 ≤ i) (hi : ¬(trashSpan.Has i ∨ i = 17)) :
    (padReg reg n).getLsbD i = reg.getLsbD i := by
  have hspan : ¬(4 ≤ i ∧ i < 8) := fun h => hi (.inl h)
  rw [getLsbD_padReg, if_neg (by omega), if_neg (by omega), if_neg fun h => hi (.inr h)]

theorem get_padReg (reg : BitVec 32) {n : Nat} (hn : n ≠ 0) :
    (trashSpan.get (padReg reg n)).toNat = (n - 1) % 16 := by
  refine Nat.eq_of_testBit_eq fun j => ?_
  have hbit := getLsbD_get trashSpan (padReg reg n) j
  have hwidth : trashSpan.width = 4 := rfl
  have hshl : trashSpan.shl = 4 := rfl
  have hpow : 16 = 2 ^ 4 := rfl
  rw [BitVec.getLsbD] at hbit
  rw [hbit, getLsbD_padReg, hwidth, hshl, hpow, Nat.testBit_mod_two_pow, if_neg (by omega)]
  by_cases hj : j < 4
  · rw [if_pos (by omega), decide_eq_true hn, Nat.add_sub_cancel_left]
    simp [hj]
  · simp [hj]

theorem padReg_holds (reg : BitVec 32) (digits : List Char) :
    Holds rig (.pad digits) (padReg reg (Sscanf.decimal digits)) := by
  refine ⟨?_, fun hne hmax => ?_⟩
  · rw [getLsbD_padReg, if_neg (by decide), if_neg (by decide), if_pos rfl]
  · rw [get_padReg _ hne]
    exact Nat.mod_eq_of_lt (by omega)

/-- The length of a pad is found in its word. -/
theorem storePad_spells (h : Spells rig May t ws) (e : Edit) :
    (e.storePad t = e ∧ ∀ w ∈ ws, w.kind ≠ .pad) ∨
      ∃ digits, .pad digits ∈ ws ∧ e.storePad t =
        { dist := e.dist.extendPad (Sscanf.decimal digits),
          regval := padReg e.regval (Sscanf.decimal digits), pass := true } := by
  unfold Edit.storePad
  rcases h.find_kind (by decide) (by decide) (by decide)
    fun w hw => strstr_pad (h.fits w hw) (h.may w hw) with
      ⟨hnone, hall⟩ | ⟨w, hw, hkind, rest, hstop, htext⟩
  · rw [hnone]
    exact .inl ⟨rfl, hall⟩
  · obtain ⟨digits, rfl⟩ := kind_pad hkind
    obtain ⟨hdigits, hmax⟩ : Sscanf.IsDigits digits ∧ Sscanf.decimal digits ≤ 256 := h.fits _ hw
    have hint := Sscanf.int_digits false hdigits fun c hc => stop_no_digit hstop hc
    rw [if_neg (by decide), if_neg (by decide), CInt.wrap_natCast (by omega)] at hint
    have hscan : (Sscanf.lit "pad=".toList ((Word.pad digits).text ++ rest)).bind Sscanf.int =
        some ((Sscanf.decimal digits : Int), rest) := by
      unfold Word.text
      rw [List.append_assoc, Sscanf.lit_append]
      exact hint
    refine .inr ⟨digits, hw, ?_⟩
    rw [htext]
    dsimp only
    rw [hscan]

/-! ### The words but `on` and `off` -/

/-- What the words but `on` and `off` come to. -/
structure Edited (rig : Rig) (d : Dist) (ws : List Word) (e : Edit) : Prop where
  reg : e.dist.reg = d.reg
  pass : e.pass = true ↔ ∃ w ∈ ws, w.kind ≠ .enable
  holds : ∀ w ∈ ws, w.kind ≠ .enable → Holds rig w e.regval
  kept : ∀ i, (∀ w ∈ ws, w.kind ≠ .enable → ¬Has w i) → (i < 4 → ∀ w ∈ ws, w.kind ≠ .pad) →
    e.regval.getLsbD i = d.reg.getLsbD i
  cleared : (∃ w ∈ ws, w.kind = .pad) → ∀ i < 4, e.regval.getLsbD i = false
  set : (∀ w ∈ ws, w.kind ≠ .sites) → e.dist.set = d.set
  ovly : (∀ w ∈ ws, w.kind ≠ .pad) ∨ ¬d.Extended → e.dist.ovly = d.ovly
  pad : ∀ digits, .pad digits ∈ ws →
    (∃ set, e.dist = { d.extendPad (Sscanf.decimal digits) with set := set }) ∧
      (Sscanf.decimal digits ≠ 0 →
        (trashSpan.get e.regval).toNat = (Sscanf.decimal digits - 1) % 16)

theorem extendPad_set (d : Dist) (set : List (Option Nat)) (padlen : Int) :
    ({ d with set := set } : Dist).extendPad padlen = { d.extendPad padlen with set := set } := by
  unfold Dist.extendPad Dist.checkExtendedPad
  dsimp only
  repeat' split
  all_goals rfl

theorem extendPad_kept (d : Dist) (padlen : Int) :
    (d.extendPad padlen).reg = d.reg ∧ (d.extendPad padlen).set = d.set := by
  unfold Dist.extendPad Dist.checkExtendedPad
  dsimp only
  repeat' split
  all_goals exact ⟨rfl, rfl⟩

theorem checkExtendedPad_ovly (d : Dist) : d.checkExtendedPad.ovly = d.ovly := by
  unfold Dist.checkExtendedPad
  split
  · rfl
  · rfl

theorem extendPad_ovly (hd : ¬d.Extended) (padlen : Int) :
    (d.extendPad padlen).ovly = d.ovly := by
  have hnot : ¬d.checkExtendedPad.hasExtendedPad ≠ 0 := hd
  unfold Dist.extendPad
  dsimp only
  rw [if_neg hnot, checkExtendedPad_ovly]

theorem mem_edits (hmay : May w) :
    w.kind ∈ [Kind.sites, .threshold, .comms] ↔ w.kind ≠ .pad ∧ w.kind ≠ .enable := by
  cases w with
  | label regval => exact absurd hmay id
  | select offset agg => exact absurd hmay id
  | _ => simp [Word.kind]

/-- Before the pad. -/
def Prepared (rig : Rig) (d : Dist) (ws : List Word) (e : Edit) : Prop :=
  Edits rig ws [.sites, .threshold, .comms] { dist := d, regval := d.reg, pass := false } e

theorem Prepared.edited (h : Prepared rig d ws e) (hmay : ∀ w ∈ ws, May w)
    (hnone : ∀ w ∈ ws, w.kind ≠ .pad) : Edited rig d ws e := by
  obtain ⟨set, hdist⟩ := h.dist
  dsimp only at hdist
  constructor
  · rw [hdist]
  · rw [h.step.pass]
    simp only [Bool.false_eq_true, false_or]
    exact exists_congr fun w => and_congr_right fun hw =>
      (mem_edits (hmay w hw)).trans (and_iff_right (hnone w hw))
  · exact fun w hw hkind => h.step.holds w hw ((mem_edits (hmay w hw)).mpr ⟨hnone w hw, hkind⟩)
  · exact fun i hi _ => h.step.kept i fun w hw hkind => hi w hw ((mem_edits (hmay w hw)).mp hkind).2
  · exact fun ⟨w, hw, hkind⟩ => absurd hkind (hnone w hw)
  · exact fun hsites => h.step.set fun w hw _ => hsites w hw
  · exact fun _ => by rw [hdist]
  · exact fun digits hw => absurd rfl (hnone _ hw)

theorem Prepared.padded (h : Prepared rig d ws e) (hmay : ∀ w ∈ ws, May w)
    (hnodup : (ws.map Word.kind).Nodup) {digits : List Char} (hw : .pad digits ∈ ws) :
    Edited rig d ws
      { dist := e.dist.extendPad (Sscanf.decimal digits),
        regval := padReg e.regval (Sscanf.decimal digits), pass := true } := by
  obtain ⟨set, hdist⟩ := h.dist
  dsimp only at hdist
  have hext : e.dist.extendPad (Sscanf.decimal digits) =
      { d.extendPad (Sscanf.decimal digits) with set := set } := by
    rw [hdist, extendPad_set]
  have hpad : ∀ w ∈ ws, w.kind = .pad → w = .pad digits :=
    fun w hv hkind => List.inj_on_of_nodup_map hnodup hv hw hkind
  have hset := fun hsites : ∀ w ∈ ws, w.kind ≠ .sites => h.step.set fun w hw _ => hsites w hw
  unfold Edit.agg at hset
  rw [hdist] at hset
  rw [hext]
  constructor
  · exact (extendPad_kept d _).1
  · exact iff_of_true rfl ⟨_, hw, by simp [Word.kind]⟩
  · intro w hv hkind
    by_cases hk : w.kind = .pad
    · obtain rfl := hpad w hv hk
      exact padReg_holds _ digits
    · exact Holds.congr (h.step.holds w hv ((mem_edits (hmay w hv)).mpr ⟨hk, hkind⟩)) fun i hi =>
        padReg_kept (not_has_low hkind hi) (has_apart (w := .pad digits) hk hi)
  · intro i hi hlow
    have hfour : 4 ≤ i := by
      by_contra hlt
      exact hlow (by omega) _ hw rfl
    dsimp only
    rw [padReg_kept hfour (hi _ hw (by simp [Word.kind]))]
    exact h.step.kept i fun w hv hkind => hi w hv ((mem_edits (hmay w hv)).mp hkind).2
  · intro _ i hi
    dsimp only
    rw [getLsbD_padReg, if_pos hi]
  · exact hset
  · rintro (hnone | hd)
    · exact absurd rfl (hnone _ hw)
    · exact extendPad_ovly hd _
  · intro digits' hw'
    obtain rfl : digits' = digits := Word.pad.inj (hpad _ hw' rfl)
    exact ⟨⟨set, rfl⟩, get_padReg _⟩

/-- The words are done, the pad at last. -/
theorem storeDistWords_spells (h : Spells rig May t ws) (d : Dist) :
    ∃ e, rig.storeDistWords d t = .ok e ∧ Edited rig d ws e := by
  obtain ⟨e₁, hstored₁, hstep₁⟩ := sites_step h { dist := d, regval := d.reg, pass := false }
  obtain ⟨e₂, hstored₂, hstep₂⟩ := threshold_step h e₁
  obtain ⟨e₃, hstored₃, hstep₃⟩ := comms_step h e₂
  have hstored : rig.storeDistWords d t = .ok (e₃.storePad t) := by
    simp only [Rig.storeDistWords, hstored₁, hstored₂, hstored₃, bind, Except.bind, pure,
      Except.pure]
  have hprepared : Prepared rig d ws e₃ :=
    (hstep₁.trans hstep₂ h.may (by decide)).trans hstep₃ h.may (by decide)
  refine ⟨_, hstored, ?_⟩
  rcases storePad_spells h e₃ with ⟨hidle, hnone⟩ | ⟨digits, hw, hpad⟩
  · rw [hidle]
    exact hprepared.edited h.may hnone
  · rw [hpad]
    exact hprepared.padded h.may h.nodup hw

theorem Edited.regval_eq (h : Edited rig d ws e) (hpass : e.pass = false) : e.regval = d.reg := by
  have hnone : ∀ w ∈ ws, w.kind = .enable := by
    intro w hw
    by_contra hkind
    have htrue := h.pass.mpr ⟨w, hw, hkind⟩
    rw [hpass] at htrue
    cases htrue
  refine BitVec.eq_of_getLsbD_eq fun i _ => h.kept i ?_ ?_
  · exact fun w hw hkind => absurd (hnone w hw) hkind
  · intro _ w hw hkind
    rw [hnone w hw] at hkind
    cases hkind

/-- The bits that no word names are kept, but for those that the pad takes. -/
theorem Edited.regval_kept (h : Edited rig d ws e) (hdisturbs : ¬Disturbs d.reg ws)
    (hi : ∀ w ∈ ws, ¬Has w i) : e.regval.getLsbD i = d.reg.getLsbD i := by
  by_cases hpad : i < 4 ∧ ∃ w ∈ ws, w.kind = .pad
  · obtain ⟨hlt, hpad⟩ := hpad
    rw [h.cleared hpad i hlt, eq_comm, ← Bool.not_eq_true]
    intro hbit
    refine hdisturbs ⟨hpad, ?_⟩
    obtain rfl | rfl | rfl | rfl : i = 0 ∨ i = 1 ∨ i = 2 ∨ i = 3 := by omega
    · refine .inr (.inr (.inr ⟨hbit, fun w hw hkind => ?_⟩))
      obtain ⟨shown, on, rfl⟩ := kind_enable hkind
      exact hi _ hw (.inl rfl)
    · exact .inr (.inr (.inl ⟨hbit, fun hw => hi _ hw (.inr ⟨rfl, rfl⟩)⟩))
    · exact .inl hbit
    · exact .inr (.inl hbit)
  · exact h.kept i (fun w hw _ => hi w hw) fun hlt w hw hkind => hpad ⟨hlt, w, hw, hkind⟩

/-! ### `on` and `off` -/

/-- What is written to reset the fifo. -/
def resetting (reg : BitVec 32) : BitVec 32 :=
  reg &&& ~~~(distEnablen ||| distFifoReset) ||| distFifoReset

/-- What is written to enable. -/
def enabled (reg : BitVec 32) : BitVec 32 :=
  reg &&& ~~~(distEnablen ||| distFifoReset) ||| distEnablen

/-- What is written to disable. -/
def disabled (reg : BitVec 32) : BitVec 32 := reg &&& ~~~distEnablen

theorem getLsbD_enablen (i : Nat) : distEnablen.getLsbD i = decide (i = 0) := by
  have htwo : distEnablen = BitVec.twoPow 32 0 := by decide
  rw [htwo, BitVec.getLsbD_twoPow]
  simp [eq_comm]

theorem getLsbD_fifoReset (i : Nat) : distFifoReset.getLsbD i = decide (i = 1) := by
  have htwo : distFifoReset = BitVec.twoPow 32 1 := by decide
  rw [htwo, BitVec.getLsbD_twoPow]
  simp [eq_comm]

theorem getLsbD_resetting (reg : BitVec 32) (i : Nat) :
    (resetting reg).getLsbD i = if i < 2 then decide (i = 1) else reg.getLsbD i := by
  unfold resetting
  rw [BitVec.getLsbD_or, and_not_getLsbD, BitVec.getLsbD_or, getLsbD_enablen, getLsbD_fifoReset]
  rcases i with _ | _ | i
  · simp
  · simp
  · simp

theorem getLsbD_enabled (reg : BitVec 32) (i : Nat) :
    (enabled reg).getLsbD i = if i < 2 then decide (i = 0) else reg.getLsbD i := by
  unfold enabled
  rw [BitVec.getLsbD_or, and_not_getLsbD, BitVec.getLsbD_or, getLsbD_enablen, getLsbD_fifoReset]
  rcases i with _ | _ | i
  · simp
  · simp
  · simp

theorem getLsbD_disabled (reg : BitVec 32) (i : Nat) :
    (disabled reg).getLsbD i = if i = 0 then false else reg.getLsbD i := by
  unfold disabled
  rw [and_not_getLsbD, getLsbD_enablen]
  cases i with
  | zero => simp
  | succ i => simp

/-- The register behind `on` or `off`. -/
def finalReg (reg : BitVec 32) (enableOn enableOff : Bool) : BitVec 32 :=
  if enableOn then enabled reg else if enableOff then disabled reg else reg

theorem finish_eq (hreg : e.pass = false → e.dist.reg = e.regval) (enableOn enableOff : Bool) :
    e.finish enableOn enableOff =
      ({ e.dist with reg := finalReg e.regval enableOn enableOff },
        (if e.pass then [e.regval] else []) ++
          if enableOn then [resetting e.regval, enabled e.regval]
          else if enableOff then [disabled e.regval] else []) := by
  have hdist : (if e.pass then ({ e.dist with reg := e.regval }, [e.regval]) else (e.dist, [])) =
      (({ e.dist with reg := e.regval } : Dist), if e.pass then [e.regval] else []) := by
    cases hpass : e.pass with
    | true => rfl
    | false =>
        rw [← hreg hpass]
        rfl
  unfold Edit.finish
  rw [hdist]
  cases enableOn with
  | true => rfl
  | false =>
      cases enableOff with
      | true => rfl
      | false => rfl

/-- What a text does, where there is a word in it. -/
theorem storeDistReg_spells (h : Spells rig May t ws) (hne : ws ≠ []) (d : Dist) :
    ∃ e enableOn enableOff, Edited rig d ws e ∧
      (enableOn = true ↔ .noSites ∈ ws ∨ .enable false true ∈ ws) ∧
      (enableOff = true ↔ .enable false false ∈ ws) ∧
      rig.storeDistReg d t =
        { ret := t.length,
          dist := { e.dist with reg := finalReg e.regval enableOn enableOff },
          writes := (if e.pass then [e.regval] else []) ++
            if enableOn then [resetting e.regval, enabled e.regval]
            else if enableOff then [disabled e.regval] else [] } := by
  obtain ⟨e, hstored, hedited⟩ := storeDistWords_spells h d
  have hon : (strstr "on".toList t).isSome = true ↔ .noSites ∈ ws ∨ .enable false true ∈ ws := by
    rw [Option.isSome_iff_ne_none, on_spells h, mem_enable h]
  have hoff : (strstr "off".toList t).isSome = true ↔ .enable false false ∈ ws := by
    rw [Option.isSome_iff_ne_none, off_spells h, mem_enable h]
  have hsome : e.pass = true ∨ (strstr "on".toList t).isSome = true ∨
      (strstr "off".toList t).isSome = true := by
    obtain ⟨w, ws', rfl⟩ := List.exists_cons_of_ne_nil hne
    by_cases hkind : w.kind = .enable
    · obtain ⟨on, rfl⟩ := kind_on (h.may w List.mem_cons_self) hkind
      cases on with
      | true => exact .inr (.inl (hon.mpr (.inr List.mem_cons_self)))
      | false => exact .inr (.inr (hoff.mpr List.mem_cons_self))
    · exact .inl (hedited.pass.mpr ⟨w, List.mem_cons_self, hkind⟩)
  refine ⟨e, _, _, hedited, hon, hoff, ?_⟩
  unfold Rig.storeDistReg
  rw [hstored]
  dsimp only
  rw [if_pos hsome,
    finish_eq fun hpass => hedited.reg.trans (hedited.regval_eq hpass).symm]

/-! ### What is shown -/

/-- What is shown of a register. -/
def shownOf (rig : Rig) (d : Dist) : Shown where
  reg := d.reg
  sites := (Knob.aggregator.shownSites d.reg).map rig.dsite
  comms := fromDistCommsFudge d.reg
  pad := d.shownPad
  mover := d.reg.getLsbD 0

theorem showDistReg_eq (rig : Rig) (d : Dist) : rig.showDistReg d = (shownOf rig d).text := by
  have hsites : (if rig.modGroup distMshift d.reg [1, 2, 3, 4, 5, 6] [] = [] then
      "sites=none".toList else rig.modGroup distMshift d.reg [1, 2, 3, 4, 5, 6] []) =
        siteText ((Knob.aggregator.shownSites d.reg).map rig.dsite) := by
    refine (@siteGroup_eq rig .aggregator d.reg).trans ?_
    unfold shownSiteWord siteText
    simp only [List.map_eq_nil_iff]
    split
    · rfl
    · rfl
  have hmover : (if d.reg &&& dataMoverEn ≠ 0 then "on\n" else "off\n") =
      if d.reg.getLsbD 0 then "on\n" else "off\n" := by
    simp only [and_dataMoverEn]
  unfold Rig.showDistReg Shown.text shownOf
  dsimp only
  rw [hsites, hmover]
  simp

theorem split_inj {a b r r' : List Char} (ha : ' ' ∉ a) (hb : ' ' ∉ b)
    (h : a ++ ' ' :: r = b ++ ' ' :: r') : a = b ∧ r = r' := by
  induction a generalizing b with
  | nil =>
      cases b with
      | nil => exact ⟨rfl, (List.cons.inj h).2⟩
      | cons c b => exact absurd ((List.cons.inj h).1 ▸ List.mem_cons_self) hb
  | cons c a ih =>
      cases b with
      | nil => exact absurd ((List.cons.inj h).1 ▸ List.mem_cons_self) ha
      | cons c' b =>
          obtain ⟨rfl, htail⟩ := List.cons.inj h
          obtain ⟨rfl, hr⟩ := ih (fun hm => ha (List.mem_cons_of_mem c hm))
            (fun hm => hb (List.mem_cons_of_mem c hm)) htail
          exact ⟨rfl, hr⟩

theorem mem_siteText {sites : List Nat} {c : Char} (h : c ∈ siteText sites) :
    c ∈ "sites=none".toList ∨ c ∈ listText sites := by
  unfold siteText at h
  split at h
  · exact .inl h
  · rcases List.mem_append.mp h with h | h
    · exact .inl ((by decide : "sites=".toList ⊆ "sites=none".toList) h)
    · exact .inr h

theorem siteText_inj {s s' : Shown} (h : s.text = s'.text) :
    siteText s.sites = siteText s'.sites := by
  have hlabel : ∀ s : Shown, ' ' ∉ "reg=0x".toList ++ hexText s.reg := by
    intro s hmem
    rcases List.mem_append.mp hmem with hmem | hmem
    · exact absurd hmem (by decide)
    · exact absurd (mem_hexText hmem) (by decide)
  have hsites : ∀ s : Shown, ' ' ∉ siteText s.sites := by
    intro s hmem
    rcases mem_siteText hmem with hmem | hmem
    · exact absurd hmem (by decide)
    · rcases mem_listText hmem with hc | hc
      · exact absurd hc (by decide)
      · exact absurd hc (by decide)
  exact (split_inj (hsites s) (hsites s') (split_inj (hlabel s) (hlabel s') h).2).1

/-- The digit of a site is there if the site is. -/
theorem digit_mem {sites : List Nat} (hsites : ∀ d ∈ sites, d ≤ 6) :
    '3' ∈ listText sites ↔ 3 ∈ sites := by
  have hdigit : ∀ d ≤ 6, '3' ∈ Sscanf.decimalText ((d : Nat) : Int) → d = 3 := by decide
  induction sites with
  | nil => exact iff_of_false List.not_mem_nil List.not_mem_nil
  | cons d l ih =>
      have ih := ih fun e he => hsites e (List.mem_cons_of_mem d he)
      have hcomma : '3' ∈ (if l = [] then [] else ',' :: listText l) ↔ 3 ∈ l := by
        split
        · rename_i hnil
          rw [hnil]
          exact iff_of_false List.not_mem_nil List.not_mem_nil
        · exact List.mem_cons.trans ((or_iff_right (by decide)).trans ih)
      rw [listText, List.mem_append, hcomma, List.mem_cons]
      refine or_congr_left ⟨fun h => (hdigit d (hsites d List.mem_cons_self) h).symm, ?_⟩
      rintro rfl
      decide

/-- A site is shown as it was listed. -/
theorem dsite_siteOf {n site : Nat} (hn : ¬(rig.isAcq1001sc = true ∧ n = 3))
    (h : rig.siteOf n = site) : rig.dsite site = n := by
  unfold Rig.siteOf at h
  unfold Rig.dsite
  split at h
  · rename_i hfour
    rw [if_pos ⟨hfour.1, by omega⟩]
    exact hfour.2.symm
  · rename_i hfour
    obtain rfl : n = site := by omega
    rw [if_neg hn]

theorem sites_shown {reg : BitVec 32} {l : List Nat} (hl : ∀ n ∈ l, 1 ≤ n ∧ n ≤ 6)
    (hbits : SiteBits (l.map rig.siteOf) reg) (hread : ¬(rig.isAcq1001sc = true ∧ 3 ∈ l))
    (n : Nat) : n ∈ (Knob.aggregator.shownSites reg).map rig.dsite ↔ n ∈ l := by
  have hsame : ∀ m ∈ l, ¬(rig.isAcq1001sc = true ∧ m = 3) := by
    rintro m hm ⟨hacq, rfl⟩
    exact hread ⟨hacq, hm⟩
  have hmem : ∀ site, site ∈ Knob.aggregator.shownSites reg ↔
      (1 ≤ site ∧ site ≤ 6) ∧ ∃ m ∈ l, rig.siteOf m = site := by
    intro site
    rw [mem_shownSites]
    refine and_congr_right fun hsite => ?_
    have hbit := hbits (site - 1) (by omega)
    have hplace : distMshift + (site - 1) = Knob.aggregator.mshift + site - 1 :=
      (Nat.add_sub_assoc hsite.1 _).symm
    have hcast : ((site - 1 : Nat) : Int) + 1 = site := by omega
    rw [hplace, hcast] at hbit
    rw [hbit, decide_eq_true_iff, List.mem_map]
  rw [List.mem_map]
  constructor
  · rintro ⟨site, hsite, rfl⟩
    obtain ⟨-, m, hm, hof⟩ := (hmem site).mp hsite
    rw [dsite_siteOf (hsame m hm) hof]
    exact hm
  · intro hn
    obtain ⟨hlow, hhigh⟩ := siteOf_range rig (hl n hn)
    have hcast : rig.siteOf n = ((rig.siteOf n).toNat : Nat) := by omega
    exact ⟨(rig.siteOf n).toNat, (hmem _).mpr ⟨by omega, n, hn, hcast⟩,
      dsite_siteOf (hsame n hn) hcast⟩

/-- The letter of what is in the field. -/
theorem fromDistCommsFudge_eq {reg : BitVec 32} {dc : DistComms}
    (h : (commsSpan.get reg).toNat = dc.code) : fromDistCommsFudge reg = dc.letter := by
  have hmodel : ∀ dc : DistComms, (commsSpan.get (toDistCommsFudge dc.letter)).toNat = dc.code ∧
      fromDistCommsFudge (toDistCommsFudge dc.letter) = dc.letter := by
    intro dc
    cases dc <;> decide
  have hget : commsSpan.get reg = commsSpan.get (toDistCommsFudge dc.letter) :=
    BitVec.eq_of_toNat_eq (h.trans (hmodel dc).1.symm)
  have hmask : reg &&& distCommsMask = toDistCommsFudge dc.letter &&& distCommsMask := by
    rw [← mask_commsSpan]
    refine BitVec.eq_of_getLsbD_eq fun i _ => ?_
    rw [BitVec.getLsbD_and, BitVec.getLsbD_and, getLsbD_mask]
    by_cases hi : commsSpan.Has i
    · rw [get_eq_iff.mp hget i hi]
    · rw [decide_eq_false hi, Bool.and_false, Bool.and_false]
  rw [← (hmodel dc).2]
  unfold fromDistCommsFudge
  rw [hmask]

theorem and_spadEn (reg : BitVec 32) : reg &&& aggSpadEn ≠ 0 ↔ reg.getLsbD 17 = true :=
  and_twoPow_ne_zero (i := 17) (by decide)

theorem trashLen_eq (reg : BitVec 32) :
    (reg >>> aggSpadLenShl) &&& distTrashLenMask = trashSpan.get reg := by
  have hshift : distTrashLenMask <<< aggSpadLenShl >>> aggSpadLenShl = distTrashLenMask := by decide
  have hmask : trashSpan.mask = distTrashLenMask <<< aggSpadLenShl := by decide
  unfold Span.get
  rw [hmask]
  change _ = (reg &&& distTrashLenMask <<< aggSpadLenShl) >>> aggSpadLenShl
  rw [BitVec.ushiftRight_and_distrib, hshift]

/-- A length is shown from the two registers as it was stored in them. -/
theorem shownPad_eq {reg : BitVec 32} {n : Nat} (hmax : n ≤ 256) (hd : d.Extended)
    (hen : reg.getLsbD 17 = decide (n ≠ 0))
    (hlen : n ≠ 0 → (trashSpan.get reg).toNat = (n - 1) % 16) (set : List (Option Nat)) :
    ({ d.extendPad n with set := set, reg := reg } : Dist).shownPad = n := by
  have hext : d.extendPad n = { d.checkExtendedPad with
      ovly := if (n : Int) ≤ 0x10 then 0 else BitVec.ofInt 32 ((n : Int) - 1) } := by
    unfold Dist.extendPad
    dsimp only
    exact if_pos hd
  have hnot : d.checkExtendedPad.hasExtendedPad ≠ -1 := by
    unfold Dist.checkExtendedPad
    split
    · dsimp only
      split
      · decide
      · decide
    · assumption
  unfold Dist.shownPad
  simp only [and_spadEn, hen, decide_eq_true_eq]
  by_cases hn : n = 0
  · rw [if_neg fun h => h hn, hn]
    rfl
  · have hcheck : ∀ d' : Dist, d'.hasExtendedPad = d.checkExtendedPad.hasExtendedPad →
        d'.checkExtendedPad = d' := by
      intro d' h
      unfold Dist.checkExtendedPad
      rw [h, if_neg hnot]
    rw [if_pos hn, hext]
    dsimp only
    rw [hcheck (Dist.mk reg _ _ set) rfl, trashLen_eq, hlen hn]
    dsimp only
    by_cases h16 : n ≤ 16
    · have hsmall : (n : Int) ≤ 0x10 := by omega
      rw [if_pos hsmall, if_neg fun h => absurd h.2 (by decide)]
      omega
    · have hbig : ¬(n : Int) ≤ 0x10 := by omega
      have hval : (BitVec.ofNat 32 (n - 1)).toNat = n - 1 := by
        rw [BitVec.toNat_ofNat]
        exact Nat.mod_eq_of_lt (by omega)
      have hle : (0x10 : BitVec 32) ≤ BitVec.ofNat 32 (n - 1) := by
        rw [BitVec.le_def, hval]
        change 16 ≤ n - 1
        omega
      have hlow : (BitVec.ofNat 32 (n - 1) &&& 0xff).toNat = n - 1 := by
        rw [BitVec.toNat_and, hval]
        exact (Nat.and_two_pow_sub_one_eq_mod (n - 1) 8).trans (Nat.mod_eq_of_lt (by omega))
      rw [if_neg hbig, ofInt_pred hn, if_pos ⟨hd, hle⟩, hlow]
      omega

/-! ### A text -/

/-- Bits above the two are not changed any more. -/
theorem finalReg_above (reg : BitVec 32) (enableOn enableOff : Bool) (hi : 2 ≤ i) :
    (finalReg reg enableOn enableOff).getLsbD i = reg.getLsbD i := by
  unfold finalReg
  split
  · rw [getLsbD_enabled, if_neg (by omega)]
  · split
    · rw [getLsbD_disabled, if_neg (by omega)]
    · rfl

theorem right_nil (h : Spells rig May t []) (d : Dist) : Right rig d t [] := by
  have hstored : rig.storeDistReg d t = { ret := -1, dist := d, writes := [] } := by
    obtain ⟨tail, htail, rfl⟩ := h.text
    rcases List.mem_pair.mp htail with rfl | rfl
    · rfl
    · rfl
  constructor
  · exact fun hne => absurd rfl hne
  · exact fun w hw => absurd hw List.not_mem_nil
  · intro reg hreg i _
    rw [hstored] at hreg
    rw [List.mem_singleton.mp hreg]
  · exact fun _ => by rw [hstored]
  · exact fun _ => by rw [hstored]
  · exact fun _ => ⟨_, showDistReg_eq rig _, fun w hw => absurd hw List.not_mem_nil⟩

/-- The two spellings of one kind are not both in a text. -/
theorem on_or_off (h : Spells rig May t ws) (hon : .enable false true ∈ ws) :
    .enable false false ∉ ws := by
  intro hoff
  have heq := List.inj_on_of_nodup_map h.nodup hon hoff rfl
  cases heq

/-- What is in the register at some time. -/
theorem mem_writes {reg r : BitVec 32} {pass enableOn enableOff : Bool}
    (h : reg ∈ finalReg r enableOn enableOff :: ((if pass then [r] else []) ++
      if enableOn then [resetting r, enabled r] else if enableOff then [disabled r] else [])) :
    reg = r ∨ enableOn = true ∧ (reg = resetting r ∨ reg = enabled r) ∨
      enableOff = true ∧ reg = disabled r := by
  have hpass : reg ∈ (if pass then [r] else []) → reg = r := by
    intro hreg
    split at hreg
    · exact List.mem_singleton.mp hreg
    · exact absurd hreg List.not_mem_nil
  unfold finalReg at h
  cases enableOn with
  | true =>
      rcases List.mem_cons.mp h with rfl | h
      · exact .inr (.inl ⟨rfl, .inr rfl⟩)
      · rcases List.mem_append.mp h with h | h
        · exact .inl (hpass h)
        · exact .inr (.inl ⟨rfl, List.mem_pair.mp h⟩)
  | false =>
      cases enableOff with
      | true =>
          rcases List.mem_cons.mp h with rfl | h
          · exact .inr (.inr ⟨rfl, rfl⟩)
          · rcases List.mem_append.mp h with h | h
            · exact .inl (hpass h)
            · exact .inr (.inr ⟨rfl, List.mem_singleton.mp h⟩)
      | false =>
          rcases List.mem_cons.mp h with rfl | h
          · exact .inl rfl
          · rcases List.mem_append.mp h with h | h
            · exact .inl (hpass h)
            · exact absurd h List.not_mem_nil

/-- The register keeps what no word names, all the time. -/
theorem Edited.writes_kept (h : Edited rig d ws e) (hdisturbs : ¬Disturbs d.reg ws)
    {enableOn enableOff : Bool} (hon : enableOn = true → .enable false true ∈ ws)
    (hoff : enableOff = true → .enable false false ∈ ws) {reg : BitVec 32}
    (hreg : reg ∈ finalReg e.regval enableOn enableOff ::
      ((if e.pass then [e.regval] else []) ++
        if enableOn then [resetting e.regval, enabled e.regval]
        else if enableOff then [disabled e.regval] else []))
    (hi : ∀ w ∈ ws, ¬Has w i) : reg.getLsbD i = d.reg.getLsbD i := by
  have hbase := h.regval_kept hdisturbs hi
  rcases mem_writes hreg with rfl | ⟨htrue, hval⟩ | ⟨htrue, rfl⟩
  · exact hbase
  · have hword := hi _ (hon htrue)
    have habove : 2 ≤ i := by
      by_contra hlt
      obtain rfl | rfl : i = 0 ∨ i = 1 := by omega
      · exact hword (.inl rfl)
      · exact hword (.inr ⟨rfl, rfl⟩)
    rcases hval with rfl | rfl
    · rw [getLsbD_resetting, if_neg (by omega), hbase]
    · rw [getLsbD_enabled, if_neg (by omega), hbase]
  · have hzero : i ≠ 0 := fun heq => hi _ (hoff htrue) (.inl heq)
    rw [getLsbD_disabled, if_neg hzero, hbase]

/-- What is shown then is what the words say. -/
theorem Edited.shown (h : Edited rig d ws e) (hd : d.Extended) (hfits : ∀ w ∈ ws, w.Fits rig)
    (hread : ∀ w ∈ ws, ¬Misread rig w) {reg : BitVec 32} (hholds : ∀ w ∈ ws, Holds rig w reg)
    (habove : ∀ i, 2 ≤ i → reg.getLsbD i = e.regval.getLsbD i) :
    ∀ w ∈ ws, ShownIn w (shownOf rig { e.dist with reg := reg }) := by
  intro w hw
  have hword := hholds w hw
  have hshow := hread w hw
  cases w with
  | label regval => trivial
  | sites l =>
      exact sites_shown (fun n hn => ⟨(hfits _ hw n hn).1, (hfits _ hw n hn).2.1⟩) hword hshow
  | noSites =>
      refine List.eq_nil_iff_forall_not_mem.mpr fun n hn => ?_
      have hl : ∀ n ∈ ([] : List Nat), 1 ≤ n ∧ n ≤ 6 := fun n hn => absurd hn List.not_mem_nil
      have hnil := (sites_shown hl hword (fun hacq => absurd hacq.2 List.not_mem_nil) n).mp hn
      exact absurd hnil List.not_mem_nil
  | threshold minus digits => trivial
  | select offset b => trivial
  | comms c =>
      obtain ⟨dc, hdc⟩ : ∃ dc : DistComms, dc.Spelt c := by
        by_contra hnone
        exact hshow fun dc hdc => hnone ⟨dc, hdc⟩
      exact ⟨dc, hdc, .inl (fromDistCommsFudge_eq (hword dc hdc))⟩
  | pad digits =>
      obtain ⟨⟨set, hdist⟩, hlen⟩ := h.pad digits hw
      have hget : trashSpan.get reg = trashSpan.get e.regval :=
        get_eq_iff.mpr fun i hi => habove i (Nat.le_trans (by decide) hi.1)
      unfold ShownIn shownOf
      dsimp only
      rw [hdist]
      exact shownPad_eq (hfits _ hw).2 hd hword.1 (hget ▸ hlen) set
  | enable shown on => trivial

theorem right_of_not_wrong (h : Spells rig May t ws) (hwrong : ¬Wrong rig d ws) :
    Right rig d t ws := by
  by_cases hne : ws = []
  · subst hne
    exact right_nil h d
  · obtain ⟨e, enableOn, enableOff, hedited, hon, hoff, hstored⟩ := storeDistReg_spells h hne d
    have hnone : .noSites ∈ ws → .enable false true ∈ ws := fun hno => by
      by_contra hnot
      exact hwrong (.inl ⟨hno, hnot⟩)
    have hdisturbs : ¬Disturbs d.reg ws := fun hd => hwrong (.inr (.inl hd))
    have hon : enableOn = true ↔ .enable false true ∈ ws :=
      hon.trans ⟨fun h => h.elim hnone id, .inr⟩
    have hholds : ∀ w ∈ ws, Holds rig w (finalReg e.regval enableOn enableOff) := by
      intro w hw
      by_cases hkind : w.kind = .enable
      · obtain ⟨on, rfl⟩ := kind_on (h.may w hw) hkind
        unfold finalReg
        cases on with
        | true =>
            rw [if_pos (hon.mpr hw)]
            exact ⟨by rw [getLsbD_enabled]; rfl, fun _ => by rw [getLsbD_enabled]; rfl⟩
        | false =>
            rw [if_neg fun h' => on_or_off h (hon.mp h') hw, if_pos (hoff.mpr hw)]
            exact ⟨by rw [getLsbD_disabled]; rfl, fun h' => Bool.noConfusion h'⟩
      · exact Holds.congr (hedited.holds w hw hkind) fun i hi =>
          finalReg_above _ _ _ (Nat.le_trans (by decide) (not_has_low hkind hi))
    constructor
    · intro _
      rw [hstored]
    · rw [hstored]
      exact hholds
    · rw [hstored]
      exact fun reg hreg i hi => hedited.writes_kept hdisturbs hon.mp hoff.mp hreg hi
    · rw [hstored]
      exact hedited.ovly
    · rw [hstored]
      exact hedited.set
    · intro hext
      refine ⟨_, showDistReg_eq rig _, ?_⟩
      rw [hstored]
      exact hedited.shown hext h.fits (fun w hw hmis => hwrong (.inr (.inr ⟨hext, w, hw, hmis⟩)))
        hholds fun i hi => finalReg_above _ _ _ hi

/-! ### The texts that go wrong -/

/-- There is an `on` in `sites=none`. -/
theorem not_right_of_noSites (h : Spells rig May t ws) (hno : .noSites ∈ ws)
    (hnot : .enable false true ∉ ws) : ¬Right rig d t ws := by
  intro hright
  obtain ⟨e, enableOn, enableOff, -, hon, -, hstored⟩ :=
    storeDistReg_spells h (List.ne_nil_of_mem hno) d
  obtain rfl : enableOn = true := hon.mpr (.inl hno)
  by_cases hoff : .enable false false ∈ ws
  · have hclear := (hright.holds _ hoff).1
    rw [hstored] at hclear
    change (enabled e.regval).getLsbD 0 = false at hclear
    rw [getLsbD_enabled] at hclear
    cases hclear
  · have hkept := hright.kept
    rw [hstored] at hkept
    have hbit : ∀ w ∈ ws, ¬Has w 0 := by
      intro w hw hhas
      by_cases hkind : w.kind = .enable
      · obtain ⟨on, rfl⟩ := kind_on (h.may w hw) hkind
        cases on with
        | true => exact hnot hw
        | false => exact hoff hw
      · exact absurd (not_has_low hkind hhas) (by decide)
    have hset := hkept (enabled e.regval) List.mem_cons_self 0 hbit
    have hclear := hkept (resetting e.regval)
      (List.mem_cons_of_mem _ (List.mem_append_right _ List.mem_cons_self)) 0 hbit
    rw [getLsbD_enabled, if_pos (by decide)] at hset
    rw [getLsbD_resetting, if_pos (by decide)] at hclear
    exact absurd (hset.trans hclear.symm) (by decide)

/-- The mask of the pad takes a bit that was set. -/
theorem not_right_of_disturbs (h : Spells rig May t ws) (hdisturbs : Disturbs d.reg ws) :
    ¬Right rig d t ws := by
  intro hright
  obtain ⟨⟨p, hp, hpad⟩, hbits⟩ := hdisturbs
  obtain ⟨e, enableOn, enableOff, hedited, -, -, hstored⟩ :=
    storeDistReg_spells h (List.ne_nil_of_mem hp) d
  have hpass : e.pass = true := hedited.pass.mpr ⟨p, hp, by rw [hpad]; decide⟩
  have hkept := hright.kept
  rw [hstored, hpass] at hkept
  have hgone : ∀ i < 4, (∀ w ∈ ws, ¬Has w i) → d.reg.getLsbD i = true → False := by
    intro i hi hnone hset
    have hsame := hkept e.regval (List.mem_cons_of_mem _ (List.mem_append_left _
      List.mem_cons_self)) i hnone
    rw [hedited.cleared ⟨p, hp, hpad⟩ i hi, hset] at hsame
    cases hsame
  have hnamed : ∀ {i}, i < 4 → (∀ w ∈ ws, w.kind = .enable → ¬Has w i) → ∀ w ∈ ws, ¬Has w i := by
    intro i hi henable w hw hhas
    by_cases hkind : w.kind = .enable
    · exact henable w hw hkind hhas
    · exact absurd (not_has_low hkind hhas) (by omega)
  have hword : ∀ {i}, 2 ≤ i → i < 4 → ∀ w ∈ ws, ¬Has w i := by
    intro i hlow hi
    refine hnamed hi fun w hw hkind hhas => ?_
    obtain ⟨on, rfl⟩ := kind_on (h.may w hw) hkind
    unfold Has at hhas
    omega
  rcases hbits with hset | hset | ⟨hset, hnot⟩ | ⟨hset, hnot⟩
  · exact hgone 2 (by decide) (hword (by decide) (by decide)) hset
  · exact hgone 3 (by decide) (hword (by decide) (by decide)) hset
  · refine hgone 1 (by decide) (hnamed (by decide) fun w hw hkind hhas => ?_) hset
    obtain ⟨on, rfl⟩ := kind_on (h.may w hw) hkind
    rcases hhas with hzero | ⟨rfl, -⟩
    · exact absurd hzero (by decide)
    · exact hnot hw
  · exact hgone 0 (by decide) (hnamed (by decide) fun w hw hkind => absurd hkind (hnot w hw)) hset

/-- A site, or a letter, is shown as another. -/
theorem not_right_of_misread (h : Spells rig May t ws) (hext : d.Extended) {w : Word} (hw : w ∈ ws)
    (hmis : Misread rig w) : ¬Right rig d t ws := by
  intro hright
  obtain ⟨s, htext, hshown⟩ := hright.shown hext
  have hword := hshown w hw
  cases w with
  | comms c =>
      obtain ⟨dc, hdc, -⟩ := hword
      exact hmis dc hdc
  | sites l =>
      obtain ⟨hacq, hmem⟩ := hmis
      rw [showDistReg_eq] at htext
      have hsites := siteText_inj htext
      have hl : ∀ n ∈ s.sites, n ≤ 6 := fun n hn => (h.fits _ hw n ((hword n).mp hn)).2.1
      have hthree : 3 ∈ s.sites := (hword 3).mpr hmem
      have hdigit : '3' ∈ siteText s.sites := by
        unfold siteText
        rw [if_neg (List.ne_nil_of_mem hthree)]
        exact List.mem_append_right _ ((digit_mem hl).mpr hthree)
      rw [← hsites] at hdigit
      -- site 3 of an ACQ1001 is shown as 4
      have hshownSites : ∀ n ∈ (shownOf rig (rig.storeDistReg d t).dist).sites, n ≤ 6 ∧ n ≠ 3 := by
        intro n hn
        obtain ⟨site, hsite, rfl⟩ := List.mem_map.mp hn
        have hrange := (mem_shownSites.mp hsite).1
        unfold Rig.dsite
        split
        · decide
        · rename_i hnot
          exact ⟨hrange.2, fun heq => hnot ⟨hacq, heq⟩⟩
      rcases mem_siteText hdigit with hmem | hmem
      · exact absurd hmem (by decide)
      · have hin := (digit_mem fun n hn => (hshownSites n hn).1).mp hmem
        exact (hshownSites 3 hin).2 rfl
  | _ => exact hmis

/--
**A text does what its words say, unless it is one of those that do something else.**
-/
theorem storeDistReg_right_iff (h : Spells rig May t ws) (d : Dist) :
    Right rig d t ws ↔ ¬Wrong rig d ws := by
  refine ⟨?_, right_of_not_wrong h⟩
  rintro hright (⟨hno, hnot⟩ | hdisturbs | ⟨hext, w, hw, hmis⟩)
  · exact not_right_of_noSites h hno hnot hright
  · exact not_right_of_disturbs h hdisturbs hright
  · exact not_right_of_misread h hext hw hmis hright

/-- A pad where the distributor is disabled. -/
theorem storeDistReg_right_pad :
    Right acq2106 ⟨0, 0, -1, []⟩ "pad=20".toList [.pad ['2', '0']] := by
  have hspells : Spells acq2106 May "pad=20".toList [.pad ['2', '0']] :=
    ⟨⟨[], by decide, rfl⟩, List.forall_mem_singleton.mpr
      ⟨⟨List.cons_ne_nil _ _, List.forall_mem_cons.mpr
        ⟨rfl, List.forall_mem_singleton.mpr rfl⟩⟩, by decide⟩,
      List.forall_mem_singleton.mpr trivial, by decide⟩
  refine (storeDistReg_right_iff hspells _).mpr ?_
  rintro (⟨hno, -⟩ | ⟨-, hbits⟩ | ⟨-, w, hw, hmis⟩)
  · exact absurd hno (by decide)
  · exact absurd hbits (by simp)
  · rw [List.mem_singleton.mp hw] at hmis
    exact hmis

/-- A pad disables the distributor. -/
theorem pad_not_right : ¬∀ (rig : Rig) (d : Dist) (t : List Char) (ws : List Word),
    Spells rig May t ws → Right rig d t ws := by
  intro h
  have hspells : Spells acq2106 May "pad=4".toList [.pad ['4']] :=
    ⟨⟨[], by decide, rfl⟩, List.forall_mem_singleton.mpr
      ⟨⟨List.cons_ne_nil _ _, List.forall_mem_singleton.mpr rfl⟩, by decide⟩,
      List.forall_mem_singleton.mpr trivial, by decide⟩
  have hkind : ∀ w ∈ [Word.pad ['4']], w.kind ≠ .enable := by decide
  exact not_right_of_disturbs hspells
    ⟨⟨_, List.mem_cons_self, rfl⟩, .inr (.inr (.inr ⟨by decide, hkind⟩))⟩
    (h acq2106 ⟨1, 0, -1, []⟩ _ _ hspells)

end DistReg

end Acq400
