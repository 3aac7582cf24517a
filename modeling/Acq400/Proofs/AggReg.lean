/-
The sites that a text lists, and the set that they come to.

A list of sites is walked up to its end, or up to what stands for no site; the bits and the set are
those of the sites in front of it.  Devices go to the set in the order in which they are listed,
each of them once, and there are more places in the set than sites.
-/
import Acq400.Proofs.SettingWords

namespace Acq400

namespace AggReg

namespace Rig

variable {rig : Rig} {sites : List Int} {site : Int} {set : List (Option Nat)}

/-! ### A set -/

/-- The sites of a set, one after the other. -/
def setSites (rig : Rig) (set : List (Option Nat)) : List Int :=
  set.filterMap fun slot => slot.bind fun device => rig.devices[device]?.join

/-- The set of the sites that have been listed. -/
def setOf (rig : Rig) (sites : List Int) : List (Option Nat) :=
  sites.foldl rig.addAggregatorSet clearAggregatorSet

theorem lookupSite_some {device : Nat} (h : rig.lookupSite site = some device) :
    rig.devices[device]?.join = some site := by
  obtain ⟨hlt, heq, -⟩ := List.findIdx?_eq_some_iff_getElem.mp h
  rw [List.getElem?_eq_getElem hlt, of_decide_eq_true heq]
  rfl

/-- A site that is in a set has a device. -/
theorem lookupSite_of_mem (h : site ∈ rig.setSites set) : rig.lookupSite site ≠ none := by
  intro hnone
  obtain ⟨slot, -, hslot⟩ := List.mem_filterMap.mp h
  obtain ⟨device, -, hdevice⟩ := Option.bind_eq_some_iff.mp hslot
  obtain ⟨x, hx, rfl⟩ := Option.bind_eq_some_iff.mp hdevice
  have hfalse := List.findIdx?_eq_none_iff.mp hnone _ (List.mem_of_getElem? hx)
  exact absurd rfl (of_decide_eq_false hfalse)

theorem addSlot_mem {slave : Option Nat} {front : List (Option Nat)} (h : slave ∈ front)
    (hfront : none ∉ front) (rest : List (Option Nat)) :
    addSlot slave (front ++ rest) = front ++ rest := by
  induction front with
  | nil => exact absurd h List.not_mem_nil
  | cons slot front ih =>
      rw [List.cons_append, addSlot]
      split
      · rfl
      · rename_i hne
        have hslot : slot ≠ none := fun he => hfront (he ▸ List.mem_cons_self)
        have hin : slave ∈ front := by
          rcases List.mem_cons.mp h with rfl | hin
          · exact absurd rfl hne
          · exact hin
        rw [if_neg hslot, ih hin fun hn => hfront (List.mem_cons_of_mem slot hn)]

theorem addSlot_new {slave : Option Nat} {front : List (Option Nat)} (hslave : slave ≠ none)
    (h : slave ∉ front) (hfront : none ∉ front) (rest : List (Option Nat)) :
    addSlot slave (front ++ none :: rest) = front ++ slave :: rest := by
  induction front with
  | nil => rw [List.nil_append, addSlot, if_neg hslave.symm, if_pos rfl, List.nil_append]
  | cons slot front ih =>
      have hne : slot ≠ slave := fun he => h (he ▸ List.mem_cons_self)
      have hslot : slot ≠ none := fun he => hfront (he ▸ List.mem_cons_self)
      rw [List.cons_append, addSlot, if_neg hne, if_neg hslot,
        ih (fun hn => h (List.mem_cons_of_mem slot hn))
          fun hn => hfront (List.mem_cons_of_mem slot hn),
        List.cons_append]

theorem eraseDups_concat (sites : List Int) (site : Int) :
    (sites ++ [site]).eraseDups =
      if site ∈ sites then sites.eraseDups else sites.eraseDups ++ [site] := by
  rw [List.eraseDups_append]
  split
  · rename_i h
    simp [List.removeAll, h]
  · rename_i h
    simp [List.removeAll, h, List.eraseDups_cons]

theorem eraseDups_nodup (sites : List Int) : sites.eraseDups.Nodup := by
  induction sites using List.reverseRecOn with
  | nil => exact List.nodup_nil
  | append_singleton sites site ih =>
      rw [eraseDups_concat]
      split
      · exact ih
      · rename_i h
        rw [List.nodup_append]
        refine ⟨ih, List.nodup_singleton site, fun s hs t ht he => h ?_⟩
        rw [← List.mem_singleton.mp ht, ← he]
        exact List.mem_eraseDups.mp hs

theorem length_eraseDups (h : ∀ site ∈ sites, 1 ≤ site ∧ site ≤ 6) :
    sites.eraseDups.length ≤ 6 := by
  have hsub : sites.eraseDups ⊆ [1, 2, 3, 4, 5, 6] := by
    intro site hsite
    have hrange := h site (List.mem_eraseDups.mp hsite)
    simp only [List.mem_cons, List.not_mem_nil, or_false]
    omega
  exact ((eraseDups_nodup sites).subperm hsub).length_le

/-- The devices of the sites, in their order and each of them once. -/
theorem setOf_eq (hsites : ∀ site ∈ sites, 1 ≤ site ∧ site ≤ 6)
    (hdevices : ∀ site ∈ sites, rig.lookupSite site ≠ none) :
    rig.setOf sites = sites.eraseDups.map rig.lookupSite ++
      List.replicate (maxDevices - sites.eraseDups.length) none := by
  induction sites using List.reverseRecOn with
  | nil => rfl
  | append_singleton sites site ih =>
      have hall : ∀ {s}, s ∈ sites → s ∈ sites ++ [site] := fun h => List.mem_append_left _ h
      have hsite : site ∈ sites ++ [site] := List.mem_append_right _ List.mem_cons_self
      have hlen := length_eraseDups hsites
      have hset : rig.setOf (sites ++ [site]) =
          addSlot (rig.lookupSite site) (rig.setOf sites) := by
        unfold setOf
        rw [List.foldl_append]
        rfl
      have hfront : none ∉ sites.eraseDups.map rig.lookupSite := by
        intro hnone
        obtain ⟨s, hs, hlookup⟩ := List.mem_map.mp hnone
        exact hdevices s (hall (List.mem_eraseDups.mp hs)) hlookup
      rw [hset, ih (fun s hs => hsites s (hall hs)) fun s hs => hdevices s (hall hs)]
      rw [eraseDups_concat] at hlen ⊢
      split
      · rename_i hmem
        exact addSlot_mem (List.mem_map_of_mem (List.mem_eraseDups.mpr hmem)) hfront _
      · rename_i hnew
        rw [if_neg hnew, List.length_append, List.length_singleton] at hlen
        have hnotin : rig.lookupSite site ∉ sites.eraseDups.map rig.lookupSite := by
          intro hin
          obtain ⟨s, hs, hlookup⟩ := List.mem_map.mp hin
          obtain ⟨device, hdevice⟩ := Option.ne_none_iff_exists'.mp (hdevices site hsite)
          have hs' := lookupSite_some (hlookup.trans hdevice)
          rw [lookupSite_some hdevice] at hs'
          rw [← Option.some.inj hs'] at hs
          exact hnew (List.mem_eraseDups.mp hs)
        obtain ⟨n, hn⟩ : ∃ n, maxDevices - sites.eraseDups.length = n + 1 := by
          unfold maxDevices
          exact ⟨11 - sites.eraseDups.length, by omega⟩
        have hleft : maxDevices - (sites.eraseDups ++ [site]).length = n := by
          rw [List.length_append, List.length_singleton]
          omega
        rw [hn, hleft, List.replicate_succ, addSlot_new (hdevices site hsite) hnotin hfront,
          List.map_append, List.append_assoc]
        rfl

/-- The set of the sites has them without repeats, in their order. -/
theorem setSites_setOf (hsites : ∀ site ∈ sites, 1 ≤ site ∧ site ≤ 6)
    (hdevices : ∀ site ∈ sites, rig.lookupSite site ≠ none) :
    rig.setSites (rig.setOf sites) = sites.eraseDups := by
  have hfound : ∀ l : List Int, (∀ site ∈ l, rig.lookupSite site ≠ none) →
      rig.setSites (l.map rig.lookupSite) = l := by
    intro l hl
    induction l with
    | nil => rfl
    | cons site l ih =>
        obtain ⟨device, hdevice⟩ := Option.ne_none_iff_exists'.mp (hl site List.mem_cons_self)
        have hrest := ih fun s hs => hl s (List.mem_cons_of_mem site hs)
        have hhead : (some device).bind (fun device => rig.devices[device]?.join) = some site :=
          lookupSite_some hdevice
        unfold setSites at hrest ⊢
        rw [List.map_cons, hdevice, List.filterMap_cons, hhead, hrest]
  have hnone : ∀ n, rig.setSites (List.replicate n none) = [] := by
    intro n
    unfold setSites
    rw [List.filterMap_eq_nil_iff]
    intro slot hslot
    rw [List.eq_of_mem_replicate hslot]
    rfl
  have happend : ∀ l m, rig.setSites (l ++ m) = rig.setSites l ++ rig.setSites m :=
    fun l m => List.filterMap_append
  rw [setOf_eq hsites hdevices, happend, hnone, List.append_nil,
    hfound _ fun s hs => hdevices s (List.mem_eraseDups.mp hs)]

/-! ### The sites that a text lists -/

/-- The sites in front of the end, or of what stands for none; whether the end is met. -/
def listed (rig : Rig) : List Char → List Int × Bool
  | [] => ([], true)
  | c :: cursor =>
    if c = ' ' then ([], true)
    else if c = ',' ∨ c = '\n' then rig.listed cursor
    else
      let site := rig.getSite (c :: cursor)
      if 0 < site then (site :: (rig.listed cursor).1, (rig.listed cursor).2) else ([], false)

/-- What is listed behind `sites=`, if it is in the text. -/
def sitesIn (rig : Rig) (text : List Char) : Option (List Int × Bool) :=
  (Words.strstr "sites=".toList text).map fun found =>
    let cursor := found.drop "sites=".length
    if "none".toList.isPrefixOf cursor then ([], true) else rig.listed cursor

/-- The register with the sites and no others. -/
def sitesReg (mshift : Nat) (sites : List Int) (reg : BitVec 32) : BitVec 32 :=
  sites.foldl (fun reg site => reg ||| aggModEn site mshift)
    (reg &&& ~~~(aggSitesMask <<< mshift))

theorem walkSites_listed (mshift : Nat) (cursor : List Char) :
    ∀ regval set, rig.walkSites mshift cursor regval set =
      ((rig.listed cursor).2,
        (rig.listed cursor).1.foldl (fun reg site => reg ||| aggModEn site mshift) regval,
        (rig.listed cursor).1.foldl rig.addAggregatorSet set) := by
  induction cursor with
  | nil => intro regval set; rfl
  | cons c cursor ih =>
      intro regval set
      rw [walkSites, listed]
      split
      · rfl
      · split
        · exact ih regval set
        · dsimp only
          split
          · rw [ih]
            rfl
          · rfl

/-- The sites are taken as they are listed; a list that does not come to its end is refused. -/
theorem storeSites_eq (mshift : Nat) (agg : Agg) (buf : List Char) :
    rig.storeSites mshift agg buf =
      match rig.sitesIn buf with
      | none => .ok (agg, false)
      | some (sites, true) => .ok (⟨sitesReg mshift sites agg.reg, rig.setOf sites⟩, true)
      | some (sites, false) => .error { agg with set := rig.setOf sites } := by
  unfold storeSites sitesIn
  cases Words.strstr "sites=".toList buf with
  | none => rfl
  | some found =>
      dsimp only [Option.map_some]
      split
      · rfl
      · rw [walkSites_listed]
        cases rig.listed (found.drop "sites=".length) with
        | mk sites complete =>
            cases complete with
            | true => rfl
            | false => rfl

/-! ### The register -/

theorem getLsbD_aggModEn (hsite : 1 ≤ site) (mshift i : Nat) :
    (aggModEn site mshift).getLsbD i = decide (i < 32 ∧ (i : Int) = site - 1 + mshift) := by
  unfold aggModEn
  rw [← BitVec.twoPow_eq, BitVec.getLsbD_twoPow, Bool.eq_iff_iff]
  simp only [Bool.and_eq_true, decide_eq_true_eq]
  omega

/-- A site bit is that of a site that is listed; the rest is as it was. -/
theorem getLsbD_sitesReg (mshift : Nat) (hsites : ∀ site ∈ sites, 1 ≤ site) (reg : BitVec 32)
    {i : Nat} (hi : i < 32) :
    (sitesReg mshift sites reg).getLsbD i =
      ((reg.getLsbD i && !(aggSitesMask <<< mshift).getLsbD i) ||
        decide (((i : Int) + 1 - mshift) ∈ sites)) := by
  have hfold : ∀ (l : List Int) (reg : BitVec 32), (∀ site ∈ l, 1 ≤ site) →
      (l.foldl (fun reg site => reg ||| aggModEn site mshift) reg).getLsbD i =
        (reg.getLsbD i || decide (((i : Int) + 1 - mshift) ∈ l)) := by
    intro l
    induction l with
    | nil => intro reg hl; simp
    | cons site l ih =>
        intro reg hl
        have hplace : ((i : Int) = site - 1 + mshift) ↔ (i : Int) + 1 - mshift = site := by
          omega
        rw [List.foldl_cons, ih _ fun s hs => hl s (List.mem_cons_of_mem site hs),
          BitVec.getLsbD_or, getLsbD_aggModEn (hl site List.mem_cons_self), Bool.or_assoc]
        simp [hi, hplace]
  unfold sitesReg
  rw [hfold sites _ hsites, BitVec.getLsbD_and, BitVec.getLsbD_not]
  simp [hi]

end Rig

end AggReg

end Acq400

/-! ### The text

What a list of sites is read as.

A knob may be given the words for its own fields, and has the word that is shown for it.
-/

namespace Acq400

namespace AggReg

open Words

/-- The words that a knob may be given. -/
def Knob.May (k : Knob) : Word → Prop
  | .threshold _ _ => k = .aggregator
  | .select offset _ => k ≠ .aggregator ∧ offset = k.offset
  | .comms _ => False
  | .pad _ => False
  | _ => True

variable {rig : Rig} {k : Knob} {agg : Agg} {t rest : List Char} {ws : List Word}

/-! ### A list of sites -/

/-- The first number of a list is read, and the comma behind it is skipped. -/
theorem listed_cons (rig : Rig) {d : Nat} (hd : 1 ≤ d ∧ d ≤ 6) (l : List Nat) (hstop : Stop rest) :
    rig.listed (listText (d :: l) ++ rest) =
      if 0 < rig.designated d then
        (rig.designated d :: (rig.listed (listText l ++ rest)).1,
          (rig.listed (listText l ++ rest)).2)
      else ([], false) := by
  obtain ⟨htext, hspace, hskip⟩ := decimalText_site hd
  have hcomma : rig.listed ((if l = [] then [] else ',' :: listText l) ++ rest) =
      rig.listed (listText l ++ rest) := by
    split
    · rename_i hnil
      rw [hnil]
      rfl
    · rfl
  have hhead : ∀ c, ((if l = [] then [] else ',' :: listText l) ++ rest).head? = some c →
      c.isDigit = false := by
    intro c hc
    split at hc
    · exact stop_no_digit hstop hc
    · obtain rfl := Option.some.inj hc
      decide
  have hsite := getSite_decimalText rig hd.2 hhead
  rw [htext] at hsite
  rw [listText, htext, List.append_assoc, List.cons_append, List.nil_append, Rig.listed,
    if_neg hspace, if_neg hskip]
  dsimp only
  rw [← hsite, hcomma]
  rfl

theorem designated_pos {d : Nat} (h : 0 < rig.designated d) : (d : Int) ∈ rig.goodSites := by
  by_contra hno
  unfold Rig.designated at h
  rw [if_neg hno] at h
  exact absurd h (by decide)

/-- The sites are those of the numbers, unless one of them is none. -/
theorem listed_listText (rig : Rig) {l : List Nat} (hrange : ∀ d ∈ l, 1 ≤ d ∧ d ≤ 6)
    (hstop : Stop rest) :
    ((∀ d ∈ l, (d : Int) ∈ rig.goodSites) →
      rig.listed (listText l ++ rest) = (l.map rig.siteOf, true)) ∧
    (¬(∀ d ∈ l, (d : Int) ∈ rig.goodSites) → (rig.listed (listText l ++ rest)).2 = false) := by
  induction l with
  | nil =>
      refine ⟨fun _ => ?_, fun h => absurd (fun d hd => absurd hd List.not_mem_nil) h⟩
      rcases hstop with hend | ⟨more, rfl⟩
      · rcases List.mem_pair.mp hend with rfl | rfl
        · rfl
        · rfl
      · rfl
  | cons d l ih =>
      have hd := hrange d List.mem_cons_self
      have ih := ih fun e he => hrange e (List.mem_cons_of_mem d he)
      rw [listed_cons rig hd l hstop, List.forall_mem_cons]
      constructor
      · rintro ⟨hgood, hl⟩
        have hpos := (siteOf_range rig hd).1
        rw [designated_good hgood, if_pos (by omega), ih.1 hl, List.map_cons]
      · intro hbad
        split
        · rename_i hpos
          exact ih.2 fun hl => hbad ⟨designated_pos hpos, hl⟩
        · rfl

/-- What is listed behind a word for sites. -/
theorem sitesIn_some {l : List Nat} (hfound : strstr "sites=".toList t =
    some ("sites=".toList ++ listText l ++ rest)) (hstop : Stop rest) :
    rig.sitesIn t = some (rig.listed (listText l ++ rest)) := by
  have hdrop : ("sites=".toList ++ (listText l ++ rest)).drop "sites=".length =
      listText l ++ rest := rfl
  unfold Rig.sitesIn
  rw [hfound, Option.map_some, List.append_assoc]
  dsimp only
  rw [hdrop, if_neg (listText_not_none l hstop)]

/-- The sites of a text are those of its word. -/
theorem sitesIn_spells (h : Spells rig k.May t ws) :
    rig.sitesIn t = none ∧ (∀ w ∈ ws, w.kind ≠ .sites) ∨
      ∃ w ∈ ws, w.kind = .sites ∧ rig.sitesIn t = some (w.siteList rig, true) := by
  rcases h.find_kind (by decide) (by decide) (by decide) fun w hw => strstr_sites (h.fits w hw) with
    ⟨hnone, hall⟩ | ⟨w, hw, hkind, rest, hstop, htext⟩
  · refine .inl ⟨?_, hall⟩
    unfold Rig.sitesIn
    rw [hnone]
    rfl
  · refine .inr ⟨w, hw, hkind, ?_⟩
    rcases kind_sites hkind with rfl | ⟨l, rfl⟩
    · unfold Rig.sitesIn
      rw [htext]
      rfl
    · have hfits := h.fits _ hw
      have hrange : ∀ d ∈ l, 1 ≤ d ∧ d ≤ 6 := fun d hd => ⟨(hfits d hd).1, (hfits d hd).2.1⟩
      have hlisted := (listed_listText rig hrange hstop).1 fun d hd => (hfits d hd).2.2
      rw [sitesIn_some htext hstop, hlisted]
      rfl

end AggReg

end Acq400

/-! ### The register

What the text of an aggregator setting does.

Each kind of word has bits of its own, and they are set one kind after the other, so a text does
what its words say.  But it enables the data mover when it has an `on` where none is meant, and it
may be refused when what it lists in front has been stored.  What is shown of a register is a text
like any other.
-/

namespace Acq400

namespace AggReg

open MaskField Words

/-! ### What a text has to do -/

theorem mshift_le (k : Knob) : k.mshift + 6 ≤ 32 := by
  cases k with
  | aggregator => decide
  | dataEngine e => exact (by decide : dataEngineMshift + 6 ≤ 32)

/-- The site bits of a register. -/
def Knob.siteSpan (k : Knob) : Span 32 := ⟨k.mshift, 6, by decide, mshift_le k⟩

/-- The bits that a kind of word is about. -/
def Kind.Has (k : Knob) : Kind → Nat → Prop
  | .sites, i => k.siteSpan.Has i
  | .threshold, i => k = .aggregator ∧ thresholdSpan.Has i
  | .select, i => k ≠ .aggregator ∧ i = 14
  | .enable, i => i = 0
  | _, _ => False

/-- The sites, and no others. -/
structure HasSites (rig : Rig) (k : Knob) (sites : List Int) (agg : Agg) : Prop where
  bits : ∀ i < 6, agg.reg.getLsbD (k.mshift + i) = decide ((i : Int) + 1 ∈ sites)
  set : rig.setSites agg.set = sites.eraseDups

namespace Word

/-- What a word says is so. -/
def Holds (rig : Rig) (k : Knob) : Word → Agg → Prop
  | sites l, agg => HasSites rig k (l.map rig.siteOf) agg
  | noSites, agg => HasSites rig k [] agg
  | threshold minus digits, agg =>
    minus = false → Sscanf.decimal digits ≤ 2147483647 →
      (thresholdSpan.get agg.reg).toNat = min (Sscanf.decimal digits / rig.aggSizeUnit) 255
  | select _ b, agg => agg.reg.getLsbD 14 = b
  | enable _ on, agg => agg.reg.getLsbD 0 = on
  | _, _ => True

end Word

/-- The register and the set are changed as the words say, and nowhere else. -/
structure Named (rig : Rig) (k : Knob) (agg : Agg) (ws : List Word) (count : Nat)
    (res : AggStored) : Prop where
  ret : (∃ w ∈ ws, w.kind ≠ .label) → res.ret = count
  holds : ∀ w ∈ ws, w.Holds rig k res.agg
  kept : ∀ i, (∀ w ∈ ws, ¬w.kind.Has k i) → res.agg.reg.getLsbD i = agg.reg.getLsbD i
  set : (∀ w ∈ ws, w.kind ≠ .sites) → res.agg.set = agg.set

/-- A text does what it says, or nothing. -/
structure Right (rig : Rig) (k : Knob) (agg : Agg) (t : List Char) : Prop where
  named : ∀ ws, Spells rig k.May t ws →
    Named rig k agg ws t.length (rig.storeAggReg k.offset k.mshift agg t)
  refused : (rig.storeAggReg k.offset k.mshift agg t).ret < 0 →
    (rig.storeAggReg k.offset k.mshift agg t).agg = agg
  restored : ∀ regval, ∀ tail ∈ ends, t = rig.showWords k.offset k.mshift regval ++ tail →
    (rig.storeAggReg k.offset k.mshift agg t).ret = t.length ∧
      ∀ kind i, Kind.Has k kind i →
        (rig.storeAggReg k.offset k.mshift agg t).agg.reg.getLsbD i = regval.getLsbD i

/-! ### The texts that do not -/

/-- There is an `on` in `sites=none`, where the bit is to be 0. -/
def Enables (agg : Agg) (ws : List Word) : Prop :=
  Word.noSites ∈ ws ∧ (∀ shown, Word.enable shown true ∉ ws) ∧
    (agg.reg.getLsbD 0 = false ∨ ∃ shown, Word.enable shown false ∈ ws)

/-- A site is listed that has no device. -/
def Missing (rig : Rig) (ws : List Word) : Prop :=
  ∃ w ∈ ws, ∃ site ∈ w.siteList rig, rig.lookupSite site = none

/-- There is no number behind `threshold=`. -/
def NoThreshold (t : List Char) : Prop :=
  ∃ value, strstr thSel t = some (thSel ++ value) ∧ Sscanf.int value = none

/-- The text is refused when its sites have been stored, and they are other sites than before. -/
def Spoils (rig : Rig) (k : Knob) (agg : Agg) (t : List Char) : Prop :=
  (∃ sites, rig.sitesIn t = some (sites, false) ∧ agg.set ≠ rig.setOf sites) ∨
    k = .aggregator ∧ NoThreshold t ∧ ∃ sites, rig.sitesIn t = some (sites, true) ∧
      agg ≠ ⟨Rig.sitesReg k.mshift sites agg.reg, rig.setOf sites⟩

/-- The sites of a register. -/
def Knob.shownSites (k : Knob) (regval : BitVec 32) : List Nat :=
  [1, 2, 3, 4, 5, 6].filter fun site => regval.getLsbD (k.mshift + site - 1)

/-- A site is shown as a number that does not stand for it. -/
def Unreadable (rig : Rig) (k : Knob) (regval : BitVec 32) : Prop :=
  ∃ site ∈ k.shownSites regval,
    ¬((rig.dsite site : Int) ∈ rig.goodSites ∧ rig.siteOf (rig.dsite site) = site)

/-- The texts that do something else. -/
def Wrong (rig : Rig) (k : Knob) (agg : Agg) (t : List Char) : Prop :=
  (∃ ws, Spells rig k.May t ws ∧ (Enables agg ws ∨ Missing rig ws)) ∨ Spoils rig k agg t ∨
    ∃ regval, ∃ tail ∈ ends, t = rig.showWords k.offset k.mshift regval ++ tail ∧
      Unreadable rig k regval

variable {rig : Rig} {k : Knob} {agg : Agg} {t : List Char} {ws : List Word}

/-! ### The bits of a kind -/

theorem has_iff (kind : Kind) (i : Nat) :
    Kind.Has k kind i ↔
      match kind with
      | .sites => k.mshift ≤ i ∧ i < k.mshift + 6
      | .threshold => k = .aggregator ∧ 8 ≤ i ∧ i < 16
      | .select => k ≠ .aggregator ∧ i = 14
      | .enable => i = 0
      | _ => False := by
  cases kind <;> exact Iff.rfl

theorem mshift_cases (k : Knob) :
    k = .aggregator ∧ k.mshift = 18 ∨ k ≠ .aggregator ∧ k.mshift = 8 := by
  cases k with
  | aggregator => exact .inl ⟨rfl, rfl⟩
  | dataEngine e => exact .inr ⟨fun h => Knob.noConfusion h, rfl⟩

theorem has_apart {kind other : Kind} {i : Nat} (hne : kind ≠ other) (h : Kind.Has k kind i) :
    ¬Kind.Has k other i := by
  intro ho
  rw [has_iff] at h ho
  rcases mshift_cases k with ⟨hk, hm⟩ | ⟨hk, hm⟩
  all_goals
    rw [hm] at h ho
    cases kind <;> cases other <;>
      simp only [hk, ne_eq, not_true_eq_false, not_false_eq_true, reduceCtorEq, true_and,
        false_and] at h ho hne
    all_goals omega

theorem has_site {i : Nat} (hi : i < 6) : Kind.Has k .sites (k.mshift + i) :=
  ⟨Nat.le_add_right _ _, Nat.add_lt_add_left hi _⟩

theorem HasSites.congr {sites : List Int} {agg' : Agg} (h : HasSites rig k sites agg)
    (hbits : ∀ i, Kind.Has k .sites i → agg'.reg.getLsbD i = agg.reg.getLsbD i)
    (hset : agg'.set = agg.set) : HasSites rig k sites agg' := by
  refine ⟨fun i hi => ?_, ?_⟩
  · rw [hbits _ (has_site hi), h.bits i hi]
  · rw [hset, h.set]

/-- What a word says is about its bits, and about the set if it names sites. -/
theorem Holds.congr {w : Word} {agg' : Agg} (hmay : k.May w) (h : w.Holds rig k agg)
    (hbits : ∀ i, w.kind.Has k i → agg'.reg.getLsbD i = agg.reg.getLsbD i)
    (hset : w.kind = .sites → agg'.set = agg.set) : w.Holds rig k agg' := by
  cases w with
  | label regval => trivial
  | sites l => exact HasSites.congr h hbits (hset rfl)
  | noSites => exact HasSites.congr h hbits (hset rfl)
  | threshold minus digits =>
      have hget : thresholdSpan.get agg'.reg = thresholdSpan.get agg.reg :=
        get_eq_iff.mpr fun i hi => hbits i ⟨hmay, hi⟩
      intro hminus hmax
      rw [hget]
      exact h hminus hmax
  | select offset b => exact (hbits 14 ⟨hmay.1, rfl⟩).trans h
  | comms letter => trivial
  | pad digits => trivial
  | enable shown on => exact (hbits 0 rfl).trans h

/-- What the words for a knob are about and say. -/
def Knob.meaning (rig : Rig) (k : Knob) : Meaning k.May where
  Has := fun w i => w.kind.Has k i
  Holds := Word.Holds rig k
  apart := fun _ _ hne h => has_apart hne h
  congr := Holds.congr

/-! ### The sites -/

theorem mask_siteSpan (k : Knob) : k.siteSpan.mask = aggSitesMask <<< k.mshift := by
  have hmask : BitVec.allOnes 32 >>> (32 - 6) = aggSitesMask := by decide
  unfold Span.mask
  rw [← hmask]
  rfl

/-- The sites are stored as they are listed. -/
theorem storeSites_spells (h : Spells rig k.May t ws) (agg : Agg) :
    (rig.storeSites k.mshift agg t = .ok (agg, false) ∧ ∀ w ∈ ws, w.kind ≠ .sites) ∨
      ∃ w ∈ ws, w.kind = .sites ∧ rig.storeSites k.mshift agg t =
        .ok (⟨Rig.sitesReg k.mshift (w.siteList rig) agg.reg,
          rig.setOf (w.siteList rig)⟩, true) := by
  rw [Rig.storeSites_eq]
  rcases sitesIn_spells h with ⟨hnone, hall⟩ | ⟨w, hw, hkind, hsome⟩
  · rw [hnone]
    exact .inl ⟨rfl, hall⟩
  · rw [hsome]
    exact .inr ⟨w, hw, hkind, rfl⟩

theorem siteList_range {w : Word} (hfits : w.Fits rig) {site : Int} (h : site ∈ w.siteList rig) :
    1 ≤ site ∧ site ≤ 6 := by
  obtain ⟨l, rfl, d, hd, rfl⟩ := eq_sites_of_mem h
  exact siteOf_range rig ⟨(hfits d hd).1, (hfits d hd).2.1⟩

/-- The bits of the sites, and no others. -/
theorem bits_sitesReg (k : Knob) {sites : List Int} (hsites : ∀ site ∈ sites, 1 ≤ site ∧ site ≤ 6)
    (reg : BitVec 32) :
    (∀ i < 6, (Rig.sitesReg k.mshift sites reg).getLsbD (k.mshift + i) =
      decide ((i : Int) + 1 ∈ sites)) ∧
    ∀ i, ¬Kind.Has k .sites i →
      (Rig.sitesReg k.mshift sites reg).getLsbD i = reg.getLsbD i := by
  have hmshift := mshift_le k
  have hmask : ∀ i, (aggSitesMask <<< k.mshift).getLsbD i = decide (k.siteSpan.Has i) := by
    intro i
    rw [← mask_siteSpan, getLsbD_mask]
  constructor
  · intro i hi
    have hplace : ((k.mshift + i : Nat) : Int) + 1 - k.mshift = i + 1 := by omega
    have hlt : k.mshift + i < 32 := by omega
    rw [Rig.getLsbD_sitesReg k.mshift (fun s hs => (hsites s hs).1) reg hlt, hmask, hplace,
      decide_eq_true (show k.siteSpan.Has _ from has_site hi)]
    simp
  · intro i hi
    by_cases hlt : i < 32
    · have hnot : ((i : Int) + 1 - k.mshift) ∉ sites := by
        intro hmem
        have hrange := hsites _ hmem
        refine hi (⟨?_, ?_⟩ : k.mshift ≤ i ∧ i < k.mshift + 6)
        · omega
        · omega
      rw [Rig.getLsbD_sitesReg k.mshift (fun s hs => (hsites s hs).1) reg hlt, hmask,
        decide_eq_false (show ¬k.siteSpan.Has i from hi), decide_eq_false hnot]
      simp
    · rw [BitVec.getLsbD_of_ge _ i (by omega), BitVec.getLsbD_of_ge _ i (by omega)]

theorem holds_sites {w : Word} (hkind : w.kind = .sites) :
    w.Holds rig k agg ↔ HasSites rig k (w.siteList rig) agg := by
  rcases kind_sites hkind with rfl | ⟨l, rfl⟩
  · exact Iff.rfl
  · exact Iff.rfl

theorem sites_step (h : Spells rig k.May t ws) (hdevices : ¬Missing rig ws) (agg : Agg) :
    ∃ agg' pass, rig.storeSites k.mshift agg t = .ok (agg', pass) ∧
      Step (k.meaning rig) ws [.sites] agg agg' false pass := by
  rcases storeSites_spells h agg with ⟨hstored, hnone⟩ | ⟨w, hw, hkind, hstored⟩
  · exact ⟨agg, false, hstored, .refl hnone agg false⟩
  · have hrange : ∀ site ∈ w.siteList rig, 1 ≤ site ∧ site ≤ 6 :=
      fun site hs => siteList_range (h.fits w hw) hs
    obtain ⟨hnamed, hkept⟩ := bits_sitesReg k hrange agg.reg
    refine ⟨_, true, hstored, .of_word hw h.nodup hkind ((holds_sites hkind).mpr ⟨hnamed, ?_⟩)
      (fun i hi => hkept i fun hhas => hi (show w.kind.Has k i from hkind ▸ hhas))
      fun hne => absurd rfl hne⟩
    exact Rig.setSites_setOf hrange fun site hs hnone => hdevices ⟨w, hw, site, hs, hnone⟩

/-- `threshold=`, or the word for the bit that selects the aggregator. -/
def Rig.storeField (rig : Rig) (k : Knob) (agg : Agg) (pass : Bool) (buf : List Char) :
    Except Agg (Agg × Bool) :=
  match k with
  | .aggregator => rig.storeThreshold agg pass buf
  | .dataEngine _ => .ok (storeSelect k.offset agg pass buf)

theorem storeWords_eq (k : Knob) (agg : Agg) (t : List Char) :
    rig.storeWords k.offset k.mshift agg t =
      match rig.storeSites k.mshift agg t with
      | .error agg => .error agg
      | .ok (agg, pass) =>
        match rig.storeField k agg pass t with
        | .error agg => .error agg
        | .ok (agg, pass) => .ok (storeMover agg pass t) := by
  unfold Rig.storeWords
  cases rig.storeSites k.mshift agg t with
  | error agg => rfl
  | ok stored =>
      cases k with
      | aggregator =>
          cases hfield : rig.storeThreshold stored.1 stored.2 t with
          | error agg =>
              unfold Rig.storeField
              dsimp only
              rw [hfield]
              change (do let p ← rig.storeThreshold stored.1 stored.2 t; _) = _
              rw [hfield]
              rfl
          | ok field =>
              unfold Rig.storeField
              dsimp only
              rw [hfield]
              change (do let p ← rig.storeThreshold stored.1 stored.2 t; _) = _
              rw [hfield]
              rfl
      | dataEngine e => rfl

/-! ### The threshold and the bit that selects -/

/-- The word that selects the aggregator, or the distributor. -/
theorem strstr_select {w : Word} (hfits : w.Fits rig) (hmay : k.May w) (hk : k ≠ .aggregator) :
    strstr (selText k.offset) w.text = if w.kind = .select then some w.text else none := by
  have hr : 'r' ∈ selText k.offset := by
    unfold selText
    split <;> decide
  have ht : 't' ∈ selText k.offset := by
    unfold selText
    split <;> decide
  cases w with
  | label regval => exact strstr_none hfits 't' ht (by decide : 't' ∉ labelLetters)
  | sites l => exact strstr_none hfits 'r' hr (by decide : 'r' ∉ siteLetters)
  | noSites => exact strstr_none hfits 'r' hr (by decide : 'r' ∉ noSiteLetters)
  | threshold minus digits => exact absurd hmay hk
  | select offset agg =>
      obtain ⟨-, rfl⟩ := hmay
      exact strstr_prefix (List.ne_nil_of_mem ht) _
  | comms letter => exact absurd hmay id
  | pad digits => exact absurd hmay id
  | enable shown on => exact strstr_none hfits 'r' hr (by decide : 'r' ∉ enableLetters)

theorem kind_select {w : Word} (hmay : k.May w) (h : w.kind = .select) :
    ∃ b, w = .select k.offset b := by
  cases w with
  | select offset b =>
      obtain ⟨-, rfl⟩ := hmay
      exact ⟨b, rfl⟩
  | _ => cases h

theorem threshold_step (h : Spells rig (Knob.May .aggregator) t ws) (agg : Agg) (pass : Bool) :
    ∃ agg' pass', rig.storeThreshold agg pass t = .ok (agg', pass') ∧
      Step (Knob.aggregator.meaning rig) ws [.threshold] agg agg' pass pass' := by
  unfold Rig.storeThreshold
  rcases h.find_kind (by decide) (by decide) (by decide)
    fun w hw => strstr_threshold (h.fits w hw) with
      ⟨hnone, hall⟩ | ⟨w, hw, hkind, rest, hstop, htext⟩
  · rw [hnone]
    exact ⟨agg, pass, rfl, .refl hall agg pass⟩
  · obtain ⟨minus, digits, rfl⟩ := kind_threshold hkind
    rw [htext]
    dsimp only
    rw [scan_threshold minus (h.fits _ hw) hstop]
    dsimp only
    rw [put_threshold (thOf_le _)]
    refine ⟨_, true, rfl, .of_word hw h.nodup rfl (fun hminus hmax => ?_)
      (fun i hi => put_outside fun hhas => hi ⟨rfl, hhas⟩) fun _ => rfl⟩
    rw [hminus]
    exact get_threshold hmax _

theorem getLsbD_deSelectAgg (i : Nat) : deSelectAgg.getLsbD i = decide (i = 14) := by
  have htwo : deSelectAgg = BitVec.twoPow 32 14 := by decide
  rw [htwo, BitVec.getLsbD_twoPow]
  simp [eq_comm]

theorem dropWhile_selText (offset : Nat) (value : List Char) :
    (selText offset ++ value).dropWhile (fun c => c ≠ '=') = '=' :: value := by
  unfold selText
  split
  · rfl
  · rfl

theorem int_select (b : Bool) {rest : List Char} (hstop : Stop rest) :
    Sscanf.int ((if b then '1' else '0') :: rest) = some (if b then 1 else 0, rest) := by
  have hone : CInt.wrap (Sscanf.decimal ['1']) = 1 := by decide
  have hzero : CInt.wrap (Sscanf.decimal ['0']) = 0 := by decide
  have hint := fun d (hd : Sscanf.IsDigits [d]) =>
    Sscanf.int_digits false hd fun c hc => stop_no_digit hstop hc
  cases b with
  | true =>
      have h := hint '1' ⟨List.cons_ne_nil _ _, List.forall_mem_singleton.mpr rfl⟩
      rw [if_neg (by decide), if_neg (by decide), hone] at h
      exact h
  | false =>
      have h := hint '0' ⟨List.cons_ne_nil _ _, List.forall_mem_singleton.mpr rfl⟩
      rw [if_neg (by decide), if_neg (by decide), hzero] at h
      exact h

theorem select_step {e : Fin 4} (h : Spells rig (Knob.May (.dataEngine e)) t ws) (agg : Agg)
    (pass : Bool) :
    Step ((Knob.dataEngine e).meaning rig) ws [.select] agg
      (storeSelect (Knob.dataEngine e).offset agg pass t).1 pass
      (storeSelect (Knob.dataEngine e).offset agg pass t).2 := by
  have hk : Knob.dataEngine e ≠ .aggregator := fun h => Knob.noConfusion h
  have hletters : selText (Knob.dataEngine e).offset ≠ [] ∧
      ' ' ∉ selText (Knob.dataEngine e).offset ∧ '\n' ∉ selText (Knob.dataEngine e).offset := by
    unfold selText
    split <;> decide
  unfold storeSelect
  rcases h.find_kind hletters.1 hletters.2.1 hletters.2.2
    fun w hw => strstr_select (h.fits w hw) (h.may w hw) hk with
      ⟨hnone, hall⟩ | ⟨w, hw, hkind, rest, hstop, htext⟩
  · rw [hnone]
    exact .refl hall agg pass
  · obtain ⟨b, rfl⟩ := kind_select (h.may w hw) hkind
    rw [htext]
    dsimp only [Word.text]
    rw [List.append_assoc, dropWhile_selText]
    dsimp only
    rw [List.cons_append, List.nil_append, int_select b hstop]
    dsimp only
    cases b with
    | true =>
        refine .of_word hw h.nodup rfl ?_ (fun i hi => ?_) fun _ => rfl
        · rw [if_pos (by decide)]
          simp [Knob.meaning, Word.Holds, getLsbD_deSelectAgg]
        · have hne : i ≠ 14 := fun he => hi ⟨hk, he⟩
          rw [if_pos (by decide)]
          simp [getLsbD_deSelectAgg, hne]
    | false =>
        refine .of_word hw h.nodup rfl ?_ (fun i hi => ?_) fun _ => rfl
        · rw [if_neg (by decide)]
          simp [Knob.meaning, Word.Holds, getLsbD_deSelectAgg]
        · have hne : i ≠ 14 := fun he => hi ⟨hk, he⟩
          rw [if_neg (by decide)]
          simp only [BitVec.getLsbD_and, BitVec.getLsbD_not, getLsbD_deSelectAgg, hne,
            decide_false, Bool.not_false, Bool.and_true, Bool.and_eq_left_iff_imp,
            decide_eq_true_eq]
          exact BitVec.lt_of_getLsbD

/-- `threshold=`, or the bit that selects the aggregator. -/
theorem field_step (h : Spells rig k.May t ws) (agg : Agg) (pass : Bool) :
    ∃ agg' pass', rig.storeField k agg pass t = .ok (agg', pass') ∧
      Step (k.meaning rig) ws [.threshold, .select] agg agg' pass pass' := by
  cases k with
  | aggregator =>
      obtain ⟨agg', pass', hstored, hstep⟩ := threshold_step h agg pass
      have hnone : ∀ w ∈ ws, w.kind ≠ .select := by
        intro w hw hkind
        obtain ⟨b, rfl⟩ := kind_select (h.may w hw) hkind
        exact (h.may _ hw).1 rfl
      exact ⟨agg', pass', hstored, hstep.trans (.refl hnone _ _) h.may (by decide)⟩
  | dataEngine e =>
      have hnone : ∀ w ∈ ws, w.kind ≠ .threshold := by
        intro w hw hkind
        obtain ⟨minus, digits, rfl⟩ := kind_threshold hkind
        cases h.may _ hw
      exact ⟨_, _, rfl, (Step.refl hnone agg pass).trans (select_step h agg pass) h.may (by decide)⟩

/-! ### The data mover -/

theorem getLsbD_dataMoverEn (i : Nat) : dataMoverEn.getLsbD i = decide (i = 0) := by
  have htwo : dataMoverEn = BitVec.twoPow 32 0 := by decide
  rw [htwo, BitVec.getLsbD_twoPow]
  simp [eq_comm]

theorem storeMover_eq (agg : Agg) (pass : Bool) (t : List Char) :
    storeMover agg pass t =
      if strstr "on".toList t ≠ none then ({ agg with reg := agg.reg ||| dataMoverEn }, true)
      else if strstr "off".toList t ≠ none then
        ({ agg with reg := agg.reg &&& ~~~dataMoverEn }, true)
      else (agg, pass) := by
  unfold storeMover
  simp only [Option.isSome_iff_ne_none]

theorem mover_step (h : Spells rig k.May t ws) {agg : Agg} {pass : Bool}
    (hpass : Word.noSites ∈ ws → pass = true) (henables : ¬Enables agg ws) :
    Step (k.meaning rig) ws [.enable] agg (storeMover agg pass t).1 pass
      (storeMover agg pass t).2 := by
  have hidle : (∀ shown on, Word.enable shown on ∉ ws) → ∀ w ∈ ws, w.kind ≠ .enable := by
    intro hnone w hw hkind
    obtain ⟨shown, on, rfl⟩ := kind_enable hkind
    exact hnone shown on hw
  rw [storeMover_eq]
  by_cases hon : ∃ shown, Word.enable shown true ∈ ws
  · obtain ⟨shown, hw⟩ := hon
    rw [if_pos ((on_spells h).mpr (.inr ⟨shown, hw⟩))]
    refine .of_word hw h.nodup rfl ?_ (fun i hi => ?_) fun _ => rfl
    · simp [Knob.meaning, Word.Holds, getLsbD_dataMoverEn]
    · have hne : i ≠ 0 := hi
      simp [getLsbD_dataMoverEn, hne]
  · have hnoton : ∀ shown, Word.enable shown true ∉ ws := fun shown hw => hon ⟨shown, hw⟩
    by_cases hno : Word.noSites ∈ ws
    · -- the bit is set as it was
      have hset : agg.reg.getLsbD 0 = true ∧ ∀ shown, Word.enable shown false ∉ ws := by
        constructor
        · by_contra hclear
          exact henables ⟨hno, hnoton, .inl (Bool.eq_false_of_not_eq_true hclear)⟩
        · exact fun shown hw => henables ⟨hno, hnoton, .inr ⟨shown, hw⟩⟩
      have hreg : agg.reg ||| dataMoverEn = agg.reg := by
        refine BitVec.eq_of_getLsbD_eq fun i _ => ?_
        rw [BitVec.getLsbD_or, getLsbD_dataMoverEn]
        by_cases hi : i = 0
        · rw [hi, hset.1]
          rfl
        · simp [hi]
      rw [if_pos ((on_spells h).mpr (.inl hno)), hreg, ← hpass hno]
      refine .refl (hidle fun shown on hw => ?_) agg pass
      cases on with
      | true => exact hnoton shown hw
      | false => exact hset.2 shown hw
    · rw [if_neg fun hfound => ((on_spells h).mp hfound).elim hno hon]
      split
      · rename_i hoff
        obtain ⟨shown, hw⟩ := (off_spells h).mp hoff
        refine .of_word hw h.nodup rfl ?_ (fun i hi => ?_) fun _ => rfl
        · simp [Knob.meaning, Word.Holds, getLsbD_dataMoverEn]
        · have hne : i ≠ 0 := hi
          simp only [BitVec.getLsbD_and, BitVec.getLsbD_not, getLsbD_dataMoverEn, hne,
            decide_false, Bool.not_false, Bool.and_true, Bool.and_eq_left_iff_imp,
            decide_eq_true_eq]
          exact BitVec.lt_of_getLsbD
      · rename_i hoff
        refine .refl (hidle fun shown on hw => ?_) agg pass
        cases on with
        | true => exact hnoton shown hw
        | false => exact hoff ((off_spells h).mpr ⟨shown, hw⟩)

/-! ### A text -/

theorem mem_kinds (h : Spells rig k.May t ws) {w : Word} (hw : w ∈ ws) :
    w.kind ∈ [Kind.sites, .threshold, .select, .enable] ↔ w.kind ≠ .label := by
  have hmay := h.may w hw
  cases w with
  | comms letter => exact absurd hmay id
  | pad digits => exact absurd hmay id
  | _ => simp [Word.kind]

/-- A text that has none of the words that set something is no number. -/
theorem hex_labels (h : Spells rig k.May t ws) (hlabels : ∀ w ∈ ws, w.kind = .label) :
    Sscanf.hex t = none := by
  obtain ⟨tail, htail, rfl⟩ := h.text
  have hempty : Sscanf.hex tail = none := by
    rcases List.mem_pair.mp htail with rfl | rfl
    · rfl
    · rfl
  cases ws with
  | nil => exact hempty
  | cons w ws =>
      have hnil : ws = [] := by
        cases ws with
        | nil => rfl
        | cons v vs =>
            have hv := hlabels v (List.mem_cons_of_mem _ List.mem_cons_self)
            have hnodup := h.nodup
            rw [List.map_cons, List.map_cons, hv, hlabels w List.mem_cons_self] at hnodup
            exact absurd List.mem_cons_self (List.nodup_cons.mp hnodup).1
      have hr : ∀ rest, Sscanf.hex ('r' :: rest) = none := by
        intro rest
        unfold Sscanf.hex
        dsimp only
        rw [Sscanf.spaces_cons (by decide)]
        rfl
      rw [hnil]
      cases w with
      | label regval => exact hr _
      | _ => exact absurd (hlabels _ List.mem_cons_self) (by simp [Word.kind])

/-- The words of a text are done, one kind after the other. -/
theorem storeWords_spells (h : Spells rig k.May t ws) (hdevices : ¬Missing rig ws)
    (henables : ¬Enables agg ws) :
    ∃ agg' pass, rig.storeWords k.offset k.mshift agg t = .ok (agg', pass) ∧
      Step (k.meaning rig) ws [.sites, .threshold, .select, .enable] agg agg' false pass := by
  obtain ⟨agg₁, pass₁, hstored₁, hstep₁⟩ := sites_step h hdevices agg
  obtain ⟨agg₂, pass₂, hstored₂, hstep₂⟩ := field_step h agg₁ pass₁
  have hstep := hstep₁.trans hstep₂ h.may (by decide)
  have hbit : agg₂.reg.getLsbD 0 = agg.reg.getLsbD 0 := by
    refine hstep.kept 0 fun w _ hkind hhas => @has_apart k _ .enable 0 (fun heq => ?_) hhas rfl
    rw [heq] at hkind
    exact absurd hkind (by decide)
  have hpass : Word.noSites ∈ ws → pass₂ = true :=
    fun hno => hstep.pass.mpr (.inr ⟨_, hno, by simp [Word.kind]⟩)
  have henables₂ : ¬Enables agg₂ ws := by
    unfold Enables at henables ⊢
    rw [hbit]
    exact henables
  refine ⟨_, _, ?_, hstep.trans (mover_step h hpass henables₂) h.may (by decide)⟩
  rw [storeWords_eq, hstored₁]
  dsimp only
  rw [hstored₂]

/-- A text does what it says, where it lists devices that there are and enables what it says. -/
theorem storeAggReg_spells (h : Spells rig k.May t ws) (hdevices : ¬Missing rig ws)
    (henables : ¬Enables agg ws) :
    Named rig k agg ws t.length (rig.storeAggReg k.offset k.mshift agg t) := by
  obtain ⟨agg', pass, hstored, hstep⟩ := storeWords_spells h hdevices henables
  have hholds : ∀ w ∈ ws, w.Holds rig k agg' := by
    intro w hw
    by_cases hkind : w.kind = .label
    · cases w with
      | label regval => trivial
      | _ => cases hkind
    · exact hstep.holds w hw ((mem_kinds h hw).mpr hkind)
  have hkept : ∀ i, (∀ w ∈ ws, ¬w.kind.Has k i) → agg'.reg.getLsbD i = agg.reg.getLsbD i :=
    fun i hi => hstep.kept i fun w hw _ => hi w hw
  have hset : (∀ w ∈ ws, w.kind ≠ .sites) → agg'.set = agg.set :=
    fun hnone => hstep.set fun w hw _ => hnone w hw
  have hpass : (∃ w ∈ ws, w.kind ≠ .label) → pass = true :=
    fun ⟨w, hw, hne⟩ => hstep.pass.mpr (.inr ⟨w, hw, (mem_kinds h hw).mpr hne⟩)
  unfold Rig.storeAggReg
  rw [hstored]
  cases pass with
  | true => exact ⟨fun _ => rfl, hholds, hkept, hset⟩
  | false =>
      have hlabels : ∀ w ∈ ws, w.kind = .label := by
        intro w hw
        by_contra hne
        cases hpass ⟨w, hw, hne⟩
      dsimp only
      rw [hex_labels h hlabels]
      exact ⟨fun hne => Bool.noConfusion (hpass hne), hholds, hkept, hset⟩

/-- What `sites=none` has in it is found. -/
theorem storeAggReg_noSites (agg : Agg) (h : Spells rig k.May t ws) (hno : Word.noSites ∈ ws) :
    (rig.storeAggReg k.offset k.mshift agg t).agg.reg.getLsbD 0 = true := by
  have hsites : ∃ agg₁ pass₁, rig.storeSites k.mshift agg t = .ok (agg₁, pass₁) := by
    rcases storeSites_spells h agg with ⟨hstored, -⟩ | ⟨w, -, -, hstored⟩
    · exact ⟨_, _, hstored⟩
    · exact ⟨_, _, hstored⟩
  obtain ⟨agg₁, pass₁, hstored₁⟩ := hsites
  obtain ⟨agg₂, pass₂, hstored₂, -⟩ := field_step h agg₁ pass₁
  have hmover : storeMover agg₂ pass₂ t =
      ({ agg₂ with reg := agg₂.reg ||| dataMoverEn }, true) := by
    rw [storeMover_eq, if_pos ((on_spells h).mpr (.inl hno))]
  have hstored : rig.storeWords k.offset k.mshift agg t =
      .ok ({ agg₂ with reg := agg₂.reg ||| dataMoverEn }, true) := by
    rw [storeWords_eq, hstored₁]
    dsimp only
    rw [hstored₂, ← hmover]
  unfold Rig.storeAggReg
  rw [hstored]
  simp [getLsbD_dataMoverEn]

/-- What a text says is so only where its sites have devices, and nothing else is enabled. -/
theorem named_iff (h : Spells rig k.May t ws) :
    Named rig k agg ws t.length (rig.storeAggReg k.offset k.mshift agg t) ↔
      ¬(Enables agg ws ∨ Missing rig ws) := by
  constructor
  · rintro hnamed (⟨hno, hnoton, hoff⟩ | ⟨w, hw, site, hsite, hlookup⟩)
    · have hbit := storeAggReg_noSites agg h hno
      have hword : ¬∃ shown, Word.enable shown false ∈ ws := by
        rintro ⟨shown, hw⟩
        have hholds : _ = false := hnamed.holds _ hw
        rw [hbit] at hholds
        cases hholds
      have hclear := hoff.resolve_right hword
      have hkept := hnamed.kept 0 fun w hw hhas => ?_
      · rw [hbit, hclear] at hkept
        cases hkept
      · have hkind : w.kind = .enable := by
          by_contra hne
          exact has_apart hne hhas rfl
        obtain ⟨shown, on, rfl⟩ := kind_enable hkind
        cases on with
        | true => exact hnoton shown hw
        | false => exact hword ⟨shown, hw⟩
    · have hkind : w.kind = .sites := by
        obtain ⟨l, rfl, -⟩ := eq_sites_of_mem hsite
        rfl
      have hset := ((holds_sites hkind).mp (hnamed.holds w hw)).set
      rw [← List.mem_eraseDups, ← hset] at hsite
      exact Rig.lookupSite_of_mem hsite hlookup
  · intro hgood
    exact storeAggReg_spells h (fun hm => hgood (.inr hm)) fun he => hgood (.inl he)

/-! ### Texts that are refused -/

theorem storeThreshold_error {agg agg' : Agg} {pass : Bool}
    (h : rig.storeThreshold agg pass t = .error agg') : agg' = agg ∧ NoThreshold t := by
  unfold Rig.storeThreshold at h
  cases hfound : strstr thSel t with
  | none =>
      rw [hfound] at h
      cases h
  | some found =>
      obtain ⟨value, rfl⟩ := strstr_eq_some hfound
      rw [hfound] at h
      dsimp only at h
      rw [Sscanf.lit_append, Option.bind_some] at h
      cases hvalue : Sscanf.int value with
      | none =>
          rw [hvalue] at h
          exact ⟨(Except.error.inj h).symm, value, hfound, hvalue⟩
      | some scanned =>
          rw [hvalue] at h
          cases h

theorem storeThreshold_none (h : NoThreshold t) (agg : Agg) (pass : Bool) :
    rig.storeThreshold agg pass t = .error agg := by
  obtain ⟨value, hfound, hvalue⟩ := h
  unfold Rig.storeThreshold
  rw [hfound]
  dsimp only
  rw [Sscanf.lit_append, Option.bind_some, hvalue]

theorem storeField_error {agg agg' : Agg} {pass : Bool}
    (h : rig.storeField k agg pass t = .error agg') :
    agg' = agg ∧ k = .aggregator ∧ NoThreshold t := by
  cases k with
  | aggregator =>
      obtain ⟨hagg, hnone⟩ := storeThreshold_error h
      exact ⟨hagg, rfl, hnone⟩
  | dataEngine e => cases h

theorem storeField_ok {agg agg' : Agg} {pass pass' : Bool}
    (h : rig.storeField k agg pass t = .ok (agg', pass')) :
    pass' = true ∨ agg' = agg ∧ pass' = pass := by
  cases k with
  | aggregator =>
      unfold Rig.storeField Rig.storeThreshold at h
      dsimp only at h
      split at h
      · obtain ⟨rfl, rfl⟩ := Prod.mk.inj (Except.ok.inj h)
        exact .inr ⟨rfl, rfl⟩
      · split at h
        · cases h
        · obtain ⟨-, rfl⟩ := Prod.mk.inj (Except.ok.inj h)
          exact .inl rfl
  | dataEngine e =>
      unfold Rig.storeField storeSelect at h
      dsimp only at h
      repeat' split at h
      all_goals obtain ⟨rfl, rfl⟩ := Prod.mk.inj (Except.ok.inj h)
      · exact .inr ⟨rfl, rfl⟩
      · exact .inr ⟨rfl, rfl⟩
      · exact .inr ⟨rfl, rfl⟩
      · exact .inl rfl
      · exact .inl rfl

theorem storeMover_false {agg : Agg} {pass : Bool} (h : (storeMover agg pass t).2 = false) :
    storeMover agg pass t = (agg, pass) := by
  rw [storeMover_eq] at h ⊢
  split at h
  · cases h
  · rename_i hon
    split at h
    · cases h
    · rename_i hoff
      rw [if_neg hon, if_neg hoff]

/-- A text that has nothing to set leaves what there was. -/
theorem storeWords_false {agg' : Agg}
    (h : rig.storeWords k.offset k.mshift agg t = .ok (agg', false)) : agg' = agg := by
  have hrest : ∀ {agg₁ agg₂ : Agg} {pass₁ pass₂ : Bool},
      rig.storeField k agg₁ pass₁ t = .ok (agg₂, pass₂) →
        storeMover agg₂ pass₂ t = (agg', false) → agg' = agg₁ ∧ pass₁ = false := by
    intro agg₁ agg₂ pass₁ pass₂ hfield hmover
    have hidle := storeMover_false (congrArg Prod.snd hmover)
    rw [hmover] at hidle
    obtain ⟨rfl, rfl⟩ := Prod.mk.inj hidle
    rcases storeField_ok hfield with htrue | ⟨rfl, rfl⟩
    · cases htrue
    · exact ⟨rfl, rfl⟩
  rw [storeWords_eq] at h
  cases hsites : rig.storeSites k.mshift agg t with
  | error agg₁ =>
      rw [hsites] at h
      cases h
  | ok stored =>
      obtain ⟨agg₁, pass₁⟩ := stored
      rw [hsites] at h
      dsimp only at h
      cases hfield : rig.storeField k agg₁ pass₁ t with
      | error agg₂ =>
          rw [hfield] at h
          cases h
      | ok field =>
          obtain ⟨agg₂, pass₂⟩ := field
          rw [hfield] at h
          obtain ⟨rfl, rfl⟩ := hrest hfield (Except.ok.inj h)
          rw [Rig.storeSites_eq] at hsites
          split at hsites
          · exact (Prod.mk.inj (Except.ok.inj hsites)).1.symm
          · cases hsites
          · cases hsites

/-- What is left by a text that is refused for one of its words. -/
theorem storeWords_error {agg' : Agg}
    (h : rig.storeWords k.offset k.mshift agg t = .error agg') :
    agg' = agg ∨ Spoils rig k agg t := by
  by_cases hsame : agg' = agg
  · exact .inl hsame
  · right
    rw [storeWords_eq, Rig.storeSites_eq] at h
    cases hsites : rig.sitesIn t with
    | none =>
        rw [hsites] at h
        dsimp only at h
        cases hfield : rig.storeField k agg false t with
        | error agg₁ =>
            rw [hfield] at h
            obtain rfl := Except.error.inj h
            exact absurd (storeField_error hfield).1 hsame
        | ok field =>
            rw [hfield] at h
            cases h
    | some listed =>
        obtain ⟨sites, complete⟩ := listed
        rw [hsites] at h
        cases complete with
        | false =>
            obtain rfl := Except.error.inj h
            refine .inl ⟨sites, hsites, fun hset => hsame ?_⟩
            rw [← hset]
        | true =>
            dsimp only at h
            cases hfield : rig.storeField k
                ⟨Rig.sitesReg k.mshift sites agg.reg, rig.setOf sites⟩ true t with
            | error agg₁ =>
                rw [hfield] at h
                obtain rfl := Except.error.inj h
                obtain ⟨rfl, hk, hnone⟩ := storeField_error hfield
                exact .inr ⟨hk, hnone, sites, hsites, fun heq => hsame heq.symm⟩
            | ok field =>
                rw [hfield] at h
                cases h

/-- What is left by a text that is refused is what there was, unless the text spoils it. -/
theorem storeAggReg_refused (hspoils : ¬Spoils rig k agg t)
    (h : (rig.storeAggReg k.offset k.mshift agg t).ret < 0) :
    (rig.storeAggReg k.offset k.mshift agg t).agg = agg := by
  unfold Rig.storeAggReg at h ⊢
  cases hwords : rig.storeWords k.offset k.mshift agg t with
  | error agg' => exact (storeWords_error hwords).resolve_right hspoils
  | ok stored =>
      obtain ⟨agg', pass⟩ := stored
      rw [hwords] at h
      cases pass with
      | true => exact absurd h (by dsimp only; omega)
      | false =>
          dsimp only at h ⊢
          cases hhex : Sscanf.hex t with
          | none => exact storeWords_false hwords
          | some scanned =>
              rw [hhex] at h
              exact absurd h (by dsimp only; omega)

theorem spoils_not_right (h : Spoils rig k agg t) : ¬Right rig k agg t := by
  intro hright
  rcases h with ⟨sites, hsites, hne⟩ | ⟨rfl, hnone, sites, hsites, hne⟩
  · have hstored : rig.storeAggReg k.offset k.mshift agg t =
        { ret := -1, agg := { agg with set := rig.setOf sites } } := by
      unfold Rig.storeAggReg
      rw [storeWords_eq, Rig.storeSites_eq, hsites]
    have hsame := hright.refused
    rw [hstored] at hsame
    exact hne (congrArg Agg.set (hsame (Int.negSucc_lt_zero 0))).symm
  · have hstored : rig.storeAggReg Knob.aggregator.offset Knob.aggregator.mshift agg t =
        { ret := -1,
          agg := ⟨Rig.sitesReg Knob.aggregator.mshift sites agg.reg, rig.setOf sites⟩ } := by
      unfold Rig.storeAggReg
      rw [storeWords_eq, Rig.storeSites_eq, hsites]
      unfold Rig.storeField
      dsimp only
      rw [storeThreshold_none hnone]
    have hsame := hright.refused
    rw [hstored] at hsame
    exact hne (hsame (Int.negSucc_lt_zero 0)).symm

/-! ### What is shown -/

/-- The sites that are shown, as a word. -/
def shownSiteWord (rig : Rig) (k : Knob) (regval : BitVec 32) : Word :=
  if k.shownSites regval = [] then .noSites else .sites ((k.shownSites regval).map rig.dsite)

/-- The threshold, or the bit that selects the aggregator. -/
def shownField (rig : Rig) (regval : BitVec 32) : Knob → Word
  | .aggregator =>
    .threshold false (Nat.toDigits 10 ((thresholdSpan.get regval).toNat * rig.aggSizeUnit))
  | .dataEngine e => .select (Knob.dataEngine e).offset (regval.getLsbD 14)

def shownWords (rig : Rig) (k : Knob) (regval : BitVec 32) : List Word :=
  [.label regval, shownSiteWord rig k regval, shownField rig regval k,
    .enable true (regval.getLsbD 0)]

theorem and_twoPow_ne_zero {x : BitVec 32} {i : Nat} (hi : i < 32) :
    x &&& BitVec.twoPow 32 i ≠ 0 ↔ x.getLsbD i = true := by
  rw [BitVec.and_twoPow]
  split
  · rename_i hbit
    refine iff_of_true (fun hzero => ?_) hbit
    have h := congrArg (fun y => y.getLsbD i) hzero
    simp [hi] at h
  · rename_i hbit
    exact iff_of_false (fun hne => hne rfl) hbit

theorem and_aggModEn (regval : BitVec 32) {site : Nat} (hlt : k.mshift + site - 1 < 32) :
    regval &&& aggModEn site k.mshift ≠ 0 ↔ regval.getLsbD (k.mshift + site - 1) = true := by
  have hplace : ((site : Int) - 1 + k.mshift).toNat = k.mshift + site - 1 := by omega
  unfold aggModEn
  rw [← BitVec.twoPow_eq, hplace, and_twoPow_ne_zero hlt]

theorem and_deSelectAgg (regval : BitVec 32) :
    regval &&& deSelectAgg ≠ 0 ↔ regval.getLsbD 14 = true :=
  and_twoPow_ne_zero (i := 14) (by decide)

theorem and_dataMoverEn (regval : BitVec 32) :
    regval &&& dataMoverEn ≠ 0 ↔ regval.getLsbD 0 = true :=
  and_twoPow_ne_zero (i := 0) (by decide)

/-- The sites go to the text one after the other. -/
theorem modGroup_eq (rig : Rig) (k : Knob) (regval : BitVec 32) (sites : List Nat)
    (hsites : ∀ site ∈ sites, 1 ≤ site ∧ site ≤ 6) :
    ∀ group, rig.modGroup k.mshift regval sites group =
      let shown := sites.filter fun site => regval.getLsbD (k.mshift + site - 1)
      if shown = [] then group
      else (if group = [] then "sites=".toList else group ++ [',']) ++
        listText (shown.map rig.dsite) := by
  have hmshift := mshift_le k
  induction sites with
  | nil => intro group; rfl
  | cons site sites ih =>
      intro group
      have hsite := hsites site List.mem_cons_self
      have ih := ih fun s hs => hsites s (List.mem_cons_of_mem site hs)
      have hbit := and_aggModEn regval (by omega : k.mshift + site - 1 < 32)
      have hhead : (if group = [] then group ++ "sites=".toList else group ++ [',']) =
          if group = [] then "sites=".toList else group ++ [','] := by
        split
        · rename_i hgroup
          rw [hgroup]
          rfl
        · rfl
      have hdigits : Sscanf.decimalText (rig.dsite site : Nat) ≠ [] := by
        unfold Sscanf.decimalText
        split
        · exact List.cons_ne_nil _ _
        · exact Nat.toDigits_ne_nil
      have hmore : ∀ group' : List Char,
          group' ++ Sscanf.decimalText (rig.dsite site : Nat) ≠ [] :=
        fun group' h => hdigits (List.append_eq_nil_iff.mp h).2
      dsimp only at ih ⊢
      rw [Rig.modGroup]
      by_cases hb : regval.getLsbD (k.mshift + site - 1) = true
      · rw [if_pos (hbit.mpr hb),
          List.filter_cons_of_pos (p := fun site => regval.getLsbD (k.mshift + site - 1)) hb,
          if_neg (List.cons_ne_nil _ _), List.map_cons, listText]
        dsimp only
        rw [hhead]
        change rig.modGroup k.mshift regval sites
          (_ ++ Sscanf.decimalText (rig.dsite site : Nat)) = _
        rw [ih, if_neg (hmore _)]
        split
        · rename_i hnil
          rw [hnil, List.map_nil, if_pos rfl, List.append_nil]
        · rename_i hne
          rw [if_neg (fun h => hne (List.map_eq_nil_iff.mp h))]
          simp only [List.append_assoc, List.singleton_append]
      · rw [if_neg (fun h => hb (hbit.mp h)), ih,
          List.filter_cons_of_neg (p := fun site => regval.getLsbD (k.mshift + site - 1)) hb]

theorem siteGroup_eq (regval : BitVec 32) :
    (if rig.modGroup k.mshift regval [1, 2, 3, 4, 5, 6] [] = [] then "sites=none".toList
      else rig.modGroup k.mshift regval [1, 2, 3, 4, 5, 6] []) =
      (shownSiteWord rig k regval).text := by
  have hgroup := modGroup_eq rig k regval [1, 2, 3, 4, 5, 6] (by decide) []
  have hshown : ([1, 2, 3, 4, 5, 6].filter fun site => regval.getLsbD (k.mshift + site - 1)) =
      k.shownSites regval := rfl
  dsimp only at hgroup
  rw [hshown, if_pos rfl] at hgroup
  rw [hgroup]
  unfold shownSiteWord
  by_cases hnil : k.shownSites regval = []
  · rw [if_pos hnil, if_pos hnil, if_pos rfl]
    rfl
  · have hne : "sites=".toList ++ listText ((k.shownSites regval).map rig.dsite) ≠ [] :=
      fun h => absurd (List.append_eq_nil_iff.mp h).1 (by decide)
    rw [if_neg hnil, if_neg hnil, if_neg hne]
    rfl

theorem getAggThresholdBytes_eq (regval : BitVec 32) :
    rig.getAggThresholdBytes regval =
      (((thresholdSpan.get regval).toNat * rig.aggSizeUnit : Nat) : Int) := by
  have hmask : thresholdSpan.mask = aggSizeMask <<< aggSizeShl := by decide
  have hshift : aggSizeMask <<< aggSizeShl >>> aggSizeShl = aggSizeMask := by decide
  have hget : (regval >>> aggSizeShl) &&& aggSizeMask =
      thresholdSpan.get regval := by
    unfold Span.get
    rw [hmask]
    change _ = (regval &&& aggSizeMask <<< aggSizeShl) >>> aggSizeShl
    rw [BitVec.ushiftRight_and_distrib, hshift]
  unfold Rig.getAggThresholdBytes
  rw [hget]
  rfl

theorem shownMover_eq (regval : BitVec 32) :
    " DATA_MOVER_EN=".toList ++ (if regval &&& dataMoverEn ≠ 0 then "on" else "off").toList =
      ' ' :: (Word.enable true (regval.getLsbD 0)).text := by
  simp only [and_dataMoverEn]
  rfl

theorem shownField_eq (regval : BitVec 32) (group : List Char) :
    (if k.mshift = dataEngineMshift then
      group ++ ' ' :: (selText k.offset ++
        Sscanf.decimalText (if regval &&& deSelectAgg ≠ 0 then 1 else 0))
    else if k.mshift = aggregatorMshift then
      group ++ ' ' :: (thSel ++ Sscanf.decimalText (rig.getAggThresholdBytes regval))
    else group) = group ++ ' ' :: (shownField rig regval k).text := by
  cases k with
  | aggregator =>
      have hnat : ∀ n : Nat, Sscanf.decimalText n = Nat.toDigits 10 n := by
        intro n
        unfold Sscanf.decimalText
        rw [if_neg (by omega)]
        rfl
      have hmshift : Knob.aggregator.mshift = aggregatorMshift := rfl
      rw [hmshift, if_neg (by decide), if_pos rfl, getAggThresholdBytes_eq, hnat]
      rfl
  | dataEngine e =>
      have hmshift : (Knob.dataEngine e).mshift = dataEngineMshift := rfl
      rw [hmshift, if_pos rfl]
      simp only [and_deSelectAgg]
      unfold shownField
      cases regval.getLsbD 14 with
      | true => rfl
      | false => rfl

theorem showWords_eq (rig : Rig) (k : Knob) (regval : BitVec 32) (tail : List Char) :
    rig.showWords k.offset k.mshift regval ++ tail =
      unwords tail ((shownWords rig k regval).map Word.text) := by
  have hwords : unwords tail ((shownWords rig k regval).map Word.text) =
      ("reg=0x".toList ++ hexText regval) ++ ' ' :: ((shownSiteWord rig k regval).text ++
        ' ' :: ((shownField rig regval k).text ++
          ' ' :: ((Word.enable true (regval.getLsbD 0)).text ++ tail))) := rfl
  have hshown : rig.showWords k.offset k.mshift regval =
      "reg=0x".toList ++ hexText regval ++ ' ' :: ((shownSiteWord rig k regval).text ++
        ' ' :: (shownField rig regval k).text) ++
          ' ' :: (Word.enable true (regval.getLsbD 0)).text := by
    unfold Rig.showWords
    dsimp only
    rw [siteGroup_eq, shownField_eq, List.append_assoc, shownMover_eq]
  rw [hwords, hshown]
  simp only [List.append_assoc, List.cons_append]

theorem mem_shownSites {regval : BitVec 32} {site : Nat} :
    site ∈ k.shownSites regval ↔
      (1 ≤ site ∧ site ≤ 6) ∧ regval.getLsbD (k.mshift + site - 1) = true := by
  have hmem : site ∈ [1, 2, 3, 4, 5, 6] ↔ 1 ≤ site ∧ site ≤ 6 := by
    simp only [List.mem_cons, List.not_mem_nil, or_false]
    omega
  unfold Knob.shownSites
  rw [List.mem_filter, hmem]

theorem siteList_shown (regval : BitVec 32) :
    (shownSiteWord rig k regval).siteList rig =
      (k.shownSites regval).map fun site => rig.siteOf (rig.dsite site) := by
  unfold shownSiteWord
  split
  · rename_i hnil
    rw [hnil]
    rfl
  · exact List.map_map

/-- What a shown site is read as is read as itself. -/
theorem siteOf_dsite {site other : Nat} (h : rig.siteOf (rig.dsite other) = site) :
    rig.siteOf (rig.dsite site) = site := by
  unfold Rig.siteOf Rig.dsite at h ⊢
  cases hacq : rig.isAcq1001sc with
  | false => simp
  | true =>
      rw [hacq] at h
      simp only [true_and] at h ⊢
      repeat' split at h
      all_goals repeat' split
      all_goals omega

theorem dsite_range (rig : Rig) {site : Nat} (hsite : 1 ≤ site ∧ site ≤ 6) :
    1 ≤ rig.dsite site ∧ rig.dsite site ≤ 6 := by
  unfold Rig.dsite
  split
  · decide
  · exact hsite

theorem kind_shownSiteWord (regval : BitVec 32) :
    (shownSiteWord rig k regval).kind = .sites := by
  unfold shownSiteWord
  split
  · rfl
  · rfl

theorem kind_shownField (regval : BitVec 32) :
    (shownField rig regval k).kind = .threshold ∨ (shownField rig regval k).kind = .select := by
  cases k with
  | aggregator => exact .inl rfl
  | dataEngine e => exact .inr rfl

/-- What is shown is one of the texts, if its sites can be listed. -/
theorem shown_spells {regval : BitVec 32} {tail : List Char} (htail : tail ∈ ends)
    (hgood : ∀ site ∈ k.shownSites regval, (rig.dsite site : Int) ∈ rig.goodSites) :
    Spells rig k.May (rig.showWords k.offset k.mshift regval ++ tail)
      (shownWords rig k regval) := by
  have hsites : (shownSiteWord rig k regval).Fits rig ∧ k.May (shownSiteWord rig k regval) := by
    unfold shownSiteWord
    split
    · exact ⟨trivial, trivial⟩
    · refine ⟨fun d hd => ?_, trivial⟩
      obtain ⟨site, hsite, rfl⟩ := List.mem_map.mp hd
      have hrange := dsite_range rig (mem_shownSites.mp hsite).1
      exact ⟨hrange.1, hrange.2, hgood site hsite⟩
  have hfield : (shownField rig regval k).Fits rig ∧ k.May (shownField rig regval k) := by
    cases k with
    | aggregator =>
        exact ⟨⟨Nat.toDigits_ne_nil, fun c hc => Sscanf.toDigits_isDigit hc⟩, rfl⟩
    | dataEngine e => exact ⟨trivial, fun h => Knob.noConfusion h, rfl⟩
  refine ⟨⟨tail, htail, showWords_eq rig k regval tail⟩, ?_, ?_, ?_⟩
  · unfold shownWords
    simp only [List.forall_mem_cons]
    exact ⟨trivial, hsites.1, hfield.1, trivial, fun w hw => absurd hw List.not_mem_nil⟩
  · unfold shownWords
    simp only [List.forall_mem_cons]
    exact ⟨trivial, hsites.2, hfield.2, trivial, fun w hw => absurd hw List.not_mem_nil⟩
  · unfold shownWords
    simp only [List.map_cons, List.map_nil, kind_shownSiteWord]
    rcases kind_shownField regval with hkind | hkind
    · rw [hkind]
      exact (by decide : [Kind.label, .sites, .threshold, .enable].Nodup)
    · rw [hkind]
      exact (by decide : [Kind.label, .sites, .select, .enable].Nodup)

theorem mem_shownWords (rig : Rig) (k : Knob) (regval : BitVec 32) :
    shownSiteWord rig k regval ∈ shownWords rig k regval ∧
      shownField rig regval k ∈ shownWords rig k regval ∧
      Word.enable true (regval.getLsbD 0) ∈ shownWords rig k regval := by
  unfold shownWords
  simp

theorem aggSizeUnit_pos (rig : Rig) : 0 < rig.aggSizeUnit := by
  unfold Rig.aggSizeUnit
  repeat' split
  · decide
  · decide
  · decide

theorem aggSizeUnit_le (rig : Rig) : rig.aggSizeUnit ≤ 512 := by
  unfold Rig.aggSizeUnit
  repeat' split
  · decide
  · decide
  · decide

/-- A register that says what is shown has the bits that are shown. -/
theorem restored_of_named {regval : BitVec 32} {count : Nat} {res : AggStored}
    (hnamed : Named rig k agg (shownWords rig k regval) count res)
    (hsame : ∀ site ∈ k.shownSites regval, rig.siteOf (rig.dsite site) = site) :
    ∀ kind i, Kind.Has k kind i → res.agg.reg.getLsbD i = regval.getLsbD i := by
  obtain ⟨hsites, hfield, hmover⟩ := mem_shownWords rig k regval
  intro kind i hhas
  cases kind with
  | sites =>
      have hbits := ((holds_sites (kind_shownSiteWord regval)).mp (hnamed.holds _ hsites)).bits
      obtain ⟨hlow, hhigh⟩ : k.mshift ≤ i ∧ i < k.mshift + 6 := hhas
      have hplace : k.mshift + (i - k.mshift) = i := by omega
      have hbit := hbits (i - k.mshift) (by omega)
      rw [hplace, siteList_shown, List.map_congr_left hsame] at hbit
      rw [hbit, Bool.eq_iff_iff, decide_eq_true_iff]
      constructor
      · intro hmem
        obtain ⟨site, hsite, heq⟩ := List.mem_map.mp hmem
        have hshown := (mem_shownSites.mp hsite).2
        have hi : k.mshift + site - 1 = i := by omega
        rwa [hi] at hshown
      · intro hbit
        refine List.mem_map.mpr ⟨i - k.mshift + 1, mem_shownSites.mpr ⟨by omega, ?_⟩, by omega⟩
        have hi : k.mshift + (i - k.mshift + 1) - 1 = i := by omega
        rwa [hi]
  | threshold =>
      obtain ⟨rfl, hhas⟩ := hhas
      have hunit := aggSizeUnit_pos rig
      have hmax := aggSizeUnit_le rig
      have hlt := toNat_get_lt thresholdSpan regval
      have hwidth : 2 ^ thresholdSpan.width = 256 := rfl
      have hle : (thresholdSpan.get regval).toNat * rig.aggSizeUnit ≤ 255 * 512 :=
        Nat.mul_le_mul (by omega) hmax
      have hvalue : Sscanf.decimal (Nat.toDigits 10
          ((thresholdSpan.get regval).toNat * rig.aggSizeUnit)) =
            (thresholdSpan.get regval).toNat * rig.aggSizeUnit := by
        rw [Sscanf.decimal_eq, Nat.ofDigitChars_ten_toDigits]
      have hget := hnamed.holds _ hfield rfl (by rw [hvalue]; omega)
      rw [hvalue, Nat.mul_div_cancel _ hunit, Nat.min_eq_left (by omega)] at hget
      exact get_eq_iff.mp (BitVec.eq_of_toNat_eq hget) i hhas
  | select =>
      obtain ⟨hk, rfl⟩ := hhas
      cases k with
      | aggregator => exact absurd rfl hk
      | dataEngine e => exact hnamed.holds _ hfield
  | enable =>
      obtain rfl : i = 0 := hhas
      exact hnamed.holds _ hmover
  | _ => exact absurd hhas id

/-- A list that is shown is found again. -/
theorem sitesIn_shown (rig : Rig) {regval : BitVec 32} (hne : k.shownSites regval ≠ [])
    (tail : List Char) :
    ∃ rest, Stop rest ∧ rig.sitesIn (rig.showWords k.offset k.mshift regval ++ tail) =
      some (rig.listed (listText ((k.shownSites regval).map rig.dsite) ++ rest)) := by
  have hword : (shownSiteWord rig k regval).text =
      "sites=".toList ++ listText ((k.shownSites regval).map rig.dsite) := by
    unfold shownSiteWord
    rw [if_neg hne]
    rfl
  have hlabel := strstr_sites (show (Word.label regval).Fits rig from trivial)
  rw [if_neg (by simp [Word.kind])] at hlabel
  refine ⟨' ' :: ((shownField rig regval k).text ++
    ' ' :: ((Word.enable true (regval.getLsbD 0)).text ++ tail)), .inr ⟨_, rfl⟩, ?_⟩
  refine sitesIn_some ?_ (.inr ⟨_, rfl⟩)
  have hwords : unwords tail ((shownWords rig k regval).map Word.text) =
      (Word.label regval).text ++ ' ' :: ((shownSiteWord rig k regval).text ++
        ' ' :: ((shownField rig regval k).text ++
          ' ' :: ((Word.enable true (regval.getLsbD 0)).text ++ tail))) := rfl
  rw [showWords_eq, hwords, strstr_break (by decide) (by decide), hlabel, hword, List.append_assoc]
  exact strstr_prefix (by decide) _

/-- What cannot be read again is refused, or it is another site. -/
theorem unreadable_not_right {regval : BitVec 32} {tail : List Char} (htail : tail ∈ ends)
    (ht : t = rig.showWords k.offset k.mshift regval ++ tail) (h : Unreadable rig k regval) :
    ¬Right rig k agg t := by
  intro hright
  obtain ⟨hret, hbits⟩ := hright.restored regval tail htail ht
  obtain ⟨site, hsite, hbad⟩ := h
  by_cases hgood : ∀ site ∈ k.shownSites regval, (rig.dsite site : Int) ∈ rig.goodSites
  · -- an ACQ1001 has no site 4
    have hnamed := hright.named _ (ht ▸ shown_spells htail hgood)
    have hstored := ((holds_sites (kind_shownSiteWord regval)).mp
      (hnamed.holds _ (mem_shownWords rig k regval).1)).bits
    obtain ⟨hrange, hbit⟩ := mem_shownSites.mp hsite
    have hplace : k.mshift + (site - 1) = k.mshift + site - 1 := by omega
    have hagain := hstored (site - 1) (by omega)
    rw [hbits .sites _ (has_site (by omega)), hplace, hbit, siteList_shown] at hagain
    obtain ⟨other, -, heq⟩ := List.mem_map.mp (of_decide_eq_true hagain.symm)
    have hread : rig.siteOf (rig.dsite other) = site := by omega
    exact hbad ⟨hgood site hsite, siteOf_dsite hread⟩
  · have hne : k.shownSites regval ≠ [] := List.ne_nil_of_mem hsite
    obtain ⟨rest, hstop, hlisted⟩ := sitesIn_shown rig hne tail
    have hrange : ∀ d ∈ (k.shownSites regval).map rig.dsite, 1 ≤ d ∧ d ≤ 6 := by
      intro d hd
      obtain ⟨site, hsite, rfl⟩ := List.mem_map.mp hd
      exact dsite_range rig (mem_shownSites.mp hsite).1
    have hrefused := (listed_listText rig hrange hstop).2 fun hall =>
      hgood fun site hsite => hall _ (List.mem_map_of_mem hsite)
    have heta : rig.listed (listText ((k.shownSites regval).map rig.dsite) ++ rest) =
        (_, false) := Prod.ext rfl hrefused
    have hstored : (rig.storeAggReg k.offset k.mshift agg t).ret = -1 := by
      unfold Rig.storeAggReg
      rw [storeWords_eq, Rig.storeSites_eq, ht, hlisted, heta]
    rw [hstored] at hret
    omega

/--
**A text does what it says, or nothing, unless it is one of those that do something else.**  It
names `sites=none` and a mover word is found in it, or lists a good site without a device; it is
refused and has spoilt the set or the register; or it is shown for sites that it does not name.
-/
theorem storeAggReg_right_iff (rig : Rig) (k : Knob) (agg : Agg) (t : List Char) :
    Right rig k agg t ↔ ¬Wrong rig k agg t := by
  constructor
  · rintro hright (⟨ws, hspells, hbad⟩ | hspoils | ⟨regval, tail, htail, ht, hbad⟩)
    · exact (named_iff hspells).mp (hright.named ws hspells) hbad
    · exact spoils_not_right hspoils hright
    · exact unreadable_not_right htail ht hbad hright
  · intro h
    have hnamed : ∀ ws, Spells rig k.May t ws →
        Named rig k agg ws t.length (rig.storeAggReg k.offset k.mshift agg t) :=
      fun ws hspells => (named_iff hspells).mpr fun hbad => h (.inl ⟨ws, hspells, hbad⟩)
    refine ⟨hnamed, storeAggReg_refused fun hspoils => h (.inr (.inl hspoils)), ?_⟩
    intro regval tail htail ht
    have hreadable : ∀ site ∈ k.shownSites regval,
        (rig.dsite site : Int) ∈ rig.goodSites ∧ rig.siteOf (rig.dsite site) = site := by
      intro site hsite
      by_contra hbad
      exact h (.inr (.inr ⟨regval, tail, htail, ht, site, hsite, hbad⟩))
    have hspells := shown_spells htail fun site hsite => (hreadable site hsite).1
    have hdone := hnamed _ (ht ▸ hspells)
    refine ⟨hdone.ret ⟨_, (mem_shownWords rig k regval).1, ?_⟩,
      restored_of_named hdone fun site hsite => (hreadable site hsite).2⟩
    rw [kind_shownSiteWord]
    decide

/-- An ACQ2106 with a module in every site. -/
def acq2106 : Rig :=
  { isAcq1001sc := false, isAcq2006sc := false, fpgaRev := 0, isAxi := true,
    goodSites := [1, 2, 3, 4, 5, 6],
    devices := [some 0, some 1, some 2, some 3, some 4, some 5, some 6] }

/-- To have no sites enables the data mover. -/
theorem none_not_right : ¬∀ (rig : Rig) (k : Knob) (agg : Agg) (t : List Char),
    Right rig k agg t := by
  intro h
  have hspells : Spells acq2106 (Knob.May .aggregator) "sites=none".toList [.noSites] :=
    ⟨⟨[], by decide, rfl⟩, List.forall_mem_singleton.mpr trivial,
      List.forall_mem_singleton.mpr trivial, by decide⟩
  have hkept := ((h acq2106 .aggregator ⟨0, []⟩ _).named _ hspells).kept 0 fun w hw => by
    rw [List.mem_singleton.mp hw]
    exact fun hhas => absurd hhas.1 (by decide)
  rw [storeAggReg_noSites _ hspells List.mem_cons_self] at hkept
  exact absurd hkept (by decide)

end AggReg

end Acq400
