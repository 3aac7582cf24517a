/-
What the composer puts out.

A segment has a row for every word of its longest template, and a channel has the last template
that names it.  The pattern that a definition is scanned with matches in part as well, and then the
number is taken without what is behind it.  The tables are cleared with one byte more than they
have, whatever the segment is.
-/
import Acq400.Awg.AwgComposer

namespace Acq400

namespace AwgComposer

variable {T : Type} {segdef : List Char}

/-! ### What a definition means -/

/-- The name of a segment has no white space. -/
def IsName (name : List Char) : Prop := name ≠ [] ∧ ∀ c ∈ name, CText.isSpace c = false

instance (name : List Char) : Decidable (IsName name) :=
  decidable_of_iff (name ≠ [] ∧ name.all (fun c => !CText.isSpace c) = true)
    (by simp [IsName])

/-- How often a definition has its segment, and its name. -/
def meaning (segdef : List Char) : Nat × List Char :=
  match segdef.dropWhile Char.isDigit with
  | '*' :: name =>
    if segdef.takeWhile Char.isDigit ≠ [] ∧ IsName name then
      (Sscanf.decimal (segdef.takeWhile Char.isDigit), name)
    else (1, segdef)
  | _ => (1, segdef)

/-- The definitions that are scanned as they are meant. -/
inductive Plain : List Char → Prop
  /-- A number that is an `int`, and a name that fits. -/
  | times {digits name : List Char} : Sscanf.IsDigits digits → IsName name →
      Sscanf.decimal digits ≤ 2147483647 → name.length < segnameSize → Plain (digits ++ '*' :: name)
  /-- A name that does not begin with a number. -/
  | name {segdef : List Char} : CText.int segdef = none → Plain segdef
  /-- A name that begins with the number 1. -/
  | one {segdef rest : List Char} : CText.int segdef = some (1, rest) →
      (∀ rest', rest = '*' :: rest' → ∀ c ∈ rest', CText.isSpace c = true) → Plain segdef

theorem meaning_times {digits name : List Char} (hdigits : Sscanf.IsDigits digits)
    (hname : IsName name) :
    meaning (digits ++ '*' :: name) = (Sscanf.decimal digits, name) := by
  obtain ⟨htake, hdrop⟩ := Sscanf.takeWhile_append_stop hdigits.2
    (fun c hc => by obtain rfl := Option.some.inj hc; rfl : ∀ c,
      ('*' :: name).head? = some c → c.isDigit = false)
  unfold meaning
  rw [hdrop, htake]
  exact if_pos ⟨hdigits.1, hname⟩

theorem meaning_cases (segdef : List Char) :
    (∃ digits name, segdef = digits ++ '*' :: name ∧ Sscanf.IsDigits digits ∧ IsName name) ∨
      meaning segdef = (1, segdef) := by
  have hsplit := List.takeWhile_append_dropWhile (p := Char.isDigit) (l := segdef)
  unfold meaning
  split
  · rename_i name hdrop
    rw [hdrop] at hsplit
    by_cases hform : segdef.takeWhile Char.isDigit ≠ [] ∧ IsName name
    · exact .inl ⟨_, name, hsplit.symm,
        ⟨hform.1, fun c hc => List.mem_takeWhile_imp hc⟩, hform.2⟩
    · exact .inr (if_neg hform)
  · exact .inr rfl

theorem int_times {digits name : List Char} (hdigits : Sscanf.IsDigits digits) :
    CText.int (digits ++ '*' :: name) =
      some (max (-2147483648) (min (Sscanf.decimal digits : Int) 2147483647), '*' :: name) := by
  obtain ⟨htake, hdrop⟩ := Sscanf.takeWhile_append_stop hdigits.2
    (fun c hc => by obtain rfl := Option.some.inj hc; rfl : ∀ c,
      ('*' :: name).head? = some c → c.isDigit = false)
  obtain ⟨d, ds, rfl⟩ := List.exists_cons_of_ne_nil hdigits.1
  have hd := hdigits.2 d List.mem_cons_self
  have hminus : d ≠ '-' := fun h => absurd (h ▸ hd) (by decide)
  have hplus : d ≠ '+' := fun h => absurd (h ▸ hd) (by decide)
  have hsign : CText.sign (d :: ds ++ '*' :: name) = (false, d :: ds ++ '*' :: name) := by
    have hspace : CText.isSpace d = false := CText.isDigit_not_space hd
    unfold CText.sign
    rw [List.cons_append, List.dropWhile_cons_of_neg (by simp [hspace])]
    simp [hminus, hplus]
  unfold CText.int
  rw [hsign]
  dsimp only
  rw [htake, hdrop, if_neg hdigits.1]
  rfl

theorem word_name {name : List Char} (hname : IsName name) :
    CText.word name.length name = some (name, []) := by
  obtain ⟨c, cs, rfl⟩ := List.exists_cons_of_ne_nil hname.1
  have hspaces : (c :: cs).dropWhile CText.isSpace = c :: cs :=
    List.dropWhile_cons_of_neg (by simp [hname.2 c List.mem_cons_self])
  have hall : (c :: cs).takeWhile (fun d => !CText.isSpace d) = c :: cs := by
    rw [List.takeWhile_eq_self_iff]
    intro d hd
    simp [hname.2 d hd]
  unfold CText.word
  simp only [hspaces, List.take_length, hall, List.drop_length]
  rfl

theorem factory_times {digits name : List Char} (hdigits : Sscanf.IsDigits digits)
    (hname : IsName name) :
    factory (digits ++ '*' :: name) =
      if segnameSize < name.length + 1 then none
      else some (max (-2147483648) (min (Sscanf.decimal digits : Int) 2147483647), name) := by
  have hlit : Sscanf.lit ['*'] ('*' :: name) = some name := rfl
  unfold factory
  simp only [int_times hdigits, hlit, Option.bind_some, word_name hname]

theorem plain_of_factory {segdef : List Char}
    (h : factory segdef = some (((meaning segdef).1 : Int), (meaning segdef).2)) :
    Plain segdef := by
  rcases meaning_cases segdef with ⟨digits, name, rfl, hdigits, hname⟩ | hmeaning
  · rw [factory_times hdigits hname, meaning_times hdigits hname] at h
    obtain ⟨hfits, heq⟩ := Option.ite_none_left_eq_some.mp h
    have hnum := (Prod.mk.inj (Option.some.inj heq)).1
    dsimp only at hnum
    exact .times hdigits hname (by omega) (Nat.lt_of_succ_le (Nat.le_of_not_lt hfits))
  · rw [hmeaning] at h
    cases hint : CText.int segdef with
    | none => exact .name hint
    | some p =>
        obtain ⟨reps, rest⟩ := p
        have hlength := CText.int_length hint
        unfold factory at h
        rw [hint] at h
        dsimp only at h
        split at h
        · rename_i hnone
          obtain rfl := (Prod.mk.inj (Option.some.inj h)).1
          refine .one hint fun rest' hrest => ?_
          subst hrest
          exact CText.word_eq_none.mp hnone
        · rename_i segname behind hsome
          obtain ⟨rest', hlit, hword⟩ := Option.bind_eq_some_iff.mp hsome
          obtain ⟨-, heq⟩ := Option.ite_none_left_eq_some.mp h
          -- the name is what is behind the number, so it is not all of the definition
          obtain rfl := (Prod.mk.inj (Option.some.inj heq)).2
          have hname := CText.word_length hword
          have hstar := congrArg List.length (Sscanf.lit_eq_some.mp hlit)
          rw [List.length_append, List.length_singleton] at hstar
          omega

theorem no_name {rest : List Char}
    (h : ∀ rest', rest = '*' :: rest' → ∀ c ∈ rest', CText.isSpace c = true) :
    (Sscanf.lit ['*'] rest).bind (fun rest => CText.word rest.length rest) = none := by
  rw [Option.bind_eq_none_iff]
  intro rest' hlit
  exact CText.word_eq_none.mpr (h rest' (Sscanf.lit_eq_some.mp hlit))

theorem factory_of_plain {segdef : List Char} (h : Plain segdef) :
    factory segdef = some (((meaning segdef).1 : Int), (meaning segdef).2) := by
  cases h with
  | @times digits name hdigits hname hmax hfits =>
      rw [factory_times hdigits hname, meaning_times hdigits hname,
        if_neg (Nat.not_lt.mpr (Nat.succ_le_of_lt hfits))]
      congr 2
      dsimp only
      omega
  | name hint =>
      rcases meaning_cases segdef with ⟨digits, name, rfl, hdigits, -⟩ | hmeaning
      · rw [int_times hdigits] at hint
        cases hint
      · unfold factory
        rw [hint, hmeaning]
        rfl
  | @one _ rest hint hrest =>
      rcases meaning_cases segdef with ⟨digits, name, rfl, hdigits, hname⟩ | hmeaning
      · rw [int_times hdigits] at hint
        obtain rfl := (Prod.mk.inj (Option.some.inj hint)).2
        obtain ⟨c, cs, rfl⟩ := List.exists_cons_of_ne_nil hname.1
        have hspace := hrest _ rfl c List.mem_cons_self
        rw [hname.2 c List.mem_cons_self] at hspace
        cases hspace
      · unfold factory
        rw [hint, hmeaning]
        dsimp only
        rw [no_name hrest]
        rfl

/-- Of the number and the name, the code has what is meant exactly where the definition is
plain. -/
theorem factory_iff (segdef : List Char) :
    factory segdef = some (((meaning segdef).1 : Int), (meaning segdef).2) ↔ Plain segdef :=
  ⟨plain_of_factory, factory_of_plain⟩

/-! ### The matrix of a segment -/

/-- The template of a channel is the last one that names it. -/
def template (templates : List (TemplateFile T)) (ic : Nat) : Option (TemplateFile T) :=
  (templates.filter fun tt => tt.chan = (ic : Int) + 1).getLast?

/-- The word of a row: of the template, or its last one if it is shorter. -/
def entry [Zero T] (templates : List (TemplateFile T)) (sam ic : Nat) : T :=
  match template templates ic with
  | none => 0
  | some tt => (tt.words[sam]?.or tt.words.getLast?).getD 0

/-- The length of the longest template. -/
def rows (templates : List (TemplateFile T)) : Nat :=
  (templates.map fun tt => tt.words.length).foldr max 0

/-- The matrix of a segment, row by row. -/
def matrix [Zero T] (templateFiles : List (TemplateFile T)) (nchan : Nat) (name : List Char) :
    List T :=
  let templates := templateFiles.filter fun tt => tt.seg = name
  (List.range (rows templates)).flatMap fun sam => (List.range nchan).map (entry templates sam)

/-- What is to be put out. -/
def pattern [Zero T] (templateFiles : List (TemplateFile T)) (nchan : Nat)
    (segdefs : List (List Char)) (nreps : Int) : List T :=
  (List.replicate nreps.toNat (segdefs.flatMap fun segdef =>
    (List.replicate (meaning segdef).1
      (matrix templateFiles nchan (meaning segdef).2)).flatten)).flatten

/-- An access is within the entries of its table. -/
def Access.Within (nchan : Nat) (a : Access) : Prop := a.first + a.bytes ≤ entrySize * nchan

/-- The channel of a template is one of the table. -/
def InRange (nchan : Nat) (tt : TemplateFile T) : Prop := 0 < tt.chan ∧ tt.chan ≤ nchan

variable {nchan : Nat} {templates : List (TemplateFile T)}

theorem entry_within {ic : Nat} (h : ic < nchan) (table : Table) :
    (Access.entry table ic).Within nchan := by
  unfold Access.entry Access.Within entrySize
  dsimp only
  omega

/-- What has been read: every channel has its last template. -/
structure ReadOf (templates : List (TemplateFile T)) (seg0 seg : Loaded T) (nchan : Nat) :
    Prop where
  channels : ∀ c, seg.channels c =
    ((template templates c).map TemplateFile.words).getD (seg0.channels c)
  chLen : ∀ c, seg.chLen c =
    ((template templates c).map fun tt => tt.words.length).getD (seg0.chLen c)
  maxLenw : seg.maxLenw = max seg0.maxLenw (rows templates)
  accesses : ∀ a ∈ seg.accesses, a ∈ seg0.accesses ∨ a.Within nchan

theorem template_cons (tt : TemplateFile T) (templates : List (TemplateFile T)) (ic : Nat) :
    template (tt :: templates) ic =
      (template templates ic).or (if tt.chan = (ic : Int) + 1 then some tt else none) := by
  unfold template
  rw [List.filter_cons]
  by_cases h : tt.chan = (ic : Int) + 1
  · rw [if_pos (by simpa using h), if_pos h, List.getLast?_cons]
    cases (templates.filter fun tt => decide (tt.chan = (ic : Int) + 1)).getLast? <;> rfl
  · rw [if_neg (by simpa using h), if_neg h, Option.or_none]

theorem read_some {tt : TemplateFile T} (hpos : 0 < tt.chan) (hle : tt.chan ≤ nchan)
    (seg0 : Loaded T) : ∃ seg, seg0.read nchan tt = some seg := by
  unfold Loaded.read
  rw [if_neg (not_not.mpr hle), if_neg (not_not.mpr hpos)]
  exact ⟨_, rfl⟩

theorem read_spec {tt : TemplateFile T} (hpos : 0 < tt.chan) (hle : tt.chan ≤ nchan)
    {seg0 seg : Loaded T} (h : seg0.read nchan tt = some seg) :
    (∀ c : Nat, seg.channels c =
      if tt.chan = (c : Int) + 1 then tt.words else seg0.channels c) ∧
      (∀ c : Nat, seg.chLen c =
        if tt.chan = (c : Int) + 1 then tt.words.length else seg0.chLen c) ∧
      seg.maxLenw = max seg0.maxLenw tt.words.length ∧
      ∀ a ∈ seg.accesses, a ∈ seg0.accesses ∨ a.Within nchan := by
  have hic : ∀ c : Nat, c = (tt.chan - 1).toNat ↔ tt.chan = (c : Int) + 1 := by
    intro c
    omega
  unfold Loaded.read at h
  rw [if_neg (not_not.mpr hle), if_neg (not_not.mpr hpos)] at h
  obtain rfl := Option.some.inj h
  refine ⟨fun c => ?_, fun c => ?_, ?_, fun a ha => ?_⟩
  · simp only [hic]
  · simp only [hic]
  · dsimp only
    split <;> omega
  · dsimp only at ha
    rcases List.mem_append.mp ha with hin | hnew
    · exact .inl hin
    · have hlt : (tt.chan - 1).toNat < nchan := by omega
      rcases List.mem_pair.mp hnew with rfl | rfl
      · exact .inr (entry_within hlt _)
      · exact .inr (entry_within hlt _)

theorem readAll_spec (h : ∀ tt ∈ templates, InRange nchan tt) :
    ∀ seg0 : Loaded T, ∃ seg, seg0.readAll nchan templates = some seg ∧
      ReadOf templates seg0 seg nchan := by
  induction templates with
  | nil =>
      intro seg0
      refine ⟨seg0, rfl, fun c => rfl, fun c => rfl, (Nat.max_zero _).symm, fun a ha => .inl ha⟩
  | cons tt templates ih =>
      intro seg0
      obtain ⟨hpos, hle⟩ := h tt List.mem_cons_self
      obtain ⟨seg1, hseg1⟩ := read_some hpos hle seg0
      obtain ⟨hchannels, hlen, hmax, haccesses⟩ := read_spec hpos hle hseg1
      obtain ⟨seg, hseg, hread⟩ := ih (fun t ht => h t (List.mem_cons_of_mem _ ht)) seg1
      refine ⟨seg, ?_, fun c => ?_, fun c => ?_, ?_, fun a ha => ?_⟩
      · rw [Loaded.readAll, hseg1, Option.bind_some, hseg]
      · rw [hread.channels, hchannels, template_cons]
        cases template templates c with
        | some t => rfl
        | none =>
            rw [Option.none_or]
            split <;> rfl
      · rw [hread.chLen, hlen, template_cons]
        cases template templates c with
        | some t => rfl
        | none =>
            rw [Option.none_or]
            split <;> rfl
      · rw [hread.maxLenw, hmax]
        unfold rows
        rw [List.map_cons, List.foldr_cons, Nat.max_assoc]
      · rcases hread.accesses a ha with hin | hwithin
        · exact haccesses a hin
        · exact .inr hwithin

variable [Zero T]

theorem yy_eq {sizeofT : Nat} {seg : Loaded T}
    (h : ReadOf templates (Loaded.start sizeofT nchan) seg nchan) (sam ic : Nat) :
    seg.yy sam ic = entry templates sam ic := by
  have hchannels := h.channels ic
  have hlen := h.chLen ic
  unfold Loaded.yy entry
  cases htemplate : template templates ic with
  | none =>
      rw [htemplate] at hlen
      exact if_pos hlen
  | some tt =>
      rw [htemplate, Option.map_some, Option.getD_some] at hchannels hlen
      dsimp only
      rw [hchannels, hlen]
      by_cases hempty : tt.words.length = 0
      · rw [if_pos hempty, List.length_eq_zero_iff.mp hempty]
        rfl
      · rw [if_neg hempty]
        by_cases hshort : sam ≥ tt.words.length
        · rw [if_pos hshort, List.getElem?_eq_none hshort, Option.none_or,
            List.getLast?_eq_getElem?]
        · rw [if_neg hshort, List.getElem?_eq_getElem (Nat.lt_of_not_le hshort)]
          rfl

/-- The two tables are cleared first. -/
def IsClearing (sizeofT nchan : Nat) (a : Access) : Prop :=
  a ∈ (Loaded.start sizeofT nchan : Loaded T).accesses

/-- A segment has its matrix, and but for the clearing the tables are kept to. -/
theorem getTemplates_spec {templateFiles : List (TemplateFile T)} {name : List Char}
    (h : ∀ tt ∈ templateFiles, tt.seg = name → InRange nchan tt) (sizeofT : Nat) (reps : Int) :
    ∃ segment, getTemplates templateFiles sizeofT nchan reps name = some segment ∧
      segment.reps = reps ∧ segment.data = matrix templateFiles nchan name ∧
        ∀ a ∈ segment.accesses, IsClearing (T := T) sizeofT nchan a ∨ a.Within nchan := by
  have hused : ∀ tt ∈ templateFiles.filter fun tt => tt.seg = name, InRange nchan tt := by
    intro tt htt
    obtain ⟨hmem, hseg⟩ := List.mem_filter.mp htt
    exact h tt hmem (by simpa using hseg)
  obtain ⟨seg, hseg, hread⟩ := readAll_spec hused (Loaded.start sizeofT nchan)
  have hmax : seg.maxLenw = rows (templateFiles.filter fun tt => tt.seg = name) := by
    rw [hread.maxLenw]
    exact Nat.zero_max _
  unfold getTemplates
  dsimp only
  rw [hseg]
  refine ⟨_, rfl, rfl, ?_, fun a ha => ?_⟩
  · unfold matrix
    rw [hmax]
    refine congrArg (List.flatMap · _) (funext fun sam => ?_)
    exact List.map_congr_left fun ic _ => yy_eq hread sam ic
  · rcases List.mem_append.mp ha with hin | hloop
    · exact hread.accesses a hin
    · obtain ⟨sam, -, hrow⟩ := List.mem_flatMap.mp hloop
      obtain ⟨ic, hic, hentry⟩ := List.mem_flatMap.mp hrow
      have hlt := List.mem_range.mp hic
      unfold Loaded.yyAccesses at hentry
      split at hentry
      · rw [List.mem_singleton.mp hentry]
        exact .inr (entry_within hlt _)
      · rcases List.mem_pair.mp hentry with rfl | rfl
        · exact .inr (entry_within hlt _)
        · exact .inr (entry_within hlt _)

/-! ### The output -/

/-- The pattern is put out, and the tables are kept to. -/
def Right (templateFiles : List (TemplateFile T)) (sizeofT nchan : Nat)
    (segdefs : List (List Char)) (nreps : Int) : Prop :=
  ∃ segs, segments templateFiles sizeofT nchan segdefs = some segs ∧
    output segs nreps = pattern templateFiles nchan segdefs nreps ∧
      ∀ segment ∈ segs, ∀ a ∈ segment.accesses, a.Within nchan

/-- The pattern is put out, and but for the clearing the tables are kept to. -/
def PutOut (templateFiles : List (TemplateFile T)) (sizeofT nchan : Nat)
    (segdefs : List (List Char)) (nreps : Int) : Prop :=
  ∃ segs, segments templateFiles sizeofT nchan segdefs = some segs ∧
    output segs nreps = pattern templateFiles nchan segdefs nreps ∧
      ∀ segment ∈ segs, ∀ a ∈ segment.accesses,
        IsClearing (T := T) sizeofT nchan a ∨ a.Within nchan

variable {templateFiles : List (TemplateFile T)} {segdefs : List (List Char)}

theorem clearing_accesses {sizeofT : Nat} {reps : Int} {name : List Char}
    {segment : ConcreteSegment T}
    (h : getTemplates templateFiles sizeofT nchan reps name = some segment) :
    { table := .chLen, first := 0, bytes := entrySize * nchan + 1 } ∈ segment.accesses := by
  have hkept : ∀ (l : List (TemplateFile T)) (seg0 seg : Loaded T),
      seg0.readAll nchan l = some seg → ∀ a ∈ seg0.accesses, a ∈ seg.accesses := by
    intro l
    induction l with
    | nil =>
        intro seg0 seg hread a ha
        obtain rfl := Option.some.inj hread
        exact ha
    | cons tt l ih =>
        intro seg0 seg hread a ha
        obtain ⟨seg1, hone, hrest⟩ := Option.bind_eq_some_iff.mp hread
        refine ih seg1 seg hrest a ?_
        unfold Loaded.read at hone
        obtain ⟨-, hone⟩ := Option.ite_none_left_eq_some.mp hone
        obtain ⟨-, hone⟩ := Option.ite_none_left_eq_some.mp hone
        obtain rfl := Option.some.inj hone
        exact List.mem_append_left _ ha
  obtain ⟨seg, hread, heq⟩ := Option.bind_eq_some_iff.mp h
  obtain rfl := Option.some.inj heq
  refine List.mem_append_left _ (hkept _ _ _ hread _ ?_)
  exact List.mem_cons_of_mem _ List.mem_cons_self

theorem segments_spec (sizeofT : Nat) (hplain : ∀ segdef ∈ segdefs, Plain segdef)
    (h : ∀ tt ∈ templateFiles, ∀ segdef ∈ segdefs, tt.seg = (meaning segdef).2 →
      InRange nchan tt) :
    ∃ segs, segments templateFiles sizeofT nchan segdefs = some segs ∧
      segs.flatMap ConcreteSegment.emit = segdefs.flatMap (fun segdef =>
        (List.replicate (meaning segdef).1
          (matrix templateFiles nchan (meaning segdef).2)).flatten) ∧
      ∀ segment ∈ segs, ∀ a ∈ segment.accesses,
        IsClearing (T := T) sizeofT nchan a ∨ a.Within nchan := by
  induction segdefs with
  | nil => exact ⟨[], rfl, rfl, fun segment hmem => absurd hmem List.not_mem_nil⟩
  | cons segdef segdefs ih =>
      obtain ⟨segs, hsegs, hemit, haccesses⟩ :=
        ih (fun d hd => hplain d (List.mem_cons_of_mem _ hd))
          fun tt htt d hd => h tt htt d (List.mem_cons_of_mem _ hd)
      obtain ⟨segment, hsegment, hreps, hdata, hkept⟩ :=
        getTemplates_spec (fun tt htt hseg => h tt htt segdef List.mem_cons_self hseg) sizeofT
          ((meaning segdef).1 : Int)
      refine ⟨segment :: segs, ?_, ?_, fun s hs => ?_⟩
      · unfold segments
        rw [(factory_iff segdef).mpr (hplain segdef List.mem_cons_self)]
        dsimp only [Option.bind_eq_bind, Option.bind_some]
        rw [hsegment, hsegs]
        rfl
      · rw [List.flatMap_cons, List.flatMap_cons, hemit]
        unfold ConcreteSegment.emit
        rw [hreps, hdata, Int.toNat_natCast]
      · rcases List.mem_cons.mp hs with rfl | hin
        · exact hkept
        · exact haccesses s hin

/--
**With a definition, a table is never kept to.**  The pattern is put out where the definitions are
plain, and with them the tables are kept to but for the clearing.
-/
theorem composer_right_iff (templateFiles : List (TemplateFile T)) (sizeofT nchan : Nat)
    (segdefs : List (List Char)) (nreps : Int) :
    (Right templateFiles sizeofT nchan segdefs nreps ↔ segdefs = []) ∧
      (∀ segdef, factory segdef = some (((meaning segdef).1 : Int), (meaning segdef).2) ↔
        Plain segdef) ∧
      ((∀ segdef ∈ segdefs, Plain segdef) →
        (∀ tt ∈ templateFiles, ∀ segdef ∈ segdefs, tt.seg = (meaning segdef).2 →
          InRange nchan tt) →
        PutOut templateFiles sizeofT nchan segdefs nreps) := by
  refine ⟨⟨fun h => ?_, fun h => ?_⟩, factory_iff, fun hplain h => ?_⟩
  · obtain ⟨segs, hsegs, -, haccesses⟩ := h
    cases segdefs with
    | nil => rfl
    | cons segdef segdefs =>
        unfold segments at hsegs
        obtain ⟨⟨reps, name⟩, -, hrest⟩ := Option.bind_eq_some_iff.mp hsegs
        obtain ⟨segment, hsegment, hrest⟩ := Option.bind_eq_some_iff.mp hrest
        obtain ⟨rest, -, heq⟩ := Option.bind_eq_some_iff.mp hrest
        obtain rfl := Option.some.inj heq
        have hwithin := haccesses segment List.mem_cons_self _ (clearing_accesses hsegment)
        unfold Access.Within at hwithin
        dsimp only at hwithin
        omega
  · subst h
    refine ⟨[], rfl, ?_, fun segment hmem => absurd hmem List.not_mem_nil⟩
    rfl
  · obtain ⟨segs, hsegs, hemit, haccesses⟩ := segments_spec sizeofT hplain h
    refine ⟨segs, hsegs, ?_, haccesses⟩
    unfold output pattern
    rw [hemit]

/-- A manifest of two segments. -/
def manifest : List (TemplateFile (BitVec 16)) :=
  [⟨"AA".toList, 1, [1, 2]⟩, ⟨"AA".toList, 2, [3]⟩, ⟨"BB".toList, 2, [4]⟩]

theorem two_segments_put_out :
    PutOut manifest 2 2 ["2*AA".toList, "BB".toList] 1 := by
  refine (composer_right_iff manifest 2 2 ["2*AA".toList, "BB".toList] 1).2.2
    (fun segdef hsegdef => ?_) fun tt htt _ _ _ => ?_
  · rcases List.mem_pair.mp hsegdef with rfl | rfl
    · have htwo : Sscanf.IsDigits ['2'] := ⟨List.cons_ne_nil _ _, List.forall_mem_singleton.mpr rfl⟩
      exact Plain.times htwo (by decide : IsName "AA".toList) (by decide) (by decide)
    · exact .name (by decide)
  · have hall : ∀ tt ∈ manifest, 0 < tt.chan ∧ tt.chan ≤ (2 : Nat) := by decide
    exact hall tt htt

/-- Nine bytes are cleared of a table of eight. -/
theorem segment_not_right :
    ¬∀ (templateFiles : List (TemplateFile (BitVec 16))) (sizeofT nchan : Nat)
      (segdefs : List (List Char)) (nreps : Int), 1 ≤ nchan →
      (∀ tt ∈ templateFiles, 0 < tt.chan ∧ tt.chan ≤ nchan) →
      Right templateFiles sizeofT nchan segdefs nreps := by
  intro h
  obtain ⟨segs, hsegs, -, haccesses⟩ := h manifest 2 2 ["BB".toList] 1 (by decide) (by decide)
  have hcleared : (segments manifest 2 2 ["BB".toList]).map (fun segs =>
      segs.map fun segment => decide (⟨.chLen, 0, 9⟩ ∈ segment.accesses)) = some [true] := by
    decide
  rw [hsegs, Option.map_some] at hcleared
  obtain ⟨segment, rest, rfl, hmem, -⟩ := List.map_eq_cons_iff.mp (Option.some.inj hcleared)
  have hwithin := haccesses segment List.mem_cons_self _ (of_decide_eq_true hmem)
  exact absurd hwithin (by unfold Access.Within; decide)

end AwgComposer

end Acq400
