/-
What a list of channels selects.

The tokens of a definition are the texts between its separators.  Each of them is a range, `bounds`,
and marks the part of the range that is in 1..nchan, so a definition marks what its tokens name, and
its channels are counted up to `nchan`: an array of only `nchan` numbers is left at the last one.

A sample of a block gives the marked channels in their order.  What is left over at the end of a
block is taken for a sample too.
-/
import Acq400.Lib.Run
import Acq400.Stream.ChannelRange
import Mathlib.Data.List.GetD

namespace Acq400

namespace ChannelRange

/-! ### Definitions of channels -/

/-- A number as it is written. -/
structure Number where
  digits : List Char
  isDigits : Sscanf.IsDigits digits

/-- What stands between the ends of a range. -/
inductive Mid
  | dash
  | colon

def Mid.char : Mid → Char
  | dash => '-'
  | colon => ':'

/-- `N`, or a range that may be open at either end. -/
inductive Token
  | one (n : Number)
  | range (n : Option Number) (mid : Mid) (m : Option Number)

def Number.text (n : Option Number) : List Char := n.elim [] Number.digits

def Number.value (n : Number) : Nat := Sscanf.decimal n.digits

def Token.text : Token → List Char
  | one n => n.digits
  | range n mid m => Number.text n ++ mid.char :: Number.text m

/-- The channels that a token names. -/
def Token.Names : Token → Nat → Prop
  | one n, c => n.value = c
  | range n _ m, c => (∀ l ∈ n, l.value ≤ c) ∧ ∀ r ∈ m, c ≤ r.value

/-- A definition is made of its tokens: there are separators between them. -/
inductive Made : List Token → List Char → Prop
  | nil : Made [] []
  | sep {ts : List Token} {text : List Char} {c : Char} (hsep : isSep c = true)
      (rest : Made ts text) : Made ts (c :: text)
  | token {ts : List Token} {text : List Char} (t : Token)
      (hend : ∀ c, text.head? = some c → isSep c = true) (rest : Made ts text) :
      Made (t :: ts) (t.text ++ text)

/-! ### The tokens -/

variable {cmax : Nat} {channels : List Int}

theorem digit_ne {c s : Char} (hs : s.isDigit = false) (hc : c.isDigit = true) : c ≠ s := by
  rintro rfl
  rw [hc] at hs
  exact Bool.noConfusion hs

theorem Number.digit_of_mem {n : Option Number} {c : Char} (hc : c ∈ Number.text n) :
    c.isDigit = true := by
  cases n with
  | none => exact absurd hc List.not_mem_nil
  | some n => exact n.isDigits.2 c hc

theorem isSep_digit {c : Char} (hc : c.isDigit = true) : isSep c = false := by
  unfold isSep
  rw [decide_eq_false (digit_ne (by decide) hc), decide_eq_false (digit_ne (by decide) hc)]
  rfl

theorem Token.not_sep (t : Token) : ∀ c ∈ t.text, isSep c = false := by
  intro c hc
  cases t with
  | one n => exact isSep_digit (n.isDigits.2 c hc)
  | range n mid m =>
      unfold Token.text at hc
      rw [List.mem_append, List.mem_cons] at hc
      rcases hc with hc | rfl | hc
      · exact isSep_digit (Number.digit_of_mem hc)
      · cases mid with
        | dash => rfl
        | colon => rfl
      · exact isSep_digit (Number.digit_of_mem hc)

theorem Token.text_ne_nil (t : Token) : t.text ≠ [] := by
  cases t with
  | one n => exact n.isDigits.1
  | range n mid m => exact List.append_ne_nil_of_right_ne_nil _ (List.cons_ne_nil _ _)

theorem tokens_sep {c : Char} (hc : isSep c = true) (text : List Char) :
    tokens (c :: text) = tokens text := by
  unfold tokens
  rw [List.splitOnP_cons_eq_if_modifyHead, if_pos hc, List.filter_cons_of_neg (by simp)]

/-- A token goes up to the first separator. -/
theorem tokens_append {tok text : List Char} (hne : tok ≠ []) (htok : ∀ c ∈ tok, isSep c = false)
    (hend : ∀ c, text.head? = some c → isSep c = true) :
    tokens (tok ++ text) = tok :: tokens text := by
  cases text with
  | nil =>
      unfold tokens
      rw [List.append_nil, List.splitOnP_eq_singleton htok, List.splitOnP_nil,
        List.filter_cons_of_pos (by simpa using hne)]
      rfl
  | cons c text =>
      have hc := hend c rfl
      rw [tokens_sep hc]
      unfold tokens
      rw [List.splitOnP_append_cons_of_forall_mem htok c hc,
        List.filter_cons_of_pos (by simpa using hne)]

theorem Made.tokens_eq {ts : List Token} {text : List Char} (h : Made ts text) :
    tokens text = ts.map Token.text := by
  induction h with
  | nil => rfl
  | sep hsep _ ih => rw [tokens_sep hsep, ih]
  | token t hend _ ih => rw [tokens_append t.text_ne_nil t.not_sep hend, ih, List.map_cons]

/-! ### The range of a token -/

/-- Where the range of a text begins and ends. -/
def bounds (cmax : Nat) (range : List Char) : Int × Int :=
  match (index range '-').or (index range ':') with
  | some ranger =>
    (if ranger = 0 then 1 else CText.atoi (range.take ranger),
      if ranger + 1 = range.length then cmax else CText.atoi (range.drop (ranger + 1)))
  | none => (CText.atoi range, CText.atoi range)

theorem addRange_eq (range : List Char) :
    addRange cmax channels range
      = addRange' channels cmax (bounds cmax range).1 (bounds cmax range).2 := by
  unfold addRange bounds
  cases (index range '-').or (index range ':') with
  | none => rfl
  | some ranger =>
      dsimp only
      by_cases hfirst : ranger = 0
      · subst hfirst
        rw [if_pos rfl, if_pos rfl]
        by_cases hlast : range.length = 1
        · rw [if_pos hlast, if_pos hlast.symm]
        · rw [if_neg hlast, if_neg (Ne.symm hlast)]
      · rw [if_neg hfirst, if_neg hfirst]
        by_cases hlast : ranger + 1 = range.length
        · rw [if_pos (by omega), if_pos hlast]
        · rw [if_neg (by omega), if_neg hlast]

theorem index_eq_none {text : List Char} {c : Char} (h : c ∉ text) : index text c = none := if_neg h

theorem index_append {text rest : List Char} {c : Char} (h : c ∉ text) :
    index (text ++ c :: rest) c = some text.length := by
  have hall : ∀ d ∈ text, decide (d ≠ c) = true := by
    intro d hd
    rw [decide_eq_true_eq]
    rintro rfl
    exact h hd
  unfold index
  rw [if_pos (List.mem_append_right _ List.mem_cons_self), List.takeWhile_append_of_pos hall,
    List.takeWhile_cons_of_neg (by simp), List.append_nil]

theorem Number.not_mem {c : Char} (hc : c.isDigit = false) (n : Option Number) :
    c ∉ Number.text n := fun hmem => digit_ne hc (Number.digit_of_mem hmem) rfl

/-- The separator is found, for there is no other. -/
theorem index_range (n : Option Number) (mid : Mid) (m : Option Number) :
    (index (Number.text n ++ mid.char :: Number.text m) '-').or
        (index (Number.text n ++ mid.char :: Number.text m) ':')
      = some (Number.text n).length := by
  cases mid with
  | dash =>
      rw [Mid.char, index_append (Number.not_mem (by decide) n)]
      rfl
  | colon =>
      have hdash : '-' ∉ Number.text n ++ ':' :: Number.text m := by
        rw [List.mem_append, List.mem_cons, not_or, not_or]
        exact ⟨Number.not_mem (by decide) n, by decide, Number.not_mem (by decide) m⟩
      rw [Mid.char, index_eq_none hdash, index_append (Number.not_mem (by decide) n)]
      rfl

theorem bounds_range (n : Option Number) (mid : Mid) (m : Option Number) :
    bounds cmax (Token.range n mid m).text
      = (n.elim 1 fun l => CText.atoi l.digits,
        m.elim (cmax : Int) fun r => CText.atoi r.digits) := by
  unfold bounds Token.text
  rw [index_range]
  dsimp only
  rw [List.take_left, List.length_append, List.length_cons, ← List.drop_drop, List.drop_left,
    List.drop_succ_cons, List.drop_zero]
  refine Prod.ext ?_ ?_
  · cases n with
    | none => rfl
    | some l => exact if_neg (List.length_pos_of_ne_nil l.isDigits.1).ne'
  · cases m with
    | none => exact if_pos rfl
    | some r =>
        have hpos : 0 < (Number.text (some r)).length := List.length_pos_of_ne_nil r.isDigits.1
        exact if_neg (by omega)

theorem bounds_one (n : Number) :
    bounds cmax (Token.one n).text = (CText.atoi n.digits, CText.atoi n.digits) := by
  have hnone : ∀ c : Char, c.isDigit = false → index n.digits c = none :=
    fun c hc => index_eq_none (Number.not_mem hc (some n))
  show bounds cmax n.digits = _
  unfold bounds
  rw [hnone '-' (by decide), hnone ':' (by decide)]
  rfl

/-- What a text marks. -/
def Marks (cmax : Nat) (range : List Char) (c : Nat) : Prop :=
  1 ≤ c ∧ c ≤ cmax ∧ (bounds cmax range).1 ≤ c ∧ c ≤ (bounds cmax range).2

/-- A token marks the channels that it names, of those that there are. -/
theorem marks_iff (hcmax : cmax < 2147483647) (t : Token) (c : Nat) :
    Marks cmax t.text c ↔ 1 ≤ c ∧ c ≤ cmax ∧ t.Names c := by
  unfold Marks
  refine and_congr_right fun hlow => and_congr_right fun hhigh => ?_
  have hatoi : ∀ n : Number, CText.atoi n.digits = min (n.value : Int) 2147483647 :=
    fun n => CText.atoi_digits n.isDigits
  have hl : ∀ n : Number, CText.atoi n.digits ≤ c ↔ n.value ≤ c := by
    intro n
    rw [hatoi]
    omega
  have hr : ∀ n : Number, (c : Int) ≤ CText.atoi n.digits ↔ c ≤ n.value := by
    intro n
    rw [hatoi]
    omega
  cases t with
  | one n =>
      rw [bounds_one, hl, hr]
      exact Nat.le_antisymm_iff.symm
  | range n mid m =>
      rw [bounds_range]
      refine and_congr ?_ ?_
      · cases n with
        | none =>
            refine iff_of_true (Int.ofNat_le.mpr hlow) fun l hl => ?_
            cases hl
        | some l => simpa using hl l
      · cases m with
        | none =>
            refine iff_of_true (Int.ofNat_le.mpr hhigh) fun r hr => ?_
            cases hr
        | some r => simpa using hr r

/-! ### Marking -/

/-- A channel is marked. -/
def Marked (channels : List Int) (c : Nat) : Prop := channels.getD c 0 ≠ 0

instance : DecidablePred (Marked channels) :=
  fun c => inferInstanceAs (Decidable (channels.getD c 0 ≠ 0))

theorem not_marked_replicate (size c : Nat) : ¬Marked (List.replicate size 0) c := by
  unfold Marked
  rw [List.getD_eq_getElem?_getD, List.getElem?_replicate]
  split
  · exact fun h => h rfl
  · exact fun h => h rfl

theorem marked_set {ii c : Nat} (hii : ii < channels.length) :
    Marked (channels.set ii 1) c ↔ Marked channels c ∨ ii = c := by
  unfold Marked
  rw [List.getD_eq_getElem?_getD, List.getD_eq_getElem?_getD, List.getElem?_set]
  by_cases hc : ii = c
  · rw [if_pos hc, if_pos hii]
    exact iff_of_true Int.one_ne_zero (.inr hc)
  · rw [if_neg hc]
    exact (or_iff_left hc).symm

section Fold

variable {α : Type} {f : List Int → α → Option (List Int)} {M : α → Nat → Prop} {size : Nat}

/-- What each of them marks, they mark together. -/
theorem foldlM_marks {as : List α}
    (hf : ∀ a ∈ as, ∀ cs : List Int, cs.length = size → ∃ cs', f cs a = some cs' ∧
      cs'.length = size ∧ ∀ c, Marked cs' c ↔ Marked cs c ∨ M a c) :
    ∀ cs : List Int, cs.length = size → ∃ cs', as.foldlM f cs = some cs' ∧
      cs'.length = size ∧ ∀ c, Marked cs' c ↔ Marked cs c ∨ ∃ a ∈ as, M a c := by
  induction as with
  | nil =>
      intro cs hlen
      refine ⟨cs, rfl, hlen, fun c => (or_iff_left ?_).symm⟩
      rintro ⟨a, ha, -⟩
      exact List.not_mem_nil ha
  | cons a as ih =>
      intro cs hlen
      obtain ⟨next, hnext, hnextlen, hmarks⟩ := hf a List.mem_cons_self cs hlen
      obtain ⟨cs', hrest, hlen', hmarks'⟩ :=
        ih (fun b hb => hf b (List.mem_cons_of_mem a hb)) next hnextlen
      refine ⟨cs', ?_, hlen', fun c => ?_⟩
      · rw [List.foldlM_cons, hnext]
        exact hrest
      · rw [hmarks', hmarks, or_assoc, List.exists_mem_cons_iff]

end Fold

theorem mark_length {ii : Nat} {channels' : List Int} (h : mark channels ii = some channels') :
    channels'.length = channels.length := by
  unfold mark at h
  obtain ⟨-, heq⟩ := Option.ite_none_right_eq_some.mp h
  rw [← Option.some.inj heq, List.length_set]

theorem addRange_length {range : List Char} {channels' : List Int}
    (h : addRange cmax channels range = some channels') : channels'.length = channels.length := by
  rw [addRange_eq] at h
  exact Lts.foldlM_invariant (fun cs => cs.length = channels.length)
    (fun _ _ _ hcs hmark => (mark_length hmark).trans hcs) _ rfl h

theorem mark_marks {size ii : Nat} (hii : ii < size) (hlen : channels.length = size) :
    ∃ channels', mark channels ii = some channels' ∧ channels'.length = size ∧
      ∀ c, Marked channels' c ↔ Marked channels c ∨ ii = c := by
  rw [← hlen] at hii
  refine ⟨channels.set ii 1, if_pos hii, ?_, fun c => marked_set hii⟩
  rw [List.length_set, hlen]

/-- A text marks what is in its range. -/
theorem addRange_marks {size : Nat} (hsize : cmax < size) (range : List Char)
    (hlen : channels.length = size) :
    ∃ channels', addRange cmax channels range = some channels' ∧ channels'.length = size ∧
      ∀ c, Marked channels' c ↔ Marked channels c ∨ Marks cmax range c := by
  rw [addRange_eq]
  unfold addRange' Marks
  generalize (bounds cmax range).1 = ll
  generalize (bounds cmax range).2 = rr
  -- the ends as they are clipped
  have hrr : (if rr > cmax then (cmax : Int) else rr) = min rr cmax := by omega
  have hll : (if ll < 1 then 1 else ll) = max ll 1 := by omega
  rw [hrr, hll]
  have hmem : ∀ ii : Nat,
      ii ∈ List.range' (max ll 1).toNat (min rr cmax + 1 - max ll 1).toNat ↔
        1 ≤ ii ∧ ii ≤ cmax ∧ ll ≤ ii ∧ ii ≤ rr := by
    intro ii
    rw [List.mem_range'_1]
    omega
  obtain ⟨channels', hfold, hlen', hmarks⟩ := foldlM_marks (f := mark) (M := fun ii c => ii = c)
    (fun ii hii _ hcs => mark_marks (Nat.lt_of_le_of_lt ((hmem ii).mp hii).2.1 hsize) hcs)
    channels hlen
  refine ⟨channels', hfold, hlen', fun c => ?_⟩
  rw [hmarks]
  refine or_congr_right ⟨?_, fun hc => ⟨c, (hmem c).mpr hc, rfl⟩⟩
  rintro ⟨ii, hii, rfl⟩
  exact (hmem ii).mp hii

/-! ### Counting -/

/-- The marked channels. -/
def ones (cmax : Nat) (channels : List Int) : List Nat :=
  (List.range' 1 cmax).filter (Marked channels)

theorem mem_ones {c : Nat} : c ∈ ones cmax channels ↔ 1 ≤ c ∧ c ≤ cmax ∧ Marked channels c := by
  unfold ones
  rw [List.mem_filter, List.mem_range'_1, decide_eq_true_eq, and_assoc, Nat.add_comm 1,
    Nat.lt_succ_iff]

theorem markedOnes_eq (h : cmax < channels.length) :
    markedOnes channels cmax = some (ones cmax channels) := by
  have hrun : ∀ (is acc : List Nat), (∀ i ∈ is, i < channels.length) →
      is.foldlM (fun ones ichan => channels[ichan]?.map fun v =>
          if v ≠ 0 then ones ++ [ichan] else ones) acc
        = some (acc ++ is.filter (Marked channels)) := by
    intro is
    induction is with
    | nil =>
        intro acc _
        rw [List.filter_nil, List.append_nil]
        rfl
    | cons i is ih =>
        intro acc hin
        have hi := hin i List.mem_cons_self
        have hmark : Marked channels i ↔ channels[i] ≠ 0 := by
          unfold Marked
          rw [List.getD_eq_getElem _ _ hi]
        rw [List.foldlM_cons, List.getElem?_eq_getElem hi, Option.map_some, List.filter_cons]
        refine (ih _ fun j hj => hin j (List.mem_cons_of_mem i hj)).trans ?_
        by_cases hv : channels[i] ≠ 0
        · rw [if_pos hv, if_pos (decide_eq_true (hmark.mpr hv)), List.append_assoc]
          rfl
        · rw [if_neg hv, if_neg (fun h => hv (hmark.mp (of_decide_eq_true h)))]
  unfold markedOnes ones
  rw [hrun _ _ fun i hi => ?_, List.nil_append]
  rw [List.mem_range'_1] at hi
  omega

/-- The last channel has no place in an array of only `cmax` numbers. -/
theorem markedOnes_outside (hpos : 0 < cmax) (h : channels.length ≤ cmax) :
    markedOnes channels cmax = none := by
  obtain ⟨n, rfl⟩ := Nat.exists_eq_add_of_le' hpos
  unfold markedOnes
  rw [List.range'_concat, List.foldlM_append, Option.bind_eq_bind, Option.bind_eq_none_iff]
  intro acc _
  rw [List.foldlM_cons, List.getElem?_eq_none (by omega)]
  rfl

/-! ### A definition -/

variable {size : Nat}

/-- In an array with a place for the last channel, a text marks what its tokens mark. -/
theorem acqMakeChannelRange_marks (hsize : cmax < size) (text : List Char)
    (hlen : channels.length = size) :
    ∃ channels', acqMakeChannelRange channels cmax text
        = some ((ones cmax channels').length, channels') ∧ channels'.length = size ∧
      ∀ c, Marked channels' c ↔ Marked channels c ∨ ∃ tok ∈ tokens text, Marks cmax tok c := by
  obtain ⟨channels', hfold, hlen', hmarks⟩ :=
    foldlM_marks (fun tok _ _ hcs => addRange_marks hsize tok hcs) channels hlen
  refine ⟨channels', ?_, hlen', hmarks⟩
  unfold acqMakeChannelRange
  rw [hfold, Option.bind_eq_bind, Option.bind_some, markedOnes_eq (hlen'.symm ▸ hsize)]
  rfl

theorem acqMakeChannelRange_outside (hpos : 0 < cmax) (h : channels.length ≤ cmax)
    (text : List Char) : acqMakeChannelRange channels cmax text = none := by
  unfold acqMakeChannelRange
  rw [Option.bind_eq_bind, Option.bind_eq_none_iff]
  intro channels' hfold
  have hlen := Lts.foldlM_invariant (fun cs => cs.length = channels.length)
    (fun _ _ _ hcs hrange => (addRange_length hrange).trans hcs) _ rfl hfold
  rw [markedOnes_outside hpos (hlen.trans_le h)]
  rfl

theorem made_marks (hcmax : cmax < 2147483647) {ts : List Token} {text : List Char}
    (h : Made ts text) (c : Nat) :
    (∃ tok ∈ tokens text, Marks cmax tok c) ↔ 1 ≤ c ∧ c ≤ cmax ∧ ∃ t ∈ ts, t.Names c := by
  rw [h.tokens_eq]
  constructor
  · rintro ⟨tok, htok, hmarks⟩
    obtain ⟨t, ht, rfl⟩ := List.mem_map.mp htok
    obtain ⟨hlow, hhigh, hnames⟩ := (marks_iff hcmax t c).mp hmarks
    exact ⟨hlow, hhigh, t, ht, hnames⟩
  · rintro ⟨hlow, hhigh, t, ht, hnames⟩
    exact ⟨t.text, List.mem_map_of_mem ht, (marks_iff hcmax t c).mpr ⟨hlow, hhigh, hnames⟩⟩

/-! ### `tblock2file.cpp` -/

variable {nchan : Nat}

/-- There is a place for every channel, the count is right, and some channel is selected. -/
theorem initChannels_eq (hpos : 0 < nchan) (chandefs : List (List Char)) :
    ∃ channels, initChannels nchan chandefs = some ((ones nchan channels).length, channels) ∧
      channels.length = nchan + 1 ∧ ones nchan channels ≠ [] := by
  have hfold : ∀ (defs : List (List Char)) (cs : List Int), cs.length = nchan + 1 →
      ∃ cs', defs.foldlM (fun (s : Nat × List Int) chandef =>
          acqMakeChannelRange s.2 nchan chandef) ((ones nchan cs).length, cs)
        = some ((ones nchan cs').length, cs') ∧ cs'.length = nchan + 1 := by
    intro defs
    induction defs with
    | nil => exact fun cs hlen => ⟨cs, rfl, hlen⟩
    | cons d defs ih =>
        intro cs hlen
        obtain ⟨next, hnext, hnextlen, -⟩ :=
          acqMakeChannelRange_marks (Nat.lt_succ_self nchan) d hlen
        obtain ⟨cs', hrest, hlen'⟩ := ih next hnextlen
        refine ⟨cs', ?_, hlen'⟩
        rw [List.foldlM_cons, hnext]
        exact hrest
  have hzero : ones nchan (List.replicate (nchan + 1) 0) = [] :=
    List.filter_eq_nil_iff.mpr fun c _ h =>
      not_marked_replicate (nchan + 1) c (of_decide_eq_true h)
  obtain ⟨cs, hcs, hlen⟩ := hfold chandefs (List.replicate (nchan + 1) 0) List.length_replicate
  rw [hzero, List.length_nil] at hcs
  unfold initChannels
  rw [hcs, Option.bind_eq_bind, Option.bind_some]
  by_cases hnone : ones nchan cs = []
  · obtain ⟨all, hall, halllen, hmarks⟩ :=
      acqMakeChannelRange_marks (Nat.lt_succ_self nchan) ":".toList hlen
    refine ⟨all, ?_, halllen, ?_⟩
    · rw [hnone]
      exact hall
    · have hone : Marks nchan ":".toList 1 := ⟨Nat.le_refl 1, hpos, Int.le_refl 1, by
        show (1 : Int) ≤ nchan
        omega⟩
      have hmem : 1 ∈ ones nchan all := mem_ones.mpr
        ⟨Nat.le_refl 1, hpos, (hmarks 1).mpr (.inr ⟨":".toList, List.mem_singleton.mpr rfl, hone⟩)⟩
      exact List.ne_nil_of_mem hmem
  · exact ⟨cs, if_neg (mt List.length_eq_zero_iff.mp hnone), hlen, hnone⟩

/-- What a channel of a sample is: the sample shifted, the lower 16 bits of it. -/
def shifted (shr : Int) (x : BitVec 32) : BitVec 16 := BitVec.ofInt 16 (x.toInt / 2 ^ shr.toNat)

theorem cut_eq {shr : Int} (hshr : 0 ≤ shr ∧ shr < 32) (x : BitVec 32) :
    cut shr x = some (shifted shr x) := by
  have hmask : ∀ y : BitVec 32, (y &&& 0xffff).setWidth 16 = y.setWidth 16 := by
    intro y
    rw [BitVec.setWidth_and]
    exact BitVec.and_allOnes
  have hint : ∀ y : BitVec 32, y.setWidth 16 = BitVec.ofInt 16 y.toInt := by
    intro y
    exact (BitVec.signExtend_eq_setWidth_of_le y (by decide)).symm
  unfold cut shifted
  rw [if_pos hshr, hmask, hint, BitVec.toInt_sshiftRight, Int.shiftRight_eq_div_pow]
  push_cast
  rfl

variable {selected : Nat} {shr : Int} {m : List (BitVec 32)}

/-- The word of a channel in a sample. -/
def wordOf (shr : Int) (m : List (BitVec 32)) (cursor c : Nat) : Option (BitVec 16) :=
  (m[cursor + (c - 1)]?).bind (cut shr)

/-- The marked channels of those that are left. -/
def ahead (channels : List Int) (ic left : Nat) : List Nat :=
  (List.range' (ic + 1) left).filter (Marked channels)

theorem ahead_marked {ic : Nat} (hmark : Marked channels (ic + 1)) (left : Nat) :
    ahead channels ic (left + 1) = (ic + 1) :: ahead channels (ic + 1) left := by
  unfold ahead
  rw [List.range'_succ, List.filter_cons, if_pos (decide_eq_true hmark)]

theorem ahead_unmarked {ic : Nat} (hmark : ¬Marked channels (ic + 1)) (left : Nat) :
    ahead channels ic (left + 1) = ahead channels (ic + 1) left := by
  unfold ahead
  rw [List.range'_succ, List.filter_cons, if_neg fun h => hmark (of_decide_eq_true h)]

/-- The loop takes the marked channels of those that are left. -/
theorem channelLoop_eq (cursor : Nat) : ∀ (left ic : Nat) (toc : List (BitVec 16)),
    ic + left < channels.length → toc.length + (ahead channels ic left).length = selected →
    channelLoop channels selected shr m cursor left ic toc
      = ((ahead channels ic left).mapM (wordOf shr m cursor)).map (toc ++ ·) := by
  intro left
  induction left with
  | zero =>
      intro ic toc _ _
      exact congrArg some (List.append_nil toc).symm
  | succ left ih =>
      intro ic toc hin hsel
      have hic : ic + 1 < channels.length := by omega
      have hget : channels[ic + 1]? = some (channels.getD (ic + 1) 0) := by
        rw [List.getElem?_eq_getElem hic, List.getD_eq_getElem _ _ hic]
      rw [channelLoop]
      by_cases hroom : toc.length < selected
      · rw [if_pos hroom, hget, Option.bind_eq_bind, Option.bind_some]
        by_cases hmark : Marked channels (ic + 1)
        · rw [ahead_marked hmark] at hsel ⊢
          rw [if_pos (show channels.getD (ic + 1) 0 ≠ 0 from hmark), List.mapM_cons]
          have hword : wordOf shr m cursor (ic + 1) = (m[cursor + ic]?).bind (cut shr) := rfl
          rw [hword]
          simp only [Option.bind_eq_bind]
          cases m[cursor + ic]? with
          | none => rfl
          | some x =>
              rw [Option.bind_some, Option.bind_some]
              cases cut shr x with
              | none => rfl
              | some y =>
                  have hnext : (toc ++ [y]).length + (ahead channels (ic + 1) left).length
                      = selected := by
                    rw [← hsel, List.length_append, List.length_singleton, List.length_cons]
                    omega
                  rw [Option.bind_some, Option.bind_some,
                    ih (ic + 1) (toc ++ [y]) (by omega) hnext]
                  cases (ahead channels (ic + 1) left).mapM (wordOf shr m cursor) with
                  | none => rfl
                  | some ys => exact congrArg some (List.append_assoc toc [y] ys)
        · rw [ahead_unmarked hmark] at hsel ⊢
          rw [if_neg (show ¬channels.getD (ic + 1) 0 ≠ 0 from hmark)]
          exact ih (ic + 1) toc (by omega) hsel
      · -- the record is full, so none of those that are left is marked
        have hnil : ahead channels ic (left + 1) = [] :=
          List.eq_nil_of_length_eq_zero (by omega)
        rw [if_neg hroom, hnil]
        exact congrArg some (List.append_nil toc).symm

/-- A turn writes the marked channels of the sample, whatever was in `tobuf`. -/
theorem sampleTurn_eq (hlen : channels.length = nchan + 1) {tobuf fout : List (BitVec 16)}
    (htobuf : tobuf.length = (ones nchan channels).length) (cursor : Nat) :
    sampleTurn nchan channels (ones nchan channels).length shr m (some (tobuf, fout)) cursor
      = ((ones nchan channels).mapM (wordOf shr m cursor)).map
        fun toc => (toc, fout ++ toc) := by
  have hloop : channelLoop channels (ones nchan channels).length shr m cursor nchan 0 []
      = ((ones nchan channels).mapM (wordOf shr m cursor)).map ([] ++ ·) :=
    channelLoop_eq cursor nchan 0 [] (by omega) (Nat.zero_add _)
  unfold sampleTurn
  rw [Option.bind_eq_bind, Option.bind_some, Option.bind_eq_bind, hloop]
  cases htoc : (ones nchan channels).mapM (wordOf shr m cursor) with
  | none => rfl
  | some toc =>
      have hsame : toc.length = tobuf.length := (Lts.mapM_length htoc).trans htobuf.symm
      have hdrop : tobuf.drop toc.length = [] := List.drop_of_length_le hsame.ge
      rw [Option.map_some, List.nil_append]
      dsimp only
      rw [Option.bind_some, hdrop, List.append_nil]
      rfl

/-- What a turn does to what has been written, the loop does to the file. -/
theorem process_invariant (hpos : 0 < nchan) (hlen : channels.length = nchan + 1)
    (P : Nat → Option (List (BitVec 16)) → Prop) (hstart : P 0 (some []))
    (hnone : ∀ k, k < Strides.turns nchan m.length → P k none → P (k + 1) none)
    (hturn : ∀ k fout, k < Strides.turns nchan m.length → P k (some fout) →
      P (k + 1) (((ones nchan channels).mapM (wordOf shr m (k * nchan))).map (fout ++ ·)))
    (junk : Nat → BitVec 16) :
    P (Strides.turns nchan m.length)
      (process nchan channels (ones nchan channels).length shr m junk) := by
  obtain ⟨s', hloop, -, hP⟩ := Strides.loop_invariant
    (s := some ((List.range (ones nchan channels).length).map junk, []))
    (sampleTurn nchan channels (ones nchan channels).length shr m)
    (fun k s => (∀ r, s = some r → r.1.length = (ones nchan channels).length) ∧
      P k (s.map Prod.snd))
    hpos (Nat.lt_succ_self m.length : m.length < m.length + 1)
    ⟨fun r hr => by rw [← Option.some.inj hr, List.length_map, List.length_range], hstart⟩ (by
      rintro k s hk ⟨htobuf, hP⟩
      cases s with
      | none => exact ⟨htobuf, hnone k hk hP⟩
      | some s =>
          have hnext := hturn k s.2 hk hP
          rw [sampleTurn_eq hlen (htobuf s rfl)]
          cases htoc : (ones nchan channels).mapM (wordOf shr m (k * nchan)) with
          | none =>
              rw [htoc] at hnext
              exact ⟨fun r hr => (nomatch hr), hnext⟩
          | some toc =>
              rw [htoc] at hnext
              refine ⟨fun r hr => ?_, hnext⟩
              rw [← Option.some.inj hr]
              exact Lts.mapM_length htoc)
  unfold process
  rw [hloop]
  exact hP

/-- What a whole sample gives. -/
def sampleOf (nchan : Nat) (channels : List Int) (shr : Int) (m : List (BitVec 32)) (s : Nat) :
    List (BitVec 16) :=
  (ones nchan channels).map fun c => shifted shr (m.getD (s * nchan + (c - 1)) 0)

theorem length_sampleOf (s : Nat) :
    (sampleOf nchan channels shr m s).length = (ones nchan channels).length := List.length_map _

theorem mapM_wordOf (hshr : 0 ≤ shr ∧ shr < 32) {s : Nat} (hs : s * nchan + nchan ≤ m.length) :
    (ones nchan channels).mapM (wordOf shr m (s * nchan))
      = some (sampleOf nchan channels shr m s) := by
  rw [Lts.mapM_eq_some_iff]
  unfold sampleOf
  rw [List.map_map]
  refine List.map_congr_left fun c hc => ?_
  obtain ⟨hlow, hhigh, -⟩ := mem_ones.mp hc
  have hin : s * nchan + (c - 1) < m.length := by omega
  unfold wordOf
  rw [List.getElem?_eq_getElem hin, Option.bind_some, cut_eq hshr, Function.comp_apply,
    List.getD_eq_getElem _ _ hin]

/-- Whole samples of a shift that there is. -/
theorem process_whole (hpos : 0 < nchan) (hlen : channels.length = nchan + 1)
    (hwhole : nchan ∣ m.length) (hshr : m = [] ∨ 0 ≤ shr ∧ shr < 32) (junk : Nat → BitVec 16) :
    process nchan channels (ones nchan channels).length shr m junk
      = some ((List.range (m.length / nchan)).flatMap (sampleOf nchan channels shr m)) := by
  rw [← Strides.turns_of_dvd hpos hwhole]
  refine process_invariant hpos hlen
    (fun k out => out = some ((List.range k).flatMap (sampleOf nchan channels shr m)))
    rfl (fun k _ h => nomatch h) (fun k fout hk hfout => ?_) junk
  obtain rfl := Option.some.inj hfout
  rw [Strides.turns_of_dvd hpos hwhole] at hk
  have hin : k * nchan + nchan ≤ m.length := by
    rw [← Nat.succ_mul]
    exact (Nat.le_div_iff_mul_le hpos).mp hk
  have hdefined : 0 ≤ shr ∧ shr < 32 := hshr.resolve_left fun hnil => by
    rw [hnil, List.length_nil] at hin
    omega
  rw [mapM_wordOf hdefined hin, List.range_succ, List.flatMap_append, List.flatMap_singleton]
  rfl

/-- Each turn writes a record, that of a rest as well. -/
theorem process_length (hpos : 0 < nchan) (hlen : channels.length = nchan + 1)
    {junk : Nat → BitVec 16} {out : List (BitVec 16)}
    (h : process nchan channels (ones nchan channels).length shr m junk = some out) :
    out.length = Strides.turns nchan m.length * (ones nchan channels).length := by
  refine process_invariant hpos hlen
    (fun k out => ∀ r, out = some r → r.length = k * (ones nchan channels).length)
    (fun r hr => ?_) (fun k _ _ r hr => nomatch hr) (fun k fout _ hfout r hr => ?_) junk out h
  · rw [← Option.some.inj hr, List.length_nil, Nat.zero_mul]
  · obtain ⟨toc, htoc, rfl⟩ := Option.map_eq_some_iff.mp hr
    rw [List.length_append, hfout fout rfl, Lts.mapM_length htoc, Nat.succ_mul]

/-- A shift that is not defined is one of the first sample. -/
theorem process_undefined (hpos : 0 < nchan) (hlen : channels.length = nchan + 1)
    (hsome : ones nchan channels ≠ []) (hne : m ≠ []) (hshr : ¬(0 ≤ shr ∧ shr < 32))
    (junk : Nat → BitVec 16) :
    process nchan channels (ones nchan channels).length shr m junk = none := by
  have hundefined : ∀ cursor, (ones nchan channels).mapM (wordOf shr m cursor) = none := by
    intro cursor
    obtain ⟨c, cs, hcs⟩ := List.exists_cons_of_ne_nil hsome
    have hword : wordOf shr m cursor c = none := by
      unfold wordOf cut
      rw [Option.bind_eq_none_iff]
      exact fun x _ => if_neg hshr
    rw [hcs, List.mapM_cons, hword]
    rfl
  have hturns : 0 < Strides.turns nchan m.length := by
    rw [Strides.lt_turns_iff hpos, Nat.zero_mul]
    exact List.length_pos_of_ne_nil hne
  refine process_invariant hpos hlen (fun k out => 0 < k → out = none)
    (fun h => absurd h (Nat.lt_irrefl 0)) (fun k _ _ _ => rfl) (fun k fout _ _ _ => ?_) junk hturns
  rw [hundefined, Option.map_none]

/-! ### The uses of a list -/

/-- What a list is for: the array of some size, the text of a command, or the definitions, the shift
and the words of a block. -/
inductive Use
  | util (size : Nat) {ts : List Token} {text : List Char} (made : Made ts text)
  | muxdec (defn : List Char)
  | tblock2file (chandefs : List (List Char)) (shr : Int) (m : List (BitVec 32))

/-- The channels that are named are marked, no others, and counted; a list is gone through inside of
the array; a file has the marked channels of every whole sample and nothing else. -/
def Right (nchan : Nat) : Use → Prop
  | @Use.util size ts text _ =>
    ∃ channels, acqMakeChannelRange (List.replicate size 0) nchan text
        = some ((ones nchan channels).length, channels) ∧
      ∀ c, Marked channels c ↔ 1 ≤ c ∧ c ≤ nchan ∧ ∃ t ∈ ts, t.Names c
  | .muxdec defn => getChannels nchan defn ≠ none
  | .tblock2file chandefs shr m =>
    ∃ channels, initChannels nchan chandefs = some ((ones nchan channels).length, channels) ∧
      ∀ junk, process nchan channels (ones nchan channels).length shr m junk
        = some ((List.range (m.length / nchan)).flatMap (sampleOf nchan channels shr m))

/-- The array has a place for the last channel; no channels are asked for; the block has whole
samples, and the shift is one of 32 bits. -/
def Harmless (nchan : Nat) : Use → Prop
  | .util size _ => nchan < size
  | .muxdec defn =>
    ∀ cursor, Words.strstr "CH=".toList defn = some cursor →
      ∀ c ∈ cursor.drop 3, CText.isSpace c = true
  | .tblock2file _ shr m => nchan ∣ m.length ∧ (m = [] ∨ 0 ≤ shr ∧ shr < 32)

theorem util_right_iff (hpos : 0 < nchan) (hroom : 4 * (nchan + 1) < 2 ^ 32) {ts : List Token}
    {text : List Char} (made : Made ts text) :
    Right nchan (.util size made) ↔ Harmless nchan (.util size made) := by
  show _ ↔ nchan < size
  constructor
  · rintro ⟨channels, hchannels, -⟩
    by_contra hle
    have hsize : (List.replicate size (0 : Int)).length ≤ nchan := by
      rw [List.length_replicate]
      exact Nat.le_of_not_lt hle
    rw [acqMakeChannelRange_outside hpos hsize] at hchannels
    cases hchannels
  · intro hsize
    obtain ⟨channels, hchannels, -, hmarks⟩ :=
      acqMakeChannelRange_marks hsize text (List.length_replicate (a := (0 : Int)))
    refine ⟨channels, hchannels, fun c => ?_⟩
    rw [hmarks, made_marks (by omega) made]
    exact or_iff_right (not_marked_replicate size c)

theorem muxdec_right_iff (hpos : 0 < nchan) (defn : List Char) :
    Right nchan (.muxdec defn) ↔ Harmless nchan (.muxdec defn) := by
  show getChannels nchan defn ≠ none ↔ ∀ cursor, Words.strstr "CH=".toList defn = some cursor →
    ∀ c ∈ cursor.drop 3, CText.isSpace c = true
  unfold getChannels
  cases Words.strstr "CH=".toList defn with
  | none =>
      refine iff_of_true (Option.some_ne_none _) fun cursor h => ?_
      cases h
  | some cursor =>
      rw [Option.bind_some]
      cases hword : CText.word (cursor.drop 3).length (cursor.drop 3) with
      | none =>
          refine iff_of_true (Option.some_ne_none _) fun cursor' h => ?_
          obtain rfl := Option.some.inj h
          exact CText.word_eq_none.mp hword
      | some found =>
          refine iff_of_false (fun h => h ?_) fun h => ?_
          · dsimp only
            rw [acqMakeChannelRange_outside hpos (List.length_replicate).le]
            rfl
          · rw [CText.word_eq_none.mpr (h cursor rfl)] at hword
            cases hword

theorem tblock2file_right_iff (hpos : 0 < nchan) (chandefs : List (List Char)) (shr : Int)
    (m : List (BitVec 32)) :
    Right nchan (.tblock2file chandefs shr m) ↔ Harmless nchan (.tblock2file chandefs shr m) := by
  obtain ⟨channels, hinit, hlen, hsome⟩ := initChannels_eq hpos chandefs
  constructor
  · rintro ⟨channels', hinit', hprocess⟩
    rw [hinit] at hinit'
    obtain rfl := (Prod.mk.inj (Option.some.inj hinit')).2
    have hout := hprocess fun _ => 0
    constructor
    · by_contra hrest
      have hrecords := process_length hpos hlen hout
      have hsamples : ((List.range (m.length / nchan)).flatMap
          (sampleOf nchan channels shr m)).length
            = m.length / nchan * (ones nchan channels).length := by
        rw [Strides.length_flatMap_of_forall fun s _ => length_sampleOf s, List.length_range]
      rw [hsamples] at hrecords
      have hlt := Strides.div_lt_turns hpos hrest
      exact absurd (Nat.eq_of_mul_eq_mul_right (List.length_pos_of_ne_nil hsome) hrecords) hlt.ne
    · by_contra hshr
      obtain ⟨hne, hundefined⟩ := not_or.mp hshr
      rw [process_undefined hpos hlen hsome hne hundefined] at hout
      cases hout
  · rintro ⟨hwhole, hshr⟩
    exact ⟨channels, hinit, fun junk => process_whole hpos hlen hwhole hshr junk⟩

/--
**Each use of a list of channels is right if and only if it is harmless**, for any number of
channels for which there is memory.  Where a list is made, the array has to have a place for the
last channel; `muxdec` must not be asked for channels; and a block has to be of whole samples.
-/
theorem lists_right_iff (hpos : 0 < nchan) (hroom : 4 * (nchan + 1) < 2 ^ 32) (u : Use) :
    Right nchan u ↔ Harmless nchan u := by
  cases u with
  | util size made => exact util_right_iff hpos hroom made
  | muxdec defn => exact muxdec_right_iff hpos defn
  | tblock2file chandefs shr m => exact tblock2file_right_iff hpos chandefs shr m

/-- Two channels of four words, of which the second one is asked for. -/
theorem two_samples_right : Right 2 (.tblock2file ["2".toList] 4 [0x100, 0x200, 0x300, 0x400]) :=
  (lists_right_iff (by decide) (by decide) _).mpr ⟨by decide, .inr (by decide)⟩

/-- The only channel of one is read behind the array, and a third word of two channels is taken for
a sample. -/
theorem last_channel_not_right :
    ¬Right 1 (.muxdec "NC=1 CH=1".toList) ∧
      ¬Right 2 (.tblock2file ["1".toList] 4 [0x100, 0x200, 0x300]) := by
  constructor
  · exact fun h => h (by decide)
  · rintro ⟨channels, hinit, hprocess⟩
    have hone : initChannels 2 ["1".toList] = some (1, [0, 1, 0]) := by decide
    rw [hone] at hinit
    obtain rfl := (Prod.mk.inj (Option.some.inj hinit)).2
    exact absurd (hprocess fun _ => 0) (by decide)

end ChannelRange

end Acq400
