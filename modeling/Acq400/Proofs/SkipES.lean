/-
The live demux and event signatures.

A sample slot of the buffer may hold an event signature in place of data.  At the beginning
of a slot the demux tests for one and goes on one slot further; it does not test again
there, and the end of the buffer is only looked for after a word has been copied.  So of
two signatures in a row the second is taken for data, and after one in the last slot a word
from behind the buffer is.  `Clean` says that neither is there.
-/
import Acq400.Proofs.LiveDeal

namespace Acq400

open DemuxWord Reads

variable {T : Type} [DemuxWord T]

/-! ### Slots

`flag` says which slots hold a signature. -/

namespace Slots

variable {flag : Nat → Bool} {m i : Nat}

/-- The slots from `i` on that are copied when `m` are left; `none` where the copy goes past the
end. -/
def rowsFrom (flag : Nat → Bool) : Nat → Nat → Option (List Nat)
  | 0, _ => some []
  | 1, i => if flag i then none else some [i]
  | m + 2, i =>
    if flag i then (rowsFrom flag m (i + 2)).map ((i + 1) :: ·)
    else (rowsFrom flag (m + 1) (i + 1)).map (i :: ·)

/-- The slots that are tested. -/
def testedFrom (flag : Nat → Bool) : Nat → Nat → List Nat
  | 0, _ => []
  | 1, i => [i]
  | m + 2, i => i :: if flag i then testedFrom flag m (i + 2) else testedFrom flag (m + 1) (i + 1)

/-- The slots that hold data. -/
def dataFrom (flag : Nat → Bool) (m i : Nat) : List Nat := (List.range' i m).filter fun j => !flag j

/-- No signature follows another, and the last slot is none. -/
def Clean (flag : Nat → Bool) (m i : Nat) : Prop :=
  ∀ j, i ≤ j → j < i + m → flag j = true → j + 1 < i + m ∧ flag (j + 1) = false

theorem dataFrom_succ (flag : Nat → Bool) (m i : Nat) :
    dataFrom flag (m + 1) i = if flag i then dataFrom flag m (i + 1)
      else i :: dataFrom flag m (i + 1) := by
  unfold dataFrom
  rw [List.range'_succ, List.filter_cons]
  cases flag i with
  | true => rfl
  | false => rfl

theorem dataFrom_append (flag : Nat → Bool) (m n i : Nat) :
    dataFrom flag (m + n) i = dataFrom flag m i ++ dataFrom flag n (i + m) := by
  unfold dataFrom
  rw [← List.filter_append, List.range'_append_1]

theorem dataFrom_eq_nil : dataFrom flag m i = [] ↔ ∀ j, i ≤ j → j < i + m → flag j = true := by
  unfold dataFrom
  rw [List.filter_eq_nil_iff]
  constructor
  · intro h j hlo hhi
    simpa using h j (List.mem_range'_1.mpr ⟨hlo, hhi⟩)
  · intro h j hj
    obtain ⟨hlo, hhi⟩ := List.mem_range'_1.mp hj
    simp [h j hlo hhi]

theorem rowsFrom_one {rows : List Nat} (h : rowsFrom flag 1 i = some rows) :
    flag i = false ∧ rows = [i] := by
  rw [rowsFrom] at h
  cases hflag : flag i with
  | true => simp [hflag] at h
  | false => exact ⟨rfl, by simpa [hflag] using h.symm⟩

theorem rowsFrom_cases {rows : List Nat} (h : rowsFrom flag (m + 2) i = some rows) :
    (flag i = true ∧ ∃ rest, rowsFrom flag m (i + 2) = some rest ∧ rows = (i + 1) :: rest) ∨
      (flag i = false ∧ ∃ rest, rowsFrom flag (m + 1) (i + 1) = some rest ∧ rows = i :: rest) := by
  rw [rowsFrom] at h
  cases hflag : flag i with
  | true =>
      rw [if_pos hflag] at h
      obtain ⟨rest, hrest, hrows⟩ := Option.map_eq_some_iff.mp h
      exact Or.inl ⟨rfl, rest, hrest, hrows.symm⟩
  | false =>
      rw [if_neg (by rw [hflag]; decide)] at h
      obtain ⟨rest, hrest, hrows⟩ := Option.map_eq_some_iff.mp h
      exact Or.inr ⟨rfl, rest, hrest, hrows.symm⟩

theorem dataFrom_of_flag (hflag : flag i = true) (m : Nat) :
    dataFrom flag (m + 1) i = dataFrom flag m (i + 1) := by
  rw [dataFrom_succ, if_pos hflag]

theorem dataFrom_of_not_flag (hflag : flag i = false) (m : Nat) :
    dataFrom flag (m + 1) i = i :: dataFrom flag m (i + 1) := by
  rw [dataFrom_succ, hflag]
  rfl

theorem Clean.tail (h : Clean flag (m + 1) i) : Clean flag m (i + 1) := by
  intro j hlo hhi hj
  obtain ⟨hin, hfree⟩ := h j (by omega) (by omega) hj
  exact ⟨by omega, hfree⟩

theorem Clean.cons (h : Clean flag m (i + 1)) (hflag : flag i = false) :
    Clean flag (m + 1) i := by
  intro j hlo hhi hj
  rcases Nat.eq_or_lt_of_le hlo with rfl | hgt
  · rw [hflag] at hj
    exact absurd hj Bool.false_ne_true
  · obtain ⟨hin, hfree⟩ := h j hgt (by omega) hj
    exact ⟨by omega, hfree⟩

theorem Clean.cons_cons (h : Clean flag m (i + 2)) (hnext : flag (i + 1) = false) :
    Clean flag (m + 2) i := by
  intro j hlo hhi hj
  rcases Nat.eq_or_lt_of_le hlo with rfl | hgt
  · exact ⟨by omega, hnext⟩
  · obtain ⟨hin, hfree⟩ := h.cons hnext j hgt (by omega) hj
    exact ⟨by omega, hfree⟩

/-- Every slot with data is copied, and others only where there are two signatures in a row. -/
theorem rowsFrom_sublist :
    ∀ (m i : Nat) (rows : List Nat), rowsFrom flag m i = some rows →
      (dataFrom flag m i).Sublist rows ∧ ((dataFrom flag m i).length = rows.length →
        Clean flag m i) := by
  intro m
  induction m using Nat.strong_induction_on with
  | _ m ih =>
      intro i rows hrows
      match m with
      | 0 =>
          obtain rfl := Option.some.inj hrows
          exact ⟨List.Sublist.refl _, fun _ j _ _ => by omega⟩
      | 1 =>
          obtain ⟨hflag, rfl⟩ := rowsFrom_one hrows
          rw [dataFrom_of_not_flag hflag]
          have hnone : Clean flag 0 (i + 1) := fun j hlo hhi => by omega
          exact ⟨List.Sublist.refl _, fun _ => hnone.cons hflag⟩
      | m + 2 =>
          rcases rowsFrom_cases hrows with ⟨hflag, rest, hrest, rfl⟩ | ⟨hflag, rest, hrest, rfl⟩
          · obtain ⟨hsub, hclean⟩ := ih m (by omega) (i + 2) rest hrest
            rw [dataFrom_of_flag hflag]
            cases hnext : flag (i + 1) with
            | true =>
                -- the slot copied is a signature too
                rw [dataFrom_of_flag hnext]
                refine ⟨hsub.cons _, fun hlen => ?_⟩
                have hle := hsub.length_le
                have hlen' : (dataFrom flag m (i + 2)).length = rest.length + 1 := hlen
                omega
            | false =>
                rw [dataFrom_of_not_flag hnext]
                exact ⟨hsub.cons_cons _, fun hlen => (hclean (Nat.succ.inj hlen)).cons_cons hnext⟩
          · obtain ⟨hsub, hclean⟩ := ih (m + 1) (by omega) (i + 1) rest hrest
            rw [dataFrom_of_not_flag hflag]
            exact ⟨hsub.cons_cons _, fun hlen => (hclean (Nat.succ.inj hlen)).cons hflag⟩

/-- Where the slots are clean the copied ones are those with data. -/
theorem Clean.rowsFrom_eq :
    ∀ (m i : Nat), Clean flag m i → rowsFrom flag m i = some (dataFrom flag m i) := by
  intro m
  induction m using Nat.strong_induction_on with
  | _ m ih =>
      intro i h
      match m with
      | 0 => rfl
      | 1 =>
          cases hflag : flag i with
          | true => exact absurd (h i (Nat.le_refl i) (by omega) hflag).1 (by omega)
          | false =>
              rw [rowsFrom, hflag, dataFrom_of_not_flag hflag]
              rfl
      | m + 2 =>
          rw [rowsFrom]
          cases hflag : flag i with
          | true =>
              obtain ⟨-, hnext⟩ := h i (Nat.le_refl i) (by omega) hflag
              rw [if_pos rfl, ih m (by omega) (i + 2) h.tail.tail, dataFrom_of_flag hflag,
                dataFrom_of_not_flag hnext]
              rfl
          | false =>
              rw [if_neg Bool.false_ne_true, ih (m + 1) (by omega) (i + 1) h.tail,
                dataFrom_of_not_flag hflag]
              rfl

/-- Where the slots are clean every one is tested but for those after a signature. -/
theorem Clean.mem_testedFrom :
    ∀ (m i : Nat), Clean flag m i →
      ∀ j, j ∈ testedFrom flag m i ↔ i ≤ j ∧ j < i + m ∧ (i < j → flag (j - 1) = false) := by
  intro m
  induction m using Nat.strong_induction_on with
  | _ m ih =>
      intro i h j
      match m with
      | 0 =>
          simp only [testedFrom, List.not_mem_nil, false_iff]
          omega
      | 1 =>
          rw [testedFrom, List.mem_singleton]
          constructor
          · rintro rfl
            exact ⟨Nat.le_refl j, by omega, fun hlt => absurd hlt (Nat.lt_irrefl j)⟩
          · rintro ⟨hlo, hhi, -⟩
            omega
      | m + 2 =>
          rw [testedFrom, List.mem_cons]
          cases hflag : flag i with
          | true =>
              obtain ⟨-, hnext⟩ := h i (Nat.le_refl i) (by omega) hflag
              rw [if_pos rfl, ih m (by omega) (i + 2) h.tail.tail]
              constructor
              · rintro (rfl | ⟨hlo, hhi, hprev⟩)
                · exact ⟨Nat.le_refl j, by omega, fun hlt => absurd hlt (Nat.lt_irrefl j)⟩
                · refine ⟨by omega, by omega, fun _ => ?_⟩
                  rcases Nat.eq_or_lt_of_le hlo with rfl | hgt
                  · exact hnext
                  · exact hprev hgt
              · rintro ⟨hlo, hhi, hprev⟩
                rcases Nat.eq_or_lt_of_le hlo with rfl | hgt
                · exact Or.inl rfl
                · refine Or.inr ⟨?_, by omega, fun _ => hprev hgt⟩
                  -- the slot after the signature is not tested
                  rcases Nat.eq_or_lt_of_le hgt with rfl | hgt'
                  · have hfree := hprev hgt
                    rw [Nat.succ_sub_one, hflag] at hfree
                    exact absurd hfree.symm Bool.false_ne_true
                  · exact hgt'
          | false =>
              rw [if_neg Bool.false_ne_true, ih (m + 1) (by omega) (i + 1) h.tail]
              constructor
              · rintro (rfl | ⟨hlo, hhi, hprev⟩)
                · exact ⟨Nat.le_refl j, by omega, fun hlt => absurd hlt (Nat.lt_irrefl j)⟩
                · refine ⟨by omega, by omega, fun _ => ?_⟩
                  rcases Nat.eq_or_lt_of_le hlo with rfl | hgt
                  · exact hflag
                  · exact hprev hgt
              · rintro ⟨hlo, hhi, hprev⟩
                rcases Nat.eq_or_lt_of_le hlo with rfl | hgt
                · exact Or.inl rfl
                · exact Or.inr ⟨hgt, by omega, fun _ => hprev (by omega)⟩

theorem rowsFrom_head {rows : List Nat} (hm : 0 < m) (hfree : flag i = false)
    (hrows : rowsFrom flag m i = some rows) : ∃ rest, rows = i :: rest := by
  match m with
  | 1 => exact ⟨[], (rowsFrom_one hrows).2⟩
  | m + 2 =>
      rcases rowsFrom_cases hrows with ⟨hflag, -⟩ | ⟨-, rest, -, hcons⟩
      · rw [hfree] at hflag
        exact absurd hflag Bool.false_ne_true
      · exact ⟨rest, hcons⟩

/-- What no second signature in a row has, the copied slots have as often as those with data. -/
theorem rowsFrom_countP {P : Nat → Bool}
    (hP : ∀ j, flag j = true → flag (j + 1) = true → P (j + 1) = false) :
    ∀ (m i : Nat) (rows : List Nat), rowsFrom flag m i = some rows →
      rows.countP P = (dataFrom flag m i).countP P := by
  intro m
  induction m using Nat.strong_induction_on with
  | _ m ih =>
      intro i rows hrows
      match m with
      | 0 =>
          obtain rfl := Option.some.inj hrows
          rfl
      | 1 =>
          obtain ⟨hflag, rfl⟩ := rowsFrom_one hrows
          rw [dataFrom_of_not_flag hflag]
          rfl
      | m + 2 =>
          rcases rowsFrom_cases hrows with ⟨hflag, rest, hrest, rfl⟩ | ⟨hflag, rest, hrest, rfl⟩
          · rw [dataFrom_of_flag hflag]
            cases hnext : flag (i + 1) with
            | true =>
                rw [dataFrom_of_flag hnext, List.countP_cons, ih m (by omega) (i + 2) rest hrest,
                  hP i hflag hnext]
                rfl
            | false =>
                rw [dataFrom_of_not_flag hnext, List.countP_cons, List.countP_cons,
                  ih m (by omega) (i + 2) rest hrest]
          · rw [dataFrom_of_not_flag hflag, List.countP_cons, List.countP_cons,
              ih (m + 1) (by omega) (i + 1) rest hrest]

end Slots

/-! ### The loop -/

namespace LiveDemux

open Slots

variable {d : LiveDemux} {src1 : Nat → T} {k : Nat}

/-- The settings of the live demux: event signatures are left out, and no bits masked. -/
structure Live (d : LiveDemux) : Prop where
  nchan_pos : 0 < d.nchan
  nchanES_eq : d.nchanES = d.nchan
  mask_eq : ∀ c, c < d.nchan → d.mask c = 0xFFFFFFFF
  showEs_eq : d.showEs = false

/-- The slots that hold a signature. -/
def flag (d : LiveDemux) (src1 : Nat → T) (j : Nat) : Bool := (d.isES src1 (j * d.nchan)).1

/-- The words that are looked at to see it. -/
def looks (d : LiveDemux) (src1 : Nat → T) (j : Nat) : List Nat := (d.isES src1 (j * d.nchan)).2

/-- The words of slot `j`, for each channel one. -/
def addRow (d : LiveDemux) (src1 : Nat → T) (j : Nat) (dddata : Nat → List T) : Nat → List T :=
  fun c => if c < d.nchan then dddata c ++ [src1 (j * d.nchan + c)] else dddata c

/-- At the beginning of slot `j`. -/
def atSlot (d : LiveDemux) (j : Nat) (dddata : Nat → List T) (reads : List Nat) : Sweep T :=
  { src := j * d.nchan, ichan := 0, dddata := dddata, reads := reads }

theorem skipES_atSlot (h : Live d) (j : Nat) (dddata : Nat → List T) (reads : List Nat) :
    d.skipES src1 (d.atSlot j dddata reads)
      = d.atSlot (if d.flag src1 j then j + 1 else j) dddata (reads ++ d.looks src1 j) := by
  unfold skipES
  rw [if_neg (by rw [h.showEs_eq]; decide)]
  unfold atSlot flag looks
  simp only
  cases (d.isES src1 (j * d.nchan)).1 with
  | true => rw [if_pos rfl, if_pos rfl, h.nchanES_eq, Nat.succ_mul]
  | false => rw [if_neg (by decide), if_neg (by decide)]

theorem copyChans_atSlot (h : Live d) (src1 : Nat → T) {j : Nat} (hj : j < k)
    (dddata : Nat → List T) (reads : List Nat) :
    ∃ s', d.copyChans src1 (k * d.nchan) d.nchan (d.atSlot j dddata reads)
        = (decide (j + 1 = k), s') ∧ (j + 1 = k → s'.ichan = 0) ∧
      { s' with ichan := 0 } = d.atSlot (j + 1) (d.addRow src1 j dddata)
        (reads ++ List.range' (j * d.nchan) d.nchan) := by
  have hpos := h.nchan_pos
  have hrow : (j + 1) * d.nchan ≤ k * d.nchan := Nat.mul_le_mul_right _ hj
  rw [Nat.succ_mul] at hrow
  have hend : k * d.nchan ≤ j * d.nchan + d.nchan ↔ j + 1 = k := by
    rw [← Nat.succ_mul]
    constructor
    · intro hle
      exact Nat.le_antisymm hj (Nat.le_of_mul_le_mul_right hle hpos)
    · intro heq
      rw [← heq]
  obtain ⟨hended, hsrc, hdeal⟩ := copyChans_deal d src1 (k * d.nchan) d.nchan
    (d.atSlot j dddata reads) hpos (Nat.zero_add _)
    (show j * d.nchan < k * d.nchan by omega)
  obtain ⟨n, hn, hle, hsrc', hreads, htrue, -⟩ := copyChans_reads d src1 (k * d.nchan) d.nchan
    (d.atSlot j dddata reads) hpos (Nat.zero_add _)
  generalize d.copyChans src1 (k * d.nchan) d.nchan (d.atSlot j dddata reads) = r
    at hended hsrc hdeal hsrc' hreads htrue ⊢
  have hmin : min d.nchan (k * d.nchan - (d.atSlot j dddata reads).src) = d.nchan := by
    show min d.nchan (k * d.nchan - j * d.nchan) = d.nchan
    omega
  have hn : n = d.nchan := by
    rw [hmin] at hsrc
    omega
  rw [hmin, deal_sample d.nchan _ _ hpos (Nat.zero_add _)] at hdeal
  have hdata : r.2.dddata = d.addRow src1 j dddata := by
    refine (congrArg Prod.snd hdeal).trans (funext fun c => ?_)
    show (if 0 ≤ c ∧ c < d.nchan then dddata c ++ _ else dddata c) = _
    unfold addRow
    by_cases hc : c < d.nchan
    · rw [if_pos ⟨Nat.zero_le c, hc⟩, if_pos hc, h.mask_eq c hc, ← UInt32.neg_one_eq,
        UInt32.and_neg_one, ofUnsigned_toUnsigned]
      rfl
    · rw [if_neg fun hboth => hc hboth.2, if_neg hc]
  have hbool : r.1 = decide (j + 1 = k) := hended.trans (decide_eq_decide.mpr hend)
  refine ⟨r.2, Prod.ext hbool rfl, fun heq => ?_, ?_⟩
  · rw [decide_eq_true heq] at hbool
    rw [(htrue hbool).2, hn]
    exact if_pos (Nat.le_add_left _ _)
  · rw [hmin] at hsrc
    rw [hn] at hreads
    rw [hdata, hsrc, hreads]
    unfold atSlot
    rw [Nat.succ_mul]

/-- What the copied slots put out. -/
def rowsOut (d : LiveDemux) (src1 : Nat → T) (rows : List Nat) (dddata : Nat → List T) (c : Nat) :
    List T := dddata c ++ rows.map fun j => src1 (j * d.nchan + c)

omit [DemuxWord T] in
theorem rowsOut_addRow (j : Nat) (rows : List Nat) (dddata : Nat → List T) {c : Nat}
    (hc : c < d.nchan) :
    d.rowsOut src1 rows (d.addRow src1 j dddata) c = d.rowsOut src1 (j :: rows) dddata c := by
  unfold rowsOut addRow
  rw [if_pos hc, List.append_assoc]
  rfl

theorem demuxLoop_atSlot (h : Live d) (src1 : Nat → T) {i j : Nat}
    (hskip : (if d.flag src1 i then i + 1 else i) = j) (hj : j < k) (fuel : Nat)
    (dddata : Nat → List T) (reads : List Nat) :
    (j + 1 = k → ∃ s', d.demuxLoop src1 (k * d.nchan) (fuel + 1) (d.atSlot i dddata reads)
        = some s' ∧
      s'.ichan = 0 ∧ s'.dddata = d.addRow src1 j dddata ∧
      s'.reads = reads ++ d.looks src1 i ++ List.range' (j * d.nchan) d.nchan) ∧
    (j + 1 ≠ k → d.demuxLoop src1 (k * d.nchan) (fuel + 1) (d.atSlot i dddata reads)
      = d.demuxLoop src1 (k * d.nchan) fuel (d.atSlot (j + 1) (d.addRow src1 j dddata)
        (reads ++ d.looks src1 i ++ List.range' (j * d.nchan) d.nchan))) := by
  obtain ⟨s', hcopy, hichan, hnext⟩ := copyChans_atSlot h src1 hj dddata
    (reads ++ d.looks src1 i)
  have hturn : d.copyChans src1 (k * d.nchan) (d.nchan - (d.atSlot i dddata reads).ichan)
      (d.skipES src1 (d.atSlot i dddata reads)) = (decide (j + 1 = k), s') := by
    rw [skipES_atSlot h, hskip]
    exact hcopy
  rw [demuxLoop, hturn]
  constructor
  · intro heq
    rw [decide_eq_true heq, if_pos rfl]
    refine ⟨s', rfl, hichan heq, ?_, ?_⟩
    · exact congrArg Sweep.dddata hnext
    · exact congrArg Sweep.reads hnext
  · intro hne
    rw [decide_eq_false hne, if_neg Bool.false_ne_true, hnext]

theorem row_lt {j w : Nat} (hj : j < k) (hw : w ∈ List.range' (j * d.nchan) d.nchan) :
    w < k * d.nchan := by
  have hrow : (j + 1) * d.nchan ≤ k * d.nchan := Nat.mul_le_mul_right _ hj
  rw [Nat.succ_mul] at hrow
  have := (List.mem_range'_1.mp hw).2
  omega

/-- After a signature in the last slot the word behind the buffer is read. -/
theorem demuxLoop_past (h : Live d) {i : Nat} (hskip : (if d.flag src1 i then i + 1 else i) = k)
    (fuel : Nat) (dddata : Nat → List T) (reads : List Nat) :
    ∃ s', d.demuxLoop src1 (k * d.nchan) (fuel + 1) (d.atSlot i dddata reads) = some s' ∧
      k * d.nchan ∈ s'.reads := by
  obtain ⟨left, hleft⟩ : ∃ left, d.nchan = left + 1 := ⟨d.nchan - 1, by
    have := h.nchan_pos
    omega⟩
  have hturn : d.copyChans src1 (k * d.nchan) (d.nchan - (d.atSlot i dddata reads).ichan)
      (d.skipES src1 (d.atSlot i dddata reads))
      = (true, { d.copyWord src1 (d.atSlot k dddata (reads ++ d.looks src1 i)) with
          ichan := if d.nchan ≤ 0 + 1 then 0 else 0 + 1 }) := by
    rw [skipES_atSlot h, hskip]
    show d.copyChans src1 (k * d.nchan) d.nchan _ = _
    conv_lhs => rw [show d.copyChans src1 (k * d.nchan) d.nchan
      = d.copyChans src1 (k * d.nchan) (left + 1) by rw [hleft], copyChans]
    exact if_pos (Nat.le_succ _)
  rw [demuxLoop, hturn]
  exact ⟨_, rfl, List.mem_append_right _ List.mem_cons_self⟩

/-- A run that has copied the slots `rows` and tested the slots `tested`; where `rows` is `none`
it has read past the end. -/
def RowsRun (d : LiveDemux) (src1 : Nat → T) (k : Nat) (dddata : Nat → List T) (reads : List Nat)
    (rows : Option (List Nat)) (tested : List Nat) (s' : Sweep T) : Prop :=
  (rows = none → k * d.nchan ∈ s'.reads) ∧
  ∀ l, rows = some l →
    s'.ichan = 0 ∧ (∀ c, c < d.nchan → s'.dddata c = d.rowsOut src1 l dddata c) ∧
    ((∀ w ∈ s'.reads, w < k * d.nchan) ↔ (∀ w ∈ reads, w < k * d.nchan) ∧
      ∀ j ∈ tested, ∀ w ∈ d.looks src1 j, w < k * d.nchan)

theorem turn_reads_iff {i j : Nat} (hj : j < k) (reads : List Nat) :
    (∀ w ∈ reads ++ d.looks src1 i ++ List.range' (j * d.nchan) d.nchan, w < k * d.nchan) ↔
      (∀ w ∈ reads, w < k * d.nchan) ∧ ∀ w ∈ d.looks src1 i, w < k * d.nchan := by
  rw [List.forall_mem_append, List.forall_mem_append, and_iff_left fun w hw => row_lt hj hw]

theorem RowsRun.last {i j : Nat} (hj : j < k) {dddata : Nat → List T} {reads : List Nat}
    {s' : Sweep T} (hichan : s'.ichan = 0) (hdata : s'.dddata = d.addRow src1 j dddata)
    (hreads : s'.reads = reads ++ d.looks src1 i ++ List.range' (j * d.nchan) d.nchan) :
    RowsRun d src1 k dddata reads (some [j]) [i] s' := by
  refine ⟨fun hnone => absurd hnone (Option.some_ne_none _), fun l hl => ?_⟩
  obtain rfl := Option.some.inj hl
  refine ⟨hichan, fun c hc => ?_, ?_⟩
  · rw [hdata, ← rowsOut_addRow j [] dddata hc, rowsOut, List.map_nil, List.append_nil]
  · rw [hreads, turn_reads_iff hj, List.forall_mem_singleton]

theorem RowsRun.cons {i j : Nat} (hj : j < k) {dddata : Nat → List T} {reads : List Nat}
    {rows : Option (List Nat)} {tested : List Nat} {s' : Sweep T}
    (h : RowsRun d src1 k (d.addRow src1 j dddata)
      (reads ++ d.looks src1 i ++ List.range' (j * d.nchan) d.nchan) rows tested s') :
    RowsRun d src1 k dddata reads (rows.map (j :: ·)) (i :: tested) s' := by
  refine ⟨fun hnone => h.1 (Option.map_eq_none_iff.mp hnone), fun l hl => ?_⟩
  obtain ⟨rest, hrest, rfl⟩ := Option.map_eq_some_iff.mp hl
  obtain ⟨hichan, hdata, hreads⟩ := h.2 rest hrest
  refine ⟨hichan, fun c hc => ?_, ?_⟩
  · rw [hdata c hc, rowsOut_addRow _ _ _ hc]
  · rw [hreads, turn_reads_iff hj, List.forall_mem_cons, and_assoc]

/-- From slot `i` on the loop copies `rowsFrom`, or reads past the end. -/
theorem demuxLoop_rows (h : Live d) (src1 : Nat → T) (k : Nat) :
    ∀ (m i fuel : Nat) (dddata : Nat → List T) (reads : List Nat), 0 < m → i + m = k → m ≤ fuel →
      ∃ s', d.demuxLoop src1 (k * d.nchan) fuel (d.atSlot i dddata reads) = some s' ∧
        RowsRun d src1 k dddata reads (rowsFrom (d.flag src1) m i) (testedFrom (d.flag src1) m i)
          s' := by
  intro m
  induction m using Nat.strong_induction_on with
  | _ m ih =>
      intro i fuel dddata reads hm hk hfuel
      obtain ⟨fuel, rfl⟩ : ∃ n, fuel = n + 1 := ⟨fuel - 1, by omega⟩
      match m with
      | 1 =>
          rw [rowsFrom, testedFrom]
          by_cases hflag : d.flag src1 i = true
          · have hskip : (if d.flag src1 i then i + 1 else i) = k := by rw [if_pos hflag, hk]
            obtain ⟨s', hs', hmem⟩ := demuxLoop_past h hskip fuel dddata reads
            rw [if_pos hflag]
            exact ⟨s', hs', fun _ => hmem, fun l hl => absurd hl.symm (Option.some_ne_none l)⟩
          · have hskip : (if d.flag src1 i then i + 1 else i) = i := if_neg hflag
            obtain ⟨s', hs', hichan, hdata, hr⟩ := (demuxLoop_atSlot h src1 hskip
              (show i < k by omega) fuel dddata reads).1 hk
            rw [if_neg hflag]
            exact ⟨s', hs', RowsRun.last (by omega) hichan hdata hr⟩
      | m + 2 =>
          rw [rowsFrom, testedFrom]
          by_cases hflag : d.flag src1 i = true
          · have hskip : (if d.flag src1 i then i + 1 else i) = i + 1 := if_pos hflag
            have hj : i + 1 < k := by omega
            obtain ⟨hlast, hmore⟩ := demuxLoop_atSlot h src1 hskip hj fuel dddata reads
            rw [if_pos hflag, if_pos hflag]
            rcases Nat.eq_zero_or_pos m with rfl | hm'
            · obtain ⟨s', hs', hichan, hdata, hr⟩ := hlast (by omega)
              exact ⟨s', hs', RowsRun.last hj hichan hdata hr⟩
            · obtain ⟨s', hs', hrun⟩ := ih m (by omega) (i + 2) fuel
                (d.addRow src1 (i + 1) dddata)
                (reads ++ d.looks src1 i ++ List.range' ((i + 1) * d.nchan) d.nchan) hm'
                (by omega) (by omega)
              rw [hmore (by omega)]
              exact ⟨s', hs', hrun.cons hj⟩
          · have hskip : (if d.flag src1 i then i + 1 else i) = i := if_neg hflag
            have hj : i < k := by omega
            obtain ⟨-, hmore⟩ := demuxLoop_atSlot h src1 hskip hj fuel dddata reads
            rw [if_neg hflag, if_neg hflag]
            obtain ⟨s', hs', hrun⟩ := ih (m + 1) (by omega) (i + 1) fuel (d.addRow src1 i dddata)
              (reads ++ d.looks src1 i ++ List.range' (i * d.nchan) d.nchan) (Nat.succ_pos m)
              (by omega) (by omega)
            rw [hmore (by omega)]
            exact ⟨s', hs', hrun.cons hj⟩

/-- Wherever the loop begins: it goes on to the end of the buffer, reads the word before the one
it stops at, and its channel keeps in step with its word. -/
theorem demuxLoop_end (h : Live d) {tlen : Nat} :
    ∀ (fuel : Nat) (s s' : Sweep T), s.ichan < d.nchan →
      d.demuxLoop src1 tlen fuel s = some s' →
        s.src < s'.src ∧ tlen ≤ s'.src ∧ s'.src - 1 ∈ s'.reads ∧ (∀ w ∈ s.reads, w ∈ s'.reads) ∧
          (s'.src + s.ichan) % d.nchan = (s.src + s'.ichan) % d.nchan := by
  intro fuel
  induction fuel with
  | zero =>
      intro s s' _ hrun
      simp [demuxLoop] at hrun
  | succ fuel ih =>
      intro s s' hichan hrun
      have hskip : (d.skipES src1 s).ichan = s.ichan ∧ s.src ≤ (d.skipES src1 s).src ∧
          (d.skipES src1 s).src % d.nchan = s.src % d.nchan ∧
          ∀ w ∈ s.reads, w ∈ (d.skipES src1 s).reads := by
        unfold skipES
        rw [if_neg (by rw [h.showEs_eq]; decide)]
        refine ⟨rfl, ?_, ?_, fun w hw => List.mem_append_left _ hw⟩
        · simp only
          split
          · exact Nat.le_add_right _ _
          · exact Nat.le_refl _
        · simp only
          split
          · rw [h.nchanES_eq, Nat.add_mod_right]
          · rfl
      rw [demuxLoop] at hrun
      simp only at hrun
      generalize d.skipES src1 s = t at hskip hrun
      obtain ⟨htichan, htsrc, htmod, htreads⟩ := hskip
      obtain ⟨n, hn, hle, hsrc, hreads, htrue, hfalse⟩ := copyChans_reads d src1 tlen
        (d.nchan - s.ichan) t (by omega) (by omega)
      generalize d.copyChans src1 tlen (d.nchan - s.ichan) t = turn at hsrc hreads htrue hfalse hrun
      have hkeep : ∀ w ∈ s.reads, w ∈ turn.2.reads := fun w hw => by
        rw [hreads]
        exact List.mem_append_left _ (htreads w hw)
      by_cases hended : turn.1 = true
      · rw [if_pos hended] at hrun
        obtain rfl := Option.some.inj hrun
        obtain ⟨hge, hout⟩ := htrue hended
        refine ⟨by omega, by omega, ?_, hkeep, ?_⟩
        · rw [hreads, hsrc]
          exact List.mem_append_right _ (List.mem_range'_1.mpr ⟨by omega, by omega⟩)
        · rw [hout, hsrc, htichan]
          split
          · have hall : t.src + n + s.ichan = t.src + d.nchan := by omega
            rw [hall, Nat.add_mod_right, htmod, Nat.add_zero]
          · rw [Nat.add_assoc, Nat.add_comm n, Nat.add_mod, htmod, ← Nat.add_mod]
      · rw [if_neg hended] at hrun
        have hn' := hfalse (by simpa using hended)
        obtain ⟨hlt, hge, hlast, hgrow, hmod⟩ := ih { turn.2 with ichan := 0 } s' h.nchan_pos hrun
        refine ⟨Nat.lt_of_le_of_lt (by rw [hsrc]; omega) hlt, hge, hlast,
          fun w hw => hgrow w (hkeep w hw), ?_⟩
        have hnext : (turn.2.src + s'.ichan) % d.nchan = s'.src % d.nchan := hmod.symm
        have hall : turn.2.src + s.ichan = t.src + d.nchan := by omega
        have hsame : (turn.2.src + s.ichan) % d.nchan = s.src % d.nchan := by
          rw [hall, Nat.add_mod_right, htmod]
        rw [Nat.add_mod, ← hnext, ← Nat.add_mod, Nat.add_right_comm, Nat.add_mod, hsame,
          ← Nat.add_mod]

/-! ### The search -/

/-- No event signature has the ids of the first channels of site 1. -/
theorem isEsWord_id (d : LiveDemux) {w : UInt32} (hw : isEsWord w = true) :
    w &&& d.idMask ≠ 0x20 &&& d.idMask ∧ w &&& d.idMask ≠ 0x21 &&& d.idMask := by
  have hmagic : w &&& evxMask = evxMagic := by simpa [isEsWord] using hw
  have hbit : w &&& 0x10 = 0x10 := by
    have hand := congrArg (· &&& (0x10 : UInt32)) hmagic
    simp only [UInt32.and_assoc] at hand
    exact hand
  have hmask : ∀ id : UInt32, w &&& d.idMask = id &&& d.idMask → id &&& 0x10 = 0x10 := by
    intro id heq
    have hand := congrArg (· &&& (0x10 : UInt32)) heq
    simp only [UInt32.and_assoc] at hand
    have hin : d.idMask &&& 0x10 = 0x10 := by
      unfold idMask
      split
      · decide
      · decide
    rw [hin, hbit] at hand
    exact hand.symm
  exact ⟨fun heq => absurd (hmask 0x20 heq) (by decide),
    fun heq => absurd (hmask 0x21 heq) (by decide)⟩

theorem isES_second (d : LiveDemux) (src1 : Nat → T) {p : Nat} (hes : (d.isES src1 p).1 = true) :
    isEsWord (unsignedAt src1 p 1) = true := by
  by_contra hnot
  unfold isES evxMatches at hes
  simp only at hes
  cases hacq : d.isAcq480 with
  | true =>
      rw [hacq] at hes
      simp [esLoop, hnot] at hes
  | false =>
      rw [hacq] at hes
      by_cases hfirst : isEsWord (unsignedAt src1 p 0) = true
      · simp [esLoop, hfirst, hnot] at hes
      · simp [esLoop, hfirst] at hes

theorem aligned_ids (d : LiveDemux) (src1 : Nat → T) {p : Nat}
    (halign : (d.aligned src1 p).1 = true) :
    d.chId (src1 p) = 0x20 &&& d.idMask ∧ d.chId (src1 (p + 1)) = 0x21 &&& d.idMask := by
  unfold aligned at halign
  by_cases h0 : d.chId (src1 p) = 0x20 &&& d.idMask
  · by_cases h1 : d.chId (src1 (p + 1)) = 0x21 &&& d.idMask
    · exact ⟨h0, h1⟩
    · simp [alignedFrom, h0, h1] at halign
  · simp [alignedFrom, h0] at halign

/-- `p` is the first word with the ids of the first channels. -/
def FoundAt (d : LiveDemux) (src1 : Nat → T) (p : Nat) : Prop :=
  (d.aligned src1 p).1 = true ∧ ∀ q, q < p → (d.aligned src1 q).1 = false

/-- The first channel is searched for. -/
def Searches (T : Type) [DemuxWord T] (d : LiveDemux) (bufferLen : Nat) (start : Bool) : Prop :=
  sizeof T = 4 ∧ start = true ∧ dataFitsBuffer T d bufferLen = false

/-- The search gives up. -/
def GivesUp (d : LiveDemux) (bufferLen : Nat) (start : Bool) (src1 : Nat → T) : Prop :=
  Searches T d bufferLen start ∧ ∀ p, p ≤ 257 → ¬d.FoundAt src1 p

instance (d : LiveDemux) (bufferLen : Nat) (start : Bool) :
    Decidable (Searches T d bufferLen start) :=
  inferInstanceAs (Decidable (_ ∧ _ ∧ _))

/-- No word from `src` to before `p` is aligned. -/
def NoneBefore (d : LiveDemux) (src1 : Nat → T) (src p : Nat) : Prop :=
  ∀ q, src ≤ q → q < p → (d.aligned src1 q).1 = false

theorem noneBefore_self (d : LiveDemux) (src1 : Nat → T) (src : Nat) :
    d.NoneBefore src1 src src := fun _ hlo hhi => absurd hhi (Nat.not_lt.mpr hlo)

theorem noneBefore_zero (d : LiveDemux) (src1 : Nat → T) (p : Nat) :
    d.NoneBefore src1 0 p ↔ ∀ q, q < p → (d.aligned src1 q).1 = false :=
  forall_congr' fun q => forall_prop_of_true (Nat.zero_le q)

theorem NoneBefore.le {src p : Nat} (h : d.NoneBefore src1 src p)
    (halign : (d.aligned src1 src).1 = true) : p ≤ src := by
  apply Nat.le_of_not_lt
  intro hlt
  rw [h src (Nat.le_refl src) hlt] at halign
  exact Bool.false_ne_true halign

theorem noneBefore_succ {src p : Nat} (halign : (d.aligned src1 src).1 = false) :
    d.NoneBefore src1 (src + 1) p ↔ d.NoneBefore src1 src p := by
  refine ⟨fun h q hlo hhi => ?_, fun h q hlo hhi => h q (Nat.le_of_succ_le hlo) hhi⟩
  rcases Nat.eq_or_lt_of_le hlo with rfl | hlt
  · exact halign
  · exact h q hlt hhi

theorem search_of_aligned {src : Nat} (halign : (d.aligned src1 src).1 = true) (fuel : Nat)
    (reads : List Nat) :
    d.search src1 (fuel + 1) src reads = (some src, reads ++ (d.aligned src1 src).2) := by
  rw [search]
  exact if_pos halign

/-- A turn that does not; the turns are as many as words are tested, so the test of the
distance is only met in the last. -/
theorem search_of_not_aligned {src : Nat} (halign : (d.aligned src1 src).1 = false) {fuel : Nat}
    (hfuel : src + (fuel + 1) = 258) (reads : List Nat) :
    d.search src1 (fuel + 1) src reads
      = d.search src1 fuel (src + 1) (reads ++ (d.aligned src1 src).2) := by
  rw [search, if_neg (by rw [halign]; decide)]
  split
  · obtain rfl : fuel = 0 := by omega
    rfl
  · rfl

/-- From word `src` on the search stops at the first word that is aligned, or gives up behind
word 257. -/
theorem search_eq_some (d : LiveDemux) (src1 : Nat → T) (a : Nat) :
    ∀ (fuel src : Nat) (reads : List Nat), src + fuel = 258 →
      ((d.search src1 fuel src reads).1 = some a ↔ src ≤ a ∧ a ≤ 257 ∧
        (d.aligned src1 a).1 = true ∧ d.NoneBefore src1 src a) := by
  intro fuel
  induction fuel with
  | zero =>
      intro src reads hfuel
      exact ⟨fun h => by simp [search] at h, fun h => by omega⟩
  | succ fuel ih =>
      intro src reads hfuel
      cases halign : (d.aligned src1 src).1 with
      | true =>
          rw [search_of_aligned halign]
          constructor
          · intro h
            obtain rfl := Option.some.inj h
            exact ⟨Nat.le_refl _, by omega, halign, noneBefore_self d src1 src⟩
          · rintro ⟨hlo, -, -, hfirst⟩
            exact congrArg some (Nat.le_antisymm hlo (hfirst.le halign))
      | false =>
          rw [search_of_not_aligned halign hfuel, ih _ _ (by omega), noneBefore_succ halign]
          constructor
          · rintro ⟨hlo, hrest⟩
            exact ⟨Nat.le_of_succ_le hlo, hrest⟩
          · rintro ⟨hlo, hhi, hfound, hbefore⟩
            have hne : src ≠ a := by
              rintro rfl
              rw [halign] at hfound
              exact Bool.false_ne_true hfound
            exact ⟨by omega, hhi, hfound, hbefore⟩

theorem mem_search (d : LiveDemux) (src1 : Nat → T) (w : Nat) :
    ∀ (fuel src : Nat) (reads : List Nat), src + fuel = 258 →
      (w ∈ (d.search src1 fuel src reads).2 ↔ w ∈ reads ∨ ∃ p, src ≤ p ∧ p ≤ 257 ∧
        d.NoneBefore src1 src p ∧ w ∈ (d.aligned src1 p).2) := by
  intro fuel
  induction fuel with
  | zero =>
      intro src reads hfuel
      exact ⟨Or.inl, fun h => h.elim id fun ⟨p, hp, hp', _⟩ => by omega⟩
  | succ fuel ih =>
      intro src reads hfuel
      have hhere := noneBefore_self d src1 src
      cases halign : (d.aligned src1 src).1 with
      | true =>
          rw [search_of_aligned halign, List.mem_append]
          refine or_congr_right ⟨fun hw => ?_, ?_⟩
          · exact ⟨src, Nat.le_refl _, by omega, hhere, hw⟩
          · rintro ⟨p, hlo, -, hfirst, hw⟩
            rwa [Nat.le_antisymm (hfirst.le halign) hlo] at hw
      | false =>
          rw [search_of_not_aligned halign hfuel, ih _ _ (by omega), List.mem_append, or_assoc]
          refine or_congr_right ⟨?_, ?_⟩
          · rintro (hw | ⟨p, hlo, hhi, hbefore, hw⟩)
            · exact ⟨src, Nat.le_refl _, by omega, hhere, hw⟩
            · exact ⟨p, Nat.le_of_succ_le hlo, hhi, (noneBefore_succ halign).mp hbefore, hw⟩
          · rintro ⟨p, hlo, hhi, hbefore, hw⟩
            rcases Nat.eq_or_lt_of_le hlo with rfl | hlt
            · exact Or.inl hw
            · exact Or.inr ⟨p, hlt, hhi, (noneBefore_succ halign).mpr hbefore, hw⟩

theorem channelAlign_eq (d : LiveDemux) (bufferLen : Nat) (start : Bool) (src1 : Nat → T) :
    d.channelAlign bufferLen start src1 = if Searches T d bufferLen start then
      d.search src1 258 0 [] else (some 0, []) := rfl

/-- The demux begins at word 0, or at the first word that is aligned. -/
theorem channelAlign_eq_some (d : LiveDemux) (bufferLen : Nat) (start : Bool) (src1 : Nat → T)
    (a : Nat) : (d.channelAlign bufferLen start src1).1 = some a ↔
      if Searches T d bufferLen start then a ≤ 257 ∧ d.FoundAt src1 a else a = 0 := by
  rw [channelAlign_eq]
  by_cases hsearch : Searches T d bufferLen start
  · rw [if_pos hsearch, if_pos hsearch, search_eq_some d src1 a 258 0 [] rfl, noneBefore_zero]
    simp [FoundAt]
  · rw [if_neg hsearch, if_neg hsearch]
    exact Option.some_inj.trans eq_comm

theorem channelAlign_eq_none (d : LiveDemux) (bufferLen : Nat) (start : Bool) (src1 : Nat → T) :
    (d.channelAlign bufferLen start src1).1 = none ↔ GivesUp d bufferLen start src1 := by
  unfold GivesUp
  rw [Option.eq_none_iff_forall_ne_some]
  simp only [ne_eq, channelAlign_eq_some]
  by_cases hsearch : Searches T d bufferLen start
  · simp [hsearch]
  · simp [hsearch]

theorem mem_channelAlign (d : LiveDemux) (bufferLen : Nat) (start : Bool) (src1 : Nat → T)
    (w : Nat) : w ∈ (d.channelAlign bufferLen start src1).2 ↔
      Searches T d bufferLen start ∧ ∃ p, p ≤ 257 ∧ (∀ q, q < p → (d.aligned src1 q).1 = false) ∧
        w ∈ (d.aligned src1 p).2 := by
  rw [channelAlign_eq]
  by_cases hsearch : Searches T d bufferLen start
  · rw [if_pos hsearch, mem_search d src1 w 258 0 [] rfl]
    simp [hsearch, noneBefore_zero]
  · rw [if_neg hsearch]
    simp [hsearch]

theorem flag_aligned (src1 : Nat → T) (hsize : sizeof T = 4) {i : Nat}
    (halign : (d.aligned src1 (i * d.nchan)).1 = true) : d.flag src1 i = false := by
  by_contra hflag
  have hword := isES_second d src1 (p := i * d.nchan) (by simpa [flag] using hflag)
  rw [unsignedAt, if_neg (by rw [hsize]; decide)] at hword
  exact (isEsWord_id d hword).2 (aligned_ids d src1 halign).2

/-- The ids of the first channels at the beginning of a slot. -/
def idsOf (d : LiveDemux) (v : T × T) : Bool :=
  decide (d.chId v.1 = 0x20 &&& d.idMask ∧ (2 ≤ d.nchan → d.chId v.2 = 0x21 &&& d.idMask))

/-- The words that they are in. -/
def idWords (d : LiveDemux) (src1 : Nat → T) (j : Nat) : T × T :=
  (src1 (j * d.nchan + 0), src1 (j * d.nchan + if 2 ≤ d.nchan then 1 else 0))

theorem idsOf_after (h : Live d) (hsize : sizeof T = 4) {j : Nat} (hj : d.flag src1 j = true)
    (hnext : d.flag src1 (j + 1) = true) : d.idsOf (d.idWords src1 (j + 1)) = false := by
  by_contra hids
  obtain ⟨h0, h1⟩ := of_decide_eq_true ((Bool.not_eq_false _).mp hids)
  by_cases htwo : 2 ≤ d.nchan
  · have hword := isES_second d src1 hnext
    rw [unsignedAt, if_neg (by rw [hsize]; decide)] at hword
    have hid := h1 htwo
    rw [idWords, if_pos htwo] at hid
    exact (isEsWord_id d hword).2 hid
  · -- the second word of a signature of one channel is the next slot
    have hone : d.nchan = 1 := by
      have := h.nchan_pos
      omega
    have hword := isES_second d src1 hj
    rw [unsignedAt, if_neg (by rw [hsize]; decide), hone, Nat.mul_one] at hword
    rw [idWords, hone, Nat.mul_one] at h0
    exact (isEsWord_id d hword).1 h0

/-- What the search has passed over is not missing only if there was no data. -/
theorem dataFrom_before_search (h : Live d) (hsize : sizeof T = 4) {m i : Nat} (hm : 0 < m)
    (halign : (d.aligned src1 (i * d.nchan)).1 = true) {rows : List Nat}
    (hrows : rowsFrom (d.flag src1) m i = some rows)
    (hout : ∀ c, c < d.nchan → rows.map (fun j => src1 (j * d.nchan + c))
      = (dataFrom (d.flag src1) (i + m) 0).map fun j => src1 (j * d.nchan + c)) :
    dataFrom (d.flag src1) i 0 = [] := by
  have hpos := h.nchan_pos
  have hfree := flag_aligned src1 hsize halign
  have hwords : rows.map (d.idWords src1)
      = (dataFrom (d.flag src1) (i + m) 0).map (d.idWords src1) := by
    have hzip : ∀ l : List Nat, l.map (d.idWords src1)
        = List.zip (l.map fun j => src1 (j * d.nchan + 0))
          (l.map fun j => src1 (j * d.nchan + if 2 ≤ d.nchan then 1 else 0)) := fun l =>
      List.zip_map'.symm
    have hsecond : (if 2 ≤ d.nchan then 1 else 0) < d.nchan := by
      split
      · omega
      · exact hpos
    rw [hzip, hzip, hout 0 hpos, hout _ hsecond]
  have hcount : rows.countP (d.idsOf ∘ d.idWords src1)
      = (dataFrom (d.flag src1) (i + m) 0).countP (d.idsOf ∘ d.idWords src1) := by
    rw [← List.countP_map, ← List.countP_map, hwords]
  have hrest := rowsFrom_countP (P := d.idsOf ∘ d.idWords src1)
    (fun _ hj hnext => idsOf_after h hsize hj hnext) m i rows hrows
  rw [hrest, dataFrom_append, Nat.zero_add, List.countP_append] at hcount
  -- the slot where the search stops has the ids
  have hids : d.idsOf (d.idWords src1 i) = true := by
    obtain ⟨h0, h1⟩ := aligned_ids d src1 halign
    refine decide_eq_true ⟨h0, fun htwo => ?_⟩
    rw [idWords, if_pos htwo]
    exact h1
  obtain ⟨rest, rfl⟩ := rowsFrom_head hm hfree hrows
  cases hbefore : dataFrom (d.flag src1) i 0 with
  | nil => rfl
  | cons p more =>
      rw [dataFrom_append, hbefore, List.cons_append, List.map_cons, List.map_cons] at hwords
      rw [hbefore, List.countP_cons, Function.comp_apply, ← (List.cons.inj hwords).1, hids,
        if_pos rfl] at hcount
      omega

/-! ### Samples of 16 bytes and more -/

theorem lt_of_mem_esLoop (cursor : Nat → UInt32) :
    ∀ (fuel left ic n : Nat) (isEs : Bool), left < 2 ^ n →
      ∀ w ∈ (esLoop cursor fuel left ic isEs).2, w < ic + n := by
  intro fuel
  induction fuel with
  | zero =>
      intro left ic n isEs _ w hw
      simp [esLoop] at hw
  | succ fuel ih =>
      intro left ic n isEs hleft w hw
      rw [esLoop] at hw
      by_cases hzero : left = 0
      · simp [hzero] at hw
      · -- a bit is left, so `n` counts it
        obtain ⟨n, rfl⟩ : ∃ m, n = m + 1 := by
          refine ⟨n - 1, ?_⟩
          rcases Nat.eq_zero_or_pos n with rfl | hn
          · omega
          · omega
        have hhalf : left / 2 < 2 ^ n := by
          rw [Nat.pow_succ] at hleft
          omega
        rw [if_neg hzero] at hw
        split at hw
        · split at hw
          · rcases List.mem_cons.mp hw with rfl | hw
            · omega
            · have := ih _ _ n _ hhalf w hw
              omega
          · rw [List.mem_singleton.mp hw]
            omega
        · have := ih _ _ n _ hhalf w hw
          omega

/-- With samples of 16 bytes a signature is told by its slot alone. -/
theorem looks_within (d : LiveDemux) (src1 : Nat → T) {k j : Nat}
    (hwide : 16 ≤ d.nchan * sizeof T) (hj : j < k) : ∀ w ∈ d.looks src1 j, w < k * d.nchan := by
  intro w hw
  unfold looks isES at hw
  obtain ⟨ic, hic, hword⟩ := List.mem_flatMap.mp hw
  have hmatches : evxMatches d.isAcq480 < 2 ^ 4 := by
    cases d.isAcq480 with
    | true => decide
    | false => decide
  have hlt := lt_of_mem_esLoop _ _ _ _ 4 _ hmatches ic hic
  have hslot : j * d.nchan + d.nchan ≤ k * d.nchan := by
    rw [← Nat.succ_mul]
    exact Nat.mul_le_mul_right _ hj
  unfold unsignedWords at hword
  rcases sizeof_cases (T := T) with hsize | hsize
  · rw [if_pos hsize] at hword
    rw [hsize] at hwide
    rcases List.mem_pair.mp hword with rfl | rfl
    · omega
    · omega
  · rw [if_neg (by rw [hsize]; decide), List.mem_singleton] at hword
    rw [hsize] at hwide
    omega

/-! ### The whole buffer -/

/-- Every channel gets its words of the slots with data and no others, the next buffer begins with
the first channel, and only the buffer is read. -/
def TakesData (d : LiveDemux) (src1 : Nat → T) (k : Nat) (out out' : LiveOut T)
    (reads : List Nat) : Prop :=
  (∀ c, c < d.nchan → out'.dddata c
    = out.dddata c ++ (dataFrom (d.flag src1) k 0).map fun j => src1 (j * d.nchan + c)) ∧
  out'.startchan = 0 ∧ ∀ w ∈ reads, w < k * d.nchan

/-- The demux can begin at slot `i`: there the search for the first channel stops, if it is
made. -/
def BeginsAt (d : LiveDemux) (bufferLen : Nat) (start : Bool) (src1 : Nat → T) (i : Nat) : Prop :=
  if Searches T d bufferLen start then i * d.nchan ≤ 257 ∧ d.FoundAt src1 (i * d.nchan) else i = 0

/-- Slots from `i` to the end, with no signature after another and the last one none, where the
words that tell the signatures are all in the buffer. -/
def CleanFrom (d : LiveDemux) (src1 : Nat → T) (k i : Nat) : Prop :=
  Clean (d.flag src1) (k - i) i ∧
    ∀ j, i ≤ j → j < k → (i < j → d.flag src1 (j - 1) = false) →
      ∀ w ∈ d.looks src1 j, w < k * d.nchan

/-- The demux begins at a slot with only signatures before it, and the slots are clean from
there on; or the search gives up, and there are only signatures.  What the search looks at is in
the buffer. -/
def SkipsClean (d : LiveDemux) (bufferLen : Nat) (start : Bool) (src1 : Nat → T) (k : Nat) :
    Prop :=
  (Searches T d bufferLen start → ∀ p, p ≤ 257 → (∀ q, q < p → (d.aligned src1 q).1 = false) →
    ∀ w ∈ (d.aligned src1 p).2, w < k * d.nchan) ∧
  ((∃ i, i < k ∧ BeginsAt d bufferLen start src1 i ∧ (∀ j, j < i → d.flag src1 j = true) ∧
      CleanFrom d src1 k i) ∨
    GivesUp d bufferLen start src1 ∧ ∀ j, j < k → d.flag src1 j = true)

theorem channelAlign_within (d : LiveDemux) (bufferLen : Nat) (start : Bool) (src1 : Nat → T)
    (tlen : Nat) : (∀ w ∈ (d.channelAlign bufferLen start src1).2, w < tlen) ↔
      (Searches T d bufferLen start → ∀ p, p ≤ 257 →
        (∀ q, q < p → (d.aligned src1 q).1 = false) → ∀ w ∈ (d.aligned src1 p).2, w < tlen) := by
  constructor
  · intro h hsearch p hp hbefore w hw
    exact h w ((mem_channelAlign d bufferLen start src1 w).mpr ⟨hsearch, p, hp, hbefore, hw⟩)
  · intro h w hw
    obtain ⟨hsearch, p, hp, hbefore, hw⟩ := (mem_channelAlign d bufferLen start src1 w).mp hw
    exact h hsearch p hp hbefore w hw

/-- The demux begins at word 0, or where the search has stopped. -/
theorem channelAlign_cases {bufferLen : Nat} {start : Bool} {a : Nat}
    (hbegin : (d.channelAlign bufferLen start src1).1 = some a) :
    a = 0 ∨ sizeof T = 4 ∧ (d.aligned src1 a).1 = true := by
  have hcases := (channelAlign_eq_some d bufferLen start src1 a).mp hbegin
  split at hcases
  · rename_i hsearch
    exact Or.inr ⟨hsearch.1, hcases.2.1⟩
  · exact Or.inl hcases

theorem beginsAt_iff (h : Live d) {bufferLen : Nat} {start : Bool} (i : Nat) :
    BeginsAt d bufferLen start src1 i ↔
      (d.channelAlign bufferLen start src1).1 = some (i * d.nchan) := by
  rw [channelAlign_eq_some]
  unfold BeginsAt
  split
  · exact Iff.rfl
  · rw [Nat.mul_eq_zero, or_iff_left (Nat.ne_of_gt h.nchan_pos)]

theorem takesData_iff_of_slot (h : Live d) {i : Nat} (hi : i < k) (out : LiveOut T)
    (looks : List Nat)
    (hbegin : i = 0 ∨ sizeof T = 4 ∧ (d.aligned src1 (i * d.nchan)).1 = true) :
    ∃ s', d.demuxLoop src1 (k * d.nchan) (k * d.nchan + 1) (d.atSlot i out.dddata looks)
        = some s' ∧
      (TakesData d src1 k out { out with dddata := s'.dddata, startchan := s'.ichan } s'.reads ↔
        (∀ w ∈ looks, w < k * d.nchan) ∧ (∀ j, j < i → d.flag src1 j = true) ∧
          CleanFrom d src1 k i) := by
  have hpos := h.nchan_pos
  have hfuel : k * 1 ≤ k * d.nchan := Nat.mul_le_mul_left k hpos
  obtain ⟨s', hs', hnone, hsome⟩ := demuxLoop_rows h src1 k (k - i) i
    (k * d.nchan + 1) out.dddata looks (Nat.sub_pos_of_lt hi) (by omega) (by omega)
  have hall : dataFrom (d.flag src1) k 0
      = dataFrom (d.flag src1) i 0 ++ dataFrom (d.flag src1) (k - i) i := by
    have happ := dataFrom_append (d.flag src1) i (k - i) 0
    rwa [Nat.add_sub_cancel' (Nat.le_of_lt hi), Nat.zero_add] at happ
  refine ⟨s', hs', ?_, ?_⟩
  · rintro ⟨hdata, -, hreads⟩
    cases hrows : rowsFrom (d.flag src1) (k - i) i with
    | none => exact absurd (hreads _ (hnone hrows)) (Nat.lt_irrefl _)
    | some rows =>
        obtain ⟨-, hout, hinside⟩ := hsome rows hrows
        have hmap : ∀ c, c < d.nchan → rows.map (fun j => src1 (j * d.nchan + c))
            = (dataFrom (d.flag src1) (i + (k - i)) 0).map fun j => src1 (j * d.nchan + c) := by
          intro c hc
          rw [Nat.add_sub_cancel' (Nat.le_of_lt hi)]
          exact List.append_cancel_left ((hout c hc).symm.trans (hdata c hc))
        have hbefore : dataFrom (d.flag src1) i 0 = [] := by
          rcases hbegin with rfl | ⟨hsize, halign⟩
          · rfl
          · exact dataFrom_before_search h hsize (Nat.sub_pos_of_lt hi) halign hrows hmap
        have hlen := congrArg List.length (hmap 0 hpos)
        rw [List.length_map, List.length_map, Nat.add_sub_cancel' (Nat.le_of_lt hi), hall,
          hbefore, List.nil_append] at hlen
        have hclean := (rowsFrom_sublist (k - i) i rows hrows).2 hlen.symm
        obtain ⟨hlooks, htests⟩ := hinside.mp hreads
        refine ⟨hlooks, fun j hj => dataFrom_eq_nil.mp hbefore j (Nat.zero_le j) (by omega),
          hclean, fun j hlo hhi hprev => ?_⟩
        exact htests j ((Clean.mem_testedFrom (k - i) i hclean j).mpr ⟨hlo, by omega, hprev⟩)
  · rintro ⟨hlooks, hbefore, hclean, htests⟩
    have htested := Clean.mem_testedFrom (k - i) i hclean
    obtain ⟨hichan, hout, hinside⟩ := hsome _ (Clean.rowsFrom_eq (k - i) i hclean)
    have hnil : dataFrom (d.flag src1) i 0 = [] :=
      dataFrom_eq_nil.mpr fun j _ hj => hbefore j (by omega)
    refine ⟨fun c hc => ?_, hichan, hinside.mpr ⟨hlooks, fun j hj => ?_⟩⟩
    · rw [hall, hnil, List.nil_append]
      exact hout c hc
    · obtain ⟨hlo, hhi, hprev⟩ := (htested j).mp hj
      exact htests j hlo (by omega) hprev

theorem takesData_self_iff (hpos : 0 < d.nchan) (src1 : Nat → T) (k : Nat) (out : LiveOut T)
    (hout : out.startchan = 0) (reads : List Nat) :
    TakesData d src1 k out out reads ↔
      (∀ w ∈ reads, w < k * d.nchan) ∧ ∀ j, j < k → d.flag src1 j = true := by
  constructor
  · rintro ⟨hdata, -, hreads⟩
    refine ⟨hreads, fun j hj => ?_⟩
    have hnil := List.self_eq_append_right.mp (hdata 0 hpos)
    exact dataFrom_eq_nil.mp (List.map_eq_nil_iff.mp hnil) j (Nat.zero_le j) (by omega)
  · rintro ⟨hreads, hall⟩
    refine ⟨fun c _ => ?_, hout, hreads⟩
    rw [dataFrom_eq_nil.mpr fun j _ hj => hall j (by omega), List.map_nil, List.append_nil]

/-- A demux that ends at the end of the buffer and with the last channel has begun at a slot. -/
theorem slot_of_demuxLoop (h : Live d) {a fuel : Nat} {dddata : Nat → List T} {looks : List Nat}
    {s' : Sweep T} (hrun : d.demuxLoop src1 (k * d.nchan) fuel
      { src := a, ichan := 0, dddata := dddata, reads := looks } = some s')
    (hichan : s'.ichan = 0) (hreads : ∀ w ∈ s'.reads, w < k * d.nchan) :
    ∃ i, i < k ∧ a = i * d.nchan := by
  obtain ⟨hlt, hge, hlast, -, hmod⟩ := demuxLoop_end h _ _ _ h.nchan_pos hrun
  have hend := hreads _ hlast
  have hsrc : s'.src = k * d.nchan := by omega
  rw [hichan, hsrc, Nat.add_zero, Nat.add_zero, Nat.mul_mod_left] at hmod
  have hdiv : a = a / d.nchan * d.nchan :=
    (Nat.div_mul_cancel (Nat.dvd_of_mod_eq_zero hmod.symm)).symm
  refine ⟨a / d.nchan, ?_, hdiv⟩
  rw [hsrc, hdiv] at hlt
  exact Nat.lt_of_mul_lt_mul_right hlt

/--
**The live demux leaves out event signatures.**  It puts out the samples without them, and
reads the buffer only, if and only if it `SkipsClean`.
-/
theorem demux_takesData_iff (d : LiveDemux) (h : Live d) (bufferLen : Nat) (start : Bool)
    (src1 : Nat → T) (k : Nat) (out : LiveOut T) (hout : out.startchan = 0) :
    (∃ rc out' reads, d.demux bufferLen start src1 (k * d.nchan * sizeof T) out
        = some (rc, out', reads) ∧ TakesData d src1 k out out' reads) ↔
      SkipsClean d bufferLen start src1 k := by
  have hpos := h.nchan_pos
  have hlen : k * d.nchan * sizeof T / sizeof T = k * d.nchan := by
    refine Nat.mul_div_cancel _ ?_
    rcases sizeof_cases (T := T) with hsize | hsize
    · omega
    · omega
  unfold demux SkipsClean
  rw [← channelAlign_within]
  simp only [hlen]
  cases hbegin : (d.channelAlign bufferLen start src1).1 with
  | none =>
      -- the search has given up
      simp only
      have hself := takesData_self_iff hpos src1 k out hout
        (d.channelAlign bufferLen start src1).2
      have hnone := (channelAlign_eq_none d bufferLen start src1).mp hbegin
      constructor
      · rintro ⟨rc, out', reads, hrun, htakes⟩
        obtain ⟨rfl, rfl, rfl⟩ : true = rc ∧ out = out' ∧
            (d.channelAlign bufferLen start src1).2 = reads := by simpa using hrun
        obtain ⟨hreads, hall⟩ := hself.mp htakes
        exact ⟨hreads, Or.inr ⟨hnone, hall⟩⟩
      · rintro ⟨hreads, ⟨i, -, hat, -⟩ | ⟨-, hall⟩⟩
        · rw [(beginsAt_iff h i).mp hat] at hbegin
          cases hbegin
        · exact ⟨true, out, _, rfl, hself.mpr ⟨hreads, hall⟩⟩
  | some a =>
      simp only [hout]
      -- from a slot the loop does as it should if the slots are clean
      have hslot : ∀ i, i < k → a = i * d.nchan → _ := fun i hi ha =>
        takesData_iff_of_slot h hi out (d.channelAlign bufferLen start src1).2
          ((channelAlign_cases hbegin).imp (fun hzero =>
            (Nat.mul_eq_zero.mp (ha.symm.trans hzero)).resolve_right (Nat.ne_of_gt hpos))
            fun halign => ha ▸ halign)
      constructor
      · rintro ⟨rc, out', reads, hrun, htakes⟩
        obtain ⟨s', hs', heq⟩ := Option.map_eq_some_iff.mp hrun
        obtain ⟨rfl, rfl, rfl⟩ : false = rc ∧
            { out with dddata := s'.dddata, startchan := s'.ichan } = out' ∧ s'.reads = reads := by
          simpa using heq
        obtain ⟨i, hi, ha⟩ := slot_of_demuxLoop h hs' htakes.2.1 htakes.2.2
        obtain ⟨s₂, hs₂, hiff⟩ := hslot i hi ha
        subst ha
        obtain rfl : s' = s₂ := Option.some.inj (hs'.symm.trans hs₂)
        obtain ⟨hreads, hbefore, hclean⟩ := hiff.mp htakes
        exact ⟨hreads, Or.inl ⟨i, hi, (beginsAt_iff h i).mpr hbegin, hbefore, hclean⟩⟩
      · rintro ⟨hreads, ⟨i, hi, hat, hbefore, hclean⟩ | ⟨hgives, -⟩⟩
        · have ha : a = i * d.nchan :=
            Option.some.inj (hbegin.symm.trans ((beginsAt_iff h i).mp hat))
          obtain ⟨s', hs', hiff⟩ := hslot i hi ha
          subst ha
          exact ⟨false, _, s'.reads, Option.map_eq_some_iff.mpr ⟨s', hs', rfl⟩,
            hiff.mpr ⟨hreads, hbefore, hclean⟩⟩
        · rw [(channelAlign_eq_none d bufferLen start src1).mpr hgives] at hbegin
          cases hbegin

/-- Eight channels of `short`, one slot the signature: `0xf150 0xaa55`, four times. -/
def esSlot (p : Nat) : UInt16 := if p % 2 = 0 then 0xf150 else 0xaa55

def eight : LiveDemux where
  nchan := 8
  nchanES := 8
  mask := fun _ => 0xFFFFFFFF
  showEs := false
  isAcq480 := false
  nosid := false
  demuxSize := 0
  firstLen := 32
  nbCat := 1

theorem live_eight : Live eight where
  nchan_pos := by decide
  nchanES_eq := rfl
  mask_eq := fun _ _ => rfl
  showEs_eq := rfl

def nothingOut : LiveOut UInt16 := { dddata := fun _ => [], startchan := 0, files := [] }

/-- The second slot is a signature. -/
def esSecond (p : Nat) : UInt16 := if p / 8 = 1 then esSlot p else UInt16.ofNat p

/-- Between two samples it is left out. -/
theorem demux_takesData_between :
    Live eight ∧ nothingOut.startchan = 0 ∧
      ∃ rc out' reads, eight.demux 0 true esSecond (3 * eight.nchan * sizeof UInt16) nothingOut
        = some (rc, out', reads) ∧ TakesData eight esSecond 3 nothingOut out' reads := by
  refine ⟨live_eight, rfl,
    (demux_takesData_iff eight live_eight 0 true esSecond 3 nothingOut rfl).mpr ?_⟩
  have hsize : ¬Searches UInt16 eight 0 true := by decide
  have hflag : ∀ j, j < 3 → (eight.flag esSecond j = true ↔ j = 1) := by decide
  refine ⟨fun hsearch => absurd hsearch hsize, Or.inl ⟨0, by decide, ?_, ?_, ?_⟩⟩
  · rw [BeginsAt, if_neg hsize]
  · intro j hj
    exact absurd hj (Nat.not_lt_zero j)
  · refine ⟨fun j _ hj hes => ?_, fun j _ hj _ => looks_within eight esSecond (by decide) hj⟩
    obtain rfl := (hflag j hj).mp hes
    exact ⟨by decide, by decide⟩

/-- In the last slot it is followed by the word behind the end: that goes to the first channel,
and the next buffer begins with the second. -/
theorem demux_past_end :
    Live eight ∧ nothingOut.startchan = 0 ∧ eight.flag esSecond 0 = false ∧
      eight.flag esSecond 1 = true ∧
      ¬∃ rc out' reads, eight.demux 0 true esSecond (2 * eight.nchan * sizeof UInt16) nothingOut
        = some (rc, out', reads) ∧ TakesData eight esSecond 2 nothingOut out' reads := by
  refine ⟨live_eight, rfl, by decide, by decide, ?_⟩
  rintro ⟨rc, out', reads, hrun, -, hstart, -⟩
  have hchan : (eight.demux 0 true esSecond (2 * eight.nchan * sizeof UInt16) nothingOut).map
      (fun r => r.2.1.startchan) = some 1 := by decide
  rw [hrun, Option.map_some, hstart] at hchan
  cases hchan

end LiveDemux

end Acq400
