/-
The table of buffers, for every layout that the kernel may hand out.

Each joining of the buffers keeps them apart and makes each of twice as many of those that
were allocated, so that they are all of one length.  The index of a buffer and the length
in the device's record stay what they were before.
-/
import Acq400.Driver.AllocHbm
import Mathlib.RingTheory.Coprime.Lemmas
import Mathlib.Tactic.NormNum

namespace Acq400

/-- Buffers do not meet, and each begins with a page. -/
structure Granted (grants : Int → Grant) (bl nb : Nat) : Prop where
  aligned : ∀ i : Nat, i < nb → pageSize ∣ (grants i).pa
  disjoint : ∀ i j : Nat, i < j → j < nb →
    Disjoint (Set.Ico (grants i).pa ((grants i).pa + bl))
      (Set.Ico (grants j).pa ((grants j).pa + bl))

/-- EMPTIES, of buffers made from the `originals`. -/
structure Coalesced (originals : List MappedHbm) (bl coal : Nat) (empties : List MappedHbm) :
    Prop where
  disjoint : empties.Pairwise fun a b => Disjoint a.cells b.cells
  unions : ∀ b ∈ empties, ∃ parts, parts ⊆ originals ∧ parts.length = 2 ^ coal ∧
    parts.IsChain MappedHbm.Adjacent ∧ b.cells = ⋃ p ∈ parts, p.cells
  len : ∀ b ∈ empties, b.len = 2 ^ coal * bl

/-- The table as `allocate_hbm` is to leave it. -/
structure HbmTable.Consistent (originals : List MappedHbm) (bl coal : Nat) (t : HbmTable) :
    Prop where
  /-- A buffer is opened by the `ix` that is reported. -/
  ix : ∀ i : Nat, i < t.adevNbuffers → ∃ b, t.hb[i]? = some b ∧ b.ix = i
  coalesced : Coalesced originals bl coal t.empties
  len : ∀ b ∈ t.empties, (b.len : Int) = t.adevBufferlen
  bufferlen : t.bufferlen = t.adevBufferlen
  nbuffers : t.nbuffers = t.adevNbuffers

/-! ### Joining -/

/-- The buffers between two joinings. -/
structure HbmPool.Tiled (originals : List MappedHbm) (bl n : Nat) (pool : HbmPool) : Prop where
  below : pool.empties.Pairwise (Extents.Below MappedHbm.pa fun b => b.len)
  tiles : ∀ b ∈ pool.empties, ∃ parts, parts ⊆ originals ∧ parts.length = n ∧
    Extents.Tiles MappedHbm.pa (fun b => b.len) parts b.pa (b.pa + b.len)
  len : ∀ b ∈ pool.empties, b.len = n * bl

theorem coalescing_foldl (l : List MappedHbm) (st : Coalescing) (hb0 : st.b0 = none) :
    (l.foldl Coalescing.next st).empties = st.empties ++
      Extents.joinPairs MappedHbm.pa (fun b => b.len) MappedHbm.join l := by
  fun_induction Extents.joinPairs MappedHbm.pa (fun b => b.len) MappedHbm.join l
    generalizing st with
  | case1 a b rest hadj ih =>
      simp [Coalescing.next, hb0, hadj, ih]
  | case2 a b rest hadj ih =>
      simp [Coalescing.next, hb0, hadj, ih]
  | case3 l hshort =>
      cases l with
      | nil => simp
      | cons a l =>
          cases l with
          | nil => simp [Coalescing.next, hb0]
          | cons b l => exact absurd rfl (hshort a b l)

namespace HbmPool.Tiled

variable {originals : List MappedHbm} {bl n : Nat} {pool : HbmPool}

theorem empties_coalesce (pool : HbmPool) : pool._coalesceBuffers.empties =
    Extents.joinPairs MappedHbm.pa (fun b => b.len) MappedHbm.join pool.empties :=
  (coalescing_foldl pool.empties ⟨none, [], 0, 0⟩ rfl).trans (List.nil_append _)

theorem coalesce (h : pool.Tiled originals bl n) :
    pool._coalesceBuffers.Tiled originals bl (2 * n) := by
  have hstart : ∀ a b : MappedHbm, (a.join b).pa = a.pa := fun _ _ => rfl
  have hlen : ∀ a b : MappedHbm, (a.join b).len = a.len + b.len := fun _ _ => rfl
  refine ⟨?_, ?_, ?_⟩
  · rw [empties_coalesce]
    exact Extents.joinPairs_pairwise hstart hlen h.below
  · rw [empties_coalesce]
    exact Extents.tiles_joinPairs hstart hlen h.tiles
  · rw [empties_coalesce, Nat.mul_assoc]
    exact Extents.len_joinPairs hlen h.len

theorem coalesceBuffers (h : pool.Tiled originals bl n) (coal : Nat) :
    (pool.coalesceBuffers coal).Tiled originals bl (2 ^ coal * n) := by
  induction coal generalizing n pool with
  | zero => exact (Nat.one_mul n).symm ▸ h
  | succ coal ih =>
      have hmul : 2 ^ (coal + 1) * n = 2 ^ coal * (2 * n) := by
        rw [Nat.pow_succ, Nat.mul_assoc]
      rw [hmul]
      exact ih h.coalesce

theorem coalesced {coal : Nat} (h : pool.Tiled originals bl (2 ^ coal)) :
    Coalesced originals bl coal pool.empties where
  disjoint := h.below.imp Extents.Below.disjoint
  unions := by
    intro b hb
    obtain ⟨parts, hparts, hlength, htiles⟩ := h.tiles b hb
    exact ⟨parts, hparts, hlength, htiles.isChain, htiles.iUnion_cells⟩
  len := h.len

end HbmPool.Tiled

/-! ### The length that is recorded -/

/-- Where all buffers are of one length, the one recorded is that of a pair, if there is one. -/
theorem coalescing_bufferlen {len : Nat} (l : List MappedHbm) (hl : ∀ b ∈ l, b.len = len)
    (st : Coalescing) (hb0 : ∀ b, st.b0 = some b → b.len = len)
    (hst : st.bufferlen = 0 ∨ st.bufferlen = CInt.wrap ((2 * len : Nat) : Int)) :
    (l.foldl Coalescing.next st).bufferlen = 0 ∨
      (l.foldl Coalescing.next st).bufferlen = CInt.wrap ((2 * len : Nat) : Int) := by
  induction l generalizing st with
  | nil => exact hst
  | cons cur l ih =>
      have hcur : cur.len = len := hl cur List.mem_cons_self
      refine ih (fun b hb => hl b (List.mem_cons_of_mem _ hb)) (st.next cur) ?_ ?_
      · intro b hb
        unfold Coalescing.next at hb
        split at hb
        · obtain rfl := Option.some.inj hb
          exact hcur
        · split_ifs at hb
      · unfold Coalescing.next
        split
        · exact hst
        · rename_i b0 hsome
          split_ifs with hadj hzero
          · right
            have hjoin : (b0.join cur).len = 2 * len := by
              show b0.len + cur.len = 2 * len
              rw [hb0 b0 hsome, hcur]
              omega
            simp only [hjoin]
          · exact hst
          · exact hst

theorem HbmPool.Tiled.bufferlen {originals : List MappedHbm} {bl n : Nat} {pool : HbmPool}
    (h : pool.Tiled originals bl n) (coal : Nat) :
    (pool.coalesceBuffers (coal + 1)).bufferlen = 0 ∨
      (pool.coalesceBuffers (coal + 1)).bufferlen =
        CInt.wrap ((2 ^ (coal + 1) * (n * bl) : Nat) : Int) := by
  induction coal generalizing n pool with
  | zero => exact coalescing_bufferlen pool.empties h.len _ nofun (.inl rfl)
  | succ coal ih =>
      have hmul : 2 ^ (coal + 1 + 1) * (n * bl) = 2 ^ (coal + 1) * (2 * n * bl) := by
        rw [Nat.pow_succ, Nat.mul_assoc, Nat.mul_assoc]
      rw [hmul]
      exact ih h.coalesce

/-- The length of a joined buffer is never that of the parts, not even as an `int`. -/
theorem wrap_joined_ne {bl : Nat} (hbl : 0 < bl) (coal : Nat) :
    CInt.wrap ((2 ^ (coal + 1) * bl : Nat) : Int) ≠ bl := by
  intro heq
  have hdvd : (4294967296 : Int) ∣ ((2 ^ (coal + 1) * bl : Nat) : Int) - bl := by
    rw [← heq]
    exact Int.dvd_self_sub_bmod
  have hfactor : ((2 ^ (coal + 1) * bl : Nat) : Int) - bl = (2 ^ (coal + 1) - 1) * bl := by
    push_cast
    ring
  have hodd : IsCoprime (4294967296 : Int) (2 ^ (coal + 1) - 1) := by
    have hbase : IsCoprime (2 : Int) (2 ^ (coal + 1) - 1) := ⟨2 ^ coal, -1, by ring⟩
    exact (show (2 : Int) ^ 32 = 4294967296 by norm_num) ▸ IsCoprime.pow_left hbase
  rw [hfactor] at hdvd
  have hle := Int.le_of_dvd (by omega) (hodd.dvd_of_dvd_mul_left hdvd)
  have hrange : CInt.wrap ((2 ^ (coal + 1) * bl : Nat) : Int) < 2147483648 :=
    Int.bmod_lt (by decide)
  omega

/-! ### The buffers that are allocated -/

/-- `n` buffers, of the indices from `ix` on. -/
def newBuffers (grants : Int → Grant) (bl : Nat) (ix : Int) (n : Nat) : List MappedHbm :=
  (List.range n).map fun (ii : Nat) => hbmNew (grants (ix + ii)) (hbmLen bl) (ix + ii)

/-- How many buffers go to GRESV. -/
def reservedBuffers (isSc : Bool) (reserveBuffers : Nat) : Nat := if isSc then reserveBuffers else 0

theorem allocateLists_eq (isSc : Bool) (reserveBuffers : Nat) (grants : Int → Grant)
    (nb bl : Nat) :
    allocateLists isSc reserveBuffers grants nb bl =
      (newBuffers grants bl 0 (reservedBuffers isSc reserveBuffers),
        newBuffers grants bl (reservedBuffers isSc reserveBuffers : Nat)
          (nb - reservedBuffers isSc reserveBuffers)) := by
  cases isSc with
  | false => rfl
  | true =>
      show (newBuffers grants bl 0 reserveBuffers, newBuffers grants bl reserveBuffers
        ((nb : Int) - reserveBuffers).toNat) = _
      rw [Int.toNat_sub]
      rfl

theorem newBuffers_len {grants : Int → Grant} {bl n : Nat} {ix : Int} :
    ∀ b ∈ newBuffers grants bl ix n, b.len = hbmLen bl := by
  intro b hb
  obtain ⟨ii, -, rfl⟩ := List.mem_map.mp hb
  rfl

theorem newBuffers_disjoint {grants : Int → Grant} {bl nb : Nat} (h : Granted grants (hbmLen bl) nb)
    {r n : Nat} (hn : n = 0 ∨ r + n ≤ nb) :
    (newBuffers grants bl r n).Pairwise fun a b => Disjoint a.cells b.cells := by
  rw [newBuffers, List.pairwise_map]
  refine List.pairwise_lt_range.imp_of_mem ?_
  intro i j _ hj hij
  have hjn := List.mem_range.mp hj
  exact h.disjoint (r + i) (r + j) (by omega) (by omega)

theorem tiled_sort (pool : HbmPool) {bl : Nat} (hbl : 0 < bl)
    (hlen : ∀ b ∈ pool.empties, b.len = bl)
    (hdisjoint : pool.empties.Pairwise fun a b => Disjoint a.cells b.cells) :
    pool.sort.Tiled pool.empties bl 1 := by
  have hmem : ∀ b ∈ pool.sort.empties, b ∈ pool.empties := fun b hb => List.mem_mergeSort.mp hb
  have hle : ∀ a b : MappedHbm, decide (hbmPaCompare a b ≤ 0) = true ↔ a.pa ≤ b.pa := by
    intro a b
    rw [decide_eq_true_iff, hbmPaCompare]
    split_ifs
    · omega
    · omega
    · omega
  refine ⟨?_, ?_, ?_⟩
  · have hsorted : pool.sort.empties.Pairwise fun a b => a.pa ≤ b.pa := by
      refine (List.pairwise_mergeSort ?_ ?_ pool.empties).imp fun h => (hle _ _).mp h
      · intro a b c hab hbc
        rw [hle] at hab hbc ⊢
        omega
      · intro a b
        rw [Bool.or_eq_true, hle, hle]
        omega
    have hapart : pool.sort.empties.Pairwise fun a b => Disjoint a.cells b.cells :=
      (List.mergeSort_perm pool.empties _).symm.pairwise hdisjoint fun h => h.symm
    refine (hsorted.and hapart).imp_of_mem ?_
    rintro a b - hb ⟨hab, hcells⟩
    refine Extents.below_of_disjoint hab ?_ hcells
    rw [hlen b (hmem b hb)]
    exact hbl
  · intro b hb
    exact ⟨[b], List.cons_subset.mpr ⟨hmem b hb, List.nil_subset _⟩, rfl, .single b⟩
  · intro b hb
    rw [hlen b (hmem b hb), Nat.one_mul]

/-! ### The table -/

theorem hbmLen_pos (bl : Nat) : 0 < hbmLen bl := Nat.mul_pos (Nat.two_pow_pos _) (by decide)

theorem toShort_eq {i : Nat} (h : i < 32768) : toShort i = i := by
  rw [toShort, Int.bmod_def]
  split
  · omega
  · omega

theorem newBuffers_getElem? {grants : Int → Grant} {bl n i : Nat} {ix : Int} (hi : i < n) :
    (newBuffers grants bl ix n)[i]? = some (hbmNew (grants (ix + i)) (hbmLen bl) (ix + i)) := by
  rw [newBuffers, List.getElem?_map, List.getElem?_range hi]
  rfl

theorem newBuffers_length (grants : Int → Grant) (bl n : Nat) (ix : Int) :
    (newBuffers grants bl ix n).length = n := by
  rw [newBuffers, List.length_map, List.length_range]

/-- Whatever is coalesced, the buffers on EMPTIES are apart, and each is made of as many of
those that were allocated. -/
theorem allocateHbm_coalesced {isSc : Bool} {reserveBuffers bufferCoal nb bl : Nat}
    {grants : Int → Grant} {nbuffers bufferlen : Int} {t : HbmTable}
    (hgranted : Granted grants (hbmLen bl) nb)
    (ht : allocateHbm isSc reserveBuffers bufferCoal grants nbuffers bufferlen nb bl = some t) :
    Coalesced (allocateLists isSc reserveBuffers grants nb bl).2 (hbmLen bl) bufferCoal
      t.empties := by
  have hdisjoint : (allocateLists isSc reserveBuffers grants nb bl).2.Pairwise
      fun a b => Disjoint a.cells b.cells := by
    rw [allocateLists_eq]
    exact newBuffers_disjoint hgranted (by omega)
  have hlen : ∀ b ∈ (allocateLists isSc reserveBuffers grants nb bl).2, b.len = hbmLen bl := by
    rw [allocateLists_eq]
    exact newBuffers_len
  simp only [allocateHbm] at ht
  split_ifs at ht with hcoal hroom hroom
  · obtain rfl := Option.some.inj ht
    have htiled := (tiled_sort
      ⟨(allocateLists isSc reserveBuffers grants nb bl).2, nbuffers, bufferlen⟩
      (hbmLen_pos bl) hlen hdisjoint).coalesceBuffers bufferCoal
    rw [Nat.mul_one] at htiled
    exact htiled.coalesced
  · obtain rfl := Option.some.inj ht
    obtain rfl : bufferCoal = 0 := by omega
    refine ⟨hdisjoint, ?_, ?_⟩
    · intro b hb
      exact ⟨[b], List.cons_subset.mpr ⟨hb, List.nil_subset _⟩, rfl, .singleton b, by simp⟩
    · intro b hb
      rw [hlen b hb, Nat.pow_zero, Nat.one_mul]

/-- The table where nothing is joined and `r` of the buffers are reserved. -/
def plainTable (grants : Int → Grant) (nbuffers bufferlen : Int) (nb bl r : Nat) : HbmTable where
  empties := newBuffers grants bl r (nb - r)
  nbuffers := nbuffers
  bufferlen := bufferlen
  gresv := (newBuffers grants bl 0 r).map fun b => { b with bstate := .reserved }
  hb := (newBuffers grants bl 0 r).map (fun b => { b with bstate := .reserved }) ++
    newBuffers grants bl r (nb - r)
  adevNbuffers := nb
  adevBufferlen := bl

theorem allocateHbm_zero (isSc : Bool) (reserveBuffers : Nat) (grants : Int → Grant)
    (nbuffers bufferlen : Int) (nb bl : Nat) (t : HbmTable) :
    allocateHbm isSc reserveBuffers 0 grants nbuffers bufferlen nb bl = some t ↔
      reservedBuffers isSc reserveBuffers ≤ nb ∧
        t = plainTable grants nbuffers bufferlen nb bl (reservedBuffers isSc reserveBuffers) := by
  simp only [allocateHbm, allocateLists_eq, ne_eq, not_true_eq_false, if_false,
    List.length_append, List.length_map, newBuffers_length]
  generalize reservedBuffers isSc reserveBuffers = r
  by_cases hr : r ≤ nb
  · rw [if_pos (by omega), Nat.add_sub_of_le hr, Option.some.injEq, eq_comm]
    exact ⟨fun ht => ⟨hr, ht⟩, fun ht => ht.2⟩
  · rw [if_neg (by omega)]
    exact ⟨nofun, fun ht => absurd ht.1 hr⟩

theorem hbmNew_ix (grant : Grant) (len : Nat) (ix : Int) :
    (hbmNew grant len ix).ix = toShort ix := rfl

/-- Entry `i` holds the buffer that was allocated with the index `i`. -/
theorem plainTable_hb (grants : Int → Grant) (nbuffers bufferlen : Int) (bl : Nat) {nb r : Nat}
    (hr : r ≤ nb) {i : Nat} (hi : i < nb) :
    ∃ b, (plainTable grants nbuffers bufferlen nb bl r).hb[i]? = some b ∧ b.ix = toShort i := by
  have hlength : ((newBuffers grants bl 0 r).map
      fun b => ({ b with bstate := .reserved } : MappedHbm)).length = r := by
    rw [List.length_map, newBuffers_length]
  simp only [plainTable]
  rcases Nat.lt_or_ge i r with hlt | hge
  · rw [List.getElem?_append_left (by omega), List.getElem?_map, newBuffers_getElem? hlt]
    refine ⟨_, rfl, ?_⟩
    simp only [hbmNew_ix, Int.zero_add]
  · rw [List.getElem?_append_right (by omega), hlength, newBuffers_getElem? (by omega)]
    refine ⟨_, rfl, ?_⟩
    rw [hbmNew_ix, show (r : Int) + (i - r : Nat) = i by omega]

/-- It is consistent if the indices fit a `short` and the module's parameters are what was
asked for. -/
theorem plainTable_consistent_iff {grants : Int → Grant} {nbuffers bufferlen : Int}
    {originals : List MappedHbm} {nb bl r : Nat} (hr : r ≤ nb)
    (hcoalesced : Coalesced originals bl 0 (newBuffers grants bl r (nb - r))) :
    (plainTable grants nbuffers bufferlen nb bl r).Consistent originals bl 0 ↔
      nb ≤ 32768 ∧ nbuffers = nb ∧ bufferlen = bl := by
  constructor
  · intro h
    refine ⟨?_, h.nbuffers, h.bufferlen⟩
    by_contra hbig
    have hlt : 32768 < nb := by omega
    -- index 32768 is negative as a `short`
    obtain ⟨b, hb, hix⟩ := h.ix 32768 (Int.ofNat_lt.mpr hlt)
    obtain ⟨b', hb', hix'⟩ := plainTable_hb grants nbuffers bufferlen bl hr hlt
    obtain rfl := Option.some.inj (hb.symm.trans hb')
    rw [hix] at hix'
    exact absurd hix' (by decide)
  · rintro ⟨hshort, rfl, rfl⟩
    refine ⟨?_, hcoalesced, ?_, rfl, rfl⟩
    · intro i hi
      have hlt : i < nb := Int.ofNat_lt.mp hi
      obtain ⟨b, hb, hix⟩ := plainTable_hb _ _ _ _ hr hlt
      exact ⟨b, hb, hix.trans (toShort_eq (by omega))⟩
    · intro b hb
      show (b.len : Int) = bl
      rw [hcoalesced.len b hb, Nat.pow_zero, Nat.one_mul]

/-- The length that the device has is not the length of joined buffers. -/
theorem coalesced_bufferlen_ne {pool : HbmPool} {bl coal : Nat} (hbl : 0 < bl)
    (hlen : ∀ b ∈ pool.empties, b.len = bl)
    (hdisjoint : pool.empties.Pairwise fun a b => Disjoint a.cells b.cells) :
    (pool.sort.coalesceBuffers (coal + 1)).bufferlen ≠ bl := by
  rcases (tiled_sort _ hbl hlen hdisjoint).bufferlen coal with hzero | hjoined
  · rw [hzero]
    omega
  · rw [hjoined, Nat.one_mul]
    exact wrap_joined_ne hbl coal

/--
**The table is consistent exactly if nothing is joined, the indices fit a `short`, the reserved
buffers are among those asked for, and the module's parameters are what was asked for.**
-/
theorem allocateHbm_consistent_iff (isSc : Bool) (reserveBuffers bufferCoal : Nat)
    (grants : Int → Grant) (nbuffers bufferlen : Int) (nb bl : Nat)
    (hgranted : Granted grants bl nb) (hlen : hbmLen bl = bl) :
    (∃ t, allocateHbm isSc reserveBuffers bufferCoal grants nbuffers bufferlen nb bl = some t ∧
      t.Consistent (allocateLists isSc reserveBuffers grants nb bl).2 bl bufferCoal) ↔
    bufferCoal = 0 ∧ nb ≤ 32768 ∧ (isSc = true → reserveBuffers ≤ nb) ∧ nbuffers = nb ∧
      bufferlen = bl := by
  have hbl : 0 < bl := hlen ▸ hbmLen_pos bl
  have hgranted' : Granted grants (hbmLen bl) nb := hlen.symm ▸ hgranted
  have hr : (isSc = true → reserveBuffers ≤ nb) ↔ reservedBuffers isSc reserveBuffers ≤ nb := by
    cases isSc with
    | false => simp [reservedBuffers]
    | true => simp [reservedBuffers]
  rw [hr]
  by_cases hcoal : bufferCoal = 0
  · subst hcoal
    have hcoalesced : ∀ hle : reservedBuffers isSc reserveBuffers ≤ nb,
        Coalesced (allocateLists isSc reserveBuffers grants nb bl).2 bl 0
          (newBuffers grants bl (reservedBuffers isSc reserveBuffers : Nat)
            (nb - reservedBuffers isSc reserveBuffers)) := by
      intro hle
      have h := allocateHbm_coalesced hgranted'
        ((allocateHbm_zero isSc reserveBuffers grants nbuffers bufferlen nb bl _).mpr ⟨hle, rfl⟩)
      rw [hlen] at h
      exact h
    constructor
    · rintro ⟨t, ht, hconsistent⟩
      obtain ⟨hle, rfl⟩ := (allocateHbm_zero ..).mp ht
      obtain ⟨hshort, hparams⟩ := (plainTable_consistent_iff hle (hcoalesced hle)).mp hconsistent
      exact ⟨rfl, hshort, hle, hparams⟩
    · rintro ⟨-, hshort, hle, hparams⟩
      exact ⟨_, (allocateHbm_zero ..).mpr ⟨hle, rfl⟩,
        (plainTable_consistent_iff hle (hcoalesced hle)).mpr ⟨hshort, hparams⟩⟩
  · refine ⟨?_, fun h => absurd h.1 hcoal⟩
    rintro ⟨t, ht, hconsistent⟩
    obtain ⟨coal, rfl⟩ := Nat.exists_eq_succ_of_ne_zero hcoal
    simp only [allocateHbm, allocateLists_eq, ne_eq, hcoal, not_false_eq_true, if_true] at ht
    split_ifs at ht
    obtain rfl := Option.some.inj ht
    refine absurd hconsistent.bufferlen (coalesced_bufferlen_ne hbl ?_ ?_)
    · intro b hb
      rw [← hlen]
      exact newBuffers_len b hb
    · exact newBuffers_disjoint hgranted' (by omega)

/-- Pages one behind the other. -/
def contiguous (ix : Int) : Grant := ⟨fun _ => 0, ix.toNat * pageSize⟩

theorem contiguous_granted (nb : Nat) : Granted contiguous pageSize nb where
  aligned i _ := Dvd.intro_left i rfl
  disjoint i j hij _ := by
    have hbelow : Extents.Below (fun n : Nat => n * pageSize) (fun _ => pageSize) i j := by
      show i * pageSize + pageSize ≤ j * pageSize
      rw [← Nat.succ_mul]
      exact Nat.mul_le_mul_right _ hij
    exact hbelow.disjoint

theorem hbmLen_page : hbmLen 4096 = 4096 := by
  rw [hbmLen, getOrder, getOrderFrom]
  rfl

theorem allocateHbm_consistent_four :
    ∃ t, allocateHbm true 2 0 contiguous 4 4096 4 4096 = some t ∧
      t.Consistent (allocateLists true 2 contiguous 4 4096).2 4096 0 :=
  (allocateHbm_consistent_iff true 2 0 contiguous 4 4096 4 4096 (contiguous_granted 4)
    hbmLen_page).mpr (by decide)

/-- Four buffers that make two: the second still has the index 2, and the device the length
of one of four. -/
theorem allocateHbm_coalesces_two :
    ∃ t, allocateHbm true 0 1 contiguous 4 4096 4 4096 = some t ∧
      t.hb.map (fun b => (b.pa, b.len, b.ix)) = [(0, 8192, 0), (8192, 8192, 2)] ∧
      t.adevBufferlen = 4096 ∧ t.bufferlen = 8192 ∧
      ¬t.Consistent (allocateLists true 0 contiguous 4 4096).2 4096 1 := by
  have hsorted : (newBuffers contiguous 4096 0 4).Pairwise
      fun a b => decide (hbmPaCompare a b ≤ 0) = true := by
    rw [newBuffers, List.pairwise_map]
    decide
  have hrun : allocateHbm true 0 1 contiguous 4 4096 4 4096 = some
      { HbmPool._coalesceBuffers ⟨newBuffers contiguous 4096 0 4, 4, 4096⟩ with
        gresv := []
        hb := (HbmPool._coalesceBuffers ⟨newBuffers contiguous 4096 0 4, 4, 4096⟩).empties
        adevNbuffers := 2
        adevBufferlen := 4096 } := by
    simp only [allocateHbm, allocateLists_eq, HbmPool.sort]
    rw [show (newBuffers contiguous 4096 (reservedBuffers true 0 : Nat)
      (4 - reservedBuffers true 0)).mergeSort (fun a b => decide (hbmPaCompare a b ≤ 0)) =
      newBuffers contiguous 4096 0 4 from List.mergeSort_of_pairwise hsorted]
    simp only [newBuffers, hbmLen_page]
    rfl
  refine ⟨_, hrun, ?_, rfl, ?_, ?_⟩
  · simp only [newBuffers, hbmLen_page]
    decide
  · simp only [newBuffers, hbmLen_page]
    decide
  · intro h
    have hbufferlen := h.bufferlen
    simp only [newBuffers, hbmLen_page] at hbufferlen
    exact absurd hbufferlen (by decide)

end Acq400
