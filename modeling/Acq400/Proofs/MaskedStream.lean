/-
The channels of a mask, and the sum of a range, whatever the length of a buffer.

The arrays of both clients have room for the whole samples of a buffer, and the loops take a turn
for what is left over as well.  So a buffer of whole samples comes out right, and any other one is
stored to an element too many.
-/
import Acq400.Proofs.ChannelMask
import Acq400.Proofs.SingleSample
import Acq400.Proofs.SubsetStream

namespace Acq400

open Reads

/-! ### The channels of a mask -/

namespace ChannelMask

variable {cm : ChannelMask}

/-- The channels, in increasing order. -/
def selected (cm : ChannelMask) : List Nat := (List.range maxbit).filter cm.bits

theorem mem_selected {ii : Nat} : ii ∈ selected cm ↔ ii < maxbit ∧ cm.bits ii = true := by
  unfold selected
  rw [List.mem_filter, List.mem_range]

theorem getChannelcount_eq (hset : cm.isBitset = true) :
    getChannelcount cm = ((selected cm).length : Nat) := by
  unfold getChannelcount selected
  rw [if_pos hset, List.countP_eq_length_filter]
  rfl

theorem le_topchan (hset : cm.isBitset = true) :
    (∀ ii ∈ selected cm, ii ≤ (getTopchan cm).toNat) ∧ (getTopchan cm).toNat < maxbit := by
  have htop : getTopchan cm =
      ((List.range 256).foldl (fun topchan ii => if cm.bits ii then ii else topchan) 0 : Nat) :=
    if_pos hset
  rw [htop, Int.toNat_natCast]
  obtain ⟨hle, hlast⟩ := foldl_top cm.bits 256
  refine ⟨fun ii hii => ?_, ?_⟩
  · obtain ⟨hii, hb⟩ := mem_selected.mp hii
    exact hle ii hii hb
  · have h256 : maxbit = 256 := rfl
    omega

theorem firstchan_le (hset : cm.isBitset = true) {ii : Nat} (hii : ii ∈ selected cm) :
    (getFirstchan cm).toNat ≤ ii := by
  obtain ⟨hlt, hb⟩ := mem_selected.mp hii
  have hfirst : getFirstchan cm = (((List.range 256).find? cm.bits).getD 0 : Nat) := if_pos hset
  rw [hfirst, Int.toNat_natCast]
  cases hfind : (List.range 256).find? cm.bits with
  | none => exact Nat.zero_le ii
  | some first =>
      refine Nat.not_lt.mp fun hbelow => ?_
      have := (List.find?_range_eq_some.mp hfind).2.2 ii hbelow
      simp [hb] at this

/-- The channels from the first to the top one are all of them. -/
theorem filter_first_top (hset : cm.isBitset = true) (hne : selected cm ≠ []) :
    (List.range' (getFirstchan cm).toNat
      ((getTopchan cm).toNat + 1 - (getFirstchan cm).toNat)).filter cm.bits = selected cm := by
  obtain ⟨hle, hlt⟩ := le_topchan hset
  obtain ⟨ch, hch⟩ := List.exists_mem_of_ne_nil _ hne
  have hfirst := firstchan_le hset hch
  have htop := hle ch hch
  generalize hf : (getFirstchan cm).toNat = first at hfirst ⊢
  generalize ht : (getTopchan cm).toNat = top at hle hlt htop ⊢
  have hsplit : List.range maxbit =
      List.range' 0 first ++ (List.range' first (top + 1 - first) ++
        List.range' (top + 1) (maxbit - (top + 1))) := by
    have hlast : first + (top + 1 - first) = top + 1 := by omega
    have hrest : top + 1 - first + (maxbit - (top + 1)) = maxbit - first := by omega
    have hall : first + (maxbit - first) = maxbit := by omega
    have hmid := List.range'_append_1 (s := first) (m := top + 1 - first) (n := maxbit - (top + 1))
    have hfront := List.range'_append_1 (s := 0) (m := first) (n := maxbit - first)
    rw [hlast, hrest] at hmid
    rw [Nat.zero_add, hall] at hfront
    rw [hmid, hfront, List.range_eq_range']
  have hbelow : (List.range' 0 first).filter cm.bits = [] := by
    rw [List.filter_eq_nil_iff]
    intro ii hii hb
    have := (List.mem_range'_1.mp hii).2
    have := firstchan_le hset (mem_selected.mpr ⟨by omega, hb⟩)
    omega
  have habove : (List.range' (top + 1) (maxbit - (top + 1))).filter cm.bits = [] := by
    rw [List.filter_eq_nil_iff]
    intro ii hii hb
    have hmem := List.mem_range'_1.mp hii
    have := hle ii (mem_selected.mpr ⟨by omega, hb⟩)
    omega
  unfold selected
  rw [hsplit, List.filter_append, List.filter_append, hbelow, habove, List.nil_append,
    List.append_nil]

end ChannelMask

theorem G.word_in_buffer {g : G} (hword : g.WordsizeOk) {isam ii : Nat}
    (hisam : isam < g.bufferlen / g.sampleSize) (hii : ii < g.nchan) :
    isam * g.sampleSize + ii * g.sizeofT + g.sizeofT ≤ g.bufferlen := by
  have hsample : ii * g.sizeofT + g.sizeofT ≤ g.sampleSize := by
    rw [hword.sizeofT, ← Nat.succ_mul]
    exact Nat.mul_le_mul_right _ hii
  have hwhole : (isam + 1) * g.sampleSize ≤ g.bufferlen :=
    Nat.le_trans (Nat.mul_le_mul_right _ hisam) (Nat.div_mul_le_self _ _)
  rw [Nat.succ_mul] at hwhole
  omega

/-! ### The definition of a client -/

/-- The range without a start that is printed is read as its length. -/
theorem getStartLen_decimalText {n : Nat} (hn : n ≤ 2147483647) (nchan : Nat) :
    getStartLen nchan (Sscanf.decimalText n) = (0, (n : Int)) := by
  have htext : Sscanf.decimalText n = Nat.toDigits 10 n := by
    unfold Sscanf.decimalText
    rw [if_neg (by omega), Int.natAbs_natCast]
  have hvalue : Sscanf.decimal (Nat.toDigits 10 n) = n := by
    rw [Sscanf.decimal_eq, Nat.ofDigitChars_ten_toDigits]
  have hscan := Sscanf.cint_digits [] Nat.toDigits_ne_nil
    (fun c hc => Sscanf.toDigits_isDigit hc) (by rw [hvalue]; exact hn) head_nil
  rw [List.append_nil, hvalue] at hscan
  have hfields : MultiEventServer.scanFields 2 (Sscanf.decimalText n) = [(n : Int)] := by
    rw [htext, MultiEventServer.scanFields, hscan]
  unfold getStartLen
  rw [hfields]

namespace SubsetStreamHeadClientChannelMask

variable {g : G} {c : SubsetStreamHeadClientChannelMask} {m : Mem}

/-- The words of the channels of the sample at `data`. -/
def maskWords (g : G) (cm : ChannelMask) (m : Mem) (data : Nat) : List UInt8 :=
  cm.selected.flatMap fun ii => cells m (data + ii * g.sizeofT) g.sizeofT

/-- What is known of a client, without `double_up`. -/
structure Made (g : G) (c : SubsetStreamHeadClientChannelMask) : Prop where
  size_pos : 0 < g.sampleSize
  stride : c.totchan * g.sizeofT = g.sampleSize
  len : c.len = c.cm.selected.length
  nbuf : c.nbuf = g.bufferlen / g.sampleSize * c.len
  chans : (List.range' c.firstchan (c.topchan + 1 - c.firstchan)).filter c.cm.bits = c.cm.selected

theorem length_selected_le (cm : ChannelMask) : cm.selected.length ≤ maxbit := by
  unfold ChannelMask.selected
  refine Nat.le_trans (List.length_filter_le _ _) ?_
  rw [List.length_range]

theorem create_made {isAcq480 : Bool} {cm : ChannelMask} (hdouble : g.doubleUp = false)
    (hword : g.WordsizeOk) (hset : cm.isBitset = true) (hne : cm.selected ≠ [])
    (h : create g isAcq480 cm = some c) : c.cm = cm ∧ Made g c := by
  have hmax := length_selected_le cm
  have h256 : maxbit = 256 := rfl
  unfold create SubsetStreamHeadClientImpl.create at h
  rw [ChannelMask.getChannelcount_eq hset, getStartLen_decimalText (by omega)] at h
  dsimp only at h
  by_cases hfail : ((cm.selected.length : Nat) : Int) < 0 ∨ g.sampleSize = 0
  · rw [if_pos hfail] at h
    cases h
  · rw [if_neg hfail, hdouble] at h
    obtain rfl := Option.some.inj h
    refine ⟨rfl, ?_, ?_, ?_, ?_, ?_⟩
    · exact Nat.pos_of_ne_zero fun h0 => hfail (Or.inr h0)
    · rw [hword.sizeofT]
      exact congrArg (· * g.wordsize) (Nat.one_mul g.nchan)
    · exact Nat.one_mul _
    · exact congrArg (g.bufferlen / g.sampleSize * ·) (Nat.one_mul _).symm
    · exact ChannelMask.filter_first_top hset hne

/-! ### Gathering -/

theorem gatherChan_of_mem {sample ii : Nat} {s : ClientBuf × List Nat}
    (h : c.cm.bits ii = true) :
    c.gatherChan g m sample s ii =
      ({ mem := memcpy s.1.mem (s.1.pb * g.sizeofT) (fun k => m (sample + ii * g.sizeofT + k))
          g.sizeofT
         pb := s.1.pb + 1
         stored := s.1.stored ++ [s.1.pb] },
        s.2 ++ [sample + ii * g.sizeofT]) := if_pos h

theorem gatherChan_of_not_mem {sample ii : Nat} {s : ClientBuf × List Nat}
    (h : ¬c.cm.bits ii = true) : c.gatherChan g m sample s ii = s := if_neg h

theorem foldl_gatherChan (sample : Nat) (chans : List Nat) (s : ClientBuf × List Nat) :
    let t := chans.foldl (c.gatherChan g m sample) s
    t.1.pb = s.1.pb + (chans.filter c.cm.bits).length ∧
      cells t.1.mem 0 (t.1.pb * g.sizeofT) = cells s.1.mem 0 (s.1.pb * g.sizeofT) ++
        (chans.filter c.cm.bits).flatMap (fun ii => cells m (sample + ii * g.sizeofT) g.sizeofT) ∧
      t.2 = s.2 ++ (chans.filter c.cm.bits).map (sample + · * g.sizeofT) ∧
      ∀ e ∈ t.1.stored, e ∈ s.1.stored ∨ e < t.1.pb := by
  induction chans generalizing s with
  | nil =>
      refine ⟨rfl, ?_, ?_, fun e he => Or.inl he⟩
      · exact (List.append_nil _).symm
      · exact (List.append_nil _).symm
  | cons ii chans ih =>
      rw [List.foldl_cons]
      by_cases hii : c.cm.bits ii = true
      · rw [gatherChan_of_mem hii, List.filter_cons_of_pos hii]
        obtain ⟨hpb, hmem, hreads, hstored⟩ := ih
          ({ mem := memcpy s.1.mem (s.1.pb * g.sizeofT)
               (fun k => m (sample + ii * g.sizeofT + k)) g.sizeofT
             pb := s.1.pb + 1
             stored := s.1.stored ++ [s.1.pb] },
            s.2 ++ [sample + ii * g.sizeofT])
        refine ⟨?_, ?_, ?_, ?_⟩
        · rw [hpb, List.length_cons]
          dsimp only
          omega
        · rw [hmem, List.flatMap_cons, ← List.append_assoc]
          dsimp only
          rw [Nat.succ_mul, cells_memcpy, cells_from]
        · rw [hreads, List.map_cons, List.append_assoc]
          rfl
        · intro e he
          rcases hstored e he with he | he
          · rcases List.mem_append.mp he with he | he
            · exact Or.inl he
            · obtain rfl := List.mem_singleton.mp he
              refine Or.inr ?_
              rw [hpb]
              dsimp only
              omega
          · exact Or.inr he
      · rw [gatherChan_of_not_mem hii, List.filter_cons_of_neg hii]
        exact ih s

theorem gather_spec (hc : Made g c) (sample : Nat) (s : ClientBuf × List Nat)
    (hs : ∀ e ∈ s.1.stored, e < c.len) :
    let t := c.gather g m s sample
    cells t.1.mem 0 (c.len * g.sizeofT) = maskWords g c.cm m sample ∧
      t.2 = s.2 ++ c.cm.selected.map (sample + · * g.sizeofT) ∧
      ∀ e ∈ t.1.stored, e < c.len := by
  obtain ⟨hpb, hmem, hreads, hstored⟩ := foldl_gatherChan (g := g) (c := c) (m := m) sample
    (List.range' c.firstchan (c.topchan + 1 - c.firstchan)) ({ s.1 with pb := 0 }, s.2)
  rw [hc.chans] at hpb hmem hreads
  have hlen : (c.gather g m s sample).1.pb = c.len := by
    rw [hc.len]
    exact hpb.trans (Nat.zero_add _)
  refine ⟨?_, hreads, ?_⟩
  · rw [← hlen]
    refine hmem.trans ?_
    rw [Nat.zero_mul]
    rfl
  · intro e he
    rcases hstored e he with he | he
    · exact hs e he
    · exact Nat.lt_of_lt_of_eq he hlen

/-! ### A buffer -/

/-- The words of the channels of the first `n` samples. -/
def wantedMask (g : G) (cm : ChannelMask) (m : Mem) (base n : Nat) : List UInt8 :=
  (List.range n).flatMap fun isam => maskWords g cm m (base + isam * g.sampleSize)

/-- After `k` samples. -/
structure After (g : G) (c : SubsetStreamHeadClientChannelMask) (m : Mem) (base k : Nat)
    (s : Streamed) : Prop where
  pb : s.buf.pb = k * c.len
  mem : cells s.buf.mem 0 (k * c.len * g.sizeofT) = wantedMask g c.cm m base k
  stored : ∀ e, e ∈ s.buf.stored ↔ e < k * c.len
  csample : ∀ e ∈ s.csample.stored, e < c.len
  reads : ∀ a ∈ s.reads, ∃ isam, isam < k ∧ ∃ ii ∈ c.cm.selected,
    a = base + isam * g.sampleSize + ii * g.sizeofT
  out : s.out = []

variable {base : Nat}

theorem After.start (buf csample : Nat → UInt8) :
    After g c m base 0
      { buf := { mem := buf, pb := 0, stored := [] }
        csample := { mem := csample, pb := 0, stored := [] }
        reads := []
        out := [] } := by
  refine ⟨(Nat.zero_mul _).symm, ?_, ?_, ?_, ?_, rfl⟩
  · rw [Nat.zero_mul, Nat.zero_mul]
    rfl
  · intro e
    rw [Nat.zero_mul]
    exact iff_of_false (fun he => nomatch he) (Nat.not_lt_zero e)
  · intro e he
    cases he
  · intro a ha
    cases ha

theorem After.turn (hc : Made g c) {k : Nat} {s : Streamed} (hs : After g c m base k s) :
    After g c m base (k + 1) (c.turn g m base s (k * g.sampleSize)) := by
  obtain ⟨hgather, hreads, hcsample⟩ :=
    gather_spec (m := m) hc (base + k * g.sampleSize) (s.csample, s.reads) hs.csample
  have hpb := hs.pb
  refine ⟨?_, ?_, ?_, hcsample, ?_, hs.out⟩
  · rw [Nat.succ_mul, ← hpb]
    rfl
  · have hwanted : wantedMask g c.cm m base (k + 1) =
        wantedMask g c.cm m base k ++ maskWords g c.cm m (base + k * g.sampleSize) := by
      unfold wantedMask
      rw [List.range_succ, List.flatMap_append, List.flatMap_singleton]
    rw [hwanted, ← hs.mem, ← hgather, ← hpb, Nat.succ_mul, ← hpb, Nat.add_mul]
    exact cells_memcpy _ _ _ _
  · intro e
    have hmem : e ∈ s.buf.stored ++ List.range' s.buf.pb c.len ↔ e < (k + 1) * c.len := by
      rw [List.mem_append, hs.stored, List.mem_range'_1, hpb, Nat.succ_mul]
      omega
    exact hmem
  · intro a ha
    have ha : a ∈ s.reads ++ c.cm.selected.map (base + k * g.sampleSize + · * g.sizeofT) :=
      hreads ▸ ha
    rcases List.mem_append.mp ha with ha | ha
    · obtain ⟨isam, hisam, h⟩ := hs.reads a ha
      exact ⟨isam, Nat.lt_succ_of_lt hisam, h⟩
    · obtain ⟨ii, hii, rfl⟩ := List.mem_map.mp ha
      exact ⟨k, Nat.lt_succ_self k, ii, hii, rfl⟩

/-- What the reads, the stores and the output of a buffer are to be. -/
structure Right (g : G) (c : SubsetStreamHeadClientChannelMask) (m : Mem) (ib : Nat)
    (buf csample : Nat → UInt8) : Prop where
  returns : ∃ s, c.onStreamBufferStart g m ib buf csample = some s ∧
    (∀ a ∈ s.reads, MapBuffer.getBase g ib ≤ a ∧
      a + g.sizeofT ≤ MapBuffer.getBase g ib + g.bufferlen) ∧
    (∀ e ∈ s.buf.stored, e < c.nbuf) ∧ (∀ e ∈ s.csample.stored, e < c.len) ∧
    s.out = wantedMask g c.cm m (MapBuffer.getBase g ib) (g.bufferlen / g.sampleSize)

/-- The mask client is right if and only if the buffer is one of whole samples. -/
theorem onStreamBufferStart_mask_iff (hword : g.WordsizeOk) (hc : Made g c)
    (hne : c.cm.selected ≠ []) (hchan : ∀ ii ∈ c.cm.selected, ii < g.nchan) (ib : Nat)
    (buf csample : Nat → UInt8) :
    Right g c m ib buf csample ↔ g.sampleSize ∣ g.bufferlen := by
  obtain ⟨s, hs, hafter⟩ := Strides.loop_invariant (c.turn g m (MapBuffer.getBase g ib))
    (After g c m (MapBuffer.getBase g ib)) hc.size_pos (Nat.lt_succ_self g.bufferlen)
    (After.start buf csample) (fun k s _ hk => hk.turn hc)
  have hreturn : c.onStreamBufferStart g m ib buf csample =
      some { s with out := s.out ++ cells s.buf.mem 0 (s.buf.pb * g.sizeofT) } := by
    unfold onStreamBufferStart
    rw [hc.stride, hs, Option.map_some]
  constructor
  · intro hright
    by_contra hpart
    obtain ⟨t, ht, -, hstored, -⟩ := hright.returns
    obtain rfl := Option.some.inj (hreturn.symm.trans ht)
    -- the first element of what is left over
    have hturn := Strides.div_lt_turns hc.size_pos hpart
    have hlen : 0 < c.len := by
      rw [hc.len]
      exact List.length_pos_of_ne_nil hne
    have hmem := (hafter.stored (g.bufferlen / g.sampleSize * c.len)).mpr
      (Nat.mul_lt_mul_of_pos_right hturn hlen)
    have := hstored _ hmem
    rw [hc.nbuf] at this
    exact absurd this (Nat.lt_irrefl _)
  · intro hwhole
    rw [Strides.turns_of_dvd hc.size_pos hwhole] at hafter
    refine ⟨_, hreturn, ?_, ?_, hafter.csample, ?_⟩
    · intro a ha
      obtain ⟨isam, hisam, ii, hii, rfl⟩ := hafter.reads a ha
      have := G.word_in_buffer hword hisam (hchan ii hii)
      omega
    · intro e he
      rw [hc.nbuf]
      exact (hafter.stored e).mp he
    · dsimp only
      rw [hafter.out, hafter.pb, hafter.mem]
      rfl

end SubsetStreamHeadClientChannelMask

/-! ### The sum -/

/-- A word of T, without the eight bits that are no data, is in the range of 24 bits. -/
theorem G.loadT_shr_range (g : G) (m : Mem) (a : Nat) :
    -8388608 ≤ g.loadT m a >>> SumStreamHeadClientImpl.shr g ∧
      g.loadT m a >>> SumStreamHeadClientImpl.shr g < 8388608 := by
  unfold G.loadT SumStreamHeadClientImpl.shr
  by_cases h : g.sizeofT = 4
  · rw [if_pos h, if_pos h]
    exact SingleSample.shiftRight_range (a := 23) (n := 8) (BitVec.le_toInt _) BitVec.toInt_lt
  · have hlow := BitVec.le_toInt ((m (a + 1)).toBitVec ++ (m a).toBitVec)
    have hhigh := BitVec.toInt_lt (x := (m (a + 1)).toBitVec ++ (m a).toBitVec)
    rw [if_neg h, if_neg h, Int.shiftRight_zero]
    norm_num at hlow hhigh
    omega

namespace SumStreamHeadClientImpl

variable {g : G} {c : SumStreamHeadClientImpl} {m : Mem} {base : Nat}

/-- The words of a sample that are added. -/
def words (g : G) (c : SumStreamHeadClientImpl) (data : Nat) : List Nat :=
  (List.range' c.start c.len).map (data + · * g.sizeofT)

/-- The sum of the channels. -/
def wantedSum (g : G) (m : Mem) (words : List Nat) : Int :=
  (words.map fun a => g.loadT m a >>> shr g).sum

theorem sumOf_range (n : Nat) (hn : n ≤ 256) :
    ∀ words : List Nat, words.length = n →
      sumOf g m words = wantedSum g m words ∧
        -(n * 8388608 : Int) ≤ wantedSum g m words ∧
        wantedSum g m words + n ≤ (n * 8388608 : Int) := by
  induction n with
  | zero =>
      intro words h
      obtain rfl := List.length_eq_zero_iff.mp h
      exact ⟨rfl, Int.le_refl _, Int.le_refl _⟩
  | succ n ih =>
      intro words h
      obtain ⟨front, last, rfl⟩ : ∃ front last, words = front ++ [last] := by
        have hne : words ≠ [] := List.ne_nil_of_length_eq_add_one h
        exact ⟨words.dropLast, words.getLast hne, (List.dropLast_append_getLast hne).symm⟩
      rw [List.length_append, List.length_singleton] at h
      obtain ⟨heq, hlow, hhigh⟩ := ih (by omega) front (by omega)
      have hlast := g.loadT_shr_range m last
      have hsum : wantedSum g m (front ++ [last]) =
          wantedSum g m front + g.loadT m last >>> shr g := by
        unfold wantedSum
        rw [List.map_append, List.sum_append, List.map_singleton, List.sum_singleton]
      have hwrap : sumOf g m (front ++ [last]) =
          CInt.wrap (sumOf g m front + g.loadT m last >>> shr g) := by
        unfold sumOf
        rw [List.foldl_append, List.foldl_cons, List.foldl_nil]
      rw [hwrap, heq, hsum]
      generalize g.loadT m last >>> shr g = x at hlast
      have hrange : CInt.InRange (wantedSum g m front + x) := by
        unfold CInt.InRange
        omega
      refine ⟨CInt.wrap_of_inRange hrange, ?_, ?_⟩
      · push_cast
        omega
      · push_cast
        omega

/-- After `k` samples. -/
structure After (g : G) (c : SumStreamHeadClientImpl) (m : Mem) (base k : Nat) (s : Streamed) :
    Prop where
  isam : s.isam = k
  sums : ∀ isam, isam < k →
    s.sumBuf isam = wantedSum g m (words g c (base + isam * g.sampleSize))
  stored : ∀ e, e ∈ s.stored ↔ e < k
  reads : ∀ a ∈ s.reads, ∃ isam, isam < k ∧ a ∈ words g c (base + isam * g.sampleSize)

theorem After.start (sumBuf : Nat → Int) :
    After g c m base 0 { sumBuf := sumBuf, isam := 0, stored := [], reads := [] } := by
  refine ⟨rfl, ?_, ?_, ?_⟩
  · intro isam hisam
    exact absurd hisam (Nat.not_lt_zero isam)
  · intro e
    exact iff_of_false (fun he => nomatch he) (Nat.not_lt_zero e)
  · intro a ha
    cases ha

theorem After.turn (hlen : c.len ≤ maxbit) {k : Nat} {s : Streamed} (hs : After g c m base k s) :
    After g c m base (k + 1) (c.turn g m base s (k * g.sampleSize)) := by
  have hcount : (words g c (base + k * g.sampleSize)).length ≤ maxbit := by
    unfold words
    rw [List.length_map, List.length_range']
    exact hlen
  have hisam := hs.isam
  refine ⟨congrArg (· + 1) hisam, ?_, ?_, ?_⟩
  · intro isam hlt
    change Function.update s.sumBuf s.isam
      (sumOf g m (words g c (base + k * g.sampleSize))) isam = _
    by_cases hk : isam = k
    · rw [hk, hisam, Function.update_self]
      exact (sumOf_range _ hcount _ rfl).1
    · rw [hisam, Function.update_of_ne hk]
      exact hs.sums isam (by omega)
  · intro e
    have hmem : e ∈ s.stored ++ [s.isam] ↔ e < k + 1 := by
      rw [List.mem_append, hs.stored, List.mem_singleton, hisam]
      omega
    exact hmem
  · intro a ha
    rcases List.mem_append.mp ha with ha | ha
    · obtain ⟨isam, hlt, hmem⟩ := hs.reads a ha
      exact ⟨isam, Nat.lt_succ_of_lt hlt, hmem⟩
    · exact ⟨k, Nat.lt_succ_self k, ha⟩

/-- What the reads, the stores and the output of a buffer are to be. -/
structure Right (g : G) (c : SumStreamHeadClientImpl) (m : Mem) (ib : Nat) (sumBuf : Nat → Int) :
    Prop where
  returns : ∃ s out, c.onStreamBufferStart g m ib sumBuf = some (s, out) ∧
    (∀ a ∈ s.reads, MapBuffer.getBase g ib ≤ a ∧
      a + g.sizeofT ≤ MapBuffer.getBase g ib + g.bufferlen) ∧
    (∀ e ∈ s.stored, e < c.nbuf) ∧
    out = (List.range (g.bufferlen / g.sampleSize)).map fun isam =>
      wantedSum g m (words g c (MapBuffer.getBase g ib + isam * g.sampleSize))

theorem create_made {def_ : List Char} (h : create g def_ = some c) :
    0 < g.sampleSize ∧ c.nbuf = g.bufferlen / g.sampleSize := by
  unfold create at h
  generalize getStartLen g.nchan def_ = startLen at h
  dsimp only at h
  by_cases hfail : g.sampleSize = 0
  · rw [if_pos hfail] at h
    cases h
  · rw [if_neg hfail] at h
    obtain rfl := Option.some.inj h
    exact ⟨Nat.pos_of_ne_zero hfail, rfl⟩

/-- The sum client is right if and only if the buffer is one of whole samples. -/
theorem onStreamBufferStart_sum_iff {def_ : List Char} (hword : g.WordsizeOk)
    (h : create g def_ = some c) (hchan : c.start + c.len ≤ g.nchan)
    (hbit : c.start + c.len ≤ maxbit) (ib : Nat) (sumBuf : Nat → Int) :
    Right g c m ib sumBuf ↔ g.sampleSize ∣ g.bufferlen := by
  obtain ⟨hpos, hnbuf⟩ := create_made h
  have hlen : c.len ≤ maxbit := Nat.le_trans (Nat.le_add_left _ _) hbit
  obtain ⟨s, hs, hafter⟩ := Strides.loop_invariant (c.turn g m (MapBuffer.getBase g ib))
    (After g c m (MapBuffer.getBase g ib)) hpos (Nat.lt_succ_self g.bufferlen)
    (After.start sumBuf) (fun k s _ hk => hk.turn hlen)
  have hreturn : c.onStreamBufferStart g m ib sumBuf = some (s, cells s.sumBuf 0 c.nbuf) := by
    have hstride : g.nchan * g.sizeofT = g.sampleSize := by
      rw [hword.sizeofT]
      rfl
    unfold onStreamBufferStart
    rw [hstride, hs, Option.map_some]
  constructor
  · intro hright
    by_contra hpart
    obtain ⟨t, out, ht, -, hstored, -⟩ := hright.returns
    obtain ⟨rfl, -⟩ := Prod.mk.inj (Option.some.inj (hreturn.symm.trans ht))
    have hmem := (hafter.stored (g.bufferlen / g.sampleSize)).mpr (Strides.div_lt_turns hpos hpart)
    have := hstored _ hmem
    rw [hnbuf] at this
    exact absurd this (Nat.lt_irrefl _)
  · intro hwhole
    rw [Strides.turns_of_dvd hpos hwhole] at hafter
    refine ⟨s, _, hreturn, ?_, ?_, ?_⟩
    · intro a ha
      obtain ⟨isam, hisam, hmem⟩ := hafter.reads a ha
      obtain ⟨ic, hic, rfl⟩ := List.mem_map.mp hmem
      have hic := List.mem_range'_1.mp hic
      have := G.word_in_buffer hword hisam
        (show ic < g.nchan by omega)
      omega
    · intro e he
      rw [hnbuf]
      exact (hafter.stored e).mp he
    · rw [hnbuf]
      unfold cells
      rw [List.range_eq_range']
      refine List.map_congr_left fun isam hisam => ?_
      have := (List.mem_range'_1.mp hisam).2
      exact hafter.sums isam (by omega)

end SumStreamHeadClientImpl

/-! ### Both -/

/-- What is asked of the two clients. -/
structure GeometryRight (g : G) (c : SubsetStreamHeadClientChannelMask)
    (sum : SumStreamHeadClientImpl) (m : Mem) (ib : Nat) (buf csample : Nat → UInt8)
    (sumBuf : Nat → Int) : Prop where
  masked : c.Right g m ib buf csample
  summed : sum.Right g m ib sumBuf

variable {g : G} {c : SubsetStreamHeadClientChannelMask} {sum : SumStreamHeadClientImpl} {m : Mem}

/--
**The two clients do what is asked of them if and only if the buffer is one of whole samples.**
-/
theorem geometry_right_iff {isAcq480 : Bool} {cm : ChannelMask} {def_ : List Char}
    (hdouble : g.doubleUp = false) (hword : g.WordsizeOk)
    (hc : SubsetStreamHeadClientChannelMask.create g isAcq480 cm = some c)
    (hset : cm.isBitset = true) (hne : cm.selected ≠ []) (hchan : ∀ ii ∈ cm.selected, ii < g.nchan)
    (hsum : SumStreamHeadClientImpl.create g def_ = some sum)
    (hrange : sum.start + sum.len ≤ g.nchan) (hbit : sum.start + sum.len ≤ maxbit) (ib : Nat)
    (buf csample : Nat → UInt8) (sumBuf : Nat → Int) :
    GeometryRight g c sum m ib buf csample sumBuf ↔ g.sampleSize ∣ g.bufferlen := by
  obtain ⟨rfl, hmade⟩ :=
    SubsetStreamHeadClientChannelMask.create_made hdouble hword hset hne hc
  have hmask := SubsetStreamHeadClientChannelMask.onStreamBufferStart_mask_iff (m := m) hword hmade
    hne hchan ib buf csample
  have hsummed := SumStreamHeadClientImpl.onStreamBufferStart_sum_iff (m := m) hword hsum hrange
    hbit ib sumBuf
  constructor
  · intro h
    exact hmask.mp h.masked
  · intro hwhole
    exact ⟨hmask.mpr hwhole, hsummed.mpr hwhole⟩

/-- Eight channels of 16 bits, in buffers of `bufferlen`. -/
def eightChannels (bufferlen : Nat) : G :=
  { nchan := 8, wordsize := 2, doubleUp := false, bufferlen := bufferlen, nbuffers := 1 }

/-- Channels 2 and 5. -/
def twoAndFive : ChannelMask := ChannelMask.ofBits fun ii => ii == 1 || ii == 4

/-- The client of these channels. -/
def maskClient (bufferlen : Nat) : SubsetStreamHeadClientChannelMask :=
  { start := 0
    len := 2
    nbuf := bufferlen / 16 * 2
    totchan := 8
    evX := ES.evX false
    cm := twoAndFive
    topchan := 4
    firstchan := 1 }

theorem selected_twoAndFive : twoAndFive.selected = [1, 4] := by
  decide

theorem lt_eight_of_selected : ∀ ii ∈ twoAndFive.selected, ii < 8 := by
  rw [selected_twoAndFive]
  decide

theorem create_maskClient (bufferlen : Nat) :
    SubsetStreamHeadClientChannelMask.create (eightChannels bufferlen) false twoAndFive =
      some (maskClient bufferlen) := by
  have hcount : twoAndFive.getChannelcount = (2 : Nat) :=
    (ChannelMask.getChannelcount_eq rfl).trans (by rw [selected_twoAndFive]; rfl)
  have htop : twoAndFive.getTopchan = 4 := by
    decide +kernel
  have hfirst : twoAndFive.getFirstchan = 1 := by
    decide +kernel
  have himpl : SubsetStreamHeadClientImpl.create (eightChannels bufferlen) false
      (Sscanf.decimalText (2 : Nat)) =
        some (maskClient bufferlen).toSubsetStreamHeadClientImpl := by
    unfold SubsetStreamHeadClientImpl.create
    rw [getStartLen_decimalText (by omega)]
    rfl
  unfold SubsetStreamHeadClientChannelMask.create
  rw [hcount, himpl, Option.map_some, htop, hfirst]
  rfl

/-- Channels 2 to 4. -/
def sumClient (bufferlen : Nat) : SumStreamHeadClientImpl :=
  { start := 1, len := 3, nbuf := bufferlen / 16 }

theorem create_sumClient (bufferlen : Nat) :
    SumStreamHeadClientImpl.create (eightChannels bufferlen) ['2', ',', '3'] =
      some (sumClient bufferlen) := rfl

theorem geometry_right_two :
    GeometryRight (eightChannels 32) (maskClient 32) (sumClient 32) (fun _ => 0) 0 (fun _ => 0)
      (fun _ => 0) (fun _ => 0) :=
  (geometry_right_iff rfl (Or.inl rfl) (create_maskClient 32) rfl
    (by rw [selected_twoAndFive]; exact List.cons_ne_nil _ _) lt_eight_of_selected
    (create_sumClient 32) (Nat.le_of_ble_eq_true rfl) (Nat.le_of_ble_eq_true rfl) 0 _ _ _).mpr
      ⟨2, rfl⟩

/-- Of one and a half samples, a second sum is stored to an array of one. -/
theorem half_sample_not_right :
    ¬∀ (g : G) (isAcq480 : Bool) (cm : ChannelMask) (def_ : List Char)
      (c : SubsetStreamHeadClientChannelMask) (sum : SumStreamHeadClientImpl) (m : Mem) (ib : Nat)
      (buf csample : Nat → UInt8) (sumBuf : Nat → Int), g.doubleUp = false → g.WordsizeOk →
        SubsetStreamHeadClientChannelMask.create g isAcq480 cm = some c → cm.isBitset = true →
        cm.selected ≠ [] → (∀ ii ∈ cm.selected, ii < g.nchan) →
        SumStreamHeadClientImpl.create g def_ = some sum → sum.start + sum.len ≤ g.nchan →
        sum.start + sum.len ≤ maxbit → GeometryRight g c sum m ib buf csample sumBuf := by
  intro h
  have hright := h (eightChannels 24) false twoAndFive ['2', ',', '3'] (maskClient 24)
    (sumClient 24) (fun _ => 0) 0 (fun _ => 0) (fun _ => 0) (fun _ => 0) rfl (Or.inl rfl)
    (create_maskClient 24) rfl (by rw [selected_twoAndFive]; exact List.cons_ne_nil _ _)
    lt_eight_of_selected (create_sumClient 24) (Nat.le_of_ble_eq_true rfl)
    (Nat.le_of_ble_eq_true rfl)
  obtain ⟨s, out, hs, -, hstored, -⟩ := hright.summed.returns
  have htwo : ((sumClient 24).onStreamBufferStart (eightChannels 24) (fun _ => 0) 0
      fun _ => 0).map (·.1.stored) = some [0, 1] := by
    decide
  rw [hs] at htwo
  have hlist : s.stored = [0, 1] := Option.some.inj htwo
  rw [hlist] at hstored
  exact absurd (hstored 1 (List.mem_cons_of_mem 0 List.mem_cons_self)) (Nat.lt_irrefl 1)

end Acq400
