/-
The register cache is transparent, but for the register behind its last one.

`map` is a set of registers, and what the routines do to `data` and to the
registers themselves is what `WriteThrough` does to the copies and to the store
of the registers in that set.  Both `dev_rc_read` and `dev_rc_write` let register
`max_reg` through, which the set has no word for.
-/
import Acq400.Driver.RegCache
import Acq400.Lib.WriteThrough

namespace Acq400

open RegCache RegDev

theorem reg2map_eq (reg : Nat) : reg2map reg = (reg / regCacheBits, reg % regCacheBits) := by
  have hmask : reg &&& regCacheBitMask = reg % regCacheBits :=
    Nat.and_two_pow_sub_one_eq_mod reg 5
  rw [reg2map, hmask]

/-! ### The set of the registers that are cached -/

/-- The registers of the list that the cache has room for. -/
def registered (regBytes : List UInt32) (reg : Nat) : Bool :=
  reg < regCacheMax && regBytes.any fun b => regOf b = reg

/-- The cache keeps the registers of the set, and is as large as it was made. -/
structure Keeps (kept : Nat → Bool) (rc : RegCache) : Prop where
  maxReg : rc.maxReg = regCacheMax
  has : ∀ reg, Bitmap.has rc.map reg = kept reg

theorem Keeps.lt {kept : Nat → Bool} {rc : RegCache} {reg : Nat} (h : Keeps kept rc)
    (hk : kept reg = true) : reg < regCacheMax := by
  rw [← h.has] at hk
  by_contra hle
  rw [Bitmap.not_has_of_le (by decide) (Nat.le_of_not_lt hle)] at hk
  exact absurd hk (by decide)

/-- Every register of the cache has a word in `map`. -/
theorem map_word (rc : RegCache) {reg : Nat} (h : reg < regCacheMax) :
    ∃ word, rc.map[reg / regCacheBits]? = some word := by
  have hix : reg / regCacheBits < regCacheMapRegs := Nat.div_lt_of_lt_mul h
  exact ⟨_, Vector.getElem?_eq_getElem hix⟩

/-- The register behind the last one has none. -/
theorem map_past_end (rc : RegCache) : rc.map[regCacheMax / regCacheBits]? = none :=
  Vector.getElem?_eq_none (by decide)

theorem word_bit_iff {kept : Nat → Bool} {rc : RegCache} {reg : Nat}
    {word : BitVec regCacheBits} (h : Keeps kept rc)
    (hword : rc.map[reg / regCacheBits]? = some word) :
    word &&& 1#_ <<< (reg % regCacheBits) ≠ 0 ↔ kept reg = true := by
  have hbit : reg % regCacheBits < regCacheBits := Nat.mod_lt _ (by decide)
  rw [Bitmap.and_bit_ne_zero word hbit, ← h.has, Bitmap.has_of_getElem? hword]

theorem keeps_devRcInit : Keeps (fun _ => false) devRcInit :=
  ⟨rfl, Bitmap.has_replicate_zero⟩

/-- What `dev_rc_register` does: one register more, or a refusal that changes nothing. -/
theorem devRcRegister_keeps {kept : Nat → Bool} {rc : RegCache} (h : Keeps kept rc)
    (b : UInt32) :
    ∃ rc' rv, rc.devRcRegister b = some (rc', rv) ∧
      Keeps (fun reg => kept reg || registered [b] reg) rc' := by
  unfold devRcRegister
  simp only [reg2map_eq]
  rw [h.maxReg]
  by_cases hlt : regOf b < regCacheMax
  · obtain ⟨word, hword⟩ := map_word rc hlt
    rw [if_pos hlt, hword]
    refine ⟨_, _, rfl, rfl, fun reg => ?_⟩
    have hadd := Bitmap.has_add (by decide : 0 < regCacheBits) hword reg
    rw [h.has] at hadd
    rw [Bool.eq_iff_iff, hadd]
    simp only [registered, List.any_cons, List.any_nil, Bool.or_false, Bool.or_eq_true,
      Bool.and_eq_true, decide_eq_true_eq]
    constructor
    · rintro (rfl | hk)
      · exact Or.inr ⟨hlt, rfl⟩
      · exact Or.inl hk
    · rintro (hk | ⟨-, e⟩)
      · exact Or.inr hk
      · exact Or.inl e.symm
  · rw [if_neg hlt]
    refine ⟨_, _, rfl, h.maxReg, fun reg => ?_⟩
    have hnot : registered [b] reg = false := by
      simp only [registered, List.any_cons, List.any_nil, Bool.or_false, Bool.and_eq_false_iff,
        decide_eq_false_iff_not]
      by_cases hreg : reg < regCacheMax
      · exact Or.inr fun e => hlt (e ▸ hreg)
      · exact Or.inl hreg
    rw [h.has, hnot, Bool.or_false]

theorem registered_append (as bs : List UInt32) (reg : Nat) :
    registered (as ++ bs) reg = (registered as reg || registered bs reg) := by
  simp [registered, Bool.and_or_distrib_left]

theorem register_all_keeps :
    ∀ (regBytes done : List UInt32) {rc : RegCache}, Keeps (registered done) rc →
      ∃ rc', regBytes.foldlM (fun (rc : RegCache) b => (rc.devRcRegister b).map (·.1)) rc =
        some rc' ∧ Keeps (registered (done ++ regBytes)) rc' := by
  intro regBytes
  induction regBytes with
  | nil => intro done rc h; exact ⟨rc, rfl, by simpa using h⟩
  | cons b rest ih =>
      intro done rc h
      obtain ⟨rc', rv, hreg, hkeeps⟩ := devRcRegister_keeps h b
      have hnext : Keeps (registered (done ++ [b])) rc' :=
        ⟨hkeeps.maxReg, fun reg => by rw [hkeeps.has, registered_append]⟩
      obtain ⟨rc'', hrest, hall⟩ := ih (done ++ [b]) hnext
      refine ⟨rc'', ?_, by simpa using hall⟩
      rw [List.foldlM_cons, hreg]
      exact hrest

theorem probe_keeps (va : Nat → UInt32) (regBytes : List UInt32) :
    ∃ adev, probe va regBytes = some adev ∧ Keeps (registered regBytes) adev.ctrlRegCache := by
  have hnone : Keeps (registered []) devRcInit := by
    refine ⟨rfl, fun reg => ?_⟩
    rw [keeps_devRcInit.has]
    simp [registered]
  obtain ⟨rc, hrc, hkeeps⟩ := register_all_keeps regBytes [] hnone
  exact ⟨⟨rc, va⟩, by rw [probe, hrc]; rfl, hkeeps⟩

/-! ### One access -/

/-- The registers and the values of them in `data`. -/
def RegDev.cells (adev : RegDev) : WriteThrough.Cells Nat UInt32 where
  store := adev.devVirtaddr
  copy reg := adev.ctrlRegCache.data[reg]?.getD 0

/-- An offset of the register behind the last one. -/
def PastEnd (offset : UInt32) : Prop := regOf offset = regCacheMax

instance (offset : UInt32) : Decidable (PastEnd offset) := by
  unfold PastEnd
  infer_instance

theorem devRcRead_eq {kept : Nat → Bool} {adev : RegDev} (h : Keeps kept adev.ctrlRegCache)
    {offset : UInt32} (hoff : ¬PastEnd offset) :
    adev.ctrlRegCache.devRcRead offset =
      some (if kept (regOf offset) then .inCache (adev.cells.copy (regOf offset))
        else .notInCache) := by
  unfold devRcRead
  simp only [reg2map_eq]
  rw [h.maxReg]
  by_cases hlt : regOf offset < regCacheMax
  · obtain ⟨word, hword⟩ := map_word adev.ctrlRegCache hlt
    have hbit := word_bit_iff h hword
    rw [if_neg (by omega), hword]
    by_cases hk : kept (regOf offset) = true
    · simp only [if_pos (hbit.mpr hk), hk, if_true]
      rw [Vector.getElem?_eq_getElem hlt]
      simp [cells, Vector.getElem?_eq_getElem hlt]
    · simp only [if_neg (hbit.not.mpr hk), hk, Bool.false_eq_true, if_false]
  · have hgt : regOf offset > regCacheMax := by
      unfold PastEnd at hoff
      omega
    have hk : kept (regOf offset) = false := by
      by_contra hk
      exact hlt (h.lt (by simpa using hk))
    rw [if_pos hgt, hk]
    rfl

theorem devRcWrite_not_kept {kept : Nat → Bool} {adev : RegDev}
    (h : Keeps kept adev.ctrlRegCache) {offset : UInt32} (hoff : ¬PastEnd offset)
    (hk : kept (regOf offset) = false) (value : UInt32) :
    adev.devRcWrite offset value = some (adev, true) := by
  unfold devRcWrite
  simp only [reg2map_eq]
  rw [h.maxReg]
  by_cases hgt : regOf offset > regCacheMax
  · rw [if_pos hgt]
  · have hlt : regOf offset < regCacheMax := by
      unfold PastEnd at hoff
      omega
    obtain ⟨word, hword⟩ := map_word adev.ctrlRegCache hlt
    have hbit := word_bit_iff h hword
    rw [hk] at hbit
    rw [if_neg hgt, hword]
    simp only [if_neg (hbit.not.mpr (by decide))]

theorem devRcWrite_kept {kept : Nat → Bool} {adev : RegDev} (h : Keeps kept adev.ctrlRegCache)
    {offset : UInt32} (hk : kept (regOf offset) = true) (value : UInt32) :
    ∃ adev', adev.devRcWrite offset value = some (adev', false) ∧
      Keeps kept adev'.ctrlRegCache ∧
      adev'.cells = WriteThrough.step kept adev.cells (.write (regOf offset) value) := by
  have hlt := h.lt hk
  obtain ⟨word, hword⟩ := map_word adev.ctrlRegCache hlt
  have hbit := (word_bit_iff h hword).mpr hk
  unfold devRcWrite
  simp only [reg2map_eq]
  rw [h.maxReg, if_neg (by omega), hword]
  simp only [if_pos hbit, dif_pos hlt]
  refine ⟨_, rfl, ⟨rfl, h.has⟩, ?_⟩
  rw [WriteThrough.step, if_pos hk]
  refine congrArg (WriteThrough.Cells.mk _) (funext fun reg => ?_)
  rw [Vector.getElem?_set]
  by_cases he : regOf offset = reg
  · subst he
    simp
  · rw [if_neg he, Function.update_of_ne (fun e => he e.symm)]
    rfl

theorem acq400wr32_spec {kept : Nat → Bool} {adev : RegDev} (h : Keeps kept adev.ctrlRegCache)
    {offset : UInt32} (hoff : ¬PastEnd offset) (value : UInt32) :
    ∃ adev', adev.acq400wr32 offset value = some adev' ∧ Keeps kept adev'.ctrlRegCache ∧
      adev'.cells = WriteThrough.step kept adev.cells (.write (regOf offset) value) := by
  unfold acq400wr32
  cases hk : kept (regOf offset) with
  | false =>
      rw [devRcWrite_not_kept h hoff hk]
      refine ⟨_, rfl, h, ?_⟩
      rw [WriteThrough.step, hk]
      rfl
  | true =>
      obtain ⟨adev', hw, hkeeps, hcells⟩ := devRcWrite_kept h hk value
      exact ⟨adev', by rw [hw]; rfl, hkeeps, hcells⟩

theorem acq400rd32_eq {kept : Nat → Bool} {adev : RegDev} (h : Keeps kept adev.ctrlRegCache)
    {offset : UInt32} (hoff : ¬PastEnd offset) :
    adev.acq400rd32 offset = some (WriteThrough.read kept adev.cells (regOf offset)) := by
  rw [acq400rd32, _acq400rd32, devRcRead_eq h hoff]
  unfold WriteThrough.read
  cases kept (regOf offset) with
  | false => rfl
  | true => rfl

/-! ### Refreshing the values -/

theorem and_one_ne_zero (map : BitVec regCacheBits) : map &&& 1 ≠ 0 ↔ map.getLsbD 0 = true :=
  Bitmap.and_bit_ne_zero map (by decide : 0 < regCacheBits)

theorem exists_bit {map : BitVec regCacheBits} (h : map ≠ 0) : ∃ k, map.getLsbD k = true := by
  by_contra hno
  refine h (BitVec.eq_of_getLsbD_eq fun k _ => ?_)
  rw [Bool.eq_false_iff.mpr fun hk => hno ⟨k, hk⟩]
  exact BitVec.getLsbD_zero.symm

theorem map2reg_div {ix bit : Nat} (hbit : bit < regCacheBits) :
    map2reg ix bit / regCacheBits = ix := by
  unfold map2reg regCacheBits at *
  omega

theorem map2reg_mod {ix bit : Nat} (hbit : bit < regCacheBits) :
    map2reg ix bit % regCacheBits = bit := by
  unfold map2reg regCacheBits at *
  omega

theorem eq_map2reg {ix bit reg : Nat} (hix : reg / regCacheBits = ix)
    (hbit : reg % regCacheBits = bit) : reg = map2reg ix bit := by
  unfold map2reg regCacheBits at *
  omega

theorem map2reg_lt {ix bit : Nat} (hix : ix < regCacheMapRegs) (hbit : bit < regCacheBits) :
    map2reg ix bit < regCacheMax := by
  unfold map2reg regCacheMax regCacheBits regCacheMapRegs at *
  omega

/-- The bits from the next one on are those of the word moved right, at one position less. -/
theorem shifted_iff (map : BitVec regCacheBits) (bit m : Nat) :
    (bit + 1 ≤ m ∧ (map >>> 1).getLsbD (m - (bit + 1)) = true) ↔
      bit ≤ m ∧ m ≠ bit ∧ map.getLsbD (m - bit) = true := by
  rw [BitVec.getLsbD_ushiftRight]
  constructor
  · rintro ⟨hle, h⟩
    have hpos : 1 + (m - (bit + 1)) = m - bit := by omega
    rw [hpos] at h
    exact ⟨by omega, by omega, h⟩
  · rintro ⟨hle, hne, h⟩
    have hpos : 1 + (m - (bit + 1)) = m - bit := by omega
    rw [hpos]
    exact ⟨by omega, h⟩

/-- One word of `map`: `data` gets the value of every register that has its bit set. -/
theorem updateBits_spec (va : Nat → UInt32) {ix : Nat} (hix : ix < regCacheMapRegs) :
    ∀ (bit : Nat) (map : BitVec regCacheBits) (data : Vector UInt32 regCacheMax),
      (∀ k, map.getLsbD k = true → bit + k < regCacheBits) →
      ∃ data', updateBits regCacheMax va ix bit map data = some data' ∧
        ∀ reg, data'[reg]?.getD 0 =
          if reg / regCacheBits = ix ∧ bit ≤ reg % regCacheBits ∧
              map.getLsbD (reg % regCacheBits - bit) = true then va reg
          else data[reg]?.getD 0 := by
  intro bit map data
  fun_induction updateBits regCacheMax va ix bit map data with
  | case1 bit data =>
      intro _
      exact ⟨data, rfl, fun reg => by simp⟩
  | case2 bit map data h r hset hreg ih =>
      intro hbits
      have hzero := (and_one_ne_zero map).mp hset
      have hbit : bit < regCacheBits := hbits 0 hzero
      obtain ⟨data', hdata, hval⟩ := ih fun k hk => by
        rw [BitVec.getLsbD_ushiftRight] at hk
        have := hbits _ hk
        omega
      refine ⟨data', hdata, fun reg => ?_⟩
      rw [hval, Vector.getElem?_set]
      simp only [shifted_iff]
      by_cases hr : r = reg
      · subst hr
        have hdiv : r / regCacheBits = ix := map2reg_div hbit
        have hmod : r % regCacheBits = bit := map2reg_mod hbit
        have hpos : map.getLsbD (r % regCacheBits - bit) = true := by
          rw [hmod, Nat.sub_self]
          exact hzero
        rw [if_neg (fun hc => hc.2.2.1 hmod), if_pos rfl, if_pos ⟨hdiv, by omega, hpos⟩]
        rfl
      · rw [if_neg hr]
        congr 1
        refine propext ⟨fun hc => ⟨hc.1, hc.2.1, hc.2.2.2⟩, fun hc => ⟨hc.1, hc.2.1, ?_, hc.2.2⟩⟩
        intro hmod
        exact hr (eq_map2reg hc.1 hmod).symm
  | case3 bit map data h r hset hreg =>
      intro hbits
      exact absurd (map2reg_lt hix (hbits 0 ((and_one_ne_zero map).mp hset))) hreg
  | case4 bit map data h r hset hgt =>
      intro hbits
      obtain ⟨k, hk⟩ := exists_bit h
      have hlt : r < regCacheMax := map2reg_lt hix (by have := hbits k hk; omega)
      omega
  | case5 bit map data h r hset hgt ih =>
      intro hbits
      have hzero : map.getLsbD 0 = false := by
        rw [and_one_ne_zero] at hset
        simpa using hset
      obtain ⟨data', hdata, hval⟩ := ih fun k hk => by
        rw [BitVec.getLsbD_ushiftRight] at hk
        have := hbits _ hk
        omega
      refine ⟨data', hdata, fun reg => ?_⟩
      rw [hval]
      simp only [shifted_iff]
      congr 1
      refine propext ⟨fun hc => ⟨hc.1, hc.2.1, hc.2.2.2⟩, fun hc => ⟨hc.1, hc.2.1, ?_, hc.2.2⟩⟩
      intro hmod
      rw [hmod, Nat.sub_self, hzero] at hc
      exact absurd hc.2.2 (by decide)

/-- One word of `map`: its registers get their values, the others keep theirs. -/
theorem updateWord_spec {kept : Nat → Bool} (va : Nat → UInt32) {ix : Nat}
    (hix : ix < regCacheMapRegs) {rc : RegCache} (h : Keeps kept rc) :
    ∃ rc', updateWord va rc ix = some rc' ∧ Keeps kept rc' ∧
      ∀ reg, rc'.data[reg]?.getD 0 =
        if reg / regCacheBits = ix ∧ kept reg = true then va reg else rc.data[reg]?.getD 0 := by
  have hword : rc.map[ix]? = some rc.map[ix] := Vector.getElem?_eq_getElem hix
  obtain ⟨data', hdata, hval⟩ := updateBits_spec va hix 0 rc.map[ix] rc.data fun k hk => by
    have := BitVec.lt_of_getLsbD hk
    omega
  refine ⟨{ rc with data := data' }, ?_, ⟨h.maxReg, h.has⟩, fun reg => ?_⟩
  · unfold updateWord
    rw [hword]
    simp only [h.maxReg, hdata]
    rfl
  · rw [hval]
    congr 1
    refine propext (and_congr_right fun hreg => ?_)
    have hmem : rc.map[reg / regCacheBits]? = some rc.map[ix] := by
      rw [hreg]
      exact hword
    rw [Nat.sub_zero, ← h.has, Bitmap.has_of_getElem? hmem]
    simp

/-- Words of `map`, one after the other. -/
theorem update_words_spec {kept : Nat → Bool} (va : Nat → UInt32) :
    ∀ (l : List Nat) (rc : RegCache), (∀ ix ∈ l, ix < regCacheMapRegs) → Keeps kept rc →
      ∃ rc', l.foldlM (updateWord va) rc = some rc' ∧ Keeps kept rc' ∧
        ∀ reg, rc'.data[reg]?.getD 0 =
          if reg / regCacheBits ∈ l ∧ kept reg = true then va reg
          else rc.data[reg]?.getD 0 := by
  intro l
  induction l with
  | nil => intro rc _ h; exact ⟨rc, rfl, h, fun reg => by simp⟩
  | cons ix rest ih =>
      intro rc hl h
      obtain ⟨rc₁, hword, h₁, hval₁⟩ := updateWord_spec va (hl ix (by simp)) h
      obtain ⟨rc', hrun, h', hval'⟩ := ih rc₁ (fun i hi => hl i (by simp [hi])) h₁
      refine ⟨rc', ?_, h', fun reg => ?_⟩
      · rw [List.foldlM_cons, hword]
        exact hrun
      · rw [hval', hval₁]
        by_cases hk : kept reg = true
        · by_cases hreg : reg / regCacheBits = ix
          · simp [hreg, hk]
          · simp [hreg, hk]
        · simp [hk]

theorem devRcUpdate_spec {kept : Nat → Bool} {adev : RegDev} (h : Keeps kept adev.ctrlRegCache) :
    ∃ adev', adev.step .rcUpdate = some adev' ∧ Keeps kept adev'.ctrlRegCache ∧
      adev'.cells = WriteThrough.step kept adev.cells .refresh := by
  obtain ⟨rc', hrun, hkeeps, hval⟩ := update_words_spec adev.devVirtaddr
    (List.range regCacheMapRegs) adev.ctrlRegCache (fun ix hix => List.mem_range.mp hix) h
  refine ⟨{ adev with ctrlRegCache := rc' }, ?_, hkeeps, ?_⟩
  · rw [RegDev.step, devRcUpdate, hrun]
    rfl
  · refine congrArg (WriteThrough.Cells.mk _) (funext fun reg => ?_)
    rw [hval reg]
    by_cases hk : kept reg = true
    · have hix : reg / regCacheBits ∈ List.range regCacheMapRegs :=
        List.mem_range.mpr (Nat.div_lt_of_lt_mul (h.lt hk))
      rw [if_pos ⟨hix, hk⟩, if_pos hk]
      rfl
    · rw [if_neg (fun hc => hk hc.2), if_neg hk]
      rfl

/-! ### Runs -/

/-- What an action is to the store and the copies. -/
def RegDev.Act.abs : RegDev.Act → WriteThrough.Act Nat UInt32
  | .wr32 offset value => .write (regOf offset) value
  | .rd32 offset => .look (regOf offset)
  | .rcUpdate => .refresh
  | .hardware reg value => .drift reg value

/-- No action accesses the register behind the last one. -/
def RegDev.Act.Within : RegDev.Act → Prop
  | .wr32 offset _ => ¬PastEnd offset
  | .rd32 offset => ¬PastEnd offset
  | .rcUpdate => True
  | .hardware _ _ => True

theorem step_spec {kept : Nat → Bool} {adev : RegDev} (h : Keeps kept adev.ctrlRegCache)
    {act : RegDev.Act} (hact : act.Within) :
    ∃ adev', adev.step act = some adev' ∧ Keeps kept adev'.ctrlRegCache ∧
      adev'.cells = WriteThrough.step kept adev.cells act.abs := by
  cases act with
  | wr32 offset value => exact acq400wr32_spec h hact value
  | rd32 offset =>
      refine ⟨adev, ?_, h, rfl⟩
      rw [RegDev.step, acq400rd32_eq h hact]
      rfl
  | rcUpdate => exact devRcUpdate_spec h
  | hardware reg value => exact ⟨_, rfl, h, rfl⟩

theorem run_spec {kept : Nat → Bool} :
    ∀ (acts : List RegDev.Act) (adev : RegDev), Keeps kept adev.ctrlRegCache →
      (∀ act ∈ acts, act.Within) →
      ∃ adev', Lts.run RegDev.step adev acts = some adev' ∧ Keeps kept adev'.ctrlRegCache ∧
        adev'.cells = (acts.map RegDev.Act.abs).foldl (WriteThrough.step kept) adev.cells := by
  intro acts
  induction acts with
  | nil => intro adev h _; exact ⟨adev, rfl, h, rfl⟩
  | cons act rest ih =>
      intro adev h hall
      obtain ⟨adev₁, hstep, h₁, hcells₁⟩ := step_spec h (hall act (by simp))
      obtain ⟨adev₂, hrun, h₂, hcells₂⟩ := ih adev₁ h₁ fun a ha => hall a (by simp [ha])
      refine ⟨adev₂, ?_, h₂, ?_⟩
      · rw [Lts.run_cons, hstep]
        exact hrun
      · rw [hcells₂, hcells₁]
        rfl

/-- Register `max_reg` has no word in `map`. -/
theorem devRcRead_past_end {kept : Nat → Bool} {rc : RegCache} (h : Keeps kept rc)
    {offset : UInt32} (hoff : PastEnd offset) : rc.devRcRead offset = none := by
  unfold devRcRead
  simp only [reg2map_eq]
  rw [hoff, h.maxReg, if_neg (by decide), map_past_end]

theorem devRcWrite_past_end {kept : Nat → Bool} {adev : RegDev}
    (h : Keeps kept adev.ctrlRegCache) {offset : UInt32} (hoff : PastEnd offset)
    (value : UInt32) : adev.devRcWrite offset value = none := by
  unfold devRcWrite
  simp only [reg2map_eq]
  rw [hoff, h.maxReg, if_neg (by decide), map_past_end]

theorem step_past_end {kept : Nat → Bool} {adev : RegDev} (h : Keeps kept adev.ctrlRegCache)
    {act : RegDev.Act} (hact : ¬act.Within) : adev.step act = none := by
  cases act with
  | wr32 offset value =>
      rw [RegDev.step, acq400wr32, devRcWrite_past_end h (not_not.mp hact)]
      rfl
  | rd32 offset =>
      rw [RegDev.step, acq400rd32, _acq400rd32, devRcRead_past_end h (not_not.mp hact)]
      rfl
  | rcUpdate => exact absurd trivial hact
  | hardware reg value => exact absurd trivial hact

/-- A run that comes to its end has not accessed the register behind the last one. -/
theorem run_within {kept : Nat → Bool} :
    ∀ (acts : List RegDev.Act) (adev adev' : RegDev), Keeps kept adev.ctrlRegCache →
      Lts.run RegDev.step adev acts = some adev' → ∀ act ∈ acts, act.Within := by
  intro acts
  induction acts with
  | nil => intro adev adev' _ _ act hmem; simp at hmem
  | cons act rest ih =>
      intro adev adev' h hrun
      have hact : act.Within := by
        by_contra hno
        rw [Lts.run_cons, step_past_end h hno] at hrun
        exact absurd hrun (by simp)
      obtain ⟨adev₁, hstep, h₁, -⟩ := step_spec h hact
      rw [Lts.run_cons, hstep] at hrun
      intro a hmem
      rcases List.mem_cons.mp hmem with rfl | hrest
      · exact hact
      · exact ih adev₁ adev' h₁ hrun a hrest

/-- What is asked of the cache at one offset, after the actions `acts`. -/
structure Transparent (regBytes : List UInt32) (acts : List RegDev.Act) (adev : RegDev)
    (offset : UInt32) : Prop where
  /-- The accesses are inside `map` and `data`. -/
  read_inside : adev.ctrlRegCache.devRcRead offset ≠ none
  write_inside : ∀ value, adev.devRcWrite offset value ≠ none
  /-- A register that was not registered is reported as not in the cache. -/
  read_not_in_cache : registered regBytes (regOf offset) = false →
    adev.ctrlRegCache.devRcRead offset = some .notInCache
  write_not_in_cache : registered regBytes (regOf offset) = false →
    ∀ value, adev.devRcWrite offset value = some (adev, true)
  /-- A register that nothing but the driver has changed is read as it is. -/
  agrees : WriteThrough.Current (regOf offset) (acts.map RegDev.Act.abs) →
    adev.acq400rd32 offset = adev.acq400rd32Nocache offset

/-- **The cache is transparent exactly for the offsets that are not of register `max_reg`**,
in the run and at its end. -/
theorem acq400rd32_transparent_iff (va : Nat → UInt32) (regBytes : List UInt32)
    (acts : List RegDev.Act) (offset : UInt32) :
    (∃ adev adev', probe va regBytes = some adev ∧ Lts.run RegDev.step adev acts = some adev' ∧
        Transparent regBytes acts adev' offset) ↔
      (∀ act ∈ acts, act.Within) ∧ ¬PastEnd offset := by
  obtain ⟨adev, hprobe, hkeeps⟩ := probe_keeps va regBytes
  constructor
  · rintro ⟨adev₀, adev', hprobe₀, hrun, htrans⟩
    rw [hprobe, Option.some.injEq] at hprobe₀
    subst hprobe₀
    have hwithin := run_within acts adev adev' hkeeps hrun
    obtain ⟨adev'', hrun', hkeeps', -⟩ := run_spec acts adev hkeeps hwithin
    rw [hrun, Option.some.injEq] at hrun'
    subst hrun'
    exact ⟨hwithin, fun hoff => htrans.read_inside (devRcRead_past_end hkeeps' hoff)⟩
  · rintro ⟨hwithin, hoff⟩
    obtain ⟨adev', hrun, hkeeps', hcells⟩ := run_spec acts adev hkeeps hwithin
    refine ⟨adev, adev', hprobe, hrun, ?_⟩
    have hread := devRcRead_eq hkeeps' hoff
    constructor
    · rw [hread]
      simp
    · intro value
      cases hk : registered regBytes (regOf offset) with
      | false =>
          rw [devRcWrite_not_kept hkeeps' hoff hk]
          simp
      | true =>
          obtain ⟨adev'', hw, -⟩ := devRcWrite_kept hkeeps' hk value
          rw [hw]
          simp
    · intro hk
      rw [hread, hk]
      rfl
    · exact fun hk value => devRcWrite_not_kept hkeeps' hoff hk value
    · intro hcur
      rw [acq400rd32_eq hkeeps' hoff, hcells, WriteThrough.read_of_current _ hcur, ← hcells]
      rfl

/-- Offset 512 is past the end of the cache, and passes its test. -/
theorem acq400rd32_past_end : ¬∃ adev adev', probe (fun _ => 0) [] = some adev ∧
    Lts.run RegDev.step adev [] = some adev' ∧ Transparent [] [] adev' 512 := by
  rintro ⟨adev, adev', hprobe, hrun, htrans⟩
  obtain rfl : adev = adev' := by simpa using hrun
  obtain rfl : ⟨devRcInit, fun _ => 0⟩ = adev := by simpa [probe] using hprobe
  exact htrans.read_inside (devRcRead_past_end keeps_devRcInit (by decide))

end Acq400
