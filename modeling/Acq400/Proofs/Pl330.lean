/-
The microcode of a request makes every burst of the transfer, and no more.

A loop's counts are bytes, and so is the jump back at its end.  `Fit` is what they have to
keep to, and it is why `_loop` unrolls no more than `cycmax` bursts.
-/
import Acq400.Driver.Pl330Chan

namespace Acq400

/-! ### Running the microcode -/

/-- So many bursts, each of them read and written. -/
def loadStores (n : Nat) : List Burst := (List.replicate n [Burst.load, Burst.store]).flatten

theorem loadStores_add (m n : Nat) : loadStores (m + n) = loadStores m ++ loadStores n := by
  rw [loadStores, ← List.replicate_append_replicate, List.flatten_append]
  rfl

theorem loadStores_mul (m n : Nat) :
    (List.replicate m (loadStores n)).flatten = loadStores (m * n) := by
  induction m with
  | zero => rw [Nat.zero_mul]; rfl
  | succ m ih =>
      rw [List.replicate_succ, List.flatten_cons, ih, Nat.succ_mul, Nat.add_comm,
        loadStores_add]

namespace Mc

theorem sizes_append (code code' : List Mc) :
    Mc.sizes (code ++ code') = Mc.sizes code + Mc.sizes code' := by
  induction code with
  | nil => simp [Mc.sizes]
  | cons mc code ih =>
      rw [List.cons_append, Mc.sizes, Mc.sizes, ih, Nat.add_assoc]

theorem execs_append {code code' : List Mc} {m n : Nat}
    (h : Mc.execs code = some (loadStores m)) (h' : Mc.execs code' = some (loadStores n)) :
    Mc.execs (code ++ code') = some (loadStores (m + n)) := by
  have hsplit : ∀ code : List Mc, Mc.execs (code ++ code') =
      (Mc.execs code).map (· ++ loadStores n) := by
    intro code
    induction code with
    | nil => simp [Mc.execs, h']
    | cons mc code ih =>
        rw [List.cons_append, Mc.execs, Mc.execs, ih]
        cases mc.exec with
        | none => rfl
        | some first =>
            cases Mc.execs code with
            | none => rfl
            | some rest => simp
  rw [hsplit, h, loadStores_add]
  rfl

/-- A loop makes its turns where its counts fit. -/
theorem execs_emitLoop {cnt n : Nat} {code : List Mc} (hcnt : 1 ≤ cnt ∧ cnt ≤ 256)
    (hsize : Mc.sizes code ≤ 255) (h : Mc.execs code = some (loadStores n)) :
    Mc.execs [emitLoop cnt code] = some (loadStores (cnt * n)) := by
  have hjump : (UInt8.ofNat (Mc.sizes code)).toNat = Mc.sizes code := by
    rw [UInt8.toNat_ofNat', Nat.mod_eq_of_lt (by omega)]
  -- the count is a byte, and 256 is stored as 255 like any other
  have hturns : (UInt8.ofNat cnt - 1).toNat + 1 = cnt := by
    rw [UInt8.toNat_sub, UInt8.toNat_ofNat']
    show (2 ^ 8 - 1 + cnt % 2 ^ 8) % 2 ^ 8 + 1 = cnt
    omega
  simp only [emitLoop, Mc.execs, Mc.exec, hjump, if_true, h, hturns, Option.map_some,
    Option.bind_some, List.append_nil, loadStores_mul]

theorem execs_ldst (pcfg : Pl330Config) (cyc : Nat) :
    Mc.execs (_ldstMemtomem pcfg cyc) = some (loadStores cyc) := by
  induction cyc with
  | zero => rfl
  | succ cyc ih =>
      have hone : Mc.execs (if pcfg.r1p0 then [.ld, .st] else [.ld, .rmb, .st, .wmb]) =
          some (loadStores 1) := by
        split_ifs
        · rfl
        · rfl
      rw [Nat.add_comm, _ldstMemtomem, ← List.replicate_append_replicate, List.flatten_append,
        List.replicate_one, List.flatten_singleton]
      exact execs_append hone ih

end Mc

/-- The code of a loop makes the bursts of its counts. -/
theorem loopCode_execs {pcfg : Pl330Config} {c : LoopCounts} (rqc : ReqCfg) (h : c.Fit pcfg) :
    Mc.execs (loopCode pcfg rqc c).1 = some (loadStores c.total) := by
  have hjump := h.jump
  have hinner := Mc.execs_emitLoop h.lcnt1 (by omega) (Mc.execs_ldst pcfg c.cyc)
  obtain ⟨flushp, hflushp, hflushpSize, hflushpExec⟩ : ∃ flushp : List Mc,
      (if rqc.endsFlushp ≠ 0 then [Mc.flushp (rqc.endsFlushp - 1)] else []) = flushp ∧
      Mc.sizes flushp ≤ 2 ∧ Mc.execs flushp = some (loadStores 0) := by
    split_ifs
    · exact ⟨_, rfl, Nat.le_refl _, rfl⟩
    · exact ⟨_, rfl, Nat.zero_le _, rfl⟩
  obtain ⟨wfp, hwfp, hwfpSize, hwfpExec⟩ : ∃ wfp : List Mc,
      (if rqc.startsWfp ≠ 0 then [Mc.wfp (rqc.startsWfp - 1)] else []) = wfp ∧
      Mc.sizes wfp ≤ 2 ∧ Mc.execs wfp = some (loadStores 0) := by
    split_ifs
    · exact ⟨_, rfl, Nat.le_refl _, rfl⟩
    · exact ⟨_, rfl, Nat.zero_le _, rfl⟩
  have hcode := Mc.execs_append (Mc.execs_append hflushpExec hwfpExec) hinner
  rw [Nat.zero_add] at hcode
  simp only [loopCode, hflushp, hwfp, LoopCounts.total]
  by_cases hout : c.lcnt0 ≠ 0
  · rw [if_pos hout, if_pos hout, Nat.mul_comm]
    refine Mc.execs_emitLoop ⟨Nat.pos_of_ne_zero hout, h.lcnt0⟩ ?_ hcode
    rw [Mc.sizes_append, Mc.sizes_append]
    simp only [emitLoop, Mc.sizes, Mc.size]
    omega
  · rw [if_neg hout, if_neg hout]
    exact hcode

/-- The loops of a transfer make every burst of it, and no more. -/
theorem setupLoops_execs (pcfg : Pl330Config) (rqc : ReqCfg) (bursts : Nat) :
    Mc.execs (_setupLoops pcfg rqc bursts) = some (loadStores bursts) := by
  induction bursts using Nat.strong_induction_on with
  | _ bursts ih =>
      rw [_setupLoops]
      split_ifs with hne
      · obtain ⟨hfit, hle⟩ := unrolled_fit pcfg (Nat.pos_of_ne_zero hne)
        have hpos := hfit.total_pos
        have hrest := ih (bursts - (unrolled pcfg bursts).total) (by omega)
        rw [loop_snd]
        have hall := Mc.execs_append (loopCode_execs rqc hfit) hrest
        rw [Nat.add_sub_of_le hle] at hall
        exact hall
      · rw [Decidable.not_not.mp hne]
        rfl

/-- A request of whole bursts is not rejected, and makes all of them. -/
theorem setupReq_execs (pcfg : Pl330Config) (rqc : ReqCfg) (srcAddr dstAddr bytes ev : Nat)
    (hbytes : bytes % srcBytesPerBurst (_prepareCcr rqc) = 0) :
    ∃ code, _setupReq pcfg rqc srcAddr dstAddr bytes ev = some code ∧
      Mc.execs code = some (loadStores (byteToBurst bytes (_prepareCcr rqc))) := by
  have hmov : Mc.execs [.mov (_prepareCcr rqc)] = some (loadStores 0) := rfl
  have hmovs : Mc.execs [.mov srcAddr, .mov dstAddr] = some (loadStores 0) := rfl
  have hwfe : Mc.execs (if rqc.waitEv ≠ 0 then [.wfe rqc.waitEv] else []) =
      some (loadStores 0) := by
    split_ifs
    · rfl
    · rfl
  have hsev : Mc.execs (if rqc.setEv ≠ 0 then [.sev rqc.setEv] else []) =
      some (loadStores 0) := by
    split_ifs
    · rfl
    · rfl
  have hend : Mc.execs [.sev ev, .stop] = some (loadStores 0) := rfl
  have hxfer := Mc.execs_append (Mc.execs_append hmovs hwfe)
    (setupLoops_execs pcfg rqc (byteToBurst bytes (_prepareCcr rqc)))
  have hall := Mc.execs_append (Mc.execs_append (Mc.execs_append hmov hxfer) hsev) hend
  simp only [Nat.zero_add, Nat.add_zero] at hall
  unfold srcBytesPerBurst at hbytes
  unfold _setupReq
  dsimp only
  rw [if_neg (not_not.mpr hbytes)]
  exact ⟨_, rfl, hall⟩

end Acq400

/-! ### The quantum of the loader

The loader's view of the DMA controller is the driver's.

The two come to the same burst by their own loops, so that the quantum is the bytes which
a burst reads, whatever the length.  A length that the loader takes has bursts of whole
bus words, an even number of them: what is read of the one side is what is written on the
other, and the microcode makes as many bursts as the length has.
-/

namespace Acq400

/-! ### The control word of a push -/

theorem low4_lt (x : Int) : low4 x < 2 ^ 4 := by
  unfold low4
  omega

section Ccr

variable {rqc : ReqCfg} (hsrc : rqc.srcInc = true) (hdst : rqc.dstInc = false)

include hsrc hdst

theorem ccr_flags_field {k w : Nat} (hk : k = 1 ∧ w = 3 ∨ k = 4 ∧ w = 4 ∨ k = 15 ∧ w = 3 ∨
    k = 18 ∧ w = 4) :
    BitField.field k w (_prepareCcr rqc) =
      BitField.field k w (rqc.brstSize <<< 1) |||
      BitField.field k w ((if rqc.brstSize > axiBsSz then
        low4 ((rqc.brstLen >>> (rqc.brstSize - axiBsSz) : Nat) - 1) else 0) <<< 4) |||
      BitField.field k w (low4 (rqc.brstLen - 1) <<< 18) |||
      BitField.field k w (axiBsSz <<< 15) := by
  have hscctl : BitField.field k w (rqc.scctl.val <<< 11) = 0 := by
    rcases hk with ⟨rfl, rfl⟩ | ⟨rfl, rfl⟩ | ⟨rfl, rfl⟩ | ⟨rfl, rfl⟩
    · exact BitField.field_above (by decide)
    · exact BitField.field_above (by decide)
    · exact BitField.field_below (n := 3) rqc.scctl.isLt (by decide)
    · exact BitField.field_below (n := 3) rqc.scctl.isLt (by decide)
  have hflag : ∀ (b : Bool) (j : Nat), (j < k ∨ k + w ≤ j) →
      BitField.field k w (if b = true then 1 <<< j else 0) = 0 := fun b j => BitField.field_flag b
  simp only [_prepareCcr, hsrc, hdst, Bool.true_eq_false, Bool.false_eq_true, if_true, if_false,
    BitField.field_or]
  rw [hflag _ 8 (by omega), hflag _ 22 (by omega), hflag _ 9 (by omega), hflag _ 23 (by omega),
    hflag _ 10 (by omega), hflag _ 24 (by omega), hscctl,
    BitField.field_above (show k + w ≤ 25 by omega),
    BitField.field_above (show k + w ≤ 28 by omega),
    show BitField.field k w (1 <<< 0) = 0 from
      BitField.field_below (n := 1) (by decide) (by omega), BitField.field_zero]
  simp

variable (hsize : rqc.brstSize < 8)

include hsize

theorem ccr_brstSize : brstSize (_prepareCcr rqc) = 1 <<< rqc.brstSize := by
  rw [brstSize, ccr_flags_field hsrc hdst (by decide), BitField.field_self (w := 3) hsize,
    BitField.field_above (by decide), BitField.field_above (by decide),
    BitField.field_above (by decide)]
  simp

theorem ccr_brstLen : brstLen (_prepareCcr rqc) =
    (if rqc.brstSize > axiBsSz then
      low4 ((rqc.brstLen >>> (rqc.brstSize - axiBsSz) : Nat) - 1) else 0) + 1 := by
  rw [brstLen, ccr_flags_field hsrc hdst (by decide),
    BitField.field_below (n := 3) hsize (by decide),
    BitField.field_above (show 4 + 4 ≤ 18 by decide),
    BitField.field_above (show 4 + 4 ≤ 15 by decide), BitField.field_self]
  · simp
  · split_ifs
    · exact low4_lt _
    · decide

theorem ccr_dstBytes :
    dstBytesPerBurst (_prepareCcr rqc) = 4 * (low4 (rqc.brstLen - 1) + 1) := by
  have hmem : (if rqc.brstSize > axiBsSz then
      low4 ((rqc.brstLen >>> (rqc.brstSize - axiBsSz) : Nat) - 1) else 0) < 2 ^ 4 := by
    split_ifs
    · exact low4_lt _
    · decide
  rw [dstBytesPerBurst, ccr_flags_field hsrc hdst (by decide),
    ccr_flags_field hsrc hdst (by decide), BitField.field_below (n := 3) hsize (by decide),
    BitField.field_below (n := 3) hsize (by decide), BitField.field_below (n := 4) hmem (by decide),
    BitField.field_below (n := 4) hmem (by decide), BitField.field_above (by decide),
    BitField.field_self (low4_lt _), BitField.field_self (w := 3) (by decide),
    BitField.field_below (n := 2) (by decide) (by decide)]
  simp [axiBsSz]

end Ccr

/-! ### The two ways to a burst -/

/-- The burst size is the largest that divides the length. -/
theorem awgBs_spec (bytes n : Nat) : awgBs bytes n ≤ n ∧ bytes % 2 ^ awgBs bytes n = 0 ∧
    ∀ k, k ≤ n → awgBs bytes n < k → bytes % 2 ^ k ≠ 0 := by
  induction n with
  | zero =>
      refine ⟨Nat.le_refl _, Nat.mod_one _, ?_⟩
      intro k hk hlt
      simp only [awgBs] at hlt
      omega
  | succ n ih =>
      rw [awgBs, Nat.shiftLeft_eq, Nat.one_mul]
      split_ifs with hdiv
      · exact ⟨Nat.le_refl _, hdiv, fun k hk hlt => absurd hk (by omega)⟩
      · refine ⟨by omega, ih.2.1, ?_⟩
        intro k hk hlt
        rcases Nat.lt_or_ge n k with hgt | hle
        · obtain rfl : k = n + 1 := by omega
          exact hdiv
        · exact ih.2.2 k hle hlt

theorem awgBl_spec {bytes bs : Nat} (hbs : bytes % 2 ^ bs = 0) (n : Nat) (hn : 1 ≤ n) :
    1 ≤ awgBl bytes bs n ∧ awgBl bytes bs n ≤ n ∧ bytes % (awgBl bytes bs n * 2 ^ bs) = 0 := by
  fun_induction awgBl bytes bs n with
  | case1 bl hdiv =>
      rw [Nat.shiftLeft_eq] at hdiv
      exact ⟨by omega, Nat.le_refl _, hdiv⟩
  | case2 bl hdiv ih =>
      obtain ⟨hpos, hle, hmod⟩ := ih (by omega)
      exact ⟨hpos, by omega, hmod⟩
  | case3 bl hshort =>
      obtain rfl : bl = 1 := by
        rcases bl with _ | _ | bl
        · omega
        · rfl
        · exact absurd rfl (hshort bl)
      rw [Nat.one_mul]
      exact ⟨Nat.le_refl _, Nat.le_refl _, hbs⟩

theorem burstLenFor_eq (len bs n : Nat) : burstLenFor len bs n = awgBl len bs n := by
  fun_induction awgBl len bs n with
  | case1 bl hdiv => rw [burstLenFor, if_pos hdiv]
  | case2 bl hdiv ih => rw [burstLenFor, if_neg hdiv, ih]
  | case3 bl hshort =>
      rcases bl with _ | _ | bl
      · rfl
      · rfl
      · exact absurd rfl (hshort bl)

theorem burstFor_eq (len n : Nat) : burstFor len (2 ^ n) = 2 ^ awgBs len n := by
  induction n with
  | zero =>
      rw [burstFor]
      rfl
  | succ n ih =>
      have hone : 1 < 2 ^ (n + 1) := Nat.one_lt_two_pow (by omega)
      rw [burstFor, if_pos hone, awgBs, Nat.shiftLeft_eq, Nat.one_mul]
      split_ifs with hdiv
      · rfl
      · rw [Nat.pow_succ, Nat.mul_div_cancel _ (by decide), ih]

theorem brstSizeFor_pow {bs : Nat} (h : bs ≤ 3) : brstSizeFor (2 ^ bs) = some bs := by
  obtain rfl | rfl | rfl | rfl : bs = 0 ∨ bs = 1 ∨ bs = 2 ∨ bs = 3 := by omega
  · rfl
  · rfl
  · rfl
  · rfl

/-- The two come to the same burst size and burst length. -/
theorem prepDmaMemcpy_eq {pcfg : Pl330Config} (desc : ReqCfg) (flags : PrepFlags) {bytes : Nat}
    (hbytes : 0 < bytes) (hbus : pcfg.dataBusWidth = 64) :
    ∃ rqcfg, pl330PrepDmaMemcpy pcfg desc bytes flags = some rqcfg ∧
      rqcfg.srcInc = !flags.srcNoIncr ∧ rqcfg.dstInc = !flags.dstNoIncr ∧
      rqcfg.brstSize = awgBs bytes axiBusBs ∧
      (16 ≤ maxBurstLen pcfg rqcfg.brstSize →
        rqcfg.brstLen = awgBl bytes (awgBs bytes axiBusBs) 16) := by
  have hburst : burstFor bytes (pcfg.dataBusWidth / 8) = 2 ^ awgBs bytes axiBusBs := by
    rw [hbus]
    exact burstFor_eq bytes 3
  unfold pl330PrepDmaMemcpy
  rw [if_neg (by omega), hburst,
    brstSizeFor_pow (show awgBs bytes axiBusBs ≤ 3 from (awgBs_spec bytes 3).1), Option.map_some]
  refine ⟨_, rfl, rfl, rfl, rfl, ?_⟩
  intro hdep
  show getBurstLen pcfg (awgBs bytes axiBusBs) bytes = _
  rw [getBurstLen, Nat.min_eq_right hdep, burstLenFor_eq]

/-- A length that is taken has bursts of bus words, and an even number of them. -/
theorem lenOk_cases {bytes : Nat} (hok : pl330AwgLenOk bytes = true) :
    awgBs bytes axiBusBs = 3 ∧ ∃ k, 1 ≤ k ∧ k ≤ 8 ∧ awgBl bytes 3 16 = 2 * k ∧
      bytes % (8 * k) = 0 := by
  obtain ⟨hle, hdiv, hmost⟩ := awgBs_spec bytes axiBusBs
  obtain ⟨hpos, hbl, hmod⟩ := awgBl_spec hdiv 16 (by decide)
  have heven : awgBl bytes (awgBs bytes axiBusBs) 16 % 2 = 0 := by
    simp only [pl330AwgLenOk, pl330AwgQuantum, Bool.and_eq_true, decide_eq_true_eq] at hok
    exact hok.1
  obtain ⟨k, hk⟩ := Nat.dvd_of_mod_eq_zero heven
  have hbus : awgBs bytes axiBusBs = 3 := by
    by_contra hne
    have hle3 : awgBs bytes axiBusBs ≤ 3 := hle
    refine hmost (awgBs bytes axiBusBs + 1) (show _ ≤ 3 by omega) (by omega) ?_
    rw [hk, Nat.mul_right_comm, Nat.mul_comm 2, ← Nat.pow_succ] at hmod
    exact Nat.mod_eq_zero_of_dvd
      (Nat.dvd_trans (Nat.dvd_mul_right _ k) (Nat.dvd_of_mod_eq_zero hmod))
  rw [hbus] at hk hmod hbl hpos
  refine ⟨hbus, k, by omega, by omega, hk, ?_⟩
  rw [hk] at hmod
  refine Nat.mod_eq_zero_of_dvd (Nat.dvd_trans ?_ (Nat.dvd_of_mod_eq_zero hmod))
  exact ⟨2, by omega⟩

section

variable {rqcfg : ReqCfg} {bytes : Nat} (hsrc : rqcfg.srcInc = true) (hdst : rqcfg.dstInc = false)
  (hsize : rqcfg.brstSize = awgBs bytes axiBusBs)
  (hlen : rqcfg.brstLen = awgBl bytes (awgBs bytes axiBusBs) 16)

include hsrc hdst hsize hlen

theorem quantum_eq :
    (pl330AwgQuantum bytes).1 = brstSize (_prepareCcr rqcfg) * brstLen (_prepareCcr rqcfg) := by
  have hle : awgBs bytes axiBusBs ≤ 3 := (awgBs_spec bytes 3).1
  have hsmall : rqcfg.brstSize < 8 := by omega
  rw [ccr_brstSize hsrc hdst hsmall, ccr_brstLen hsrc hdst hsmall, hsize, hlen]
  simp only [pl330AwgQuantum]
  by_cases hwide : awgBs bytes axiBusBs > axiFifoBs
  · rw [if_pos hwide, if_pos (show awgBs bytes axiBusBs > axiBsSz from hwide)]
    rfl
  · rw [if_neg hwide, if_neg (show ¬awgBs bytes axiBusBs > axiBsSz from hwide)]

/-- A length that is taken is of whole bursts, which write what they read. -/
theorem lenOk_bursts (hok : pl330AwgLenOk bytes = true) :
    srcBytesPerBurst (_prepareCcr rqcfg) = dstBytesPerBurst (_prepareCcr rqcfg) ∧
      bytes % srcBytesPerBurst (_prepareCcr rqcfg) = 0 := by
  obtain ⟨hbs, k, hpos, hk8, hk, hmod⟩ := lenOk_cases hok
  have hsmall : rqcfg.brstSize < 8 := by omega
  have hsrcLen : brstLen (_prepareCcr rqcfg) = k := by
    rw [ccr_brstLen hsrc hdst hsmall, hsize, hlen, hbs, hk, if_pos (by decide),
      Nat.shiftRight_eq_div_pow, low4, axiBsSz]
    omega
  have hsrcBytes : srcBytesPerBurst (_prepareCcr rqcfg) = 8 * k := by
    rw [srcBytesPerBurst, ccr_brstSize hsrc hdst hsmall, hsize, hbs, hsrcLen]
    rfl
  have hdstBytes : dstBytesPerBurst (_prepareCcr rqcfg) = 8 * k := by
    rw [ccr_dstBytes hsrc hdst hsmall, hlen, hbs, hk, low4]
    omega
  refine ⟨hsrcBytes.trans hdstBytes.symm, ?_⟩
  rw [hsrcBytes]
  exact hmod

end

/--
**The quantum is what a burst reads, and a length that is taken is moved by whole bursts.**
-/
theorem awgQuantum_mirrors (pcfg : Pl330Config) (desc : ReqCfg) (flags : PrepFlags) (bytes : Nat)
    (hbytes : 0 < bytes) (hbus : pcfg.dataBusWidth = 64) (hsrc : flags.srcNoIncr = false)
    (hdst : flags.dstNoIncr = true) :
    ∃ rqcfg, pl330PrepDmaMemcpy pcfg desc bytes flags = some rqcfg ∧
      (16 ≤ maxBurstLen pcfg rqcfg.brstSize →
        (pl330AwgQuantum bytes).1 =
          brstSize (_prepareCcr rqcfg) * brstLen (_prepareCcr rqcfg) ∧
        (pl330AwgLenOk bytes = true → ∀ srcAddr dstAddr ev,
          ∃ code n, _setupReq pcfg rqcfg srcAddr dstAddr bytes ev = some code ∧
            Mc.execs code = some (loadStores n) ∧
            srcBytesPerBurst (_prepareCcr rqcfg) = dstBytesPerBurst (_prepareCcr rqcfg) ∧
            n * srcBytesPerBurst (_prepareCcr rqcfg) = bytes)) := by
  obtain ⟨rqcfg, hprep, hsrcInc, hdstInc, hsize, hlen⟩ :=
    prepDmaMemcpy_eq desc flags hbytes hbus
  rw [hsrc] at hsrcInc
  rw [hdst] at hdstInc
  refine ⟨rqcfg, hprep, ?_⟩
  intro hdep
  have hbl := hlen hdep
  refine ⟨quantum_eq hsrcInc hdstInc hsize hbl, ?_⟩
  intro hok srcAddr dstAddr ev
  obtain ⟨hsame, hwhole⟩ := lenOk_bursts hsrcInc hdstInc hsize hbl hok
  obtain ⟨code, hcode, hexec⟩ := setupReq_execs pcfg rqcfg srcAddr dstAddr bytes ev hwhole
  refine ⟨code, _, hcode, hexec, hsame, ?_⟩
  rw [byteToBurst, Nat.div_div_eq_div_mul]
  exact Nat.div_mul_cancel (Nat.dvd_of_mod_eq_zero hwhole)

/-- The controller of the device. -/
def zynqDmac : Pl330Config := { dataBusWidth := 64, dataBufDep := 128, r1p0 := true }

/-- A descriptor as it comes from the pool. -/
def pooled : ReqCfg := { Pl330Xfer.init.rqcfg with nonsecure := true }

/-- A push to the FIFO that waits for a peripheral. -/
def awgPush : PrepFlags where
  srcNoIncr := false
  dstNoIncr := true
  waitEv := 0
  setEv := 1
  startsWfp := 1
  endsFlushp := 1

/-- A megabyte goes out in bursts of 64 bytes. -/
theorem awgQuantum_mirrors_megabyte :
    ∃ rqcfg, pl330PrepDmaMemcpy zynqDmac pooled 1048576 awgPush = some rqcfg ∧
      (pl330AwgQuantum 1048576).1 = 64 ∧ pl330AwgLenOk 1048576 = true ∧
      ∃ code n, _setupReq zynqDmac rqcfg 0 0 1048576 0 = some code ∧
        Mc.execs code = some (loadStores n) ∧
        srcBytesPerBurst (_prepareCcr rqcfg) = dstBytesPerBurst (_prepareCcr rqcfg) ∧
        n * srcBytesPerBurst (_prepareCcr rqcfg) = 1048576 := by
  obtain ⟨rqcfg, hprep, hmirror⟩ :=
    awgQuantum_mirrors zynqDmac pooled awgPush 1048576 (by decide) rfl rfl rfl
  obtain ⟨rqcfg', hprep', -, -, hsize, -⟩ :=
    prepDmaMemcpy_eq pooled awgPush (show 0 < 1048576 by decide) (Eq.refl zynqDmac.dataBusWidth)
  obtain rfl := Option.some.inj (hprep.symm.trans hprep')
  have hdep : 16 ≤ maxBurstLen zynqDmac rqcfg.brstSize := by
    rw [hsize]
    decide
  have hok : pl330AwgLenOk 1048576 = true := by decide
  exact ⟨rqcfg, hprep, by decide, hok, (hmirror hdep).2 hok 0 0 0⟩

end Acq400
