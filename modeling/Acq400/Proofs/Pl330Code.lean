/-
What a request's bytes do when the controller runs them.

Every `_emit_` is read back by the controller as what it was written for, and the loops, whose
counts and jumps are bytes, turn as often as `_loop` means them to: so the bytes of a request
are its bursts, one after the other, then its events.  A dry run counts just these bytes.
-/
import Acq400.Driver.Pl330Code
import Acq400.Proofs.Pl330

namespace Acq400

open CodeMachine

/-! ### Reading back -/

namespace Emit

/-- The operand of an instruction is its number of five bits, as `operand` shifts it. -/
theorem operand_div (x : UInt8) : (operand x).toNat / 8 = x.toNat % 32 := by
  have hand : (x &&& 0x1f).toNat = x.toNat % 32 := by
    rw [UInt8.toNat_and]
    exact Nat.and_two_pow_sub_one_eq_mod x.toNat 5
  rw [operand, UInt8.toNat_shiftLeft, hand]
  show (x.toNat % 32) <<< 3 % 256 / 8 = x.toNat % 32
  rw [Nat.shiftLeft_eq]
  omega

variable (post : List UInt8)

theorem decode_LD : Insn.decode (_emitLD ++ post) = some .ld := rfl

theorem decode_ST : Insn.decode (_emitST ++ post) = some .st := rfl

theorem decode_RMB : Insn.decode (_emitRMB ++ post) = some .rmb := rfl

theorem decode_WMB : Insn.decode (_emitWMB ++ post) = some .wmb := rfl

theorem decode_FLUSHP (peri : UInt8) :
    Insn.decode (_emitFLUSHP peri ++ post) = some (.flushp (peri.toNat % 32)) :=
  congrArg (fun x => some (Insn.flushp x)) (operand_div peri)

theorem decode_WFP (peri : UInt8) :
    Insn.decode (_emitWFP peri ++ post) = some (.wfp (peri.toNat % 32)) :=
  congrArg (fun x => some (Insn.wfp x)) (operand_div peri)

theorem decode_WFE (ev : UInt8) :
    Insn.decode (_emitWFE ev ++ post) = some (.wfe (ev.toNat % 32)) :=
  congrArg (fun x => some (Insn.wfe x)) (operand_div ev)

theorem decode_SEV (ev : UInt8) :
    Insn.decode (_emitSEV ev ++ post) = some (.sev (ev.toNat % 32)) :=
  congrArg (fun x => some (Insn.sev x)) (operand_div ev)

theorem decode_LP (loop : Bool) (cnt : UInt8) :
    Insn.decode (_emitLP loop cnt ++ post) = some (.lp loop (cnt - 1).toNat) := by
  cases loop <;> rfl

theorem decode_LPEND (loop : Bool) (bjump : UInt8) :
    Insn.decode (_emitLPEND loop bjump ++ post) = some (.lpend loop bjump.toNat) := by
  cases loop <;> rfl

theorem byteAt_toNat (k val : Nat) : (byteAt k val).toNat = val / 256 ^ k % 256 :=
  UInt8.toNat_ofNat'

/-- The four bytes of the value come one behind the other, the lowest first. -/
theorem decode_MOV (dst : MovDst) {val : Nat} (hval : val < 2 ^ 32) :
    Insn.decode (_emitMOV dst val ++ post) = some (.mov dst val) := by
  have hword : (byteAt 0 val).toNat + 256 * ((byteAt 1 val).toNat + 256 *
      ((byteAt 2 val).toNat + 256 * (byteAt 3 val).toNat)) = val := by
    simp only [byteAt_toNat]
    omega
  cases dst with
  | sar => exact congrArg (fun x => some (Insn.mov .sar x)) hword
  | ccr => exact congrArg (fun x => some (Insn.mov .ccr x)) hword
  | dar => exact congrArg (fun x => some (Insn.mov .dar x)) hword

end Emit

/-! ### Instructions -/

namespace Dma330

variable (pcfg : Pl330Config) {code : List UInt8} {insn : Insn}
  {f : Dma330Data → Option Dma330Data}

/-- Where the code of an instruction stands, it is the one that is made. -/
theorem step_at {prog : List UInt8} {s : Dma330} (hat : At prog s.pc code)
    (hdec : ∀ post, Insn.decode (code ++ post) = some insn) :
    step pcfg prog s = s.exec pcfg insn := by
  obtain ⟨post, hpost⟩ := hat
  rw [step, ← hpost, hdec, Option.bind_some]

/-- An instruction that goes on to the next. -/
theorem block_insn (hdec : ∀ post, Insn.decode (code ++ post) = some insn)
    (hexec : ∀ (s : Dma330) (d : Dma330Data), f s.data = some d →
      s.exec pcfg insn = some { s.next code.length with data := d }) :
    (machine pcfg).Block ∅ code f := by
  refine Block.of_step fun prog s d hat hd => ?_
  exact ⟨{ s.next code.length with data := d }, (step_at pcfg hat hdec).trans (hexec s d hd),
    rfl, rfl, rfl⟩

theorem block_ld : (machine pcfg).Block ∅ Emit._emitLD (Dma330Data.load pcfg) :=
  block_insn pcfg Emit.decode_LD fun s d hd => by
    rw [exec, hd]
    rfl

theorem block_st : (machine pcfg).Block ∅ Emit._emitST (Dma330Data.store pcfg) :=
  block_insn pcfg Emit.decode_ST fun s d hd => by
    rw [exec, hd]
    rfl

theorem block_rmb : (machine pcfg).Block ∅ Emit._emitRMB some :=
  block_insn pcfg Emit.decode_RMB fun s d hd => by
    rw [← Option.some.inj hd]
    rfl

theorem block_wmb : (machine pcfg).Block ∅ Emit._emitWMB some :=
  block_insn pcfg Emit.decode_WMB fun s d hd => by
    rw [← Option.some.inj hd]
    rfl

theorem block_flushp (peri : UInt8) : (machine pcfg).Block ∅ (Emit._emitFLUSHP peri) some :=
  block_insn pcfg (fun post => Emit.decode_FLUSHP post peri) fun s d hd => by
    rw [← Option.some.inj hd]
    rfl

theorem block_wfp (peri : UInt8) : (machine pcfg).Block ∅ (Emit._emitWFP peri) some :=
  block_insn pcfg (fun post => Emit.decode_WFP post peri) fun s d hd => by
    rw [← Option.some.inj hd]
    rfl

theorem block_wfe (ev : UInt8) : (machine pcfg).Block ∅ (Emit._emitWFE ev) some :=
  block_insn pcfg (fun post => Emit.decode_WFE post ev) fun s d hd => by
    rw [← Option.some.inj hd]
    rfl

theorem block_sev (ev : UInt8) : (machine pcfg).Block ∅ (Emit._emitSEV ev)
    fun d => some (d.signal (ev.toNat % 32)) :=
  block_insn pcfg (fun post => Emit.decode_SEV post ev) fun s d hd => by
    rw [← Option.some.inj hd]
    rfl

/-- A `MOV` sets its register to the value, which has 32 bits. -/
theorem block_mov (dst : MovDst) {val : Nat} (hval : val < 2 ^ 32) :
    (machine pcfg).Block ∅ (Emit._emitMOV dst val) fun d => some (d.set val dst) :=
  block_insn pcfg (fun post => Emit.decode_MOV post dst hval) fun s d hd => by
    rw [← Option.some.inj hd]
    rfl

/-- A loop turns as often as its count says, where the count and the jump are bytes. -/
theorem block_looped (loop : Bool) {cs : Set Bool} {lcnt : Nat}
    (h : (machine pcfg).Block cs code f) (hloop : loop ∉ cs) (hcnt : 1 ≤ lcnt ∧ lcnt ≤ 256)
    (hsize : code.length ≤ 255) :
    (machine pcfg).Block (insert loop cs) (Emit.looped loop lcnt code) (times f lcnt) := by
  obtain ⟨n, rfl⟩ := Nat.exists_eq_add_of_le' hcnt.1
  -- the count is a byte, and 256 is stored as 255 like any other
  have hiter : (UInt8.ofNat (n + 1) - 1).toNat = n := by
    rw [UInt8.toNat_sub, UInt8.toNat_ofNat']
    show (2 ^ 8 - 1 + (n + 1) % 2 ^ 8) % 2 ^ 8 = n
    omega
  have hjump : (UInt8.ofNat code.length).toNat = code.length := by
    rw [UInt8.toNat_ofNat', Nat.mod_eq_of_lt (by omega)]
  refine h.loop hloop ?_ ?_
  · intro prog s hat
    refine ⟨_, step_at pcfg hat fun post => Emit.decode_LP post loop _, rfl, rfl, ?_, ?_⟩
    · exact (Function.update_self ..).trans hiter
    · exact fun c hc => Function.update_of_ne hc ..
  · intro prog s hat hle
    have hstep : step pcfg prog s = s.exec pcfg (.lpend loop code.length) :=
      step_at pcfg hat fun post => (Emit.decode_LPEND post loop _).trans (by rw [hjump])
    by_cases hzero : s.lc loop = 0
    · refine ⟨s.next 2, ?_, rfl, fun _ _ => rfl, fun _ => rfl, ?_⟩
      · exact hstep.trans (by rw [exec, if_pos hzero])
      · intro k hk
        exact absurd (hzero.symm.trans hk) (Nat.succ_ne_zero k).symm
    · refine ⟨{ s with
          pc := s.pc - code.length
          lc := Function.update s.lc loop (s.lc loop - 1) }, ?_, rfl,
        fun c hc => Function.update_of_ne hc .., fun hc => absurd hc hzero, ?_⟩
      · exact hstep.trans (by rw [exec, if_neg hzero, if_pos (show code.length ≤ s.pc from hle)])
      · intro k hk
        refine ⟨Nat.sub_add_cancel hle, (Function.update_self ..).trans ?_⟩
        rw [show s.lc loop = k + 1 from hk]
        rfl

end Dma330

/-! ### The size of a request -/

namespace Emit

variable (pcfg : Pl330Config) (rqc : ReqCfg)

/-- A load and a store are two bytes, and four with the barriers of the other revision. -/
theorem ldstMemtomem_length (cyc : Nat) :
    (_ldstMemtomem pcfg cyc).length = Mc.sizes (Acq400._ldstMemtomem pcfg cyc) := by
  rw [ldstMemtomem_size, _ldstMemtomem, List.length_flatten, List.map_replicate,
    List.sum_replicate]
  refine congrArg (cyc * ·) ?_
  split_ifs <;> rfl

theorem looped_length (loop : Bool) (lcnt : Nat) {body : List UInt8} {code : List Mc}
    (h : body.length = Mc.sizes code) :
    (looped loop lcnt body).length = Mc.sizes [emitLoop lcnt code] := by
  simp only [looped, _emitLP, _emitLPEND, emitLoop, Mc.sizes, Mc.size, List.length_append,
    List.length_cons, List.length_nil, h]
  omega

/-- Both loops and the kick-off, with the jumps in their last bytes. -/
theorem loop_length (counts : LoopCounts) :
    (_loop pcfg rqc counts).length = Mc.sizes (loopCode pcfg rqc counts).1 := by
  have hinner := looped_length true counts.lcnt1 (ldstMemtomem_length pcfg counts.cyc)
  have hall : (kickOff rqc ++ looped true counts.lcnt1 (_ldstMemtomem pcfg counts.cyc)).length =
      Mc.sizes ((if rqc.endsFlushp ≠ 0 then [Mc.flushp (rqc.endsFlushp - 1)] else []) ++
        (if rqc.startsWfp ≠ 0 then [Mc.wfp (rqc.startsWfp - 1)] else []) ++
          [emitLoop counts.lcnt1 (Acq400._ldstMemtomem pcfg counts.cyc)]) := by
    rw [List.length_append, Mc.sizes_append, hinner, Mc.sizes_append, kickOff, List.length_append]
    split_ifs <;> rfl
  simp only [_loop, loopCode]
  by_cases hout : counts.lcnt0 ≠ 0
  · rw [if_pos hout, if_pos hout]
    exact looped_length false counts.lcnt0 hall
  · rw [if_neg hout, if_neg hout]
    exact hall

theorem setupLoops_length (bursts : Nat) :
    (_setupLoops pcfg rqc bursts).length = Mc.sizes (Acq400._setupLoops pcfg rqc bursts) := by
  induction bursts using Nat.strong_induction_on with
  | _ bursts ih =>
      rw [_setupLoops, Acq400._setupLoops]
      split_ifs with hne
      · have hpos := (unrolled_fit pcfg (Nat.pos_of_ne_zero hne)).1.total_pos
        rw [loop_snd, List.length_append, Mc.sizes_append, ih _ (by omega)]
        exact congrArg (· + _) (loop_length pcfg rqc _)
      · rfl

/--
**The sizes that are added up for a request are the bytes that it puts into the buffer**, so that
what `pl330_submit_req` compares with its half of the buffer is what comes to stand there.
-/
theorem setupReq_length (srcAddr dstAddr bytes ev : Nat) :
    (_setupReq pcfg rqc srcAddr dstAddr bytes ev).map List.length =
      (Acq400._setupReq pcfg rqc srcAddr dstAddr bytes ev).map Mc.sizes := by
  have hloops := setupLoops_length pcfg rqc (byteToBurst bytes (_prepareCcr rqc))
  have hwfe : (if rqc.waitEv ≠ 0 then _emitWFE (UInt8.ofNat rqc.waitEv) else []).length =
      Mc.sizes (if rqc.waitEv ≠ 0 then [.wfe rqc.waitEv] else []) := by
    split_ifs <;> rfl
  have hsev : (if rqc.setEv ≠ 0 then _emitSEV (UInt8.ofNat rqc.setEv) else []).length =
      Mc.sizes (if rqc.setEv ≠ 0 then [.sev rqc.setEv] else []) := by
    split_ifs <;> rfl
  unfold _setupReq Acq400._setupReq
  dsimp only
  by_cases hbytes : bytes % (brstSize (_prepareCcr rqc) * brstLen (_prepareCcr rqc)) ≠ 0
  · rw [if_pos hbytes, if_pos hbytes]
    rfl
  · rw [if_neg hbytes, if_neg hbytes]
    simp only [Option.map_some, _setupXfer, Acq400._setupXfer, List.length_append,
      Mc.sizes_append, hloops, hwfe, hsev]
    simp only [_emitMOV, _emitSEV, _emitEND, Mc.sizes, Mc.size, List.length_cons, List.length_nil]
    congr 1
    omega

end Emit

/-! ### A request -/

namespace Dma330

variable (pcfg : Pl330Config) (rqc : ReqCfg)

/-- A burst read and written. -/
def burst (d : Dma330Data) : Option Dma330Data := (d.load pcfg).bind (·.store pcfg)

/-- What `_ldst_memtomem` emits makes one burst for each of `cyc`. -/
theorem block_ldst (cyc : Nat) :
    (machine pcfg).Block ∅ (Emit._ldstMemtomem pcfg cyc) (times (burst pcfg) cyc) := by
  refine Block.replicate ?_ cyc
  split_ifs
  · exact (block_ld pcfg).append (block_st pcfg)
  · have hall := (block_ld pcfg).append
      ((block_rmb pcfg).append ((block_st pcfg).append (block_wmb pcfg)))
    simp only [Option.bind_some, Option.bind_fun_some] at hall
    exact hall

/-- The kick-off waits for its peripheral, and moves nothing. -/
theorem block_kickOff : (machine pcfg).Block ∅ (Emit.kickOff rqc) some := by
  have hflushp : (machine pcfg).Block ∅ (if rqc.endsFlushp ≠ 0 then
      Emit._emitFLUSHP (UInt8.ofNat (rqc.endsFlushp - 1)) else []) some := by
    split_ifs
    · exact block_flushp pcfg _
    · exact Block.nil
  have hwfp : (machine pcfg).Block ∅ (if rqc.startsWfp ≠ 0 then
      Emit._emitWFP (UInt8.ofNat (rqc.startsWfp - 1)) else []) some := by
    split_ifs
    · exact block_wfp pcfg _
    · exact Block.nil
  exact hflushp.append hwfp

theorem kickOff_length : (Emit.kickOff rqc).length ≤ 4 := by
  unfold Emit.kickOff
  split_ifs <;> simp [Emit._emitFLUSHP, Emit._emitWFP]

/-- The code of `_loop` makes the bursts of its counts. -/
theorem block_loop {c : LoopCounts} (h : c.Fit pcfg) :
    (machine pcfg).Block Set.univ (Emit._loop pcfg rqc c) (times (burst pcfg) c.total) := by
  have hjump := h.jump
  rw [← Emit.ldstMemtomem_length] at hjump
  have hlooped := block_looped pcfg true (block_ldst pcfg c.cyc) (Set.notMem_empty _) h.lcnt1
    (by omega)
  have hinner := ((block_kickOff pcfg rqc).mono (Set.empty_subset _)).append hlooped
  have hlen : (Emit.kickOff rqc ++
      Emit.looped true c.lcnt1 (Emit._ldstMemtomem pcfg c.cyc)).length ≤ 255 := by
    have hkick := kickOff_length rqc
    simp only [Emit.looped, Emit._emitLP, Emit._emitLPEND, List.length_append, List.length_cons,
      List.length_nil]
    omega
  have hturns : (fun d => (some d).bind (times (times (burst pcfg) c.cyc) c.lcnt1)) =
      times (burst pcfg) (c.lcnt1 * c.cyc) := funext fun d => times_times _ _ _ d
  rw [hturns] at hinner
  simp only [Emit._loop, LoopCounts.total]
  by_cases hout : c.lcnt0 ≠ 0
  · rw [if_pos hout, if_pos hout]
    have houter := block_looped pcfg false hinner (by simp)
      ⟨Nat.pos_of_ne_zero hout, h.lcnt0⟩ hlen
    rw [funext (times_times (burst pcfg) c.lcnt0 (c.lcnt1 * c.cyc)), Nat.mul_comm] at houter
    exact houter.mono (Set.subset_univ _)
  · rw [if_neg hout, if_neg hout]
    exact hinner.mono (Set.subset_univ _)

/-- The loops of a transfer make every burst of it, and no more. -/
theorem block_setupLoops (bursts : Nat) :
    (machine pcfg).Block Set.univ (Emit._setupLoops pcfg rqc bursts)
      (times (burst pcfg) bursts) := by
  induction bursts using Nat.strong_induction_on with
  | _ bursts ih =>
      rw [Emit._setupLoops]
      split_ifs with hne
      · obtain ⟨hfit, hle⟩ := unrolled_fit pcfg (Nat.pos_of_ne_zero hne)
        have hpos := hfit.total_pos
        have hall := (block_loop pcfg rqc hfit).append (ih (bursts - (unrolled pcfg bursts).total)
          (by omega))
        rw [← funext (times_add (burst pcfg) _ _), Nat.add_sub_of_le hle] at hall
        exact hall
      · rw [Decidable.not_not.mp hne]
        exact Block.nil.mono (Set.empty_subset _)

/-- What a request does with the data, but for its last events. -/
theorem block_setupXfer {srcAddr dstAddr : Nat} (bytes ccr : Nat) (hsrc : srcAddr < 2 ^ 32)
    (hdst : dstAddr < 2 ^ 32) :
    (machine pcfg).Block Set.univ (Emit._setupXfer pcfg rqc srcAddr dstAddr bytes ccr) fun d =>
      times (burst pcfg) (byteToBurst bytes ccr) { d with sar := srcAddr, dar := dstAddr } := by
  have hwfe : (machine pcfg).Block Set.univ
      (if rqc.waitEv ≠ 0 then Emit._emitWFE (UInt8.ofNat rqc.waitEv) else []) some := by
    split_ifs
    · exact (block_wfe pcfg _).mono (Set.empty_subset _)
    · exact Block.nil.mono (Set.empty_subset _)
  have hmovs := (block_mov pcfg .sar hsrc).mono (Set.empty_subset Set.univ)
  have hmovd := (block_mov pcfg .dar hdst).mono (Set.empty_subset Set.univ)
  exact hmovs.append (hmovd.append (hwfe.append
    (block_setupLoops pcfg rqc (byteToBurst bytes ccr))))

/-- The events of a request. -/
def eventsOf (rqc : ReqCfg) (ev : Nat) : List Nat :=
  (if rqc.setEv ≠ 0 then [rqc.setEv % 32] else []) ++ [ev % 32]

theorem toNat_mod_32 (n : Nat) : (UInt8.ofNat n).toNat % 32 = n % 32 := by
  rw [UInt8.toNat_ofNat']
  omega

/-- A request that is set up runs to its end, where its bursts are possible. -/
theorem setupReq_runs {srcAddr dstAddr bytes ev : Nat} {code : List UInt8} {s : Dma330}
    {d : Dma330Data} (hsrc : srcAddr < 2 ^ 32) (hdst : dstAddr < 2 ^ 32)
    (hccr : _prepareCcr rqc < 2 ^ 32)
    (hcode : Emit._setupReq pcfg rqc srcAddr dstAddr bytes ev = some code) (hpc : s.pc = 0)
    (hbursts : times (burst pcfg) (byteToBurst bytes (_prepareCcr rqc))
      { s.data with ccr := _prepareCcr rqc, sar := srcAddr, dar := dstAddr } = some d) :
    ∃ t, (machine pcfg).Reaches code s t ∧ Stopped code t ∧
      t.data = { d with events := d.events ++ eventsOf rqc ev } := by
  have hsev : (machine pcfg).Block Set.univ
      (if rqc.setEv ≠ 0 then Emit._emitSEV (UInt8.ofNat rqc.setEv) else [])
      fun d => some { d with
        events := d.events ++ if rqc.setEv ≠ 0 then [rqc.setEv % 32] else [] } := by
    by_cases hset : rqc.setEv ≠ 0
    · rw [if_pos hset, if_pos hset, ← toNat_mod_32 rqc.setEv]
      exact (block_sev pcfg _).mono (Set.empty_subset _)
    · simp only [if_neg hset, List.append_nil]
      exact Block.nil.mono (Set.empty_subset _)
  have hmov := (block_mov pcfg .ccr hccr).mono (Set.empty_subset Set.univ)
  have hlast := (block_sev pcfg (UInt8.ofNat ev)).mono (Set.empty_subset Set.univ)
  have hbody := hmov.append ((block_setupXfer pcfg rqc bytes (_prepareCcr rqc) hsrc
    hdst).append (hsev.append hlast))
  have hwhole : ¬bytes % (brstSize (_prepareCcr rqc) * brstLen (_prepareCcr rqc)) ≠ 0 := by
    intro hne
    rw [Emit._setupReq, if_pos hne] at hcode
    simp at hcode
  rw [Emit._setupReq, if_neg hwhole] at hcode
  rw [← Option.some.inj hcode]
  have hassoc : ∀ a b c e f : List UInt8, a ++ (b ++ (c ++ (e ++ f))) =
      (a ++ (b ++ (c ++ e))) ++ f := fun a b c e f => by simp
  rw [hassoc]
  obtain ⟨t, hreach, hpct, hdata, -⟩ := hbody _ s
    { d with events := d.events ++ eventsOf rqc ev } (hpc ▸ (at_self _).left) (by
      simp only [Option.bind_some]
      refine Option.bind_eq_some_iff.mpr ⟨d, hbursts, ?_⟩
      simp [eventsOf, Dma330Data.signal])
  refine ⟨t, hreach, ?_, hdata⟩
  have hend : t.pc = _ := hpct
  rw [Stopped, hend, show (machine pcfg).pc s = 0 from hpc, Nat.zero_add, List.drop_left]
  rfl

end Dma330

end Acq400
