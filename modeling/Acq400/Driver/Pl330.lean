/-
The DMA controller's driver (`pl330.c`), from `pl330_prep_dma_memcpy` to the microcode
of a request.

Microcode is a list here.  A DMALP and the DMALPEND that goes back to it are one entry,
with the code between them and the bytes that the DMALPEND jumps back.  The transfer is
from memory to memory, `MEMTOMEM`, and one unit long.
-/
import Acq400.Awg.LoadPad
import Acq400.Lib.WordBits

namespace Acq400

structure Pl330Config where
  dataBusWidth : Nat
  dataBufDep : Nat
  /-- `get_revision(periph_id) >= PERIPH_REV_R1P0`. -/
  r1p0 : Bool

/-- `struct pl330_reqcfg`; the last three are enumerations. -/
structure ReqCfg where
  dstInc : Bool
  srcInc : Bool
  nonsecure : Bool
  privileged : Bool
  insnaccess : Bool
  brstLen : Nat
  brstSize : Nat
  waitEv : Nat
  setEv : Nat
  startsWfp : Nat
  endsFlushp : Nat
  dcctl : Fin 8
  scctl : Fin 8
  swap : Fin 5

/-- What the `flags` of `pl330_prep_dma_memcpy` say. -/
structure PrepFlags where
  srcNoIncr : Bool
  dstNoIncr : Bool
  waitEv : Nat
  setEv : Nat
  startsWfp : Nat
  endsFlushp : Nat

/-! ### Preparing a transfer -/

/-- The loop that selects the max possible burst size. -/
def burstFor (len burst : Nat) : Nat :=
  if 1 < burst then if len % burst = 0 then burst else burstFor len (burst / 2) else burst
termination_by burst

/-- The loop of `get_burst_len`. -/
def burstLenFor (len brstSize : Nat) : Nat → Nat
  | burstLen + 2 =>
    if len % ((burstLen + 2) <<< brstSize) = 0 then burstLen + 2
    else burstLenFor len brstSize (burstLen + 1)
  | burstLen => burstLen

/-- What `get_burst_len` begins with, before it is cut to 16. -/
def maxBurstLen (pcfg : Pl330Config) (brstSize : Nat) : Nat :=
  (pcfg.dataBusWidth / 8 * pcfg.dataBufDep) >>> brstSize

def getBurstLen (pcfg : Pl330Config) (brstSize len : Nat) : Nat :=
  burstLenFor len brstSize (min (maxBurstLen pcfg brstSize) 16)

/-- The field `brst_size`, of three bits, that the last loop of `pl330_prep_dma_memcpy` comes
to; none if the loop does not end. -/
def brstSizeFor (burst : Nat) : Option Nat := (List.range 8).find? fun k => burst = 1 <<< k

/-- `pl330_prep_dma_memcpy`, of a descriptor from the pool. -/
def pl330PrepDmaMemcpy (pcfg : Pl330Config) (rqcfg : ReqCfg) (len : Nat) (flags : PrepFlags) :
    Option ReqCfg :=
  if len = 0 then none
  else
    (brstSizeFor (burstFor len (pcfg.dataBusWidth / 8))).map fun brstSize =>
      { rqcfg with
        srcInc := !flags.srcNoIncr
        dstInc := !flags.dstNoIncr
        waitEv := flags.waitEv
        setEv := flags.setEv
        endsFlushp := flags.endsFlushp
        startsWfp := flags.startsWfp
        brstSize := brstSize
        brstLen := getBurstLen pcfg brstSize len }

/-! ### The control word -/

def axiBsSz : Nat := 2

def _prepareCcr (rqc : ReqCfg) : Nat :=
  let ccr := if rqc.srcInc then 1 <<< 0 else 0
  let ccr := ccr ||| if rqc.dstInc then 1 <<< 14 else 0
  let ccr := ccr ||| if rqc.privileged then 1 <<< 8 else 0
  let ccr := ccr ||| if rqc.privileged then 1 <<< 22 else 0
  let ccr := ccr ||| if rqc.nonsecure then 1 <<< 9 else 0
  let ccr := ccr ||| if rqc.nonsecure then 1 <<< 23 else 0
  let ccr := ccr ||| if rqc.insnaccess then 1 <<< 10 else 0
  let ccr := ccr ||| if rqc.insnaccess then 1 <<< 24 else 0
  let brstLen := low4 (rqc.brstLen - 1)
  -- the partner of the peripheral, in memory
  let memLen :=
    if rqc.brstSize > axiBsSz then low4 ((rqc.brstLen >>> (rqc.brstSize - axiBsSz) : Nat) - 1)
    else 0
  let ccr :=
    if rqc.srcInc = false then
      ccr ||| axiBsSz <<< 1 ||| brstLen <<< 4 ||| rqc.brstSize <<< 15 ||| memLen <<< 18
    else if rqc.dstInc = false then
      ccr ||| rqc.brstSize <<< 1 ||| memLen <<< 4 ||| brstLen <<< 18 ||| axiBsSz <<< 15
    else
      ccr ||| brstLen <<< 4 ||| brstLen <<< 18 ||| rqc.brstSize <<< 1 ||| rqc.brstSize <<< 15
  ccr ||| rqc.scctl.val <<< 11 ||| rqc.dcctl.val <<< 25 ||| rqc.swap.val <<< 28

def brstLen (ccr : Nat) : Nat := BitField.field 4 4 ccr + 1

def brstSize (ccr : Nat) : Nat := 1 <<< BitField.field 1 3 ccr

/-- The bytes that a burst reads. -/
def srcBytesPerBurst (ccr : Nat) : Nat := brstSize ccr * brstLen ccr

/-- The bytes that a burst writes. -/
def dstBytesPerBurst (ccr : Nat) : Nat :=
  1 <<< BitField.field 15 3 ccr * (BitField.field 18 4 ccr + 1)

def byteToBurst (bytes ccr : Nat) : Nat := bytes / brstSize ccr / brstLen ccr

/-! ### Microcode -/

/-- An instruction, or a loop. -/
inductive Mc
  | ld
  | st
  | rmb
  | wmb
  | flushp (peri : Nat)
  | wfp (peri : Nat)
  | mov (value : Nat)
  | wfe (ev : Nat)
  | sev (ev : Nat)
  | stop
  /-- DMALP with the count as it is stored, the code, and DMALPEND with its `bjump`. -/
  | loop (cnt : UInt8) (code : List Mc) (bjump : UInt8)

/-- What is transferred when microcode runs. -/
inductive Burst
  | load
  | store
deriving DecidableEq, Repr

mutual

/-- How many bytes of the program an entry takes. -/
def Mc.size : Mc → Nat
  | .ld | .st | .rmb | .wmb | .stop => 1
  | .flushp _ | .wfp _ | .wfe _ | .sev _ => 2
  | .mov _ => 6
  | .loop _ code _ => 2 + Mc.sizes code + 2

def Mc.sizes : List Mc → Nat
  | [] => 0
  | mc :: code => mc.size + Mc.sizes code

end

mutual

/-- What an entry does when it runs: none if a loop ends with a jump to anywhere but its
beginning.  The controller makes one turn more than the count it is given. -/
def Mc.exec : Mc → Option (List Burst)
  | .ld => some [.load]
  | .st => some [.store]
  | .rmb | .wmb | .stop | .flushp _ | .wfp _ | .mov _ | .wfe _ | .sev _ => some []
  | .loop cnt code bjump =>
    if bjump.toNat = Mc.sizes code then
      (Mc.execs code).map fun turn => (List.replicate (cnt.toNat + 1) turn).flatten
    else none

def Mc.execs : List Mc → Option (List Burst)
  | [] => some []
  | mc :: code => mc.exec.bind fun first => (Mc.execs code).map (first ++ ·)

end

/-- `_emit_LP`, `code` and `_emit_LPEND`. -/
def emitLoop (cnt : Nat) (code : List Mc) : Mc :=
  .loop (UInt8.ofNat cnt - 1) code (UInt8.ofNat (Mc.sizes code))

def _ldstMemtomem (pcfg : Pl330Config) (cyc : Nat) : List Mc :=
  (List.replicate cyc (if pcfg.r1p0 then [.ld, .st] else [.ld, .rmb, .st, .wmb])).flatten

/-- The counts of the two loops of `_loop`, and of the bursts in a row. -/
structure LoopCounts where
  lcnt1 : Nat
  /-- No outer loop if it is 0. -/
  lcnt0 : Nat
  cyc : Nat

/-- Max iterations possible in DMALP is 256. -/
def loopCounts (bursts : Nat) : LoopCounts :=
  if bursts ≥ 256 * 256 then { lcnt1 := 256, lcnt0 := 256, cyc := bursts / 256 / 256 }
  else if bursts > 256 then { lcnt1 := 256, lcnt0 := bursts / 256, cyc := 1 }
  else { lcnt1 := bursts, lcnt0 := 0, cyc := 1 }

/-- `cycmax`: max bursts that we can unroll. -/
def cycmax (pcfg : Pl330Config) (lcnt0 : Nat) : Nat :=
  let szlp := if lcnt0 ≠ 0 then 4 else 2
  let szlpend := if lcnt0 ≠ 0 then 4 else 2
  (255 - (szlp + szlpend)) / Mc.sizes (_ldstMemtomem pcfg 1)

/-- The rest of `_loop`: the code, and `*bursts`. -/
def loopCode (pcfg : Pl330Config) (rqc : ReqCfg) (counts : LoopCounts) : List Mc × Nat :=
  let flushp := if rqc.endsFlushp ≠ 0 then [.flushp (rqc.endsFlushp - 1)] else []
  let wfp := if rqc.startsWfp ≠ 0 then [.wfp (rqc.startsWfp - 1)] else []
  let code := flushp ++ wfp ++ [emitLoop counts.lcnt1 (_ldstMemtomem pcfg counts.cyc)]
  if counts.lcnt0 ≠ 0 then
    ([emitLoop counts.lcnt0 code], counts.lcnt1 * counts.cyc * counts.lcnt0)
  else (code, counts.lcnt1 * counts.cyc)

/-- The counts that `_loop` works with. -/
def unrolled (pcfg : Pl330Config) (bursts : Nat) : LoopCounts :=
  let counts := loopCounts bursts
  let cycmax := cycmax pcfg counts.lcnt0
  { counts with cyc := if cycmax < counts.cyc then cycmax else counts.cyc }

/-- `_loop`: the code, and how many of the bursts it makes. -/
def _loop (pcfg : Pl330Config) (rqc : ReqCfg) (bursts : Nat) : List Mc × Nat :=
  loopCode pcfg rqc (unrolled pcfg bursts)

/-! ### What a loop makes -/

theorem ldstMemtomem_size (pcfg : Pl330Config) (cyc : Nat) :
    Mc.sizes (_ldstMemtomem pcfg cyc) = cyc * if pcfg.r1p0 then 2 else 4 := by
  induction cyc with
  | zero => simp [_ldstMemtomem, Mc.sizes]
  | succ cyc ih =>
      cases hrev : pcfg.r1p0 with
      | true =>
          simp only [_ldstMemtomem, hrev, if_true, List.replicate_succ, List.flatten_cons,
            List.cons_append, List.nil_append, Mc.sizes, Mc.size] at ih ⊢
          omega
      | false =>
          simp only [_ldstMemtomem, hrev, Bool.false_eq_true, if_false, List.replicate_succ,
            List.flatten_cons, List.cons_append, List.nil_append, Mc.sizes, Mc.size] at ih ⊢
          omega

/-- How many bursts the counts make. -/
def LoopCounts.total (c : LoopCounts) : Nat :=
  if c.lcnt0 ≠ 0 then c.lcnt1 * c.cyc * c.lcnt0 else c.lcnt1 * c.cyc

/-- What the counts have to be for the code to make that many. -/
structure LoopCounts.Fit (pcfg : Pl330Config) (c : LoopCounts) : Prop where
  lcnt1 : 1 ≤ c.lcnt1 ∧ c.lcnt1 ≤ 256
  lcnt0 : c.lcnt0 ≤ 256
  cyc : 1 ≤ c.cyc
  /-- The jump back of an outer loop that flushes and waits. -/
  jump : 4 + 2 + Mc.sizes (_ldstMemtomem pcfg c.cyc) + 2 ≤ 255

theorem cycmax_cases (pcfg : Pl330Config) (lcnt0 : Nat) :
    1 ≤ cycmax pcfg lcnt0 ∧
      (lcnt0 ≠ 0 → Mc.sizes (_ldstMemtomem pcfg (cycmax pcfg lcnt0)) ≤ 247) := by
  simp only [ldstMemtomem_size, cycmax]
  cases pcfg.r1p0 with
  | true =>
      by_cases h : lcnt0 = 0
      · simp [h]
      · simp [h]
  | false =>
      by_cases h : lcnt0 = 0
      · simp [h]
      · simp [h]

/-- Every number of bursts can be looped over, and no loop makes more than it is to. -/
theorem unrolled_fit (pcfg : Pl330Config) {bursts : Nat} (hpos : 0 < bursts) :
    (unrolled pcfg bursts).Fit pcfg ∧ (unrolled pcfg bursts).total ≤ bursts := by
  obtain ⟨hmax, hjump⟩ := cycmax_cases pcfg (loopCounts bursts).lcnt0
  have hcut : ∀ cyc, 1 ≤ cyc →
      ∃ cut, (if cycmax pcfg (loopCounts bursts).lcnt0 < cyc then
        cycmax pcfg (loopCounts bursts).lcnt0 else cyc) = cut ∧ 1 ≤ cut ∧ cut ≤ cyc ∧
        Mc.sizes (_ldstMemtomem pcfg cut) ≤
          Mc.sizes (_ldstMemtomem pcfg (cycmax pcfg (loopCounts bursts).lcnt0)) := by
    intro cyc hcyc
    by_cases hlt : cycmax pcfg (loopCounts bursts).lcnt0 < cyc
    · exact ⟨_, if_pos hlt, hmax, Nat.le_of_lt hlt, Nat.le_refl _⟩
    · refine ⟨cyc, if_neg hlt, hcyc, Nat.le_refl _, ?_⟩
      rw [ldstMemtomem_size, ldstMemtomem_size]
      exact Nat.mul_le_mul_right _ (Nat.not_lt.mp hlt)
  unfold unrolled
  dsimp only
  by_cases hlarge : bursts ≥ 256 * 256
  · have hcounts : loopCounts bursts = ⟨256, 256, bursts / 256 / 256⟩ := if_pos hlarge
    obtain ⟨cut, hcut, hone, hle, hsize⟩ := hcut (bursts / 256 / 256) (by omega)
    have htotal : 256 * cut * 256 ≤ bursts := by
      rw [Nat.div_div_eq_div_mul] at hle
      calc 256 * cut * 256 = cut * (256 * 256) := by rw [Nat.mul_comm 256 cut, Nat.mul_assoc]
        _ ≤ bursts / (256 * 256) * (256 * 256) := Nat.mul_le_mul_right _ hle
        _ ≤ bursts := Nat.div_mul_le_self _ _
    rw [hcounts] at hcut hjump hsize ⊢
    have hbytes := hjump (show (256 : Nat) ≠ 0 by decide)
    simp only [hcut]
    refine ⟨⟨?_, Nat.le_refl _, hone, ?_⟩, ?_⟩
    · dsimp only
      omega
    · dsimp only
      omega
    · simp only [LoopCounts.total]
      rw [if_pos (show (256 : Nat) ≠ 0 by decide)]
      exact htotal
  · have hone : ∀ lcnt0, cycmax pcfg lcnt0 < 1 → False := by
      intro lcnt0 hlt
      have := (cycmax_cases pcfg lcnt0).1
      omega
    have hsize : Mc.sizes (_ldstMemtomem pcfg 1) ≤ 4 := by
      rw [ldstMemtomem_size]
      split_ifs
      · decide
      · decide
    by_cases hmany : bursts > 256
    · have hcounts : loopCounts bursts = ⟨256, bursts / 256, 1⟩ := by
        rw [loopCounts, if_neg hlarge, if_pos hmany]
      rw [hcounts]
      simp only [if_neg (hone _)]
      refine ⟨⟨?_, ?_, Nat.le_refl _, ?_⟩, ?_⟩
      · dsimp only
        omega
      · dsimp only
        omega
      · dsimp only
        omega
      · simp only [LoopCounts.total]
        rw [if_pos (by omega)]
        omega
    · have hcounts : loopCounts bursts = ⟨bursts, 0, 1⟩ := by
        rw [loopCounts, if_neg hlarge, if_neg hmany]
      rw [hcounts]
      simp only [if_neg (hone _)]
      refine ⟨⟨?_, Nat.zero_le _, Nat.le_refl _, ?_⟩, ?_⟩
      · dsimp only
        omega
      · dsimp only
        omega
      · simp only [LoopCounts.total]
        rw [if_neg (by omega)]
        omega

theorem LoopCounts.Fit.total_pos {pcfg : Pl330Config} {c : LoopCounts} (h : c.Fit pcfg) :
    0 < c.total := by
  have hrow := Nat.mul_pos h.lcnt1.1 h.cyc
  unfold total
  split_ifs with hout
  · exact Nat.mul_pos hrow (Nat.pos_of_ne_zero hout)
  · exact hrow

theorem loop_snd (pcfg : Pl330Config) (rqc : ReqCfg) (bursts : Nat) :
    (_loop pcfg rqc bursts).2 = (unrolled pcfg bursts).total := by
  simp only [_loop, loopCode, LoopCounts.total]
  by_cases hout : (unrolled pcfg bursts).lcnt0 ≠ 0
  · rw [if_pos hout, if_pos hout]
  · rw [if_neg hout, if_neg hout]

/-! ### A request -/

/-- `_setup_loops`, from a number of bursts on. -/
def _setupLoops (pcfg : Pl330Config) (rqc : ReqCfg) (bursts : Nat) : List Mc :=
  if bursts ≠ 0 then
    (_loop pcfg rqc bursts).1 ++ _setupLoops pcfg rqc (bursts - (_loop pcfg rqc bursts).2)
  else []
termination_by bursts
decreasing_by
  rename_i hne
  have hpos := (unrolled_fit pcfg (Nat.pos_of_ne_zero hne)).1.total_pos
  rw [← loop_snd pcfg rqc] at hpos
  omega

def _setupXfer (pcfg : Pl330Config) (rqc : ReqCfg) (srcAddr dstAddr bytes ccr : Nat) : List Mc :=
  [.mov srcAddr, .mov dstAddr] ++ (if rqc.waitEv ≠ 0 then [.wfe rqc.waitEv] else []) ++
    _setupLoops pcfg rqc (byteToBurst bytes ccr)

/-- `_setup_req`, of a request with the event `ev` of its thread: none for `-EINVAL`. -/
def _setupReq (pcfg : Pl330Config) (rqc : ReqCfg) (srcAddr dstAddr bytes ev : Nat) :
    Option (List Mc) :=
  let ccr := _prepareCcr rqc
  if bytes % (brstSize ccr * brstLen ccr) ≠ 0 then none
  else some ([.mov ccr] ++ _setupXfer pcfg rqc srcAddr dstAddr bytes ccr ++
    (if rqc.setEv ≠ 0 then [.sev rqc.setEv] else []) ++ [.sev ev, .stop])

end Acq400
