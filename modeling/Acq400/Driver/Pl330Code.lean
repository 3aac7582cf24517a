/-
The microcode of a request as bytes (`pl330.c`), and the controller that runs it.

The `_emit_` functions return what they put into the buffer, and `off` is the length of what
there is.  The controller is as its manual describes the instructions that the driver emits:
a load reads a burst into the FIFO, a store writes one out of it, and either is stuck where its
address is not aligned to the size of a beat or the FIFO is too full or too empty.  Peripherals
and events come when they are waited for.
-/
import Acq400.Driver.Pl330
import Acq400.Lib.CodeBlock
import Acq400.Lib.Memory

namespace Acq400

/-- `enum dmamov_dst`. -/
inductive MovDst
  | sar | ccr | dar
deriving DecidableEq, Repr

def MovDst.val : MovDst → UInt8
  | .sar => 0
  | .ccr => 1
  | .dar => 2

/-- The byte of a word from bit `8 * k` on. -/
def byteAt (k val : Nat) : UInt8 := UInt8.ofNat (val / 256 ^ k)

namespace Emit

/-! ### Instructions -/

/-- The operand of an event or a peripheral. -/
def operand (x : UInt8) : UInt8 := (x &&& 0x1f) <<< 3

def _emitEND : List UInt8 := [0x00]

def _emitFLUSHP (peri : UInt8) : List UInt8 := [0x35, operand peri]

/-- With `ALWAYS`, as all of these. -/
def _emitLD : List UInt8 := [0x04]

def _emitLP (loop : Bool) (cnt : UInt8) : List UInt8 :=
  [(0x20 : UInt8) ||| (if loop then (1 : UInt8) <<< 1 else 0), cnt - 1]

/-- Not `forever`. -/
def _emitLPEND (loop : Bool) (bjump : UInt8) : List UInt8 :=
  [(0x28 : UInt8) ||| (if loop then (1 : UInt8) <<< 2 else 0) ||| (1 : UInt8) <<< 4, bjump]

def _emitMOV (dst : MovDst) (val : Nat) : List UInt8 :=
  [0xbc, dst.val, byteAt 0 val, byteAt 1 val, byteAt 2 val, byteAt 3 val]

def _emitRMB : List UInt8 := [0x12]

def _emitSEV (ev : UInt8) : List UInt8 := [0x34, operand ev]

def _emitST : List UInt8 := [0x08]

def _emitWFE (ev : UInt8) : List UInt8 := [0x36, operand ev]

def _emitWFP (peri : UInt8) : List UInt8 := [(0x30 : UInt8) ||| (1 : UInt8) <<< 0, operand peri]

def _emitWMB : List UInt8 := [0x13]

/-! ### A request -/

/-- `_ldst_memtomem`, for `_bursts`. -/
def _ldstMemtomem (pcfg : Pl330Config) (cyc : Nat) : List UInt8 :=
  (List.replicate cyc
    (if pcfg.r1p0 then _emitLD ++ _emitST
    else _emitLD ++ (_emitRMB ++ (_emitST ++ _emitWMB)))).flatten

/-- What `_loop` puts before its inner loop. -/
def kickOff (rqc : ReqCfg) : List UInt8 :=
  (if rqc.endsFlushp ≠ 0 then _emitFLUSHP (UInt8.ofNat (rqc.endsFlushp - 1)) else []) ++
    if rqc.startsWfp ≠ 0 then _emitWFP (UInt8.ofNat (rqc.startsWfp - 1)) else []

/-- A loop of `_loop`, with `bjump` from the end of its body to the beginning. -/
def looped (loop : Bool) (lcnt : Nat) (body : List UInt8) : List UInt8 :=
  _emitLP loop (UInt8.ofNat lcnt) ++ (body ++ _emitLPEND loop (UInt8.ofNat body.length))

/-- `_loop`, with its counts. -/
def _loop (pcfg : Pl330Config) (rqc : ReqCfg) (counts : LoopCounts) : List UInt8 :=
  let inner := kickOff rqc ++ looped true counts.lcnt1 (_ldstMemtomem pcfg counts.cyc)
  if counts.lcnt0 ≠ 0 then looped false counts.lcnt0 inner else inner

/-- `_setup_loops`, from a number of bursts on. -/
def _setupLoops (pcfg : Pl330Config) (rqc : ReqCfg) (bursts : Nat) : List UInt8 :=
  if bursts ≠ 0 then
    _loop pcfg rqc (unrolled pcfg bursts) ++
      _setupLoops pcfg rqc (bursts - (unrolled pcfg bursts).total)
  else []
termination_by bursts
decreasing_by
  rename_i hne
  have hpos := (unrolled_fit pcfg (Nat.pos_of_ne_zero hne)).1.total_pos
  omega

def _setupXfer (pcfg : Pl330Config) (rqc : ReqCfg) (srcAddr dstAddr bytes ccr : Nat) :
    List UInt8 :=
  _emitMOV .sar srcAddr ++ (_emitMOV .dar dstAddr ++
    ((if rqc.waitEv ≠ 0 then _emitWFE (UInt8.ofNat rqc.waitEv) else []) ++
      _setupLoops pcfg rqc (byteToBurst bytes ccr)))

def _setupReq (pcfg : Pl330Config) (rqc : ReqCfg) (srcAddr dstAddr bytes ev : Nat) :
    Option (List UInt8) :=
  let ccr := _prepareCcr rqc
  if bytes % (brstSize ccr * brstLen ccr) ≠ 0 then none
  else some (_emitMOV .ccr ccr ++ (_setupXfer pcfg rqc srcAddr dstAddr bytes ccr ++
    ((if rqc.setEv ≠ 0 then _emitSEV (UInt8.ofNat rqc.setEv) else []) ++
      (_emitSEV (UInt8.ofNat ev) ++ _emitEND))))

end Emit

/-! ### The controller -/

inductive Insn
  | stop
  | ld
  | st
  | rmb
  | wmb
  | flushp (peri : Nat)
  | wfp (peri : Nat)
  | wfe (ev : Nat)
  | sev (ev : Nat)
  | lp (loop : Bool) (iter : Nat)
  | lpend (loop : Bool) (bjump : Nat)
  | mov (dst : MovDst) (val : Nat)
deriving DecidableEq, Repr

/-- The instruction at the beginning of some bytes. -/
def Insn.decode : List UInt8 → Option Insn
  | 0x00 :: _ => some .stop
  | 0x04 :: _ => some .ld
  | 0x08 :: _ => some .st
  | 0x12 :: _ => some .rmb
  | 0x13 :: _ => some .wmb
  | 0x35 :: x :: _ => some (.flushp (x.toNat / 8))
  | 0x31 :: x :: _ => some (.wfp (x.toNat / 8))
  | 0x36 :: x :: _ => some (.wfe (x.toNat / 8))
  | 0x34 :: x :: _ => some (.sev (x.toNat / 8))
  | 0x20 :: x :: _ => some (.lp false x.toNat)
  | 0x22 :: x :: _ => some (.lp true x.toNat)
  | 0x38 :: x :: _ => some (.lpend false x.toNat)
  | 0x3c :: x :: _ => some (.lpend true x.toNat)
  | 0xbc :: rd :: a :: b :: c :: d :: _ =>
    let val := a.toNat + 256 * (b.toNat + 256 * (c.toNat + 256 * d.toNat))
    match rd with
    | 0 => some (.mov .sar val)
    | 1 => some (.mov .ccr val)
    | 2 => some (.mov .dar val)
    | _ => none
  | _ => none

/-- What a channel's thread moves data with, and what it has done. -/
structure Dma330Data where
  sar : Nat
  dar : Nat
  ccr : Nat
  mfifo : List UInt8
  mem : Nat → UInt8
  /-- The bytes written, with their addresses. -/
  log : List (Nat × UInt8)
  /-- The events set. -/
  events : List Nat

/-- The thread: where it is, its loop counters, its data. -/
structure Dma330 where
  pc : Nat
  lc : Bool → Nat
  data : Dma330Data

/-- The bytes of a burst in the order of their beats; every beat has the same address if it is
not to be incremented. -/
def beats (inc : Bool) (addr size len : Nat) : List Nat :=
  (List.range (size * len)).map fun i => addr + if inc then i else i % size

/-- The address after a burst. -/
def advance (inc : Bool) (addr n : Nat) : Nat := if inc then (addr + n) % 2 ^ 32 else addr

namespace Dma330Data

def srcInc (d : Dma330Data) : Bool := BitField.field 0 1 d.ccr = 1

def dstInc (d : Dma330Data) : Bool := BitField.field 14 1 d.ccr = 1

def dstSize (d : Dma330Data) : Nat := 1 <<< BitField.field 15 3 d.ccr

def dstLen (d : Dma330Data) : Nat := BitField.field 18 4 d.ccr + 1

/-- Bytes are not swapped, and a beat is no wider than the bus. -/
def plain (pcfg : Pl330Config) (d : Dma330Data) : Bool :=
  BitField.field 28 3 d.ccr = 0 ∧ brstSize d.ccr ≤ pcfg.dataBusWidth / 8 ∧
    d.dstSize ≤ pcfg.dataBusWidth / 8

/-- `DMALD`. -/
def load (pcfg : Pl330Config) (d : Dma330Data) : Option Dma330Data :=
  let n := srcBytesPerBurst d.ccr
  if d.plain pcfg ∧ d.sar % brstSize d.ccr = 0 ∧
      d.mfifo.length + n ≤ pcfg.dataBusWidth / 8 * pcfg.dataBufDep then
    some { d with
      mfifo := d.mfifo ++ (beats d.srcInc d.sar (brstSize d.ccr) (brstLen d.ccr)).map d.mem
      sar := advance d.srcInc d.sar n }
  else none

/-- `DMAST`. -/
def store (pcfg : Pl330Config) (d : Dma330Data) : Option Dma330Data :=
  let n := dstBytesPerBurst d.ccr
  if d.plain pcfg ∧ d.dar % d.dstSize = 0 ∧ n ≤ d.mfifo.length then
    let writes := (beats d.dstInc d.dar d.dstSize d.dstLen).zip (d.mfifo.take n)
    some { d with
      mfifo := d.mfifo.drop n
      mem := Memory.runWrites d.mem writes
      log := d.log ++ writes
      dar := advance d.dstInc d.dar n }
  else none

def set (d : Dma330Data) (val : Nat) : MovDst → Dma330Data
  | .sar => { d with sar := val }
  | .ccr => { d with ccr := val }
  | .dar => { d with dar := val }

def signal (d : Dma330Data) (ev : Nat) : Dma330Data := { d with events := d.events ++ [ev] }

end Dma330Data

namespace Dma330

/-- To the next instruction, `n` bytes on. -/
def next (s : Dma330) (n : Nat) : Dma330 := { s with pc := s.pc + n }

/-- An instruction; none for the one that stops the thread, and where it is stuck. -/
def exec (pcfg : Pl330Config) (s : Dma330) : Insn → Option Dma330
  | .stop => none
  | .ld => (s.data.load pcfg).map fun d => { s.next 1 with data := d }
  | .st => (s.data.store pcfg).map fun d => { s.next 1 with data := d }
  | .rmb | .wmb => some (s.next 1)
  | .flushp _ | .wfp _ | .wfe _ => some (s.next 2)
  | .sev ev => some { s.next 2 with data := s.data.signal ev }
  | .lp loop iter => some { s.next 2 with lc := Function.update s.lc loop iter }
  | .lpend loop bjump =>
    if s.lc loop = 0 then some (s.next 2)
    else if bjump ≤ s.pc then
      some { s with pc := s.pc - bjump, lc := Function.update s.lc loop (s.lc loop - 1) }
    else none
  | .mov dst val => some { s.next 6 with data := s.data.set val dst }

def step (pcfg : Pl330Config) (prog : List UInt8) (s : Dma330) : Option Dma330 :=
  (Insn.decode (prog.drop s.pc)).bind (s.exec pcfg)

/-- The thread is at the end of its program. -/
def Stopped (prog : List UInt8) (s : Dma330) : Prop := Insn.decode (prog.drop s.pc) = some .stop

/-- The controller, as a machine for bytes of code. -/
def machine (pcfg : Pl330Config) : CodeMachine UInt8 Bool Dma330Data Dma330 where
  step := step pcfg
  pc := pc
  count := lc
  data := data

end Dma330

end Acq400
