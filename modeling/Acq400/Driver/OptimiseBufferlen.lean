/-
The buffer length that is made for a sample size (`acq400_sysfs.c`, `lcm`,
`_store_optimise_bufferlen` and `store_optimise_bufferlen`; `acq400_drv.c`,
`acq400_set_bufferlen`; `acq400_core.c`, `acq400_set_AXI_DMA_len`).

The arithmetic of an `int` goes round here, as it does in a kernel: `LCM_ROLLOVER` is a test for
that.  The loop of `lcm` may not come to its end and has `fuel`; `none` is that it has run out of
it, or a division by zero.
-/
import Acq400.Driver.AllocHbm
import Acq400.Lib.Sscanf

namespace Acq400

def pl330InnerLoopMax : Nat := 16384

def axiDmaBlock : Nat := 0x800

def axiDmaEngineDataMaxBlocks : Nat := 65536

namespace OptimiseBufferlen

/-- What `store_optimise_bufferlen` reads. -/
structure Params where
  /-- The parameter `bufferlen` of the module, an `int`. -/
  bufferlen : Nat
  /-- `IS_AXI64(adev)`. -/
  isAxi64 : Bool
  /-- `IS_ACQ480(acq400_devices[1])`. -/
  isAcq480 : Bool

/-- What `store_optimise_bufferlen` leaves behind. -/
structure Stored where
  /-- The length that `acq400_set_bufferlen` is called with. -/
  newbl : Int
  bufferlen : Int
  /-- The register `AXI_DMA_ENGINE_DATA`, if it is written. -/
  axiDmaEngineData : Option Int
deriving DecidableEq, Repr

/-- The `while` loop of `lcm`. -/
def lcmLoop : Nat → Int → Int → Option Int
  | 0, _, _ => none
  | fuel + 1, n1, n2 =>
    if n1 = n2 then some n1
    else if n1 > n2 then lcmLoop fuel (CInt.wrap (n1 - n2)) n2
    else lcmLoop fuel n1 (CInt.wrap (n2 - n1))

def lcm (fuel : Nat) (x y : Int) : Option Int :=
  (lcmLoop fuel x y).bind fun n1 => CInt.div (CInt.wrap (x * y)) n1

def lcmRollover (m : Int) : Bool := m < 0

def acq400SetBufferlen (par : Params) (len : Int) : Int :=
  if len ≠ 0 then min (par.bufferlen : Int) len else par.bufferlen

/-- What `acq400_set_AXI_DMA_len` writes. -/
def acq400SetAxiDmaLen (len : Int) : Int :=
  let blocks := len.tdiv axiDmaBlock
  let blocks :=
    if blocks > axiDmaEngineDataMaxBlocks then (axiDmaEngineDataMaxBlocks : Int) else blocks
  let blocks := if blocks < 1 then 1 else blocks
  blocks - 1

/-- The second argument of `lcm`. -/
def block (par : Params) : Nat := if par.isAxi64 then pageSize else pl330InnerLoopMax

/-- `newbl` of `_store_optimise_bufferlen`. -/
def newbl (par : Params) (mindma : Int) : Option Int :=
  if lcmRollover mindma ∨ mindma > par.bufferlen then some par.bufferlen
  else (CInt.div par.bufferlen mindma).map fun dmaPerBuffer => dmaPerBuffer * mindma

/-- `_store_optimise_bufferlen`, with `sample_size` an `unsigned`. -/
def optimise (par : Params) (fuel sampleSize : Nat) : Option Stored := do
  let mindma ← lcm fuel (CInt.wrap sampleSize) (block par)
  let newbl ← newbl par mindma
  return {
    newbl := newbl
    bufferlen := acq400SetBufferlen par newbl
    axiDmaEngineData := if par.isAcq480 then some (acq400SetAxiDmaLen newbl) else none }

/-- `sscanf(buf, "%u %u", &sample_size, &burst_len)`; `burst_len` stays 1 if there is no second
number. -/
def scanSizes (buf : List Char) : Option (Nat × Nat) :=
  (Sscanf.uint buf).map fun (sampleSize, rest) =>
    match Sscanf.uint rest with
    | some (burstLen, _) => (sampleSize, burstLen)
    | none => (sampleSize, 1)

/-- The sample size that `store_optimise_bufferlen` goes on with. -/
def burstSize (par : Params) (sampleSize burstLen : Nat) : Nat :=
  if burstLen > 1 ∧ burstLen * sampleSize % 4294967296 < par.bufferlen then
    burstLen * sampleSize % 4294967296
  else sampleSize

/-- `store_optimise_bufferlen`; `some none` is the -1 of a text that has no number. -/
def storeOptimiseBufferlen (par : Params) (fuel : Nat) (buf : List Char) :
    Option (Option Stored) :=
  match scanSizes buf with
  | none => some none
  | some (sampleSize, burstLen) =>
    (optimise par fuel (burstSize par sampleSize burstLen)).map some

end OptimiseBufferlen

end Acq400
