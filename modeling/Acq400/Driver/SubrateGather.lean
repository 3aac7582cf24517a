/-
The subrate file of the aggregated set (`acq400_ui.c`): `acq400_sc_nacc_subrate_open` lays out the
list of what is to be gathered, and `acq400_sc_nacc_subrate_read` gathers it.

`kzalloc` gives an array of `MAX_DESC` descriptors, and what lies behind it belongs to others: a
descriptor is stored where `gd` points to, wherever that is.  A device is known by its number.
`acq400_sc_nacc_service` is `acq400_sc_nacc_service_original`; copies to the user succeed.
-/
import Acq400.Lib.Memory
import Mathlib.Logic.Function.Basic

namespace Acq400

structure GatherDesc where
  adev : Option Nat
  srcOff : Nat
  n32 : Nat
  dstIdx : Nat

/-- What the gather list takes from a device of the set. -/
structure SubrateSlave where
  /-- A `u8`. -/
  nchanEnabled : UInt8
  data32 : UInt8

def maxDevices : Nat := 12

/-- `struct acq400_sc_dev`, with the parameters of the module. -/
structure SubrateDev where
  /-- The device of the file. -/
  adev : Nat
  /-- The devices of the set, or null. -/
  aggregatorSet : List (Option Nat)
  size : aggregatorSet.length = maxDevices
  slave : Nat → SubrateSlave
  /-- `acq400_sc_nacc_readoff`. -/
  readoff : Nat
  /-- `subrate_wr_timing`. -/
  wrTiming : Bool

/-- The local variables of `acq400_sc_nacc_subrate_open`. -/
structure Gather where
  /-- Memory from `gd0` on. -/
  desc : Nat → GatherDesc
  /-- `gd - gd0`. -/
  gd : Nat
  dstIdx : Nat
  /-- Where descriptors have been stored, in order. -/
  written : List Nat

namespace GatherDesc

/-- `MAX_DESC`: six sites, and a scratchpad of four elements. -/
def maxDesc : Nat := 6 + 4

def maxlbuf : Nat := 1024

def adcSampleCtr : Nat := 0x20

def adcNaccSamples : Nat := 0x100

def spadn (ix : Nat) : Nat := 0x80 + ix * 4

def wrTaiCurL : Nat := 0x0208

def wrCurVernr : Nat := 0x0218

/-- A descriptor of `kzalloc`. -/
def zero : GatherDesc := { adev := none, srcOff := 0, n32 := 0, dstIdx := 0 }

end GatherDesc

open GatherDesc

/-- The words of a sample that a device has. -/
def SubrateSlave.n32 (slave : SubrateSlave) : Nat :=
  slave.nchanEnabled.toNat >>> (if slave.data32 ≠ 0 then 0 else 1)

namespace Gather

variable (g : Gather)

/-- `gd0[i] = tmp`. -/
def store (i : Nat) (tmp : GatherDesc) : Gather :=
  { g with desc := Function.update g.desc i tmp, written := g.written ++ [i] }

/-- `dst_idx += n`. -/
def advance (n : Nat) : Gather := { g with dstIdx := g.dstIdx + n }

/-- `*gd++ = tmp`, and `dst_idx` behind it. -/
def push (tmp : GatherDesc) : Gather := { g.store g.gd tmp with gd := g.gd + 1 }.advance tmp.n32

/-- `kzalloc`, with the first descriptor skipped. -/
def alloc (heap : Nat → GatherDesc) : Gather :=
  { desc := fun i => if i < maxDesc then zero else heap i, gd := 1, dstIdx := 0, written := [] }

end Gather

namespace SubrateDev

variable (dev : SubrateDev)

/-- The devices of the set, as far as the loop goes on from `idev`. -/
def gatherSet : List (Option Nat) → Gather → Gather
  | some slave :: rest, g =>
    gatherSet rest <| g.push
      { adev := some slave
        srcOff := if dev.readoff ≠ 0 then dev.readoff else adcNaccSamples
        n32 := (dev.slave slave).n32
        dstIdx := g.dstIdx }
  | none :: _, g => g
  | [], g => g

/-- The first reading, as it is put at `dst_idx`. -/
def tmp0 (dstIdx : Nat) : GatherDesc :=
  { adev := dev.aggregatorSet.getD 0 none, srcOff := adcSampleCtr, n32 := 1, dstIdx := dstIdx }

/-- An element of the scratchpad. -/
def spad (srcOff dstIdx : Nat) : GatherDesc :=
  { adev := some dev.adev, srcOff := srcOff, n32 := 1, dstIdx := dstIdx }

/-- `tmp1` and `tmp2`. -/
def spads (g : Gather) : Gather :=
  if dev.wrTiming then
    let g := g.push (dev.spad wrTaiCurL g.dstIdx)
    g.push (dev.spad wrCurVernr g.dstIdx)
  else
    let g := g.push (dev.spad (spadn 1) g.dstIdx)
    g.push (dev.spad (spadn 2) g.dstIdx)

/-- `acq400_sc_nacc_subrate_open`, where `heap` is what lies behind the array. -/
def acq400ScNaccSubrateOpen (heap : Nat → GatherDesc) : Gather :=
  let g := dev.gatherSet dev.aggregatorSet (Gather.alloc heap)
  let g := dev.spads ((g.store 0 (dev.tmp0 g.dstIdx)).advance 1)
  g.push (dev.tmp0 g.dstIdx)

end SubrateDev

namespace GatherDesc

variable (desc : Nat → GatherDesc)

/-- The last descriptor in use, of the first `n`. -/
def lastDesc : Nat → Option Nat
  | 0 => none
  | n + 1 => if (desc n).adev.isSome then some n else lastDesc n

/-- `n32` of `acq400_sc_nacc_subrate_read`. -/
def sampleWords : Nat :=
  match lastDesc desc maxDesc with
  | some idesc => (desc idesc).dstIdx + (desc idesc).n32
  | none => 0

/-- `idesc + 1`, which is how many descriptors are passed on. -/
def passed : Nat :=
  match lastDesc desc maxDesc with
  | some idesc => idesc + 1
  | none => 0

/-- What a descriptor makes the service function write, by words of `lbuf`. -/
def stores (acq400rd32 : Option Nat → Nat → UInt32) (d : GatherDesc) : List (Nat × UInt32) :=
  (List.range d.n32).map fun ii => (d.dstIdx + ii, acq400rd32 d.adev (d.srcOff + 4 * ii))

/-- `acq400_sc_nacc_service_original`. -/
def service (acq400rd32 : Option Nat → Nat → UInt32) (lbuf : Nat → UInt32) (maxDesc : Nat) :
    Nat → UInt32 :=
  Memory.runWrites lbuf ((List.range maxDesc).flatMap fun i => stores acq400rd32 (desc i))

/-- `acq400_sc_nacc_subrate_read`: what it returns, and `lbuf` after it. -/
def acq400ScNaccSubrateRead (acq400rd32 : Option Nat → Nat → UInt32) (lbuf : Nat → UInt32)
    (count : Nat) : Int × (Nat → UInt32) :=
  let ss := sampleWords desc * 4
  if count < ss then (-1, lbuf) else (ss, service desc acq400rd32 lbuf (passed desc))

end GatherDesc

end Acq400
