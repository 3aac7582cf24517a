/-
Knobs of a module as text (`acq400_sysfs.c`): `store_nacc`, `store_dec` and `show_nacc`, with
`store_dac_dec` and `show_dac_dec` of `xo_sysfs.c`; `store_soft_trigger` with the timer that
`init_soft_trigger_timer` starts; and `_spad_cop_set` and `_spad_cop_show` with the timer of
`spadcop.c`.

A register reads back what was written to it.  A timer that has been started is active until it is
cancelled or its callback says so, and a callback runs while it is.
-/
import Acq400.Driver.SysfsUtils

namespace Acq400

/-! ### Accumulate and decimate -/

namespace AccDec

def adcAccDecLen : BitVec 32 := 0x000000ff

def adcAccDecShiftMask : BitVec 32 := 0x00000f00

def adcAccDecStartMask : BitVec 32 := 0x00ff0000

def adcAccDecPrescaleMask : BitVec 32 := 0x07000000

def adcMaxNacc : Nat := 256

def adcAccDecShiftMax : Nat := 15

/-- `sscanf` of at most so many `%u`, with commas between them. -/
def scanUints : Nat → List Char → List Nat
  | 0, _ => []
  | fields + 1, buf =>
    match Sscanf.uint buf with
    | none => []
    | some (x, rest) =>
      x :: match Sscanf.lit [','] rest with
        | none => []
        | some rest => scanUints fields rest

/-- `for (; 1<<shl < n; ++shl)`, which an `int` ends before 31 turns. -/
def shlFrom : Nat → Nat → Nat → Nat
  | 0, _, shl => shl
  | fuel + 1, n, shl => if 1 <<< shl < n then shlFrom fuel n (shl + 1) else shl

/-- What `store_nacc` makes of its numbers, with 999 for a shift that is missing. -/
def acdcOf (nacc shift start prescale : Nat) : BitVec 32 :=
  if nacc > 0 then
    let nacc := min nacc adcMaxNacc
    let start := min start (nacc - 1)
    let (shift, start) :=
      if shift = 999 then
        let shift := shlFrom 31 nacc 0
        let shift := if 1 <<< shift > nacc then shift - 1 else shift
        (shift, nacc - 1 <<< shift)
      else (shift, start)
    let prescale := min prescale 128
    let psShl := shlFrom 31 prescale 0
    let shift := min shift adcAccDecShiftMax
    BitVec.ofNat 32 (nacc - 1) ||| (BitVec.ofNat 32 shift <<< getSHL adcAccDecShiftMask) |||
      (BitVec.ofNat 32 start <<< getSHL adcAccDecStartMask) |||
      (BitVec.ofNat 32 psShl <<< getSHL adcAccDecPrescaleMask)
  else 0

/-- `store_nacc`: the word that is written; a text that is refused returns -1. -/
def storeNacc (buf : List Char) : Option (BitVec 32) :=
  match scanUints 4 buf with
  | [] => none
  | nacc :: more => some (acdcOf nacc (more.getD 0 999) (more.getD 1 0) (more.getD 2 0))

def showNacc (accDec : BitVec 32) : List Char :=
  let shift := (accDec &&& adcAccDecShiftMask) >>> getSHL adcAccDecShiftMask
  let start := (accDec &&& adcAccDecStartMask) >>> getSHL adcAccDecStartMask
  let psShl := (accDec &&& adcAccDecPrescaleMask) >>> getSHL adcAccDecPrescaleMask
  let prescale := 1 <<< psShl.toNat
  Sscanf.decimalText ((accDec &&& adcAccDecLen) + 1).toNat ++ ',' ::
    (Sscanf.decimalText shift.toNat ++ ',' ::
      (Sscanf.decimalText start.toNat ++ ',' :: (Sscanf.decimalText (prescale : Nat) ++ ['\n'])))

def storeDec (buf : List Char) : Option (BitVec 32) :=
  match Sscanf.uint buf with
  | none => none
  | some (ndec, _) =>
    some <|
      if ndec > 0 then
        let ndec := min ndec adcMaxNacc
        let start := ndec - 1
        BitVec.ofNat 32 (ndec - 1) ||| (BitVec.ofNat 32 start <<< getSHL adcAccDecStartMask)
      else 0

def showDacDec (accDec : BitVec 32) : List Char :=
  Sscanf.decimalText ((accDec &&& adcAccDecLen) + 1).toNat ++ ['\n']

def storeDacDec (buf : List Char) : Option (BitVec 32) :=
  match Sscanf.uint buf with
  | none => none
  | some (nacc, _) =>
    let nacc := min nacc adcMaxNacc
    some (BitVec.ofNat 32 nacc - 1)

end AccDec

/-! ### Soft triggers -/

/-- `SoftTriggerTimer`, with what the pulses are counted and stretched by. -/
structure SoftTrigger where
  timerInit : Bool
  /-- The timer has been started and has not ended. -/
  active : Bool
  /-- In nanoseconds. -/
  period : Int
  repeatCount : Int
  /-- The pulses so far. -/
  softTriggerCount : Nat
  softTriggerUdelay : Int
deriving DecidableEq, Repr

namespace SoftTrigger

/-- `SoftTriggerTimerRepeatInfinity`. -/
def repeatInfinity : Int := -1

/-- `pulse_soft_trigger`. -/
def pulse (stt : SoftTrigger) : SoftTrigger :=
  { stt with softTriggerCount := stt.softTriggerCount + 1 }

/-- `pulse_soft_trigger_callback`. -/
def callback (stt : SoftTrigger) : SoftTrigger :=
  if stt.repeatCount = repeatInfinity then stt.pulse
  else if stt.repeatCount = 0 then { stt with active := false }
  else
    let repeatCount := CInt.wrap (stt.repeatCount - 1)
    if repeatCount ≠ 0 then { stt with repeatCount := repeatCount }.pulse
    else { stt with repeatCount := repeatCount, active := false }

def ktimeSet (secs nsecs : Int) : Int := secs * 1000000000 + nsecs

/-- `init_soft_trigger_timer`. -/
def initTimer (stt : SoftTrigger) (ntriggers rateLimit : Int) : SoftTrigger :=
  let stt := if stt.timerInit then { stt with active := false, timerInit := false } else stt
  if ntriggers ≠ 0 then
    let intervalUsec := if rateLimit < 10000 then (1000000 : Int).tdiv rateLimit else 0
    let intervalSecs := if rateLimit ≥ 10000 then (1000000 : Int).tdiv rateLimit else 0
    let udelay :=
      if intervalUsec ≠ 0 ∧ stt.softTriggerUdelay > intervalUsec.tdiv 2 then intervalUsec.tdiv 2
      else stt.softTriggerUdelay
    { stt with
      softTriggerUdelay := udelay
      timerInit := true
      period := ktimeSet intervalSecs (intervalUsec * 1000)
      repeatCount := ntriggers
      active := true }
  else stt

/-- `sscanf(buf, "%d %d", ..)`: the number of triggers and the rate, which is 0 when missing. -/
def scan (buf : List Char) : Option (Int × Int) :=
  match Sscanf.int buf with
  | none => none
  | some (ntriggers, rest) =>
    match Sscanf.int rest with
    | none => some (ntriggers, 0)
    | some (rateLimit, _) => some (ntriggers, rateLimit)

/-- What `store_soft_trigger` does with a command. -/
def command (stt : SoftTrigger) (ntriggers rateLimit : Int) : SoftTrigger :=
  if ntriggers = 1 then stt.pulse
  else
    let stt := if ntriggers > 1 then stt.pulse else stt
    let rateLimit :=
      if ntriggers ≠ 0 ∧ rateLimit < 10000 then max 1 (min rateLimit 1000) else rateLimit
    stt.initTimer ntriggers rateLimit

/-- `store_soft_trigger`: what it returns, and the timer behind it. -/
def storeSoftTrigger (stt : SoftTrigger) (buf : List Char) : Int × SoftTrigger :=
  match scan buf with
  | none => (-1, stt)
  | some (ntriggers, rateLimit) => (buf.length, stt.command ntriggers rateLimit)

end SoftTrigger

/-! ### Copies to the scratchpad -/

/-- Where an `hrtimer` is: `hrtimer_init` has not been called, or it is idle, or running. -/
inductive Hrtimer where
  | uninit
  | idle
  | active
deriving DecidableEq, Repr

/-- What the timer of a `SpadCop` does. -/
inductive SpadCopAction where
  | timeRealSeconds
  | msec
  | timeReal
  | timeTAI
  | ramp
  | readClear
  | read
deriving DecidableEq, Repr

/-- `struct SpadCop`.  Its `src` is the offset `reg` of the module in `src_site`, and its
`kt_period` is in nanoseconds. -/
structure SpadCop where
  enabled : BitVec 32
  srcSite : BitVec 32
  reg : Nat
  ktPeriod : Nat
  timer : Hrtimer
  function : SpadCopAction
  updates : Nat
deriving DecidableEq, Repr

namespace SpadCop

/-- What `spadCopStart` makes of the register. -/
def action (sc : SpadCop) : SpadCopAction :=
  if sc.reg = 0x5555 then .timeRealSeconds
  else if sc.reg = 0xcafe then .msec
  else if sc.reg = 0xfeed then .timeReal
  else if sc.reg = 0xd0d0 then .timeTAI
  else if sc.reg = 0xcccc then .ramp
  else if sc.enabled &&& 2 ≠ 0 then .readClear
  else .read

/-- `spadCopStart`. -/
def start (sc : SpadCop) : SpadCop := { sc with function := sc.action, timer := .active }

/-- `spadCopStop`.  A timer that has not been initialised cannot be cancelled: what comes of it is
not defined. -/
def stop (sc : SpadCop) : Option SpadCop :=
  match sc.timer with
  | .uninit => none
  | .idle => some sc
  | .active => some { sc with timer := .idle }

/-- The timer has run out. -/
def callback (sc : SpadCop) : SpadCop :=
  match sc.function with
  | .ramp | .readClear | .read => { sc with updates := (sc.updates + 1) % 4294967296 }
  | _ => sc

def enodev : Int := 19

def ebusy : Int := 16

def einval : Int := 22

/-- `_spad_cop_enable`.  `lookupSite` tells of `acq400_lookupSite` whether there is a device. -/
def enable (lookupSite : BitVec 32 → Bool) (sc : SpadCop) (site : BitVec 32) (reg : Nat)
    (usecs : BitVec 32) : Int × SpadCop :=
  if lookupSite site then
    (0, start { sc with
      reg := reg
      srcSite := site
      ktPeriod := (usecs * 1000).toNat
      updates := 0 })
  else (-enodev, sc)

/-- What is scanned: `enable`, and the others if there are all of them. -/
structure Scanned where
  enable : BitVec 32
  more : Option (BitVec 32 × Nat × BitVec 32)
deriving DecidableEq, Repr

/-- The second to the fourth field. -/
def scanMore (buf : List Char) : Option (BitVec 32 × Nat × BitVec 32) := do
  let (site, buf) ← (Sscanf.lit [','] buf).bind Sscanf.int
  let (reg, buf) ← (Sscanf.lit [','] buf).bind Sscanf.hex
  let (usecs, _) ← (Sscanf.lit [','] buf).bind Sscanf.int
  return (BitVec.ofInt 32 site, reg, BitVec.ofInt 32 usecs)

/-- `sscanf(buf, "%d,%d,%x,%d", ..)`. -/
def scan (buf : List Char) : Option Scanned :=
  (Sscanf.int buf).map fun (enable, buf) =>
    { enable := BitVec.ofInt 32 enable, more := scanMore buf }

/-- `_spad_cop_set`. -/
def set (lookupSite : BitVec 32 → Bool) (sc : SpadCop) (buf : List Char) :
    Option (Int × SpadCop) :=
  match scan buf with
  | none => some (-einval, sc)
  | some { enable := enable, more := more } =>
    if enable ≠ 0 then
      if sc.enabled ≠ 0 then some (-ebusy, sc)
      else
        match more with
        | some (site, reg, usecs) =>
          some (SpadCop.enable lookupSite { sc with enabled := enable } site reg usecs)
        | none => some (-einval, sc)
    else sc.stop.map fun sc => (0, { sc with enabled := 0 })

/-- `sprintf(buf, "%d,%d,%x,%d %u\n", ..)`. -/
def printText (enabled srcSite : BitVec 32) (reg : Nat) (usecs : BitVec 32) (updates : Nat) :
    List Char :=
  Sscanf.decimalText enabled.toInt ++ ',' :: (Sscanf.decimalText srcSite.toInt ++
    ',' :: (Nat.toDigits 16 reg ++ ',' :: (Sscanf.decimalText usecs.toInt ++
      ' ' :: (Sscanf.decimalText updates ++ ['\n']))))

/-- `_spad_cop_show`. -/
def print (sc : SpadCop) : List Char :=
  let usecs := BitVec.ofNat 32 (sc.ktPeriod >>> 10)
  printText sc.enabled sc.srcSite sc.reg usecs sc.updates

end SpadCop

end Acq400
