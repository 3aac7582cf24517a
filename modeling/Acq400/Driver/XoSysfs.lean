/-
Knobs of an output module as text (`xo_sysfs.c`): `store_playloop_length`, the gains and offsets of
`store_ao_GO` and `store_ao_RAMP`, and the values of `store_dac_no_immediate_all_unique` with
`ao420_flushImmediate` and `show_dac_immediate`.

A `long` has 32 bits, and a register reads back what was written to it.  A variable that has not
been set has any value.  What `int` arithmetic makes of a value that is out of its range is not
looked at: there is none.
-/
import Acq400.Awg.FillFifo
import Acq400.Lib.Sscanf
import Mathlib.Data.BitVec

namespace Acq400

/-! ### The length of the playloop -/

namespace PlayloopLength

def xo400Playcontinuous : Nat := 0xffffffff

/-- What `xo400_reset_playloop` finds. -/
structure Xo where
  /-- `xo_use_distributor`. -/
  useDistributor : Bool
  taskActive : Bool
  /-- A signal comes while it waits for the mutex. -/
  interrupted : Bool
  /-- `adev->onStop` is `_ao420_onStop`, and not that of the DIO432. -/
  ao420 : Bool
  fifo : FillDev
  /-- The samples that are in the FIFO, turn by turn. -/
  samples : Nat → Nat

/-- `xo400_fill_fifo`, by what it leaves of the playloop. -/
def Xo.fillFifo (xo : Xo) (playloop : AoPlayloop) : AoPlayloop :=
  (xo.fifo.fillFifo xo.samples { playloop := playloop, transfers := [] }).2.playloop

/-- `adev->onStop`, by what it leaves of the playloop: `_ao420_stop` goes back to its start. -/
def Xo.onStop (xo : Xo) (playloop : AoPlayloop) : AoPlayloop :=
  if xo.ao420 then { playloop with cursor := 0 } else playloop

/-- `xo400_reset_playloop`: what it returns, and the playloop behind it. -/
def Xo.resetPlayloop (xo : Xo) (playloopLength : Nat) (playloop : AoPlayloop) : Int × AoPlayloop :=
  if playloopLength ≠ 0 ∧ xo.useDistributor ∧ xo.taskActive then (-1, playloop)
  else
    let playloop :=
      if playloopLength = 0 ∧ xo.useDistributor then { playloop with oneshot := .oneshot }
      else playloop
    if xo.interrupted then (-1, playloop)
    else
      let playloop := xo.onStop playloop
      let playloop :=
        if playloopLength = xo400Playcontinuous then { playloop with oneshot := .continuous }
        else { playloop with length := playloopLength }
      if xo.useDistributor then (0, playloop)
      else if playloopLength ≠ 0 then (0, xo.fillFifo playloop)
      else (0, { xo.onStop playloop with cursor := 0 })

/-- `sscanf(buf, "%u %u", ..)`: the numbers that are scanned. -/
def scan (buf : List Char) : List Nat :=
  match Sscanf.uint buf with
  | none => []
  | some (playloopLength, rest) =>
    match Sscanf.uint rest with
    | none => [playloopLength]
    | some (oneShot, _) => [playloopLength, oneShot]

/-- The modes there are. -/
def oneshotOf : Nat → Option AoOneshot
  | 0 => some .continuous
  | 1 => some .oneshot
  | 2 => some .oneshotRearm
  | _ => none

/-- What `store_playloop_length` returns, what it leaves, and whether it has called
`xo400_reset_playloop` and what that returned. -/
structure Stored where
  ret : Int
  playloop : AoPlayloop
  reset : Option Int

/-- What follows `case 1`.  `rc` is what its variable holds before it is set. -/
def Xo.storeLength (xo : Xo) (rc : Int) (playloop : AoPlayloop) (count playloopLength : Nat) :
    Stored :=
  let (reset, rc, playloop) :=
    if playloop.length = 0 ∨ playloopLength < playloop.length then
      let (rc, playloop) := xo.resetPlayloop playloopLength playloop
      (some rc, rc, playloop)
    else (none, rc, { playloop with length := playloopLength })
  let playloop :=
    if playloop.oneshot ≠ .continuous then { playloop with repeats := 0 } else playloop
  if rc = 0 then { ret := count, playloop := playloop, reset := reset }
  else { ret := rc, playloop := playloop, reset := reset }

def Xo.storePlayloopLength (xo : Xo) (rc : Int) (playloop : AoPlayloop) (buf : List Char) :
    Stored :=
  match scan buf with
  | [] => { ret := -1, playloop := playloop, reset := none }
  | [playloopLength] => xo.storeLength rc playloop buf.length playloopLength
  | playloopLength :: oneShot :: _ =>
    match oneshotOf oneShot with
    | none => { ret := -1, playloop := playloop, reset := none }
    | some mode =>
      xo.storeLength rc { playloop with oneshot := mode } buf.length playloopLength

end PlayloopLength

/-! ### Gains and offsets -/

namespace AoGo

/-- The channel of a knob, and whether it is for the gain or for the offset. -/
structure Knob where
  chan : Nat
  gain : Bool
deriving DecidableEq, Repr

/-- `DAC_MATH_GAIN_SHL`, or `DAC_MATH_OFFS_SHL`. -/
def Knob.shl (knob : Knob) : Nat := if knob.gain then 16 else 0

def Knob.aoMin (knob : Knob) : Int := if knob.gain then 0 else -32767

def Knob.aoMax (_knob : Knob) : Int := 32768

/-- What is written. -/
inductive Write where
  /-- To `DAC_GAIN_OFF`. -/
  | gainOff (chan : Nat) (go : BitVec 32)
  /-- To `SPADN`. -/
  | spad (n : Nat) (value : BitVec 32)
deriving DecidableEq, Repr

/-- `hook_dac_gx_to_spad`, and the site. -/
structure Hook where
  hook : Int
  site : Nat
deriving DecidableEq, Repr

def Hook.setSpadGx (h : Hook) (ch0 : Nat) (go : BitVec 32) : Write :=
  let go := if h.hook < 0 then (go >>> 16) ||| ((go &&& 0x0000ffff) <<< 16) else go
  .spad (ch0 + 4) go

/-- The half of the register is replaced. -/
def Knob.putHalf (knob : Knob) (go : BitVec 32) (x : Int) : BitVec 32 :=
  (go &&& ~~~((0x0000ffff : BitVec 32) <<< knob.shl)) |||
    ((BitVec.ofInt 32 x &&& 0x0000ffff) <<< knob.shl)

/-- The register is written, and the scratchpad if it is hooked. -/
def Hook.writeGo (h : Hook) (knob : Knob) (go : BitVec 32) : List Write :=
  .gainOff knob.chan go ::
    if (h.hook.natAbs : Int) = h.site then [h.setSpadGx (knob.chan - 1) go] else []

/-- `sscanf(buf, "%d", ..) == 1 || sscanf(buf, "0x%x", ..) == 1`. -/
def scanGo (buf : List Char) : Option Int :=
  match Sscanf.int buf with
  | some (gx, _) => some gx
  | none =>
    match (Sscanf.lit "0x".toList buf).bind Sscanf.hex with
    | some (gx, _) => some (CInt.wrap gx)
    | none => none

/-- `store_ao_GO`: what it writes; a text that is refused returns -1. -/
def Hook.storeAoGO (h : Hook) (knob : Knob) (go : BitVec 32) (buf : List Char) :
    Option (List Write) :=
  (scanGo buf).map fun gx =>
    let gx := if gx > knob.aoMax then knob.aoMax else gx
    let gx := if gx < knob.aoMin then knob.aoMin else gx
    h.writeGo knob (knob.putHalf go gx)

/-- The numbers of a ramp. -/
structure Ramp where
  start : Int
  stop : Int
  step : Int
  usec : Int
  reps : Int
deriving DecidableEq, Repr

/-- `sscanf` of at most so many `%d`, with commas between them. -/
def scanInts : Nat → List Char → List Int
  | 0, _ => []
  | fields + 1, buf =>
    match Sscanf.int buf with
    | none => []
    | some (x, rest) =>
      x :: match Sscanf.lit [','] rest with
        | none => []
        | some rest => scanInts fields rest

/-- `sscanf(buf, "%d,%d,%d,%d,%d", ..) >= 4`. -/
def scanRamp (buf : List Char) : Option Ramp :=
  match scanInts 5 buf with
  | start :: stop :: step :: usec :: more =>
    some { start := start, stop := stop, step := step, usec := usec, reps := more.getD 0 1 }
  | _ => none

/-- The inner loop, from `xx` on: what it writes, and `go` behind it. -/
def Hook.stepLoop (h : Hook) (knob : Knob) (stop step usec : Int) :
    Nat → Int → BitVec 32 → Option (List Write × BitVec 32)
  | 0, _, _ => none
  | fuel + 1, xx, go =>
    if xx < stop then do
      let go := knob.putHalf go xx
      -- `usleep_range(usec, usec+1)`
      let _ ← CInt.value (usec + 1)
      let xx ← CInt.value (xx + step)
      let (writes, go') ← h.stepLoop knob stop step usec fuel xx go
      return (h.writeGo knob go ++ writes, go')
    else some ([], go)

/-- The outer loop, with so many turns to go. -/
def Hook.repLoop (h : Hook) (knob : Knob) (start stop step usec : Int) (fuel : Nat) :
    Nat → BitVec 32 → Option (List Write)
  | 0, _ => some []
  | reps + 1, go => do
    let (writes, go) ← h.stepLoop knob stop step usec fuel start go
    let more ← h.repLoop knob start stop step usec fuel reps go
    return writes ++ more

/-- What `store_ao_RAMP` does with its numbers, if no loop takes more turns than `fuel`. -/
def Hook.ramp (h : Hook) (knob : Knob) (fuel : Nat) (r : Ramp) (go : BitVec 32) :
    Option (List Write) :=
  let stop := if r.stop > knob.aoMax then knob.aoMax else r.stop
  let start := if r.start < knob.aoMin then knob.aoMin else r.start
  h.repLoop knob start stop r.step r.usec fuel r.reps.toNat go

end AoGo

/-! ### Immediate output -/

/-- An output module with values to put out at once. -/
structure AoModule where
  nchanEnabled : Nat
  wordSize : Nat
  physchan : Nat → Nat
  isAo424 : Bool
  ao424Spans : Nat → Nat
  encodedTwocmp : Bool
  ao420Cs3 : Bool
  noAo42xLlcEver : Bool

/-- `AO_immediate`, by its halves. -/
abbrev AoImmediate := Nat → BitVec 16

namespace AoImmediate

def lw (imm : AoImmediate) (i : Nat) : BitVec 32 := imm (2 * i + 1) ++ imm (2 * i)

def setLw (imm : AoImmediate) (i : Nat) (v : BitVec 32) : AoImmediate :=
  Function.update (Function.update imm (2 * i) (v.setWidth 16)) (2 * i + 1)
    ((v >>> 16).setWidth 16)

def setCh (imm : AoImmediate) (i : Nat) (v : BitVec 16) : AoImmediate := Function.update imm i v

end AoImmediate

namespace AoModule

variable (m : AoModule)

def isUnipolar (span : Nat) : Bool := span = 0 || span = 1

/-- `ao424_fixEncoding`. -/
def fixEncoding (pchan : Nat) (value : BitVec 16) : BitVec 16 :=
  if isUnipolar (m.ao424Spans pchan) then value
  else if m.encodedTwocmp then value
  else value ^^^ 0x8000

/-- `ao420_flushImmediate`: the words that go to the FIFO. -/
def flushImmediate (imm : AoImmediate) : List (BitVec 32) :=
  let imax := m.nchanEnabled * m.wordSize / 4
  (List.range imax).map imm.lw

/-- A value goes to a channel. -/
def setValue (imm : AoImmediate) (chan : Nat) (val : Int) : AoImmediate :=
  let pchan := m.physchan chan
  let uval : BitVec 32 := BitVec.ofInt 32 val
  let uval :=
    if m.isAo424 then (m.fixEncoding pchan (uval.setWidth 16)).signExtend 32 else uval
  if m.wordSize = 4 then imm.setLw pchan uval else imm.setCh pchan (uval.setWidth 16)

/-- The loop of `store_dac_no_immediate_all_unique`: `chan` behind it, and the values. -/
def uniqueLoop : Nat → Nat → List Char → AoImmediate → Nat × AoImmediate
  | 0, chan, _, imm => (chan, imm)
  | turns + 1, chan, p, imm =>
    match Sscanf.anyInt p with
    | none => (chan, imm)
    | some (val, rest) =>
      let imm := m.setValue imm chan val
      match rest with
      | [] => (chan + 1, imm)
      | c :: more =>
        if c = ',' then uniqueLoop turns (chan + 1) more imm
        else if c = '\n' then (chan + 1, imm)
        else uniqueLoop turns (chan + 1) (c :: more) imm

def einval : Int := 22

/-- `store_dac_no_immediate_all_unique`: what it returns, the values, and what goes to the FIFO. -/
def storeUnique (imm : AoImmediate) (buf : List Char) :
    Int × AoImmediate × List (BitVec 32) :=
  let (chan, imm) := m.uniqueLoop m.nchanEnabled 1 buf imm
  if chan > 1 then
    (buf.length, imm, if m.noAo42xLlcEver then [] else m.flushImmediate imm)
  else (-einval, imm, [])

/-- `"0x%0*x %d\n"`, of a number of 32 bits and of one that is shown with its sign or without. -/
def showText (width : Nat) (x : BitVec 32) (n : Int) : List Char :=
  "0x".toList ++ (Nat.toDigits 16 x.toNat).leftpad width '0' ++
    ' ' :: (Sscanf.decimalText n ++ ['\n'])

def showDacImmediate (imm : AoImmediate) (chan : Nat) : List Char :=
  let pchan := m.physchan chan
  if m.wordSize = 4 then
    let chx : BitVec 16 := (imm.lw pchan).setWidth 16
    showText 8 (chx.signExtend 32) chx.toInt
  else
    let chx := imm pchan
    let chx := if m.isAo424 then m.fixEncoding pchan chx else chx
    if m.ao420Cs3 then showText 4 (chx.setWidth 32) chx.toNat
    else showText 4 (chx.signExtend 32) chx.toInt

end AoModule

end Acq400
