/-
Fields and signals of a register as text (`acq400_sysfs_utils.c`): `show_fields`, `store_fields`,
`store_signal`, and what they are made of (`getSHL` is in `acq400_structs.h`).

A text ends with its last character, and the 0 is behind it.  What is read behind the 0, or stored
outside an array, has no value.
-/
import Acq400.Lib.Sscanf
import Mathlib.Data.BitVec

namespace Acq400

/-- The loop of `getSHL`, for `fuel` bits; there is none for a mask of 0. -/
def getSHLFrom : Nat → BitVec 32 → Nat → Nat
  | 0, _, shl => shl
  | fuel + 1, mask, shl => if mask &&& 1 = 0 then getSHLFrom fuel (mask >>> 1) (shl + 1) else shl

def getSHL (mask : BitVec 32) : Nat := getSHLFrom 32 mask 0

/-- The loop of `count_set_bits`, which clears one of at most `fuel` bits a turn. -/
def SysfsUtils.countSetBitsFrom : Nat → BitVec 32 → Nat → Nat
  | 0, _, count => count
  | fuel + 1, n, count =>
    if n ≠ 0 then countSetBitsFrom fuel (n &&& (n - 1)) (count + 1) else count

def SysfsUtils.countSetBits (n : BitVec 32) : Nat := countSetBitsFrom 32 n 0

/-! ### Fields -/

/-- `zb` of a field. -/
def zb (zeroBased : Bool) (field : BitVec 32) : BitVec 32 :=
  if zeroBased ∧ SysfsUtils.countSetBits field > 1 then 1 else 0

/-- The loop of `show_fields`. -/
def showValues (zeroBased : Bool) (regval : BitVec 32) : List (BitVec 32) → List Char
  | [] => []
  | field :: rest =>
    Sscanf.decimalText (((regval &&& field) >>> getSHL field) + zb zeroBased field).toInt ++
      (if rest = [] then '\n' else ',') :: showValues zeroBased regval rest

/-- `show_fields`, of the masks in front of the 0 of `FIELDS`. -/
def showFields (signal : List Char) (fields : List (BitVec 32)) (zeroBased : Bool)
    (regval : BitVec 32) : List Char :=
  signal ++ '=' :: showValues zeroBased regval fields

/-- The loop of `store_fields`: what `regval` comes to, with `cursor` in `buf`. -/
def storeValues (buf : List Char) (zeroBased : Bool) :
    List (BitVec 32) → Nat → BitVec 32 → Option (BitVec 32)
  | [], _, regval => some regval
  | field :: rest, cursor, regval =>
    if buf.length < cursor then none
    else
      match Sscanf.uint (buf.drop cursor) with
      | none => storeValues buf zeroBased rest cursor regval
      | some (xx, left) =>
        let pos := (buf.drop cursor).length - left.length
        let regval := regval &&& ~~~field
        let regval :=
          regval ||| (((BitVec.ofNat 32 xx - zb zeroBased field) <<< getSHL field) &&& field)
        let cursor := cursor + pos
        if buf[cursor]? ≠ some ',' then some regval
        else storeValues buf zeroBased rest (cursor + 1) regval

/-- `store_fields`: what is written to the register. -/
def storeFields (fields : List (BitVec 32)) (zeroBased : Bool) (buf : List Char)
    (regval : BitVec 32) : Option (BitVec 32) :=
  storeValues buf zeroBased fields 0 regval

/-! ### Signals -/

def ctrlSigMask : BitVec 32 := 0xf

def ctrlSigRising : BitVec 32 := 0x8

/-- The arguments of `store_signal` that a signal is made with. -/
structure Signal where
  shl : Nat
  mbit : BitVec 32
  mbitHi : List Char
  mbitLo : List Char
  notWhileBusy : Bool

/-- What `store_signal` returns, and the register behind it. -/
structure SignalStored where
  ret : Int
  reg : BitVec 32
deriving DecidableEq, Repr

namespace Signal

/-- `get_edge_sense`, with 0 for an empty string. -/
def getEdgeSense (edge : List Char) : Bool :=
  if edge.length ≠ 0 then edge.map Char.toLower = "rising".toList else false

def storeSignal3 (sig : Signal) (adcCtrl : BitVec 32) (imode dx : Nat) (rising : Bool) :
    SignalStored :=
  let reg := adcCtrl &&& ~~~sig.mbit
  if imode ≠ 0 then
    if dx > 7 then { ret := -1, reg := adcCtrl }
    else
      let reg := reg &&& ~~~(ctrlSigMask <<< sig.shl)
      let reg := reg |||
        ((BitVec.ofNat 32 dx ||| if rising then ctrlSigRising else 0) <<< sig.shl)
      { ret := 0, reg := reg ||| (BitVec.ofNat 32 imode <<< getSHL sig.mbit) }
  else { ret := 0, reg := reg }

/-- `store_signal3`, and what the first two forms return of it. -/
def storeCount (sig : Signal) (adcCtrl : BitVec 32) (count imode dx : Nat) (rising : Bool) :
    SignalStored :=
  let res := sig.storeSignal3 adcCtrl imode dx rising
  { res with ret := if res.ret ≠ 0 then -1 else count }

/-- `sscanf(buf, "%u,%u,%u", &imode, &dx, &rising) == 3`. -/
def scanNumbers (num : List Char → Option (Nat × List Char)) (buf : List Char) :
    Option (Nat × Nat × Nat) := do
  let (imode, rest) ← num buf
  let rest ← Sscanf.lit [','] rest
  let (dx, rest) ← num rest
  let rest ← Sscanf.lit [','] rest
  let (rising, _) ← num rest
  return (imode, dx, rising)

/-- `sscanf(buf, "%u,d%u,%s", &imode, &dx, edge) == 3`. -/
def scanEdge (num : List Char → Option (Nat × List Char)) (buf : List Char) :
    Option (Nat × Nat × List Char) := do
  let (imode, rest) ← num buf
  let rest ← Sscanf.lit [',', 'd'] rest
  let (dx, rest) ← num rest
  let rest ← Sscanf.lit [','] rest
  let (edge, _) ← Sscanf.word 32767 rest
  return (imode, dx, edge)

/-- What `sscanf(buf, "%10s d%u %c", mode, &dx, &sense)` finds. -/
inductive Scanned where
  | one (mode : List Char)
  | three (mode : List Char) (dx : Nat) (sense : Char)
  | other
deriving DecidableEq, Repr

/-- `sscanf(buf, "%10s d%u %c", mode, &dx, &sense)`. -/
def scanMode (num : List Char → Option (Nat × List Char)) (buf : List Char) : Scanned :=
  match Sscanf.word 10 buf with
  | none => .other
  | some (mode, rest) =>
    match (Sscanf.lit ['d'] (Sscanf.spaces rest)).bind num with
    | none => .one mode
    | some (dx, rest) =>
      match Sscanf.char (Sscanf.spaces rest) with
      | none => .other
      | some (sense, _) => .three mode dx sense

/-- The third form. -/
def storeMode (sig : Signal) (adcCtrl : BitVec 32) (count : Nat) : Scanned → SignalStored
  | .one mode =>
    if mode = sig.mbitLo then sig.storeSignal3 adcCtrl 0 0 false
    else { ret := -1, reg := adcCtrl }
  | .three mode dx sense =>
    if mode = sig.mbitHi then
      let falling := sense ∈ "Ff-Nn".toList
      let rising := sense ∈ "Rr+Pp".toList
      if ¬rising ∧ ¬falling then { ret := -1, reg := adcCtrl }
      else sig.storeCount adcCtrl count 1 dx rising
    else { ret := -1, reg := adcCtrl }
  | .other => { ret := -1, reg := adcCtrl }

/-- The size of `mode`, which is `edge` too. -/
def modeSize : Nat := 16

def ebusy : Int := 16

/-- `store_signal`; `busy` is `adev->booleans.busy`, and `lock` that `TIM_CTRL_LOCK` applies. -/
def storeSignal (sig : Signal) (busy lock : Bool) (adcCtrl : BitVec 32) (buf : List Char) :
    Option SignalStored :=
  if sig.notWhileBusy ∧ busy then some { ret := -ebusy, reg := adcCtrl }
  else if lock then some { ret := -ebusy, reg := adcCtrl }
  else
    match scanNumbers Sscanf.uint buf with
    | some (imode, dx, rising) =>
      some (sig.storeCount adcCtrl buf.length imode dx (decide (rising ≠ 0)))
    | none =>
      match scanEdge Sscanf.uint buf with
      | some (imode, dx, edge) =>
        -- the word and a 0 go to `mode`
        if modeSize ≤ edge.length then none
        else some (sig.storeCount adcCtrl buf.length imode dx (getEdgeSense edge))
      | none => some (sig.storeMode adcCtrl buf.length (scanMode Sscanf.uint buf))

end Signal

end Acq400
