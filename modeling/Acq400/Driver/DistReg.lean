/-
Settings of the distributor as text (`acq400_sysfs.c`): `show_dist_reg` and `store_dist_reg`, at
`DISTRIBUTOR` and with `DIST_MSHIFT`, where they have their only knob.

Registers read back what was written to them.  Devices, sites and their sets are those of
`Driver/AggReg.lean`; what `reset_fifo_set` does to the devices of the set is not looked at.
-/
import Acq400.Driver.AggReg

namespace Acq400

namespace DistReg

open AggReg

def distMshift : Nat := aggregatorMshift

def halfSite : Int := 100

def aggSpadEn : BitVec 32 := 1#32 <<< 17

def aggSpadLenShl : Nat := 4

def distTrashLenMask : BitVec 32 := 0xf

def distCommsMask : BitVec 32 := 0x3#32 <<< 28

def distCommsA : BitVec 32 := 0x1#32 <<< 28

def distCommsB : BitVec 32 := 0x2#32 <<< 28

def distCommsUdp : BitVec 32 := distCommsMask

def distFifoReset : BitVec 32 := 1#32 <<< 1

def distEnablen : BitVec 32 := 1#32 <<< 0

def fromDistCommsFudge (reg : BitVec 32) : Char :=
  if reg &&& distCommsMask = distCommsUdp then 'U'
  else if reg &&& distCommsMask = distCommsA then 'A'
  else if reg &&& distCommsMask = distCommsB then 'B'
  else '9'

def toDistCommsFudge (dc : Char) : BitVec 32 :=
  if dc = '9' ∨ dc = '0' then 0
  else if dc = 'B' ∨ dc = '1' then distCommsB
  else if dc = 'A' ∨ dc = '2' then distCommsA
  else if dc = 'U' ∨ dc = '3' then distCommsUdp
  else 0

/-- What the knob is about. -/
structure Dist where
  /-- `DISTRIBUTOR`. -/
  reg : BitVec 32
  /-- `DIST_TCAN_OVLY`. -/
  ovly : BitVec 32
  /-- `distributor_has_extended_pad`. -/
  hasExtendedPad : Int
  /-- `distributor_set`. -/
  set : List (Option Nat)
deriving DecidableEq, Repr

/-- `check_distributor_has_extended_pad`: what it returns is in `hasExtendedPad` then. -/
def Dist.checkExtendedPad (d : Dist) : Dist :=
  if d.hasExtendedPad = -1 then
    { d with hasExtendedPad := if d.ovly &&& 0xffffff00 = 0 then 1 else 0 }
  else d

/-! ### Showing -/

/-- The pad length that is shown. -/
def Dist.shownPad (d : Dist) : Int :=
  if d.reg &&& aggSpadEn ≠ 0 then
    let pad := ((d.reg >>> aggSpadLenShl) &&& distTrashLenMask).toNat + 1
    let d := d.checkExtendedPad
    if d.hasExtendedPad ≠ 0 ∧ 0x10 ≤ d.ovly then (d.ovly &&& 0xff).toNat + 1 else pad
  else 0

end DistReg

namespace AggReg.Rig

open DistReg

def showDistReg (rig : Rig) (d : Dist) : List Char :=
  let group := rig.modGroup distMshift d.reg [1, 2, 3, 4, 5, 6] []
  let group := if group = [] then "sites=none".toList else group
  let group := group ++ " comms=".toList ++ [fromDistCommsFudge d.reg]
  let group := group ++ " pad=".toList ++ Sscanf.decimalText d.shownPad
  "reg=0x".toList ++ hexText d.reg ++ ' ' :: group ++ " DATA_MOVER_EN=".toList ++
    (if d.reg &&& dataMoverEn ≠ 0 then "on\n" else "off\n").toList

/-! ### Storing -/

/-- The loop over the sites from `cursor` on: whether it came to the end, `regval`, and the set. -/
def walkDistSites (rig : Rig) :
    List Char → BitVec 32 → List (Option Nat) → Bool × BitVec 32 × List (Option Nat)
  | [], regval, set => (true, regval, set)
  | c :: cursor, regval, set =>
    if c = ' ' then (true, regval, set)
    else if c = ',' ∨ c = '\n' then rig.walkDistSites cursor regval set
    else
      let site := rig.getSite (c :: cursor)
      if 0 < site then
        rig.walkDistSites (cursor.dropWhile Char.isDigit)
          (regval ||| aggModEn (site.tmod halfSite) distMshift)
          (addSlot (rig.lookupSite site) set)
      else (false, regval, set)
termination_by cursor => cursor.length
decreasing_by
  · exact Nat.lt_succ_self _
  · exact Nat.lt_succ_of_le (List.dropWhile_sublist _).length_le

end AggReg.Rig

namespace DistReg

/-- A setting that is under way: `regval` and `pass`, and what has been stored so far. -/
structure Edit where
  dist : Dist
  regval : BitVec 32
  pass : Bool
deriving DecidableEq, Repr

/-- What `store_dist_reg` returns and leaves, and what it wrote to `DISTRIBUTOR` in turn. -/
structure DistStored where
  ret : Int
  dist : Dist
  writes : List (BitVec 32)
deriving DecidableEq, Repr

end DistReg

namespace AggReg.Rig

open DistReg

/-- `sites=`; an error is what is left by a text that is refused. -/
def storeDistSites (rig : Rig) (e : Edit) (buf : List Char) : Except Dist Edit :=
  match Words.strstr "sites=".toList buf with
  | none => .ok e
  | some found =>
    let cursor := found.drop "sites=".length
    let regval := e.regval &&& ~~~(aggSitesMask <<< distMshift)
    if "none".toList.isPrefixOf cursor then
      .ok { dist := { e.dist with set := clearAggregatorSet }, regval := regval, pass := true }
    else
      match rig.walkDistSites cursor regval clearAggregatorSet with
      | (true, regval, set) =>
        .ok { dist := { e.dist with set := set }, regval := regval, pass := true }
      | (false, _, set) => .error { e.dist with set := set }

/-- `threshold=`. -/
def storeDistThreshold (rig : Rig) (e : Edit) (buf : List Char) : Except Dist Edit :=
  match Words.strstr thSel buf with
  | none => .ok e
  | some found =>
    match (Sscanf.lit thSel found).bind Sscanf.int with
    | none => .error e.dist
    | some (thbytes, _) =>
      let regval := e.regval &&& ~~~(aggSizeMask <<< aggSizeShl)
      .ok { e with regval := regval ||| (rig.thOf thbytes <<< aggSizeShl), pass := true }

end AggReg.Rig

namespace DistReg

/-- `comms=`. -/
def Edit.storeComms (e : Edit) (buf : List Char) : Except Dist Edit :=
  match Words.strstr "comms".toList buf with
  | none => .ok e
  | some found =>
    match Sscanf.lit "comms=".toList found with
    | some (en :: _) =>
      .ok { e with regval := e.regval &&& ~~~distCommsMask ||| toDistCommsFudge en, pass := true }
    | _ => .error e.dist

/-- The extended pad, for a length that has been scanned. -/
def Dist.extendPad (d : Dist) (padlen : Int) : Dist :=
  let d := d.checkExtendedPad
  if d.hasExtendedPad ≠ 0 then
    { d with ovly := if padlen ≤ 0x10 then 0 else BitVec.ofInt 32 (padlen - 1) }
  else d

/-- `pad=`, for a length that has been scanned. -/
def padReg (regval : BitVec 32) (padlen : Int) : BitVec 32 :=
  let regval := regval &&& (~~~distTrashLenMask <<< aggSpadLenShl)
  if padlen ≠ 0 then
    regval ||| aggSpadEn |||
      ((BitVec.ofInt 32 (padlen - 1) &&& distTrashLenMask) <<< aggSpadLenShl)
  else regval &&& ~~~aggSpadEn

/-- `pad=`. -/
def Edit.storePad (e : Edit) (buf : List Char) : Edit :=
  match Words.strstr "pad".toList buf with
  | none => e
  | some found =>
    match (Sscanf.lit "pad=".toList found).bind Sscanf.int with
    | none => e
    | some (padlen, _) =>
      { dist := e.dist.extendPad padlen, regval := padReg e.regval padlen, pass := true }

/-- `onDistributorEnable`, with what it writes. -/
def Dist.onDistributorEnable (d : Dist) : Dist × List (BitVec 32) :=
  let regval := d.reg &&& ~~~(distEnablen ||| distFifoReset)
  ({ d with reg := regval ||| distEnablen }, [regval ||| distFifoReset, regval ||| distEnablen])

/-- `onDistributorDisable`, with what it writes. -/
def Dist.onDistributorDisable (d : Dist) : Dist × List (BitVec 32) :=
  let regval := d.reg &&& ~~~distEnablen
  ({ d with reg := regval }, [regval])

/-- What comes behind the words, where there was one. -/
def Edit.finish (e : Edit) (enableOn enableOff : Bool) : Dist × List (BitVec 32) :=
  let (dist, writes) :=
    if e.pass then ({ e.dist with reg := e.regval }, [e.regval]) else (e.dist, [])
  let (dist, more) :=
    if enableOn then dist.onDistributorEnable
    else if enableOff then dist.onDistributorDisable
    else (dist, [])
  (dist, writes ++ more)

end DistReg

namespace AggReg.Rig

open DistReg

/-- What `store_dist_reg` does with the words of a text, but for `on` and `off`. -/
def storeDistWords (rig : Rig) (d : Dist) (buf : List Char) : Except Dist Edit := do
  let e ← rig.storeDistSites { dist := d, regval := d.reg, pass := false } buf
  let e ← rig.storeDistThreshold e buf
  let e ← e.storeComms buf
  return e.storePad buf

def storeDistReg (rig : Rig) (d : Dist) (buf : List Char) : DistStored :=
  let enableOn := (Words.strstr "on".toList buf).isSome
  let enableOff := (Words.strstr "off".toList buf).isSome
  match rig.storeDistWords d buf with
  | .error dist => { ret := -1, dist := dist, writes := [] }
  | .ok e =>
    if e.pass ∨ enableOn ∨ enableOff then
      let (dist, writes) := e.finish enableOn enableOff
      { ret := buf.length, dist := dist, writes := writes }
    else
      match Sscanf.hex buf with
      | none => { ret := -1, dist := e.dist, writes := [] }
      | some (regval, _) =>
        { ret := buf.length, dist := { e.dist with reg := BitVec.ofNat 32 regval },
          writes := [BitVec.ofNat 32 regval] }

end AggReg.Rig

end Acq400
