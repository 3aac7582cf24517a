/-
Settings of the aggregator and of the data engines as text (`acq400_sysfs.c`): `show_agg_reg` and
`store_agg_reg`, with the sets of `acq400_set.c`.

A register reads back what was written to it.  A device is known by its place in `acq400_devices`,
and a shift by 32 or more leaves nothing.  What `spad=` sets is not in the register, and what it
comes to is not looked at.
-/
import Acq400.Lib.Sscanf
import Acq400.Lib.Words
import Mathlib.Data.BitVec

namespace Acq400

namespace AggReg

def maxDevices : Nat := 12

def aggregatorMshift : Nat := 18

def dataEngineMshift : Nat := 8

def aggSitesMask : BitVec 32 := 0x3f

def dataMoverEn : BitVec 32 := 0x1

def deSelectAgg : BitVec 32 := 1#32 <<< 14

def aggSizeMask : BitVec 32 := 0xff

def aggSizeShl : Nat := 8

def aggModEn (site : Int) (shift : Nat) : BitVec 32 := 1#32 <<< (site - 1 + shift).toNat

/-- The registers that have a knob. -/
inductive Knob where
  | aggregator
  | dataEngine (e : Fin 4)
deriving DecidableEq, Repr

/-- `AGGREGATOR` and `DATA_ENGINE`. -/
def Knob.offset : Knob → Nat
  | .aggregator => 0x0008
  | .dataEngine e => 0x0010 + e * 4

def Knob.mshift : Knob → Nat
  | .aggregator => aggregatorMshift
  | .dataEngine _ => dataEngineMshift

def dataEngine1 : Nat := 0x0014

/-- The controller and the modules that it has. -/
structure Rig where
  isAcq1001sc : Bool
  isAcq2006sc : Bool
  fpgaRev : Nat
  isAxi : Bool
  goodSites : List Int
  /-- `of_prams.site` of `acq400_devices`. -/
  devices : List (Option Int)

def Rig.aggSizeUnit (rig : Rig) : Nat :=
  if rig.isAcq2006sc ∧ rig.fpgaRev ≤ 8 then 512 else if rig.isAxi then 256 else 128

/-! ### Sets of devices -/

/-- `acq400_get_site`, of a number that has been scanned. -/
def Rig.designated (rig : Rig) (site : Int) : Int :=
  if site ∈ rig.goodSites then if rig.isAcq1001sc ∧ site = 4 then 3 else site else -1

/-- `acq400_get_site`. -/
def Rig.getSite (rig : Rig) (s : List Char) : Int :=
  match Sscanf.int s with
  | none => -1
  | some (site, _) => rig.designated site

/-- `acq400_lookupSite`. -/
def Rig.lookupSite (rig : Rig) (site : Int) : Option Nat :=
  rig.devices.findIdx? fun device => device = some site

/-- The loop of `acq400_add_set`. -/
def addSlot (slave : Option Nat) : List (Option Nat) → List (Option Nat)
  | [] => []
  | slot :: set =>
    if slot = slave then slot :: set
    else if slot = none then slave :: set
    else slot :: addSlot slave set

/-- `acq400_add_aggregator_set`. -/
def Rig.addAggregatorSet (rig : Rig) (set : List (Option Nat)) (site : Int) : List (Option Nat) :=
  addSlot (rig.lookupSite site) set

/-- `acq400_clear_aggregator_set`. -/
def clearAggregatorSet : List (Option Nat) := List.replicate maxDevices none

/-! ### Showing -/

/-- `AGG_SEL`, or `DIST_SEL`. -/
def selText (offset : Nat) : List Char :=
  (if offset = dataEngine1 then "distributor=" else "aggregator=").toList

def thSel : List Char := "threshold=".toList

def Rig.getAggThresholdBytes (rig : Rig) (agg : BitVec 32) : Int :=
  ((agg >>> aggSizeShl) &&& aggSizeMask).toNat * rig.aggSizeUnit

/-- The loop of `show_agg_reg`, over what is left of the sites. -/
def Rig.modGroup (rig : Rig) (mshift : Nat) (regval : BitVec 32) :
    List Nat → List Char → List Char
  | [], group => group
  | site :: sites, group =>
    if regval &&& aggModEn site mshift ≠ 0 then
      let dsite := if rig.isAcq1001sc ∧ site = 3 then 4 else site
      let group := if group = [] then group ++ "sites=".toList else group ++ [',']
      rig.modGroup mshift regval sites (group ++ Sscanf.decimalText dsite)
    else rig.modGroup mshift regval sites group

/-- `%08x`. -/
def hexText (n : BitVec 32) : List Char :=
  [28, 24, 20, 16, 12, 8, 4, 0].map fun shl => Nat.digitChar ((n >>> shl).toNat % 16)

/-- What `show_agg_reg` prints in front of ` spad=`. -/
def Rig.showWords (rig : Rig) (offset mshift : Nat) (regval : BitVec 32) : List Char :=
  let group := rig.modGroup mshift regval [1, 2, 3, 4, 5, 6] []
  let group := if group = [] then "sites=none".toList else group
  let group :=
    if mshift = dataEngineMshift then
      group ++ ' ' :: (selText offset ++
        Sscanf.decimalText (if regval &&& deSelectAgg ≠ 0 then 1 else 0))
    else if mshift = aggregatorMshift then
      group ++ ' ' :: (thSel ++ Sscanf.decimalText (rig.getAggThresholdBytes regval))
    else group
  "reg=0x".toList ++ hexText regval ++ ' ' :: group ++ " DATA_MOVER_EN=".toList ++
    (if regval &&& dataMoverEn ≠ 0 then "on" else "off").toList

/-! ### Storing -/

/-- The register and the aggregator set. -/
structure Agg where
  reg : BitVec 32
  set : List (Option Nat)
deriving DecidableEq, Repr

/-- What `store_agg_reg` returns, and what it leaves. -/
structure AggStored where
  ret : Int
  agg : Agg
deriving DecidableEq, Repr

/-- The loop over the sites from `cursor` on: whether it came to the end, `regval`, and the set. -/
def Rig.walkSites (rig : Rig) (mshift : Nat) :
    List Char → BitVec 32 → List (Option Nat) → Bool × BitVec 32 × List (Option Nat)
  | [], regval, set => (true, regval, set)
  | c :: cursor, regval, set =>
    if c = ' ' then (true, regval, set)
    else if c = ',' ∨ c = '\n' then rig.walkSites mshift cursor regval set
    else
      let site := rig.getSite (c :: cursor)
      if 0 < site then
        rig.walkSites mshift cursor (regval ||| aggModEn site mshift)
          (rig.addAggregatorSet set site)
      else (false, regval, set)

/-- `sites=`; an error is what is left by a text that is refused. -/
def Rig.storeSites (rig : Rig) (mshift : Nat) (agg : Agg) (buf : List Char) :
    Except Agg (Agg × Bool) :=
  match Words.strstr "sites=".toList buf with
  | none => .ok (agg, false)
  | some found =>
    let cursor := found.drop "sites=".length
    let regval := agg.reg &&& ~~~(aggSitesMask <<< mshift)
    if "none".toList.isPrefixOf cursor then .ok (⟨regval, clearAggregatorSet⟩, true)
    else
      match rig.walkSites mshift cursor regval clearAggregatorSet with
      | (true, regval, set) => .ok (⟨regval, set⟩, true)
      | (false, _, set) => .error { agg with set := set }

/-- `aggregator=`, or `distributor=`. -/
def storeSelect (offset : Nat) (agg : Agg) (pass : Bool) (buf : List Char) : Agg × Bool :=
  match Words.strstr (selText offset) buf with
  | none => (agg, pass)
  | some sel =>
    match sel.dropWhile fun c => c ≠ '=' with
    | [] => (agg, pass)
    | _ :: value =>
      match Sscanf.int value with
      | none => (agg, pass)
      | some (includeAgg, _) =>
        if includeAgg ≠ 0 then ({ agg with reg := agg.reg ||| deSelectAgg }, true)
        else ({ agg with reg := agg.reg &&& ~~~deSelectAgg }, true)

/-- The threshold of a number of bytes. -/
def Rig.thOf (rig : Rig) (thbytes : Int) : BitVec 32 :=
  let th := BitVec.ofInt 32 (thbytes.tdiv rig.aggSizeUnit)
  if aggSizeMask < th then aggSizeMask else th

/-- `threshold=`. -/
def Rig.storeThreshold (rig : Rig) (agg : Agg) (pass : Bool) (buf : List Char) :
    Except Agg (Agg × Bool) :=
  match Words.strstr thSel buf with
  | none => .ok (agg, pass)
  | some found =>
    match (Sscanf.lit thSel found).bind Sscanf.int with
    | none => .error agg
    | some (thbytes, _) =>
      let regval := agg.reg &&& ~~~(aggSizeMask <<< aggSizeShl)
      .ok ({ agg with reg := regval ||| (rig.thOf thbytes <<< aggSizeShl) }, true)

/-- `on`, or `off`. -/
def storeMover (agg : Agg) (pass : Bool) (buf : List Char) : Agg × Bool :=
  if (Words.strstr "on".toList buf).isSome then ({ agg with reg := agg.reg ||| dataMoverEn }, true)
  else if (Words.strstr "off".toList buf).isSome then
    ({ agg with reg := agg.reg &&& ~~~dataMoverEn }, true)
  else (agg, pass)

/-- What `store_agg_reg` does with the words of a text. -/
def Rig.storeWords (rig : Rig) (offset mshift : Nat) (agg : Agg) (buf : List Char) :
    Except Agg (Agg × Bool) := do
  let (agg, pass) ← rig.storeSites mshift agg buf
  let (agg, pass) ←
    if mshift = dataEngineMshift then .ok (storeSelect offset agg pass buf)
    else if mshift = aggregatorMshift then rig.storeThreshold agg pass buf
    else .ok (agg, pass)
  return storeMover agg pass buf

def Rig.storeAggReg (rig : Rig) (offset mshift : Nat) (agg : Agg) (buf : List Char) : AggStored :=
  match rig.storeWords offset mshift agg buf with
  | .error agg => { ret := -1, agg := agg }
  | .ok (agg, true) => { ret := buf.length, agg := agg }
  | .ok (agg, false) =>
    match Sscanf.hex buf with
    | none => { ret := -1, agg := agg }
    | some (regval, _) =>
      { ret := buf.length, agg := { agg with reg := BitVec.ofNat 32 regval } }

end AggReg

end Acq400
