/-
The analog threshold detector (`dsp_atd_9802_core.c`): `dsp_atd_9802_isr`, and
`is_group_trigger`, by which it decides on a soft trigger.

An interrupt comes with what the handler reads from the hardware.  The registers that it
writes and the timers that it starts are left out.
-/
import Acq400.Lib.Run
import Acq400.Lib.WordBits

namespace Acq400

def atdTrgMaxreg : Nat := 6

def groupFirstNTriggersAll : Nat := 0

inductive GsMode
  | gsNow
  | gsHistoric
deriving DecidableEq, Repr

/-- What a site's word makes of its group latch. -/
def GsMode.latch : GsMode → BitVec 32 → BitVec 32 → BitVec 32
  | .gsNow, _, siteState => siteState
  | .gsHistoric, groupStatusLatch, siteState => groupStatusLatch ||| siteState

/-- The settings of the group trigger. -/
structure GroupTrigger where
  activeSites : Nat
  groupTriggerMask : Nat → BitVec 32
  groupFirstNTriggers : Nat
  gsmode : GsMode

/-- What an interrupt reads. -/
structure AtdIrq where
  /-- `ATD_TRG_SITE_ID`: bit `ix` is set if the site signals. -/
  siteId : BitVec 32
  /-- `ATD_TRG_LATCH(ix + 1)`. -/
  siteState : Nat → BitVec 32
  /-- `acq400_agg_sample_count()` and `acq400_adc_latch_count()`. -/
  aggSampleCount : BitVec 32
  adcLatchCount : BitVec 32

/-- `struct ATD_9802_DEV`, with the `ints` and the `client_ready` of its `REGFS_DEV`. -/
structure Atd9802 where
  ints : BitVec 32
  clientReady : Bool
  status : Nat → BitVec 32
  statusLatch : Nat → BitVec 32
  groupStatusLatch : Nat → BitVec 32
  sampleCount : BitVec 32
  latchCount : BitVec 32

def countSetBits (xx : BitVec 32) : Nat := WordBits.countFrom 32 xx 0

namespace GroupTrigger

variable (g : GroupTrigger)

/-- The loop of `is_group_trigger` over the sites that are left: `is_active` and `set_bits`. -/
def groupLoop (groupStatusLatch : Nat → BitVec 32) : List Nat → Bool → Nat → Bool × Nat
  | [], isActive, setBits => (isActive, setBits)
  | ii :: sites, isActive, setBits =>
    let groupTriggerMask := g.groupTriggerMask ii
    if groupTriggerMask ≠ 0 then
      let active := groupStatusLatch ii &&& groupTriggerMask
      if g.groupFirstNTriggers = groupFirstNTriggersAll then
        if active = groupTriggerMask then groupLoop groupStatusLatch sites true setBits
        else (false, setBits)
      else groupLoop groupStatusLatch sites isActive (setBits + countSetBits active)
    else groupLoop groupStatusLatch sites isActive setBits

def isGroupTrigger (groupStatusLatch : Nat → BitVec 32) : Bool :=
  let (isActive, setBits) := g.groupLoop groupStatusLatch (List.range g.activeSites) false 0
  isActive || (setBits ≠ 0 && g.groupFirstNTriggers ≤ setBits)

end GroupTrigger

namespace Atd9802

variable (g : GroupTrigger) (adev : Atd9802)

/-- The latches of a site that signals. -/
def latchSite (gsmode : GsMode) (ix : Nat) (siteState : BitVec 32) : Atd9802 :=
  { adev with
    statusLatch := Function.update adev.statusLatch ix (adev.statusLatch ix ||| siteState)
    groupStatusLatch :=
      Function.update adev.groupStatusLatch ix (gsmode.latch (adev.groupStatusLatch ix) siteState) }

/-- The loop of the handler over the sites from `ix` on, of which there are `n`: the device and
`all_stat`. -/
def siteLoop (gsmode : GsMode) (siteState : Nat → BitVec 32) :
    Nat → Nat → BitVec 32 → Atd9802 → (Nat → BitVec 32) → Atd9802 × (Nat → BitVec 32)
  | 0, _, _, adev, allStat => (adev, allStat)
  | n + 1, ix, irqStat, adev, allStat =>
    if irqStat = 0 then (adev, allStat)
    else if irqStat &&& 1 ≠ 0 then
      siteLoop gsmode siteState n (ix + 1) (irqStat >>> 1)
        (adev.latchSite gsmode ix (siteState ix))
        (Function.update allStat ix (siteState ix))
    else siteLoop gsmode siteState n (ix + 1) (irqStat >>> 1) adev allStat

/-- The loop of the handler after a soft trigger. -/
def clearLoop : Nat → (Nat → BitVec 32) → (Nat → BitVec 32)
  | 0, groupStatusLatch => groupStatusLatch
  | n + 1, groupStatusLatch => clearLoop n (Function.update groupStatusLatch 0 0)

/-- What is recorded for a client that is ready. -/
def record (irq : AtdIrq) (allStat : Nat → BitVec 32) : Atd9802 :=
  { adev with clientReady := false, status := allStat, latchCount := irq.adcLatchCount }

/-- The handler, up to `is_group_trigger`. -/
def isrRecord (gsmode : GsMode) (irq : AtdIrq) : Atd9802 :=
  let ready := adev.clientReady
  let adev := if ready then { adev with sampleCount := irq.aggSampleCount } else adev
  let (adev, allStat) := siteLoop gsmode irq.siteState atdTrgMaxreg 0 irq.siteId adev fun _ => 0
  let adev := { adev with ints := adev.ints + 1 }
  if ready then adev.record irq allStat else adev

/-- `dsp_atd_9802_isr`, and whether it calls `acq400_soft_trigger(1)`. -/
def isr (irq : AtdIrq) : Atd9802 × Bool :=
  let adev := adev.isrRecord g.gsmode irq
  if g.isGroupTrigger adev.groupStatusLatch then
    ({ adev with groupStatusLatch := clearLoop g.activeSites adev.groupStatusLatch }, true)
  else (adev, false)

end Atd9802

/-! ### Interrupt after interrupt -/

/-- The device, and the interrupts since the last soft trigger. -/
structure GroupRun where
  adev : Atd9802
  since : List AtdIrq

namespace GroupRun

/-- No site has a bit latched. -/
def init (adev : Atd9802) : GroupRun :=
  { adev := { adev with groupStatusLatch := fun _ => 0 }, since := [] }

/-- One interrupt. -/
def step (g : GroupTrigger) (s : GroupRun) (irq : AtdIrq) : Option GroupRun :=
  let (adev, softTrigger) := s.adev.isr g irq
  some { adev := adev, since := if softTrigger then [] else s.since ++ [irq] }

end GroupRun

end Acq400
