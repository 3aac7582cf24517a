/-
The capture thread of the PRI devices, `ai_data_loop` of `acq400_drv.c`, step by step.

Two DMA channels fill buffers in turn.  The thread waits for the transfer of one channel,
puts the first buffer of INFLIGHT with `putFull`, takes another and starts the next
transfer of the channel with it; INFLIGHT is all that says which buffer is which
channel's.  When EMPTIES is empty it pulls the oldest full buffer back with
`getEmptyFromRefills`, which looks at REFILLS without `list_mutex` and takes its first
entry under it: two steps here, as in `Driver/Reader.lean`.

One step is what the source does up to its next operation on the lists or on a channel.
-/
import Acq400.Driver.DataLoop
import Mathlib.Algebra.GroupWithZero.Nat

namespace Acq400

/-- A DMA channel; the other one is `ic + 1`. -/
abbrev DmaChan : Type := Fin 2

/-- Where `ai_data_loop` is. -/
inductive AiPc
  | hold0
  | hold1
  | prime1
  | prime0
  | start
  /-- The tests of the two loops: both are `kthread_should_stop()`. -/
  | top
  | wait
  | sync
  | putFull
  | take
  | pullTest
  | pullTake
  | memcpy
  /-- `check_fifo_statuses` and `if (emergency_drain_request)`. -/
  | check
  /-- `move_list_to_empty(adev, &adev->REFILLS)`. -/
  | drain
  | quit
  | exited
  | oops
deriving DecidableEq, Repr

structure AiLoop where
  dev : Dev
  pc : AiPc
  ic : DmaChan
  hbm0 : Option HbmPtr
  hbm1 : Option HbmPtr
  hbm : Option HbmPtr
  emergencyDrainRequest : Bool
  shouldStop : Bool
  dmaCallbackDone : Int
  /-- The targets of a channel's transfers that are not complete, in their order. -/
  pending : DmaChan → List HbmPtr
  /-- The target of the transfer whose cookie is in `dma_cookies`: the last one pushed. -/
  dmaCookies : DmaChan → Option HbmPtr
  /-- A list head was taken for a buffer. -/
  fault : Bool

/-- What the thread finds out for itself. -/
structure AiEnv where
  timeout : Bool
  fifoError : Bool

inductive AiAct
  | thread (env : AiEnv)
  | beside (b : Beside)
  | dmaDone (ic : DmaChan)
  | stop

def AiLoop.start (adev : Dev) (dmaCallbackDone : Int) : AiLoop where
  dev := { adev with onPutEmpty := .nullPutEmpty }
  pc := .hold0
  ic := 0
  hbm0 := none
  hbm1 := none
  hbm := none
  emergencyDrainRequest := false
  shouldStop := false
  dmaCallbackDone := dmaCallbackDone
  pending := fun _ => []
  dmaCookies := fun _ => none
  fault := false

namespace AiLoop

/-- For the numbers of the channels. -/
scoped instance : NeZero 2 := ⟨by decide⟩

/-- `DMA_ASYNC_MEMCPY` and `dma_async_issue_pending`. -/
def dmaAsyncMemcpy (s : AiLoop) (chan : DmaChan) (hbm : HbmPtr) : AiLoop :=
  { s with
    pending := Function.update s.pending chan (s.pending chan ++ [hbm])
    dmaCookies := Function.update s.dmaCookies chan (some hbm) }

def refillError (s : AiLoop) : AiLoop :=
  { s with dev := { s.dev with rt := { s.dev.rt with refillError := true } } }

end AiLoop

/-- One step of `ai_data_loop`; `none` while it sleeps, and once it is over. -/
def aiDataLoop (s : AiLoop) (env : AiEnv) : Option AiLoop :=
  match s.pc with
  | .hold0 =>
    let (hbm0, dev) := s.dev.getEmpty
    some { s with dev := dev, pc := .hold1, hbm0 := hbm0 }
  | .hold1 =>
    let (hbm1, dev) := s.dev.getEmpty
    some { s with dev := dev, pc := .prime1, hbm1 := hbm1 }
  | .prime1 =>
    match s.hbm1 with
    | none => some { s with pc := .oops }
    | some hbm1 => some { s.dmaAsyncMemcpy 1 hbm1 with pc := .prime0 }
  | .prime0 =>
    match s.hbm0 with
    | none => some { s with pc := .oops }
    | some hbm0 => some { s.dmaAsyncMemcpy 0 hbm0 with pc := .start }
  | .start =>
    some { s with
      dev := { s.dev with taskActive := true }, pc := if s.shouldStop then .quit else .top
      ic := 0 }
  | .top => some { s with pc := if s.shouldStop then .quit else .wait }
  | .wait =>
    if 0 < s.dmaCallbackDone ∨ s.shouldStop = true then
      some { s with
        dmaCallbackDone := s.dmaCallbackDone - 1, pc := if s.shouldStop then .quit else .sync }
    else if env.timeout then some { s.refillError with pc := .quit }
    else none
  | .sync =>
    if (s.pending s.ic).isEmpty then some { s with pc := .putFull }
    else if env.timeout then some { s with pc := .quit }
    else none
  | .putFull => some { s with dev := s.dev.putFull.2, pc := .take }
  | .take =>
    let (hbm, dev) := s.dev.getEmpty
    some { s with
      dev := dev, hbm := hbm, emergencyDrainRequest := false
      pc := if hbm.isSome then .memcpy else .pullTest }
  | .pullTest =>
    some { s with pc := if (s.dev.lists .refills).isEmpty then .quit else .pullTake }
  | .pullTake =>
    match s.dev.getEmptyFromRefills with
    | (some hbm, dev) =>
      some { s with
        dev := { dev with statsErrors := dev.statsErrors + 1 }
        hbm := some hbm, emergencyDrainRequest := true, pc := .memcpy }
    | (none, _) => some { s with fault := true }
  | .memcpy =>
    match s.hbm with
    | none => some { s with pc := .oops }
    | some hbm => some { s.dmaAsyncMemcpy s.ic hbm with pc := .check }
  | .check =>
    if env.fifoError then some { s with pc := .quit }
    else if s.emergencyDrainRequest then
      some { s with
        dev := { s.dev with
          rt := { s.dev.rt with
            buffersDropped := s.dev.rt.buffersDropped + (s.dev.lists .refills).length } }
        pc := .drain }
    else some { s with pc := .top, ic := s.ic + 1 }
  | .drain =>
    let s := { s with dev := s.dev.moveListToEmpty .refills }
    if s.dev.par.quitOnBufferExhaustion then some { s.refillError with pc := .quit }
    else some { s with pc := .top, ic := s.ic + 1 }
  | .quit =>
    -- `DMA_TERMINATE_ALL` on both channels
    some { s with
      dev := { s.dev with taskActive := false }, pending := fun _ => [], pc := .exited }
  | .exited | .oops => none

/-- The thread among everything else; nothing is said once a list head was taken. -/
def aiStep (s : AiLoop) (act : AiAct) : Option AiLoop :=
  if s.fault then none
  else
    match act with
    | .thread env => aiDataLoop s env
    | .beside b => (besideStep s.dev b).map fun dev => { s with dev := dev }
    | .dmaDone ic =>
      match s.pending ic with
      | [] => none
      | _ :: rest =>
        some { s with
          pending := Function.update s.pending ic rest
          dmaCallbackDone := s.dmaCallbackDone + 1 }
    | .stop => some { s with shouldStop := true }

end Acq400
