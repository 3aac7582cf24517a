/-
A channel of the DMA controller's driver (`pl330.c`): from a prepared descriptor to its
callback.

The steps are those between which another processor can come.  `pch->lock` is held from the
beginning of `pl330_tasklet` to its callbacks, and within that `pl330->lock` is taken for
each `pl330_submit_req` and for the `pl330_chan_ctrl` at the end, so an interrupt may come
between any two of them.  A callback is made without it, so another call of the tasklet may
come before the callback returns, and before it begins.  The controller's thread is what
`_state` and `_trigger` see of it: it is stopped, or it runs the microcode of one of the two
requests, or it has set its event with `DMASEV` and the `DMAEND` is yet to come.  Where it is
`COMPLETING`, `_start` waits for it to stop.

One channel is followed, and the pool of descriptors is its own.  There is no fault, no
`DMA_TERMINATE_ALL`, no cyclic transfer, and no peripheral in a request, and every descriptor
has a callback.
-/
import Acq400.Driver.Pl330
import Acq400.Lib.Run
import Mathlib.Logic.Function.Basic

namespace Acq400

/-! ### What is asked of the controller -/

/-- A descriptor's `rqcfg`, and its `px`, a `struct pl330_xfer`. -/
structure Pl330Xfer where
  rqcfg : ReqCfg
  srcAddr : Nat
  dstAddr : Nat
  bytes : Nat

/-- What `_init_desc` makes of a descriptor, over zeroes. -/
def Pl330Xfer.init : Pl330Xfer where
  rqcfg :=
    { dstInc := false
      srcInc := false
      nonsecure := false
      privileged := false
      insnaccess := false
      brstLen := 0
      brstSize := 0
      waitEv := 0
      setEv := 0
      startsWfp := 0
      endsFlushp := 0
      dcctl := 0
      scctl := 0
      swap := 0 }
  srcAddr := 0
  dstAddr := 0
  bytes := 0

/-- What the channel's thread has of its DMAC. -/
structure Pl330Dmac where
  pcfg : Pl330Config
  managerNs : Bool
  mcbufsz : Nat
  ev : Nat

/-- `_is_valid`; 4 and 5 are the invalid settings of either enumeration. -/
def _isValid (ccr : Nat) : Bool :=
  let dcctl := BitField.field 25 3 ccr
  let scctl := BitField.field 11 3 ccr
  !(dcctl = 4 ∨ dcctl = 5 ∨ scctl = 4 ∨ scctl = 5)

/-- What `pl330_submit_req` finds in the request itself: its settings are valid, and a dry run
of its microcode goes into half of the buffer. -/
def Pl330Dmac.acceptable (pl330 : Pl330Dmac) (x : Pl330Xfer) : Bool :=
  let rqc := { x.rqcfg with nonsecure := pl330.managerNs }
  _isValid (_prepareCcr rqc) &&
    (_setupReq pl330.pcfg rqc x.srcAddr x.dstAddr x.bytes pl330.ev).any fun code =>
      Mc.sizes code ≤ pl330.mcbufsz / 2

/-! ### The thread of the channel -/

/-- A `struct dma_pl330_desc *`. -/
abbrev DescPtr := Nat

/-- `struct pl330_thread`.  A request that `IS_FREE` is none. -/
structure Pl330Thread where
  req : Fin 2 → Option DescPtr
  lstenq : Fin 2
  reqRunning : Option (Fin 2)

namespace Pl330Thread

/-- For the numbers of the requests. -/
scoped instance : NeZero 2 := ⟨by decide⟩

/-- As `pl330_request_channel` leaves it. -/
def requested : Pl330Thread := { req := fun _ => none, lstenq := 1, reqRunning := none }

def queueFull (thrd : Pl330Thread) : Bool := (thrd.req 0).isSome && (thrd.req 1).isSome

/-- `mark_free`, with the `r` of the request. -/
def markFree (thrd : Pl330Thread) (idx : Fin 2) : Pl330Thread :=
  { thrd with req := Function.update thrd.req idx none, reqRunning := none }

/-- Which request `_trigger` takes. -/
def nextReq (thrd : Pl330Thread) : Option (Fin 2) :=
  let idx := 1 - thrd.lstenq
  if (thrd.req idx).isSome then some idx
  else if (thrd.req thrd.lstenq).isSome then some thrd.lstenq
  else none

/-- What `pl330_submit_req` returns: 0, `-EAGAIN`, or another error. -/
inductive Submitted
  | ok (thrd : Pl330Thread)
  | eagain
  | bad

def pl330SubmitReq (pl330 : Pl330Dmac) (thrd : Pl330Thread) (r : DescPtr) (x : Pl330Xfer) :
    Submitted :=
  if thrd.queueFull then .eagain
  else if pl330.acceptable x then
    let idx := if (thrd.req 0).isNone then 0 else 1
    .ok { thrd with lstenq := idx, req := Function.update thrd.req idx (some r) }
  else .bad

end Pl330Thread

/-! ### The channel -/

inductive DescStatus
  | free | prep | busy | done
deriving DecidableEq, Repr

/-- Where the holder of `pch->lock` is in `pl330_tasklet`. -/
inductive TaskletPc
  /-- In the loop of `fill_queue`, with the descriptors it has not come to. -/
  | fill (rest : List DescPtr)
  /-- In `pl330_chan_ctrl`, before `active = thrd->req_running`, -/
  | ctrl
  /-- and after it. -/
  | start (active : Option (Fin 2))

/-- `struct dma_pl330_chan`, its descriptors, and its thread in software and hardware. -/
structure Pl330Chan where
  descPool : List DescPtr
  /-- How many descriptors there are. -/
  ndesc : Nat
  xfer : DescPtr → Pl330Xfer
  status : DescPtr → DescStatus
  /-- Given to the client and not yet submitted. -/
  prepared : List DescPtr
  submittedList : List DescPtr
  workList : List DescPtr
  completedList : List DescPtr
  thrd : Pl330Thread
  /-- The request that the controller executes, and the transfer in its microcode, -/
  running : Option (Fin 2 × Pl330Xfer)
  /-- and whether it is between `DMASEV` and `DMAEND`. -/
  ending : Bool
  /-- The thread's bit of `ES`. -/
  es : Bool
  reqDone : List DescPtr
  /-- The holder of `pch->lock`. -/
  locked : Option TaskletPc
  /-- How many calls of `pl330_tasklet` wait for `pch->lock`, -/
  entering : Nat
  /-- and how many are in its last loop. -/
  calling : Nat
  /-- The transfers that calls of `pl330_tasklet` have left the lock to call back for. -/
  callbacks : List Pl330Xfer
  /-- `tasklet_schedule(&pch->task)` has been called. -/
  scheduled : Bool
  /-- The transfers in the order of `pl330_tx_submit`, -/
  submitted : List Pl330Xfer
  /-- those that the controller has performed, -/
  performed : List Pl330Xfer
  /-- those whose descriptors have been taken off `completed_list`, -/
  retired : List Pl330Xfer
  /-- and those that have been called back for. -/
  calledBack : List Pl330Xfer

def nrDefaultDesc : Nat := 16

/-- After `pl330_alloc_chan_resources`, over a pool as `pl330_probe` fills it. -/
def Pl330Chan.alloc : Pl330Chan where
  descPool := List.range nrDefaultDesc
  ndesc := nrDefaultDesc
  xfer := fun _ => .init
  status := fun _ => .free
  prepared := []
  submittedList := []
  workList := []
  completedList := []
  thrd := .requested
  running := none
  ending := false
  es := false
  reqDone := []
  locked := none
  entering := 0
  calling := 0
  callbacks := []
  scheduled := false
  submitted := []
  performed := []
  retired := []
  calledBack := []

inductive ChanAct
  /-- `pl330_prep_dma_memcpy`. -/
  | prep (dst src len : Nat) (flags : PrepFlags)
  /-- `pl330_tx_submit`. -/
  | txSubmit (desc : DescPtr)
  /-- `pl330_issue_pending`, up to its call of `pl330_tasklet`. -/
  | issuePending
  /-- The scheduled tasklet gets to run. -/
  | softirq
  /-- A call of `pl330_tasklet` gets the lock and picks up what is done. -/
  | enter
  /-- The next step under the lock. -/
  | locked
  /-- A turn of the last loop of `pl330_tasklet` up to its callback, or its end. -/
  | call
  /-- One of the callbacks. -/
  | callback (i : Nat)
  /-- `pl330_update`, up to its callbacks. -/
  | update
  /-- A turn of the loop over `req_done`, with `dma_pl330_rqcb`. -/
  | rqcb
  /-- The controller has performed the transfer and sets its event, -/
  | sev
  /-- and it comes to the end of the microcode. -/
  | dmaEnd

namespace Pl330Chan

variable (pl330 : Pl330Dmac) (s : Pl330Chan)

/-- `pl330_get_desc`: the descriptor, out of the pool or a new one. -/
def pl330GetDesc : DescPtr × Pl330Chan :=
  match s.descPool with
  | desc :: pool =>
    (desc, { s with descPool := pool, status := Function.update s.status desc .prep })
  | [] =>
    (s.ndesc, { s with
      ndesc := s.ndesc + 1
      status := Function.update s.status s.ndesc .prep })

def prep (dst src len : Nat) (flags : PrepFlags) : Option Pl330Chan :=
  let (desc, t) := s.pl330GetDesc
  (pl330PrepDmaMemcpy pl330.pcfg (t.xfer desc).rqcfg len flags).map fun rqcfg =>
    { t with
      xfer := Function.update t.xfer desc
        { rqcfg := rqcfg, srcAddr := src, dstAddr := dst, bytes := len }
      prepared := t.prepared ++ [desc] }

def pl330TxSubmit (desc : DescPtr) : Pl330Chan :=
  { s with
    prepared := s.prepared.erase desc
    submittedList := s.submittedList ++ [desc]
    submitted := s.submitted ++ [s.xfer desc] }

def pl330IssuePending : Pl330Chan :=
  { s with
    submittedList := []
    workList := s.workList ++ s.submittedList
    entering := s.entering + 1 }

/-- Pick up ripe tomatoes. -/
def pickUp : Pl330Chan :=
  let ripe := fun desc => s.status desc = .done
  let workList := s.workList.filter fun desc => !ripe desc
  { s with
    completedList := s.completedList ++ s.workList.filter fun desc => ripe desc
    workList := workList
    entering := s.entering - 1
    locked := some (.fill workList) }

/-- A turn of the loop of `fill_queue`. -/
def fillQueue : List DescPtr → Pl330Chan
  | [] => { s with locked := some .ctrl }
  | desc :: rest =>
    if s.status desc = .busy then { s with locked := some (.fill rest) }
    else
      match s.thrd.pl330SubmitReq pl330 desc (s.xfer desc) with
      | .ok thrd =>
        { s with
          thrd := thrd
          status := Function.update s.status desc .busy
          locked := some (.fill rest) }
      | .eagain => { s with locked := some .ctrl }
      | .bad =>
        { s with
          status := Function.update s.status desc .done
          scheduled := true
          locked := some (.fill rest) }

/-- The thread is not `STOPPED`. -/
def executing : Bool := s.running.isSome || s.ending

def _trigger : Pl330Chan :=
  if s.executing then s
  else
    match s.thrd.nextReq with
    | none => s
    | some idx =>
      { s with
        thrd := { s.thrd with reqRunning := some idx }
        running := (s.thrd.req idx).map fun r => (idx, s.xfer r) }

/-- The steps under `pch->lock`. -/
def taskletStep : TaskletPc → Pl330Chan
  | .fill rest => s.fillQueue pl330 rest
  | .ctrl => { s with locked := some (.start s.thrd.reqRunning) }
  | .start active =>
    { (if active.isNone then s._trigger else s) with
      locked := none
      calling := s.calling + 1 }

/-- A turn of the last loop of `pl330_tasklet`, to where it leaves the lock. -/
def call : Pl330Chan :=
  match s.completedList with
  | [] => { s with calling := s.calling - 1 }
  | desc :: rest =>
    { s with
      status := Function.update s.status desc .free
      completedList := rest
      descPool := s.descPool ++ [desc]
      calling := s.calling - 1
      callbacks := s.callbacks ++ [s.xfer desc]
      retired := s.retired ++ [s.xfer desc] }

/-- The callback of such a turn, which then goes on. -/
def callback (i : Nat) (x : Pl330Xfer) : Pl330Chan :=
  { s with
    calling := s.calling + 1
    callbacks := s.callbacks.eraseIdx i
    calledBack := s.calledBack ++ [x] }

/-- `pl330_update`, when the thread's event has occurred. -/
def pl330Update : Pl330Chan :=
  let s := { s with es := false }
  match s.thrd.reqRunning with
  | none => s
  | some active =>
    { ({ s with thrd := s.thrd.markFree active } : Pl330Chan)._trigger with
      reqDone := s.reqDone ++ (s.thrd.req active).toList }

/-- `dma_pl330_rqcb`, of the first in `req_done`. -/
def dmaPl330Rqcb (desc : DescPtr) (rest : List DescPtr) : Pl330Chan :=
  { s with
    reqDone := rest
    status := Function.update s.status desc .done
    scheduled := true }

end Pl330Chan

/-- One step of a channel: of its client, its tasklet, its interrupt or the controller. -/
def pl330Step (pl330 : Pl330Dmac) (s : Pl330Chan) : ChanAct → Option Pl330Chan
  | .prep dst src len flags => s.prep pl330 dst src len flags
  | .txSubmit desc =>
    if s.locked.isNone ∧ desc ∈ s.prepared then some (s.pl330TxSubmit desc) else none
  | .issuePending => if s.locked.isNone then some s.pl330IssuePending else none
  | .softirq =>
    if s.scheduled then some { s with scheduled := false, entering := s.entering + 1 } else none
  | .enter => if s.locked.isNone ∧ 0 < s.entering then some s.pickUp else none
  | .locked => s.locked.map (s.taskletStep pl330)
  | .call => if s.locked.isNone ∧ 0 < s.calling then some s.call else none
  | .update => if s.es then some s.pl330Update else none
  | .rqcb =>
    match s.reqDone with
    | [] => none
    | desc :: rest => if s.locked.isNone then some (s.dmaPl330Rqcb desc rest) else none
  | .callback i => (s.callbacks[i]?).map (s.callback i)
  | .sev =>
    s.running.map fun (_, x) =>
      { s with running := none, ending := true, es := true, performed := s.performed ++ [x] }
  | .dmaEnd => if s.ending then some { s with ending := false } else none

end Acq400
