/-
The modes of a DIO432 and its thread (`dio432_drv.c`): `dio432_set_mode` with what it
calls, and `dio32_immediate_loop`.

One caller changes the mode, call after call.  A call and every thread are cut into the
steps between which another one can come: the caller's store of the mode, its
`kthread_run` or `kthread_stop`, and the wait in the latter; the thread's first run, its
test of `kthread_should_stop()`, its write of the FIFO and its end.  A thread is in
`threads` from its creation until it has ended.
-/
import Acq400.Lib.Run
import Mathlib.Logic.Function.Basic

namespace Acq400

inductive Dio432Mode
  | disable
  | immediate
  | clocked
deriving DecidableEq, Repr

/-- Where a thread in `dio32_immediate_loop` is. -/
inductive DioPc
  | created
  /-- `dio432_init(adev, 1)`. -/
  | init
  | test
  /-- `_acq400wr32(adev, DIO432_FIFO, xo_dev->dio432.DO32)` and the read after it. -/
  | write
  /-- `wait_event_interruptible_timeout`. -/
  | wait
  | done
deriving DecidableEq, Repr

structure DioThread where
  pc : DioPc
  /-- `kthread_should_stop()`. -/
  shouldStop : Bool
deriving DecidableEq, Repr

/-- Where the caller of `dio432_set_mode` is. -/
inductive SetModePc
  | out
  /-- `xo_dev->dio432.mode = mode`, after `dio432_disable`. -/
  | store (mode : Dio432Mode)
  /-- `switch(mode)`. -/
  | switch (mode : Dio432Mode)
  /-- In `kthread_stop(w_task)`, which waits for the thread's end. -/
  | stopping (wTask : Nat)
deriving DecidableEq, Repr

structure Dio432 where
  mode : Dio432Mode
  wTask : Option Nat
  taskActive : Bool
  threads : Nat → Option DioThread
  /-- How many threads have been created; each has the next number. -/
  nthreads : Nat
  caller : SetModePc
  /-- The mode at each write of the FIFO. -/
  writes : List Dio432Mode

def Dio432.start : Dio432 where
  mode := .disable
  wTask := none
  taskActive := false
  threads := fun _ => none
  nthreads := 0
  caller := .out
  writes := []

inductive Dio432Act
  | setMode (mode : Dio432Mode) (force alwaysImmediate : Bool)
  | caller
  | thread (i : Nat)
deriving DecidableEq, Repr

namespace Dio432

/-- `dio432_set_mode` up to the store of the mode. -/
def setMode (s : Dio432) (mode : Dio432Mode) (force alwaysImmediate : Bool) : Dio432 :=
  if !force ∧ s.mode = mode then s
  else
    let mode := if mode = .clocked ∧ alwaysImmediate then .immediate else mode
    { s with caller := .store mode }

/-- `dio432_init_immediate`. -/
def initImmediate (s : Dio432) : Dio432 :=
  { s with
    wTask := some s.nthreads
    threads := Function.update s.threads s.nthreads (some { pc := .created, shouldStop := false })
    nthreads := s.nthreads + 1
    caller := .out }

/-- `dio432_init_clocked`, as far as the wait for the thread. -/
def initClocked (s : Dio432) : Dio432 :=
  match s.wTask with
  | some w =>
    if s.taskActive then
      { s with
        threads := Function.update s.threads w
          ((s.threads w).map fun t => { t with shouldStop := true })
        caller := .stopping w }
    else { s with caller := .out }
  | none => { s with caller := .out }

/-- The caller's next step in a call; `none` while it waits in `kthread_stop`. -/
def callerStep (s : Dio432) : Option Dio432 :=
  match s.caller with
  | .out => none
  | .store mode => some { s with mode := mode, caller := .switch mode }
  | .switch .immediate => some s.initImmediate
  | .switch .clocked => some s.initClocked
  | .switch .disable => some { s with caller := .out }
  | .stopping w => if (s.threads w).isNone then some { s with caller := .out } else none

def setThread (s : Dio432) (i : Nat) (t : Option DioThread) : Dio432 :=
  { s with threads := Function.update s.threads i t }

/-- One step of `dio32_immediate_loop` in thread `i`.  A thread that is to stop before it has
run does not enter the loop's function. -/
def immediateLoop (s : Dio432) (i : Nat) (t : DioThread) : Dio432 :=
  match t.pc with
  | .created =>
    if t.shouldStop then s.setThread i none
    else { s.setThread i (some { t with pc := .init }) with taskActive := true }
  | .init => s.setThread i (some { t with pc := .test })
  | .test => s.setThread i (some { t with pc := if t.shouldStop then .done else .write })
  | .write =>
    { s.setThread i (some { t with pc := .wait }) with writes := s.writes ++ [s.mode] }
  | .wait => s.setThread i (some { t with pc := .test })
  | .done => { s.setThread i none with taskActive := false }

end Dio432

/-- One step of the caller or of a thread. -/
def dio432Step (s : Dio432) : Dio432Act → Option Dio432
  | .setMode mode force alwaysImmediate =>
    if s.caller = .out then some (s.setMode mode force alwaysImmediate) else none
  | .caller => s.callerStep
  | .thread i => (s.threads i).map (s.immediateLoop i)

end Acq400
