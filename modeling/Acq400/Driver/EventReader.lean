/-
The reader of threshold events: `regfs_open` and `regfs_event_open` (`regfs_drv.c`), and
`regfs_event_read` (`dsp_atd_9802_core.c`).

Interrupts come between any two turns of the reader, of which each looks at one shared
field or sets one.  The fields that make up a line are read in any order, as arguments are.
The device has no other client, the buffer of the caller takes a whole line, and the
buffer indexes of a line, which come from another driver, are left out.
-/
import Acq400.Driver.Atd9802

namespace Acq400

/-- What an interrupt records: the status of the first site, and the counts. -/
structure AtdEvent where
  status : BitVec 32
  sampleCount : BitVec 32
  latchCount : BitVec 32
deriving DecidableEq, Repr

/-- What is recorded, in the device. -/
def Atd9802.event (adev : Atd9802) : AtdEvent :=
  { status := adev.status 0, sampleCount := adev.sampleCount, latchCount := adev.latchCount }

/-- What is read of an event for a line. -/
inductive EventField
  | status
  | sampleCount
  | latchCount
  /-- For the difference of the counts. -/
  | diffSampleCount
  | diffLatchCount
deriving DecidableEq, Repr

def AtdEvent.field (ev : AtdEvent) : EventField → BitVec 32
  | .status => ev.status
  | .sampleCount => ev.sampleCount
  | .latchCount => ev.latchCount
  | .diffSampleCount => ev.sampleCount
  | .diffLatchCount => ev.latchCount

/-- A line. -/
structure EventLine where
  intCount : BitVec 32
  status : BitVec 32
  sampleCount : BitVec 32
  latchCount : BitVec 32
  diff : BitVec 32
  deltaInts : BitVec 32
deriving DecidableEq, Repr

/-- What a line reports. -/
def EventLine.event (line : EventLine) : AtdEvent :=
  { status := line.status, sampleCount := line.sampleCount, latchCount := line.latchCount }

/-- The fields that have been read. -/
abbrev EventArgs := EventField → Option (BitVec 32)

/-- `snprintf`, once all fields have been read. -/
def EventArgs.line (args : EventArgs) (intCount deltaInts : BitVec 32) : Option EventLine := do
  let status ← args .status
  let sampleCount ← args .sampleCount
  let latchCount ← args .latchCount
  let diffSampleCount ← args .diffSampleCount
  let diffLatchCount ← args .diffLatchCount
  return {
    intCount := intCount
    status := status
    sampleCount := sampleCount
    latchCount := latchCount
    diff := diffSampleCount - diffLatchCount
    deltaInts := deltaInts }

/-- Where the reader is. -/
inductive EventPc
  | closed
  | opening
  | idle
  | wait
  | delta
  | update (deltaInts : BitVec 32)
  | format (deltaInts : BitVec 32) (args : EventArgs)
  /-- The line has been copied, and `client_ready` is to be set. -/
  | copied (line : EventLine)

/-- A turn. -/
inductive EventTurn
  | irq (irq : AtdIrq)
  | go
  | read (field : EventField)
  | signal
  | fault

/-- The device and its reader. -/
structure EventReader where
  adev : Atd9802
  intCount : BitVec 32
  pc : EventPc
  lines : List EventLine
  /-- What each interrupt has recorded. -/
  log : List (Option AtdEvent)
  /-- The number of interrupts up to the open, and `int_count` as it was opened with. -/
  opened : Nat
  openInts : BitVec 32

namespace EventReader

variable (g : GroupTrigger) (s : EventReader)

/-- No client. -/
def init (adev : Atd9802) : EventReader :=
  { adev := { adev with clientReady := false }
    intCount := 0
    pc := .closed
    lines := []
    log := []
    opened := 0
    openInts := 0 }

/-- An interrupt. -/
def interrupt (irq : AtdIrq) : EventReader :=
  let (adev, _) := s.adev.isr g irq
  { s with
    adev := adev
    log := s.log ++ [if s.adev.clientReady then some adev.event else none] }

/-- The next turn of the reader. -/
def go : Option EventReader :=
  match s.pc with
  | .closed =>
    some { s with intCount := s.adev.ints, openInts := s.adev.ints, pc := .opening }
  | .opening =>
    some { s with adev := { s.adev with clientReady := true }, opened := s.log.length, pc := .idle }
  | .idle => some { s with pc := .wait }
  | .wait => some { s with pc := if s.adev.ints ≠ s.intCount then .delta else .wait }
  | .delta => some { s with pc := .update (s.adev.ints - s.intCount) }
  | .update deltaInts =>
    some { s with intCount := s.adev.ints, pc := .format deltaInts fun _ => none }
  | .format deltaInts args =>
    (args.line s.intCount deltaInts).map fun line => { s with pc := .copied line }
  | .copied line =>
    some { s with
      adev := { s.adev with clientReady := true }
      lines := s.lines ++ [line]
      pc := .idle }

/-- One turn. -/
def step : EventTurn → Option EventReader
  | .irq irq => some (s.interrupt g irq)
  | .go => s.go
  | .read field =>
    match s.pc with
    | .format deltaInts args =>
      if (args field).isSome then none
      else
        some { s with
          pc := .format deltaInts (Function.update args field (some (s.adev.event.field field))) }
    | _ => none
  | .signal =>
    match s.pc with
    | .wait => some { s with pc := .idle }
    | _ => none
  | .fault =>
    match s.pc with
    | .format deltaInts args =>
      (args.line s.intCount deltaInts).map fun _ => { s with pc := .idle }
    | _ => none

end EventReader

end Acq400
