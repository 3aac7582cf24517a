/-
The reader of the full buffers, by its atomic sections.

`getFull` and `getEmptyFromRefills` look whether REFILLS is empty without
`list_mutex`, and take its first entry under it.  Here the look and the taking are
steps of their own, so that the other party can come in between.  The reader is one
thread in `getFull`, or outside it; the capture thread is anywhere in its loop, and
between two of its operations except where `getEmptyFromRefills` has looked and not
yet taken.

`list_first_entry` of an empty list is not a buffer but the list head read as one,
and moving it destroys the lists.  A step that takes it sets `fault`, and nothing is
said of the device after that.
-/
import Acq400.Driver.Lists
import Acq400.Lib.Run

namespace Acq400

/-- Where the reader is in `getFull`. -/
inductive ReaderPc
  | out
  /-- `if (list_empty(&adev->REFILLS))`. -/
  | test (wait : Bool)
  /-- The condition of `wait_event_interruptible`, its three tests in their order. -/
  | waitRefills
  | waitError
  | waitStop
  /-- `else if (adev->rt.please_stop)`. -/
  | stopTest
  /-- `else if (adev->rt.refill_error)`. -/
  | errorTest
  | take
deriving DecidableEq, Repr

/-- Where the capture thread is. -/
inductive CapturePc
  | out
  | takeRefills
deriving DecidableEq, Repr

/-- The two threads. -/
structure Reader where
  dev : Dev
  reader : ReaderPc
  capture : CapturePc
  returned : List Dev.GetFull
  fault : Bool

def Reader.start (adev : Dev) : Reader :=
  { dev := adev, reader := .out, capture := .out, returned := [], fault := false }

/-- The atomic sections of the capture thread. -/
inductive CaptureOp
  | getEmpty
  | putFull
  | testRefills
  | takeRefills
  | moveRefillsToEmpty
  | refillError
deriving DecidableEq, Repr

inductive ReaderAct
  | call (wait : Bool)
  /-- One step of `getFull`; `signalled` is whether a signal is pending. -/
  | read (signalled : Bool)
  | putEmpty
  | capture (op : CaptureOp)
  /-- `adev->rt.please_stop = 1` by a third party. -/
  | stop
deriving DecidableEq, Repr

namespace Reader

/-- `getFull` returns. -/
def ret (s : Reader) (rc : Dev.GetFull) : Reader :=
  { s with reader := .out, returned := s.returned ++ [rc] }

/-- One step of `getFull`. -/
def getFull (s : Reader) (signalled : Bool) : Option Reader :=
  match s.reader with
  | .out => none
  | .test wait =>
    if (s.dev.lists .refills).isEmpty then
      if wait then some { s with reader := .waitRefills } else some (s.ret .eintr)
    else some { s with reader := .take }
  | .waitRefills =>
    if (s.dev.lists .refills).isEmpty then some { s with reader := .waitError }
    else some { s with reader := .stopTest }
  | .waitError =>
    if s.dev.rt.refillError then some { s with reader := .stopTest }
    else some { s with reader := .waitStop }
  | .waitStop =>
    if s.dev.rt.pleaseStop then some { s with reader := .stopTest }
    else if signalled then some (s.ret .eintr)
    else some { s with reader := .waitRefills }
  | .stopTest =>
    if s.dev.rt.pleaseStop then some (s.ret .done) else some { s with reader := .errorTest }
  | .errorTest =>
    if s.dev.rt.refillError then some (s.ret .refillErr) else some { s with reader := .take }
  | .take =>
    match s.dev.takeFull with
    | some (hbm, dev) => some ({ s with dev := dev }.ret (.ok hbm))
    | none => some { s with fault := true }

/-- One section of the capture thread. -/
def captureSection (s : Reader) : CaptureOp → Option Reader
  | .getEmpty =>
    if s.capture = .out then some { s with dev := s.dev.getEmpty.2 } else none
  | .putFull =>
    if s.capture = .out then some { s with dev := s.dev.putFull.2 } else none
  | .testRefills =>
    if s.capture = .out then
      some { s with
        capture := if (s.dev.lists .refills).isEmpty then .out else .takeRefills }
    else none
  | .takeRefills =>
    if s.capture = .takeRefills then
      match s.dev.getEmptyFromRefills with
      | (some _, dev) => some { s with dev := dev, capture := .out }
      | (none, _) => some { s with fault := true }
    else none
  | .moveRefillsToEmpty =>
    if s.capture = .out then some { s with dev := s.dev.moveListToEmpty .refills } else none
  | .refillError =>
    if s.capture = .out then
      some { s with dev := { s.dev with rt := { s.dev.rt with refillError := true } } }
    else none

end Reader

/-- One step of one of the threads; none is possible after a fault. -/
def readerStep (s : Reader) (act : ReaderAct) : Option Reader :=
  if s.fault then none
  else
    match act with
    | .call wait => if s.reader = .out then some { s with reader := .test wait } else none
    | .read signalled => s.getFull signalled
    | .putEmpty =>
      if s.reader = .out then s.dev.putEmpty.map fun dev => { s with dev := dev } else none
    | .capture op => s.captureSection op
    | .stop => some { s with dev := { s.dev with rt := { s.dev.rt with pleaseStop := true } } }

/-! ### `acq400_continuous_read` -/

namespace Dev

/-- `while (backlog-- > OPEN_BACKLOG)`, for `n` turns. -/
def dropBacklog (adev : Dev) : Nat → Option Dev
  | 0 => some adev
  | n + 1 =>
    adev.putEmpty.bind fun adev =>
      dropBacklog
        { adev with rt := { adev.rt with buffersDropped := adev.rt.buffersDropped + 1 } } n

/-- `acq400_continuous_read` up to the buffer it is going to read, with its return code. -/
def continuousRead (adev : Dev) (signalled : Bool) : Option (Int × Option HbmPtr × Dev) :=
  if adev.rt.pleaseStop then some (-1, none, adev)
  else
    let backlog : Int := (adev.lists .opens).length
    (adev.dropBacklog (backlog - adev.par.openBacklog).toNat).bind fun adev =>
      (adev.getFull true signalled).map fun
        | (.ok hbm, adev) =>
          if (adev.lists .opens).isEmpty then (-1, none, adev) else (0, some hbm, adev)
        | (.done, adev) | (.refillErr, adev) => (-1, none, adev)
        | (.eintr, adev) => (-4, none, adev)

end Dev

end Acq400
