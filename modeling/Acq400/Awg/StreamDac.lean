/-
Streaming to the DAC: `streamdac_data_loop` (`xo_workers.c`), the application that
writes to it and reads from it (`acq400_ui.c`), and the two rings of buffer numbers
between them.

The worker and the application go on in turns of any order.  A turn is one operation
on a ring, or what decides whether there is to be one.  The application reads in one
thread and writes in another, each two numbers at a time, and writes numbers that it
has read and has not written since.

The event of a turn is what the worker finds when it looks: nothing, that it is to
stop, that a wait came to its end or was interrupted, or that the DAC ran out of data.
-/
import Acq400.Awg.XoDataLoop
import Acq400.Driver.Rings

namespace Acq400

def awgBacklog : Nat := 32

/-! ### `streamdac_data_loop` -/

def maxStallRetries : Nat := 20

inductive LastPush
  | idle | request | done
deriving DecidableEq, Repr

/-- Where the worker is. -/
inductive LoopPc
  | start
  | first | second
  | wait
  | stall
  | put
  | refill
  | push
  /-- It is at `quit:`. -/
  | quit
  | ended
deriving DecidableEq, Repr

/-- What the worker finds. -/
inductive LoopEv
  | go | stop | timeout | underrun
deriving DecidableEq, Repr

/-- The worker, the two rings and the application. -/
structure StreamDac where
  refills : Bq
  empties : Bq
  pc : LoopPc
  ic : Chan
  running : Bool
  lastPush : LastPush
  stallCount : Nat
  /-- `ab[]`, by `ic`. -/
  ab : Chan → Nat
  hbm : Nat
  pushes : List (Chan × Nat × DmaFlags)
  /-- One of the rings has given a warning. -/
  warned : Bool
  /-- How many numbers a read is still to get, and a write to put. -/
  reader : Nat
  writer : Nat
  /-- What the application has read and not written since. -/
  held : List Nat
  /-- All that it has read, and all that it has written, in order. -/
  readIds : List Nat
  written : List Nat
  returned : List Nat

/-- A turn. -/
inductive DacAct
  | readWait
  | read
  | writeWait
  | write (id : Nat)
  | loop (ev : LoopEv)
deriving DecidableEq, Repr

namespace StreamDac

variable (s : StreamDac)

/-- `BQ_put(empties, id)`. -/
def putEmpties (id : Nat) : StreamDac :=
  { s with warned := s.warned || s.empties.full, empties := s.empties.put id }

/-- `BQ_get(empties)`. -/
def getEmpties : Nat × StreamDac :=
  (s.empties.get.1, { s with
    warned := s.warned || s.empties.empty
    empties := s.empties.get.2 })

/-- `BQ_put(refills, id)`. -/
def putRefills (id : Nat) : StreamDac :=
  { s with warned := s.warned || s.refills.full, refills := s.refills.put id }

/-- `ab[chan] = BQ_get(refills)`, and `hbm` is that buffer. -/
def getRefills (chan : Chan) : StreamDac :=
  let id := s.refills.get.1
  { s with
    warned := s.warned || s.refills.empty
    refills := s.refills.get.2
    ab := Function.update s.ab chan id
    hbm := id }

/-- `DMA_ASYNC_PUSH`. -/
def dmaPush (chan : Chan) (ix : Nat) (flags : Chan → DmaFlags) : StreamDac :=
  { s with pushes := s.pushes ++ [(chan, ix, flags chan)] }

/-- `acq400_streamdac_open`: the numbers from `first` on, for as long as there is room. -/
def openWith (first last : Nat) (refills : Bq) : StreamDac :=
  let limit := min last (first + awgBacklog - 1)
  let closed : StreamDac :=
    { refills := refills.clear
      empties := Bq.init awgBacklog
      pc := .start
      ic := false
      running := false
      lastPush := .idle
      stallCount := 0
      ab := fun _ => 0
      hbm := 0
      pushes := []
      warned := false
      reader := 0
      writer := 0
      held := []
      readIds := []
      written := []
      returned := [] }
  (List.range' first (limit - first)).foldl putEmpties closed

/-- A turn of the worker; it sleeps where it waits for buffers that are not there. -/
def loopStep (ev : LoopEv) : Option StreamDac :=
  match s.pc with
  | .start =>
    if ev = .stop ∨ ev = .timeout then some { s with pc := .quit }
    else if s.refills.count > 1 then some { s with pc := .first }
    else none
  | .first => some { s.getRefills false with pc := .second }
  | .second =>
    let s := s.getRefills true
    let s := (s.dmaPush true (s.ab true) xflags).dmaPush false (s.ab false) sflags
    some { s with running := true, pc := .wait }
  | .wait =>
    if ev = .timeout then some { s with pc := .quit } else some { s with pc := .stall }
  | .stall =>
    if s.refills.count < 1 then
      if s.stallCount + 1 = maxStallRetries ∨ ev = .stop then
        some { s with lastPush := .request, stallCount := 0, pc := .put }
      else some { s with stallCount := s.stallCount + 1 }
    else some { s with stallCount := 0, pc := .put }
  | .put =>
    let id := s.ab s.ic
    some { s.putEmpties id with returned := s.returned ++ [id], pc := .refill }
  | .refill =>
    if s.lastPush = .idle then some { s.getRefills s.ic with pc := .push }
    else some { s with pc := .push }
  | .push =>
    if s.lastPush = .request ∨ ev = .stop ∨ ev = .underrun then
      some { s.dmaPush s.ic s.hbm wflags with lastPush := .done, ic := !s.ic, pc := .quit }
    else some { s.dmaPush s.ic s.hbm xflags with ic := !s.ic, pc := .wait }
  | .quit => some { s with refills := s.refills.clear, pc := .ended }
  | .ended => none

/-- `acq400_streamdac_read` waits. -/
def readBlocks : Prop := ¬s.empties.count ≥ 2

/-- One turn. -/
def step : DacAct → Option StreamDac
  -- `acq400_streamdac_read`
  | .readWait =>
    if s.reader = 0 ∧ s.empties.count ≥ 2 then some { s with reader := 2 } else none
  | .read =>
    if 0 < s.reader then
      let (id, s) := s.getEmpties
      some { s with
        held := s.held ++ [id]
        readIds := s.readIds ++ [id]
        reader := s.reader - 1 }
    else none
  -- `acq400_streamdac_write`
  | .writeWait =>
    if s.writer = 0 ∧ s.refills.space > 2 then some { s with writer := 2 } else none
  | .write id =>
    if 0 < s.writer ∧ id ∈ s.held then
      let s := s.putRefills id
      some { s with
        held := s.held.erase id
        written := s.written ++ [id]
        writer := s.writer - 1 }
    else none
  | .loop ev => s.loopStep ev

end StreamDac

end Acq400
