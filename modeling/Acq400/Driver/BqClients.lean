/-
The clients that are told about full buffers: `acq400_bq_notify` (`acq400_drv.c`) and
the descriptors of `ACQ400_MINOR_BQ_NOWAIT` and `ACQ400_MINOR_BQ_FULL` (`acq400_ui.c`).

Every client has a ring of its own.  A notify holds `bq_clients_mutex` and is one step,
and so is the `BQ_get_st` of a read; a read that finds the ring empty tries again.  What a
read does behind its `BQ_get_st` is with the caller and touches no ring, but it can fail
there, and then the id it has taken goes to nobody.
-/
import Acq400.Driver.Rings
import Acq400.Lib.Run

namespace Acq400

/-- A descriptor on `bq_clients`, with the history of its ids: those it has been told of, those
its reads have handed over, and those that reads have taken and not handed over. -/
structure BqClient where
  /-- The `struct acq400_path_descriptor*`. -/
  pdesc : Nat
  bq : Bq
  /-- `BQ_put` has found the ring full. -/
  warned : Bool
  notified : List Nat
  reads : List Nat
  lost : List Nat
  /-- What the last read has returned. -/
  rc : Int

structure BqWrapper where
  bqClients : List BqClient
  bqOverruns : Nat
  bqMax : Nat

/-- `snprintf(lbuf, 32, "%03u\n", bn)`. -/
def bqText (bn : Nat) : List Char := (Nat.toDigits 10 bn).leftpad 3 '0' ++ ['\n']

/-- `POLLIN|POLLRDNORM`. -/
def pollIn : Nat := 0x0041

/-- `acq400_bq_poll`: it looks at the ring, and then, when it is on the wait queue, at what the ring
is by now. -/
def Bq.acq400BqPoll (bq later : Bq) : Nat :=
  if bq.space ≠ 0 then pollIn else if later.space ≠ 0 then pollIn else 0

namespace BqClient

variable (cur : BqClient)

/-- As `acq400_bq_open` leaves it. -/
def opened (pdesc backlog : Nat) : BqClient :=
  { pdesc := pdesc
    bq := Bq.init backlog
    warned := false
    notified := []
    reads := []
    lost := []
    rc := 0 }

/-- `acq400_bq_read` waits. -/
def readBlocks : Prop := cur.bq.count = 0

/-- There is no room, or more in it than there are buffers to be filled. -/
def overruns (th : Int) : Prop := cur.bq.space < 1 ∨ (cur.bq.count : Int) > th

instance (th : Int) : Decidable (cur.overruns th) := inferInstanceAs (Decidable (_ ∨ _))

/-- What `acq400_bq_notify` does to one client. -/
def notify (th : Int) (ix : Nat) : BqClient :=
  let bq := if cur.overruns th then cur.bq.clear else cur.bq
  { cur with
    bq := bq.put ix
    warned := cur.warned || bq.full
    notified := cur.notified ++ [ix] }

/-- `acq400_bq_read` of `count` bytes, from its `BQ_get_st` on; `copy_to_user` leaves `rest` of the
text. -/
def read (count rest : Nat) : BqClient :=
  match cur.bq.getSt with
  | none => cur
  | some (bn, bq) =>
    let bc := (bqText bn).length
    -- the id is off the ring by now
    if bc > count then { cur with bq := bq, lost := cur.lost ++ [bn], rc := -28 }
    else if rest ≠ 0 then { cur with bq := bq, lost := cur.lost ++ [bn], rc := -rest }
    else { cur with bq := bq, reads := cur.reads ++ [bn], rc := bc }

end BqClient

/-- An action of the driver or of a client. -/
inductive BqAct
  /-- `acq400_bq_open`, with a ring of this length. -/
  | bqOpen (pdesc backlog : Nat)
  | bqRelease (pdesc : Nat)
  | bqNotify (ix : Nat)
  /-- `acq400_bq_read`, of this many bytes, of which the copy leaves so many. -/
  | bqRead (pdesc count rest : Nat)
deriving DecidableEq, Repr

namespace BqWrapper

variable (bqw : BqWrapper)

/-- As the device is probed. -/
def init : BqWrapper := { bqClients := [], bqOverruns := 0, bqMax := 0 }

/-- The client with a descriptor. -/
def client (pdesc : Nat) : Option BqClient := bqw.bqClients.find? fun c => c.pdesc = pdesc

/-- The loop of `acq400_bq_notify` over the clients that are left. -/
def notifyClients (th : Int) (ix : Nat) : List BqClient → BqWrapper → BqWrapper
  | [], bqw => bqw
  | cur :: rest, bqw =>
    let nq := cur.bq.count
    notifyClients th ix rest
      { bqClients := bqw.bqClients ++ [cur.notify th ix]
        bqOverruns := if cur.overruns th then bqw.bqOverruns + 1 else bqw.bqOverruns
        bqMax := if nq > bqw.bqMax then nq else bqw.bqMax }

/-- `acq400_bq_notify`. -/
def bqNotify (nbuffers : Int) (ix : Nat) : BqWrapper :=
  notifyClients (nbuffers - 2) ix bqw.bqClients { bqw with bqClients := [] }

/-- `acq400_bq_open`: `bqw_init`. -/
def bqOpen (pdesc backlog : Nat) : Option BqWrapper :=
  match bqw.client pdesc with
  | none =>
    some { bqw with bqClients := bqw.bqClients ++ [.opened pdesc backlog] }
  | some _ => none

/-- `acq400_bq_release`: `bqw_release`. -/
def bqRelease (pdesc : Nat) : BqWrapper :=
  { bqw with bqClients := bqw.bqClients.filter fun c => c.pdesc ≠ pdesc }

/-- `acq400_bq_read`. -/
def bqRead (pdesc count rest : Nat) : Option BqWrapper :=
  match bqw.client pdesc with
  | none => none
  | some _ =>
    some { bqw with
      bqClients := bqw.bqClients.map fun c => if c.pdesc = pdesc then c.read count rest else c }

/-- One action. -/
def step (nbuffers : Int) (bqw : BqWrapper) : BqAct → Option BqWrapper
  | .bqOpen pdesc backlog => bqw.bqOpen pdesc backlog
  | .bqRelease pdesc => some (bqw.bqRelease pdesc)
  | .bqNotify ix => some (bqw.bqNotify nbuffers ix)
  | .bqRead pdesc count rest => bqw.bqRead pdesc count rest

end BqWrapper

end Acq400
