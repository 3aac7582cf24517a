/-
The server of a capture: `acq400_continuous_read` (`acq400_drv.c`) on top of `getFull`, and
the clients that it tells of the buffer it has taken.

A read frees the buffers of the reads before it, all but `OPEN_BACKLOG`, takes the next full
one, marks the pair of the last two for the readers of HB0, tells the clients of the queues
and returns the number of the buffer.  Its steps are those between which the capture thread
or a client can come: each operation under `list_mutex` is one, each word of the HB0 mark,
and the notify, which holds `bq_clients_mutex`.

`getFull` is as in `Driver/Reader.lean`, and once a list head has been taken for a buffer
nothing is said any more.  The copy of the number to the user succeeds, and the marks are not
read here.  `buffers_dropped` counts what the server frees; what the capture thread adds to
it when it throws the full buffers away is left out.
-/
import Acq400.Driver.Reader
import Acq400.Driver.BqClients

namespace Acq400

/-- `BQ_MIN_BACKLOG` and `BQ_MAX_BACKLOG`. -/
def bqMinBacklog : Nat := 2

def bqMaxBacklog : Nat := 512

/-- The minors that open a queue. -/
inductive BqMinor
  | nowait
  | full
deriving DecidableEq, Repr

def BqMinor.backlog : BqMinor → Nat
  | .nowait => bqMinBacklog
  | .full => bqMaxBacklog

/-- The mark for HB0, in the run-time record.  Times are `unsigned long`. -/
structure Hb0Mark where
  hb0Count : UInt32
  /-- `hb0_ix[0]`, the one before. -/
  prev : Int
  /-- `hb0_ix[1]`. -/
  crnt : Int
  hb0Last : UInt32
  hbmM1 : Option HbmPtr

/-- As `_onStart` clears it. -/
def Hb0Mark.cleared : Hb0Mark :=
  { hb0Count := 0
    prev := 0
    crnt := 0
    hb0Last := 0
    hbmM1 := none }

/-- Where `acq400_continuous_read` is. -/
inductive ServerPc
  | out
  /-- `if (adev->rt.please_stop)`. -/
  | stopTest
  /-- `list_depth(&adev->OPENS)`. -/
  | depth
  /-- `while (backlog-- > OPEN_BACKLOG)`. -/
  | drop (backlog : Int)
  | dropped (backlog : Int)
  /-- The call of `getFull`, and inside it. -/
  | call
  | getFull
  | switch (rc : Dev.GetFull)
  /-- `if (list_empty(&adev->OPENS))`. -/
  | opensTest (hbm : HbmPtr)
  /-- `_acq400_continuous_read_update_hb0`, its test and its assignments. -/
  | hb0Test (hbm : HbmPtr)
  | hb0Count (now : UInt32) (hbmM1 hbm : HbmPtr)
  | hb0Prev (now : UInt32) (hbmM1 hbm : HbmPtr)
  | hb0Crnt (now : UInt32) (hbm : HbmPtr)
  | hb0Last (now : UInt32) (hbm : HbmPtr)
  | hbmM1 (hbm : HbmPtr)
  /-- `acq400_bq_notify`. -/
  | notify (hbm : HbmPtr)
  | copy (hbm : HbmPtr)
deriving DecidableEq, Repr

/-- What a read returns: the number of a buffer as text, or a return code. -/
inductive ServerReply
  | ix (ix : Int)
  | rc (rc : Int)
deriving DecidableEq, Repr

structure CaptureServer where
  rd : Reader
  pc : ServerPc
  hb0 : Hb0Mark
  bqw : BqWrapper
  replies : List ServerReply

/-- What the server finds out for itself: whether a signal is pending, and the time. -/
structure ServerEnv where
  signalled : Bool
  now : UInt32

inductive ServerAct
  /-- The user reads. -/
  | read
  /-- One step of the read. -/
  | serve (env : ServerEnv)
  | capture (op : CaptureOp)
  | bqOpen (pdesc : Nat) (minor : BqMinor)
  | bqRelease (pdesc : Nat)
  | bqRead (pdesc count rest : Nat)
  /-- `adev->rt.please_stop = 1` by a third party. -/
  | stop

namespace CaptureServer

/-- No read, no client and no mark yet. -/
def start (adev : Dev) : CaptureServer :=
  { rd := Reader.start adev
    pc := .out
    hb0 := .cleared
    bqw := .init
    replies := [] }

variable (s : CaptureServer)

def ret (reply : ServerReply) : CaptureServer :=
  { s with pc := .out, replies := s.replies ++ [reply] }

/-- `(now + hb0_no_ratelimit) > adev->rt.hb0_last`. -/
def hb0Due (hb0NoRatelimit : Int32) (now : UInt32) : Bool :=
  s.hb0.hb0Last < now + hb0NoRatelimit.toUInt32

/-- `adev->rt.buffers_dropped += 1`. -/
def buffersDropped : CaptureServer :=
  { s with
    rd := { s.rd with
      dev := { s.rd.dev with
        rt := { s.rd.dev.rt with buffersDropped := s.rd.dev.rt.buffersDropped + 1 } } } }

/-- One step of `acq400_continuous_read`. -/
def serve (nbuffers : Int) (hb0NoRatelimit : Int32) (env : ServerEnv) : Option CaptureServer :=
  match s.pc with
  | .out => none
  | .stopTest =>
    if s.rd.dev.rt.pleaseStop then some (s.ret (.rc (-1))) else some { s with pc := .depth }
  | .depth => some { s with pc := .drop (s.rd.dev.lists .opens).length }
  | .drop backlog =>
    if backlog > s.rd.dev.par.openBacklog then
      (readerStep s.rd .putEmpty).map fun rd => { s with rd := rd, pc := .dropped backlog }
    else some { s with pc := .call }
  | .dropped backlog => some { s.buffersDropped with pc := .drop (backlog - 1) }
  | .call => (readerStep s.rd (.call true)).map fun rd => { s with rd := rd, pc := .getFull }
  | .getFull =>
    (readerStep s.rd (.read env.signalled)).map fun rd =>
      match rd.reader, rd.returned.getLast? with
      | .out, some rc => { s with rd := rd, pc := .switch rc }
      | _, _ => { s with rd := rd }
  | .switch (.ok hbm) => some { s with pc := .opensTest hbm }
  | .switch .done | .switch .refillErr => some (s.ret (.rc (-1)))
  | .switch .eintr => some (s.ret (.rc (-4)))
  | .opensTest hbm =>
    if (s.rd.dev.lists .opens).isEmpty then some (s.ret (.rc (-1)))
    else some { s with pc := .hb0Test hbm }
  | .hb0Test hbm =>
    match s.hb0.hbmM1 with
    | some hbmM1 =>
      if s.hb0Due hb0NoRatelimit env.now then some { s with pc := .hb0Count env.now hbmM1 hbm }
      else some { s with pc := .hbmM1 hbm }
    | none => some { s with pc := .hbmM1 hbm }
  | .hb0Count now hbmM1 hbm =>
    some { s with
      hb0 := { s.hb0 with hb0Count := s.hb0.hb0Count + 1 }, pc := .hb0Prev now hbmM1 hbm }
  | .hb0Prev now hbmM1 hbm =>
    some { s with
      hb0 := { s.hb0 with prev := (s.rd.dev.hb hbmM1).ix }, pc := .hb0Crnt now hbm }
  | .hb0Crnt now hbm =>
    some { s with hb0 := { s.hb0 with crnt := (s.rd.dev.hb hbm).ix }, pc := .hb0Last now hbm }
  | .hb0Last now hbm => some { s with hb0 := { s.hb0 with hb0Last := now }, pc := .hbmM1 hbm }
  | .hbmM1 hbm => some { s with hb0 := { s.hb0 with hbmM1 := some hbm }, pc := .notify hbm }
  | .notify hbm =>
    some { s with
      bqw := s.bqw.bqNotify nbuffers (s.rd.dev.hb hbm).ix.toNat, pc := .copy hbm }
  | .copy hbm => some (s.ret (.ix (s.rd.dev.hb hbm).ix))

end CaptureServer

/-- One step of the server, of the capture thread or of a client. -/
def serverStep (nbuffers : Int) (hb0NoRatelimit : Int32) (s : CaptureServer) :
    ServerAct → Option CaptureServer
  | .read => if s.pc = .out then some { s with pc := .stopTest } else none
  | .serve env => s.serve nbuffers hb0NoRatelimit env
  | .capture op => (readerStep s.rd (.capture op)).map fun rd => { s with rd := rd }
  | .bqOpen pdesc minor =>
    (s.bqw.bqOpen pdesc minor.backlog).map fun bqw => { s with bqw := bqw }
  | .bqRelease pdesc => some { s with bqw := s.bqw.bqRelease pdesc }
  | .bqRead pdesc count rest =>
    (s.bqw.bqRead pdesc count rest).map fun bqw => { s with bqw := bqw }
  | .stop => (readerStep s.rd .stop).map fun rd => { s with rd := rd }

end Acq400
