/-
The trigger network (`wrtd.cpp`): transmitters, receivers and the multicast group between them.

Each program is a process of its own, with its own globals and its own caster.  A datagram that
has been sent is delivered to any receiver at any later time, also never or more than once.  A
receiver writes the stamp to the triggers that it is for; of an absolute stamp it forks a child
that waits until the time is near.

What is written is the list of the triggers with their words.  Reports and the time between the
two triggers of a double tap are left out, and so are the receivers without full messages.
-/
import Acq400.Wrtd.Message

namespace Acq400.Wrtd

def TS.strip (t : TS) : TS := { t with taiS := 0 }

/-- `MessageFilter::factory`. -/
inductive MessageFilter
  | acq2106
  | multiple (f : MultipleMatchFilter)

/-- `operator()`: whether the message is for us, and `G::trg`. -/
def MessageFilter.accept (trg : Nat) (msg : WrtdMessage) : MessageFilter → Bool × Nat
  | .acq2106 => (acq2106DefaultMessageFilter msg, trg)
  | .multiple f => f.accept trg msg

/-! ### A receiver -/

/-- A receiver as it is set up. -/
structure Receiver where
  g : G
  clk : LocalClk
  filter : MessageFilter
  /-- `fp_trg`: which of the `ntriggers` are open. -/
  fpTrg : List Bool
  /-- `G::delay01`, as `operator+` takes it. -/
  delay01 : Nat

/-- `ACQ400Receiver`, of two triggers. -/
def Receiver.acq400 (g : G) (clk : LocalClk) (filter : MessageFilter) (delay01 : Nat) : Receiver :=
  { g := g
    clk := clk
    filter := filter
    fpTrg := [true, true]
    delay01 := delay01 }

/-- `TIGA_Receiver`: six more, of the sites that have one, and no clock to adjust to. -/
def Receiver.tiga (g : G) (filter : MessageFilter) (sites : Nat → Bool) (delay01 : Nat) :
    Receiver :=
  { g := g
    clk := { clkdiv := 0, clkoffset := 0 }
    filter := filter
    fpTrg := [true, true] ++ (List.range 6).map fun ii => sites (ii + 1)
    delay01 := delay01 }

/-- A stamp that has come in, with `G::trg`. -/
structure Heard where
  trg : Nat
  ts : TS
deriving DecidableEq

/-- A receiver as it runs. -/
structure ReceiverState where
  trg : Nat
  /-- The children that wait. -/
  children : List Heard
  /-- The triggers that have been written, with the words. -/
  writes : List (Nat × Nat)
  /-- What has come in, and what the children have acted on, with the second it was then. -/
  heard : List Heard
  woken : List (Heard × Nat)

def ReceiverState.init : ReceiverState :=
  { trg := 0
    children := []
    writes := []
    heard := []
    woken := [] }

namespace Receiver

variable (rx : Receiver)

/-- The loop over the mask, from trigger `ii` on. -/
def maskLoop (raw : Nat) : Nat → List Bool → UInt8 → List (Nat × Nat)
  | _, [], _ => []
  | ii, fp :: fpTrg, mask =>
    if mask = 0 then []
    else
      (if mask &&& 1 ≠ 0 ∧ fp then [(ii, raw)] else []) ++
        maskLoop raw (ii + 1) fpTrg (mask >>> 1)

def onAction (trg : Nat) (ts tsAdj : TS) : List (Nat × Nat) :=
  if ts.mask ≠ 0 then maskLoop tsAdj.raw 0 rx.fpTrg ts.mask
  else if trg < 2 then [(trg, tsAdj.raw)]
  else if tsAdj.differs .quick then
    [(0, tsAdj.raw), (1, ((ts.plus rx.g rx.delay01).adjustTs rx.clk).raw)]
  else [(0, tsQuick), (1, tsQuick)]

/-- What `action` does of a relative stamp. -/
def fire (h : Heard) : List (Nat × Nat) := rx.onAction h.trg h.ts (h.ts.adjustTs rx.clk)

def action (s : ReceiverState) (ts : TS) : ReceiverState :=
  let h : Heard := { trg := s.trg, ts := ts }
  let s := { s with heard := s.heard ++ [h] }
  if ts.isAbsTai then { s with children := s.children ++ [h] }
  else { s with writes := s.writes ++ rx.fire h }

/-- A turn of `event_loop` that gets this datagram. -/
def receive (s : ReceiverState) (msg : WrtdMessage) : Option ReceiverState :=
  let (ours, trg) := rx.filter.accept s.trg msg
  let s := { s with trg := trg }
  if ours then (WrtdCaster.stamp rx.g msg).map (rx.action s) else some s

/-- A turn of `deferredAction`, in a child: the time has come or it has not. -/
def wake (s : ReceiverState) (child taiSec : Nat) : Option ReceiverState :=
  s.children[child]?.map fun h =>
    if taiSec < h.ts.secs ∧ h.ts.secs - taiSec < 7 then
      { s with
        children := s.children.eraseIdx child
        writes := s.writes ++ rx.fire { h with ts := h.ts.strip }
        woken := s.woken ++ [(h, taiSec)] }
    else s

end Receiver

/-! ### A transmitter -/

/-- A transmitter as it is set up, with its local receiver if it has one. -/
structure Sender where
  g : G
  par : TxParams
  localRx : Option Receiver

/-- And as it runs. -/
structure SenderState where
  caster : WrtdCaster
  ntx : Nat
  running : Bool
  rx : ReceiverState

namespace Sender

variable (tx : Sender)

def init (caster : WrtdCaster) : SenderState :=
  { caster := caster
    ntx := 0
    running := tx.par.maxTx ≠ 0
    rx := .init }

/-- A turn of `event_loop`, of the word that is read: what is sent, and the state after it. -/
def transmit (s : SenderState) (raw : Nat) : Option (TS × SenderState) :=
  if s.running then
    let tsTx := Transmitter.tsTx tx.g tx.par raw
    (s.caster.sendto tx.g tsTx).map fun caster =>
      let ntx := unsigned (s.ntx + 1)
      (tsTx,
        { caster := caster
          ntx := unsigned (ntx + 1)
          running := ¬(tx.par.maxTx ≠ maxTxInf ∧ tx.par.maxTx ≤ ntx)
          rx := match tx.localRx with
            | some rx => rx.action s.rx tsTx
            | none => s.rx })
  else none

/-- `txq`. -/
def quick (s : SenderState) : TS × SenderState :=
  ({ TS.quick with mask := tx.par.txMask },
    { s with caster := s.caster.sendraw tx.par.txMask tsQuick })

/-- `txa`, of the second and the nanoseconds that `txa_validate` lets through. -/
def txa (s : SenderState) (sec nsec : Nat) : Option (TS × SenderState) := do
  let ticks ← CDouble.toUnsigned (nsec / tx.g.nsPerTick)
  let ts := TS.makeRaw sec ticks true
  let caster ← s.caster.sendto tx.g ts
  return (ts, { s with caster := caster })

end Sender

/-! ### The network -/

structure NetConfig where
  tx : Nat → Sender
  rx : Nat → Receiver

structure Network where
  txs : Nat → SenderState
  rxs : Nat → ReceiverState
  /-- Every datagram that has been sent, and the stamp that it is of. -/
  air : List WrtdMessage
  sent : List TS

inductive NetAct
  | transmit (i raw : Nat)
  | quick (i : Nat)
  | txa (i sec nsec : Nat)
  | deliver (j : Nat) (msg : WrtdMessage)
  | wake (j child taiSec : Nat)
  /-- A child of the local receiver of a transmitter. -/
  | wakeLocal (i child taiSec : Nat)

namespace Network

def init (cfg : NetConfig) (caster : Nat → WrtdCaster) : Network :=
  { txs := fun i => (cfg.tx i).init (caster i)
    rxs := fun _ => .init
    air := []
    sent := [] }

variable (s : Network)

/-- The datagram of a transmitter is out. -/
def send (i : Nat) (ts : TS) (tx : SenderState) : Network :=
  { s with
    txs := Function.update s.txs i tx
    air := s.air ++ [tx.caster.msg]
    sent := s.sent ++ [ts] }

def step (cfg : NetConfig) (s : Network) : NetAct → Option Network
  | .transmit i raw => ((cfg.tx i).transmit (s.txs i) raw).map fun (ts, tx) => s.send i ts tx
  | .quick i =>
    let (ts, tx) := (cfg.tx i).quick (s.txs i)
    some (s.send i ts tx)
  | .txa i sec nsec => ((cfg.tx i).txa (s.txs i) sec nsec).map fun (ts, tx) => s.send i ts tx
  | .deliver j msg =>
    if msg ∈ s.air then
      ((cfg.rx j).receive (s.rxs j) msg).map fun rx =>
        { s with rxs := Function.update s.rxs j rx }
    else none
  | .wake j child taiSec =>
    ((cfg.rx j).wake (s.rxs j) child taiSec).map fun rx =>
      { s with rxs := Function.update s.rxs j rx }
  | .wakeLocal i child taiSec =>
    (cfg.tx i).localRx.bind fun rx =>
      (rx.wake (s.txs i).rx child taiSec).map fun st =>
        { s with txs := Function.update s.txs i { s.txs i with rx := st } }

end Network

end Acq400.Wrtd
