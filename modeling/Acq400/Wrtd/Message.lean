/-
Trigger messages (`wrtd_message.h`): `WrtdCaster::sendraw`, `sendto` and `recvfrom`.

A message is a datagram on a multicast group; a receiver gets the messages of all senders
and drops what its filter does not match.
-/
import Acq400.Lib.Run
import Acq400.Wrtd.TS

namespace Acq400.Wrtd

def wrtdIdLen : Nat := 16

/-- `wrtd_message`, but for the fields that are always zero. -/
structure WrtdMessage where
  hwDetect : Vector UInt8 3
  eventId : Vector UInt8 wrtdIdLen
  seq : Nat
  tsSec : Nat
  tsNs : Nat
deriving DecidableEq, Repr

/-- A caster; `seq` is the counter that the senders of a host share. -/
structure WrtdCaster where
  seq : Nat
  isForUs : WrtdMessage → Bool
  msg : WrtdMessage

namespace WrtdCaster

/-- `IMASK`: the place of the receivers' mask in the event's id. -/
def imask : Fin wrtdIdLen := ⟨wrtdIdLen - 1, by decide⟩

/-- `sendcommon`: the message that goes out is the caster's own. -/
def sendcommon (c : WrtdCaster) : WrtdCaster :=
  let seq := unsigned (c.seq + 1)
  { c with seq := seq, msg := { c.msg with hwDetect := #v[0x4c, 0x58, 0x49], seq := seq } }

/-- `sendraw`; `txMask` is `G::tx_mask`. -/
def sendraw (txMask : UInt8) (c : WrtdCaster) (raw : Nat) : WrtdCaster :=
  sendcommon { c with msg := { c.msg with
    tsSec := 0, tsNs := raw, eventId := c.msg.eventId.set imask txMask } }

def sendto (g : G) (c : WrtdCaster) (ts : TS) : Option WrtdCaster :=
  (ts.nsec g).map fun ns =>
    sendcommon { c with msg := { c.msg with
      tsSec := ts.secs, tsNs := ns, eventId := c.msg.eventId.set imask ts.mask } }

/-- The stamp that `recvfrom` makes of a message that is for it. -/
def stamp (g : G) (msg : WrtdMessage) : Option TS :=
  let mask := msg.eventId[imask]
  if msg.tsNs = tsQuick then some { TS.ofRaw tsQuick with mask := mask }
  else (CDouble.toUnsigned (msg.tsNs / g.nsPerTick)).map fun ticks =>
    { TS.makeRaw msg.tsSec ticks true with mask := mask }

/-- `recvfrom`, from the datagrams that come in: the stamp, the caster and the datagrams that
are left.  A datagram that is no whole message (`none`) closes the program down. -/
def recvfrom (g : G) (c : WrtdCaster) :
    List (Option WrtdMessage) → Option (TS × WrtdCaster × List (Option WrtdMessage))
  | [] | none :: _ => none
  | some m :: rest =>
      let c := { c with msg := m }
      if c.isForUs m then (stamp g m).map fun ts => (ts, c, rest) else recvfrom g c rest

end WrtdCaster

/-- `Acq2106DefaultMessageFilter`: the id starts with "acq2106". -/
def acq2106DefaultMessageFilter (msg : WrtdMessage) : Bool :=
  msg.eventId.toList.take 7 = [0x61, 0x63, 0x71, 0x32, 0x31, 0x30, 0x36]

end Acq400.Wrtd

/-! ### Filters

The filter of trigger messages by their id (`wrtd_message.h`): `MultipleMatchFilter`, and the id
that the constructor of `WrtdCaster` puts in its messages.

A C string is its bytes up to the terminating 0.  The lists come from the environment, and the id
from the command line: it is `G::tx_id`, the name of the host being used only where there is none.
-/

namespace Acq400.Wrtd

/-- A C string. -/
structure CString where
  chars : List UInt8
  terminated : 0 ∉ chars

/-- `strncmp`, of strings that are followed by 0. -/
def strncmp : Nat → List UInt8 → List UInt8 → Int
  | 0, _, _ => 0
  | n + 1, s1, s2 =>
    let c1 := s1.headD 0
    let c2 := s2.headD 0
    if c1 ≠ c2 then c1.toNat - c2.toNat
    else if c1 = 0 then 0
    else strncmp n s1.tail s2.tail

/-- `strncpy` to `n` bytes of a field that is zero. -/
def strncpy (n : Nat) (src : List UInt8) : Vector UInt8 wrtdIdLen :=
  Vector.ofFn fun i => if i.val < n then src.getD i.val 0 else 0

/-- `split2`: a token ends at the delimiter or at the end, and there is none behind the last
delimiter. -/
def split2 (delim : UInt8) : List UInt8 → List (List UInt8)
  | [] => []
  | c :: str =>
    if c = delim then [] :: split2 delim str
    else
      match split2 delim str with
      | [] => [[c]]
      | token :: tokens => (c :: token) :: tokens

/-- `','`. -/
def comma : UInt8 := 0x2c

structure MultipleMatchFilter where
  lists : List (List (List UInt8))

namespace MultipleMatchFilter

def appendMatch (f : MultipleMatchFilter) (mx : Option CString) : MultipleMatchFilter :=
  { lists := f.lists ++ [mx.elim [] fun mx => split2 comma mx.chars] }

/-- The constructor. -/
def ofMatches (m0 m1 m2 : Option CString) : MultipleMatchFilter :=
  (((MultipleMatchFilter.mk []).appendMatch m0).appendMatch m1).appendMatch m2

/-- A string of the list is the message's id, as far as `strncmp` compares them. -/
def hits (msg : WrtdMessage) (vs : List (List UInt8)) : Bool :=
  vs.any fun ss => strncmp wrtdIdLen ss msg.eventId.toList = 0

/-- `operator()`: whether the message is accepted, and `G::trg`. -/
def accept (f : MultipleMatchFilter) (trg : Nat) (msg : WrtdMessage) : Bool × Nat :=
  match f.lists.findIdx? (hits msg) with
  | some ii => (true, ii)
  | none => (false, trg)

end MultipleMatchFilter

namespace WrtdCaster

/-- The constructor, with `G::tx_id`. -/
def ofTxId (seq : Nat) (isForUs : WrtdMessage → Bool) (txId : CString) : WrtdCaster where
  seq := seq
  isForUs := isForUs
  msg :=
    { hwDetect := Vector.replicate 3 0
      eventId := strncpy (wrtdIdLen - 1) txId.chars
      seq := 0
      tsSec := 0
      tsNs := 0 }

/-- What a caster is made to send: a word, with `G::tx_mask`, or a stamp. -/
inductive Send
  | raw (txMask : UInt8) (raw : Nat)
  | stamp (ts : TS)

/-- The mask of the message. -/
def Send.mask : Send → UInt8
  | .raw txMask _ => txMask
  | .stamp ts => ts.mask

/-- The caster, once it has sent. -/
def send (g : G) (c : WrtdCaster) : Send → Option WrtdCaster
  | .raw txMask raw => some (c.sendraw txMask raw)
  | .stamp ts => c.sendto g ts

end WrtdCaster

end Acq400.Wrtd

/-! ### The transmitter

The transmitter (`wrtd.cpp`, `Transmitter::event_loop`) and `TS::next_second`.

The stream of the device is the list of the words that can be read from it.  What is sent is the
list of the stamps that `comms.sendto` is called with; the local receiver gets them behind that.
-/

namespace Acq400.Wrtd

def maxTxInf : Nat := 0xffffffff

/-- The globals of the transmitter. -/
structure TxParams where
  ons : Bool
  deltaTicks : Int
  /-- `G::tx_mask`, as `mask` takes it. -/
  txMask : UInt8
  maxTx : Nat

/-- `G::delta_ticks`, converted to `unsigned`. -/
def TxParams.delta (par : TxParams) : Nat := (CInt.unsigned par.deltaTicks).toNat

def TS.nextSecond (par : TxParams) (t : TS) : TS :=
  let addSec := if ticksMask ≤ unsigned (t.ticks + par.delta) then 2 else 1
  makeRaw (unsigned (t.secs + addSec)) 0 true

namespace Transmitter

/-- What is sent for a word of the stream. -/
def tsTx (g : G) (par : TxParams) (raw : Nat) : TS :=
  let ts := TS.ofRaw raw
  { (if par.ons then ts.nextSecond par else ts.plus g par.delta) with mask := par.txMask }

/-- The loop of `event_loop`, from `ntx` on. -/
def eventLoopFrom (g : G) (par : TxParams) : Nat → List Nat → List TS
  | _, [] => []
  | ntx, raw :: stream =>
    let ntx := unsigned (ntx + 1)
    if par.maxTx ≠ maxTxInf ∧ par.maxTx ≤ ntx then [tsTx g par raw]
    else tsTx g par raw :: eventLoopFrom g par (unsigned (ntx + 1)) stream

def eventLoop (g : G) (par : TxParams) (stream : List Nat) : List TS :=
  if par.maxTx = 0 then [] else eventLoopFrom g par 0 stream

end Transmitter

end Acq400.Wrtd
