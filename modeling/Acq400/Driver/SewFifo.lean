/-
The FIFO of embedded words (`acq400_sewfifo.c`): `acq400_sew_fifo_write_bytes` puts
bytes in a ring, and `acq400_sew_fifo_work` writes up to three of them to a register
each time its interval has gone by.

The writer and the worker take turns of any order.  A turn is one operation on the ring,
or a wait that comes to an end; the event of a writer's turn is how its wait ends, or
that its byte cannot be read.
-/
import Acq400.Driver.Rings
import Acq400.Lib.Run

namespace Acq400

def sewFifoLen : Nat := 4096

def payloadEmpty : UInt8 := 32

/-- The union of a register word and its bytes. -/
structure EmbWord where
  byte0 : UInt8
  byte1 : UInt8
  byte2 : UInt8
  byte3 : UInt8
deriving DecidableEq, Repr

namespace EmbWord

variable (xx : EmbWord)

/-- `xx.bytes[ipay] = byte`. -/
def setByte (ipay : Nat) (byte : UInt8) : EmbWord :=
  match ipay with
  | 0 => { xx with byte0 := byte }
  | 1 => { xx with byte1 := byte }
  | 2 => { xx with byte2 := byte }
  | _ => { xx with byte3 := byte }

/-- The payload of a word, of as many bytes as the low two bits say. -/
def payload : List UInt8 := [xx.byte1, xx.byte2, xx.byte3].take (xx.byte0 &&& 3).toNat

/-- The count, in the upper six bits. -/
def countField : Nat := (xx.byte0 >>> 2).toNat

end EmbWord

/-- Where the worker is. -/
inductive SewPc
  | wait
  /-- It is to get the byte `ipay` of a payload. -/
  | get (payloadCount ipay : Nat)
  | ended
deriving DecidableEq, Repr

/-- Where the writer is. -/
inductive SewWritePc
  | idle
  /-- At the top of its loop. -/
  | next
  | wait
  | put
deriving DecidableEq, Repr

/-- How a turn of the writer goes. -/
inductive SewEv
  | go
  /-- `get_user` fails. -/
  | fault
  | timeout
  | interrupted
deriving DecidableEq, Repr

/-- `struct SewFifo`, its worker and its writer. -/
structure SewFifo where
  sfBuf : CircBuf
  pc : SewPc
  xx : EmbWord
  moduloCount : Nat
  /-- What has been written to the register. -/
  words : List EmbWord
  wpc : SewWritePc
  /-- What the call is still to put, and what it has put. -/
  buf : List UInt8
  sent : List UInt8
  /-- What the calls that have returned have reported as written. -/
  reported : List UInt8

/-- A turn. -/
inductive SewAct
  /-- `acq400_sew_fifo_write_bytes` is called. -/
  | call (buf : List UInt8)
  | writer (ev : SewEv)
  /-- The worker goes on. -/
  | work
  /-- It is stopped where it waits. -/
  | stop
deriving DecidableEq, Repr

namespace SewFifo

variable (s : SewFifo)

/-- `acq400_sew_fifo_init`. -/
def init (buf : Nat → UInt8) : SewFifo where
  sfBuf := { buf := buf, head := 0, tail := 0 }
  pc := .wait
  xx := ⟨0, 0, 0, 0⟩
  moduloCount := 0
  words := []
  wpc := .idle
  buf := []
  sent := []
  reported := []

/-- The call returns an error. -/
def fail : SewFifo := { s with wpc := .idle, buf := [], sent := [] }

/-- `acq400_sew_fifo_write_bytes`. -/
def writerStep (ev : SewEv) : Option SewFifo :=
  match s.wpc with
  | .idle => none
  | .next =>
    match s.buf with
    | [] => some { s with wpc := .idle, sent := [], reported := s.reported ++ s.sent }
    | _ :: _ => if ev = .fault then some s.fail else some { s with wpc := .wait }
  | .wait =>
    match ev with
    | .interrupted => some s.fail
    -- `rc == 0` is no error
    | .timeout => if s.sfBuf.bufSpace sewFifoLen = 0 then some { s with wpc := .put } else none
    | .go => if s.sfBuf.bufSpace sewFifoLen ≠ 0 then some { s with wpc := .put } else none
    | .fault => none
  | .put =>
    match s.buf with
    | [] => none
    | tmp :: rest =>
      some { s with
        sfBuf := s.sfBuf.bufPut sewFifoLen tmp
        wpc := .next
        buf := rest
        sent := s.sent ++ [tmp] }

/-- `acq400_sew_fifo_work`. -/
def workStep : Option SewFifo :=
  match s.pc with
  | .wait =>
    let payloadCount := min (s.sfBuf.bufCount sewFifoLen) 3
    some { s with
      xx := s.xx.setByte 0 (UInt8.ofNat (s.moduloCount <<< 2 ||| payloadCount))
      pc := .get payloadCount 1 }
  | .get payloadCount ipay =>
    if ipay ≤ payloadCount then
      let (byte, sfBuf) := s.sfBuf.bufGet sewFifoLen
      some { s with
        sfBuf := sfBuf
        xx := s.xx.setByte ipay byte
        pc := .get payloadCount (ipay + 1) }
    else
      -- `acq400wr32`, and on to the next
      some { s with
        words := s.words ++ [s.xx]
        xx := ((s.xx.setByte 1 payloadEmpty).setByte 2 payloadEmpty).setByte 3 payloadEmpty
        moduloCount := (s.moduloCount + 1) &&& 0x3f
        pc := .wait }
  | .ended => none

/-- One turn. -/
def step : SewAct → Option SewFifo
  | .call buf => if s.wpc = .idle then some { s with buf := buf, wpc := .next } else none
  | .writer ev => s.writerStep ev
  | .work => s.workStep
  | .stop => if s.pc = .wait then some { s with pc := .ended } else none

end SewFifo

end Acq400
