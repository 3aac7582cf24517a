/-
The queue of AWG segments: `acq400_awg_abcde_write` and `acq400_awg_abcde_read`
(`acq400_ui.c`) and `update_abcde_status` (`acq400_drv.c`).

The application writes segment letters, and the driver applies one each time it rearms
and replies with the segment that was active before.  One thread writes and one reads.
A write goes letter by letter and may have to wait; the event of its turn is whether a
signal interrupts the wait.  An update is one turn, and so is a read that has something
to get.
-/
import Acq400.Driver.Rings
import Acq400.Lib.Run

namespace Acq400

def awgAbcdeLen : Nat := 4096

/-- The code of `'A'`, and of `'Z'`. -/
def codeA : UInt8 := 65
def codeZ : UInt8 := 90

def validAbcde (maxSeg bx : UInt8) : Bool :=
  codeA ≤ maxSeg && maxSeg ≤ codeZ && codeA ≤ bx && bx ≤ maxSeg

/-- Where `acq400_awg_abcde_write` is. -/
inductive WritePc
  | idle
  /-- At the top of its loop. -/
  | top
  /-- It has this many letters to copy before it looks for room again. -/
  | copy (headroom : Nat)
  /-- It waits for room. -/
  | wait
deriving DecidableEq, Repr

/-- The two queues, the active segment and the write that is going on. -/
structure AwgAbcde where
  newQueue : CircBuf
  retQueue : CircBuf
  maxSeg : UInt8
  awgSeg : UInt8
  distributorSegmentOffset : Int
  pc : WritePc
  /-- What the write has not copied yet. -/
  buf : List UInt8
  /-- All that has been copied, applied, replied and read. -/
  copied : List UInt8
  applied : List UInt8
  replies : List UInt8
  reads : List UInt8

/-- A turn. -/
inductive AbcdeAct
  /-- A write is called. -/
  | write (buf : List UInt8)
  /-- The write goes on; a signal interrupts its wait, or not. -/
  | writing (interrupted : Bool)
  | read
  | update
deriving DecidableEq, Repr

namespace AwgAbcde

variable (s : AwgAbcde)

/-- The device as it is opened, with a segment active and both queues empty. -/
def opened (maxSeg seg : UInt8) (newBuf retBuf : Nat → UInt8) : AwgAbcde where
  newQueue := { buf := newBuf, head := 0, tail := 0 }
  retQueue := { buf := retBuf, head := 0, tail := 0 }
  maxSeg := maxSeg
  awgSeg := seg
  distributorSegmentOffset := (seg.toNat : Int) - codeA.toNat
  pc := .idle
  buf := []
  copied := []
  applied := []
  replies := []
  reads := []

/-- A letter is copied, and put if it is valid. -/
def copyLetter (lbuf : UInt8) : AwgAbcde :=
  { s with
    newQueue := if validAbcde s.maxSeg lbuf then s.newQueue.bufPut awgAbcdeLen lbuf else s.newQueue
    copied := s.copied ++ [lbuf] }

/-- `acq400_awg_abcde_write`. -/
def writeStep (interrupted : Bool) : Option AwgAbcde :=
  match s.pc with
  | .idle => none
  | .top =>
    if s.buf.isEmpty then some { s with pc := .idle }
    else some { s with pc := .copy (min (s.newQueue.bufSpace awgAbcdeLen) s.buf.length) }
  | .copy (headroom + 1) =>
    match s.buf with
    | [] => none
    | lbuf :: rest => some { s.copyLetter lbuf with buf := rest, pc := .copy headroom }
  | .copy 0 =>
    if s.buf.isEmpty then some { s with pc := .idle } else some { s with pc := .wait }
  | .wait =>
    if interrupted then
      some { s with newQueue := s.newQueue.initCbEmpty, buf := [], pc := .idle }
    else if s.newQueue.bufSpace awgAbcdeLen ≠ 0 then some { s with pc := .top }
    else none

def _updateAbcdeStatus : AwgAbcde :=
  let (bx, newQueue) := s.newQueue.bufGet awgAbcdeLen
  let obx := s.awgSeg
  let s := { s with newQueue := newQueue }
  let s :=
    if validAbcde s.maxSeg bx then
      { s with
        distributorSegmentOffset := (bx.toNat : Int) - codeA.toNat
        awgSeg := bx
        applied := s.applied ++ [bx] }
    else s
  { s with
    retQueue := s.retQueue.bufPut awgAbcdeLen obx
    replies := s.replies ++ [obx] }

def updateAbcdeStatus : AwgAbcde :=
  if s.newQueue.bufCount awgAbcdeLen ≠ 0 then s._updateAbcdeStatus else s

/-- One turn. -/
def step : AbcdeAct → Option AwgAbcde
  | .write buf => if s.pc = .idle then some { s with buf := buf, pc := .top } else none
  | .writing interrupted => s.writeStep interrupted
  -- `acq400_awg_abcde_read`
  | .read =>
    if s.retQueue.bufCount awgAbcdeLen ≠ 0 then
      let (bx, retQueue) := s.retQueue.bufGet awgAbcdeLen
      some { s with retQueue := retQueue, reads := s.reads ++ [bx] }
    else none
  | .update => some s.updateAbcdeStatus

end AwgAbcde

end Acq400
