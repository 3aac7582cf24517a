/-
Filling the FIFO of the AWG from the playloop memory (`xo400_fill_fifo`,
`acq400_drv.c`), one interrupt after the other.

The cursor counts samples and the transfers count bytes.  A transfer is a number of
samples to begin with, and then cut: to a fill block, to DMA blocks, at the end of its
host buffer unless the next one follows it in memory, and to DMA blocks again.

Both kinds of transfer move exactly the bytes they are given, from memory that the
host buffers have their places in, and the mutex is always to be had.  The samples of
a FIFO and the bytes of a playloop that is in host buffers are counted by an `int`, and
nothing overflows here.  What is done when a one-shot has finished is left out.
-/
import Acq400.Awg.XoDataLoop
import Acq400.Lib.Reads

namespace Acq400

open Reads

/-- The device, its host buffers and the module parameters. -/
structure FillDev where
  aoss : Nat
  aoss_pos : 0 < aoss
  maxFifoSamples : Nat
  /-- `dma_chan[0] != 0`. -/
  dmaChan : Bool
  minDmaBytes : Nat
  minDmaBytes_pos : 0 < minDmaBytes
  ao420DmaThreshold : Nat
  ao420MaxFillBlock : Nat
  xoUseContiguousPaIfPossible : Bool
  len : Nat
  len_pos : 0 < len
  pa : Nat → Nat
  /-- Memory, by physical address. -/
  ram : Nat → UInt8

/-- What a transfer has moved, and the headroom that was read for it. -/
structure Transfer where
  headroom : Nat
  data : List UInt8

structure FillState where
  playloop : AoPlayloop
  /-- The transfers so far, in order. -/
  transfers : List Transfer

namespace FillState

/-- The bytes written to the FIFO. -/
def fifo (s : FillState) : List UInt8 := s.transfers.flatMap Transfer.data

end FillState

namespace FillDev

variable (dev : FillDev)

def aosamples2bytes (xx : Nat) : Nat := xx * dev.aoss

def aobytes2samples (xx : Nat) : Nat := xx / dev.aoss

/-- `xo400_getFillThreshold`. -/
def getFillThreshold : Nat := dev.maxFifoSamples / 128

/-- `ao420_getFifoHeadroom`, with this many samples in the FIFO. -/
def getFifoHeadroom (samples : Nat) : Nat :=
  let maxsam := dev.maxFifoSamples - 8
  if samples > maxsam then 0 else maxsam - samples

/-- `xo_use_contiguous_pa_if_possible`, and it is. -/
def contiguous (ib : Nat) : Bool :=
  dev.xoUseContiguousPaIfPossible && dev.pa ib + dev.len = dev.pa (ib + 1)

/-- The head room in the buffer that a transfer begins in. -/
def room (frombyte : Nat) : Nat := dev.len - frombyte % dev.len

/-- The first half of `xo400_write_fifo_dma`: to the end of the buffer at most. -/
def cutToBuffer (frombyte bytes : Nat) : Nat :=
  let ib := frombyte / dev.len
  let offset := frombyte - ib * dev.len
  if offset + bytes > dev.len then
    if dev.contiguous ib then bytes else dev.len - offset
  else bytes

/-- The second: to DMA blocks, unless it is less than one. -/
def cutToBlocks (bytes : Nat) : Nat :=
  if bytes ≥ dev.minDmaBytes then bytes / dev.minDmaBytes * dev.minDmaBytes else bytes

/-- `xo400_write_fifo_dma`, by what it moves. -/
def writeFifoDma (frombyte bytes : Nat) : List UInt8 :=
  let ib := frombyte / dev.len
  let offset := frombyte - ib * dev.len
  cells (fun i => dev.ram (dev.pa ib + offset + i)) 0
    (dev.cutToBlocks (dev.cutToBuffer frombyte bytes))

/-- What one turn of the loop comes to. -/
inductive Turn
  /-- The condition of the loop fails. -/
  | ended
  /-- It is left by `break`. -/
  | leave
  | next (s : FillState)

/-- The bytes that a turn asks `xo400_write_fifo_dma` for; `none` if it waits for the next
interrupt. -/
def ask (remaining headroom : Nat) : Option Nat :=
  let headroomLtRemaining := headroom < remaining
  let remaining := min remaining headroom
  let lenbytes := min (dev.aosamples2bytes remaining) dev.ao420MaxFillBlock
  if dev.dmaChan ∧ lenbytes > max dev.minDmaBytes dev.ao420DmaThreshold then
    some (lenbytes / dev.minDmaBytes * dev.minDmaBytes)
  else if headroomLtRemaining then none
  else some lenbytes

/-- One turn of the loop, with this many samples in the FIFO. -/
def turn (samples : Nat) (s : FillState) : Turn :=
  let headroom := dev.getFifoHeadroom samples
  if s.playloop.length ≠ 0 ∧ headroom > dev.getFillThreshold ∧
      s.playloop.length > s.playloop.cursor then
    -- there is something remaining, and room for it
    match dev.ask (s.playloop.length - s.playloop.cursor) headroom with
    | none => .leave
    | some bytes =>
      let data := dev.writeFifoDma (dev.aosamples2bytes s.playloop.cursor) bytes
      .next
        { playloop := { s.playloop with
            cursor := s.playloop.cursor + dev.aobytes2samples data.length }
          transfers := s.transfers ++ [⟨headroom, data⟩] }
  else .ended

/-- The loop, with `maxiter` turns to go: whether it was entered, and what it leaves. -/
def fillLoop : Nat → (Nat → Nat) → FillState → Bool × FillState
  | 0, _, s => (true, s)
  | maxiter + 1, samples, s =>
    match dev.turn (samples 0) s with
    | .ended => (false, s)
    | .leave => (true, s)
    | .next s' => (true, (fillLoop maxiter (later samples) s').2)

/-- What follows the loop: whether it is all done, and the playloop. -/
def wrapUp (playloop : AoPlayloop) : Bool × AoPlayloop :=
  if playloop.length > 0 ∧ playloop.cursor ≥ playloop.length then
    if playloop.oneshot ≠ .continuous then
      if playloop.repeats = 0 then (true, playloop)
      else
        let playloop := { playloop with repeats := playloop.repeats - 1 }
        if playloop.repeats = 0 then (true, playloop) else (false, { playloop with cursor := 0 })
    else (false, { playloop with cursor := 0 })
  else (false, playloop)

/-- `xo400_fill_fifo`: what it returns, and the state after it.  The FIFO has
`samples n` samples in it at the `n`th turn. -/
def fillFifo (samples : Nat → Nat) (s : FillState) : Nat × FillState :=
  let (entered, s) := dev.fillLoop 1000 samples s
  let (done, playloop) := wrapUp s.playloop
  (if done then 0 else if entered then 1 else 0, { s with playloop := playloop })

end FillDev

end Acq400
