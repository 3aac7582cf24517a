/-
The segments of the AWG memory, as the driver divides it (`acq400_drv.c`) and as
`bb` finds its way in it (`bb.cpp`).

The driver computes the number of buffers of a segment when it is loaded, and
plays from `firstDistributorBuffer()`.  `bb` reads the parameters of the driver
from their files, as unsigned numbers, and computes for itself where to load.  Of
`ui` only what decides about the buffers is kept.
-/
import Acq400.Lib.CInt

namespace Acq400

open CInt

/-- The module parameters that divide the buffers, and `awg_seg_bufs`. -/
structure AwgParams where
  nbuffers : Int
  distributorFirstBuffer : Int
  distributorSegmentOffset : Int
  reserveBuffers : Int
  awgSegBufs : Int
  maxSeg : Char

/-- The value of a character constant. -/
def charCode (c : Char) : Int := c.toNat

namespace AwgParams

def firstDistributorBuffer (p : AwgParams) : Option Int := do
  let first ← value (p.distributorFirstBuffer + p.reserveBuffers)
  let offset ← value (p.distributorSegmentOffset * p.awgSegBufs)
  value (first + offset)

def _setAwgSegBufs (p : AwgParams) : Option AwgParams := do
  let p := { p with distributorSegmentOffset := 0 }
  let first ← p.firstDistributorBuffer
  let totalDistributorBuffers ← value (p.nbuffers - first)
  let maxSeg := charCode p.maxSeg - charCode 'A' + 1
  let maxSeg := if maxSeg ≤ 0 then 1 else maxSeg
  let share ← div totalDistributorBuffers maxSeg
  let fours ← div share 4
  return { p with awgSegBufs := fours * 4 }

def setAwgSegBufs (p : AwgParams) : Option AwgParams :=
  if 'A' ≤ p.maxSeg ∧ p.maxSeg ≤ 'Z' then p._setAwgSegBufs else some p

end AwgParams

/-- The globals of `bb`, all of them `unsigned`. -/
structure Bb where
  buffer00 : Int
  buffer0 : Int
  nbuffers : Int

namespace Bb

/-- `set_segment_start`: the parameters with the segment selected, and `seg_bufs`. -/
def setSegmentStart (p : AwgParams) (bb : Bb) (seg : Int) : AwgParams × Bb × Int :=
  let segBufs := unsigned p.awgSegBufs
  ({ p with distributorSegmentOffset := seg },
    { bb with buffer0 := unsigned (bb.buffer00 + seg * segBufs) }, segBufs)

/-- `ui` with option `A`, of a segment letter; `none` where it exits. -/
def ui (p : AwgParams) (abcde : Char) : Option (AwgParams × Bb) :=
  let bb : Bb :=
    { buffer00 := unsigned p.distributorFirstBuffer
      buffer0 := unsigned p.distributorFirstBuffer
      nbuffers := unsigned p.nbuffers }
  let maxSeg := if 'A' ≤ p.maxSeg ∧ p.maxSeg ≤ 'Z' then p.maxSeg else 'A'
  if 'A' ≤ abcde ∧ abcde ≤ maxSeg then
    let (p, bb, segBufs) := bb.setSegmentStart p (charCode abcde - charCode 'A')
    if segBufs ≠ 0 then some (p, { bb with nbuffers := segBufs })
    else some (p, { bb with nbuffers := unsigned (bb.nbuffers - bb.buffer0) })
  else
    none

/-- The `i`th of the buffers that `BufferManager` opens. -/
def buffer (bb : Bb) (i : Int) : Int := unsigned (bb.buffer0 + i)

end Bb

end Acq400
