/-
The mapped buffers of `acq400_stream` and the globals it takes them apart by.

`MapBuffer` (`Buffer.h`) maps the host buffers one after the other from `ba0` on; a
buffer length is a multiple of the page size, so that the mapping is contiguous and
buffer `ib` begins `ib` buffer lengths after `ba0`.  An address is a number, and the
memory a function from addresses to bytes.
-/
import Acq400.Lib.Memory
import Mathlib.Algebra.Group.Nat.Defs

namespace Acq400

/-- The memory, by addresses. -/
abbrev Mem := Nat → UInt8

/-- `namespace G` and the statics of `Buffer`, as far as the modelled functions use them. -/
structure G where
  nchan : Nat
  wordsize : Nat
  /-- Channel data appears two in a row. -/
  doubleUp : Bool
  bufferlen : Nat
  nbuffers : Nat

namespace G

def sampleSize (g : G) : Nat := g.nchan * g.wordsize

def s2b (g : G) (samples : Nat) : Nat := samples * g.sampleSize

def b2s (g : G) (bytes : Nat) : Nat := bytes / g.sampleSize

end G

namespace MapBuffer

/-- `MAPBUFFER_BA0`. -/
def ba0 : Nat := 0x40000000

/-- `ba1`, which is where the mapping ends. -/
def ba1 (g : G) : Nat := ba0 + g.nbuffers * g.bufferlen

def getBase (g : G) (ib : Nat) : Nat := ba0 + ib * g.bufferlen

/-- `ba_lo` after `reserve`. -/
def baLo (g : G) : Nat := ba0 + 2 * g.bufferlen

def baHi (g : G) : Nat := ba1 g

/-- `getBuffer`, which is unsigned: -1 and -2 for an address that is not mapped. -/
def getBuffer (g : G) (pb : Nat) : Nat :=
  if pb < ba0 then 2 ^ 32 - 1
  else if ba1 g < pb then 2 ^ 32 - 2
  else (pb - ba0) / g.bufferlen

end MapBuffer

/-- A `Segment`: its base and its length in bytes. -/
structure Segment where
  base : Nat
  len : Nat
deriving DecidableEq, Repr

end Acq400
