/-
All the data of a shot in one blob: `mr_offload.cpp`, `offload` on the box and `client` where the
data is stored.

The struct `mr_offload` is sent as it is, and what is behind it in the blob is bytes.  Numbers of
type `float` are given by their bits.  `new` fails for more than half of the addresses, and then
nothing is sent; an `int` that overflows is `none`.  Which names the client gives to its files is
left out.
-/
import Acq400.Lib.CInt
import Mathlib.Data.BitVec

namespace Acq400

namespace MrOffload

def nchan : Nat := 48

/-- `struct mr_offload`. -/
structure Header where
  shot : BitVec 32
  tai : BitVec 64
  dt : BitVec 32
  nsam : Int
  nchan : Int
  eslo : List (BitVec 32)
  eoff : List (BitVec 32)

/-- The knobs and the files that are read on the box. -/
structure Box where
  shot : BitVec 32
  wrTaiTrg : BitVec 32
  /-- What is scanned of `TRANS_ACT:POST`. -/
  nsam : Nat
  /-- `/dev/shm/calblob`, where there is one, word by word. -/
  calblob : Option (List (BitVec 32))
  decims : List UInt8
  /-- `/dev/acq400/data/%d/%02d`, of a site and a channel. -/
  data : Nat → Nat → List UInt8

/-- `get_cal`: ESLO and EOFF, of which the one is set to 2 to the power of -15 if not all of it can
be read. -/
def getCal (calblob : Option (List (BitVec 32))) : List (BitVec 32) × List (BitVec 32) :=
  let words := calblob.getD []
  let eslo := words.take nchan
  let eoff := (words.drop nchan).take nchan
  (if eslo.length = nchan ∧ eoff.length = nchan then eslo else List.replicate nchan 0x38000000,
    eoff ++ List.replicate (nchan - eoff.length) 0)

def offloadHeader (box : Box) : Header :=
  let cal := getCal box.calblob
  { shot := box.shot, tai := box.wrTaiTrg.setWidth 64, dt := 0x41c80000, nsam := box.nsam,
    nchan := nchan, eslo := cal.1, eoff := cal.2 }

/-- The loop of `cat` that copies what is left of the file by the buffer. -/
def catLoop (len : Nat) (file : List UInt8) : List UInt8 :=
  if _h : 0 < (file.take len).length then file.take len ++ catLoop len (file.drop len) else []
termination_by file.length
decreasing_by
  rw [List.length_take] at _h
  rw [List.length_drop]
  omega

/-- `cat`, whose `nwrite` and `len` are of type `int`. -/
def cat (file : List UInt8) (len : Int) : List UInt8 :=
  let copied := catLoop (CInt.unsigned len).toNat file
  copied ++ List.replicate (len - CInt.wrap copied.length).toNat 0

/-- What `offload` writes. -/
structure Blob where
  header : Header
  body : List UInt8

/-- `new` has so many bytes to give. -/
def Allocates (bytes : Nat) : Prop := bytes < 2 ^ 31

instance (bytes : Nat) : Decidable (Allocates bytes) := inferInstanceAs (Decidable (_ < _))

def offload (box : Box) : Option Blob :=
  let maxsite := nchan / 8
  if Allocates (4 * box.nsam) then
    some
      { header := offloadHeader box
        body := cat box.decims box.nsam ++
          (List.range maxsite).flatMap fun site => (List.range 8).flatMap fun ch =>
            cat (box.data (site + 1) (ch + 1)) (CInt.wrap (box.nsam * 2 : Nat)) }
  else none

/-- `fread` of `len` bytes into new memory: the memory, and what is left of the stream. -/
def fread (heap : Nat → UInt8) (len : Nat) (stream : List UInt8) : List UInt8 × List UInt8 :=
  ((List.range len).map fun i => stream.getD i (heap i), stream.drop len)

/-- `writebin`: what is stored of the data.  There is no negative number of bytes to write. -/
def writebin (data : List UInt8) (len : Int) : Option (List UInt8) :=
  if len < 0 then none else some (data.take len.toNat)

/-- The files of a client. -/
structure Stored where
  hdr : Header
  dec : List UInt8
  dat : List UInt8

def client (heap : Nat → UInt8) (blob : Blob) : Option Stored := do
  let header := blob.header
  let (decims, rest) := fread heap header.nsam.toNat blob.body
  let dec ← writebin decims header.nsam
  let len ← CInt.value (header.nchan * header.nsam)
  let (payload, _) := fread heap (2 * len).toNat rest
  let dat ← writebin payload (CInt.wrap (2 * len))
  some { hdr := header, dec := dec, dat := dat }

end MrOffload

end Acq400
