/-
The server that stores one file for each event: `MultiEventServer` in `acq400_stream.cpp`.

`handle_event` waits until the post data is there: it polls the last buffer that has been
completed, and counts the buffers since the first poll.  `update_prams` scans a line of
settings into `pre` and `post`, and takes the rest of it over if it accepts the line.
What is written to the file comes behind that.  What leaves the range of `int` goes round.
-/
import Acq400.Lib.CInt
import Acq400.Lib.IndexRing
import Acq400.Lib.Reads
import Acq400.Lib.Sscanf
import Acq400.Stream.Buffer

namespace Acq400.MultiEventServer

/-! ### The wait for the post data -/

/-- `MapBuffer::reserve`: the first two buffers are not in the ring. -/
def buffer0Reserved : Nat := 2

/-- The last buffer that is completed, `k` after `hb0`. -/
def hbAfter (g : G) (hb0 k : Nat) : Nat := (IndexRing.next buffer0Reserved g.nbuffers)^[k] hb0

def deltaHb (g : G) (hb0 hb1 : Nat) : Nat :=
  if hb0 ≤ hb1 then hb1 - hb0 else g.nbuffers - hb0 + hb1

/-- `post_buffers`; `post` becomes unsigned.  A division by zero has no value. -/
def postBuffers (g : G) (post : Int) : Option Nat :=
  if g.bufferlen / g.sampleSize = 0 then none
  else some ((CInt.unsigned post).toNat / (g.bufferlen / g.sampleSize))

/-- The loop that waits, over what `get_hb_last` will return: the poll at which it ends.
`pb+1` is unsigned. -/
def waitLoop (g : G) (hb0 pb : Nat) : List Nat → Option Nat
  | [] => none
  | hbLast :: polls =>
    if deltaHb g hb0 hbLast < (pb + 1) % 2 ^ 32 then (waitLoop g hb0 pb polls).map (· + 1)
    else some 0

/-- The wait of `handle_event`. -/
def waitPost (g : G) (post : Int) (hb0 : Nat) (polls : List Nat) : Option Nat :=
  (postBuffers g post).bind fun pb => waitLoop g hb0 pb polls

end MultiEventServer

/-! ### The settings -/

/-- The settings of a `MultiEventServer`, and the numbers that they are checked with. -/
structure MultiEventServer where
  pre : Int
  post : Int
  maxfiles : Int
  preBytes : Int
  postBytes : Int
  updateNumber : Int
  maxfilesLimit : Int
  evCount : Int
deriving DecidableEq, Repr

namespace MultiEventServer

/-- The fields that `"%d,%d,%d,%d"` matches, `n` of them at most. -/
def scanFields : Nat → List Char → List Int
  | 0, _ => []
  | n + 1, str =>
    match Sscanf.cint str with
    | none => []
    | some (x, ',' :: rest) => x :: scanFields n rest
    | some (x, _) => [x]

def multiEventEquals : List Char := ['M', 'U', 'L', 'T', 'I', '_', 'E', 'V', 'E', 'N', 'T', '=']

/-- The line behind its prefix, if it has one. -/
def settings (line : List Char) : List Char :=
  if line.take multiEventEquals.length = multiEventEquals then line.drop multiEventEquals.length
  else line

/-- What is scanned from the line. -/
def fields (line : List Char) : List Int := scanFields 4 (settings line)

def setMaxfiles (s : MultiEventServer) (maxfiles : Int) : MultiEventServer :=
  { s with maxfiles := if s.maxfilesLimit < maxfiles then s.maxfilesLimit else maxfiles }

/-- `sscanf` into `pre` and `post`. -/
def scanPrams (s : MultiEventServer) (line : List Char) : MultiEventServer :=
  { s with
    pre := (fields line)[0]?.getD s.pre
    post := (fields line)[1]?.getD s.post }

/-- `nf == 3 || (nf == 4 && _update_number > update_number)`. -/
def accepts (s : MultiEventServer) (line : List Char) : Bool :=
  match fields line with
  | [_, _, _] => true
  | [_, _, _, updateNumber] => decide (s.updateNumber < updateNumber)
  | _ => false

/-- What is done with the third field, and with the fourth where there is one. -/
def takeMaxfiles (s : MultiEventServer) (line : List Char) : MultiEventServer :=
  let maxfiles := (fields line)[2]?.getD 0
  let s := if maxfiles = 0 then s.setMaxfiles 0 else s
  match (fields line)[3]? with
  | some updateNumber =>
    let s := { s with updateNumber := updateNumber }
    if maxfiles ≠ 0 then s.setMaxfiles (CInt.wrap (maxfiles + s.evCount)) else s
  | none => if s.maxfiles ≠ 0 then s.setMaxfiles (CInt.wrap (maxfiles + s.evCount)) else s

/-- `update_prams(const char*)`; the products are unsigned. -/
def updatePrams (sampleSize : Nat) (s : MultiEventServer) (line : List Char) :
    MultiEventServer :=
  let scanned := s.scanPrams line
  if s.accepts line then
    let s := scanned.takeMaxfiles line
    { s with
      preBytes := CInt.wrap (s.pre * sampleSize)
      postBytes := CInt.wrap ((s.post + 1) * sampleSize) }
  else scanned

/-- A turn of `serve`: the settings are read, if there are any, and an event is counted. -/
def serve (sampleSize : Nat) (s : MultiEventServer) (line : Option (List Char)) :
    Option MultiEventServer :=
  let s := match line with
    | some line => s.updatePrams sampleSize line
    | none => s
  some { s with evCount := CInt.wrap (s.evCount + 1) }

/-- What the constructor sets itself; the rest is whatever was in memory. -/
def start (memory : MultiEventServer) : MultiEventServer :=
  { memory with updateNumber := 0, evCount := 0 }

/-- The constructor. -/
def create (sampleSize : Nat) (memory : MultiEventServer) (line : List Char) :
    MultiEventServer :=
  memory.start.updatePrams sampleSize line

end MultiEventServer

end Acq400

/-! ### The file of an event

What the server of events writes to the file of an event: the writes of
`MultiEventServer::handle_event` (`acq400_stream.cpp`).

An address is a number, and a write is where it reads and how many bytes, in the order of the
writes.  The name of the file is left out, and so is the wait, which is between the two parts.
-/

namespace Acq400.MultiEventServer

/-- An `fwrite` of bytes. -/
structure Fwrite where
  ptr : Int
  n : Nat
deriving DecidableEq, Repr

/-- `fwrite(ptr, 1, n, fp)`; `n` becomes a `size_t`, of 32 bits. -/
def fwrite (ptr n : Int) : Fwrite := { ptr := ptr, n := (CInt.unsigned n).toNat }

/-- The bytes that come to the file. -/
def Fwrite.bytes (m : Mem) (w : Fwrite) : List UInt8 :=
  Reads.cells (fun k => m (w.ptr + k).toNat) 0 w.n

variable (s : MultiEventServer) (b0 b1 esp : Int)

/-- `freebytes < pre_bytes+post_bytes`. -/
def lowMemory (freebytes : Int) : Bool := freebytes < CInt.wrap (s.preBytes + s.postBytes)

/-- The part before the event. -/
def writePre : List Fwrite :=
  let linearPre := CInt.wrap (esp - b0)
  if s.preBytes > linearPre then
    [fwrite (b1 - (s.preBytes - linearPre)) (s.preBytes - linearPre),
      fwrite (esp - linearPre) linearPre]
  else [fwrite (esp - s.preBytes) s.preBytes]

/-- The event and the part behind it. -/
def writePost (sampleSize : Nat) (suppressEvent : Int) : List Fwrite :=
  let linearPost := CInt.wrap (b1 - esp)
  let ss := CInt.wrap (sampleSize * suppressEvent)
  if s.postBytes > linearPost then
    [fwrite (esp + ss) (linearPost - ss), fwrite b0 (s.postBytes - linearPost)]
  else [fwrite (esp + ss) (s.postBytes - ss)]

/-- `handle_event`, up to `fclose`. -/
def handleEvent (sampleSize : Nat) (suppressEvent freebytes : Int) : List Fwrite :=
  if s.lowMemory freebytes then [fwrite esp sampleSize]
  else s.writePre b0 b1 esp ++ s.writePost b0 b1 esp sampleSize suppressEvent

end Acq400.MultiEventServer
