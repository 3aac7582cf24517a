/-
The control file of a capture (`acq400_fs.c`): what the client writes to it is `CAPDAT`,
and what it reads is `CAPDAT` as text.

A line is an array on the stack.  What is in it before is whatever it is, and so is what
lies behind it: `stack` is both.
-/
import Acq400.Lib.Sscanf
import Mathlib.Logic.Function.Basic

namespace Acq400

structure CaptureData where
  isCooked : Int
  nsamples : Int
  nchan : Int
  typ : List Char
  deriving DecidableEq

namespace CaptureData

/-- `CAPDAT` before it has been written. -/
def init : CaptureData := { isCooked := 0, nsamples := 0, nchan := 0, typ := [] }

def lineSize : Nat := 80

def eInval : Int := 22

/-- The line that `snprintf` makes. -/
def line (cap : CaptureData) : List Char :=
  "COOKED=".toList ++ Sscanf.decimalText cap.isCooked ++
    " NSAMPLES=".toList ++ Sscanf.decimalText cap.nsamples ++
    " NCHAN=".toList ++ Sscanf.decimalText cap.nchan ++
    " TYPE=".toList ++ cap.typ ++ ['\n']

/-- `tmp` after `snprintf`. -/
def printed (cap : CaptureData) (stack : Nat → Char) : Nat → Char := fun i =>
  match (cap.line.take (lineSize - 1))[i]? with
  | some c => c
  | none => if i = min cap.line.length (lineSize - 1) then '\x00' else stack i

/-- `a400fs_ctrl_read_file`: what it copies to the client, and the offset after it. -/
def ctrlReadFile (cap : CaptureData) (stack : Nat → Char) (offset count : Nat) :
    List Char × Nat :=
  let len := cap.line.length
  if offset > len then ([], offset)
  else
    let count := if count > len - offset then len - offset else count
    ((List.range' offset count).map (cap.printed stack), offset + count)

/-- The numbers of the line, and what is left of it behind `TYPE=`. -/
def scanNumbers (str : List Char) : Option ((Int × Int × Int) × List Char) :=
  (Sscanf.lit "COOKED=".toList str).bind fun str =>
  (Sscanf.int str).bind fun (isCooked, str) =>
  (Sscanf.lit "NSAMPLES=".toList (Sscanf.spaces str)).bind fun str =>
  (Sscanf.int str).bind fun (nsamples, str) =>
  (Sscanf.lit "NCHAN=".toList (Sscanf.spaces str)).bind fun str =>
  (Sscanf.int str).bind fun (nchan, str) =>
  (Sscanf.lit "TYPE=".toList (Sscanf.spaces str)).map fun str => ((isCooked, nsamples, nchan), str)

/-- `sscanf` of the line, where it finds all four. -/
def scan (str : List Char) : Option CaptureData :=
  (scanNumbers str).bind fun ((isCooked, nsamples, nchan), str) =>
  (Sscanf.word 7 str).map fun (typ, _) =>
    { isCooked := isCooked, nsamples := nsamples, nchan := nchan, typ := typ }

/-- What a write does: the elements of `tmp` that it stores, what it returns, and `CAPDAT`. -/
structure CtrlWrite where
  stores : List Nat
  rc : Int
  capdat : CaptureData

/-- `count`, cut to the line. -/
def clipLine (count : Nat) : Nat := if count > lineSize - 1 then lineSize - 2 else count

/-- `tmp` as it is scanned: the client's bytes, one element that is not stored, and the
terminator. -/
def tmpLine (stack : Nat → Char) (buf : List Char) : Nat → Char :=
  let count := clipLine buf.length
  Function.update (fun i => if i < count then buf.getD i '\x00' else stack i) (count + 1) '\x00'

/-- The string that `tmp` is. -/
def tmpString (stack : Nat → Char) (buf : List Char) : List Char :=
  ((List.range (clipLine buf.length + 1)).map (tmpLine stack buf)).takeWhile (· ≠ '\x00')

/-- `a400fs_ctrl_write_file`. -/
def ctrlWriteFile (cap : CaptureData) (stack : Nat → Char) (buf : List Char) : CtrlWrite :=
  let count := clipLine buf.length
  let stores := List.range count ++ [count + 1]
  match scan (tmpString stack buf) with
  | some capdat => { stores := stores, rc := count, capdat := capdat }
  | none => { stores := stores, rc := -eInval, capdat := cap }

/-- A sequence of writes, each with what is on the stack. -/
def writes : CaptureData → List ((Nat → Char) × List Char) → CaptureData
  | cap, [] => cap
  | cap, (stack, buf) :: rest => writes (ctrlWriteFile cap stack buf).capdat rest

end CaptureData

end Acq400
