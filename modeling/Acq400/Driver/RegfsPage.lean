/-
A page of registers as a file (`regfs_drv.c`): `regfs_page_write`, `regfs_page_read`, and the
seeks of `generic_file_llseek`.

The registers of the page hold what is written to them, and are taken by bytes from `va` on: a word
goes over with its four bytes.  Copies from and to the user succeed.
-/
import Acq400.Awg.LoadPad
import Acq400.Driver.AllocHbm
import Acq400.Lib.Reads
import Acq400.Stream.Buffer

namespace Acq400

/-- An open file of a page. -/
structure RegfsPage where
  /-- The memory from `va` on. -/
  va : Mem
  fPos : Nat

namespace RegfsPage

variable (f : RegfsPage)

/-- How much a call takes that gets `count`; `none` where it returns 0 at once. -/
def clip (count : Nat) : Option Nat :=
  let bcursor := f.fPos % 2 ^ 32
  if bcursor ≥ pageSize then none
  else
    let headroom := pageSize - bcursor
    some (min count headroom / 4 * 4)

/-- The loop of `regfs_page_write`, for the words of `count` bytes. -/
def writeLoop (buf : Nat → UInt8) (count : Nat) : Mem :=
  (List.range (count / 4)).foldl
    (fun va word => memcpy va (4 * word) (fun k => buf (4 * word + k)) 4) f.va

/-- The loop of `regfs_page_read`. -/
def readLoop (count : Nat) : List UInt8 :=
  (List.range (count / 4)).flatMap fun word => Reads.cells f.va (4 * word) 4

/-- `regfs_page_write`: what it returns, and the file behind it. -/
def regfsPageWrite (buf : List UInt8) : Nat × RegfsPage :=
  match f.clip buf.length with
  | none => (0, f)
  | some count =>
    (count, { va := f.writeLoop (fun k => buf.getD k 0) count, fPos := f.fPos + count })

/-- `regfs_page_read`: what the user gets, and the file behind it. -/
def regfsPageRead (count : Nat) : List UInt8 × RegfsPage :=
  match f.clip count with
  | none => ([], f)
  | some count => (f.readLoop count, { f with fPos := f.fPos + count })

end RegfsPage

end Acq400
