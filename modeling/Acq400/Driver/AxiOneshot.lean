/-
The one-shot transfers of the AXI DMA (`acq400_axi_oneshot.c`), and the file that hands them their
list of buffers (`acq400_axi_once_write` of `acq400_ui.c`).

What the DMA engine does is known by its cookies: one below zero says that it has not taken the
descriptor.  `blocks` is a pointer, so the bytes behind its `nb` elements can be read.  Waiting for
the end of a transfer changes nothing here, since `axidma_start_transfer` returns nothing.
-/
import Acq400.Lib.Reads
import Acq400.Lib.Sscanf
import Acq400.Stream.Buffer

namespace Acq400

/-- `rx_chan`, as the driver uses it. -/
structure RxChan where
  /-- The cookie of each descriptor, by how many there have been before. -/
  cookie : Nat → Int
  /-- The descriptors that have been prepared and submitted. -/
  submitted : Nat
  /-- The buffers of those that the engine has taken, in order. -/
  handed : List UInt8
  /-- The elements of `blocks` that have been read. -/
  read : List Nat

namespace RxChan

def maxsg : Nat := 16

/-- A channel that has not been used. -/
def idle (cookie : Nat → Int) : RxChan :=
  { cookie := cookie, submitted := 0, handed := [], read := [] }

/-- `dma_submit_error`, of the next cookie. -/
def submitError (c : RxChan) : Bool := c.cookie c.submitted < 0

/-- The descriptor for buffers `blocks[first]..` is submitted: whether the engine takes it. -/
def submit (c : RxChan) (blocks : Mem) (first nb : Nat) : Int × RxChan :=
  let read := c.read ++ List.range' first nb
  if c.submitError then (-1, { c with submitted := c.submitted + 1, read := read })
  else
    (0, { c with
      submitted := c.submitted + 1
      handed := c.handed ++ Reads.cells blocks first nb
      read := read })

/-- `_axi64_data_once`, of `blocks[0]`. -/
def axi64DataOnceSingle (c : RxChan) (blocks : Mem) : Int × RxChan := c.submit blocks 0 1

/-- `_axi64_data_once_sg`, of `blocks + ii`. -/
def axi64DataOnceSg (c : RxChan) (blocks : Mem) (ii nb : Nat) : Int × RxChan :=
  c.submit blocks ii nb

/-- The loop of `axi64_data_once` from `ii` on, for `turns` at most. -/
def sgLoop (blocks : Mem) (nb : Nat) : Nat → Nat → RxChan → RxChan
  | 0, _, c => c
  | turns + 1, ii, c =>
    if ii < nb then
      let (rc, c) := c.axi64DataOnceSg blocks ii (min nb maxsg)
      if rc ≠ 0 then c else sgLoop blocks nb turns (ii + maxsg) c
    else c

/-- `axi64_data_once`.  It returns 0, whatever the calls return. -/
def axi64DataOnce (c : RxChan) (useSgAlways : Bool) (blocks : Mem) (nb : Nat) : RxChan :=
  if nb = 1 ∧ ¬useSgAlways then (c.axi64DataOnceSingle blocks).2
  else sgLoop blocks nb nb 0 c

end RxChan

/-! ### `acq400_axi_once_write` -/

namespace AxiOnce

def aximaxline : Nat := 80

/-- What `sscanf` makes of `labuf`, number by number.  There are at most `left` of them. -/
def numbers : Nat → List Char → List Int
  | 0, _ => []
  | left + 1, ps =>
    match Sscanf.int ps with
    | some (ibuf, ps) => ibuf :: numbers left ps
    | none => []

/-- The numbers of the line that is written. -/
def scanned (buf : List Char) : List Int :=
  let labuf := (buf.take aximaxline).takeWhile (· ≠ '\x00')
  numbers labuf.length labuf

/-- `lbuf` behind the scan. -/
def stored (lbuf : Mem) (buf : List Char) : Mem := fun a =>
  match (scanned buf)[a]? with
  | some ibuf => UInt8.ofInt ibuf
  | none => lbuf a

/-- `acq400_axi_once_write`: `lbuf`, the position, and the channel. -/
def write (c : RxChan) (useSgAlways : Bool) (lbuf : Mem) (buf : List Char) :
    Mem × Nat × RxChan :=
  let lbuf := stored lbuf buf
  let ii := (scanned buf).length
  (lbuf, ii, c.axi64DataOnce useSgAlways lbuf ii)

end AxiOnce

end Acq400
