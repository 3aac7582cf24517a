/-
The table of segments that the user writes to `/proc/driver/acq400/*/SEGMENTS`
(`acq400_xilinx_axidma.c`).

A line is a number of blocks to store or to dump, or says to repeat lines before
it.  `parse_user_segments` fills in the table as it goes and sets the length of it
last, so a text that it rejects can still have changed the entries.

A loop that begins before the table reads what is not part of it: `none`.
-/
import Acq400.Lib.Sscanf
import Mathlib.Logic.Function.Basic

namespace Acq400

inductive SegmentMode where
  | dump
  | store
deriving DecidableEq, Repr

/-- `Segment`, as the driver has it. -/
structure AxiSegment where
  mode : SegmentMode
  /-- An `unsigned short`. -/
  nblocks : Nat
deriving DecidableEq, Repr

/-- `MAX_SEGMENTS`: what is left of the 4096 bytes after the pool's own 52. -/
def maxSegments : Nat := (4096 - 52) / 8

def segdefLen : Nat := 5

def einval : Int := 22
def efbig : Int := 27
def enospc : Int := 28

/-- The segments of the pool, and how many of them are in use. -/
structure SegmentTable where
  segments : Nat → AxiSegment
  segmentCursor : Nat

namespace SegmentTable

/-- The segments in use. -/
def table (s : SegmentTable) : List AxiSegment := (List.range s.segmentCursor).map s.segments

/-- The blocks that the table asks for, one by one. -/
def blocks (s : SegmentTable) : List SegmentMode :=
  s.table.flatMap fun segment => List.replicate segment.nblocks segment.mode

/-- The inner loop of `addLoop`, with `left` segments to go; `true` if there is no space. -/
def addLoopPass (iseg : Nat) :
    Nat → (Nat → AxiSegment) → Nat → Bool × (Nat → AxiSegment) × Nat
  | 0, segments, seg => (false, segments, seg)
  | left + 1, segments, seg =>
    if maxSegments ≤ seg then (true, segments, seg)
    else
      let loopCursor := iseg - (left + 1)
      addLoopPass iseg left (Function.update segments seg (segments loopCursor)) (seg + 1)

/-- The outer loop of `addLoop`. -/
def addLoopPasses (iseg loopstart : Nat) :
    Nat → (Nat → AxiSegment) → Nat → (Nat → AxiSegment) × Nat
  | 0, segments, seg => (segments, seg)
  | iloop + 1, segments, seg =>
    match addLoopPass iseg (iseg - loopstart) segments seg with
    | (true, done) => done
    | (false, segments, seg) => addLoopPasses iseg loopstart iloop segments seg

def addLoop (segments : Nat → AxiSegment) (iseg : Nat) (loopstart loopcount : Int) :
    Option ((Nat → AxiSegment) × Nat) :=
  if loopstart < 0 ∧ 0 < loopcount ∧ iseg < maxSegments then none
  else some (addLoopPasses iseg loopstart.toNat loopcount.toNat segments iseg)

/-- `sscanf(cursor, "loop to=%d count=%d", ..) == 2`. -/
def sscanfLoop (line : List Char) : Option (Int × Int) := do
  let line ← Sscanf.lit ['l', 'o', 'o', 'p'] line
  let line ← Sscanf.lit ['t', 'o', '='] (Sscanf.spaces line)
  let (loopstart, line) ← Sscanf.int line
  let line ← Sscanf.lit ['c', 'o', 'u', 'n', 't', '='] (Sscanf.spaces line)
  let (loopcount, _) ← Sscanf.int line
  return (loopstart, loopcount)

/-- `sscanf(cursor, "%c%d", ..) == 2`. -/
def sscanfSegment (line : List Char) : Option (Char × Int) := do
  let (skipOrStore, line) ← Sscanf.char line
  let (blocks, _) ← Sscanf.int line
  return (skipOrStore, blocks)

/-- The loop of `parse_user_segments`: the negative of an error, or how many segments. -/
def parseLines : List (List Char) → (Nat → AxiSegment) → Nat →
    Option ((Nat → AxiSegment) × Except Int Nat)
  | [], segments, iseg => some (segments, .ok iseg)
  | line :: rest, segments, iseg =>
    if line = [] ∨ line.head? = some '#' then parseLines rest segments iseg
    else
      match sscanfLoop line with
      | some (loopstart, loopcount) =>
        if (iseg : Int) ≤ loopstart then some (segments, .error einval)
        else
          match addLoop segments iseg loopstart loopcount with
          | some (segments, iseg) => parseLines rest segments iseg
          | none => none
      | none =>
        match sscanfSegment line with
        | some (skipOrStore, blocks) =>
          if iseg < maxSegments then
            let nblocks := (blocks % 65536).toNat
            match skipOrStore with
            | '+' => parseLines rest (Function.update segments iseg ⟨.store, nblocks⟩) (iseg + 1)
            | '-' => parseLines rest (Function.update segments iseg ⟨.dump, nblocks⟩) (iseg + 1)
            | _ => some (segments, .error einval)
          else some (segments, .error enospc)
        | none => some (segments, .error einval)

/-- The lines of the text: each ends at a newline or a NUL. -/
def lines (ubuf : List Char) : List (List Char) := ubuf.splitOnP fun c => c = '\n' || c = '\x00'

/-- `parse_user_segments`, and what it returns. -/
def parseUserSegments (s : SegmentTable) (ubuf : List Char) : Option (SegmentTable × Int) := do
  let (segments, parsed) ← parseLines (lines ubuf) s.segments 0
  match parsed with
  | .ok iseg => return ({ segments, segmentCursor := iseg }, ubuf.length)
  | .error e => return ({ s with segments }, -e)

/-- `acq400_proc_segments_write`. -/
def procSegmentsWrite (s : SegmentTable) (buffer : List Char) : Option (SegmentTable × Int) :=
  if maxSegments * segdefLen < buffer.length then some (s, -efbig)
  else s.parseUserSegments buffer

end SegmentTable

end Acq400

/-! ### What is read and written

Which segments `parse_user_segments` and `addLoop` read and write
(`acq400_xilinx_axidma.c`), by their indices and in order.

What a segment holds decides nothing here, so that the indices are known even where what
is read at them is not.  The text is gone through with `fuel`: `none` is a loop that has not
ended.
-/

namespace Acq400.SegmentTable

/-- The inner loop of `addLoop`, with `left` to go: whether it returns, what it comes to, and
`seg`. -/
def passAccesses (iseg : Nat) : Nat → Nat → Bool × List Int × Nat
  | 0, seg => (false, [], seg)
  | left + 1, seg =>
    if maxSegments ≤ seg then (true, [], seg)
    else
      let loopCursor := (iseg : Int) - (left + 1 : Nat)
      let (full, accesses, seg') := passAccesses iseg left (seg + 1)
      (full, loopCursor :: (seg : Int) :: accesses, seg')

/-- The outer loop, with `iloop` passes to go. -/
def passesAccesses (iseg : Nat) (loopstart : Int) : Nat → Nat → List Int × Nat
  | 0, seg => ([], seg)
  | iloop + 1, seg =>
    match passAccesses iseg (iseg - loopstart).toNat seg with
    | (true, accesses, seg) => (accesses, seg)
    | (false, accesses, seg) =>
      let (more, seg) := passesAccesses iseg loopstart iloop seg
      (accesses ++ more, seg)

/-- `addLoop`, and what it returns. -/
def addLoopAccesses (iseg : Nat) (loopstart loopcount : Int) : List Int × Nat :=
  passesAccesses iseg loopstart loopcount.toNat iseg

/-- A turn of `parse_user_segments`, and `iseg` behind it; `none` where an error is returned.
A segment is written in two stores. -/
def lineAccesses (line : List Char) (iseg : Nat) : List Int × Option Nat :=
  if line = [] ∨ line.head? = some '#' then ([], some iseg)
  else
    match sscanfLoop line with
    | some (loopstart, loopcount) =>
      if (iseg : Int) ≤ loopstart then ([], none)
      else
        let (accesses, seg) := addLoopAccesses iseg loopstart loopcount
        (accesses, some seg)
    | none =>
      match sscanfSegment line with
      | some (skipOrStore, _) =>
        if iseg < maxSegments then
          match skipOrStore with
          | '+' => ([(iseg : Int), (iseg : Int)], some (iseg + 1))
          | '-' => ([(iseg : Int), (iseg : Int)], some (iseg + 1))
          | _ => ([], none)
        else ([], none)
      | none => ([], none)

/-- Where no line ends. -/
def inLine (c : Char) : Bool := !(c = '\n' || c = '\x00')

/-- The loop of `parse_user_segments`, over what there is of the text from `cursor` on. -/
def textAccesses : Nat → List Char → Nat → Option (List Int)
  | 0, _, _ => none
  | fuel + 1, cursor, iseg =>
    if cursor = [] then some []
    else
      match lineAccesses (cursor.takeWhile inLine) iseg with
      | (accesses, none) => some accesses
      | (accesses, some iseg) =>
        (textAccesses fuel ((cursor.dropWhile inLine).drop 1) iseg).map (accesses ++ ·)

end Acq400.SegmentTable
