/-
The digital AWG (`dawg.cpp`): `Sequence::build` and `Sequence::run`, and the entries that they
make and execute.

An entry is made once and is known by its serial number, as the code knows it by its address.  The
list that is executed has the entries of the file between two that open all switches.  An iterator
is what is left of the list from there on.  What is stored outside an array, or counted past the
end of `int`, has no value.

What an execution comes to is the states that it sets and the times that it sleeps.
-/
import Acq400.Lib.CText
import Mathlib.Data.List.DropRight

namespace Acq400

inductive StateMode
  | untilState | stateWhile
deriving DecidableEq, Repr

structure DawgEntry where
  serial : Nat
  abstime : BitVec 32
  ch01 : BitVec 32
  ch02 : BitVec 32
deriving DecidableEq, Repr

/-- `chomp`, which keeps the first character. -/
def chomp : List Char → List Char
  | [] => []
  | c :: src => c :: src.rdropWhile fun d => d = '\n' || d = '\r'

/-- Whether a text has `0x` in it. -/
def hasHex : List Char → Bool
  | c :: text => (c = '0' && text.head? = some 'x') || hasHex text
  | [] => false

/-- `_strtoul`. -/
def strtoulHexBin (nums : List Char) : BitVec 32 :=
  if hasHex nums then CText.strtoul nums 0 else CText.strtoul nums 2

namespace DawgEntry

/-- `DawgEntry::create` of a line, with the `_abstime` of the last one. -/
def create (mode : StateMode) (text : List Char) (abstime : BitVec 32) (serial : Nat)
    (prev : Option DawgEntry) : Option DawgEntry := do
  let (f1, rest) ← CText.word 79 text
  let (f2, rest) ← CText.word 79 rest
  let (f3, _) ← CText.word 79 rest
  let tdef := if mode = .untilState then f1 else f3
  let abstime :=
    if tdef.head? = some '+' then abstime + BitVec.ofInt 32 (CText.atoi tdef)
    else BitVec.ofInt 32 (CText.atoi tdef)
  let ch01 := if mode = .untilState then f2 else f1
  let ch02 := if mode = .untilState then f3 else f2
  let early :=
    match prev with
    | none => decide (abstime ≠ 0)
    | some prev => decide (abstime < prev.abstime)
  if early then none
  else some { serial, abstime, ch01 := strtoulHexBin ch01, ch02 := strtoulHexBin ch02 }

/-- `DawgEntry::create` of another entry. -/
def createClone (clone : DawgEntry) (serial : Nat) : DawgEntry := { clone with serial }

/-- `DawgEntry::createAllOpen`, and the next serial number.  The first one has another in front of
it, which is never executed. -/
def createAllOpen (serial : Nat) (prev : Option DawgEntry) : DawgEntry × Nat :=
  let serial := if prev = none then serial + 1 else serial
  ({ serial, abstime := 0, ch01 := 0, ch02 := 0 }, serial + 1)

end DawgEntry

/-! ### `Sequence::build` -/

/-- What `Sequence::build` has of a file; `abstime` is the static of `DawgEntry::create`. -/
structure Build where
  lastSerial : Nat
  abstime : BitVec 32
  mode : StateMode
  executor : StateMode
  instructions : List DawgEntry
  prev : DawgEntry
  /-- `first_entry_def` and `*loop_first`. -/
  first : Option (List Char × DawgEntry)
deriving DecidableEq, Repr

structure Sequence where
  instructions : List DawgEntry
  /-- The serial number of the entry. -/
  lastInLoop : Nat
  loopFirst2 : DawgEntry
  executor : StateMode
deriving DecidableEq, Repr

namespace Build

def start : Build :=
  let (allOpen, lastSerial) := DawgEntry.createAllOpen 0 none
  { lastSerial, abstime := 0, mode := .untilState, executor := .untilState,
    instructions := [allOpen], prev := allOpen, first := none }

/-- A line of the file; `exit(1)` has no value. -/
def line (b : Build) (seqLine : List Char) : Option Build :=
  if seqLine.length < 3 then some b
  else if seqLine.head? = some '#' then some b
  else
    match (Sscanf.lit "style=".toList seqLine).bind (CText.word 79) with
    | some (style, _) =>
      if style = "STATE_WHILE".toList then
        some { b with mode := .stateWhile, executor := .stateWhile }
      else if style = "UNTIL_STATE".toList then
        some { b with mode := .untilState, executor := .untilState }
      else none
    | none =>
      match DawgEntry.create b.mode (chomp seqLine) b.abstime b.lastSerial (some b.prev) with
      | none => none
      | some now =>
        some { b with
          lastSerial := b.lastSerial + 1
          abstime := now.abstime
          instructions := b.instructions ++ [now]
          prev := now
          first := if b.first = none then some (chomp seqLine, now) else b.first }

def lines : List (List Char) → Build → Option Build
  | [], b => some b
  | seqLine :: rest, b => (b.line seqLine).bind (lines rest)

/-- The size of `seq_line`. -/
def lineSize : Nat := 256

/-- What is behind the loop. -/
def finish (b : Build) : Option Sequence :=
  match b.first with
  | none => none
  | some (firstEntryDef, loopFirst) =>
    -- `strcat` goes to the line of the first entry
    if lineSize < (firstEntryDef ++ " loop_first2".toList).length + 1 then none
    else
      some
        { instructions := b.instructions ++
            [(DawgEntry.createAllOpen (b.lastSerial + 1) (some b.prev)).1]
          lastInLoop := b.prev.serial
          loopFirst2 := loopFirst.createClone b.lastSerial
          executor := b.executor }

end Build

/-- The loop of `Sequence::build`. -/
def Sequence.scan (file : List Char) : Option Build :=
  Build.start.lines ((CText.lines 254 file).map CText.str)

def Sequence.build (file : List Char) : Option Sequence := (scan file).bind Build.finish

/-! ### `Sequence::run` -/

structure Timespec where
  tvSec : Nat
  tvNsec : Nat
deriving DecidableEq, Repr

/-- What the time of `nanosleep` is. -/
def waitUntil (deadline deadline0 : BitVec 32) : Timespec :=
  let ddt := if deadline > deadline0 then deadline - deadline0 else deadline
  let tvSec := if ddt ≥ 1000 then ddt / 1000 else 0
  let ddt := ddt - 1000 * tvSec
  { tvSec := tvSec.toNat, tvNsec := (ddt * 1000000).toNat }

inductive DawgEvent
  | slept (ts : Timespec)
  | state (ch01 ch02 : BitVec 32)
deriving DecidableEq, Repr

/-- What is executed: the events, what is left of the list, and `deadline0`. -/
structure Executed where
  events : List DawgEvent
  it : List DawgEntry
  deadline0 : BitVec 32
deriving DecidableEq, Repr

/-- What `Sequence::run` does: the first entry, the turns of the loop, and what is left. -/
structure Ran where
  first : List DawgEvent
  turns : List (List DawgEvent)
  last : List DawgEvent
deriving DecidableEq, Repr

namespace Sequence

variable (seq : Sequence) (timescaler : Nat)

def exec (entry : DawgEntry) (deadline0 : BitVec 32) : List DawgEvent × BitVec 32 :=
  let deadline := entry.abstime * BitVec.ofNat 32 timescaler
  let slept := DawgEvent.slept (waitUntil deadline deadline0)
  let state := DawgEvent.state entry.ch01 entry.ch02
  (if seq.executor = .untilState then [slept, state] else [state, slept], deadline)

/-- A turn of the loop, from `it` on. -/
def turn : List DawgEntry → BitVec 32 → Executed
  | [], deadline0 => { events := [], it := [], deadline0 }
  | entry :: it, deadline0 =>
    let done := exec seq timescaler entry deadline0
    if entry.serial = seq.lastInLoop then { events := done.1, it, deadline0 := done.2 }
    else { turn it done.2 with events := done.1 ++ (turn it done.2).events }

/-- As many turns of the loop, from `start` on, with `it` behind the last one. -/
def turns : Nat → List DawgEntry → List DawgEntry → BitVec 32 →
    List (List DawgEvent) × List DawgEntry × BitVec 32
  | 0, _, it, deadline0 => ([], it, deadline0)
  | count + 1, start, _, deadline0 =>
    let done := turn seq timescaler start deadline0
    let rest := turns count (seq.loopFirst2 :: start.tail) done.it done.deadline0
    (done.events :: rest.1, rest.2)

/-- The loop behind. -/
def finishUp : List DawgEntry → BitVec 32 → List DawgEvent
  | [], _ => []
  | entry :: it, deadline0 =>
    let done := exec seq timescaler entry deadline0
    done.1 ++ finishUp it done.2

/-- `Sequence::run`, with a `repeat_count` that is not negative. -/
def run (repeatCount : Nat) : Option Ran :=
  -- the turn is counted before it is compared
  if 2147483647 ≤ repeatCount then none
  else
    match seq.instructions with
    | [] => none
    | entry :: start =>
      let done := turns seq timescaler repeatCount start start 0
      some
        { first := [.state entry.ch01 entry.ch02]
          turns := done.1
          last := finishUp seq timescaler done.2.1 done.2.2 }

end Sequence

end Acq400
