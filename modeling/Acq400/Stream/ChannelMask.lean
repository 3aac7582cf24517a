/-
Channel masks (`ChannelMask.cpp`): the spellings that `ChannelMask::factory` takes, and the three
functions that describe a mask; and `StreamHeadClient::getStartLen` (`acq400_stream.cpp`).

An assertion that fails, and an exception that `std::bitset` throws, are `none`.  `max_chan` is
an argument here, and so is `is_always_a_bitset`.
-/
import Acq400.Stream.MultiEvent

namespace Acq400

open Sscanf

def maxbit : Nat := 256

structure ChannelMask where
  /-- The `std::bitset`: no bit is set from `MAXBIT` on. -/
  bits : Nat → Bool
  start : Int
  length : Int
  isBitset : Bool

namespace ChannelMask

/-! ### Strings -/

/-- The loop of `is_number_comma_string`: what it has counted at the end of the string. -/
def numberCommaLoop : Bool → Nat → List Char → Option Nat
  | _, count, [] => some count
  | true, count, c :: input =>
    if c = ',' then numberCommaLoop false count input
    else if c.isDigit then numberCommaLoop true count input
    else none
  | false, count, c :: input =>
    if c.isDigit then numberCommaLoop true (count + 1) input else none

/-- `is_number_comma_string`, with `count` where it returns true. -/
def isNumberCommaString (input : List Char) : Option Nat :=
  if input = [] then none else numberCommaLoop false 0 input

/-- The numbers that `intListToBitset` reads of digits and commas, `left` at most.  One that is
no `int` is not read, and none behind it. -/
def numbers : Nat → List Char → List Nat
  | 0, _ => []
  | left + 1, input =>
    let digits := input.takeWhile Char.isDigit
    if digits = [] ∨ 2147483647 < decimal digits then []
    else decimal digits :: numbers left ((input.dropWhile Char.isDigit).drop 1)

def intListToBitset (input : List Char) : Nat → Bool := fun ii =>
  ii < maxbit && (numbers input.length input).contains (ii + 1)

def hexCharToBin (c : Char) : List Char :=
  match c.toUpper with
  | '0' => ['0', '0', '0', '0']
  | '1' => ['0', '0', '0', '1']
  | '2' => ['0', '0', '1', '0']
  | '3' => ['0', '0', '1', '1']
  | '4' => ['0', '1', '0', '0']
  | '5' => ['0', '1', '0', '1']
  | '6' => ['0', '1', '1', '0']
  | '7' => ['0', '1', '1', '1']
  | '8' => ['1', '0', '0', '0']
  | '9' => ['1', '0', '0', '1']
  | 'A' => ['1', '0', '1', '0']
  | 'B' => ['1', '0', '1', '1']
  | 'C' => ['1', '1', '0', '0']
  | 'D' => ['1', '1', '0', '1']
  | 'E' => ['1', '1', '1', '0']
  | 'F' => ['1', '1', '1', '1']
  | _ => ['E', 'R', 'R', 'O', 'R']

def hexStrToBin (hs : List Char) : List Char := hs.flatMap hexCharToBin

/-- `std::bitset(std::string)`: the last character is bit 0. -/
def bitset (def_ : List Char) : Option (Nat → Bool) :=
  if def_.all fun c => c = '0' || c = '1' then
    some fun ii => (def_.take maxbit).reverse[ii]? = some '1'
  else none

/-! ### Masks -/

/-- `ChannelMask(int, int)`. -/
def ofRange (maxChan : Nat) (isAlwaysABitset : Bool) (start length : Int) : ChannelMask :=
  if isAlwaysABitset then
    { bits := fun ii => ii < maxChan && start ≤ ii && ii ≤ start + length
      start := start
      length := length
      isBitset := true }
  else { bits := fun _ => false, start := start, length := length, isBitset := false }

/-- `ChannelMask(ChannelMask_t)` and `ChannelMask(std::string)`. -/
def ofBits (bits : Nat → Bool) : ChannelMask :=
  { bits := bits, start := 0, length := 0, isBitset := true }

def getChannelcount (cm : ChannelMask) : Int :=
  if cm.isBitset then ((List.range 256).countP cm.bits : Nat) else cm.length

def getTopchan (cm : ChannelMask) : Int :=
  if cm.isBitset then
    ((List.range 256).foldl (fun topchan ii => if cm.bits ii then ii else topchan) 0 : Nat)
  else cm.start + cm.length

def getFirstchan (cm : ChannelMask) : Int :=
  if cm.isBitset then (((List.range 256).find? cm.bits).getD 0 : Nat) else cm.start

/-- The start and the length that `factory` takes of a string of numbers; `none` is an assertion
that fails. -/
def rangeOf (maxChan count : Nat) (def_ : List Char) : Option (Int × Int) :=
  match count, MultiEventServer.scanFields 2 def_ with
  | 2, [start, length] => some (start, length)
  | 2, _ => none
  | 1, length :: _ => some (0, length)
  | 1, _ => none
  | _, _ => some (0, maxChan)

def factory (maxChan : Nat) (isAlwaysABitset : Bool) (def_ : List Char) : Option ChannelMask :=
  match isNumberCommaString def_ with
  | some count =>
    if 2 < count then some (ofBits (intListToBitset def_))
    else
      (rangeOf maxChan count def_).bind fun (start, length) =>
        if 1 ≤ maxChan ∧ length - start ≤ maxChan then
          some (ofRange maxChan isAlwaysABitset start length)
        else none
  | none =>
    if def_.take 2 = ['0', 'x'] then (bitset (hexStrToBin (def_.drop 2))).map ofBits
    else if def_.take 2 = ['0', 'b'] then (bitset (def_.drop 2)).map ofBits
    else if def_.take 2 = ['C', 'H'] ∧ (isNumberCommaString (def_.drop 2)).isSome then
      some (ofBits (intListToBitset (def_.drop 2)))
    else some (ofRange maxChan isAlwaysABitset 0 maxChan)

end ChannelMask

/-- `StreamHeadClient::getStartLen`: `start` and `len`. -/
def getStartLen (nchan : Nat) (def_ : List Char) : Int × Int :=
  match MultiEventServer.scanFields 2 def_ with
  | [start, len] => (if start ≥ 1 then start - 1 else 0, len)
  | [len] => (0, len)
  | _ => (0, nchan)

end Acq400
