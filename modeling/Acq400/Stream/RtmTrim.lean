/-
Repeating transients cut to their length: `acq435_rtm_trim.cpp`.

`Decoder` goes from one event signature to the next and hands `ntransient` samples behind each to
`onData`, which is virtual: it is a parameter here, with the state of the class that overrides it.
`fread` gives whole samples, of `nchan` words, until there is none left.
-/
import Mathlib.Data.BitVec

namespace Acq400

namespace RtmTrim

abbrev Sample (nchan : Nat) := Vector (BitVec 32) nchan

variable {nchan : Nat}

def magic (data : BitVec 32) : Bool := data &&& 0xfffff000 == 0xaa55f000

/-- `is_es`, for which there have to be four words. -/
def isEs (data : Sample nchan) : Bool :=
  [0, 1, 2, 3].all fun ii => data[ii]?.any magic

/-- A `Decoder`, with the members of the class that is derived from it. -/
structure Decoder (σ : Type) where
  itran : Nat
  waitingEs : Bool
  own : σ

/-- `onData`: its result, what becomes of the data, and of the members. -/
abbrev OnData (nchan : Nat) (σ : Type) := Nat → σ → Sample nchan → Bool × Sample nchan × σ

variable {σ : Type} (onData : OnData nchan σ) (ntransient : Nat)

/-- The call of a decoder: the data, where it is an output, and the decoder behind it. -/
def Decoder.call (d : Decoder σ) (data : Sample nchan) : Option (Sample nchan) × Decoder σ :=
  if d.waitingEs then
    if isEs data then (none, { d with waitingEs := false, itran := 0 }) else (none, d)
  else if isEs data then (none, { d with itran := 0 })
  else if d.itran < ntransient then
    let r := onData (d.itran + 1) d.own data
    (if r.1 then some r.2.1 else none, { d with itran := d.itran + 1, own := r.2.2 })
  else (none, { d with itran := d.itran + 1, waitingEs := true })

/-- The loop of `main`: what is written of the samples that are read. -/
def loop (d : Decoder σ) : List (Sample nchan) → List (Sample nchan)
  | [] => []
  | data :: rest =>
    let r := d.call onData ntransient data
    r.1.toList ++ loop r.2 rest

/-- `Decoder`, with `own` as it is constructed. -/
def Decoder.init (own : σ) : Decoder σ := { itran := 0, waitingEs := true, own := own }

/-! ### The classes -/

/-- `Decoder::onData`. -/
def passThru : OnData nchan Unit := fun _ own data => (true, data, own)

/-- The loop of `SummingDecoder`. -/
def ntbitsLoop (ntransient : Nat) : Nat → Nat
  | 0 => 0
  | ntbits + 1 =>
    if ntransient < 2 ^ (ntbits + 1) then ntbitsLoop ntransient ntbits else ntbits + 1

def ntbits (ntransient : Nat) : Nat := ntbitsLoop ntransient 8

/-- `SummingDecoder::onData`; its members are the sums. -/
def summing (ntransient : Nat) : OnData nchan (Vector (BitVec 32) nchan) := fun itran sums data =>
  let cleared := if itran = 1 then Vector.replicate nchan 0 else sums
  let sums := Vector.zipWith (fun (sum d : BitVec 32) => sum + d >>> 8) cleared data
  if itran = ntransient then
    let shl := 8 - ntbits ntransient
    (true, Vector.zipWith (fun (sum d : BitVec 32) => (sum <<< shl) ||| (d &&& 0xff)) sums data,
      sums)
  else (false, data, sums)

inductive DecoderType
  | passThru
  | summing
deriving DecidableEq, Repr

/-- `main`, after `cli` has set what is less than one transient to one. -/
def main (decoderType : DecoderType) (ntransient : Int) (stdin : List (Sample nchan)) :
    List (Sample nchan) :=
  let ntransient := (if ntransient < 1 then 1 else ntransient).toNat
  match decoderType with
  | .passThru => loop RtmTrim.passThru ntransient (.init ()) stdin
  | .summing => loop (RtmTrim.summing ntransient) ntransient (.init (.replicate nchan 0)) stdin

end RtmTrim

end Acq400
