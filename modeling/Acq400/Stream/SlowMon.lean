/-
Slow monitoring: `slowmon_hw.cpp`.

`onSample` is the handler of the alarm and comes between any two statements of `ui`, so `ui` is cut
where it changes what the two share.  A `long` has 32 bits, and `new` does not set the sums: what is
in them at first is given.  Every `read` delivers a sample; the knobs that `ui` sets are left out.
-/
import Acq400.Lib.CInt
import Mathlib.Data.BitVec

namespace Acq400

namespace SlowMon

/-- `T` of `SamplerImpl<T>`. -/
inductive Kind
  | short
  | int
deriving DecidableEq, Repr

abbrev Kind.width : Kind → Nat
  | .short => 16
  | .int => 32

/-- What `sumUp` adds for an element. -/
def Kind.term : (k : Kind) → BitVec k.width → Int
  | .short, data => data.toInt
  | .int, data => (data.sshiftRight 8).toInt

/-- What `sumUp` copies back to it; `nacc` is an `unsigned`, and an `int` in the specialisation. -/
def Kind.copyBack : (k : Kind) → Int → Nat → BitVec k.width → BitVec k.width
  | .short, sum, nacc, _ => BitVec.ofInt 16 (CInt.unsigned sum / nacc)
  | .int, sum, nacc, data =>
    (BitVec.ofInt 32 (sum.tdiv nacc) <<< 8) ||| (data &&& 0xff)

/-- `data`, with the scratchpad behind it. -/
structure Sample (k : Kind) (ndata : Nat) where
  data : Vector (BitVec k.width) ndata
  spad : Vector (BitVec 32) 4
deriving DecidableEq

variable {k : Kind} {ndata : Nat}

/-- What a `SamplerImpl` keeps. -/
structure Sampler (ndata : Nat) where
  sums : Vector Int ndata
  isam : Nat

def Sampler.clearSums (_ : Sampler ndata) : Sampler ndata :=
  { sums := Vector.replicate ndata 0, isam := 0 }

def Sampler.sumUp (p : Sampler ndata) (data : Vector (BitVec k.width) ndata) (copyBack : Bool)
    (nacc : Nat) : Sampler ndata × Vector (BitVec k.width) ndata :=
  let sums := Vector.zipWith (fun sum d => CInt.wrap (sum + k.term d)) p.sums data
  ({ p with sums := sums },
    if copyBack then Vector.zipWith (fun sum d => k.copyBack sum nacc d) sums data else data)

/-- Where `ui` is: at the `pause` behind it, or with a new `usec` behind `G::nacc = nacc` or behind
what is done for a new `nacc`. -/
inductive Pc
  | pause
  | assigned (usec : Nat)
  | settled (usec : Nat)
deriving DecidableEq, Repr

/-- `namespace G`, `ui`, the sampler, and what has been written. -/
structure Mon (k : Kind) (ndata : Nat) where
  nacc : Nat
  usec : Nat
  pc : Pc
  sampler : Sampler ndata
  out : List (Sample k ndata)

def Mon.onSample (s : Mon k ndata) (sample : Sample k ndata) : Mon k ndata :=
  if s.nacc = 1 then { s with out := s.out ++ [sample] }
  else
    let isam := (s.sampler.isam + 1) % 2 ^ 32
    let copyBack := isam = s.nacc
    let (sampler, data) := Sampler.sumUp { s.sampler with isam := isam } sample.data copyBack s.nacc
    if copyBack then
      { s with sampler := sampler.clearSums, out := s.out ++ [{ sample with data := data }] }
    else { s with sampler := sampler }

/-- The samples to be accumulated, for the rates that the knobs have. -/
def naccOf (fs fin : Nat) : Nat := max (fin / max fs 1) 1

/-- The microseconds between the alarms. -/
def usecOf (fs fin : Nat) : Nat := 1000000 / max fs 1 / naccOf fs fin

/-- A statement of `ui`, or the handler. -/
inductive Act (k : Kind) (ndata : Nat)
  | ui (fs fin : Nat)
  | clearSums
  | alarm
  | onSample (sample : Sample k ndata)

def step (s : Mon k ndata) : Act k ndata → Option (Mon k ndata)
  | .ui fs fin =>
    if s.pc = .pause then
      if s.nacc ≠ naccOf fs fin then
        some { s with nacc := naccOf fs fin, pc := .assigned (usecOf fs fin) }
      else some { s with pc := .settled (usecOf fs fin) }
    else none
  | .clearSums =>
    match s.pc with
    | .assigned usec => some { s with sampler := s.sampler.clearSums, pc := .settled usec }
    | _ => none
  | .alarm =>
    match s.pc with
    | .settled usec => some { s with usec := if usec ≠ s.usec then usec else s.usec, pc := .pause }
    | _ => none
  | .onSample sample => some (s.onSample sample)

/-- The program at its start. -/
def start (k : Kind) (junk : Vector Int ndata) : Mon k ndata where
  nacc := 1
  usec := 0xffffffff
  pc := .pause
  sampler := { sums := junk, isam := 0 }
  out := []

end SlowMon

end Acq400
