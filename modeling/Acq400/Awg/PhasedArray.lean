/-
Filling the memory of a phased array (`phased_array.cpp`): `FillOverPhaseArray`,
`FillAddPhaseArray`, and the loop of `main`, with and without `PA_THREADS`.

The memory has words of 16 bits, and a place of it is a number.  A process makes a store, or it
loads a word and stores what it comes to: each is a step of its own, and two processes make theirs
in any order.
-/
import Acq400.Lib.Interleave
import Mathlib.Data.BitVec

namespace Acq400

structure PulseDef where
  pulse : List (BitVec 16)
  staves : Nat
  delay : Nat
deriving DecidableEq, Repr

namespace PhasedArray

abbrev Mem := Nat → BitVec 16

/-- The two kinds of `PhaseArray`. -/
inductive FillMode
  | fillOver | fillAdd
deriving DecidableEq, Repr

/-- A step of a process. -/
inductive MemStep
  | store (pb : Nat) (v : BitVec 16)
  | load (pb : Nat)
  | storeSum (pb : Nat) (v : BitVec 16)
deriving DecidableEq, Repr

/-- The memory, and what each process has loaded. -/
structure Shared where
  mem : Mem
  loaded : Bool → BitVec 16

/-- A step of the process `who`. -/
def Shared.step (s : Shared) : Bool × MemStep → Shared
  | (_, .store pb v) => { s with mem := Function.update s.mem pb v }
  | (who, .load pb) => { s with loaded := Function.update s.loaded who (s.mem pb) }
  | (who, .storeSum pb v) => { s with mem := Function.update s.mem pb (s.loaded who + v) }

/-- The places that `fill` comes to, with the words for them. -/
def places (nchan : Nat) (pulse : List (BitVec 16)) (nstaves delay ic0 : Nat) :
    List (Nat × BitVec 16) :=
  (List.range nstaves).flatMap fun ic =>
    pulse.mapIdx fun sam v => ((ic + ic0) * delay * nchan + (ic + ic0) + sam * nchan, v)

/-- `*pb = v`, and `*pb += v`. -/
def write : FillMode → Nat × BitVec 16 → List MemStep
  | .fillOver, (pb, v) => [.store pb v]
  | .fillAdd, (pb, v) => [.load pb, .storeSum pb v]

def fill (mode : FillMode) (nchan : Nat) (pulse : List (BitVec 16)) (nstaves delay ic0 : Nat) :
    List MemStep :=
  (places nchan pulse nstaves delay ic0).flatMap (write mode)

/-- The memory behind some steps. -/
def after (steps : List (Bool × MemStep)) (mem : Mem) : Mem :=
  (steps.foldl Shared.step { mem := mem, loaded := fun _ => 0 }).mem

/-- The loop of `main`; all pulses but the first one are added. -/
def single (nchan : Nat) : FillMode → List PulseDef → Mem → Mem
  | _, [], mem => mem
  | mode, pd :: pulses, mem =>
    let steps := fill mode nchan pd.pulse pd.staves pd.delay 0
    single nchan .fillAdd pulses (after (steps.map (Prod.mk false)) mem)

/-- The loop with `PA_THREADS`: the child has the first half of the staves, the parent the
second. -/
inductive Forked (nchan : Nat) : FillMode → List PulseDef → Mem → Mem → Prop
  | nil {mode : FillMode} {mem : Mem} : Forked nchan mode [] mem mem
  | cons {mode : FillMode} {pd : PulseDef} {pulses : List PulseDef} {mem mem' : Mem}
      {steps : List (Bool × MemStep)} :
      Interleave ((fill mode nchan pd.pulse (pd.staves / 2) pd.delay 0).map (Prod.mk true))
        ((fill mode nchan pd.pulse (pd.staves / 2) pd.delay (pd.staves / 2)).map (Prod.mk false))
        steps →
      Forked nchan .fillAdd pulses (after steps mem) mem' →
      Forked nchan mode (pd :: pulses) mem mem'

end PhasedArray

end Acq400
