/-
The stream of an AXI channel: `axi64_data_loop`, its reader and the DMA engine.

The engine goes round the cyclic chain of descriptors, and writes each buffer from its first word
to its last.  `log` is what it has written to the buffers that it has been through, and `cur` what
it has written so far to the one that it is in; `returned` counts the buffers that the reader has
put back.
-/
import Acq400.Driver.DataLoop

namespace Acq400

structure AxiStream where
  loop : AxiLoop
  log : List (List UInt32)
  cur : List UInt32
  returned : Nat

inductive StreamAct
  | thread (env : LoopEnv)
  | getFull (wait signalled : Bool)
  | putEmpty
  | interrupt
  | engine (value : UInt32)

/-- The buffer of the `p`th fill. -/
def ringAt (ring : List HbmPtr) (p : Nat) : HbmPtr := ring.getD (p % ring.length) 0

namespace AxiStream

def start (adev : Dev) : AxiStream :=
  { loop := .start adev
    log := []
    cur := []
    returned := 0 }

variable (s : AxiStream)

/-- The buffer that the engine is in. -/
def target : HbmPtr := ringAt (s.loop.dev.axi64Hb 0) s.log.length

/-- The next word of the stream. -/
def engine (value : UInt32) : AxiStream :=
  let loop := { s.loop with dev := s.loop.dev.setWord s.target s.cur.length value }
  let cur := s.cur ++ [value]
  if cur.length = s.loop.dev.bufferlen / usz then
    { s with loop := loop, log := s.log ++ [cur], cur := [] }
  else { s with loop := loop, cur := cur }

def step (s : AxiStream) : StreamAct → Option AxiStream
  | .thread env => (axi64DataLoop s.loop env).map fun loop => { s with loop := loop }
  | .getFull wait signalled =>
    (axiStep s.loop (.beside (.getFull wait signalled))).map fun loop => { s with loop := loop }
  | .putEmpty =>
    (axiStep s.loop (.beside .putEmpty)).map fun loop =>
      { s with loop := loop, returned := s.returned + 1 }
  | .interrupt => (axiStep s.loop (.beside .interrupt)).map fun loop => { s with loop := loop }
  | .engine value => some (s.engine value)

/-- The samples do not look like poison. -/
def Sample (value : UInt32) : Prop :=
  (s.cur.length = s.loop.dev.poisonWord0 → value ≠ poison0) ∧
    (s.cur.length = s.loop.dev.poisonWord1 → value ≠ poison1)

/-- The thread has poisoned the buffers before the engine begins, and the engine comes to no buffer
that has not been poisoned since; nor has the thread to discard any. -/
def Undisturbed (s : AxiStream) : StreamAct → Prop
  | .thread _ => s.loop.pc ≠ .discard
  | .engine value =>
    s.loop.pc ≠ .poison ∧ s.loop.pc ≠ .exited ∧
      (s.loop.dev.poisonOverwritten s.target).1 = false ∧ s.Sample value
  | _ => True

instance (value : UInt32) : Decidable (s.Sample value) := inferInstanceAs (Decidable (_ ∧ _))

instance (s : AxiStream) : ∀ act, Decidable (Undisturbed s act)
  | .thread _ => inferInstanceAs (Decidable (_ ≠ _))
  | .engine _ => inferInstanceAs (Decidable (_ ∧ _ ∧ _ ∧ _))
  | .getFull _ _ | .putEmpty | .interrupt => isTrue trivial

end AxiStream

end Acq400
