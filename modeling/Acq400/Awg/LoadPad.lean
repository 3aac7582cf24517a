/-
Loading a shot and padding it to whole buffers (`bb.cpp`): `pad`, `_load_pad` and `_load`.

The buffers are mapped one behind the other, and an address is an offset from the base
of the first.  The shot is loaded from there, and what pads it is copied behind it.
-/
import Acq400.Lib.CInt
import Acq400.Lib.Run
import Mathlib.Algebra.Group.Nat.Defs
import Mathlib.Data.Nat.Init

namespace Acq400

/-- `G`, the parameters of the program, as far as the loader uses them. -/
structure LoadPrams where
  sampleSize : Nat
  playBufferlen : Nat
  minbufs : Int
  pad : Int

def gPadZero : Int := 2

def memcpy (mem : Nat → UInt8) (dest : Nat) (src : Nat → UInt8) (n : Nat) : Nat → UInt8 :=
  fun a => if dest ≤ a ∧ a < dest + n then src (a - dest) else mem a

/-- `playbuffs` and `padsam`. -/
structure PadCount where
  playbuffs : Nat
  padsam : Nat

namespace LoadPrams

variable (g : LoadPrams)

/-- `last`: a sample of zeros, or the one that ends at `stop`. -/
def last (mem : Nat → UInt8) (stop : Nat) : Nat → UInt8 :=
  if g.pad = gPadZero then fun _ => 0 else fun k => mem (stop - g.sampleSize + k)

/-- The loop of `pad`. -/
def padCopies (last : Nat → UInt8) : Nat → (Nat → UInt8) → Nat → (Nat → UInt8)
  | 0, mem, _ => mem
  | padSamples + 1, mem, stop =>
    padCopies last padSamples (memcpy mem stop last g.sampleSize) (stop + g.sampleSize)

/-- `pad`: the length it returns, and the memory; none if an `int` overflows. -/
def padWith (mem : Nat → UInt8) (nsamples padSamples : Nat) : Option (Nat × (Nat → UInt8)) :=
  if 2 ^ 31 ≤ nsamples + padSamples then none
  else if g.pad = 0 then some (nsamples + padSamples, mem)
  else
    -- fill an extra buffer
    let copies := padSamples + g.playBufferlen / g.sampleSize
    if 2 ^ 31 ≤ copies then none
    else
      let stop := nsamples * g.sampleSize
      some (nsamples + padSamples, g.padCopies (g.last mem stop) copies mem stop)

/-- Partly into a buffer, round up. -/
def roundUp (nsamples : Nat) : PadCount :=
  let playbuffs := nsamples * g.sampleSize / g.playBufferlen
  let residue := nsamples * g.sampleSize % g.playBufferlen
  if residue ≠ 0 then
    { playbuffs := playbuffs + 1, padsam := (g.playBufferlen - residue) / g.sampleSize }
  else { playbuffs := playbuffs, padsam := 0 }

/-- Expand to an even number of buffers. -/
def pingPong (c : PadCount) : PadCount :=
  if c.playbuffs % 2 ≠ 0 then
    { playbuffs := c.playbuffs + 1, padsam := c.padsam + g.playBufferlen / g.sampleSize }
  else c

/-- Two buffers are too few if `minbufs` is 4. -/
def tooFew (c : PadCount) : Prop := g.minbufs = 4 ∧ c.playbuffs = 2

instance (c : PadCount) : Decidable (g.tooFew c) := inferInstanceAs (Decidable (_ ∧ _))

/-- Expand two buffers to four. -/
def atLeast (c : PadCount) : PadCount :=
  if g.tooFew c then
    { playbuffs := c.playbuffs + 2, padsam := c.padsam + 2 * g.playBufferlen / g.sampleSize }
  else c

/-- `_load_pad`: the length it returns, and the memory; none if an `int` or an `unsigned`
overflows. -/
def _loadPad (mem : Nat → UInt8) (nsamples : Nat) : Option (Nat × (Nat → UInt8)) :=
  let even := g.pingPong (g.roundUp nsamples)
  let c := g.atLeast even
  if 2 ^ 32 ≤ nsamples * g.sampleSize then none
  else if g.tooFew even ∧ 2 ^ 32 ≤ 2 * g.playBufferlen then none
  else if 2 ^ 31 ≤ c.playbuffs ∨ 2 ^ 31 ≤ c.padsam then none
  else if c.padsam ≠ 0 then g.padWith mem nsamples c.padsam
  else some (nsamples, mem)

/-- `G::max_samples` as `ui` sets it, where `play_bufferlen` is `Buffer::bufferlen`. -/
def maxSamples (nbuffers playloopMaxlen : Nat) : Nat :=
  let playloopMaxbytes := playloopMaxlen * g.sampleSize % 2 ^ 32
  let bytes := nbuffers * g.playBufferlen % 2 ^ 32
  if playloopMaxlen ≠ 0 ∧ playloopMaxbytes < bytes then playloopMaxlen else bytes / g.sampleSize

/-- The bytes that `_fread` stores of what it receives before it returns: `maxbytes` is an
`int`. -/
def received (nelems : Nat) (data : List UInt8) : List UInt8 :=
  data.take (CInt.wrap ((nelems * g.sampleSize : Nat) : Int)).toNat

/-- The memory after `_fread`. -/
def loaded (nelems : Nat) (mem : Nat → UInt8) (data : List UInt8) : Nat → UInt8 :=
  memcpy mem 0 (fun k => (g.received nelems data).getD k 0) (g.received nelems data).length

/-- `_load`, where `_fread` receives `data` before it returns. -/
def _load (nelems : Nat) (mem : Nat → UInt8) (data : List UInt8) :
    Option (Nat × (Nat → UInt8)) :=
  g._loadPad (g.loaded nelems mem data) ((g.received nelems data).length / g.sampleSize)

end LoadPrams

end Acq400

/-! ### The quantum

Whether the DMA controller takes a length (`bb.cpp`): `pl330_awg_quantum` works out again
what `pl330_prep_dma_memcpy` and `_prepare_ccr` make of it.
-/

namespace Acq400

def axiBusBs : Nat := 3

def axiFifoBs : Nat := 2

/-- `x & 0xf`. -/
def low4 (x : Int) : Nat := (x % 16).toNat

/-- The loop for `bs`. -/
def awgBs (bytes : Nat) : Nat → Nat
  | 0 => 0
  | bs + 1 => if bytes % (1 <<< (bs + 1)) = 0 then bs + 1 else awgBs bytes bs

/-- The loop for `bl`. -/
def awgBl (bytes bs : Nat) : Nat → Nat
  | bl + 2 => if bytes % ((bl + 2) <<< bs) = 0 then bl + 2 else awgBl bytes bs (bl + 1)
  | bl => bl

/-- `pl330_awg_quantum`: the quantum, and `*ok`. -/
def pl330AwgQuantum (bytes : Nat) : Nat × Bool :=
  let bs := awgBs bytes axiBusBs
  let bl := awgBl bytes bs 16
  let srcBl := if bs > axiFifoBs then low4 ((bl >>> (bs - axiFifoBs) : Nat) - 1) + 1 else 1
  let q := (1 <<< bs) * srcBl
  (q, bl % 2 = 0 && bytes % q = 0)

def pl330AwgLenOk (bytes : Nat) : Bool := (pl330AwgQuantum bytes).2

end Acq400

/-! ### Loading while it plays

Loading a shot while it plays (`bb.cpp`): `_load_concurrent`.

The shot is read block by block.  As soon as enough of it is there the length is set that is to
play, and it is set again with every block that follows.  The trigger is set once the second block
is there, or at the end of the shot.
-/

namespace Acq400

inductive TriggerReq
  | firstTime
  | requested
  | done
  | doneUpdateLengthPending
  deriving DecidableEq, Repr

/-- The value of the enumerator. -/
def TriggerReq.value : TriggerReq → Nat
  | .firstTime => 0
  | .requested => 1
  | .done => 2
  | .doneUpdateLengthPending => 3

/-- What `_load_concurrent` has done to the device. -/
inductive LoadCall
  | setPlayloopLength (nsamples : Nat)
  | doSoftTrigger
  deriving DecidableEq, Repr

/-- The variables of `_load_concurrent`.  Beside them are its calls, each with how many samples had
been loaded when it was made. -/
structure ConcurrentSt where
  mem : Nat → UInt8
  bp : Nat
  playloopLength : Nat
  totsamples : Nat
  tr : TriggerReq
  playLoadBlocks : Nat
  calls : List (Nat × LoadCall)

namespace ConcurrentSt

variable (g : LoadPrams) (bufferlen : Nat) (s : ConcurrentSt)

/-- `bls`: the samples of a buffer. -/
def bls : Nat := bufferlen / g.sampleSize

/-- Up to the first `fread`. -/
def start (mem : Nat → UInt8) (loadThreshold : Nat) : ConcurrentSt where
  mem := mem
  bp := 0
  playloopLength := 0
  totsamples := 0
  tr := .firstTime
  playLoadBlocks := loadThreshold
  calls := []

/-- A call. -/
def call (c : LoadCall) : ConcurrentSt := { s with calls := s.calls ++ [(s.totsamples, c)] }

/-- The samples that are to be there for a length to be set. -/
def due : Nat := s.playloopLength + s.playLoadBlocks * bls g bufferlen

/-- `fread` of `data`, and what is noted of it. -/
def fread (data : List UInt8) : ConcurrentSt where
  mem := memcpy s.mem s.bp (fun k => data.getD k 0) data.length
  bp := s.bp + data.length
  playloopLength := s.playloopLength
  totsamples := s.totsamples + data.length / g.sampleSize
  tr := if s.tr = .done then .doneUpdateLengthPending else s.tr
  playLoadBlocks := s.playLoadBlocks
  calls := s.calls

/-- A length is set, and the trigger with the second. -/
def setLength : ConcurrentSt :=
  let t := call { s with playloopLength := s.totsamples } (.setPlayloopLength s.totsamples)
  match s.tr with
  | .firstTime => { t with playLoadBlocks := 1, tr := .requested }
  | .requested => { t.call .doSoftTrigger with tr := .done }
  | _ => { t with tr := .done }

/-- A turn of the loop.  What `fread` reads are whole samples, one at least and no more than it is
asked for.  None if an `int` overflows. -/
def step (data : List UInt8) : Option ConcurrentSt :=
  let nsamples := data.length / g.sampleSize
  if nsamples = 0 ∨ s.playLoadBlocks * bls g bufferlen < nsamples ∨
      data.length ≠ nsamples * g.sampleSize then none
  else if 2 ^ 31 ≤ s.totsamples + nsamples ∨ 2 ^ 31 ≤ s.due g bufferlen then none
  else
    let t := s.fread g data
    some (if s.due g bufferlen ≤ t.totsamples then t.setLength else t)

/-- Behind the loop.  None if `_load_pad` divides by zero or an `int` overflows. -/
def finish : Option ConcurrentSt :=
  if s.tr = .done then some s
  else
    let padded :=
      if s.tr = .firstTime then
        if g.playBufferlen = 0 then none
        else
          (g._loadPad s.mem s.totsamples).map fun (nsamples, mem) =>
            call { s with mem := mem } (.setPlayloopLength nsamples)
      else some s
    padded.map fun t => if s.tr.value < TriggerReq.done.value then t.call .doSoftTrigger else t

/-- `_load_concurrent`, where the calls of `fread` read `reads` and then nothing. -/
def _loadConcurrent (mem : Nat → UInt8) (loadThreshold : Nat) (reads : List (List UInt8)) :
    Option ConcurrentSt :=
  (Lts.run (step g bufferlen) (start mem loadThreshold) reads).bind fun s => s.finish g

end ConcurrentSt

end Acq400
