/-
The capture threads of AXI devices, `axi64_data_loop` and `axi64_dual_data_loop`
of `acq400_drv.c`, step by step.

A thread is a program counter, its local buffer pointers and the device.  One step
is what the source does up to and including its next operation on the buffer
lists, so that the reader, the DMA engine and the interrupt handler can come in
between any two of them; `Beside` is what those do.  Whether a buffer is done is
read from its memory, which the DMA engine may write at any time.  What the thread
reads from elsewhere, `kthread_should_stop()` and `check_fifo_statuses()`, is in
`LoopEnv`.

A null pointer that is dereferenced takes the thread to `oops`.
-/
import Acq400.Driver.Lists

namespace Acq400

/-- What happens beside the capture thread. -/
inductive Beside
  | getFull (wait signalled : Bool)
  | putEmpty
  | dma (hbm : HbmPtr) (word : Nat) (value : UInt32)
  | interrupt

/-- The reader's `getFull` and `putEmpty`, a word written by DMA, a DMA interrupt. -/
def besideStep (adev : Dev) : Beside → Option Dev
  | .getFull wait signalled => (adev.getFull wait signalled).map Prod.snd
  | .putEmpty => adev.putEmpty
  | .dma hbm word value => some (adev.setWord hbm word value)
  | .interrupt => some { adev with rt := { adev.rt with axi64Ints := adev.rt.axi64Ints + 1 } }

/-- What the thread reads besides the device. -/
structure LoopEnv where
  shouldStop : Bool
  fifoError : Bool

/-- One step of the thread, or of what goes on beside it. -/
inductive LoopAct
  | thread (env : LoopEnv)
  | beside (b : Beside)

/-- `init_axi64_hbm1` for channel 0: the first buffers of `hb` are its descriptors. -/
def Dev.initAxi64Hbm1 (adev : Dev) (hb : List HbmPtr) (axiBufferCount : Nat) : Dev :=
  { adev with axi64Hb := fun ichan => if ichan = 0 then hb.take axiBufferCount else [] }

/-- `init_axi64_hbm2`: the buffers of `hb` go to the two channels in turn. -/
def Dev.initAxi64Hbm2 (adev : Dev) (hb : List HbmPtr) (axiBufferCount : Nat) : Dev :=
  { adev with
    axi64Hb := fun ichan =>
      (List.range (axiBufferCount / 2)).map fun ib => hb.getD (2 * ib + ichan) 0 }

/-- `next_desc` of descriptor `ii` by index, as `_finalize_descriptor_chain` links it. -/
def Dev.nextDesc (adev : Dev) (ichan ii : Nat) : Nat :=
  if ii + 1 < (adev.axi64Hb ichan).length then ii + 1
  else if adev.par.axiOneshotCount ≠ 0 then ii
  else if 0 < adev.par.axiDebugLoopbackIndex then adev.par.axiDebugLoopbackIndex.toNat
  else 0

/-- What is the same in both threads when the buffers are exhausted. -/
def Dev.countDropped (adev : Dev) : Dev :=
  { adev with
    statsErrors := adev.statsErrors + 1
    rt := { adev.rt with
      buffersDropped := adev.rt.buffersDropped + (adev.lists .refills).length } }

/-- A step of the thread that finds nothing to stop for. -/
def LoopAct.tick : LoopAct := .thread { shouldStop := false, fifoError := false }

/-- The reader gets a buffer, or is interrupted by a signal. -/
def LoopAct.deliver : LoopAct := .beside (.getFull true true)

/-- The DMA engine passes the end of a buffer of `bufferlen` bytes. -/
def LoopAct.fill (bufferlen : Nat) (hbm : HbmPtr) : List LoopAct :=
  [.beside (.dma hbm (bufferlen / usz - 2) 0), .beside (.dma hbm (bufferlen / usz - 1) 0)]

/-! ### `axi64_data_loop` -/

/-- Where `axi64_data_loop` is. -/
inductive AxiPc
  | poison
  | checkPoison
  | hold
  /-- The top of the loop and its wait. -/
  | top
  | putFull
  /-- `while((hbm = getEmpty(adev)) != 0)` and the test of its body. -/
  | catchup
  | catchupPut
  | take
  /-- `check_fifo_statuses` and `if (hbm == 0)`. -/
  | check
  /-- Buffer exhaustion: `move_list_to_empty(adev, &adev->REFILLS)`. -/
  | discard
  /-- Buffer exhaustion: the second `getEmpty`. -/
  | retake
  | quit
  | exited
  | oops
deriving DecidableEq, Repr

structure AxiLoop where
  dev : Dev
  pc : AxiPc
  hbm : Option HbmPtr

/-- The thread as it is started, before its first step. -/
def AxiLoop.start (adev : Dev) : AxiLoop :=
  { dev :=
      { adev with
        onPutEmpty := if adev.par.axiOneshot then .nullPutEmpty else .poisonOneBufferFastidious }
    pc := .poison
    hbm := none }

/-- One step of `axi64_data_loop`. -/
def axi64DataLoop (s : AxiLoop) (env : LoopEnv) : Option AxiLoop :=
  match s.pc with
  | .poison => some { s with dev := s.dev.poisonAllBuffers, pc := .checkPoison }
  | .checkPoison =>
    if s.dev.checkAllBuffersArePoisoned ≠ 0 ∨ env.shouldStop = true then
      some { s with pc := .quit }
    else some { s with pc := .hold }
  | .hold =>
    let (hbm, dev) := s.dev.getEmpty
    match hbm with
    | none => some { dev := dev, pc := .oops, hbm := none }
    | some hbm => some { dev := { dev with taskActive := true }, pc := .top, hbm := some hbm }
  | .top =>
    if env.shouldStop then some { s with pc := .quit }
    else
      match s.hbm with
      | none => some { s with pc := .oops }
      | some hbm =>
        let (ddone, dev) := s.dev.dmaDone hbm
        let dev :=
          if dev.rt.axi64Firstups ≠ 0 then
            { dev with rt := { dev.rt with axi64Wakeups := dev.rt.axi64Wakeups + 1 } }
          else dev
        some { s with dev := dev, pc := if ddone then .putFull else .top }
  | .putFull =>
    let dev := s.dev.putFull.2
    some { s with
      dev := { dev with rt := { dev.rt with axi64Firstups := dev.rt.axi64Firstups + 1 } }
      pc := if dev.par.axiDmaHasCatchup then .catchup else .take }
  | .catchup =>
    let (hbm, dev) := s.dev.getEmpty
    match hbm with
    | none => some { dev := dev, pc := .check, hbm := none }
    | some hbm =>
      let (overwritten, dev) := dev.poisonOverwritten hbm
      some { dev := dev, pc := if overwritten then .catchupPut else .check, hbm := some hbm }
  | .catchupPut =>
    let dev := s.dev.putFull.2
    some { s with
      dev := { dev with rt := { dev.rt with axi64Catchups := dev.rt.axi64Catchups + 1 } }
      pc := .catchup }
  | .take =>
    let (hbm, dev) := s.dev.getEmpty
    some { dev := dev, pc := .check, hbm := hbm }
  | .check =>
    if env.fifoError then some { s with pc := .quit }
    else
      match s.hbm with
      | some _ => some { s with pc := .top }
      | none => some { s with dev := s.dev.countDropped, pc := .discard }
  | .discard =>
    let dev := s.dev.moveListToEmpty .refills
    if dev.par.quitOnBufferExhaustion then
      some { s with dev := { dev with rt := { dev.rt with refillError := true } }, pc := .quit }
    else some { s with dev := dev, pc := .retake }
  | .retake =>
    let (hbm, dev) := s.dev.getEmpty
    match hbm with
    | none => some { dev := dev, pc := .quit, hbm := none }
    | some hbm => some { dev := dev.poisonOneBuffer hbm, pc := .top, hbm := some hbm }
  | .quit =>
    some { s with dev := { s.dev.clearPoisonAllBuffers with taskActive := false }, pc := .exited }
  | .exited | .oops => none

/-- The thread among everything else. -/
def axiStep (s : AxiLoop) : LoopAct → Option AxiLoop
  | .thread env => axi64DataLoop s env
  | .beside b => (besideStep s.dev b).map fun dev => { s with dev := dev }

/-! ### `axi64_dual_data_loop` -/

/-- Where `axi64_dual_data_loop` is. -/
inductive DualPc
  | poison
  | checkPoison
  | hold0
  | hold1
  /-- The top of the loop, its wait and the switch on `ddone`. -/
  | top
  | putFull0
  | putFull1
  /-- `while(multipleEmptiesWaiting(adev))`. -/
  | catchup
  | catchupTake0
  | catchupTake1
  | catchupPut0
  | catchupPut1
  | take0
  | take1
  /-- `check_fifo_statuses` and `if (hbm0 == 0 || hbm1 == 0)`. -/
  | check
  /-- Buffer exhaustion: `move_list_to_empty(adev, &adev->REFILLS)`, twice. -/
  | discard0
  | discard1
  | retake0
  | retake1
  | quit
  | exited
  | oops
deriving DecidableEq, Repr

structure DualLoop where
  dev : Dev
  pc : DualPc
  hbm0 : Option HbmPtr
  hbm1 : Option HbmPtr
  oneshotEstop : Bool

def DualLoop.start (adev : Dev) : DualLoop :=
  { dev :=
      { adev with
        onPutEmpty := if adev.par.axiOneshot then .nullPutEmpty else .poisonOneBufferFastidious }
    pc := .poison
    hbm0 := none
    hbm1 := none
    oneshotEstop := false }

/-- `axi_oneshot && oneshot_estop_threshold && axi64_ints > oneshot_estop_threshold`.  The threshold
is an `int`, and is compared with a `u32` as one. -/
def Dev.oneshotEstop (adev : Dev) : Bool :=
  let threshold : Int := (adev.axi64Hb 0).length - 10
  adev.par.axiOneshot && decide (threshold ≠ 0) &&
    decide (threshold % 4294967296 < adev.rt.axi64Ints)

/-- `dma_done(adev, hbm0)+2*dma_done(adev, hbm1)`. -/
def Dev.pairDone (adev : Dev) (hbm0 hbm1 : HbmPtr) : Nat × Dev :=
  let (done0, adev) := adev.dmaDone hbm0
  let (done1, adev) := adev.dmaDone hbm1
  (done0.toNat + 2 * done1.toNat, adev)

/--
One step of `axi64_dual_data_loop`.  The second look at `ddone` after the delay
only counts statistics, which are left out: the pair is put in any case.
-/
def axi64DualDataLoop (s : DualLoop) (env : LoopEnv) : Option DualLoop :=
  match s.pc with
  | .poison => some { s with dev := s.dev.poisonAllBuffers, pc := .checkPoison }
  | .checkPoison =>
    if s.dev.checkAllBuffersArePoisoned ≠ 0 ∨ env.shouldStop = true then
      some { s with pc := .quit }
    else some { s with pc := .hold0 }
  | .hold0 =>
    let (hbm0, dev) := s.dev.getEmpty
    some { s with dev := dev, pc := .hold1, hbm0 := hbm0 }
  | .hold1 =>
    let (hbm1, dev) := s.dev.getEmpty
    match s.hbm0, hbm1 with
    | some _, some _ =>
      some { s with dev := { dev with taskActive := true }, pc := .top, hbm1 := hbm1 }
    | _, _ => some { s with dev := dev, pc := .oops, hbm1 := hbm1 }
  | .top =>
    if env.shouldStop then some { s with pc := .quit }
    else
      match s.hbm0, s.hbm1 with
      | some hbm0, some hbm1 =>
        if s.dev.oneshotEstop then some { s with pc := .putFull0, oneshotEstop := true }
        else
          let (ddone, dev) := s.dev.pairDone hbm0 hbm1
          let dev :=
            if dev.rt.axi64Firstups ≠ 0 then
              { dev with rt := { dev.rt with axi64Wakeups := dev.rt.axi64Wakeups + 1 } }
            else dev
          some { s with
            dev := dev, pc := if ddone = 0 then .top else .putFull0, oneshotEstop := false }
      | _, _ => some { s with pc := .oops }
  | .putFull0 => some { s with dev := s.dev.putFull.2, pc := .putFull1 }
  | .putFull1 =>
    let dev := s.dev.putFull.2
    some { s with
      dev := { dev with rt := { dev.rt with axi64Firstups := dev.rt.axi64Firstups + 1 } }
      pc := if dev.par.axiDmaHasCatchup then .catchup else .take0 }
  | .catchup => some { s with pc := if s.dev.multipleEmptiesWaiting then .catchupTake0 else .check }
  | .catchupTake0 =>
    let (hbm0, dev) := s.dev.getEmpty
    some { s with dev := dev, pc := .catchupTake1, hbm0 := hbm0 }
  | .catchupTake1 =>
    let (hbm1, dev) := s.dev.getEmpty
    match s.hbm0, hbm1 with
    | some b0, some b1 =>
      let (done0, dev) := dev.dmaDone b0
      if done0 then
        let (done1, dev) := dev.dmaDone b1
        some { s with dev := dev, pc := if done1 then .catchupPut0 else .check, hbm1 := hbm1 }
      else some { s with dev := dev, pc := .check, hbm1 := hbm1 }
    | _, _ => some { s with dev := dev, pc := .oops, hbm1 := hbm1 }
  | .catchupPut0 => some { s with dev := s.dev.putFull.2, pc := .catchupPut1 }
  | .catchupPut1 =>
    let dev := s.dev.putFull.2
    some { s with
      dev := { dev with rt := { dev.rt with axi64Catchups := dev.rt.axi64Catchups + 1 } }
      pc := .catchup }
  | .take0 =>
    let (hbm0, dev) := s.dev.getEmpty
    some { s with dev := dev, pc := .take1, hbm0 := hbm0 }
  | .take1 =>
    let (hbm1, dev) := s.dev.getEmpty
    some { s with dev := dev, pc := .check, hbm1 := hbm1 }
  | .check =>
    if env.fifoError then some { s with pc := .quit }
    else
      match s.hbm0, s.hbm1 with
      | some _, some _ => some { s with pc := .top }
      | _, _ => some { s with dev := s.dev.countDropped, pc := .discard0 }
  | .discard0 => some { s with dev := s.dev.moveListToEmpty .refills, pc := .discard1 }
  | .discard1 =>
    let dev := s.dev.moveListToEmpty .refills
    if dev.par.quitOnBufferExhaustion then
      some { s with dev := { dev with rt := { dev.rt with refillError := true } }, pc := .quit }
    else some { s with dev := dev, pc := .retake0 }
  | .retake0 =>
    let (hbm0, dev) := s.dev.getEmpty
    some { s with dev := dev, pc := .retake1, hbm0 := hbm0 }
  | .retake1 =>
    let (hbm1, dev) := s.dev.getEmpty
    match s.hbm0, hbm1 with
    | some b0, some b1 =>
      some { s with
        dev := (dev.poisonOneBuffer b0).poisonOneBuffer b1, pc := .top, hbm1 := hbm1 }
    | _, _ => some { s with dev := dev, pc := .quit, hbm1 := hbm1 }
  | .quit =>
    some { s with dev := { s.dev.clearPoisonAllBuffers with taskActive := false }, pc := .exited }
  | .exited | .oops => none

/-- The thread among everything else. -/
def dualStep (s : DualLoop) : LoopAct → Option DualLoop
  | .thread env => axi64DualDataLoop s env
  | .beside b => (besideStep s.dev b).map fun dev => { s with dev := dev }

/-! ### What goes on beside a thread does to the lists -/

/-- A buffer is delivered, a buffer comes back, or the lists stay as they are. -/
theorem besideStep_cases {adev adev' : Dev} {b : Beside} (h : besideStep adev b = some adev') :
    (∃ hbm rest, adev.lists .refills = hbm :: rest ∧
        adev'.lists = adev.shifted .refills .opens hbm rest) ∨
      (∃ hbm rest, adev.lists .opens = hbm :: rest ∧
        adev'.lists = adev.shifted .opens .empties hbm rest) ∨
      adev'.lists = adev.lists := by
  cases b with
  | getFull wait signalled =>
      simp only [besideStep, Option.map_eq_some_iff] at h
      obtain ⟨⟨rc, adev₁⟩, hget, rfl⟩ := h
      rcases Dev.getFull_cases hget with ⟨hbm, rest, hl, -, hlists⟩ | ⟨-, -, rfl⟩
      · exact Or.inl ⟨hbm, rest, hl, hlists⟩
      · exact Or.inr (Or.inr rfl)
  | putEmpty => exact Or.inr (Or.inl (Dev.putEmpty_cases h))
  | dma hbm word value =>
      obtain rfl := Option.some.inj h
      exact Or.inr (Or.inr rfl)
  | interrupt =>
      obtain rfl := Option.some.inj h
      exact Or.inr (Or.inr rfl)

theorem besideStep_inflight {adev adev' : Dev} {b : Beside} (h : besideStep adev b = some adev') :
    adev'.lists .inflight = adev.lists .inflight ∧
      ∃ back, adev'.lists .empties = adev.lists .empties ++ back := by
  rcases besideStep_cases h with ⟨hbm, rest, -, hlists⟩ | ⟨hbm, rest, -, hlists⟩ | hlists
  · simp [hlists, Dev.shifted]
  · simp [hlists, Dev.shifted]
  · simp [hlists]

theorem Dev.moveListToEmpty_inflight (adev : Dev) :
    (adev.moveListToEmpty .refills).lists .inflight = adev.lists .inflight := by
  simp [moveListToEmpty, moveListTo_lists (show ListHead.refills ≠ .empties by decide)]

@[simp] theorem Dev.countDropped_lists (adev : Dev) : adev.countDropped.lists = adev.lists := rfl

@[simp] theorem Dev.pairDone_lists (adev : Dev) (hbm0 hbm1 : HbmPtr) :
    (adev.pairDone hbm0 hbm1).2.lists = adev.lists := by
  simp [Dev.pairDone]

end Acq400
