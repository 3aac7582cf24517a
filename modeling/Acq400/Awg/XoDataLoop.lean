/-
The AWG worker: `xo_data_loop` (`xo_workers.c`).

Two DMA channels take turns.  A push on one waits for the event the push before it,
on the other, sets when it has finished; the first of all waits for nothing and the
last is to set nothing.  The loop keeps two pushes in flight and makes the next one
on the channel that has just completed.

The thread is not asked to stop, and every push that is issued completes before the
wait for it times out.  The wait does time out where nothing is in flight.  The mode
may be changed from continuous while the loop runs, at any point between two of the
places at which the loop looks at it.  The counts of the buffers of a cycle wrap as an
`int` does; the pushes are counted up to one of them and stay an `int`, see `Counted`.
`repeats` is counted down past zero in one place and keeps its width.
-/
import Acq400.Lib.CInt
import Acq400.Lib.Run
import Mathlib.Data.List.Range

namespace Acq400

open CInt

/-- `enum AO_playloop_oneshot`. -/
inductive AoOneshot
  | continuous | oneshot | oneshotRearm
deriving DecidableEq, Repr

/-- `struct AOPlayloop`, as far as the worker uses it. -/
structure AoPlayloop where
  length : Nat
  cursor : Nat
  oneshot : AoOneshot
  repeats : UInt32
  maxlen : Nat
  pullBuf : Nat
  cycles : Nat

/-- The events a push waits for when it starts and sets when it ends. -/
structure DmaFlags where
  waitEv0 : Bool
  waitEv1 : Bool
  setEv0 : Bool
  setEv1 : Bool
deriving DecidableEq, Repr

/-- A DMA channel: `false` is channel 0, and `!ic` the other one. -/
abbrev Chan := Bool

/-- `wflags`: wait for the event of the channel. -/
def wflags : Chan → DmaFlags
  | false => { waitEv0 := true, waitEv1 := false, setEv0 := false, setEv1 := false }
  | true => { waitEv0 := false, waitEv1 := true, setEv0 := false, setEv1 := false }

/-- `sflags`: set the event of the other channel. -/
def sflags : Chan → DmaFlags
  | false => { waitEv0 := false, waitEv1 := false, setEv0 := false, setEv1 := true }
  | true => { waitEv0 := false, waitEv1 := false, setEv0 := true, setEv1 := false }

/-- `xflags`: both. -/
def xflags : Chan → DmaFlags
  | false => { waitEv0 := true, waitEv1 := false, setEv0 := false, setEv1 := true }
  | true => { waitEv0 := false, waitEv1 := true, setEv0 := true, setEv1 := false }

namespace DmaFlags

/-- The push starts with a wait for the event of channel `ic`. -/
def waits (fl : DmaFlags) : Chan → Bool
  | false => fl.waitEv0
  | true => fl.waitEv1

/-- The push ends with the event of channel `ic` set. -/
def sets (fl : DmaFlags) : Chan → Bool
  | false => fl.setEv0
  | true => fl.setEv1

end DmaFlags

/-- One `DMA_ASYNC_PUSH`: the channel, the buffer, how much of it and the flags. -/
structure Push where
  chan : Chan
  ix : Nat
  len : Nat
  flags : DmaFlags
deriving DecidableEq, Repr

/-- What the loop finds set up around it: all host buffers are of one length. -/
structure XoConfig where
  firstDistributorBuffer : Nat
  hbLen : Nat
  xoDistributorSampleSize : Nat

def XoConfig.aoSamplesPerHb (cfg : XoConfig) : Nat := cfg.hbLen / cfg.xoDistributorSampleSize

/-- `xo_data_loop` at the top of its loop. -/
structure XoLoop where
  cfg : XoConfig
  playloop : AoPlayloop
  ic : Chan
  shotBufferCount0 : Int
  shotBufferCount : Int
  continuousAtStart : Bool
  lastPushDone : Bool
  hbl : Nat
  /-- `stats.xo.dma_buffers_out` and `dma_buffers_in`. -/
  dmaBuffersOut : Nat
  dmaBuffersIn : Nat
  /-- The pushes made so far, in the order of the calls. -/
  pushes : List Push
  /-- Control is at `quit:`. -/
  quit : Bool

/-- Where, in one iteration, the mode is changed to one-shot, if it is. -/
inductive Clear
  | never
  /-- Before `if (AO_CONTINUOUS || repeats > 0)`. -/
  | beforeCycle
  /-- Between that and `if (AO_CONTINUOUS)`. -/
  | beforeRepeats
  /-- Between that and `LAST_PUSH`. -/
  | beforeLast
deriving DecidableEq, Repr

namespace XoLoop

def aoContinuous (s : XoLoop) : Bool := decide (s.playloop.oneshot = .continuous)

/-- The mode is changed to one-shot if this is the place for it. -/
def clearIf (s : XoLoop) (here : Bool) : XoLoop :=
  if here && s.aoContinuous then { s with playloop := { s.playloop with oneshot := .oneshot } }
  else s

def ibReset (s : XoLoop) : XoLoop :=
  { s with playloop := { s.playloop with pullBuf := s.cfg.firstDistributorBuffer } }

def ibIncr (s : XoLoop) : XoLoop :=
  { s with playloop := { s.playloop with pullBuf := s.playloop.pullBuf + 1 } }

/-- `DMA_ASYNC_PUSH` of `hbm0[IB+k]` on channel `ic`. -/
def dmaAsyncPush (s : XoLoop) (ic : Chan) (k : Nat) (flags : Chan → DmaFlags) : XoLoop :=
  { s with
    pushes := s.pushes ++ [{ chan := ic
                             ix := s.playloop.pullBuf + k
                             len := if s.hbl ≠ 0 then s.hbl else s.cfg.hbLen
                             flags := flags ic }] }

def dmaAsyncIssuePending (s : XoLoop) : XoLoop := { s with dmaBuffersOut := s.dmaBuffersOut + 1 }

def lastPush (s : XoLoop) : Bool :=
  !s.aoContinuous && decide (s.shotBufferCount ≤ s.dmaBuffersOut + 1)

/-- The counts and the length of a short first buffer, up to `IBRESET`. -/
def init (cfg : XoConfig) (playloop : AoPlayloop) : XoLoop :=
  let maxlen := wrap (max playloop.maxlen playloop.length : Nat)
  let shotBufferCount0 := maxlen.tdiv cfg.aoSamplesPerHb
  let overspill := decide (unsigned (shotBufferCount0 * cfg.aoSamplesPerHb) < playloop.length)
  let shotBufferCount := if overspill then wrap (shotBufferCount0 + 1) else shotBufferCount0
  { cfg := cfg
    playloop := playloop
    ic := false
    shotBufferCount0 := shotBufferCount0
    shotBufferCount := shotBufferCount
    continuousAtStart := decide (playloop.oneshot = .continuous)
    lastPushDone := false
    hbl := if overspill && decide (shotBufferCount = 1) then
        playloop.length * cfg.xoDistributorSampleSize
      else 0
    dmaBuffersOut := 0
    dmaBuffersIn := 0
    pushes := []
    quit := false }

/-- The pushes that prime the DMAC: the one on channel 1 is set up first. -/
def prime (s : XoLoop) : XoLoop :=
  if 1 < s.shotBufferCount then
    (((((s.dmaAsyncPush true 1 xflags).dmaAsyncPush false 0 sflags).ibIncr).ibIncr)
      |>.dmaAsyncIssuePending).dmaAsyncIssuePending
  else
    ((s.dmaAsyncPush false 0 sflags).ibIncr).dmaAsyncIssuePending

/-- `xo_data_loop` up to the top of its loop. -/
def start (cfg : XoConfig) (playloop : AoPlayloop) : XoLoop :=
  let s := (init cfg playloop).ibReset.prime
  { s with playloop := { s.playloop with cursor := 0 } }

/-- A cycle is counted. -/
def countCycle (s : XoLoop) : XoLoop :=
  { s with playloop := { s.playloop with cycles := s.playloop.cycles + 1 } }

/-- The buffers of one more cycle are added to the count, and the play list begins again. -/
def nextCycle (s : XoLoop) : XoLoop :=
  let s := { s with shotBufferCount := wrap (s.shotBufferCount + s.shotBufferCount0) }.ibReset
  { s with playloop := { s.playloop with cursor := 0 } }

/-- `if (dma_buffers_out >= shot_buffer_count)`: the end of a cycle, and the next one. -/
def endCycle (s : XoLoop) (clear : Clear) : XoLoop :=
  if s.shotBufferCount ≤ s.dmaBuffersOut then
    let s := s.countCycle
    if s.aoContinuous || decide (0 < s.playloop.repeats) then
      let s := s.nextCycle.clearIf (decide (clear = .beforeRepeats))
      -- cleared since the test above, the mode may find `repeats` at zero here
      let repeats := if s.aoContinuous then s.playloop.repeats + 1 else s.playloop.repeats - 1
      { s with playloop := { s.playloop with repeats := repeats } }
    else s
  else s

/-- `if (dma_buffers_out < shot_buffer_count)`: the next push. -/
def pushNext (s : XoLoop) : XoLoop :=
  if s.dmaBuffersOut < s.shotBufferCount then
    let pushed := if s.lastPush then
        { s.dmaAsyncPush s.ic 0 wflags with lastPushDone := true }
      else s.dmaAsyncPush s.ic 0 xflags
    pushed.ibIncr.dmaAsyncIssuePending
  else s

/-- `DMA_COUNT_IN`, and the cursor moved on by a buffer. -/
def countIn (s : XoLoop) : XoLoop :=
  { s with
    dmaBuffersIn := s.dmaBuffersIn + 1
    playloop := { s.playloop with cursor := s.playloop.cursor + s.cfg.aoSamplesPerHb } }

/-- One completion, from `DMA_COUNT_IN` to the end of the loop's body. -/
def completed (s : XoLoop) (clear : Clear) : XoLoop :=
  let s := s.countIn
  if s.lastPushDone && s.continuousAtStart then { s with quit := true }
  else
    let s := (s.clearIf (decide (clear = .beforeCycle))).endCycle clear
    let s := (s.clearIf (decide (clear ≠ .never))).pushNext
    { s with ic := !s.ic }

/-- The loop's own condition fails, or it has been left. -/
def Done (s : XoLoop) : Prop := s.quit = true ∨ s.playloop.length ≤ s.playloop.cursor

instance (s : XoLoop) : Decidable s.Done := inferInstanceAs (Decidable (_ ∨ _))

/-- One iteration: the wait times out where nothing is in flight. -/
def step (s : XoLoop) (clear : Clear) : Option XoLoop :=
  if s.Done then none
  else if s.dmaBuffersIn < s.dmaBuffersOut then some (s.completed clear)
  else some { s with quit := true }

/-- `xo_data_loop_cleanup`: every push still in flight is waited for. -/
def cleanup (s : XoLoop) : XoLoop :=
  { s with dmaBuffersIn := s.dmaBuffersIn + (s.dmaBuffersOut - s.dmaBuffersIn) }

end XoLoop

namespace XoLoop

theorem toNat_pred {repeats : UInt32} (h : 0 < repeats) :
    (repeats - 1).toNat + 1 = repeats.toNat := by
  have hpos : 0 < repeats.toNat := UInt32.lt_iff_toNat_lt.mp h
  have hle : (1 : UInt32) ≤ repeats := UInt32.le_iff_toNat_le.mpr hpos
  rw [UInt32.toNat_sub_of_le _ _ hle, UInt32.toNat_one]
  omega

/-! ### How the loop starts -/

theorem init_count0 (cfg : XoConfig) (playloop : AoPlayloop) :
    (init cfg playloop).shotBufferCount0
      = (wrap (max playloop.maxlen playloop.length : Nat)).tdiv cfg.aoSamplesPerHb := by
  rw [init]

theorem init_count (cfg : XoConfig) (playloop : AoPlayloop) :
    (init cfg playloop).shotBufferCount
      = if unsigned ((init cfg playloop).shotBufferCount0 * cfg.aoSamplesPerHb)
            < playloop.length then
          wrap ((init cfg playloop).shotBufferCount0 + 1)
        else (init cfg playloop).shotBufferCount0 := by
  simp only [init, decide_eq_true_eq]

theorem init_counts (cfg : XoConfig) (playloop : AoPlayloop) {maxlen : Nat}
    (hmax : max playloop.maxlen playloop.length = maxlen) (hlt : maxlen < 2 ^ 31) :
    (init cfg playloop).shotBufferCount0 = (maxlen / cfg.aoSamplesPerHb : Nat) ∧
      (init cfg playloop).shotBufferCount =
        ((if maxlen / cfg.aoSamplesPerHb * cfg.aoSamplesPerHb < playloop.length then
            maxlen / cfg.aoSamplesPerHb + 1 else maxlen / cfg.aoSamplesPerHb : Nat) : Int) := by
  have hcount0 : (init cfg playloop).shotBufferCount0 = (maxlen / cfg.aoSamplesPerHb : Nat) := by
    rw [init_count0, hmax, wrap_natCast hlt, Int.ofNat_tdiv]
  have hle : maxlen / cfg.aoSamplesPerHb * cfg.aoSamplesPerHb ≤ maxlen := Nat.div_mul_le_self _ _
  refine ⟨hcount0, ?_⟩
  rw [init_count, hcount0, ← Int.natCast_mul, unsigned_natCast (by omega)]
  by_cases hmore : maxlen / cfg.aoSamplesPerHb * cfg.aoSamplesPerHb < playloop.length
  · have hquot : maxlen / cfg.aoSamplesPerHb < playloop.length := by
      rcases Nat.eq_zero_or_pos cfg.aoSamplesPerHb with hzero | hpos
      · rw [hzero, Nat.div_zero]
        omega
      · exact Nat.lt_of_le_of_lt (Nat.le_mul_of_pos_right _ hpos) hmore
    rw [if_pos (Int.ofNat_lt.mpr hmore), if_pos hmore]
    exact wrap_natCast (n := maxlen / cfg.aoSamplesPerHb + 1) (by omega)
  · rw [if_neg (mt Int.ofNat_lt.mp hmore), if_neg hmore]

/-- A push that primes the DMAC. -/
def priming (s : XoLoop) (ic : Chan) (k : Nat) (flags : Chan → DmaFlags) : Push :=
  { chan := ic
    ix := s.cfg.firstDistributorBuffer + k
    len := if s.hbl ≠ 0 then s.hbl else s.cfg.hbLen
    flags := flags ic }

theorem start_pair (cfg : XoConfig) (playloop : AoPlayloop)
    (h : 1 < (init cfg playloop).shotBufferCount) :
    start cfg playloop
      = { init cfg playloop with
          pushes := [(init cfg playloop).priming true 1 xflags,
            (init cfg playloop).priming false 0 sflags]
          playloop := { playloop with
            pullBuf := cfg.firstDistributorBuffer + 2
            cursor := 0 }
          dmaBuffersOut := 2 } := by
  have hplayloop : (init cfg playloop).playloop = playloop := rfl
  have hcfg : (init cfg playloop).cfg = cfg := rfl
  have hpushes : (init cfg playloop).pushes = [] := rfl
  have hout : (init cfg playloop).dmaBuffersOut = 0 := rfl
  simp only [start]
  generalize init cfg playloop = s at *
  rw [prime, if_pos (by exact h)]
  simp [dmaAsyncPush, ibIncr, ibReset, dmaAsyncIssuePending, priming, *]

theorem start_single (cfg : XoConfig) (playloop : AoPlayloop)
    (h : (init cfg playloop).shotBufferCount ≤ 1) :
    start cfg playloop
      = { init cfg playloop with
          pushes := [(init cfg playloop).priming false 0 sflags]
          playloop := { playloop with
            pullBuf := cfg.firstDistributorBuffer + 1
            cursor := 0 }
          dmaBuffersOut := 1 } := by
  have hplayloop : (init cfg playloop).playloop = playloop := rfl
  have hcfg : (init cfg playloop).cfg = cfg := rfl
  have hpushes : (init cfg playloop).pushes = [] := rfl
  have hout : (init cfg playloop).dmaBuffersOut = 0 := rfl
  simp only [start]
  generalize init cfg playloop = s at *
  rw [prime, if_neg (by exact Int.not_lt.mpr h)]
  simp [dmaAsyncPush, ibIncr, ibReset, dmaAsyncIssuePending, priming, *]

/-! ### In one-shot mode -/

/-- The loop with its cycle counted and the next one begun, in one-shot mode. -/
def again (s : XoLoop) : XoLoop :=
  { s with
    shotBufferCount := wrap (s.shotBufferCount + s.shotBufferCount0)
    playloop := { s.playloop with
      cycles := s.playloop.cycles + 1
      pullBuf := s.cfg.firstDistributorBuffer
      cursor := 0
      repeats := s.playloop.repeats - 1 } }

/-- The loop with the next buffer pushed, on the channel in turn. -/
def pushed (s : XoLoop) : XoLoop :=
  { s with
    pushes := s.pushes ++ [{ chan := s.ic
                             ix := s.playloop.pullBuf
                             len := if s.hbl ≠ 0 then s.hbl else s.cfg.hbLen
                             flags := if s.lastPush then wflags s.ic else xflags s.ic }]
    lastPushDone := s.lastPush || s.lastPushDone
    playloop := { s.playloop with pullBuf := s.playloop.pullBuf + 1 }
    dmaBuffersOut := s.dmaBuffersOut + 1 }

theorem clearIf_oneshot {s : XoLoop} (h : s.aoContinuous = false) (here : Bool) :
    s.clearIf here = s := by
  simp [clearIf, h]

theorem endCycle_during {s : XoLoop} (clear : Clear) (h : s.dmaBuffersOut < s.shotBufferCount) :
    s.endCycle clear = s := if_neg (Int.not_le.mpr h)

theorem endCycle_last {s : XoLoop} (clear : Clear) (hmode : s.aoContinuous = false)
    (h : s.shotBufferCount ≤ s.dmaBuffersOut) (hrep : s.playloop.repeats = 0) :
    s.endCycle clear = s.countCycle := by
  have hne : s.playloop.oneshot ≠ .continuous := of_decide_eq_false hmode
  unfold endCycle countCycle
  rw [if_pos h]
  simp [aoContinuous, hne, hrep]

theorem endCycle_repeat {s : XoLoop} (clear : Clear) (hmode : s.aoContinuous = false)
    (h : s.shotBufferCount ≤ s.dmaBuffersOut) (hrep : 0 < s.playloop.repeats) :
    s.endCycle clear = s.again := by
  have hne : s.playloop.oneshot ≠ .continuous := of_decide_eq_false hmode
  unfold endCycle countCycle nextCycle again
  rw [if_pos h]
  simp [aoContinuous, hne, hrep, ibReset, clearIf]

theorem lastPush_oneshot {s : XoLoop} (hmode : s.aoContinuous = false) :
    s.lastPush = true ↔ s.shotBufferCount ≤ s.dmaBuffersOut + 1 := by
  rw [lastPush, hmode, Bool.not_false, Bool.true_and, decide_eq_true_eq]

theorem pushNext_none {s : XoLoop} (h : s.shotBufferCount ≤ s.dmaBuffersOut) : s.pushNext = s :=
  if_neg (Int.not_lt.mpr h)

theorem pushNext_some {s : XoLoop} (h : s.dmaBuffersOut < s.shotBufferCount) :
    s.pushNext = s.pushed := by
  unfold pushNext pushed
  rw [if_pos h]
  cases hlast : s.lastPush <;>
    simp [dmaAsyncPush, ibIncr, dmaAsyncIssuePending]

theorem endCycle_mode {s : XoLoop} (clear : Clear) (hmode : s.aoContinuous = false) :
    (s.endCycle clear).aoContinuous = false := by
  by_cases h : s.dmaBuffersOut < s.shotBufferCount
  · rw [endCycle_during clear h]
    exact hmode
  have hle := Int.not_lt.mp h
  by_cases hrep : s.playloop.repeats = 0
  · rw [endCycle_last clear hmode hle hrep]
    exact hmode
  · rw [endCycle_repeat clear hmode hle (UInt32.pos_iff_ne_zero.mpr hrep)]
    exact hmode

theorem completed_oneshot {s : XoLoop} (clear : Clear) (hmode : s.aoContinuous = false)
    (hgo : (s.lastPushDone && s.continuousAtStart) = false) :
    s.completed clear = { (s.countIn.endCycle clear).pushNext with
      ic := !(s.countIn.endCycle clear).pushNext.ic } := by
  have hmode' : s.countIn.aoContinuous = false := hmode
  have hgo' : (s.countIn.lastPushDone && s.countIn.continuousAtStart) = false := hgo
  unfold completed
  simp only [hgo', Bool.false_eq_true, if_false]
  rw [clearIf_oneshot hmode', clearIf_oneshot (endCycle_mode clear hmode')]

theorem completed_during {s : XoLoop} (clear : Clear) (hmode : s.aoContinuous = false)
    (hgo : (s.lastPushDone && s.continuousAtStart) = false)
    (h : s.dmaBuffersOut < s.shotBufferCount) :
    s.completed clear = { s.countIn.pushed with ic := !s.ic } := by
  rw [completed_oneshot clear hmode hgo, endCycle_during clear (by exact h),
    pushNext_some (by exact h)]
  rfl

/-- The completion that finds a cycle pushed, with repeats left, begins the next one. -/
theorem completed_repeat {s : XoLoop} (clear : Clear) (hmode : s.aoContinuous = false)
    (hgo : (s.lastPushDone && s.continuousAtStart) = false)
    (h : s.shotBufferCount ≤ s.dmaBuffersOut) (hrep : 0 < s.playloop.repeats)
    (hmore : s.dmaBuffersOut < wrap (s.shotBufferCount + s.shotBufferCount0)) :
    s.completed clear = { s.countIn.again.pushed with ic := !s.ic } := by
  rw [completed_oneshot clear hmode hgo, endCycle_repeat clear (by exact hmode) (by exact h)
    (by exact hrep), pushNext_some (by exact hmore)]
  rfl

theorem completed_last {s : XoLoop} (clear : Clear) (hmode : s.aoContinuous = false)
    (hgo : (s.lastPushDone && s.continuousAtStart) = false)
    (h : s.shotBufferCount ≤ s.dmaBuffersOut) (hrep : s.playloop.repeats = 0) :
    s.completed clear = { s.countIn.countCycle with ic := !s.ic } := by
  rw [completed_oneshot clear hmode hgo, endCycle_last clear (by exact hmode) (by exact h)
    (by exact hrep), pushNext_none (by exact h)]
  rfl

theorem completed_empty {s : XoLoop} (clear : Clear) (hmode : s.aoContinuous = false)
    (hgo : (s.lastPushDone && s.continuousAtStart) = false)
    (h : s.shotBufferCount ≤ s.dmaBuffersOut)
    (hnone : wrap (s.shotBufferCount + s.shotBufferCount0) ≤ s.dmaBuffersOut)
    (hrep : 0 < s.playloop.repeats) :
    s.completed clear = { s.countIn.again with ic := !s.ic } := by
  rw [completed_oneshot clear hmode hgo, endCycle_repeat clear (by exact hmode)
    (by exact h) (by exact hrep), pushNext_none (by exact hnone)]
  rfl

/-! ### In either mode -/

theorem clearIf_cases (s : XoLoop) (here : Bool) :
    ∃ mode, s.clearIf here = { s with playloop := { s.playloop with oneshot := mode } } ∧
      (s.aoContinuous = false → mode = s.playloop.oneshot) := by
  unfold clearIf
  by_cases h : (here && s.aoContinuous) = true
  · rw [if_pos h]
    refine ⟨.oneshot, rfl, fun hmode => ?_⟩
    rw [hmode, Bool.and_false] at h
    cases h
  · rw [if_neg h]
    exact ⟨s.playloop.oneshot, rfl, fun _ => rfl⟩

theorem endCycle_cases (s : XoLoop) (clear : Clear) :
    (s.dmaBuffersOut < s.shotBufferCount ∧ s.endCycle clear = s) ∨
    (s.shotBufferCount ≤ s.dmaBuffersOut ∧ s.aoContinuous = false ∧ s.playloop.repeats = 0 ∧
      s.endCycle clear = s.countCycle) ∨
    (s.shotBufferCount ≤ s.dmaBuffersOut ∧ (s.aoContinuous = true ∨ 0 < s.playloop.repeats) ∧
      ∃ mode repeats, (s.aoContinuous = false → mode = s.playloop.oneshot) ∧
        s.endCycle clear = { s.again with
          playloop := { s.again.playloop with oneshot := mode, repeats := repeats } }) := by
  by_cases h : s.dmaBuffersOut < s.shotBufferCount
  · exact Or.inl ⟨h, endCycle_during clear h⟩
  have hle := Int.not_lt.mp h
  refine Or.inr ?_
  by_cases hgo : (s.aoContinuous || decide (0 < s.playloop.repeats)) = true
  · refine Or.inr ⟨hle, by simpa using hgo, ?_⟩
    obtain ⟨mode, hclear, hmode⟩ := s.countCycle.nextCycle.clearIf_cases
      (decide (clear = .beforeRepeats))
    refine ⟨mode, if (s.countCycle.nextCycle.clearIf (decide (clear = .beforeRepeats))).aoContinuous
      then s.playloop.repeats + 1 else s.playloop.repeats - 1, hmode, ?_⟩
    unfold endCycle
    rw [if_pos hle]
    dsimp only
    rw [if_pos (by exact hgo), hclear]
    rfl
  · have hlast : s.aoContinuous = false ∧ s.playloop.repeats = 0 := by simpa using hgo
    exact Or.inl ⟨hle, hlast.1, hlast.2, endCycle_last clear hlast.1 hle hlast.2⟩

/-- The buffers of a cycle have been added to the count. -/
def Extends (s t : XoLoop) : Prop :=
  s.shotBufferCount ≤ s.dmaBuffersOut ∧
    t.shotBufferCount = wrap (s.shotBufferCount + s.shotBufferCount0)

/-- What a completion does that does not find the loop on its way out. -/
structure Completion (s t : XoLoop) : Prop where
  config : t.cfg = s.cfg
  length : t.playloop.length = s.playloop.length
  ic : t.ic = !s.ic
  count0 : t.shotBufferCount0 = s.shotBufferCount0
  atStart : t.continuousAtStart = s.continuousAtStart
  quit : t.quit = s.quit
  counted : t.dmaBuffersIn = s.dmaBuffersIn + 1
  count : t.shotBufferCount = s.shotBufferCount ∨ s.Extends t
  mode : s.aoContinuous = false → t.aoContinuous = false
  /-- A push on the channel in turn, the last one or not, or nothing left to push. -/
  pushed : (∃ p, t.pushes = s.pushes ++ [p] ∧ p.chan = s.ic ∧
      t.dmaBuffersOut = s.dmaBuffersOut + 1 ∧ t.dmaBuffersOut ≤ t.shotBufferCount ∧
      (p.flags = xflags s.ic ∧ t.lastPushDone = s.lastPushDone ∨
        p.flags = wflags s.ic ∧ t.lastPushDone = true ∧ t.aoContinuous = false ∧
          t.shotBufferCount ≤ t.dmaBuffersOut)) ∨
    (t.pushes = s.pushes ∧ t.dmaBuffersOut = s.dmaBuffersOut ∧
      t.lastPushDone = s.lastPushDone ∧ t.shotBufferCount ≤ t.dmaBuffersOut ∧
      (t.aoContinuous = false ∧ t.playloop.repeats = 0 ∨ s.Extends t))

theorem pushNext_cases (s : XoLoop) :
    (∃ p, s.pushNext.pushes = s.pushes ++ [p] ∧ p.chan = s.ic ∧
      s.pushNext.dmaBuffersOut = s.dmaBuffersOut + 1 ∧
      s.pushNext.dmaBuffersOut ≤ s.pushNext.shotBufferCount ∧
      (p.flags = xflags s.ic ∧ s.pushNext.lastPushDone = s.lastPushDone ∨
        p.flags = wflags s.ic ∧ s.pushNext.lastPushDone = true ∧ s.aoContinuous = false ∧
          s.pushNext.shotBufferCount ≤ s.pushNext.dmaBuffersOut)) ∨
    (s.shotBufferCount ≤ s.dmaBuffersOut ∧ s.pushNext = s) := by
  by_cases hlt : s.dmaBuffersOut < s.shotBufferCount
  · refine Or.inl ?_
    rw [pushNext_some hlt, pushed]
    refine ⟨_, rfl, rfl, rfl, Int.add_one_le_of_lt hlt, ?_⟩
    cases hlast : s.lastPush with
    | false => exact Or.inl ⟨rfl, rfl⟩
    | true =>
        have hboth : s.aoContinuous = false ∧ s.shotBufferCount ≤ s.dmaBuffersOut + 1 := by
          simpa [lastPush] using hlast
        exact Or.inr ⟨rfl, rfl, hboth.1, hboth.2⟩
  · exact Or.inr ⟨Int.not_lt.mp hlt, pushNext_none (Int.not_lt.mp hlt)⟩

/-- The loop when the cycle has been looked after and the push is still to come. -/
structure Cycled (s v : XoLoop) : Prop where
  config : v.cfg = s.cfg
  length : v.playloop.length = s.playloop.length
  ic : v.ic = s.ic
  count0 : v.shotBufferCount0 = s.shotBufferCount0
  atStart : v.continuousAtStart = s.continuousAtStart
  quit : v.quit = s.quit
  pushes : v.pushes = s.pushes
  out : v.dmaBuffersOut = s.dmaBuffersOut
  counted : v.dmaBuffersIn = s.dmaBuffersIn + 1
  last : v.lastPushDone = s.lastPushDone
  count : v.shotBufferCount = s.shotBufferCount ∨ s.Extends v
  mode : s.aoContinuous = false → v.aoContinuous = false
  drained : v.shotBufferCount ≤ v.dmaBuffersOut →
    v.aoContinuous = false ∧ v.playloop.repeats = 0 ∨ s.Extends v

theorem cycled (s : XoLoop) (clear : Clear) (here later : Bool) :
    Cycled s (((s.countIn.clearIf here).endCycle clear).clearIf later) := by
  obtain ⟨mode, hclear, hmode⟩ := s.countIn.clearIf_cases here
  have hkept : s.aoContinuous = false → decide (mode = .continuous) = false := fun h => by
    rw [hmode h]
    exact h
  rw [hclear]
  rcases endCycle_cases _ clear with
    ⟨hlt, hcycle⟩ | ⟨hle, hone, hrep, hcycle⟩ | ⟨hle, -, mode', repeats, hmode', hcycle⟩
  · rw [hcycle]
    obtain ⟨mode2, hclear2, hmode2⟩ := clearIf_cases _ later
    rw [hclear2]
    refine ⟨rfl, rfl, rfl, rfl, rfl, rfl, rfl, rfl, rfl, rfl, Or.inl rfl, fun h => ?_,
      fun hle => ?_⟩
    · have hone := hkept h
      rw [aoContinuous, hmode2 hone]
      exact hone
    · exact absurd hlt (Int.not_lt.mpr hle)
  · rw [hcycle]
    obtain ⟨mode2, hclear2, hmode2⟩ := clearIf_cases _ later
    rw [hclear2]
    have hone2 : decide (mode2 = .continuous) = false := by
      rw [hmode2 (by exact hone)]
      exact hone
    exact ⟨rfl, rfl, rfl, rfl, rfl, rfl, rfl, rfl, rfl, rfl, Or.inl rfl, fun _ => hone2,
      fun _ => Or.inl ⟨hone2, hrep⟩⟩
  · rw [hcycle]
    obtain ⟨mode2, hclear2, hmode2⟩ := clearIf_cases _ later
    rw [hclear2]
    refine ⟨rfl, rfl, rfl, rfl, rfl, rfl, rfl, rfl, rfl, rfl, Or.inr ⟨hle, rfl⟩, fun h => ?_,
      fun _ => Or.inr ⟨hle, rfl⟩⟩
    have hone : decide (mode' = .continuous) = false := by
      rw [hmode' (by exact hkept h)]
      exact hkept h
    rw [aoContinuous, hmode2 (by exact hone)]
    exact hone

theorem completed_completion (s : XoLoop) (clear : Clear)
    (hgo : (s.lastPushDone && s.continuousAtStart) = false) :
    Completion s (s.completed clear) := by
  have hgo' : (s.countIn.lastPushDone && s.countIn.continuousAtStart) = false := hgo
  have hv := s.cycled clear (decide (clear = .beforeCycle)) (decide (clear ≠ .never))
  unfold completed
  simp only [hgo', Bool.false_eq_true, if_false]
  generalize ((s.countIn.clearIf (decide (clear = .beforeCycle))).endCycle clear).clearIf
    (decide (clear ≠ .never)) = v at hv
  have hrest : v.pushNext.cfg = v.cfg ∧ v.pushNext.playloop.length = v.playloop.length ∧
      v.pushNext.ic = v.ic ∧ v.pushNext.shotBufferCount0 = v.shotBufferCount0 ∧
      v.pushNext.continuousAtStart = v.continuousAtStart ∧ v.pushNext.quit = v.quit ∧
      v.pushNext.dmaBuffersIn = v.dmaBuffersIn ∧ v.pushNext.shotBufferCount = v.shotBufferCount ∧
      v.pushNext.aoContinuous = v.aoContinuous := by
    by_cases hlt : v.dmaBuffersOut < v.shotBufferCount
    · rw [pushNext_some hlt]
      exact ⟨rfl, rfl, rfl, rfl, rfl, rfl, rfl, rfl, rfl⟩
    · rw [pushNext_none (Int.not_lt.mp hlt)]
      exact ⟨rfl, rfl, rfl, rfl, rfl, rfl, rfl, rfl, rfl⟩
  obtain ⟨hcfg, hlength, hic, hcount0, hstart, hquit, hin, hcount, hmode⟩ := hrest
  have hextends : s.Extends v → s.Extends { v.pushNext with ic := !v.pushNext.ic } :=
    fun h => ⟨h.1, hcount.trans h.2⟩
  refine ⟨hcfg.trans hv.config, hlength.trans hv.length, ?_, hcount0.trans hv.count0,
    hstart.trans hv.atStart, hquit.trans hv.quit, hin.trans hv.counted,
    hv.count.imp (hcount.trans ·) hextends, fun h => hmode.trans (hv.mode h), ?_⟩
  · show (!v.pushNext.ic) = !s.ic
    rw [hic, hv.ic]
  rcases v.pushNext_cases with ⟨p, hpushes, hchan, hone, hle, hflags⟩ | ⟨hle, hsame⟩
  · refine Or.inl ⟨p, hpushes.trans (by rw [hv.pushes]), hchan.trans hv.ic,
      hone.trans (by rw [hv.out]), hle, ?_⟩
    rcases hflags with ⟨hf, hl⟩ | ⟨hf, hl, hm, hc⟩
    · exact Or.inl ⟨by rw [hf, hv.ic], hl.trans hv.last⟩
    · exact Or.inr ⟨by rw [hf, hv.ic], hl, hmode.trans hm, hc⟩
  · rw [hsame] at hextends ⊢
    exact Or.inr ⟨hv.pushes, hv.out, hv.last, hle, (hv.drained hle).imp_right hextends⟩

/-- The mode cleared before it is looked at, with no repeats, leaves nothing to push. -/
theorem completed_cleared (s : XoLoop) (hgo : (s.lastPushDone && s.continuousAtStart) = false)
    (hcont : s.aoContinuous = true) (hall : s.shotBufferCount ≤ s.dmaBuffersOut)
    (hrep : s.playloop.repeats = 0) :
    s.completed .beforeCycle = { s.countIn.countCycle with
      ic := !s.ic
      playloop := { s.countIn.countCycle.playloop with oneshot := .oneshot } } := by
  have hgo' : (s.countIn.lastPushDone && s.countIn.continuousAtStart) = false := hgo
  have hcleared : s.countIn.clearIf (decide True)
      = { s.countIn with playloop := { s.countIn.playloop with oneshot := .oneshot } } :=
    if_pos hcont
  unfold completed
  simp only [hgo', Bool.false_eq_true, if_false]
  rw [hcleared, endCycle_last _ rfl (by exact hall) (by exact hrep), clearIf_oneshot (by rfl),
    pushNext_none (by exact hall)]
  rfl

/-- A completion that finds the cycle pushed and goes on pushes on the channel in turn. -/
theorem completed_extends (s : XoLoop) (clear : Clear)
    (hgo : (s.lastPushDone && s.continuousAtStart) = false)
    (hall : s.shotBufferCount ≤ s.dmaBuffersOut)
    (hmore : s.dmaBuffersOut < wrap (s.shotBufferCount + s.shotBufferCount0))
    (hagain : (s.aoContinuous = true ∧ clear ≠ .beforeCycle) ∨ 0 < s.playloop.repeats) :
    ∃ p, (s.completed clear).pushes = s.pushes ++ [p] ∧ p.chan = s.ic := by
  have hgo' : (s.countIn.lastPushDone && s.countIn.continuousAtStart) = false := hgo
  unfold completed
  simp only [hgo', Bool.false_eq_true, if_false]
  obtain ⟨mode, hclear, hmode⟩ := s.countIn.clearIf_cases (decide (clear = .beforeCycle))
  have hcont : s.aoContinuous = true ∧ clear ≠ .beforeCycle →
      s.countIn.clearIf (decide (clear = .beforeCycle)) = s.countIn := fun h => by
    rw [decide_eq_false h.2]
    exact if_neg (by rw [Bool.false_and]; exact Bool.false_ne_true)
  rcases endCycle_cases (s.countIn.clearIf (decide (clear = .beforeCycle))) clear with
    ⟨hlt, -⟩ | ⟨-, hone, hrep, -⟩ | ⟨-, -, mode', repeats, -, hcycle⟩
  · rw [hclear] at hlt
    exact absurd hall (Int.not_le.mpr hlt)
  · exfalso
    rcases hagain with hc | hpos
    · rw [hcont hc] at hone
      exact absurd (hc.1.symm.trans hone) (by decide)
    · rw [hclear] at hrep
      exact UInt32.pos_iff_ne_zero.mp hpos hrep
  · rw [hcycle, hclear]
    obtain ⟨mode2, hclear2, -⟩ := clearIf_cases _ (decide (clear ≠ .never))
    rw [hclear2, pushNext_some (by exact hmore)]
    exact ⟨_, rfl, rfl⟩

/-! ### Runs -/

theorem step_cases {s t : XoLoop} {clear : Clear} (h : XoLoop.step s clear = some t) :
    ¬s.Done ∧ (t = { s with quit := true } ∨
      s.dmaBuffersIn < s.dmaBuffersOut ∧ t = s.completed clear) := by
  unfold XoLoop.step at h
  split at h
  · cases h
  rename_i hdone
  split at h
  · rename_i hin
    exact ⟨hdone, Or.inr ⟨hin, (Option.some.inj h).symm⟩⟩
  · exact ⟨hdone, Or.inl (Option.some.inj h).symm⟩

theorem completed_quit {s : XoLoop} (clear : Clear)
    (hgo : (s.lastPushDone && s.continuousAtStart) = true) :
    s.completed clear = { s.countIn with quit := true } := by
  unfold completed
  exact if_pos hgo

/-- The counts are values of type `int`, and no more than two pushes are in flight. -/
structure Counted (s : XoLoop) : Prop where
  count : InRange s.shotBufferCount
  count0 : InRange s.shotBufferCount0
  issued : s.pushes.length = s.dmaBuffersOut
  out_lt : s.dmaBuffersOut < 2147483648
  flight : s.dmaBuffersOut ≤ s.dmaBuffersIn + 2

theorem inRange_tdiv {x : Int} (h : InRange x) (a : Nat) : InRange (x.tdiv a) := by
  unfold InRange at h ⊢
  obtain ⟨n, rfl | rfl⟩ := Int.eq_nat_or_neg x
  · have hle := Nat.div_le_self n a
    rw [← Int.ofNat_tdiv]
    generalize n / a = q at hle ⊢
    omega
  · have hle := Nat.div_le_self n a
    rw [Int.neg_tdiv, ← Int.ofNat_tdiv]
    generalize n / a = q at hle ⊢
    omega

theorem counted_start (cfg : XoConfig) (playloop : AoPlayloop) : Counted (start cfg playloop) := by
  have hcount0 : InRange (init cfg playloop).shotBufferCount0 := by
    rw [init_count0]
    exact inRange_tdiv (inRange_wrap _) _
  have hcount : InRange (init cfg playloop).shotBufferCount := by
    rw [init_count]
    generalize (init cfg playloop).shotBufferCount0 = q at hcount0 ⊢
    split
    · exact inRange_wrap _
    · exact hcount0
  rcases Int.lt_or_le 1 (init cfg playloop).shotBufferCount with hpair | hsingle
  · rw [start_pair cfg playloop hpair]
    generalize init cfg playloop = s at hcount hcount0 ⊢
    exact ⟨hcount, hcount0, rfl, (by decide : 2 < 2147483648), Nat.le_add_left 2 _⟩
  · rw [start_single cfg playloop hsingle]
    generalize init cfg playloop = s at hcount hcount0 ⊢
    exact ⟨hcount, hcount0, rfl, (by decide : 1 < 2147483648), Nat.le_add_left 1 (_ + 1)⟩

theorem Counted.step {s t : XoLoop} {clear : Clear} (h : Counted s)
    (hstep : XoLoop.step s clear = some t) : Counted t := by
  have hflight := h.flight
  obtain ⟨-, rfl | ⟨-, rfl⟩⟩ := step_cases hstep
  · exact ⟨h.count, h.count0, h.issued, h.out_lt, h.flight⟩
  by_cases hgo : (s.lastPushDone && s.continuousAtStart) = true
  · rw [completed_quit clear hgo]
    exact ⟨h.count, h.count0, h.issued, h.out_lt, Nat.le_trans h.flight (by exact Nat.le_succ _)⟩
  have hc := s.completed_completion clear (Bool.eq_false_iff.mpr hgo)
  have hin := hc.counted
  have hcount : InRange (s.completed clear).shotBufferCount := by
    rcases hc.count with heq | hext
    · exact heq ▸ h.count
    · exact hext.2 ▸ inRange_wrap _
  rcases hc.pushed with ⟨p, hpushes, -, hout, hle, -⟩ | ⟨hpushes, hout, -⟩
  · refine ⟨hcount, hc.count0 ▸ h.count0, ?_, ?_, by omega⟩
    · rw [hpushes, List.length_append, h.issued, hout, List.length_singleton]
    · have := hcount.2
      omega
  · exact ⟨hcount, hc.count0 ▸ h.count0, by rw [hpushes, hout, h.issued], hout ▸ h.out_lt,
      by omega⟩

/-! ### Nothing more is pushed -/

/-- However often the buffers of a cycle are added to the count for what is in flight, they have
all been pushed: the count has wrapped, or nothing is added. -/
structure Stalled (s : XoLoop) : Prop where
  all : s.shotBufferCount ≤ s.dmaBuffersOut
  more : ∀ j : Nat, s.dmaBuffersIn + j < s.dmaBuffersOut →
    wrap (s.shotBufferCount + (j + 1) * s.shotBufferCount0) ≤ s.dmaBuffersOut

theorem Stalled.completion {s t : XoLoop} (h : Stalled s) (hin : s.dmaBuffersIn < s.dmaBuffersOut)
    (hc : Completion s t) : t.pushes = s.pushes ∧ Stalled t := by
  have hall := h.all
  have hone := h.more 0 hin
  rw [Int.natCast_zero, Int.zero_add, Int.one_mul] at hone
  have hle : t.shotBufferCount ≤ s.dmaBuffersOut := by
    rcases hc.count with heq | hext
    · exact heq ▸ hall
    · exact hext.2 ▸ hone
  rcases hc.pushed with ⟨p, -, -, hout, hlt, -⟩ | ⟨hpushes, hout, -⟩
  · omega
  refine ⟨hpushes, hout ▸ hle, fun j hj => ?_⟩
  rw [hc.counted, hout] at hj
  rw [hc.count0, hout]
  rcases hc.count with heq | hext
  · exact heq ▸ h.more j (by omega)
  · have hnext := h.more (j + 1) (by omega)
    rw [Int.natCast_add, Int.natCast_one, Int.add_mul _ 1, Int.one_mul, Int.add_comm _ 
      s.shotBufferCount0, ← Int.add_assoc] at hnext
    rw [hext.2, wrap_add]
    exact hnext

/-- A count that wraps when the next cycle is added to it does not get back to what has been
pushed while the pushes in flight come in. -/
theorem Counted.stalled {s : XoLoop} (h : Counted s) (hcount0 : 0 ≤ s.shotBufferCount0)
    (hall : s.shotBufferCount = s.dmaBuffersOut)
    (hnone : wrap (s.shotBufferCount + s.shotBufferCount0) ≤ s.dmaBuffersOut) : Stalled s := by
  obtain ⟨-, hlt⟩ := h.count
  obtain ⟨-, hlt0⟩ := h.count0
  have hflight := h.flight
  refine ⟨Int.le_of_eq hall, fun j hj => ?_⟩
  have hj : j = 0 ∨ j = 1 := by omega
  unfold wrap at hnone ⊢
  rw [Int.bmod_def] at hnone ⊢
  rcases hj with rfl | rfl
  · omega
  · omega

/-- The loop is done or on its way out, or it finds everything pushed. -/
def Over (s : XoLoop) : Prop :=
  s.Done ∨ (s.lastPushDone && s.continuousAtStart) = true ∨
    (s.aoContinuous = false ∧ s.playloop.repeats = 0 ∧ s.shotBufferCount ≤ s.dmaBuffersOut) ∨
    Stalled s

theorem Over.step {s t : XoLoop} {clear : Clear} (h : Over s)
    (hstep : XoLoop.step s clear = some t) : t.pushes = s.pushes ∧ Over t := by
  obtain ⟨hdone, rfl | ⟨hin, rfl⟩⟩ := step_cases hstep
  · exact ⟨rfl, Or.inl (Or.inl rfl)⟩
  by_cases hgo : (s.lastPushDone && s.continuousAtStart) = true
  · rw [completed_quit clear hgo]
    exact ⟨rfl, Or.inl (Or.inl rfl)⟩
  have hgo' := Bool.eq_false_iff.mpr hgo
  rcases h with hd | hend | ⟨hmode, hrep, hall⟩ | hstalled
  · exact absurd hd hdone
  · exact absurd hend hgo
  · rw [completed_last clear hmode hgo' hall hrep]
    exact ⟨rfl, Or.inr (Or.inr (Or.inl ⟨hmode, hrep, hall⟩))⟩
  · obtain ⟨hpushes, ht⟩ := hstalled.completion hin (s.completed_completion clear hgo')
    exact ⟨hpushes, Or.inr (Or.inr (Or.inr ht))⟩

theorem Over.run {s t : XoLoop} {acts : List Clear} (h : Over s)
    (hrun : Lts.run XoLoop.step s acts = some t) : t.pushes = s.pushes :=
  (Lts.run_invariant (fun u => Over u ∧ u.pushes = s.pushes) (fun _ _ _ hu hstep =>
    ⟨(hu.1.step hstep).2, (hu.1.step hstep).1.trans hu.2⟩) _ _ _ ⟨h, rfl⟩ hrun).2

end XoLoop

/--
The order in which the DMAC plays the pushes.  Of the two it is primed with, the
first that is set up waits for the second.
-/
def playOrder : List Push → List Push
  | a :: b :: rest =>
    if a.flags.waits a.chan && !b.flags.waits b.chan then b :: a :: rest else a :: b :: rest
  | pushes => pushes

/-- Enough has been pushed for the order of the first pair to be known. -/
def Primed : List Push → Prop
  | [] => False
  | [p] => p.flags.waits p.chan = false
  | _ => True

theorem playOrder_append {pushes : List Push} (h : Primed pushes) (p : Push) :
    playOrder (pushes ++ [p]) = playOrder pushes ++ [p] := by
  match pushes, h with
  | [a], h =>
      have hw : a.flags.waits a.chan = false := h
      simp [playOrder, hw]
  | a :: b :: rest, _ =>
      simp only [playOrder, List.cons_append]
      split <;> rfl

theorem Primed.append {pushes : List Push} (h : Primed pushes) (p : Push) :
    Primed (pushes ++ [p]) := by
  match pushes, h with
  | [_], _ => trivial
  | _ :: _ :: _, _ => trivial

namespace XoLoop

/-- The loop before its first iteration. -/
structure Started (cfg : XoConfig) (playloop : AoPlayloop) (s : XoLoop) : Prop where
  config : s.cfg = cfg
  length : s.playloop.length = playloop.length
  oneshot : s.playloop.oneshot = playloop.oneshot
  repeats : s.playloop.repeats = playloop.repeats
  cursor : s.playloop.cursor = 0
  pull : s.playloop.pullBuf = cfg.firstDistributorBuffer + s.dmaBuffersOut
  ic : s.ic = false
  count0 : s.shotBufferCount0 = (init cfg playloop).shotBufferCount0
  count : s.shotBufferCount = (init cfg playloop).shotBufferCount
  atStart : s.continuousAtStart = decide (playloop.oneshot = .continuous)
  last : s.lastPushDone = false
  quit : s.quit = false
  out : s.dmaBuffersOut = if 1 < (init cfg playloop).shotBufferCount then 2 else 1
  none_in : s.dmaBuffersIn = 0
  primed : Primed s.pushes
  bufs : (playOrder s.pushes).map Push.ix =
    List.range' cfg.firstDistributorBuffer s.dmaBuffersOut

theorem started (cfg : XoConfig) (playloop : AoPlayloop) :
    Started cfg playloop (start cfg playloop) := by
  rcases Int.lt_or_le 1 (init cfg playloop).shotBufferCount with hpair | hsingle
  · rw [start_pair cfg playloop hpair]
    exact ⟨rfl, rfl, rfl, rfl, rfl, rfl, rfl, by dsimp only, by dsimp only, rfl, rfl, rfl,
      (if_pos hpair).symm, rfl, trivial, rfl⟩
  · rw [start_single cfg playloop hsingle]
    exact ⟨rfl, rfl, rfl, rfl, rfl, rfl, rfl, by dsimp only, by dsimp only, rfl, rfl, rfl,
      (if_neg (Int.not_lt.mpr hsingle)).symm, rfl, rfl, rfl⟩

end XoLoop

end Acq400
