/-
`axi64_dual_data_loop` keeps its two buffers in step with INFLIGHT.

The thread holds two buffers in `hbm0` and `hbm1` and puts them with two calls of
`putFull`, which takes whatever is first on INFLIGHT.  So INFLIGHT has to be exactly
that pair whenever the thread is at the top of its loop, and `InPairs` says what it is
at every program counter.

The pair is taken by two calls of `getEmpty` with the reader in between.  Nothing goes
wrong while both succeed or both fail; `PairsAvailable` is that condition, on what there is
before each call.  With catch-up the thread does not call `getEmpty` for a last time when there is
no pair, as `axi64_data_loop` does, and is left with the pair it has put already.
-/
import Acq400.Lib.Run
import Acq400.Driver.DataLoop

namespace Acq400

/-- `INFLIGHT` is the pair the thread has in `hbm0` and `hbm1`. -/
def HoldsPair (hbm0 hbm1 : Option HbmPtr) (inflight : List HbmPtr) : Prop :=
  ∃ b0 b1, hbm0 = some b0 ∧ hbm1 = some b1 ∧ inflight = [b0, b1]

/-- `INFLIGHT` is the second buffer of the pair. -/
def HoldsSecond (hbm1 : Option HbmPtr) (inflight : List HbmPtr) : Prop :=
  ∃ b1, hbm1 = some b1 ∧ inflight = [b1]

/-- What is on INFLIGHT, and on EMPTIES where it matters, while the thread is at `pc`. -/
def DualPc.Holds (hbm0 hbm1 : Option HbmPtr) (inflight empties : List HbmPtr) : DualPc → Prop
  | .top | .putFull0 | .catchupPut0 => HoldsPair hbm0 hbm1 inflight
  | .putFull1 | .catchupPut1 => HoldsSecond hbm1 inflight
  | .catchupTake0 => inflight = [] ∧ 2 ≤ empties.length
  | .catchupTake1 => ∃ b0, hbm0 = some b0 ∧ inflight = [b0] ∧ empties ≠ []
  | .hold1 | .take1 | .retake1 => inflight = hbm0.toList
  | .check => HoldsPair hbm0 hbm1 inflight ∨ (hbm0 = none ∧ hbm1 = none ∧ inflight = [])
  | .poison | .checkPoison | .hold0 | .catchup | .take0 | .discard0 | .discard1 | .retake0 =>
    inflight = []
  | .quit | .exited | .oops => True

/-- The invariant of the thread. -/
def InPairs (s : DualLoop) : Prop :=
  s.pc.Holds s.hbm0 s.hbm1 (s.dev.lists .inflight) (s.dev.lists .empties)

/--
There is a pair when the thread looks for one with catch-up; without, there is a second buffer
when the thread comes for it if and only if there was a first.
-/
def PairsAvailable (s : DualLoop) : LoopAct → Prop
  | .thread _ =>
    (s.pc = .catchup → 2 ≤ (s.dev.lists .empties).length) ∧
      (s.pc = .take1 → (s.hbm0 = none ↔ s.dev.lists .empties = []))
  | .beside _ => True

instance (s : DualLoop) : ∀ act, Decidable (PairsAvailable s act)
  | .thread _ => inferInstanceAs (Decidable (_ ∧ _))
  | .beside _ => isTrue trivial

namespace InPairs

variable {s s' : DualLoop}

theorem getEmpty_some {dev : Dev} (havail : dev.lists .empties ≠ []) :
    ∃ b, dev.getEmpty.1 = some b := by
  obtain ⟨b, rest, he⟩ := List.exists_cons_of_ne_nil havail
  exact ⟨b, by rw [dev.getEmpty_inflight.2.1, he]; rfl⟩

theorem getEmpty_holdsOne {dev : Dev} (hi : dev.lists .inflight = [])
    (havail : 2 ≤ (dev.lists .empties).length) :
    ∃ b0, dev.getEmpty.1 = some b0 ∧ dev.getEmpty.2.lists .inflight = [b0] ∧
      dev.getEmpty.2.lists .empties ≠ [] := by
  obtain ⟨-, hsome, htail⟩ := dev.getEmpty_inflight
  cases he : dev.lists .empties with
  | nil => simp [he] at havail
  | cons b0 rest =>
      have hb0 : dev.getEmpty.1 = some b0 := by rw [hsome, he]; rfl
      refine ⟨b0, hb0, ?_, ?_⟩
      · rw [Dev.getEmpty_first hi, hb0]
        rfl
      · rw [htail, he]
        rintro hrest
        simp [he, show rest = [] from hrest] at havail

theorem getEmpty_holdsPair {dev : Dev} {hbm0 : Option HbmPtr}
    (hi : dev.lists .inflight = hbm0.toList) (hboth : hbm0 = none ↔ dev.lists .empties = []) :
    HoldsPair hbm0 dev.getEmpty.1 (dev.getEmpty.2.lists .inflight) ∨
      (hbm0 = none ∧ dev.getEmpty.1 = none ∧ dev.getEmpty.2.lists .inflight = []) := by
  cases hbm0 with
  | some b0 =>
      obtain ⟨b1, hb1⟩ := getEmpty_some (mt hboth.mpr (Option.some_ne_none b0))
      exact Or.inl ⟨b0, b1, rfl, hb1, Dev.getEmpty_second hi hb1⟩
  | none =>
      have hnone : dev.getEmpty.1 = none := by
        rw [dev.getEmpty_inflight.2.1, hboth.mp rfl]
        rfl
      refine Or.inr ⟨rfl, hnone, ?_⟩
      rw [Dev.getEmpty_first hi, hnone]
      rfl

theorem thread (h : InPairs s) {env : LoopEnv} (hpairs : PairsAvailable s (.thread env))
    (hstep : axi64DualDataLoop s env = some s') : InPairs s' := by
  obtain ⟨dev, pc, hbm0, hbm1, estop⟩ := s
  cases pc with
  | poison =>
      obtain rfl := Option.some.inj hstep
      show DualPc.Holds hbm0 hbm1 (dev.poisonAllBuffers.lists .inflight) _ .checkPoison
      rw [Dev.poisonAllBuffers_lists]
      exact h
  | checkPoison =>
      simp only [axi64DualDataLoop] at hstep
      split at hstep
      · obtain rfl := Option.some.inj hstep
        exact trivial
      · obtain rfl := Option.some.inj hstep
        exact h
  | hold0 =>
      have hi : dev.lists .inflight = [] := h
      obtain rfl := Option.some.inj hstep
      exact Dev.getEmpty_first hi
  | hold1 =>
      have hi : dev.lists .inflight = hbm0.toList := h
      simp only [axi64DualDataLoop] at hstep
      split at hstep
      · rename_i b0 b1 hb1
        obtain rfl := Option.some.inj hstep
        exact ⟨b0, b1, rfl, hb1, Dev.getEmpty_second hi hb1⟩
      · obtain rfl := Option.some.inj hstep
        exact trivial
  | top =>
      simp only [axi64DualDataLoop] at hstep
      split at hstep
      · obtain rfl := Option.some.inj hstep
        exact trivial
      · split at hstep
        · rename_i b0 b1
          split at hstep
          · obtain rfl := Option.some.inj hstep
            exact h
          · obtain rfl := Option.some.inj hstep
            have hholds : HoldsPair (some b0) (some b1) (dev.lists .inflight) := h
            have hlists := dev.pairDone_lists b0 b1
            simp only [InPairs]
            split
            · split
              · exact hlists ▸ hholds
              · exact hlists ▸ hholds
            · split
              · exact hlists ▸ hholds
              · exact hlists ▸ hholds
        · obtain rfl := Option.some.inj hstep
          exact trivial
  | putFull0 =>
      obtain ⟨b0, b1, -, rfl, hi⟩ := h
      obtain rfl := Option.some.inj hstep
      exact ⟨b1, rfl, (Dev.putFull_inflight hi).2⟩
  | putFull1 =>
      obtain ⟨b1, rfl, hi⟩ := h
      have hempty := (Dev.putFull_inflight hi).2
      obtain rfl := Option.some.inj hstep
      show DualPc.Holds hbm0 _ (dev.putFull.2.lists .inflight) _ _
      split
      · exact hempty
      · exact hempty
  | catchup =>
      have havail : 2 ≤ (dev.lists .empties).length := hpairs.1 rfl
      have hwaiting : dev.multipleEmptiesWaiting = true :=
        Dev.multipleEmptiesWaiting_iff.mpr havail
      simp only [axi64DualDataLoop, hwaiting] at hstep
      obtain rfl := Option.some.inj hstep
      exact ⟨h, havail⟩
  | catchupTake0 =>
      obtain rfl := Option.some.inj hstep
      exact getEmpty_holdsOne h.1 h.2
  | catchupTake1 =>
      obtain ⟨b0, rfl, hi, havail⟩ := h
      obtain ⟨b1, hb1⟩ := getEmpty_some havail
      have hpair : HoldsPair (some b0) (some b1) (dev.getEmpty.2.lists .inflight) :=
        ⟨b0, b1, rfl, rfl, Dev.getEmpty_second hi hb1⟩
      simp only [axi64DualDataLoop, hb1] at hstep
      split at hstep
      · obtain rfl := Option.some.inj hstep
        simp only [InPairs, Dev.dmaDone_lists]
        split
        · exact hpair
        · exact Or.inl hpair
      · obtain rfl := Option.some.inj hstep
        simp only [InPairs, Dev.dmaDone_lists]
        exact Or.inl hpair
  | catchupPut0 =>
      obtain ⟨b0, b1, -, rfl, hi⟩ := h
      obtain rfl := Option.some.inj hstep
      exact ⟨b1, rfl, (Dev.putFull_inflight hi).2⟩
  | catchupPut1 =>
      obtain ⟨b1, rfl, hi⟩ := h
      obtain rfl := Option.some.inj hstep
      exact (Dev.putFull_inflight hi).2
  | take0 =>
      have hi : dev.lists .inflight = [] := h
      obtain rfl := Option.some.inj hstep
      exact Dev.getEmpty_first hi
  | take1 =>
      obtain rfl := Option.some.inj hstep
      exact getEmpty_holdsPair h (hpairs.2 rfl)
  | check =>
      simp only [axi64DualDataLoop] at hstep
      split at hstep
      · obtain rfl := Option.some.inj hstep
        exact trivial
      · split at hstep
        · obtain rfl := Option.some.inj hstep
          rcases h with hpair | ⟨hnone, -, -⟩
          · exact hpair
          · simp at hnone
        · rename_i hnone
          obtain rfl := Option.some.inj hstep
          rcases h with ⟨b0, b1, h0, h1, -⟩ | ⟨-, -, hi⟩
          · exact absurd h1 (hnone b0 b1 h0)
          · exact hi
  | discard0 =>
      obtain rfl := Option.some.inj hstep
      exact dev.moveListToEmpty_inflight.trans h
  | discard1 =>
      simp only [axi64DualDataLoop] at hstep
      split at hstep
      · obtain rfl := Option.some.inj hstep
        exact trivial
      · obtain rfl := Option.some.inj hstep
        exact dev.moveListToEmpty_inflight.trans h
  | retake0 =>
      have hi : dev.lists .inflight = [] := h
      obtain rfl := Option.some.inj hstep
      exact Dev.getEmpty_first hi
  | retake1 =>
      have hi : dev.lists .inflight = hbm0.toList := h
      simp only [axi64DualDataLoop] at hstep
      split at hstep
      · rename_i b0 b1 hb1
        obtain rfl := Option.some.inj hstep
        refine ⟨b0, b1, rfl, hb1, ?_⟩
        show ((dev.getEmpty.2.poisonOneBuffer b0).poisonOneBuffer b1).lists .inflight = [b0, b1]
        rw [Dev.poisonOneBuffer_lists, Dev.poisonOneBuffer_lists]
        exact Dev.getEmpty_second hi hb1
      · obtain rfl := Option.some.inj hstep
        exact trivial
  | quit =>
      obtain rfl := Option.some.inj hstep
      exact trivial
  | exited => simp [axi64DualDataLoop] at hstep
  | oops => simp [axi64DualDataLoop] at hstep

theorem beside (h : InPairs s) {b : Beside} {dev : Dev} (hstep : besideStep s.dev b = some dev) :
    InPairs { s with dev := dev } := by
  obtain ⟨hinflight, back, hback⟩ := besideStep_inflight hstep
  obtain ⟨dev₀, pc, hbm0, hbm1, estop⟩ := s
  show pc.Holds hbm0 hbm1 (dev.lists .inflight) (dev.lists .empties)
  rw [hinflight, hback]
  cases pc with
  | catchupTake0 =>
      refine ⟨h.1, ?_⟩
      have havail : 2 ≤ (dev₀.lists .empties).length := h.2
      show 2 ≤ (dev₀.lists .empties ++ back).length
      rw [List.length_append]
      omega
  | catchupTake1 =>
      obtain ⟨b0, h0, hi, havail⟩ := h
      exact ⟨b0, h0, hi, List.append_ne_nil_of_left_ne_nil havail back⟩
  | _ => exact h

theorem step (h : InPairs s) {act : LoopAct} (hpairs : PairsAvailable s act)
    (hstep : dualStep s act = some s') : InPairs s' := by
  cases act with
  | thread env => exact h.thread hpairs hstep
  | beside b =>
      simp only [dualStep, Option.map_eq_some_iff] at hstep
      obtain ⟨dev, hdev, rfl⟩ := hstep
      exact h.beside hdev

theorem putFull_first (h : HoldsPair s.hbm0 s.hbm1 (s.dev.lists .inflight)) :
    s.hbm0 ≠ none ∧ s.dev.putFull.1 = s.hbm0 := by
  obtain ⟨b0, b1, h0, -, hi⟩ := h
  rw [h0]
  exact ⟨by simp, (Dev.putFull_inflight hi).1⟩

theorem putFull_second (h : HoldsSecond s.hbm1 (s.dev.lists .inflight)) :
    s.hbm1 ≠ none ∧ s.dev.putFull.1 = s.hbm1 := by
  obtain ⟨b1, h1, hi⟩ := h
  rw [h1]
  exact ⟨by simp, (Dev.putFull_inflight hi).1⟩

theorem check_discards (h : InPairs s) (hpc : s.pc = .check)
    (hfew : (s.dev.lists .inflight).length < 2) {env : LoopEnv} (hfifo : env.fifoError = false) :
    ∃ s', axi64DualDataLoop s env = some s' ∧ s'.pc = .discard0 := by
  rw [InPairs, hpc] at h
  rcases h with ⟨b0, b1, -, -, hi⟩ | ⟨h0, -, -⟩
  · simp [hi] at hfew
  · refine ⟨{ s with dev := s.dev.countDropped, pc := .discard0 }, ?_, rfl⟩
    simp [axi64DualDataLoop, hpc, hfifo, h0]

end InPairs

/-! ### Pairing -/

/--
With catch-up and no pair to be had, the thread goes back to the top of its loop with the
buffers it has put already, and with nothing on INFLIGHT.
-/
theorem catchup_keeps_stale_pair {s : DualLoop} {env : LoopEnv} {b0 b1 : HbmPtr}
    (hpc : s.pc = .catchup) (h0 : s.hbm0 = some b0) (h1 : s.hbm1 = some b1)
    (hfew : (s.dev.lists .empties).length < 2) (hfifo : env.fifoError = false) :
    Lts.run dualStep s [.thread env, .thread env] = some { s with pc := .top } := by
  have hwaiting : s.dev.multipleEmptiesWaiting = false := by
    rw [← Bool.not_eq_true, Dev.multipleEmptiesWaiting_iff]
    omega
  simp [dualStep, axi64DualDataLoop, hpc, hwaiting, hfifo, h0, h1]

/--
**Pairing.**  In every run in which the two `getEmpty` of a pair succeed or fail together,
INFLIGHT is the pair in `hbm0` and `hbm1` at the top of the loop; every `putFull` takes
the buffer of the pair whose turn it is; and where there is no pair at the end of the
loop the thread discards the full buffers, or quits.
-/
theorem axi64_dual_data_loop_pairs (adev : Dev) {s : DualLoop} (acts : List LoopAct)
    (hinflight : adev.lists .inflight = [])
    (hpairs : Lts.Meets dualStep PairsAvailable (DualLoop.start adev) acts)
    (hrun : Lts.run dualStep (DualLoop.start adev) acts = some s) :
    (s.pc = .top → ∃ b0 b1, s.hbm0 = some b0 ∧ s.hbm1 = some b1 ∧
        s.dev.lists .inflight = [b0, b1]) ∧
      (s.pc = .putFull0 ∨ s.pc = .catchupPut0 → s.hbm0 ≠ none ∧ s.dev.putFull.1 = s.hbm0) ∧
      (s.pc = .putFull1 ∨ s.pc = .catchupPut1 → s.hbm1 ≠ none ∧ s.dev.putFull.1 = s.hbm1) ∧
      (s.pc = .check → (s.dev.lists .inflight).length < 2 →
        ∀ env : LoopEnv, env.fifoError = false →
          ∃ s', axi64DualDataLoop s env = some s' ∧ s'.pc = .discard0) := by
  have hstart : InPairs (DualLoop.start adev) := hinflight
  have h := Lts.run_invariant_of InPairs
    (fun _ _ _ h hp hstep => h.step hp hstep) acts _ s hstart hpairs hrun
  refine ⟨fun hpc => ?_, ?_, ?_, fun hpc hfew env hfifo => h.check_discards hpc hfew hfifo⟩
  · rw [InPairs, hpc] at h
    exact h
  · rintro (hpc | hpc)
    · rw [InPairs, hpc] at h
      exact InPairs.putFull_first h
    · rw [InPairs, hpc] at h
      exact InPairs.putFull_first h
  · rintro (hpc | hpc)
    · rw [InPairs, hpc] at h
      exact InPairs.putFull_second h
    · rw [InPairs, hpc] at h
      exact InPairs.putFull_second h

private def pairsOf (n : Nat) (par : Params) : Dev :=
  (Dev.allocated n 4096 par fun _ _ => 0).initAxi64Hbm2 (List.range n) n

/-- The first pair is filled and put, and the thread looks for the next. -/
private def firstPair : List LoopAct :=
  List.replicate 4 .tick ++ [0, 1].flatMap (LoopAct.fill 4096) ++ List.replicate 3 .tick

/-- With two pairs, the thread waits for the second when it has put the first. -/
theorem axi64_dual_data_loop_pairs_second :
    ∃ s, Lts.run dualStep (DualLoop.start (pairsOf 4 .loaded))
        (firstPair ++ [.deliver, .tick, .beside .putEmpty] ++ List.replicate 3 .tick) = some s ∧
      (s.pc = .top → ∃ b0 b1, s.hbm0 = some b0 ∧ s.hbm1 = some b1 ∧
        s.dev.lists .inflight = [b0, b1]) ∧
      (s.pc = .putFull0 ∨ s.pc = .catchupPut0 → s.hbm0 ≠ none ∧ s.dev.putFull.1 = s.hbm0) ∧
      (s.pc = .putFull1 ∨ s.pc = .catchupPut1 → s.hbm1 ≠ none ∧ s.dev.putFull.1 = s.hbm1) ∧
      (s.pc = .check → (s.dev.lists .inflight).length < 2 →
        ∀ env : LoopEnv, env.fifoError = false →
          ∃ s', axi64DualDataLoop s env = some s' ∧ s'.pc = .discard0) := by
  have hpairs : Lts.Meets dualStep PairsAvailable (DualLoop.start (pairsOf 4 .loaded))
      (firstPair ++ [LoopAct.deliver, .tick, .beside .putEmpty] ++
        List.replicate 3 LoopAct.tick) := by
    decide +kernel
  obtain ⟨s, hrun, -⟩ := Lts.exists_of_any dualStep (DualLoop.start (pairsOf 4 .loaded))
    (firstPair ++ [LoopAct.deliver, .tick, .beside .putEmpty] ++
        List.replicate 3 LoopAct.tick)
    (fun s => s.pc = .top) (by decide +kernel)
  exact ⟨s, hrun, axi64_dual_data_loop_pairs (pairsOf 4 .loaded) _ rfl hpairs hrun⟩

private def noCatchup : Params := { Params.loaded with axiDmaHasCatchup := false }

/-- Two pairs are put, and the reader puts back one buffer before the next is looked for. -/
private def singleBack : List LoopAct :=
  firstPair ++ List.replicate 3 .tick ++ [2, 3].flatMap (LoopAct.fill 4096)
    ++ List.replicate 3 .tick ++ [.deliver, .beside .putEmpty] ++ List.replicate 7 .tick

/--
With one pair and catch-up the thread waits again for the pair it has put, and `putFull`
finds nothing.  Without catch-up, a single buffer that has come back stays on INFLIGHT
and is put in the place of the next pair's first.
-/
theorem axi64_dual_data_loop_stale :
    (∃ s, Lts.run dualStep (DualLoop.start (pairsOf 2 .loaded))
        (firstPair ++ [.tick, .tick, .tick]) = some s ∧
      s.pc = .putFull0 ∧ s.hbm0 = some 0 ∧ s.dev.lists .inflight = [] ∧
      s.dev.lists .refills = [0, 1] ∧ s.dev.lists .empties = [] ∧ s.dev.putFull.1 = none) ∧
    (∃ s, Lts.run dualStep (DualLoop.start (pairsOf 4 noCatchup)) singleBack = some s ∧
      s.pc = .top ∧ s.hbm0 = some 1 ∧ s.hbm1 = some 2 ∧ s.dev.lists .inflight = [0, 1, 2]) := by
  refine ⟨?_, ?_⟩
  · obtain ⟨s, hrun, hs⟩ := Lts.exists_of_any dualStep (DualLoop.start (pairsOf 2 .loaded))
      (firstPair ++ [.tick, .tick, .tick])
      (fun s => s.pc = .putFull0 ∧ s.hbm0 = some 0 ∧ s.dev.lists .inflight = [] ∧
        s.dev.lists .refills = [0, 1] ∧ s.dev.lists .empties = [] ∧ s.dev.putFull.1 = none)
      (by decide +kernel)
    exact ⟨s, hrun, of_decide_eq_true hs⟩
  · obtain ⟨s, hrun, hs⟩ := Lts.exists_of_any dualStep
      (DualLoop.start (pairsOf 4 noCatchup)) singleBack
      (fun s => s.pc = .top ∧ s.hbm0 = some 1 ∧ s.hbm1 = some 2 ∧
        s.dev.lists .inflight = [0, 1, 2]) (by decide +kernel)
    exact ⟨s, hrun, of_decide_eq_true hs⟩

end Acq400
