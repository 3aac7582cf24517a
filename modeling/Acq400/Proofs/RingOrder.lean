/-
`axi64_data_loop` against the descriptor ring.

The AXI DMA engine fills the buffers of a cyclic descriptor chain, in the order in
which they were on EMPTIES when the chain was made.  The thread waits for one
buffer at a time, so it has to take them in that order too.  The buffers go round
OPENS, REFILLS, INFLIGHT and EMPTIES as the tokens of `Rotation.Stations`, and
`InRingOrder` is what holds at every program counter: the four lists read off in
that order are a rotation of the ring, and INFLIGHT holds what the thread is at.

Buffer exhaustion is the one place where buffers overtake others.  The thread finds
EMPTIES empty and then sends REFILLS to it; `list_mutex` is free in between, and a
buffer the reader puts back there is passed by the older ones on OPENS.
-/
import Acq400.Lib.Run
import Acq400.Lib.Rotation
import Acq400.Driver.DataLoop

namespace Acq400

open Rotation

namespace Dev

/-- The lists as the stations of the ring. -/
def stations (adev : Dev) : Stations HbmPtr :=
  { opens := adev.lists .opens
    refills := adev.lists .refills
    inflight := adev.lists .inflight
    empties := adev.lists .empties }

variable {adev adev' : Dev} {hbm : HbmPtr} {rest : List HbmPtr}

theorem stations_congr (h : adev'.lists = adev.lists) : adev'.stations = adev.stations := by
  simp [stations, h]

theorem stations_take (h : adev'.lists = adev.shifted .empties .inflight hbm rest) :
    adev'.stations =
      { adev.stations with inflight := adev.lists .inflight ++ [hbm], empties := rest } := by
  simp [stations, h, shifted]

theorem stations_complete (h : adev'.lists = adev.shifted .inflight .refills hbm rest) :
    adev'.stations =
      { adev.stations with refills := adev.lists .refills ++ [hbm], inflight := rest } := by
  simp [stations, h, shifted]

theorem stations_deliver (h : adev'.lists = adev.shifted .refills .opens hbm rest) :
    adev'.stations =
      { adev.stations with opens := adev.lists .opens ++ [hbm], refills := rest } := by
  simp [stations, h, shifted]

theorem stations_release (h : adev'.lists = adev.shifted .opens .empties hbm rest) :
    adev'.stations =
      { adev.stations with opens := rest, empties := adev.lists .empties ++ [hbm] } := by
  simp [stations, h, shifted]

theorem stations_discard (adev : Dev) :
    (adev.moveListToEmpty .refills).stations =
      { adev.stations with
        refills := [], empties := adev.lists .empties ++ adev.lists .refills } := by
  simp [stations, moveListToEmpty, moveListTo_lists (show ListHead.refills ≠ .empties by decide)]

end Dev

/-- What is on INFLIGHT while the thread is at `pc`. -/
def AxiPc.Holds (hbm : Option HbmPtr) (inflight : List HbmPtr) : AxiPc → Prop
  | .top | .putFull | .catchupPut => ∃ b, hbm = some b ∧ inflight = [b]
  | .check => inflight = hbm.toList
  | .poison | .checkPoison | .hold | .catchup | .take | .discard | .retake => inflight = []
  | .quit | .exited | .oops => True

/-- The invariant of the thread. -/
structure InRingOrder (ring : List HbmPtr) (s : AxiLoop) : Prop where
  follows : s.dev.stations.Follows ring
  holds : s.pc.Holds s.hbm (s.dev.lists .inflight)

/-- The discard is taken where there is nothing for it to overtake. -/
def DiscardSafe (s : AxiLoop) : LoopAct → Prop
  | .thread _ => s.pc = .discard →
      s.dev.lists .opens = [] ∨ s.dev.lists .refills = [] ∨ s.dev.lists .empties = []
  | .beside _ => True

instance (s : AxiLoop) : ∀ act, Decidable (DiscardSafe s act)
  | .thread _ => inferInstanceAs (Decidable (_ → _))
  | .beside _ => isTrue trivial

/-! ### The operations of the thread on the stations -/

section Operations

variable {ring : List HbmPtr} {adev : Dev}

/-- `getEmpty` with nothing in work: what it returns is what is in work then. -/
theorem follows_getEmpty (h : adev.stations.Follows ring) (hi : adev.lists .inflight = []) :
    adev.getEmpty.2.stations.Follows ring ∧
      adev.getEmpty.2.lists .inflight = adev.getEmpty.1.toList := by
  cases he : adev.lists .empties with
  | nil =>
      obtain ⟨hnone, hlists⟩ := Dev.getEmpty_nil he
      rw [Dev.stations_congr hlists, hnone, hlists]
      exact ⟨h, hi⟩
  | cons hbm rest =>
      obtain ⟨hsome, hlists⟩ := Dev.getEmpty_cons he
      refine ⟨?_, ?_⟩
      · rw [Dev.stations_take hlists]
        exact h.of_cycle_eq (Stations.take_cycle (q := adev.stations) he)
      · rw [hsome, hlists]
        simp [Dev.shifted, hi]

theorem follows_putFull {hbm : HbmPtr} (h : adev.stations.Follows ring)
    (hi : adev.lists .inflight = [hbm]) :
    adev.putFull.2.stations.Follows ring ∧ adev.putFull.2.lists .inflight = [] := by
  have hlists := (Dev.putFull_cons hi).2
  refine ⟨?_, ?_⟩
  · rw [Dev.stations_complete hlists]
    exact h.of_cycle_eq (Stations.complete_cycle (q := adev.stations) hi)
  · rw [hlists]
    simp [Dev.shifted]

/-- What goes on beside the thread keeps the order and does not touch what is in work. -/
theorem follows_beside {adev' : Dev} {b : Beside} (h : adev.stations.Follows ring)
    (hstep : besideStep adev b = some adev') :
    adev'.stations.Follows ring ∧ adev'.lists .inflight = adev.lists .inflight := by
  refine ⟨?_, (besideStep_inflight hstep).1⟩
  rcases besideStep_cases hstep with ⟨hbm, rest, hl, hlists⟩ | ⟨hbm, rest, hl, hlists⟩ | hlists
  · rw [Dev.stations_deliver hlists]
    exact h.of_cycle_eq (Stations.deliver_cycle (q := adev.stations) hl)
  · rw [Dev.stations_release hlists]
    exact h.release hl
  · rw [Dev.stations_congr hlists]
    exact h

theorem follows_moveListToEmpty_iff (hnodup : ring.Nodup) (h : adev.stations.Follows ring)
    (hi : adev.lists .inflight = []) :
    (adev.moveListToEmpty .refills).stations.Follows ring ↔
      adev.lists .opens = [] ∨ adev.lists .refills = [] ∨ adev.lists .empties = [] := by
  rw [Dev.stations_discard]
  exact Stations.follows_discard_iff hnodup h hi

end Operations

namespace InRingOrder

variable {ring : List HbmPtr} {s s' : AxiLoop}

private theorem frame (h : InRingOrder ring s) {dev : Dev} {pc : AxiPc} {hbm : Option HbmPtr}
    (hlists : dev.lists = s.dev.lists) (hholds : pc.Holds hbm (s.dev.lists .inflight)) :
    InRingOrder ring { dev := dev, pc := pc, hbm := hbm } := by
  refine ⟨?_, by rw [hlists]; exact hholds⟩
  rw [Dev.stations_congr hlists]
  exact h.follows

theorem thread (hnodup : ring.Nodup) (h : InRingOrder ring s) {env : LoopEnv}
    (hsafe : DiscardSafe s (.thread env)) (hstep : axi64DataLoop s env = some s') :
    InRingOrder ring s' := by
  obtain ⟨dev, pc, hbm⟩ := s
  have hholds := h.holds
  cases pc with
  | poison =>
      obtain rfl := Option.some.inj hstep
      exact h.frame (by simp) hholds
  | checkPoison =>
      simp only [axi64DataLoop] at hstep
      split at hstep
      · obtain rfl := Option.some.inj hstep
        exact h.frame rfl trivial
      · obtain rfl := Option.some.inj hstep
        exact h.frame rfl hholds
  | hold =>
      obtain ⟨hfollows, hinflight⟩ := follows_getEmpty h.follows hholds
      simp only [axi64DataLoop] at hstep
      split at hstep
      · obtain rfl := Option.some.inj hstep
        exact ⟨hfollows, trivial⟩
      · rename_i b hb
        obtain rfl := Option.some.inj hstep
        refine ⟨hfollows, b, rfl, ?_⟩
        rw [hb] at hinflight
        exact hinflight
  | top =>
      simp only [axi64DataLoop] at hstep
      split at hstep
      · obtain rfl := Option.some.inj hstep
        exact h.frame rfl trivial
      · split at hstep
        · obtain rfl := Option.some.inj hstep
          exact h.frame rfl trivial
        · obtain rfl := Option.some.inj hstep
          refine h.frame ?_ ?_
          · simp only
            split
            · exact dev.dmaDone_lists _
            · exact dev.dmaDone_lists _
          · split
            · exact hholds
            · exact hholds
  | putFull =>
      obtain ⟨b, rfl, hi⟩ := hholds
      obtain ⟨hfollows, hinflight⟩ := follows_putFull h.follows hi
      obtain rfl := Option.some.inj hstep
      refine ⟨hfollows, ?_⟩
      simp only
      split
      · exact hinflight
      · exact hinflight
  | catchup =>
      obtain ⟨hfollows, hinflight⟩ := follows_getEmpty h.follows hholds
      simp only [axi64DataLoop] at hstep
      split at hstep
      · rename_i hb
        obtain rfl := Option.some.inj hstep
        refine ⟨hfollows, ?_⟩
        rw [hb] at hinflight
        exact hinflight
      · rename_i b hb
        obtain rfl := Option.some.inj hstep
        rw [hb] at hinflight
        have hlists := dev.getEmpty.2.poisonOverwritten_lists b
        refine ⟨?_, ?_⟩
        · rw [Dev.stations_congr hlists]
          exact hfollows
        · show AxiPc.Holds (some b) ((dev.getEmpty.2.poisonOverwritten b).2.lists .inflight) _
          rw [hlists, hinflight]
          split
          · exact ⟨b, rfl, rfl⟩
          · exact rfl
  | catchupPut =>
      obtain ⟨b, rfl, hi⟩ := hholds
      obtain ⟨hfollows, hinflight⟩ := follows_putFull h.follows hi
      obtain rfl := Option.some.inj hstep
      exact ⟨hfollows, hinflight⟩
  | take =>
      obtain ⟨hfollows, hinflight⟩ := follows_getEmpty h.follows hholds
      obtain rfl := Option.some.inj hstep
      exact ⟨hfollows, hinflight⟩
  | check =>
      simp only [axi64DataLoop] at hstep
      split at hstep
      · obtain rfl := Option.some.inj hstep
        exact h.frame rfl trivial
      · split at hstep
        · rename_i b
          obtain rfl := Option.some.inj hstep
          exact h.frame rfl ⟨b, rfl, hholds⟩
        · obtain rfl := Option.some.inj hstep
          exact h.frame rfl hholds
  | discard =>
      have hfollows := (follows_moveListToEmpty_iff hnodup h.follows hholds).mpr (hsafe rfl)
      simp only [axi64DataLoop] at hstep
      split at hstep
      · obtain rfl := Option.some.inj hstep
        exact ⟨hfollows, trivial⟩
      · obtain rfl := Option.some.inj hstep
        refine ⟨hfollows, ?_⟩
        exact dev.moveListToEmpty_inflight.trans hholds
  | retake =>
      obtain ⟨hfollows, hinflight⟩ := follows_getEmpty h.follows hholds
      simp only [axi64DataLoop] at hstep
      split at hstep
      · obtain rfl := Option.some.inj hstep
        exact ⟨hfollows, trivial⟩
      · rename_i b hb
        obtain rfl := Option.some.inj hstep
        rw [hb] at hinflight
        refine ⟨?_, b, rfl, ?_⟩
        · rw [Dev.stations_congr (dev.getEmpty.2.poisonOneBuffer_lists b)]
          exact hfollows
        · rw [Dev.poisonOneBuffer_lists]
          exact hinflight
  | quit =>
      obtain rfl := Option.some.inj hstep
      exact h.frame (by simp) trivial
  | exited => simp [axi64DataLoop] at hstep
  | oops => simp [axi64DataLoop] at hstep

theorem step (hnodup : ring.Nodup) (h : InRingOrder ring s) {act : LoopAct}
    (hsafe : DiscardSafe s act) (hstep : axiStep s act = some s') : InRingOrder ring s' := by
  cases act with
  | thread env => exact h.thread hnodup hsafe hstep
  | beside b =>
      simp only [axiStep, Option.map_eq_some_iff] at hstep
      obtain ⟨dev, hdev, rfl⟩ := hstep
      obtain ⟨hfollows, hinflight⟩ := follows_beside h.follows hdev
      refine ⟨hfollows, ?_⟩
      show s.pc.Holds s.hbm (dev.lists .inflight)
      rw [hinflight]
      exact h.holds

end InRingOrder

/-! ### Ring order -/

/-- A discard that does overtake something loses the order at once. -/
theorem discard_step_iff {ring : List HbmPtr} {s s' : AxiLoop} {env : LoopEnv}
    (hnodup : ring.Nodup) (h : InRingOrder ring s) (hpc : s.pc = .discard)
    (hstep : axi64DataLoop s env = some s') :
    s'.dev.stations.Follows ring ↔ DiscardSafe s (.thread env) := by
  have hi : s.dev.lists .inflight = [] := by
    have hholds := h.holds
    rw [hpc] at hholds
    exact hholds
  have hdev : s'.dev.stations = (s.dev.moveListToEmpty .refills).stations := by
    simp only [axi64DataLoop, hpc] at hstep
    split at hstep
    · obtain rfl := Option.some.inj hstep
      rfl
    · obtain rfl := Option.some.inj hstep
      rfl
  rw [hdev, follows_moveListToEmpty_iff hnodup h.follows hi]
  exact ⟨fun h' _ => h', fun h' => h' hpc⟩

/-- The descriptor after one of a cyclic chain is the next of its buffers. -/
theorem nextDesc_next {adev : Dev} {ichan : Nat} {hbm nxt : HbmPtr}
    (hnodup : (adev.axi64Hb ichan).Nodup) (honeshot : adev.par.axiOneshotCount = 0)
    (hloopback : adev.par.axiDebugLoopbackIndex ≤ 0)
    (h : ∃ hmem : hbm ∈ adev.axi64Hb ichan, (adev.axi64Hb ichan).next hbm hmem = nxt) :
    ∃ ii, (adev.axi64Hb ichan)[ii]? = some hbm ∧
      (adev.axi64Hb ichan)[adev.nextDesc ichan ii]? = some nxt := by
  obtain ⟨hmem, rfl⟩ := h
  obtain ⟨ii, hii, rfl⟩ := List.mem_iff_getElem.mp hmem
  refine ⟨ii, List.getElem?_eq_getElem hii, ?_⟩
  have hwrap : adev.nextDesc ichan ii = (ii + 1) % (adev.axi64Hb ichan).length := by
    unfold Dev.nextDesc
    by_cases hlast : ii + 1 < (adev.axi64Hb ichan).length
    · rw [if_pos hlast, Nat.mod_eq_of_lt hlast]
    · have heq : ii + 1 = (adev.axi64Hb ichan).length := by omega
      rw [if_neg hlast, if_neg (by omega), if_neg (by omega), heq, Nat.mod_self]
  rw [hwrap, List.next_getElem _ hnodup ii hii]
  exact List.getElem?_eq_getElem _

/--
**Ring order.**  Let EMPTIES be the descriptor ring when the thread starts.  In every
run in which no discard overtakes anything, the thread is at the top of its loop only
with OPENS, REFILLS, INFLIGHT and EMPTIES a rotation of the ring and with INFLIGHT the
buffer it waits for; the next of EMPTIES is that of the next descriptor.
-/
theorem axi64_data_loop_ring_order (adev : Dev) {s : AxiLoop} (acts : List LoopAct)
    (hnodup : (adev.axi64Hb 0).Nodup) (hempties : adev.lists .empties = adev.axi64Hb 0)
    (hinflight : adev.lists .inflight = []) (hrefills : adev.lists .refills = [])
    (hopens : adev.lists .opens = [])
    (hsafe : Lts.Meets axiStep DiscardSafe (AxiLoop.start adev) acts)
    (hrun : Lts.run axiStep (AxiLoop.start adev) acts = some s) (hpc : s.pc = .top) :
    List.IsRotated
        (s.dev.lists .opens ++ s.dev.lists .refills ++ s.dev.lists .inflight
          ++ s.dev.lists .empties) (adev.axi64Hb 0) ∧
      ∃ hbm, s.hbm = some hbm ∧ s.dev.lists .inflight = [hbm] ∧
        (adev.par.axiOneshotCount = 0 → adev.par.axiDebugLoopbackIndex ≤ 0 →
          ∀ nxt rest, s.dev.lists .empties = nxt :: rest →
            ∃ ii, (adev.axi64Hb 0)[ii]? = some hbm ∧
              (adev.axi64Hb 0)[adev.nextDesc 0 ii]? = some nxt) := by
  have hstart : InRingOrder (adev.axi64Hb 0) (AxiLoop.start adev) := by
    refine ⟨?_, hinflight⟩
    have hcycle : (AxiLoop.start adev).dev.stations.cycle = adev.axi64Hb 0 := by
      simp [Stations.cycle, Dev.stations, AxiLoop.start, hempties, hinflight, hrefills, hopens]
    show List.IsRotated _ (adev.axi64Hb 0)
    rw [hcycle]
  have h := Lts.run_invariant_of (InRingOrder (adev.axi64Hb 0))
    (fun _ _ _ h hs hstep => h.step hnodup hs hstep) acts _ s hstart hsafe hrun
  have hholds := h.holds
  rw [hpc] at hholds
  obtain ⟨hbm, hsome, hi⟩ := hholds
  refine ⟨h.follows, hbm, hsome, hi, fun honeshot hloopback nxt rest he => ?_⟩
  exact nextDesc_next hnodup honeshot hloopback (h.follows.next_eq hnodup hi he)

private def ringOf (n : Nat) : Dev :=
  (Dev.allocated n 4096 .loaded fun _ _ => 0).initAxi64Hbm1 (List.range n) n

/-- All three buffers are filled, the reader has two of them, and no buffer is empty. -/
private def exhausted : List LoopAct :=
  List.replicate 3 .tick ++ [0, 1, 2].flatMap (LoopAct.fill 4096) ++ List.replicate 7 .tick
    ++ [.deliver, .deliver, .tick]

/-- The order holds where the reader puts its buffer back after the discard. -/
theorem axi64_data_loop_ring_order_three :
    ∃ s, Lts.run axiStep (AxiLoop.start (ringOf 3))
        (exhausted ++ [.tick, .beside .putEmpty, .tick]) = some s ∧
      List.IsRotated
        (s.dev.lists .opens ++ s.dev.lists .refills ++ s.dev.lists .inflight
          ++ s.dev.lists .empties) ((ringOf 3).axi64Hb 0) ∧
      ∃ hbm, s.hbm = some hbm ∧ s.dev.lists .inflight = [hbm] ∧
        ((ringOf 3).par.axiOneshotCount = 0 → (ringOf 3).par.axiDebugLoopbackIndex ≤ 0 →
          ∀ nxt rest, s.dev.lists .empties = nxt :: rest →
            ∃ ii, ((ringOf 3).axi64Hb 0)[ii]? = some hbm ∧
              ((ringOf 3).axi64Hb 0)[(ringOf 3).nextDesc 0 ii]? = some nxt) := by
  have hsafe : Lts.Meets axiStep DiscardSafe (AxiLoop.start (ringOf 3))
      (exhausted ++ [.tick, .beside .putEmpty, .tick]) := by
    decide +kernel
  obtain ⟨s, hrun, hpc⟩ := Lts.exists_of_any axiStep (AxiLoop.start (ringOf 3))
    (exhausted ++ [.tick, .beside .putEmpty, .tick]) (fun s => s.pc = .top) (by decide +kernel)
  refine ⟨s, hrun, ?_⟩
  exact axi64_data_loop_ring_order (ringOf 3) _ (by decide) rfl rfl rfl rfl hsafe hrun
    (of_decide_eq_true hpc)

/-- One that it puts back before the discard overtakes the one it still holds. -/
theorem axi64_data_loop_overtakes :
    (ringOf 3).lists .empties = [0, 1, 2] ∧ (ringOf 3).axi64Hb 0 = [0, 1, 2] ∧
    ∃ s, Lts.run axiStep (AxiLoop.start (ringOf 3))
        (exhausted ++ [.beside .putEmpty, .tick, .tick]) = some s ∧
      s.pc = .top ∧ s.hbm = some 0 ∧ s.dev.lists .empties = [2] ∧
      ¬ List.IsRotated
        (s.dev.lists .opens ++ s.dev.lists .refills ++ s.dev.lists .inflight
          ++ s.dev.lists .empties) [0, 1, 2] := by
  refine ⟨rfl, rfl, ?_⟩
  obtain ⟨s, hrun, hs⟩ := Lts.exists_of_any axiStep (AxiLoop.start (ringOf 3))
    (exhausted ++ [.beside .putEmpty, .tick, .tick])
    (fun s => s.pc = .top ∧ s.hbm = some 0 ∧ s.dev.lists .empties = [2] ∧
      ¬ List.IsRotated
        (s.dev.lists .opens ++ s.dev.lists .refills ++ s.dev.lists .inflight
          ++ s.dev.lists .empties) [0, 1, 2]) (by decide +kernel)
  exact ⟨s, hrun, of_decide_eq_true hs⟩

end Acq400
