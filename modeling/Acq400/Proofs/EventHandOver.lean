/-
How the pushes of `xo_data_loop` hand over from one channel to the other.

A push that waits for an event never starts unless the push before it sets that
event.  Only the last push is to set none, and `LAST_PUSH` predicts it from a count
that a repeat then adds to, unless the count wraps and there is no push any more.
With one buffer in flight instead of two the first two pushes are on the same
channel, and the second waits for an event nobody sets.

`Chained` is what the loop keeps while it hands over properly: the last push sets
the event of the channel that comes next, or nothing will be pushed any more.
`xoDataLoop_hands_over_iff` says when that is so.
-/
import Acq400.Proofs.PlayList
import Mathlib.Data.List.Chain

namespace Acq400

open CInt XoLoop

/-- `q` is on the other channel, and `p` sets the event of that channel. -/
def Next (p q : Push) : Prop := q.chan = !p.chan ∧ p.flags.sets q.chan = true

/-- The pushes, as they play, hand over: none waits for an event that none before it sets. -/
structure HandsOver (pushes : List Push) : Prop where
  next : pushes.IsChain Next
  awaited : ∀ (i : Nat) (p : Push), pushes[i]? = some p → p.flags.waits p.chan = true →
    ∃ (j : Nat) (q : Push), j < i ∧ pushes[j]? = some q ∧ q.flags.sets p.chan = true

theorem handsOver_of_chain {pushes : List Push} (hchain : pushes.IsChain Next)
    (hhead : ∀ p, pushes.head? = some p → p.flags.waits p.chan = false) : HandsOver pushes := by
  refine ⟨hchain, fun i p hp hw => ?_⟩
  cases i with
  | zero =>
      rw [← List.head?_eq_getElem?] at hp
      rw [hhead p hp] at hw
      cases hw
  | succ i =>
      obtain ⟨hi, hpi⟩ := List.getElem?_eq_some_iff.mp hp
      have hnext := List.isChain_iff_getElem.mp hchain i hi
      refine ⟨i, pushes[i], Nat.lt_succ_self i, List.getElem?_eq_getElem _, ?_⟩
      rw [← hpi]
      exact hnext.2

/-- The last push sets the event of the channel in turn, and it has been counted on. -/
structure Ready (s : XoLoop) : Prop where
  last : ∃ p, (playOrder s.pushes).getLast? = some p ∧ p.chan = !s.ic ∧ p.flags.sets s.ic = true
  out_le : s.dmaBuffersOut ≤ s.shotBufferCount
  count0 : 0 ≤ s.shotBufferCount0

structure Chained (s : XoLoop) : Prop where
  primed : Primed s.pushes
  next : (playOrder s.pushes).IsChain Next
  head : ∀ p, (playOrder s.pushes).head? = some p → p.flags.waits p.chan = false
  counted : Counted s
  ready : Ready s ∨ Over s

theorem Chained.handsOver {s : XoLoop} (h : Chained s) : HandsOver (playOrder s.pushes) :=
  handsOver_of_chain h.next h.head

theorem playOrder_ne_nil {pushes : List Push} (h : Primed pushes) : playOrder pushes ≠ [] := by
  match pushes, h with
  | [_], _ => exact List.cons_ne_nil _ _
  | a :: b :: rest, _ =>
      rw [playOrder]
      split
      · exact List.cons_ne_nil _ _
      · exact List.cons_ne_nil _ _

theorem xflags_sets (ic : Chan) : (xflags ic).sets (!ic) = true := by
  cases ic <;> rfl

theorem wflags_sets (ic ic' : Chan) : (wflags ic).sets ic' = false := by
  cases ic <;> cases ic' <;> rfl

/-- A push on the channel that is ready for it keeps the chain. -/
theorem chain_push {s : XoLoop} (h : Chained s) (hready : Ready s) {p : Push}
    (hchan : p.chan = s.ic) : (playOrder (s.pushes ++ [p])).IsChain Next := by
  obtain ⟨last, hlast, hother, hsets⟩ := hready.last
  rw [playOrder_append h.primed]
  refine h.next.append (List.isChain_singleton p) fun x hx y hy => ?_
  rw [hlast] at hx
  cases hx
  cases hy
  refine ⟨?_, ?_⟩
  · rw [hchan, hother, Bool.not_not]
  · rw [hchan]
    exact hsets

theorem head_push {pushes : List Push} (h : Primed pushes) (p : Push) :
    (playOrder (pushes ++ [p])).head? = (playOrder pushes).head? := by
  rw [playOrder_append h, List.head?_append_of_ne_nil _ (playOrder_ne_nil h)]

theorem last_push {pushes : List Push} (h : Primed pushes) (p : Push) :
    (playOrder (pushes ++ [p])).getLast? = some p := by
  rw [playOrder_append h, List.getLast?_concat]

/-- One iteration keeps the chain, if it leaves nothing to be pushed where it makes the last
push. -/
theorem Chained.step {s t : XoLoop} {clear : Clear} (h : Chained s)
    (hstep : XoLoop.step s clear = some t)
    (hlast : t.lastPushDone = true → t.shotBufferCount ≤ t.dmaBuffersOut → Over t) :
    Chained t := by
  have hcounted := h.counted.step hstep
  by_cases hover : Over s
  · obtain ⟨hpushes, ht⟩ := hover.step hstep
    exact ⟨hpushes ▸ h.primed, hpushes ▸ h.next, hpushes ▸ h.head, hcounted, Or.inr ht⟩
  have hready := h.ready.resolve_right hover
  obtain ⟨-, rfl | ⟨-, rfl⟩⟩ := step_cases hstep
  · exact ⟨h.primed, h.next, h.head, hcounted, Or.inr (Or.inl (Or.inl rfl))⟩
  have hgo : (s.lastPushDone && s.continuousAtStart) = false :=
    Bool.eq_false_iff.mpr fun hend => hover (Or.inr (Or.inl hend))
  have hc := s.completed_completion clear hgo
  rcases hc.pushed with ⟨p, hpushes, hchan, -, hle, hflags⟩ | ⟨hpushes, hout, -, hall, hdrained⟩
  · refine ⟨by rw [hpushes]; exact h.primed.append p,
      by rw [hpushes]; exact chain_push h hready hchan,
      by rw [hpushes, head_push h.primed]; exact h.head, hcounted, ?_⟩
    rcases hflags with ⟨hx, -⟩ | ⟨-, hdone, -, hall⟩
    · refine Or.inl ⟨⟨p, by rw [hpushes, last_push h.primed], ?_, ?_⟩, hle,
        hc.count0 ▸ hready.count0⟩
      · rw [hc.ic, hchan, Bool.not_not]
      · rw [hc.ic, hx]
        exact xflags_sets s.ic
    · exact Or.inr (hlast hdone hall)
  · refine ⟨hpushes ▸ h.primed, hpushes ▸ h.next, hpushes ▸ h.head, hcounted, Or.inr ?_⟩
    rcases hdrained with ⟨hmode, hrep⟩ | ⟨hle, hnext⟩
    · exact Or.inr (Or.inr (Or.inl ⟨hmode, hrep, hall⟩))
    · -- a cycle was added and there is still nothing to push: the count has wrapped
      have hstalled := h.counted.stalled hready.count0 (Int.le_antisymm hle hready.out_le)
        (by rw [← hnext, ← hout]; exact hall)
      exact absurd (Or.inr (Or.inr (Or.inr hstalled))) hover

/-! ### The counts, from the inputs -/

/-- How many buffers a repeat adds, as an `int`. -/
def AoPlayloop.cycleBuffers (pl : AoPlayloop) (cfg : XoConfig) : Int :=
  (wrap (max pl.maxlen pl.length : Nat)).tdiv cfg.aoSamplesPerHb

/-- How many buffers the first cycle has, one more if they do not hold the length. -/
def AoPlayloop.firstBuffers (pl : AoPlayloop) (cfg : XoConfig) : Int :=
  if unsigned (pl.cycleBuffers cfg * cfg.aoSamplesPerHb) < pl.length then
    wrap (pl.cycleBuffers cfg + 1)
  else pl.cycleBuffers cfg

section start

variable {cfg : XoConfig} {pl : AoPlayloop}

theorem init_cycle : (init cfg pl).shotBufferCount0 = pl.cycleBuffers cfg := init_count0 cfg pl

theorem init_first : (init cfg pl).shotBufferCount = pl.firstBuffers cfg := by
  rw [init_count, init_cycle, AoPlayloop.firstBuffers]

/-- More than one buffer is that many, or one more, of a cycle. -/
theorem firstBuffers_cases (h : 1 < pl.firstBuffers cfg) :
    ∃ n q : Nat, pl.firstBuffers cfg = n ∧ pl.cycleBuffers cfg = q ∧ q < 2147483648 ∧
      (n = q ∨ n = q + 1 ∧ unsigned (q * cfg.aoSamplesPerHb) < pl.length) := by
  have hrange : InRange (pl.cycleBuffers cfg) := inRange_tdiv (inRange_wrap _) _
  unfold AoPlayloop.firstBuffers at h ⊢
  unfold InRange at hrange
  split at h
  · rename_i hover
    have hlt : pl.cycleBuffers cfg + 1 < 2147483648 := by
      by_contra hno
      rw [show pl.cycleBuffers cfg = 2147483647 by omega] at h
      exact absurd h (by decide)
    rw [if_pos hover, wrap_of_inRange (by unfold InRange; omega)]
    rw [wrap_of_inRange (by unfold InRange; omega)] at h
    lift pl.cycleBuffers cfg to Nat using by omega with q hq
    exact ⟨q + 1, q, rfl, rfl, by omega, Or.inr ⟨rfl, hover⟩⟩
  · rename_i hover
    rw [if_neg hover]
    lift pl.cycleBuffers cfg to Nat using by omega with q hq
    exact ⟨q, q, rfl, rfl, by omega, Or.inl rfl⟩

theorem start_chained (hpair : 1 < (init cfg pl).shotBufferCount)
    (hcycle : 0 ≤ (init cfg pl).shotBufferCount0) : Chained (start cfg pl) := by
  have hcounted := counted_start cfg pl
  rw [start_pair cfg pl hpair] at hcounted ⊢
  have hnext : (playOrder [(init cfg pl).priming true 1 xflags,
      (init cfg pl).priming false 0 sflags]).IsChain Next := .cons_cons ⟨rfl, rfl⟩ (.singleton _)
  have hic : (init cfg pl).ic = false := rfl
  generalize init cfg pl = s at hpair hcycle hcounted hnext hic ⊢
  refine ⟨trivial, hnext, fun p hp => ?_, hcounted,
    Or.inl ⟨⟨_, rfl, congrArg not hic.symm, ?_⟩, Int.add_one_le_of_lt hpair, hcycle⟩⟩
  · obtain rfl := Option.some.inj hp
    rfl
  · show (xflags true).sets s.ic = true
    rw [hic]
    rfl

end start

/-! ### Where the loop hands over -/

section holds

variable {cfg : XoConfig} {pl : AoPlayloop}

/-- What a run keeps: the chain, and what is known of the mode and the counts. -/
theorem handsOver_run {K : XoLoop → Prop} {s0 s : XoLoop} {acts : List Clear} (h0 : Chained s0)
    (hK0 : K s0)
    (hK : ∀ s clear t, K s → Chained s → XoLoop.step s clear = some t → K t ∧
      (t.lastPushDone = true → t.shotBufferCount ≤ t.dmaBuffersOut → Over t))
    (hrun : Lts.run XoLoop.step s0 acts = some s) : HandsOver (playOrder s.pushes) := by
  refine (Lts.run_invariant (fun s => Chained s ∧ K s) (fun s clear t h hstep => ?_) acts s0 s
    ⟨h0, hK0⟩ hrun).1.handsOver
  obtain ⟨hKt, hlast⟩ := hK s clear t h.2 h.1 hstep
  exact ⟨h.1.step hstep hlast, hKt⟩

/-- In continuous mode the loop leaves after its last push. -/
theorem continuous_keeps (s : XoLoop) (clear : Clear) (t : XoLoop)
    (hK : s.continuousAtStart = true) (hstep : XoLoop.step s clear = some t) :
    t.continuousAtStart = true ∧
      (t.lastPushDone = true → t.shotBufferCount ≤ t.dmaBuffersOut → Over t) := by
  have hkept : t.continuousAtStart = s.continuousAtStart := by
    obtain ⟨-, rfl | ⟨-, rfl⟩⟩ := step_cases hstep
    · rfl
    · by_cases hgo : (s.lastPushDone && s.continuousAtStart) = true
      · rw [completed_quit clear hgo]
        rfl
      · exact (s.completed_completion clear (Bool.eq_false_iff.mpr hgo)).atStart
  rw [hkept]
  refine ⟨hK, fun hlast _ => Or.inr (Or.inl ?_)⟩
  rw [hlast, hkept, hK]
  rfl

/-- One-shot, with no repeats left. -/
structure NoRepeats (s : XoLoop) : Prop where
  mode : s.aoContinuous = false
  atStart : s.continuousAtStart = false
  repeats : s.playloop.repeats = 0

theorem noRepeats_keeps (s : XoLoop) (clear : Clear) (t : XoLoop) (h : NoRepeats s)
    (hstep : XoLoop.step s clear = some t) :
    NoRepeats t ∧ (t.lastPushDone = true → t.shotBufferCount ≤ t.dmaBuffersOut → Over t) := by
  have hkept : NoRepeats t := by
    have hgo : (s.lastPushDone && s.continuousAtStart) = false := by
      rw [h.atStart, Bool.and_false]
    obtain ⟨-, rfl | ⟨-, rfl⟩⟩ := step_cases hstep
    · exact ⟨h.mode, h.atStart, h.repeats⟩
    · by_cases hlt : s.dmaBuffersOut < s.shotBufferCount
      · rw [completed_during clear h.mode hgo hlt]
        exact ⟨h.mode, h.atStart, h.repeats⟩
      · rw [completed_last clear h.mode hgo (Int.not_lt.mp hlt) h.repeats]
        exact ⟨h.mode, h.atStart, h.repeats⟩
  exact ⟨hkept, fun _ hall => Or.inr (Or.inr (Or.inl ⟨hkept.mode, hkept.repeats, hall⟩))⟩

/-- One repeat left, and the first cycle is all pushed. -/
structure OneRepeat (s : XoLoop) : Prop where
  mode : s.aoContinuous = false
  atStart : s.continuousAtStart = false
  repeats : s.playloop.repeats = 1
  all : s.shotBufferCount ≤ s.dmaBuffersOut
  more : s.dmaBuffersOut < wrap (s.shotBufferCount + s.shotBufferCount0)

theorem OneRepeat.step {s t : XoLoop} {clear : Clear} (h : OneRepeat s)
    (hstep : XoLoop.step s clear = some t) : NoRepeats t ∨ t.Done := by
  have hgo : (s.lastPushDone && s.continuousAtStart) = false := by
    rw [h.atStart, Bool.and_false]
  have hpos : 0 < s.playloop.repeats := by
    rw [h.repeats]
    decide
  obtain ⟨-, rfl | ⟨-, rfl⟩⟩ := step_cases hstep
  · exact Or.inr (Or.inl rfl)
  · rw [completed_repeat clear h.mode hgo h.all hpos h.more]
    refine Or.inl ⟨h.mode, h.atStart, ?_⟩
    show s.playloop.repeats - 1 = 0
    rw [h.repeats]
    rfl

theorem oneRepeat_keeps (s : XoLoop) (clear : Clear) (t : XoLoop)
    (hK : OneRepeat s ∨ NoRepeats s ∨ s.Done) (hstep : XoLoop.step s clear = some t) :
    (OneRepeat t ∨ NoRepeats t ∨ t.Done) ∧
      (t.lastPushDone = true → t.shotBufferCount ≤ t.dmaBuffersOut → Over t) := by
  rcases hK with h | h | h
  · rcases h.step hstep with hno | hdone
    · exact ⟨Or.inr (Or.inl hno),
        fun _ hall => Or.inr (Or.inr (Or.inl ⟨hno.mode, hno.repeats, hall⟩))⟩
    · exact ⟨Or.inr (Or.inr hdone), fun _ _ => Or.inl hdone⟩
  · obtain ⟨hno, hlast⟩ := noRepeats_keeps s clear t h hstep
    exact ⟨Or.inr (Or.inl hno), hlast⟩
  · exact absurd h (step_cases hstep).1

/-- The loop after `k` completions of a first cycle of `n` buffers, two or more, in one-shot
mode. -/
structure FirstCycle (cfg : XoConfig) (pl : AoPlayloop) (n q k : Nat) (s : XoLoop) : Prop where
  config : s.cfg = cfg
  length : s.playloop.length = pl.length
  mode : s.aoContinuous = false
  atStart : s.continuousAtStart = false
  quit : s.quit = false
  count : s.shotBufferCount = n
  count0 : s.shotBufferCount0 = q
  repeats : s.playloop.repeats = pl.repeats
  out : s.dmaBuffersOut = k + 2
  in_eq : s.dmaBuffersIn = k
  cursor : s.playloop.cursor = k * cfg.aoSamplesPerHb
  primed : Primed s.pushes
  last : 0 < k → k + 2 = n →
    ∃ front p, s.pushes = front ++ [p] ∧ Primed front ∧ p.flags = wflags p.chan

variable {n q : Nat}

theorem FirstCycle.going {k : Nat} {s : XoLoop} (h : FirstCycle cfg pl n q k s) :
    (s.lastPushDone && s.continuousAtStart) = false := by rw [h.atStart, Bool.and_false]

theorem FirstCycle.done_iff {k : Nat} {s : XoLoop} (h : FirstCycle cfg pl n q k s) :
    s.Done ↔ pl.length ≤ k * cfg.aoSamplesPerHb := by
  unfold XoLoop.Done
  rw [h.quit, h.length, h.cursor]
  simp

theorem firstCycle_of_started {s : XoLoop} (hs : Started cfg pl s)
    (hmode : pl.oneshot ≠ .continuous) (hn : pl.firstBuffers cfg = n)
    (hq : pl.cycleBuffers cfg = q) (hpair : 1 < n) : FirstCycle cfg pl n q 0 s := by
  have hmode' : decide (pl.oneshot = .continuous) = false := decide_eq_false hmode
  exact
    { config := hs.config
      length := hs.length
      mode := by rw [aoContinuous, hs.oneshot, hmode']
      atStart := hs.atStart.trans hmode'
      quit := hs.quit
      count := by rw [hs.count, init_first, hn]
      count0 := by rw [hs.count0, init_cycle, hq]
      repeats := hs.repeats
      out := by rw [hs.out, init_first, hn, if_pos (by omega)]
      in_eq := hs.none_in
      cursor := by rw [hs.cursor, Nat.zero_mul]
      primed := hs.primed
      last := fun h => absurd h (Nat.lt_irrefl 0) }

theorem FirstCycle.next {k : Nat} {s : XoLoop} (h : FirstCycle cfg pl n q k s)
    (hmore : k + 2 < n) (clear : Clear) : FirstCycle cfg pl n q (k + 1) (s.completed clear) := by
  have hout : s.dmaBuffersOut + 1 = k + 1 + 2 := by
    rw [h.out]
  have hlt : s.dmaBuffersOut < s.shotBufferCount := by
    rw [h.count]
    omega
  rw [completed_during clear h.mode h.going hlt]
  exact
    { config := h.config
      length := h.length
      mode := h.mode
      atStart := h.atStart
      quit := h.quit
      count := h.count
      count0 := h.count0
      repeats := h.repeats
      out := hout
      in_eq := by
        show s.dmaBuffersIn + 1 = k + 1
        rw [h.in_eq]
      cursor := by
        show s.playloop.cursor + s.cfg.aoSamplesPerHb = (k + 1) * cfg.aoSamplesPerHb
        rw [h.cursor, h.config, Nat.succ_mul]
      primed := h.primed.append _
      last := fun _ hall => by
        refine ⟨s.pushes, _, rfl, h.primed, if_pos ((lastPush_oneshot (by exact h.mode)).mpr ?_)⟩
        show s.shotBufferCount ≤ s.dmaBuffersOut + 1
        rw [h.count]
        omega }

/-- A play list that ends before its buffers do is left before the first cycle is over. -/
theorem firstCycle_keeps (hshort : pl.length ≤ (n - 2) * cfg.aoSamplesPerHb) (s : XoLoop)
    (clear : Clear) (t : XoLoop) (hK : s.Done ∨ ∃ k, k + 2 ≤ n ∧ FirstCycle cfg pl n q k s)
    (hstep : XoLoop.step s clear = some t) :
    (t.Done ∨ ∃ k, k + 2 ≤ n ∧ FirstCycle cfg pl n q k t) ∧
      (t.lastPushDone = true → t.shotBufferCount ≤ t.dmaBuffersOut → Over t) := by
  obtain ⟨hdone, ht⟩ := step_cases hstep
  obtain ⟨k, hk, h⟩ := hK.resolve_left hdone
  rcases ht with rfl | ⟨-, rfl⟩
  · exact ⟨Or.inl (Or.inl rfl), fun _ _ => Or.inl (Or.inl rfl)⟩
  have hrun := Nat.not_le.mp fun hc => hdone (h.done_iff.mpr hc)
  have hlt : k < n - 2 := Nat.lt_of_mul_lt_mul_right (Nat.lt_of_lt_of_le hrun hshort)
  have hnext := h.next (by omega) clear
  refine ⟨Or.inr ⟨k + 1, by omega, hnext⟩, fun _ hall => Or.inl (hnext.done_iff.mpr ?_)⟩
  rw [hnext.count, hnext.out] at hall
  rwa [show k + 1 = n - 2 by omega]

/-- Where the next cycle makes the count wrap, the first one is the last. -/
theorem FirstCycle.stalled {k : Nat} {s : XoLoop} (h : FirstCycle cfg pl n q k s)
    (hcounted : Counted s) (hall : k + 2 = n) (hwraps : 2147483648 ≤ n + q) : Stalled s := by
  have hlt := hcounted.count.2
  have hlt0 := hcounted.count0.2
  have hout := h.out
  rw [h.count] at hlt
  rw [h.count0] at hlt0
  refine hcounted.stalled (by rw [h.count0]; exact Int.natCast_nonneg q)
    (by rw [h.count, hout, hall]) ?_
  rw [h.count, h.count0, wrap, Int.bmod_def]
  split <;> omega

theorem wrapping_keeps (hwraps : 2147483648 ≤ n + q) (s : XoLoop) (clear : Clear) (t : XoLoop)
    (hK : Over s ∨ ∃ k, k + 2 < n ∧ FirstCycle cfg pl n q k s) (hcounted : Counted t)
    (hstep : XoLoop.step s clear = some t) :
    (Over t ∨ ∃ k, k + 2 < n ∧ FirstCycle cfg pl n q k t) ∧
      (t.lastPushDone = true → t.shotBufferCount ≤ t.dmaBuffersOut → Over t) := by
  rcases hK with hover | ⟨k, hk, h⟩
  · have ht := (hover.step hstep).2
    exact ⟨Or.inl ht, fun _ _ => ht⟩
  obtain ⟨-, rfl | ⟨-, rfl⟩⟩ := step_cases hstep
  · exact ⟨Or.inl (Or.inl (Or.inl rfl)), fun _ _ => Or.inl (Or.inl rfl)⟩
  have hnext := h.next hk clear
  by_cases hall : k + 1 + 2 = n
  · have ht : Over (s.completed clear) :=
      Or.inr (Or.inr (Or.inr (hnext.stalled hcounted hall hwraps)))
    exact ⟨Or.inl ht, fun _ _ => ht⟩
  · refine ⟨Or.inr ⟨k + 1, by omega, hnext⟩, fun _ hend => ?_⟩
    rw [hnext.count, hnext.out] at hend
    omega

/-- The second cycle of two buffers that hold all the samples between them in the first. -/
structure SecondCycle (cfg : XoConfig) (pl : AoPlayloop) (q : Nat) (s : XoLoop) : Prop where
  config : s.cfg = cfg
  length : s.playloop.length = pl.length
  mode : s.aoContinuous = false
  atStart : s.continuousAtStart = false
  quit : s.quit = false
  count : s.shotBufferCount = 2 + q
  count0 : s.shotBufferCount0 = q
  repeats : s.playloop.repeats = pl.repeats - 1
  out : s.dmaBuffersOut = 3
  in_eq : s.dmaBuffersIn = 1
  cursor : s.playloop.cursor = 0
  primed : Primed s.pushes
  last : q = 1 → ∃ front p, s.pushes = front ++ [p] ∧ Primed front ∧ p.flags = wflags p.chan

theorem SecondCycle.going {s : XoLoop} (h : SecondCycle cfg pl q s) :
    (s.lastPushDone && s.continuousAtStart) = false := by rw [h.atStart, Bool.and_false]

theorem FirstCycle.second {s : XoLoop} (h : FirstCycle cfg pl 2 q 0 s) (hq : 0 < q ∧ q ≤ 2)
    (hrep : 0 < pl.repeats) (clear : Clear) : SecondCycle cfg pl q (s.completed clear) := by
  have hcount : s.shotBufferCount = 2 := h.count
  have hout : s.dmaBuffersOut = 2 := h.out
  have hcount0 := h.count0
  have hsum : wrap (s.shotBufferCount + s.shotBufferCount0) = 2 + q := by
    rw [hcount, hcount0, wrap_of_inRange (by unfold InRange; omega)]
  rw [completed_repeat clear h.mode h.going (by omega) (h.repeats ▸ hrep) (by omega)]
  exact
    { config := h.config
      length := h.length
      mode := h.mode
      atStart := h.atStart
      quit := h.quit
      count := hsum
      count0 := hcount0
      repeats := congrArg (· - 1) h.repeats
      out := congrArg (· + 1) hout
      in_eq := congrArg (· + 1) h.in_eq
      cursor := rfl
      primed := h.primed.append _
      last := fun hone => by
        refine ⟨s.pushes, _, rfl, h.primed, if_pos ((lastPush_oneshot (by exact h.mode)).mpr ?_)⟩
        show wrap (s.shotBufferCount + s.shotBufferCount0) ≤ s.dmaBuffersOut + 1
        omega }

/-- Two buffers for samples that fit one: the loop is left in the second cycle. -/
theorem secondCycle_keeps (hshort : pl.length ≤ cfg.aoSamplesPerHb) (hrep : 0 < pl.repeats)
    (s : XoLoop) (clear : Clear) (t : XoLoop)
    (hK : s.Done ∨ FirstCycle cfg pl 2 2 0 s ∨ SecondCycle cfg pl 2 s)
    (hstep : XoLoop.step s clear = some t) :
    (t.Done ∨ FirstCycle cfg pl 2 2 0 t ∨ SecondCycle cfg pl 2 t) ∧
      (t.lastPushDone = true → t.shotBufferCount ≤ t.dmaBuffersOut → Over t) := by
  obtain ⟨hdone, ht⟩ := step_cases hstep
  rcases ht with rfl | ⟨-, rfl⟩
  · exact ⟨Or.inl (Or.inl rfl), fun _ _ => Or.inl (Or.inl rfl)⟩
  rcases hK.resolve_left hdone with h | h
  · have hsecond := h.second (by decide) hrep clear
    refine ⟨Or.inr (Or.inr hsecond), fun _ hall => ?_⟩
    rw [hsecond.count, hsecond.out] at hall
    omega
  · have hcount := h.count
    have hout := h.out
    have hend : (s.completed clear).Done := by
      rw [completed_during clear h.mode h.going (by omega)]
      refine Or.inr ?_
      show s.playloop.length ≤ s.playloop.cursor + s.cfg.aoSamplesPerHb
      rw [h.length, h.cursor, h.config, Nat.zero_add]
      exact hshort
    exact ⟨Or.inl hend, fun _ _ => Or.inl hend⟩

end holds

/-! ### Where it does not -/

section fails

variable {cfg : XoConfig} {pl : AoPlayloop} {n q : Nat}

theorem not_handsOver {pushes front : List Push} {p q : Push} (hpushes : pushes = front ++ [p])
    (h : Primed front) (hflags : p.flags = wflags p.chan) :
    ¬HandsOver (playOrder (pushes ++ [q])) := by
  intro hh
  subst hpushes
  have hchain := hh.next
  rw [playOrder_append (h.append p), playOrder_append h, List.append_assoc] at hchain
  have hnext := List.isChain_pair.mp hchain.right_of_append
  have hsets := hnext.2
  rw [hflags, wflags_sets] at hsets
  cases hsets

theorem run_range_succ {s s' t : XoLoop} {acts : Nat → Clear} {k : Nat}
    (hrun : Lts.run XoLoop.step s ((List.range k).map acts) = some s')
    (hstep : XoLoop.step s' (acts k) = some t) :
    Lts.run XoLoop.step s ((List.range (k + 1)).map acts) = some t := by
  rw [List.range_succ, List.map_append, Lts.run_append, hrun]
  simp [hstep]

theorem step_of_running {s : XoLoop} {clear : Clear} (hrun : ¬s.Done)
    (hin : s.dmaBuffersIn < s.dmaBuffersOut) :
    XoLoop.step s clear = some (s.completed clear) := by
  rw [XoLoop.step, if_neg hrun, if_pos hin]

/-- The first cycle is played through as far as the samples go. -/
theorem firstCycle_run {s0 : XoLoop} (h0 : FirstCycle cfg pl n q 0 s0)
    (hlong : (n - 2) * cfg.aoSamplesPerHb < pl.length) (acts : Nat → Clear) :
    ∀ k, k + 2 ≤ n → ∃ s, Lts.run XoLoop.step s0 ((List.range k).map acts) = some s ∧
      FirstCycle cfg pl n q k s := by
  intro k
  induction k with
  | zero => exact fun _ => ⟨_, rfl, h0⟩
  | succ k ih =>
      intro hk
      obtain ⟨s, hrun, h⟩ := ih (by omega)
      have hle : k * cfg.aoSamplesPerHb ≤ (n - 2) * cfg.aoSamplesPerHb :=
        Nat.mul_le_mul_right _ (by omega)
      have hdone : ¬s.Done := fun hc => by
        have := h.done_iff.mp hc
        omega
      have hin : s.dmaBuffersIn < s.dmaBuffersOut := by
        rw [h.in_eq, h.out]
        omega
      exact ⟨_, run_range_succ hrun (step_of_running hdone hin), h.next (by omega) (acts k)⟩

/-- A repeat of three buffers or more follows a push that sets no event. -/
theorem breaks_three {s0 : XoLoop} (h0 : FirstCycle cfg pl n q 0 s0) (hthree : 2 < n)
    (hround : n ≤ q + 1) (hfit : n + q < 2147483648) (hrep : 0 < pl.repeats)
    (hlong : (n - 2) * cfg.aoSamplesPerHb < pl.length) (acts : Nat → Clear) :
    ∃ k s, Lts.run XoLoop.step s0 ((List.range k).map acts) = some s ∧
      ¬HandsOver (playOrder s.pushes) := by
  obtain ⟨s, hrun, h⟩ := firstCycle_run h0 hlong acts (n - 2) (by omega)
  have hdone : ¬s.Done := fun hc => by
    have := h.done_iff.mp hc
    omega
  have hcount := h.count
  have hout := h.out
  have hin := h.in_eq
  have hsum : wrap (s.shotBufferCount + s.shotBufferCount0) = n + q := by
    rw [hcount, h.count0, wrap_of_inRange (by unfold InRange; omega)]
  obtain ⟨front, p, hpushes, hprimed, hflags⟩ := h.last (by omega) (by omega)
  refine ⟨_, _, run_range_succ hrun (step_of_running hdone (by omega)), ?_⟩
  rw [completed_repeat _ h.mode h.going (by omega) (h.repeats ▸ hrep) (by omega)]
  exact not_handsOver hpushes hprimed hflags

theorem breaks_two {s0 : XoLoop} (h0 : FirstCycle cfg pl 2 q 0 s0) (hq : 0 < q ∧ q ≤ 2)
    (hrep : 1 < pl.repeats) (hlong : cfg.aoSamplesPerHb < pl.length) (acts : Nat → Clear) :
    ∃ k s, Lts.run XoLoop.step s0 ((List.range k).map acts) = some s ∧
      ¬HandsOver (playOrder s.pushes) := by
  have hpos : 0 < pl.repeats := UInt32.lt_trans (by decide) hrep
  have hmore : 0 < pl.repeats - 1 := by
    have hpred := toNat_pred hpos
    have hrep' : 1 < pl.repeats.toNat := UInt32.lt_iff_toNat_lt.mp hrep
    refine UInt32.lt_iff_toNat_lt.mpr ?_
    show 0 < (pl.repeats - 1).toNat
    omega
  have hdone0 : ¬s0.Done := fun hc => by
    have := h0.done_iff.mp hc
    omega
  have hrun1 := @run_range_succ _ _ _ acts 0 rfl
    (step_of_running hdone0 (by rw [h0.in_eq, h0.out]; omega))
  have h1 := h0.second hq hpos (acts 0)
  have hdone1 : ¬(s0.completed (acts 0)).Done := by
    rintro (hc | hc)
    · rw [h1.quit] at hc
      cases hc
    · rw [h1.length, h1.cursor] at hc
      omega
  have hrun2 := run_range_succ hrun1 (step_of_running hdone1 (by rw [h1.in_eq, h1.out]; omega))
  generalize s0.completed (acts 0) = s1 at *
  have hcount := h1.count
  have hcount0 := h1.count0
  have hout := h1.out
  have hsum : wrap (s1.shotBufferCount + s1.shotBufferCount0) = 2 + q + q := by
    rw [hcount, hcount0, wrap_of_inRange (by unfold InRange; omega)]
  rcases Nat.lt_or_ge q 2 with hone | hboth
  · obtain ⟨front, p, hpushes, hprimed, hflags⟩ := h1.last (by omega)
    refine ⟨_, _, hrun2, ?_⟩
    rw [completed_repeat _ h1.mode h1.going (by omega) (h1.repeats ▸ hmore) (by omega)]
    exact not_handsOver hpushes hprimed hflags
  · rw [completed_during _ h1.mode h1.going (by omega)] at hrun2
    refine ⟨_, _, run_range_succ hrun2 (step_of_running ?_ ?_), ?_⟩
    · rintro (hc | hc)
      · change s1.quit = true at hc
        rw [h1.quit] at hc
        cases hc
      · have hlen := h1.length
        have hcur := h1.cursor
        have hcfg := h1.config
        change s1.playloop.length ≤ s1.playloop.cursor + s1.cfg.aoSamplesPerHb at hc
        rw [hlen, hcur, hcfg] at hc
        omega
    · show s1.dmaBuffersIn + 1 < s1.dmaBuffersOut + 1
      rw [h1.in_eq, hout]
      omega
    · have hmore2 : (s1.dmaBuffersOut + 1 : Nat) <
          wrap (s1.shotBufferCount + s1.shotBufferCount0) := by
        omega
      have hgo2 : ∀ b, (b && s1.continuousAtStart) = false := fun b => by
        rw [h1.atStart, Bool.and_false]
      rw [completed_repeat _ (by exact h1.mode) (by exact hgo2 _)
        (by show s1.shotBufferCount ≤ (s1.dmaBuffersOut + 1 : Nat); omega)
        (by exact h1.repeats ▸ hmore) (by exact hmore2)]
      refine not_handsOver rfl h1.primed (if_pos ((lastPush_oneshot (by exact h1.mode)).mpr ?_))
      show s1.shotBufferCount ≤ s1.dmaBuffersOut + 1
      omega

end fails

/-! ### A play list of one buffer -/

section one

variable {cfg : XoConfig} {pl : AoPlayloop}

theorem start_one (hone : pl.firstBuffers cfg ≤ 1) :
    ∃ p, (XoLoop.start cfg pl).pushes = [p] ∧ p.chan = false ∧ p.flags.waits p.chan = false := by
  rw [start_single cfg pl (by rwa [init_first])]
  exact ⟨_, rfl, rfl, rfl⟩

theorem handsOver_one {p : Push} (h : p.flags.waits p.chan = false) :
    HandsOver (playOrder [p]) :=
  handsOver_of_chain (.singleton p) fun q hq => by
    cases hq
    exact h

variable {s0 s : XoLoop} {p : Push}

/-- Nothing but the first push: a cycle more does not ask for another buffer, or the mode is
one-shot and there are no repeats. -/
theorem over_one (hs : Started cfg pl s0) (hone : pl.firstBuffers cfg ≤ 1)
    (hwhen : wrap (pl.firstBuffers cfg + pl.cycleBuffers cfg) ≤ 1 ∨
      pl.repeats = 0 ∧ pl.oneshot ≠ .continuous) : Over s0 := by
  have hcount : s0.shotBufferCount = pl.firstBuffers cfg := hs.count.trans init_first
  have hout : s0.dmaBuffersOut = 1 := by
    rw [hs.out, init_first, if_neg (Int.not_lt.mpr hone)]
  rcases hwhen with hwrap | ⟨hrep, hmode⟩
  · refine Or.inr (Or.inr (Or.inr ⟨by rw [hcount, hout]; exact hone, fun j hj => ?_⟩))
    obtain rfl : j = 0 := by have := hs.none_in; omega
    rw [hcount, hs.count0, init_cycle, hout, Int.natCast_zero, Int.zero_add, Int.one_mul]
    exact hwrap
  · refine Or.inr (Or.inr (Or.inl ⟨?_, hs.repeats.trans hrep, by rw [hcount, hout]; exact hone⟩))
    rw [aoContinuous, hs.oneshot]
    exact decide_eq_false hmode

/-- So it is where the mode is cleared before the first completion is looked at. -/
theorem one_cleared_holds (hs : Started cfg pl s0) (hone : pl.firstBuffers cfg ≤ 1)
    (hpushes : s0.pushes = [p]) (hw : p.flags.waits p.chan = false) (hrep : pl.repeats = 0)
    (hmode : pl.oneshot = .continuous) {acts : Nat → Clear} (hclear : acts 0 = .beforeCycle)
    {k : Nat} (hrun : Lts.run XoLoop.step s0 ((List.range k).map acts) = some s) :
    HandsOver (playOrder s.pushes) := by
  cases k with
  | zero =>
      obtain rfl := Option.some.inj hrun
      rw [hpushes]
      exact handsOver_one hw
  | succ k =>
      rw [List.range_succ_eq_map, List.map_cons, Lts.run_cons, Option.bind_eq_some_iff] at hrun
      obtain ⟨t, hstep, hrest⟩ := hrun
      have hkeep : Over t ∧ t.pushes = [p] := by
        obtain ⟨-, rfl | ⟨-, rfl⟩⟩ := step_cases hstep
        · exact ⟨Or.inl (Or.inl rfl), hpushes⟩
        · have hgo : (s0.lastPushDone && s0.continuousAtStart) = false := by
            rw [hs.last, Bool.false_and]
          have hcont : s0.aoContinuous = true := by
            rw [aoContinuous, hs.oneshot]
            exact decide_eq_true hmode
          have hall : s0.shotBufferCount ≤ s0.dmaBuffersOut := by
            rw [hs.count, hs.out, init_first, if_neg (Int.not_lt.mpr hone)]
            exact hone
          have hrep0 := hs.repeats.trans hrep
          rw [hclear, completed_cleared _ hgo hcont hall hrep0]
          exact ⟨Or.inr (Or.inr (Or.inl ⟨rfl, hrep0, hall⟩)), hpushes⟩
      rw [hkeep.1.run hrest, hkeep.2]
      exact handsOver_one hw

/-- Any other second push is on the channel of the first. -/
theorem breaks_one (hs : Started cfg pl s0) (hlen : 0 < pl.length)
    (hone : pl.firstBuffers cfg ≤ 1) (hpushes : s0.pushes = [p]) (hchan : p.chan = false)
    (hw : p.flags.waits p.chan = false)
    (hmore : 1 < wrap (pl.firstBuffers cfg + pl.cycleBuffers cfg)) (acts : Nat → Clear)
    (hagain : (pl.oneshot = .continuous ∧ acts 0 ≠ .beforeCycle) ∨ 0 < pl.repeats) :
    ∃ k s, Lts.run XoLoop.step s0 ((List.range k).map acts) = some s ∧
      ¬HandsOver (playOrder s.pushes) := by
  have hgo : (s0.lastPushDone && s0.continuousAtStart) = false := by rw [hs.last, Bool.false_and]
  have hout : s0.dmaBuffersOut = 1 := by
    rw [hs.out, init_first, if_neg (Int.not_lt.mpr hone)]
  have hcount : s0.shotBufferCount = pl.firstBuffers cfg := hs.count.trans init_first
  have hdone : ¬s0.Done := by
    rintro (hc | hc)
    · rw [hs.quit] at hc
      cases hc
    · rw [hs.length, hs.cursor] at hc
      omega
  have hagain' : (s0.aoContinuous = true ∧ acts 0 ≠ .beforeCycle) ∨ 0 < s0.playloop.repeats := by
    rw [hs.repeats, aoContinuous, hs.oneshot]
    simpa using hagain
  obtain ⟨q, hq, hqchan⟩ := completed_extends _ (acts 0) hgo (by rw [hcount, hout]; exact hone)
    (by rw [hcount, hs.count0, init_cycle, hout]; exact hmore) hagain'
  refine ⟨1, _, run_range_succ (k := 0) rfl
    (step_of_running hdone (by rw [hs.none_in, hout]; decide)), fun hh => ?_⟩
  have hprimed : Primed [p] := hw
  have hchain := hh.next
  rw [hq, hpushes, playOrder_append hprimed] at hchain
  have hnext := (List.isChain_pair.mp hchain).1
  rw [hqchan, hs.ic, hchan] at hnext
  cases hnext

end one

/-- When the loop hands over, in the mode it starts in and with the mode cleared as `acts` says. -/
def HandsOverWhen (cfg : XoConfig) (pl : AoPlayloop) (acts : Nat → Clear) : Prop :=
  if pl.firstBuffers cfg ≤ 1 then
    wrap (pl.firstBuffers cfg + pl.cycleBuffers cfg) ≤ 1 ∨
      pl.repeats = 0 ∧ (pl.oneshot ≠ .continuous ∨ acts 0 = .beforeCycle)
  else
    pl.oneshot = .continuous ∨ pl.repeats = 0 ∨ pl.firstBuffers cfg = 2 ∧ pl.repeats = 1 ∨
      (pl.length : Int) ≤ max 1 (pl.firstBuffers cfg - 2) * cfg.aoSamplesPerHb ∨
      2147483648 ≤ pl.firstBuffers cfg + pl.cycleBuffers cfg

/-- One buffer of a cycle that holds the length is not rounded up to two. -/
theorem cycleBuffers_one {cfg : XoConfig} {pl : AoPlayloop} (hq : pl.cycleBuffers cfg = 1)
    (hshort : pl.length ≤ cfg.aoSamplesPerHb) : ¬unsigned cfg.aoSamplesPerHb < pl.length := by
  have hrange := inRange_wrap (max pl.maxlen pl.length : Nat)
  unfold AoPlayloop.cycleBuffers at hq
  generalize wrap (max pl.maxlen pl.length : Nat) = x at hrange hq
  unfold InRange at hrange
  have hlt : cfg.aoSamplesPerHb < 2 ^ 32 := by
    obtain ⟨m, rfl | rfl⟩ := Int.eq_nat_or_neg x
    · by_contra hge
      rw [← Int.ofNat_tdiv, Nat.div_eq_of_lt (by omega)] at hq
      exact absurd hq (by decide)
    · rw [Int.neg_tdiv, ← Int.ofNat_tdiv] at hq
      generalize m / cfg.aoSamplesPerHb = d at hq
      omega
  rw [unsigned_natCast hlt]
  omega

/--
**In every state the loop reaches its pushes hand over from channel to channel, if and only if
it plays one buffer once, or more than one in continuous mode or without a repeat that it takes
up after its last push.**
-/
theorem xoDataLoop_hands_over_iff (cfg : XoConfig) (pl : AoPlayloop) (acts : Nat → Clear)
    (hlen : 1 ≤ pl.length) :
    (∀ k s, Lts.run XoLoop.step (start cfg pl) ((List.range k).map acts) = some s →
      HandsOver (playOrder s.pushes)) ↔ HandsOverWhen cfg pl acts := by
  have hs := started cfg pl
  unfold HandsOverWhen
  by_cases hone : pl.firstBuffers cfg ≤ 1
  · rw [if_pos hone]
    obtain ⟨p, hpushes, hchan, hw⟩ := start_one hone
    constructor
    · intro hall
      by_contra hno
      obtain ⟨hmore, hagain⟩ := not_or.mp hno
      obtain ⟨k, s, hrun, hbad⟩ := breaks_one hs hlen hone hpushes hchan hw
        (Int.not_le.mp hmore) acts (by
          by_cases hrep : pl.repeats = 0
          · exact Or.inl ⟨not_not.mp fun h => hagain ⟨hrep, Or.inl h⟩,
              fun h => hagain ⟨hrep, Or.inr h⟩⟩
          · exact Or.inr (UInt32.pos_iff_ne_zero.mpr hrep))
      exact hbad (hall k s hrun)
    · intro hwhen k s hrun
      by_cases hover : wrap (pl.firstBuffers cfg + pl.cycleBuffers cfg) ≤ 1 ∨
          pl.repeats = 0 ∧ pl.oneshot ≠ .continuous
      · rw [(over_one hs hone hover).run hrun, hpushes]
        exact handsOver_one hw
      · obtain ⟨hno, hcont⟩ := not_or.mp hover
        obtain ⟨hrep, hmode⟩ := hwhen.resolve_left hno
        have hcont' : pl.oneshot = .continuous := not_not.mp fun h => hcont ⟨hrep, h⟩
        exact one_cleared_holds hs hone hpushes hw hrep hcont'
          (hmode.resolve_left (not_not.mpr hcont')) hrun
  · rw [if_neg hone]
    have hpair := Int.not_le.mp hone
    obtain ⟨n, q, hn, hq, hlt, hround⟩ := firstBuffers_cases hpair
    have hchained : Chained (start cfg pl) :=
      start_chained (by rwa [init_first]) (by rw [init_cycle, hq]; exact Int.natCast_nonneg q)
    rw [hn, hq]
    rw [hn] at hpair
    constructor
    · intro hall
      by_contra hno
      obtain ⟨hmode, hno⟩ := not_or.mp hno
      obtain ⟨hrep, hno⟩ := not_or.mp hno
      obtain ⟨hrep1, hno⟩ := not_or.mp hno
      obtain ⟨hlong, hfit⟩ := not_or.mp hno
      have hpos := UInt32.pos_iff_ne_zero.mpr hrep
      have hfirst := firstCycle_of_started hs hmode hn hq (by omega)
      by_cases htwo : n = 2
      · subst htwo
        have hmore : 1 < pl.repeats := by
          have hne : pl.repeats.toNat ≠ 1 := fun h =>
            hrep1 ⟨rfl, UInt32.toNat_inj.mp h⟩
          have hpos' : 0 < pl.repeats.toNat := UInt32.lt_iff_toNat_lt.mp hpos
          refine UInt32.lt_iff_toNat_lt.mpr ?_
          show 1 < pl.repeats.toNat
          omega
        obtain ⟨k, s, hrun, hbad⟩ := breaks_two hfirst (by omega) hmore (by simpa using hlong) acts
        exact hbad (hall k s hrun)
      · have hmax : max 1 ((n : Int) - 2) = (n - 2 : Nat) := by omega
        rw [hmax, ← Int.natCast_mul, Int.ofNat_le] at hlong
        obtain ⟨k, s, hrun, hbad⟩ := breaks_three hfirst (by omega) (by omega) (by omega) hpos
          (by omega) acts
        exact hbad (hall k s hrun)
    · intro hwhen k s hrun
      by_cases hcont : pl.oneshot = .continuous
      · exact handsOver_run hchained (hs.atStart.trans (decide_eq_true hcont))
          (fun s clear t h _ hstep => continuous_keeps s clear t h hstep) hrun
      have hfirst := firstCycle_of_started hs hcont hn hq (by omega)
      by_cases hrep : pl.repeats = 0
      · exact handsOver_run hchained ⟨hfirst.mode, hfirst.atStart, hfirst.repeats.trans hrep⟩
          (fun s clear t h _ hstep => noRepeats_keeps s clear t h hstep) hrun
      rcases (hwhen.resolve_left hcont).resolve_left hrep with ⟨htwo, hrep1⟩ | hshort | hwraps
      · obtain rfl : n = 2 := by omega
        have hone0 : OneRepeat (start cfg pl) := by
          refine ⟨hfirst.mode, hfirst.atStart, hfirst.repeats.trans hrep1, ?_, ?_⟩
          · exact Int.le_of_eq (by rw [hfirst.count, hfirst.out])
          · rw [hfirst.count, hfirst.count0, hfirst.out, wrap_of_inRange (by unfold InRange; omega)]
            omega
        exact handsOver_run hchained (Or.inl hone0)
          (fun s clear t h _ hstep => oneRepeat_keeps s clear t h hstep) hrun
      · by_cases htwo : n = 2
        · subst htwo
          have hshort' : pl.length ≤ cfg.aoSamplesPerHb := by simpa using hshort
          obtain rfl : q = 2 := by
            rcases hround with heq | ⟨hone, hover⟩
            · exact heq.symm
            · obtain rfl : q = 1 := by omega
              rw [Int.natCast_one, Int.one_mul] at hover
              exact absurd hover (cycleBuffers_one hq hshort')
          exact handsOver_run hchained (Or.inr (Or.inl hfirst))
            (fun s clear t h _ hstep => secondCycle_keeps hshort'
              (UInt32.pos_iff_ne_zero.mpr hrep) s clear t h hstep) hrun
        · have hmax : max 1 ((n : Int) - 2) = (n - 2 : Nat) := by omega
          rw [hmax, ← Int.natCast_mul, Int.ofNat_le] at hshort
          exact handsOver_run hchained (Or.inr ⟨0, by omega, hfirst⟩)
            (fun s clear t h _ hstep => firstCycle_keeps hshort s clear t h hstep) hrun
      · exact handsOver_run hchained (Or.inr ⟨0, by omega, hfirst⟩)
          (fun s clear t h hc hstep => wrapping_keeps (by omega) s clear t h
            (hc.counted.step hstep) hstep) hrun

/-- Two buffers, played twice. -/
theorem xoDataLoop_hands_over_pair : (AoPlayloop.once 4 1).firstBuffers ⟨10, 8, 4⟩ = 2 ∧
    ∀ k s, Lts.run XoLoop.step (start ⟨10, 8, 4⟩ (.once 4 1))
        ((List.range k).map fun _ => .never) = some s →
      HandsOver (playOrder s.pushes) := by
  have htwo : (AoPlayloop.once 4 1).firstBuffers ⟨10, 8, 4⟩ = 2 := by decide
  have hwhen : HandsOverWhen ⟨10, 8, 4⟩ (.once 4 1) fun _ => .never := by
    rw [HandsOverWhen, if_neg (by rw [htwo]; decide)]
    exact Or.inr (Or.inr (Or.inl ⟨htwo, rfl⟩))
  refine ⟨htwo, ?_⟩
  exact (xoDataLoop_hands_over_iff ⟨10, 8, 4⟩ (.once 4 1) (fun _ => .never) (by decide)).mpr hwhen

/-- Three buffers, played twice: the third sets no event and the first is pushed behind it. -/
theorem xoDataLoop_repeat_stalls : ¬∀ k s,
    Lts.run XoLoop.step (start ⟨10, 8, 4⟩ (.once 6 1))
      ((List.range k).map fun _ => .never) = some s →
      HandsOver (playOrder s.pushes) := by
  intro hall
  have hfirst := firstCycle_of_started (started ⟨10, 8, 4⟩ (.once 6 1)) (by decide)
    (show _ = ((3 : Nat) : Int) by decide) (show _ = ((3 : Nat) : Int) by decide) (by decide)
  obtain ⟨k, s, hrun, hbad⟩ := breaks_three hfirst (by decide) (by decide) (by decide) (by decide)
    (by decide) fun _ => .never
  exact hbad (hall k s hrun)

end Acq400
