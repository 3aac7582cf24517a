/-
`ai_data_loop` knows its buffers by their order on INFLIGHT.

At the top of an inner iteration INFLIGHT is the buffer last pushed on the channel that
is waited for and the buffer last pushed on the other, so the one that `putFull` takes is
the one whose transfer is complete.  `Holds` says what INFLIGHT is at every program
counter; that a pending transfer has its buffer to itself follows from it.

The one way to lose this is `getEmptyFromRefills`: it looks at REFILLS without the mutex,
and if the reader takes the last full buffer before the mutex section, a list head is
taken for a buffer.  `LeavesForPull` is that the reader does not.
-/
import Acq400.Driver.AiDataLoop
import Acq400.Proofs.Conservation

namespace Acq400

namespace AiLoop

theorem chan_cases : ∀ ic c : DmaChan, c = ic ∨ c = ic + 1 := by
  decide

theorem other_other : ∀ ic : DmaChan, ic + 1 + 1 = ic := by
  decide

theorem other_ne : ∀ ic : DmaChan, ic + 1 ≠ ic := by
  decide

/-! ### What INFLIGHT is -/

/-- INFLIGHT is the buffer last pushed on channel `ic` and the one last pushed on the other. -/
def Pair (s : AiLoop) (ic : DmaChan) : Prop :=
  ∃ b b', s.dmaCookies ic = some b ∧ s.dmaCookies (ic + 1) = some b' ∧
    s.dev.lists .inflight = [b, b']

/-- INFLIGHT is the buffer last pushed on the other channel, and `ic` has no transfer. -/
def Other (s : AiLoop) (ic : DmaChan) : Prop :=
  (∃ b', s.dmaCookies (ic + 1) = some b' ∧ s.dev.lists .inflight = [b']) ∧ s.pending ic = []

/-- Every pending transfer has a buffer of INFLIGHT to itself. -/
def Held (s : AiLoop) : Prop :=
  (∀ ic b, b ∈ s.pending ic → b ∈ s.dev.lists .inflight) ∧
    ∀ ic b, b ∈ s.pending ic → b ∉ s.pending (ic + 1)

/-- A channel has one pending transfer at most, and that is the last one pushed. -/
def OnePending (s : AiLoop) : Prop :=
  ∀ ic, s.pending ic = [] ∨ ∃ b, s.dmaCookies ic = some b ∧ s.pending ic = [b]

/-- What INFLIGHT is, and what is pending, where the thread is. -/
def Holds (s : AiLoop) : Prop :=
  match s.pc with
  | .hold0 => s.dev.lists .inflight = [] ∧ ∀ ic, s.pending ic = []
  | .hold1 => s.dev.lists .inflight = s.hbm0.toList ∧ ∀ ic, s.pending ic = []
  | .prime1 =>
    s.dev.lists .inflight = s.hbm0.toList ++ s.hbm1.toList ∧ ∀ ic, s.pending ic = []
  | .prime0 =>
    ∃ b1, s.dmaCookies 1 = some b1 ∧ s.dev.lists .inflight = s.hbm0.toList ++ [b1] ∧
      s.pending 0 = []
  | .start => s.Pair 0
  | .top | .wait | .sync => s.Pair s.ic
  | .putFull => s.Pair s.ic ∧ s.pending s.ic = []
  | .take | .pullTest => s.Other s.ic
  | .pullTake => s.Other s.ic ∧ s.dev.lists .refills ≠ []
  | .memcpy =>
    (∃ b b', s.hbm = some b ∧ s.dmaCookies (s.ic + 1) = some b' ∧
      s.dev.lists .inflight = [b', b]) ∧ s.pending s.ic = []
  | .check | .drain => s.Pair (s.ic + 1)
  | .quit | .oops => s.Held
  | .exited => ∀ ic, s.pending ic = []

/-- The invariant. -/
structure Sound (bufs : List HbmPtr) (s : AiLoop) : Prop where
  conserved : Conserved bufs s.dev
  onePending : s.OnePending
  holds : s.Holds
  noFault : s.fault = false

/-- The reader does not take the last full buffer from under `getEmptyFromRefills`. -/
def LeavesForPull (s : AiLoop) : AiAct → Prop
  | .beside (.getFull _ _) => s.pc = .pullTake → (s.dev.lists .refills).length ≠ 1
  | _ => True

instance (s : AiLoop) : ∀ act, Decidable (LeavesForPull s act)
  | .beside (.getFull _ _) => inferInstanceAs (Decidable (_ → _))
  | .beside .putEmpty | .beside (.dma _ _ _) | .beside .interrupt => isTrue trivial
  | .thread _ | .dmaDone _ | .stop => isTrue trivial

/-! ### A pending transfer has its buffer to itself -/

section Held

variable {s : AiLoop}

theorem OnePending.mem (h : s.OnePending) {ic : DmaChan} {b : HbmPtr} (hb : b ∈ s.pending ic) :
    s.dmaCookies ic = some b ∧ s.pending ic = [b] := by
  rcases h ic with hnil | ⟨b₀, hc, hone⟩
  · rw [hnil] at hb
    exact absurd hb List.not_mem_nil
  · rw [hone, List.mem_singleton] at hb
    rw [hb]
    exact ⟨hc, hone⟩

theorem Held.of_idle (h : ∀ ic, s.pending ic = []) : s.Held := by
  refine ⟨fun ic b hb => ?_, fun ic b hb => ?_⟩
  · rw [h ic] at hb
    exact absurd hb List.not_mem_nil
  · rw [h ic] at hb
    exact absurd hb List.not_mem_nil

theorem Held.of_pair (hp : s.OnePending) (hnodup : (s.dev.lists .inflight).Nodup) {ic : DmaChan}
    (h : s.Pair ic) : s.Held := by
  obtain ⟨b, b', hb, hb', hi⟩ := h
  rw [hi] at hnodup
  have hne : b ≠ b' := fun hc => by simp [hc] at hnodup
  refine ⟨fun c x hx => ?_, fun c x hx hy => ?_⟩
  · have hc := (hp.mem hx).1
    rw [hi]
    rcases chan_cases ic c with rfl | rfl
    · simp [Option.some.inj (hc.symm.trans hb)]
    · simp [Option.some.inj (hc.symm.trans hb')]
  · have hc := (hp.mem hx).1
    have hc' := (hp.mem hy).1
    rcases chan_cases ic c with rfl | rfl
    · exact hne (Option.some.inj (hb.symm.trans (hc.trans (hc'.symm.trans hb'))))
    · rw [other_other] at hc'
      exact hne (Option.some.inj (hb.symm.trans (hc'.trans (hc.symm.trans hb'))))

/-- One channel is idle and the other's buffer is on INFLIGHT. -/
theorem Held.of_other (hp : s.OnePending) {ic : DmaChan} {b' : HbmPtr} (hic : s.pending ic = [])
    (hc : s.dmaCookies (ic + 1) = some b') (hi : b' ∈ s.dev.lists .inflight) : s.Held := by
  refine ⟨fun c x hx => ?_, fun c x hx hy => ?_⟩
  · rcases chan_cases ic c with rfl | rfl
    · rw [hic] at hx
      exact absurd hx List.not_mem_nil
    · rwa [Option.some.inj ((hp.mem hx).1.symm.trans hc)]
  · rcases chan_cases ic c with rfl | rfl
    · rw [hic] at hx
      exact absurd hx List.not_mem_nil
    · rw [other_other, hic] at hy
      exact absurd hy List.not_mem_nil

theorem Sound.held {bufs : List HbmPtr} (h : Sound bufs s) : s.Held := by
  have hnodup := h.conserved.part.nodup .inflight
  have hp := h.onePending
  have hh := h.holds
  unfold Holds at hh
  split at hh
  · exact Held.of_idle hh.2
  · exact Held.of_idle hh.2
  · exact Held.of_idle hh.2
  · obtain ⟨b1, hc, hi, h0⟩ := hh
    exact Held.of_other hp h0 hc (by simp [hi])
  · exact Held.of_pair hp hnodup hh
  · exact Held.of_pair hp hnodup hh
  · exact Held.of_pair hp hnodup hh
  · exact Held.of_pair hp hnodup hh
  · exact Held.of_pair hp hnodup hh.1
  · obtain ⟨⟨b', hc, hi⟩, hic⟩ := hh
    exact Held.of_other hp hic hc (by simp [hi])
  · obtain ⟨⟨b', hc, hi⟩, hic⟩ := hh
    exact Held.of_other hp hic hc (by simp [hi])
  · obtain ⟨⟨⟨b', hc, hi⟩, hic⟩, -⟩ := hh
    exact Held.of_other hp hic hc (by simp [hi])
  · obtain ⟨⟨b, b', -, hc, hi⟩, hic⟩ := hh
    exact Held.of_other hp hic hc (by simp [hi])
  · exact Held.of_pair hp hnodup hh
  · exact Held.of_pair hp hnodup hh
  · exact hh
  · exact hh
  · exact Held.of_idle hh

end Held

/-! ### What a step keeps -/

section Steps

variable {bufs : List HbmPtr} {s s' : AiLoop}

@[simp] theorem dmaAsyncMemcpy_dev (s : AiLoop) (ic : DmaChan) (b : HbmPtr) :
    (s.dmaAsyncMemcpy ic b).dev = s.dev := rfl

/-- Where only the program counter and the like change, what is pending does not. -/
theorem OnePending.congr (h : s.OnePending) (hp : s'.pending = s.pending)
    (hc : s'.dmaCookies = s.dmaCookies) : s'.OnePending := by
  intro ic
  rw [hp, hc]
  exact h ic

theorem OnePending.memcpy (h : s.OnePending) {ic : DmaChan} {b : HbmPtr}
    (hidle : s.pending ic = []) : (s.dmaAsyncMemcpy ic b).OnePending := by
  intro c
  by_cases hc : c = ic
  · subst hc
    exact Or.inr ⟨b, by simp [dmaAsyncMemcpy], by simp [dmaAsyncMemcpy, hidle]⟩
  · simpa [dmaAsyncMemcpy, hc] using h c

theorem Held.congr (h : s.Held) (hp : s'.pending = s.pending)
    (hi : s'.dev.lists .inflight = s.dev.lists .inflight) : s'.Held := by
  refine ⟨fun ic b hb => ?_, fun ic b hb => ?_⟩
  · rw [hp] at hb
    rw [hi]
    exact h.1 ic b hb
  · rw [hp] at hb ⊢
    exact h.2 ic b hb

/-- The thread leaves its loop, or takes a null pointer; the lists are as they were. -/
theorem Sound.leave (h : Sound bufs s) (hpc : s'.pc = .quit ∨ s'.pc = .oops)
    (hcons : Conserved bufs s'.dev) (hp : s'.pending = s.pending)
    (hc : s'.dmaCookies = s.dmaCookies)
    (hi : s'.dev.lists .inflight = s.dev.lists .inflight) (hf : s'.fault = s.fault) :
    Sound bufs s' := by
  refine ⟨hcons, h.onePending.congr hp hc, ?_, hf.trans h.noFault⟩
  rcases hpc with hpc | hpc
  · rw [Holds, hpc]
    exact h.held.congr hp hi
  · rw [Holds, hpc]
    exact h.held.congr hp hi

theorem Sound.thread (h : Sound bufs s) {env : AiEnv} (hstep : aiDataLoop s env = some s') :
    Sound bufs s' := by
  obtain ⟨dev, pc, ic, hbm0, hbm1, hbm, edr, stop, ndone, pending, cookies, fault⟩ := s
  have hcons := h.conserved
  have hone := h.onePending
  have hholds := h.holds
  have hfault := h.noFault
  have hget := dev.getEmpty_inflight.1
  cases pc with
  | hold0 =>
      obtain rfl := Option.some.inj hstep
      exact ⟨hcons.getEmpty, hone, ⟨Dev.getEmpty_first hholds.1, hholds.2⟩, hfault⟩
  | hold1 =>
      obtain rfl := Option.some.inj hstep
      refine ⟨hcons.getEmpty, hone, ⟨?_, hholds.2⟩, hfault⟩
      show dev.getEmpty.2.lists .inflight = hbm0.toList ++ dev.getEmpty.1.toList
      rw [hget, show dev.lists .inflight = hbm0.toList from hholds.1]
  | prime1 =>
      obtain ⟨hi, hidle⟩ := hholds
      cases hbm1 with
      | none =>
          obtain rfl := Option.some.inj hstep
          exact h.leave (Or.inr rfl) hcons rfl rfl rfl rfl
      | some b1 =>
          obtain rfl := Option.some.inj hstep
          refine ⟨hcons, hone.memcpy (b := b1) (hidle 1), ⟨b1, ?_, hi, ?_⟩, hfault⟩
          · show Function.update cookies 1 (some b1) 1 = some b1
            rw [Function.update_self]
          · show Function.update pending 1 (pending 1 ++ [b1]) 0 = []
            rw [Function.update_of_ne (by decide)]
            exact hidle 0
  | prime0 =>
      obtain ⟨b1, hc1, hi, hidle⟩ := hholds
      cases hbm0 with
      | none =>
          obtain rfl := Option.some.inj hstep
          exact h.leave (Or.inr rfl) hcons rfl rfl rfl rfl
      | some b0 =>
          obtain rfl := Option.some.inj hstep
          refine ⟨hcons, hone.memcpy hidle, ⟨b0, b1, ?_, ?_, hi⟩, hfault⟩
          · show Function.update cookies 0 (some b0) 0 = some b0
            rw [Function.update_self]
          · show Function.update cookies 0 (some b0) 1 = some b1
            rw [Function.update_of_ne (by decide)]
            exact hc1
  | start =>
      obtain rfl := Option.some.inj hstep
      cases stop with
      | true => exact h.leave (Or.inl rfl) (hcons.congr rfl fun _ => rfl) rfl rfl rfl rfl
      | false => exact ⟨hcons.congr rfl fun _ => rfl, hone, hholds, hfault⟩
  | top =>
      obtain rfl := Option.some.inj hstep
      cases stop with
      | true => exact h.leave (Or.inl rfl) hcons rfl rfl rfl rfl
      | false => exact ⟨hcons, hone, hholds, hfault⟩
  | wait =>
      simp only [aiDataLoop] at hstep
      split at hstep
      · obtain rfl := Option.some.inj hstep
        cases stop with
        | true => exact h.leave (Or.inl rfl) hcons rfl rfl rfl rfl
        | false => exact ⟨hcons, hone, hholds, hfault⟩
      · split at hstep
        · obtain rfl := Option.some.inj hstep
          exact h.leave (Or.inl rfl) (hcons.congr rfl fun _ => rfl) rfl rfl rfl rfl
        · simp at hstep
  | sync =>
      simp only [aiDataLoop] at hstep
      split at hstep
      · rename_i hidle
        obtain rfl := Option.some.inj hstep
        exact ⟨hcons, hone, ⟨hholds, List.isEmpty_iff.mp hidle⟩, hfault⟩
      · split at hstep
        · obtain rfl := Option.some.inj hstep
          exact h.leave (Or.inl rfl) hcons rfl rfl rfl rfl
        · simp at hstep
  | putFull =>
      obtain ⟨⟨b, b', -, hc', hi⟩, hidle⟩ := hholds
      obtain rfl := Option.some.inj hstep
      exact ⟨hcons.putFull, hone, ⟨⟨b', hc', (Dev.putFull_inflight hi).2⟩, hidle⟩, hfault⟩
  | take =>
      obtain ⟨⟨b', hc', hi⟩, hidle⟩ := hholds
      have htake := hcons.getEmpty
      rw [show dev.lists .inflight = [b'] from hi] at hget
      generalize hg : dev.getEmpty = got at hget htake
      obtain ⟨b, dev'⟩ := got
      simp only [aiDataLoop, hg, Option.some.injEq] at hstep
      obtain rfl := hstep
      cases b with
      | none => exact ⟨htake, hone, ⟨⟨b', hc', hget⟩, hidle⟩, hfault⟩
      | some b => exact ⟨htake, hone, ⟨⟨b, b', rfl, hc', hget⟩, hidle⟩, hfault⟩
  | pullTest =>
      obtain rfl := Option.some.inj hstep
      cases hr : dev.lists .refills with
      | nil =>
          exact h.leave (Or.inl (by simp)) hcons rfl rfl rfl rfl
      | cons b rest =>
          refine ⟨hcons, hone, ?_, hfault⟩
          simp only [Holds, hr, List.isEmpty_cons, Bool.false_eq_true, if_false]
          exact ⟨hholds, List.cons_ne_nil b rest⟩
  | pullTake =>
      obtain ⟨⟨⟨b', hc', hi⟩, hidle⟩, hr⟩ := hholds
      obtain ⟨b, rest, hrefills⟩ := List.exists_cons_of_ne_nil hr
      obtain ⟨hb, hlists⟩ := Dev.getEmptyFromRefills_cons hrefills
      have hpull := hcons.getEmptyFromRefills
      generalize hp : dev.getEmptyFromRefills = pulled at hb hlists hpull
      obtain ⟨_, dev'⟩ := pulled
      obtain rfl := hb
      simp only [aiDataLoop, hp, Option.some.injEq] at hstep
      obtain rfl := hstep
      refine ⟨hpull.congr rfl fun _ => rfl, hone, ⟨⟨b, b', rfl, hc', ?_⟩, hidle⟩, hfault⟩
      show dev'.lists .inflight = [b', b]
      rw [show dev'.lists = _ from hlists]
      simp [Dev.shifted, show dev.lists .inflight = [b'] from hi]
  | memcpy =>
      obtain ⟨⟨b, b', hb, hc', hi⟩, hidle⟩ := hholds
      obtain rfl : hbm = some b := hb
      obtain rfl := Option.some.inj hstep
      refine ⟨hcons, hone.memcpy hidle, ⟨b', b, ?_, ?_, hi⟩, hfault⟩
      · show Function.update cookies ic (some b) (ic + 1) = some b'
        rw [Function.update_of_ne (other_ne ic)]
        exact hc'
      · show Function.update cookies ic (some b) (ic + 1 + 1) = some b
        rw [other_other, Function.update_self]
  | check =>
      simp only [aiDataLoop] at hstep
      split at hstep
      · obtain rfl := Option.some.inj hstep
        exact h.leave (Or.inl rfl) hcons rfl rfl rfl rfl
      · split at hstep
        · obtain rfl := Option.some.inj hstep
          exact ⟨hcons.congr rfl fun _ => rfl, hone, hholds, hfault⟩
        · obtain rfl := Option.some.inj hstep
          exact ⟨hcons, hone, hholds, hfault⟩
  | drain =>
      have hi := dev.moveListToEmpty_inflight
      have hmove : Conserved bufs (dev.moveListToEmpty .refills) :=
        hcons.moveListTo (by decide) rfl
      simp only [aiDataLoop] at hstep
      split at hstep
      · obtain rfl := Option.some.inj hstep
        exact h.leave (Or.inl rfl) (hmove.congr rfl fun _ => rfl) rfl rfl hi rfl
      · obtain rfl := Option.some.inj hstep
        obtain ⟨b, b', hb, hb', hpair⟩ := hholds
        exact ⟨hmove, hone, ⟨b, b', hb, hb', hi.trans hpair⟩, hfault⟩
  | quit =>
      obtain rfl := Option.some.inj hstep
      exact ⟨hcons.congr rfl fun _ => rfl, fun _ => Or.inl rfl, fun _ => rfl, hfault⟩
  | exited => simp [aiDataLoop] at hstep
  | oops => simp [aiDataLoop] at hstep

theorem Pair.congr {ic : DmaChan} (h : s.Pair ic) (hc : s'.dmaCookies = s.dmaCookies)
    (hi : s'.dev.lists .inflight = s.dev.lists .inflight) : s'.Pair ic := by
  obtain ⟨b, b', hb, hb', hpair⟩ := h
  exact ⟨b, b', by rw [hc, hb], by rw [hc, hb'], by rw [hi, hpair]⟩

/-- What happens beside the thread: INFLIGHT stays, transfers complete, and REFILLS is not
emptied where the thread is going to take from it. -/
theorem Sound.frame (h : Sound bufs s) (hcons : Conserved bufs s'.dev)
    (hone : s'.OnePending) (hpc : s'.pc = s.pc) (hic : s'.ic = s.ic) (h0 : s'.hbm0 = s.hbm0)
    (h1 : s'.hbm1 = s.hbm1) (hb : s'.hbm = s.hbm) (hc : s'.dmaCookies = s.dmaCookies)
    (hi : s'.dev.lists .inflight = s.dev.lists .inflight)
    (hp : ∀ ic, s'.pending ic ⊆ s.pending ic)
    (hr : s.pc = .pullTake → s.dev.lists .refills ≠ [] → s'.dev.lists .refills ≠ [])
    (hf : s'.fault = s.fault) : Sound bufs s' := by
  have hidle : ∀ ic, s.pending ic = [] → s'.pending ic = [] := fun ic hs =>
    List.eq_nil_of_subset_nil (hs ▸ hp ic)
  have hheld : s.Held → s'.Held := fun hs =>
    ⟨fun ic b hb => hi ▸ hs.1 ic b (hp ic hb),
      fun ic b hb hb' => hs.2 ic b (hp ic hb) (hp (ic + 1) hb')⟩
  have hother : s.Other s.ic → s'.Other s'.ic := by
    rintro ⟨⟨b', hc', hi'⟩, hnone⟩
    rw [hic]
    exact ⟨⟨b', by rw [hc, hc'], hi.trans hi'⟩, hidle _ hnone⟩
  refine ⟨hcons, hone, ?_, hf.trans h.noFault⟩
  have hh := h.holds
  unfold Holds at hh ⊢
  rw [hpc]
  cases hwhere : s.pc with
  | hold0 =>
      rw [hwhere] at hh
      exact ⟨hi.trans hh.1, fun ic => hidle ic (hh.2 ic)⟩
  | hold1 =>
      rw [hwhere] at hh
      exact ⟨by rw [hi, hh.1, h0], fun ic => hidle ic (hh.2 ic)⟩
  | prime1 =>
      rw [hwhere] at hh
      exact ⟨by rw [hi, hh.1, h0, h1], fun ic => hidle ic (hh.2 ic)⟩
  | prime0 =>
      rw [hwhere] at hh
      obtain ⟨b1, hc1, hi1, hnone⟩ := hh
      exact ⟨b1, by rw [hc, hc1], by rw [hi, hi1, h0], hidle 0 hnone⟩
  | start =>
      rw [hwhere] at hh
      exact Pair.congr hh hc hi
  | top | wait | sync =>
      rw [hwhere] at hh
      rw [hic]
      exact Pair.congr hh hc hi
  | putFull =>
      rw [hwhere] at hh
      rw [hic]
      exact ⟨Pair.congr hh.1 hc hi, hidle _ hh.2⟩
  | take | pullTest =>
      rw [hwhere] at hh
      exact hother hh
  | pullTake =>
      rw [hwhere] at hh
      exact ⟨hother hh.1, hr hwhere hh.2⟩
  | memcpy =>
      rw [hwhere] at hh
      obtain ⟨⟨b, b', hb', hc', hi'⟩, hnone⟩ := hh
      rw [hic]
      exact ⟨⟨b, b', by rw [hb, hb'], by rw [hc, hc'], hi.trans hi'⟩, hidle _ hnone⟩
  | check | drain =>
      rw [hwhere] at hh
      rw [hic]
      exact Pair.congr hh hc hi
  | quit | oops =>
      rw [hwhere] at hh
      exact hheld hh
  | exited =>
      rw [hwhere] at hh
      exact fun ic => hidle ic (hh ic)

/-- Where the thread is going to take from REFILLS, something is left there. -/
theorem LeavesForPull.refills {b : Beside} {dev : Dev} (h : LeavesForPull s (.beside b))
    (hstep : besideStep s.dev b = some dev) (hpc : s.pc = .pullTake)
    (hne : s.dev.lists .refills ≠ []) : dev.lists .refills ≠ [] := by
  cases b with
  | getFull wait signalled =>
      simp only [besideStep, Option.map_eq_some_iff] at hstep
      obtain ⟨⟨rc, dev₁⟩, hget, rfl⟩ := hstep
      rcases Dev.getFull_cases hget with ⟨hbm, rest, hl, -, hlists⟩ | ⟨hnil, -, -⟩
      · have hlast : (s.dev.lists .refills).length ≠ 1 := h hpc
        rw [hl, List.length_cons] at hlast
        rw [hlists]
        simp only [Dev.shifted, if_true, reduceCtorEq, if_false]
        intro hrest
        simp [hrest] at hlast
      · exact absurd hnil hne
  | putEmpty =>
      obtain ⟨hbm, rest, -, hlists⟩ := Dev.putEmpty_cases hstep
      rw [hlists]
      exact hne
  | dma hbm word value =>
      obtain rfl := Option.some.inj hstep
      exact hne
  | interrupt =>
      obtain rfl := Option.some.inj hstep
      exact hne

theorem Sound.beside (h : Sound bufs s) {b : Beside} {dev : Dev}
    (hleaves : LeavesForPull s (.beside b)) (hstep : besideStep s.dev b = some dev) :
    Sound bufs { s with dev := dev } := by
  have hcons : Conserved bufs dev := by
    cases b with
    | getFull wait signalled =>
        simp only [besideStep, Option.map_eq_some_iff] at hstep
        obtain ⟨⟨rc, dev₁⟩, hget, rfl⟩ := hstep
        exact h.conserved.getFull hget
    | putEmpty => exact h.conserved.putEmpty hstep
    | dma hbm word value =>
        obtain rfl := Option.some.inj hstep
        exact h.conserved.congr rfl fun cur => Dev.setWord_bstate _ _ _ _ _
    | interrupt =>
        obtain rfl := Option.some.inj hstep
        exact h.conserved.congr rfl fun _ => rfl
  exact h.frame hcons h.onePending rfl rfl rfl rfl rfl rfl (besideStep_inflight hstep).1
    (fun _ => List.Subset.refl _) (hleaves.refills hstep) rfl

theorem Sound.dmaDone (h : Sound bufs s) {ic : DmaChan} {b : HbmPtr} {rest : List HbmPtr}
    (hp : s.pending ic = b :: rest) (n : Int) :
    Sound bufs { s with pending := Function.update s.pending ic rest, dmaCallbackDone := n } := by
  have hrest : rest = [] := by
    have hone := (h.onePending.mem (show b ∈ s.pending ic by simp [hp])).2
    rw [hp] at hone
    exact (List.cons.inj hone).2
  subst hrest
  refine h.frame h.conserved (fun c => ?_) rfl rfl rfl rfl rfl rfl rfl (fun c => ?_)
    (fun _ hne => hne) rfl
  · by_cases hc : c = ic
    · exact Or.inl (by simp [hc])
    · simpa [hc] using h.onePending c
  · by_cases hc : c = ic
    · simp [hc]
    · simp [hc]

theorem Sound.step (h : Sound bufs s) {act : AiAct} (hleaves : LeavesForPull s act)
    (hstep : aiStep s act = some s') : Sound bufs s' := by
  have hfault : ¬ s.fault = true := by
    rw [h.noFault]
    exact Bool.false_ne_true
  unfold aiStep at hstep
  rw [if_neg hfault] at hstep
  cases act with
  | thread env => exact h.thread hstep
  | beside b =>
      simp only [Option.map_eq_some_iff] at hstep
      obtain ⟨dev, hdev, rfl⟩ := hstep
      exact h.beside hleaves hdev
  | dmaDone ic =>
      simp only at hstep
      split at hstep
      · simp at hstep
      · rename_i b rest hp
        obtain rfl := Option.some.inj hstep
        exact h.dmaDone hp _
  | stop =>
      obtain rfl := Option.some.inj hstep
      exact h.frame h.conserved h.onePending rfl rfl rfl rfl rfl rfl rfl
        (fun _ => List.Subset.refl _) (fun _ hne => hne) rfl

/-- A reader that does not leave it anything: the thread takes the list head. -/
theorem not_leavesForPull_faults (h : Sound bufs s) {act : AiAct} (hnot : ¬ LeavesForPull s act)
    (hstep : aiStep s act = some s') (env : AiEnv) :
    ∃ s'', aiStep s' (.thread env) = some s'' ∧ s''.fault = true := by
  have hfault := h.noFault
  obtain ⟨wait, signalled, rfl⟩ : ∃ wait signalled, act = .beside (.getFull wait signalled) := by
    rcases act with _ | (⟨wait, signalled⟩ | _ | _ | _) | _ | _
    · exact absurd trivial hnot
    · exact ⟨wait, signalled, rfl⟩
    · exact absurd trivial hnot
    · exact absurd trivial hnot
    · exact absurd trivial hnot
    · exact absurd trivial hnot
    · exact absurd trivial hnot
  have hlast : s.pc = .pullTake ∧ (s.dev.lists .refills).length = 1 := by
    simpa [LeavesForPull] using hnot
  obtain ⟨hbm, hone⟩ := List.length_eq_one_iff.mp hlast.2
  simp only [aiStep, hfault, Bool.false_eq_true, if_false, besideStep,
    Option.map_eq_some_iff] at hstep
  obtain ⟨dev, ⟨⟨rc, dev₁⟩, hget, rfl⟩, rfl⟩ := hstep
  have hnil : dev₁.lists .refills = [] := by
    rcases Dev.getFull_cases hget with ⟨hbm', rest, hl, -, hlists⟩ | ⟨hnil, -, -⟩
    · rw [hone] at hl
      rw [hlists]
      simp only [Dev.shifted, if_true, reduceCtorEq, if_false]
      exact (List.cons.inj hl).2.symm
    · rw [hone] at hnil
      exact absurd hnil (List.cons_ne_nil hbm [])
  refine ⟨{ s with dev := dev₁, fault := true }, ?_, rfl⟩
  simp only [aiStep, Bool.false_eq_true, if_false, aiDataLoop, hlast.1,
    Dev.getEmptyFromRefills_nil hnil]

end Steps

/--
**PRI capture pairing.**  In every run in which the reader leaves `getEmptyFromRefills`
the buffer it has seen: at the top of an inner iteration INFLIGHT is the buffer last
pushed on the channel and the buffer last pushed on the other; `putFull` takes the buffer
whose transfer is complete; and the buffer of a pending transfer is that of no other
one, and is on INFLIGHT alone.
-/
theorem ai_data_loop_pairs {bufs : List HbmPtr} (adev : Dev) (n : Int) {s : AiLoop}
    (acts : List AiAct) (hcons : Conserved bufs adev) (hinflight : adev.lists .inflight = [])
    (hleaves : Lts.Meets aiStep LeavesForPull (AiLoop.start adev n) acts)
    (hrun : Lts.run aiStep (AiLoop.start adev n) acts = some s) :
    s.fault = false ∧
      (s.pc = .top ∨ s.pc = .wait → ∃ b b', s.dmaCookies s.ic = some b ∧
        s.dmaCookies (s.ic + 1) = some b' ∧ s.dev.lists .inflight = [b, b']) ∧
      (s.pc = .putFull → s.pending s.ic = [] ∧
        ∃ b, s.dmaCookies s.ic = some b ∧ s.dev.putFull.1 = some b) ∧
      (∀ ic b, b ∈ s.pending ic → s.pending ic = [b] ∧ b ∉ s.pending (ic + 1) ∧
        ∀ l, l ≠ .inflight → b ∉ s.dev.lists l) := by
  have hstart : Sound bufs (AiLoop.start adev n) :=
    ⟨hcons.congr rfl fun _ => rfl, fun _ => Or.inl rfl, ⟨hinflight, fun _ => rfl⟩, rfl⟩
  have h := Lts.run_invariant_of (Sound bufs)
    (fun _ _ _ h hl hstep => h.step hl hstep) acts _ s hstart hleaves hrun
  have hholds := h.holds
  refine ⟨h.noFault, ?_, fun hpc => ?_, fun ic b hb => ⟨?_, h.held.2 ic b hb, ?_⟩⟩
  · rintro (hpc | hpc)
    · rwa [Holds, hpc] at hholds
    · rwa [Holds, hpc] at hholds
  · rw [Holds, hpc] at hholds
    obtain ⟨⟨b, b', hb, -, hi⟩, hidle⟩ := hholds
    exact ⟨hidle, b, hb, (Dev.putFull_inflight hi).1⟩
  · exact (h.onePending.mem hb).2
  · intro l hl hmem
    exact hl (h.conserved.part.disjoint l .inflight b hmem (h.held.1 ic b hb))

private def tick : AiAct := .thread { timeout := false, fifoError := false }

/-- Two buffers, of which the first is full and there is no third: the thread has looked
at REFILLS and is going to take it back. -/
private def firstFull : List AiAct :=
  List.replicate 6 tick ++ [.dmaDone 0] ++ List.replicate 5 tick

/-- The thread pulls the first buffer back, and waits for the second. -/
theorem ai_data_loop_pairs_two :
    ∃ s, Lts.run aiStep (AiLoop.start (Dev.allocated 2 4096 .loaded fun _ _ => 0) 0)
        (firstFull ++ List.replicate 4 tick) = some s ∧
      s.fault = false ∧
      (s.pc = .top ∨ s.pc = .wait → ∃ b b', s.dmaCookies s.ic = some b ∧
        s.dmaCookies (s.ic + 1) = some b' ∧ s.dev.lists .inflight = [b, b']) ∧
      (s.pc = .putFull → s.pending s.ic = [] ∧
        ∃ b, s.dmaCookies s.ic = some b ∧ s.dev.putFull.1 = some b) ∧
      (∀ ic b, b ∈ s.pending ic → s.pending ic = [b] ∧ b ∉ s.pending (ic + 1) ∧
        ∀ l, l ≠ .inflight → b ∉ s.dev.lists l) := by
  have hcons : Conserved [0, 1] (Dev.allocated 2 4096 .loaded fun _ _ => 0) := by
    refine Conserved.start (by decide) (List.Perm.refl _) (fun l hl => ?_) fun _ _ => rfl
    cases l with
    | empties => exact absurd rfl hl
    | _ => rfl
  obtain ⟨s, hrun, -⟩ := Lts.exists_of_any aiStep
    (AiLoop.start (Dev.allocated 2 4096 .loaded fun _ _ => 0) 0)
    (firstFull ++ List.replicate 4 tick) (fun s => s.pc = .top) (by decide)
  exact ⟨s, hrun, ai_data_loop_pairs (Dev.allocated 2 4096 .loaded fun _ _ => 0) 0 _ hcons rfl
    (by decide) hrun⟩

/-- The reader takes the full buffer between the look and the mutex section: the thread takes
the head of REFILLS for a buffer. -/
theorem ai_data_loop_takes_list_head :
    ∃ s, Lts.run aiStep (AiLoop.start (Dev.allocated 2 4096 .loaded fun _ _ => 0) 0)
        (firstFull ++ [.beside (.getFull true false), tick]) = some s ∧
      s.fault = true ∧ s.pc = .pullTake ∧ s.dev.lists .refills = [] ∧
      s.dev.lists .inflight = [1] := by
  obtain ⟨s, hrun, hs⟩ := Lts.exists_of_any aiStep
    (AiLoop.start (Dev.allocated 2 4096 .loaded fun _ _ => 0) 0)
    (firstFull ++ [.beside (.getFull true false), tick])
    (fun s => s.fault = true ∧ s.pc = .pullTake ∧ s.dev.lists .refills = [] ∧
      s.dev.lists .inflight = [1]) (by decide)
  exact ⟨s, hrun, of_decide_eq_true hs⟩

end AiLoop

end Acq400
