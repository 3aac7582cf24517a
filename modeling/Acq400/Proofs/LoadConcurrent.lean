/-
A tail that is not played.

A length is set whenever a block is complete.  What comes behind the last block is counted, and the
state says that its length is pending, but nothing sets the length at the end unless none was set
before.  So the length covers what has been read exactly if it is whole blocks, or less than the
first.

Everything else is as it should be: the lengths never decrease, none is longer than what is there
but for padding, and the trigger is set once, after the first length.
-/
import Acq400.Lib.Gather
import Acq400.Awg.LoadPad
import Acq400.Proofs.LoadByBuffer

open Gather

namespace Acq400

/-! ### Calls -/

namespace LoadCall

/-- The lengths of the calls, in their order. -/
def lengths (calls : List (Nat × LoadCall)) : List Nat :=
  calls.filterMap fun c =>
    match c.2 with
    | .setPlayloopLength nsamples => some nsamples
    | .doSoftTrigger => none

/-- None of the calls is the trigger. -/
def Quiet (calls : List (Nat × LoadCall)) : Prop := ∀ c ∈ calls, c.2 ≠ .doSoftTrigger

/-- One of the calls is the trigger, and a length has been set before it. -/
def TriggeredOnce (calls : List (Nat × LoadCall)) : Prop :=
  ∃ before n after, calls = before ++ (n, .doSoftTrigger) :: after ∧
    lengths before ≠ [] ∧ Quiet before ∧ Quiet after

variable {calls : List (Nat × LoadCall)} {n len : Nat}

theorem lengths_set (calls : List (Nat × LoadCall)) (n len : Nat) :
    lengths (calls ++ [(n, .setPlayloopLength len)]) = lengths calls ++ [len] :=
  List.filterMap_append

theorem lengths_trigger (calls : List (Nat × LoadCall)) (n : Nat) :
    lengths (calls ++ [(n, .doSoftTrigger)]) = lengths calls := by
  unfold lengths
  rw [List.filterMap_append]
  exact List.append_nil _

theorem Quiet.set (h : Quiet calls) (n len : Nat) :
    Quiet (calls ++ [(n, .setPlayloopLength len)]) := by
  intro c hc
  rcases List.mem_append.mp hc with hc | hc
  · exact h c hc
  · rw [List.mem_singleton.mp hc]
    exact nofun

theorem Quiet.trigger (h : Quiet calls) (hset : lengths calls ≠ []) (n : Nat) :
    TriggeredOnce (calls ++ [(n, .doSoftTrigger)]) :=
  ⟨calls, n, [], rfl, hset, h, fun _ hc => absurd hc List.not_mem_nil⟩

theorem TriggeredOnce.set (h : TriggeredOnce calls) (n len : Nat) :
    TriggeredOnce (calls ++ [(n, .setPlayloopLength len)]) := by
  obtain ⟨before, m, after, rfl, hset, hbefore, hafter⟩ := h
  refine ⟨before, m, after ++ [(n, .setPlayloopLength len)], ?_, hset, hbefore, hafter.set n len⟩
  rw [List.append_assoc, List.cons_append]

/-- Lengths that grow up to `top` and are no longer than what was there. -/
structure Growing (calls : List (Nat × LoadCall)) (top : Nat) : Prop where
  ascending : (lengths calls).Pairwise (· ≤ ·)
  le_top : ∀ len ∈ lengths calls, len ≤ top
  loaded : ∀ c ∈ calls, ∀ len, c.2 = .setPlayloopLength len → len ≤ c.1
  last : ∀ len, (lengths calls).getLast? = some len → len = top

theorem Growing.nil : Growing [] 0 where
  ascending := List.Pairwise.nil
  le_top := nofun
  loaded := nofun
  last := nofun

theorem Growing.set {top : Nat} (h : Growing calls top) (hle : top ≤ n) :
    Growing (calls ++ [(n, .setPlayloopLength n)]) n := by
  refine ⟨?_, ?_, ?_, ?_⟩
  · rw [lengths_set, List.pairwise_append]
    refine ⟨h.ascending, List.pairwise_singleton _ _, ?_⟩
    intro a ha b hb
    rw [List.mem_singleton.mp hb]
    exact Nat.le_trans (h.le_top a ha) hle
  · intro len hlen
    rw [lengths_set] at hlen
    rcases List.mem_append.mp hlen with hlen | hlen
    · exact Nat.le_trans (h.le_top len hlen) hle
    · exact Nat.le_of_eq (List.mem_singleton.mp hlen)
  · intro c hc len hlen
    rcases List.mem_append.mp hc with hc | hc
    · exact h.loaded c hc len hlen
    · rw [List.mem_singleton.mp hc] at hlen ⊢
      obtain rfl := LoadCall.setPlayloopLength.inj hlen
      exact Nat.le_refl _
  · intro len hlen
    rw [lengths_set, List.getLast?_concat] at hlen
    exact (Option.some.inj hlen).symm

theorem Growing.trigger {top : Nat} (h : Growing calls top) (n : Nat) :
    Growing (calls ++ [(n, .doSoftTrigger)]) top := by
  have hlengths := lengths_trigger calls n
  refine ⟨hlengths ▸ h.ascending, hlengths ▸ h.le_top, ?_, hlengths ▸ h.last⟩
  intro c hc len hlen
  rcases List.mem_append.mp hc with hc | hc
  · exact h.loaded c hc len hlen
  · rw [List.mem_singleton.mp hc] at hlen
    exact nomatch hlen

theorem Growing.getLast {top : Nat} (h : Growing calls top) (hset : lengths calls ≠ []) :
    (lengths calls).getLast? = some top := by
  rw [List.getLast?_eq_getLast_of_ne_nil hset]
  exact congrArg some (h.last _ (List.getLast?_eq_getLast_of_ne_nil hset))

end LoadCall

namespace ConcurrentSt

open LoadCall

/-- What the calls are to be once `_load_concurrent` has returned. -/
structure Right (g : LoadPrams) (s : ConcurrentSt) : Prop where
  ascending : (lengths s.calls).Pairwise (· ≤ ·)
  loaded : ∀ c ∈ s.calls, ∀ len, c.2 = .setPlayloopLength len →
    len ≤ c.1 ∨ ∃ mem mem', g._loadPad mem c.1 = some (len, mem')
  triggered : TriggeredOnce s.calls
  covers : ∃ len, (lengths s.calls).getLast? = some len ∧ s.totsamples ≤ len

variable {g : LoadPrams} {bufferlen : Nat} {s t : ConcurrentSt}

/-! ### A turn -/

/-- What a turn makes of the variables. -/
structure Turn (g : LoadPrams) (bufferlen : Nat) (s : ConcurrentSt) (n : Nat)
    (t : ConcurrentSt) : Prop where
  pos : 0 < n
  le : n ≤ s.playLoadBlocks * bls g bufferlen
  totsamples : t.totsamples = s.totsamples + n
  /-- No length is set. -/
  short : s.totsamples + n < s.due g bufferlen →
    t.playloopLength = s.playloopLength ∧ t.playLoadBlocks = s.playLoadBlocks ∧
      t.calls = s.calls ∧ t.tr = if s.tr = .done then .doneUpdateLengthPending else s.tr
  /-- A length is set, and maybe the trigger. -/
  full : s.due g bufferlen ≤ s.totsamples + n →
    t.playloopLength = s.totsamples + n ∧
      (t.playLoadBlocks = if s.tr = .firstTime then 1 else s.playLoadBlocks) ∧
      (t.tr = if s.tr = .firstTime then .requested else .done) ∧
      t.calls =
        if s.tr = .requested then
          (s.calls ++ [(s.totsamples + n, .setPlayloopLength (s.totsamples + n))]) ++
            [(s.totsamples + n, .doSoftTrigger)]
        else s.calls ++ [(s.totsamples + n, .setPlayloopLength (s.totsamples + n))]

/-- What `setLength` makes of the variables. -/
structure SetLength (s t : ConcurrentSt) : Prop where
  totsamples : t.totsamples = s.totsamples
  playloopLength : t.playloopLength = s.totsamples
  playLoadBlocks : t.playLoadBlocks = if s.tr = .firstTime then 1 else s.playLoadBlocks
  tr : t.tr = if s.tr = .firstTime then .requested else .done
  calls : t.calls =
    if s.tr = .requested then
      (s.calls ++ [(s.totsamples, .setPlayloopLength s.totsamples)]) ++
        [(s.totsamples, .doSoftTrigger)]
    else s.calls ++ [(s.totsamples, .setPlayloopLength s.totsamples)]

theorem setLength_spec (s : ConcurrentSt) : s.SetLength s.setLength := by
  obtain ⟨mem, bp, playloopLength, totsamples, tr, playLoadBlocks, calls⟩ := s
  cases tr with
  | firstTime => exact ⟨rfl, rfl, rfl, rfl, rfl⟩
  | requested => exact ⟨rfl, rfl, rfl, rfl, rfl⟩
  | done => exact ⟨rfl, rfl, rfl, rfl, rfl⟩
  | doneUpdateLengthPending => exact ⟨rfl, rfl, rfl, rfl, rfl⟩

theorem step_turn {data : List UInt8} (h : s.step g bufferlen data = some t) :
    Turn g bufferlen s (data.length / g.sampleSize) t := by
  unfold ConcurrentSt.step at h
  by_cases hread : data.length / g.sampleSize = 0 ∨
      s.playLoadBlocks * bls g bufferlen < data.length / g.sampleSize ∨
      data.length ≠ data.length / g.sampleSize * g.sampleSize
  · simp only [hread, if_true] at h
    exact nomatch h
  by_cases hint : 2 ^ 31 ≤ s.totsamples + data.length / g.sampleSize ∨
      2 ^ 31 ≤ s.due g bufferlen
  · simp only [hread, hint, if_true, if_false] at h
    exact nomatch h
  simp only [hread, hint, if_false] at h
  have hstep := (Option.some.inj h).symm
  have htot : (s.fread g data).totsamples = s.totsamples + data.length / g.sampleSize := rfl
  have hpos : 0 < data.length / g.sampleSize := Nat.pos_of_ne_zero fun hzero => hread (.inl hzero)
  have hle : data.length / g.sampleSize ≤ s.playLoadBlocks * bls g bufferlen :=
    Nat.le_of_not_lt fun hlt => hread (.inr (.inl hlt))
  rw [htot] at hstep
  by_cases hdue : s.due g bufferlen ≤ s.totsamples + data.length / g.sampleSize
  · rw [if_pos hdue] at hstep
    have hset := setLength_spec (s.fread g data)
    rw [← hstep] at hset
    refine ⟨hpos, hle, hset.totsamples, fun hlt => absurd hdue (Nat.not_le_of_lt hlt), fun _ => ?_⟩
    obtain ⟨-, hlength, hblocks, htr, hcalls⟩ := hset
    have hfirst : (s.fread g data).tr = .firstTime ↔ s.tr = .firstTime := by
      show (if s.tr = .done then TriggerReq.doneUpdateLengthPending else s.tr) = .firstTime ↔ _
      split
      · next hdone => rw [hdone]; decide
      · rfl
    have hrequested : (s.fread g data).tr = .requested ↔ s.tr = .requested := by
      show (if s.tr = .done then TriggerReq.doneUpdateLengthPending else s.tr) = .requested ↔ _
      split
      · next hdone => rw [hdone]; decide
      · rfl
    simp only [hfirst] at hblocks htr
    simp only [hrequested] at hcalls
    exact ⟨hlength, hblocks, htr, hcalls⟩
  · rw [if_neg hdue] at hstep
    subst hstep
    exact ⟨hpos, hle, rfl, fun _ => ⟨rfl, rfl, rfl, rfl⟩, fun hle => absurd hle hdue⟩

/-! ### The calls of the loop -/

/-- How far the loop has come. -/
inductive Stage (loadThreshold : Nat) (s : ConcurrentSt) : Prop
  | first (tr : s.tr = .firstTime) (calls : s.calls = []) (playloopLength : s.playloopLength = 0)
      (playLoadBlocks : s.playLoadBlocks = loadThreshold)
  | requested (tr : s.tr = .requested) (quiet : Quiet s.calls)
  | triggered (tr : s.tr = .done ∧ s.totsamples = s.playloopLength ∨
      s.tr = .doneUpdateLengthPending ∧ s.playloopLength < s.totsamples)
      (once : TriggeredOnce s.calls)

/-- The calls so far. -/
structure Calls (loadThreshold : Nat) (s : ConcurrentSt) : Prop where
  growing : Growing s.calls s.playloopLength
  le : s.playloopLength ≤ s.totsamples
  set : s.tr ≠ .firstTime → lengths s.calls ≠ []
  stage : s.Stage loadThreshold

theorem later_of_done (h : s.tr = .done ∨ s.tr = .doneUpdateLengthPending) :
    s.tr ≠ .firstTime ∧ s.tr ≠ .requested := by
  rcases h with hdone | hpending
  · rw [hdone]
    decide
  · rw [hpending]
    decide

theorem start_calls (mem : Nat → UInt8) (loadThreshold : Nat) :
    (start mem loadThreshold).Calls loadThreshold where
  growing := Growing.nil
  le := Nat.le_refl 0
  set := fun h => absurd rfl h
  stage := .first rfl rfl rfl rfl

theorem Calls.step {loadThreshold : Nat} (h : s.Calls loadThreshold) {data : List UInt8}
    (ht : s.step g bufferlen data = some t) : t.Calls loadThreshold := by
  have hturn := step_turn ht
  generalize data.length / g.sampleSize = n at hturn
  have htot := hturn.totsamples
  have hpos := hturn.pos
  have hle := h.le
  by_cases hdue : s.due g bufferlen ≤ s.totsamples + n
  · obtain ⟨hlength, -, htr, hcalls⟩ := hturn.full hdue
    have hgrowing := h.growing.set (n := s.totsamples + n) (by omega)
    have hset : lengths (s.calls ++ [(s.totsamples + n, .setPlayloopLength (s.totsamples + n))])
        ≠ [] := by
      rw [lengths_set]
      exact List.concat_ne_nil _ _
    cases h.stage with
    | first hfirst hnone _ _ =>
      rw [hfirst] at htr hcalls
      rw [if_neg (by decide)] at hcalls
      refine ⟨?_, by omega, fun _ => ?_, .requested htr ?_⟩
      · rw [hcalls, hlength]
        exact hgrowing
      · rw [hcalls]
        exact hset
      · rw [hcalls, hnone]
        exact Quiet.set (fun _ hc => absurd hc List.not_mem_nil) _ _
    | requested hreq hquiet =>
      rw [hreq] at htr hcalls
      rw [if_pos rfl] at hcalls
      refine ⟨?_, by omega, fun _ => ?_, .triggered (.inl ⟨htr, by omega⟩) ?_⟩
      · rw [hcalls, hlength]
        exact hgrowing.trigger _
      · rw [hcalls, lengths_trigger]
        exact hset
      · rw [hcalls]
        exact (hquiet.set _ _).trigger hset _
    | triggered hdone honce =>
      have hlater := later_of_done (hdone.imp And.left And.left)
      rw [if_neg hlater.1] at htr
      rw [if_neg hlater.2] at hcalls
      refine ⟨?_, by omega, fun _ => ?_, .triggered (.inl ⟨htr, by omega⟩) ?_⟩
      · rw [hcalls, hlength]
        exact hgrowing
      · rw [hcalls]
        exact hset
      · rw [hcalls]
        exact honce.set _ _
  · obtain ⟨hlength, hblocks, hcalls, htr⟩ := hturn.short (Nat.lt_of_not_le hdue)
    have hgrowing : Growing t.calls t.playloopLength := by
      rw [hcalls, hlength]
      exact h.growing
    cases h.stage with
    | first hfirst hnone hzero hthreshold =>
      rw [hfirst] at htr
      exact ⟨hgrowing, by omega, fun hne => absurd htr hne,
        .first htr (hcalls.trans hnone) (hlength.trans hzero) (hblocks.trans hthreshold)⟩
    | requested hreq hquiet =>
      have hset := h.set (by rw [hreq]; decide)
      rw [hreq] at htr
      exact ⟨hgrowing, by omega, fun _ => hcalls ▸ hset, .requested htr (hcalls ▸ hquiet)⟩
    | triggered hdone honce =>
      have hpending : t.tr = .doneUpdateLengthPending := by
        rcases hdone with ⟨hdone, -⟩ | ⟨hdone, -⟩
        · rw [htr, if_pos hdone]
        · rw [htr, hdone]
          rfl
      have hset := h.set (later_of_done (hdone.imp And.left And.left)).1
      exact ⟨hgrowing, by omega, fun _ => hcalls ▸ hset,
        .triggered (.inr ⟨hpending, by omega⟩) (hcalls ▸ honce)⟩

/-! ### The end of the shot -/

/-- What the calls of `fread` return. -/
def counts (g : LoadPrams) (reads : List (List UInt8)) : List Nat :=
  reads.map fun data => data.length / g.sampleSize

/-- No length has been set yet, or the last one is what has been read. -/
def Settled (s : ConcurrentSt) : Prop := s.tr = .firstTime ∨ s.totsamples = s.playloopLength

theorem settled_iff_whole (reads : List (List UInt8)) :
    ∀ s : ConcurrentSt, s.tr ≠ .firstTime → s.playLoadBlocks = 1 →
      s.playloopLength ≤ s.totsamples →
      s.totsamples - s.playloopLength < bls g bufferlen →
      Lts.run (step g bufferlen) s reads = some t →
      (t.Settled ↔
        Whole (bls g bufferlen) (s.totsamples - s.playloopLength) (counts g reads)) := by
  induction reads with
  | nil =>
    intro s hlater _ hle _ hrun
    obtain rfl := Option.some.inj hrun
    have hwhole : Whole (bls g bufferlen) (s.totsamples - s.playloopLength) (counts g []) ↔
        s.totsamples - s.playloopLength = 0 := whole_nil_iff
    rw [hwhole]
    constructor
    · rintro (hfirst | heq)
      · exact absurd hfirst hlater
      · omega
    · intro hzero
      exact Or.inr (by omega)
  | cons data reads ih =>
    intro s hlater hblocks hle hleft hrun
    rw [Lts.run_cons, Option.bind_eq_some_iff] at hrun
    obtain ⟨u, hstep, hrun⟩ := hrun
    have hturn := step_turn hstep
    have hcounts : counts g (data :: reads) = data.length / g.sampleSize :: counts g reads := rfl
    rw [hcounts]
    generalize data.length / g.sampleSize = n at hturn
    have htot := hturn.totsamples
    have hdue : s.due g bufferlen = s.playloopLength + bls g bufferlen := by
      rw [due, hblocks, Nat.one_mul]
    rw [whole_cons hleft hturn.pos]
    by_cases hfull : s.due g bufferlen ≤ s.totsamples + n
    · obtain ⟨hlength, hblocks', htr, -⟩ := hturn.full hfull
      rw [if_neg hlater] at hblocks' htr
      have hzero : u.totsamples - u.playloopLength = 0 := by omega
      rw [if_pos (by omega), ← hzero]
      exact ih u (by rw [htr]; decide) (hblocks'.trans hblocks) (by omega) (by omega) hrun
    · obtain ⟨hlength, hblocks', -, htr⟩ := hturn.short (Nat.lt_of_not_le hfull)
      have hmore : s.totsamples - s.playloopLength + n = u.totsamples - u.playloopLength := by
        omega
      have hlater' : u.tr ≠ .firstTime := by
        rw [htr]
        split
        · exact nofun
        · exact hlater
      rw [if_neg (by omega), hmore]
      exact ih u hlater' (hblocks'.trans hblocks) (by omega) (by omega) hrun

/-- The counts end before the first block of `threshold` is complete, or they are that block and
blocks of `size`. -/
def Cuts (threshold size : Nat) (ns : List Nat) : Prop :=
  ns = [] ∨ ns.sum < threshold ∨ Begun threshold size 0 ns

theorem settled_iff_begun {loadThreshold : Nat} (reads : List (List UInt8)) :
    ∀ s : ConcurrentSt, s.tr = .firstTime → s.playLoadBlocks = loadThreshold →
      s.playloopLength = 0 → s.totsamples < loadThreshold * bls g bufferlen →
      Lts.run (step g bufferlen) s reads = some t →
      (t.Settled ↔ s.totsamples + (counts g reads).sum < loadThreshold * bls g bufferlen ∨
        Begun (loadThreshold * bls g bufferlen) (bls g bufferlen) s.totsamples
          (counts g reads)) := by
  induction reads with
  | nil =>
    intro s hfirst _ _ hlt hrun
    obtain rfl := Option.some.inj hrun
    exact ⟨fun _ => Or.inl hlt, fun _ => Or.inl hfirst⟩
  | cons data reads ih =>
    intro s hfirst hthreshold hzero hlt hrun
    rw [Lts.run_cons, Option.bind_eq_some_iff] at hrun
    obtain ⟨u, hstep, hrun⟩ := hrun
    have hturn := step_turn hstep
    have hcounts : counts g (data :: reads) = data.length / g.sampleSize :: counts g reads := rfl
    rw [hcounts, List.sum_cons]
    generalize data.length / g.sampleSize = n at hturn
    have htot := hturn.totsamples
    have hdue : s.due g bufferlen = loadThreshold * bls g bufferlen := by
      rw [due, hthreshold, hzero, Nat.zero_add]
    have hbls : 0 < bls g bufferlen :=
      Nat.pos_of_mul_pos_left (Nat.lt_of_lt_of_le hturn.pos hturn.le)
    by_cases hfull : s.due g bufferlen ≤ s.totsamples + n
    · obtain ⟨hlength, hblocks, htr, -⟩ := hturn.full hfull
      rw [if_pos hfirst] at hblocks htr
      have hleft : u.totsamples - u.playloopLength = 0 := by omega
      have hsettled := settled_iff_whole reads u (by rw [htr]; decide) hblocks (by omega)
        (by omega) hrun
      rw [hsettled, hleft, whole_zero_iff, begun_cons_complete hlt (by omega)]
      constructor
      · intro h
        exact Or.inr h
      · rintro (hshort | h)
        · omega
        · exact h
    · obtain ⟨hlength, hblocks, -, htr⟩ := hturn.short (Nat.lt_of_not_le hfull)
      have hfirst' : u.tr = .firstTime := by
        rw [htr, hfirst]
        rfl
      rw [begun_cons_more (by omega), ← Nat.add_assoc, ← htot]
      exact ih u hfirst' (hblocks.trans hthreshold) (hlength.trans hzero) (by omega) hrun

theorem settled_iff_cuts (mem : Nat → UInt8) (loadThreshold : Nat) (reads : List (List UInt8))
    (hrun : Lts.run (step g bufferlen) (start mem loadThreshold) reads = some s) :
    s.Settled ↔
      Cuts (loadThreshold * bls g bufferlen) (bls g bufferlen) (counts g reads) := by
  cases reads with
  | nil =>
    obtain rfl := Option.some.inj hrun
    exact ⟨fun _ => Or.inl rfl, fun _ => Or.inl rfl⟩
  | cons data reads =>
    have hsome : 0 < loadThreshold * bls g bufferlen := by
      obtain ⟨u, hstep, -⟩ := Option.bind_eq_some_iff.mp hrun
      have hturn := step_turn hstep
      exact Nat.lt_of_lt_of_le hturn.pos hturn.le
    have hsettled := settled_iff_begun (data :: reads) (start mem loadThreshold) rfl rfl rfl hsome
      hrun
    rw [hsettled, Cuts]
    have hne : counts g (data :: reads) ≠ [] := List.cons_ne_nil _ _
    have hzero : (start mem loadThreshold).totsamples = 0 := rfl
    rw [hzero, Nat.zero_add]
    exact (or_iff_right hne).symm

/-! ### Behind the loop -/

theorem finish_first (hfirst : s.tr = .firstTime) (ht : s.finish g = some t) :
    ∃ len mem', g._loadPad s.mem s.totsamples = some (len, mem') ∧
      t.totsamples = s.totsamples ∧
      t.calls = (s.calls ++ [(s.totsamples, .setPlayloopLength len)]) ++
        [(s.totsamples, .doSoftTrigger)] := by
  obtain ⟨mem, bp, playloopLength, totsamples, tr, playLoadBlocks, calls⟩ := s
  obtain rfl : tr = .firstTime := hfirst
  obtain ⟨u, hpadded, hu⟩ := Option.map_eq_some_iff.mp ht
  rw [if_pos rfl] at hpadded
  split at hpadded
  · exact nomatch hpadded
  · obtain ⟨⟨len, mem'⟩, hpad, rfl⟩ := Option.map_eq_some_iff.mp hpadded
    subst hu
    exact ⟨len, mem', hpad, rfl, rfl⟩

theorem finish_requested (hreq : s.tr = .requested) (ht : s.finish g = some t) :
    t = s.call .doSoftTrigger := by
  obtain ⟨mem, bp, playloopLength, totsamples, tr, playLoadBlocks, calls⟩ := s
  obtain rfl : tr = .requested := hreq
  exact (Option.some.inj ht).symm

theorem finish_triggered (h : s.tr = .done ∨ s.tr = .doneUpdateLengthPending)
    (ht : s.finish g = some t) : t = s := by
  obtain ⟨mem, bp, playloopLength, totsamples, tr, playLoadBlocks, calls⟩ := s
  rcases h with h | h
  · obtain rfl : tr = .done := h
    exact (Option.some.inj ht).symm
  · obtain rfl : tr = .doneUpdateLengthPending := h
    exact (Option.some.inj ht).symm

theorem right_of_padded {len : Nat} {mem mem' : Nat → UInt8} {n : Nat}
    (hpad : g._loadPad mem n = some (len, mem')) (htot : t.totsamples = n)
    (hcalls : t.calls = [(n, .setPlayloopLength len), (n, .doSoftTrigger)]) : t.Right g := by
  have hlengths : lengths t.calls = [len] := by
    rw [hcalls]
    rfl
  refine ⟨?_, ?_, ?_, ⟨len, ?_, ?_⟩⟩
  · rw [hlengths]
    exact List.pairwise_singleton _ _
  · intro c hc len' hlen
    rw [hcalls] at hc
    rcases List.mem_cons.mp hc with rfl | hc
    · obtain rfl := LoadCall.setPlayloopLength.inj hlen
      exact Or.inr ⟨mem, mem', hpad⟩
    · rw [List.mem_singleton.mp hc] at hlen
      exact nomatch hlen
  · rw [hcalls]
    exact Quiet.trigger (Quiet.set (fun _ hc => absurd hc List.not_mem_nil) n len)
      (List.cons_ne_nil _ _) n
  · rw [hlengths]
    rfl
  · rw [htot]
    exact (g.loadPad_pads hpad).1

theorem right_iff_of_growing (hgrowing : Growing t.calls s.playloopLength)
    (hset : lengths t.calls ≠ []) (honce : TriggeredOnce t.calls)
    (htot : t.totsamples = s.totsamples) (hle : s.playloopLength ≤ s.totsamples) :
    t.Right g ↔ s.totsamples = s.playloopLength := by
  constructor
  · rintro ⟨-, -, -, len, hlast, hcovers⟩
    have := hgrowing.last len hlast
    omega
  · intro heq
    refine ⟨hgrowing.ascending, ?_, honce, s.playloopLength, hgrowing.getLast hset, by omega⟩
    intro c hc len hlen
    exact Or.inl (hgrowing.loaded c hc len hlen)

/-- Everything else is right at the end, but the last length may not cover what has been read. -/
theorem Calls.right_iff_settled {loadThreshold : Nat} (h : s.Calls loadThreshold)
    (ht : s.finish g = some t) : t.Right g ↔ s.Settled := by
  cases h.stage with
  | first hfirst hnone _ _ =>
    obtain ⟨len, mem', hpad, htot, hcalls⟩ := finish_first hfirst ht
    rw [hnone] at hcalls
    exact ⟨fun _ => Or.inl hfirst, fun _ => right_of_padded hpad htot hcalls⟩
  | requested hreq hquiet =>
    obtain rfl := finish_requested hreq ht
    have hlater : s.tr ≠ .firstTime := by
      rw [hreq]
      decide
    have hset := h.set hlater
    have hright := right_iff_of_growing (g := g) (s := s) (t := s.call .doSoftTrigger)
      (h.growing.trigger _) (by rwa [← lengths_trigger s.calls s.totsamples] at hset)
      (hquiet.trigger hset _) rfl h.le
    rw [hright]
    exact (or_iff_right hlater).symm
  | triggered hdone honce =>
    have hcases : s.tr = .done ∨ s.tr = .doneUpdateLengthPending :=
      hdone.imp And.left And.left
    obtain rfl := finish_triggered hcases ht
    have hlater := (later_of_done hcases).1
    have hright := right_iff_of_growing (g := g) h.growing (h.set hlater) honce rfl h.le
    rw [hright]
    exact (or_iff_right hlater).symm

/-- Samples of four bytes in buffers of four samples. -/
def smallBuffers : LoadPrams := { sampleSize := 4, playBufferlen := 16, minbufs := 4, pad := 1 }

end ConcurrentSt

end Acq400
