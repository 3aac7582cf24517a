/-
What a timeout costs.

How a stream is cut into buffers does not depend on its bytes, so two streams of one length
are loaded alike.  Where a timeout leaves a buffer partly filled, a stream that differs
everywhere from what was in the buffers shows it: the byte that comes next has a place that
is never written, or the samples that are counted do not cover the bytes that were received.
-/
import Acq400.Proofs.LoadByBuffer

namespace Acq400

namespace LoadPrams

variable (g : LoadPrams)

/-! ### The count that padding returns -/

theorem pingPad_count (last last' : Nat → UInt8) (room nsamples : Nat)
    (mem mem' : Nat → UInt8) :
    (g.pingPad last room nsamples mem).1 = (g.pingPad last' room nsamples mem').1 := by
  induction room generalizing nsamples mem mem' with
  | zero => rfl
  | succ room ih =>
      rw [pingPad, pingPad]
      split_ifs
      · rfl
      · exact ih _ _ _

theorem padWith_count (nsamples padSamples : Nat) (mem mem' : Nat → UInt8) :
    (g.padWith mem nsamples padSamples).map Prod.fst
      = (g.padWith mem' nsamples padSamples).map Prod.fst := by
  unfold padWith
  dsimp only
  split_ifs
  · rfl
  · rfl
  · rfl
  · rfl

theorem loadPad_count (nsamples : Nat) (mem mem' : Nat → UInt8) :
    (g._loadPad mem nsamples).map Prod.fst = (g._loadPad mem' nsamples).map Prod.fst := by
  unfold _loadPad
  dsimp only
  split_ifs
  · rfl
  · rfl
  · rfl
  · exact g.padWith_count nsamples _ mem mem'
  · rfl

theorem endLoad_count (buf nsamples : Nat) (mem mem' : Nat → UInt8) :
    (g.endLoad buf nsamples mem).map Prod.fst = (g.endLoad buf nsamples mem').map Prod.fst := by
  unfold endLoad
  split_ifs
  · exact congrArg some (g.pingPad_count _ _ _ _ _ _)
  · rfl
  · exact g.loadPad_count nsamples mem mem'

end LoadPrams

namespace LoadSt

variable {g : LoadPrams} {nbuffers : Nat}

/-! ### Loads of streams of one length -/

/-- Two loads that differ in bytes alone. -/
structure Alike (s t : LoadSt) : Prop where
  length : s.stream.length = t.stream.length
  received : s.received = t.received
  buf : s.buf = t.buf
  nsamples : s.nsamples = t.nsamples
  got : s.got = t.got
  nread : s.nread = t.nread
  ret : s.ret = t.ret

theorem Alike.symm {s t : LoadSt} (h : s.Alike t) : t.Alike s :=
  ⟨h.length.symm, h.received.symm, h.buf.symm, h.nsamples.symm, h.got.symm, h.nread.symm,
    h.ret.symm⟩

section

variable {s t u : LoadSt}

theorem Alike.finish (h : s.Alike t) {r r' : Option (Nat × (Nat → UInt8))}
    (hr : r.map Prod.fst = r'.map Prod.fst) (hu : s.finish r = some u) :
    ∃ v, t.finish r' = some v ∧ u.Alike v := by
  unfold LoadSt.finish at hu ⊢
  obtain ⟨⟨count, mem⟩, rfl, rfl⟩ := Option.map_eq_some_iff.mp hu
  obtain ⟨⟨count', mem'⟩, rfl, hcount⟩ := Option.map_eq_some_iff.mp hr.symm
  obtain rfl : count' = count := hcount
  exact ⟨_, rfl, h.length, h.received, h.buf, h.nsamples, h.got, h.nread, rfl⟩

theorem Alike.enter (h : s.Alike t) (hu : s.enter g nbuffers = some u) :
    ∃ v, t.enter g nbuffers = some v ∧ u.Alike v := by
  unfold LoadSt.enter at hu ⊢
  rw [← h.buf, ← h.nsamples]
  split_ifs at hu ⊢
  · obtain rfl := Option.some.inj hu
    exact ⟨_, rfl, h.length, h.received, rfl, rfl, rfl, rfl, h.ret⟩
  · exact h.finish (g.endLoad_count _ _ _ _) hu
  · exact h.finish (g.loadPad_count _ _ _) hu

theorem Alike.freadReturn (h : s.Alike t) (hu : s.freadReturn g nbuffers = some u) :
    ∃ v, t.freadReturn g nbuffers = some v ∧ u.Alike v := by
  simp only [LoadSt.freadReturn] at hu ⊢
  rw [← h.got, ← h.nsamples, ← h.buf]
  split_ifs at hu ⊢
  · refine Alike.enter ?_ hu
    exact ⟨h.length, h.received, rfl, rfl, rfl, h.nread, h.ret⟩
  · exact h.finish (g.endLoad_count _ _ _ _) hu

theorem Alike.freadLoop (h : s.Alike t) (hu : s.freadLoop g nbuffers = some u) :
    ∃ v, t.freadLoop g nbuffers = some v ∧ u.Alike v := by
  unfold LoadSt.freadLoop at hu ⊢
  rw [← h.got]
  split_ifs at hu ⊢
  · obtain rfl := Option.some.inj hu
    exact ⟨t, rfl, h⟩
  · exact h.freadReturn hu

theorem Alike.read (h : s.Alike t) (n : Nat) : (s.read g n).Alike (t.read g n) where
  length := by
    show (s.stream.drop n).length = (t.stream.drop n).length
    rw [List.length_drop, List.length_drop, h.length]
  received := congrArg (· + n) h.received
  buf := h.buf
  nsamples := h.nsamples
  got := h.got
  nread := rfl
  ret := h.ret

/-- `bp += nread`. -/
theorem Alike.advance (h : s.Alike t) :
    Alike { s with got := s.got + s.nread } { t with got := t.got + t.nread } :=
  ⟨h.length, h.received, h.buf, h.nsamples, by rw [h.got, h.nread], h.nread, h.ret⟩

theorem Alike.step (h : s.Alike t) {ev : LoadEv} (hu : s.step g nbuffers ev = some u) :
    ∃ v, t.step g nbuffers ev = some v ∧ u.Alike v := by
  cases hret : s.ret with
  | some count =>
      rw [step_returned (by rw [hret]; rfl)] at hu
      exact absurd hu nofun
  | none =>
      have hret' : t.ret = none := h.ret ▸ hret
      cases ev with
      | ready more =>
          obtain ⟨n, hn, hs⟩ := step_ready g nbuffers hret more
          obtain ⟨n', hn', ht⟩ := step_ready g nbuffers hret' more
          obtain rfl : n = n' := by rw [hn, hn', h.got, h.length]
          rw [hs] at hu
          rw [ht]
          split_ifs at hu ⊢
          · exact (h.read n).freadReturn hu
          · exact (h.read n).advance.freadLoop hu
      | timeout =>
          rw [step_timeout hret] at hu
          rw [step_timeout hret']
          have hgot := h.got
          by_cases hzero : s.got = 0
          · rw [if_pos hzero] at hu
            rw [if_pos (hgot ▸ hzero)]
            exact h.advance.freadLoop hu
          · rw [if_neg hzero] at hu
            rw [if_neg (hgot ▸ hzero)]
            exact h.freadReturn hu

theorem Alike.keeps (h : s.Alike t) {ev : LoadEv} (hs : s.Keeps g nbuffers ev) :
    t.Keeps g nbuffers ev := by
  intro hev hgot
  rw [← h.got] at hgot ⊢
  rw [← h.buf]
  refine (hs hev hgot).imp ?_ id
  intro hempty
  rw [← List.length_eq_zero_iff, ← h.length, hempty]
  rfl

end

/-- Streams of one length are loaded alike, whatever is in the buffers. -/
theorem start_alike {mem : Nat → UInt8} (mem' : Nat → UInt8) {stream stream' : List UInt8}
    {s : LoadSt} (hlength : stream.length = stream'.length)
    (hs : start g nbuffers mem stream = some s) :
    ∃ t, start g nbuffers mem' stream' = some t ∧ s.Alike t :=
  Alike.enter (s := ⟨mem, stream, 0, 0, 0, 0, 0, mem, none⟩)
    (t := ⟨mem', stream', 0, 0, 0, 0, 0, mem', none⟩)
    ⟨hlength, rfl, rfl, rfl, rfl, rfl, rfl⟩ hs

theorem Alike.run {s t u : LoadSt} (h : s.Alike t) {evs : List LoadEv}
    (hu : Lts.run (LoadSt.step g nbuffers) s evs = some u) :
    ∃ v, Lts.run (LoadSt.step g nbuffers) t evs = some v ∧ u.Alike v := by
  refine Lts.run_simulates Alike ?_ evs s t u h hu
  intro s t ev s' hst hstep
  exact hst.step hstep

theorem Alike.meets {s t : LoadSt} (h : s.Alike t) {evs : List LoadEv}
    (hs : Lts.Meets (LoadSt.step g nbuffers) (Keeps g nbuffers) s evs) :
    Lts.Meets (LoadSt.step g nbuffers) (Keeps g nbuffers) t evs := by
  refine Lts.Meets.simulates Alike ?_ ?_ evs s t h hs
  · intro s t ev hst hk
    exact hst.keeps hk
  · intro s t ev t' hst hstep
    obtain ⟨s', hs', hst'⟩ := hst.symm.step hstep
    exact ⟨s', hs', hst'.symm⟩

/-! ### A byte without a place -/

section

variable {mem : Nat → UInt8} {s t : LoadSt} {j : Nat}

/-- Byte `j` has been received, but its place is behind what is being filled. -/
structure Passed (g : LoadPrams) (mem : Nat → UInt8) (j : Nat) (s : LoadSt) : Prop where
  received : j < s.received
  before : j < s.buf * g.playBufferlen
  fresh : s.mem j = mem j
  ret : s.ret = none

/-- Nothing will be written in the place of byte `j`. -/
inductive Displaced (g : LoadPrams) (mem : Nat → UInt8) (j : Nat) (s : LoadSt) : Prop
  /-- It is the next byte to be received. -/
  | waiting (hstream : s.stream ≠ []) (hgot : s.got = 0) (hnread : s.nread = 0)
      (hreceived : s.received = j) (hbefore : j < s.buf * g.playBufferlen)
      (hfresh : s.mem j = mem j) (hret : s.ret = none)
  | passed (h : s.Passed g mem j)
  | done (hret : s.ret.isSome = true) (hreceived : j < s.received) (hfresh : s.loaded j = mem j)

theorem Passed.finish (h : s.Passed g mem j) {r : Option (Nat × (Nat → UInt8))}
    (ht : s.finish r = some t) : t.Displaced g mem j := by
  unfold LoadSt.finish at ht
  obtain ⟨_, -, rfl⟩ := Option.map_eq_some_iff.mp ht
  exact .done rfl h.received h.fresh

theorem Passed.enter (h : s.Passed g mem j) (ht : s.enter g nbuffers = some t) :
    t.Displaced g mem j := by
  unfold LoadSt.enter at ht
  split_ifs at ht
  · obtain rfl := Option.some.inj ht
    exact .passed ⟨h.received, h.before, h.fresh, h.ret⟩
  · exact h.finish ht
  · exact h.finish ht

theorem Passed.freadReturn (h : s.Passed g mem j) (ht : s.freadReturn g nbuffers = some t) :
    t.Displaced g mem j := by
  simp only [LoadSt.freadReturn] at ht
  split_ifs at ht
  · refine Passed.enter ?_ ht
    refine ⟨h.received, ?_, h.fresh, h.ret⟩
    show j < (s.buf + 1) * g.playBufferlen
    have hbefore := h.before
    rw [Nat.succ_mul]
    omega
  · exact h.finish ht

theorem Passed.freadLoop (h : s.Passed g mem j) (ht : s.freadLoop g nbuffers = some t) :
    t.Displaced g mem j := by
  unfold LoadSt.freadLoop at ht
  split_ifs at ht
  · obtain rfl := Option.some.inj ht
    exact .passed h
  · exact h.freadReturn ht

/-- A read writes behind the buffers before. -/
theorem read_passed {n : Nat} (hreceived : j < s.received + n)
    (hbefore : j < s.buf * g.playBufferlen) (hfresh : s.mem j = mem j) (hret : s.ret = none) :
    (s.read g n).Passed g mem j := by
  refine ⟨hreceived, hbefore, ?_, hret⟩
  simp only [LoadSt.read]
  rw [LoadPrams.memcpy_below (by omega), hfresh]

theorem Passed.advance (h : s.Passed g mem j) :
    Passed g mem j { s with got := s.got + s.nread } :=
  ⟨h.received, h.before, h.fresh, h.ret⟩

theorem Passed.step (h : s.Passed g mem j) {ev : LoadEv} (ht : s.step g nbuffers ev = some t) :
    t.Displaced g mem j := by
  cases ev with
  | ready more =>
      obtain ⟨n, -, hstep⟩ := step_ready g nbuffers h.ret more
      rw [hstep] at ht
      have hreceived := h.received
      have hread : (s.read g n).Passed g mem j :=
        read_passed (by omega) h.before h.fresh h.ret
      split_ifs at ht
      · exact hread.freadReturn ht
      · exact hread.advance.freadLoop ht
  | timeout =>
      rw [step_timeout h.ret] at ht
      split_ifs at ht
      · exact h.advance.freadLoop ht
      · exact h.freadReturn ht

theorem Displaced.step (h : s.Displaced g mem j) (hg : Sized g) {ev : LoadEv}
    (ht : s.step g nbuffers ev = some t) : t.Displaced g mem j := by
  cases h with
  | passed h => exact h.step ht
  | done hret _ _ =>
      rw [step_returned hret] at ht
      exact absurd ht nofun
  | waiting hstream hgot hnread hreceived hbefore hfresh hret =>
      cases ev with
      | timeout =>
          rw [step_timeout_empty hg hret hgot hnread] at ht
          obtain rfl := Option.some.inj ht
          exact .waiting hstream hgot hnread hreceived hbefore hfresh hret
      | ready more =>
          obtain ⟨n, hn, hstep⟩ := step_ready g nbuffers hret more
          have hlen : 0 < s.stream.length := List.length_pos_iff.mpr hstream
          have hbytes := hg.playBufferlen
          rw [hg.maxbytes] at hn
          rw [hstep, if_neg (by omega)] at ht
          have hread : (s.read g n).Passed g mem j :=
            read_passed (by omega) hbefore hfresh hret
          exact hread.advance.freadLoop ht

/-! ### What a timeout leaves behind -/

/-- A load that has lost something of the stream. -/
inductive Spoiled (g : LoadPrams) (mem : Nat → UInt8) (s : LoadSt) : Prop
  /-- It has returned before the end, without all that it has received. -/
  | short (hret : s.ret.isSome = true) (hstream : s.stream ≠ [])
      (hshort : s.nsamples * g.sampleSize ≠ s.received)
  | displaced (j : Nat) (h : s.Displaced g mem j)

theorem Spoiled.step (h : s.Spoiled g mem) (hg : Sized g) {ev : LoadEv}
    (ht : s.step g nbuffers ev = some t) : t.Spoiled g mem := by
  cases h with
  | short hret _ _ =>
      rw [step_returned hret] at ht
      exact absurd ht nofun
  | displaced j h => exact .displaced j (h.step hg ht)

/-- A stream that differs everywhere from what was in the buffers shows it. -/
theorem Spoiled.not_preserves (h : s.Spoiled g mem) {stream : List UInt8}
    (hforeign : ∀ j, stream[j]? ≠ some (mem j)) (hret : s.ret.isSome = true) :
    ¬s.Preserves g stream := by
  intro hpreserves
  cases h with
  | short _ hstream hshort => exact hshort (hpreserves.whole hstream)
  | displaced j h =>
      cases h with
      | waiting _ _ _ _ _ _ hnone =>
          rw [hnone] at hret
          exact absurd hret (by decide)
      | passed h =>
          rw [h.ret] at hret
          exact absurd hret (by decide)
      | done _ hreceived hfresh =>
          have hkept := hpreserves.kept j hreceived
          rw [hfresh] at hkept
          exact hforeign j hkept

/-- `_fread` returns for a timeout, before the end of the stream and with a buffer partly filled
that is not the last or cuts a sample. -/
theorem Filling.step_cut {stream : List UInt8} (h : s.Filling g nbuffers stream mem)
    (hg : Sized g) (hgot : 0 < s.got) (hstream : s.stream ≠ [])
    (hcut : ¬(s.buf + 1 = nbuffers ∧ g.sampleSize ∣ s.got))
    (ht : s.step g nbuffers .timeout = some t) : t.Spoiled g mem := by
  have hbuf := h.buf
  have hbytes : s.buf * g.spb * g.sampleSize = s.buf * g.playBufferlen := by
    rw [Nat.mul_assoc]
    exact congrArg (s.buf * ·) hg.maxbytes
  rw [step_timeout h.ret, if_neg (Nat.ne_of_gt hgot)] at ht
  simp only [freadReturn] at ht
  split_ifs at ht with hsome
  · simp only [enter] at ht
    by_cases hlast : s.buf + 1 = nbuffers
    · -- the part of a sample is not counted
      rw [if_neg (by omega)] at ht
      unfold LoadSt.finish at ht
      obtain ⟨_, -, rfl⟩ := Option.map_eq_some_iff.mp ht
      refine .short rfl hstream ?_
      show (s.nsamples + s.got / g.sampleSize) * g.sampleSize ≠ s.received
      intro hwhole
      rw [Nat.add_mul, h.nsamples, hbytes, h.received] at hwhole
      exact hcut ⟨hlast, ⟨s.got / g.sampleSize, by
        rw [Nat.mul_comm]
        exact (Nat.add_left_cancel hwhole).symm⟩⟩
    · -- the next byte goes into the next buffer
      rw [if_pos (by omega), if_pos (hg.maxbytes ▸ hg.playBufferlen)] at ht
      obtain rfl := Option.some.inj ht
      have hbefore : s.received < (s.buf + 1) * g.playBufferlen := by
        have := h.got
        rw [h.received, Nat.succ_mul]
        omega
      exact .displaced s.received
        (.waiting hstream rfl rfl rfl hbefore (h.fresh _ (Nat.le_refl _)) h.ret)
  · unfold LoadSt.finish at ht
    obtain ⟨_, -, rfl⟩ := Option.map_eq_some_iff.mp ht
    refine .short rfl hstream ?_
    show s.nsamples * g.sampleSize ≠ s.received
    rw [h.nsamples, hbytes, h.received]
    omega

/-- A load that shows the stream has lost nothing on the way. -/
theorem meets_of_preserves (hg : Sized g) {stream : List UInt8}
    (hforeign : ∀ j, stream[j]? ≠ some (mem j)) (hret : t.ret.isSome = true)
    (hpreserves : t.Preserves g stream) (evs : List LoadEv) :
    ∀ {s : LoadSt}, s.Phase g nbuffers stream mem →
      Lts.run (LoadSt.step g nbuffers) s evs = some t →
      Lts.Meets (LoadSt.step g nbuffers) (Keeps g nbuffers) s evs := by
  induction evs with
  | nil => intro s _ _; trivial
  | cons ev rest ih =>
      intro s hs hrun
      rw [Lts.run_cons, Option.bind_eq_some_iff] at hrun
      obtain ⟨u, hu, hrun⟩ := hrun
      by_cases hkeeps : s.Keeps g nbuffers ev
      · refine ⟨hkeeps, ?_⟩
        intro u' hu'
        obtain rfl : u = u' := Option.some.inj (hu.symm.trans hu')
        exact ih (hs.step hg hkeeps hu) hrun
      · exfalso
        unfold Keeps at hkeeps
        push Not at hkeeps
        obtain ⟨rfl, hgot, hstream, hcut⟩ := hkeeps
        have hspoiled : u.Spoiled g mem := by
          cases hs with
          | filling h => exact h.step_cut hg hgot hstream (not_and.mpr hcut) hu
          | drained h => exact absurd h.left hstream
          | done h =>
              rw [step_returned h.ret] at hu
              exact absurd hu nofun
        have hend : t.Spoiled g mem := by
          refine Lts.run_invariant (fun s => s.Spoiled g mem) ?_ rest u t hspoiled hrun
          intro v ev w hv hw
          exact hv.step hg hw
        exact hend.not_preserves hforeign hret hpreserves

end

/-! ### Every pattern of reads and timeouts -/

/-- Cut up as `evs`, every stream of `length` bytes is preserved. -/
def PreservesAll (g : LoadPrams) (nbuffers : Nat) (mem : Nat → UInt8) (length : Nat)
    (evs : List LoadEv) : Prop :=
  ∀ stream : List UInt8, stream.length = length → ∀ s t, start g nbuffers mem stream = some s →
    Lts.run (LoadSt.step g nbuffers) s evs = some t → t.ret.isSome = true →
    t.Preserves g stream

/-- The stream that differs in every byte from what is in the buffers. -/
def foreign (mem : Nat → UInt8) (length : Nat) : List UInt8 :=
  (List.range length).map fun j => mem j + 1

theorem foreign_length (mem : Nat → UInt8) (length : Nat) :
    (foreign mem length).length = length := by
  rw [foreign, List.length_map, List.length_range]

theorem foreign_ne (mem : Nat → UInt8) (length j : Nat) :
    (foreign mem length)[j]? ≠ some (mem j) := by
  intro h
  rw [foreign, List.getElem?_map, Option.map_eq_some_iff] at h
  obtain ⟨k, hk, hbyte⟩ := h
  obtain ⟨_, rfl⟩ := List.getElem?_eq_some_iff.mp hk
  rw [List.getElem_range] at hbyte
  have hnat := congrArg UInt8.toNat hbyte
  rw [UInt8.toNat_add, UInt8.toNat_one] at hnat
  have := (mem j).toNat_lt
  omega

/-- **Loading by buffer preserves the stream if nothing is left behind.**  That every stream of
one length is preserved, and that every turn leaves nothing partly filled behind. -/
theorem preservesAll_iff (hg : Sized g) {mem : Nat → UInt8} {stream : List UInt8}
    {evs : List LoadEv} {s t : LoadSt} (hs : start g nbuffers mem stream = some s)
    (hrun : Lts.run (LoadSt.step g nbuffers) s evs = some t) (hret : t.ret.isSome = true) :
    PreservesAll g nbuffers mem stream.length evs ↔
      Lts.Meets (LoadSt.step g nbuffers) (Keeps g nbuffers) s evs := by
  constructor
  · intro hall
    have hlength := foreign_length mem stream.length
    obtain ⟨s', hs', hstart⟩ := start_alike mem hlength.symm hs
    obtain ⟨t', hrun', hend⟩ := hstart.run hrun
    have hret' : t'.ret.isSome = true := hend.ret ▸ hret
    have hpreserves := hall _ hlength s' t' hs' hrun' hret'
    exact hstart.symm.meets (meets_of_preserves hg (foreign_ne mem stream.length) hret' hpreserves
      evs (start_cases hg nbuffers mem _ hs') hrun')
  · intro hmeets stream' hlength s' t' hs' hrun' hret'
    obtain ⟨u, hu, hstart⟩ := start_alike mem hlength.symm hs
    obtain rfl : u = s' := Option.some.inj (hu.symm.trans hs')
    exact preserves_of_keeps hg (start_cases hg nbuffers mem _ hs') (hstart.meets hmeets) hrun'
      hret'

/-- Two channels of two bytes, and buffers of four samples. -/
def twoChannels : LoadPrams := { sampleSize := 4, playBufferlen := 16, minbufs := 0, pad := 1 }

/-- Reads of three, twelve, one, ten and three bytes; the descriptor falls silent once, before a
buffer has been begun. -/
theorem preservesAll_slices :
    PreservesAll twoChannels 4 (fun _ => 0) 29
      [.ready 2, .ready 11, .ready 0, .timeout, .ready 9, .ready 2, .ready 0, .ready 0] := by
  let evs : List LoadEv :=
    [.ready 2, .ready 11, .ready 0, .timeout, .ready 9, .ready 2, .ready 0, .ready 0]
  let s : LoadSt := ⟨fun _ => 0, List.replicate 29 0, 0, 0, 0, 0, 0, fun _ => 0, none⟩
  have hs : start twoChannels 4 (fun _ => 0) (List.replicate 29 0) = some s := rfl
  obtain ⟨t, hrun, hret⟩ := Lts.exists_of_any (LoadSt.step twoChannels 4) s evs
    (fun t => t.ret.isSome) (by decide)
  exact (preservesAll_iff ⟨by decide, by decide, by decide⟩ hs
    hrun hret).mpr (by decide)

/-- The descriptor falls silent after two samples: the third goes into the next buffer. -/
theorem load_displaces :
    ∃ s t, start twoChannels 2 (fun _ => 0) ((List.range 12).map UInt8.ofNat) = some s ∧
      Lts.run (LoadSt.step twoChannels 2) s [.ready 7, .timeout, .ready 3, .timeout] = some t ∧
      t.ret.isSome = true ∧ t.received = 12 ∧
      ¬t.Preserves twoChannels ((List.range 12).map UInt8.ofNat) := by
  refine ⟨_, _, rfl, rfl, rfl, rfl, ?_⟩
  intro hpreserves
  have hsample := hpreserves.samples 2 0 (by decide) (by decide)
  exact absurd hsample (by decide)

end LoadSt

end Acq400
