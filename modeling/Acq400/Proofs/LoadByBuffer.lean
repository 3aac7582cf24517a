/-
The buffers hold the stream.

As long as every buffer is full before the next one is begun, a byte stands at the offset
it has in the stream.  A `pselect` that times out leaves a buffer partly filled, and the
loader goes on with the next one all the same.  That does no harm where the stream has
been received, or where there is no next buffer and no sample is cut.
-/
import Acq400.Awg.LoadByBuffer
import Mathlib.Tactic.Common

namespace Acq400

/-- What is to have become of the stream when `_load_by_buffer` has returned. -/
structure LoadSt.Preserves (g : LoadPrams) (stream : List UInt8) (s : LoadSt) : Prop where
  /-- Each whole sample that was received is at its offset. -/
  samples : ∀ i k, (i + 1) * g.sampleSize ≤ s.received → k < g.sampleSize →
    stream[i * g.sampleSize + k]? = some (s.mem (i * g.sampleSize + k))
  count : ∀ n, s.ret = some n → s.received / g.sampleSize ≤ n
  /-- Each byte that was received had been put at its offset. -/
  kept : ∀ j, j < s.received → stream[j]? = some (s.loaded j)
  /-- Before the end of the stream, no byte that was received is left out of the samples. -/
  whole : s.stream ≠ [] → s.nsamples * g.sampleSize = s.received

namespace LoadPrams

variable (g : LoadPrams)

/-! ### Padding -/

theorem memcpy_below {mem src : Nat → UInt8} {dest n j : Nat} (h : j < dest) :
    memcpy mem dest src n j = mem j := by
  unfold memcpy
  rw [if_neg]
  omega

theorem padCopies_below {last : Nat → UInt8} {j : Nat} (padSamples : Nat) {mem : Nat → UInt8}
    {stop : Nat} (h : j < stop) : g.padCopies last padSamples mem stop j = mem j := by
  induction padSamples generalizing mem stop with
  | zero => rfl
  | succ padSamples ih =>
      rw [padCopies, ih (by omega)]
      exact memcpy_below h

/-- What padding leaves as it was. -/
def PadsFrom (nsamples : Nat) (mem : Nat → UInt8) (r : Nat × (Nat → UInt8)) : Prop :=
  nsamples ≤ r.1 ∧ ∀ j, j < nsamples * g.sampleSize → r.2 j = mem j

theorem loadPad_pads {mem : Nat → UInt8} {nsamples : Nat} {r : Nat × (Nat → UInt8)}
    (h : g._loadPad mem nsamples = some r) : g.PadsFrom nsamples mem r := by
  simp only [_loadPad] at h
  split_ifs at h
  · simp only [padWith] at h
    split_ifs at h
    · obtain rfl := Option.some.inj h
      exact ⟨Nat.le_add_right _ _, fun j _ => rfl⟩
    · obtain rfl := Option.some.inj h
      exact ⟨Nat.le_add_right _ _, fun j hj => g.padCopies_below _ hj⟩
  · obtain rfl := Option.some.inj h
    exact ⟨Nat.le_refl _, fun j _ => rfl⟩

theorem pingPad_pads (last : Nat → UInt8) (room nsamples : Nat) (mem : Nat → UInt8) :
    g.PadsFrom nsamples mem (g.pingPad last room nsamples mem) := by
  induction room generalizing nsamples mem with
  | zero => exact ⟨Nat.le_refl _, fun j _ => rfl⟩
  | succ room ih =>
      rw [pingPad]
      split_ifs
      · exact ⟨Nat.le_refl _, fun j _ => rfl⟩
      · obtain ⟨hle, hmem⟩ := ih (nsamples + 1)
          (memcpy mem (nsamples * g.sampleSize) last g.sampleSize)
        refine ⟨by omega, ?_⟩
        intro j hj
        rw [hmem j (by rw [Nat.succ_mul]; omega)]
        exact memcpy_below hj

theorem endLoad_pads {mem : Nat → UInt8} {buf nsamples : Nat} {r : Nat × (Nat → UInt8)}
    (h : g.endLoad buf nsamples mem = some r) : g.PadsFrom nsamples mem r := by
  unfold endLoad at h
  split_ifs at h
  · obtain rfl := Option.some.inj h
    exact g.pingPad_pads _ _ _ _
  · obtain rfl := Option.some.inj h
    exact ⟨Nat.le_refl _, fun j _ => rfl⟩
  · exact g.loadPad_pads h

end LoadPrams

namespace LoadSt

variable {g : LoadPrams} {nbuffers : Nat}

/-! ### What has been loaded -/

/-- Everything received is in its place, and counted but for a last part of a sample. -/
structure Loaded (g : LoadPrams) (stream : List UInt8) (s : LoadSt) : Prop where
  nsamples : s.nsamples = s.received / g.sampleSize
  agrees : ∀ j, j < s.received → stream[j]? = some (s.mem j)
  whole : s.stream ≠ [] → s.nsamples * g.sampleSize = s.received

/-- The end of a load. -/
structure Done (g : LoadPrams) (stream : List UInt8) (s : LoadSt) : Prop where
  ret : s.ret.isSome = true
  preserves : s.Preserves g stream

theorem Loaded.finish {stream : List UInt8} {s t : LoadSt} (h : s.Loaded g stream)
    {r : Option (Nat × (Nat → UInt8))} (hr : ∀ x, r = some x → g.PadsFrom s.nsamples s.mem x)
    (ht : s.finish r = some t) : t.Done g stream := by
  unfold LoadSt.finish at ht
  obtain ⟨⟨count, mem⟩, rfl, rfl⟩ := Option.map_eq_some_iff.mp ht
  obtain ⟨hcount, hmem⟩ : s.nsamples ≤ count ∧
      ∀ j, j < s.nsamples * g.sampleSize → mem j = s.mem j := hr _ rfl
  refine ⟨rfl, ?_, ?_, h.agrees, h.whole⟩
  · intro i k hi hk
    have hsample : i + 1 ≤ s.nsamples := by
      rw [h.nsamples]
      exact (Nat.le_div_iff_mul_le (by omega)).mpr hi
    have hlt : i * g.sampleSize + k < s.nsamples * g.sampleSize := by
      calc i * g.sampleSize + k < (i + 1) * g.sampleSize := by rw [Nat.succ_mul]; omega
        _ ≤ s.nsamples * g.sampleSize := Nat.mul_le_mul_right _ hsample
    show stream[_]? = some (mem _)
    rw [hmem _ hlt]
    refine h.agrees _ ?_
    have hle := Nat.div_mul_le_self s.received g.sampleSize
    rw [h.nsamples] at hlt
    omega
  · intro n hn
    obtain rfl := Option.some.inj hn
    rw [h.nsamples] at hcount
    exact hcount

/-! ### Turn by turn -/

section

variable {s : LoadSt}

theorem step_ready (g : LoadPrams) (nbuffers : Nat) (hret : s.ret = none) (more : Nat) :
    ∃ n, n = min (more + 1) (min (g.maxbytes - s.got) s.stream.length) ∧
      s.step g nbuffers (.ready more) =
        if n = 0 then (s.read g n).freadReturn g nbuffers
        else { s.read g n with got := s.got + n }.freadLoop g nbuffers := by
  refine ⟨_, rfl, ?_⟩
  unfold LoadSt.step
  rw [if_neg (by rw [hret]; decide)]
  rfl

theorem step_timeout (hret : s.ret = none) :
    s.step g nbuffers .timeout =
      if s.got = 0 then { s with got := s.got + s.nread }.freadLoop g nbuffers
      else s.freadReturn g nbuffers := by
  unfold LoadSt.step
  rw [if_neg (by rw [hret]; decide)]

theorem step_returned (hret : s.ret.isSome = true) (ev : LoadEv) :
    s.step g nbuffers ev = none := by
  unfold LoadSt.step
  rw [if_pos hret]

end

/-- The buffers are of whole samples, and not empty. -/
structure Sized (g : LoadPrams) : Prop where
  sampleSize : 0 < g.sampleSize
  playBufferlen : 0 < g.playBufferlen
  whole : g.sampleSize ∣ g.playBufferlen

theorem Sized.maxbytes (h : Sized g) : g.maxbytes = g.playBufferlen :=
  Nat.div_mul_cancel h.whole

theorem Sized.spb_pos (h : Sized g) : 0 < g.spb :=
  Nat.div_pos (Nat.le_of_dvd h.playBufferlen h.whole) h.sampleSize

theorem Sized.samples (h : Sized g) (k n : Nat) :
    (k * g.playBufferlen + n) / g.sampleSize = k * g.spb + n / g.sampleSize := by
  have hbytes : k * g.playBufferlen = g.sampleSize * (k * g.spb) := by
    rw [← h.maxbytes, LoadPrams.maxbytes, ← Nat.mul_assoc, Nat.mul_comm]
  rw [hbytes, Nat.mul_add_div h.sampleSize]

/-- All buffers before the one in turn are full. -/
structure Filling (g : LoadPrams) (nbuffers : Nat) (stream : List UInt8) (mem : Nat → UInt8)
    (s : LoadSt) : Prop where
  buf : s.buf < nbuffers
  got : s.got < g.playBufferlen
  nread : s.got = 0 → s.nread = 0
  received : s.received = s.buf * g.playBufferlen + s.got
  nsamples : s.nsamples = s.buf * g.spb
  left : s.stream = stream.drop s.received
  le : s.received ≤ stream.length
  agrees : ∀ j, j < s.received → stream[j]? = some (s.mem j)
  fresh : ∀ j, s.received ≤ j → s.mem j = mem j
  ret : s.ret = none

/-- The whole stream has been received, and its end has not been seen yet. -/
structure Drained (g : LoadPrams) (stream : List UInt8) (s : LoadSt) : Prop where
  got : s.got = 0
  nread : s.nread = 0
  left : s.stream = []
  nsamples : s.nsamples = s.received / g.sampleSize
  agrees : ∀ j, j < s.received → stream[j]? = some (s.mem j)
  ret : s.ret = none

/-- Where a load is that has cut no sample. -/
inductive Phase (g : LoadPrams) (nbuffers : Nat) (stream : List UInt8) (mem : Nat → UInt8)
    (s : LoadSt) : Prop
  | filling (h : s.Filling g nbuffers stream mem)
  | drained (h : s.Drained g stream)
  | done (h : s.Done g stream)

/-- What was received of an `_fread` that ends has a place, and the samples of it are to be
counted. -/
structure Counted (g : LoadPrams) (stream : List UInt8) (s : LoadSt) : Prop where
  nsamples : s.nsamples + s.got / g.sampleSize = s.received / g.sampleSize
  agrees : ∀ j, j < s.received → stream[j]? = some (s.mem j)
  ret : s.ret = none

section

variable {stream : List UInt8} {mem : Nat → UInt8} {s t : LoadSt}

theorem Filling.counted (h : s.Filling g nbuffers stream mem) (hg : Sized g) :
    s.Counted g stream where
  nsamples := by
    rw [h.nsamples, h.received, hg.samples]
  agrees := h.agrees
  ret := h.ret

theorem Counted.freadReturn_drained (h : s.Counted g stream) (hg : Sized g)
    (hstream : s.stream = []) (ht : s.freadReturn g nbuffers = some t) :
    t.Phase g nbuffers stream mem := by
  have hnsamples := h.nsamples
  simp only [freadReturn] at ht
  split_ifs at ht with hsome
  · simp only [enter] at ht
    have hmax : 0 < g.maxbytes := hg.maxbytes ▸ hg.playBufferlen
    split_ifs at ht
    · obtain rfl := Option.some.inj ht
      exact .drained ⟨rfl, rfl, hstream, hnsamples, h.agrees, h.ret⟩
    · have hloaded : Loaded g stream
          { s with nsamples := s.nsamples + s.got / g.sampleSize, buf := s.buf + 1 } :=
        ⟨hnsamples, h.agrees, fun hne => absurd hstream hne⟩
      exact .done (hloaded.finish (fun _ => g.loadPad_pads) ht)
  · have hloaded : s.Loaded g stream := by
      refine ⟨?_, h.agrees, fun hne => absurd hstream hne⟩
      rw [← hnsamples, Nat.eq_zero_of_not_pos hsome]
      rfl
    exact .done (hloaded.finish (fun _ => g.endLoad_pads) ht)

/-- `_fread` returns with the last buffer, and cuts no sample. -/
theorem Counted.freadReturn_last (h : s.Counted g stream) (hlast : s.buf + 1 = nbuffers)
    (hsome : 0 < s.got / g.sampleSize) (hwhole : g.sampleSize ∣ s.received)
    (ht : s.freadReturn g nbuffers = some t) : t.Done g stream := by
  have hnsamples := h.nsamples
  simp only [freadReturn] at ht
  rw [if_pos hsome] at ht
  simp only [enter] at ht
  rw [if_neg (by omega)] at ht
  have hloaded : Loaded g stream
      { s with nsamples := s.nsamples + s.got / g.sampleSize, buf := s.buf + 1 } := by
    refine ⟨hnsamples, h.agrees, fun _ => ?_⟩
    show (s.nsamples + s.got / g.sampleSize) * g.sampleSize = s.received
    rw [hnsamples, Nat.div_mul_cancel hwhole]
  exact hloaded.finish (fun _ => g.loadPad_pads) ht

theorem freadReturn_full (hg : Sized g) (hbuf : s.buf < nbuffers) (hgot : s.got = g.playBufferlen)
    (hreceived : s.received = s.buf * g.playBufferlen + s.got)
    (hnsamples : s.nsamples = s.buf * g.spb) (hstream : s.stream = stream.drop s.received)
    (hle : s.received ≤ stream.length)
    (hagrees : ∀ j, j < s.received → stream[j]? = some (s.mem j))
    (hfresh : ∀ j, s.received ≤ j → s.mem j = mem j) (hret : s.ret = none)
    (ht : s.freadReturn g nbuffers = some t) : t.Phase g nbuffers stream mem := by
  have hspb : s.got / g.sampleSize = g.spb := by
    rw [hgot]
    rfl
  have hsome : 0 < s.got / g.sampleSize := hspb ▸ hg.spb_pos
  have hbytes : s.received = (s.buf + 1) * g.playBufferlen := by
    rw [hreceived, hgot, Nat.succ_mul]
  by_cases hlast : s.buf + 1 = nbuffers
  · refine .done (Counted.freadReturn_last ⟨?_, hagrees, hret⟩ hlast hsome ?_ ht)
    · rw [hnsamples, hreceived, hg.samples]
    · rw [hbytes]
      exact Nat.dvd_mul_left_of_dvd hg.whole _
  · simp only [freadReturn] at ht
    rw [if_pos hsome] at ht
    simp only [enter] at ht
    rw [if_pos (by omega), if_pos (hg.maxbytes ▸ hg.playBufferlen)] at ht
    obtain rfl := Option.some.inj ht
    refine .filling ⟨?_, hg.playBufferlen, fun _ => rfl, ?_, ?_, hstream, hle, hagrees, hfresh,
      hret⟩
    · show s.buf + 1 < nbuffers
      omega
    · rw [Nat.add_zero]
      exact hbytes
    · show s.nsamples + s.got / g.sampleSize = (s.buf + 1) * g.spb
      rw [hnsamples, hspb, Nat.succ_mul]

/-- A read puts the next bytes of the stream behind those that have been received. -/
theorem Filling.read_agrees (h : s.Filling g nbuffers stream mem) {n : Nat}
    (hn : n ≤ s.stream.length) :
    (∀ j, j < s.received + n → stream[j]? = some ((s.read g n).mem j)) ∧
      (∀ j, s.received + n ≤ j → (s.read g n).mem j = mem j) ∧
      (s.read g n).stream = stream.drop (s.received + n) ∧ s.received + n ≤ stream.length := by
  have hlen : s.stream.length = stream.length - s.received := by
    rw [h.left, List.length_drop]
  have hle := h.le
  have hplace := h.received
  refine ⟨?_, ?_, ?_, by omega⟩
  · intro j hj
    simp only [LoadSt.read, memcpy]
    by_cases hold : j < s.received
    · rw [if_neg (by omega)]
      exact h.agrees j hold
    · have hin : s.received + (j - (s.buf * g.playBufferlen + s.got)) = j := by omega
      rw [if_pos (by omega), h.left, List.getD_eq_getElem?_getD, List.getElem?_drop, hin,
        List.getElem?_eq_getElem (by omega)]
      rfl
  · intro j hj
    simp only [LoadSt.read, memcpy]
    rw [if_neg (by omega)]
    exact h.fresh j (by omega)
  · show s.stream.drop n = _
    rw [h.left, List.drop_drop]

/-- A turn that leaves nothing partly filled behind but at the end. -/
def Keeps (g : LoadPrams) (nbuffers : Nat) (s : LoadSt) (ev : LoadEv) : Prop :=
  ev = .timeout → 0 < s.got →
    s.stream = [] ∨ (s.buf + 1 = nbuffers ∧ g.sampleSize ∣ s.got)

instance (g : LoadPrams) (nbuffers : Nat) (s : LoadSt) (ev : LoadEv) :
    Decidable (s.Keeps g nbuffers ev) := inferInstanceAs (Decidable (_ → _ → _ ∨ _))

theorem step_timeout_empty (hg : Sized g) (hret : s.ret = none) (hgot : s.got = 0)
    (hnread : s.nread = 0) : s.step g nbuffers .timeout = some s := by
  have hmax : 0 < g.maxbytes := hg.maxbytes ▸ hg.playBufferlen
  have hsame : { s with got := s.got + s.nread } = s := by
    cases s
    simp_all
  rw [step_timeout hret, if_pos hgot, hsame]
  unfold freadLoop
  rw [if_pos (by rw [hgot]; exact hmax)]

theorem Drained.step (h : s.Drained g stream) (hg : Sized g) {ev : LoadEv}
    (ht : s.step g nbuffers ev = some t) : t.Phase g nbuffers stream mem := by
  cases ev with
  | timeout =>
      rw [step_timeout_empty hg h.ret h.got h.nread] at ht
      obtain rfl := Option.some.inj ht
      exact .drained h
  | ready more =>
      obtain ⟨n, hn, hstep⟩ := LoadSt.step_ready g nbuffers h.ret more
      obtain rfl : n = 0 := by
        rw [hn, h.left, List.length_nil, Nat.min_zero, Nat.min_zero]
      rw [hstep, if_pos rfl] at ht
      have hcounted : (s.read g 0).Counted g stream := by
        refine ⟨?_, ?_, h.ret⟩
        · show s.nsamples + s.got / g.sampleSize = s.received / g.sampleSize
          rw [h.got, Nat.zero_div, h.nsamples]
          rfl
        · intro j hj
          have hmem : (s.read g 0).mem j = s.mem j := by
            simp only [LoadSt.read, memcpy]
            rw [if_neg (by omega)]
          rw [hmem]
          exact h.agrees j hj
      have hempty : (s.read g 0).stream = [] := by
        show s.stream.drop 0 = []
        rw [h.left]
        rfl
      exact hcounted.freadReturn_drained hg hempty ht

theorem Filling.step_ready (h : s.Filling g nbuffers stream mem) (hg : Sized g) {more : Nat}
    (ht : s.step g nbuffers (.ready more) = some t) : t.Phase g nbuffers stream mem := by
  have hmax := hg.maxbytes
  have hgot := h.got
  obtain ⟨n, hn, hstep⟩ := LoadSt.step_ready g nbuffers h.ret more
  rw [hstep] at ht
  rw [hmax] at hn
  have hroom : n ≤ g.playBufferlen - s.got := by omega
  have hend : n = 0 → s.stream.length = 0 := by omega
  obtain ⟨hagrees, hfresh, hleft, hle⟩ := h.read_agrees (show n ≤ s.stream.length by omega)
  split_ifs at ht with hzero
  · -- the stream has ended
    obtain rfl := hzero
    have hempty : (s.read g 0).stream = [] := by
      show s.stream.drop 0 = []
      exact List.length_eq_zero_iff.mp (hend rfl)
    have hcounted : (s.read g 0).Counted g stream :=
      ⟨(h.counted hg).nsamples, hagrees, h.ret⟩
    exact hcounted.freadReturn_drained hg hempty ht
  · have hreceived : s.received + n = s.buf * g.playBufferlen + (s.got + n) := by
      rw [h.received, Nat.add_assoc]
    simp only [freadLoop] at ht
    rw [hmax] at ht
    split_ifs at ht with hmore
    · obtain rfl := Option.some.inj ht
      refine .filling ⟨h.buf, hmore, ?_, hreceived, h.nsamples, hleft, hle, hagrees, hfresh,
        h.ret⟩
      intro hnone
      have : s.got + n = 0 := hnone
      omega
    · refine freadReturn_full (s := { s.read g n with got := s.got + n }) hg h.buf ?_ hreceived
        h.nsamples hleft hle hagrees hfresh h.ret ht
      show s.got + n = g.playBufferlen
      have : ¬s.got + n < g.playBufferlen := hmore
      omega

theorem Filling.step (h : s.Filling g nbuffers stream mem) (hg : Sized g) {ev : LoadEv}
    (hkeeps : s.Keeps g nbuffers ev) (ht : s.step g nbuffers ev = some t) :
    t.Phase g nbuffers stream mem := by
  cases ev with
  | ready more => exact h.step_ready hg ht
  | timeout =>
      by_cases hgot : s.got = 0
      · rw [step_timeout_empty hg h.ret hgot (h.nread hgot)] at ht
        obtain rfl := Option.some.inj ht
        exact .filling h
      · have hpos := Nat.pos_of_ne_zero hgot
        rw [step_timeout h.ret, if_neg hgot] at ht
        rcases hkeeps rfl hpos with hempty | ⟨hlast, hwhole⟩
        · exact (h.counted hg).freadReturn_drained hg hempty ht
        · refine .done ((h.counted hg).freadReturn_last hlast ?_ ?_ ht)
          · exact Nat.div_pos (Nat.le_of_dvd hpos hwhole) hg.sampleSize
          · rw [h.received]
            exact Nat.dvd_add (Nat.dvd_mul_left_of_dvd hg.whole _) hwhole

theorem Phase.step (h : s.Phase g nbuffers stream mem) (hg : Sized g) {ev : LoadEv}
    (hkeeps : s.Keeps g nbuffers ev) (ht : s.step g nbuffers ev = some t) :
    t.Phase g nbuffers stream mem := by
  cases h with
  | filling h => exact h.step hg hkeeps ht
  | drained h => exact h.step hg ht
  | done h =>
      rw [step_returned h.ret] at ht
      exact absurd ht nofun

/-- The load begins with the first buffer, if there is one. -/
theorem start_cases (hg : Sized g) (nbuffers : Nat) (mem : Nat → UInt8) (stream : List UInt8)
    (ht : start g nbuffers mem stream = some t) : t.Phase g nbuffers stream mem := by
  have hmax : 0 < g.maxbytes := hg.maxbytes ▸ hg.playBufferlen
  simp only [start, enter, hmax, if_true] at ht
  split_ifs at ht with hbuf
  · obtain rfl := Option.some.inj ht
    refine .filling ⟨hbuf, hg.playBufferlen, fun _ => rfl, ?_, ?_, rfl, Nat.zero_le _, nofun,
      fun _ _ => rfl, rfl⟩
    · show 0 = 0 * g.playBufferlen + 0
      rw [Nat.zero_mul]
    · show 0 = 0 * g.spb
      rw [Nat.zero_mul]
  · refine .done (Loaded.finish (s := ⟨mem, stream, 0, 0, 0, 0, 0, mem, none⟩) ⟨?_, nofun, ?_⟩
      (fun _ => g.loadPad_pads) ht)
    · exact (Nat.zero_div _).symm
    · intro _
      exact Nat.zero_mul _

/-- Where every turn leaves nothing behind, the stream is in the buffers in the end. -/
theorem preserves_of_keeps (hg : Sized g) {evs : List LoadEv} (hs : s.Phase g nbuffers stream mem)
    (hkeeps : Lts.Meets (LoadSt.step g nbuffers) (Keeps g nbuffers) s evs)
    (hrun : Lts.run (LoadSt.step g nbuffers) s evs = some t) (hret : t.ret.isSome = true) :
    t.Preserves g stream := by
  have hphase : t.Phase g nbuffers stream mem := by
    refine Lts.run_invariant_of (fun s => s.Phase g nbuffers stream mem) ?_ evs s t hs hkeeps hrun
    intro u ev v hu hev hstep
    exact hu.step hg hev hstep
  cases hphase with
  | filling h =>
      rw [h.ret] at hret
      exact absurd hret (by decide)
  | drained h =>
      rw [h.ret] at hret
      exact absurd hret (by decide)
  | done h => exact h.preserves

end

end LoadSt

end Acq400
