/-
What becomes of a length that is written to the playloop.

A length that is smaller than the one in force, or the first one, is set by a reset of the
playloop, and its result is returned.  A length that is appended is set at once, and what is
returned then is a variable that nobody has set.
-/
import Acq400.Driver.XoSysfs

namespace Acq400

namespace PlayloopLength

variable {xo : Xo} {playloop : AoPlayloop} {buf : List Char} {length : Nat} {more : List Nat}

/-! ### Filling the FIFO -/

/-- The length and the mode are the same. -/
def Kept (p q : AoPlayloop) : Prop := q.length = p.length ∧ q.oneshot = p.oneshot

theorem turn_kept {dev : FillDev} {samples : Nat} {s s' : FillState}
    (h : dev.turn samples s = .next s') : Kept s.playloop s'.playloop := by
  unfold FillDev.turn at h
  dsimp only at h
  split at h
  · split at h
    · cases h
    · obtain rfl := FillDev.Turn.next.inj h
      exact ⟨rfl, rfl⟩
  · cases h

theorem fillLoop_kept (dev : FillDev) (maxiter : Nat) :
    ∀ (samples : Nat → Nat) (s : FillState),
      Kept s.playloop (dev.fillLoop maxiter samples s).2.playloop := by
  induction maxiter with
  | zero => exact fun _ _ => ⟨rfl, rfl⟩
  | succ maxiter ih =>
      intro samples s
      unfold FillDev.fillLoop
      split
      · exact ⟨rfl, rfl⟩
      · exact ⟨rfl, rfl⟩
      · rename_i s' hturn
        have hfirst := turn_kept hturn
        have hrest := ih (Reads.later samples) s'
        exact ⟨hrest.1.trans hfirst.1, hrest.2.trans hfirst.2⟩

theorem wrapUp_kept (p : AoPlayloop) : Kept p (FillDev.wrapUp p).2 := by
  unfold FillDev.wrapUp
  split
  · split
    · split
      · exact ⟨rfl, rfl⟩
      · dsimp only
        split
        · exact ⟨rfl, rfl⟩
        · exact ⟨rfl, rfl⟩
    · exact ⟨rfl, rfl⟩
  · exact ⟨rfl, rfl⟩

theorem fillFifo_kept (xo : Xo) (playloop : AoPlayloop) :
    Kept playloop (xo.fillFifo playloop) := by
  have hloop := fillLoop_kept xo.fifo 1000 xo.samples { playloop := playloop, transfers := [] }
  have hwrap := wrapUp_kept
    (xo.fifo.fillLoop 1000 xo.samples { playloop := playloop, transfers := [] }).2.playloop
  exact ⟨hwrap.1.trans hloop.1, hwrap.2.trans hloop.2⟩

/-! ### The reset -/

theorem onStop_kept (xo : Xo) (playloop : AoPlayloop) : Kept playloop (xo.onStop playloop) := by
  unfold Xo.onStop
  split <;> exact ⟨rfl, rfl⟩

/-- The reset is given up. -/
def Xo.Fails (xo : Xo) (length : Nat) : Prop :=
  (length ≠ 0 ∧ xo.useDistributor = true ∧ xo.taskActive = true) ∨ xo.interrupted = true

theorem resetPlayloop_fails (h : xo.Fails length) (playloop : AoPlayloop) :
    (xo.resetPlayloop length playloop).1 = -1 := by
  unfold Xo.resetPlayloop
  split
  · rfl
  · rename_i hactive
    rw [if_pos (h.resolve_left hactive)]

/-- What a reset sets: a length of 0xffffffff stands for continuous play, and with a distributor a
length of 0 ends it as a one-shot. -/
theorem resetPlayloop_done (h : ¬xo.Fails length) (playloop : AoPlayloop) :
    (xo.resetPlayloop length playloop).1 = 0 ∧
      (xo.resetPlayloop length playloop).2.length =
        (if length = xo400Playcontinuous then playloop.length else length) ∧
      (xo.resetPlayloop length playloop).2.oneshot =
        (if length = xo400Playcontinuous then .continuous
        else if length = 0 ∧ xo.useDistributor = true then .oneshot else playloop.oneshot) := by
  unfold Xo.Fails at h
  rw [not_or] at h
  unfold Xo.resetPlayloop
  rw [if_neg h.1]
  dsimp only
  rw [if_neg h.2]
  -- what it is at behind the first `onStop`
  obtain ⟨hlength, honeshot⟩ := onStop_kept xo
    (if length = 0 ∧ xo.useDistributor = true then { playloop with oneshot := .oneshot }
    else playloop)
  generalize xo.onStop (if length = 0 ∧ xo.useDistributor = true then
    { playloop with oneshot := .oneshot } else playloop) = stopped at *
  have hlength : stopped.length = playloop.length := by
    rw [hlength]
    split <;> rfl
  have honeshot : stopped.oneshot =
      if length = 0 ∧ xo.useDistributor = true then .oneshot else playloop.oneshot := by
    rw [honeshot]
    split <;> rfl
  by_cases hcont : length = xo400Playcontinuous
  · have hne : length ≠ 0 := by
      rw [hcont]
      decide
    simp only [if_pos hcont]
    by_cases hdist : xo.useDistributor = true
    · rw [if_pos hdist]
      exact ⟨rfl, hlength, rfl⟩
    · rw [if_neg hdist, if_pos hne]
      have hfill := fillFifo_kept xo { stopped with oneshot := .continuous }
      exact ⟨rfl, hfill.1.trans hlength, hfill.2⟩
  · simp only [if_neg hcont]
    by_cases hdist : xo.useDistributor = true
    · rw [if_pos hdist]
      exact ⟨rfl, rfl, honeshot⟩
    · rw [if_neg hdist]
      by_cases hne : length ≠ 0
      · rw [if_pos hne]
        have hfill := fillFifo_kept xo { stopped with length := length }
        exact ⟨rfl, hfill.1, hfill.2.trans honeshot⟩
      · rw [if_neg hne]
        have hstop := onStop_kept xo { stopped with length := length }
        exact ⟨rfl, hstop.1, hstop.2.trans honeshot⟩

/-! ### The store -/

/-- The text has a length, and a mode that there is if it has one. -/
def Accepted (buf : List Char) : Prop :=
  ∃ length more, scan buf = length :: more ∧ ∀ m ∈ more.head?, oneshotOf m ≠ none

/-- What is to be returned, and to be left, for a text. -/
structure Does (playloop : AoPlayloop) (buf : List Char) (st : Stored) : Prop where
  taken : Accepted buf → (∀ r ∈ st.reset, r = 0) → st.ret = buf.length
  failed : ¬(Accepted buf ∧ ∀ r ∈ st.reset, r = 0) → st.ret < 0
  length : st.ret = buf.length → ∀ length more, scan buf = length :: more →
    st.playloop.length = length
  mode : st.ret = buf.length → ∀ length m more, scan buf = length :: m :: more →
    oneshotOf m = some st.playloop.oneshot
  refused : ¬Accepted buf → st.playloop = playloop
  append : ∀ length more, scan buf = length :: more → playloop.length ≠ 0 →
    playloop.length < length → st.reset = none

/-- It does so whatever a variable holds that has not been set. -/
def Xo.Right (xo : Xo) (playloop : AoPlayloop) (buf : List Char) : Prop :=
  ∀ rc : Int, Does playloop buf (xo.storePlayloopLength rc playloop buf)

/-- The reset is called, and sets what it is asked for unless it fails. -/
structure Xo.Sets (xo : Xo) (playloop : AoPlayloop) (length : Nat) (more : List Nat) : Prop where
  called : playloop.length = 0 ∨ length < playloop.length
  plain : ¬xo.Fails length → length ≠ xo400Playcontinuous
  mode : ¬xo.Fails length → length = 0 → xo.useDistributor = true → ∀ m ∈ more.head?, m = 1

def Xo.Harmless (xo : Xo) (playloop : AoPlayloop) (buf : List Char) : Prop :=
  Accepted buf → ∀ length more, scan buf = length :: more → xo.Sets playloop length more

theorem storePlayloopLength_refused (h : ¬Accepted buf) (rc : Int) :
    xo.storePlayloopLength rc playloop buf =
      { ret := -1, playloop := playloop, reset := none } := by
  unfold Xo.storePlayloopLength
  unfold Accepted at h
  split
  · rfl
  · rename_i length hscan
    exact absurd ⟨length, [], hscan, fun m hm => by cases hm⟩ h
  · rename_i length m more hscan
    split
    · rfl
    · rename_i mode hmode
      refine absurd ⟨length, m :: more, hscan, fun m' hm' => ?_⟩ h
      obtain rfl := Option.some.inj hm'
      rw [hmode]
      exact Option.some_ne_none mode

/-- With the mode that is given, if one is. -/
def withMode (playloop : AoPlayloop) (more : List Nat) : AoPlayloop :=
  match more.head?.bind oneshotOf with
  | none => playloop
  | some mode => { playloop with oneshot := mode }

theorem withMode_length (playloop : AoPlayloop) (more : List Nat) :
    (withMode playloop more).length = playloop.length := by
  unfold withMode
  split
  · rfl
  · rfl

theorem storePlayloopLength_accepted (h : Accepted buf) (hscan : scan buf = length :: more)
    (rc : Int) : xo.storePlayloopLength rc playloop buf =
      xo.storeLength rc (withMode playloop more) buf.length length := by
  obtain ⟨length', more', hscan', hmode⟩ := h
  obtain ⟨rfl, rfl⟩ := List.cons.inj (hscan.symm.trans hscan')
  unfold Xo.storePlayloopLength withMode
  rw [hscan]
  cases more with
  | nil => rfl
  | cons m more =>
      dsimp only
      cases hm : oneshotOf m with
      | none => exact absurd hm (hmode m rfl)
      | some mode =>
          simp only [List.head?_cons, Option.bind_some, hm]

/-- A length that is appended is set, and what is returned is what `rc` holds. -/
theorem storeLength_appended {p : AoPlayloop} (h : ¬(p.length = 0 ∨ length < p.length)) (rc : Int)
    (count : Nat) : (xo.storeLength rc p count length).reset = none ∧
      (xo.storeLength rc p count length).ret = if rc = 0 then (count : Int) else rc := by
  unfold Xo.storeLength
  rw [if_neg h]
  dsimp only
  split
  · exact ⟨rfl, rfl⟩
  · exact ⟨rfl, rfl⟩

theorem storeLength_reset {p : AoPlayloop} (h : p.length = 0 ∨ length < p.length) (rc : Int)
    (count : Nat) : (xo.storeLength rc p count length).reset =
        some (xo.resetPlayloop length p).1 ∧
      (xo.storeLength rc p count length).ret =
        (if (xo.resetPlayloop length p).1 = 0 then (count : Int)
        else (xo.resetPlayloop length p).1) ∧
      Kept (xo.resetPlayloop length p).2 (xo.storeLength rc p count length).playloop := by
  have hkept : ∀ q : AoPlayloop,
      Kept q (if q.oneshot ≠ .continuous then { q with repeats := 0 } else q) := by
    intro q
    split
    · exact ⟨rfl, rfl⟩
    · exact ⟨rfl, rfl⟩
  unfold Xo.storeLength
  rw [if_pos h]
  dsimp only
  split
  · exact ⟨rfl, rfl, hkept _⟩
  · exact ⟨rfl, rfl, hkept _⟩

theorem accepted_does (h : Accepted buf) (hscan : scan buf = length :: more)
    (hsets : xo.Sets playloop length more) (rc : Int) :
    Does playloop buf (xo.storePlayloopLength rc playloop buf) := by
  have hcalled : (withMode playloop more).length = 0 ∨
      length < (withMode playloop more).length := by
    rw [withMode_length]
    exact hsets.called
  obtain ⟨hreset, hret, hlength, honeshot⟩ := @storeLength_reset xo length _ hcalled rc buf.length
  rw [storePlayloopLength_accepted h hscan]
  generalize xo.storeLength rc (withMode playloop more) buf.length length = st at *
  have hsame : ∀ length' more', scan buf = length' :: more' → length' = length ∧ more' = more :=
    fun length' more' hscan' => List.cons.inj (hscan'.symm.trans hscan)
  have hgrows : ∀ length' more', scan buf = length' :: more' → playloop.length ≠ 0 →
      playloop.length < length' → st.reset = none := by
    intro length' more' hscan' hne hlt
    obtain ⟨rfl, -⟩ := hsame length' more' hscan'
    have hcalled := hsets.called
    omega
  by_cases hfails : xo.Fails length
  · have hminus := resetPlayloop_fails hfails (withMode playloop more)
    rw [hminus, if_neg (by decide)] at hret
    rw [hminus] at hreset
    have hnegative : st.ret < 0 := by omega
    refine ⟨fun _ hzero => ?_, fun _ => hnegative, fun heq => ?_, fun heq => ?_,
      fun hrefused => absurd h hrefused, hgrows⟩
    · exact absurd (hzero (-1) hreset) (by decide)
    · omega
    · omega
  · obtain ⟨hzero, hlen, hmode⟩ := resetPlayloop_done hfails (withMode playloop more)
    have hplain := hsets.plain hfails
    rw [hzero, if_pos rfl] at hret
    rw [hzero] at hreset
    rw [if_neg hplain] at hlen hmode
    refine ⟨fun _ _ => hret, fun hno => ?_, fun _ length' more' hscan' => ?_,
      fun _ length' m more' hscan' => ?_, fun hrefused => absurd h hrefused, hgrows⟩
    · refine absurd ⟨h, fun r hr => ?_⟩ hno
      rw [hreset] at hr
      exact (Option.some.inj hr).symm
    · rw [(hsame length' more' hscan').1, hlength, hlen]
    · obtain ⟨-, rfl⟩ := hsame length' _ hscan'
      obtain ⟨length'', more'', hscan'', hgiven⟩ := h
      obtain ⟨-, rfl⟩ := hsame length'' more'' hscan''
      have hsome := hgiven m rfl
      rw [honeshot, hmode]
      cases hm : oneshotOf m with
      | none => exact absurd hm hsome
      | some mode =>
          have hwith : (withMode playloop (m :: more')).oneshot = mode := by
            unfold withMode
            simp only [List.head?_cons, Option.bind_some, hm]
          split
          · rename_i hends
            obtain rfl := hsets.mode hfails hends.1 hends.2 m rfl
            exact hm.symm
          · rw [hwith]

theorem refused_does (h : ¬Accepted buf) (rc : Int) :
    Does playloop buf (xo.storePlayloopLength rc playloop buf) := by
  rw [storePlayloopLength_refused h]
  have hne : (-1 : Int) ≠ buf.length := by omega
  exact ⟨fun hyes => absurd hyes h, fun _ => (by decide : (-1 : Int) < 0),
    fun heq => absurd heq hne, fun heq => absurd heq hne, fun _ => rfl, fun _ _ _ _ _ => rfl⟩

/-- What is right is that the reset is called, and sets what it is asked for. -/
theorem right_sets (h : Accepted buf) (hscan : scan buf = length :: more)
    (hright : xo.Right playloop buf) : xo.Sets playloop length more := by
  have hcalled : playloop.length = 0 ∨ length < playloop.length := by
    by_contra happend
    have hdoes := hright (-1)
    rw [storePlayloopLength_accepted h hscan] at hdoes
    rw [← withMode_length playloop more] at happend
    obtain ⟨hreset, hret⟩ := @storeLength_appended xo length _ happend (-1) buf.length
    have htaken := hdoes.taken h fun r hr => by
      rw [hreset] at hr
      cases hr
    rw [hret, if_neg (by decide)] at htaken
    omega
  have hcalled' : (withMode playloop more).length = 0 ∨
      length < (withMode playloop more).length := by
    rwa [withMode_length]
  have hdoes := hright 0
  rw [storePlayloopLength_accepted h hscan] at hdoes
  obtain ⟨hreset, hret, hlength, honeshot⟩ := @storeLength_reset xo length _ hcalled' 0 buf.length
  have hdone : ¬xo.Fails length → xo.Sets playloop length more := by
    intro hfails
    obtain ⟨hzero, hlen, hmode⟩ := resetPlayloop_done hfails (withMode playloop more)
    rw [hzero, if_pos rfl] at hret
    have hset := hdoes.length hret length more hscan
    rw [hlength, hlen, withMode_length] at hset
    have hplain : length ≠ xo400Playcontinuous := by
      intro hcont
      rw [if_pos hcont] at hset
      have hbig : xo400Playcontinuous ≠ 0 := by decide
      omega
    refine ⟨hcalled, fun _ => hplain, fun _ hends hdist m hm => ?_⟩
    cases more with
    | nil => cases hm
    | cons m' more =>
        obtain rfl := Option.some.inj hm
        have hgiven := hdoes.mode hret length m' more hscan
        rw [honeshot, hmode, if_neg hplain, if_pos ⟨hends, hdist⟩] at hgiven
        unfold oneshotOf at hgiven
        split at hgiven
        · cases hgiven
        · rfl
        · cases hgiven
        · cases hgiven
  by_cases hfails : xo.Fails length
  · exact ⟨hcalled, fun h => absurd hfails h, fun h => absurd hfails h⟩
  · exact hdone hfails

/--
**A text sets the length and the mode that it has, and says so, unless it is appended, or is not
taken as it is meant by the reset.**
-/
theorem storePlayloopLength_right_iff (xo : Xo) (playloop : AoPlayloop) (buf : List Char) :
    xo.Right playloop buf ↔ xo.Harmless playloop buf := by
  constructor
  · intro hright h length more hscan
    exact right_sets h hscan hright
  · intro hsets rc
    by_cases h : Accepted buf
    · have haccepted := h
      obtain ⟨length, more, hscan, -⟩ := haccepted
      exact accepted_does h hscan (hsets h length more hscan) rc
    · exact refused_does h rc

theorem bench_pos : 0 < 8 := by decide

/-- A module without a distributor, with nothing in its FIFO. -/
def bench : Xo :=
  { useDistributor := false
    taskActive := false
    interrupted := false
    ao420 := true
    fifo :=
      { aoss := 8, aoss_pos := bench_pos, maxFifoSamples := 8192, dmaChan := false,
        minDmaBytes := 512, minDmaBytes_pos := by decide, ao420DmaThreshold := 512,
        ao420MaxFillBlock := 4096, xoUseContiguousPaIfPossible := false, len := 4096,
        len_pos := by decide, pa := fun ib => 4096 * ib, ram := fun _ => 0 }
    samples := fun _ => 0 }

/-- A playloop of 100 samples, that is played again and again. -/
def playing : AoPlayloop :=
  { length := 100, cursor := 0, oneshot := .continuous, repeats := 0, maxlen := 0, pullBuf := 0,
    cycles := 0 }

/-- A longer length is set, and the store fails if the variable is not 0. -/
theorem appended_not_right :
    ¬∀ (xo : Xo) (playloop : AoPlayloop) (buf : List Char), xo.Right playloop buf := by
  intro h
  have hscan : scan "200".toList = [200] := by decide
  have hcalled := (right_sets ⟨200, [], hscan, fun m hm => by cases hm⟩ hscan
    (h bench playing "200".toList)).called
  revert hcalled
  decide

end PlayloopLength

end Acq400
