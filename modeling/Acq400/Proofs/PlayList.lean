/-
What `xo_data_loop` plays in one-shot mode.

The pushes run two ahead of the completions, so a cycle is known to be over by the
count of pushes and not by the cursor, and the next cycle begins while the last
push of the one before is in flight.  `PlayInv` says where the loop is: in cycle
`m`, and how far.  The count of a cycle is rounded up for the first one and down
for those that are added to it, which is why repeats and a length that ends inside
a buffer do not go together; and it is an `int`, which is to hold the buffers of all
cycles: `xoDataLoop_plays_list_iff`.
-/
import Acq400.Awg.XoDataLoop

namespace Acq400

open CInt XoLoop

/-- How many buffers `length` samples take. -/
def XoConfig.buffersFor (cfg : XoConfig) (length : Nat) : Nat :=
  (length + cfg.aoSamplesPerHb - 1) / cfg.aoSamplesPerHb

section counts

variable {cfg : XoConfig} {length : Nat}

theorem buffersFor_le_iff (ha : 0 < cfg.aoSamplesPerHb) (length c : Nat) :
    cfg.buffersFor length ≤ c ↔ length ≤ c * cfg.aoSamplesPerHb := by
  unfold XoConfig.buffersFor
  rw [Nat.div_le_iff_le_mul ha]
  omega

theorem buffersFor_pos (ha : 0 < cfg.aoSamplesPerHb) (hlen : 0 < length) :
    0 < cfg.buffersFor length := by
  have h := (buffersFor_le_iff ha length 0).not
  rw [Nat.zero_mul] at h
  have := h.mpr (by omega)
  omega

theorem overspill_eq (ha : 0 < cfg.aoSamplesPerHb) :
    (if length / cfg.aoSamplesPerHb * cfg.aoSamplesPerHb < length then
        length / cfg.aoSamplesPerHb + 1
      else length / cfg.aoSamplesPerHb) = cfg.buffersFor length := by
  have hfloor : length / cfg.aoSamplesPerHb * cfg.aoSamplesPerHb ≤ length :=
    Nat.div_mul_le_self _ _
  have hnext : length < (length / cfg.aoSamplesPerHb + 1) * cfg.aoSamplesPerHb := by
    rw [Nat.mul_comm]
    exact Nat.lt_mul_div_succ length ha
  refine Nat.le_antisymm ?_ ?_
  · split
    · rename_i hlt
      have := (buffersFor_le_iff ha length (length / cfg.aoSamplesPerHb)).not
      have := this.mpr (by omega)
      omega
    · exact Nat.div_le_div_right (by omega)
  · rw [buffersFor_le_iff ha]
    split
    · omega
    · omega

theorem buffersFor_of_dvd (ha : 0 < cfg.aoSamplesPerHb) (hdvd : cfg.aoSamplesPerHb ∣ length) :
    cfg.buffersFor length = length / cfg.aoSamplesPerHb := by
  rw [← overspill_eq ha, if_neg]
  rw [Nat.div_mul_cancel hdvd]
  exact Nat.lt_irrefl _

theorem buffersFor_of_not_dvd (ha : 0 < cfg.aoSamplesPerHb) (hdvd : ¬cfg.aoSamplesPerHb ∣ length) :
    cfg.buffersFor length = length / cfg.aoSamplesPerHb + 1 := by
  rw [← overspill_eq ha, if_pos]
  have hfloor : length / cfg.aoSamplesPerHb * cfg.aoSamplesPerHb ≤ length :=
    Nat.div_mul_le_self _ _
  refine Nat.lt_of_le_of_ne hfloor fun h => hdvd ?_
  exact ⟨length / cfg.aoSamplesPerHb, by rw [Nat.mul_comm]; exact h.symm⟩

end counts

/-- `n` buffers from `first`, `m` times over. -/
def cyclesOf (first n m : Nat) : List Nat := (List.replicate m (List.range' first n)).flatten

theorem cyclesOf_succ (first n m : Nat) :
    cyclesOf first n (m + 1) = cyclesOf first n m ++ List.range' first n := by
  simp [cyclesOf, List.replicate_succ']

theorem length_cyclesOf (first n m : Nat) : (cyclesOf first n m).length = m * n := by
  simp [cyclesOf]

/-- How many completions there have been when cycle `m` begins, with `e` pushes in flight. -/
def completionsAt (n e m : Nat) : Nat := if m = 0 then 0 else m * n + 1 - e

/-- The loop is in cycle `m` of `r + 1` of `n` buffers each, with `e` pushes in flight. -/
structure PlayInv (cfg : XoConfig) (length n r e m : Nat) (s : XoLoop) : Prop where
  config : s.cfg = cfg
  length : s.playloop.length = length
  mode : s.aoContinuous = false
  atStart : s.continuousAtStart = false
  quit : s.quit = false
  repeats : s.playloop.repeats.toNat + m = r
  count : s.shotBufferCount = (m * n + n : Nat)
  count0 : 0 < r → s.shotBufferCount0 = n
  room : r * n + n < 2 ^ 31
  issued : s.pushes.length = s.dmaBuffersOut
  primed : Primed s.pushes
  out : s.dmaBuffersOut = min (s.dmaBuffersIn + e) (m * n + n)
  from_cycle : m * n ≤ s.dmaBuffersOut
  early : m < r → s.dmaBuffersIn + e ≤ m * n + n
  in_le : s.dmaBuffersIn ≤ s.dmaBuffersOut
  begun : completionsAt n e m ≤ s.dmaBuffersIn
  cursor : s.playloop.cursor = (s.dmaBuffersIn - completionsAt n e m) * cfg.aoSamplesPerHb
  pull : s.playloop.pullBuf = cfg.firstDistributorBuffer + (s.dmaBuffersOut - m * n)
  bufs : (playOrder s.pushes).map Push.ix = cyclesOf cfg.firstDistributorBuffer n m ++
    List.range' cfg.firstDistributorBuffer (s.dmaBuffersOut - m * n)

section play

variable {cfg : XoConfig} {length n r e m : Nat} {s : XoLoop}

theorem PlayInv.going (h : PlayInv cfg length n r e m s) :
    (s.lastPushDone && s.continuousAtStart) = false := by rw [h.atStart, Bool.and_false]

/-- The next push is of the next buffer of the cycle. -/
theorem PlayInv.push_bufs (h : PlayInv cfg length n r e m s) (p : Push)
    (hp : p.ix = s.playloop.pullBuf) :
    (playOrder (s.pushes ++ [p])).map Push.ix = cyclesOf cfg.firstDistributorBuffer n m ++
      List.range' cfg.firstDistributorBuffer (s.dmaBuffersOut + 1 - m * n) := by
  have hfrom := h.from_cycle
  have hk : s.dmaBuffersOut + 1 - m * n = s.dmaBuffersOut - m * n + 1 := by omega
  rw [playOrder_append h.primed, List.map_append, h.bufs, List.map_singleton, hp, h.pull, hk,
    List.range'_concat, Nat.one_mul, List.append_assoc]

/-- The loop is done exactly when the last cycle has been pushed and played but for one. -/
theorem PlayInv.done_iff (h : PlayInv cfg length n r e m s) (ha : 0 < cfg.aoSamplesPerHb)
    (hn : n = cfg.buffersFor length) :
    s.Done ↔ n ≤ s.dmaBuffersIn - completionsAt n e m := by
  unfold XoLoop.Done
  rw [h.quit, h.length, h.cursor, hn, buffersFor_le_iff ha]
  simp

/-- While the loop runs there is a push in flight. -/
theorem PlayInv.in_lt (h : PlayInv cfg length n r e m s) (he : 0 < e)
    (hrun : s.dmaBuffersIn - completionsAt n e m < n) : s.dmaBuffersIn < s.dmaBuffersOut := by
  have hout := h.out
  have hbase : completionsAt n e m ≤ m * n := by
    unfold completionsAt
    split
    · omega
    · omega
  have hbegun := h.begun
  omega

theorem PlayInv.at_end (h : PlayInv cfg length n r e m s) (hn : 0 < n) (he : 0 < e) (he2 : e ≤ 2)
    (hm : m ≤ r) (hdone : n ≤ s.dmaBuffersIn - completionsAt n e m) :
    m = r ∧ s.dmaBuffersOut = r * n + n := by
  have hearly := h.early
  have hout := h.out
  have hbase : m * n + 1 ≤ completionsAt n e m + e ∨ m = 0 ∧ completionsAt n e m = 0 := by
    unfold completionsAt
    split
    · omega
    · omega
  have hmr : m = r := by
    by_contra hne
    have hin := hearly (by omega)
    rcases hbase with hbase | ⟨rfl, hbase⟩
    · omega
    · omega
  subst hmr
  refine ⟨rfl, ?_⟩
  rcases hbase with hbase | ⟨rfl, hbase⟩
  · omega
  · omega

theorem PlayInv.push (h : PlayInv cfg length n r e m s) (hmore : s.dmaBuffersOut < m * n + n)
    (clear : Clear) : PlayInv cfg length n r e m (s.completed clear) := by
  have hout := h.out
  have hbegun := h.begun
  have hfrom := h.from_cycle
  have hin := h.in_le
  have hsince : s.dmaBuffersIn + 1 - completionsAt n e m
      = s.dmaBuffersIn - completionsAt n e m + 1 := by omega
  rw [completed_during clear h.mode h.going (by rw [h.count]; exact Int.ofNat_lt.mpr hmore)]
  exact
    { config := h.config
      length := h.length
      mode := h.mode
      atStart := h.atStart
      quit := h.quit
      repeats := h.repeats
      count := h.count
      count0 := h.count0
      room := h.room
      issued := List.length_append.trans (congrArg (· + 1) h.issued)
      primed := h.primed.append _
      out := by
        show s.dmaBuffersOut + 1 = min (s.dmaBuffersIn + 1 + e) _
        omega
      from_cycle := Nat.le_succ_of_le hfrom
      early := fun hm => by
        show s.dmaBuffersIn + 1 + e ≤ _
        omega
      in_le := Nat.succ_le_succ hin
      begun := Nat.le_succ_of_le hbegun
      cursor := by
        show s.playloop.cursor + s.cfg.aoSamplesPerHb = (s.dmaBuffersIn + 1 - _) * _
        rw [hsince, Nat.succ_mul, h.cursor, h.config]
      pull := by
        show s.playloop.pullBuf + 1 = _ + (s.dmaBuffersOut + 1 - m * n)
        rw [h.pull]
        omega
      bufs := h.push_bufs _ rfl }

/-- The completion that finds a cycle pushed begins the next one. -/
theorem PlayInv.next (h : PlayInv cfg length n r e m s) (hn : 0 < n)
    (hall : m * n + n ≤ s.dmaBuffersOut) (hm : m < r) (clear : Clear) :
    PlayInv cfg length n r e (m + 1) (s.completed clear) := by
  have hout := h.out
  have hearly := h.early hm
  have hrep := h.repeats
  have hcount := h.count
  have hcount0 := h.count0 (by omega)
  have hpos : 0 < s.playloop.repeats := UInt32.lt_iff_toNat_lt.mpr (by simp; omega)
  have hdec := toNat_pred hpos
  have hmul : (m + 1) * n = m * n + n := Nat.succ_mul m n
  have hbase : completionsAt n e (m + 1) = s.dmaBuffersIn + 1 := by
    unfold completionsAt
    rw [if_neg (by omega), hmul]
    omega
  have hsince : s.dmaBuffersOut + 1 - (m + 1) * n = 1 := by omega
  have hfull : s.dmaBuffersOut - m * n = n := by omega
  have hroom : m * n + n ≤ r * n := hmul ▸ Nat.mul_le_mul_right n hm
  have hsum : wrap (s.shotBufferCount + s.shotBufferCount0) = ((m + 1) * n + n : Nat) := by
    rw [hcount, hcount0, ← Int.natCast_add, hmul]
    exact wrap_natCast (by have := h.room; omega)
  rw [completed_repeat clear h.mode h.going (by omega) hpos (by rw [hsum]; omega)]
  exact
    { config := h.config
      length := h.length
      mode := h.mode
      atStart := h.atStart
      quit := h.quit
      repeats := by
        show (s.playloop.repeats - 1).toNat + (m + 1) = r
        omega
      count := hsum
      count0 := h.count0
      room := h.room
      issued := List.length_append.trans (congrArg (· + 1) h.issued)
      primed := h.primed.append _
      out := by
        show s.dmaBuffersOut + 1 = min (s.dmaBuffersIn + 1 + e) _
        omega
      from_cycle := by
        show _ ≤ s.dmaBuffersOut + 1
        omega
      early := fun hm => by
        show s.dmaBuffersIn + 1 + e ≤ _
        omega
      in_le := Nat.succ_le_succ h.in_le
      begun := Nat.le_of_eq hbase
      cursor := by
        show 0 = (s.dmaBuffersIn + 1 - completionsAt n e (m + 1)) * _
        rw [hbase, Nat.sub_self, Nat.zero_mul]
      pull := by
        show s.cfg.firstDistributorBuffer + 1 = _ + (s.dmaBuffersOut + 1 - (m + 1) * n)
        rw [hsince, h.config]
      bufs := by
        show (playOrder (s.pushes ++ [_])).map Push.ix
          = _ ++ List.range' _ (s.dmaBuffersOut + 1 - (m + 1) * n)
        rw [playOrder_append h.primed, List.map_append, h.bufs, hfull, hsince, cyclesOf_succ,
          ← h.config]
        rfl }

/-- In the last cycle, a completion that finds everything pushed only counts. -/
theorem PlayInv.drain (h : PlayInv cfg length n r e m s) (hin : s.dmaBuffersIn < s.dmaBuffersOut)
    (hall : m * n + n ≤ s.dmaBuffersOut) (hm : m = r) (clear : Clear) :
    PlayInv cfg length n r e m (s.completed clear) := by
  have hout := h.out
  have hbegun := h.begun
  have hrep := h.repeats
  have hcount := h.count
  have hzero : s.playloop.repeats = 0 := UInt32.toNat_inj.mp (by simp; omega)
  have hsince : s.dmaBuffersIn + 1 - completionsAt n e m
      = s.dmaBuffersIn - completionsAt n e m + 1 := by omega
  rw [completed_last clear h.mode h.going (by omega) hzero]
  exact
    { config := h.config
      length := h.length
      mode := h.mode
      atStart := h.atStart
      quit := h.quit
      repeats := hrep
      count := hcount
      count0 := h.count0
      room := h.room
      issued := h.issued
      primed := h.primed
      out := by
        show s.dmaBuffersOut = min (s.dmaBuffersIn + 1 + e) _
        omega
      from_cycle := h.from_cycle
      early := fun hlt => by omega
      in_le := hin
      begun := Nat.le_succ_of_le hbegun
      cursor := by
        show s.playloop.cursor + s.cfg.aoSamplesPerHb = (s.dmaBuffersIn + 1 - _) * _
        rw [hsince, Nat.succ_mul, h.cursor, h.config]
      pull := h.pull
      bufs := h.bufs }

theorem PlayInv.step (h : PlayInv cfg length n r e m s) (hn : 0 < n) (he : 0 < e) (hm : m ≤ r)
    (hrun : s.dmaBuffersIn - completionsAt n e m < n) (clear : Clear) :
    ∃ m', m' ≤ r ∧ PlayInv cfg length n r e m' (s.completed clear) := by
  have hin := h.in_lt he hrun
  by_cases hmore : s.dmaBuffersOut < m * n + n
  · exact ⟨m, hm, h.push hmore clear⟩
  have hall := Nat.not_lt.mp hmore
  rcases Nat.lt_or_eq_of_le hm with hlt | heq
  · exact ⟨m + 1, hlt, h.next hn hall hlt clear⟩
  · exact ⟨m, hm, h.drain hin hall heq clear⟩

/-- From anywhere on its list the loop gets to the end of it. -/
theorem PlayInv.run (ha : 0 < cfg.aoSamplesPerHb) (hn : n = cfg.buffersFor length) (hpos : 0 < n)
    (he : 0 < e) (he2 : e ≤ 2) (left : Nat) :
    ∀ (m : Nat) (s : XoLoop), PlayInv cfg length n r e m s → m ≤ r →
      r * n + n - s.dmaBuffersIn ≤ left →
      ∃ k s', Lts.run XoLoop.step s (List.replicate k .never) = some s' ∧ s'.Done ∧
        PlayInv cfg length n r e r s' ∧ s'.dmaBuffersOut = r * n + n := by
  induction left with
  | zero =>
      intro m s h hm hleft
      by_cases hdone : s.Done
      · obtain ⟨rfl, hall⟩ := h.at_end hpos he he2 hm ((h.done_iff ha hn).mp hdone)
        exact ⟨0, s, rfl, hdone, h, hall⟩
      · have hrun := Nat.not_le.mp fun hc => hdone ((h.done_iff ha hn).mpr hc)
        have hin := h.in_lt he hrun
        have hout := h.out
        have hmul : m * n ≤ r * n := Nat.mul_le_mul_right n hm
        omega
  | succ left ih =>
      intro m s h hm hleft
      by_cases hdone : s.Done
      · obtain ⟨rfl, hall⟩ := h.at_end hpos he he2 hm ((h.done_iff ha hn).mp hdone)
        exact ⟨0, s, rfl, hdone, h, hall⟩
      · have hrun := Nat.not_le.mp fun hc => hdone ((h.done_iff ha hn).mpr hc)
        have hin := h.in_lt he hrun
        obtain ⟨m', hm', h'⟩ := h.step hpos he hm hrun .never
        have hin' := (s.completed_completion .never h.going).counted
        obtain ⟨k, s', hk, hend⟩ := ih m' _ h' hm' (by omega)
        refine ⟨k + 1, s', ?_, hend⟩
        rw [List.replicate_succ, Lts.run_cons, XoLoop.step, if_neg hdone, if_pos hin]
        exact hk

end play

/-! ### The start, and a length that does not go with repeats -/

section start

variable {cfg : XoConfig} {pl : AoPlayloop}

theorem init_shotBufferCount (ha : 0 < cfg.aoSamplesPerHb) (hmax : pl.maxlen = 0)
    (hlt : pl.length < 2 ^ 31) : (init cfg pl).shotBufferCount = cfg.buffersFor pl.length := by
  rw [← overspill_eq ha]
  exact (init_counts cfg pl (by rw [hmax, Nat.zero_max]) hlt).2

theorem init_shotBufferCount0 (hmax : pl.maxlen = 0) (hlt : pl.length < 2 ^ 31) :
    (init cfg pl).shotBufferCount0 = (pl.length / cfg.aoSamplesPerHb : Nat) :=
  (init_counts cfg pl (by rw [hmax, Nat.zero_max]) hlt).1

theorem playInv_of_started {s : XoLoop} (hs : Started cfg pl s)
    (hissued : s.pushes.length = s.dmaBuffersOut) (ha : 0 < cfg.aoSamplesPerHb)
    (hmax : pl.maxlen = 0) (hlen : 0 < pl.length) (hlt : pl.length < 2 ^ 31)
    (hmode : pl.oneshot ≠ .continuous)
    (hwhole : cfg.aoSamplesPerHb ∣ pl.length ∨ pl.repeats = 0)
    (hroom : (pl.repeats.toNat + 1) * cfg.buffersFor pl.length < 2 ^ 31) :
    PlayInv cfg pl.length (cfg.buffersFor pl.length) pl.repeats.toNat
      (min 2 (cfg.buffersFor pl.length)) 0 s := by
  have hn := buffersFor_pos ha hlen
  have hcount := init_shotBufferCount ha hmax hlt
  have hcount0 : 0 < pl.repeats.toNat →
      (init cfg pl).shotBufferCount0 = cfg.buffersFor pl.length := by
    intro hr
    rcases hwhole with hdvd | hzero
    · rw [init_shotBufferCount0 hmax hlt, buffersFor_of_dvd ha hdvd]
    · simp [hzero] at hr
  have hmode' : decide (pl.oneshot = .continuous) = false := decide_eq_false hmode
  have hout := hs.out
  have hin := hs.none_in
  have hflight : s.dmaBuffersOut = min 2 (cfg.buffersFor pl.length) := by
    rw [hout, hcount]
    split <;> omega
  exact
    { config := hs.config
      length := hs.length
      mode := by rw [aoContinuous, hs.oneshot, hmode']
      atStart := hs.atStart.trans hmode'
      quit := hs.quit
      repeats := by rw [hs.repeats, Nat.add_zero]
      count := by rw [hs.count, hcount, Nat.zero_mul, Nat.zero_add]
      count0 := fun hr => by rw [hs.count0, hcount0 hr]
      room := by rwa [← Nat.succ_mul]
      issued := hissued
      primed := hs.primed
      out := by omega
      from_cycle := by omega
      early := fun _ => by omega
      in_le := by omega
      begun := by
        rw [completionsAt, if_pos rfl]
        exact Nat.zero_le _
      cursor := by rw [hs.cursor, hin, Nat.zero_sub, Nat.zero_mul]
      pull := by rw [hs.pull, Nat.zero_mul, Nat.sub_zero]
      bufs := by simp [cyclesOf, hs.bufs] }

/-- Where the cycles that are added are one buffer short, some of the list is never pushed. -/
structure ShortInv (q r : Nat) (s : XoLoop) : Prop where
  mode : s.aoContinuous = false
  atStart : s.continuousAtStart = false
  counted : Counted s
  count0 : s.shotBufferCount0 = q
  total : s.shotBufferCount + s.playloop.repeats.toNat * q ≤ q + 1 + r * q
  out_le : s.dmaBuffersOut ≤ q + 1 + r * q

theorem ShortInv.going {q r : Nat} {s : XoLoop} (h : ShortInv q r s) :
    (s.lastPushDone && s.continuousAtStart) = false := by rw [h.atStart, Bool.and_false]

theorem ShortInv.wrap_le {q r : Nat} {s : XoLoop} (h : ShortInv q r s) :
    wrap (s.shotBufferCount + s.shotBufferCount0) ≤ s.shotBufferCount + q := by
  have hcount := h.counted.count.1
  rw [h.count0, wrap, Int.bmod_def]
  split <;> omega

theorem ShortInv.step {q r : Nat} {s t : XoLoop} {clear : Clear}
    (h : ShortInv q r s) (hstep : XoLoop.step s clear = some t) : ShortInv q r t := by
  have hcounted := h.counted.step hstep
  have htotal := h.total
  have hnonneg : (0 : Int) ≤ s.playloop.repeats.toNat * q := by positivity
  obtain ⟨-, rfl | ⟨-, rfl⟩⟩ := step_cases hstep
  · exact ⟨h.mode, h.atStart, hcounted, h.count0, htotal, h.out_le⟩
  by_cases hlt : s.dmaBuffersOut < s.shotBufferCount
  · rw [completed_during clear h.mode h.going hlt] at hcounted ⊢
    refine ⟨h.mode, h.atStart, hcounted, h.count0, htotal, ?_⟩
    show s.dmaBuffersOut + 1 ≤ _
    omega
  have hle := Int.not_lt.mp hlt
  by_cases hrep : s.playloop.repeats = 0
  · rw [completed_last clear h.mode h.going hle hrep] at hcounted ⊢
    exact ⟨h.mode, h.atStart, hcounted, h.count0, htotal, h.out_le⟩
  have hpos := UInt32.pos_iff_ne_zero.mpr hrep
  have hwrap := h.wrap_le
  have hnext : wrap (s.shotBufferCount + s.shotBufferCount0) +
      (s.playloop.repeats - 1).toNat * q ≤ q + 1 + r * q := by
    rw [← toNat_pred hpos, Int.natCast_add, Int.natCast_one, Int.add_mul, Int.one_mul] at htotal
    omega
  have hnonneg' : (0 : Int) ≤ (s.playloop.repeats - 1).toNat * q := by positivity
  by_cases hmore : s.dmaBuffersOut < wrap (s.shotBufferCount + s.shotBufferCount0)
  · rw [completed_repeat clear h.mode h.going hle hpos hmore] at hcounted ⊢
    refine ⟨h.mode, h.atStart, hcounted, h.count0, hnext, ?_⟩
    show s.dmaBuffersOut + 1 ≤ _
    omega
  · rw [completed_empty clear h.mode h.going hle (Int.not_lt.mp hmore) hpos] at hcounted ⊢
    exact ⟨h.mode, h.atStart, hcounted, h.count0, hnext, h.out_le⟩

end start

/-- Each whole run of `n` buffers, `repeats + 1` times over, and as many completions as pushes. -/
def PlaysList (cfg : XoConfig) (pl : AoPlayloop) : Prop :=
  ∃ k s, Lts.run XoLoop.step (start cfg pl) (List.replicate k .never) = some s ∧ s.Done ∧
    (playOrder s.pushes).map Push.ix
      = cyclesOf cfg.firstDistributorBuffer (cfg.buffersFor pl.length) (pl.repeats.toNat + 1) ∧
    s.cleanup.dmaBuffersIn = s.pushes.length ∧ s.cleanup.dmaBuffersOut = s.pushes.length

theorem length_playOrder (pushes : List Push) : (playOrder pushes).length = pushes.length := by
  match pushes with
  | [] => rfl
  | [_] => rfl
  | a :: b :: rest =>
      rw [playOrder]
      split <;> rfl

section played

variable {cfg : XoConfig} {pl : AoPlayloop}

/-- The pushes of a list that is played in full are counted in an `int`. -/
theorem PlaysList.room (h : PlaysList cfg pl) :
    (pl.repeats.toNat + 1) * cfg.buffersFor pl.length < 2 ^ 31 := by
  obtain ⟨k, s, hrun, -, hbufs, -⟩ := h
  have hcounted := Lts.run_invariant Counted (fun s a s' h hs => h.step hs) _ _ _
    (counted_start cfg pl) hrun
  have hlength := congrArg List.length hbufs
  rw [List.length_map, length_playOrder, length_cyclesOf, hcounted.issued] at hlength
  exact hlength ▸ hcounted.out_lt

/-- A length that is no `int` makes a negative count, and one buffer is pushed. -/
theorem over_start (ha : 2 ≤ cfg.aoSamplesPerHb) (hmax : pl.maxlen = 0) (hlt : pl.length < 2 ^ 32)
    (hge : 2 ^ 31 ≤ pl.length) : Over (start cfg pl) ∧ (start cfg pl).pushes.length = 1 := by
  have hcount0 := init_count0 cfg pl
  have hcount := init_count cfg pl
  have hs := started cfg pl
  have hwrap : wrap (pl.length : Nat) = -((4294967296 - pl.length : Nat) : Int) := by
    unfold wrap
    rw [Int.bmod_def]
    split <;> omega
  rw [hmax, Nat.zero_max, hwrap, Int.neg_tdiv, ← Int.ofNat_tdiv] at hcount0
  have hhalf : (4294967296 - pl.length) / cfg.aoSamplesPerHb ≤ (4294967296 - pl.length) / 2 :=
    Nat.div_le_div_left ha (by decide)
  generalize (4294967296 - pl.length) / cfg.aoSamplesPerHb = q at hcount0 hhalf
  have hcases : (init cfg pl).shotBufferCount = 1 - q ∨ (init cfg pl).shotBufferCount = -q := by
    rw [hcount, hcount0]
    split
    · exact Or.inl ((wrap_of_inRange (by unfold InRange; omega)).trans (by omega))
    · exact Or.inr rfl
  have hout : (start cfg pl).dmaBuffersOut = 1 := by rw [hs.out, if_neg (by omega)]
  have hstalled : Stalled (start cfg pl) := by
    refine ⟨by rw [hs.count, hout]; omega, fun j hj => ?_⟩
    obtain rfl : j = 0 := by omega
    rw [hs.count, hs.count0, hcount0, hout, wrap_of_inRange]
    · omega
    · unfold InRange
      omega
  exact ⟨Or.inr (Or.inr (Or.inr hstalled)), (counted_start cfg pl).issued.trans hout⟩

theorem PlaysList.length_lt (h : PlaysList cfg pl) (ha : 0 < cfg.aoSamplesPerHb)
    (hint : cfg.aoSamplesPerHb < 2 ^ 31) (hmax : pl.maxlen = 0) (hlt : pl.length < 2 ^ 32) :
    pl.length < 2 ^ 31 := by
  by_contra hge
  have hroom := h.room
  obtain ⟨k, s, hrun, -, hbufs, -⟩ := h
  have hlength := congrArg List.length hbufs
  rw [List.length_map, length_playOrder, length_cyclesOf] at hlength
  have hle : cfg.buffersFor pl.length ≤
      (pl.repeats.toNat + 1) * cfg.buffersFor pl.length := Nat.le_mul_of_pos_left _ (by omega)
  by_cases hone : cfg.aoSamplesPerHb = 1
  · have heq := (buffersFor_le_iff ha pl.length (cfg.buffersFor pl.length)).mp (Nat.le_refl _)
    rw [hone, Nat.mul_one] at heq
    omega
  have ha2 : 2 ≤ cfg.aoSamplesPerHb := by omega
  obtain ⟨hover, hpushes⟩ := over_start ha2 hmax hlt (Nat.not_lt.mp hge)
  rw [hover.run hrun, hpushes] at hlength
  have hmany := (buffersFor_le_iff ha pl.length 1).not.mpr (by omega)
  omega

/-- A list that is played in full has whole buffers or no repeats. -/
theorem PlaysList.whole (h : PlaysList cfg pl) (ha : 0 < cfg.aoSamplesPerHb)
    (hlt : pl.length < 2 ^ 31) (hlen : 0 < pl.length) (hmax : pl.maxlen = 0)
    (hmode : pl.oneshot ≠ .continuous) : cfg.aoSamplesPerHb ∣ pl.length ∨ pl.repeats = 0 := by
  obtain ⟨k, s, hrun, -, hbufs, -⟩ := h
  by_contra hno
  obtain ⟨hdvd, hrep⟩ := not_or.mp hno
  have hround := buffersFor_of_not_dvd ha hdvd
  have hcount := init_shotBufferCount ha hmax hlt
  have hs := started cfg pl
  have hmode' : decide (pl.oneshot = .continuous) = false := decide_eq_false hmode
  have hout := hs.out
  have hstart : ShortInv (pl.length / cfg.aoSamplesPerHb) pl.repeats.toNat (start cfg pl) := by
    refine ⟨by rw [aoContinuous, hs.oneshot, hmode'], hs.atStart.trans hmode',
      counted_start cfg pl, hs.count0.trans (init_shotBufferCount0 hmax hlt), ?_, ?_⟩
    · rw [hs.count, hcount, hs.repeats]
      omega
    · rw [hout, hcount]
      have hn := buffersFor_pos ha hlen
      split <;> omega
  have hend := Lts.run_invariant (ShortInv _ _) (fun s a s' h hs => h.step hs) _ _ _ hstart hrun
  have hlength := congrArg List.length hbufs
  rw [List.length_map, length_playOrder, length_cyclesOf, hround, Nat.succ_mul,
    hend.counted.issued, Nat.mul_succ] at hlength
  have hpos : 0 < pl.repeats.toNat :=
    UInt32.lt_iff_toNat_lt.mp (UInt32.pos_iff_ne_zero.mpr hrep)
  have hle := hend.out_le
  omega

end played

/--
**A one-shot play list is played, buffer by buffer and with its repeats, if and only if it
ends with a buffer or has no repeats, and its length and the count of all its buffers are values
of type `int`.**
-/
theorem xoDataLoop_plays_list_iff (cfg : XoConfig) (pl : AoPlayloop)
    (ha : 1 ≤ cfg.aoSamplesPerHb) (hint : cfg.aoSamplesPerHb < 2 ^ 31) (hlen : 1 ≤ pl.length)
    (hunsigned : pl.length < 2 ^ 32) (hmax : pl.maxlen = 0) (hmode : pl.oneshot ≠ .continuous) :
    PlaysList cfg pl ↔ (cfg.aoSamplesPerHb ∣ pl.length ∨ pl.repeats = 0) ∧ pl.length < 2 ^ 31 ∧
      (pl.repeats.toNat + 1) * cfg.buffersFor pl.length < 2 ^ 31 := by
  have hn := buffersFor_pos ha hlen
  refine ⟨fun h => ?_, fun ⟨hwhole, hlt, hroom⟩ => ?_⟩
  · have hlt := h.length_lt ha hint hmax hunsigned
    exact ⟨h.whole ha hlt hlen hmax hmode, hlt, h.room⟩
  have hstart := playInv_of_started (started cfg pl) (counted_start cfg pl).issued ha hmax hlen hlt
    hmode hwhole hroom
  obtain ⟨k, s, hrun, hdone, hinv, hall⟩ := PlayInv.run ha rfl hn (by omega) (by omega) _ 0 _
    hstart (Nat.zero_le _) (Nat.le_refl _)
  refine ⟨k, s, hrun, hdone, ?_, ?_, hinv.issued.symm⟩
  · rw [hinv.bufs, hall, Nat.add_sub_cancel_left, cyclesOf_succ]
  · have hle := hinv.in_le
    have hissued := hinv.issued
    show s.dmaBuffersIn + (s.dmaBuffersOut - s.dmaBuffersIn) = _
    omega

/-- A play loop of `length` samples, to be played `repeats + 1` times. -/
def AoPlayloop.once (length : Nat) (repeats : UInt32) : AoPlayloop :=
  { length := length
    cursor := 0
    oneshot := .oneshot
    repeats := repeats
    maxlen := 0
    pullBuf := 0
    cycles := 0 }

/-- Six samples, two to a buffer, played twice from buffer 10 on. -/
theorem xoDataLoop_plays_list_twice : PlaysList ⟨10, 8, 4⟩ (.once 6 1) :=
  (xoDataLoop_plays_list_iff ⟨10, 8, 4⟩ (.once 6 1) (by decide) (by decide) (by decide)
    (by decide) rfl (by decide)).mpr ⟨Or.inl (by decide), by decide, by decide⟩

/-- Three samples, two to a buffer: the second time one buffer is played in place of two. -/
theorem xoDataLoop_repeat_cut_short : ¬PlaysList ⟨10, 8, 4⟩ (.once 3 1) := fun h =>
  absurd (h.whole (by decide) (by decide) (by decide) rfl (by decide)) (by decide)

end Acq400
