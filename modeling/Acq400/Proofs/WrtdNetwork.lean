/-
What comes of a stamp on the trigger network.

A tick of whole nanoseconds goes through a message as it is, so every receiver that takes the
message has the stamp that was sent.  A receiver acts once on each stamp that it hears, at once
or in a child, and a child acts when there is no doubt which second the three bits of the
register are.  So whatever the network loses, repeats or delivers late, what a receiver writes
is the word of a stamp that was sent, and receivers with the same clock write the same word.
-/
import Acq400.Proofs.WrtdMessage
import Acq400.Wrtd.Network
import Mathlib.Data.List.Forall2

namespace Acq400.Wrtd

open CDouble TS WrtdCaster

/-! ### A stamp goes through a message as it is -/

/-- A stamp that the program makes, of whole ticks of `n` ns, all within the second. -/
structure Made (n : Nat) (ts : TS) : Prop where
  made : ∃ s k mask, ts = { makeRaw s k true with mask := mask }
  ticks_le : ts.ticks * n ≤ nsps

/-- Its seconds and ticks make the same stamp again. -/
theorem makeRaw_secs_ticks (s k : Nat) :
    makeRaw (makeRaw s k true).secs (makeRaw s k true).ticks true = makeRaw s k true := by
  have hticks : (makeRaw s k true).ticks &&& ticksMask = k &&& ticksMask := by
    show (makeRaw s k true).ticks &&& (2 ^ 28 - 1) = k &&& (2 ^ 28 - 1)
    rw [ticks_makeRaw, Nat.and_two_pow_sub_one_eq_mod, Nat.and_two_pow_sub_one_eq_mod]
    omega
  by_cases h : minTai < s
  · rw [secs_makeRaw_absolute h]
    show TS.mk _ ((s &&& secondsMask) <<< secondsShl |||
      ((makeRaw s k true).ticks &&& ticksMask) ||| _) 0 = _
    rw [hticks]
    rfl
  · have hsecs : (makeRaw s k true).secs = s % 8 := secs_makeRaw (by omega) k true
    have hlow : s % 8 &&& secondsMask = s &&& secondsMask := by
      show s % 8 &&& (2 ^ 3 - 1) = s &&& (2 ^ 3 - 1)
      rw [Nat.and_two_pow_sub_one_eq_mod, Nat.and_two_pow_sub_one_eq_mod]
      omega
    have hrel : ¬minTai < s % 8 := by
      unfold minTai
      omega
    rw [hsecs]
    show TS.mk (if minTai < s % 8 then s % 8 else 0) ((s % 8 &&& secondsMask) <<< secondsShl |||
      ((makeRaw s k true).ticks &&& ticksMask) ||| _) 0 =
      TS.mk (if minTai < s then s else 0) _ 0
    rw [if_neg hrel, if_neg h, hlow, hticks]

section Message

variable {g g' : G} {n : Nat} {ts : TS}

theorem ticksPerSec_mul_le (hs : Shared g n) : g.ticksPerSec * n ≤ nsps := by
  have hpos : (0 : ℚ) < n := hs.pos
  have hper : (g.ticksPerSec : ℚ) ≤ nsps / n := le_of_toUnsigned (by positivity) hs.ticksPerSec
  rw [le_div_iff₀ hpos] at hper
  exact_mod_cast hper

theorem toUnsigned_natCast {k : Nat} (hk : k < 4294967296) : toUnsigned (k : ℚ) = some k := by
  have hk' : (k : ℚ) < 4294967296 := by exact_mod_cast hk
  rw [toUnsigned_of_lt (Nat.cast_nonneg k) hk', Int.floor_natCast]
  rfl

theorem lt_unsigned_of_le_nsps {k : Nat} (hk : k ≤ nsps) : k < 4294967296 :=
  Nat.lt_of_le_of_lt hk (by decide)

theorem ne_quick_of_le_nsps {k : Nat} (hk : k ≤ nsps) : k ≠ tsQuick :=
  Nat.ne_of_lt (Nat.lt_of_le_of_lt hk (by decide))

theorem toUnsigned_ticks (hs : Shared g n) (ts : TS) :
    toUnsigned ((ts.ticks * n : Nat) / g.nsPerTick) = some ts.ticks := by
  have hne : (n : ℚ) ≠ 0 := hs.pos.ne'
  rw [hs.nsPerTick, Nat.cast_mul, mul_div_cancel_right₀ _ hne]
  exact toUnsigned_natCast (Nat.lt_trans ts.ticks_lt_field (by decide))

theorem sendto_made (hs : Shared g n) (c : WrtdCaster) (hts : Made n ts) :
    ∃ c', c.sendto g ts = some c' ∧ c'.msg.tsSec = ts.secs ∧ c'.msg.tsNs = ts.ticks * n ∧
      c'.msg.eventId.get imask = ts.mask := by
  have hnsec : ts.nsec g = some (ts.ticks * n) := by
    rw [nsec, hs.nsPerTick, ← Nat.cast_mul]
    exact toUnsigned_natCast (lt_unsigned_of_le_nsps hts.ticks_le)
  rw [sendto, hnsec, Option.map_some]
  exact ⟨_, rfl, rfl, rfl, Vector.getElem_set_self imask.isLt⟩

theorem stamp_made (hs : Shared g n) (hs' : Shared g' n) (c : WrtdCaster) (hts : Made n ts) :
    ∃ c', c.sendto g ts = some c' ∧ stamp g' c'.msg = some ts := by
  obtain ⟨c', hc', hsec, hns, hmask⟩ := sendto_made hs c hts
  refine ⟨c', hc', ?_⟩
  have hquick : c'.msg.tsNs ≠ tsQuick := by
    rw [hns]
    exact ne_quick_of_le_nsps hts.ticks_le
  have hticks : toUnsigned (c'.msg.tsNs / g'.nsPerTick) = some ts.ticks := by
    rw [hns]
    exact toUnsigned_ticks hs' ts
  rw [stamp_time hquick hticks, hsec, hmask]
  obtain ⟨s, k, mask, rfl⟩ := hts.made
  rw [ticks_mask, secs_mask, makeRaw_secs_ticks]

theorem stamp_quick (g : G) (c : WrtdCaster) (mask : UInt8) :
    stamp g (c.sendraw mask tsQuick).msg = some { TS.quick with mask := mask } := by
  have hmask : (c.sendraw mask tsQuick).msg.eventId[imask] = mask := by
    simp [sendraw, sendcommon]
  have hns : (c.sendraw mask tsQuick).msg.tsNs = tsQuick := rfl
  rw [stamp, if_pos hns, hmask]
  rfl

/-- A transmitter's stamp, from a word within the second and a delay of no more than one. -/
theorem made_tsTx {par : TxParams} (hs : Shared g n) (hdelta : par.delta ≤ g.ticksPerSec)
    {raw : Nat} (hraw : (ofRaw raw).ticks ≤ g.ticksPerSec) :
    Made n (Transmitter.tsTx g par raw) := by
  have hper := ticksPerSec_mul_le hs
  have hmade : ∀ s k, k ≤ g.ticksPerSec →
      Made n { makeRaw s k true with mask := par.txMask } := by
    intro s k hk
    refine ⟨⟨s, k, par.txMask, rfl⟩, ?_⟩
    rw [ticks_mask, ticks_makeRaw]
    exact (Nat.mul_le_mul_right n ((Nat.mod_le k _).trans hk)).trans hper
  unfold Transmitter.tsTx
  dsimp only
  by_cases hons : par.ons = true
  · rw [if_pos hons]
    exact hmade _ 0 (Nat.zero_le _)
  · rw [if_neg hons]
    have hle := (Nat.mod_le ((ofRaw raw).ticks + par.delta) 4294967296)
    unfold TS.plus TS.add
    dsimp only
    by_cases hcarry : g.ticksPerSec < unsigned ((ofRaw raw).ticks + par.delta)
    · rw [if_pos hcarry]
      refine hmade _ _ ?_
      unfold unsigned
      omega
    · rw [if_neg hcarry]
      exact hmade _ _ (Nat.le_of_not_lt hcarry)

/-- The stamp of a second and nanoseconds of it. -/
theorem made_txa (hs : Shared g n) (sec : Nat) {nsec ticks : Nat} (hnsec : nsec ≤ nsps)
    (hticks : toUnsigned (nsec / g.nsPerTick) = some ticks) : Made n (makeRaw sec ticks true) := by
  refine ⟨⟨sec, ticks, 0, rfl⟩, ?_⟩
  have hpos : (0 : ℚ) < n := hs.pos
  have hle : (ticks : ℚ) ≤ nsec / n := by
    rw [hs.nsPerTick] at hticks
    exact le_of_toUnsigned (by positivity) hticks
  rw [le_div_iff₀ hpos] at hle
  have hle' : ticks * n ≤ nsec := by exact_mod_cast hle
  rw [ticks_makeRaw]
  exact ((Nat.mul_le_mul_right n (Nat.mod_le ticks _)).trans hle').trans hnsec

end Message

/-! ### A receiver acts once on what it hears -/

/-- A stamp as the hardware takes it. -/
def Heard.strip (h : Heard) : Heard := { h with ts := h.ts.strip }

theorem Heard.strip_of_relative {h : Heard} (hrel : ¬h.ts.isAbsTai) : h.strip = h := by
  have hzero : h.ts.taiS = 0 := not_not.mp hrel
  unfold Heard.strip TS.strip
  rw [← hzero]

namespace Receiver

variable {rx : Receiver}

/-- Every stamp that has come in has been acted on or waits, each as often as it came in.  What
waits is absolute, and was acted on in one of the seven seconds before it. -/
structure Kept (rx : Receiver) (st : ReceiverState) : Prop where
  acted : ∃ done : List Heard, (done ++ st.children).Perm st.heard ∧
    st.writes = done.flatMap (fun h => rx.fire h.strip) ∧
    done.filter (fun h => h.ts.isAbsTai) = st.woken.map Prod.fst
  waiting : ∀ h ∈ st.children, h.ts.isAbsTai
  timely : ∀ e ∈ st.woken, e.2 < e.1.ts.secs ∧ e.1.ts.secs - e.2 < 7

theorem Kept.init : Kept rx .init :=
  ⟨⟨[], .refl _, rfl, rfl⟩, nofun, nofun⟩

theorem Kept.action {st : ReceiverState} (hk : Kept rx st) (ts : TS) :
    Kept rx (rx.action st ts) := by
  obtain ⟨done, hperm, hwrites, hwoken⟩ := hk.acted
  unfold Receiver.action
  dsimp only
  by_cases habs : ts.isAbsTai
  · rw [if_pos habs]
    refine ⟨⟨done, ?_, hwrites, hwoken⟩, ?_, hk.timely⟩
    · rw [← List.append_assoc]
      exact hperm.append_right _
    · intro h hmem
      rcases List.mem_append.mp hmem with hin | hnew
      · exact hk.waiting h hin
      · rw [List.mem_singleton.mp hnew]
        exact habs
  · rw [if_neg habs]
    have hstrip : Heard.strip ⟨st.trg, ts⟩ = ⟨st.trg, ts⟩ := Heard.strip_of_relative habs
    refine ⟨⟨done ++ [⟨st.trg, ts⟩], ?_, ?_, ?_⟩, hk.waiting, hk.timely⟩
    · have hswap : (done ++ [Heard.mk st.trg ts] ++ st.children).Perm
          (done ++ st.children ++ [⟨st.trg, ts⟩]) := by
        rw [List.append_assoc, List.append_assoc]
        exact List.perm_append_comm.append_left done
      exact hswap.trans (hperm.append_right _)
    · rw [List.flatMap_append, hwrites, List.flatMap_singleton, hstrip]
    · rw [List.filter_append, hwoken]
      simp [habs]

theorem Kept.wake {st st' : ReceiverState} (hk : Kept rx st) {child taiSec : Nat}
    (hstep : rx.wake st child taiSec = some st') : Kept rx st' := by
  obtain ⟨h, hget, rfl⟩ := Option.map_eq_some_iff.mp hstep
  by_cases htime : taiSec < h.ts.secs ∧ h.ts.secs - taiSec < 7
  · rw [if_pos htime]
    obtain ⟨done, hperm, hwrites, hwoken⟩ := hk.acted
    obtain ⟨hlt, hat⟩ := List.getElem?_eq_some_iff.mp hget
    have habs : h.ts.isAbsTai := hk.waiting h (List.mem_of_getElem? hget)
    refine ⟨⟨done ++ [h], ?_, ?_, ?_⟩, ?_, ?_⟩
    · have hone : ([h] ++ st.children.eraseIdx child).Perm st.children := by
        rw [← hat]
        exact List.getElem_cons_eraseIdx_perm hlt
      rw [List.append_assoc]
      exact (hone.append_left done).trans hperm
    · rw [List.flatMap_append, hwrites, List.flatMap_singleton]
      rfl
    · rw [List.filter_append, hwoken, List.map_append]
      simp [habs]
    · exact fun h' hmem => hk.waiting h' (List.mem_of_mem_eraseIdx hmem)
    · intro e hmem
      rcases List.mem_append.mp hmem with hin | hnew
      · exact hk.timely e hin
      · rw [List.mem_singleton.mp hnew]
        exact htime
  · rw [if_neg htime]
    exact hk

theorem heard_action (st : ReceiverState) (ts : TS) :
    (rx.action st ts).heard = st.heard ++ [{ trg := st.trg, ts := ts }] := by
  unfold Receiver.action
  dsimp only
  split <;> rfl

theorem heard_wake {st st' : ReceiverState} {child taiSec : Nat}
    (hstep : rx.wake st child taiSec = some st') : st'.heard = st.heard := by
  obtain ⟨h, -, rfl⟩ := Option.map_eq_some_iff.mp hstep
  split <;> rfl

/-- A datagram that is not for the receiver only sets `G::trg`. -/
theorem receive_cases {st st' : ReceiverState} {msg : WrtdMessage}
    (hstep : rx.receive st msg = some st') :
    (∃ trg ts, rx.filter.accept st.trg msg = (true, trg) ∧ WrtdCaster.stamp rx.g msg = some ts ∧
      st' = rx.action { st with trg := trg } ts) ∨
    ∃ trg, rx.filter.accept st.trg msg = (false, trg) ∧ st' = { st with trg := trg } := by
  unfold Receiver.receive at hstep
  generalize haccept : rx.filter.accept st.trg msg = res at hstep
  obtain ⟨ours, trg⟩ := res
  cases ours with
  | true =>
    obtain ⟨ts, hts, rfl⟩ := Option.map_eq_some_iff.mp hstep
    exact Or.inl ⟨trg, ts, rfl, hts, rfl⟩
  | false => exact Or.inr ⟨trg, rfl, (Option.some.inj hstep).symm⟩

theorem Kept.trg {st : ReceiverState} (hk : Kept rx st) (trg : Nat) :
    Kept rx { st with trg := trg } :=
  ⟨hk.acted, hk.waiting, hk.timely⟩

/-! ### What is written for a stamp -/

theorem and_one_ne_zero_iff (mask : UInt8) : mask &&& 1 ≠ 0 ↔ mask.toNat.testBit 0 = true := by
  rw [Nat.testBit_zero, ne_eq, ← UInt8.toNat_inj, UInt8.toNat_and, decide_eq_true_iff]
  show ¬mask.toNat &&& 1 = 0 ↔ _
  rw [Nat.and_one_is_mod]
  omega

theorem testBit_shiftRight_one (mask : UInt8) (k : Nat) :
    (mask >>> 1).toNat.testBit k = mask.toNat.testBit (k + 1) := by
  rw [UInt8.toNat_shiftRight]
  show (mask.toNat >>> 1).testBit k = _
  rw [Nat.testBit_shiftRight, Nat.add_comm]

/-- The triggers of the mask that are open, from trigger `ii` on. -/
theorem mem_maskLoop_iff (raw : Nat) (fpTrg : List Bool) (ii : Nat) (mask : UInt8) (w : Nat × Nat) :
    w ∈ maskLoop raw ii fpTrg mask ↔
      ∃ k, fpTrg[k]? = some true ∧ mask.toNat.testBit k = true ∧ w = (ii + k, raw) := by
  induction fpTrg generalizing ii mask with
  | nil => simp [maskLoop]
  | cons fp fpTrg ih =>
    rw [maskLoop]
    by_cases hzero : mask = 0
    · rw [if_pos hzero, hzero]
      simp
    · rw [if_neg hzero, List.mem_append, ih]
      have hfirst : w ∈ (if mask &&& 1 ≠ 0 ∧ fp = true then [(ii, raw)] else []) ↔
          (fp :: fpTrg)[0]? = some true ∧ mask.toNat.testBit 0 = true ∧ w = (ii + 0, raw) := by
        rw [← and_one_ne_zero_iff, List.getElem?_cons_zero, Option.some_inj]
        by_cases hopen : mask &&& 1 ≠ 0 ∧ fp = true
        · rw [if_pos hopen, List.mem_singleton]
          exact ⟨fun h => ⟨hopen.2, hopen.1, h⟩, fun h => h.2.2⟩
        · rw [if_neg hopen]
          exact ⟨nofun, fun h => absurd ⟨h.2.1, h.1⟩ hopen⟩
      have hrest : ∀ k, fpTrg[k]? = some true ∧ (mask >>> 1).toNat.testBit k = true ∧
          w = (ii + 1 + k, raw) ↔ (fp :: fpTrg)[k + 1]? = some true ∧
          mask.toNat.testBit (k + 1) = true ∧ w = (ii + (k + 1), raw) := by
        intro k
        rw [testBit_shiftRight_one, List.getElem?_cons_succ, Nat.add_assoc, Nat.add_comm 1 k]
      rw [hfirst, exists_congr hrest]
      exact Nat.or_exists_add_one (p := fun k => (fp :: fpTrg)[k]? = some true ∧
        mask.toNat.testBit k = true ∧ w = (ii + k, raw))

/-- With a mask, the word of the stamp goes to the open triggers of the mask. -/
theorem mem_fire_iff {h : Heard} (hmask : h.ts.mask ≠ 0) (w : Nat × Nat) :
    w ∈ rx.fire h ↔ ∃ ii, rx.fpTrg[ii]? = some true ∧ h.ts.mask.toNat.testBit ii = true ∧
      w = (ii, (h.ts.adjustTs rx.clk).raw) := by
  unfold Receiver.fire Receiver.onAction
  rw [if_pos hmask, mem_maskLoop_iff]
  simp only [Nat.zero_add]

/-- Alignment leaves the second of a relative stamp as it is. -/
theorem field_adjustTs {ts : TS} (hrel : ts.taiS = 0) (clk : LocalClk) :
    BitField.field 28 3 (ts.adjustTs clk).raw = ts.secs := by
  unfold TS.adjustTs
  split
  · have hle : ts.secs ≤ minTai := (secs_le hrel).trans (by decide)
    have hzero : (ts._adjustTs clk).taiS = 0 := if_neg (Nat.not_lt.mpr hle)
    rw [← secs_relative hzero]
    have hsecs : (ts._adjustTs clk).secs = ts.secs % 8 := secs_makeRaw hle _ _
    rw [hsecs]
    exact Nat.mod_eq_of_lt (Nat.lt_succ_of_le (secs_le hrel))
  · exact (secs_relative hrel).symm

/-- Without the second of an absolute stamp there are three bits of it left. -/
theorem secs_strip {n : Nat} {ts : TS} (hts : Made n ts) (habs : ts.isAbsTai) :
    ts.strip.secs = ts.secs % 8 := by
  obtain ⟨s, k, mask, rfl⟩ := hts.made
  have hs : minTai < s := by
    by_contra hnot
    exact habs (if_neg hnot)
  have hsecs : TS.secs { makeRaw s k true with mask := mask } = s :=
    secs_makeRaw_absolute hs k true
  have hword : (TS.strip { makeRaw s k true with mask := mask }).secs =
      (makeRaw (s % 8) k true).secs := by
    have hlow : s % 8 &&& secondsMask = s &&& secondsMask := by
      show s % 8 &&& (2 ^ 3 - 1) = s &&& (2 ^ 3 - 1)
      rw [Nat.and_two_pow_sub_one_eq_mod, Nat.and_two_pow_sub_one_eq_mod]
      omega
    have hzero : (makeRaw (s % 8) k true).taiS = 0 := if_neg (by unfold minTai; omega)
    rw [secs_relative rfl, secs_relative hzero]
    show BitField.field 28 3 ((s &&& secondsMask) <<< secondsShl ||| _ ||| _) =
      BitField.field 28 3 ((s % 8 &&& secondsMask) <<< secondsShl ||| _ ||| _)
    rw [hlow]
  rw [hsecs, hword, secs_makeRaw (by unfold minTai; omega), Nat.mod_mod]

/-- When a child acts, the three bits are those of no earlier second to come. -/
theorem isLeast_second {n : Nat} {ts : TS} (hts : Made n ts) (habs : ts.isAbsTai)
    {taiSec : Nat} (htime : taiSec < ts.secs ∧ ts.secs - taiSec < 7) (clk : LocalClk) :
    IsLeast {sec | taiSec < sec ∧ sec % 8 = BitField.field 28 3 (ts.strip.adjustTs clk).raw}
      ts.secs := by
  rw [field_adjustTs rfl, secs_strip hts habs]
  refine ⟨⟨htime.1, rfl⟩, ?_⟩
  rintro sec ⟨hlt, hmod⟩
  by_contra hless
  omega

end Receiver

/-! ### Runs of the network -/

/-- One tick of `n` ns everywhere, and no delay of more than a second. -/
structure NetConfig.Common (cfg : NetConfig) (n : Nat) : Prop where
  tx : ∀ i, Shared (cfg.tx i).g n
  rx : ∀ j, Shared (cfg.rx j).g n
  delta : ∀ i, (cfg.tx i).par.delta ≤ (cfg.tx i).g.ticksPerSec

/-- What is read from the device or asked for is within the second. -/
def NetAct.Within (cfg : NetConfig) : NetAct → Prop
  | .transmit i raw => (ofRaw raw).ticks ≤ (cfg.tx i).g.ticksPerSec
  | .txa _ _ nsec => nsec ≤ nsps
  | _ => True

namespace Network

variable {cfg : NetConfig} {n : Nat} {s s' : Network}

/-- Every datagram is to every receiver the stamp that was sent, and what has come in is of a
datagram. -/
structure Sound (cfg : NetConfig) (n : Nat) (s : Network) : Prop where
  air : List.Forall₂ (fun msg ts => ∀ j, stamp (cfg.rx j).g msg = some ts) s.air s.sent
  made : ∀ ts ∈ s.sent, ts.isAbsTai → Made n ts
  kept : ∀ j, Receiver.Kept (cfg.rx j) (s.rxs j)
  heard : ∀ j, ∀ h ∈ (s.rxs j).heard, ∃ msg trg, (msg, h.ts) ∈ s.air.zip s.sent ∧
    (cfg.rx j).filter.accept trg msg = (true, h.trg)
  keptLocal : ∀ i rx, (cfg.tx i).localRx = some rx → Receiver.Kept rx (s.txs i).rx
  heardLocal : ∀ i, ∀ h ∈ (s.txs i).rx.heard, h.ts ∈ s.sent

theorem sound_init (cfg : NetConfig) (n : Nat) (caster : Nat → WrtdCaster) :
    Sound cfg n (init cfg caster) where
  air := .nil
  made := nofun
  kept _ := .init
  heard _ := nofun
  keptLocal _ _ _ := .init
  heardLocal _ := nofun

theorem Sound.datagram (h : Sound cfg n s) {msg : WrtdMessage} {ts : TS}
    (hair : ∀ j, stamp (cfg.rx j).g msg = some ts) (hmade : ts.isAbsTai → Made n ts) :
    Sound cfg n { s with air := s.air ++ [msg], sent := s.sent ++ [ts] } where
  air := List.rel_append h.air (.cons hair .nil)
  made ts' hmem habs := by
    rcases List.mem_append.mp hmem with hin | hnew
    · exact h.made ts' hin habs
    · rw [List.mem_singleton.mp hnew] at habs ⊢
      exact hmade habs
  kept := h.kept
  heard j h' hmem := by
    obtain ⟨msg', trg, hzip, haccept⟩ := h.heard j h' hmem
    refine ⟨msg', trg, ?_, haccept⟩
    rw [List.zip_append h.air.length_eq]
    exact List.mem_append_left _ hzip
  keptLocal := h.keptLocal
  heardLocal i h' hmem := List.mem_append_left _ (h.heardLocal i h' hmem)

/-- A transmitter, with its local receiver, has taken a step. -/
theorem Sound.sender (h : Sound cfg n s) (i : Nat) {tx : SenderState}
    (hkept : ∀ rx, (cfg.tx i).localRx = some rx → Receiver.Kept rx tx.rx)
    (hheard : ∀ h' ∈ tx.rx.heard, h'.ts ∈ s.sent) :
    Sound cfg n { s with txs := Function.update s.txs i tx } where
  air := h.air
  made := h.made
  kept := h.kept
  heard := h.heard
  keptLocal := (Function.forall_update_iff s.txs fun i (tx : SenderState) =>
    ∀ rx, (cfg.tx i).localRx = some rx → Receiver.Kept rx tx.rx).mpr
      ⟨hkept, fun i' _ => h.keptLocal i'⟩
  heardLocal := (Function.forall_update_iff s.txs fun _ (tx : SenderState) =>
    ∀ h' ∈ tx.rx.heard, h'.ts ∈ s.sent).mpr ⟨hheard, fun i' _ => h.heardLocal i'⟩

/-- A transmitter has sent a stamp, and its local receiver may have it. -/
theorem Sound.send (h : Sound cfg n s) (i : Nat) {ts : TS} {tx : SenderState}
    (hair : ∀ j, stamp (cfg.rx j).g tx.caster.msg = some ts) (hmade : ts.isAbsTai → Made n ts)
    (hkept : ∀ rx, (cfg.tx i).localRx = some rx → Receiver.Kept rx tx.rx)
    (hheard : ∀ h' ∈ tx.rx.heard, h' ∈ (s.txs i).rx.heard ∨ h'.ts = ts) :
    Sound cfg n (s.send i ts tx) := by
  refine (h.datagram hair hmade).sender i hkept fun h' hmem => ?_
  rcases hheard h' hmem with hold | hnew
  · exact List.mem_append_left _ (h.heardLocal i h' hold)
  · rw [hnew]
    exact List.mem_append_right _ (List.mem_singleton_self ts)

theorem Sound.receiver (h : Sound cfg n s) (j : Nat) {st : ReceiverState}
    (hkept : Receiver.Kept (cfg.rx j) st)
    (hheard : ∀ h' ∈ st.heard, h' ∈ (s.rxs j).heard ∨
      ∃ msg trg, (msg, h'.ts) ∈ s.air.zip s.sent ∧
        (cfg.rx j).filter.accept trg msg = (true, h'.trg)) :
    Sound cfg n { s with rxs := Function.update s.rxs j st } where
  air := h.air
  made := h.made
  kept := (Function.forall_update_iff s.rxs fun j st => Receiver.Kept (cfg.rx j) st).mpr
    ⟨hkept, fun j' _ => h.kept j'⟩
  heard := (Function.forall_update_iff s.rxs fun j (st : ReceiverState) => ∀ h' ∈ st.heard,
    ∃ msg trg, (msg, h'.ts) ∈ s.air.zip s.sent ∧
      (cfg.rx j).filter.accept trg msg = (true, h'.trg)).mpr
      ⟨fun h' hmem => (hheard h' hmem).elim (h.heard j h') id, fun j' _ => h.heard j'⟩
  keptLocal := h.keptLocal
  heardLocal := h.heardLocal

/-- A datagram that has been sent is of a stamp that has. -/
theorem Sound.mem_zip (h : Sound cfg n s) {msg : WrtdMessage} (hmem : msg ∈ s.air) :
    ∃ ts, (msg, ts) ∈ s.air.zip s.sent ∧ ∀ j, stamp (cfg.rx j).g msg = some ts := by
  obtain ⟨k, hk, rfl⟩ := List.getElem_of_mem hmem
  have hk' : k < s.sent.length := h.air.length_eq ▸ hk
  refine ⟨s.sent[k], ?_, h.air.get hk hk'⟩
  rw [List.mem_iff_getElem]
  exact ⟨k, by rw [List.length_zip]; omega, List.getElem_zip⟩

/-- What is acted on at once has come in, and all else is as it was. -/
theorem heard_localRx (rx : Option Receiver) (st : ReceiverState) (ts : TS) :
    ∀ h ∈ (match rx with | some rx => rx.action st ts | none => st).heard,
      h ∈ st.heard ∨ h.ts = ts := by
  intro h hmem
  cases rx with
  | none => exact Or.inl hmem
  | some rx =>
    have hmem' : h ∈ (rx.action st ts).heard := hmem
    rw [Receiver.heard_action] at hmem'
    rcases List.mem_append.mp hmem' with hin | hnew
    · exact Or.inl hin
    · rw [List.mem_singleton.mp hnew]
      exact Or.inr rfl

theorem Sound.step (hcommon : cfg.Common n) (h : Sound cfg n s) {a : NetAct} (ha : a.Within cfg)
    (hstep : Network.step cfg s a = some s') : Sound cfg n s' := by
  cases a with
  | transmit i raw =>
    obtain ⟨⟨ts, tx⟩, htx, rfl⟩ := Option.map_eq_some_iff.mp hstep
    unfold Sender.transmit at htx
    by_cases hrunning : (s.txs i).running = true
    · rw [if_pos hrunning] at htx
      have hmade := made_tsTx (hcommon.tx i) (hcommon.delta i) ha
      obtain ⟨caster, hcaster, hres⟩ := Option.map_eq_some_iff.mp htx
      obtain ⟨rfl, rfl⟩ := Prod.mk.inj hres
      refine h.send i ?_ (fun _ => hmade) ?_ (heard_localRx _ _ _)
      · intro j
        obtain ⟨caster', hcaster', hstamp⟩ :=
          stamp_made (hcommon.tx i) (hcommon.rx j) (s.txs i).caster hmade
        obtain rfl : caster = caster' := Option.some.inj (hcaster.symm.trans hcaster')
        exact hstamp
      · intro rx hlocal
        dsimp only
        rw [hlocal]
        exact (h.keptLocal i rx hlocal).action _
    · rw [if_neg hrunning] at htx
      cases htx
  | quick i =>
    obtain rfl := Option.some.inj hstep
    refine h.send i (fun j => stamp_quick _ _ _) ?_ (h.keptLocal i) fun h' => Or.inl
    exact fun habs => absurd rfl habs
  | txa i sec nsec =>
    obtain ⟨⟨ts, tx⟩, htx, rfl⟩ := Option.map_eq_some_iff.mp hstep
    obtain ⟨ticks, hticks, htx⟩ := Option.bind_eq_some_iff.mp htx
    obtain ⟨caster, hcaster, hres⟩ := Option.bind_eq_some_iff.mp htx
    obtain ⟨rfl, rfl⟩ := Prod.mk.inj (Option.some.inj hres)
    have hmade := made_txa (hcommon.tx i) sec ha hticks
    refine h.send i ?_ (fun _ => hmade) (h.keptLocal i) fun h' => Or.inl
    intro j
    obtain ⟨caster', hcaster', hstamp⟩ :=
      stamp_made (hcommon.tx i) (hcommon.rx j) (s.txs i).caster hmade
    obtain rfl : caster = caster' := Option.some.inj (hcaster.symm.trans hcaster')
    exact hstamp
  | deliver j msg =>
    by_cases hmem : msg ∈ s.air
    · rw [Network.step, if_pos hmem] at hstep
      obtain ⟨st, hst, rfl⟩ := Option.map_eq_some_iff.mp hstep
      obtain ⟨ts, hzip, hstamp⟩ := h.mem_zip hmem
      rcases Receiver.receive_cases hst with ⟨trg, ts', haccept, hts', rfl⟩ | ⟨trg, -, rfl⟩
      · obtain rfl : ts = ts' := Option.some.inj ((hstamp j).symm.trans hts')
        refine h.receiver j (((h.kept j).trg trg).action ts) ?_
        intro h' hmem'
        rw [Receiver.heard_action] at hmem'
        rcases List.mem_append.mp hmem' with hin | hnew
        · exact Or.inl hin
        · rw [List.mem_singleton.mp hnew]
          exact Or.inr ⟨msg, _, hzip, haccept⟩
      · exact h.receiver j ((h.kept j).trg trg) fun h' => Or.inl
    · rw [Network.step, if_neg hmem] at hstep
      cases hstep
  | wake j child taiSec =>
    obtain ⟨st, hst, rfl⟩ := Option.map_eq_some_iff.mp hstep
    refine h.receiver j ((h.kept j).wake hst) fun h' hmem => Or.inl ?_
    rwa [Receiver.heard_wake hst] at hmem
  | wakeLocal i child taiSec =>
    obtain ⟨rx, hlocal, hstep⟩ := Option.bind_eq_some_iff.mp hstep
    obtain ⟨st, hst, rfl⟩ := Option.map_eq_some_iff.mp hstep
    refine h.sender i ?_ fun h' hmem => h.heardLocal i h' ?_
    · intro rx' hlocal'
      obtain rfl : rx = rx' := Option.some.inj (hlocal.symm.trans hlocal')
      exact (h.keptLocal i rx hlocal).wake hst
    · rwa [← Receiver.heard_wake hst]

/-- A receiver of the group, or the local one of a transmitter. -/
inductive Party (cfg : NetConfig) (s : Network) : Receiver → ReceiverState → Prop
  | group (j : Nat) : Party cfg s (cfg.rx j) (s.rxs j)
  | localRx (i : Nat) (rx : Receiver) (h : (cfg.tx i).localRx = some rx) :
      Party cfg s rx (s.txs i).rx

theorem Sound.party (h : Sound cfg n s) {rx : Receiver} {st : ReceiverState}
    (hparty : Party cfg s rx st) : Receiver.Kept rx st ∧ ∀ h' ∈ st.heard, h'.ts ∈ s.sent := by
  cases hparty with
  | group j =>
    refine ⟨h.kept j, fun h' hmem => ?_⟩
    obtain ⟨msg, trg, hzip, -⟩ := h.heard j h' hmem
    exact (List.of_mem_zip hzip).2
  | localRx i rx hlocal => exact ⟨h.keptLocal i rx hlocal, h.heardLocal i⟩

/--
**Whatever the group loses, repeats or delivers late: what has come in at a receiver is a stamp
that was sent, of a datagram that its filter takes, and has been acted on once for each time it
came in, unless it is absolute and a child waits.**  What is written is the word of the stamp,
aligned to the clock of the receiver, to the open triggers of the mask; and when a child writes,
the second of the stamp is the next one that has the three bits of the word.
-/
theorem trigger_network (cfg : NetConfig) (n : Nat) (casters : Nat → WrtdCaster)
    (acts : List NetAct) (hcommon : cfg.Common n) (hacts : ∀ a ∈ acts, a.Within cfg)
    (hrun : Lts.run (Network.step cfg) (init cfg casters) acts = some s) :
    (∀ j, ∀ h ∈ (s.rxs j).heard, ∃ msg trg, (msg, h.ts) ∈ s.air.zip s.sent ∧
      (cfg.rx j).filter.accept trg msg = (true, h.trg)) ∧
    ∀ rx st, s.Party cfg rx st →
      (∀ h ∈ st.heard, h.ts ∈ s.sent) ∧ Receiver.Kept rx st ∧
      (∀ h ∈ st.heard, h.ts.mask ≠ 0 → ∀ w, w ∈ rx.fire h.strip ↔
        ∃ ii, rx.fpTrg[ii]? = some true ∧ h.ts.mask.toNat.testBit ii = true ∧
          w = (ii, (h.ts.strip.adjustTs rx.clk).raw)) ∧
      ∀ e ∈ st.woken, IsLeast {sec | e.2 < sec ∧
        sec % 8 = BitField.field 28 3 (e.1.ts.strip.adjustTs rx.clk).raw} e.1.ts.secs := by
  have hsound := Lts.run_invariant_of (G := fun _ a => a.Within cfg) (Sound cfg n)
    (fun _ _ _ h ha hstep => h.step hcommon ha hstep) acts _ s (sound_init cfg n casters)
    (Lts.Meets.of_forall hacts) hrun
  refine ⟨hsound.heard, fun rx st hparty => ?_⟩
  obtain ⟨hkept, hheard⟩ := hsound.party hparty
  refine ⟨hheard, hkept, fun h _ hmask w => Receiver.mem_fire_iff (h := h.strip) hmask w,
    fun e he => ?_⟩
  obtain ⟨done, hperm, -, hwoken⟩ := hkept.acted
  have hmem : e.1 ∈ done.filter (fun h => h.ts.isAbsTai) := by
    rw [hwoken]
    exact List.mem_map_of_mem he
  obtain ⟨hdone, habs⟩ := List.mem_filter.mp hmem
  have habs' : e.1.ts.isAbsTai := of_decide_eq_true habs
  have hsent := hheard e.1 (hperm.mem_iff.mp (List.mem_append_left _ hdone))
  exact Receiver.isLeast_second (hsound.made _ hsent habs') habs' (hkept.timely e he) rx.clk

/-- A transmitter of half a second's delay, a receiver with a clock to adjust to, and one with
triggers at sites 1 and 2. -/
private def threeBoxes : NetConfig where
  tx _ :=
    { g := g50
      par := { ons := false, deltaTicks := 10000000, txMask := 5, maxTx := maxTxInf }
      localRx := none }
  rx j :=
    if j = 0 then Receiver.acq400 g50 { clkdiv := 20, clkoffset := 3 } .acq2106 0
    else Receiver.tiga g50 .acq2106 (· ≤ 2) 0

private def trgMsg (seq tsSec tsNs : Nat) (mask : UInt8) : WrtdMessage :=
  { (acq2106.sendraw mask tsNs).msg with seq := seq, tsSec := tsSec }

/-- A stamp that the second receiver hears twice, and one for second 100, which the first
receiver leaves to a child. -/
private def twoStamps : List NetAct :=
  [.transmit 0 0x10000001, .txa 0 100 500, .deliver 1 (trgMsg 1 1 500000050 5),
    .deliver 0 (trgMsg 2 100 500 0), .wake 0 0 93, .deliver 0 (trgMsg 1 1 500000050 5),
    .wake 0 0 94, .deliver 1 (trgMsg 1 1 500000050 5)]

theorem trigger_network_two : ∃ s,
    Lts.run (Network.step threeBoxes) (init threeBoxes fun _ => acq2106) twoStamps = some s ∧
    (s.rxs 0).writes = [(0, 0x90989691), (0, 0xc0000011)] ∧
    ∀ rx st, s.Party threeBoxes rx st → ∀ h ∈ st.heard, h.ts ∈ s.sent := by
  obtain ⟨s, hrun, hs⟩ := Lts.exists_of_any (Network.step threeBoxes)
    (init threeBoxes fun _ => acq2106) twoStamps
    (fun s => (s.rxs 0).writes = [(0, 0x90989691), (0, 0xc0000011)]) (by decide +kernel)
  have hcommon : threeBoxes.Common 50 := by
    have hdelta : (threeBoxes.tx 0).par.delta ≤ g50.ticksPerSec := by decide
    refine ⟨fun _ => shared_g50, fun j => ?_, fun _ => hdelta⟩
    have hg : (threeBoxes.rx j).g = g50 := by
      unfold threeBoxes
      dsimp only
      split <;> rfl
    rw [hg]
    exact shared_g50
  have hwithin : ∀ a ∈ twoStamps, a.Within threeBoxes := by
    simp [twoStamps, NetAct.Within, threeBoxes, TS.ticks, ofRaw, ticksMask, g50, nsps]
  have h := trigger_network threeBoxes 50 (fun _ => acq2106) twoStamps hcommon hwithin hrun
  exact ⟨s, hrun, of_decide_eq_true hs, fun rx st hparty => (h.2 rx st hparty).1⟩

end Network

end Acq400.Wrtd
