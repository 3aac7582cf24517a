/-
What the transmitter sends.

`ntx` is counted in the head of the loop and in its body, so that it is `2k - 1` after `k` stamps,
and of more than two stamps only about half are sent.  The time of a stamp is right unless its
ticks come out at `ticks_per_sec`, which `add` does not carry; and on the next second unless that
is too early: `next_second` takes one more only from 2²⁸ - 1 ticks on, and not from the end of
the second on.
-/
import Acq400.Proofs.WrtdMessage
import Acq400.Wrtd.Message
import Mathlib.Data.List.Forall2

namespace Acq400.Wrtd.Transmitter

open TS

variable {g : G} {par : TxParams} {raw : Nat}

/-! ### How many are sent -/

/-- How many stamps the loop lets through. -/
def sentOf (maxTx : Nat) (n : Nat) : Nat :=
  if maxTx = maxTxInf then n else if maxTx = 0 then 0 else maxTx / 2 + 1

/-- After `k` stamps `ntx` is `2k`, and has been `2k - 1` when it was compared. -/
theorem eventLoopFrom_finite (hfin : par.maxTx ≠ maxTxInf) (hmax : par.maxTx < 4294967296)
    (stream : List Nat) :
    ∀ k, 2 * k ≤ par.maxTx → eventLoopFrom g par (2 * k) stream =
      (stream.take (par.maxTx / 2 + 1 - k)).map (tsTx g par) := by
  induction stream with
  | nil =>
      intro k _
      rw [List.take_nil]
      rfl
  | cons raw stream ih =>
      intro k hk
      have hodd : unsigned (2 * k + 1) = 2 * k + 1 := by
        unfold maxTxInf at hfin
        exact unsigned_of_lt (by omega)
      have hleft : par.maxTx / 2 + 1 - k = par.maxTx / 2 - k + 1 := by omega
      rw [hleft, List.take_succ_cons, List.map_cons]
      unfold eventLoopFrom
      dsimp only
      rw [hodd]
      by_cases hend : par.maxTx ≤ 2 * k + 1
      · have hlast : par.maxTx / 2 - k = 0 := by omega
        rw [if_pos ⟨hfin, hend⟩, hlast, List.take_zero, List.map_nil]
      · rw [if_neg fun h => hend h.2]
        have heven : unsigned (2 * k + 1 + 1) = 2 * (k + 1) := unsigned_of_lt (by omega)
        rw [heven, ih (k + 1) (by omega)]
        congr 3
        omega

theorem eventLoopFrom_inf (hinf : par.maxTx = maxTxInf) (stream : List Nat) :
    ∀ ntx, eventLoopFrom g par ntx stream = stream.map (tsTx g par) := by
  induction stream with
  | nil => intro ntx; rfl
  | cons raw stream ih =>
      intro ntx
      unfold eventLoopFrom
      dsimp only
      rw [if_neg fun h => h.1 hinf, ih, List.map_cons]

theorem eventLoop_eq (hmax : par.maxTx < 4294967296) (stream : List Nat) :
    eventLoop g par stream =
      (stream.take (sentOf par.maxTx stream.length)).map (tsTx g par) := by
  unfold eventLoop sentOf
  by_cases hzero : par.maxTx = 0
  · have hne : ¬par.maxTx = maxTxInf := by
      rw [hzero]
      decide
    rw [if_pos hzero, if_neg hne, if_pos hzero]
    rfl
  · rw [if_neg hzero, if_neg hzero]
    by_cases hinf : par.maxTx = maxTxInf
    · rw [if_pos hinf, eventLoopFrom_inf hinf, List.take_length]
    · rw [if_neg hinf]
      exact eventLoopFrom_finite hinf hmax stream 0 (Nat.zero_le _)

/-! ### The time that is sent -/

/-- What is to be sent of a stamp. -/
structure SentRight (g : G) (par : TxParams) (ts m : TS) : Prop where
  mask : m.mask = par.txMask
  /-- The stamp `delta_ticks` later. -/
  later : par.ons = false → m.ticks < g.ticksPerSec ∧ After g ts m (ts.ticks + par.deltaTicks)
  /-- The first whole second that is not before that, or the one behind it. -/
  second : par.ons = true → m.ticks = 0 ∧
    ∃ need, IsLeast {j : Nat | (ts.ticks + par.deltaTicks : Int) ≤ (j * g.ticksPerSec : Nat)} need ∧
      (m.secs = (ts.secs + need) % 8 ∨ m.secs = (ts.secs + need + 1) % 8)

/-- The ticks that are sent are right. -/
def InTime (g : G) (par : TxParams) (ts : TS) : Prop :=
  if par.ons then
    (ts.ticks + par.deltaTicks : Int) ≤ g.ticksPerSec ∨ ticksMask ≤ ts.ticks + par.deltaTicks
  else
    (ts.ticks + par.deltaTicks : Int) ≠ g.ticksPerSec ∧
      ((ts.ticks + par.deltaTicks : Int) < g.ticksPerSec →
        (ts.ticks + par.deltaTicks : Int) ≤ ticksMask)

/-- `delta_ticks` is a number of ticks of the second. -/
structure Delta (g : G) (par : TxParams) (d : Nat) : Prop where
  eq : par.deltaTicks = d
  lt : d < g.ticksPerSec
  int : d < 2147483648

theorem Delta.of_range (hint : CInt.InRange par.deltaTicks) (h0 : 0 ≤ par.deltaTicks)
    (hlt : par.deltaTicks < g.ticksPerSec) : ∃ d, Delta g par d := by
  obtain ⟨d, hd⟩ := Int.eq_ofNat_of_zero_le h0
  unfold CInt.InRange at hint
  exact ⟨d, hd, by omega, by omega⟩

theorem Delta.delta {d : Nat} (h : Delta g par d) : par.delta = d := by
  have hint := h.int
  unfold TxParams.delta CInt.unsigned
  rw [h.eq]
  omega

theorem taiS_ofRaw (raw : Nat) : (TS.ofRaw raw).taiS = 0 := rfl

theorem plus_eq {d : Nat} (hd : d < 2147483648) (raw : Nat) :
    (TS.ofRaw raw).plus g d =
      if g.ticksPerSec < (TS.ofRaw raw).ticks + d then
        makeRaw ((TS.ofRaw raw).secs + 1) ((TS.ofRaw raw).ticks + d - g.ticksPerSec) true
      else makeRaw (TS.ofRaw raw).secs ((TS.ofRaw raw).ticks + d) true := by
  have hs := secs_le (taiS_ofRaw raw)
  have ht := (TS.ofRaw raw).ticks_lt_field
  unfold plus add
  dsimp only
  rw [unsigned_of_lt (by omega : (TS.ofRaw raw).ticks + d < 4294967296),
    unsigned_of_lt (by omega : (TS.ofRaw raw).secs + 1 + 0 < 4294967296),
    unsigned_of_lt (by omega : (TS.ofRaw raw).secs + 0 < 4294967296)]
  rfl

theorem secs_makeRaw_small {s : Nat} (hs : s ≤ 9) (k : Nat) : (makeRaw s k true).secs = s % 8 :=
  TS.secs_makeRaw (by unfold minTai; omega) k true

theorem after_seconds {ts m : TS} (hts : ¬ts.isAbsTai) {k : Nat}
    (hsecs : m.secs = (ts.secs + k) % 8) :
    After g ts m (k * g.ticksPerSec + m.ticks) := by
  unfold After
  rw [if_neg hts, hsecs]
  have hmod : (((ts.secs + k) % 8 : Nat) : Int) ≡ (ts.secs + k : Nat) [ZMOD 8] := by
    rw [Int.natCast_mod]
    exact Int.mod_modEq _ _
  have hmul := (hmod.mul_right' (c := (g.ticksPerSec : Int))).add_right (m.ticks : Int)
  rwa [Int.natCast_add, Int.add_mul, Int.add_assoc] at hmul

theorem later_iff {d : Nat} (hd : Delta g par d) (hons : par.ons = false)
    (hts : (TS.ofRaw raw).ticks < g.ticksPerSec) :
    SentRight g par (TS.ofRaw raw) (tsTx g par raw) ↔ InTime g par (TS.ofRaw raw) := by
  have hint := hd.int
  have hlt := hd.lt
  have hs := secs_le (taiS_ofRaw raw)
  have ht := (TS.ofRaw raw).ticks_lt_field
  have hrel : ¬(TS.ofRaw raw).isAbsTai := not_isAbsTai (taiS_ofRaw raw)
  have hmask : ticksMask = 268435455 := rfl
  have hright : SentRight g par (TS.ofRaw raw) (tsTx g par raw) ↔
      ((TS.ofRaw raw).plus g d).ticks < g.ticksPerSec ∧
        After g (TS.ofRaw raw) ((TS.ofRaw raw).plus g d) ((TS.ofRaw raw).ticks + d) := by
    have htx : tsTx g par raw = { (TS.ofRaw raw).plus g d with mask := par.txMask } := by
      unfold tsTx
      dsimp only
      rw [hons, hd.delta]
      rfl
    rw [htx]
    constructor
    · intro h
      have := h.later hons
      rw [hd.eq] at this
      exact this
    · intro h
      refine ⟨rfl, fun _ => ?_, fun hon => absurd hon (by rw [hons]; decide)⟩
      rw [hd.eq]
      exact h
  have hintime : InTime g par (TS.ofRaw raw) ↔ (TS.ofRaw raw).ticks + d ≠ g.ticksPerSec ∧
      ((TS.ofRaw raw).ticks + d < g.ticksPerSec → (TS.ofRaw raw).ticks + d < 268435456) := by
    unfold InTime
    rw [hons, if_neg Bool.false_ne_true, hd.eq, hmask]
    omega
  rw [hright, hintime, plus_eq hint]
  generalize (TS.ofRaw raw) = ts at *
  by_cases hcarry : g.ticksPerSec < ts.ticks + d
  · rw [if_pos hcarry]
    refine iff_of_true ?_ (by omega)
    have hsecs := secs_makeRaw_small (by omega : ts.secs + 1 ≤ 9) (ts.ticks + d - g.ticksPerSec)
    have hticks := ticks_makeRaw (ts.secs + 1) (ts.ticks + d - g.ticksPerSec) true
    rw [Nat.mod_eq_of_lt (by omega)] at hticks
    have hafter := after_seconds (g := g) hrel hsecs
    rw [hticks] at hafter ⊢
    refine ⟨by omega, ?_⟩
    have : ((1 : Nat) * g.ticksPerSec + (ts.ticks + d - g.ticksPerSec : Nat) : Int) =
        ts.ticks + d := by omega
    rwa [this] at hafter
  · rw [if_neg hcarry]
    have hsecs : (makeRaw ts.secs (ts.ticks + d) true).secs = ts.secs := by
      rw [secs_makeRaw_small (by omega), Nat.mod_eq_of_lt (by omega)]
    rw [after_iff hsecs, ticks_makeRaw]
    by_cases hfits : ts.ticks + d < 268435456
    · rw [Nat.mod_eq_of_lt hfits]
      omega
    · refine iff_of_false ?_ (by omega)
      rintro ⟨-, heq | ⟨-, hdvd⟩⟩
      · omega
      · have := Int.le_of_dvd (by omega) hdvd
        omega

theorem need_isLeast {x n tps : Nat} (hle : x ≤ n * tps) (hlow : ∀ j, j < n → j * tps < x) :
    IsLeast {j : Nat | (x : Int) ≤ (j * tps : Nat)} n := by
  refine ⟨Int.ofNat_le.mpr hle, ?_⟩
  intro j hj
  by_contra hlt
  have hless := hlow j (by omega)
  have hge : x ≤ j * tps := Int.ofNat_le.mp hj
  omega

theorem second_iff {d : Nat} (hd : Delta g par d) (hons : par.ons = true)
    (hts : (TS.ofRaw raw).ticks < g.ticksPerSec) :
    SentRight g par (TS.ofRaw raw) (tsTx g par raw) ↔ InTime g par (TS.ofRaw raw) := by
  have hint := hd.int
  have hlt := hd.lt
  have hs := secs_le (taiS_ofRaw raw)
  have ht := (TS.ofRaw raw).ticks_lt_field
  have hmask : ticksMask = 268435455 := rfl
  have htx : tsTx g par raw =
      { makeRaw ((TS.ofRaw raw).secs + if ticksMask ≤ (TS.ofRaw raw).ticks + d then 2 else 1) 0 true
        with mask := par.txMask } := by
    unfold tsTx TS.nextSecond
    dsimp only
    rw [hons, if_pos rfl, hd.delta,
      unsigned_of_lt (by omega : (TS.ofRaw raw).ticks + d < 4294967296)]
    rw [unsigned_of_lt (by split <;> omega)]
  have hintime : InTime g par (TS.ofRaw raw) ↔ (TS.ofRaw raw).ticks + d ≤ g.ticksPerSec ∨
      ticksMask ≤ (TS.ofRaw raw).ticks + d := by
    unfold InTime
    rw [hons, if_pos rfl, hd.eq]
    omega
  have hright : ∀ k, k ≤ 2 →
      (SentRight g par (TS.ofRaw raw) { makeRaw ((TS.ofRaw raw).secs + k) 0 true
          with mask := par.txMask } ↔
        ∃ need, IsLeast {j : Nat | (((TS.ofRaw raw).ticks + d : Nat) : Int) ≤
            (j * g.ticksPerSec : Nat)} need ∧
          (((TS.ofRaw raw).secs + k) % 8 = ((TS.ofRaw raw).secs + need) % 8 ∨
            ((TS.ofRaw raw).secs + k) % 8 = ((TS.ofRaw raw).secs + need + 1) % 8)) := by
    intro k hk
    have hsecs := secs_makeRaw_small (by omega : (TS.ofRaw raw).secs + k ≤ 9) 0
    constructor
    · intro h
      obtain ⟨-, need, hneed, hsec⟩ := h.second hons
      rw [hd.eq] at hneed
      rw [WrtdCaster.secs_mask, hsecs] at hsec
      exact ⟨need, hneed, hsec⟩
    · rintro ⟨need, hneed, hsec⟩
      refine ⟨rfl, fun hoff => absurd hoff (by rw [hons]; decide), fun _ => ⟨?_, need, ?_, ?_⟩⟩
      · rw [WrtdCaster.ticks_mask, ticks_makeRaw, Nat.zero_mod]
      · rw [hd.eq]
        exact hneed
      · rw [WrtdCaster.secs_mask, hsecs]
        exact hsec
  rw [htx, hintime]
  generalize (TS.ofRaw raw) = ts at *
  by_cases hlate : ticksMask ≤ ts.ticks + d
  · rw [if_pos hlate, hright 2 (Nat.le_refl 2)]
    refine iff_of_true ?_ (Or.inr hlate)
    by_cases hone : ts.ticks + d ≤ g.ticksPerSec
    · refine ⟨1, need_isLeast (by omega) ?_, Or.inr rfl⟩
      intro j hj
      obtain rfl : j = 0 := by omega
      omega
    · refine ⟨2, need_isLeast (by omega) ?_, Or.inl rfl⟩
      intro j hj
      have : j * g.ticksPerSec ≤ 1 * g.ticksPerSec := Nat.mul_le_mul_right _ (by omega)
      omega
  · rw [if_neg hlate, hright 1 (by decide), or_iff_left hlate]
    constructor
    · rintro ⟨need, hneed, hsec⟩
      have htwo : need ≤ 2 := hneed.2 (Int.ofNat_le.mpr (by omega))
      have hle : ts.ticks + d ≤ need * g.ticksPerSec := Int.ofNat_le.mp hneed.1
      have hsmall : need ≤ 1 := by omega
      have := Nat.mul_le_mul_right g.ticksPerSec hsmall
      omega
    · intro hone
      by_cases hzero : ts.ticks + d = 0
      · refine ⟨0, need_isLeast (by omega) ?_, Or.inr rfl⟩
        intro j hj
        exact absurd hj (Nat.not_lt_zero j)
      · refine ⟨1, need_isLeast (by omega) ?_, Or.inl rfl⟩
        intro j hj
        obtain rfl : j = 0 := by omega
        omega

theorem sentRight_iff {d : Nat} (hd : Delta g par d) (hts : (TS.ofRaw raw).ticks < g.ticksPerSec) :
    SentRight g par (TS.ofRaw raw) (tsTx g par raw) ↔ InTime g par (TS.ofRaw raw) := by
  cases hons : par.ons with
  | false => exact later_iff hd hons hts
  | true => exact second_iff hd hons hts

/-! ### The stream -/

/-- How many stamps are to be sent. -/
def expected (maxTx : Nat) (n : Nat) : Nat := if maxTx = maxTxInf then n else min maxTx n

/-- All of those are sent: at most two, or so few that the stream ends before the count does. -/
def Counted (maxTx : Nat) (n : Nat) : Prop := maxTx = maxTxInf ∨ maxTx ≤ 2 ∨ n ≤ maxTx / 2 + 1

theorem length_take_eq_iff (maxTx : Nat) (stream : List Nat) :
    (stream.take (expected maxTx stream.length)).length =
        (stream.take (sentOf maxTx stream.length)).length ↔ Counted maxTx stream.length := by
  unfold expected sentOf Counted
  rw [List.length_take, List.length_take]
  by_cases hinf : maxTx = maxTxInf
  · rw [if_pos hinf, if_pos hinf]
    exact iff_of_true rfl (Or.inl hinf)
  · rw [if_neg hinf, if_neg hinf, or_iff_right hinf]
    by_cases hzero : maxTx = 0
    · rw [if_pos hzero]
      omega
    · rw [if_neg hzero]
      omega

/--
**The transmitter sends just what it is to, in order, where it counts to two at most or the stream
is at an end before, and every stamp that it is to send comes out in time.**
-/
theorem eventLoop_right_iff (g : G) (par : TxParams) (stream : List Nat)
    (hmax : par.maxTx < 4294967296) (hint : CInt.InRange par.deltaTicks)
    (h0 : 0 ≤ par.deltaTicks) (hdelta : par.deltaTicks < g.ticksPerSec)
    (hstream : ∀ raw ∈ stream, (TS.ofRaw raw).ticks < g.ticksPerSec) :
    List.Forall₂ (fun raw m => SentRight g par (TS.ofRaw raw) m)
        (stream.take (expected par.maxTx stream.length)) (eventLoop g par stream) ↔
      Counted par.maxTx stream.length ∧
        ∀ raw ∈ stream.take (expected par.maxTx stream.length), InTime g par (TS.ofRaw raw) := by
  obtain ⟨d, hd⟩ := Delta.of_range hint h0 hdelta
  rw [eventLoop_eq hmax]
  have hsame : ∀ raw ∈ stream.take (expected par.maxTx stream.length),
      (SentRight g par (TS.ofRaw raw) (tsTx g par raw) ↔ InTime g par (TS.ofRaw raw)) :=
    fun raw hraw => sentRight_iff hd (hstream raw (List.mem_of_mem_take hraw))
  have heq : Counted par.maxTx stream.length →
      stream.take (sentOf par.maxTx stream.length) =
        stream.take (expected par.maxTx stream.length) := by
    intro hcounted
    have hlength := (length_take_eq_iff par.maxTx stream).mpr hcounted
    rw [List.length_take, List.length_take] at hlength
    exact List.take_eq_take_iff.mpr hlength.symm
  constructor
  · intro h
    have hlength := h.length_eq
    rw [List.length_map] at hlength
    have hcounted := (length_take_eq_iff par.maxTx stream).mp hlength
    rw [heq hcounted, List.forall₂_map_right_iff, List.forall₂_same] at h
    exact ⟨hcounted, fun raw hraw => (hsame raw hraw).mp (h raw hraw)⟩
  · rintro ⟨hcounted, hall⟩
    rw [heq hcounted, List.forall₂_map_right_iff, List.forall₂_same]
    exact fun raw hraw => (hsame raw hraw).mpr (hall raw hraw)

/-- A million ticks after the stamp, and at most two to send. -/
def sendTwo : TxParams := { ons := false, deltaTicks := 1000000, txMask := 3, maxTx := 2 }

theorem eventLoop_right_two :
    (sendTwo.maxTx < 4294967296 ∧ CInt.InRange sendTwo.deltaTicks ∧ 0 ≤ sendTwo.deltaTicks ∧
        sendTwo.deltaTicks < g80.ticksPerSec ∧
        ∀ raw ∈ [0x10000000, 0x20000001, 0x30000002], (TS.ofRaw raw).ticks < g80.ticksPerSec) ∧
      (List.Forall₂ (fun raw m => SentRight g80 sendTwo (TS.ofRaw raw) m)
          ([0x10000000, 0x20000001, 0x30000002].take (expected sendTwo.maxTx 3))
          (eventLoop g80 sendTwo [0x10000000, 0x20000001, 0x30000002]) ↔
        Counted sendTwo.maxTx 3 ∧
          ∀ raw ∈ [0x10000000, 0x20000001, 0x30000002].take (expected sendTwo.maxTx 3),
            InTime g80 sendTwo (TS.ofRaw raw)) :=
  ⟨⟨by decide, by decide, by decide, by decide, by decide⟩,
    eventLoop_right_iff g80 sendTwo [0x10000000, 0x20000001, 0x30000002] (by decide) (by decide)
      (by decide) (by decide) (by decide)⟩

/-- Of three stamps that are to be sent, two are. -/
theorem three_not_sent :
    ¬List.Forall₂ (fun raw m => SentRight g80 { sendTwo with maxTx := 3 } (TS.ofRaw raw) m)
      ([0x10000000, 0x20000001, 0x30000002].take (expected 3 3))
      (eventLoop g80 { sendTwo with maxTx := 3 } [0x10000000, 0x20000001, 0x30000002]) := by
  intro h
  exact absurd h.length_eq (by decide)

end Acq400.Wrtd.Transmitter
