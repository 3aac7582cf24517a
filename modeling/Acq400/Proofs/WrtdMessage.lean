/-
What a trigger message carries.

The second and the mask go as they are.  The ticks go as whole nanoseconds: the sender
drops the fraction, and the receiver, dividing, drops another one.  If the first had
anything to drop, the quotient is below the ticks that were sent, and the receiver is a
tick early.
-/
import Acq400.Proofs.WrtdTS
import Acq400.Wrtd.Message
import Acq400.Wrtd.TS
import Mathlib.Data.Int.ModEq
import Mathlib.Order.Bounds.Basic

namespace Acq400.Wrtd

open CDouble TS

/-! ### Ticks to nanoseconds and back -/

section Ticks

variable {p : ℚ} {k : Nat}

/-- `k` ticks of `p` ns, in whole nanoseconds. -/
def wholeNs (p : ℚ) (k : Nat) : Nat := ⌊(k : ℚ) * p⌋.toNat

theorem wholeNs_cast (hp : 0 < p) : ((wholeNs p k : Nat) : ℚ) = ⌊(k : ℚ) * p⌋ := by
  have h0 : 0 ≤ ⌊(k : ℚ) * p⌋ := Int.floor_nonneg.mpr (by positivity)
  rw [wholeNs, ← Int.cast_natCast, Int.toNat_of_nonneg h0]

theorem wholeNs_le (hp : 0 < p) : ((wholeNs p k : Nat) : ℚ) ≤ k * p := by
  rw [wholeNs_cast hp]
  exact Int.floor_le _

/-- The quotient is not above the ticks, so it is a value of type `unsigned` too. -/
theorem wholeNs_div_le (hp : 0 < p) : ((wholeNs p k : Nat) : ℚ) / p ≤ k := by
  rw [div_le_iff₀ hp]
  exact wholeNs_le hp

/-- Dividing gives the ticks back exactly when they are a whole number of nanoseconds. -/
theorem floor_wholeNs_div_iff (hp : 0 < p) :
    ⌊((wholeNs p k : Nat) : ℚ) / p⌋ = k ↔ ∃ ns : Nat, (k : ℚ) * p = ns := by
  constructor
  · intro h
    have hle : (k : ℚ) ≤ (wholeNs p k : Nat) / p := by
      have := Int.floor_le (((wholeNs p k : Nat) : ℚ) / p)
      rw [h] at this
      exact_mod_cast this
    rw [le_div_iff₀ hp] at hle
    exact ⟨wholeNs p k, le_antisymm hle (wholeNs_le hp)⟩
  · rintro ⟨ns, hns⟩
    have hwhole : wholeNs p k = ns := by rw [wholeNs, hns, Int.floor_natCast, Int.toNat_natCast]
    rw [hwhole, ← hns, mul_div_cancel_right₀ _ hp.ne', Int.floor_natCast]

end Ticks

/-! ### The message -/

/-- A tick of `p` ns, of which `ticks_per_sec` whole ones make a second. -/
structure Shared (g : G) (p : ℚ) : Prop where
  pos : 0 < p
  nsPerTick : g.nsPerTick = p
  ticksPerSec : toUnsigned (nsps / p) = some g.ticksPerSec

/-- A relative stamp, or an absolute one, whose ticks are within the second. -/
structure Sendable (g : G) (ts : TS) : Prop where
  second : ts.taiS = 0 ∨ minTai < ts.taiS
  ticks_lt : ts.ticks < g.ticksPerSec

namespace WrtdCaster

variable {g : G} {p : ℚ}

theorem ticks_mul_lt (hs : Shared g p) {ts : TS} (h : ts.ticks < g.ticksPerSec) :
    (ts.ticks : ℚ) * p < nsps := by
  have hpos := hs.pos
  have hper : (g.ticksPerSec : ℚ) ≤ nsps / p := le_of_toUnsigned (by positivity) hs.ticksPerSec
  rw [le_div_iff₀ hpos] at hper
  have hticks : (ts.ticks : ℚ) < g.ticksPerSec := by exact_mod_cast h
  exact lt_of_lt_of_le (mul_lt_mul_of_pos_right hticks hpos) hper

theorem nsec_eq (hs : Shared g p) {ts : TS} (h : ts.ticks < g.ticksPerSec) :
    ts.nsec g = some (wholeNs p ts.ticks) := by
  have hpos := hs.pos
  have hlt : (ts.ticks : ℚ) * p < 4294967296 :=
    lt_trans (ticks_mul_lt hs h) (by norm_num [nsps])
  rw [nsec, hs.nsPerTick, toUnsigned_of_lt (by positivity) hlt, wholeNs]

theorem wholeNs_ne_quick (hs : Shared g p) {ts : TS} (h : ts.ticks < g.ticksPerSec) :
    wholeNs p ts.ticks ≠ tsQuick := by
  have hlt : ((wholeNs p ts.ticks : Nat) : ℚ) < nsps :=
    lt_of_le_of_lt (wholeNs_le hs.pos) (ticks_mul_lt hs h)
  have hnsps : wholeNs p ts.ticks < nsps := by exact_mod_cast hlt
  exact Nat.ne_of_lt (Nat.lt_trans hnsps (by decide))

/-- The second is made of the message's second as the sender's was. -/
theorem secs_makeRaw_secs {ts : TS} (h : ts.taiS = 0 ∨ minTai < ts.taiS) (k : Nat) (en : Bool) :
    (makeRaw ts.secs k en).secs = ts.secs := by
  rcases h with hrel | habs
  · have hle := secs_le hrel
    rw [secs_makeRaw (by unfold minTai; omega)]
    omega
  · have hsecs : ts.secs = ts.taiS := if_pos (Nat.ne_of_gt (Nat.zero_lt_of_lt habs))
    exact secs_makeRaw_absolute (by rw [hsecs]; exact habs) k en

@[simp] theorem secs_mask (ts : TS) (m : UInt8) : ({ ts with mask := m } : TS).secs = ts.secs := rfl

@[simp] theorem ticks_mask (ts : TS) (m : UInt8) :
    ({ ts with mask := m } : TS).ticks = ts.ticks := rfl

theorem sendto_msg (hs : Shared g p) (tx : WrtdCaster) {ts : TS} (h : ts.ticks < g.ticksPerSec) :
    ∃ tx', tx.sendto g ts = some tx' ∧ tx'.msg.tsSec = ts.secs ∧
      tx'.msg.tsNs = wholeNs p ts.ticks ∧ tx'.msg.eventId[imask] = ts.mask := by
  rw [sendto, nsec_eq hs h, Option.map_some]
  refine ⟨_, rfl, rfl, rfl, ?_⟩
  simp [sendcommon]

theorem stamp_time {m : WrtdMessage} {k : Nat} (hquick : m.tsNs ≠ tsQuick)
    (hk : toUnsigned (m.tsNs / g.nsPerTick) = some k) :
    stamp g m = some { makeRaw m.tsSec k true with mask := m.eventId.get imask } := by
  rw [stamp, if_neg hquick, hk, Option.map_some]
  rfl

theorem stamp_sendto (hs : Shared g p) (tx : WrtdCaster) {ts : TS} (hts : Sendable g ts) :
    ∃ tx', tx.sendto g ts = some tx' ∧ tx'.msg.tsNs ≠ tsQuick ∧
      ∃ r, stamp g tx'.msg = some r ∧ r.secs = ts.secs ∧ r.mask = ts.mask ∧
        (r.ticks = ts.ticks ↔ ∃ ns : Nat, (ts.ticks : ℚ) * p = ns) := by
  have hpos := hs.pos
  obtain ⟨tx', hsend, hsec, hns, hmask⟩ := sendto_msg hs tx hts.ticks_lt
  have hquick : tx'.msg.tsNs ≠ tsQuick := by
    rw [hns]
    exact wholeNs_ne_quick hs hts.ticks_lt
  have hticks : ts.ticks ≤ 268435455 := ts.ticks_le
  have hq0 : (0 : ℚ) ≤ (wholeNs p ts.ticks : Nat) / p := by positivity
  have hqle := wholeNs_div_le (k := ts.ticks) hpos
  have hqlt : ((wholeNs p ts.ticks : Nat) : ℚ) / p < 4294967296 := by
    have hlt : ts.ticks < 4294967296 := by omega
    exact lt_of_le_of_lt hqle (by exact_mod_cast hlt)
  have hk := toUnsigned_of_lt hq0 hqlt
  rw [← hns, ← hs.nsPerTick] at hk
  have hfloor0 := Int.floor_nonneg.mpr hq0
  have hfloorle : ⌊((wholeNs p ts.ticks : Nat) : ℚ) / p⌋ ≤ ts.ticks := by
    have := Int.floor_le_floor hqle
    rwa [Int.floor_natCast] at this
  refine ⟨tx', hsend, hquick, _, stamp_time hquick hk, ?_, hmask, ?_⟩
  · rw [secs_mask, hsec]
    exact secs_makeRaw_secs hts.second _ _
  · rw [ticks_mask, ticks_makeRaw, ← floor_wholeNs_div_iff hpos, hns, hs.nsPerTick]
    omega

theorem recvfrom_append (rx : WrtdCaster) (before rest : List WrtdMessage)
    (hbefore : ∀ m ∈ before, rx.isForUs m = false) (m : WrtdMessage) (hm : rx.isForUs m = true) :
    rx.recvfrom g ((before ++ m :: rest).map some) =
      (stamp g m).map fun ts => (ts, { rx with msg := m }, rest.map some) := by
  induction before generalizing rx with
  | nil =>
      show recvfrom g rx (some m :: rest.map some) = _
      simp only [recvfrom, if_pos hm]
  | cons b before ih =>
      have hb : rx.isForUs b = false := hbefore b List.mem_cons_self
      show recvfrom g rx (some b :: (before ++ m :: rest).map some) = _
      simp only [recvfrom, hb, Bool.false_eq_true, if_false]
      exact ih { rx with msg := b } (fun m hm => hbefore m (List.mem_cons_of_mem b hm)) hm

/--
**A stamp that is sent and received: whatever else came before it and comes after, the receiver
has the sender's second and mask and a time, and it has the sender's ticks exactly when these are
a whole number of nanoseconds.**
-/
theorem recvfrom_sendto_iff (hs : Shared g p) (tx rx : WrtdCaster) (ts : TS)
    (hts : Sendable g ts) :
    ∃ tx', tx.sendto g ts = some tx' ∧ tx'.msg.tsNs ≠ tsQuick ∧
      (rx.isForUs tx'.msg = true → ∀ before rest : List WrtdMessage,
        (∀ m ∈ before, rx.isForUs m = false) →
        ((∃ r rx', rx.recvfrom g ((before ++ tx'.msg :: rest).map some) =
            some (r, rx', rest.map some) ∧
          r.secs = ts.secs ∧ r.ticks = ts.ticks ∧ r.mask = ts.mask) ↔
        ∃ ns : Nat, (ts.ticks : ℚ) * p = ns)) := by
  obtain ⟨tx', hsend, hquick, r, hr, hsecs, hmask, hticks⟩ := stamp_sendto hs tx hts
  refine ⟨tx', hsend, hquick, fun hfor before rest hbefore => ?_⟩
  rw [recvfrom_append rx before rest hbefore _ hfor, hr, Option.map_some, ← hticks]
  constructor
  · rintro ⟨r', rx', h, -, htick, -⟩
    obtain ⟨rfl, -⟩ := Prod.mk.inj (Option.some.inj h)
    exact htick
  · intro h
    exact ⟨r, _, rfl, hsecs, h, hmask⟩

/-- A caster with the id "acq2106_001". -/
def acq2106 : WrtdCaster where
  seq := 0
  isForUs := acq2106DefaultMessageFilter
  msg :=
    { hwDetect := #v[0, 0, 0]
      eventId := #v[0x61, 0x63, 0x71, 0x32, 0x31, 0x30, 0x36, 0x5f, 0x30, 0x30, 0x31, 0, 0, 0, 0, 0]
      seq := 0, tsSec := 0, tsNs := 0 }

theorem shared_g50 : Shared g50 50 := ⟨by norm_num, rfl, by decide +kernel⟩

theorem recvfrom_sendto_g50 :
    ∃ tx', acq2106.sendto g50 (makeRaw 100 19999999 true) = some tx' ∧ tx'.msg.tsNs ≠ tsQuick ∧
      ∃ r rx', acq2106.recvfrom g50 [some tx'.msg] = some (r, rx', []) ∧ r.secs = 100 ∧
        r.ticks = 19999999 ∧ r.mask = 0 := by
  obtain ⟨tx', hsend, hquick, h⟩ := recvfrom_sendto_iff shared_g50 acq2106 acq2106
    (makeRaw 100 19999999 true) ⟨by decide, by decide⟩
  have hfor : acq2106.isForUs tx'.msg = true := by
    have hall : (acq2106.sendto g50 (makeRaw 100 19999999 true)).all
        (fun tx' => acq2106.isForUs tx'.msg) = true := by decide +kernel
    rwa [hsend] at hall
  have hticks : (makeRaw 100 19999999 true).ticks = 19999999 := by decide
  refine ⟨tx', hsend, hquick, ?_⟩
  refine (h hfor [] [] (fun m hm => absurd hm List.not_mem_nil)).mpr ⟨999999950, ?_⟩
  rw [hticks]
  norm_num

/-- With ticks of 12.5 ns the first tick of a second is sent as 12 ns, and 12 ns are no
whole tick. -/
theorem recvfrom_sendto_fails :
    Shared { ticksPerSec := 80000000, nsPerTick := 25 / 2 } (25 / 2) ∧
    Sendable { ticksPerSec := 80000000, nsPerTick := 25 / 2 } (makeRaw 3 1 true) ∧
    (makeRaw 3 1 true).ticks = 1 ∧
    ((acq2106.sendto { ticksPerSec := 80000000, nsPerTick := 25 / 2 } (makeRaw 3 1 true)).bind
      fun tx' => (acq2106.recvfrom { ticksPerSec := 80000000, nsPerTick := 25 / 2 }
        [some tx'.msg]).map fun r => (r.1.secs, r.1.ticks)) = some (3, 0) := by
  refine ⟨⟨by norm_num, rfl, by decide +kernel⟩, ⟨by decide, by decide⟩, by decide, ?_⟩
  decide +kernel

end WrtdCaster

end Acq400.Wrtd

/-! ### Alignment

Where the alignment of a trigger is right.

The tick is rounded up to a multiple of the divider, and the offset is taken from it.  The second
stays as it is.  So the stamp is right where the result stays in the second; it does not where the
multiple is in the next one, or where it is tick 0 and there is an offset: the multiple is not
less than the divider otherwise, and so greater than the offset.  On the circle of eight seconds
whole turns make no difference, which is all there is of exceptions.
-/

namespace Acq400.Wrtd.TS

variable {g : G} {clk : LocalClk} {ts adj : TS}

/-- `adj` is `x` ticks after the start of the second of `ts`.  Relative stamps are on the circle
of eight seconds. -/
def After (g : G) (ts adj : TS) (x : Int) : Prop :=
  if ts.isAbsTai then
    (adj.secs * g.ticksPerSec + adj.ticks : Int) = ts.secs * g.ticksPerSec + x
  else
    (adj.secs * g.ticksPerSec + adj.ticks : Int) ≡ ts.secs * g.ticksPerSec + x
      [ZMOD 8 * g.ticksPerSec]

/-- What the alignment is to be. -/
structure AdjustRight (g : G) (clk : LocalClk) (ts adj : TS) : Prop where
  ticks_lt : adj.ticks < g.ticksPerSec
  /-- The offset later is the first multiple of the divider that is not before `ts`. -/
  earliest : ∃ m, IsLeast {k : Nat | ts.ticks ≤ k ∧ clk.clkdiv ∣ k} m ∧
    After g ts adj (m - clk.clkoffset)

/-- The multiple of `d` that `t` is rounded up to. -/
def roundUp (t d : Nat) : Nat := if t % d ≠ 0 then t + (d - t % d) else t

theorem roundUp_isLeast {t d : Nat} (hd : 0 < d) :
    IsLeast {k : Nat | t ≤ k ∧ d ∣ k} (roundUp t d) := by
  have hmod := Nat.mod_lt t hd
  have hdiv := Nat.div_add_mod t d
  unfold roundUp
  by_cases hrem : t % d ≠ 0
  · rw [if_pos hrem]
    have hnext : t + (d - t % d) = d * (t / d + 1) := by
      rw [Nat.mul_succ]
      omega
    refine ⟨⟨by omega, ⟨_, hnext⟩⟩, ?_⟩
    rintro k ⟨hk, q, rfl⟩
    have hlt : t / d < q := by
      by_contra hle
      have hmul : d * q ≤ d * (t / d) := Nat.mul_le_mul_left d (by omega)
      omega
    rw [hnext]
    exact Nat.mul_le_mul_left d hlt
  · rw [if_neg hrem]
    exact ⟨⟨Nat.le_refl t, Nat.dvd_of_mod_eq_zero (not_not.mp hrem)⟩, fun k hk => hk.1⟩

/-- Only tick 0 is rounded to less than the divider. -/
theorem le_roundUp {t d : Nat} (ht : t ≠ 0) (hd : 0 < d) : d ≤ roundUp t d := by
  have hleast := (roundUp_isLeast (t := t) hd).1
  obtain ⟨hle, hdvd⟩ := hleast
  exact Nat.le_of_dvd (by omega) hdvd

theorem roundUp_zero (d : Nat) : roundUp 0 d = 0 := by
  unfold roundUp
  rw [Nat.zero_mod, if_neg (not_not_intro rfl)]

theorem roundUp_lt {t d : Nat} (ht : t < 268435456) (hd : 0 < d) (hd32 : d < 4294967296) :
    roundUp t d < 4294967296 := by
  have hmod := Nat.mod_lt t hd
  unfold roundUp
  by_cases hrem : t % d ≠ 0
  · rw [if_pos hrem]
    by_cases hlarge : t < d
    · rw [Nat.mod_eq_of_lt hlarge]
      omega
    · omega
  · rw [if_neg hrem]
    omega

theorem ticks_lt_field (t : TS) : t.ticks < 268435456 := by
  have hle := t.ticks_le
  unfold ticksMask at hle
  omega

theorem _adjustTs_eq (hdiv : 0 < clk.clkdiv) (hdiv32 : clk.clkdiv < 4294967296) (ts : TS) :
    ts._adjustTs clk = makeRaw ts.secs
      (if clk.clkoffset < roundUp ts.ticks clk.clkdiv then
        roundUp ts.ticks clk.clkdiv - clk.clkoffset
      else roundUp ts.ticks clk.clkdiv) true := by
  have hlt := roundUp_lt ts.ticks_lt_field hdiv hdiv32
  have hmod := Nat.mod_lt ts.ticks hdiv
  have hround : (if ts.ticks % clk.clkdiv ≠ 0 then
      unsigned (ts.ticks + unsignedSub clk.clkdiv (ts.ticks % clk.clkdiv)) else ts.ticks) =
      roundUp ts.ticks clk.clkdiv := by
    unfold roundUp at hlt ⊢
    by_cases hrem : ts.ticks % clk.clkdiv ≠ 0
    · rw [if_pos hrem] at hlt ⊢
      rw [if_pos hrem, unsignedSub_of_le (Nat.le_of_lt hmod) hdiv32, unsigned_of_lt hlt]
    · rw [if_neg hrem, if_neg hrem]
  unfold TS._adjustTs
  dsimp only
  rw [hround]
  congr 1
  by_cases hoff : clk.clkoffset < roundUp ts.ticks clk.clkdiv
  · rw [if_pos hoff, if_pos hoff, unsignedSub_of_le (Nat.le_of_lt hoff) hlt]
  · rw [if_neg hoff, if_neg hoff]

theorem after_iff (hsecs : adj.secs = ts.secs) (x : Int) :
    After g ts adj x ↔
      x = adj.ticks ∨ (¬ts.isAbsTai ∧ (8 * g.ticksPerSec : Int) ∣ x - adj.ticks) := by
  unfold After
  rw [hsecs]
  by_cases habs : ts.isAbsTai
  · rw [if_pos habs]
    constructor
    · intro h
      exact Or.inl (by omega)
    · rintro (h | ⟨hnot, -⟩)
      · omega
      · exact absurd habs hnot
  · rw [if_neg habs, Int.modEq_iff_dvd, add_sub_add_left_eq_sub]
    constructor
    · intro h
      exact Or.inr ⟨habs, h⟩
    · rintro (h | ⟨-, h⟩)
      · rw [h, Int.sub_self]
        exact Int.dvd_zero _
      · exact h

/-- The result stays in the second: tick 0 needs no offset, and any other tick a multiple that is,
with the offset taken off, a tick of the second that fits its field.  Otherwise a relative stamp
is right only by whole turns of eight seconds. -/
def Aligned (g : G) (clk : LocalClk) (ts : TS) : Prop :=
  if ts.ticks = 0 then
    clk.clkoffset = 0 ∨ (¬ts.isAbsTai ∧ 8 * g.ticksPerSec ∣ clk.clkoffset)
  else
    (roundUp ts.ticks clk.clkdiv - clk.clkoffset) % 268435456 < g.ticksPerSec ∧
      (roundUp ts.ticks clk.clkdiv - clk.clkoffset < 268435456 ∨
        (¬ts.isAbsTai ∧ 8 * g.ticksPerSec ∣
          (roundUp ts.ticks clk.clkdiv - clk.clkoffset) / 268435456 * 268435456))

/-- What `earliest` asks, once the multiple is known. -/
theorem adjustRight_iff (hdiv : 0 < clk.clkdiv) :
    AdjustRight g clk ts adj ↔ adj.ticks < g.ticksPerSec ∧
      After g ts adj (roundUp ts.ticks clk.clkdiv - clk.clkoffset) := by
  have hleast := roundUp_isLeast (t := ts.ticks) hdiv
  constructor
  · rintro ⟨hlt, m, hm, hafter⟩
    rw [hm.unique hleast] at hafter
    exact ⟨hlt, hafter⟩
  · rintro ⟨hlt, hafter⟩
    exact ⟨hlt, _, hleast, hafter⟩

/--
**The alignment is right just where its result stays in the second.**
-/
theorem adjustTs_right_iff (g : G) (clk : LocalClk) (ts : TS) (hts : Sendable g ts)
    (hdiv : 1 ≤ clk.clkdiv) (hdiv32 : clk.clkdiv < 4294967296)
    (hoff : clk.clkoffset < clk.clkdiv) :
    AdjustRight g clk ts (ts._adjustTs clk) ↔ Aligned g clk ts := by
  rw [adjustRight_iff hdiv, _adjustTs_eq hdiv hdiv32]
  have htick := hts.ticks_lt
  by_cases hzero : ts.ticks = 0
  · -- the multiple is tick 0, and the offset is not taken off
    have hnot : ¬clk.clkoffset < 0 := Nat.not_lt_zero _
    unfold Aligned
    rw [if_pos hzero, hzero, roundUp_zero, if_neg hnot,
      after_iff (WrtdCaster.secs_makeRaw_secs hts.second _ _), ticks_makeRaw, Nat.zero_mod]
    have hpos : 0 < g.ticksPerSec := by omega
    rw [and_iff_right hpos]
    refine or_congr ⟨fun h => by omega, fun h => by omega⟩ (and_congr_right fun _ => ?_)
    have hdiff : ((0 : Nat) - clk.clkoffset - (0 : Nat) : Int) = -(clk.clkoffset : Int) := by omega
    rw [hdiff, Int.dvd_neg]
    exact_mod_cast Iff.rfl
  · have hround := le_roundUp hzero hdiv
    have hlt : clk.clkoffset < roundUp ts.ticks clk.clkdiv := by omega
    unfold Aligned
    rw [if_neg hzero, if_pos hlt, after_iff (WrtdCaster.secs_makeRaw_secs hts.second _ _),
      ticks_makeRaw]
    generalize hx : roundUp ts.ticks clk.clkdiv - clk.clkoffset = x
    have hsub : (roundUp ts.ticks clk.clkdiv - clk.clkoffset : Int) = x := by omega
    rw [hsub]
    refine and_congr_right fun _ => or_congr ⟨fun h => by omega, fun h => by omega⟩ ?_
    refine and_congr_right fun _ => ?_
    have hturns : (x - (x % 268435456 : Nat) : Int) = (x / 268435456 * 268435456 : Nat) := by omega
    rw [hturns]
    exact_mod_cast Iff.rfl

/-- 80 MHz, and a local clock of a hundredth of that with an offset of two ticks. -/
def g80 : G := { ticksPerSec := 80000000, nsPerTick := 25 / 2 }

def clk100 : LocalClk := { clkdiv := 100, clkoffset := 2 }

theorem adjustTs_right_g80 :
    (Sendable g80 (makeRaw 3 12345 true) ∧ 1 ≤ clk100.clkdiv ∧ clk100.clkdiv < 4294967296 ∧
        clk100.clkoffset < clk100.clkdiv) ∧
      (AdjustRight g80 clk100 (makeRaw 3 12345 true)
          ((makeRaw 3 12345 true)._adjustTs clk100) ↔
        Aligned g80 clk100 (makeRaw 3 12345 true)) :=
  ⟨⟨⟨by decide, by decide⟩, by decide, by decide, by decide⟩,
    adjustTs_right_iff g80 clk100 (makeRaw 3 12345 true) ⟨by decide, by decide⟩ (by decide)
      (by decide) (by decide)⟩

/-- Of a divider that does not divide the second, the multiple after the last tick is in the next
second: tick 80000007 never comes. -/
theorem last_tick_not_right :
    ¬AdjustRight g80 { clkdiv := 9, clkoffset := 0 } (makeRaw 3 79999999 true)
      ((makeRaw 3 79999999 true)._adjustTs { clkdiv := 9, clkoffset := 0 }) := by
  intro h
  exact absurd h.ticks_lt (by decide)

end Acq400.Wrtd.TS
