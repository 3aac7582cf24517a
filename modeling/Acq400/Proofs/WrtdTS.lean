/-
The arithmetic of trigger time stamps.

A relative stamp is a point of a circle of eight seconds, and `distance` is the shorter
way round it from one stamp to another.  `diff` gives the distance where that is not
negative.  Where it is negative the seconds are one too few, and their product with 10⁹
is taken as `unsigned`: what comes out is then at least 2³¹, so a stamp in the past never
compares below zero.  `add` gives the later stamp unless the ticks come out at exactly
`ticks_per_sec`, which it does not carry, or no longer fit their field.
-/
import Acq400.Wrtd.TS

namespace Acq400.Wrtd

open BitField CDouble

theorem unsigned_of_lt {x : Nat} (h : x < 4294967296) : unsigned x = x := Nat.mod_eq_of_lt h

theorem unsignedSub_of_le {a b : Nat} (hle : b ≤ a) (ha : a < 4294967296) :
    unsignedSub a b = a - b := by
  unfold unsignedSub unsigned
  omega

namespace TS

/-! ### Seconds and ticks of the register word -/

theorem secs_relative {t : TS} (h : t.taiS = 0) : t.secs = field 28 3 t.raw := by
  have hmask : 4294967295 - tsEn = 2 ^ 31 - 1 := rfl
  rw [secs, if_neg (not_not_intro h), hmask, Nat.and_two_pow_sub_one_eq_mod, field_eq,
    Nat.shiftRight_eq_div_pow, secondsShl]
  omega

theorem secs_le {t : TS} (h : t.taiS = 0) : t.secs ≤ 7 := by
  rw [secs_relative h, field_eq]
  omega

theorem ticks_le (t : TS) : t.ticks ≤ ticksMask := Nat.and_le_right

@[simp] theorem ticks_makeRaw (s k : Nat) (en : Bool) :
    (makeRaw s k en).ticks = k % 268435456 := by
  have hk : k &&& ticksMask = k % 2 ^ 28 := Nat.and_two_pow_sub_one_eq_mod k 28
  have hself : field 0 28 (k % 2 ^ 28) = k % 2 ^ 28 := by
    rw [field_eq]
    omega
  have hen : field 0 28 (if en then tsEn else 0) = 0 := field_flag en (.inr (by decide))
  show field 0 28 (_ ||| _ ||| _) = _
  rw [field_or, field_or, hen, hk, hself, field_above (by decide), Nat.zero_or, Nat.or_zero]
  rfl

theorem secs_makeRaw {s : Nat} (hs : s ≤ minTai) (k : Nat) (en : Bool) :
    (makeRaw s k en).secs = s % 8 := by
  have htai : (makeRaw s k en).taiS = 0 := if_neg (by omega)
  have hsecs : s &&& secondsMask = s % 2 ^ 3 := Nat.and_two_pow_sub_one_eq_mod s 3
  have hk : k &&& ticksMask < 2 ^ 28 := Nat.lt_of_le_of_lt Nat.and_le_right (by decide)
  have hlow : field 28 3 (k &&& ticksMask) = 0 := field_below (j := 0) hk (by decide)
  have hen : field 28 3 (if en then tsEn else 0) = 0 := field_flag en (.inr (by decide))
  have hself : field 28 3 ((s % 2 ^ 3) <<< 28) = s % 2 ^ 3 := field_self (Nat.mod_lt _ (by decide))
  rw [secs_relative htai]
  show field 28 3 ((s &&& secondsMask) <<< 28 ||| _ ||| _) = _
  rw [field_or, field_or, hen, hlow, hsecs, hself, Nat.or_zero, Nat.or_zero]
  rfl

theorem secs_makeRaw_absolute {s : Nat} (hs : minTai < s) (k : Nat) (en : Bool) :
    (makeRaw s k en).secs = s := by
  have htai : (makeRaw s k en).taiS = s := if_pos hs
  have hne : (makeRaw s k en).taiS ≠ 0 := by
    rw [htai]
    exact Nat.ne_of_gt (Nat.zero_lt_of_lt hs)
  rw [secs, if_pos hne, htai]

/-! ### The circle of eight seconds -/

/-- A relative stamp whose ticks are within the second. -/
structure Normalised (g : G) (t : TS) : Prop where
  relative : t.taiS = 0
  ticks_lt : t.ticks < g.ticksPerSec

instance (g : G) (t : TS) : Decidable (Normalised g t) :=
  decidable_of_iff (t.taiS = 0 ∧ t.ticks < g.ticksPerSec)
    ⟨fun h => ⟨h.1, h.2⟩, fun h => ⟨h.1, h.2⟩⟩

/-- The place of a stamp on the circle, in ns; a tick has `n` ns. -/
def time (n : Nat) (t : TS) : Int := t.secs * nsps + t.ticks * n

/-- The signed way from `b` to `a`, the shorter one round the circle. -/
def distance (n : Nat) (a b : TS) : Int := (time n a - time n b).bmod (8 * nsps)

section Exact

variable {g : G} {n : Nat}

/-- A tick of a whole number of ns that divides the second. -/
structure Exact (g : G) (n : Nat) : Prop where
  nsPerTick : g.nsPerTick = n
  second : g.ticksPerSec * n = nsps

theorem Exact.pos (he : Exact g n) : 0 < n := by
  rcases Nat.eq_zero_or_pos n with rfl | hpos
  · exact absurd he.second (by rw [Nat.mul_zero]; decide)
  · exact hpos

theorem Exact.mul_lt (he : Exact g n) {k : Nat} (hk : k < g.ticksPerSec) : k * n < nsps := by
  rw [← he.second]
  exact Nat.mul_lt_mul_of_pos_right hk he.pos

theorem Exact.ticksPerSec_le (he : Exact g n) : g.ticksPerSec ≤ nsps := by
  rw [← he.second]
  exact Nat.le_mul_of_pos_right _ he.pos

/-- The seconds of `diff`, as `unsigned` has them. -/
def secsValue (s s2 : Nat) : Nat := unsigned (unsignedSub s s2 * nsps)

@[simp] theorem secsValue_self (s : Nat) : secsValue s s = 0 := by
  have hzero : unsignedSub s s = 0 := by
    unfold unsignedSub unsigned
    omega
  rw [secsValue, hzero, Nat.zero_mul]
  rfl

/-- A second too few comes out as a great number. -/
theorem le_secsValue_pred {s s2 : Nat} (h2 : s2 ≤ 7) (h : s = (s2 + 7) % 8) :
    2147483648 ≤ secsValue s s2 := by
  subst h
  rcases Nat.eq_zero_or_pos s2 with rfl | hpos
  · decide
  · have hsub : unsignedSub ((s2 + 7) % 8) s2 = 4294967295 := by
      unfold unsignedSub unsigned
      omega
    rw [secsValue, hsub]
    decide

theorem dec_eq {s : Nat} (hs : s ≤ 7) : dec s = (s + 7) % 8 := by
  have hmask : dec s = unsignedSub s 1 % 2 ^ 3 := Nat.and_two_pow_sub_one_eq_mod _ 3
  rw [hmask]
  unfold unsignedSub unsigned
  omega

/-- `diff` without a borrow. -/
theorem diffValue_of_le (he : Exact g n) {a b : TS} (h : b.ticks ≤ a.ticks) :
    diffValue g a b = (secsValue a.secs b.secs + (a.ticks - b.ticks) * n : Nat) := by
  have hlt : a.ticks < 4294967296 := Nat.lt_of_le_of_lt a.ticks_le (by decide)
  simp only [diffValue, if_neg (Nat.not_lt.mpr h), unsignedSub_of_le h hlt, he.nsPerTick]
  rw [secsValue]
  push_cast
  rfl

/-- `diff` with a borrow from the seconds. -/
theorem diffValue_of_lt (he : Exact g n) {a b : TS} (hb : b.ticks < g.ticksPerSec)
    (h : a.ticks < b.ticks) :
    diffValue g a b =
      (secsValue (dec a.secs) b.secs + (a.ticks + g.ticksPerSec - b.ticks) * n : Nat) := by
  have hle := he.ticksPerSec_le
  have hnsps : nsps = 1000000000 := rfl
  have hsum : a.ticks + g.ticksPerSec < 4294967296 := by omega
  have hsub : unsignedSub (unsigned (a.ticks + g.ticksPerSec)) b.ticks =
      a.ticks + g.ticksPerSec - b.ticks := by
    rw [unsigned_of_lt hsum, unsignedSub_of_le (by omega) hsum]
  simp only [diffValue, if_pos h, hsub, he.nsPerTick]
  rw [secsValue]
  push_cast
  rfl

/-- Which stamps are how far apart: the seconds agree, or one is just before the other. -/
theorem near_cases (he : Exact g n) {a b : TS} (ha : Normalised g a) (hb : Normalised g b)
    (hnear : (distance n a b).natAbs < nsps) :
    (a.secs = b.secs ∧ distance n a b = a.ticks * n - b.ticks * n) ∨
    (a.secs = (b.secs + 1) % 8 ∧ distance n a b = nsps + a.ticks * n - b.ticks * n ∧
      a.ticks < b.ticks) ∨
    (a.secs = (b.secs + 7) % 8 ∧ distance n a b = a.ticks * n - b.ticks * n - nsps ∧
      b.ticks < a.ticks) := by
  have hka : a.ticks * n < nsps := he.mul_lt ha.ticks_lt
  have hkb : b.ticks * n < nsps := he.mul_lt hb.ticks_lt
  have hsa := secs_le ha.relative
  have hsb := secs_le hb.relative
  have hlt : ∀ {j k : Nat}, j * n < k * n → j < k := Nat.lt_of_mul_lt_mul_right
  have hnsps : nsps = 1000000000 := rfl
  -- the turns of the circle between the way and its `bmod`
  obtain ⟨q, hq⟩ : ∃ q : Int, distance n a b = time n a - time n b - 8 * nsps * q :=
    ⟨_, eq_sub_of_add_eq (Int.bmod_add_bdiv _ _)⟩
  have hway : distance n a b = ((a.secs : Int) - b.secs - 8 * q) * nsps
      + (a.ticks * n : Nat) - (b.ticks * n : Nat) := by
    rw [hq]
    unfold time
    push_cast
    ring
  rw [hnsps] at hka hkb hnear hway ⊢
  generalize hs : (a.secs : Int) - b.secs - 8 * q = d at hway
  have hd : d = 0 ∨ d = 1 ∨ d = -1 := by omega
  rw [← Nat.cast_mul, ← Nat.cast_mul]
  rcases hd with rfl | rfl | rfl
  · exact Or.inl ⟨by omega, by omega⟩
  · exact Or.inr (Or.inl ⟨by omega, by omega, hlt (by omega)⟩)
  · exact Or.inr (Or.inr ⟨by omega, by omega, hlt (by omega)⟩)

/-- Of two stamps in order, `diff` gives the way from the earlier to the later. -/
theorem diffValue_of_nonneg (he : Exact g n) {a b : TS} (ha : Normalised g a)
    (hb : Normalised g b) (hnear : (distance n a b).natAbs < nsps) (h0 : 0 ≤ distance n a b) :
    ∃ v : Nat, diffValue g a b = v ∧ distance n a b = v := by
  have hkb := he.mul_lt hb.ticks_lt
  have hka := he.mul_lt ha.ticks_lt
  have hle : ∀ {j k : Nat}, j * n ≤ k * n → j ≤ k := fun h => Nat.le_of_mul_le_mul_right h he.pos
  rcases near_cases he ha hb hnear with ⟨hs, hd⟩ | ⟨hs, hd, hlt⟩ | ⟨hs, hd, -⟩
  · have hticks : b.ticks ≤ a.ticks := hle (by omega)
    refine ⟨(a.ticks - b.ticks) * n, ?_, ?_⟩
    · rw [diffValue_of_le he hticks, hs, secsValue_self, Nat.zero_add]
    · rw [hd, Nat.sub_mul]
      have := Nat.mul_le_mul_right n hticks
      omega
  · -- The seconds of `a` are one ahead, and the borrow takes that one away.
    have hdec : dec a.secs = b.secs := by
      have hsb := secs_le hb.relative
      rw [dec_eq (secs_le ha.relative)]
      omega
    refine ⟨(a.ticks + g.ticksPerSec - b.ticks) * n, ?_, ?_⟩
    · rw [diffValue_of_lt he hb.ticks_lt hlt, hdec, secsValue_self, Nat.zero_add]
    · rw [hd, Nat.sub_mul, Nat.add_mul, he.second]
      omega
  · omega

/-- Of two stamps out of order, `diff` gives a great positive value, if any. -/
theorem diffValue_of_neg (he : Exact g n) {a b : TS} (ha : Normalised g a)
    (hb : Normalised g b) (hnear : (distance n a b).natAbs < nsps) (h0 : distance n a b < 0) :
    ∃ v : Nat, diffValue g a b = v ∧ 2147483648 ≤ v := by
  have hka := he.mul_lt ha.ticks_lt
  have hkb := he.mul_lt hb.ticks_lt
  have hsb := secs_le hb.relative
  rcases near_cases he ha hb hnear with ⟨hs, hd⟩ | ⟨hs, hd, hlt⟩ | ⟨hs, hd, hlt⟩
  · have hmul : a.ticks * n < b.ticks * n := by omega
    have hticks : a.ticks < b.ticks := Nat.lt_of_mul_lt_mul_right hmul
    refine ⟨_, diffValue_of_lt he hb.ticks_lt hticks, ?_⟩
    have hdec : dec a.secs = (b.secs + 7) % 8 := by rw [hs, dec_eq hsb]
    exact Nat.le_add_right_of_le (le_secsValue_pred hsb hdec)
  · omega
  · refine ⟨_, diffValue_of_le he (Nat.le_of_lt hlt), ?_⟩
    exact Nat.le_add_right_of_le (le_secsValue_pred hsb hs)

/-! ### What the receiver gets -/

variable {w : Nat}

/-- A `long` has at least 32 bits. -/
theorem lt_two_pow_long (hw : 32 ≤ w) {v : Nat} (hv : v < 2147483648) : v < 2 ^ (w - 1) :=
  Nat.lt_of_lt_of_le hv (Nat.pow_le_pow_right (n := 2) (i := 31) (by decide) (by omega))

theorem diff_of_nonneg (he : Exact g n) (hw : 32 ≤ w) {a b : TS} (ha : Normalised g a)
    (hb : Normalised g b) (hnear : (distance n a b).natAbs < nsps) (h0 : 0 ≤ distance n a b) :
    a.diff w g b = some (distance n a b) := by
  obtain ⟨v, hv, hd⟩ := diffValue_of_nonneg he ha hb hnear h0
  have hlt : v < 2147483648 := by
    have hnsps : nsps = 1000000000 := rfl
    omega
  rw [diff, hv, toLong_natCast (lt_two_pow_long hw hlt), hd]

theorem diff_of_neg (he : Exact g n) {a b : TS} (ha : Normalised g a) (hb : Normalised g b)
    (hnear : (distance n a b).natAbs < nsps) (h0 : distance n a b < 0) {v : Int}
    (h : a.diff w g b = some v) : 2147483648 ≤ v := by
  obtain ⟨x, hx, hle⟩ := diffValue_of_neg he ha hb hnear h0
  rw [diff, hx] at h
  rw [eq_of_toLong_natCast h]
  omega

theorem diff_eq_distance_iff (he : Exact g n) (hw : 32 ≤ w) {a b : TS} (ha : Normalised g a)
    (hb : Normalised g b) (hnear : (distance n a b).natAbs < nsps) :
    a.diff w g b = some (distance n a b) ↔ 0 ≤ distance n a b := by
  refine ⟨fun h => ?_, diff_of_nonneg he hw ha hb hnear⟩
  by_contra hneg
  have := diff_of_neg he ha hb hnear (by omega) h
  omega

theorem not_isAbsTai {t : TS} (h : t.taiS = 0) : ¬ t.isAbsTai := not_not_intro h

/-- `action` says that a stamp was missed when `diff` is below zero. -/
theorem action_isMissed_iff (dns : Nat) {a b : TS} (ha : a.taiS = 0) {dt : Int}
    (h : a.diff w g b = some dt) :
    ∃ v, ACQ400Receiver.action w g dns a b = some v ∧ (v.isMissed ↔ dt < 0) := by
  rw [ACQ400Receiver.action, if_neg (not_isAbsTai ha), h, Option.map_some]
  refine ⟨_, rfl, ?_⟩
  by_cases hneg : dt < 0
  · simp [hneg, Verdict.isMissed]
  · rw [if_neg hneg]
    refine iff_of_false ?_ hneg
    split <;> simp [Verdict.isMissed]

/-- The way back, unless the two stamps are at opposite points of the circle. -/
theorem distance_comm_of_near {a b : TS} (hnear : (distance n a b).natAbs < nsps) :
    distance n b a = -distance n a b := by
  simp only [distance, nsps, Int.bmod_def] at *
  omega

/-! ### Adding ticks -/

/-- Without a carry the ticks are cut to their field. -/
theorem plus_of_le (he : Exact g n) {t : TS} {d : Nat} (ht : t.taiS = 0)
    (hd : t.ticks + d ≤ g.ticksPerSec) :
    (t.plus g d).taiS = 0 ∧ (t.plus g d).secs = t.secs ∧
      (t.plus g d).ticks = (t.ticks + d) % 268435456 := by
  have hs := secs_le ht
  have hle := he.ticksPerSec_le
  have hnsps : nsps = 1000000000 := rfl
  have hmin : minTai = 59 := rfl
  have hplus : t.plus g d = makeRaw t.secs (t.ticks + d) true := by
    simp only [plus, add, unsigned_of_lt (by omega : t.ticks + d < 4294967296),
      if_neg (Nat.not_lt.mpr hd), Nat.add_zero, unsigned_of_lt (by omega : t.secs < 4294967296)]
  rw [hplus]
  refine ⟨if_neg (by omega), ?_, ticks_makeRaw _ _ _⟩
  rw [secs_makeRaw (by omega)]
  omega

/-- With a carry they fit, since the stamp's own ticks did. -/
theorem plus_of_lt (he : Exact g n) {t : TS} {d : Nat} (ht : Normalised g t)
    (hd : d < g.ticksPerSec) (hcarry : g.ticksPerSec < t.ticks + d) :
    (t.plus g d).taiS = 0 ∧ (t.plus g d).secs = (t.secs + 1) % 8 ∧
      (t.plus g d).ticks = t.ticks + d - g.ticksPerSec := by
  have hs := secs_le ht.relative
  have hk : t.ticks ≤ 268435455 := t.ticks_le
  have hlt := ht.ticks_lt
  have hle := he.ticksPerSec_le
  have hnsps : nsps = 1000000000 := rfl
  have hmin : minTai = 59 := rfl
  have hplus : t.plus g d = makeRaw (t.secs + 1) (t.ticks + d - g.ticksPerSec) true := by
    simp only [plus, add, unsigned_of_lt (by omega : t.ticks + d < 4294967296), if_pos hcarry,
      Nat.add_zero, unsigned_of_lt (by omega : t.secs + 1 < 4294967296)]
  rw [hplus]
  refine ⟨if_neg (by omega), secs_makeRaw (by omega) _ _, ?_⟩
  rw [ticks_makeRaw]
  omega

/-- When `t + d` is a stamp that is `d` ticks later. -/
theorem plus_iff (he : Exact g n) (hw : 32 ≤ w) {t : TS} {d : Nat} (ht : Normalised g t)
    (hd : d < g.ticksPerSec) :
    (Normalised g (t.plus g d) ∧ (t.plus g d).diff w g t = some ((d * n : Nat) : Int)) ↔
      t.ticks + d ≠ g.ticksPerSec ∧ (t.ticks + d < g.ticksPerSec → t.ticks + d ≤ ticksMask) := by
  have hmask : ticksMask = 268435455 := rfl
  have hdn := he.mul_lt hd
  have hnsps : nsps = 1000000000 := rfl
  have hlong : d * n < 2 ^ (w - 1) := lt_two_pow_long hw (by omega)
  have hticks := ht.ticks_lt
  rcases Nat.lt_or_ge g.ticksPerSec (t.ticks + d) with hcarry | hle
  · obtain ⟨htai, hs, hk⟩ := plus_of_lt he ht hd hcarry
    have hborrow : (t.plus g d).ticks < t.ticks := by omega
    have hdec : dec (t.plus g d).secs = t.secs := by
      have hsecs := secs_le ht.relative
      rw [hs, dec_eq (by omega)]
      omega
    have hback : (t.plus g d).ticks + g.ticksPerSec - t.ticks = d := by omega
    refine iff_of_true ⟨⟨htai, by omega⟩, ?_⟩ ⟨by omega, fun h => by omega⟩
    rw [diff, diffValue_of_lt he hticks hborrow, hdec, secsValue_self, hback, Nat.zero_add,
      toLong_natCast hlong]
  · obtain ⟨htai, hs, hk⟩ := plus_of_le he ht.relative hle
    by_cases hfits : t.ticks + d ≤ ticksMask
    · have hk' : (t.plus g d).ticks = t.ticks + d := by omega
      have hforth : (t.plus g d).ticks - t.ticks = d := by omega
      have hdiff : (t.plus g d).diff w g t = some ((d * n : Nat) : Int) := by
        rw [diff, diffValue_of_le he (by omega), hs, secsValue_self, hforth, Nat.zero_add,
          toLong_natCast hlong]
      constructor
      · rintro ⟨hn, -⟩
        have := hn.ticks_lt
        exact ⟨by omega, fun _ => hfits⟩
      · rintro ⟨hne, -⟩
        exact ⟨⟨htai, by omega⟩, hdiff⟩
    · -- The ticks wrap in their field, and `diff` cannot tell.
      refine iff_of_false ?_ fun h => hfits (h.2 (by omega))
      rintro ⟨-, hdiff⟩
      rcases Nat.lt_or_ge (t.plus g d).ticks t.ticks with hlt | hge
      · rw [diff, diffValue_of_lt he hticks hlt] at hdiff
        have hv := eq_of_toLong_natCast hdiff
        have hpred : dec (t.plus g d).secs = (t.secs + 7) % 8 := by
          rw [hs, dec_eq (secs_le ht.relative)]
        have := le_secsValue_pred (secs_le ht.relative) hpred
        omega
      · rw [diff, diffValue_of_le he hge, hs, secsValue_self, Nat.zero_add] at hdiff
        have hv := eq_of_toLong_natCast hdiff
        have hsame : d = (t.plus g d).ticks - t.ticks :=
          Nat.eq_of_mul_eq_mul_right he.pos (by exact_mod_cast hv)
        omega

/--
**Time stamps add and subtract as points of the circle do: exactly when the ticks of the sum are
not a whole second and fit their field, and exactly when the stamp that is taken away is not the
later one.**
-/
theorem arithmetic_iff (he : Exact g n) (hw : 32 ≤ w) (dns : Nat) :
    (∀ t d, Normalised g t → d < g.ticksPerSec →
      ((Normalised g (t.plus g d) ∧ (t.plus g d).diff w g t = some ((d * n : Nat) : Int)) ↔
        t.ticks + d ≠ g.ticksPerSec ∧
          (t.ticks + d < g.ticksPerSec → t.ticks + d ≤ ticksMask))) ∧
    (∀ a b, Normalised g a → Normalised g b → (distance n a b).natAbs < nsps →
      (a.diff w g b = some (distance n a b) ↔ 0 ≤ distance n a b) ∧
      ((∃ x, a.diff w g b = some x ∧ b.diff w g a = some (-x)) ↔ distance n a b = 0) ∧
      ((∃ v, ACQ400Receiver.action w g dns a b = some v ∧
          (v.isMissed ↔ distance n a b < 0)) ↔ 0 ≤ distance n a b)) := by
  refine ⟨fun t d ht hd => plus_iff he hw ht hd, fun a b ha hb hnear => ?_⟩
  have hcomm := distance_comm_of_near hnear
  have hback : (distance n b a).natAbs < nsps := by omega
  have habs := hnear
  have hnsps : nsps = 1000000000 := rfl
  refine ⟨diff_eq_distance_iff he hw ha hb hnear, ⟨?_, fun h0 => ?_⟩, ⟨?_, fun h0 => ?_⟩⟩
  · -- One of the two ways is negative, and both come out positive.
    rintro ⟨x, hx, hnx⟩
    rcases Int.lt_trichotomy (distance n a b) 0 with hneg | h0 | hpos
    · have := diff_of_neg he ha hb hnear hneg hx
      rw [diff_of_nonneg he hw hb ha hback (by omega), Option.some.injEq] at hnx
      omega
    · exact h0
    · have := diff_of_neg he hb ha hback (by omega) hnx
      rw [diff_of_nonneg he hw ha hb hnear (by omega), Option.some.injEq] at hx
      omega
  · refine ⟨0, ?_, ?_⟩
    · rw [diff_of_nonneg he hw ha hb hnear (by omega), h0]
    · rw [diff_of_nonneg he hw hb ha hback (by omega), hcomm, h0]
  · rintro ⟨v, hv, hmiss⟩
    by_contra hneg
    have hlt : distance n a b < 0 := by omega
    rcases hd : a.diff w g b with _ | dt
    · rw [ACQ400Receiver.action, if_neg (not_isAbsTai ha.relative), hd] at hv
      simp at hv
    · have hgreat := diff_of_neg he ha hb hnear hlt hd
      obtain ⟨v', hv', hiff⟩ := action_isMissed_iff dns ha.relative hd
      obtain rfl : v' = v := Option.some.inj (hv'.symm.trans hv)
      have := hiff.mp (hmiss.mpr hlt)
      omega
  · exact action_isMissed_iff _ ha.relative (diff_of_nonneg he hw ha hb hnear h0)

end Exact

/-- A tick of 50 ns. -/
def g50 : G := { ticksPerSec := 20000000, nsPerTick := 50 }

theorem exact_g50 : Exact g50 50 := ⟨rfl, by decide⟩

theorem arithmetic_g50 :
    (Normalised g50 ((makeRaw 7 19999999 true).plus g50 2) ∧
      ((makeRaw 7 19999999 true).plus g50 2).diff 32 g50 (makeRaw 7 19999999 true) =
        some ((2 * 50 : Nat) : Int)) ∧
    (makeRaw 0 1 true).diff 32 g50 (makeRaw 7 19999999 true) = some 100 := by
  obtain ⟨hadd, hdiff⟩ := arithmetic_iff (w := 32) exact_g50 (by decide) 50000000
  refine ⟨(hadd _ 2 (by decide) (by decide)).mpr (by decide), ?_⟩
  have hdist : distance 50 (makeRaw 0 1 true) (makeRaw 7 19999999 true) = 100 := by decide
  rw [(hdiff _ _ (by decide) (by decide) (by decide)).1.mpr (by decide), hdist]

/-- A tick before the end of a second: the sum has a whole second of ticks.  A tick before
another stamp: the difference is more than two seconds, or has no value. -/
theorem arithmetic_fails :
    Normalised g50 (makeRaw 1 19999999 true) ∧
    ¬ Normalised g50 ((makeRaw 1 19999999 true).plus g50 1) ∧
    distance 50 (makeRaw 1 0 true) (makeRaw 1 1 true) = -50 ∧
    (makeRaw 1 0 true).diff 32 g50 (makeRaw 1 1 true) = none ∧
    (makeRaw 1 0 true).diff 64 g50 (makeRaw 1 1 true) = some 4294967246 ∧
    (makeRaw 1 1 true).diff 64 g50 (makeRaw 1 0 true) = some 50 ∧
    ACQ400Receiver.action 64 g50 50000000 (makeRaw 1 0 true) (makeRaw 1 1 true) = some .ok := by
  decide +kernel

end TS

end Acq400.Wrtd
