/-
What a text writes to the gain and the offset of a channel.

Either half of the register is replaced apart from the other.  A single value is limited to the
range of its knob, which goes one beyond what an offset can hold, and a number in hexadecimal is
taken for 0.  A ramp ends where its step is positive and no sum overflows on the way, and it writes
the numbers of an arithmetic progression.
-/
import Acq400.Driver.XoSysfs
import Acq400.Lib.MaskField
import Mathlib.Tactic.Ring

namespace Acq400

open MaskField

namespace AoGo

variable {h : Hook} {knob : Knob} {go go' : BitVec 32} {x : Int} {buf : List Char}

/-! ### The halves of the register -/

theorem halfOf_pos : 0 < 16 := by decide

/-- The half for the gain, or for the offset. -/
def halfOf : Bool → Span 32
  | true => ⟨16, 16, halfOf_pos, by decide⟩
  | false => ⟨0, 16, halfOf_pos, by decide⟩

def Knob.half (knob : Knob) : Span 32 := halfOf knob.gain

/-- The knob for the other half. -/
def Knob.other (knob : Knob) : Knob := { knob with gain := !knob.gain }

/-- The half of a knob as the hardware takes it. -/
def Knob.read (knob : Knob) (go : BitVec 32) : Int :=
  if knob.gain then (knob.half.get go).toNat else ((knob.half.get go).setWidth 16).toInt

theorem half_eq (knob : Knob) : knob.half.shl = knob.shl ∧ knob.half.width = 16 ∧
    knob.half.mask = (0x0000ffff : BitVec 32) <<< knob.shl ∧ knob.half.Apart knob.other.half := by
  have hhalf : ∀ gain, (halfOf gain).shl = (if gain then 16 else 0) ∧
      (halfOf gain).width = 16 ∧
      (halfOf gain).mask = (0x0000ffff : BitVec 32) <<< (if gain then 16 else 0) ∧
      (halfOf gain).Apart (halfOf !gain) := by decide
  exact hhalf knob.gain

theorem putHalf_eq (knob : Knob) (go : BitVec 32) (x : Int) :
    knob.putHalf go x = put knob.half.mask (BitVec.ofInt 32 x <<< knob.half.shl) go := by
  obtain ⟨hshl, -, hmask, -⟩ := half_eq knob
  unfold Knob.putHalf put
  rw [hmask, hshl, BitVec.shiftLeft_and_distrib]

theorem get_putHalf (knob : Knob) (go : BitVec 32) (x : Int) :
    (knob.half.get (knob.putHalf go x)).toNat = x % 65536 := by
  rw [putHalf_eq, toNat_get_put, (half_eq knob).2.1, BitVec.toNat_ofInt]
  omega

theorem get_putHalf_other (knob : Knob) (go : BitVec 32) (x : Int) :
    knob.other.half.get (knob.putHalf go x) = knob.other.half.get go := by
  rw [putHalf_eq]
  exact get_eq_iff.mpr fun i hi => put_outside ((half_eq knob).2.2.2.symm.not_has hi)

theorem read_putHalf (knob : Knob) (go : BitVec 32) (x : Int) :
    knob.read (knob.putHalf go x) = if knob.gain then x % 65536 else x.bmod 65536 := by
  have hget := get_putHalf knob go x
  unfold Knob.read
  split
  · exact hget
  · rw [BitVec.toInt_eq_toNat_bmod, BitVec.toNat_setWidth]
    have hmod : (((knob.half.get (knob.putHalf go x)).toNat % 2 ^ 16 : Nat) : Int) = x % 65536 := by
      omega
    rw [hmod]
    exact Int.emod_bmod x 65536

/-- The values that a knob can hold. -/
def Knob.Holds (knob : Knob) (x : Int) : Prop :=
  knob.aoMin ≤ x ∧ x ≤ 32768 ∧ (knob.gain = false → x < 32768)

theorem read_of_holds (hx : knob.Holds x) (go : BitVec 32) :
    knob.read (knob.putHalf go x) = x := by
  obtain ⟨hmin, hmax, hoffset⟩ := hx
  unfold Knob.aoMin at hmin
  rw [read_putHalf]
  cases hgain : knob.gain with
  | true =>
      rw [hgain] at hmin
      have hmin : 0 ≤ x := hmin
      rw [if_pos rfl]
      omega
  | false =>
      rw [hgain] at hmin
      have hmin : -32767 ≤ x := hmin
      have hless := hoffset hgain
      rw [if_neg Bool.false_ne_true, Int.bmod_def]
      split
      · omega
      · omega

/-! ### What is written -/

/-- The word that goes to the register. -/
def Write.go? : Write → Option (BitVec 32)
  | .gainOff _ go => some go
  | .spad _ _ => none

/-- The words that go to the register, in order. -/
def words (ws : List Write) : List (BitVec 32) := ws.filterMap Write.go?

/-- The register of the channel is given these values one after the other, and the other half is
kept. -/
structure Sets (knob : Knob) (go : BitVec 32) (xs : List Int) (ws : List Write) : Prop where
  chan : ∀ chan go', .gainOff chan go' ∈ ws → chan = knob.chan
  other : ∀ go' ∈ words ws, knob.other.half.get go' = knob.other.half.get go
  read : (words ws).map knob.read = xs

theorem sets_nil (knob : Knob) (go : BitVec 32) : Sets knob go [] [] :=
  ⟨fun _ _ h => absurd h List.not_mem_nil, fun _ h => absurd h List.not_mem_nil, rfl⟩

theorem Sets.append {xs ys : List Int} {ws vs : List Write} (hws : Sets knob go xs ws)
    (hvs : Sets knob go ys vs) : Sets knob go (xs ++ ys) (ws ++ vs) := by
  have hwords : words (ws ++ vs) = words ws ++ words vs := List.filterMap_append
  refine ⟨fun chan go' hmem => ?_, fun go' hmem => ?_, ?_⟩
  · rcases List.mem_append.mp hmem with hmem | hmem
    · exact hws.chan chan go' hmem
    · exact hvs.chan chan go' hmem
  · rw [hwords] at hmem
    rcases List.mem_append.mp hmem with hmem | hmem
    · exact hws.other go' hmem
    · exact hvs.other go' hmem
  · rw [hwords, List.map_append, hws.read, hvs.read]

theorem Sets.of_other {xs : List Int} {ws : List Write}
    (hother : knob.other.half.get go' = knob.other.half.get go) (hws : Sets knob go' xs ws) :
    Sets knob go xs ws :=
  ⟨hws.chan, fun w hw => (hws.other w hw).trans hother, hws.read⟩

theorem words_writeGo (h : Hook) (knob : Knob) (go : BitVec 32) :
    words (h.writeGo knob go) = [go] := by
  unfold words Hook.writeGo Hook.setSpadGx
  split <;> rfl

theorem writeGo_sets (h : Hook) (knob : Knob) (go : BitVec 32) (x : Int) :
    Sets knob go [knob.read (knob.putHalf go x)] (h.writeGo knob (knob.putHalf go x)) := by
  refine ⟨fun chan go' hmem => ?_, fun go' hmem => ?_, ?_⟩
  · unfold Hook.writeGo Hook.setSpadGx at hmem
    rcases List.mem_cons.mp hmem with heq | hmem
    · exact (Write.gainOff.inj heq).1
    · split at hmem
      · cases List.mem_singleton.mp hmem
      · cases hmem
  · rw [words_writeGo, List.mem_singleton] at hmem
    rw [hmem]
    exact get_putHalf_other knob go x
  · rw [words_writeGo]
    rfl

/-! ### A single value -/

/-- A value is limited to the range of its knob. -/
def Knob.limit (knob : Knob) (x : Int) : Int := max knob.aoMin (min x knob.aoMax)

/-- The number of a text in hexadecimal. -/
def hexText (buf : List Char) : Option (Nat × List Char) :=
  (Sscanf.lit "0x".toList buf).bind Sscanf.hex

/-- The number that a text asks for. -/
def asked (buf : List Char) : Option Int :=
  match hexText buf with
  | some (gx, _) => some (CInt.wrap gx)
  | none => (Sscanf.int buf).map Prod.fst

def GoRight (h : Hook) (knob : Knob) (go : BitVec 32) (buf : List Char) : Prop :=
  ∀ ws, h.storeAoGO knob go buf = some ws →
    ∃ x, asked buf = some x ∧ Sets knob go [knob.limit x] ws

/-- The value can be held, and is not in hexadecimal unless it is limited to 0. -/
def GoHarmless (knob : Knob) (buf : List Char) : Prop :=
  ∀ x, asked buf = some x →
    (knob.gain = false → x < 32768) ∧ ((hexText buf).isSome = true → knob.limit x = 0)

/-- Of a number in hexadecimal the first digit is scanned, which is 0. -/
theorem int_hexText {r : Nat × List Char} (h : hexText buf = some r) :
    ∃ rest, Sscanf.int buf = some (0, rest) := by
  unfold hexText at h
  obtain ⟨rest, hlit, -⟩ := Option.bind_eq_some_iff.mp h
  rw [Sscanf.lit_eq_some] at hlit
  have hdigits : Sscanf.IsDigits ['0'] :=
    ⟨List.cons_ne_nil _ _, List.forall_mem_singleton.mpr rfl⟩
  have hstop : ∀ c, ('x' :: rest).head? = some c → c.isDigit = false := by
    intro c hc
    obtain rfl := Option.some.inj hc
    rfl
  have hzero : CInt.wrap (Sscanf.decimal ['0']) = 0 := by decide
  have hint := Sscanf.int_digits false hdigits hstop
  rw [if_neg Bool.false_ne_true, if_neg Bool.false_ne_true, hzero] at hint
  rw [hlit]
  exact ⟨'x' :: rest, hint⟩

theorem scanGo_eq (buf : List Char) : scanGo buf = (Sscanf.int buf).map Prod.fst := by
  unfold scanGo
  cases hint : Sscanf.int buf with
  | some r => rfl
  | none =>
      have hnone : (Sscanf.lit "0x".toList buf).bind Sscanf.hex = none := by
        cases hhex : (Sscanf.lit "0x".toList buf).bind Sscanf.hex with
        | none => rfl
        | some r =>
            obtain ⟨rest, hsome⟩ := int_hexText hhex
            rw [hint] at hsome
            cases hsome
      rw [hnone]
      rfl

theorem limit_holds (knob : Knob) (hx : knob.gain = false → x < 32768) :
    knob.Holds (knob.limit x) := by
  unfold Knob.Holds Knob.limit Knob.aoMax Knob.aoMin
  cases hgain : knob.gain with
  | true =>
      simp only [if_true]
      exact ⟨by omega, by omega, fun hfalse => by cases hfalse⟩
  | false =>
      have hless := hx hgain
      simp only [if_neg Bool.false_ne_true]
      exact ⟨by omega, by omega, fun _ => by omega⟩

theorem storeAoGO_sets {gx : Int} (hscan : scanGo buf = some gx) (h : Hook) (knob : Knob)
    (go : BitVec 32) : ∃ ws, h.storeAoGO knob go buf = some ws ∧
      Sets knob go [knob.read (knob.putHalf go (knob.limit gx))] ws := by
  have hlimit : (if (if gx > knob.aoMax then knob.aoMax else gx) < knob.aoMin then knob.aoMin
      else (if gx > knob.aoMax then knob.aoMax else gx)) = knob.limit gx := by
    unfold Knob.limit
    split <;> split <;> omega
  refine ⟨_, ?_, writeGo_sets h knob go (knob.limit gx)⟩
  unfold Hook.storeAoGO
  rw [hscan, Option.map_some]
  dsimp only
  rw [hlimit]

/-- With `gx` scanned for `x`, the half has to hold the one the way it is to hold the other. -/
theorem goRight_scanned {gx : Int} (hscan : scanGo buf = some gx) (hasked : asked buf = some x)
    (h : Hook) (knob : Knob) (go : BitVec 32) :
    GoRight h knob go buf ↔ knob.read (knob.putHalf go (knob.limit gx)) = knob.limit x := by
  obtain ⟨ws, hws, hsets⟩ := storeAoGO_sets hscan h knob go
  constructor
  · intro hright
    obtain ⟨y, hy, hlimit⟩ := hright ws hws
    obtain rfl := Option.some.inj (hasked.symm.trans hy)
    exact (List.cons.inj (hsets.read.symm.trans hlimit.read)).1
  · intro hread ws' hws'
    obtain rfl := Option.some.inj (hws.symm.trans hws')
    rw [hread] at hsets
    exact ⟨x, hasked, hsets⟩

theorem limit_zero (knob : Knob) : knob.limit 0 = 0 := by
  unfold Knob.limit Knob.aoMax Knob.aoMin
  split <;> rfl

theorem read_putHalf_zero (knob : Knob) (go : BitVec 32) :
    knob.read (knob.putHalf go (knob.limit 0)) = 0 := by
  rw [read_of_holds (limit_holds knob fun _ => by decide), limit_zero]

/-- The limit of an offset is 32768, which is read as -32768. -/
theorem read_putHalf_limit (knob : Knob) (go : BitVec 32) (x : Int) :
    knob.read (knob.putHalf go (knob.limit x)) = knob.limit x ↔
      (knob.gain = false → x < 32768) := by
  constructor
  · intro hread hgain
    by_contra hbig
    have hmax : knob.limit x = 32768 := by
      unfold Knob.limit Knob.aoMax Knob.aoMin
      rw [hgain, if_neg Bool.false_ne_true]
      omega
    rw [hmax, read_putHalf, hgain, if_neg Bool.false_ne_true] at hread
    revert hread
    decide
  · intro hsmall
    exact read_of_holds (limit_holds knob hsmall) go

theorem goRight_iff (h : Hook) (knob : Knob) (go : BitVec 32) (buf : List Char) :
    GoRight h knob go buf ↔ GoHarmless knob buf := by
  cases hhex : hexText buf with
  | some r =>
      have hasked : asked buf = some (CInt.wrap r.1) := by
        unfold asked
        rw [hhex]
      obtain ⟨left, hint⟩ := int_hexText hhex
      have hscan : scanGo buf = some 0 := by
        rw [scanGo_eq, hint]
        rfl
      rw [goRight_scanned hscan hasked, read_putHalf_zero]
      constructor
      · intro hlimit x hx
        obtain rfl := Option.some.inj (hasked.symm.trans hx)
        refine ⟨fun hgain => ?_, fun _ => hlimit.symm⟩
        unfold Knob.limit Knob.aoMax at hlimit
        omega
      · intro hharm
        exact ((hharm _ hasked).2 (by rw [hhex]; rfl)).symm
  | none =>
      have hasked : asked buf = scanGo buf := by
        unfold asked
        rw [hhex, scanGo_eq]
      cases hscan : scanGo buf with
      | none =>
          refine iff_of_true (fun ws hws => ?_) fun x hx => by rw [hasked, hscan] at hx; cases hx
          unfold Hook.storeAoGO at hws
          rw [hscan] at hws
          cases hws
      | some gx =>
          rw [hscan] at hasked
          rw [goRight_scanned hscan hasked, read_putHalf_limit]
          constructor
          · intro hsmall x hx
            obtain rfl := Option.some.inj (hasked.symm.trans hx)
            exact ⟨hsmall, fun hsome => by rw [hhex] at hsome; cases hsome⟩
          · exact fun hharm => (hharm gx hasked).1

/-! ### A ramp -/

/-- The loop from `xx` on takes so many turns. -/
def Turns (xx stop step : Int) (n : Nat) : Prop :=
  stop ≤ xx + step * n ∧ ∀ k < n, xx + step * k < stop

/-- The values of an arithmetic progression. -/
def steps (xx step : Int) (n : Nat) : List Int := (List.range n).map fun k : Nat => xx + step * k

theorem steps_succ (xx step : Int) (n : Nat) :
    steps xx step (n + 1) = xx :: steps (xx + step) step n := by
  unfold steps
  rw [List.range_succ_eq_map, List.map_cons, List.map_map]
  have hfirst : xx + step * ((0 : Nat) : Int) = xx := by simp
  rw [hfirst]
  refine congrArg (xx :: ·) (List.map_congr_left fun k _ => ?_)
  show xx + step * ((k + 1 : Nat) : Int) = xx + step + step * k
  push_cast
  ring

theorem turns_succ {xx stop step : Int} {n : Nat} :
    Turns xx stop step (n + 1) ↔ xx < stop ∧ Turns (xx + step) stop step n := by
  have hshift : ∀ k : Nat, xx + step * ((k + 1 : Nat) : Int) = xx + step + step * k := by
    intro k
    push_cast
    ring
  unfold Turns
  rw [hshift]
  constructor
  · rintro ⟨hle, hlt⟩
    refine ⟨by simpa using hlt 0 (Nat.succ_pos n), hle, fun k hk => ?_⟩
    rw [← hshift]
    exact hlt (k + 1) (Nat.succ_lt_succ hk)
  · rintro ⟨hfirst, hle, hlt⟩
    refine ⟨hle, fun k hk => ?_⟩
    cases k with
    | zero => simpa using hfirst
    | succ k =>
        rw [hshift]
        exact hlt k (Nat.lt_of_succ_lt_succ hk)

variable {stop step usec : Int}

/-- The loop ends, and no sum overflows on the way. -/
def Ends (xx stop step usec : Int) : Prop :=
  stop ≤ xx ∨ CInt.InRange (usec + 1) ∧
    ∃ n, Turns xx stop step n ∧ CInt.InRange (xx + step * n)

/-- A loop that ends has gone through a progression that is in range. -/
theorem ends_of_stepLoop (fuel : Nat) :
    ∀ (xx : Int) (go : BitVec 32) (r : List Write × BitVec 32),
      h.stepLoop knob stop step usec fuel xx go = some r → Ends xx stop step usec := by
  induction fuel with
  | zero =>
      intro xx go r hr
      cases hr
  | succ fuel ih =>
      intro xx go r hr
      unfold Hook.stepLoop at hr
      by_cases hlt : xx < stop
      · rw [if_pos hlt] at hr
        simp only [Option.bind_eq_bind, Option.bind_eq_some_iff, CInt.value_eq_some] at hr
        obtain ⟨_, ⟨husec, -⟩, xx', ⟨hrange, rfl⟩, r', hr', -⟩ := hr
        refine .inr ⟨husec, ?_⟩
        rcases ih _ _ _ hr' with hle | ⟨-, n, hturns, hlast⟩
        · exact ⟨1, turns_succ.mpr ⟨hlt, by simpa using hle, fun k hk => absurd hk (by omega)⟩,
            by simpa using hrange⟩
        · refine ⟨n + 1, turns_succ.mpr ⟨hlt, hturns⟩, ?_⟩
          have hsum : xx + step * ((n + 1 : Nat) : Int) = xx + step + step * n := by
            push_cast
            ring
          rwa [hsum]
      · exact .inl (Int.not_lt.mp hlt)

theorem stepLoop_done {xx : Int} {fuel n : Nat} (hge : ¬xx < stop) (hfuel : n < fuel) :
    h.stepLoop knob stop step usec fuel xx go = some ([], go) := by
  obtain ⟨fuel, rfl⟩ := Nat.exists_eq_succ_of_ne_zero (Nat.ne_of_gt (Nat.zero_lt_of_lt hfuel))
  unfold Hook.stepLoop
  rw [if_neg hge]

/-- A loop that has enough turns writes the values of a progression. -/
theorem stepLoop_sets (hstep : 0 ≤ step) (husec : CInt.InRange (usec + 1)) (hstop : stop ≤ 32768)
    (n : Nat) :
    ∀ (xx : Int) (go : BitVec 32), knob.aoMin ≤ xx → Turns xx stop step n →
      CInt.InRange (xx + step * n) →
      ∃ ws go', (∀ fuel > n, h.stepLoop knob stop step usec fuel xx go = some (ws, go')) ∧
        Sets knob go ((steps xx step n).map knob.limit) ws ∧
        knob.other.half.get go' = knob.other.half.get go := by
  induction n with
  | zero =>
      intro xx go _ hturns _
      have hge : ¬xx < stop := by
        have := hturns.1
        simp only [Nat.cast_zero, mul_zero, add_zero] at this
        omega
      exact ⟨[], go, fun fuel hfuel => stepLoop_done hge hfuel, sets_nil knob go, rfl⟩
  | succ n ih =>
      intro xx go hmin hturns hlast
      obtain ⟨hlt, hturns⟩ := turns_succ.mp hturns
      have hsum : xx + step * ((n + 1 : Nat) : Int) = xx + step + step * n := by
        push_cast
        ring
      rw [hsum] at hlast
      have hmin' : -32767 ≤ knob.aoMin := by
        unfold Knob.aoMin
        split <;> omega
      have hprod : 0 ≤ step * n := Int.mul_nonneg hstep (Int.natCast_nonneg n)
      have hrange : CInt.InRange (xx + step) := by
        unfold CInt.InRange at hlast ⊢
        omega
      obtain ⟨ws, go', hloop, hsets, hother⟩ := ih (xx + step) (knob.putHalf go xx)
        (by omega) hturns hlast
      have hlimit : knob.limit xx = xx := by
        unfold Knob.limit Knob.aoMax
        omega
      have hholds : knob.Holds xx := ⟨hmin, by omega, fun _ => by omega⟩
      have hkept := get_putHalf_other knob go xx
      refine ⟨h.writeGo knob (knob.putHalf go xx) ++ ws, go', ?_, ?_, hother.trans hkept⟩
      · intro fuel hfuel
        obtain ⟨fuel, rfl⟩ :=
          Nat.exists_eq_succ_of_ne_zero (Nat.ne_of_gt (Nat.zero_lt_of_lt hfuel))
        unfold Hook.stepLoop
        rw [if_pos hlt, CInt.value_of_inRange husec, CInt.value_of_inRange hrange]
        show ((h.stepLoop knob stop step usec fuel (xx + step) (knob.putHalf go xx)).bind
          fun r => some (h.writeGo knob (knob.putHalf go xx) ++ r.1, r.2)) = _
        rw [hloop fuel (Nat.lt_of_succ_lt_succ hfuel)]
        rfl
      · have hfirst := writeGo_sets h knob go xx
        rw [read_of_holds hholds] at hfirst
        rw [steps_succ, List.map_cons, hlimit]
        exact hfirst.append (hsets.of_other hkept)

theorem stepLoop_of_ends {start : Int} (hmin : knob.aoMin ≤ start) (hstop : stop ≤ 32768)
    (hends : Ends start stop step usec) :
    ∃ n, Turns start stop step n ∧ ∀ go, ∃ ws go',
      (∀ fuel > n, h.stepLoop knob stop step usec fuel start go = some (ws, go')) ∧
        Sets knob go ((steps start step n).map knob.limit) ws ∧
        knob.other.half.get go' = knob.other.half.get go := by
  by_cases hlt : start < stop
  · rcases hends with hle | ⟨husec, n, hturns, hlast⟩
    · omega
    · have hstep : 0 ≤ step := by
        by_contra hneg
        have hprod : step * n ≤ 0 :=
          Int.mul_nonpos_of_nonpos_of_nonneg (by omega) (Int.natCast_nonneg n)
        have := hturns.1
        omega
      exact ⟨n, hturns, fun go => stepLoop_sets hstep husec hstop n start go hmin hturns hlast⟩
  · refine ⟨0, ⟨by simpa using hlt, fun k hk => absurd hk (Nat.not_lt_zero k)⟩, ?_⟩
    intro go
    exact ⟨[], go, fun fuel hfuel => stepLoop_done hlt hfuel, sets_nil knob go, rfl⟩

/-- Turns that write the same values, whatever the other half. -/
theorem repLoop_sets {start : Int} {n : Nat} {xs : List Int}
    (hloop : ∀ go, ∃ ws go',
      (∀ fuel > n, h.stepLoop knob stop step usec fuel start go = some (ws, go')) ∧
        Sets knob go xs ws ∧ knob.other.half.get go' = knob.other.half.get go) (reps : Nat) :
    ∀ go, ∃ ws, (∀ fuel > n, h.repLoop knob start stop step usec fuel reps go = some ws) ∧
      Sets knob go (List.replicate reps xs).flatten ws := by
  induction reps with
  | zero =>
      intro go
      exact ⟨[], fun _ _ => rfl, sets_nil knob go⟩
  | succ reps ih =>
      intro go
      obtain ⟨ws, go', hws, hsets, hother⟩ := hloop go
      obtain ⟨more, hmore, hsets'⟩ := ih go'
      refine ⟨ws ++ more, ?_, ?_⟩
      · intro fuel hfuel
        unfold Hook.repLoop
        rw [hws fuel hfuel]
        show ((h.repLoop knob start stop step usec fuel reps go').bind
          fun more => some (ws ++ more)) = _
        rw [hmore fuel hfuel]
        rfl
      · rw [List.replicate_succ, List.flatten_cons]
        exact hsets.append (hsets'.of_other hother)

/-- Where the ramp starts. -/
def Ramp.from (knob : Knob) (r : Ramp) : Int := max r.start knob.aoMin

/-- Where the ramp stops. -/
def Ramp.to (knob : Knob) (r : Ramp) : Int := min r.stop knob.aoMax

theorem ramp_eq (h : Hook) (knob : Knob) (fuel : Nat) (r : Ramp) (go : BitVec 32) :
    h.ramp knob fuel r go =
      h.repLoop knob (r.from knob) (r.to knob) r.step r.usec fuel r.reps.toNat go := by
  have hstop : (if r.stop > knob.aoMax then knob.aoMax else r.stop) = r.to knob := by
    unfold Ramp.to
    split <;> omega
  have hstart : (if r.start < knob.aoMin then knob.aoMin else r.start) = r.from knob := by
    unfold Ramp.from
    split <;> omega
  unfold Hook.ramp
  rw [hstop, hstart]

/-- The ramp ends, and it writes its values as often as it is asked to. -/
def RampRight (h : Hook) (knob : Knob) (go : BitVec 32) (buf : List Char) : Prop :=
  ∀ r, scanRamp buf = some r → ∃ ws n, (∀ fuel > n, h.ramp knob fuel r go = some ws) ∧
    (0 < r.reps → Turns (r.from knob) (r.to knob) r.step n) ∧
    Sets knob go
      (List.replicate r.reps.toNat ((steps (r.from knob) r.step n).map knob.limit)).flatten ws

/-- Nothing is repeated, or the loop ends. -/
def RampHarmless (knob : Knob) (buf : List Char) : Prop :=
  ∀ r, scanRamp buf = some r → r.reps ≤ 0 ∨ Ends (r.from knob) (r.to knob) r.step r.usec

theorem rampRight_iff (h : Hook) (knob : Knob) (go : BitVec 32) (buf : List Char) :
    RampRight h knob go buf ↔ RampHarmless knob buf := by
  refine forall₂_congr fun r _ => ?_
  constructor
  · rintro ⟨ws, n, hramp, -⟩
    have hws := hramp (n + 1) (Nat.lt_succ_self n)
    rw [ramp_eq] at hws
    cases hreps : r.reps.toNat with
    | zero => exact .inl (by omega)
    | succ reps =>
        rw [hreps] at hws
        unfold Hook.repLoop at hws
        obtain ⟨r', hr', -⟩ := Option.bind_eq_some_iff.mp hws
        exact .inr (ends_of_stepLoop _ _ _ _ hr')
  · intro hharm
    have hmin : knob.aoMin ≤ r.from knob := Int.le_max_right _ _
    have hmax : r.to knob ≤ 32768 := Int.min_le_right _ _
    rcases hharm with hreps | hends
    · have hzero : r.reps.toNat = 0 := Int.toNat_of_nonpos hreps
      refine ⟨[], 0, fun fuel _ => ?_, fun hpos => by omega, ?_⟩
      · rw [ramp_eq, hzero]
        rfl
      · rw [hzero]
        exact sets_nil knob go
    · obtain ⟨n, hturns, hloop⟩ := stepLoop_of_ends (h := h) hmin hmax hends
      obtain ⟨ws, hws, hsets⟩ := repLoop_sets hloop r.reps.toNat go
      refine ⟨ws, n, fun fuel hfuel => ?_, fun _ => hturns, hsets⟩
      rw [ramp_eq]
      exact hws fuel hfuel

/-! ### Both knobs -/

/-- A knob for a single value, or for a ramp. -/
inductive Store where
  | ao
  | ramp
deriving DecidableEq, Repr

def Store.Right : Store → Hook → Knob → BitVec 32 → List Char → Prop
  | .ao => GoRight
  | .ramp => RampRight

def Store.Harmless : Store → Knob → List Char → Prop
  | .ao => GoHarmless
  | .ramp => RampHarmless

/--
**A text is written as it should be if and only if the value fits its half and is scanned, or the
ramp ends without an overflow.**
-/
theorem stored_right_iff (store : Store) (h : Hook) (knob : Knob) (go : BitVec 32)
    (buf : List Char) : store.Right h knob go buf ↔ store.Harmless knob buf := by
  cases store with
  | ao => exact goRight_iff h knob go buf
  | ramp => exact rampRight_iff h knob go buf

/-- A ramp whose step is 0 does not end. -/
theorem standing_ramp_not_right : ¬Store.ramp.Right { hook := 0, site := 1 }
    { chan := 1, gain := true } 0 "0,10,0,1\n".toList := by
  intro hright
  rcases (rampRight_iff _ _ _ _).mp hright
    { start := 0, stop := 10, step := 0, usec := 1, reps := 1 } (by decide) with hreps | hends
  · revert hreps
    decide
  · rcases hends with hle | ⟨-, n, ⟨hle, -⟩, -⟩
    · revert hle
      decide
    · have hstop : Ramp.to { chan := 1, gain := true }
          { start := 0, stop := 10, step := 0, usec := 1, reps := 1 } = 10 := by decide
      have hstart : Ramp.from { chan := 1, gain := true }
          { start := 0, stop := 10, step := 0, usec := 1, reps := 1 } = 0 := by decide
      rw [hstop, hstart] at hle
      have hle : (10 : Int) ≤ 0 + 0 * n := hle
      omega

end AoGo

end Acq400
