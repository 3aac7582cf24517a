/-
What is summed for one sample a buffer.

The loop goes from one sample that it comes to, `pos j`, to the next: `nsam / oversampling` on, and
one more where the sample was a duplicate and the one behind it is taken instead.  It
`endsAt` the first one behind the buffer, or the first that is rejected.  Not to sum more
than `oversampling` samples it must come to as many duplicates as the quotient has left over.
-/
import Acq400.Stream.SingleSample
import Mathlib.Data.Nat.Count
import Mathlib.Tactic.Positivity

namespace Acq400.SingleSample

variable {b : SingleSample} {src : Nat → BitVec b.bits} {j k p fuel : Nat} {s r : Summed}

/-! ### Where the loop comes to -/

/-- A sample whose first channels are all the same. -/
def dup (b : SingleSample) (src : Nat → BitVec b.bits) (p : Nat) : Bool :=
  b.checkiten && !(b.checkitOk src p).1

/-- Two of them, one behind the other. -/
def rejects (b : SingleSample) (src : Nat → BitVec b.bits) (p : Nat) : Bool :=
  b.dup src p && !(b.checkitOk src (p + 1)).1

/-- The sample that is taken at `p`. -/
def taken (b : SingleSample) (src : Nat → BitVec b.bits) (p : Nat) : Nat :=
  if b.dup src p then p + 1 else p

/-- The sample that the loop comes to for the `j`th time. -/
def pos (b : SingleSample) (src : Nat → BitVec b.bits) : Nat → Nat
  | 0 => 0
  | j + 1 => b.taken src (pos b src j) + b.nsam / b.oversampling

/-- The words that are looked at there. -/
def looks (b : SingleSample) (src : Nat → BitVec b.bits) (p : Nat) : List Nat :=
  (b.check src p).2 ++ if b.rejects src p then [] else b.words (b.taken src p)

/-- A channel's sum over the first `j` samples that are taken. -/
def sumTo (b : SingleSample) (src : Nat → BitVec b.bits) : Nat → Nat → Int
  | 0, _ => 0
  | j + 1, ic => sumTo b src j ic + b.shifted src (b.taken src (b.pos src j) * b.nchan + ic)

/-- The sums are `int`s. -/
def SumOk (b : SingleSample) (src : Nat → BitVec b.bits) (j : Nat) : Prop :=
  ∀ ic < b.nchan, CInt.InRange (b.sumTo src j ic)

theorem check_eq (p : Nat) : b.check src p =
    (if b.rejects src p then none else some (b.taken src p), (b.check src p).2) := by
  unfold check rejects taken dup
  cases b.checkiten with
  | false => rfl
  | true =>
      generalize b.checkitOk src p = this
      generalize b.checkitOk src (p + 1) = behind
      obtain ⟨ok, reads⟩ := this
      obtain ⟨ok', reads'⟩ := behind
      cases ok with
      | true => rfl
      | false => cases ok' <;> rfl

theorem addSample_eq (j : Nat) :
    b.addSample src (b.sumTo src j) (b.taken src (b.pos src j)) =
      if ∀ ic < b.nchan, CInt.InRange (b.sumTo src (j + 1) ic) then some (b.sumTo src (j + 1))
      else none := rfl

/-- Where the loop has come to for the `j`th time. -/
structure At (b : SingleSample) (src : Nat → BitVec b.bits) (j : Nat) (s : Summed) : Prop where
  rejected : s.rejected = false
  count : s.count = j
  sums : s.sums = b.sumTo src j

/-- The next time. -/
def next (b : SingleSample) (src : Nat → BitVec b.bits) (j : Nat) (s : Summed) : Summed where
  rejected := false
  count := j + 1
  sums := b.sumTo src (j + 1)
  reads := s.reads ++ b.looks src (b.pos src j)

theorem next_at (j : Nat) (s : Summed) : At b src (j + 1) (next b src j s) := ⟨rfl, rfl, rfl⟩

theorem sumLoop_end (hend : b.nsam ≤ b.pos src j) :
    b.sumLoop src (fuel + 1) (b.pos src j) s = some s := by
  unfold sumLoop
  rw [if_neg (Nat.not_lt.mpr hend)]

theorem sumLoop_rejects (hlt : b.pos src j < b.nsam) (hrej : b.rejects src (b.pos src j) = true) :
    b.sumLoop src (fuel + 1) (b.pos src j) s =
      some { s with rejected := true, reads := s.reads ++ b.looks src (b.pos src j) } := by
  unfold sumLoop looks
  rw [if_pos hlt, check_eq, hrej, if_pos rfl, if_pos rfl, List.append_nil]

theorem sumLoop_takes (hat : At b src j s) (hlt : b.pos src j < b.nsam)
    (hrej : b.rejects src (b.pos src j) = false) :
    b.sumLoop src (fuel + 1) (b.pos src j) s =
      if ∀ ic < b.nchan, CInt.InRange (b.sumTo src (j + 1) ic) then
        b.sumLoop src fuel (b.pos src (j + 1)) (next b src j s)
      else none := by
  have hreads : s.reads ++ (b.check src (b.pos src j)).2 ++ b.words (b.taken src (b.pos src j)) =
      s.reads ++ b.looks src (b.pos src j) := by
    unfold looks
    rw [hrej, if_neg Bool.false_ne_true, List.append_assoc]
  rw [sumLoop, if_pos hlt, check_eq, hrej, if_neg Bool.false_ne_true]
  dsimp only
  rw [hat.sums, addSample_eq, hat.count, hreads]
  split
  · rfl
  · rfl

/-! ### Where it ends -/

/-- The loop goes on up to `k`, -/
structure GoesTo (b : SingleSample) (src : Nat → BitVec b.bits) (j k : Nat) : Prop where
  le : j ≤ k
  inside : ∀ i, j ≤ i → i < k → b.pos src i < b.nsam
  takes : ∀ i, j ≤ i → i < k → b.rejects src (b.pos src i) = false
  sums : ∀ i, j ≤ i → i < k → b.SumOk src (i + 1)

/-- and ends there. -/
def EndsAt (b : SingleSample) (src : Nat → BitVec b.bits) (k : Nat) : Prop :=
  b.nsam ≤ b.pos src k ∨ b.rejects src (b.pos src k) = true

/-- With what it has looked at since the `j`th time. -/
def ReadsFrom (b : SingleSample) (src : Nat → BitVec b.bits) (j k : Nat) (s r : Summed) : Prop :=
  ∀ w, w ∈ r.reads ↔ w ∈ s.reads ∨
    ∃ i, j ≤ i ∧ i ≤ k ∧ b.pos src i < b.nsam ∧ w ∈ b.looks src (b.pos src i)

/-- What comes of the loop if it ends at `k`. -/
structure Gives (b : SingleSample) (src : Nat → BitVec b.bits) (k : Nat) (r : Summed) : Prop where
  rejected : r.rejected = decide (b.pos src k < b.nsam)
  count : r.count = k
  sums : r.sums = b.sumTo src k

theorem sumLoop_some : ∀ {fuel j : Nat} {s : Summed}, At b src j s →
    b.sumLoop src fuel (b.pos src j) s = some r →
      ∃ k, GoesTo b src j k ∧ b.EndsAt src k ∧ Gives b src k r ∧ ReadsFrom b src j k s r := by
  intro fuel
  induction fuel with
  | zero => intro j s _ hloop; cases hloop
  | succ fuel ih =>
      intro j s hat hloop
      rcases Nat.lt_or_ge (b.pos src j) b.nsam with hlt | hge
      · cases hrej : b.rejects src (b.pos src j) with
        | true =>
            rw [sumLoop_rejects hlt hrej] at hloop
            obtain rfl := Option.some.inj hloop
            refine ⟨j, ⟨Nat.le_refl j, ?_, ?_, ?_⟩, Or.inr hrej,
              ⟨(decide_eq_true hlt).symm, hat.count, hat.sums⟩, ?_⟩
            · intro i hji hij
              omega
            · intro i hji hij
              omega
            · intro i hji hij
              omega
            · intro w
              dsimp only
              rw [List.mem_append]
              refine or_congr_right ⟨fun hw => ⟨j, Nat.le_refl j, Nat.le_refl j, hlt, hw⟩, ?_⟩
              rintro ⟨i, hji, hij, _, hw⟩
              obtain rfl := Nat.le_antisymm hij hji
              exact hw
        | false =>
            rw [sumLoop_takes hat hlt hrej] at hloop
            split at hloop
            · rename_i hsums
              obtain ⟨k, hgoes, hends, hgives, hreads⟩ := ih (next_at j s) hloop
              have hjk := hgoes.le
              refine ⟨k, ⟨by omega, ?_, ?_, ?_⟩, hends, hgives, ?_⟩
              · intro i hji hik
                rcases Nat.eq_or_lt_of_le hji with rfl | hji'
                · exact hlt
                · exact hgoes.inside i hji' hik
              · intro i hji hik
                rcases Nat.eq_or_lt_of_le hji with rfl | hji'
                · exact hrej
                · exact hgoes.takes i hji' hik
              · intro i hji hik
                rcases Nat.eq_or_lt_of_le hji with rfl | hji'
                · exact hsums
                · exact hgoes.sums i hji' hik
              · intro w
                rw [hreads w]
                unfold next
                dsimp only
                rw [List.mem_append, or_assoc]
                refine or_congr_right ⟨?_, ?_⟩
                · rintro (hw | ⟨i, hji, hik, hin, hw⟩)
                  · exact ⟨j, Nat.le_refl j, by omega, hlt, hw⟩
                  · exact ⟨i, by omega, hik, hin, hw⟩
                · rintro ⟨i, hji, hik, hin, hw⟩
                  rcases Nat.eq_or_lt_of_le hji with rfl | hji'
                  · exact Or.inl hw
                  · exact Or.inr ⟨i, hji', hik, hin, hw⟩
            · cases hloop
      · rw [sumLoop_end hge] at hloop
        obtain rfl := Option.some.inj hloop
        refine ⟨j, ⟨Nat.le_refl j, ?_, ?_, ?_⟩, Or.inl hge,
          ⟨?_, hat.count, hat.sums⟩, ?_⟩
        · intro i hji hij
          omega
        · intro i hji hij
          omega
        · intro i hji hij
          omega
        · rw [hat.rejected]
          exact (decide_eq_false (Nat.not_lt.mpr hge)).symm
        · intro w
          refine ⟨Or.inl, ?_⟩
          rintro (hw | ⟨i, hji, hij, hin, _⟩)
          · exact hw
          · obtain rfl := Nat.le_antisymm hij hji
            omega

theorem sumLoop_of_goesTo : ∀ {d j : Nat} {s : Summed}, At b src j s → GoesTo b src j (j + d) →
    b.EndsAt src (j + d) → ∃ r, b.sumLoop src (d + 1) (b.pos src j) s = some r := by
  intro d
  induction d with
  | zero =>
      intro j s _ _ hends
      rcases Nat.lt_or_ge (b.pos src j) b.nsam with hlt | hge
      · exact ⟨_, sumLoop_rejects hlt (hends.resolve_left (Nat.not_le.mpr hlt))⟩
      · exact ⟨_, sumLoop_end hge⟩
  | succ d ih =>
      intro j s hat hgoes hends
      have hd : j + (d + 1) = j + 1 + d := by omega
      rw [hd] at hgoes hends
      have hsums : ∀ ic < b.nchan, CInt.InRange (b.sumTo src (j + 1) ic) :=
        hgoes.sums j (Nat.le_refl j) (by omega)
      rw [sumLoop_takes hat (hgoes.inside j (Nat.le_refl j) (by omega))
        (hgoes.takes j (Nat.le_refl j) (by omega)), if_pos hsums]
      refine ih (next_at j s) ⟨by omega, ?_, ?_, ?_⟩ hends
      · exact fun i hi hik => hgoes.inside i (by omega) hik
      · exact fun i hi hik => hgoes.takes i (by omega) hik
      · exact fun i hi hik => hgoes.sums i (by omega) hik

/-! ### What is asked of it -/

/-- The bits of a sample: of the 32 of a word the upper 24. -/
def sampleBits (b : SingleSample) : Nat := if b.wide then 24 else 16

/-- It ends, having looked at samples of the buffer only, and what it sums, unless it rejects
the buffer, is at most `oversampling` samples, with sums that are samples again once shifted. -/
def Right (b : SingleSample) (src : Nat → BitVec b.bits) : Prop :=
  ∃ fuel r, b.writeBuffer src fuel = some r ∧
    (∀ w ∈ r.reads, w < b.nsam * b.nchan) ∧
    (r.rejected = false → r.count ≤ b.oversampling ∧ ∀ ic < b.nchan,
      -2 ^ (b.sampleBits - 1) ≤ r.sums ic ∧ r.sums ic < 2 ^ (b.sampleBits - 1))

/-- The loop comes to `pos j`, in the buffer. -/
def Visits (b : SingleSample) (src : Nat → BitVec b.bits) (j : Nat) : Prop :=
  b.pos src j < b.nsam ∧ ∀ i < j, b.rejects src (b.pos src i) = false

theorem pos_le_succ (j : Nat) : b.pos src j ≤ b.pos src (j + 1) := by
  have htaken : b.pos src j ≤ b.taken src (b.pos src j) := by
    unfold taken
    split <;> omega
  exact Nat.le_add_right_of_le htaken

theorem pos_mono (h : j ≤ k) : b.pos src j ≤ b.pos src k := by
  induction h with
  | refl => exact Nat.le_refl _
  | step _ ih => exact Nat.le_trans ih (pos_le_succ _)

/-- The duplicates among the first `n` samples that it comes to. -/
def dups (b : SingleSample) (src : Nat → BitVec b.bits) (n : Nat) : Nat :=
  Nat.count (fun i => b.dup src (b.pos src i) = true) n

theorem pos_eq (n : Nat) : b.pos src n = n * (b.nsam / b.oversampling) + b.dups src n := by
  induction n with
  | zero =>
      rw [Nat.zero_mul]
      rfl
  | succ n ih =>
      have htaken : b.taken src (b.pos src n) =
          b.pos src n + if b.dup src (b.pos src n) = true then 1 else 0 := by
        unfold taken
        split <;> rfl
      have hcount : b.dups src (n + 1) =
          b.dups src n + if b.dup src (b.pos src n) = true then 1 else 0 := Nat.count_succ _ n
      rw [pos, Nat.succ_mul]
      generalize b.nsam / b.oversampling = stride at ih ⊢
      omega

/-- After `oversampling` samples it is behind the end exactly if as many were duplicates as the
quotient leaves over. -/
theorem nsam_le_pos_iff :
    b.nsam ≤ b.pos src b.oversampling ↔
      b.nsam % b.oversampling ≤ b.dups src b.oversampling := by
  have hdiv := Nat.div_add_mod b.nsam b.oversampling
  rw [pos_eq]
  omega

/-! ### Sums and shifts -/

theorem asrLoop_spec (os : Nat) : ∀ fuel asr, os ≤ 2 ^ (asr + fuel) →
    os ≤ 2 ^ asrLoop os fuel asr ∧ asrLoop os fuel asr ≤ asr + fuel := by
  intro fuel
  induction fuel with
  | zero => intro asr hos; exact ⟨hos, Nat.le_refl _⟩
  | succ fuel ih =>
      intro asr hos
      unfold asrLoop
      split
      · have hnext : asr + (fuel + 1) = asr + 1 + fuel := by omega
        rw [hnext] at hos ⊢
        exact ih (asr + 1) hos
      · rename_i hdone
        exact ⟨Nat.le_of_not_lt hdone, Nat.le_add_right _ _⟩

theorem asrOf_spec {os : Nat} (hos : os < 2 ^ 31) : os ≤ 2 ^ asrOf os ∧ asrOf os ≤ 31 := by
  have hspec := asrLoop_spec os 31 0 (by omega)
  rwa [Nat.zero_add] at hspec

/-- The bits of a word that are left once it is shifted, the sign apart. -/
def termBits (b : SingleSample) : Nat := b.bits - 1 - b.asr1

theorem bits_eq (hover : b.oversampling < 2 ^ 31) : b.bits - 1 = b.termBits + b.asr1 := by
  have hasr := (asrOf_spec hover).2
  unfold termBits asr1 asr bits
  split
  · split <;> omega
  · omega

/-- Of `2 ^ asrOf oversampling` words the sum has as many bits as a sample that is not yet
shifted. -/
theorem termBits_add (hover : b.oversampling < 2 ^ 31) :
    b.termBits + asrOf b.oversampling = b.sampleBits - 1 + b.asr := by
  have hasr := (asrOf_spec hover).2
  unfold termBits sampleBits asr1 asr bits
  cases b.wide with
  | false => simp
  | true =>
      simp only [if_true, true_and]
      split <;> omega

theorem shiftRight_range {x : Int} {a n : Nat} (hlow : -2 ^ (a + n) ≤ x) (hhigh : x < 2 ^ (a + n)) :
    -2 ^ a ≤ x >>> n ∧ x >>> n < 2 ^ a := by
  have hpos : (0 : Int) < ((2 ^ n : Nat) : Int) := by positivity
  have hcast : ((2 ^ n : Nat) : Int) = 2 ^ n := by push_cast; rfl
  rw [Int.shiftRight_eq_div_pow, Int.le_ediv_iff_mul_le hpos, Int.ediv_lt_iff_lt_mul hpos, hcast]
  rw [pow_add] at hlow hhigh
  constructor
  · rwa [neg_mul]
  · exact hhigh

theorem shifted_range (src : Nat → BitVec b.bits) (hover : b.oversampling < 2 ^ 31) (w : Nat) :
    -2 ^ b.termBits ≤ b.shifted src w ∧ b.shifted src w < 2 ^ b.termBits := by
  have hlow := BitVec.le_toInt (src w)
  have hhigh := BitVec.toInt_lt (x := src w)
  rw [bits_eq hover] at hlow hhigh
  exact shiftRight_range hlow hhigh

theorem sumTo_range (src : Nat → BitVec b.bits) (hover : b.oversampling < 2 ^ 31) (j ic : Nat) :
    -(j * 2 ^ b.termBits) ≤ b.sumTo src j ic ∧ b.sumTo src j ic + j ≤ j * 2 ^ b.termBits := by
  induction j with
  | zero =>
      unfold sumTo
      omega
  | succ j ih =>
      obtain ⟨hlow, hhigh⟩ := shifted_range src hover
        (b.taken src (b.pos src j) * b.nchan + ic)
      unfold sumTo
      push_cast
      rw [add_mul]
      omega

theorem two_pow_pos (n : Nat) : (0 : Int) < 2 ^ n := by positivity

/-- The sum of at most `oversampling` words is a sample again once it is shifted, -/
theorem shifted_sum (hover : b.oversampling < 2 ^ 31) (hj : j ≤ b.oversampling) (ic : Nat) :
    -2 ^ (b.sampleBits - 1) ≤ b.sumTo src j ic >>> b.asr ∧
      b.sumTo src j ic >>> b.asr < 2 ^ (b.sampleBits - 1) := by
  obtain ⟨hlow, hhigh⟩ := sumTo_range src hover j ic
  have hpow : (j : Int) * 2 ^ b.termBits ≤ 2 ^ (b.sampleBits - 1 + b.asr) := by
    have hle : (j : Int) ≤ 2 ^ asrOf b.oversampling := by
      have hnat := Nat.le_trans hj (asrOf_spec hover).1
      exact_mod_cast hnat
    rw [← termBits_add hover, Nat.add_comm, pow_add]
    exact mul_le_mul_of_nonneg_right hle (two_pow_pos _).le
  refine shiftRight_range (by omega) ?_
  rcases Nat.eq_zero_or_pos j with rfl | hpos
  · exact two_pow_pos _
  · omega

/-- and does not overflow: always in words of 32 bits, and in 16 bits if there are at most
65536. -/
theorem sumOk_of_le (hover : b.oversampling < 2 ^ 31) (hj : j ≤ b.oversampling)
    (hbits : b.wide = true ∨ b.oversampling ≤ 65536) : b.SumOk src j := by
  intro ic _
  obtain ⟨hlow, hhigh⟩ := sumTo_range src hover j ic
  have hpow : (j : Int) * 2 ^ b.termBits ≤ 2 ^ 31 := by
    cases hwide : b.wide with
    | true =>
        have hexp : asrOf b.oversampling + b.termBits ≤ 31 := by
          rw [Nat.add_comm, termBits_add hover]
          unfold sampleBits asr
          rw [hwide]
          simp only [if_true, true_and]
          split <;> omega
        have hle : (j : Int) ≤ 2 ^ asrOf b.oversampling := by
          have hnat := Nat.le_trans hj (asrOf_spec hover).1
          exact_mod_cast hnat
        refine le_trans (mul_le_mul_of_nonneg_right hle (two_pow_pos _).le) ?_
        rw [← pow_add]
        exact pow_le_pow_right₀ (by decide) hexp
    | false =>
        have hle : (j : Int) ≤ 2 ^ 16 := by
          have hnat : j ≤ 65536 := Nat.le_trans hj (hbits.resolve_left (by rw [hwide]; decide))
          omega
        have hexp : b.termBits = 15 := by
          unfold termBits bits asr1
          rw [hwide]
          rfl
        rw [hexp]
        exact le_trans (mul_le_mul_of_nonneg_right hle (two_pow_pos _).le) (by decide)
  unfold CInt.InRange
  rcases Nat.eq_zero_or_pos j with rfl | hpos
  · unfold sumTo
    decide
  · omega

/-! ### The loop as a whole -/

theorem endsAt_unique (hj : GoesTo b src 0 j) (hjends : b.EndsAt src j) (hk : GoesTo b src 0 k)
    (hkends : b.EndsAt src k) : j = k := by
  have hnot : ∀ {m n : Nat}, GoesTo b src 0 n → b.EndsAt src m → ¬ m < n := by
    intro m n hgoes hends hlt
    rcases hends with hend | hrej
    · have hin := hgoes.inside m (Nat.zero_le m) hlt
      omega
    · rw [hgoes.takes m (Nat.zero_le m) hlt] at hrej
      cases hrej
  rcases Nat.lt_trichotomy j k with hlt | heq | hgt
  · exact absurd hlt (hnot hk hjends)
  · exact heq
  · exact absurd hgt (hnot hj hkends)

/-- What `writeBuffer` starts with. -/
def start (b : SingleSample) : Summed where
  rejected := false
  count := 0
  sums := fun _ => 0
  reads := if b.showFirstSample then b.words 0 else []

theorem start_at : At b src 0 b.start := ⟨rfl, rfl, rfl⟩

theorem writeBuffer_eq (fuel : Nat) : b.writeBuffer src fuel =
    (b.sumLoop src fuel (b.pos src 0) b.start).bind fun s =>
      if s.rejected then some s else some { s with sums := fun ic => s.sums ic >>> b.asr } := rfl

theorem start_reads (hnsam : 0 < b.nsam) : ∀ w ∈ b.start.reads, w < b.nsam * b.nchan := by
  intro w hw
  unfold start at hw
  dsimp only at hw
  split at hw
  · obtain ⟨ic, hic, rfl⟩ := List.mem_map.mp hw
    have hlt := List.mem_range.mp hic
    have hle : b.nchan ≤ b.nsam * b.nchan := Nat.le_mul_of_pos_left _ hnsam
    omega
  · cases hw

/-- The words that are looked at where the loop comes to are words of the buffer. -/
def LooksInside (b : SingleSample) (src : Nat → BitVec b.bits) (p : Nat) : Prop :=
  ∀ w ∈ b.looks src p, w < b.nsam * b.nchan

theorem right_iff_goesTo (hnsam : 0 < b.nsam) (hover : b.oversampling < 2 ^ 31) :
    b.Right src ↔ ∃ k, GoesTo b src 0 k ∧ b.EndsAt src k ∧
      (∀ i ≤ k, b.pos src i < b.nsam → b.LooksInside src (b.pos src i)) ∧
      (b.nsam ≤ b.pos src k → k ≤ b.oversampling) := by
  constructor
  · rintro ⟨fuel, r, hwrite, hreads, hfits⟩
    rw [writeBuffer_eq] at hwrite
    obtain ⟨s, hloop, hr⟩ := Option.bind_eq_some_iff.mp hwrite
    obtain ⟨k, hgoes, hends, hgives, hlooks⟩ := sumLoop_some start_at hloop
    have hkeep : r.reads = s.reads ∧ r.rejected = s.rejected ∧ r.count = s.count := by
      split at hr
      · obtain rfl := Option.some.inj hr
        exact ⟨rfl, rfl, rfl⟩
      · obtain rfl := Option.some.inj hr
        exact ⟨rfl, rfl, rfl⟩
    refine ⟨k, hgoes, hends, ?_, ?_⟩
    · intro i hik hin w hw
      refine hreads w ?_
      rw [hkeep.1, hlooks w]
      exact Or.inr ⟨i, Nat.zero_le i, hik, hin, hw⟩
    · intro hend
      rw [← hgives.count, ← hkeep.2.2]
      refine (hfits ?_).1
      rw [hkeep.2.1, hgives.rejected]
      exact decide_eq_false (Nat.not_lt.mpr hend)
  · rintro ⟨k, hgoes, hends, hlooks, hcount⟩
    rw [← Nat.zero_add k] at hgoes hends
    obtain ⟨s, hloop⟩ := sumLoop_of_goesTo start_at hgoes hends
    obtain ⟨k', hgoes', hends', hgives, hreads⟩ := sumLoop_some start_at hloop
    obtain rfl := endsAt_unique hgoes hends hgoes' hends'
    rw [Nat.zero_add] at hends hgives hreads
    have hinside : ∀ w ∈ s.reads, w < b.nsam * b.nchan := by
      intro w hw
      rcases (hreads w).mp hw with hfirst | ⟨i, _, hik, hin, hlook⟩
      · exact start_reads hnsam w hfirst
      · exact hlooks i hik hin w hlook
    cases hrej : s.rejected with
    | true =>
        refine ⟨k + 1, s, ?_, hinside, ?_⟩
        · rw [writeBuffer_eq, hloop]
          exact if_pos hrej
        · intro hnot
          rw [hrej] at hnot
          cases hnot
    | false =>
        refine ⟨k + 1, { s with sums := fun ic => s.sums ic >>> b.asr }, ?_, hinside, ?_⟩
        · rw [writeBuffer_eq, hloop]
          exact if_neg (by rw [hrej]; decide)
        · intro _
          have hend : b.nsam ≤ b.pos src k := by
            have hrejected := hgives.rejected
            rw [hrej] at hrejected
            exact Nat.le_of_not_lt (of_decide_eq_false hrejected.symm)
          have hk : k ≤ b.oversampling := hcount hend
          refine ⟨hgives.count ▸ hk, ?_⟩
          intro ic _
          dsimp only
          rw [hgives.sums]
          exact shifted_sum hover hk ic

/-- The sums of the samples that are taken are all `int`s. -/
def SumsFit (b : SingleSample) (src : Nat → BitVec b.bits) : Prop :=
  ∀ k, (∀ j < k, b.Visits src j ∧ b.rejects src (b.pos src j) = false) → b.SumOk src k

theorem sumOk_zero : b.SumOk src 0 := by
  intro ic _
  unfold sumTo
  decide

/-- The loop comes to an end at the sample that it rejects, -/
theorem goesTo_of_rejects (hsums : b.SumsFit src) (hvisits : b.Visits src j)
    (hrej : b.rejects src (b.pos src j) = true) : GoesTo b src 0 j ∧ b.EndsAt src j := by
  have hinside : ∀ i ≤ j, b.pos src i < b.nsam :=
    fun i hi => Nat.lt_of_le_of_lt (pos_mono hi) hvisits.1
  refine ⟨⟨Nat.zero_le j, ?_, ?_, ?_⟩, Or.inr hrej⟩
  · exact fun i _ hi => hinside i (by omega)
  · exact fun i _ hi => hvisits.2 i hi
  · intro i _ hi
    refine hsums (i + 1) ?_
    intro t ht
    exact ⟨⟨hinside t (by omega), fun u hu => hvisits.2 u (by omega)⟩, hvisits.2 t (by omega)⟩

theorem goesTo_of_end (hsums : b.SumsFit src) (hend : b.nsam ≤ b.pos src j)
    (hnone : ∀ i, b.Visits src i → b.rejects src (b.pos src i) = false) :
    ∃ k ≤ j, GoesTo b src 0 k ∧ b.EndsAt src k := by
  classical
  have hex : ∃ k, b.nsam ≤ b.pos src k := ⟨j, hend⟩
  have hinside : ∀ i < Nat.find hex, b.pos src i < b.nsam :=
    fun i hi => Nat.lt_of_not_le (Nat.find_min hex hi)
  have htakes : ∀ i < Nat.find hex, b.rejects src (b.pos src i) = false := by
    intro i
    induction i using Nat.strong_induction_on with
    | _ i ih =>
        intro hi
        exact hnone i ⟨hinside i hi, fun t ht => ih t ht (by omega)⟩
  refine ⟨Nat.find hex, Nat.find_le hend, ⟨Nat.zero_le _, ?_, ?_, ?_⟩,
    Or.inl (Nat.find_spec hex)⟩
  · exact fun i _ hi => hinside i hi
  · exact fun i _ hi => htakes i hi
  · intro i _ hi
    refine hsums (i + 1) ?_
    intro t ht
    exact ⟨⟨hinside t (by omega), fun u hu => htakes u (by omega)⟩, htakes t (by omega)⟩

/-- **It does what is asked of it exactly if at each sample it comes to it looks at the buffer
only, no sum overflows, and it either rejects the buffer or comes to as many duplicates, among
the first `oversampling` samples, as `nsam / oversampling` leaves over.** -/
theorem right_iff (hnsam : 0 < b.nsam) (hover : b.oversampling < 2 ^ 31) :
    b.Right src ↔
      (∀ j, b.Visits src j → b.LooksInside src (b.pos src j)) ∧ b.SumsFit src ∧
        ((∃ j, b.Visits src j ∧ b.rejects src (b.pos src j) = true) ∨
          b.nsam % b.oversampling ≤ b.dups src b.oversampling) := by
  rw [right_iff_goesTo hnsam hover, ← nsam_le_pos_iff]
  constructor
  · rintro ⟨k, hgoes, hends, hlooks, hcount⟩
    have hle : ∀ j, b.Visits src j → j ≤ k := by
      intro j hvisits
      by_contra hlt
      rcases hends with hend | hrej
      · have hmono : b.pos src k ≤ b.pos src j := pos_mono (by omega)
        have hin := hvisits.1
        omega
      · rw [hvisits.2 k (by omega)] at hrej
        cases hrej
    refine ⟨fun j hvisits => hlooks j (hle j hvisits) hvisits.1, ?_, ?_⟩
    · intro n hn
      have hnk : n ≤ k := by
        by_contra hlt
        obtain ⟨hvisits, hnot⟩ := hn k (by omega)
        rcases hends with hend | hrej
        · have hin := hvisits.1
          omega
        · rw [hnot] at hrej
          cases hrej
      cases n with
      | zero => exact sumOk_zero
      | succ n => exact hgoes.sums n (Nat.zero_le n) hnk
    · rcases Nat.lt_or_ge (b.pos src k) b.nsam with hin | hend
      · refine Or.inl ⟨k, ⟨hin, fun i hi => hgoes.takes i (Nat.zero_le i) hi⟩, ?_⟩
        exact hends.resolve_left (Nat.not_le.mpr hin)
      · exact Or.inr (Nat.le_trans hend (pos_mono (hcount hend)))
  · rintro ⟨hlooks, hsums, hor⟩
    by_cases hrejects : ∃ j, b.Visits src j ∧ b.rejects src (b.pos src j) = true
    · obtain ⟨j, hvisits, hrej⟩ := hrejects
      obtain ⟨hgoes, hends⟩ := goesTo_of_rejects hsums hvisits hrej
      refine ⟨j, hgoes, hends, ?_, fun hend => absurd hvisits.1 (Nat.not_lt.mpr hend)⟩
      intro i hij hin
      exact hlooks i ⟨hin, fun t ht => hvisits.2 t (by omega)⟩
    · have hnone : ∀ i, b.Visits src i → b.rejects src (b.pos src i) = false := by
        intro i hvisits
        cases hrej : b.rejects src (b.pos src i) with
        | false => rfl
        | true => exact absurd ⟨i, hvisits, hrej⟩ hrejects
      obtain ⟨k, hk, hgoes, hends⟩ := goesTo_of_end hsums (hor.resolve_left hrejects) hnone
      refine ⟨k, hgoes, hends, ?_, fun _ => hk⟩
      intro i hik hin
      exact hlooks i ⟨hin, fun t ht => hgoes.takes t (Nat.zero_le t) (by omega)⟩

theorem sumsFit_of_end (hover : b.oversampling < 2 ^ 31) (hend : b.nsam ≤ b.pos src b.oversampling)
    (hbits : b.wide = true ∨ b.oversampling ≤ 65536) : b.SumsFit src := by
  intro k hk
  refine sumOk_of_le hover ?_ hbits
  by_contra hlt
  have hin := (hk b.oversampling (by omega)).1.1
  omega

/-! ### Without the check -/

theorem dup_unchecked (hcheck : b.checkiten = false) (p : Nat) : b.dup src p = false := by
  unfold dup
  rw [hcheck]
  rfl

theorem rejects_unchecked (hcheck : b.checkiten = false) (p : Nat) :
    b.rejects src p = false := by
  unfold rejects
  rw [dup_unchecked hcheck]
  rfl

theorem looksInside_unchecked (hcheck : b.checkiten = false) (hp : p < b.nsam) :
    b.LooksInside src p := by
  intro w hw
  unfold looks taken check at hw
  rw [rejects_unchecked hcheck, dup_unchecked hcheck, hcheck] at hw
  have hword : w ∈ b.words p := by simpa using hw
  obtain ⟨ic, hic, rfl⟩ := List.mem_map.mp hword
  have hlt := List.mem_range.mp hic
  have hmul : (p + 1) * b.nchan ≤ b.nsam * b.nchan := Nat.mul_le_mul_right _ hp
  rw [Nat.succ_mul] at hmul
  omega

theorem pos_unchecked (hcheck : b.checkiten = false) (j : Nat) :
    b.pos src j = j * (b.nsam / b.oversampling) := by
  have hnone : b.dups src j = 0 := by
    unfold dups
    refine Nat.count_of_forall_not ?_
    intro i _
    rw [dup_unchecked hcheck]
    exact Bool.false_ne_true
  rw [pos_eq, hnone, Nat.add_zero]

/-- Without it `oversampling` has to divide the number of samples. -/
theorem end_unchecked (hcheck : b.checkiten = false) (hdvd : b.oversampling ∣ b.nsam) :
    b.nsam ≤ b.pos src b.oversampling := by
  rw [pos_unchecked hcheck, Nat.mul_div_cancel' hdvd]

/-- 8192 samples of 64 channels, not checked. -/
def unchecked (oversampling : Nat) : SingleSample where
  wide := false
  oversampling := oversampling
  nsam := 8192
  nchan := 64
  checkiten := false
  showFirstSample := false

/-- Each word is its index. -/
def ramp (b : SingleSample) : Nat → BitVec b.bits := fun w => BitVec.ofNat b.bits w

theorem unchecked_128 : (unchecked 128).Right (ramp (unchecked 128)) := by
  have hend : (unchecked 128).nsam ≤ (unchecked 128).pos (ramp (unchecked 128)) 128 :=
    end_unchecked rfl (by decide)
  refine (right_iff (by decide) (by decide)).mpr ⟨?_, ?_, ?_⟩
  · exact fun j hvisits => looksInside_unchecked rfl hvisits.1
  · exact sumsFit_of_end (by decide) hend (Or.inr (by decide))
  · exact Or.inr (Nat.zero_le _)

/-- With 100 instead the samples are 81 apart, and 102 of them are summed. -/
theorem unchecked_100 : ¬ (unchecked 100).Right (ramp (unchecked 100)) := by
  intro hright
  obtain ⟨k, _, hends, _, hcount⟩ := (right_iff_goesTo (by decide) (by decide)).mp hright
  rcases hends with hend | hrej
  · have hk : k ≤ 100 := hcount hend
    rw [pos_unchecked rfl] at hend
    have hstride : (unchecked 100).nsam / (unchecked 100).oversampling = 81 := rfl
    have hnsam : (unchecked 100).nsam = 8192 := rfl
    rw [hstride, hnsam] at hend
    omega
  · rw [rejects_unchecked rfl] at hrej
    cases hrej

end Acq400.SingleSample
