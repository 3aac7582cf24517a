/-
What a trim puts out of repeating transients.

The input is taken apart at the signatures: what is behind each of them, up to the next one, is a
transient.  `loop_eq` says for any `onData` that the output is made of the transients one by one.  A
pass-through puts out the beginning of each.  A sum is shifted and not divided, so it is the mean
only where the shift does what the division does, and what the shift leaves below the mean is not
taken off.
-/
import Acq400.Stream.RtmTrim
import Mathlib.Algebra.Order.BigOperators.Group.List
import Mathlib.Algebra.Order.Group.Nat

namespace Acq400

namespace RtmTrim

variable {nchan nt : Nat}

/-- The data behind each signature, up to the next one. -/
def transients (samples : List (Sample nchan)) : List (List (Sample nchan)) :=
  (samples.splitOnP isEs).tail

/-! ### One transient after the other -/

section Loop

variable {σ : Type} (onData : OnData nchan σ)

/-- What is put out of the data behind a signature, of which there have been `n` samples. -/
def emit (nt : Nat) : Nat → σ → List (Sample nchan) → List (Sample nchan)
  | _, _, [] => []
  | n, own, data :: rest =>
    if n < nt then
      let r := onData (n + 1) own data
      (if r.1 then [r.2.1] else []) ++ emit nt (n + 1) r.2.2 rest
    else []

/-- Where the members do not matter at a signature, the loop goes through the transients. -/
theorem loop_eq (hclear : ∀ own own' data, emit onData nt 0 own data = emit onData nt 0 own' data)
    (own : σ) (samples : List (Sample nchan)) : ∀ d : Decoder σ,
      loop onData nt d samples =
        (if d.waitingEs then []
          else emit onData nt d.itran d.own ((samples.splitOnP isEs).headD [])) ++
        (transients samples).flatMap (emit onData nt 0 own) := by
  unfold transients
  induction samples with
  | nil =>
      intro d
      have hnone : emit onData nt d.itran d.own [] = [] := by rw [emit]
      rw [List.splitOnP_nil, List.headD_cons, hnone, ite_self]
      rfl
  | cons data rest ih =>
      intro d
      obtain ⟨first, more, hsplit⟩ := List.exists_cons_of_ne_nil (List.splitOnP_ne_nil isEs rest)
      rw [hsplit, List.headD_cons, List.tail_cons] at ih
      rw [loop, List.splitOnP_cons_eq_if_modifyHead, hsplit]
      unfold Decoder.call
      by_cases hes : isEs data = true
      · -- a signature ends the transient before it, and nothing is put out for it
        have hnone : emit onData nt d.itran d.own [] = [] := by rw [emit]
        rw [if_pos hes, if_pos hes, if_pos hes, List.headD_cons, hnone, ite_self, List.tail_cons,
          List.nil_append, List.flatMap_cons, hclear own d.own]
        split
        · rw [ih, if_neg Bool.false_ne_true]
          rfl
        · rename_i hwaiting
          rw [ih, if_neg hwaiting]
          rfl
      · rw [if_neg hes, if_neg hes, if_neg hes, List.modifyHead_cons, List.headD_cons,
          List.tail_cons]
        split
        · rename_i hwaiting
          rw [ih, if_pos hwaiting]
          rfl
        · rename_i hwaiting
          rw [emit]
          split
          · rw [ih, if_neg hwaiting, List.append_assoc]
            dsimp only
            split
            · rfl
            · rfl
          · rw [ih, if_pos rfl]
            rfl

end Loop

theorem emit_passThru (n : Nat) (data : List (Sample nchan)) :
    emit passThru nt n () data = data.take (nt - n) := by
  induction data generalizing n with
  | nil => rw [emit, List.take_nil]
  | cons x rest ih =>
      rw [emit]
      split
      · rename_i hlt
        obtain ⟨k, hk⟩ := Nat.exists_eq_add_of_lt hlt
        rw [show nt - n = (nt - (n + 1)) + 1 by omega, List.take_succ_cons, ← ih]
        rfl
      · rw [Nat.sub_eq_zero_of_le (by omega), List.take_zero]

/-! ### Sums -/

/-- The sum of the upper 24 bits of a channel. -/
def upper (c : Fin nchan) (data : List (Sample nchan)) : Nat :=
  (data.map fun x : Sample nchan => (x.get c >>> 8 : BitVec 32).toNat).sum

/-- The lower byte of the last of them. -/
def lower (c : Fin nchan) (data : List (Sample nchan)) : BitVec 32 :=
  (data.getLast?.elim 0 (·.get c)) &&& 0xff

/-- The sample that is put out for some samples behind the sums. -/
def shifted (nt : Nat) (sums : Vector (BitVec 32) nchan) (data : List (Sample nchan)) :
    Sample nchan :=
  Vector.ofFn fun c =>
    ((sums.get c + BitVec.ofNat 32 (upper c data)) <<< (8 - ntbits nt)) ||| lower c data

theorem shifted_cons {sums : Vector (BitVec 32) nchan} {x : Sample nchan}
    {data : List (Sample nchan)} (hne : data ≠ []) :
    shifted nt sums (x :: data) =
      shifted nt (Vector.zipWith (fun (sum d : BitVec 32) => sum + d >>> 8) sums x) data := by
  unfold shifted
  congr 1
  funext c
  have hupper : BitVec.ofNat 32 (upper c (x :: data)) =
      x.get c >>> 8 + BitVec.ofNat 32 (upper c data) := by
    unfold upper
    rw [List.map_cons, List.sum_cons, BitVec.ofNat_add, BitVec.ofNat_toNat, BitVec.setWidth_eq]
  have hlower : lower c (x :: data) = lower c data := by
    unfold lower
    rw [List.getLast?_cons_of_ne_nil hne]
  have hsum : (Vector.zipWith (fun (sum d : BitVec 32) => sum + d >>> 8) sums x).get c =
      sums.get c + x.get c >>> 8 := Vector.getElem_zipWith _
  rw [hupper, hlower, ← BitVec.add_assoc, hsum]

/-- The sums with one more sample, behind `n` of them. -/
def added (n : Nat) (sums : Vector (BitVec 32) nchan) (x : Sample nchan) :
    Vector (BitVec 32) nchan :=
  Vector.zipWith (fun (sum d : BitVec 32) => sum + d >>> 8)
    (if n = 0 then .replicate nchan 0 else sums) x

theorem summing_more {n : Nat} (h : n + 1 ≠ nt) (sums : Vector (BitVec 32) nchan)
    (x : Sample nchan) : summing nt (n + 1) sums x = (false, x, added n sums x) := by
  unfold summing added
  simp only [if_neg h, Nat.add_eq_right]

theorem summing_last {n : Nat} (h : n + 1 = nt) (sums : Vector (BitVec 32) nchan)
    (x : Sample nchan) :
    summing nt (n + 1) sums x =
      (true, shifted nt (if n = 0 then .replicate nchan 0 else sums) [x], added n sums x) := by
  have hout : shifted nt (if n = 0 then .replicate nchan 0 else sums) [x] =
      Vector.zipWith (fun (sum d : BitVec 32) => (sum <<< (8 - ntbits nt)) ||| (d &&& 0xff))
        (added n sums x) x := by
    unfold added shifted
    refine Vector.ext fun c hc => ?_
    have hupper : BitVec.ofNat 32 (upper ⟨c, hc⟩ [x]) = x[c] >>> 8 := by
      unfold upper
      rw [List.map_singleton, List.sum_singleton, BitVec.ofNat_toNat, BitVec.setWidth_eq]
      rfl
    rw [Vector.getElem_ofFn, Vector.getElem_zipWith, Vector.getElem_zipWith, hupper]
    rfl
  rw [hout]
  unfold summing added
  simp only [if_pos h, Nat.add_eq_right]

theorem emit_summing {n : Nat} (hn : n < nt) (sums : Vector (BitVec 32) nchan)
    (data : List (Sample nchan)) :
    emit (summing nt) nt n sums data =
      if nt - n ≤ data.length then
        [shifted nt (if n = 0 then .replicate nchan 0 else sums) (data.take (nt - n))]
      else [] := by
  induction data generalizing n sums with
  | nil => rw [emit, if_neg (by rw [List.length_nil]; omega)]
  | cons x rest ih =>
      rw [emit, if_pos hn, List.length_cons]
      by_cases hlast : n + 1 = nt
      · have hone : nt - n = 1 := by omega
        have hdone : emit (summing nt) nt (n + 1) (added n sums x) rest = [] := by
          cases rest with
          | nil => rw [emit]
          | cons _ _ => rw [emit, if_neg (by omega)]
        rw [summing_last hlast]
        dsimp only
        rw [hdone, hone, if_pos (show 1 ≤ rest.length + 1 by omega), List.take_succ_cons,
          List.take_zero, List.append_nil]
        rfl
      · have hnext : nt - n = (nt - (n + 1)) + 1 := by omega
        rw [summing_more hlast]
        dsimp only
        rw [if_neg Bool.false_ne_true, List.nil_append, ih (by omega), hnext,
          List.take_succ_cons, if_neg (Nat.succ_ne_zero n)]
        by_cases hlong : nt - (n + 1) ≤ rest.length
        · have hne : rest.take (nt - (n + 1)) ≠ [] := by
            refine List.ne_nil_of_length_pos ?_
            rw [List.length_take]
            omega
          rw [if_pos hlong, if_pos (by omega), shifted_cons hne, added]
        · rw [if_neg hlong, if_neg (by omega)]

/-- The sums are cleared at a signature. -/
theorem emit_summing_clear (hnt : 0 < nt) (sums sums' : Vector (BitVec 32) nchan)
    (data : List (Sample nchan)) :
    emit (summing nt) nt 0 sums data = emit (summing nt) nt 0 sums' data := by
  rw [emit_summing hnt, emit_summing hnt, if_pos rfl, if_pos rfl]

/-! ### What is right -/

/-- The mean of the upper 24 bits, with the lower byte of the last sample. -/
def mean (data : List (Sample nchan)) : Sample nchan :=
  Vector.ofFn fun c => (BitVec.ofNat 32 (upper c data / data.length) <<< 8) ||| lower c data

/-- What is to be put out: of each transient its beginning, or the mean of that if it is there. -/
def wanted (nt : Nat) (stdin : List (Sample nchan)) : DecoderType → List (Sample nchan)
  | .passThru => (transients stdin).flatMap (List.take nt)
  | .summing => ((transients stdin).filter fun data => nt ≤ data.length).map
      fun data => mean (data.take nt)

def Right (decoderType : DecoderType) (nt : Nat) (stdin : List (Sample nchan)) : Prop :=
  main decoderType nt stdin = wanted nt stdin decoderType

/-- For a sum of the upper bits the shift does what a division by `nt` does, and the bits that it
leaves below are among those of the lower byte. -/
def ShiftDivides (nt sum low : Nat) : Prop :=
  sum / 2 ^ ntbits nt % 2 ^ 24 = sum / nt ∧
    sum % 2 ^ ntbits nt * 2 ^ (8 - ntbits nt) ||| low = low

/-- A pass-through is always right; a sum is where the shift divides. -/
def Harmless (nt : Nat) (stdin : List (Sample nchan)) : DecoderType → Prop
  | .passThru => True
  | .summing => ∀ data ∈ transients stdin, nt ≤ data.length →
      ∀ c, ShiftDivides nt (upper c (data.take nt)) (lower c (data.take nt)).toNat

theorem upper_lt (c : Fin nchan) {data : List (Sample nchan)} (hne : data ≠ []) :
    upper c data / data.length < 2 ^ 24 := by
  have hword : ∀ u ∈ data.map fun x : Sample nchan => (x.get c >>> 8 : BitVec 32).toNat,
      u ≤ 2 ^ 24 - 1 := by
    intro u hu
    obtain ⟨x, -, rfl⟩ := List.mem_map.mp hu
    have := (x.get c : BitVec 32).isLt
    rw [BitVec.toNat_ushiftRight, Nat.shiftRight_eq_div_pow]
    omega
  have hsum := List.sum_le_card_nsmul _ _ hword
  rw [List.length_map, Nat.nsmul_eq_mul] at hsum
  have hpos := List.length_pos_iff.mpr hne
  refine (Nat.div_lt_iff_lt_mul hpos).mpr (Nat.lt_of_le_of_lt hsum ?_)
  rw [Nat.mul_comm (2 ^ 24)]
  exact (Nat.mul_lt_mul_left hpos).mpr (by decide)

theorem ntbitsLoop_le (nt : Nat) : ∀ ntbits, ntbitsLoop nt ntbits ≤ ntbits := by
  intro ntbits
  induction ntbits with
  | zero => exact Nat.le_refl 0
  | succ ntbits ih =>
      rw [ntbitsLoop]
      split
      · exact Nat.le_succ_of_le ih
      · exact Nat.le_refl _

theorem ntbits_le (nt : Nat) : ntbits nt ≤ 8 := ntbitsLoop_le nt 8

theorem rest_lt (sum : Nat) {k : Nat} (hk : k ≤ 8) : sum % 2 ^ k * 2 ^ (8 - k) < 2 ^ 8 := by
  have hpow : 2 ^ 8 = 2 ^ k * 2 ^ (8 - k) := by rw [← Nat.pow_add, Nat.add_sub_cancel' hk]
  rw [hpow]
  exact Nat.mul_lt_mul_of_pos_right (Nat.mod_lt sum (Nat.two_pow_pos k)) (Nat.two_pow_pos _)

theorem shift_toNat {sum k : Nat} (hk : k ≤ 8) : (BitVec.ofNat 32 sum <<< (8 - k)).toNat =
    2 ^ 8 * (sum / 2 ^ k % 2 ^ 24) + sum % 2 ^ k * 2 ^ (8 - k) := by
  have hsum : sum * 2 ^ (8 - k) = 2 ^ 8 * (sum / 2 ^ k) + sum % 2 ^ k * 2 ^ (8 - k) := by
    have hpow : 2 ^ 8 = 2 ^ (8 - k) * 2 ^ k := by rw [← Nat.pow_add, Nat.sub_add_cancel hk]
    rw [hpow, Nat.mul_assoc, Nat.mul_comm (sum % 2 ^ k), ← Nat.mul_add, Nat.div_add_mod,
      Nat.mul_comm]
  have hrest := rest_lt sum hk
  rw [BitVec.toNat_shiftLeft, BitVec.toNat_ofNat, Nat.shiftLeft_eq, Nat.mod_mul_mod, hsum]
  omega

theorem shifted_eq_iff {sum m low k : Nat} (hk : k ≤ 8) (hm : m < 2 ^ 24) (hlow : low < 2 ^ 8) :
    (BitVec.ofNat 32 sum <<< (8 - k)) ||| BitVec.ofNat 32 low =
        (BitVec.ofNat 32 m <<< 8) ||| BitVec.ofNat 32 low ↔
      sum / 2 ^ k % 2 ^ 24 = m ∧ sum % 2 ^ k * 2 ^ (8 - k) ||| low = low := by
  have hrest := rest_lt sum hk
  have hor := Nat.or_lt_two_pow hrest hlow
  have hmean : (BitVec.ofNat 32 m <<< 8).toNat = 2 ^ 8 * m := by
    rw [BitVec.toNat_shiftLeft, BitVec.toNat_ofNat, Nat.shiftLeft_eq]
    omega
  have hlow32 : (BitVec.ofNat 32 low).toNat = low := by
    rw [BitVec.toNat_ofNat]
    omega
  rw [← BitVec.toNat_inj, BitVec.toNat_or, BitVec.toNat_or, shift_toNat hk, hmean, hlow32,
    Nat.two_pow_add_eq_or_of_lt hrest, Nat.or_assoc, ← Nat.two_pow_add_eq_or_of_lt hor,
    ← Nat.two_pow_add_eq_or_of_lt hlow]
  constructor
  · intro h
    exact ⟨by omega, by omega⟩
  · rintro ⟨rfl, h⟩
    rw [h]

theorem shifted_eq_mean_iff {data : List (Sample nchan)} (hne : data ≠ []) :
    shifted data.length (.replicate nchan 0) data = mean data ↔
      ∀ c, ShiftDivides data.length (upper c data) (lower c data).toNat := by
  have hlow : ∀ c, (lower c data).toNat < 2 ^ 8 := by
    intro c
    unfold lower
    rw [BitVec.toNat_and]
    exact Nat.lt_of_le_of_lt Nat.and_le_right (by decide)
  have hword : ∀ c, (lower c data) = BitVec.ofNat 32 (lower c data).toNat := by
    intro c
    rw [BitVec.ofNat_toNat, BitVec.setWidth_eq]
  have hclear : ∀ c : Fin nchan, (Vector.replicate nchan 0#32).get c = 0#32 :=
    fun c => Vector.getElem_replicate _
  unfold shifted mean ShiftDivides
  constructor
  · intro heq c
    have hat := congrArg (fun v : Sample nchan => (v[c] : BitVec 32)) heq
    simp only [Fin.getElem_fin, Vector.getElem_ofFn, hclear, Fin.eta, BitVec.ofNat_eq_ofNat,
      BitVec.zero_add] at hat
    rw [hword c] at hat
    exact (shifted_eq_iff (ntbits_le _) (upper_lt c hne) (hlow c)).mp hat
  · intro h
    refine Vector.ext fun c hc => ?_
    have hat := (shifted_eq_iff (ntbits_le _) (upper_lt ⟨c, hc⟩ hne) (hlow _)).mpr (h ⟨c, hc⟩)
    rw [← hword] at hat
    simpa [hclear] using hat

theorem flatMap_ite {α β : Type} (p : α → Prop) [DecidablePred p] (f : α → β) (l : List α) :
    (l.flatMap fun a => if p a then [f a] else []) = (l.filter p).map f := by
  induction l with
  | nil => rfl
  | cons a l ih =>
      rw [List.flatMap_cons, ih]
      by_cases ha : p a
      · rw [if_pos ha, List.filter_cons, if_pos (decide_eq_true ha)]
        rfl
      · rw [if_neg ha, List.filter_cons, if_neg (by simpa using ha)]
        rfl

theorem clamp_eq (hnt : 0 < nt) : (if (nt : Int) < 1 then 1 else (nt : Int)).toNat = nt := by
  rw [if_neg (by omega), Int.toNat_natCast]

theorem main_passThru (hnt : 0 < nt) (stdin : List (Sample nchan)) :
    main .passThru nt stdin = (transients stdin).flatMap (List.take nt) := by
  unfold main
  rw [clamp_eq hnt]
  dsimp only
  rw [loop_eq _ (fun _ _ _ => rfl) ()]
  unfold Decoder.init
  rw [if_pos rfl, List.nil_append]
  exact List.flatMap_congr fun data _ => emit_passThru 0 data

/-- The output is that of the code with a shift in place of the mean. -/
theorem main_summing (hnt : 0 < nt) (stdin : List (Sample nchan)) :
    main .summing nt stdin = ((transients stdin).filter fun data => nt ≤ data.length).map
      fun data => shifted nt (.replicate nchan 0) (data.take nt) := by
  unfold main
  rw [clamp_eq hnt]
  dsimp only
  rw [loop_eq _ (emit_summing_clear hnt) (.replicate nchan 0)]
  unfold Decoder.init
  rw [if_pos rfl, List.nil_append, ← flatMap_ite]
  exact List.flatMap_congr fun data _ => emit_summing hnt _ data

theorem summing_right_iff (hnt : 0 < nt) (stdin : List (Sample nchan)) :
    Right .summing nt stdin ↔ Harmless nt stdin .summing := by
  unfold Right wanted Harmless
  rw [main_summing hnt]
  dsimp only
  rw [List.map_inj_left]
  simp only [List.mem_filter, decide_eq_true_eq, and_imp]
  refine forall_congr' fun data => forall_congr' fun _ => forall_congr' fun hlong => ?_
  have hlen : (data.take nt).length = nt := by rw [List.length_take, Nat.min_eq_left hlong]
  have hiff := shifted_eq_mean_iff (List.ne_nil_of_length_pos (hlen ▸ hnt))
  rw [hlen] at hiff
  exact hiff

/--
**A pass-through puts out the transients as long as they are to be.**  A sum does what a mean does
if and only if the shift divides.
-/
theorem main_right_iff (decoderType : DecoderType) (hnt : 0 < nt) (stdin : List (Sample nchan)) :
    Right decoderType nt stdin ↔ Harmless nt stdin decoderType := by
  cases decoderType with
  | passThru => exact iff_of_true (main_passThru hnt stdin) trivial
  | summing => exact summing_right_iff hnt stdin

/-- A signature, and two samples of which the one has 1 in the upper bits of each channel. -/
def oneAndNone : List (Sample 4) :=
  [.replicate 4 0xaa55f000, .replicate 4 0x100, .replicate 4 0]

theorem passThru_right : Right .passThru 2 oneAndNone :=
  (main_right_iff .passThru (by decide) oneAndNone).mpr trivial

/-- Half of it is left below the mean. -/
theorem summing_not_right : ¬Right .summing 2 oneAndNone := by
  rw [summing_right_iff (by decide)]
  intro hharm
  have hrest := (hharm [.replicate 4 0x100, .replicate 4 0] (by decide) (by decide) 0).2
  revert hrest
  decide

end RtmTrim

end Acq400
