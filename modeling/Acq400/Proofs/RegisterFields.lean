/-
What is shown of the fields of a register, and stored again.

The numbers are scanned one after the other, and each goes to the next field; a text that ends
before the fields do leaves the rest as they are.  So whatever is shown as a number without a sign
is stored again.  A field of 31 bits or more can be shown with a minus, where the scan stops.
-/
import Acq400.Driver.SysfsUtils
import Acq400.Lib.MaskField
import Acq400.Lib.WordBits
import Mathlib.Data.Nat.Prime.Basic

namespace Acq400

open MaskField SysfsUtils

/-- A field of a register. -/
abbrev Field := Span 32

namespace Field

variable {f : Field} {zeroBased : Bool}

/-! ### A mask -/

theorem and_one_eq_zero {x : BitVec 32} : x &&& 1 = 0 ↔ x.getLsbD 0 = false := by
  have h := WordBits.and_one_ne_zero (x := x)
  rw [WordBits.mem_bits] at h
  rw [← Bool.not_eq_true, ← h, not_not]

theorem getSHLFrom_eq (fuel : Nat) :
    ∀ (mask : BitVec 32) (shl k : Nat), k < fuel → mask.getLsbD k = true →
      (∀ j, j < k → mask.getLsbD j = false) → getSHLFrom fuel mask shl = shl + k := by
  induction fuel with
  | zero =>
      intro mask shl k hk
      exact absurd hk (Nat.not_lt_zero k)
  | succ fuel ih =>
      intro mask shl k hk hbit hlow
      unfold getSHLFrom
      cases k with
      | zero =>
          rw [if_neg]
          · rfl
          · rw [and_one_eq_zero, hbit]
            decide
      | succ k =>
          rw [if_pos (and_one_eq_zero.mpr (hlow 0 (Nat.succ_pos k)))]
          rw [ih (mask >>> 1) (shl + 1) k (by omega)]
          · omega
          · rw [BitVec.getLsbD_ushiftRight, Nat.add_comm]
            exact hbit
          · intro j hj
            rw [BitVec.getLsbD_ushiftRight, Nat.add_comm]
            exact hlow (j + 1) (by omega)

theorem getSHL_mask (f : Field) : getSHL f.mask = f.shl := by
  have hle := f.le
  have hpos := f.pos
  unfold getSHL
  rw [getSHLFrom_eq 32 f.mask 0 f.shl (by omega), Nat.zero_add]
  · rw [getLsbD_mask, decide_eq_true_iff]
    exact ⟨Nat.le_refl _, by omega⟩
  · intro j hj
    rw [getLsbD_mask, decide_eq_false_iff_not]
    exact fun h => absurd h.1 (by omega)

theorem le_countSetBitsFrom (fuel : Nat) :
    ∀ (n : BitVec 32) (count : Nat), count ≤ SysfsUtils.countSetBitsFrom fuel n count := by
  induction fuel with
  | zero => intro n count; exact Nat.le_refl count
  | succ fuel ih =>
      intro n count
      unfold SysfsUtils.countSetBitsFrom
      split
      · exact Nat.le_trans (Nat.le_succ count) (ih _ _)
      · exact Nat.le_refl count

/-- A second bit is left when the first one has been cleared. -/
theorem one_lt_countSetBits {n : BitVec 32} :
    1 < SysfsUtils.countSetBits n ↔ n &&& (n - 1) ≠ 0 := by
  have hzero : ∀ fuel count, SysfsUtils.countSetBitsFrom fuel 0 count = count := by
    intro fuel count
    cases fuel with
    | zero => rfl
    | succ fuel => exact if_neg (not_not.mpr rfl)
  unfold SysfsUtils.countSetBits SysfsUtils.countSetBitsFrom
  by_cases hn : n = 0
  · rw [if_neg (not_not.mpr hn), hn]
    decide
  · rw [if_pos hn]
    constructor
    · intro hlt hnone
      rw [hnone, hzero] at hlt
      exact absurd hlt (by decide)
    · intro hmore
      unfold SysfsUtils.countSetBitsFrom
      rw [if_pos hmore]
      exact le_countSetBitsFrom 30 _ 2

/-- A row of ones is a power of two when it is a single one. -/
theorem isPowerOfTwo_mask (f : Field) : f.mask.toNat.isPowerOfTwo ↔ f.width = 1 := by
  have hpos := f.pos
  rw [toNat_mask]
  constructor
  · rintro ⟨k, hk⟩
    have hdouble : 2 ^ f.width = 2 * 2 ^ (f.width - 1) := by
      rw [← Nat.pow_succ']
      congr 1
      omega
    have hone : 1 ≤ 2 ^ (f.width - 1) := Nat.one_le_two_pow
    have hodd : Nat.Coprime (2 ^ f.width - 1) (2 ^ k) :=
      Nat.Coprime.pow_right k (Nat.coprime_two_right.mpr ⟨2 ^ (f.width - 1) - 1, by omega⟩)
    have hunit := hodd.eq_one_of_dvd (Dvd.intro (2 ^ f.shl) hk)
    by_contra hwidth
    have hfour := Nat.pow_le_pow_right (by omega : 0 < 2) (by omega : 2 ≤ f.width)
    omega
  · intro hwidth
    exact ⟨f.shl, by rw [hwidth, Nat.pow_one, Nat.one_mul]⟩

/-- A field has more than one bit when its width says so. -/
theorem one_lt_countSetBits_mask (f : Field) :
    1 < SysfsUtils.countSetBits f.mask ↔ 1 < f.width := by
  have hpos := f.pos
  have hlt := f.mask.isLt
  have hne : f.mask.toNat ≠ 0 := by
    rw [toNat_mask]
    have hposw := Nat.one_lt_two_pow (by omega : f.width ≠ 0)
    exact Nat.mul_ne_zero (by omega) (Nat.two_pow_pos _).ne'
  have hpred : (f.mask - 1).toNat = f.mask.toNat - 1 := by
    rw [BitVec.toNat_sub]
    simp
    omega
  rw [one_lt_countSetBits, ne_eq, ← BitVec.toNat_inj, BitVec.toNat_and, hpred,
    show (0 : BitVec 32).toNat = 0 from rfl, Nat.and_sub_one_eq_zero_iff_isPowerOfTwo hne,
    isPowerOfTwo_mask]
  omega

/-! ### Setting fields -/

/-- What the numbers of a field begin with. -/
def base (zeroBased : Bool) (f : Field) : Nat := if zeroBased = true ∧ 1 < f.width then 1 else 0

theorem zb_mask (zeroBased : Bool) (f : Field) :
    zb zeroBased f.mask = BitVec.ofNat 32 (base zeroBased f) := by
  unfold zb base
  simp only [one_lt_countSetBits_mask, gt_iff_lt]
  split
  · rfl
  · rfl

theorem base_le (zeroBased : Bool) (f : Field) : base zeroBased f ≤ 1 := by
  unfold base
  split
  · exact Nat.le_refl 1
  · exact Nat.zero_le 1

/-- The field is set to a number. -/
def set (zeroBased : Bool) (f : Field) (n : Nat) (reg : BitVec 32) : BitVec 32 :=
  put f.mask ((BitVec.ofNat 32 n - zb zeroBased f.mask) <<< f.shl) reg

/-- The fields are set to the numbers that there are. -/
def setAll (zeroBased : Bool) : List Field → List Nat → BitVec 32 → BitVec 32
  | f :: fs, n :: ns, reg => setAll zeroBased fs ns (f.set zeroBased n reg)
  | [], _, reg => reg
  | _, [], reg => reg

theorem setAll_nil (fs : List Field) (reg : BitVec 32) : setAll zeroBased fs [] reg = reg := by
  cases fs with
  | nil => rfl
  | cons f fs => rfl

/-- A field is set to what is left of the number in its width. -/
theorem get_set (zeroBased : Bool) (f : Field) (n : Nat) (reg : BitVec 32) :
    ((f.get (f.set zeroBased n reg)).toNat : Int) =
      ((n : Int) - base zeroBased f) % (2 ^ f.width : Nat) := by
  have hle := f.le
  have hbase := base_le zeroBased f
  obtain ⟨m, hm⟩ : 2 ^ f.width ∣ 4294967296 :=
    Nat.pow_dvd_pow (m := f.width) (n := 32) 2 (by omega)
  unfold set
  rw [toNat_get_put, zb_mask, BitVec.toNat_sub, BitVec.toNat_ofNat, BitVec.toNat_ofNat,
    Nat.mod_mod_of_dvd _ ⟨m, hm⟩, Int.natCast_mod, Int.emod_eq_emod_iff_emod_sub_eq_zero]
  refine Int.emod_eq_zero_of_dvd ?_
  have hdiv := Nat.div_add_mod n 4294967296
  have hdiff : ((4294967296 - base zeroBased f % 4294967296 + n % 4294967296 : Nat) : Int) -
      ((n : Int) - base zeroBased f) = (4294967296 : Nat) * (1 - (n / 4294967296 : Nat) : Int) := by
    have hsmall : base zeroBased f % 4294967296 = base zeroBased f := Nat.mod_eq_of_lt (by omega)
    rw [hsmall]
    omega
  have hpow : (2 ^ 32 : Nat) = 4294967296 := rfl
  rw [hpow, hdiff, hm, Int.natCast_mul, Int.mul_assoc]
  exact Int.dvd_mul_right _ _

theorem set_outside {n i : Nat} {reg : BitVec 32} (h : ¬f.Has i) :
    (f.set zeroBased n reg).getLsbD i = reg.getLsbD i := put_outside h

theorem setAll_outside {i : Nat} (fs : List Field) :
    ∀ (ns : List Nat) (reg : BitVec 32), (∀ f ∈ fs.take ns.length, ¬f.Has i) →
      (setAll zeroBased fs ns reg).getLsbD i = reg.getLsbD i := by
  induction fs with
  | nil => intro ns reg _; rfl
  | cons f fs ih =>
      intro ns reg hout
      cases ns with
      | nil => rfl
      | cons n ns =>
          rw [List.length_cons, List.take_succ_cons] at hout
          rw [setAll, ih ns _ fun g hg => hout g (List.mem_cons_of_mem f hg),
            set_outside (hout f List.mem_cons_self)]

/-- A field that has no bit in common with those that are set keeps its value. -/
theorem get_setAll_apart {fs : List Field} (h : ∀ g ∈ fs, g.Apart f) (ns : List Nat)
    (reg : BitVec 32) : f.get (setAll zeroBased fs ns reg) = f.get reg := by
  rw [get_eq_iff]
  intro i hi
  exact setAll_outside fs ns reg fun g hg =>
    (h g (List.mem_of_mem_take hg)).symm.not_has hi

theorem get_setAll {fs : List Field} (happart : fs.Pairwise Span.Apart) :
    ∀ {j : Nat} {f : Field} {ns : List Nat} {n : Nat} (reg : BitVec 32), fs[j]? = some f →
      ns[j]? = some n → ((f.get (setAll zeroBased fs ns reg)).toNat : Int) =
        ((n : Int) - base zeroBased f) % (2 ^ f.width : Nat) := by
  induction fs with
  | nil =>
      intro j f ns n reg hf
      simp at hf
  | cons g fs ih =>
      intro j f ns n reg hf hn
      obtain ⟨hg, hrest⟩ := List.pairwise_cons.mp happart
      cases ns with
      | nil => simp at hn
      | cons m ns =>
          rw [setAll]
          cases j with
          | zero =>
              obtain rfl : g = f := Option.some.inj hf
              obtain rfl : m = n := Option.some.inj hn
              rw [get_setAll_apart (fun t ht => (hg t ht).symm), get_set]
          | succ j => exact ih hrest _ hf hn

/-! ### Scanning -/

/-- The masks of `FIELDS`. -/
def masks (fs : List Field) : List (BitVec 32) := fs.map Span.mask

variable {buf str : List Char} {cursor : Nat}

theorem drop_behind {l : List Char} (hle : cursor ≤ buf.length) (h : buf.drop cursor = l ++ str) :
    buf.drop (cursor + l.length) = str ∧ cursor + l.length ≤ buf.length := by
  have hlength := congrArg List.length h
  rw [List.length_drop, List.length_append] at hlength
  refine ⟨?_, by omega⟩
  rw [← List.drop_drop, h, List.drop_append_length]

/-- Where there is no number, the fields that are left stay as they are. -/
theorem storeValues_stuck (hle : cursor ≤ buf.length) (hstr : buf.drop cursor = str)
    (hnone : Sscanf.number str = none) (fs : List Field) (reg : BitVec 32) :
    storeValues buf zeroBased (masks fs) cursor reg = some reg := by
  induction fs with
  | nil => rfl
  | cons f fs ih =>
      unfold masks
      rw [List.map_cons, storeValues, if_neg (by omega), hstr, Sscanf.uint_eq_none.mpr hnone]
      exact ih

/-- A number sets its field, and what is behind it says whether the scan goes on. -/
theorem storeValues_number {d : List Char} (hd : Sscanf.IsDigits d) (hle : cursor ≤ buf.length)
    (hstr : buf.drop cursor = d ++ str) (hstop : ∀ c, str.head? = some c → c.isDigit = false)
    (f : Field) (fs : List Field) (reg : BitVec 32) :
    storeValues buf zeroBased (masks (f :: fs)) cursor reg =
      if str.head? ≠ some ',' then some (f.set zeroBased (Sscanf.decimal d) reg)
      else storeValues buf zeroBased (masks fs) (cursor + d.length + 1)
        (f.set zeroBased (Sscanf.decimal d) reg) := by
  have hscan : Sscanf.uint (buf.drop cursor) = some (Sscanf.decimal d % 4294967296, str) := by
    unfold Sscanf.uint
    rw [hstr, Sscanf.number_digits str hd.1 hd.2 hstop]
    rfl
  have hpos : (buf.drop cursor).length - str.length = d.length := by
    rw [hstr, List.length_append, Nat.add_sub_cancel_right]
  have hnext : buf[cursor + d.length]? = str.head? := by
    have hdrop : (buf.drop cursor)[d.length]? = str.head? := by
      rw [hstr, List.getElem?_append_right (Nat.le_refl _), Nat.sub_self, List.head?_eq_getElem?]
    rwa [List.getElem?_drop] at hdrop
  have hset : (reg &&& ~~~f.mask) ||| (((BitVec.ofNat 32 (Sscanf.decimal d % 4294967296) -
      zb zeroBased f.mask) <<< getSHL f.mask) &&& f.mask) =
      f.set zeroBased (Sscanf.decimal d) reg := by
    have hmod : BitVec.ofNat 32 (Sscanf.decimal d % 4294967296) =
        BitVec.ofNat 32 (Sscanf.decimal d) := by
      refine BitVec.eq_of_toNat_eq ?_
      rw [BitVec.toNat_ofNat, BitVec.toNat_ofNat]
      exact Nat.mod_mod _ _
    rw [hmod, getSHL_mask]
    rfl
  unfold masks
  rw [List.map_cons, storeValues, if_neg (by omega), hscan]
  dsimp only
  rw [hpos, hnext, hset]

/-- Numbers with a comma behind each. -/
def commas (ds : List (List Char)) : List Char := ds.flatMap (· ++ [','])

/-- Every number with a comma behind it sets its field, and the scan goes on behind them. -/
theorem storeValues_commas (ds : List (List Char)) :
    ∀ (fs : List Field) (cursor : Nat) (reg : BitVec 32), (∀ d ∈ ds, Sscanf.IsDigits d) →
      cursor ≤ buf.length → buf.drop cursor = commas ds ++ str →
      storeValues buf zeroBased (masks fs) cursor reg =
        storeValues buf zeroBased (masks (fs.drop ds.length)) (cursor + (commas ds).length)
          (setAll zeroBased fs (ds.map Sscanf.decimal) reg) := by
  induction ds with
  | nil =>
      intro fs cursor reg _ _ _
      rw [List.map_nil, setAll_nil]
      rfl
  | cons d ds ih =>
      intro fs cursor reg hds hle hstr
      have hd := hds d List.mem_cons_self
      have htext : commas (d :: ds) ++ str = d ++ ',' :: (commas ds ++ str) := by
        unfold commas
        rw [List.flatMap_cons]
        simp
      cases fs with
      | nil => rfl
      | cons f fs =>
          rw [htext] at hstr
          rw [storeValues_number hd hle hstr (by simp) f fs reg, List.head?_cons,
            if_neg (not_not.mpr rfl)]
          have hsplit : buf.drop cursor = (d ++ [',']) ++ (commas ds ++ str) := by
            rw [hstr]
            simp
          obtain ⟨hdrop, hnext⟩ := drop_behind hle hsplit
          rw [List.length_append, List.length_singleton, ← Nat.add_assoc] at hdrop hnext
          rw [ih fs _ _ (fun e he => hds e (List.mem_cons_of_mem d he)) hnext hdrop]
          have hlength : (commas (d :: ds)).length = d.length + 1 + (commas ds).length := by
            unfold commas
            rw [List.flatMap_cons, List.length_append, List.length_append, List.length_singleton]
          rw [hlength, ← Nat.add_assoc, ← Nat.add_assoc]
          rfl

theorem storeFields_commas {ds : List (List Char)} (hds : ∀ d ∈ ds, Sscanf.IsDigits d)
    (hnone : Sscanf.number str = none) (fs : List Field) (reg : BitVec 32) :
    storeFields (masks fs) zeroBased (commas ds ++ str) reg =
      some (setAll zeroBased fs (ds.map Sscanf.decimal) reg) := by
  have hsplit : (commas ds ++ str).drop 0 = commas ds ++ str := rfl
  obtain ⟨hdrop, hle⟩ := drop_behind (Nat.zero_le _) hsplit
  unfold storeFields
  rw [storeValues_commas ds fs 0 reg hds (Nat.zero_le _) rfl]
  exact storeValues_stuck hle hdrop hnone _ _

theorem storeFields_last {ds : List (List Char)} {d : List Char} (hds : ∀ e ∈ ds, Sscanf.IsDigits e)
    (hd : Sscanf.IsDigits d) (hstop : ∀ c, str.head? = some c → c.isDigit = false ∧ c ≠ ',')
    (fs : List Field) (reg : BitVec 32) :
    storeFields (masks fs) zeroBased (commas ds ++ (d ++ str)) reg =
      some (setAll zeroBased fs ((ds ++ [d]).map Sscanf.decimal) reg) := by
  have hsplit : (commas ds ++ (d ++ str)).drop 0 = commas ds ++ (d ++ str) := rfl
  obtain ⟨hdrop, hle⟩ := drop_behind (Nat.zero_le _) hsplit
  have hcomma : str.head? ≠ some ',' := fun h => (hstop ',' h).2 rfl
  unfold storeFields
  rw [storeValues_commas ds fs 0 reg hds (Nat.zero_le _) rfl, List.map_append, List.map_singleton]
  have hsplitAll : ∀ (fs : List Field) (ns : List Nat) (reg : BitVec 32) (n : Nat),
      setAll zeroBased fs (ns ++ [n]) reg =
        setAll zeroBased (fs.drop ns.length) [n] (setAll zeroBased fs ns reg) := by
    intro fs
    induction fs with
    | nil => intro ns reg n; cases ns <;> rfl
    | cons f fs ih =>
        intro ns reg n
        cases ns with
        | nil => rfl
        | cons m ns => exact ih ns _ n
  rw [hsplitAll, List.length_map]
  cases hrest : fs.drop ds.length with
  | nil => rfl
  | cons f rest =>
      rw [storeValues_number hd hle hdrop (fun c hc => (hstop c hc).1), if_pos hcomma]
      rw [setAll, setAll_nil]

theorem intercalate_concat (ds : List (List Char)) (d : List Char) :
    List.intercalate [','] (ds ++ [d]) = commas ds ++ d := by
  induction ds with
  | nil =>
      rw [List.nil_append, List.intercalate_singleton]
      rfl
  | cons e ds ih =>
      rw [List.cons_append, List.intercalate_cons_of_ne_nil (by simp), ih]
      unfold commas
      rw [List.flatMap_cons]
      simp

/-- What may stand behind the numbers. -/
def tails : List (List Char) := [[], [','], ['\n'], [',', '\n']]

theorem storeFields_text {ds : List (List Char)} {tail : List Char}
    (hds : ∀ d ∈ ds, Sscanf.IsDigits d) (htail : tail ∈ tails) (fs : List Field) (reg : BitVec 32) :
    storeFields (masks fs) zeroBased (List.intercalate [','] ds ++ tail) reg =
      some (setAll zeroBased fs (ds.map Sscanf.decimal) reg) := by
  have hline : Sscanf.number ['\n'] = none := by decide
  have hcomma : ∀ str, Sscanf.number (',' :: str) = none :=
    fun str => Sscanf.number_none str (by decide) (by decide)
  unfold tails at htail
  simp only [List.mem_cons, List.not_mem_nil, or_false] at htail
  rcases List.eq_nil_or_concat ds with rfl | ⟨ds, d, rfl⟩
  · have hnone : Sscanf.number tail = none := by
      rcases htail with rfl | rfl | rfl | rfl
      · rfl
      · exact hcomma []
      · exact hline
      · exact hcomma ['\n']
    have hnil : ∀ d ∈ ([] : List (List Char)), Sscanf.IsDigits d :=
      fun d hd => absurd hd List.not_mem_nil
    exact storeFields_commas hnil hnone fs reg
  · rw [List.concat_eq_append] at hds ⊢
    have hall : ∀ e ∈ ds, Sscanf.IsDigits e := fun e he => hds e (List.mem_append_left _ he)
    have hd : Sscanf.IsDigits d := hds d (by simp)
    rw [intercalate_concat, List.append_assoc]
    have hagain : ∀ str, commas ds ++ (d ++ ',' :: str) = commas (ds ++ [d]) ++ str := by
      intro str
      unfold commas
      simp
    rcases htail with rfl | rfl | rfl | rfl
    · exact storeFields_last hall hd (by simp) fs reg
    · rw [hagain]
      exact storeFields_commas hds rfl fs reg
    · exact storeFields_last hall hd (by simp) fs reg
    · rw [hagain]
      exact storeFields_commas hds hline fs reg

/-! ### What is shown -/

/-- The number that is shown of a field, before it is printed as an `int`. -/
def shown (zeroBased : Bool) (reg : BitVec 32) (f : Field) : BitVec 32 :=
  f.get reg + zb zeroBased f.mask

/-- It is printed without a minus. -/
def Plain (zeroBased : Bool) (reg : BitVec 32) (f : Field) : Prop :=
  (shown zeroBased reg f).toNat < 2 ^ 31

instance (zeroBased : Bool) (reg : BitVec 32) (f : Field) : Decidable (Plain zeroBased reg f) :=
  inferInstanceAs (Decidable (_ < _))

variable {reg : BitVec 32}

theorem decimalText_plain (h : Plain zeroBased reg f) :
    Sscanf.decimalText (shown zeroBased reg f).toInt =
      Nat.toDigits 10 (shown zeroBased reg f).toNat := by
  unfold Plain at h
  unfold Sscanf.decimalText
  rw [BitVec.toInt_eq_toNat_of_lt (by omega), if_neg (by omega), Int.natAbs_natCast]

theorem decimalText_minus (h : ¬Plain zeroBased reg f) :
    ∃ rest, Sscanf.decimalText (shown zeroBased reg f).toInt = '-' :: rest := by
  have hlt := (shown zeroBased reg f).isLt
  unfold Plain at h
  unfold Sscanf.decimalText
  have hneg : (shown zeroBased reg f).toInt < 0 := by
    rw [BitVec.toInt_eq_toNat_cond, if_neg (by omega)]
    omega
  rw [if_pos hneg]
  exact ⟨_, rfl⟩

theorem showValues_cons (f : Field) (fs : List Field) :
    showValues zeroBased reg (masks (f :: fs)) =
      Sscanf.decimalText (shown zeroBased reg f).toInt ++
        (if fs = [] then '\n' else ',') :: showValues zeroBased reg (masks fs) := by
  unfold masks shown Span.get
  rw [List.map_cons, showValues, getSHL_mask]
  simp only [List.map_eq_nil_iff]

/-- The text of a field. -/
def digits (zeroBased : Bool) (reg : BitVec 32) (f : Field) : List Char :=
  Nat.toDigits 10 (shown zeroBased reg f).toNat

theorem isDigits_digits : Sscanf.IsDigits (digits zeroBased reg f) :=
  ⟨Nat.toDigits_ne_nil, fun _ hc => Sscanf.toDigits_isDigit hc⟩

theorem decimal_digits :
    Sscanf.decimal (digits zeroBased reg f) = (shown zeroBased reg f).toNat := by
  unfold digits
  rw [Sscanf.decimal_eq, Nat.ofDigitChars_ten_toDigits]

/-- The fields up to one are shown with a comma behind each. -/
theorem showValues_append {as : List Field} (has : ∀ f ∈ as, Plain zeroBased reg f) (b : Field)
    (cs : List Field) :
    showValues zeroBased reg (masks (as ++ b :: cs)) =
      commas (as.map (digits zeroBased reg)) ++ showValues zeroBased reg (masks (b :: cs)) := by
  induction as with
  | nil => rfl
  | cons a as ih =>
      rw [List.cons_append, showValues_cons, decimalText_plain (has a List.mem_cons_self),
        if_neg (by simp), ih fun f hf => has f (List.mem_cons_of_mem a hf)]
      unfold commas digits
      simp

/-- What is shown of a field is its value, and the base of its numbers. -/
theorem get_eq_shown (f : Field) :
    (((shown zeroBased reg f).toNat : Int) - base zeroBased f) % (2 ^ f.width : Nat) =
      (f.get reg).toNat := by
  have hle := f.le
  have hbase := base_le zeroBased f
  have hlt := toNat_get_lt f reg
  have hget := (f.get reg).isLt
  have hpow : (2 ^ 32 : Nat) = 4294967296 := rfl
  have hmod : ((f.get reg).toNat : Int) % (2 ^ f.width : Nat) = (f.get reg).toNat :=
    Int.emod_eq_of_lt (by omega) (by omega)
  obtain ⟨m, hm⟩ : 2 ^ f.width ∣ 4294967296 :=
    Nat.pow_dvd_pow (m := f.width) (n := 32) 2 (by omega)
  rw [← hmod, Int.emod_eq_emod_iff_emod_sub_eq_zero]
  refine Int.emod_eq_zero_of_dvd ?_
  have hshown : (shown zeroBased reg f).toNat =
      ((f.get reg).toNat + base zeroBased f) % 4294967296 := by
    have hsmall : base zeroBased f % 4294967296 = base zeroBased f := Nat.mod_eq_of_lt (by omega)
    unfold shown
    rw [BitVec.toNat_add, zb_mask, BitVec.toNat_ofNat, hpow, hsmall]
  have hdiff : ((shown zeroBased reg f).toNat : Int) - base zeroBased f - (f.get reg).toNat =
      (4294967296 : Nat) * -(((f.get reg).toNat + base zeroBased f) / 4294967296 : Nat) := by
    have hdiv := Nat.div_add_mod ((f.get reg).toNat + base zeroBased f) 4294967296
    rw [hshown]
    omega
  rw [hdiff, hm, Int.natCast_mul, Int.mul_assoc]
  exact Int.dvd_mul_right _ _

/-! ### Storing -/

/-- What is shown is stored again, and a text of numbers sets as many fields as it has. -/
structure Right (zeroBased : Bool) (fs : List Field) (reg : BitVec 32) : Prop where
  restored : ∀ (signal text : List Char) (reg0 : BitVec 32),
    showFields signal (masks fs) zeroBased reg = signal ++ '=' :: text → ∃ reg',
      storeFields (masks fs) zeroBased text reg0 = some reg' ∧
        (∀ f ∈ fs, f.get reg' = f.get reg) ∧
        ∀ i, (∀ f ∈ fs, ¬f.Has i) → reg'.getLsbD i = reg0.getLsbD i
  stored : ∀ (ds : List (List Char)) (tail : List Char) (reg0 : BitVec 32),
    (∀ d ∈ ds, Sscanf.IsDigits d) → tail ∈ tails → ∃ reg',
      storeFields (masks fs) zeroBased (List.intercalate [','] ds ++ tail) reg0 = some reg' ∧
        (∀ (j : Nat) (f : Field) (d : List Char), fs[j]? = some f → ds[j]? = some d →
          ((f.get reg').toNat : Int) =
            ((Sscanf.decimal d : Int) - base zeroBased f) % (2 ^ f.width : Nat)) ∧
        ∀ i, (∀ f ∈ fs.take ds.length, ¬f.Has i) → reg'.getLsbD i = reg0.getLsbD i

variable {fs : List Field}

theorem setAll_shown (happart : fs.Pairwise Span.Apart) (reg0 : BitVec 32) (hf : f ∈ fs) :
    f.get (setAll zeroBased fs ((fs.map (digits zeroBased reg)).map Sscanf.decimal) reg0) =
      f.get reg := by
  obtain ⟨j, hj⟩ := List.getElem?_of_mem hf
  have hnum : ((fs.map (digits zeroBased reg)).map Sscanf.decimal)[j]? =
      some (shown zeroBased reg f).toNat := by
    rw [List.getElem?_map, List.getElem?_map, hj, Option.map_some, Option.map_some,
      decimal_digits]
  have hget : ((f.get (setAll zeroBased fs _ reg0)).toNat : Int) = _ :=
    get_setAll happart reg0 hj hnum
  rw [get_eq_shown] at hget
  exact BitVec.eq_of_toNat_eq (Int.ofNat.inj hget)

theorem showValues_plain (hfs : ∀ f ∈ fs, Plain zeroBased reg f) (reg0 : BitVec 32) :
    storeFields (masks fs) zeroBased (showValues zeroBased reg (masks fs)) reg0 =
      some (setAll zeroBased fs ((fs.map (digits zeroBased reg)).map Sscanf.decimal) reg0) := by
  rcases List.eq_nil_or_concat fs with rfl | ⟨as, b, rfl⟩
  · rfl
  · rw [List.concat_eq_append] at hfs ⊢
    have hlast : showValues zeroBased reg (masks [b]) = digits zeroBased reg b ++ ['\n'] := by
      rw [showValues_cons, decimalText_plain (hfs b (by simp)), if_pos rfl]
      rfl
    rw [showValues_append (fun f hf => hfs f (List.mem_append_left _ hf)) b [], hlast,
      List.map_append, List.map_singleton]
    refine storeFields_last (fun d hd => ?_) isDigits_digits (by simp) _ reg0
    obtain ⟨f, -, rfl⟩ := List.mem_map.mp hd
    exact isDigits_digits

theorem stored (happart : fs.Pairwise Span.Apart) {ds : List (List Char)} {tail : List Char}
    (reg0 : BitVec 32) (hds : ∀ d ∈ ds, Sscanf.IsDigits d) (htail : tail ∈ tails) : ∃ reg',
      storeFields (masks fs) zeroBased (List.intercalate [','] ds ++ tail) reg0 = some reg' ∧
        (∀ (j : Nat) (f : Field) (d : List Char), fs[j]? = some f → ds[j]? = some d →
          ((f.get reg').toNat : Int) =
            ((Sscanf.decimal d : Int) - base zeroBased f) % (2 ^ f.width : Nat)) ∧
        ∀ i, (∀ f ∈ fs.take ds.length, ¬f.Has i) → reg'.getLsbD i = reg0.getLsbD i := by
  refine ⟨_, storeFields_text hds htail fs reg0, fun j f d hf hd => ?_, fun i hout => ?_⟩
  · refine get_setAll happart reg0 hf ?_
    rw [List.getElem?_map, hd]
    rfl
  · refine setAll_outside fs _ reg0 ?_
    rw [List.length_map]
    exact hout

/-- A field that is shown with a minus is not stored, if it is the first one. -/
theorem minus_not_stored {as cs : List Field} {b : Field}
    (happart : (as ++ b :: cs).Pairwise Span.Apart) (has : ∀ f ∈ as, Plain zeroBased reg f)
    (hb : ¬Plain zeroBased reg b) (reg0 : BitVec 32) {reg' : BitVec 32}
    (h : storeFields (masks (as ++ b :: cs)) zeroBased
      (showValues zeroBased reg (masks (as ++ b :: cs))) reg0 = some reg') :
    b.get reg' = b.get reg0 := by
  obtain ⟨rest, hrest⟩ := decimalText_minus hb
  have hds : ∀ d ∈ as.map (digits zeroBased reg), Sscanf.IsDigits d := by
    intro d hd
    obtain ⟨f, -, rfl⟩ := List.mem_map.mp hd
    exact isDigits_digits
  rw [showValues_append has b cs, showValues_cons, hrest, List.cons_append,
    storeFields_commas hds (Sscanf.number_none _ (by decide) (by decide))] at h
  obtain rfl := Option.some.inj h
  -- only the fields in front of it are set
  rw [get_eq_iff]
  intro i hi
  refine setAll_outside _ _ reg0 fun g hg => ?_
  rw [List.length_map, List.length_map, List.take_left] at hg
  exact ((List.pairwise_append.mp happart).2.2 g hg b List.mem_cons_self).symm.not_has hi

theorem get_not_ne (f : Field) (reg : BitVec 32) : f.get (~~~reg) ≠ f.get reg := by
  intro heq
  have hle := f.le
  have hpos := f.pos
  have hbit := get_eq_iff.mp heq f.shl ⟨Nat.le_refl _, by omega⟩
  rw [BitVec.getLsbD_not, decide_eq_true (by omega : f.shl < 32), Bool.true_and] at hbit
  cases hb : reg.getLsbD f.shl <;> simp [hb] at hbit

/--
**The text of the fields is stored as it is shown when no number has a minus, and not else.**
-/
theorem storeFields_right_iff (zeroBased : Bool) (fs : List Field) (reg : BitVec 32)
    (happart : fs.Pairwise Span.Apart) :
    Right zeroBased fs reg ↔ ∀ f ∈ fs, Plain zeroBased reg f := by
  constructor
  · intro h
    by_contra hnot
    obtain ⟨as, b, cs, rfl, hb, has⟩ : ∃ as b cs, fs = as ++ b :: cs ∧
        ¬Plain zeroBased reg b ∧ ∀ f ∈ as, Plain zeroBased reg f := by
      cases hfind : fs.find? fun f => decide (¬Plain zeroBased reg f) with
      | none =>
          rw [List.find?_eq_none] at hfind
          exact absurd (fun f hf => by simpa using hfind f hf) hnot
      | some b =>
          rw [List.find?_eq_some_iff_append] at hfind
          obtain ⟨hb, as, cs, heq, has⟩ := hfind
          exact ⟨as, b, cs, heq, by simpa using hb, fun f hf => by simpa using has f hf⟩
    obtain ⟨reg', hstore, hget, -⟩ := h.restored [] _ (~~~reg) rfl
    have hkept := minus_not_stored happart has hb (~~~reg) hstore
    exact get_not_ne b reg (hkept.symm.trans (hget b (by simp)))
  · intro hplain
    refine ⟨fun signal text reg0 htext => ?_,
      fun ds tail reg0 hds htail => stored happart reg0 hds htail⟩
    obtain rfl : showValues zeroBased reg (masks fs) = text :=
      List.tail_eq_of_cons_eq (List.append_cancel_left htext)
    refine ⟨_, showValues_plain hplain reg0, fun f hf => setAll_shown happart reg0 hf, ?_⟩
    intro i hout
    exact setAll_outside fs _ reg0 fun f hf => hout f (List.mem_of_mem_take hf)

/-- A pulse of a width, its delay and an enable. -/
theorem storeFields_right_pulse :
    Right true [⟨0, 8, by decide, by decide⟩, ⟨8, 4, by decide, by decide⟩,
      ⟨31, 1, by decide, by decide⟩] 0x80000a12 :=
  (storeFields_right_iff true _ _ (by decide)).mpr (by decide)

/-- A field of 31 bits that is full is shown with a minus, as its numbers begin with 1. -/
theorem full_field_not_right :
    ¬∀ (zeroBased : Bool) (fs : List Field) (reg : BitVec 32), fs.Pairwise Span.Apart →
      Right zeroBased fs reg := by
  intro h
  have hright := h true [⟨0, 31, by decide, by decide⟩] 0x7fffffff (by decide)
  obtain ⟨reg', hstore, hget, -⟩ := hright.restored [] _ 0 rfl
  have hkept : storeFields (masks [⟨0, 31, by decide, by decide⟩]) true
      (showValues true 0x7fffffff (masks [⟨0, 31, by decide, by decide⟩])) 0 = some 0 := by
    decide +kernel
  obtain rfl := Option.some.inj (hkept.symm.trans hstore)
  have hval := hget _ List.mem_cons_self
  exact absurd hval (by decide)

end Field

end Acq400
