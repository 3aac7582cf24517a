/-
What the live display shows around an event.

The data before the event has to be `pre` samples, and behind it `post`, that no signature
is in the way of.  `countES` counts the signatures of a stretch of samples and the
stretch is made longer by as many; so what has to agree is the signatures that it has
counted and those in the longer stretch.  It does not look at what has been added, and
with words of two bytes it looks at twice the samples.
-/
import Acq400.Lib.Strides
import Acq400.Proofs.FindEvent
import Acq400.Stream.LivePP
import Mathlib.Data.Nat.Count

namespace Acq400.StreamHeadLivePP

variable {g : PrePost} {m : Mem}

/-! ### Counting -/

/-- As many samples are looked at for `n` of them. -/
def looks (g : PrePost) (n : Nat) : Nat := (n * g.nchan + stride g - 1) / stride g

/-- The signatures at the samples that are looked at. -/
def counted (g : PrePost) (m : Mem) (start n : Nat) : Nat :=
  Nat.count (fun i => (evX g).isES m (start + 4 * (i * stride g)) = true) (looks g n)

theorem countESLoop_eq (start lenw : Nat) (hstride : 0 < stride g) :
    ∀ (fuel i left escount : Nat), i + left = (lenw + stride g - 1) / stride g →
      countESLoop g m start lenw fuel (i * stride g) escount =
        if left < fuel then
          some (escount +
            Nat.count (fun j => (evX g).isES m (start + 4 * ((i + j) * stride g)) = true) left)
        else none := by
  intro fuel
  induction fuel with
  | zero => intro i left escount _; rfl
  | succ fuel ih =>
      intro i left escount hleft
      unfold countESLoop
      cases left with
      | zero =>
          have hend : lenw ≤ i * stride g := by
            have hlt := Nat.lt_mul_div_succ (lenw + stride g - 1) hstride
            rw [← hleft, Nat.add_zero, Nat.mul_succ, Nat.mul_comm] at hlt
            omega
          rw [if_neg (by omega), if_pos (Nat.succ_pos fuel), Nat.count_zero, Nat.add_zero]
      | succ left =>
          have hin : i * stride g < lenw := by
            have hle := Nat.mul_le_of_le_div (stride g) (i + 1) _
              (show i + 1 ≤ (lenw + stride g - 1) / stride g by omega)
            rw [Nat.succ_mul] at hle
            omega
          have hnext : i * stride g + stride g = (i + 1) * stride g := (Nat.succ_mul i _).symm
          rw [if_pos (by omega), hnext, ih (i + 1) left _ (by omega), Nat.count_succ']
          simp only [Nat.add_zero, Nat.succ_lt_succ_iff, Nat.add_right_comm i 1, Nat.add_assoc i]
          split
          · split
            · rw [Nat.add_assoc, Nat.add_comm 1]
            · rfl
          · rfl

/-- A sample of less than four bytes is counted for ever. -/
theorem countESLoop_stuck {start : Nat} {lenw : Int} (hstride : stride g = 0) {pos : Nat}
    (hpos : (pos : Int) < lenw) :
    ∀ fuel escount, countESLoop g m start lenw fuel pos escount = none := by
  intro fuel
  induction fuel with
  | zero => intro escount; rfl
  | succ fuel ih =>
      intro escount
      unfold countESLoop
      rw [if_pos hpos, hstride, Nat.add_zero]
      exact ih _

variable {n start fuel : Nat}

/-- What `lenw` is: the words of the data in the samples. -/
theorem lenw_eq (hws : 0 < g.wordsize) (hn : n * g.sampleSize < 2 ^ 31) :
    CInt.wrap (CInt.unsigned ((n * g.sampleSize : Nat) : Int) / g.wordsize) =
      ((n * g.nchan : Nat) : Int) := by
  have hmul : n * g.sampleSize = n * g.nchan * g.wordsize := (Nat.mul_assoc n _ _).symm
  have hle : n * g.nchan ≤ n * g.sampleSize := by
    rw [hmul]
    exact Nat.le_mul_of_pos_right _ hws
  rw [CInt.unsigned_natCast (by omega), ← Int.natCast_div, hmul, Nat.mul_div_cancel _ hws,
    CInt.wrap_natCast (by omega)]

theorem wordsize_pos (hstride : 0 < stride g) : 0 < g.wordsize := by
  refine Nat.pos_of_ne_zero fun hzero => ?_
  unfold stride G.sampleSize at hstride
  rw [hzero, Nat.mul_zero] at hstride
  omega

theorem countES_eq (hstride : 0 < stride g) (hn : n * g.sampleSize < 2 ^ 31) :
    countES g m fuel start ((n * g.sampleSize : Nat) : Int) =
      if looks g n < fuel then some (counted g m start n) else none := by
  unfold countES
  rw [lenw_eq (wordsize_pos hstride) hn]
  have hloop := countESLoop_eq (m := m) start (n * g.nchan) hstride fuel 0
    (looks g n) 0 (Nat.zero_add _)
  rw [Nat.zero_mul] at hloop
  rw [hloop]
  simp only [Nat.zero_add]
  rfl

/-! ### Samples and signatures -/

/-- A signature takes the place of as many samples. -/
def esSamples (g : PrePost) : Nat := g.esSize / g.sampleSize

/-- The sample at `a` belongs to a signature. -/
def InSignature (g : PrePost) (m : Mem) (a : Nat) : Prop :=
  ∃ j < esSamples g, j * g.sampleSize ≤ a ∧ (evX g).isES m (a - j * g.sampleSize) = true

instance : DecidablePred (InSignature g m) := fun _ => Nat.decidableExistsLT _

/-- How many of the `n` samples from `start` on belong to signatures. -/
def signatureSamples (g : PrePost) (m : Mem) (start n : Nat) : Nat :=
  Nat.count (fun i => InSignature g m (start + i * g.sampleSize)) n

/-- How many do not. -/
def dataSamples (g : PrePost) (m : Mem) (start n : Nat) : Nat :=
  Nat.count (fun i => ¬ InSignature g m (start + i * g.sampleSize)) n

theorem signatureSamples_add_dataSamples (start n : Nat) :
    signatureSamples g m start n + dataSamples g m start n = n := by
  unfold signatureSamples dataSamples
  induction n with
  | zero => rfl
  | succ n ih =>
      rw [Nat.count_succ, Nat.count_succ]
      by_cases hin : InSignature g m (start + n * g.sampleSize)
      · rw [if_pos hin, if_neg (not_not.mpr hin)]
        omega
      · rw [if_neg hin, if_pos hin]
        omega

theorem esSize_eq (g : PrePost) : g.esSize = esSamples g * g.sampleSize := by
  unfold esSamples
  refine (Nat.div_mul_cancel ?_).symm
  unfold PrePost.esSize G.sampleSize getNchanES
  refine Nat.mul_dvd_mul_right ?_ _
  split
  · exact Nat.dvd_refl _
  · split
    · exact Nat.dvd_refl _
    · exact Nat.dvd_mul_right _ _

/-- The samples that are added to `n` samples from `start` on. -/
def added (g : PrePost) (m : Mem) (start n : Nat) : Nat := esSamples g * counted g m start n

/-- What comes out of the count, where nothing overflows. -/
theorem added_of_countES {escount : Nat} {eslen len : Int} (hn : n ≠ 0) (hss : g.sampleSize ≠ 0)
    (hcount : countES g m fuel start (CInt.wrap (n * g.sampleSize)) = some escount)
    (heslen : CInt.value (escount * g.esSize) = some eslen)
    (hlen : CInt.value (CInt.wrap (n * g.sampleSize) + eslen) = some len)
    (hle : ((n * g.sampleSize : Nat) : Int) ≤ len) :
    0 < stride g ∧ (n + added g m start n) * g.sampleSize < 2 ^ 31 ∧
      eslen = (added g m start n * g.sampleSize : Nat) ∧
      len = ((n + added g m start n) * g.sampleSize : Nat) := by
  obtain ⟨hrange, rfl⟩ := CInt.value_eq_some.mp hlen
  have hn31 : n * g.sampleSize < 2 ^ 31 := by
    have hlt := hrange.2
    omega
  have hwrap : CInt.wrap (n * g.sampleSize) = ((n * g.sampleSize : Nat) : Int) := by
    rw [← Int.natCast_mul, CInt.wrap_natCast hn31]
  rw [hwrap] at hcount hrange ⊢
  have hstride : 0 < stride g := by
    refine Nat.pos_of_ne_zero fun hzero => ?_
    have hws : 0 < g.wordsize := Nat.pos_of_ne_zero fun h0 => hss (by
      unfold G.sampleSize
      rw [h0, Nat.mul_zero])
    have hnchan : 0 < g.nchan := Nat.pos_of_ne_zero fun h0 => hss (by
      unfold G.sampleSize
      rw [h0, Nat.zero_mul])
    have hlenw : 0 < n * g.nchan := Nat.mul_pos (Nat.pos_of_ne_zero hn) hnchan
    unfold countES at hcount
    rw [lenw_eq hws hn31, countESLoop_stuck hzero (Int.natCast_pos.mpr hlenw)] at hcount
    cases hcount
  rw [countES_eq hstride hn31] at hcount
  split at hcount
  · obtain rfl := Option.some.inj hcount
    obtain ⟨_, rfl⟩ := CInt.value_eq_some.mp heslen
    have hadded : counted g m start n * g.esSize = added g m start n * g.sampleSize := by
      unfold added
      rw [esSize_eq, ← Nat.mul_assoc, Nat.mul_comm (counted g m start n)]
    rw [← Int.natCast_mul, hadded] at hrange ⊢
    rw [Nat.add_mul]
    exact ⟨hstride, by have hlt := hrange.2; omega, rfl, by rw [Int.natCast_add]⟩
  · cases hcount

theorem countES_of_added (hstride : 0 < stride g) (hfuel : looks g n < fuel)
    (hlonger : (n + added g m start n) * g.sampleSize < 2 ^ 31) :
    countES g m fuel start (CInt.wrap (n * g.sampleSize)) = some (counted g m start n) ∧
      CInt.value (counted g m start n * g.esSize) =
        some ((added g m start n * g.sampleSize : Nat) : Int) ∧
      CInt.value (CInt.wrap (n * g.sampleSize) + (added g m start n * g.sampleSize : Nat)) =
        some (((n + added g m start n) * g.sampleSize : Nat) : Int) := by
  rw [Nat.add_mul] at hlonger ⊢
  have hwrap : CInt.wrap (n * g.sampleSize) = ((n * g.sampleSize : Nat) : Int) := by
    rw [← Int.natCast_mul, CInt.wrap_natCast (by omega)]
  have hadded : counted g m start n * g.esSize = added g m start n * g.sampleSize := by
    unfold added
    rw [esSize_eq, ← Nat.mul_assoc, Nat.mul_comm (counted g m start n)]
  refine ⟨?_, ?_, ?_⟩
  · rw [hwrap, countES_eq hstride (by omega), if_pos hfuel]
  · rw [← Int.natCast_mul, hadded, CInt.value_natCast (by omega)]
  · rw [hwrap, ← Int.natCast_add, CInt.value_natCast hlonger]

/-! ### What is written -/

/-- The write lies in the mapping and holds `n` samples that are not event signatures. -/
def Shows (g : PrePost) (m : Mem) (w : LiveWrite) (n : Nat) : Prop :=
  0 ≤ w.startOff ∧ w.startOff + w.len ≤ (g.nbuffers * g.bufferlen : Nat) ∧
    (g.sampleSize : Int) ∣ w.len ∧
    dataSamples g m (MapBuffer.ba0 + w.startOff.toNat) (w.len / g.sampleSize).toNat = n

/-- What is shown around the event at `es`, if anything is: `pre` samples up to it, and `post`
samples from its signature on. -/
def Right (g : PrePost) (m : Mem) (ibuf es : Nat) : Prop :=
  ∃ fuel before after, writes g m fuel ibuf es = some (before, after) ∧
    (g.pre ≠ 0 → ∃ w, before = some w ∧ w.startOff + w.len = (es : Int) - MapBuffer.ba0 ∧
      Shows g m w g.pre) ∧
    (g.post ≠ 0 → ∃ w, after = some w ∧ w.startOff = (es + g.esSize : Int) - MapBuffer.ba0 ∧
      Shows g m w g.post)

/-- The samples of the longer stretch before the event. -/
def longerPre (g : PrePost) (m : Mem) (es : Nat) : Nat :=
  g.pre + added g m (es - g.pre * g.sampleSize) g.pre

/-- It lies in the mapping, and as many samples of it belong to signatures as have been added. -/
def FitsBefore (g : PrePost) (m : Mem) (es : Nat) : Prop :=
  0 < stride g ∧ longerPre g m es * g.sampleSize < 2 ^ 31 ∧
    MapBuffer.ba0 + longerPre g m es * g.sampleSize ≤ es ∧
    es < MapBuffer.ba0 + longerPre g m es * g.sampleSize + 2 ^ 31 ∧
    signatureSamples g m (es - longerPre g m es * g.sampleSize) (longerPre g m es) =
      added g m (es - g.pre * g.sampleSize) g.pre

/-- The samples of the longer stretch after it. -/
def longerPost (g : PrePost) (m : Mem) (es : Nat) : Nat :=
  g.post + added g m (es + g.esSize) g.post

def FitsAfter (g : PrePost) (m : Mem) (es : Nat) : Prop :=
  0 < stride g ∧ longerPost g m es * g.sampleSize < 2 ^ 31 ∧
    es + g.esSize + longerPost g m es * g.sampleSize ≤ MapBuffer.baHi g.toG ∧
    es + g.esSize < MapBuffer.ba0 + 2 ^ 31 ∧
    signatureSamples g m (es + g.esSize) (longerPost g m es) = added g m (es + g.esSize) g.post

theorem Shows.le {w : LiveWrite} (hshows : Shows g m w n) (hn : n ≠ 0) :
    g.sampleSize ≠ 0 ∧ ((n * g.sampleSize : Nat) : Int) ≤ w.len := by
  obtain ⟨_, _, hdvd, hdata⟩ := hshows
  have hle : n ≤ (w.len / g.sampleSize).toNat := by
    rw [← hdata]
    exact Nat.count_le _
  have hss : g.sampleSize ≠ 0 := by
    intro hzero
    rw [hzero, Int.natCast_zero, Int.ediv_zero] at hle
    exact hn (Nat.le_zero.mp hle)
  refine ⟨hss, ?_⟩
  obtain ⟨q, hq⟩ := hdvd
  rw [hq, Int.mul_ediv_cancel_left _ (by omega)] at hle
  have hqn : (n : Int) ≤ q := by omega
  rw [hq, Int.natCast_mul, Int.mul_comm]
  exact Int.mul_le_mul_of_nonneg_left hqn (by omega)

/-- Read off the samples of a write that is `n` samples long. -/
theorem shows_iff {w : LiveWrite} {k s : Nat} (hss : g.sampleSize ≠ 0)
    (hlen : w.len = (n * g.sampleSize : Nat)) (hstart : w.startOff = (s : Int) - MapBuffer.ba0)
    (hs : MapBuffer.ba0 ≤ s) (hend : s + n * g.sampleSize ≤ MapBuffer.baHi g.toG) (hkn : k ≤ n) :
    Shows g m w k ↔ signatureSamples g m s n = n - k := by
  have hsum := signatureSamples_add_dataSamples (g := g) (m := m) s n
  have hq : (w.len / g.sampleSize).toNat = n := by
    rw [hlen, ← Int.natCast_div, Int.toNat_natCast, Nat.mul_div_cancel _ (Nat.pos_of_ne_zero hss)]
  have hat : MapBuffer.ba0 + w.startOff.toNat = s := by omega
  unfold MapBuffer.baHi MapBuffer.ba1 at hend
  unfold Shows
  rw [hq, hat]
  constructor
  · rintro ⟨_, _, _, hdata⟩
    omega
  · intro hsig
    refine ⟨by omega, by omega, ?_, by omega⟩
    rw [hlen, Int.natCast_mul]
    exact Int.dvd_mul_left _ _

theorem passes_bounds {ibuf es : Nat} (hpass : passes g ibuf es = true) :
    (MapBuffer.ba0 : Int) < es - prelen g ∧
      es1 g es + postlen g < (MapBuffer.baHi g.toG : Nat) := by
  unfold passes MapBuffer.getBase at hpass
  simp only [Nat.zero_mul, Nat.add_zero, Bool.and_eq_true, decide_eq_true_eq] at hpass
  exact hpass.2

theorem prelen_eq (hpre : g.pre * g.sampleSize < 2 ^ 31) :
    prelen g = (g.pre * g.sampleSize : Nat) := by
  unfold prelen
  rw [← Int.natCast_mul, CInt.wrap_natCast hpre]

theorem base_zero (g : PrePost) : MapBuffer.getBase g.toG 0 = MapBuffer.ba0 := by
  unfold MapBuffer.getBase
  rw [Nat.zero_mul, Nat.add_zero]

/-- What is written before the event is right only if it fits. -/
theorem fitsBefore_of_writePre {es : Nat} {w : LiveWrite} (hpre : g.pre ≠ 0)
    (hwrite : writePre g m fuel es = some w)
    (hstop : w.startOff + w.len = (es : Int) - MapBuffer.ba0)
    (hshows : Shows g m w g.pre) : FitsBefore g m es := by
  obtain ⟨hss, hle⟩ := hshows.le hpre
  unfold writePre at hwrite
  obtain ⟨escount, hcount, hwrite⟩ := Option.bind_eq_some_iff.mp hwrite
  obtain ⟨eslen, heslen, hwrite⟩ := Option.bind_eq_some_iff.mp hwrite
  obtain ⟨startOff, hstart, hwrite⟩ := Option.bind_eq_some_iff.mp hwrite
  obtain ⟨len, hlen, hwrite⟩ := Option.bind_eq_some_iff.mp hwrite
  obtain rfl := Option.some.inj hwrite
  have hpre31 : g.pre * g.sampleSize < 2 ^ 31 := by
    have hlt := (CInt.value_eq_some.mp hlen).1.2
    rw [(CInt.value_eq_some.mp hlen).2] at hlt
    dsimp only at hle
    omega
  have hat : ((es : Int) - prelen g).toNat = es - g.pre * g.sampleSize := by
    rw [prelen_eq hpre31]
    omega
  rw [hat] at hcount
  obtain ⟨hstride, hlonger, rfl, rfl⟩ := added_of_countES hpre hss hcount heslen hlen hle
  obtain ⟨hrange, hoff⟩ := CInt.value_eq_some.mp hstart
  have hsum : (longerPre g m es) * g.sampleSize =
      g.pre * g.sampleSize + added g m (es - g.pre * g.sampleSize) g.pre * g.sampleSize :=
    Nat.add_mul _ _ _
  rw [prelen_eq hpre31, base_zero] at hrange hoff
  have hlow : 0 ≤ startOff := hshows.1
  have hend : es ≤ MapBuffer.baHi g.toG := by
    have hmapped := hshows.2.1
    rw [hstop] at hmapped
    unfold MapBuffer.baHi MapBuffer.ba1
    omega
  have hhigh := hrange.2
  have hfrom : startOff =
      ((es - longerPre g m es * g.sampleSize : Nat) : Int) - MapBuffer.ba0 := by omega
  refine ⟨hstride, hlonger, by omega, by omega, ?_⟩
  rw [(shows_iff (n := longerPre g m es) hss rfl hfrom (by omega) (by omega)
    (Nat.le_add_right _ _)).mp hshows]
  exact Nat.add_sub_cancel_left _ _

theorem fitsAfter_of_writePost {es : Nat} {w : LiveWrite} (hpost : g.post ≠ 0)
    (hwrite : writePost g m fuel es = some w)
    (hstart : w.startOff = (es + g.esSize : Int) - MapBuffer.ba0)
    (hshows : Shows g m w g.post) : g.showEs = false ∧ FitsAfter g m es := by
  obtain ⟨hss, hle⟩ := hshows.le hpost
  unfold writePost at hwrite
  obtain ⟨escount, hcount, hwrite⟩ := Option.bind_eq_some_iff.mp hwrite
  obtain ⟨eslen, heslen, hwrite⟩ := Option.bind_eq_some_iff.mp hwrite
  obtain ⟨startOff, hoff, hwrite⟩ := Option.bind_eq_some_iff.mp hwrite
  obtain ⟨len, hlen, hwrite⟩ := Option.bind_eq_some_iff.mp hwrite
  obtain rfl := Option.some.inj hwrite
  obtain ⟨hrange, rfl⟩ := CInt.value_eq_some.mp hoff
  rw [base_zero] at hstart hrange
  have hesSize := g.sampleSize_le_esSize
  have hshow : g.showEs = false := by
    by_contra hshow
    rw [Bool.not_eq_false] at hshow
    unfold es1 at hstart
    dsimp only at hstart
    rw [hshow, if_pos rfl] at hstart
    omega
  have hes1 : es1 g es = es + g.esSize := by
    unfold es1
    rw [hshow]
    rfl
  rw [hes1] at hcount hrange
  obtain ⟨hstride, hlonger, rfl, rfl⟩ := added_of_countES hpost hss hcount heslen hlen hle
  have hlow : 0 ≤ (es1 g es : Int) - MapBuffer.getBase g.toG 0 := hshows.1
  rw [base_zero, hes1] at hlow
  have hhigh := hrange.2
  have hend : es + g.esSize + longerPost g m es * g.sampleSize ≤ MapBuffer.baHi g.toG := by
    have hmapped := hshows.2.1
    dsimp only at hmapped hstart
    rw [base_zero, hstart] at hmapped
    unfold MapBuffer.baHi MapBuffer.ba1 longerPost
    omega
  refine ⟨hshow, hstride, hlonger, hend, by omega, ?_⟩
  have hfrom : (es1 g es : Int) - MapBuffer.getBase g.toG 0 =
      ((es + g.esSize : Nat) : Int) - MapBuffer.ba0 := by
    rw [base_zero, hes1]
  rw [(shows_iff (n := longerPost g m es) hss rfl hfrom (by omega) hend
    (Nat.le_add_right _ _)).mp hshows]
  exact Nat.add_sub_cancel_left _ _

theorem writePre_of_fitsBefore {es : Nat} (hend : es ≤ MapBuffer.baHi g.toG)
    (hfuel : looks g g.pre < fuel) (hfits : FitsBefore g m es) :
    ∃ w, writePre g m fuel es = some w ∧
      w.startOff + w.len = (es : Int) - MapBuffer.ba0 ∧ Shows g m w g.pre := by
  obtain ⟨hstride, hlonger, hlow, hhigh, hsig⟩ := hfits
  have hss : g.sampleSize ≠ 0 := by
    unfold stride at hstride
    omega
  have hsum : longerPre g m es * g.sampleSize =
      g.pre * g.sampleSize + added g m (es - g.pre * g.sampleSize) g.pre * g.sampleSize :=
    Nat.add_mul _ _ _
  obtain ⟨off, hes⟩ := Nat.exists_eq_add_of_le hlow
  have hoff31 : off < 2 ^ 31 := by omega
  have hlow' : MapBuffer.ba0 ≤ es - longerPre g m es * g.sampleSize := by omega
  have hstop : (off : Int) + (longerPre g m es * g.sampleSize : Nat) =
      es - (MapBuffer.ba0 : Nat) := by omega
  have hfrom : (off : Int) = (es - longerPre g m es * g.sampleSize : Nat) -
      (MapBuffer.ba0 : Nat) := by omega
  have hprelen := prelen_eq (g := g) (by omega)
  have hat : ((es : Int) - prelen g).toNat = es - g.pre * g.sampleSize := by
    rw [hprelen]
    omega
  obtain ⟨hcount, heslen, hlen⟩ := countES_of_added hstride hfuel hlonger
  have hoff : (es : Int) - prelen g - (MapBuffer.getBase g.toG 0 : Nat) -
      (added g m (es - g.pre * g.sampleSize) g.pre * g.sampleSize : Nat) = off := by
    rw [hprelen, base_zero]
    omega
  have hwrite : writePre g m fuel es =
      some ⟨bo1 g, off, (longerPre g m es * g.sampleSize : Nat)⟩ := by
    unfold writePre
    rw [hat]
    simp only [Option.bind_eq_bind]
    unfold prelen at hoff ⊢
    rw [hcount, Option.bind_some, heslen, Option.bind_some, hoff, CInt.value_natCast hoff31,
      Option.bind_some, hlen]
    rfl
  refine ⟨_, hwrite, hstop, ?_⟩
  have hend' : es - longerPre g m es * g.sampleSize + longerPre g m es * g.sampleSize ≤
      MapBuffer.baHi g.toG := by
    rwa [Nat.sub_add_cancel (Nat.le_of_add_left_le hlow)]
  rw [shows_iff (n := longerPre g m es) hss rfl hfrom hlow' hend' (Nat.le_add_right _ _), hsig]
  exact (Nat.add_sub_cancel_left _ _).symm

theorem writePost_of_fitsAfter {es : Nat} (hes : MapBuffer.ba0 ≤ es) (hshow : g.showEs = false)
    (hfuel : looks g g.post < fuel) (hfits : FitsAfter g m es) :
    ∃ w, writePost g m fuel es = some w ∧
      w.startOff = (es + g.esSize : Int) - MapBuffer.ba0 ∧ Shows g m w g.post := by
  obtain ⟨hstride, hlonger, hend, hhigh, hsig⟩ := hfits
  have hss : g.sampleSize ≠ 0 := by
    unfold stride at hstride
    omega
  have hes1 : es1 g es = es + g.esSize := by
    unfold es1
    rw [hshow]
    rfl
  obtain ⟨off, hoff⟩ := Nat.exists_eq_add_of_le (show MapBuffer.ba0 ≤ es + g.esSize by omega)
  have hfrom : (off : Int) = (es + g.esSize : Nat) - (MapBuffer.ba0 : Nat) := by omega
  obtain ⟨hcount, heslen, hlen⟩ := countES_of_added hstride hfuel hlonger
  have hwrite : writePost g m fuel es =
      some ⟨bo2 g, off, (longerPost g m es * g.sampleSize : Nat)⟩ := by
    unfold writePost postlen
    simp only [Option.bind_eq_bind]
    rw [hes1, base_zero, ← hfrom, hcount, Option.bind_some, heslen, Option.bind_some,
      CInt.value_natCast (by omega), Option.bind_some, hlen]
    rfl
  refine ⟨_, hwrite, hfrom, ?_⟩
  rw [shows_iff (n := longerPost g m es) hss rfl hfrom (by omega) hend
    (Nat.le_add_right _ _), hsig]
  exact (Nat.add_sub_cancel_left _ _).symm

/-! ### The display -/

theorem writes_eq {ibuf es : Nat} (hpass : passes g ibuf es = true) :
    writes g m fuel ibuf es = (writeBefore g m fuel es).bind fun before =>
      (writeAfter g m fuel es).bind fun after => some (before, after) := by
  unfold writes
  rw [if_pos hpass]
  rfl

/-- Where there are samples to be shown, the checks put `es` in the mapping. -/
theorem mapped_of_passes {ibuf es : Nat} (hpass : passes g ibuf es = true)
    (hpre : 0 ≤ prelen g) (hpost : 0 ≤ postlen g) :
    MapBuffer.ba0 ≤ es ∧ es ≤ MapBuffer.baHi g.toG := by
  obtain ⟨hlow, hhigh⟩ := passes_bounds hpass
  have hes1 : es ≤ es1 g es := Nat.le_add_right _ _
  omega

theorem prelen_of_fits {es : Nat} (hfits : g.pre = 0 ∨ FitsBefore g m es) : 0 ≤ prelen g := by
  rcases hfits with hzero | hfits
  · unfold prelen
    rw [hzero, Int.natCast_zero, Int.zero_mul]
    decide
  · have hle : g.pre * g.sampleSize ≤ longerPre g m es * g.sampleSize :=
      Nat.mul_le_mul_right _ (Nat.le_add_right _ _)
    rw [prelen_eq (Nat.lt_of_le_of_lt hle hfits.2.1)]
    exact Int.natCast_nonneg _

theorem postlen_of_fits {es : Nat} (hfits : g.post = 0 ∨ FitsAfter g m es) : 0 ≤ postlen g := by
  unfold postlen
  rcases hfits with hzero | hfits
  · rw [hzero, Int.natCast_zero, Int.zero_mul]
    decide
  · have hle : g.post * g.sampleSize ≤ longerPost g m es * g.sampleSize :=
      Nat.mul_le_mul_right _ (Nat.le_add_right _ _)
    rw [← Int.natCast_mul, CInt.wrap_natCast (Nat.lt_of_le_of_lt hle hfits.2.1)]
    exact Int.natCast_nonneg _

/-- What is shown is right only if the longer stretches fit. -/
theorem Right.fits {ibuf es : Nat} (hpass : passes g ibuf es = true)
    (hright : Right g m ibuf es) :
    (g.pre = 0 ∨ FitsBefore g m es) ∧
      (g.post = 0 ∨ g.showEs = false ∧ FitsAfter g m es) := by
  obtain ⟨fuel, before, after, hwrites, hbefore, hafter⟩ := hright
  rw [writes_eq hpass] at hwrites
  obtain ⟨b, hb, hwrites⟩ := Option.bind_eq_some_iff.mp hwrites
  obtain ⟨a, ha, hwrites⟩ := Option.bind_eq_some_iff.mp hwrites
  obtain ⟨rfl, rfl⟩ := Prod.mk.inj (Option.some.inj hwrites)
  constructor
  · by_cases hpre : g.pre = 0
    · exact Or.inl hpre
    · obtain ⟨w, rfl, hstop, hshows⟩ := hbefore hpre
      rw [writeBefore, if_pos hpre, Option.map_eq_some_iff] at hb
      obtain ⟨w', hw, hsome⟩ := hb
      obtain rfl := Option.some.inj hsome
      exact Or.inr (fitsBefore_of_writePre hpre hw hstop hshows)
  · by_cases hpost : g.post = 0
    · exact Or.inl hpost
    · obtain ⟨w, rfl, hstart, hshows⟩ := hafter hpost
      rw [writeAfter, if_pos hpost, Option.map_eq_some_iff] at ha
      obtain ⟨w', hw, hsome⟩ := ha
      obtain rfl := Option.some.inj hsome
      exact Or.inr (fitsAfter_of_writePost hpost hw hstart hshows)

theorem right_iff_fits {ibuf es : Nat} (hpass : passes g ibuf es = true) :
    Right g m ibuf es ↔
      (g.pre = 0 ∨ FitsBefore g m es) ∧
        (g.post = 0 ∨ g.showEs = false ∧ FitsAfter g m es) := by
  constructor
  · intro hright
    exact hright.fits hpass
  · rintro ⟨hpre, hpost⟩
    obtain ⟨hes, hend⟩ := mapped_of_passes hpass (prelen_of_fits hpre)
      (postlen_of_fits (hpost.imp_right And.right))
    have hbefore : ∃ before, writeBefore g m (looks g g.pre + looks g g.post + 1) es =
        some before ∧ (g.pre ≠ 0 → ∃ w, before = some w ∧
          w.startOff + w.len = (es : Int) - MapBuffer.ba0 ∧ Shows g m w g.pre) := by
      unfold writeBefore
      rcases hpre with hzero | hfits
      · exact ⟨none, if_neg (not_not.mpr hzero), fun hne => absurd hzero hne⟩
      · obtain ⟨w, hw, hright⟩ := writePre_of_fitsBefore hend
          (show looks g g.pre < looks g g.pre + looks g g.post + 1 by omega) hfits
        rw [hw, Option.map_some]
        split
        · exact ⟨some w, rfl, fun _ => ⟨w, rfl, hright⟩⟩
        · rename_i hzero
          exact ⟨none, rfl, fun hne => absurd hne hzero⟩
    have hafter : ∃ after, writeAfter g m (looks g g.pre + looks g g.post + 1) es =
        some after ∧ (g.post ≠ 0 → ∃ w, after = some w ∧
          w.startOff = (es + g.esSize : Int) - MapBuffer.ba0 ∧ Shows g m w g.post) := by
      unfold writeAfter
      rcases hpost with hzero | ⟨hshow, hfits⟩
      · exact ⟨none, if_neg (not_not.mpr hzero), fun hne => absurd hzero hne⟩
      · obtain ⟨w, hw, hright⟩ := writePost_of_fitsAfter hes hshow
          (show looks g g.post < looks g g.pre + looks g g.post + 1 by omega) hfits
        rw [hw, Option.map_some]
        split
        · exact ⟨some w, rfl, fun _ => ⟨w, rfl, hright⟩⟩
        · rename_i hzero
          exact ⟨none, rfl, fun hne => absurd hne hzero⟩
    obtain ⟨before, hb, hbright⟩ := hbefore
    obtain ⟨after, ha, haright⟩ := hafter
    refine ⟨looks g g.pre + looks g g.post + 1, before, after, ?_, hbright, haright⟩
    rw [writes_eq hpass, hb, Option.bind_some, ha, Option.bind_some]

/-! ### Signatures of one sample -/

theorem inSignature_iff (hone : g.esSize = g.sampleSize) (hss : g.sampleSize ≠ 0) (a : Nat) :
    InSignature g m a ↔ (evX g).isES m a = true := by
  have hsamples : esSamples g = 1 := by
    unfold esSamples
    rw [hone, Nat.div_self (Nat.pos_of_ne_zero hss)]
  unfold InSignature
  rw [hsamples]
  simp

theorem counted_eq (h4 : 4 ∣ g.sampleSize) : counted g m start n =
    Nat.count (fun i => (evX g).isES m (start + i * g.sampleSize) = true) (looks g n) := by
  have hstep : ∀ i, 4 * (i * stride g) = i * g.sampleSize := by
    intro i
    unfold stride
    rw [Nat.mul_left_comm, Nat.mul_div_cancel' h4]
  unfold counted
  simp only [hstep]

theorem looks_eq {k : Nat} (hstride : 0 < stride g) (hk : n * g.nchan = stride g * k) :
    looks g n = k := by
  unfold looks
  rw [hk, Nat.add_sub_assoc hstride, Nat.mul_add_div hstride, Nat.div_eq_of_lt (by omega),
    Nat.add_zero]

theorem looks_four (hws : g.wordsize = 4) (hstride : 0 < stride g) (n : Nat) : looks g n = n := by
  have hnchan : g.nchan = stride g := by
    unfold stride G.sampleSize
    rw [hws, Nat.mul_div_cancel _ (by decide)]
  refine looks_eq hstride ?_
  rw [hnchan, Nat.mul_comm]

theorem looks_two (hws : g.wordsize = 2) (h4 : 4 ∣ g.sampleSize) (hstride : 0 < stride g)
    (n : Nat) : looks g n = n + n := by
  have hnchan : g.nchan = 2 * stride g := by
    unfold stride
    unfold G.sampleSize at h4 ⊢
    rw [hws] at h4 ⊢
    omega
  refine looks_eq hstride ?_
  rw [hnchan, ← Nat.mul_assoc, Nat.mul_comm, Nat.mul_two]

/-- The signatures among the samples from `start` on. -/
def signatures (g : PrePost) (m : Mem) (start n : Nat) : Nat :=
  Nat.count (fun i => (evX g).isES m (start + i * g.sampleSize) = true) n

theorem signatures_add (start a b : Nat) : signatures g m start (a + b) =
    signatures g m start a + signatures g m (start + a * g.sampleSize) b := by
  unfold signatures
  rw [Nat.count_add]
  simp only [Nat.add_mul, Nat.add_assoc]

theorem signatureSamples_eq (hone : g.esSize = g.sampleSize) (hss : g.sampleSize ≠ 0)
    (start n : Nat) : signatureSamples g m start n = signatures g m start n := by
  unfold signatureSamples signatures
  simp only [inSignature_iff hone hss]

theorem added_eq (hone : g.esSize = g.sampleSize) (hss : g.sampleSize ≠ 0)
    (h4 : 4 ∣ g.sampleSize) (start n : Nat) :
    added g m start n = signatures g m start (looks g n) := by
  unfold added esSamples
  rw [hone, Nat.div_self (Nat.pos_of_ne_zero hss), Nat.one_mul, counted_eq h4]
  rfl

/-- Before the event the signatures that the longer stretch takes in have to be as many as
those that are counted from the event on: none, with words of four bytes. -/
theorem signatureSamples_before {es : Nat} (hone : g.esSize = g.sampleSize)
    (hss : g.sampleSize ≠ 0) (h4 : 4 ∣ g.sampleSize) (hlow : longerPre g m es * g.sampleSize ≤ es)
    (hlooks : g.pre ≤ looks g g.pre) :
    signatureSamples g m (es - longerPre g m es * g.sampleSize) (longerPre g m es) =
        added g m (es - g.pre * g.sampleSize) g.pre ↔
      signatures g m (es - longerPre g m es * g.sampleSize)
          (added g m (es - g.pre * g.sampleSize) g.pre) =
        signatures g m es (looks g g.pre - g.pre) := by
  have hsum : longerPre g m es * g.sampleSize =
      g.pre * g.sampleSize + added g m (es - g.pre * g.sampleSize) g.pre * g.sampleSize :=
    Nat.add_mul _ _ _
  have hlonger : longerPre g m es = added g m (es - g.pre * g.sampleSize) g.pre + g.pre :=
    Nat.add_comm _ _
  have hwide := signatures_add (g := g) (m := m) (es - longerPre g m es * g.sampleSize)
    (added g m (es - g.pre * g.sampleSize) g.pre) g.pre
  have hcounted := added_eq (m := m) hone hss h4 (es - g.pre * g.sampleSize) g.pre
  have hlook := signatures_add (g := g) (m := m) (es - g.pre * g.sampleSize) g.pre
    (looks g g.pre - g.pre)
  rw [show es - longerPre g m es * g.sampleSize +
    added g m (es - g.pre * g.sampleSize) g.pre * g.sampleSize = es - g.pre * g.sampleSize by
      omega, ← hlonger] at hwide
  rw [Nat.add_sub_cancel' hlooks, Nat.sub_add_cancel (by omega), ← hcounted] at hlook
  rw [signatureSamples_eq hone hss, hwide]
  omega

theorem signatureSamples_after {start n : Nat} (hone : g.esSize = g.sampleSize)
    (hss : g.sampleSize ≠ 0) (h4 : 4 ∣ g.sampleSize) (hlooks : n ≤ looks g n) :
    signatureSamples g m start (n + added g m start n) = added g m start n ↔
      signatures g m (start + n * g.sampleSize) (added g m start n) =
        signatures g m (start + n * g.sampleSize) (looks g n - n) := by
  have hwide := signatures_add (g := g) (m := m) start n (added g m start n)
  have hcounted := added_eq (m := m) hone hss h4 start n
  have hlook := signatures_add (g := g) (m := m) start n (looks g n - n)
  rw [Nat.add_sub_cancel' hlooks, ← hcounted] at hlook
  rw [signatureSamples_eq hone hss, hwide]
  omega

/--
**What is shown is right exactly if the longer stretches fit, and the signatures in them are
those that have been counted.  Where a signature is one sample, these are in the part that is
added as many as in what is looked at beyond the stretch that is asked for.**
-/
theorem live_right_iff {ibuf es : Nat} (hpass : passes g ibuf es = true) :
    (Right g m ibuf es ↔ (g.pre = 0 ∨ FitsBefore g m es) ∧
      (g.post = 0 ∨ g.showEs = false ∧ FitsAfter g m es)) ∧
    (g.esSize = g.sampleSize → g.sampleSize ≠ 0 → 4 ∣ g.sampleSize →
      (longerPre g m es * g.sampleSize ≤ es → g.pre ≤ looks g g.pre →
        (signatureSamples g m (es - longerPre g m es * g.sampleSize) (longerPre g m es) =
            added g m (es - g.pre * g.sampleSize) g.pre ↔
          signatures g m (es - longerPre g m es * g.sampleSize)
              (added g m (es - g.pre * g.sampleSize) g.pre) =
            signatures g m es (looks g g.pre - g.pre))) ∧
      (g.post ≤ looks g g.post →
        (signatureSamples g m (es + g.esSize) (longerPost g m es) =
            added g m (es + g.esSize) g.post ↔
          signatures g m (es + g.esSize + g.post * g.sampleSize)
              (added g m (es + g.esSize) g.post) =
            signatures g m (es + g.esSize + g.post * g.sampleSize) (looks g g.post - g.post)))) :=
  ⟨right_iff_fits hpass, fun hone hss h4 =>
    ⟨signatureSamples_before hone hss h4, signatureSamples_after hone hss h4⟩⟩

/-! ### A display of two samples -/

/-- Thirty two channels of `wordsize` bytes, and one sample before and after the event. -/
def twoSamples (wordsize : Nat) : PrePost where
  nchan := 32
  wordsize := wordsize
  doubleUp := false
  bufferlen := 0x100000
  nbuffers := 512
  isAcq480 := false
  site := some (32, wordsize == 4)
  pre := 1
  post := 1
  showEs := false

instance (es : Nat) : Decidable (FitsBefore g m es) :=
  inferInstanceAs (Decidable (_ ∧ _ ∧ _ ∧ _ ∧ _))

instance (es : Nat) : Decidable (FitsAfter g m es) :=
  inferInstanceAs (Decidable (_ ∧ _ ∧ _ ∧ _ ∧ _))

/-- With words of four bytes, and no signature but that of the event, it is right. -/
theorem twoSamples_four :
    Right (twoSamples 4) (StreamHeadImpl.oneSignature 0x40300080) 3 0x40300080 :=
  (live_right_iff (by decide)).1.mpr ⟨Or.inr (by decide), Or.inr ⟨rfl, by decide⟩⟩

/-- With words of two bytes the signature of the event itself is counted before it, and two
samples are shown there instead of one. -/
theorem twoSamples_two :
    passes (twoSamples 2) 3 0x40300080 = true ∧
      ¬ Right (twoSamples 2) (StreamHeadImpl.oneSignature 0x40300080) 3 0x40300080 := by
  have hpass : passes (twoSamples 2) 3 0x40300080 = true := by decide
  refine ⟨hpass, ?_⟩
  intro hright
  rcases (hright.fits hpass).1 with hzero | hfits
  · cases hzero
  · exact absurd hfits (by decide)

/-! ### What a count inspects -/

/-- What is inspected does not change what is counted. -/
theorem countESLoopInspect_fst (start : Nat) (lenw : Int) : ∀ (fuel pos escount : Nat),
    (countESLoopInspect g m start lenw fuel pos escount).map Prod.fst =
      countESLoop g m start lenw fuel pos escount := by
  intro fuel
  induction fuel with
  | zero => intros; rfl
  | succ fuel ih =>
      intro pos escount
      unfold countESLoopInspect countESLoop
      split
      · rw [Option.map_map, ← ih]
        rfl
      · rfl

theorem countESInspect_fst (len : Int) :
    (countESInspect g m fuel start len).map Prod.fst = countES g m fuel start len :=
  countESLoopInspect_fst _ _ _ _ _

/-- What is inspected is inspected at one of the samples that are looked at. -/
theorem countESLoopInspect_snd (start lenw : Nat) (hstride : 0 < stride g) :
    ∀ (fuel i left escount : Nat), i + left = (lenw + stride g - 1) / stride g →
      ∀ {count : Nat} {words : List Nat},
        countESLoopInspect g m start lenw fuel (i * stride g) escount = some (count, words) →
        words = (List.range left).flatMap
          fun j => (evX g).inspects m (start + 4 * ((i + j) * stride g)) := by
  intro fuel
  induction fuel with
  | zero => intro i left escount _ count words h; cases h
  | succ fuel ih =>
      intro i left escount hleft count words h
      unfold countESLoopInspect at h
      have hlt : i < Strides.turns (stride g) lenw ↔ i * stride g < lenw :=
        Strides.lt_turns_iff hstride i
      rw [Strides.turns, ← hleft] at hlt
      cases left with
      | zero =>
          rw [if_neg (by omega)] at h
          cases h
          rfl
      | succ left =>
          rw [if_pos (by omega), ← Nat.succ_mul] at h
          obtain ⟨⟨count', words'⟩, hrest, heq⟩ := Option.map_eq_some_iff.mp h
          obtain ⟨-, rfl⟩ := Prod.mk.inj heq
          rw [ih (i + 1) left _ (by omega) hrest, List.range_succ_eq_map, List.flatMap_cons,
            List.flatMap_map, Nat.add_zero]
          simp only [Nat.succ_eq_add_one, Nat.add_right_comm i 1, Nat.add_assoc i]
          rfl

/-- The words that are inspected for `n` samples. -/
def inspected (g : PrePost) (m : Mem) (start n : Nat) : List Nat :=
  (List.range (looks g n)).flatMap fun i => (evX g).inspects m (start + i * g.sampleSize)

theorem countESInspect_eq (hstride : 0 < stride g) (h4 : 4 ∣ g.sampleSize)
    (hn : n * g.sampleSize < 2 ^ 31) :
    countESInspect g m fuel start ((n * g.sampleSize : Nat) : Int) =
      if looks g n < fuel then some (signatures g m start (looks g n), inspected g m start n)
      else none := by
  have hcount : countES g m fuel start ((n * g.sampleSize : Nat) : Int) =
      if looks g n < fuel then some (counted g m start n) else none := countES_eq hstride hn
  rw [← countESInspect_fst, counted_eq h4] at hcount
  cases hrun : countESInspect g m fuel start ((n * g.sampleSize : Nat) : Int) with
  | none =>
      rw [hrun] at hcount
      split
      · rename_i hfuel
        rw [if_pos hfuel] at hcount
        cases hcount
      · rfl
  | some r =>
      obtain ⟨count, words⟩ := r
      rw [hrun] at hcount
      split
      · rename_i hfuel
        rw [if_pos hfuel] at hcount
        unfold countESInspect at hrun
        rw [lenw_eq (wordsize_pos hstride) hn, ← Nat.zero_mul (stride g)] at hrun
        have hwords := countESLoopInspect_snd start _ hstride _ 0 (looks g n) _
          (Nat.zero_add _) hrun
        have hstep : ∀ i, 4 * (i * stride g) = i * g.sampleSize := by
          intro i
          unfold stride
          rw [Nat.mul_left_comm, Nat.mul_div_cancel' h4]
        simp only [Nat.zero_add, hstep] at hwords
        have hcount : count = signatures g m start (looks g n) := Option.some.inj hcount
        rw [hwords, hcount]
        rfl
      · rename_i hfuel
        rw [if_neg hfuel] at hcount
        cases hcount

/-- The count is the number of signatures in the region, and nothing behind it is inspected. -/
def CountRight (g : PrePost) (m : Mem) (start len : Nat) : Prop :=
  ∃ fuel count words, countESInspect g m fuel start len = some (count, words) ∧
    count = signatures g m start (len / g.sampleSize) ∧ ∀ a ∈ words, a + 4 ≤ start + len

/-- No sample begins like a signature so close to the end that the rest is looked for behind it. -/
def StaysInside (g : PrePost) (m : Mem) (start len : Nat) : Prop :=
  ∀ i < len / g.sampleSize, ∀ a ∈ (evX g).inspects m (start + i * g.sampleSize),
    a + 4 ≤ start + len

theorem countRight_iff (hstride : 0 < stride g) (h4 : 4 ∣ g.sampleSize)
    (hn : n * g.sampleSize < 2 ^ 31) :
    CountRight g m start (n * g.sampleSize) ↔
      signatures g m start (looks g n) = signatures g m start n ∧
        ∀ a ∈ inspected g m start n, a + 4 ≤ start + n * g.sampleSize := by
  have hss : 0 < g.sampleSize := Nat.pos_of_ne_zero fun hzero => by
    unfold stride at hstride
    rw [hzero] at hstride
    cases hstride
  unfold CountRight
  rw [Nat.mul_div_cancel _ hss]
  constructor
  · rintro ⟨fuel, count, words, hrun, hcount, hwords⟩
    rw [countESInspect_eq hstride h4 hn] at hrun
    split at hrun
    · obtain ⟨rfl, rfl⟩ := Prod.mk.inj (Option.some.inj hrun)
      exact ⟨hcount, hwords⟩
    · cases hrun
  · rintro ⟨hcount, hwords⟩
    refine ⟨looks g n + 1, _, _, ?_, hcount, hwords⟩
    rw [countESInspect_eq hstride h4 hn, if_pos (Nat.lt_succ_self _)]

/-- With words of two bytes the first sample behind the end is inspected. -/
theorem not_countRight_two (htwo : g.wordsize = 2) (h4 : 4 ∣ g.sampleSize)
    (hpos : 0 < n * g.sampleSize) (hint : n * g.sampleSize < 2 ^ 31) :
    ¬CountRight g m start (n * g.sampleSize) := by
  have hss : 0 < g.sampleSize := Nat.pos_of_mul_pos_left hpos
  have hn : 0 < n := Nat.pos_of_mul_pos_right hpos
  have hstride : 0 < stride g := Nat.div_pos (Nat.le_of_dvd hss h4) (by decide)
  rw [countRight_iff hstride h4 hint]
  rintro ⟨-, hinside⟩
  have hne : (evX g).inspects m (start + n * g.sampleSize) ≠ [] := ES.inspects_evX_ne_nil g.isAcq480
  obtain ⟨a, ha⟩ := List.exists_mem_of_ne_nil _ hne
  have hle := ES.le_of_mem_isESInspect ha
  have hlooks : n < looks g n := by
    rw [looks_two htwo h4 hstride]
    omega
  have := hinside a (List.mem_flatMap.mpr ⟨n, List.mem_range.mpr hlooks, ha⟩)
  omega

theorem countRight_four_iff (hfour : g.wordsize = 4) (h4 : 4 ∣ g.sampleSize)
    (hpos : 0 < n * g.sampleSize) (hint : n * g.sampleSize < 2 ^ 31) :
    CountRight g m start (n * g.sampleSize) ↔ StaysInside g m start (n * g.sampleSize) := by
  have hss : 0 < g.sampleSize := Nat.pos_of_mul_pos_left hpos
  have hstride : 0 < stride g := Nat.div_pos (Nat.le_of_dvd hss h4) (by decide)
  rw [countRight_iff hstride h4 hint]
  unfold StaysInside inspected
  rw [Nat.mul_div_cancel _ hss, looks_four hfour hstride]
  simp only [List.mem_flatMap, List.mem_range, forall_exists_index, and_imp, true_and]
  exact ⟨fun h i hi a ha => h a i hi ha, fun h a i hi ha => h i hi a ha⟩

/-- A sample that is as long as a signature does not lead beyond the end. -/
theorem staysInside_of_le (hlong : 16 ≤ g.sampleSize) (len : Nat) : StaysInside g m start len := by
  intro i hi a ha
  have hle := ES.le_end_of_mem_inspects ha
  have hlen : (i + 1) * g.sampleSize ≤ len := (Nat.le_div_iff_mul_le (by omega)).mp hi
  rw [Nat.succ_mul] at hlen
  omega

/--
**A count is right if and only if the words are of four bytes, and it does not have to look behind
the end for the rest of a signature.**
-/
theorem countES_right_iff {len : Nat} (hws : g.wordsize = 2 ∨ g.wordsize = 4)
    (h4 : 4 ∣ g.sampleSize) (hwhole : g.sampleSize ∣ len) (hint : len < 2 ^ 31) :
    CountRight g m start len ↔ len = 0 ∨ g.wordsize = 4 ∧ StaysInside g m start len := by
  obtain ⟨n, rfl⟩ := hwhole
  rw [Nat.mul_comm] at hint ⊢
  by_cases hzero : n * g.sampleSize = 0
  · refine iff_of_true ⟨1, 0, [], ?_, ?_, ?_⟩ (.inl hzero)
    · rw [hzero]
      unfold countESInspect countESLoopInspect
      rw [if_neg (by simp [CInt.unsigned, CInt.wrap])]
    · rw [hzero, Nat.zero_div]
      rfl
    · exact fun a ha => absurd ha List.not_mem_nil
  · have hpos := Nat.pos_of_ne_zero hzero
    rcases hws with htwo | hfour
    · refine iff_of_false (not_countRight_two htwo h4 hpos hint) ?_
      rintro (h | ⟨h, -⟩)
      · exact hzero h
      · omega
    · rw [countRight_four_iff hfour h4 hpos hint]
      exact ⟨fun h => .inr ⟨hfour, h⟩, fun h => (h.resolve_left hzero).2⟩

theorem countES_right_pair : CountRight (twoSamples 4) (fun _ => 0) 0 256 :=
  (countES_right_iff (.inr rfl) (by decide) (by decide) (by decide)).mpr
    (.inr ⟨rfl, staysInside_of_le (by decide) 256⟩)

/-- One sample with words of two bytes. -/
theorem two_bytes_not_right : ¬CountRight (twoSamples 2) (fun _ => 0) 0 64 :=
  not_countRight_two (n := 1) rfl (by decide) (by decide) (by decide)

end Acq400.StreamHeadLivePP
