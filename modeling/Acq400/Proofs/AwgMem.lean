/-
Writing the memory of the AWG, and reading it back.

The bytes are in their places however they are cut into calls.  But each call counts the whole
samples of its own bytes, so what a call has of a sample besides is not counted again (`lost`).
The length is right exactly if every call takes whole samples, and with it everything is read back.
-/
import Acq400.Awg.AwgMem
import Acq400.Lib.Reads

namespace Acq400

open Reads Writes

namespace AwgDev

variable (dev : AwgDev)

/-- The byte at a position of a file. -/
def cell (f : AwgFile) (p : Nat) : UInt8 := f.hb (p / dev.len) (p % dev.len)

/-- How many bytes a call takes that gets `count`. -/
def room (f : AwgFile) (count : Nat) : Nat := min count (dev.len - f.fPos % dev.len)

/-- What is to come of writing `data`. -/
structure Right (data : List UInt8) (f : AwgFile) : Prop where
  length : f.length = data.length / dev.aoss
  reads : ∀ counts, (∀ k, 0 < counts k) →
    ReadsTo dev.xo400AwgRead (xo400AwgOpen f.hb f.length false) counts data

/-- The call takes whole samples. -/
def WholeCall (w : Client AwgFile UInt8) (count : Nat) : Prop :=
  dev.aoss ∣ dev.room w.file count

instance (w : Client AwgFile UInt8) (count : Nat) : Decidable (dev.WholeCall w count) :=
  inferInstanceAs (Decidable (_ ∣ _))

variable {dev}

theorem aoss_pos (dev : AwgDev) : 0 < dev.aoss :=
  Nat.mul_pos dev.nchanEnabled_pos dev.wordSize_pos

theorem place_eq {p : Nat} (hp : p < dev.nbuffers * dev.len) :
    p % 2 ^ 32 = p ∧ p - p / dev.len * dev.len = p % dev.len ∧ p / dev.len < dev.nbuffers := by
  have hlt := dev.hb_lt
  have hdiv := Nat.div_add_mod p dev.len
  rw [Nat.mul_comm] at hdiv
  refine ⟨Nat.mod_eq_of_lt (by omega), by omega, ?_⟩
  exact (Nat.div_lt_iff_lt_mul dev.len_pos).mpr hp

theorem place_iff {p q n : Nat} (hn : q % dev.len + n ≤ dev.len) :
    (q ≤ p ∧ p < q + n) ↔
      p / dev.len = q / dev.len ∧ q % dev.len ≤ p % dev.len ∧ p % dev.len < q % dev.len + n := by
  have hp := Nat.div_add_mod p dev.len
  have hq := Nat.div_add_mod q dev.len
  have hplt := Nat.mod_lt p dev.len_pos
  have hqlt := Nat.mod_lt q dev.len_pos
  constructor
  · rintro ⟨hle, hlt⟩
    have hsame : p / dev.len = q / dev.len := by
      refine Nat.div_eq_of_lt_le ?_ ?_
      · rw [Nat.mul_comm]
        omega
      · rw [Nat.succ_mul, Nat.mul_comm]
        omega
    rw [hsame] at hp
    exact ⟨hsame, by omega, by omega⟩
  · rintro ⟨hsame, hle, hlt⟩
    rw [hsame] at hp
    exact ⟨by omega, by omega⟩

/-! ### A call -/

/-- What a call of `xo400_awg_write` makes of the file. -/
structure Wrote (dev : AwgDev) (f : AwgFile) (buf : List UInt8) (t : AwgFile) : Prop where
  fPos : t.fPos = f.fPos + dev.room f buf.length
  length : t.length = (f.length + dev.room f buf.length / dev.aoss) % 2 ^ 32
  cell : ∀ p, dev.cell t p =
    if f.fPos ≤ p ∧ p < f.fPos + dev.room f buf.length then buf.getD (p - f.fPos) 0
    else dev.cell f p

theorem write_spec (hdev : dev.isAo424 = false) {f : AwgFile}
    (hpos : f.fPos < dev.nbuffers * dev.len) (buf : List UInt8) :
    ∃ t, dev.xo400AwgWrite f buf = some (dev.room f buf.length, t) ∧ Wrote dev f buf t := by
  obtain ⟨hcursor, hoffset, hib⟩ := place_eq hpos
  unfold xo400AwgWrite
  simp only [hcursor, hoffset, hdev, Bool.false_eq_true, false_and, if_false,
    Nat.not_le_of_lt hib]
  refine ⟨_, rfl, rfl, rfl, ?_⟩
  intro p
  have hroom : f.fPos % dev.len + dev.room f buf.length ≤ dev.len := by
    have := Nat.mod_lt f.fPos dev.len_pos
    unfold room
    omega
  have hplace := place_iff (p := p) hroom
  show (if p / dev.len = f.fPos / dev.len then
    memcpy (f.hb (f.fPos / dev.len)) (f.fPos % dev.len) (fun k => buf.getD k 0)
      (dev.room f buf.length) else f.hb (p / dev.len)) (p % dev.len) = _
  by_cases hin : f.fPos ≤ p ∧ p < f.fPos + dev.room f buf.length
  · obtain ⟨hsame, hle, hlt⟩ := hplace.mp hin
    have hp := Nat.div_add_mod p dev.len
    have hf := Nat.div_add_mod f.fPos dev.len
    rw [hsame] at hp
    rw [if_pos hin, if_pos hsame, memcpy, if_pos ⟨hle, hlt⟩]
    congr 1
    omega
  · rw [if_neg hin]
    by_cases hsame : p / dev.len = f.fPos / dev.len
    · rw [if_pos hsame, memcpy, if_neg (fun h => hin (hplace.mpr ⟨hsame, h⟩)), ← hsame]
      rfl
    · rw [if_neg hsame]
      rfl

theorem write_takes (dev : AwgDev) : Takes dev.xo400AwgWrite AwgFile.fPos := by
  intro f buf taken t hwrite
  unfold xo400AwgWrite at hwrite
  by_cases hib : dev.nbuffers ≤ f.fPos % 2 ^ 32 / dev.len
  · simp only [hib, if_true] at hwrite
    exact nomatch hwrite
  · simp only [hib, if_false] at hwrite
    obtain ⟨rfl, rfl⟩ := Prod.mk.inj (Option.some.inj hwrite)
    exact ⟨Nat.min_le_left _ _, rfl⟩

/-! ### All calls -/

/-- Bytes that have been taken and are not in the samples that have been counted. -/
def lost (dev : AwgDev) (f : AwgFile) : Nat := f.fPos - dev.aoss * f.length

/-- How far the writer has come. -/
structure Loaded (dev : AwgDev) (data : List UInt8) (w : Client AwgFile UInt8) : Prop where
  place : At AwgFile.fPos data w
  cells : ∀ p < w.file.fPos, data[p]? = some (dev.cell w.file p)
  counted : dev.aoss * w.file.length ≤ w.file.fPos

variable {data : List UInt8} {w t : Client AwgFile UInt8} {count : Nat}

theorem Loaded.step (h : Loaded dev data w) (hdev : dev.isAo424 = false)
    (hfits : data.length ≤ dev.nbuffers * dev.len)
    (hstep : Writes.step dev.xo400AwgWrite w count = some t) :
    Loaded dev data t ∧ dev.lost t.file = dev.lost w.file + dev.room w.file count % dev.aoss := by
  obtain ⟨hlt, hcount, taken, hcall, -⟩ := h.place.call hstep
  obtain ⟨u, hwrite, hspec⟩ := write_spec hdev (Nat.lt_of_lt_of_le hlt hfits)
    ((data.drop w.file.fPos).take count)
  obtain ⟨-, rfl⟩ := Prod.mk.inj (Option.some.inj (hcall.symm.trans hwrite))
  have hbuf := length_piece hcount
  obtain ⟨hfPos, hlength, hcell⟩ := hspec
  rw [hbuf] at hfPos hlength hcell
  have hroom : dev.room w.file count ≤ count := Nat.min_le_left _ _
  have hdiv := Nat.div_add_mod (dev.room w.file count) dev.aoss
  have hcounted := h.counted
  have hlt32 := dev.hb_lt
  have hsum : dev.aoss * (w.file.length + dev.room w.file count / dev.aoss) =
      dev.aoss * w.file.length + dev.aoss * (dev.room w.file count / dev.aoss) :=
    Nat.mul_add _ _ _
  have hnowrap : t.file.length = w.file.length + dev.room w.file count / dev.aoss := by
    rw [hlength]
    refine Nat.mod_eq_of_lt ?_
    have hle := Nat.le_mul_of_pos_left
      (w.file.length + dev.room w.file count / dev.aoss) dev.aoss_pos
    omega
  refine ⟨⟨h.place.step dev.write_takes hstep, ?_, ?_⟩, ?_⟩
  · intro p hp
    rw [hcell]
    by_cases hnew : w.file.fPos ≤ p
    · have hin : p < w.file.fPos + dev.room w.file count := by omega
      have hplace : w.file.fPos + (p - w.file.fPos) = p := by omega
      rw [if_pos ⟨hnew, hin⟩, List.getD_eq_getElem?_getD, List.getElem?_take_of_lt (by omega),
        List.getElem?_drop, hplace, List.getElem?_eq_getElem (by omega)]
      rfl
    · rw [if_neg (fun hin => hnew hin.1)]
      exact h.cells p (by omega)
  · rw [hnowrap, hfPos]
    omega
  · unfold lost
    rw [hnowrap, hfPos]
    omega

theorem lost_run (hdev : dev.isAo424 = false) (hfits : data.length ≤ dev.nbuffers * dev.len)
    (counts : List Nat) :
    ∀ w : Client AwgFile UInt8, Loaded dev data w →
      Lts.run (Writes.step dev.xo400AwgWrite) w counts = some t →
      Loaded dev data t ∧ dev.lost w.file ≤ dev.lost t.file ∧
        (dev.lost t.file = dev.lost w.file ↔
          Lts.Meets (Writes.step dev.xo400AwgWrite) dev.WholeCall w counts) := by
  induction counts with
  | nil =>
    intro w h hrun
    obtain rfl := Option.some.inj hrun
    exact ⟨h, Nat.le_refl _, fun _ => trivial, fun _ => rfl⟩
  | cons count counts ih =>
    intro w h hrun
    rw [Lts.run_cons, Option.bind_eq_some_iff] at hrun
    obtain ⟨u, hstep, hrun⟩ := hrun
    obtain ⟨hu, hlost⟩ := h.step hdev hfits hstep
    obtain ⟨ht, hle, hiff⟩ := ih u hu hrun
    refine ⟨ht, by omega, ?_⟩
    constructor
    · intro hsame
      refine ⟨Nat.dvd_of_mod_eq_zero (by omega), ?_⟩
      intro u' hu'
      obtain rfl := Option.some.inj (hstep.symm.trans hu')
      exact hiff.mp (by omega)
    · rintro ⟨hwhole, hrest⟩
      have hzero : dev.room w.file count % dev.aoss = 0 := Nat.mod_eq_zero_of_dvd hwhole
      have hsame := hiff.mpr (hrest u hstep)
      omega

/-! ### Reading back -/

theorem read_more (dev : AwgDev) {f : AwgFile} (hpos : f.fPos < dev.nbuffers * dev.len)
    (hend : f.fPos < f.length * dev.aoss % 2 ^ 32) {count : Nat} (hcount : 0 < count) :
    ∃ n, 0 < n ∧ f.fPos + n ≤ f.length * dev.aoss % 2 ^ 32 ∧
      dev.xo400AwgRead f count =
        some (cells (dev.cell f) f.fPos n, { f with fPos := f.fPos + n }) := by
  obtain ⟨hcursor, hoffset, hib⟩ := place_eq hpos
  have hoff := Nat.mod_lt f.fPos dev.len_pos
  refine ⟨min count (min (dev.len - f.fPos % dev.len) (f.length * dev.aoss % 2 ^ 32 - f.fPos)),
    by omega, by omega, ?_⟩
  unfold xo400AwgRead
  simp only [hcursor, hoffset, if_neg (Nat.not_le_of_lt hend), if_neg (Nat.not_le_of_lt hib)]
  refine congrArg some (congrArg (·, _) ?_)
  refine cells_eq_cells fun i hi => ?_
  have hroom : f.fPos % dev.len + (i + 1) ≤ dev.len := by omega
  have hin := (place_iff hroom).mp ⟨Nat.le_add_right f.fPos i, Nat.lt_succ_self _⟩
  have hp := Nat.div_add_mod (f.fPos + i) dev.len
  have hf := Nat.div_add_mod f.fPos dev.len
  show _ = f.hb ((f.fPos + i) / dev.len) ((f.fPos + i) % dev.len)
  rw [hin.1] at hp ⊢
  congr 1
  omega

theorem reads_of_length (hfits : data.length ≤ dev.nbuffers * dev.len)
    (hwhole : dev.aoss ∣ data.length) {f : AwgFile} (hlength : f.length = data.length / dev.aoss)
    (hcells : ∀ p < data.length, data[p]? = some (dev.cell f p)) (counts : Nat → Nat)
    (hcounts : ∀ k, 0 < counts k) :
    ReadsTo dev.xo400AwgRead (xo400AwgOpen f.hb f.length false) counts data := by
  have hlt := dev.hb_lt
  have hpll : f.length * dev.aoss % 2 ^ 32 = data.length := by
    rw [hlength, Nat.div_mul_cancel hwhole]
    exact Nat.mod_eq_of_lt (by omega)
  have hdata : data = cells (dev.cell f) 0 data.length := by
    refine List.ext_getElem? fun p => ?_
    rw [getElem?_cells, Nat.zero_add]
    by_cases hp : p < data.length
    · rw [if_pos hp]
      exact hcells p hp
    · rw [if_neg hp]
      exact List.getElem?_eq_none (Nat.le_of_not_lt hp)
  have hstart : (xo400AwgOpen f.hb f.length false).fPos = 0 := rfl
  have hall := @readsTo_cells _ _ dev.xo400AwgRead (dev.cell f) data.length AwgFile.fPos
    (fun s counts => s.hb = f.hb ∧ s.length = f.length ∧ ∀ k, 0 < counts k) ?_ ?_
    data.length (xo400AwgOpen f.hb f.length false) counts ⟨rfl, rfl, hcounts⟩ (Nat.zero_le _) rfl
  · rwa [hstart, ← hdata] at hall
  · rintro s counts ⟨hhb, hlen, hpos⟩ hmore
    have hpll' : s.length * dev.aoss % 2 ^ 32 = data.length := by
      rw [hlen]
      exact hpll
    obtain ⟨n, hn, hle, hread⟩ := read_more dev (Nat.lt_of_lt_of_le hmore hfits)
      (by rw [hpll']; exact hmore) (hpos 0)
    rw [hpll'] at hle
    have hcell : dev.cell s = dev.cell f := by
      unfold cell
      rw [hhb]
    rw [hcell] at hread
    exact ⟨n, _, hn, hle, hread, rfl, hhb, hlen, fun k => hpos (k + 1)⟩
  · rintro s counts ⟨-, hlen, -⟩ hend
    have hcursor : s.fPos % 2 ^ 32 = data.length := by
      rw [hend]
      exact Nat.mod_eq_of_lt (by omega)
    refine ⟨s, ?_⟩
    unfold xo400AwgRead
    simp only [hcursor, hlen, hpll, ge_iff_le, Nat.le_refl, if_true]

/--
**Writing the memory of the AWG.**  However a string of whole samples is cut into calls, the length
is right and the string is read back exactly if every call takes whole samples.
-/
theorem awg_right_iff (dev : AwgDev) (hdev : dev.isAo424 = false) (hb : Nat → Nat → UInt8)
    (length : Nat) (data : List UInt8) (hwhole : dev.aoss ∣ data.length)
    (hfits : data.length ≤ dev.nbuffers * dev.len) (counts : List Nat)
    (w : Client AwgFile UInt8)
    (hrun : Lts.run (Writes.step dev.xo400AwgWrite)
      { file := xo400AwgOpen hb length true, rest := data } counts = some w)
    (hend : w.rest = []) :
    dev.Right data w.file ↔
      Lts.Meets (Writes.step dev.xo400AwgWrite) dev.WholeCall
        { file := xo400AwgOpen hb length true, rest := data } counts := by
  have hstart : Loaded dev data { file := xo400AwgOpen hb length true, rest := data } :=
    ⟨At.start rfl, fun p hp => absurd hp (Nat.not_lt_zero p), Nat.le_refl 0⟩
  obtain ⟨hloaded, -, hiff⟩ := lost_run hdev hfits counts _ hstart hrun
  have hfPos : w.file.fPos = data.length := hloaded.place.pos_eq hend
  have hnone : dev.lost (xo400AwgOpen hb length true) = 0 := rfl
  rw [← hiff, hnone, lost, hfPos]
  have hcounted := hloaded.counted
  rw [hfPos] at hcounted
  have hsamples := Nat.mul_div_cancel' hwhole
  constructor
  · intro hright
    rw [hright.length, hsamples, Nat.sub_self]
  · intro hzero
    have hlength : w.file.length = data.length / dev.aoss :=
      (Nat.div_eq_of_eq_mul_right dev.aoss_pos (by omega)).symm
    refine ⟨hlength, reads_of_length hfits hwhole hlength ?_⟩
    rw [← hfPos]
    exact hloaded.cells

/-- Two channels of two bytes, and two buffers of sixteen bytes. -/
def twoBuffers : AwgDev where
  nchanEnabled := 2
  wordSize := 2
  nchanEnabled_pos := Nat.two_pos
  wordSize_pos := Nat.two_pos
  isAo424 := false
  spanIsBipolar := false
  len := 16
  len_pos := by decide
  len_lt := by decide
  nbuffers := 2
  hb_lt := by decide

/-- Twenty bytes: the second call ends with its buffer. -/
theorem awg_right_twenty :
    ∃ w : Client AwgFile UInt8, Lts.run (Writes.step twoBuffers.xo400AwgWrite)
      { file := xo400AwgOpen (fun _ _ => 0) 7 true, rest := List.replicate 20 1 } [8, 12, 4] =
        some w ∧ twoBuffers.Right (List.replicate 20 1) w.file := by
  obtain ⟨w, hrun, hend⟩ := Lts.exists_of_any (Writes.step twoBuffers.xo400AwgWrite)
    { file := xo400AwgOpen (fun _ _ => 0) 7 true, rest := List.replicate 20 1 } [8, 12, 4]
    (fun w => w.rest.isEmpty) (by decide)
  refine ⟨w, hrun, (awg_right_iff twoBuffers rfl (fun _ _ => 0) 7 (List.replicate 20 1) (by decide)
    (by decide) [8, 12, 4] w hrun (List.isEmpty_iff.mp hend)).mpr ?_⟩
  decide

/-- A sample in two calls of two bytes is no sample. -/
theorem awg_halves :
    ∃ w : Client AwgFile UInt8, Lts.run (Writes.step twoBuffers.xo400AwgWrite)
      { file := xo400AwgOpen (fun _ _ => 0) 0 true, rest := List.replicate 4 1 } [2, 2] =
        some w ∧ w.rest = [] ∧ w.file.length = 0 ∧
      ¬twoBuffers.Right (List.replicate 4 1) w.file := by
  refine ⟨_, rfl, rfl, rfl, ?_⟩
  intro hright
  exact absurd hright.length (by decide)

end AwgDev

end Acq400
