/-
How far `getSegmentsLinear` winds the event back when the data is in two rows.

With `bd_scale` 2 half of every sample is in an even buffer and half in the odd one after
it, so that the pre data begins `pre` half samples before the event in the even buffers.
As long as that is in the event's own buffer the code goes back by half the bytes.  Past
the beginning of the buffer it counts full buffers in whole bytes from an offset it has
halved instead of doubled, and never arrives.
-/
import Acq400.Lib.PairRows
import Acq400.Proofs.BufferSort

namespace Acq400

open MapBuffer

/-! ### Even buffers -/

/-- Byte `i` of the even buffers, taken one after the other. -/
def evenAddr (g : G) (i : Nat) : Nat := ba0 + PairRows.even g.bufferlen i

/-- A mapped address in an even buffer. -/
structure InEven (g : G) (a : Nat) : Prop where
  lo : ba0 ≤ a
  hi : a < ba1 g
  even : getBuffer g a % 2 = 0

/-- `a` is the place in the even buffers that is `pre` samples before `esp`. -/
def PreBefore (g : PrePost) (esp a : Nat) : Prop :=
  InEven g.toG a ∧
    ∃ i, a = evenAddr g.toG i ∧ esp = evenAddr g.toG (i + g.pre * (g.sampleSize / 2))

variable {g : G} {a e : Nat}

theorem bufferlen_pos_of_mapped (hlo : ba0 ≤ a) (hhi : a < ba1 g) : 0 < g.bufferlen := by
  apply Nat.pos_of_ne_zero
  intro hzero
  rw [ba1, hzero] at hhi
  omega

theorem getBuffer_mapped (hlo : ba0 ≤ a) (hhi : a < ba1 g) :
    getBuffer g a = (a - ba0) / g.bufferlen := by
  unfold getBuffer
  rw [if_neg (by omega), if_neg (by omega)]

theorem ba0_le_evenAddr (g : G) (i : Nat) : ba0 ≤ evenAddr g i := Nat.le_add_right _ _

theorem evenAddr_injective (hpos : 0 < g.bufferlen) : Function.Injective (evenAddr g) := by
  intro i j h
  exact PairRows.even_injective hpos (Nat.add_left_cancel h)

/-- The buffer of a byte of the even buffers, and how far in it is. -/
theorem getBuffer_evenAddr (h : evenAddr g e < ba1 g) :
    getBuffer g (evenAddr g e) = 2 * (e / g.bufferlen) ∧
      evenAddr g e - getBase g (getBuffer g (evenAddr g e)) = e % g.bufferlen := by
  have hpos := bufferlen_pos_of_mapped (ba0_le_evenAddr g e) h
  have hbuf : getBuffer g (evenAddr g e) = 2 * (e / g.bufferlen) := by
    rw [getBuffer_mapped (ba0_le_evenAddr g e) h, evenAddr, Nat.add_sub_cancel_left,
      PairRows.even_div hpos]
  refine ⟨hbuf, ?_⟩
  rw [hbuf, evenAddr, PairRows.even_eq_row, getBase]
  omega

theorem inEven_evenAddr (h : evenAddr g e < ba1 g) : InEven g (evenAddr g e) := by
  refine ⟨ba0_le_evenAddr g e, h, ?_⟩
  rw [(getBuffer_evenAddr h).1]
  exact Nat.mul_mod_right 2 _

theorem InEven.exists_evenAddr (h : InEven g a) : ∃ e, a = evenAddr g e := by
  have hrow := h.even
  have hlo := h.lo
  rw [getBuffer_mapped h.lo h.hi] at hrow
  refine ⟨(a - ba0) / g.bufferlen / 2 * g.bufferlen + (a - ba0) % g.bufferlen, ?_⟩
  rw [evenAddr, PairRows.even_of_row hrow]
  omega

/-! ### The first segment -/

theorem getSegmentsLinear_first (g : PrePost) (ibuf esp : Nat) :
    ∃ rest,
      (BufferDistribution.getSegmentsLinear g (BufferDistribution.new g ibuf esp 2)).segments =
        { base := esp - BufferDistribution.espDecrDouble g
            (BufferDistribution.new g ibuf esp 2) (g.s2b g.pre)
          len := g.s2b g.pre } :: rest :=
  ⟨_, rfl⟩

theorem espDecrDouble_same {g : PrePost} {ibuf pre : Nat} (h : evenAddr g.toG e < ba1 g.toG)
    (hle : pre ≤ e % g.bufferlen) :
    BufferDistribution.espDecrDouble g (BufferDistribution.new g ibuf (evenAddr g.toG e) 2)
      (2 * pre) = pre := by
  unfold BufferDistribution.espDecrDouble
  simp only [BufferDistribution.new, (getBuffer_evenAddr h).2]
  rw [if_neg (by omega)]
  omega

/-- It is not: from the event the code goes back past the buffer it should stop in. -/
theorem espDecrDouble_multi {g : PrePost} (ibuf : Nat) {pre i : Nat}
    (h : evenAddr g.toG e < ba1 g.toG) (hlt : e % g.bufferlen < pre) (hi : i + pre = e) :
    evenAddr g.toG i + BufferDistribution.espDecrDouble g
      (BufferDistribution.new g ibuf (evenAddr g.toG e) 2) (2 * pre) ≠ evenAddr g.toG e := by
  have hpos := bufferlen_pos_of_mapped (ba0_le_evenAddr g.toG e) h
  unfold BufferDistribution.espDecrDouble
  simp only [BufferDistribution.new, (getBuffer_evenAddr h).2]
  rw [if_pos (by omega)]
  generalize hbbbs : 2 * pre - e % g.bufferlen / 2 = bbbs
  have hnb := Nat.div_add_mod' bbbs g.bufferlen
  have hresidue := Nat.mod_lt bbbs hpos
  have hisum := Nat.div_add_mod' i g.bufferlen
  have hesum := Nat.div_add_mod' e g.bufferlen
  have hilt := Nat.mod_lt i hpos
  have helt := Nat.mod_lt e hpos
  have hsub : bbbs - bbbs / g.bufferlen * g.bufferlen = bbbs % g.bufferlen := by omega
  have hieven : evenAddr g.toG i = ba0 + 2 * (i / g.bufferlen * g.bufferlen) + i % g.bufferlen := by
    rw [evenAddr, PairRows.even_eq_row, Nat.mul_assoc]
    omega
  have heeven : evenAddr g.toG e = ba0 + 2 * (e / g.bufferlen * g.bufferlen) + e % g.bufferlen := by
    rw [evenAddr, PairRows.even_eq_row, Nat.mul_assoc]
    omega
  rw [hsub, hieven, heeven, Nat.add_mul]
  omega

/--
**The wind-back.**  The first segment begins `pre` samples before the event, in an even
buffer, if and only if the pre data is in the event's own buffer.
-/
theorem first_segment_iff (g : PrePost) (ibuf esp : Nat) (hesp : InEven g.toG esp)
    (hhalf : 2 ∣ g.sampleSize) :
    (∃ seg rest, (BufferDistribution.getSegmentsLinear g
        (BufferDistribution.new g ibuf esp 2)).segments = seg :: rest ∧
        PreBefore g esp seg.base) ↔
      g.pre * (g.sampleSize / 2) ≤ esp - getBase g.toG (getBuffer g.toG esp) := by
  obtain ⟨e, rfl⟩ := hesp.exists_evenAddr
  have hpos := bufferlen_pos_of_mapped hesp.lo hesp.hi
  obtain ⟨rest, hsegs⟩ := getSegmentsLinear_first g ibuf (evenAddr g.toG e)
  have hbytes : g.s2b g.pre = 2 * (g.pre * (g.sampleSize / 2)) := by
    rw [G.s2b, Nat.mul_left_comm, Nat.mul_div_cancel' hhalf]
  obtain ⟨pre, hpre⟩ : ∃ pre, g.pre * (g.sampleSize / 2) = pre := ⟨_, rfl⟩
  rw [hpre] at hbytes
  rw [hbytes] at hsegs
  rw [(getBuffer_evenAddr hesp.hi).2, hpre]
  constructor
  · rintro ⟨seg, rest', hseg, heven, i, hbase, hi⟩
    rw [hpre] at hi
    have hie : i + pre = e := evenAddr_injective hpos hi.symm
    obtain ⟨rfl, -⟩ := List.cons.inj (hsegs.symm.trans hseg)
    by_contra hlt
    refine espDecrDouble_multi ibuf hesp.hi (Nat.lt_of_not_le hlt) hie ?_
    rw [← hbase]
    refine Nat.sub_add_cancel (Nat.le_of_lt (Nat.lt_of_sub_pos ?_))
    exact Nat.lt_of_lt_of_le (by decide) heven.lo
  · intro hle
    have hback : e - pre + pre = e := Nat.sub_add_cancel (Nat.le_trans hle (Nat.mod_le _ _))
    have hplace : evenAddr g.toG e - pre = evenAddr g.toG (e - pre) := by
      have hin : e % g.bufferlen ≤ PairRows.even g.bufferlen e := Nat.le_add_left _ _
      rw [evenAddr, evenAddr, PairRows.even_sub hle]
      omega
    have hlt : evenAddr g.toG (e - pre) < ba1 g.toG := by
      rw [← hplace]
      exact Nat.lt_of_le_of_lt (Nat.sub_le _ _) hesp.hi
    refine ⟨_, rest, hsegs, ?_⟩
    rw [espDecrDouble_same hesp.hi hle, hplace]
    exact ⟨inEven_evenAddr hlt, e - pre, rfl, by rw [hpre, hback]⟩

/-- Sixteen channels in sixteen buffers of a page, with `pre` samples before the event. -/
private def sixteenPages (pre : Nat) : PrePost :=
  { nchan := 16, wordsize := 2, doubleUp := false, bufferlen := 4096, nbuffers := 16
    isAcq480 := false, site := none, pre := pre, post := 1, showEs := false }

theorem first_segment_own_buffer :
    ∃ seg rest, (BufferDistribution.getSegmentsLinear (sixteenPages 3) (BufferDistribution.new
        (sixteenPages 3) 8 (ba0 + 8 * 4096 + 48) 2)).segments = seg :: rest ∧
      PreBefore (sixteenPages 3) (ba0 + 8 * 4096 + 48) seg.base :=
  (first_segment_iff (sixteenPages 3) 8 (ba0 + 8 * 4096 + 48)
    ⟨by decide, by decide, by decide⟩ (by decide)).mpr (by decide)

/-- One sample before an event at the beginning of buffer 8: it is at the end of buffer 6, and
the first segment begins in buffer 5. -/
theorem first_segment_odd_buffer :
    (BufferDistribution.new (sixteenPages 1) 8 (ba0 + 8 * 4096) 2).preFits = true ∧
      InEven (sixteenPages 1).toG (ba0 + 8 * 4096) ∧
      PreBefore (sixteenPages 1) (ba0 + 8 * 4096) (ba0 + 6 * 4096 + 4080) ∧
      ∃ rest, (BufferDistribution.getSegmentsLinear (sixteenPages 1) (BufferDistribution.new
          (sixteenPages 1) 8 (ba0 + 8 * 4096) 2)).segments =
            { base := ba0 + 5 * 4096 + 16, len := 32 } :: rest ∧
        ¬ PreBefore (sixteenPages 1) (ba0 + 8 * 4096) (ba0 + 5 * 4096 + 16) := by
  refine ⟨by decide, ⟨by decide, by decide, by decide⟩,
    ⟨⟨by decide, by decide, by decide⟩, 4 * 4096 - 16, by decide, by decide⟩, _, rfl, ?_⟩
  rintro ⟨⟨-, -, hodd⟩, -⟩
  exact absurd hodd (by decide)

end Acq400
