/-
The FIFO gets the playloop, over and over.

The cursor goes on by the samples of a transfer, rounded down, so it is right as long as
no transfer ends inside a sample.  Where a transfer ends is up to the driver: at the end
of what was asked for, of a fill block, of the host buffer or of the last whole DMA
block.  `CutsWhole` says that the cut that a turn makes is between two samples.

`Filling` is what a turn keeps then: the FIFO has had `done` playloops and the samples
up to the cursor.
-/
import Acq400.Awg.FillFifo
import Mathlib.Tactic.Ring

namespace Acq400

open Reads

namespace FillDev

variable (dev : FillDev)

/-- Byte `j` of the playloop memory. -/
def mem (j : Nat) : UInt8 := dev.ram (dev.pa (j / dev.len) + j % dev.len)

/-- The transfer does not fit in its buffer, and is not to go on in the next. -/
def CutAtEnd (frombyte bytes : Nat) : Prop :=
  dev.room frombyte < bytes ∧ dev.contiguous (frombyte / dev.len) = false

instance (frombyte bytes : Nat) : Decidable (dev.CutAtEnd frombyte bytes) :=
  inferInstanceAs (Decidable (_ ∧ _))

/-- Where a turn cuts the transfer it makes, it is between two samples. -/
structure CutsWhole (cursor remaining headroom : Nat) : Prop where
  fillBlock : ∀ bytes, dev.ask remaining headroom = some bytes →
    ¬ dev.CutAtEnd (cursor * dev.aoss) bytes → bytes < dev.minDmaBytes →
    dev.ao420MaxFillBlock < min remaining headroom * dev.aoss → dev.aoss ∣ dev.ao420MaxFillBlock
  bufferEnd : ∀ bytes, dev.ask remaining headroom = some bytes →
    dev.CutAtEnd (cursor * dev.aoss) bytes → dev.room (cursor * dev.aoss) < dev.minDmaBytes →
    dev.aoss ∣ (cursor * dev.aoss / dev.len + 1) * dev.len
  dmaBlocks : ∀ bytes, dev.ask remaining headroom = some bytes →
    dev.minDmaBytes ≤ dev.cutToBuffer (cursor * dev.aoss) bytes →
    dev.aoss ∣ dev.cutToBuffer (cursor * dev.aoss) bytes / dev.minDmaBytes * dev.minDmaBytes
  /-- A transfer that goes on in the next buffer ends there, or where memory goes on too. -/
  onward : ∀ bytes, dev.ask remaining headroom = some bytes →
    ¬ dev.CutAtEnd (cursor * dev.aoss) bytes → ∀ ib, cursor * dev.aoss / dev.len < ib →
    (ib + 1) * dev.len < cursor * dev.aoss + dev.cutToBlocks bytes →
    dev.pa ib + dev.len = dev.pa (ib + 1)

/-! ### One transfer -/

section transfer

variable {dev} {frombyte bytes : Nat}

theorem offset_eq : frombyte - frombyte / dev.len * dev.len = frombyte % dev.len := by
  have := Nat.div_add_mod' frombyte dev.len
  omega

theorem cutToBuffer_eq : dev.cutToBuffer frombyte bytes =
    if dev.CutAtEnd frombyte bytes then dev.room frombyte else bytes := by
  have hlt := Nat.mod_lt frombyte dev.len_pos
  have hroom : dev.room frombyte = dev.len - frombyte % dev.len := rfl
  by_cases hcut : dev.CutAtEnd frombyte bytes
  · have hover := hcut.1
    rw [if_pos hcut, cutToBuffer, offset_eq, if_pos (by omega), if_neg (by simp [hcut.2])]
    rfl
  · rw [if_neg hcut, cutToBuffer, offset_eq]
    split
    · rename_i hover
      split
      · rfl
      · rename_i hcont
        exact absurd ⟨by omega, by simpa using hcont⟩ hcut
    · rfl

theorem cutToBuffer_le : dev.cutToBuffer frombyte bytes ≤ bytes := by
  rw [cutToBuffer_eq]
  split
  · rename_i h
    exact Nat.le_of_lt h.1
  · exact Nat.le_refl _

theorem cutToBlocks_le (bytes : Nat) : dev.cutToBlocks bytes ≤ bytes := by
  unfold cutToBlocks
  split
  · exact Nat.div_mul_le_self _ _
  · exact Nat.le_refl _

theorem length_writeFifoDma : (dev.writeFifoDma frombyte bytes).length =
    dev.cutToBlocks (dev.cutToBuffer frombyte bytes) := length_cells _ _ _

theorem pa_add {ib n : Nat} (hnext : ∀ j, ib ≤ j → (j + 1) * dev.len < n →
    dev.pa j + dev.len = dev.pa (j + 1)) (k : Nat) (hk : (ib + k) * dev.len < n) :
    dev.pa ib + k * dev.len = dev.pa (ib + k) := by
  induction k with
  | zero => rw [Nat.zero_mul, Nat.add_zero, Nat.add_zero]
  | succ k ih =>
      have hlt : (ib + k) * dev.len < n := by
        refine Nat.lt_of_le_of_lt (Nat.mul_le_mul_right _ ?_) hk
        omega
      have hstep := hnext (ib + k) (Nat.le_add_right _ _) hk
      rw [← Nat.add_assoc, ← hstep, ← ih hlt, Nat.succ_mul, Nat.add_assoc]

/-- What a transfer moves is playloop memory, where the buffers it goes through follow one
another. -/
theorem writeFifoDma_eq (honward : ¬ dev.CutAtEnd frombyte bytes →
    ∀ ib, frombyte / dev.len < ib → (ib + 1) * dev.len < frombyte + dev.cutToBlocks bytes →
      dev.pa ib + dev.len = dev.pa (ib + 1)) :
    dev.writeFifoDma frombyte bytes =
      cells dev.mem frombyte (dev.cutToBlocks (dev.cutToBuffer frombyte bytes)) := by
  have hlt := Nat.mod_lt frombyte dev.len_pos
  have hsplit := Nat.div_add_mod' frombyte dev.len
  rw [writeFifoDma]
  refine cells_eq_cells fun i hi => ?_
  rw [Nat.zero_add, offset_eq, mem]
  congr 1
  generalize hq : (frombyte + i) / dev.len = q
  have hqsplit := Nat.div_add_mod' (frombyte + i) dev.len
  rw [hq] at hqsplit
  have hle : frombyte / dev.len ≤ q := hq ▸ Nat.div_le_div_right (Nat.le_add_right _ _)
  obtain ⟨k, rfl⟩ := Nat.exists_eq_add_of_le hle
  have hk : dev.pa (frombyte / dev.len) + k * dev.len = dev.pa (frombyte / dev.len + k) := by
    rcases Nat.eq_zero_or_pos k with rfl | hpos
    · rw [Nat.zero_mul, Nat.add_zero, Nat.add_zero]
    · -- it leaves its buffer, so it is not cut there
      have hmul : (frombyte / dev.len + 1) * dev.len ≤ (frombyte / dev.len + k) * dev.len :=
        Nat.mul_le_mul_right _ (by omega)
      rw [Nat.succ_mul] at hmul
      have hover : dev.room frombyte ≤ i := by
        unfold room
        omega
      have hcut : ¬ dev.CutAtEnd frombyte bytes := by
        intro h
        rw [cutToBuffer_eq, if_pos h] at hi
        have := @cutToBlocks_le dev (dev.room frombyte)
        omega
      rw [cutToBuffer_eq, if_neg hcut] at hi
      have hcont : dev.contiguous (frombyte / dev.len) = true := by
        by_contra hne
        refine hcut ⟨?_, by simpa using hne⟩
        have := @cutToBlocks_le dev bytes
        omega
      refine pa_add (n := frombyte + dev.cutToBlocks bytes) ?_ k (by omega)
      intro j hj hjn
      rcases Nat.eq_or_lt_of_le hj with rfl | hj
      · unfold contiguous at hcont
        simp only [Bool.and_eq_true, decide_eq_true_eq] at hcont
        exact hcont.2
      · exact honward hcut j hj hjn
  rw [← hk]
  have hadd : (frombyte / dev.len + k) * dev.len = frombyte / dev.len * dev.len + k * dev.len :=
    Nat.add_mul _ _ _
  omega

end transfer

/-! ### One turn -/

section turn

variable {dev} {cursor remaining headroom bytes : Nat}

theorem ask_le (h : dev.ask remaining headroom = some bytes) :
    bytes ≤ min remaining headroom * dev.aoss := by
  simp only [ask] at h
  have hmin : min (dev.aosamples2bytes (min remaining headroom)) dev.ao420MaxFillBlock ≤
      min remaining headroom * dev.aoss := Nat.min_le_left _ _
  split at h
  · obtain rfl := Option.some.inj h
    exact Nat.le_trans (Nat.div_mul_le_self _ _) hmin
  · split at h
    · cases h
    · obtain rfl := Option.some.inj h
      exact hmin

theorem ask_of_lt (h : dev.ask remaining headroom = some bytes) (hlt : bytes < dev.minDmaBytes) :
    bytes = min (min remaining headroom * dev.aoss) dev.ao420MaxFillBlock := by
  simp only [ask] at h
  split at h
  · rename_i hdma
    obtain rfl := Option.some.inj h
    have hle : dev.minDmaBytes ≤
        min (dev.aosamples2bytes (min remaining headroom)) dev.ao420MaxFillBlock := by
      have := hdma.2
      omega
    have hpos := Nat.div_pos hle dev.minDmaBytes_pos
    have := Nat.le_mul_of_pos_left dev.minDmaBytes hpos
    omega
  · split at h
    · cases h
    · exact (Option.some.inj h).symm

theorem CutsWhole.dvd (h : dev.CutsWhole cursor remaining headroom)
    (hask : dev.ask remaining headroom = some bytes) :
    dev.aoss ∣ dev.cutToBlocks (dev.cutToBuffer (cursor * dev.aoss) bytes) := by
  unfold cutToBlocks
  split
  · rename_i hge
    exact h.dmaBlocks bytes hask hge
  · rename_i hlt
    rw [cutToBuffer_eq] at hlt ⊢
    split at hlt
    · rename_i hcut
      rw [if_pos hcut]
      have hend := h.bufferEnd bytes hask hcut (by omega)
      have hroom : dev.room (cursor * dev.aoss) =
          (cursor * dev.aoss / dev.len + 1) * dev.len - cursor * dev.aoss := by
        have := Nat.div_add_mod' (cursor * dev.aoss) dev.len
        have := Nat.mod_lt (cursor * dev.aoss) dev.len_pos
        rw [room, Nat.succ_mul]
        omega
      rw [hroom]
      exact Nat.dvd_sub hend (Nat.dvd_mul_left _ _)
    · rename_i hcut
      rw [if_neg hcut]
      have hbytes := ask_of_lt hask (by omega)
      have hblock := h.fillBlock bytes hask hcut (by omega)
      rcases Nat.lt_or_ge dev.ao420MaxFillBlock (min remaining headroom * dev.aoss) with hm | hm
      · rw [hbytes, Nat.min_eq_right (Nat.le_of_lt hm)]
        exact hblock hm
      · rw [hbytes, Nat.min_eq_left hm]
        exact Nat.dvd_mul_left _ _

end turn

/-! ### All turns -/

/-- The bytes of the playloop. -/
def loopBytes (playloop : AoPlayloop) : Nat := playloop.length * dev.aoss

/-- The playloop over and over, byte by byte. -/
def stream (playloop : AoPlayloop) (k : Nat) : UInt8 := dev.mem (k % dev.loopBytes playloop)

/-- The mode and the length are those of `playloop`, and the FIFO has had `done` of them and
the samples up to the cursor. -/
structure Filling (playloop : AoPlayloop) (done : Nat) (s : FillState) : Prop where
  length : s.playloop.length = playloop.length
  oneshot : s.playloop.oneshot = playloop.oneshot
  cursor : s.playloop.cursor ≤ playloop.length
  count : s.fifo.length = done * dev.loopBytes playloop + s.playloop.cursor * dev.aoss
  order : s.fifo = cells (dev.stream playloop) 0 s.fifo.length
  shots : playloop.oneshot ≠ .continuous →
    done + max 1 s.playloop.repeats.toNat ≤ max 1 playloop.repeats.toNat
  whole : ∀ t ∈ s.transfers, dev.aoss ∣ t.data.length
  headroom : ∀ t ∈ s.transfers, t.data.length ≤ t.headroom * dev.aoss

/-- The cut of the turn that comes next, if it makes a transfer. -/
def TurnCuts (samples : Nat) (s : FillState) : Prop :=
  s.playloop.cursor < s.playloop.length →
    dev.CutsWhole s.playloop.cursor (s.playloop.length - s.playloop.cursor)
      (dev.getFifoHeadroom samples)

/-- And of all those that a call makes. -/
def LoopCuts : Nat → (Nat → Nat) → FillState → Prop
  | 0, _, _ => True
  | maxiter + 1, samples, s =>
    dev.TurnCuts (samples 0) s ∧
      ∀ s', dev.turn (samples 0) s = .next s' → LoopCuts maxiter (later samples) s'

section filling

variable {dev} {playloop : AoPlayloop} {done : Nat} {s : FillState}

theorem stream_add {j : Nat} (hj : j < dev.loopBytes playloop) :
    dev.stream playloop (done * dev.loopBytes playloop + j) = dev.mem j := by
  rw [stream, Nat.add_comm, Nat.add_mul_mod_self_right, Nat.mod_eq_of_lt hj]

theorem turn_next {samples : Nat} {s' : FillState} (h : dev.turn samples s = .next s') :
    ∃ bytes, s.playloop.cursor < s.playloop.length ∧
      dev.ask (s.playloop.length - s.playloop.cursor) (dev.getFifoHeadroom samples) =
        some bytes ∧
      s' = FillState.mk
        { s.playloop with
          cursor := s.playloop.cursor +
            dev.aobytes2samples (dev.writeFifoDma (s.playloop.cursor * dev.aoss) bytes).length }
        (s.transfers ++
          [⟨dev.getFifoHeadroom samples,
            dev.writeFifoDma (s.playloop.cursor * dev.aoss) bytes⟩]) := by
  simp only [turn] at h
  split at h
  · rename_i hcond
    split at h
    · cases h
    · rename_i bytes hask
      injection h with h
      exact ⟨bytes, hcond.2.2, hask, h.symm⟩
  · cases h

/-- A turn whose cut is between two samples goes on with the playloop where it was. -/
theorem Filling.turn (h : dev.Filling playloop done s) {samples : Nat} {s' : FillState}
    (hcuts : dev.TurnCuts samples s) (hturn : dev.turn samples s = .next s') :
    dev.Filling playloop done s' := by
  obtain ⟨bytes, hlt, hask, rfl⟩ := turn_next hturn
  have hwhole := hcuts hlt
  generalize hrem : s.playloop.length - s.playloop.cursor = remaining at hask hwhole
  generalize dev.getFifoHeadroom samples = headroom at hask hwhole ⊢
  have hmoved := writeFifoDma_eq (hwhole.onward bytes hask)
  obtain ⟨n, hn⟩ := hwhole.dvd hask
  have hlen := h.length
  have hle : dev.aoss * n ≤ min remaining headroom * dev.aoss := by
    rw [← hn]
    exact Nat.le_trans (cutToBlocks_le _) (Nat.le_trans cutToBuffer_le (ask_le hask))
  rw [Nat.mul_comm] at hle
  have hnle := Nat.le_of_mul_le_mul_right hle dev.aoss_pos
  rw [hn, Nat.mul_comm dev.aoss n] at hmoved
  have hdata : (dev.writeFifoDma (s.playloop.cursor * dev.aoss) bytes).length = n * dev.aoss := by
    rw [hmoved, length_cells]
  have hcursor : dev.aobytes2samples
      (dev.writeFifoDma (s.playloop.cursor * dev.aoss) bytes).length = n := by
    rw [hdata, aobytes2samples, Nat.mul_div_cancel _ dev.aoss_pos]
  have hfifo : ∀ t : Transfer, FillState.fifo ⟨s.playloop, s.transfers ++ [t]⟩ =
      s.fifo ++ t.data := by
    intro t
    simp [FillState.fifo]
  have hin : (s.playloop.cursor + n) * dev.aoss ≤ dev.loopBytes playloop :=
    Nat.mul_le_mul_right _ (by omega)
  have hbytes : (s.playloop.cursor + n) * dev.aoss =
      s.playloop.cursor * dev.aoss + n * dev.aoss := Nat.add_mul _ _ _
  rw [hcursor]
  refine
    { length := hlen
      oneshot := h.oneshot
      cursor := by
        show s.playloop.cursor + n ≤ playloop.length
        omega
      count := ?_
      order := ?_
      shots := h.shots
      whole := ?_
      headroom := ?_ }
  · have hcount := h.count
    show (FillState.fifo ⟨s.playloop, _⟩).length = _
    rw [hfifo, List.length_append, hdata, hcount]
    show _ = done * dev.loopBytes playloop + (s.playloop.cursor + n) * dev.aoss
    omega
  · have hcount := h.count
    show FillState.fifo ⟨s.playloop, _⟩ = cells _ 0 (FillState.fifo ⟨s.playloop, _⟩).length
    rw [hfifo, List.length_append, hdata]
    have happ := cells_append (dev.stream playloop) 0 s.fifo.length (n * dev.aoss)
    rw [← happ, ← h.order, Nat.zero_add, hmoved]
    congr 1
    refine cells_eq_cells fun i hi => ?_
    rw [hcount, Nat.add_assoc, stream_add (by omega)]
  · intro t ht
    rcases List.mem_append.mp ht with ht | ht
    · exact h.whole t ht
    · rw [List.mem_singleton.mp ht]
      show dev.aoss ∣ (dev.writeFifoDma _ _).length
      rw [hdata]
      exact Nat.dvd_mul_left _ _
  · intro t ht
    rcases List.mem_append.mp ht with ht | ht
    · exact h.headroom t ht
    · rw [List.mem_singleton.mp ht]
      show (dev.writeFifoDma _ _).length ≤ headroom * dev.aoss
      rw [hdata]
      exact Nat.mul_le_mul_right _ (by omega)

theorem Filling.loop : ∀ (maxiter : Nat) (samples : Nat → Nat) {s : FillState},
    dev.Filling playloop done s → dev.LoopCuts maxiter samples s →
      dev.Filling playloop done (dev.fillLoop maxiter samples s).2 := by
  intro maxiter
  induction maxiter with
  | zero => exact fun _ _ h _ => h
  | succ maxiter ih =>
      intro samples s h hcuts
      rw [fillLoop]
      cases hturn : dev.turn (samples 0) s with
      | ended => exact h
      | leave => exact h
      | next s' => exact ih _ (h.turn hcuts.1 hturn) (hcuts.2 s' hturn)

/-- What follows the loop starts the playloop again, or leaves the cursor at its end for good. -/
theorem Filling.wrapUp (h : dev.Filling playloop done s) :
    ∃ done', dev.Filling playloop done'
      { s with playloop := (FillDev.wrapUp s.playloop).2 } := by
  have hcursor := h.cursor
  have hlen := h.length
  have hcount := h.count
  -- the playloop begun anew, one more of them done
  have hagain : ∀ repeats : UInt32, s.playloop.length ≤ s.playloop.cursor →
      (playloop.oneshot ≠ .continuous →
        done + 1 + max 1 repeats.toNat ≤ max 1 playloop.repeats.toNat) →
      dev.Filling playloop (done + 1)
        { s with playloop := { s.playloop with cursor := 0, repeats := repeats } } := by
    intro repeats hend hshots
    have heq : s.playloop.cursor = playloop.length := by omega
    refine
      { length := hlen
        oneshot := h.oneshot
        cursor := Nat.zero_le _
        count := ?_
        order := h.order
        shots := hshots
        whole := h.whole
        headroom := h.headroom }
    show s.fifo.length = (done + 1) * dev.loopBytes playloop + 0 * dev.aoss
    rw [hcount, heq, Nat.succ_mul, Nat.zero_mul, Nat.add_zero]
    rfl
  unfold FillDev.wrapUp
  by_cases hend : s.playloop.length > 0 ∧ s.playloop.cursor ≥ s.playloop.length
  · rw [if_pos hend]
    by_cases honeshot : s.playloop.oneshot ≠ .continuous
    · rw [if_pos honeshot]
      have hshots := h.shots (h.oneshot ▸ honeshot)
      by_cases hzero : s.playloop.repeats = 0
      · rw [if_pos hzero]
        exact ⟨done, h⟩
      · rw [if_neg hzero]
        have hpos : 0 < s.playloop.repeats.toNat := by
          rw [Nat.pos_iff_ne_zero]
          exact fun h0 => hzero (UInt32.toNat_inj.mp h0)
        have hdec : (s.playloop.repeats - 1).toNat = s.playloop.repeats.toNat - 1 :=
          UInt32.toNat_sub_of_le _ _ (UInt32.le_iff_toNat_le.mpr hpos)
        by_cases hlast : s.playloop.repeats - 1 = 0
        · simp only [hlast, if_true]
          refine ⟨done, { h with shots := fun _ => ?_ }⟩
          show done + max 1 (0 : UInt32).toNat ≤ _
          rw [UInt32.toNat_zero]
          omega
        · simp only [hlast, if_false]
          refine ⟨done + 1, hagain _ hend.2 fun _ => ?_⟩
          have hne : (s.playloop.repeats - 1).toNat ≠ 0 :=
            fun h0 => hlast (UInt32.toNat_inj.mp h0)
          omega
    · rw [if_neg honeshot]
      refine ⟨done + 1, hagain _ hend.2 fun hne => ?_⟩
      exact absurd (h.oneshot ▸ hne) honeshot
  · rw [if_neg hend]
    exact ⟨done, h⟩

end filling

/-! ### All calls -/

/-- `xo400_fill_fifo` as a step: the fill levels that it finds take the state to the next. -/
def fillStep (s : FillState) (samples : Nat → Nat) : Option FillState :=
  some (dev.fillFifo samples s).2

/-- Every cut that the call makes is between two samples. -/
def CallCuts (s : FillState) (samples : Nat → Nat) : Prop := dev.LoopCuts 1000 samples s

/-- What is asked of the bytes that the FIFO has been given. -/
structure Plays (playloop : AoPlayloop) (s : FillState) : Prop where
  /-- They are the samples of the playloop in order, over and over. -/
  order : s.fifo = cells (dev.stream playloop) 0 s.fifo.length
  /-- One-shot, they end with the last of so many playloops. -/
  shots : playloop.oneshot ≠ .continuous →
    s.fifo.length ≤ max 1 playloop.repeats.toNat * dev.loopBytes playloop
  whole : ∀ t ∈ s.transfers, dev.aoss ∣ t.data.length
  headroom : ∀ t ∈ s.transfers, t.data.length ≤ t.headroom * dev.aoss

variable {dev}

theorem Filling.plays {playloop : AoPlayloop} {done : Nat} {s : FillState}
    (h : dev.Filling playloop done s) : dev.Plays playloop s := by
  refine ⟨h.order, fun honeshot => ?_, h.whole, h.headroom⟩
  have hcursor : s.playloop.cursor * dev.aoss ≤ dev.loopBytes playloop :=
    Nat.mul_le_mul_right _ h.cursor
  have hdone : done + 1 ≤ max 1 playloop.repeats.toNat := by
    have := h.shots honeshot
    omega
  calc s.fifo.length
      = done * dev.loopBytes playloop + s.playloop.cursor * dev.aoss := h.count
    _ ≤ done * dev.loopBytes playloop + dev.loopBytes playloop := Nat.add_le_add_left hcursor _
    _ = (done + 1) * dev.loopBytes playloop := (Nat.succ_mul _ _).symm
    _ ≤ max 1 playloop.repeats.toNat * dev.loopBytes playloop := Nat.mul_le_mul_right _ hdone

theorem filling_start {playloop : AoPlayloop} (hcursor : playloop.cursor = 0) :
    dev.Filling playloop 0 ⟨playloop, []⟩ where
  length := rfl
  oneshot := rfl
  cursor := by
    show playloop.cursor ≤ _
    omega
  count := by
    show 0 = 0 * dev.loopBytes playloop + playloop.cursor * dev.aoss
    rw [hcursor, Nat.zero_mul, Nat.zero_mul]
  order := rfl
  shots := fun _ => Nat.le_of_eq (Nat.zero_add _)
  whole := fun t ht => by cases ht
  headroom := fun t ht => by cases ht

theorem Filling.call {playloop : AoPlayloop} {s : FillState}
    (h : ∃ done, dev.Filling playloop done s) (samples : Nat → Nat)
    (hcuts : dev.CallCuts s samples) :
    ∃ s', dev.fillStep s samples = some s' ∧ ∃ done, dev.Filling playloop done s' := by
  obtain ⟨done, h⟩ := h
  exact ⟨_, rfl, (h.loop 1000 samples hcuts).wrapUp⟩

/-- **Whatever is in the FIFO at the interrupts, it gets the playloop in order and as often as
it is to, if every cut that the driver makes is between two samples.** -/
theorem fillFifo_plays (dev : FillDev) (playloop : AoPlayloop) (hcursor : playloop.cursor = 0)
    (calls : List (Nat → Nat))
    (hcalls : Lts.Meets dev.fillStep dev.CallCuts ⟨playloop, []⟩ calls) :
    ∃ s, Lts.run dev.fillStep ⟨playloop, []⟩ calls = some s ∧ dev.Plays playloop s := by
  obtain ⟨s, hrun, done, h⟩ := Lts.run_total_of
    (fun s => ∃ done, dev.Filling playloop done s)
    (fun s samples h hcuts => Filling.call h samples hcuts) calls _
    ⟨0, filling_start hcursor⟩ hcalls
  exact ⟨s, hrun, h.plays⟩

/-! ### Parameters that are multiples of a sample -/

theorem ask_le_block {remaining headroom bytes : Nat}
    (h : dev.ask remaining headroom = some bytes) : bytes ≤ dev.ao420MaxFillBlock := by
  simp only [ask] at h
  have hmin := Nat.min_le_right (dev.aosamples2bytes (min remaining headroom))
    dev.ao420MaxFillBlock
  split at h
  · obtain rfl := Option.some.inj h
    exact Nat.le_trans (Nat.div_mul_le_self _ _) hmin
  · split at h
    · cases h
    · obtain rfl := Option.some.inj h
      exact hmin

/-- The driver cuts between samples if all that it cuts to is whole samples. -/
theorem cutsWhole_of_dvd (hblock : dev.aoss ∣ dev.ao420MaxFillBlock)
    (hdma : dev.aoss ∣ dev.minDmaBytes) (hlen : dev.aoss ∣ dev.len)
    (hnext : dev.xoUseContiguousPaIfPossible = false ∨ dev.ao420MaxFillBlock ≤ dev.len)
    (cursor remaining headroom : Nat) : dev.CutsWhole cursor remaining headroom where
  fillBlock _ _ _ _ _ := hblock
  bufferEnd _ _ _ _ := Dvd.dvd.mul_left hlen _
  dmaBlocks _ _ _ := Dvd.dvd.mul_left hdma _
  onward bytes hask hcut ib hib hlt := by
    exfalso
    have hbytes := ask_le_block hask
    have hblocks := @cutToBlocks_le dev bytes
    have hsplit := Nat.div_add_mod' (cursor * dev.aoss) dev.len
    have hmod := Nat.mod_lt (cursor * dev.aoss) dev.len_pos
    -- two buffers on, at least
    have hend : (cursor * dev.aoss / dev.len + 2) * dev.len ≤ (ib + 1) * dev.len :=
      Nat.mul_le_mul_right _ (by omega)
    rw [Nat.add_mul] at hend
    rcases hnext with hoff | hle
    · refine hcut ⟨?_, by simp [contiguous, hoff]⟩
      unfold room
      omega
    · omega

theorem loopCuts_of (h : ∀ cursor remaining headroom, dev.CutsWhole cursor remaining headroom) :
    ∀ (maxiter : Nat) (samples : Nat → Nat) (s : FillState), dev.LoopCuts maxiter samples s := by
  intro maxiter
  induction maxiter with
  | zero => exact fun _ _ => trivial
  | succ maxiter ih => exact fun samples s => ⟨fun _ => h _ _ _, fun s' _ => ih _ s'⟩

theorem meets_of (h : ∀ cursor remaining headroom, dev.CutsWhole cursor remaining headroom)
    (calls : List (Nat → Nat)) : ∀ s, Lts.Meets dev.fillStep dev.CallCuts s calls := by
  induction calls with
  | nil => exact fun _ => trivial
  | cons samples rest ih => exact fun s => ⟨loopCuts_of h _ _ _, fun s' _ => ih s'⟩

/-- 32 channels of 16 bits, in buffers of a megabyte. -/
def ao424 : FillDev where
  aoss := 64
  aoss_pos := by decide
  maxFifoSamples := 8000
  dmaChan := true
  minDmaBytes := 32000
  minDmaBytes_pos := by decide
  ao420DmaThreshold := 32000
  ao420MaxFillBlock := 16384
  xoUseContiguousPaIfPossible := false
  len := 1048576
  len_pos := by decide
  pa ib := ib * 2097152
  ram j := UInt8.ofNat j

/-- A thousand samples, twice. -/
def twice : AoPlayloop where
  length := 1000
  cursor := 0
  oneshot := .oneshot
  repeats := 2
  maxlen := 0
  pullBuf := 0
  cycles := 0

theorem fillFifo_plays_ao424 :
    ∃ s, Lts.run ao424.fillStep ⟨twice, []⟩
        [fun _ => 0, fun n => 1000 + n, fun _ => 8000] = some s ∧
      ao424.Plays twice s :=
  fillFifo_plays ao424 twice rfl _
    (meets_of (cutsWhole_of_dvd (by decide) (by decide) (by decide) (Or.inl rfl)) _ _)

theorem fillLoop_transfers : ∀ (maxiter : Nat) (samples : Nat → Nat) (s : FillState),
    s.transfers <+: (dev.fillLoop maxiter samples s).2.transfers := by
  intro maxiter
  induction maxiter with
  | zero => exact fun _ _ => List.prefix_rfl
  | succ maxiter ih =>
      intro samples s
      rw [fillLoop]
      cases hturn : dev.turn (samples 0) s with
      | ended => exact List.prefix_rfl
      | leave => exact List.prefix_rfl
      | next s' =>
          have hgrow : s.transfers <+: s'.transfers := by
            obtain ⟨bytes, -, -, rfl⟩ := turn_next hturn
            exact List.prefix_append _ _
          exact hgrow.trans (ih _ s')

theorem fillLoop_next {maxiter : Nat} {samples : Nat → Nat} {s s' : FillState}
    (h : dev.turn (samples 0) s = .next s') :
    s'.transfers <+: (dev.fillLoop (maxiter + 1) samples s).2.transfers := by
  rw [fillLoop, h]
  exact fillLoop_transfers maxiter _ s'

theorem fillFifo_transfers (samples : Nat → Nat) (s : FillState) :
    (dev.fillFifo samples s).2.transfers = (dev.fillLoop 1000 samples s).2.transfers := rfl

/-- 24 channels. -/
def ao424By24 : FillDev := { ao424 with aoss := 48, aoss_pos := by decide }

/-- With 24 channels a fill block is 341 samples and a third, and the third is sent twice. -/
theorem fillFifo_splits :
    ¬ ∃ s, Lts.run ao424By24.fillStep ⟨twice, []⟩ [fun _ => 0] = some s ∧
      ao424By24.Plays twice s := by
  rintro ⟨s, hrun, hplays⟩
  rw [Lts.run_cons, fillStep, Option.bind_some, Lts.run_nil] at hrun
  obtain rfl := Option.some.inj hrun
  have hturn : ∃ s', ao424By24.turn 0 ⟨twice, []⟩ = .next s' ∧
      s'.transfers = [⟨7992, ao424By24.writeFifoDma 0 16384⟩] := by
    have hask : ao424By24.ask (twice.length - twice.cursor) (ao424By24.getFifoHeadroom 0) =
        some 16384 := by decide
    have hstart : ao424By24.aosamples2bytes twice.cursor = 0 := by decide
    have hheadroom : ao424By24.getFifoHeadroom 0 = 7992 := by decide
    unfold turn
    dsimp only
    rw [if_pos (by decide), hask, hstart, hheadroom]
    exact ⟨_, rfl, List.nil_append _⟩
  obtain ⟨s', hs', htransfers⟩ := hturn
  have hgrow : s'.transfers <+: (ao424By24.fillLoop 1000 (fun _ => 0) ⟨twice, []⟩).2.transfers :=
    fillLoop_next hs'
  have hmem : ⟨7992, ao424By24.writeFifoDma 0 16384⟩ ∈
      (ao424By24.fillFifo (fun _ => 0) ⟨twice, []⟩).2.transfers := by
    rw [fillFifo_transfers]
    refine hgrow.subset ?_
    rw [htransfers]
    exact List.mem_singleton_self _
  have hwhole := hplays.whole _ hmem
  rw [length_writeFifoDma] at hwhole
  exact absurd hwhole (by decide)

end FillDev

end Acq400
