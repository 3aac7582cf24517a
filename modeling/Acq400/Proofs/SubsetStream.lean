/-
A range of channels, in a stream with event signatures.

Behind a signature the output cursor is put back to the beginning of `buf`, and the head of the
loop then moves it on by a sample that has not been copied.  So every signature is followed by the
words of one sample too many, whatever `buf` holds there.  The stores stay inside `buf` all the
same: the cursor is never further on than it would be without signatures.
-/
import Acq400.Stream.StreamHeadClient

namespace Acq400

open Reads

theorem cells_memcpy (mem src : Nat → UInt8) (p n : Nat) :
    cells (memcpy mem p src n) 0 (p + n) = cells mem 0 p ++ cells src 0 n := by
  have hfirst : cells (memcpy mem p src n) 0 p = cells mem 0 p := by
    refine cells_congr fun a _ ha => ?_
    unfold memcpy
    rw [if_neg (by omega)]
  have hlast : cells (memcpy mem p src n) p n = cells src 0 n := by
    refine cells_eq_cells fun a ha => ?_
    unfold memcpy
    rw [if_pos (by omega), Nat.zero_add, Nat.add_sub_cancel_left]
  have hsplit := cells_append (memcpy mem p src n) 0 p n
  rw [Nat.zero_add] at hsplit
  rw [← hsplit, hfirst, hlast]

theorem cells_from (m : Mem) (src n : Nat) : cells (fun k => m (src + k)) 0 n = cells m src n :=
  cells_eq_cells fun i _ => by rw [Nat.zero_add]

theorem G.sizeofT_pos (g : G) : 0 < g.sizeofT := by
  unfold G.sizeofT
  by_cases h : g.wordsize = 4
  · rw [if_pos h]
    exact Nat.zero_lt_succ _
  · rw [if_neg h]
    exact Nat.zero_lt_succ _

/-- `wordsize` is the size of a `short` or of an `int`. -/
def G.WordsizeOk (g : G) : Prop := g.wordsize = 2 ∨ g.wordsize = 4

theorem G.WordsizeOk.sizeofT {g : G} (h : g.WordsizeOk) : g.sizeofT = g.wordsize := by
  unfold G.sizeofT
  rcases h with h | h
  · rw [h, if_neg (by omega)]
  · rw [if_pos h, h]

namespace SubsetStreamHeadClientImpl

variable {g : G} {c : SubsetStreamHeadClientImpl} {m : Mem}

/-- The bytes of a sample. -/
def stride (g : G) (c : SubsetStreamHeadClientImpl) : Nat := c.totchan * g.sizeofT

/-- Sample `isam` is an event signature. -/
def signature (g : G) (c : SubsetStreamHeadClientImpl) (m : Mem) (base isam : Nat) : Bool :=
  c.evX.isES m (base + isam * stride g c)

/-- What the output is to have of sample `isam`. -/
def wantedSample (g : G) (c : SubsetStreamHeadClientImpl) (m : Mem) (base isam : Nat) :
    List UInt8 :=
  let data := base + isam * stride g c
  if signature g c m base isam then cells m data (stride g c)
  else cells m (data + c.start * g.sizeofT) (c.len * g.sizeofT)

/-- What the output is to have of the first `n` samples. -/
def wanted (g : G) (c : SubsetStreamHeadClientImpl) (m : Mem) (base n : Nat) : List UInt8 :=
  (List.range n).flatMap (wantedSample g c m base)

/-- The signatures among the first `n` samples. -/
def signatures (g : G) (c : SubsetStreamHeadClientImpl) (m : Mem) (base n : Nat) : Nat :=
  (List.range n).countP (signature g c m base)

variable {base : Nat}

theorem wanted_succ (n : Nat) :
    wanted g c m base (n + 1) = wanted g c m base n ++ wantedSample g c m base n := by
  unfold wanted
  rw [List.range_succ, List.flatMap_append, List.flatMap_singleton]

theorem signatures_succ (n : Nat) :
    signatures g c m base (n + 1) =
      signatures g c m base n + if signature g c m base n = true then 1 else 0 := by
  unfold signatures
  rw [List.range_succ, List.countP_append, List.countP_singleton]

theorem signatures_eq_zero {n : Nat} :
    signatures g c m base n = 0 ↔ ∀ isam, isam < n → signature g c m base isam = false := by
  unfold signatures
  rw [List.countP_eq_zero]
  simp only [List.mem_range, Bool.not_eq_true]

/-! ### A turn -/

/-- After a signature, the output has it, and the cursor is behind a sample of `buf`. -/
theorem turn_signature {s : Streamed} {isam : Nat} (h : signature g c m base isam = true) :
    c.turn g m base s (isam * stride g c) =
      { buf := { s.buf with pb := 0 + c.len }
        out := flushed g s ++ cells m (base + isam * stride g c) (stride g c) } := by
  have hes : c.evX.isES m (base + isam * stride g c) = true := h
  unfold turn sample
  rw [if_pos hes]
  rfl

theorem turn_data {s : Streamed} {isam : Nat} (h : signature g c m base isam = false) :
    c.turn g m base s (isam * stride g c) =
      { s with
        buf :=
          { mem := memcpy s.buf.mem (s.buf.pb * g.sizeofT)
              (fun k => m (base + isam * stride g c + c.start * g.sizeofT + k))
              (c.len * g.sizeofT)
            pb := s.buf.pb + c.len
            stored := s.buf.stored ++ List.range' s.buf.pb c.len } } := by
  have hes : ¬c.evX.isES m (base + isam * stride g c) = true := Bool.eq_false_iff.mp h
  unfold turn sample
  rw [if_neg hes]

theorem length_flushed (s : Streamed) :
    (flushed g s).length = s.out.length + s.buf.pb * g.sizeofT := by
  unfold flushed
  rw [List.length_append, length_cells]

/-- After `k` samples: nothing is stored behind them, and every signature has brought the words of
a sample with it. -/
structure After (g : G) (c : SubsetStreamHeadClientImpl) (m : Mem) (base k : Nat) (s : Streamed) :
    Prop where
  pb_le : s.buf.pb ≤ k * c.len
  stored : ∀ e ∈ s.buf.stored, e < k * c.len
  length : (flushed g s).length =
    (wanted g c m base k).length + signatures g c m base k * (c.len * g.sizeofT)
  /-- Where there is nothing of a sample, or no signature, the output is right. -/
  right : c.len = 0 ∨ signatures g c m base k = 0 → flushed g s = wanted g c m base k

theorem After.start (buf : Nat → UInt8) :
    After g c m base 0 { buf := { mem := buf, pb := 0, stored := [] }, out := [] } := by
  refine ⟨Nat.zero_le _, ?_, ?_, fun _ => ?_⟩
  · intro e he
    cases he
  · have hnone : signatures g c m base 0 = 0 := rfl
    rw [length_flushed, hnone, Nat.zero_mul, Nat.zero_mul]
    rfl
  · unfold flushed
    rw [Nat.zero_mul]
    rfl

theorem After.turn_signature {k : Nat} {s : Streamed} (hs : After g c m base k s)
    (h : signature g c m base k = true) :
    After g c m base (k + 1) (c.turn g m base s (k * stride g c)) := by
  have hwanted : wantedSample g c m base k = cells m (base + k * stride g c) (stride g c) :=
    if_pos h
  have hone : signatures g c m base (k + 1) = signatures g c m base k + 1 := by
    rw [signatures_succ, if_pos h]
  have hpb := hs.pb_le
  rw [SubsetStreamHeadClientImpl.turn_signature h]
  refine ⟨?_, ?_, ?_, ?_⟩
  · rw [Nat.succ_mul]
    exact Nat.add_le_add_right (Nat.zero_le _) _
  · intro e he
    rw [Nat.succ_mul]
    exact Nat.lt_add_right _ (hs.stored e he)
  · rw [length_flushed, List.length_append, hs.length, length_cells, wanted_succ,
      List.length_append, hwanted, length_cells, hone, Nat.succ_mul]
    dsimp only
    rw [Nat.zero_add]
    omega
  · intro hright
    have hlen : c.len = 0 := by
      rcases hright with hlen | hnone
      · exact hlen
      · omega
    rw [wanted_succ, hwanted, ← hs.right (Or.inl hlen)]
    unfold flushed
    rw [hlen, Nat.zero_mul, cells_zero, List.append_nil]

theorem After.turn_data {k : Nat} {s : Streamed} (hs : After g c m base k s)
    (h : signature g c m base k = false) :
    After g c m base (k + 1) (c.turn g m base s (k * stride g c)) := by
  have hwanted : wantedSample g c m base k =
      cells m (base + k * stride g c + c.start * g.sizeofT) (c.len * g.sizeofT) := by
    unfold wantedSample
    rw [h]
    rfl
  have hnone : signatures g c m base (k + 1) = signatures g c m base k := by
    rw [signatures_succ, h]
    rfl
  have hpb := hs.pb_le
  have hlength := hs.length
  rw [length_flushed] at hlength
  rw [SubsetStreamHeadClientImpl.turn_data h]
  refine ⟨?_, ?_, ?_, ?_⟩
  · rw [Nat.succ_mul]
    exact Nat.add_le_add_right hpb _
  · intro e he
    rw [Nat.succ_mul]
    rcases List.mem_append.mp he with he | he
    · exact Nat.lt_add_right _ (hs.stored e he)
    · have := (List.mem_range'_1.mp he).2
      omega
  · rw [length_flushed, wanted_succ, List.length_append, hwanted, length_cells, hnone]
    dsimp only
    rw [Nat.add_mul]
    omega
  · intro hright
    rw [hnone] at hright
    rw [wanted_succ, hwanted, ← hs.right hright]
    unfold flushed
    dsimp only
    rw [Nat.add_mul, cells_memcpy, cells_from, List.append_assoc]

/-! ### A buffer -/

theorem create_eq {isAcq480 : Bool} {def_ : List Char} (h : create g isAcq480 def_ = some c) :
    0 < g.sampleSize ∧ ∃ step len, 0 < step ∧ c.totchan = step * g.nchan ∧ c.len = step * len ∧
      c.nbuf = g.bufferlen / g.sampleSize * len := by
  unfold create at h
  generalize getStartLen g.nchan def_ = startLen at h
  dsimp only at h
  by_cases hfail : startLen.2 < 0 ∨ g.sampleSize = 0
  · rw [if_pos hfail] at h
    cases h
  · rw [if_neg hfail] at h
    obtain rfl := Option.some.inj h
    refine ⟨Nat.pos_of_ne_zero fun h0 => hfail (Or.inr h0), if g.doubleUp then 2 else 1,
      startLen.2.toNat, ?_, rfl, rfl, rfl⟩
    by_cases hd : g.doubleUp = true
    · rw [if_pos hd]
      exact Nat.zero_lt_succ _
    · rw [if_neg hd]
      exact Nat.zero_lt_succ _

theorem nbuf_eq {isAcq480 : Bool} {def_ : List Char} (h : create g isAcq480 def_ = some c)
    (hword : g.WordsizeOk) (hwhole : stride g c ∣ g.bufferlen) :
    0 < stride g c ∧ c.nbuf = g.bufferlen / stride g c * c.len := by
  obtain ⟨hpos, step, len, hstep, htot, hlen, hnbuf⟩ := create_eq h
  have hstride : stride g c = g.sampleSize * step := by
    unfold stride G.sampleSize
    rw [htot, hword.sizeofT, Nat.mul_comm step, Nat.mul_right_comm]
  rw [hstride] at hwhole ⊢
  refine ⟨Nat.mul_pos hpos hstep, ?_⟩
  obtain ⟨n, hn⟩ := hwhole
  rw [hnbuf, hlen, hn, Nat.mul_div_cancel_left n (Nat.mul_pos hpos hstep), Nat.mul_assoc,
    Nat.mul_div_cancel_left _ hpos, ← Nat.mul_assoc, Nat.mul_comm step n]

/-- What the output and the stores of a buffer are to be. -/
structure Right (g : G) (c : SubsetStreamHeadClientImpl) (m : Mem) (ib : Nat) (buf : Nat → UInt8) :
    Prop where
  returns : ∃ s, c.onStreamBufferStart g m ib buf = some s ∧
    s.out = wanted g c m (MapBuffer.getBase g ib) (g.bufferlen / stride g c) ∧
    ∀ e ∈ s.buf.stored, e < c.nbuf

/--
**The output of a buffer is right if and only if there is nothing to be taken of a sample, or no
sample is a signature.**
-/
theorem onStreamBufferStart_right_iff {isAcq480 : Bool} {def_ : List Char}
    (h : create g isAcq480 def_ = some c) (hword : g.WordsizeOk)
    (hwhole : stride g c ∣ g.bufferlen) (ib : Nat) (buf : Nat → UInt8) :
    Right g c m ib buf ↔ c.len = 0 ∨ ∀ isam, isam < g.bufferlen / stride g c →
      signature g c m (MapBuffer.getBase g ib) isam = false := by
  obtain ⟨hstride, hnbuf⟩ := nbuf_eq h hword hwhole
  obtain ⟨s, hs, hafter⟩ := Strides.loop_invariant (c.turn g m (MapBuffer.getBase g ib))
    (After g c m (MapBuffer.getBase g ib)) hstride (Nat.lt_succ_self g.bufferlen) (After.start buf)
    (by
      intro k s _ hk
      cases hsig : signature g c m (MapBuffer.getBase g ib) k with
      | true => exact hk.turn_signature hsig
      | false => exact hk.turn_data hsig)
  rw [Strides.turns_of_dvd hstride hwhole] at hafter
  have hreturn : c.onStreamBufferStart g m ib buf = some { s with out := flushed g s } := by
    unfold onStreamBufferStart
    rw [show c.totchan * g.sizeofT = stride g c from rfl, hs, Option.map_some]
  rw [← signatures_eq_zero]
  constructor
  · intro hright
    obtain ⟨t, ht, hout, -⟩ := hright.returns
    obtain rfl := Option.some.inj (hreturn.symm.trans ht)
    have hlength := hafter.length
    rw [show flushed g s = _ from hout, Nat.left_eq_add] at hlength
    rcases Nat.mul_eq_zero.mp hlength with hnone | hlen
    · exact Or.inr hnone
    · exact Or.inl ((Nat.mul_eq_zero.mp hlen).resolve_right (Nat.ne_of_gt g.sizeofT_pos))
  · intro hcond
    refine ⟨_, hreturn, hafter.right hcond, ?_⟩
    rw [hnbuf]
    exact hafter.stored

/-- Eight channels of 16 bits, and `n` samples a buffer. -/
def eightChannels (n : Nat) : G :=
  { nchan := 8, wordsize := 2, doubleUp := false, bufferlen := 16 * n, nbuffers := 1 }

/-- The first two channels of them. -/
def firstTwo (n : Nat) : SubsetStreamHeadClientImpl :=
  { start := 0, len := 2, nbuf := 2 * n, totchan := 8, evX := ES.evX false }

/-- Bytes of data, each its address. -/
def ramp : Mem := UInt8.ofNat

theorem onStreamBufferStart_right_three :
    Right (eightChannels 3) (firstTwo 3) ramp 0 (fun _ => 0) :=
  (onStreamBufferStart_right_iff (show create (eightChannels 3) false ['2'] = _ from rfl)
    (Or.inl rfl) (by decide) 0 _).mpr (Or.inr (by decide))

/-- `EVX_MAGIC`, again and again. -/
def magic : Mem := fun a => [0x50, 0xf1, 0x55, 0xaa].getD (a % 4) 0

/-- The one sample is a signature, and four bytes of `buf` are behind it. -/
theorem signature_not_right :
    ¬∀ (g : G) (isAcq480 : Bool) (def_ : List Char) (c : SubsetStreamHeadClientImpl) (m : Mem)
      (ib : Nat) (buf : Nat → UInt8), create g isAcq480 def_ = some c → g.WordsizeOk →
        c.start + c.len ≤ c.totchan → stride g c ∣ g.bufferlen → Right g c m ib buf := by
  intro h
  have hright := h (eightChannels 1) false ['2'] (firstTwo 1) magic 0 (fun _ => 0) rfl (Or.inl rfl)
    (by decide) (by decide)
  obtain ⟨s, hs, hout, -⟩ := hright.returns
  have hlength : ((firstTwo 1).onStreamBufferStart (eightChannels 1) magic 0 fun _ => 0).map
      (·.out.length) = some 20 := by
    decide
  rw [hs] at hlength
  have htwenty : s.out.length = 20 := Option.some.inj hlength
  rw [hout] at htwenty
  exact absurd htwenty (by decide)

end SubsetStreamHeadClientImpl

end Acq400
