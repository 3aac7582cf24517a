/-
What is fed to the streaming DAC.

A turn fills two buffers and writes both back or neither.  So a stream is fed to its last
complete piece exactly if it has an even number of them: a last one that is first of its
pair is lost if the stream ends behind it, and goes out with a partly filled buffer if it
does not.  A looped file is refilled from its start, so every buffer is complete.
-/
import Acq400.Awg.BbStream
import Mathlib.Algebra.Group.Nat.Even

namespace Acq400

open Reads (cells)

/-- A turn in which the device hands out two buffers and takes them back. -/
structure DacTurn.Pair (t : DacTurn) : Prop where
  nr : t.nr = 2
  nw : t.nw = 2
  distinct : t.descriptor0 ≠ t.descriptor1

namespace BbStream

variable (g : BbStream)

/-- Piece `i` of what is to be played. -/
def piece (data : Nat → UInt8) (i : Nat) : List UInt8 :=
  cells data (i * g.playBufferlen) g.playBufferlen

/-- The buffers hold the pieces of the stream, and it is played to the end. -/
structure Streams (data : Nat → UInt8) (size : Nat) (r : StreamPlay × PlayStatus) : Prop where
  pieces : r.1.written.map Prod.snd = (List.range r.1.written.length).map (g.piece data)
  whole : r.1.written.length * g.playBufferlen ≤ size
  complete : r.2 ≠ .waiting → ∀ i, (i + 1) * g.playBufferlen ≤ size → i < r.1.written.length

/-- The buffers of all the turns hold the pieces of the file, repeated. -/
structure Loops (data : Nat → UInt8) (size : Nat) (turns : List DacTurn)
    (r : StreamPlay × PlayStatus) : Prop where
  pieces : r.1.written.map Prod.snd =
    (List.range (2 * turns.length)).map (g.piece fun i => data (i % size))
  goesOn : r.2 = .waiting

/-- A stream of so many pieces is played as it should be in so many turns: the pieces are pairs,
or the last one is not reached; and an `int` can count the bytes of a pair that is read. -/
def PlaysOut (count turns : Nat) : Prop :=
  (Even count ∨ turns ≤ count / 2) ∧ (2 * g.playBufferlen < 2 ^ 31 ∨ count = 0 ∨ turns = 0)

/-! ### One turn of a stream -/

theorem playsOut_zero (n : Nat) : g.PlaysOut 0 n := ⟨.inl ⟨0, rfl⟩, .inr (.inl rfl)⟩

theorem not_playsOut_one (n : Nat) : ¬g.PlaysOut 1 (n + 1) := by
  rintro ⟨heven | hfew, -⟩
  · exact absurd heven (by decide)
  · omega

theorem playsOut_add_two (hint : 2 * g.playBufferlen < 2 ^ 31) (c n : Nat) :
    g.PlaysOut (c + 2) (n + 1) ↔ g.PlaysOut c n := by
  have htwice : Even 2 := by decide
  simp only [PlaysOut, Nat.even_add, hint, htwice, true_or, and_true, iff_true]
  refine or_congr_right ?_
  omega

theorem not_playsOut_add_two (hint : ¬2 * g.playBufferlen < 2 ^ 31) (c n : Nat) :
    ¬g.PlaysOut (c + 2) (n + 1) := by
  rintro ⟨-, hbytes | hnone | hnone⟩
  · exact hint hbytes
  · omega
  · omega

theorem playBufferlen_lt : g.playBufferlen < 2 ^ 31 := Nat.lt_of_le_of_lt g.le g.int

theorem wrap_count (s : Feed) {n : Nat} (h : n ≤ g.playBufferlen) :
    CInt.wrap (s.count n) = s.count n := by
  have hlt := g.playBufferlen_lt
  refine CInt.wrap_natCast ?_
  unfold Feed.count
  omega

/-- Two buffers have no bytes in common. -/
theorem buffers_apart {id id' : Nat} (h : id ≠ id') :
    id * g.bufferlen + g.playBufferlen ≤ id' * g.bufferlen ∨
      id' * g.bufferlen + g.playBufferlen ≤ id * g.bufferlen := by
  have hle := g.le
  rcases Nat.lt_or_gt_of_ne h with hlt | hgt
  · have := Nat.mul_le_mul_right g.bufferlen (Nat.succ_le_of_lt hlt)
    rw [Nat.succ_mul] at this
    omega
  · have := Nat.mul_le_mul_right g.bufferlen (Nat.succ_le_of_lt hgt)
    rw [Nat.succ_mul] at this
    omega

theorem count_of_le {s : Feed} {n : Nat} (h : s.fp.pos + n ≤ s.fp.size) : s.count n = n := by
  unfold Feed.count
  omega

theorem count_fread (s : Feed) (bp n m : Nat) :
    (s.fread bp n).count m = min m (s.fp.size - (s.fp.pos + s.count n)) := rfl

theorem mem_fread (s : Feed) (bp n x : Nat) :
    (s.fread bp n).mem x =
      if bp ≤ x ∧ x < bp + s.count n then s.fp.data (s.fp.pos + (x - bp)) else s.mem x := rfl

theorem mem_fread_self (s : Feed) (bp : Nat) {n i : Nat} (hi : i < s.count n) :
    (s.fread bp n).mem (bp + i) = s.fp.data (s.fp.pos + i) := by
  rw [mem_fread, if_pos (by omega), Nat.add_sub_cancel_left]

theorem mem_fread_apart (s : Feed) {bp n x : Nat} (h : x < bp ∨ bp + n ≤ x) :
    (s.fread bp n).mem x = s.mem x := by
  have hle : s.count n ≤ n := Nat.min_le_left _ _
  rw [mem_fread, if_neg (by omega)]

theorem cells_fread_self (s : Feed) (bp n : Nat) :
    cells (s.fread bp n).mem bp (s.count n) = cells s.fp.data s.fp.pos (s.count n) :=
  Reads.cells_eq_cells fun _ hi => mem_fread_self s bp hi

theorem cells_fread_apart (s : Feed) {bp n p k : Nat} (h : p + k ≤ bp ∨ bp + n ≤ p) :
    cells (s.fread bp n).mem p k = cells s.mem p k :=
  Reads.cells_congr fun _ _ _ => mem_fread_apart s (by omega)

/-- The two reads of a turn. -/
def fed (s : Feed) (id id' : Nat) : Feed :=
  (s.fread (id * g.bufferlen) g.playBufferlen).fread (id' * g.bufferlen) g.playBufferlen

/-- A turn fills two buffers; it is 0 if there is nothing for one of them. -/
theorem readBuffers_pair (s : Feed) (id id' : Nat) :
    ∃ feed, g.readBuffers s [id, id'] =
        some (if s.fp.size ≤ s.fp.pos + g.playBufferlen then 0
          else CInt.wrap (min (2 * g.playBufferlen) (s.fp.size - s.fp.pos) : Nat), feed) ∧
      (s.fp.pos + g.playBufferlen < s.fp.size → feed = g.fed s id id') := by
  have hpos := g.pos
  have hw := g.wrap_count s (Nat.le_refl g.playBufferlen)
  have hw' := g.wrap_count (s.fread (id * g.bufferlen) g.playBufferlen)
    (Nat.le_refl g.playBufferlen)
  have hfirst : s.count g.playBufferlen = min g.playBufferlen (s.fp.size - s.fp.pos) := rfl
  have hsecond := count_fread s (id * g.bufferlen) g.playBufferlen g.playBufferlen
  simp only [readBuffers, readEach, hw, hw', Int.zero_add]
  by_cases hnone : s.fp.size ≤ s.fp.pos
  · rw [if_pos (by omega), if_pos (by omega)]
    exact ⟨_, rfl, fun h => by omega⟩
  · rw [if_neg (by omega)]
    by_cases hone : s.fp.size ≤ s.fp.pos + g.playBufferlen
    · rw [if_pos (by omega), if_pos hone]
      exact ⟨_, rfl, fun h => by omega⟩
    · rw [if_neg (by omega), if_neg hone]
      have hsum : (s.count g.playBufferlen : Int) +
          (s.fread (id * g.bufferlen) g.playBufferlen).count g.playBufferlen =
          (min (2 * g.playBufferlen) (s.fp.size - s.fp.pos) : Nat) := by
        omega
      rw [hsum]
      exact ⟨_, rfl, fun _ => rfl⟩

/-- Where two buffers can be filled, they are filled with what is next. -/
theorem buffer_fed (s : Feed) {id id' : Nat} (hne : id ≠ id')
    (havail : s.fp.pos + 2 * g.playBufferlen ≤ s.fp.size) :
    g.buffer (g.fed s id id').mem id = cells s.fp.data s.fp.pos g.playBufferlen ∧
      g.buffer (g.fed s id id').mem id' =
        cells s.fp.data (s.fp.pos + g.playBufferlen) g.playBufferlen := by
  have hcount : s.count g.playBufferlen = g.playBufferlen := count_of_le (by omega)
  have hcount' : (s.fread (id * g.bufferlen) g.playBufferlen).count g.playBufferlen =
      g.playBufferlen := by
    rw [count_fread, hcount]
    omega
  have hself := cells_fread_self s (id * g.bufferlen) g.playBufferlen
  have hself' := cells_fread_self (s.fread (id * g.bufferlen) g.playBufferlen)
    (id' * g.bufferlen) g.playBufferlen
  rw [hcount] at hself
  rw [hcount'] at hself'
  refine ⟨(cells_fread_apart _ (g.buffers_apart hne)).trans hself, hself'.trans ?_⟩
  show cells s.fp.data (s.fp.pos + s.count g.playBufferlen) _ = _
  rw [hcount]

theorem fed_fp (s : Feed) (id id' : Nat) (havail : s.fp.pos + 2 * g.playBufferlen ≤ s.fp.size) :
    (g.fed s id id').fp = { s.fp with pos := s.fp.pos + 2 * g.playBufferlen } := by
  have hcount : s.count g.playBufferlen = g.playBufferlen := count_of_le (by omega)
  have hcount' := count_fread s (id * g.bufferlen) g.playBufferlen g.playBufferlen
  have hpos : s.fp.pos + s.count g.playBufferlen +
      (s.fread (id * g.bufferlen) g.playBufferlen).count g.playBufferlen =
      s.fp.pos + 2 * g.playBufferlen := by
    omega
  exact congrArg (fun p => ({ s.fp with pos := p } : InFile)) hpos

/-! ### One turn of `playloop` -/

theorem length_writeBack_le (s : StreamPlay) (t : DacTurn) :
    s.written.length ≤ (g.writeBack s t).written.length := by
  show _ ≤ (s.written ++ _).length
  rw [List.length_append]
  exact Nat.le_add_right _ _

theorem trigger_written (s : StreamPlay) : (g.trigger s).written = s.written := by
  unfold trigger
  split
  · rfl
  · rfl

theorem trigger_feed (s : StreamPlay) : (g.trigger s).feed = s.feed := by
  unfold trigger
  split
  · rfl
  · rfl

/-- What has been written back stays so. -/
theorem length_playloop_le (reader : Feed → List Nat → Option (Int × Feed))
    (turns : List DacTurn) : ∀ s : StreamPlay,
      s.written.length ≤ (g.playloop reader s turns).1.written.length := by
  induction turns with
  | nil => intro s; exact Nat.le_refl _
  | cons t rest ih =>
      intro s
      rw [playloop]
      split
      · exact Nat.le_refl _
      · split
        · exact Nat.le_refl _
        · rename_i nbytes feed _
          split
          · exact Nat.le_refl _
          · have hone := g.length_writeBack_le (g.trigger { s with feed := feed }) t
            rw [trigger_written] at hone
            split
            · exact Nat.le_trans hone (ih _)
            · exact hone

/-- The two buffers of a turn, when they are written back. -/
theorem written_writeBack (hswap : g.abSwap = false) {t : DacTurn} (ht : t.Pair)
    (s : StreamPlay) :
    (g.writeBack s t).written.map Prod.snd =
      s.written.map Prod.snd ++
        [g.buffer s.feed.mem t.descriptor0, g.buffer s.feed.mem t.descriptor1] := by
  unfold writeBack swapped
  rw [ht.nw, hswap]
  show (s.written ++ [(t.descriptor0, _), (t.descriptor1, _)]).map Prod.snd = _
  rw [List.map_append]
  rfl

/-- One turn, by what the reader returns. -/
theorem playloop_cons {reader : Feed → List Nat → Option (Int × Feed)} {t : DacTurn}
    (ht : t.Pair) {s : StreamPlay} {nbytes : Int} {feed : Feed}
    (hread : reader s.feed [t.descriptor0, t.descriptor1] = some (nbytes, feed))
    (rest : List DacTurn) :
    g.playloop reader s (t :: rest) =
      if nbytes ≤ 0 then ({ s with feed := feed }, .returned nbytes)
      else g.playloop reader (g.writeBack (g.trigger { s with feed := feed }) t) rest := by
  rw [playloop, hread, if_neg (by simp [ht.nr])]
  simp only [ht.nw, if_true]

theorem pieces_add_two (data : Nat → UInt8) (j : Nat) :
    (List.range (j + 2)).map (g.piece data) =
      (List.range j).map (g.piece data) ++
        [cells data (j * g.playBufferlen) g.playBufferlen,
          cells data (j * g.playBufferlen + g.playBufferlen) g.playBufferlen] := by
  rw [List.range_succ, List.range_succ, List.map_append, List.map_append, List.append_assoc]
  have hnext : (j + 1) * g.playBufferlen = j * g.playBufferlen + g.playBufferlen :=
    Nat.succ_mul _ _
  rw [← hnext]
  rfl

/-- A turn that finds two pieces plays them. -/
theorem playloop_pair (hswap : g.abSwap = false) {t : DacTurn} (ht : t.Pair)
    (hint : 0 < CInt.wrap (2 * g.playBufferlen : Nat)) {s : StreamPlay}
    (havail : s.feed.fp.pos + 2 * g.playBufferlen ≤ s.feed.fp.size) (rest : List DacTurn) :
    ∃ s', g.playloop g.readBuffers s (t :: rest) = g.playloop g.readBuffers s' rest ∧
      s'.feed.fp = { s.feed.fp with pos := s.feed.fp.pos + 2 * g.playBufferlen } ∧
      s'.written.map Prod.snd = s.written.map Prod.snd ++
        [cells s.feed.fp.data s.feed.fp.pos g.playBufferlen,
          cells s.feed.fp.data (s.feed.fp.pos + g.playBufferlen) g.playBufferlen] := by
  have hpos := g.pos
  obtain ⟨feed, hread, hfeed⟩ := g.readBuffers_pair s.feed t.descriptor0 t.descriptor1
  obtain rfl := hfeed (by omega)
  rw [if_neg (by omega), Nat.min_eq_left (by omega)] at hread
  have hbuffer := g.buffer_fed s.feed ht.distinct havail
  refine ⟨_, by rw [g.playloop_cons ht hread, if_neg (by omega)], ?_, ?_⟩
  · show (g.trigger _).feed.fp = _
    rw [trigger_feed]
    exact g.fed_fp s.feed t.descriptor0 t.descriptor1 havail
  · rw [g.written_writeBack hswap ht, trigger_written, trigger_feed]
    show _ ++ [g.buffer (g.fed s.feed _ _).mem _, g.buffer (g.fed s.feed _ _).mem _] = _
    rw [hbuffer.1, hbuffer.2]

/-! ### A stream -/

section Stream

variable {data : Nat → UInt8} {size j c r : Nat}

/-- A run that has returned is right if there is no further piece. -/
theorem streams_returned_iff {s : StreamPlay} {rc : Int}
    (hwritten : s.written.map Prod.snd = (List.range j).map (g.piece data))
    (hsize : size = (j + c) * g.playBufferlen + r) (hr : r < g.playBufferlen) :
    g.Streams data size (s, .returned rc) ↔ c = 0 := by
  have hlen : s.written.length = j := by
    have := congrArg List.length hwritten
    simpa using this
  constructor
  · intro h
    by_contra hc
    have hlt := h.complete (by simp) j (by
      rw [hsize]
      exact Nat.le_add_right_of_le (Nat.mul_le_mul_right _ (by omega)))
    rw [show (s, PlayStatus.returned rc).1 = s from rfl, hlen] at hlt
    exact Nat.lt_irrefl _ hlt
  · intro hc
    refine ⟨by rw [hlen]; exact hwritten, ?_, ?_⟩
    · show s.written.length * _ ≤ size
      rw [hlen, hsize, hc]
      exact Nat.le_add_right _ _
    · intro _ i hi
      show i < s.written.length
      rw [hlen]
      have hlt : (i + 1) * g.playBufferlen < (j + 1) * g.playBufferlen := by
        rw [Nat.succ_mul j]
        rw [hsize, hc] at hi
        exact Nat.lt_of_le_of_lt hi (Nat.add_lt_add_left hr _)
      have := Nat.lt_of_mul_lt_mul_right hlt
      omega

theorem not_streams_of_length {p : StreamPlay × PlayStatus}
    (hsize : size < (j + 2) * g.playBufferlen) (hlen : j + 2 ≤ p.1.written.length) :
    ¬g.Streams data size p := by
  intro h
  have := Nat.mul_le_mul_right g.playBufferlen hlen
  have hwhole := h.whole
  omega

/-- The bytes of a pair, as an `int`. -/
theorem wrap_pair_pos_iff :
    0 < CInt.wrap (2 * g.playBufferlen : Nat) ↔ 2 * g.playBufferlen < 2 ^ 31 := by
  have hlt := g.playBufferlen_lt
  have hpos := g.pos
  constructor
  · intro h
    by_contra hge
    have hwrap : CInt.wrap (2 * g.playBufferlen : Nat) =
        (2 * g.playBufferlen : Nat) - 4294967296 := by
      unfold CInt.wrap
      rw [Int.bmod_def]
      split
      · omega
      · omega
    omega
  · intro h
    rw [CInt.wrap_natCast h]
    omega

/-- **What a run makes of a stream of which `j` pieces have been played and `c` are left.** -/
theorem playloop_streams_iff (hswap : g.abSwap = false) (hr : r < g.playBufferlen)
    (turns : List DacTurn) : ∀ (s : StreamPlay) (j c : Nat), (∀ t ∈ turns, t.Pair) →
      size = (j + c) * g.playBufferlen + r →
      s.feed.fp = { data := data, size := size, pos := j * g.playBufferlen } →
      s.written.map Prod.snd = (List.range j).map (g.piece data) →
      (g.Streams data size (g.playloop g.readBuffers s turns) ↔ g.PlaysOut c turns.length) := by
  induction turns with
  | nil =>
      intro s j c _ hsize _ hwritten
      have hlen : s.written.length = j := by
        have := congrArg List.length hwritten
        simpa using this
      refine iff_of_true ⟨?_, ?_, fun h => absurd rfl h⟩ ⟨.inr (Nat.zero_le _), .inr (.inr rfl)⟩
      · show s.written.map Prod.snd = (List.range s.written.length).map _
        rw [hlen]
        exact hwritten
      · show s.written.length * _ ≤ size
        rw [hlen, hsize, Nat.add_mul, Nat.add_assoc]
        exact Nat.le_add_right _ _
  | cons t rest ih =>
      intro s j c hturns hsize hfp hwritten
      have ht := hturns t List.mem_cons_self
      have hrest : ∀ u ∈ rest, u.Pair := fun u hu => hturns u (List.mem_cons_of_mem t hu)
      obtain ⟨feed, hread, -⟩ := g.readBuffers_pair s.feed t.descriptor0 t.descriptor1
      rw [hfp] at hread
      have hreturned (rc : Int) :
          g.Streams data size ({ s with feed := feed }, .returned rc) ↔ c = 0 :=
        g.streams_returned_iff (s := { s with feed := feed }) hwritten hsize hr
      have hbytes : (j + c) * g.playBufferlen = j * g.playBufferlen + c * g.playBufferlen :=
        Nat.add_mul _ _ _
      by_cases htwo : 2 ≤ c
      · obtain ⟨d, rfl⟩ := Nat.exists_eq_add_of_le' htwo
        have hmul : (d + 2) * g.playBufferlen = d * g.playBufferlen + 2 * g.playBufferlen :=
          Nat.add_mul _ _ _
        by_cases hint : 2 * g.playBufferlen < 2 ^ 31
        · -- a pair is left, and it is played
          obtain ⟨s', hplay, hfp', hwritten'⟩ := g.playloop_pair hswap ht
            (g.wrap_pair_pos_iff.mpr hint) (s := s) (by
              rw [hfp]
              show j * g.playBufferlen + 2 * g.playBufferlen ≤ size
              omega) rest
          rw [hfp] at hfp' hwritten'
          rw [hplay, ih s' (j + 2) d hrest]
          · exact (g.playsOut_add_two hint d rest.length).symm
          · rw [hsize]
            congr 2
            omega
          · rw [hfp', Nat.add_mul]
          · rw [hwritten', hwritten, pieces_add_two]
        · -- the count of its bytes is not an `int`
          have hstop : ¬0 < CInt.wrap (2 * g.playBufferlen : Nat) := fun h =>
            hint (g.wrap_pair_pos_iff.mp h)
          have hpos := g.pos
          rw [g.playloop_cons ht hread,
            if_neg (show ¬size ≤ j * g.playBufferlen + g.playBufferlen by omega),
            Nat.min_eq_left (show 2 * g.playBufferlen ≤ size - j * g.playBufferlen by omega),
            if_pos (by omega), hreturned]
          exact iff_of_false (by omega) (g.not_playsOut_add_two hint d rest.length)
      · rw [g.playloop_cons ht hread]
        by_cases hnext : size ≤ j * g.playBufferlen + g.playBufferlen
        · -- there is nothing for the second buffer
          rw [if_pos hnext, if_pos (Int.le_refl 0), hreturned]
          obtain rfl | rfl : c = 0 ∨ c = 1 := by omega
          · exact iff_of_true rfl (g.playsOut_zero _)
          · exact iff_of_false Nat.one_ne_zero (g.not_playsOut_one rest.length)
        · -- one piece is left and part of another
          have hc : c = 1 := by
            have hne : c ≠ 0 := by
              rintro rfl
              omega
            omega
          subst hc
          rw [if_neg hnext]
          refine iff_of_false ?_ (g.not_playsOut_one rest.length)
          split
          · rw [hreturned]
            exact Nat.one_ne_zero
          · refine g.not_streams_of_length (j := j) (by rw [Nat.add_mul]; omega) ?_
            refine Nat.le_trans ?_ (g.length_playloop_le _ rest _)
            have hlen := congrArg List.length (g.written_writeBack hswap ht
              (g.trigger { s with feed := feed }))
            rw [trigger_written, hwritten] at hlen
            simp only [List.length_append, List.length_map, List.length_range,
              List.length_cons, List.length_nil] at hlen
            omega

end Stream

/-! ### A looped file -/

/-- The file is where the repeated file is at byte `a`. -/
structure LoopedAt (data : Nat → UInt8) (size a : Nat) (fp : InFile) : Prop where
  holds : fp.data = data
  ends : fp.size = size
  le : fp.pos ≤ size
  place : fp.pos % size = a % size

section Looped

variable {data : Nat → UInt8} {size : Nat}

/-- Bytes that are read without a rewind. -/
theorem LoopedAt.read {a : Nat} {s : Feed} (h : LoopedAt data size a s.fp) (bp n : Nat) :
    LoopedAt data size (a + s.count n) (s.fread bp n).fp := by
  refine ⟨h.holds, h.ends, ?_, ?_⟩
  · show s.fp.pos + s.count n ≤ size
    have hle := h.le
    have hsize := h.ends
    unfold Feed.count
    omega
  · show (s.fp.pos + s.count n) % size = (a + s.count n) % size
    rw [Nat.add_mod, h.place, ← Nat.add_mod]

theorem LoopedAt.cell {a : Nat} {s : Feed} (h : LoopedAt data size a s.fp) (bp : Nat) {n i : Nat}
    (hi : i < s.count n) : (s.fread bp n).mem (bp + i) = data ((a + i) % size) := by
  have hsize := h.ends
  have hlt : s.fp.pos + i < size := by
    unfold Feed.count at hi
    omega
  rw [mem_fread_self s bp hi, h.holds, Nat.add_mod, ← h.place, ← Nat.add_mod,
    Nat.mod_eq_of_lt hlt]

/-- At its end the file is where it is at its start. -/
theorem LoopedAt.rewind {a : Nat} {fp : InFile} (h : LoopedAt data size a fp)
    (hend : fp.pos = size) : LoopedAt data size a fp.rewind := by
  refine ⟨h.holds, h.ends, Nat.zero_le _, ?_⟩
  rw [← h.place, hend, Nat.mod_self]
  exact Nat.zero_mod _

theorem pos_of_count {s : Feed} {n : Nat} (hn : 0 < n) (hle : s.fp.pos ≤ s.fp.size)
    (hcount : s.count n = 0) : s.fp.pos = s.fp.size := by
  unfold Feed.count at hcount
  omega

/-- **The rest of a buffer is filled with what is next of the repeated file**: a read gives
something, or the file is rewound and the next one does. -/
theorem fillLooped_eq (hsize : 0 < size) (bp : Nat) (s : Feed) (nbuf : Nat) (nb0 : Int) :
    ∀ a, nbuf ≤ g.playBufferlen → LoopedAt data size a s.fp →
      (0 < nb0 ∨ s.fp.pos < size) →
      ∃ s', g.fillLooped bp s nbuf nb0 = some s' ∧
        LoopedAt data size (a + (g.playBufferlen - nbuf)) s'.fp ∧
        (∀ i < g.playBufferlen - nbuf, s'.mem (bp + nbuf + i) = data ((a + i) % size)) ∧
        ∀ x, x < bp + nbuf ∨ bp + g.playBufferlen ≤ x → s'.mem x = s.mem x := by
  fun_induction g.fillLooped bp s nbuf nb0 with
  | case1 s nbuf nb0 hlt nb hnb hstrike =>
      -- a second strike: the file would be empty
      intro a _ hat hgo
      have hnb' : nb = s.count (g.playBufferlen - nbuf) := g.wrap_count s (Nat.sub_le _ _)
      have hends := hat.ends
      have hend := pos_of_count (n := g.playBufferlen - nbuf) (by omega)
        (hends ▸ hat.le) (by omega)
      omega
  | case2 s nbuf nb0 hlt nb s' hnb hstrike ih =>
      intro a hle hat _
      have hnb' : nb = s.count (g.playBufferlen - nbuf) := g.wrap_count s (Nat.sub_le _ _)
      have hnone : s.count (g.playBufferlen - nbuf) = 0 := by omega
      have hend := pos_of_count (by omega) (hat.ends ▸ hat.le) hnone
      have hat' := hat.read (bp + nbuf) (g.playBufferlen - nbuf)
      rw [hnone] at hat'
      have hpos' : s'.fp.pos = size := by
        show s.fp.pos + s.count _ = size
        rw [hnone, hend, hat.ends]
        rfl
      obtain ⟨t, ht, hat'', hcells, hframe⟩ := ih a hle (hat'.rewind hpos') (.inr hsize)
      refine ⟨t, ht, hat'', hcells, ?_⟩
      intro x hx
      refine (hframe x hx).trans ?_
      exact mem_fread_apart s (by omega)
  | case3 s nbuf nb0 hlt nb s' hnb ih =>
      intro a hle hat _
      have hnb' : nb = s.count (g.playBufferlen - nbuf) := g.wrap_count s (Nat.sub_le _ _)
      have hc : s.count (g.playBufferlen - nbuf) ≤ g.playBufferlen - nbuf := Nat.min_le_left _ _
      rw [show nb.toNat = s.count (g.playBufferlen - nbuf) by omega] at ih ⊢
      obtain ⟨t, ht, hat', hcells, hframe⟩ := ih (a + s.count (g.playBufferlen - nbuf)) (by omega)
        (hat.read _ _) (.inl (by omega))
      refine ⟨t, ht, ?_, ?_, ?_⟩
      · rwa [show a + s.count (g.playBufferlen - nbuf) +
          (g.playBufferlen - (nbuf + s.count (g.playBufferlen - nbuf))) =
          a + (g.playBufferlen - nbuf) by omega] at hat'
      · intro i hi
        by_cases hread : i < s.count (g.playBufferlen - nbuf)
        · rw [hframe _ (.inl (by omega))]
          exact hat.cell (bp + nbuf) hread
        · have hcell := hcells (i - s.count (g.playBufferlen - nbuf)) (by omega)
          rw [show bp + (nbuf + s.count (g.playBufferlen - nbuf)) +
              (i - s.count (g.playBufferlen - nbuf)) = bp + nbuf + i by omega,
            show a + s.count (g.playBufferlen - nbuf) + (i - s.count (g.playBufferlen - nbuf)) =
              a + i by omega] at hcell
          exact hcell
      · intro x hx
        rw [hframe x (by omega)]
        exact mem_fread_apart s (by omega)
  | case4 s nbuf nb0 hge =>
      intro a hle hat _
      have hfull : g.playBufferlen - nbuf = 0 := by omega
      refine ⟨s, rfl, ?_, ?_, fun _ _ => rfl⟩
      · rw [hfull]
        exact hat
      · intro i hi
        omega

/-- A turn fills its two buffers from the repeated file. -/
theorem loopBuffers_pair (hsize : 0 < size) {a : Nat} {s : Feed} (hat : LoopedAt data size a s.fp)
    {id id' : Nat} (hne : id ≠ id') :
    ∃ feed, g.loopBuffers s [id, id'] = some (CInt.wrap (2 * g.playBufferlen : Nat), feed) ∧
      LoopedAt data size (a + 2 * g.playBufferlen) feed.fp ∧
      g.buffer feed.mem id = cells (fun i => data (i % size)) a g.playBufferlen ∧
      g.buffer feed.mem id' =
        cells (fun i => data (i % size)) (a + g.playBufferlen) g.playBufferlen := by
  have hpos := g.pos
  obtain ⟨s1, hs1, hat1, hcells1, -⟩ :=
    g.fillLooped_eq hsize (id * g.bufferlen) s 0 999 a (Nat.zero_le _) hat (.inl (by decide))
  obtain ⟨s2, hs2, hat2, hcells2, hframe2⟩ :=
    g.fillLooped_eq hsize (id' * g.bufferlen) s1 0 999 _ (Nat.zero_le _) hat1 (.inl (by decide))
  have hapart := g.buffers_apart hne
  have hwrap : CInt.wrap (CInt.wrap (0 + g.playBufferlen) + g.playBufferlen) =
      CInt.wrap (2 * g.playBufferlen : Nat) := by
    rw [Int.zero_add, CInt.wrap_natCast g.playBufferlen_lt]
    congr 1
    omega
  refine ⟨s2, ?_, ?_, ?_, ?_⟩
  · simp only [loopBuffers, loopEach, hs1, hs2, Option.bind_some, hwrap]
  · rwa [show a + (g.playBufferlen - 0) + (g.playBufferlen - 0) = a + 2 * g.playBufferlen by
      omega] at hat2
  · refine Reads.cells_eq_cells fun i hi => ?_
    rw [hframe2 _ (by omega)]
    exact hcells1 i hi
  · exact Reads.cells_eq_cells fun i hi => hcells2 i hi

theorem playloop_looped (hswap : g.abSwap = false) (hsize : 0 < size) {t : DacTurn} (ht : t.Pair)
    (hint : 0 < CInt.wrap (2 * g.playBufferlen : Nat)) {a : Nat} {s : StreamPlay}
    (hat : LoopedAt data size a s.feed.fp) (rest : List DacTurn) :
    ∃ s', g.playloop g.loopBuffers s (t :: rest) = g.playloop g.loopBuffers s' rest ∧
      LoopedAt data size (a + 2 * g.playBufferlen) s'.feed.fp ∧
      s'.written.map Prod.snd = s.written.map Prod.snd ++
        [cells (fun i => data (i % size)) a g.playBufferlen,
          cells (fun i => data (i % size)) (a + g.playBufferlen) g.playBufferlen] := by
  obtain ⟨feed, hread, hat', hfirst, hsecond⟩ := g.loopBuffers_pair hsize hat ht.distinct
  refine ⟨_, by rw [g.playloop_cons ht hread, if_neg (by omega)], ?_, ?_⟩
  · show LoopedAt data size _ (g.trigger _).feed.fp
    rw [trigger_feed]
    exact hat'
  · rw [g.written_writeBack hswap ht, trigger_written, trigger_feed]
    show _ ++ [g.buffer feed.mem _, g.buffer feed.mem _] = _
    rw [hfirst, hsecond]

/-- A looped file is played on and on. -/
theorem playloop_loops (hswap : g.abSwap = false) (hsize : 0 < size)
    (hint : 0 < CInt.wrap (2 * g.playBufferlen : Nat)) (turns : List DacTurn) :
    ∀ (s : StreamPlay) (j : Nat), (∀ t ∈ turns, t.Pair) →
      LoopedAt data size (j * g.playBufferlen) s.feed.fp →
      s.written.map Prod.snd = (List.range j).map (g.piece fun i => data (i % size)) →
      (g.playloop g.loopBuffers s turns).1.written.map Prod.snd =
          (List.range (j + 2 * turns.length)).map (g.piece fun i => data (i % size)) ∧
        (g.playloop g.loopBuffers s turns).2 = .waiting := by
  induction turns with
  | nil => intro s j _ _ hwritten; exact ⟨hwritten, rfl⟩
  | cons t rest ih =>
      intro s j hturns hat hwritten
      obtain ⟨s', hplay, hat', hwritten'⟩ := g.playloop_looped hswap hsize
        (hturns t List.mem_cons_self) hint hat rest
      rw [← Nat.add_mul] at hat'
      rw [hwritten, ← pieces_add_two] at hwritten'
      have h := ih s' (j + 2) (fun u hu => hturns u (List.mem_cons_of_mem t hu)) hat' hwritten'
      rw [hplay, List.length_cons, Nat.mul_succ]
      rwa [Nat.add_assoc, Nat.add_comm 2] at h

theorem playloop_loops_iff (hswap : g.abSwap = false) (hsize : 0 < size) (turns : List DacTurn)
    (hturns : ∀ t ∈ turns, t.Pair) {s : StreamPlay} (hat : LoopedAt data size 0 s.feed.fp)
    (hwritten : s.written = []) :
    g.Loops data size turns (g.playloop g.loopBuffers s turns) ↔
      2 * g.playBufferlen < 2 ^ 31 ∨ turns = [] := by
  rw [← g.wrap_pair_pos_iff]
  constructor
  · intro h
    by_contra hno
    rw [not_or] at hno
    obtain ⟨t, rest, rfl⟩ := List.exists_cons_of_ne_nil hno.2
    have ht := hturns t List.mem_cons_self
    obtain ⟨feed, hread, -⟩ := g.loopBuffers_pair hsize hat ht.distinct
    have hgoes := h.goesOn
    rw [g.playloop_cons ht hread, if_pos (by omega)] at hgoes
    cases hgoes
  · rintro (hint | rfl)
    · have h := g.playloop_loops hswap hsize hint turns s 0 hturns (by rwa [Nat.zero_mul])
        (by rw [hwritten]; rfl)
      rw [Nat.zero_add] at h
      exact ⟨h.1, h.2⟩
    · exact ⟨by rw [playloop, hwritten]; rfl, rfl⟩

end Looped

/-- **What is fed to the DAC.** -/
theorem playloop_feeds_iff (hswap : g.abSwap = false) (mem data : Nat → UInt8) (size : Nat)
    (turns : List DacTurn) (hturns : ∀ t ∈ turns, t.Pair) :
    (g.Streams data size
        (g.playloop g.readBuffers (g.start ⟨mem, ⟨data, size, 0⟩⟩) turns) ↔
      g.PlaysOut (size / g.playBufferlen) turns.length) ∧
    (0 < size →
      (g.Loops data size turns (g.playloop g.loopBuffers (g.start ⟨mem, ⟨data, size, 0⟩⟩) turns) ↔
        2 * g.playBufferlen < 2 ^ 31 ∨ turns = [])) := by
  have hr := Nat.mod_lt size g.pos
  have hdiv := Nat.div_add_mod' size g.playBufferlen
  refine ⟨?_, fun hsize => ?_⟩
  · refine g.playloop_streams_iff hswap hr turns _ 0 _ hturns ?_ ?_ rfl
    · rw [Nat.zero_add]
      exact hdiv.symm
    · rw [Nat.zero_mul]
      rfl
  · exact g.playloop_loops_iff hswap hsize turns hturns ⟨rfl, rfl, Nat.zero_le _, rfl⟩ rfl

theorem megabyte_pos : 0 < 1048576 := by decide

/-- Buffers of a megabyte. -/
def megabyte : BbStream where
  bufferlen := 1048576
  playBufferlen := 1048576
  autoSoftTrigger := 0
  abSwap := false
  pos := megabyte_pos
  le := by decide
  int := by decide

/-- The device hands out the first two buffers. -/
def firstPair : DacTurn := { nr := 2, descriptor0 := 0, descriptor1 := 1, nw := 2 }

theorem firstPair_pair : firstPair.Pair := ⟨rfl, rfl, by decide⟩

theorem playloop_feeds_two :
    megabyte.Streams (fun _ => 1) 2097152
        (megabyte.playloop megabyte.readBuffers
          (megabyte.start ⟨fun _ => 0, ⟨fun _ => 1, 2097152, 0⟩⟩) [firstPair]) ∧
      megabyte.Loops (fun _ => 1) 100 [firstPair]
        (megabyte.playloop megabyte.loopBuffers
          (megabyte.start ⟨fun _ => 0, ⟨fun _ => 1, 100, 0⟩⟩) [firstPair]) := by
  have hturns : ∀ t ∈ [firstPair], t.Pair := by
    intro t ht
    rw [List.mem_singleton.mp ht]
    exact firstPair_pair
  constructor
  · refine (megabyte.playloop_feeds_iff rfl _ _ _ _ hturns).1.mpr ⟨.inl ?_, .inl (by decide)⟩
    decide
  · exact ((megabyte.playloop_feeds_iff rfl _ _ _ _ hturns).2 (by decide)).mpr (.inl (by decide))

/-- A stream of one buffer: `playloop` returns and has played nothing. -/
theorem playloop_loses_one :
    firstPair.Pair ∧
      ¬megabyte.Streams (fun _ => 1) 1048576
        (megabyte.playloop megabyte.readBuffers
          (megabyte.start ⟨fun _ => 0, ⟨fun _ => 1, 1048576, 0⟩⟩) [firstPair]) := by
  refine ⟨firstPair_pair, fun h => ?_⟩
  have hlt := h.complete (by decide) 0 (by decide)
  exact absurd hlt (by decide)

end BbStream

end Acq400
