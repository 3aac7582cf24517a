/-
When the wait for the post data of an event is long enough.

The ring has two buffers less than there are.  What has gone round its end is therefore
counted as two buffers more, and the wait ends up to two buffers early if it is there
that a poll finds it.  Short of the end the count is right.
-/
import Acq400.Proofs.FindEvent
import Acq400.Stream.MultiEvent
import Acq400.Proofs.EventSettings

namespace Acq400.MultiEventServer

open IndexRing

variable {g : G} {hb0 k : Nat}

/-! ### What is counted -/

theorem deltaHb_hbAfter (hhb0 : InRing buffer0Reserved g.nbuffers hb0)
    (hk : k < g.nbuffers - buffer0Reserved) :
    deltaHb g hb0 (hbAfter g hb0 k) = if hb0 + k < g.nbuffers then k else k + 2 := by
  unfold deltaHb hbAfter
  rcases Nat.lt_or_ge (hb0 + k) g.nbuffers with hlt | hge
  · rw [iterate_next_of_lt hlt, if_pos (by omega), if_pos hlt]
    omega
  · rw [iterate_next_of_ge hhb0 hk hge]
    unfold InRing buffer0Reserved at *
    rw [if_neg (by omega), if_neg (by omega)]
    omega

theorem deltaHb_hbAfter_eq_iff (hhb0 : InRing buffer0Reserved g.nbuffers hb0)
    (hk : k < g.nbuffers - buffer0Reserved) :
    deltaHb g hb0 (hbAfter g hb0 k) = k ↔ hb0 + k < g.nbuffers := by
  rw [deltaHb_hbAfter hhb0 hk]
  split <;> omega

theorem hbAfter_mod (hhb0 : InRing buffer0Reserved g.nbuffers hb0) :
    hbAfter g hb0 k = hbAfter g hb0 (k % (g.nbuffers - buffer0Reserved)) := by
  unfold hbAfter
  rw [iterate_next_eq hhb0, iterate_next_eq hhb0, Nat.add_mod_mod]

theorem deltaHb_le_of_ge (hhb0 : InRing buffer0Reserved g.nbuffers hb0)
    (hk : g.nbuffers - buffer0Reserved ≤ k) : deltaHb g hb0 (hbAfter g hb0 k) ≤ k := by
  have hpos : 0 < g.nbuffers - buffer0Reserved := by
    unfold InRing at hhb0
    omega
  have hlt := Nat.mod_lt k hpos
  rw [hbAfter_mod hhb0, deltaHb_hbAfter hhb0 hlt]
  split
  · omega
  · rename_i hend
    have hne : k ≠ g.nbuffers - buffer0Reserved := by
      intro heq
      rw [heq, Nat.mod_self, Nat.add_zero] at hend
      exact hend hhb0.2
    omega

/-! ### The wait -/

variable {pb : Nat} {post : Int}

theorem postBuffers_lt (hpb : postBuffers g post = some pb) : pb < 2 ^ 32 := by
  unfold postBuffers CInt.unsigned at hpb
  split at hpb
  · cases hpb
  · obtain rfl := Option.some.inj hpb
    refine Nat.lt_of_le_of_lt (Nat.div_le_self _ _) ?_
    omega

/-- A poll that ends the wait with no more than `pb` buffers completed. -/
def TooEarly (g : G) (hb0 pb k : Nat) : Prop :=
  k ≤ pb ∧ (pb + 1 = 2 ^ 32 ∨
    k < g.nbuffers - buffer0Reserved ∧ g.nbuffers ≤ hb0 + k ∧ pb ≤ k + 1)

theorem tooEarly_iff (hhb0 : InRing buffer0Reserved g.nbuffers hb0) (hpb : pb < 2 ^ 32) :
    TooEarly g hb0 pb k ↔
      k ≤ pb ∧ (pb + 1) % 2 ^ 32 ≤ deltaHb g hb0 (hbAfter g hb0 k) := by
  unfold TooEarly
  refine and_congr_right fun hle => ?_
  rcases Nat.lt_or_ge k (g.nbuffers - buffer0Reserved) with hk | hk
  · rw [deltaHb_hbAfter hhb0 hk]
    split <;> omega
  · have hdelta := deltaHb_le_of_ge hhb0 hk
    omega

variable {hbs : List Nat} {i n : Nat}

theorem waitLoop_some (h : waitLoop g hb0 pb hbs = some n) :
    ∃ hb, hbs[n]? = some hb ∧ (pb + 1) % 2 ^ 32 ≤ deltaHb g hb0 hb := by
  induction hbs generalizing n with
  | nil => cases h
  | cons hbLast polls ih =>
      unfold waitLoop at h
      split at h
      · obtain ⟨n', hn', rfl⟩ := Option.map_eq_some_iff.mp h
        exact ih hn'
      · rename_i hstop
        obtain rfl := Option.some.inj h
        exact ⟨hbLast, rfl, Nat.le_of_not_lt hstop⟩

theorem exists_waitLoop {hb : Nat} (hi : hbs[i]? = some hb)
    (hstop : (pb + 1) % 2 ^ 32 ≤ deltaHb g hb0 hb) :
    ∃ n, n ≤ i ∧ waitLoop g hb0 pb hbs = some n := by
  induction hbs generalizing i with
  | nil => cases hi
  | cons hbLast polls ih =>
      unfold waitLoop
      split
      · rename_i hgoes
        cases i with
        | zero =>
            obtain rfl := Option.some.inj hi
            omega
        | succ i =>
            obtain ⟨n, hn, hloop⟩ := ih hi
            exact ⟨n + 1, Nat.succ_le_succ hn, by rw [hloop, Option.map_some]⟩
      · exact ⟨0, Nat.zero_le i, rfl⟩

/-- The wait ends at no poll before `post_buffers()+1` buffers are completed, where `ks` says
how many are at each poll. -/
def WaitsLong (g : G) (post : Int) (hb0 : Nat) (ks : List Nat) : Prop :=
  ∀ n, waitPost g post hb0 (ks.map (hbAfter g hb0)) = some n →
    ∃ k pb, ks[n]? = some k ∧ postBuffers g post = some pb ∧ pb + 1 ≤ k

theorem waitsLong_iff (hhb0 : InRing buffer0Reserved g.nbuffers hb0) {ks : List Nat}
    (hks : ks.Pairwise (· ≤ ·)) :
    WaitsLong g post hb0 ks ↔
      ∀ pb, postBuffers g post = some pb → ∀ k ∈ ks, ¬ TooEarly g hb0 pb k := by
  unfold WaitsLong waitPost
  constructor
  · intro hlong pb hpb k hk hearly
    obtain ⟨hle, hstop⟩ := (tooEarly_iff hhb0 (postBuffers_lt hpb)).mp hearly
    obtain ⟨i, hi⟩ := List.mem_iff_getElem?.mp hk
    have hmap : (ks.map (hbAfter g hb0))[i]? = some (hbAfter g hb0 k) := by
      rw [List.getElem?_map, hi, Option.map_some]
    obtain ⟨n, hn, hloop⟩ := exists_waitLoop hmap hstop
    obtain ⟨k', pb', hk', hpb', hge⟩ := hlong n (by rw [hpb, Option.bind_some, hloop])
    obtain rfl := Option.some.inj (hpb.symm.trans hpb')
    -- the polls come in the order of what they find
    have hmono : k' ≤ k := by
      rcases Nat.eq_or_lt_of_le hn with rfl | hlt
      · exact Nat.le_of_eq (Option.some.inj (hk'.symm.trans hi))
      · obtain ⟨hilt, rfl⟩ := List.getElem?_eq_some_iff.mp hi
        obtain ⟨hnlt, rfl⟩ := List.getElem?_eq_some_iff.mp hk'
        exact List.pairwise_iff_getElem.mp hks n i hnlt hilt hlt
    omega
  · intro hno n hwait
    obtain ⟨pb, hpb, hloop⟩ := Option.bind_eq_some_iff.mp hwait
    obtain ⟨hb, hhb, hstop⟩ := waitLoop_some hloop
    rw [List.getElem?_map] at hhb
    obtain ⟨k, hk, rfl⟩ := Option.map_eq_some_iff.mp hhb
    refine ⟨k, pb, hk, hpb, ?_⟩
    by_contra hlt
    exact hno pb hpb k (List.mem_of_getElem? hk)
      ((tooEarly_iff hhb0 (postBuffers_lt hpb)).mpr ⟨by omega, hstop⟩)

/-- **The count is right short of the end of the ring, and the wait is long enough unless a
poll finds up to two buffers less than are waited for, past the end.** -/
theorem wait_right_iff (hhb0 : InRing buffer0Reserved g.nbuffers hb0) :
    (∀ k < g.nbuffers - buffer0Reserved,
      deltaHb g hb0 (hbAfter g hb0 k) = k ↔ hb0 + k < g.nbuffers) ∧
    ∀ (post : Int) (ks : List Nat), ks.Pairwise (· ≤ ·) →
      (WaitsLong g post hb0 ks ↔
        ∀ pb, postBuffers g post = some pb → ∀ k ∈ ks, ¬ TooEarly g hb0 pb k) := by
  refine ⟨?_, ?_⟩
  · intro k hk
    exact deltaHb_hbAfter_eq_iff hhb0 hk
  · intro post ks hks
    exact waitsLong_iff hhb0 hks

/-! ### Twelve buffers -/

/-- Twelve buffers of 1 MB, with samples of 16 bytes. -/
def twelveBuffers : G where
  nchan := 4
  wordsize := 4
  doubleUp := false
  bufferlen := 0x100000
  nbuffers := 12

/-- From the middle of the ring the wait for 100000 samples is long enough. -/
theorem twelveBuffers_middle : WaitsLong twelveBuffers 100000 4 [0, 1, 2] := by
  refine ((wait_right_iff (by decide)).2 100000 [0, 1, 2] (by decide)).mpr ?_
  intro pb hpb k hk hearly
  obtain rfl : 1 = pb := Option.some.inj hpb
  obtain ⟨hle, hend | ⟨_, hend, _⟩⟩ := hearly
  · exact absurd hend (by decide)
  · have hk' : 12 ≤ 4 + k := hend
    omega

/-- From the last buffer one completed buffer is counted as three, and the wait for two ends. -/
theorem twelveBuffers_end :
    deltaHb twelveBuffers 11 (hbAfter twelveBuffers 11 1) = 3 ∧
      ¬ WaitsLong twelveBuffers 100000 11 [0, 1] := by
  refine ⟨by decide, ?_⟩
  intro hlong
  obtain ⟨k, pb, hk, hpb, hle⟩ := hlong 1 rfl
  obtain rfl : 1 = k := Option.some.inj hk
  obtain rfl : 1 = pb := Option.some.inj hpb
  exact absurd hle (by decide)

end Acq400.MultiEventServer

/-! ### The file of an event

What comes to the file of an event.

The part before the event is cut in two where it goes round the beginning of the ring, and the
part behind it where it goes round the end.  The lengths are taken as they come from the settings:
one that is negative becomes a `size_t` beyond any ring, and one that is more than once round
begins before it or ends behind it.
-/

namespace Acq400.MultiEventServer

open Reads

/-! ### The ring -/

/-- A ring of samples, and an event at one of them. -/
structure EventRing (sampleSize : Nat) where
  b0 : Nat
  /-- The samples of the ring. -/
  samples : Nat
  /-- The sample of the event. -/
  event : Nat
  size_pos : 0 < sampleSize
  event_lt : event < samples
  /-- The difference of two addresses in the ring is an `int`. -/
  fits_int : samples * sampleSize < 2 ^ 31

variable {sampleSize : Nat}

namespace EventRing

variable (r : EventRing sampleSize)

/-- The bytes of the ring. -/
def size : Nat := r.samples * sampleSize

/-- The offset of the event. -/
def pos : Nat := r.event * sampleSize

def b1 : Nat := r.b0 + r.size

def esp : Nat := r.b0 + r.pos

/-- The bytes from `k` on, round and round. -/
def byte (m : Mem) (k : Nat) : UInt8 := m (r.b0 + k % r.size)

theorem pos_add_le : r.pos + sampleSize ≤ r.size := by
  unfold pos size
  rw [← Nat.succ_mul]
  exact Nat.mul_le_mul_right _ r.event_lt

theorem size_lt : r.size < 2147483648 := r.fits_int

/-- A write reads only in the ring. -/
def Inside (w : Fwrite) : Prop :=
  ∀ k : Nat, k < w.n → (r.b0 : Int) ≤ w.ptr + k ∧ w.ptr + k < r.b1

theorem n_fwrite (ptr : Int) {n : Int} (hn : 0 ≤ n) (hmax : n < 4294967296) :
    (fwrite ptr n).n = n.toNat := by
  unfold fwrite CInt.unsigned
  dsimp only
  omega

theorem inside_fwrite_iff {off n : Int} (hn : 0 < n) (hmax : n < 4294967296) :
    r.Inside (fwrite (r.b0 + off) n) ↔ 0 ≤ off ∧ off + n ≤ r.size := by
  have hlen := n_fwrite (r.b0 + off) (Int.le_of_lt hn) hmax
  have hptr : (fwrite (r.b0 + off) n).ptr = r.b0 + off := rfl
  unfold Inside b1
  rw [hlen, hptr]
  constructor
  · intro h
    have hfirst := (h 0 (by omega)).1
    have hlast := (h (n.toNat - 1) (by omega)).2
    omega
  · rintro ⟨h0, h1⟩ k hk
    omega

theorem inside_fwrite_zero (ptr : Int) : r.Inside (fwrite ptr 0) := by
  intro k hk
  exact absurd hk (Nat.not_lt_zero k)

theorem not_inside_of_neg {off n : Int} (hn : n < 0) (hmin : -4294967296 < n)
    (hend : (r.size : Int) < off + (n + 4294967296)) : ¬r.Inside (fwrite (r.b0 + off) n) := by
  have hlen : (fwrite (r.b0 + off) n).n = (n + 4294967296).toNat := by
    unfold fwrite CInt.unsigned
    dsimp only
    omega
  have hptr : (fwrite (r.b0 + off) n).ptr = r.b0 + off := rfl
  intro h
  have hlast := (h ((n + 4294967296).toNat - 1) (by omega)).2
  rw [hptr] at hlast
  unfold b1 at hlast
  omega

/-- What a write brings to the file, where it is in line with the ring from `k` on. -/
theorem bytes_fwrite {m : Mem} (off : Nat) {n k : Nat} (hmax : n < 4294967296)
    (h : ∀ i, i < n → (k + i) % r.size = off + i) {ptr : Int} (hptr : ptr = r.b0 + off) :
    (fwrite ptr n).bytes m = cells (r.byte m) k n := by
  have hlen := n_fwrite ptr (n := n) (by omega) (by omega)
  have hat : (fwrite ptr n).ptr = ptr := rfl
  unfold Fwrite.bytes
  rw [hlen, hat, Int.toNat_natCast]
  refine cells_eq_cells fun i hi => ?_
  unfold byte
  rw [h i hi, hptr]
  congr 1
  omega

end EventRing

/-! ### What is read -/

section Inside

variable (r : EventRing sampleSize) {s : MultiEventServer} {suppressEvent : Int}

/-- The lengths of the two parts reach no further than once round. -/
structure InBounds (r : EventRing sampleSize) (suppressEvent : Int) (s : MultiEventServer) : Prop
    where
  pre_nonneg : 0 ≤ s.preBytes
  pre_le : s.preBytes ≤ r.size + r.pos
  suppressed_le : sampleSize * suppressEvent ≤ s.postBytes
  post_le : s.postBytes ≤ r.size + (r.size - r.pos)

theorem wrap_linearPre : CInt.wrap ((r.esp : Int) - r.b0) = r.pos := by
  have hsize := r.size_lt
  have hpos := r.pos_add_le
  have hsub : (r.esp : Int) - r.b0 = r.pos := by
    unfold EventRing.esp
    omega
  rw [hsub]
  exact CInt.wrap_natCast (by omega)

theorem wrap_linearPost : CInt.wrap ((r.b1 : Int) - r.esp) = r.size - r.pos := by
  have hsize := r.size_lt
  have hpos := r.pos_add_le
  have hsub : (r.b1 : Int) - r.esp = r.size - r.pos := by
    unfold EventRing.esp EventRing.b1
    omega
  rw [hsub]
  refine CInt.wrap_of_inRange ?_
  unfold CInt.InRange
  omega

theorem wrap_ss (r : EventRing sampleSize) (hsup : suppressEvent = 0 ∨ suppressEvent = 1) :
    CInt.wrap (sampleSize * suppressEvent) = sampleSize * suppressEvent ∧
      0 ≤ sampleSize * suppressEvent ∧ sampleSize * suppressEvent ≤ sampleSize := by
  have hsize := r.size_lt
  have hpos := r.pos_add_le
  rcases hsup with rfl | rfl
  · rw [Int.mul_zero]
    exact ⟨rfl, Int.le_refl 0, Int.natCast_nonneg _⟩
  · rw [Int.mul_one]
    exact ⟨CInt.wrap_natCast (by omega), Int.natCast_nonneg _, Int.le_refl _⟩

theorem inside_writePre_iff (hrange : CInt.InRange s.preBytes) :
    (∀ w ∈ s.writePre r.b0 r.b1 r.esp, r.Inside w) ↔
      0 ≤ s.preBytes ∧ s.preBytes ≤ r.size + r.pos := by
  have hsize := r.size_lt
  have hpos := r.pos_add_le
  unfold CInt.InRange at hrange
  unfold writePre
  rw [wrap_linearPre r]
  dsimp only
  by_cases hwraps : s.preBytes > r.pos
  · have hend : (r.b1 : Int) - (s.preBytes - r.pos) = r.b0 + (r.size - (s.preBytes - r.pos)) := by
      unfold EventRing.b1
      omega
    have hbegin : (r.esp : Int) - r.pos = r.b0 + 0 := by
      unfold EventRing.esp
      omega
    rw [if_pos hwraps, hend, hbegin, List.forall_mem_cons, List.forall_mem_singleton,
      r.inside_fwrite_iff (by omega) (by omega)]
    have hsecond : r.Inside (fwrite (r.b0 + 0) r.pos) := by
      rcases Nat.eq_zero_or_pos r.pos with hzero | hsome
      · rw [hzero]
        exact r.inside_fwrite_zero _
      · exact (r.inside_fwrite_iff (by omega) (by omega)).mpr (by omega)
    rw [and_iff_left hsecond]
    omega
  · have hbegin : (r.esp : Int) - s.preBytes = r.b0 + (r.pos - s.preBytes) := by
      unfold EventRing.esp
      omega
    rw [if_neg hwraps, hbegin, List.forall_mem_singleton]
    rcases Int.lt_trichotomy s.preBytes 0 with hneg | hzero | hsome
    · refine iff_of_false (r.not_inside_of_neg hneg (by omega) (by omega)) ?_
      omega
    · rw [hzero]
      refine iff_of_true (r.inside_fwrite_zero _) ?_
      omega
    · rw [r.inside_fwrite_iff hsome (by omega)]
      omega

theorem inside_writePost_iff (hsup : suppressEvent = 0 ∨ suppressEvent = 1)
    (hrange : CInt.InRange s.postBytes) :
    (∀ w ∈ s.writePost r.b0 r.b1 r.esp sampleSize suppressEvent, r.Inside w) ↔
      sampleSize * suppressEvent ≤ s.postBytes ∧
        s.postBytes ≤ r.size + (r.size - r.pos) := by
  have hsize := r.size_lt
  have hpos := r.pos_add_le
  obtain ⟨hss, hss0, hss1⟩ := wrap_ss r hsup
  unfold CInt.InRange at hrange
  unfold writePost
  rw [wrap_linearPost r, hss]
  dsimp only
  generalize (sampleSize * suppressEvent : Int) = ss at hss0 hss1 ⊢
  have hevent : (r.esp : Int) + ss = r.b0 + (r.pos + ss) := by
    unfold EventRing.esp
    omega
  by_cases hwraps : s.postBytes > r.size - r.pos
  · have hfirst : r.Inside (fwrite (r.b0 + (r.pos + ss)) (r.size - r.pos - ss)) := by
      rcases Int.le_iff_lt_or_eq.mp (show ss ≤ r.size - r.pos by omega) with hlt | heq
      · exact (r.inside_fwrite_iff (by omega) (by omega)).mpr (by omega)
      · rw [heq, Int.sub_self]
        exact r.inside_fwrite_zero _
    have hbegin : (r.b0 : Int) = r.b0 + 0 := (Int.add_zero _).symm
    rw [if_pos hwraps, hevent, List.forall_mem_cons, List.forall_mem_singleton,
      and_iff_right hfirst]
    conv_lhs => rw [hbegin]
    rw [r.inside_fwrite_iff (by omega) (by omega)]
    omega
  · rw [if_neg hwraps, hevent, List.forall_mem_singleton]
    rcases Int.lt_trichotomy (s.postBytes - ss) 0 with hneg | hzero | hsome
    · refine iff_of_false (r.not_inside_of_neg hneg (by omega) (by omega)) ?_
      omega
    · rw [hzero]
      refine iff_of_true (r.inside_fwrite_zero _) ?_
      omega
    · rw [r.inside_fwrite_iff hsome (by omega)]
      omega

end Inside

/-! ### What comes to the file -/

section Content

variable (r : EventRing sampleSize) {s : MultiEventServer} {suppressEvent : Int}

/-- The samples that are asked for fit the ring. -/
structure Fits (r : EventRing sampleSize) (s : MultiEventServer) : Prop where
  pre_nonneg : 0 ≤ s.pre
  post_nonneg : 0 ≤ s.post
  fits : s.pre + s.post + 1 ≤ r.samples

/-- The samples before the event, the event unless it is suppressed, and the samples behind it,
all in ring order. -/
def wantedFile (r : EventRing sampleSize) (suppressEvent : Int) (s : MultiEventServer) (m : Mem) :
    List UInt8 :=
  cells (r.byte m) (r.pos + r.size - s.pre.toNat * sampleSize) (s.pre.toNat * sampleSize) ++
    (if suppressEvent = 0 then cells (r.byte m) r.pos sampleSize else []) ++
      cells (r.byte m) (r.pos + sampleSize) (s.post.toNat * sampleSize)

/-- What the writes bring to the file. -/
def content (m : Mem) (writes : List Fwrite) : List UInt8 := writes.flatMap (Fwrite.bytes m)

variable {pre post : Nat} {m : Mem}

theorem content_writePre (hpre : s.preBytes = pre) (hle : pre ≤ r.size) :
    content m (s.writePre r.b0 r.b1 r.esp) = cells (r.byte m) (r.pos + r.size - pre) pre := by
  have hsize := r.size_lt
  have hpos := r.pos_add_le
  have hsample := r.size_pos
  unfold content writePre
  rw [wrap_linearPre r, hpre]
  dsimp only
  by_cases hwraps : (pre : Int) > r.pos
  · have hlen : (pre : Int) - r.pos = ((pre - r.pos : Nat) : Int) := by omega
    have hfirst : (fwrite (r.b1 - (pre - r.pos)) (pre - r.pos)).bytes m =
        cells (r.byte m) (r.pos + r.size - pre) (pre - r.pos) := by
      rw [hlen]
      refine r.bytes_fwrite (r.size - (pre - r.pos)) (by omega) ?_ ?_
      · intro i hi
        rw [Nat.mod_eq_of_lt (by omega)]
        omega
      · unfold EventRing.b1
        omega
    have hsecond : (fwrite (r.esp - r.pos) r.pos).bytes m = cells (r.byte m) r.size r.pos := by
      refine r.bytes_fwrite 0 (by omega) ?_ ?_
      · intro i hi
        rw [Nat.add_mod_left, Nat.mod_eq_of_lt (by omega), Nat.zero_add]
      · unfold EventRing.esp
        omega
    rw [if_pos hwraps, List.flatMap_cons, List.flatMap_singleton, hfirst, hsecond]
    have hsplit := cells_append (r.byte m) (r.pos + r.size - pre) (pre - r.pos) r.pos
    rw [show r.pos + r.size - pre + (pre - r.pos) = r.size by omega,
      show pre - r.pos + r.pos = pre by omega] at hsplit
    exact hsplit
  · rw [if_neg hwraps, List.flatMap_singleton]
    refine r.bytes_fwrite (r.pos - pre) (by omega) ?_ ?_
    · intro i hi
      rw [show r.pos + r.size - pre + i = r.pos - pre + i + r.size by omega, Nat.add_mod_right,
        Nat.mod_eq_of_lt (by omega)]
    · unfold EventRing.esp
      omega

theorem content_writePost (suppressEvent : Int) (skip : Nat)
    (hsup : CInt.wrap (sampleSize * suppressEvent) = skip)
    (hskip : skip ≤ sampleSize) (hpost : s.postBytes = (sampleSize + post : Nat))
    (hle : sampleSize + post ≤ r.size) :
    content m (s.writePost r.b0 r.b1 r.esp sampleSize suppressEvent) =
      cells (r.byte m) (r.pos + skip) (sampleSize + post - skip) := by
  have hsize := r.size_lt
  have hpos := r.pos_add_le
  have hsample := r.size_pos
  unfold content writePost
  rw [wrap_linearPost r, hpost, hsup]
  dsimp only
  have hevent : (r.esp : Int) + skip = r.b0 + ((r.pos + skip : Nat) : Int) := by
    unfold EventRing.esp
    omega
  rw [hevent]
  by_cases hwraps : ((sampleSize + post : Nat) : Int) > r.size - r.pos
  · have hlen : (r.size : Int) - r.pos - skip = ((r.size - r.pos - skip : Nat) : Int) := by omega
    have hrest : ((sampleSize + post : Nat) : Int) - (r.size - r.pos) =
        ((sampleSize + post - (r.size - r.pos) : Nat) : Int) := by omega
    have hfirst : (fwrite (r.b0 + ((r.pos + skip : Nat) : Int)) (r.size - r.pos - skip)).bytes m =
        cells (r.byte m) (r.pos + skip) (r.size - r.pos - skip) := by
      rw [hlen]
      refine r.bytes_fwrite _ (by omega) ?_ rfl
      intro i hi
      exact Nat.mod_eq_of_lt (by omega)
    have hsecond : (fwrite r.b0 ((sampleSize + post : Nat) - (r.size - r.pos))).bytes m =
        cells (r.byte m) r.size (sampleSize + post - (r.size - r.pos)) := by
      rw [hrest]
      refine r.bytes_fwrite 0 (by omega) ?_ (Int.add_zero _).symm
      intro i hi
      rw [Nat.add_mod_left, Nat.mod_eq_of_lt (by omega), Nat.zero_add]
    rw [if_pos hwraps, List.flatMap_cons, List.flatMap_singleton, hfirst, hsecond]
    have hsplit := cells_append (r.byte m) (r.pos + skip) (r.size - r.pos - skip)
      (sampleSize + post - (r.size - r.pos))
    rw [show r.pos + skip + (r.size - r.pos - skip) = r.size by omega,
      show r.size - r.pos - skip + (sampleSize + post - (r.size - r.pos)) =
        sampleSize + post - skip by omega] at hsplit
    exact hsplit
  · have hlen : ((sampleSize + post : Nat) : Int) - skip =
        ((sampleSize + post - skip : Nat) : Int) := by omega
    rw [if_neg hwraps, List.flatMap_singleton, hlen]
    refine r.bytes_fwrite _ (by omega) ?_ rfl
    intro i hi
    exact Nat.mod_eq_of_lt (by omega)

/-! ### All the writes -/

/-- The byte counts are those that `update_prams` makes of `pre` and `post`. -/
structure Counted (sampleSize : Nat) (s : MultiEventServer) : Prop where
  pre : s.preBytes = CInt.wrap (s.pre * sampleSize)
  post : s.postBytes = CInt.wrap ((s.post + 1) * sampleSize)

theorem counted_of_accepts {line : List Char} (haccepts : s.accepts line = true) :
    Counted sampleSize (s.updatePrams sampleSize line) := by
  obtain ⟨hpre, hpost, hpreBytes, hpostBytes⟩ := updatePrams_accepted sampleSize haccepts
  refine ⟨?_, ?_⟩
  · rw [hpreBytes, hpre]
  · rw [hpostBytes, hpost]

theorem Fits.bytes {r : EventRing sampleSize} (h : Fits r s) (hs : Counted sampleSize s) :
    s.preBytes = (s.pre.toNat * sampleSize : Nat) ∧
      s.postBytes = (sampleSize + s.post.toNat * sampleSize : Nat) ∧
      s.pre.toNat * sampleSize + (sampleSize + s.post.toNat * sampleSize) ≤ r.size := by
  have hsize := r.size_lt
  have hpre := h.pre_nonneg
  have hpost := h.post_nonneg
  have hfits := h.fits
  have hle : s.pre.toNat * sampleSize + (sampleSize + s.post.toNat * sampleSize) ≤ r.size := by
    have hcount : s.pre.toNat + (1 + s.post.toNat) ≤ r.samples := by omega
    have hmul := Nat.mul_le_mul_right sampleSize hcount
    rw [Nat.add_mul, Nat.add_mul, Nat.one_mul] at hmul
    exact hmul
  have hpreMul : s.pre * sampleSize = (s.pre.toNat * sampleSize : Nat) := by
    rw [Int.natCast_mul, Int.toNat_of_nonneg hpre]
  have hpostMul : (s.post + 1) * sampleSize = (sampleSize + s.post.toNat * sampleSize : Nat) := by
    rw [Int.natCast_add, Int.natCast_mul, Int.toNat_of_nonneg hpost, Int.add_mul, Int.one_mul,
      Int.add_comm]
  refine ⟨?_, ?_, hle⟩
  · rw [hs.pre, hpreMul]
    exact CInt.wrap_natCast (by omega)
  · rw [hs.post, hpostMul]
    exact CInt.wrap_natCast (by omega)

/-- What is asked of the writes. -/
structure FileRight (r : EventRing sampleSize) (suppressEvent freebytes : Int)
    (s : MultiEventServer) : Prop where
  inside : ∀ w ∈ s.handleEvent r.b0 r.b1 r.esp sampleSize suppressEvent freebytes, r.Inside w
  content : Fits r s → ∀ m,
    content m (s.handleEvent r.b0 r.b1 r.esp sampleSize suppressEvent freebytes) =
      wantedFile r suppressEvent s m

/-- With memory enough, the file is right if and only if the lengths are in bounds. -/
theorem fileRight_iff_inBounds (hsup : suppressEvent = 0 ∨ suppressEvent = 1) {freebytes : Int}
    (hs : Counted sampleSize s) (hlow : s.lowMemory freebytes = false) :
    FileRight r suppressEvent freebytes s ↔ InBounds r suppressEvent s := by
  have hwrites : s.handleEvent r.b0 r.b1 r.esp sampleSize suppressEvent freebytes =
      s.writePre r.b0 r.b1 r.esp ++ s.writePost r.b0 r.b1 r.esp sampleSize suppressEvent := by
    unfold handleEvent
    rw [hlow]
    rfl
  have hpre := inside_writePre_iff r (s := s) (hs.pre ▸ CInt.inRange_wrap _)
  have hpost := inside_writePost_iff r (s := s) hsup (hs.post ▸ CInt.inRange_wrap _)
  constructor
  · intro h
    have hinside := h.inside
    rw [hwrites] at hinside
    obtain ⟨h0, h1⟩ := hpre.mp fun w hw => hinside w (List.mem_append_left _ hw)
    obtain ⟨h2, h3⟩ := hpost.mp fun w hw => hinside w (List.mem_append_right _ hw)
    exact ⟨h0, h1, h2, h3⟩
  · intro h
    refine ⟨?_, ?_⟩
    · rw [hwrites]
      intro w hw
      rcases List.mem_append.mp hw with hw | hw
      · exact hpre.mpr ⟨h.pre_nonneg, h.pre_le⟩ w hw
      · exact hpost.mpr ⟨h.suppressed_le, h.post_le⟩ w hw
    · intro hfits m
      obtain ⟨hpreBytes, hpostBytes, hle⟩ := hfits.bytes hs
      have hfirst := content_writePre r (m := m) hpreBytes (by omega)
      rw [hwrites]
      unfold content wantedFile at *
      rw [List.flatMap_append, hfirst, List.append_assoc]
      congr 1
      rcases hsup with rfl | rfl
      · have hrest := content_writePost r (m := m) 0 0
          (by rw [Int.mul_zero]; rfl) (Nat.zero_le _) hpostBytes (by omega)
        unfold content at hrest
        rw [hrest, if_pos rfl, cells_append, Nat.add_zero, Nat.sub_zero]
      · have hrest := content_writePost r (m := m) 1 sampleSize
          (by rw [(wrap_ss r (Or.inr rfl)).1, Int.mul_one]) (Nat.le_refl _) hpostBytes (by omega)
        unfold content at hrest
        rw [hrest, if_neg Int.one_ne_zero, List.nil_append, Nat.add_sub_cancel_left]

theorem content_event :
    content m [fwrite r.esp sampleSize] = cells (r.byte m) r.pos sampleSize := by
  have hsize := r.size_lt
  have hpos := r.pos_add_le
  unfold content
  rw [List.flatMap_singleton]
  refine r.bytes_fwrite r.pos (by omega) ?_ (Int.natCast_add _ _)
  intro i hi
  exact Nat.mod_eq_of_lt (by omega)

theorem exists_ne_event {k : Nat} (hk : k % r.size ≠ r.pos) :
    ∃ m, cells (r.byte m) r.pos sampleSize ≠ cells (r.byte m) k sampleSize := by
  have hpos := r.pos_add_le
  have hsample := r.size_pos
  refine ⟨fun a => if a = r.esp then 1 else 0, fun heq => ?_⟩
  have hfirst := congrArg (·[0]?) heq
  rw [getElem?_cells, getElem?_cells, if_pos hsample, if_pos hsample, Nat.add_zero,
    Nat.add_zero] at hfirst
  have hevent : r.byte (fun a => if a = r.esp then 1 else 0) r.pos = 1 := by
    unfold EventRing.byte
    rw [Nat.mod_eq_of_lt (by omega)]
    exact if_pos rfl
  have hother : r.byte (fun a => if a = r.esp then 1 else 0) k = 0 :=
    if_neg fun h => hk (Nat.add_left_cancel h)
  rw [hevent, hother] at hfirst
  exact absurd (Option.some.inj hfirst) (by decide)

/-- The event alone is what is wanted of every ring only if nothing else is. -/
theorem wantedFile_eq_event_iff (hsup : suppressEvent = 0 ∨ suppressEvent = 1) (h : Fits r s) :
    (∀ m, cells (r.byte m) r.pos sampleSize = wantedFile r suppressEvent s m) ↔
      s.pre = 0 ∧ s.post = 0 ∧ suppressEvent = 0 := by
  have hpos := r.pos_add_le
  have hsample := r.size_pos
  have hpre := h.pre_nonneg
  have hpost := h.post_nonneg
  have hfits := h.fits
  constructor
  · intro hall
    have hlength := congrArg List.length (hall fun _ => 0)
    unfold wantedFile at hall hlength
    rw [List.length_append, List.length_append, length_cells, length_cells] at hlength
    rcases hsup with rfl | rfl
    · rw [if_pos rfl, length_cells, length_cells] at hlength
      have hzero : s.pre.toNat * sampleSize = 0 ∧ s.post.toNat * sampleSize = 0 := by omega
      have hpre0 := (Nat.mul_eq_zero.mp hzero.1).resolve_right (Nat.ne_of_gt hsample)
      have hpost0 := (Nat.mul_eq_zero.mp hzero.2).resolve_right (Nat.ne_of_gt hsample)
      exact ⟨by omega, by omega, rfl⟩
    · exfalso
      rw [if_neg Int.one_ne_zero, List.length_nil, Nat.add_zero, length_cells,
        ← Nat.add_mul] at hlength
      simp only [if_neg Int.one_ne_zero, List.append_nil] at hall
      have hone : s.pre.toNat + s.post.toNat = 1 :=
        (Nat.mul_right_cancel hsample ((Nat.one_mul _).trans hlength)).symm
      have htwo : 2 * sampleSize ≤ r.size := Nat.mul_le_mul_right sampleSize (by omega)
      -- the one sample that is wanted is next to the event, on one side or on the other
      rcases (show s.pre.toNat = 1 ∧ s.post.toNat = 0 ∨ s.pre.toNat = 0 ∧ s.post.toNat = 1 by
        omega) with ⟨hp, hq⟩ | ⟨hp, hq⟩
      · have hne : (r.pos + r.size - sampleSize) % r.size ≠ r.pos := by
          by_cases hle : sampleSize ≤ r.pos
          · rw [show r.pos + r.size - sampleSize = r.pos - sampleSize + r.size by omega,
              Nat.add_mod_right, Nat.mod_eq_of_lt (by omega)]
            omega
          · rw [Nat.mod_eq_of_lt (by omega)]
            omega
        obtain ⟨m, hm⟩ := exists_ne_event r hne
        have heq := hall m
        rw [hp, hq, Nat.one_mul, Nat.zero_mul, cells_zero, List.append_nil] at heq
        exact hm heq
      · have hne : (r.pos + sampleSize) % r.size ≠ r.pos := by
          rcases Nat.lt_or_eq_of_le hpos with hlt | heq
          · rw [Nat.mod_eq_of_lt hlt]
            omega
          · rw [heq, Nat.mod_self]
            omega
        obtain ⟨m, hm⟩ := exists_ne_event r hne
        have heq := hall m
        rw [hp, hq, Nat.one_mul, Nat.zero_mul, cells_zero, List.nil_append] at heq
        exact hm heq
  · rintro ⟨hpre0, hpost0, rfl⟩ m
    unfold wantedFile
    rw [hpre0, hpost0, if_pos rfl, Int.toNat_zero, Nat.zero_mul, cells_zero, cells_zero,
      List.nil_append, List.append_nil]

/-- With little memory, the file is right if and only if no more than the event is asked for. -/
theorem fileRight_iff_event (hsup : suppressEvent = 0 ∨ suppressEvent = 1) {freebytes : Int}
    (hlow : s.lowMemory freebytes = true) :
    FileRight r suppressEvent freebytes s ↔
      (Fits r s → s.pre = 0 ∧ s.post = 0 ∧ suppressEvent = 0) := by
  have hsize := r.size_lt
  have hpos := r.pos_add_le
  have hsample := r.size_pos
  have hwrites : s.handleEvent r.b0 r.b1 r.esp sampleSize suppressEvent freebytes =
      [fwrite r.esp sampleSize] := by
    unfold handleEvent
    rw [hlow]
    rfl
  have hinside : r.Inside (fwrite r.esp sampleSize) := by
    have hesp : (r.esp : Int) = r.b0 + r.pos := Int.natCast_add _ _
    rw [hesp, r.inside_fwrite_iff (by omega) (by omega)]
    omega
  constructor
  · intro h hfits
    refine (wantedFile_eq_event_iff r hsup hfits).mp fun m => ?_
    have hm := h.content hfits m
    rw [hwrites, content_event] at hm
    exact hm
  · intro h
    refine ⟨?_, ?_⟩
    · rw [hwrites]
      exact List.forall_mem_singleton.mpr hinside
    · intro hfits m
      rw [hwrites, content_event]
      exact (wantedFile_eq_event_iff r hsup hfits).mpr (h hfits) m

/--
**The file of an event is right if and only if the lengths that the settings ask for are in bounds,
or, where memory is low, if they ask for no more than the event that is stored then.**
-/
theorem handleEvent_right_iff (s : MultiEventServer) {line : List Char}
    (haccepts : s.accepts line = true) (hsup : suppressEvent = 0 ∨ suppressEvent = 1)
    (freebytes : Int) :
    FileRight r suppressEvent freebytes (s.updatePrams sampleSize line) ↔
      if (s.updatePrams sampleSize line).lowMemory freebytes then
        Fits r (s.updatePrams sampleSize line) →
          (s.updatePrams sampleSize line).pre = 0 ∧ (s.updatePrams sampleSize line).post = 0 ∧
            suppressEvent = 0
      else InBounds r suppressEvent (s.updatePrams sampleSize line) := by
  cases hlow : (s.updatePrams sampleSize line).lowMemory freebytes with
  | true =>
      rw [if_pos rfl]
      exact fileRight_iff_event r hsup hlow
  | false =>
      rw [if_neg Bool.false_ne_true]
      exact fileRight_iff_inBounds r hsup (counted_of_accepts haccepts) hlow

end Content

/-! ### Ten samples -/

/-- Ten samples of sixteen bytes, with an event at the second one. -/
def tenSamples : EventRing 16 where
  b0 := MapBuffer.ba0
  samples := 10
  event := 1
  size_pos := Nat.zero_lt_succ 15
  event_lt := Nat.le_of_ble_eq_true rfl
  fits_int := Nat.le_of_ble_eq_true rfl

/-- Three samples before the event, two of which are at the end of the ring. -/
theorem tenSamples_right :
    FileRight tenSamples 0 1000000 (memory.updatePrams 16 ['3', ',', '4', ',', '5']) :=
  (handleEvent_right_iff tenSamples memory rfl (Or.inl rfl) 1000000).mpr
    ⟨by decide, by decide, by decide, by decide⟩

/-- One sample less than none is four billion bytes. -/
theorem minus_one_not_right :
    ¬∀ (sampleSize : Nat) (r : EventRing sampleSize) (s : MultiEventServer) (line : List Char)
      (suppressEvent freebytes : Int), s.accepts line = true →
        suppressEvent = 0 ∨ suppressEvent = 1 →
          FileRight r suppressEvent freebytes (s.updatePrams sampleSize line) := by
  intro h
  have hright := h 16 tenSamples memory ['-', '1', ',', '4', ',', '5'] 0 1000000 rfl (Or.inl rfl)
  have hinside := hright.inside { ptr := 0x40000020, n := 0xfffffff0 } (by decide) 0x1000
  exact absurd hinside (by decide)

end Acq400.MultiEventServer
