/-
The ring made linear at its corner.

The data of a transient runs round the ring: the pre samples, the event signature, the
post samples.  Where it goes over the corner `getSegments` sorts the buffers in time, so
that from buffer 1 on the data is in one piece.  It sorts the buffers from that of the
first pre sample to that of `finish`, and `finish` is `post` samples after the event,
with no room for the event signature that the segments then leave out between the two.
Where the signature is longer than a sample the end of the post data can be in buffers
after that one, which stay where the swaps happen to push them: `corner_turn_iff` says
that everything is as it should be exactly when they are pushed into place.
-/
import Acq400.Proofs.BufferSort

namespace Acq400

open MapBuffer

/-! ### The data on the ring -/

/-- The bytes from `ba_lo` to `ba_hi`. -/
def ringLen (g : G) : Nat := baHi g - baLo g

/-- An address that may have gone past `ba_hi`, taken back to the ring. -/
def ringAddr (g : G) (a : Nat) : Nat := baLo g + (a - baLo g) % ringLen g

/-- The bytes from `a` on, round the ring. -/
def ringBytes (g : G) (mem : Mem) (a len : Nat) : List UInt8 :=
  (List.range len).map fun t => mem (ringAddr g (a + t))

def Segment.bytes (mem : Mem) (seg : Segment) : List UInt8 :=
  (List.range seg.len).map fun t => mem (seg.base + t)

namespace PrePost

/-- The samples from `ba_lo` to the event, and from there to `ba_hi`. -/
def tailroom (g : PrePost) (esp : Nat) : Nat := g.b2s (esp - baLo g.toG)

def headroom (g : PrePost) (esp : Nat) : Nat := g.b2s (baHi g.toG - esp)

/-- Where the first pre sample is. -/
def firstPre (g : PrePost) (esp : Nat) : Nat :=
  if g.pre ≤ g.tailroom esp then esp - g.s2b g.pre
  else baHi g.toG - g.s2b (g.pre - g.tailroom esp)

/-- `post` samples after the event. -/
def finish (g : PrePost) (esp : Nat) : Nat :=
  if g.post ≤ g.headroom esp then baLo g.toG + g.s2b (g.tailroom esp) + g.s2b g.post
  else baLo g.toG + g.s2b (g.post - g.headroom esp)

/-- The last byte of the post data, which comes after the event signature. -/
def lastPost (g : PrePost) (esp : Nat) : Nat := g.finish esp + g.esSize - 1

def ibStart (g : PrePost) (esp : Nat) : Nat := getBuffer g.toG (g.firstPre esp)

def ibFin (g : PrePost) (esp : Nat) : Nat := getBuffer g.toG (g.finish esp)

def ibLast (g : PrePost) (esp : Nat) : Nat := getBuffer g.toG (g.lastPost esp)

end PrePost

/-- The data goes over the corner of the ring and does not meet its own tail. -/
structure TurnsCorner (g : PrePost) (esp : Nat) : Prop where
  sample_pos : 0 < g.sampleSize
  whole_buffers : g.sampleSize ∣ g.bufferlen
  esp_lo : baLo g.toG ≤ esp
  esp_hi : esp < baHi g.toG
  whole_samples : g.sampleSize ∣ esp - baLo g.toG
  one_fits : ¬(g.pre ≤ g.tailroom esp ↔ g.post ≤ g.headroom esp)
  first_mapped : baLo g.toG ≤ g.firstPre esp
  last_mapped : g.lastPost esp < baHi g.toG
  apart : g.ibLast esp < g.ibStart esp

/-- The segments of the data when it is in one piece around `esp`. -/
def linearSegments (g : PrePost) (esp : Nat) : List Segment :=
  { base := esp - g.s2b g.pre, len := g.s2b g.pre } ::
    ((if g.showEs then [{ base := esp, len := g.esSize }] else []) ++
      [{ base := esp + g.esSize, len := g.s2b g.post }])

/-- Every buffer from 1 on has what buffer `σ ib` had. -/
def MovesBuffers (g : G) (σ : Equiv.Perm Nat) (mem mem' : Mem) : Prop :=
  ∀ ib, 0 < ib → ∀ k, k < g.bufferlen →
    mem' (getBase g ib + k) = mem (getBase g (σ ib) + k)

/-- The buffers of the data are in time order from 1 on. -/
def InTimeOrder (g : PrePost) (esp : Nat) (σ : Equiv.Perm Nat) : Prop :=
  ∀ k, 0 < k → k ≤ timeLength g.toG (g.ibStart esp) (g.ibLast esp) →
    σ k = timeOrder g.toG (g.ibStart esp) k

/-- What `getSegments` is for: the data of the ring, in one piece. -/
structure Linearises (g : PrePost) (esp : Nat) (mem mem' : Mem) (bd : BufferDistribution) :
    Prop where
  /-- Whole buffers go from place to place, and those of the data are in time order. -/
  permuted : ∃ σ : Equiv.Perm Nat,
    (∀ ib, 0 < ib → ib < g.nbuffers → 0 < σ ib ∧ σ ib < g.nbuffers) ∧
      MovesBuffers g.toG σ mem mem' ∧ InTimeOrder g esp σ
  segments : bd.segments = linearSegments g bd.esp
  pre_bytes : Segment.bytes mem' { base := bd.esp - g.s2b g.pre, len := g.s2b g.pre }
    = ringBytes g.toG mem (esp + ringLen g.toG - g.s2b g.pre) (g.s2b g.pre)
  /-- `esp` is at the event as before. -/
  es_bytes : Segment.bytes mem' { base := bd.esp, len := g.esSize }
    = ringBytes g.toG mem esp g.esSize
  post_bytes : Segment.bytes mem' { base := bd.esp + g.esSize, len := g.s2b g.post }
    = ringBytes g.toG mem (esp + g.esSize) (g.s2b g.post)

/-- The buffers past that of `finish` that the data still reaches are pushed into place. -/
def SpillLands (g : PrePost) (esp : Nat) : Prop :=
  ∀ ib, g.ibFin esp < ib → ib ≤ g.ibLast esp →
    Place.Lands (timeOrder g.toG (g.ibStart esp))
      (timeLength g.toG (g.ibStart esp) (g.ibFin esp)) ib
      (timeLength g.toG (g.ibStart esp) ib)

/-! ### Addresses and buffers -/

theorem getBase_two (g : G) : getBase g 2 = baLo g := rfl

theorem getBase_nbuffers (g : G) : getBase g g.nbuffers = baHi g := rfl

theorem getBuffer_bounds {g : G} {a : Nat} (hlo : baLo g ≤ a) (hhi : a < baHi g) :
    2 ≤ getBuffer g a ∧ getBuffer g a < g.nbuffers ∧
      getBase g (getBuffer g a) ≤ a ∧ a < getBase g (getBuffer g a + 1) := by
  have hhi' : a < ba0 + g.nbuffers * g.bufferlen := hhi
  have hlo' : ba0 + 2 * g.bufferlen ≤ a := hlo
  have hpos : 0 < g.bufferlen := by
    apply Nat.pos_of_ne_zero
    intro hzero
    rw [hzero] at hhi' hlo'
    omega
  have heq : getBuffer g a = (a - ba0) / g.bufferlen := by
    unfold getBuffer ba1
    rw [if_neg (by omega), if_neg (by omega)]
  have hmod := Nat.div_add_mod (a - ba0) g.bufferlen
  have hlt := Nat.mod_lt (a - ba0) hpos
  have hcomm := Nat.mul_comm g.bufferlen ((a - ba0) / g.bufferlen)
  rw [heq]
  refine ⟨?_, ?_, ?_, ?_⟩
  · rw [Nat.le_div_iff_mul_le hpos]
    omega
  · rw [Nat.div_lt_iff_lt_mul hpos]
    omega
  · unfold getBase
    omega
  · rw [getBase_succ]
    unfold getBase
    omega

theorem getBuffer_mono {g : G} {a b : Nat} (hlo : baLo g ≤ a) (hle : a ≤ b) (hhi : b < baHi g) :
    getBuffer g a ≤ getBuffer g b := by
  have ha := getBuffer_bounds hlo (Nat.lt_of_le_of_lt hle hhi)
  have hb := getBuffer_bounds (Nat.le_trans hlo hle) hhi
  by_contra hlt
  have hmono := getBase_mono g (show getBuffer g b + 1 ≤ getBuffer g a by omega)
  omega

theorem ringAddr_add_ringLen {g : G} {a : Nat} (h : baLo g ≤ a) :
    ringAddr g (a + ringLen g) = ringAddr g a := by
  unfold ringAddr
  rw [Nat.sub_add_comm h, Nat.add_mod_right]

theorem ringAddr_of_lt {g : G} {a : Nat} (hlo : baLo g ≤ a) (hhi : a < baHi g) :
    ringAddr g a = a := by
  unfold ringAddr ringLen
  rw [Nat.mod_eq_of_lt (by omega)]
  omega

theorem bytes_eq_at {g : G} {mem mem' : Mem} {base a len t : Nat}
    (h : Segment.bytes mem' { base := base, len := len } = ringBytes g mem a len) (ht : t < len) :
    mem' (base + t) = mem (ringAddr g (a + t)) :=
  List.map_inj_left.mp h t (List.mem_range.mpr ht)

namespace TurnsCorner

variable {g : PrePost} {esp : Nat}

/-! ### Samples and bytes -/

theorem s2b_mono (g : G) {m n : Nat} (h : m ≤ n) : g.s2b m ≤ g.s2b n :=
  Nat.mul_le_mul_right _ h

theorem s2b_sub (g : G) (m n : Nat) : g.s2b (m - n) = g.s2b m - g.s2b n := Nat.sub_mul _ _ _

theorem s2b_b2s {g : G} {bytes : Nat} (h : g.sampleSize ∣ bytes) : g.s2b (g.b2s bytes) = bytes :=
  Nat.div_mul_cancel h

theorem ringLen_eq (g : G) : ringLen g = (g.nbuffers - 2) * g.bufferlen := by
  unfold ringLen baHi ba1 baLo
  rw [Nat.sub_mul]
  omega

theorem s2b_tailroom (h : TurnsCorner g esp) : g.s2b (g.tailroom esp) = esp - baLo g.toG :=
  s2b_b2s h.whole_samples

theorem s2b_headroom (h : TurnsCorner g esp) : g.s2b (g.headroom esp) = baHi g.toG - esp := by
  apply s2b_b2s
  have hring : g.sampleSize ∣ ringLen g.toG := by
    rw [ringLen_eq]
    exact Nat.dvd_mul_left_of_dvd h.whole_buffers _
  have hsub : baHi g.toG - esp = ringLen g.toG - (esp - baLo g.toG) := by
    have hlo := h.esp_lo
    unfold ringLen
    omega
  rw [hsub]
  exact Nat.dvd_sub hring h.whole_samples

/-- Where the first pre sample is and where `finish` is, in either case. -/
inductive Corner (g : PrePost) (esp : Nat) : Prop
  | pre (hpre : g.firstPre esp + g.s2b g.pre = esp + ringLen g.toG)
      (hpost : g.finish esp = esp + g.s2b g.post)
      (hlt : g.firstPre esp < baHi g.toG)
      (htail : ¬g.pre ≤ g.tailroom esp) (hhead : g.post ≤ g.headroom esp)
  | post (hpre : g.firstPre esp + g.s2b g.pre = esp)
      (hpost : g.finish esp + ringLen g.toG = esp + g.s2b g.post)
      (hlo : baLo g.toG ≤ g.finish esp)
      (htail : g.pre ≤ g.tailroom esp) (hhead : ¬g.post ≤ g.headroom esp)

theorem corner (h : TurnsCorner g esp) : Corner g esp := by
  have hlo := h.esp_lo
  have hhi := h.esp_hi
  have htail := h.s2b_tailroom
  have hhead := h.s2b_headroom
  have hfirst := h.first_mapped
  have hsam := h.sample_pos
  have hbalo : 0 < baLo g.toG := by
    unfold baLo ba0
    omega
  unfold PrePost.firstPre at hfirst
  by_cases hpre : g.pre ≤ g.tailroom esp
  · have hpost : ¬g.post ≤ g.headroom esp := by
      intro hpost
      exact h.one_fits ⟨fun _ => hpost, fun _ => hpre⟩
    have hmono := s2b_mono g.toG hpre
    have hmono' := s2b_mono g.toG (Nat.le_of_lt (Nat.not_le.mp hpost))
    rw [if_pos hpre] at hfirst
    apply Corner.post _ _ _ hpre hpost
    · unfold PrePost.firstPre
      rw [if_pos hpre]
      omega
    · unfold PrePost.finish ringLen
      rw [if_neg hpost, s2b_sub, hhead]
      omega
    · unfold PrePost.finish
      rw [if_neg hpost]
      omega
  · have hpost : g.post ≤ g.headroom esp := by
      by_contra hpost
      exact h.one_fits ⟨fun hc => absurd hc hpre, fun hc => absurd hc hpost⟩
    have hlt : g.tailroom esp + 1 ≤ g.pre := Nat.not_le.mp hpre
    have hmono := s2b_mono g.toG hlt
    have hsucc : g.s2b (g.tailroom esp + 1) = g.s2b (g.tailroom esp) + g.sampleSize :=
      Nat.succ_mul _ _
    rw [if_neg hpre, s2b_sub, htail] at hfirst
    apply Corner.pre _ _ _ hpre hpost
    · unfold PrePost.firstPre ringLen
      rw [if_neg hpre, s2b_sub, htail]
      omega
    · unfold PrePost.finish
      rw [if_pos hpost, htail]
      omega
    · unfold PrePost.firstPre
      rw [if_neg hpre, s2b_sub, htail]
      omega

/-! ### The buffers that are sorted -/

theorem finish_le_lastPost (h : TurnsCorner g esp) :
    g.finish esp ≤ g.lastPost esp ∧ g.lastPost esp + 1 = g.finish esp + g.esSize := by
  have hes := g.sampleSize_le_esSize
  have hsam := h.sample_pos
  unfold PrePost.lastPost
  omega

theorem baLo_le_finish (h : TurnsCorner g esp) : baLo g.toG ≤ g.finish esp := by
  have hlo := h.esp_lo
  cases h.corner with
  | pre hpre hpost _ _ _ => omega
  | post _ _ hlo _ _ => exact hlo

theorem firstPre_lt (h : TurnsCorner g esp) : g.firstPre esp < baHi g.toG := by
  have hhi := h.esp_hi
  cases h.corner with
  | pre _ _ hlt _ _ => exact hlt
  | post hpre _ _ _ _ => omega

theorem finish_lt (h : TurnsCorner g esp) : g.finish esp < baHi g.toG :=
  Nat.lt_of_le_of_lt h.finish_le_lastPost.1 h.last_mapped

theorem ibFin_le_ibLast (h : TurnsCorner g esp) : g.ibFin esp ≤ g.ibLast esp :=
  getBuffer_mono h.baLo_le_finish h.finish_le_lastPost.1 h.last_mapped

theorem start_bounds (h : TurnsCorner g esp) :
    2 ≤ g.ibStart esp ∧ g.ibStart esp < g.nbuffers ∧
      getBase g.toG (g.ibStart esp) ≤ g.firstPre esp :=
  have hbounds := getBuffer_bounds h.first_mapped h.firstPre_lt
  ⟨hbounds.1, hbounds.2.1, hbounds.2.2.1⟩

theorem last_bounds (h : TurnsCorner g esp) :
    g.ibLast esp < g.nbuffers ∧ g.lastPost esp < getBase g.toG (g.ibLast esp + 1) :=
  have hbounds := getBuffer_bounds (Nat.le_trans h.baLo_le_finish h.finish_le_lastPost.1)
    h.last_mapped
  ⟨hbounds.2.1, hbounds.2.2.2⟩

theorem atCorner (h : TurnsCorner g esp) :
    AtCorner g (g.ibStart esp) (g.ibFin esp) (getBuffer g.toG esp) esp := by
  have hesp := getBuffer_bounds h.esp_lo h.esp_hi
  have hfin := getBuffer_bounds h.baLo_le_finish h.finish_lt
  refine ⟨hfin.1, Nat.lt_of_le_of_lt h.ibFin_le_ibLast h.apart, h.start_bounds.2.1, hesp.1,
    hesp.2.1, ?_, hesp.2.2.1, ?_⟩
  · cases h.corner with
    | pre _ hpost _ _ _ =>
        left
        exact getBuffer_mono h.esp_lo (by omega) h.finish_lt
    | post hpre _ _ _ _ =>
        right
        exact getBuffer_mono h.first_mapped (by omega) h.esp_hi
  · have hlt := hesp.2.2.2
    rw [getBase_succ] at hlt
    omega

/-- `getSegments` sorts the buffers from that of the first pre sample to that of `finish`. -/
theorem getSegments_eq (h : TurnsCorner g esp) (mem : Mem) (ibuf : Nat) :
    BufferDistribution.getSegments g mem (BufferDistribution.new g ibuf esp 1)
      = BufferDistribution.sortToLinearBuffer g mem (BufferDistribution.new g ibuf esp 1)
          (g.firstPre esp) (g.finish esp) := by
  have hfresh : (BufferDistribution.new g ibuf esp 1).segments = [] := rfl
  rw [BufferDistribution.getSegments, if_pos hfresh]
  cases h.corner with
  | pre _ _ _ htail hhead =>
      have hmode : (BufferDistribution.new g ibuf esp 1).mode = .precorner := by
        unfold PrePost.tailroom at htail
        unfold PrePost.headroom at hhead
        simp [BufferDistribution.new, BufferDistribution.mode, htail, hhead]
      rw [hmode]
      simp only
      rw [BufferDistribution.getSegmentsPrecorner, PrePost.firstPre, if_neg htail, PrePost.finish,
        if_pos hhead]
      rfl
  | post _ _ _ htail hhead =>
      have hmode : (BufferDistribution.new g ibuf esp 1).mode = .postcorner := by
        unfold PrePost.tailroom at htail
        unfold PrePost.headroom at hhead
        simp [BufferDistribution.new, BufferDistribution.mode, htail, hhead]
      rw [hmode]
      simp only
      rw [BufferDistribution.getSegmentsPostcorner, PrePost.firstPre, if_pos htail, PrePost.finish,
        if_neg hhead]
      rfl

/-! ### Linear memory and the ring -/

/-- How far back linear memory is from the upper end of the ring. -/
def shift (g : PrePost) (esp : Nat) : Nat := (g.ibStart esp - 1) * g.bufferlen

/-- A byte of the buffer that is number `q` in time, on the ring. -/
theorem ringAddr_timeOrder (h : TurnsCorner g esp) {q j : Nat} (hq : 0 < q)
    (hle : q ≤ timeLength g.toG (g.ibStart esp) (g.ibLast esp)) (hj : j < g.bufferlen) :
    ringAddr g.toG (getBase g.toG q + j + shift g esp)
      = getBase g.toG (timeOrder g.toG (g.ibStart esp) q) + j := by
  obtain ⟨hstart, hslt, _⟩ := h.start_bounds
  have hapart := h.apart
  have hshift : getBase g.toG q + j + shift g esp
      = getBase g.toG (q + (g.ibStart esp - 1)) + j := by
    rw [getBase_add]
    unfold shift
    omega
  have hmapped : ∀ ib, 2 ≤ ib → ib < g.nbuffers →
      baLo g.toG ≤ getBase g.toG ib + j ∧ getBase g.toG ib + j < baHi g.toG := by
    intro ib hlo hhi
    have hlow := getBase_mono g.toG hlo
    have htop := getBase_mono g.toG (show ib + 1 ≤ g.nbuffers from hhi)
    rw [getBase_two] at hlow
    rw [getBase_succ, getBase_nbuffers] at htop
    omega
  rw [hshift]
  unfold timeLength at hle
  by_cases hup : q ≤ g.nbuffers - g.ibStart esp
  · have horder : timeOrder g.toG (g.ibStart esp) q = q + (g.ibStart esp - 1) := by
      unfold timeOrder
      rw [if_pos hup]
      omega
    obtain ⟨hlo, hhi⟩ := hmapped (q + (g.ibStart esp - 1)) (by omega) (by omega)
    rw [horder, ringAddr_of_lt hlo hhi]
  · have horder : timeOrder g.toG (g.ibStart esp) q = q - (g.nbuffers - g.ibStart esp) + 1 := by
      unfold timeOrder
      rw [if_neg hup]
    obtain ⟨hlo, hhi⟩ := hmapped (q - (g.nbuffers - g.ibStart esp) + 1) (by omega) (by omega)
    have hround : getBase g.toG (q + (g.ibStart esp - 1)) + j
        = getBase g.toG (q - (g.nbuffers - g.ibStart esp) + 1) + j + ringLen g.toG := by
      have hsum : q + (g.ibStart esp - 1)
          = (q - (g.nbuffers - g.ibStart esp) + 1) + (g.nbuffers - 2) := by omega
      rw [hsum, getBase_add, ringLen_eq]
      omega
    rw [horder, hround, ringAddr_add_ringLen hlo, ringAddr_of_lt hlo hhi]

/-- Where the event is after the sort, with the data around it in one piece from buffer 1 on. -/
structure Moved (g : PrePost) (esp esp' : Nat) : Prop where
  lo : getBase g.toG 1 + g.s2b g.pre ≤ esp'
  hi : esp' + g.esSize + g.s2b g.post
    ≤ getBase g.toG (timeLength g.toG (g.ibStart esp) (g.ibLast esp) + 1)
  round : (baLo g.toG + g.s2b g.pre ≤ esp ∧ esp' + shift g esp = esp) ∨
    esp' + shift g esp = esp + ringLen g.toG

theorem getBase_ibStart (h : TurnsCorner g esp) :
    getBase g.toG (g.ibStart esp) = getBase g.toG 1 + shift g esp := by
  have hstart := h.start_bounds.1
  unfold shift
  rw [← getBase_add]
  congr 1
  omega

theorem baHi_eq (h : TurnsCorner g esp) : baHi g.toG = baLo g.toG + ringLen g.toG := by
  have hslt := h.start_bounds
  rw [ringLen_eq, ← getBase_two, ← getBase_add, ← getBase_nbuffers]
  congr 1
  omega

/-- The end of the data in linear memory and on the ring. -/
theorem getBase_end (h : TurnsCorner g esp) :
    getBase g.toG (timeLength g.toG (g.ibStart esp) (g.ibLast esp) + 1) + shift g esp
      = getBase g.toG (g.ibLast esp + 1) + ringLen g.toG := by
  obtain ⟨hstart, hslt, _⟩ := h.start_bounds
  have hfin := h.atCorner.fin_lo
  have hle := h.ibFin_le_ibLast
  unfold shift timeLength
  rw [ringLen_eq, ← getBase_add, ← getBase_add]
  congr 1
  omega

section

variable {p : Nat}

theorem event_place (h : TurnsCorner g esp)
    (hp : arrangement g.toG (g.ibStart esp) (g.ibFin esp) p = getBuffer g.toG esp) {k : Nat}
    (hk : 0 < k) (hle : k ≤ timeLength g.toG (g.ibStart esp) (g.ibFin esp))
    (horder : timeOrder g.toG (g.ibStart esp) k = getBuffer g.toG esp) : p = k := by
  apply (arrangement g.toG (g.ibStart esp) (g.ibFin esp)).injective
  rw [hp, h.atCorner.arrangement_done hk hle, horder]

theorem event_upper (h : TurnsCorner g esp)
    (hp : arrangement g.toG (g.ibStart esp) (g.ibFin esp) p = getBuffer g.toG esp)
    (hin : g.ibStart esp ≤ getBuffer g.toG esp) :
    getBase g.toG p + shift g esp = getBase g.toG (getBuffer g.toG esp) := by
  have hstart := h.start_bounds.1
  have hlt := h.atCorner.esp_lt
  have hpk : p = getBuffer g.toG esp - g.ibStart esp + 1 := by
    apply h.event_place hp
    · omega
    · unfold timeLength
      omega
    · unfold timeOrder
      rw [if_pos (by omega)]
      omega
  unfold shift
  rw [hpk, ← getBase_add]
  congr 1
  omega

/-- An event after the corner goes up, to where the shift takes it once round. -/
theorem event_lower (h : TurnsCorner g esp)
    (hp : arrangement g.toG (g.ibStart esp) (g.ibFin esp) p = getBuffer g.toG esp)
    (hin : getBuffer g.toG esp ≤ g.ibFin esp) :
    getBase g.toG p + shift g esp = getBase g.toG (getBuffer g.toG esp) + ringLen g.toG := by
  obtain ⟨hstart, hslt, _⟩ := h.start_bounds
  have hlo := h.atCorner.esp_lo
  have hpk : p = g.nbuffers - g.ibStart esp + getBuffer g.toG esp - 1 := by
    apply h.event_place hp
    · omega
    · unfold timeLength
      omega
    · unfold timeOrder
      rw [if_neg (by omega)]
      omega
  unfold shift
  rw [hpk, ringLen_eq, ← getBase_add, ← getBase_add]
  congr 1
  omega

theorem moved (h : TurnsCorner g esp)
    (hp : arrangement g.toG (g.ibStart esp) (g.ibFin esp) p = getBuffer g.toG esp) :
    Moved g esp (getBase g.toG p + (esp - getBase g.toG (getBuffer g.toG esp))) := by
  have hesp := h.atCorner.esp_ge
  have hfirst := h.start_bounds.2.2
  have hfirstlo := h.first_mapped
  have hlast := h.last_bounds.2
  have hes := h.finish_le_lastPost.2
  -- linear memory and the ring by their distances
  have hone : getBase g.toG 2 = getBase g.toG 1 + g.bufferlen := getBase_succ _ _
  have hshift := h.getBase_ibStart
  have hring := h.baHi_eq
  have htop := h.getBase_end
  rw [getBase_two] at hone
  cases h.corner with
  | pre hpre hpost hlt _ _ =>
      have hbase := h.event_lower hp (getBuffer_mono h.esp_lo (by omega) h.finish_lt)
      refine ⟨?_, ?_, Or.inr ?_⟩
      · omega
      · omega
      · omega
  | post hpre hpost hlo _ _ =>
      have hbase := h.event_upper hp (getBuffer_mono h.first_mapped (by omega) h.esp_hi)
      refine ⟨?_, ?_, Or.inl ⟨?_, ?_⟩⟩
      · omega
      · omega
      · omega
      · omega

end

/-- Where the buffers of the data are in time order, linear memory is the ring. -/
theorem linear_byte (h : TurnsCorner g esp) {mem mem' : Mem} {σ : Equiv.Perm Nat}
    (hbytes : MovesBuffers g.toG σ mem mem') (horder : InTimeOrder g esp σ)
    {x : Nat} (hlo : getBase g.toG 1 ≤ x)
    (hhi : x < getBase g.toG (timeLength g.toG (g.ibStart esp) (g.ibLast esp) + 1)) :
    mem' x = mem (ringAddr g.toG (x + shift g esp)) := by
  have hpos := h.atCorner.bufferlen_pos
  have hmod := Nat.div_add_mod (x - ba0) g.bufferlen
  have hlt := Nat.mod_lt (x - ba0) hpos
  rw [Nat.mul_comm] at hmod
  have hx : x = getBase g.toG ((x - ba0) / g.bufferlen) + (x - ba0) % g.bufferlen := by
    unfold getBase at hlo ⊢
    omega
  generalize (x - ba0) / g.bufferlen = q at hx
  generalize (x - ba0) % g.bufferlen = j at hx hlt
  have hq : 0 < q := by
    by_contra hzero
    have hmono := getBase_mono g.toG (show q + 1 ≤ 1 by omega)
    rw [getBase_succ] at hmono
    omega
  have hqle : q ≤ timeLength g.toG (g.ibStart esp) (g.ibLast esp) := by
    by_contra hgt
    have hmono := getBase_mono g.toG
      (show timeLength g.toG (g.ibStart esp) (g.ibLast esp) + 1 ≤ q from Nat.not_le.mp hgt)
    omega
  rw [hx, hbytes q hq j hlt, horder q hq hqle, h.ringAddr_timeOrder hq hqle hlt]

theorem bytes_eq_ringBytes (h : TurnsCorner g esp) {mem mem' : Mem} {σ : Equiv.Perm Nat}
    (hbytes : MovesBuffers g.toG σ mem mem') (horder : InTimeOrder g esp σ)
    {base len a : Nat} (hlo : getBase g.toG 1 ≤ base)
    (hhi : base + len ≤ getBase g.toG (timeLength g.toG (g.ibStart esp) (g.ibLast esp) + 1))
    (ha : baLo g.toG ≤ a)
    (hround : base + shift g esp = a ∨ base + shift g esp = a + ringLen g.toG ∨
      (base + shift g esp + ringLen g.toG = a ∧ baLo g.toG ≤ base + shift g esp)) :
    Segment.bytes mem' { base := base, len := len } = ringBytes g.toG mem a len := by
  unfold Segment.bytes ringBytes
  apply List.map_congr_left
  intro t ht
  have hlen : t < len := List.mem_range.mp ht
  change mem' (base + t) = mem (ringAddr g.toG (a + t))
  rw [h.linear_byte hbytes horder (by omega) (by omega)]
  congr 1
  rcases hround with heq | heq | ⟨heq, hge⟩
  · congr 1
    omega
  · rw [← ringAddr_add_ringLen (show baLo g.toG ≤ a + t by omega)]
    congr 1
    omega
  · rw [← ringAddr_add_ringLen (show baLo g.toG ≤ base + t + shift g esp by omega)]
    congr 1
    omega

/-- The segments as `getSegmentsLinear` makes them when the data is in one buffer row. -/
theorem getSegmentsLinear_segments (g : PrePost) (bd : BufferDistribution)
    (hscale : bd.bdScale = 1) (hfresh : bd.segments = []) :
    (BufferDistribution.getSegmentsLinear g bd).segments = linearSegments g bd.esp := by
  simp [BufferDistribution.getSegmentsLinear, linearSegments, hscale, hfresh]

/-- What `getSegments` does, whether or not the data ends in the buffer of `finish`. -/
theorem getSegments_moves (h : TurnsCorner g esp) (ibuf : Nat) (mem : Mem) :
    ∃ mem' bd, BufferDistribution.getSegments g mem (BufferDistribution.new g ibuf esp 1)
        = some (mem', bd) ∧
      Moved g esp bd.esp ∧ bd.segments = linearSegments g bd.esp ∧
      MovesBuffers g.toG (arrangement g.toG (g.ibStart esp) (g.ibFin esp)) mem mem' := by
  obtain ⟨mem', p, hsort, hp, hbytes⟩ := AtCorner.sortToLinearBuffer_spec
    (BufferDistribution.new g ibuf esp 1) h.atCorner rfl rfl rfl mem
  rw [h.getSegments_eq]
  exact ⟨mem', _, hsort, h.moved hp, getSegmentsLinear_segments _ _ rfl rfl, hbytes⟩

/-! ### When all of it is in place -/

/-- A buffer past the one of `finish` is not sorted, and its place in time is past the sorted. -/
theorem spill_place (h : TurnsCorner g esp) {ib : Nat} (hlt : g.ibFin esp < ib)
    (hle : ib ≤ g.ibLast esp) :
    Place.Free (timeOrder g.toG (g.ibStart esp))
        (timeLength g.toG (g.ibStart esp) (g.ibFin esp)) ib ∧
      timeOrder g.toG (g.ibStart esp) (timeLength g.toG (g.ibStart esp) ib) = ib := by
  have hstart := h.start_bounds
  have hapart := h.apart
  have hfin := h.atCorner.fin_lo
  constructor
  · intro i hi hile
    unfold timeLength at hile
    unfold timeOrder
    split_ifs <;> omega
  · unfold timeLength timeOrder
    rw [if_neg (by omega)]
    omega

theorem arrangement_spill_iff (h : TurnsCorner g esp) :
    SpillLands g esp ↔ InTimeOrder g esp (arrangement g.toG (g.ibStart esp) (g.ibFin esp)) := by
  have hat := h.atCorner
  have hfin := hat.fin_lo
  constructor
  · intro hspill k hk hle
    by_cases hsorted : k ≤ timeLength g.toG (g.ibStart esp) (g.ibFin esp)
    · exact hat.arrangement_done hk hsorted
    · -- number `k` in time is the buffer `k` is the place of
      have hk' : k = timeLength g.toG (g.ibStart esp) (k + 1 - (g.nbuffers - g.ibStart esp)) := by
        unfold timeLength at hsorted hle ⊢
        omega
      have hlt : g.ibFin esp < k + 1 - (g.nbuffers - g.ibStart esp) := by
        unfold timeLength at hsorted
        omega
      have hle' : k + 1 - (g.nbuffers - g.ibStart esp) ≤ g.ibLast esp := by
        unfold timeLength at hle
        omega
      generalize k + 1 - (g.nbuffers - g.ibStart esp) = ib at hk' hlt hle'
      subst hk'
      obtain ⟨hfree, horder⟩ := h.spill_place hlt hle'
      rw [horder]
      exact (Place.place_eq_iff hat.timeOrder_within.distinct hfree).mpr (hspill ib hlt hle')
  · intro horder ib hlt hle
    obtain ⟨hfree, hself⟩ := h.spill_place hlt hle
    apply (Place.place_eq_iff hat.timeOrder_within.distinct hfree).mp
    have hplace := horder (timeLength g.toG (g.ibStart esp) ib) (by unfold timeLength; omega)
      (by unfold timeLength; omega)
    rw [hself] at hplace
    exact hplace

/-- The moves of `getSegments` are all right if the buffers of the data are in time order. -/
theorem linearises_of_order (h : TurnsCorner g esp) {mem mem' : Mem} {bd : BufferDistribution}
    (hmoved : Moved g esp bd.esp) (hsegs : bd.segments = linearSegments g bd.esp)
    (hbytes : MovesBuffers g.toG (arrangement g.toG (g.ibStart esp) (g.ibFin esp)) mem mem')
    (horder : InTimeOrder g esp (arrangement g.toG (g.ibStart esp) (g.ibFin esp))) :
    Linearises g esp mem mem' bd := by
  have hlo := hmoved.lo
  have hhi := hmoved.hi
  have hesplo := h.esp_lo
  have hone : baLo g.toG = getBase g.toG 1 + g.bufferlen := getBase_succ _ _
  have hshift : g.bufferlen ≤ shift g esp := by
    have hstart := h.start_bounds.1
    exact Nat.le_mul_of_pos_left _ (by omega)
  refine ⟨⟨_, ?_, hbytes, horder⟩, hsegs, ?_, ?_, ?_⟩
  · intro ib hib hlt
    exact ⟨h.atCorner.timeOrder_within.place_pos (Nat.le_refl _) hib,
      h.atCorner.timeOrder_within.place_lt (Nat.le_refl _) hlt⟩
  · apply h.bytes_eq_ringBytes hbytes horder
    · omega
    · omega
    · rcases hmoved.round with ⟨hfits, _⟩ | hround
      · omega
      · omega
    · rcases hmoved.round with ⟨hfits, hround⟩ | hround
      · exact Or.inr (Or.inr (by omega))
      · exact Or.inl (by omega)
  · apply h.bytes_eq_ringBytes hbytes horder
    · omega
    · omega
    · exact hesplo
    · rcases hmoved.round with ⟨_, hround⟩ | hround
      · exact Or.inl hround
      · exact Or.inr (Or.inl hround)
  · apply h.bytes_eq_ringBytes hbytes horder
    · omega
    · omega
    · omega
    · rcases hmoved.round with ⟨_, hround⟩ | hround
      · exact Or.inl (by omega)
      · exact Or.inr (Or.inl (by omega))

/-- Nothing is left out if the data ends in the buffer of `finish`. -/
theorem spillLands_of_lt (h : TurnsCorner g esp)
    (hlt : g.lastPost esp < getBase g.toG (g.ibFin esp + 1)) : SpillLands g esp := by
  intro ib hfin hlast
  have hbounds := getBuffer_bounds (Nat.le_trans h.baLo_le_finish h.finish_le_lastPost.1)
    h.last_mapped
  have hmono := getBase_mono g.toG (show g.ibFin esp + 1 ≤ g.ibLast esp by omega)
  unfold PrePost.ibLast at hmono
  omega

/-- The data ends there if the event signature is one sample. -/
theorem spillLands_of_one_sample (h : TurnsCorner g esp) (hone : g.esSize = g.sampleSize) :
    SpillLands g esp := by
  apply h.spillLands_of_lt
  have hlast := h.finish_le_lastPost.2
  have hlt := (getBuffer_bounds h.baLo_le_finish h.finish_lt).2.2.2
  have hlo := (getBuffer_bounds h.baLo_le_finish h.finish_lt).1
  have hsam := h.sample_pos
  -- `finish` and the end of its buffer are whole samples apart
  have hfin : g.sampleSize ∣ g.finish esp - baLo g.toG := by
    unfold PrePost.finish
    split
    · rw [Nat.add_assoc, Nat.add_sub_cancel_left]
      exact Nat.dvd_add (Nat.dvd_mul_left _ _) (Nat.dvd_mul_left _ _)
    · rw [Nat.add_sub_cancel_left]
      exact Nat.dvd_mul_left _ _
  have hend : g.sampleSize ∣ getBase g.toG (g.ibFin esp + 1) - baLo g.toG := by
    have hsum : g.ibFin esp + 1 = 2 + (g.ibFin esp + 1 - 2) := by
      unfold PrePost.ibFin
      omega
    rw [hsum, getBase_add, getBase_two, Nat.add_sub_cancel_left]
    exact Nat.dvd_mul_left_of_dvd h.whole_buffers _
  have hbalo := h.baLo_le_finish
  have hgap := Nat.le_of_dvd (by unfold PrePost.ibFin; omega) (Nat.dvd_sub hend hfin)
  unfold PrePost.ibFin at hgap ⊢
  omega

/-- What the sort leaves in the places of the data, if the result is all right. -/
theorem order_of_linearises (h : TurnsCorner g esp) {mem mem' : Mem} {bd : BufferDistribution}
    (hlin : Linearises g esp mem mem' bd)
    (hbytes : MovesBuffers g.toG (arrangement g.toG (g.ibStart esp) (g.ibFin esp)) mem mem')
    {k : Nat} (hk : 0 < k) (hle : k ≤ timeLength g.toG (g.ibStart esp) (g.ibLast esp)) :
    mem (getBase g.toG (arrangement g.toG (g.ibStart esp) (g.ibFin esp) k))
      = mem (getBase g.toG (timeOrder g.toG (g.ibStart esp) k)) := by
  obtain ⟨σ, _, hσ, horder⟩ := hlin.permuted
  have hpos := h.atCorner.bufferlen_pos
  have hleft := hbytes k hk 0 hpos
  have hright := hσ k hk 0 hpos
  rw [horder k hk hle] at hright
  exact hleft.symm.trans hright

end TurnsCorner

theorem getBase_inj {g : G} (hpos : 0 < g.bufferlen) {ib ib' : Nat}
    (h : getBase g ib = getBase g ib') : ib = ib' :=
  Nat.eq_of_mul_eq_mul_right hpos (Nat.add_left_cancel h)

/-- **The data is linear exactly when what `finish` leaves out lands in place.** -/
theorem corner_turn_iff (g : PrePost) (ibuf esp : Nat) (h : TurnsCorner g esp) :
    (∀ mem, ∃ mem' bd, BufferDistribution.getSegments g mem (BufferDistribution.new g ibuf esp 1)
        = some (mem', bd) ∧ Linearises g esp mem mem' bd) ↔ SpillLands g esp := by
  constructor
  · intro hall
    apply h.arrangement_spill_iff.mpr
    intro k hk hle
    -- a memory that tells the first byte of the right buffer from all others
    obtain ⟨mem', bd, hrun, hlin⟩ := hall fun a =>
      if a = getBase g.toG (timeOrder g.toG (g.ibStart esp) k) then 1 else 0
    obtain ⟨mem'', bd', hrun', _, _, hbytes⟩ := h.getSegments_moves ibuf _
    rw [hrun] at hrun'
    cases hrun'
    have hbyte := h.order_of_linearises hlin hbytes hk hle
    simp only at hbyte
    by_contra hne
    rw [if_neg fun heq => hne (getBase_inj h.atCorner.bufferlen_pos heq)] at hbyte
    simp at hbyte
  · intro hspill mem
    obtain ⟨mem', bd, hrun, hmoved, hsegs, hbytes⟩ := h.getSegments_moves ibuf mem
    exact ⟨mem', bd, hrun,
      h.linearises_of_order hmoved hsegs hbytes (h.arrangement_spill_iff.mp hspill)⟩

/-- 32 channels of 16 bits in one module, whose event signature is one sample. -/
private def oneSampleEs : PrePost :=
  { nchan := 32, wordsize := 2, doubleUp := false, bufferlen := 4096, nbuffers := 10
    isAcq480 := false, site := some (32, false), pre := 100, post := 200, showEs := false }

theorem corner_turn_one_sample :
    ∃ mem' bd, BufferDistribution.getSegments oneSampleEs (fun a => UInt8.ofNat a)
        (BufferDistribution.new oneSampleEs 0 (getBase oneSampleEs.toG 8 + 640) 1)
          = some (mem', bd) ∧
      Linearises oneSampleEs (getBase oneSampleEs.toG 8 + 640)
        (fun a => UInt8.ofNat a) mem' bd := by
  have h : TurnsCorner oneSampleEs (getBase oneSampleEs.toG 8 + 640) := by
    constructor <;> decide
  exact (corner_turn_iff oneSampleEs 0 _ h).mpr (h.spillLands_of_one_sample (by decide)) _

/-- Eight channels of 16 bits in one module, whose event signature is two samples. -/
private def twoSampleEs : PrePost :=
  { nchan := 8, wordsize := 2, doubleUp := false, bufferlen := 4096, nbuffers := 10
    isAcq480 := false, site := some (8, false), pre := 768, post := 255, showEs := false }

/-- With the event at the start of buffer 3 the last byte of the post data is in buffer 4. -/
theorem corner_turn_loses_post :
    TurnsCorner twoSampleEs (getBase twoSampleEs.toG 3) ∧
      ∃ mem mem' bd, BufferDistribution.getSegments twoSampleEs mem
          (BufferDistribution.new twoSampleEs 0 (getBase twoSampleEs.toG 3) 1)
            = some (mem', bd) ∧
        Segment.bytes mem' { base := bd.esp + twoSampleEs.esSize, len := twoSampleEs.s2b 255 }
          ≠ ringBytes twoSampleEs.toG mem (getBase twoSampleEs.toG 3 + twoSampleEs.esSize)
              (twoSampleEs.s2b 255) := by
  have h : TurnsCorner twoSampleEs (getBase twoSampleEs.toG 3) := by
    constructor <;> decide
  refine ⟨h, fun a => if a = getBase twoSampleEs.toG 4 then 1 else 0, ?_⟩
  obtain ⟨mem', bd, hrun, hmoved, _, hbytes⟩ := h.getSegments_moves 0
    fun a => if a = getBase twoSampleEs.toG 4 then 1 else 0
  refine ⟨mem', bd, hrun, ?_⟩
  intro heq
  -- buffer 3 went to 4, and buffer 5 is where it was
  have hesp : bd.esp = getBase twoSampleEs.toG 4 := by
    have hshift : TurnsCorner.shift twoSampleEs (getBase twoSampleEs.toG 3) = 7 * 4096 := by
      decide
    have hring : ringLen twoSampleEs.toG = 8 * 4096 := by decide
    have hbase : getBase twoSampleEs.toG 4 = getBase twoSampleEs.toG 3 + 4096 := getBase_succ _ _
    have hlow : ¬baLo twoSampleEs.toG + twoSampleEs.s2b twoSampleEs.pre
        ≤ getBase twoSampleEs.toG 3 := by
      decide
    rcases hmoved.round with ⟨hlo, _⟩ | hround
    · exact absurd hlo hlow
    · omega
  have hstay : arrangement twoSampleEs.toG
      (twoSampleEs.ibStart (getBase twoSampleEs.toG 3))
      (twoSampleEs.ibFin (getBase twoSampleEs.toG 3)) 5 = 5 := by
    decide
  have hlin : mem' (getBase twoSampleEs.toG 5) = 0 := by
    have hbyte := hbytes 5 (by omega) 0 h.atCorner.bufferlen_pos
    rw [hstay, Nat.add_zero] at hbyte
    rw [hbyte]
    exact if_neg (by decide)
  have hat := bytes_eq_at heq (show 4064 < twoSampleEs.s2b 255 by decide)
  have hleft : bd.esp + twoSampleEs.esSize + 4064 = getBase twoSampleEs.toG 5 := by
    rw [hesp]
    decide
  have hright : ringAddr twoSampleEs.toG
      (getBase twoSampleEs.toG 3 + twoSampleEs.esSize + 4064) = getBase twoSampleEs.toG 4 := by
    decide
  rw [hleft, hlin, hright, if_pos rfl] at hat
  simp at hat

end Acq400
