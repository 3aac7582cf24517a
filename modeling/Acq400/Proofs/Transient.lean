/-
A transient from the ring to the files of its channels.

The data runs round the ring: the pre samples, the event signature, the post samples.  The
segments that `postProcess` goes through take them in that order, wherever the data is and
wherever the sort has moved it to.  The demux in place lays the samples of all segments out by
channels, over the buffers that they were captured in, and the file of a channel goes over its
part of each buffer.  Word `w` of the channel is at one place for both, so the file has the
channel's words in the order in which they were captured.
-/
import Acq400.Proofs.ChanFile
import Acq400.Proofs.CornerTurn
import Acq400.Proofs.Demux

namespace Acq400

open Memory Reads

namespace Demuxer

variable {g : G}

theorem channelBufferSam_pos (h : WholeSamples g) (hpos : 0 < g.bufferlen) :
    0 < channelBufferSam g := by
  by_contra hzero
  have hlen := h.bufferlen_eq
  rw [Nat.eq_zero_of_not_pos hzero, Nat.zero_mul] at hlen
  omega

theorem TakesIn.word (h : WholeSamples g) {segs : List Segment} {d d' : Demuxer}
    (htakes : TakesIn g 0 d (sampleAddrs g segs) d') (hcbs : 0 < channelBufferSam g)
    (hsrc : ∀ s a, (sampleAddrs g segs)[s]? = some a →
      MapBuffer.ba0 + g.bufferlen + s * g.sampleSize ≤ a ∧ a + g.sampleSize ≤ MapBuffer.ba1 g)
    {s a c k : Nat} (hs : (sampleAddrs g segs)[s]? = some a) (hc : c < g.nchan)
    (hk : k < g.wordsize) :
    d'.mem (sampleWord g s c + k) = d.mem (a + c * g.wordsize + k) := by
  have hread : ReadBehind g 0 (sampleAddrs g segs) := by
    intro i b hb
    rw [Nat.zero_add]
    exact (hsrc i b hb).1
  have hmem : ({ dst := sampleWord g s c, src := a + c * g.wordsize, len := g.wordsize } : Move) ∈
      movesFrom g 0 (sampleAddrs g segs) := by
    refine (mem_movesFrom _ 0).mpr ⟨s, a, hs, ?_⟩
    rw [Nat.zero_add]
    exact mem_sampleMoves.mpr ⟨c, hc, rfl⟩
  rw [htakes.mem]
  exact runMoves_get _ _ (movesFrom_undisturbed h hcbs _ 0 hread) _ hmem hk

end Demuxer

namespace A400Fs

/-- The bytes of the buffers, where the stream program maps them. -/
def mapped (fs : A400Fs) (mem : Mem) : Nat × Nat → UInt8 := fun (ibuf, i) =>
  mem (MapBuffer.getBase fs.geometry ibuf + i)

/-- Byte `f` of the words of channel `c`, of the samples at these addresses. -/
def channelByte (fs : A400Fs) (addrs : List Nat) (mem : Mem) (c f : Nat) : UInt8 :=
  mem (addrs.getD (f / fs.wordSize) 0 + c * fs.wordSize + f % fs.wordSize)

theorem demuxed_of_takesIn {fs : A400Fs} (h : Demuxer.WholeSamples fs.geometry)
    (hcbs : 0 < fs.channelBufferSam) {segs : List Segment} {d d' : Demuxer}
    (htakes : Demuxer.TakesIn fs.geometry 0 d (Demuxer.sampleAddrs fs.geometry segs) d')
    (hsrc : ∀ s a, (Demuxer.sampleAddrs fs.geometry segs)[s]? = some a →
      MapBuffer.ba0 + fs.bufferlen + s * fs.geometry.sampleSize ≤ a ∧
        a + fs.geometry.sampleSize ≤ MapBuffer.ba1 fs.geometry)
    (hns : fs.nsamples ≤ (Demuxer.sampleAddrs fs.geometry segs).length) :
    fs.Demuxed (fs.mapped d'.mem)
      (fs.channelByte (Demuxer.sampleAddrs fs.geometry segs) d.mem) := by
  intro c hc f hf
  have hws : 0 < fs.wordSize := h.word
  have hs : f / fs.wordSize < (Demuxer.sampleAddrs fs.geometry segs).length :=
    Nat.lt_of_lt_of_le ((Nat.div_lt_iff_lt_mul hws).mpr hf) hns
  have hget := List.getElem?_eq_getElem hs
  have hword := htakes.word h hcbs hsrc hget hc (Nat.mod_lt f hws)
  unfold mapped channelByte demuxedAt
  rw [List.getD_eq_getElem?_getD, hget, Option.getD_some]
  refine Eq.trans ?_ hword
  show d'.mem (_ + ((_ + _) * fs.wordSize + _)) = d'.mem (_ + (_ + _) * fs.wordSize + _)
  rw [← Nat.add_assoc]
  rfl

/--
Where the samples of the segments are read from inside the mapping, behind the first buffer and
the samples before them, the files of the channels have the words of all samples in order.
-/
theorem segments_channel_file (fs : A400Fs) (hn : 1 ≤ fs.nchan)
    (hws : fs.wordSize = 2 ∨ fs.wordSize = 4) (hdvd : fs.geometry.sampleSize ∣ fs.bufferlen)
    (hpos : 0 < fs.bufferlen) (hlen : fs.bufferlen < 2 ^ 31) (hcooked : fs.isCooked = true)
    (hpcomp : fs.pcomp = 0) (segs : List Segment)
    (hwhole : ∀ seg ∈ segs, fs.geometry.sampleSize ∣ seg.len)
    (hsrc : ∀ s a, (Demuxer.sampleAddrs fs.geometry segs)[s]? = some a →
      MapBuffer.ba0 + fs.bufferlen + s * fs.geometry.sampleSize ≤ a ∧
        a + fs.geometry.sampleSize ≤ MapBuffer.ba1 fs.geometry)
    (hns : fs.nsamples ≤ (Demuxer.sampleAddrs fs.geometry segs).length)
    (hset : fs.nsamples * fs.wordSize < 2 ^ 31) (mem : Mem) :
    ∃ fuel₀ d, (∀ fuel, fuel₀ ≤ fuel →
        Demuxer.demuxSegments fs.geometry fuel (.start fs.geometry mem) segs = some d) ∧
      ∀ (map : InodeMap) (c : Nat) (heap : Nat → Nat → UInt8) (counts : Nat → Nat),
        1 ≤ map.channel → map.channel ≤ fs.nchanEnabled map.adev →
        fs.chanOffsetW map = c → c < fs.nchan → c * fs.bufferlen < 2 ^ 31 →
        (∀ k, 1 ≤ counts k) →
        ∃ file, (fs.withBuffers (fs.mapped d.mem)).a400fsOpen map heap = some file ∧
          ReadsTo (fs.readCooked (fs.mapped d.mem)) file counts
            (cells (fs.channelByte (Demuxer.sampleAddrs fs.geometry segs) mem c) 0
              (fs.nsamples * fs.wordSize)) := by
  have hwordpos : 0 < fs.wordSize := by omega
  have h : Demuxer.WholeSamples fs.geometry := ⟨hn, hwordpos, rfl, hdvd⟩
  have hat : Demuxer.AtSample fs.geometry 0 (Demuxer.start fs.geometry mem).dst := by
    refine ⟨?_, rfl, ?_⟩
    · simp [Demuxer.start, BufferCursor.init]
    · simp [Demuxer.start, BufferCursor.init]
  have hcbs : 0 < fs.channelBufferSam := Demuxer.channelBufferSam_pos h hpos
  obtain ⟨fuel₀, d, hrun, htakes⟩ := Demuxer.demuxSegments_takesIn h segs 0 _ hat hwhole
    fun _ => hcbs
  refine ⟨fuel₀, d, hrun, fun map c heap counts hchan henabled hoff hc hopen hcounts => ?_⟩
  have hdemuxed := demuxed_of_takesIn h hcbs htakes hsrc hns
  -- a channel has whole words of a buffer
  have hdvd' : fs.nchan * fs.wordSize ∣ fs.bufferlen := hdvd
  have hwhole' : fs.wordSize ∣ fs.chanBytes := by
    obtain ⟨q, hq⟩ := hdvd'
    refine ⟨q, ?_⟩
    rw [chanBytes, hq, Nat.mul_assoc, Nat.mul_div_cancel_left _ hn]
  have hrem : fs.bufferlen % fs.nchan = 0 :=
    Nat.mod_eq_zero_of_dvd ((Nat.dvd_mul_right _ _).trans hdvd')
  have hbytes : 0 < fs.chanBytes :=
    Nat.pos_of_ne_zero fun hzero => by
      unfold channelBufferSam Demuxer.channelBufferSam at hcbs
      have hcbs' : 0 < fs.chanBytes / fs.wordSize := hcbs
      rw [hzero, Nat.zero_div] at hcbs'
      omega
  refine ⟨_, a400fsOpen_cooked (fs.withBuffers _) hcooked hn (by omega) hoff hopen heap, ?_⟩
  have hstart : CookedAt fs c ((fs.withBuffers (fs.mapped d.mem)).cookedFile map c heap) 0 :=
    ⟨rfl, rfl, rfl, henabled⟩
  have hreads := readsTo_cooked (fs.mapped d.mem) hpcomp hn hbytes hlen hc hset hstart hcounts
  have hsame : cells (fun f => fs.mapped d.mem (fs.cookedAt c f)) 0 (fs.nsamples * fs.wordSize) =
      cells (fs.channelByte (Demuxer.sampleAddrs fs.geometry segs) mem c) 0
        (fs.nsamples * fs.wordSize) := by
    refine cells_congr fun f _ hf => ?_
    rw [cookedAt_of_whole hn hwhole' (by rw [hrem]; omega), hdemuxed c hc f (by omega)]
    rfl
  rwa [hsame] at hreads

end A400Fs

/-! ### The samples on the ring -/

namespace PrePost

/-- What lies between the first sample and sample `s` and is left out of the data. -/
def skipped (g : PrePost) (s : Nat) : Nat :=
  if g.pre = 0 ∨ s < g.pre ∨ g.showEs then 0 else g.esSize

/-- Where sample `s` of the data is, counted on past the end of the ring. -/
def sampleAt (g : PrePost) (esp s : Nat) : Nat :=
  esp + ringLen g.toG - g.s2b g.pre + (g.s2b s + g.skipped s)

/-- The samples of the data. -/
def samples (g : PrePost) : Nat :=
  g.pre + ((if g.pre ≠ 0 ∧ g.showEs then g.b2s g.esSize else 0) + g.post)

/-- Byte `f` of the words of channel `c`, as the ring has them. -/
def ringByte (g : PrePost) (esp : Nat) (mem : Mem) (c f : Nat) : UInt8 :=
  mem (ringAddr g.toG (g.sampleAt esp (f / g.wordsize) + (c * g.wordsize + f % g.wordsize)))

theorem notifyResult_le (g : PrePost) : g.notifyResult ≤ g.samples := by
  unfold notifyResult samples
  omega

theorem sampleSize_dvd_esSize (g : PrePost) : g.sampleSize ∣ g.esSize := by
  have hn : g.nchan ∣ getNchanES g.isAcq480 g.site g.nchan := by
    unfold getNchanES
    split
    · exact Nat.dvd_refl _
    · split
      · exact Nat.dvd_refl _
      · exact Nat.dvd_mul_right _ _
  exact Nat.mul_dvd_mul_right hn _

theorem sample_inside (g : PrePost) {s : Nat} (hs : s < g.samples) :
    g.s2b s + g.skipped s + g.sampleSize ≤ g.s2b g.pre + g.esSize + g.s2b g.post := by
  have hsucc : g.s2b s + g.sampleSize = g.s2b (s + 1) := (Nat.succ_mul _ _).symm
  have hle : g.s2b (s + 1) ≤ g.s2b g.samples := Nat.mul_le_mul_right _ hs
  have hsum : g.s2b g.samples = g.s2b g.pre +
      (g.s2b (if g.pre ≠ 0 ∧ g.showEs then g.b2s g.esSize else 0) + g.s2b g.post) := by
    simp only [samples, G.s2b, Nat.add_mul]
  have hes : g.s2b (g.b2s g.esSize) = g.esSize := Nat.div_mul_cancel g.sampleSize_dvd_esSize
  unfold skipped
  split at hsum
  · next hshow => rw [if_pos (Or.inr (Or.inr hshow.2))]; omega
  · have hzero : g.s2b 0 = 0 := Nat.zero_mul _
    split <;> omega

end PrePost

/--
The data of a transient with its event at `esp` is on the ring: the post samples alone from there
on, or all of it without a corner, or round a corner that the sort makes good.
-/
inductive Captured (g : PrePost) (esp : Nat) : Prop
  | postOnly (hpre : g.pre = 0) (hlo : MapBuffer.baLo g.toG ≤ esp)
      (hhi : esp + g.s2b g.post ≤ MapBuffer.baHi g.toG)
  | linear (hpre : g.pre ≠ 0) (hlo : MapBuffer.baLo g.toG + g.s2b g.pre ≤ esp)
      (hhi : esp + g.esSize + g.s2b g.post ≤ MapBuffer.baHi g.toG)
  | corner (hpre : g.pre ≠ 0) (hturns : TurnsCorner g esp) (hspill : SpillLands g esp)

/-- What the demux goes through has the samples of the ring in order. -/
structure AsCaptured (g : PrePost) (esp : Nat) (mem mem' : Mem) (segs : List Segment) : Prop where
  whole : ∀ seg ∈ segs, g.sampleSize ∣ seg.len
  length : (Demuxer.sampleAddrs g.toG segs).length = g.samples
  /-- They come behind the first buffer and the samples before them. -/
  behind : ∀ s a, (Demuxer.sampleAddrs g.toG segs)[s]? = some a →
    MapBuffer.getBase g.toG 1 + g.s2b s ≤ a ∧ a + g.sampleSize ≤ MapBuffer.baHi g.toG
  byte : ∀ s a k, (Demuxer.sampleAddrs g.toG segs)[s]? = some a → k < g.sampleSize →
    mem' (a + k) = mem (ringAddr g.toG (g.sampleAt esp s + k))

/-- The data is in one piece around `esp'`. -/
structure InOnePiece (g : PrePost) (esp esp' : Nat) (mem mem' : Mem) : Prop where
  lo : MapBuffer.getBase g.toG 1 + g.s2b g.pre ≤ esp'
  hi : esp' + g.esSize + g.s2b g.post ≤ MapBuffer.baHi g.toG
  byte : ∀ x, x < g.s2b g.pre + g.esSize + g.s2b g.post →
    mem' (esp' - g.s2b g.pre + x) =
      mem (ringAddr g.toG (esp + ringLen g.toG - g.s2b g.pre + x))

section

variable {g : PrePost} {esp esp' : Nat} {mem mem' : Mem}

/-! ### The samples of the segments -/

theorem b2s_s2b (hpos : 0 < g.sampleSize) (n : Nat) : g.b2s (g.s2b n) = n :=
  Nat.mul_div_cancel _ hpos

theorem sampleAddrs_linear (hpos : 0 < g.sampleSize) (hpre : g.pre ≠ 0)
    (hlo : g.s2b g.pre ≤ esp') :
    Demuxer.sampleAddrs g.toG (linearSegments g esp') =
      (List.range g.samples).map fun s => esp' - g.s2b g.pre + (g.s2b s + g.skipped s) := by
  have hes : g.s2b (g.b2s g.esSize) = g.esSize := Nat.div_mul_cancel g.sampleSize_dvd_esSize
  have hadd : ∀ m n, g.s2b (m + n) = g.s2b m + g.s2b n := fun m n => Nat.add_mul _ _ _
  have hblock : ∀ start n, Demuxer.blockAddrs g.toG start n =
      (List.range n).map fun s => start + g.s2b s := fun _ _ => rfl
  have hsamples : Demuxer.sampleAddrs g.toG (linearSegments g esp') =
      Demuxer.blockAddrs g.toG (esp' - g.s2b g.pre) g.pre ++
        ((if g.showEs then Demuxer.blockAddrs g.toG esp' (g.b2s g.esSize) else []) ++
          Demuxer.blockAddrs g.toG (esp' + g.esSize) g.post) := by
    unfold linearSegments Demuxer.sampleAddrs
    rw [List.flatMap_cons, List.flatMap_append, List.flatMap_singleton, b2s_s2b hpos,
      b2s_s2b hpos]
    split
    · rw [List.flatMap_singleton]
    · rfl
  rw [hsamples]
  unfold PrePost.samples
  cases hshow : g.showEs with
  | true =>
    -- with the event signature all samples are in a row
    have hskip : ∀ s, g.skipped s = 0 := fun s => if_pos (Or.inr (Or.inr hshow))
    simp only [hpre, ne_eq, not_false_eq_true, and_self, if_true, hblock, hskip,
      List.range_add, List.map_append, List.map_map]
    refine congrArg₂ _ rfl (congrArg₂ _ ?_ ?_)
    · refine List.map_congr_left fun s _ => ?_
      simp only [Function.comp_apply, hadd]
      omega
    · refine List.map_congr_left fun s _ => ?_
      simp only [Function.comp_apply, hadd, hes]
      omega
  | false =>
    simp only [Bool.false_eq_true, and_false, if_false, hblock, List.nil_append, Nat.zero_add,
      List.range_add, List.map_append, List.map_map]
    refine congrArg₂ _ ?_ ?_
    · refine List.map_congr_left fun s hs => ?_
      have hskip : g.skipped s = 0 := if_pos (Or.inr (Or.inl (List.mem_range.mp hs)))
      rw [hskip, Nat.add_zero]
    · refine List.map_congr_left fun s _ => ?_
      have hskip : g.skipped (g.pre + s) = g.esSize :=
        if_neg (by rw [hshow]; simp only [Bool.false_eq_true, or_false]; omega)
      simp only [Function.comp_apply, hadd, hskip]
      omega

theorem InOnePiece.asCaptured (h : InOnePiece g esp esp' mem mem') (hpos : 0 < g.sampleSize)
    (hpre : g.pre ≠ 0) : AsCaptured g esp mem mem' (linearSegments g esp') := by
  have hlo := h.lo
  have hhi := h.hi
  have haddrs := sampleAddrs_linear hpos hpre (show g.s2b g.pre ≤ esp' by omega)
  have hget : ∀ {s a : Nat}, (Demuxer.sampleAddrs g.toG (linearSegments g esp'))[s]? = some a →
      s < g.samples ∧ a = esp' - g.s2b g.pre + (g.s2b s + g.skipped s) := by
    intro s a hs
    rw [haddrs] at hs
    obtain ⟨hlt, rfl⟩ := List.getElem?_eq_some_iff.mp hs
    refine ⟨by simpa using hlt, by simp⟩
  refine ⟨?_, ?_, ?_, ?_⟩
  · intro seg hseg
    unfold linearSegments at hseg
    rcases List.mem_cons.mp hseg with rfl | hrest
    · exact Nat.dvd_mul_left _ _
    · rcases List.mem_append.mp hrest with hmid | hlast
      · split at hmid
        · rw [List.mem_singleton.mp hmid]
          exact g.sampleSize_dvd_esSize
        · exact absurd hmid List.not_mem_nil
      · rw [List.mem_singleton.mp hlast]
        exact Nat.dvd_mul_left _ _
  · rw [haddrs, List.length_map, List.length_range]
  · intro s a hs
    obtain ⟨hlt, rfl⟩ := hget hs
    have hinside := g.sample_inside hlt
    omega
  · intro s a k hs hk
    obtain ⟨hlt, rfl⟩ := hget hs
    have hinside := g.sample_inside hlt
    rw [Nat.add_assoc, h.byte _ (by omega), ← Nat.add_assoc]
    rfl

/-! ### The three ways of a capture -/

theorem asCaptured_post (hpos : 0 < g.sampleSize) (hpre : g.pre = 0)
    (hlo : MapBuffer.baLo g.toG ≤ esp) (hhi : esp + g.s2b g.post ≤ MapBuffer.baHi g.toG) :
    AsCaptured g esp mem mem [{ base := esp, len := g.s2b g.post }] := by
  have haddrs : Demuxer.sampleAddrs g.toG [{ base := esp, len := g.s2b g.post }] =
      Demuxer.blockAddrs g.toG esp g.post := by
    unfold Demuxer.sampleAddrs
    rw [List.flatMap_singleton, b2s_s2b hpos]
  have hsamples : g.samples = g.post := by
    unfold PrePost.samples
    rw [if_neg fun hshow => hshow.1 hpre, hpre, Nat.zero_add, Nat.zero_add]
  have hget : ∀ {s a : Nat},
      (Demuxer.sampleAddrs g.toG [{ base := esp, len := g.s2b g.post }])[s]? = some a →
      a = esp + g.s2b s ∧ a + g.sampleSize ≤ esp + g.s2b g.post := by
    intro s a hs
    rw [haddrs] at hs
    obtain ⟨hlt, rfl⟩ := List.getElem?_eq_some_iff.mp hs
    rw [Demuxer.length_blockAddrs] at hlt
    have hmono : g.s2b (s + 1) ≤ g.s2b g.post := Nat.mul_le_mul_right _ hlt
    have hsucc : g.s2b (s + 1) = g.s2b s + g.sampleSize := Nat.succ_mul _ _
    refine ⟨by simp [Demuxer.blockAddrs, G.s2b], ?_⟩
    simp only [Demuxer.blockAddrs, List.getElem_map, List.getElem_range]
    show esp + g.s2b s + g.sampleSize ≤ _
    omega
  have hone : MapBuffer.getBase g.toG 1 ≤ MapBuffer.baLo g.toG := by
    unfold MapBuffer.getBase MapBuffer.baLo
    omega
  refine ⟨?_, ?_, ?_, ?_⟩
  · intro seg hseg
    rw [List.mem_singleton.mp hseg]
    exact Nat.dvd_mul_left _ _
  · rw [haddrs, Demuxer.length_blockAddrs, hsamples]
  · intro s a hs
    obtain ⟨rfl, hend⟩ := hget hs
    omega
  · intro s a k hs hk
    obtain ⟨rfl, hend⟩ := hget hs
    have hat : g.sampleAt esp s + k = esp + g.s2b s + k + ringLen g.toG := by
      unfold PrePost.sampleAt PrePost.skipped
      rw [if_pos (Or.inl hpre), hpre]
      have hzero : g.s2b 0 = 0 := Nat.zero_mul _
      omega
    rw [hat, ringAddr_add_ringLen (by omega), ringAddr_of_lt (by omega) (by omega)]

theorem inOnePiece_linear (hlo : MapBuffer.baLo g.toG + g.s2b g.pre ≤ esp)
    (hhi : esp + g.esSize + g.s2b g.post ≤ MapBuffer.baHi g.toG) :
    InOnePiece g esp esp mem mem := by
  refine ⟨?_, hhi, fun x hx => ?_⟩
  · unfold MapBuffer.getBase
    unfold MapBuffer.baLo at hlo
    omega
  · have hround : esp + ringLen g.toG - g.s2b g.pre + x =
        esp - g.s2b g.pre + x + ringLen g.toG := by omega
    rw [hround, ringAddr_add_ringLen (by omega), ringAddr_of_lt (by omega) (by omega)]

theorem inOnePiece_corner {bd : BufferDistribution} (h : TurnsCorner g esp)
    (hmoved : TurnsCorner.Moved g esp bd.esp) (hlin : Linearises g esp mem mem' bd) :
    InOnePiece g esp bd.esp mem mem' := by
  have hlo := hmoved.lo
  have hesplo := h.esp_lo
  have hlast := h.last_bounds.1
  have hapart := h.apart
  have hring := h.baHi_eq
  have hfit : g.s2b g.pre ≤ esp + ringLen g.toG := by
    rcases h.corner with ⟨hpre, -⟩ | ⟨hpre, -⟩ <;> omega
  refine ⟨hlo, ?_, fun x hx => ?_⟩
  · refine hmoved.hi.trans ?_
    have hmono := getBase_mono g.toG (show
      timeLength g.toG (g.ibStart esp) (g.ibLast esp) + 1 ≤ g.nbuffers by
        unfold timeLength
        have hstart := h.start_bounds
        omega)
    exact hmono
  · by_cases hpre : x < g.s2b g.pre
    · exact bytes_eq_at hlin.pre_bytes hpre
    · -- from the event on the ring address has gone round once
      have hround : esp + ringLen g.toG - g.s2b g.pre + x =
          esp + (x - g.s2b g.pre) + ringLen g.toG := by omega
      rw [hround, ringAddr_add_ringLen (by omega)]
      by_cases hes : x - g.s2b g.pre < g.esSize
      · rw [← bytes_eq_at hlin.es_bytes hes]
        congr 1
        show _ = bd.esp + _
        omega
      · have hpost : x - g.s2b g.pre - g.esSize < g.s2b g.post := by omega
        have hsplit : esp + (x - g.s2b g.pre) =
            esp + g.esSize + (x - g.s2b g.pre - g.esSize) := by omega
        rw [hsplit, ← bytes_eq_at hlin.post_bytes hpost]
        congr 1
        show _ = bd.esp + _ + _
        omega

theorem getSegments_linear (hpos : 0 < g.sampleSize)
    (hlo : MapBuffer.baLo g.toG + g.s2b g.pre ≤ esp)
    (hhi : esp + g.esSize + g.s2b g.post ≤ MapBuffer.baHi g.toG) (ibuf : Nat) (mem : Mem) :
    ∃ bd, BufferDistribution.getSegments g mem (.new g ibuf esp 1) = some (mem, bd) ∧
      bd.segments = linearSegments g esp := by
  have htail : g.pre ≤ g.b2s (esp - MapBuffer.baLo g.toG) :=
    (Nat.le_div_iff_mul_le hpos).mpr (show g.s2b g.pre ≤ _ by omega)
  have hhead : g.post ≤ g.b2s (MapBuffer.baHi g.toG - esp) :=
    (Nat.le_div_iff_mul_le hpos).mpr (show g.s2b g.post ≤ _ by omega)
  have hmode : (BufferDistribution.new g ibuf esp 1).mode = .linear := by
    simp [BufferDistribution.mode, BufferDistribution.new, htail, hhead]
  have hfresh : (BufferDistribution.new g ibuf esp 1).segments = [] := rfl
  refine ⟨_, ?_, TurnsCorner.getSegmentsLinear_segments g _ rfl hfresh⟩
  rw [BufferDistribution.getSegments, if_pos hfresh, hmode]

theorem postProcess_asCaptured (hpos : 0 < g.sampleSize) (h : Captured g esp) (ibuf : Nat)
    (mem : Mem) :
    ∃ mem' segs, AsCaptured g esp mem mem' segs ∧
      ∀ fuel, postProcess g fuel mem ibuf esp =
        Demuxer.demuxSegments g.toG fuel (.start g.toG mem') segs := by
  cases h with
  | postOnly hpre hlo hhi =>
    refine ⟨mem, _, asCaptured_post hpos hpre hlo hhi, fun fuel => ?_⟩
    unfold postProcess
    rw [if_pos hpre]
    simp only [Demuxer.demuxSegments]
    cases (Demuxer.start g.toG mem).demux g.toG fuel esp (g.s2b g.post) with
    | none => rfl
    | some rc => rfl
  | linear hpre hlo hhi =>
    obtain ⟨bd, hrun, hsegs⟩ := getSegments_linear hpos hlo hhi ibuf mem
    refine ⟨mem, _, (inOnePiece_linear hlo hhi).asCaptured hpos hpre, fun fuel => ?_⟩
    unfold postProcess
    rw [if_neg hpre, hrun, Option.bind_some, ← hsegs]
  | corner hpre hturns hspill =>
    obtain ⟨mem', bd, hrun, hmoved, hsegs, hbytes⟩ := hturns.getSegments_moves ibuf mem
    have hlin := hturns.linearises_of_order hmoved hsegs hbytes
      (hturns.arrangement_spill_iff.mp hspill)
    refine ⟨mem', _, (inOnePiece_corner hturns hmoved hlin).asCaptured hpos hpre, fun fuel => ?_⟩
    unfold postProcess
    rw [if_neg hpre, hrun, Option.bind_some, ← hsegs]

end

namespace A400Fs

/-- Four channels of an ACQ480, whose event signature is one sample. -/
private def fourChannels : PrePost :=
  { nchan := 4, wordsize := 2, doubleUp := false, bufferlen := 4096, nbuffers := 8
    isAcq480 := true, site := none, pre := 400, post := 600, showEs := true }

end A400Fs

end Acq400
