/-
Dealing out words.

A word of a buffer goes to the channel after that of the word before it.  The loop of the
live demux over the channels of a sample deals words out from the channel it begins with,
and reads no others.

So without event signatures the live demux does not depend on how the stream is cut: `startchan`
keeps the channel between buffers, and dealing out one buffer and then the next is dealing out both.
What does not depend on the cut either is how many words there is room for, and that is not looked
at: the arrays are as long as `nb_cat` buffers of whole samples, and the first channel gets most.
-/
import Acq400.Lib.Reads
import Acq400.Stream.LiveDemux

namespace Acq400

open DemuxWord Reads

variable {T : Type} [DemuxWord T]

namespace LiveDemux

variable {d : LiveDemux} {src1 : Nat → T}

/-- The next word goes to the channel whose turn it is. -/
def dealWord (d : LiveDemux) (hand : Nat × (Nat → List T)) (word : T) : Nat × (Nat → List T) :=
  (if d.nchan ≤ hand.1 + 1 then 0 else hand.1 + 1,
    Function.update hand.2 hand.1
      (hand.2 hand.1 ++ [ofUnsigned (toUnsigned word &&& d.mask hand.1)]))

/-- The words in turn. -/
def deal (d : LiveDemux) (hand : Nat × (Nat → List T)) (words : List T) : Nat × (Nat → List T) :=
  words.foldl d.dealWord hand

theorem deal_append (hand : Nat × (Nat → List T)) (as bs : List T) :
    d.deal hand (as ++ bs) = d.deal (d.deal hand as) bs := List.foldl_append

theorem deal_cells_succ (hand : Nat × (Nat → List T)) (p k : Nat) :
    d.deal hand (cells src1 p (k + 1))
      = d.deal (d.dealWord hand (src1 p)) (cells src1 (p + 1) k) := by
  unfold deal cells
  rw [List.range'_succ, List.map_cons, List.foldl_cons]

theorem dealWord_lt (hpos : 0 < d.nchan) (hand : Nat × (Nat → List T)) (word : T) :
    (d.dealWord hand word).1 < d.nchan := by
  simp only [dealWord]
  split
  · exact hpos
  · omega

theorem deal_lt (hpos : 0 < d.nchan) :
    ∀ (words : List T) (hand : Nat × (Nat → List T)), hand.1 < d.nchan →
      (d.deal hand words).1 < d.nchan := by
  intro words
  induction words with
  | nil =>
      intro hand h
      exact h
  | cons word rest ih =>
      intro hand _
      exact ih _ (dealWord_lt hpos hand word)

/-- How many words each channel has when so many have been dealt out from channel 0 on: the same
number, and the first channels one more. -/
theorem deal_length (hpos : 0 < d.nchan) (data : Nat → List T) (words : List T) :
    (d.deal (0, data) words).1 = words.length % d.nchan ∧
      ∀ c < d.nchan, ((d.deal (0, data) words).2 c).length =
        (data c).length + (words.length / d.nchan +
          if c < words.length % d.nchan then 1 else 0) := by
  induction words using List.reverseRecOn with
  | nil => exact ⟨(Nat.zero_mod _).symm, fun c _ => by simp [deal]⟩
  | append_singleton words word ih =>
      obtain ⟨hturn, hlength⟩ := ih
      have hlast : d.deal (0, data) (words ++ [word]) =
          d.dealWord (d.deal (0, data) words) word := deal_append _ _ _
      have hr := Nat.mod_lt words.length hpos
      have hn := Nat.div_add_mod words.length d.nchan
      rw [hlast, List.length_append, List.length_singleton]
      generalize words.length % d.nchan = r at *
      generalize words.length / d.nchan = q at *
      -- the quotient and the remainder of one word more
      have hdiv : (words.length + 1) / d.nchan = (if d.nchan ≤ r + 1 then q + 1 else q) ∧
          (words.length + 1) % d.nchan = if d.nchan ≤ r + 1 then 0 else r + 1 := by
        rw [← hn]
        split
        · rw [show d.nchan * q + r + 1 = d.nchan * (q + 1) by rw [Nat.mul_succ]; omega]
          exact ⟨Nat.mul_div_cancel_left _ hpos, Nat.mul_mod_right _ _⟩
        · rw [Nat.add_assoc, Nat.mul_add_div hpos, Nat.mul_add_mod,
            Nat.div_eq_of_lt (by omega), Nat.mod_eq_of_lt (by omega)]
          exact ⟨rfl, rfl⟩
      rw [hdiv.1, hdiv.2]
      refine ⟨by rw [dealWord, hturn], fun c hc => ?_⟩
      simp only [dealWord, hturn]
      have hbefore := hlength c hc
      by_cases hcr : c = r
      · subst hcr
        rw [Function.update_self, List.length_append, List.length_singleton, hbefore]
        split_ifs <;> omega
      · rw [Function.update_of_ne hcr, hbefore]
        split_ifs <;> omega

/-! ### The loops -/

/-- The loop over the channels deals out the words up to the end of the sample or the end of the
buffer. -/
theorem copyChans_deal (d : LiveDemux) (src1 : Nat → T) (tlen : Nat) :
    ∀ (left : Nat) (s : Sweep T), 0 < left → s.ichan + left = d.nchan → s.src < tlen →
      (d.copyChans src1 tlen left s).1 = decide (tlen ≤ s.src + left) ∧
        (d.copyChans src1 tlen left s).2.src = s.src + min left (tlen - s.src) ∧
        (if (d.copyChans src1 tlen left s).1 then (d.copyChans src1 tlen left s).2.ichan else 0,
          (d.copyChans src1 tlen left s).2.dddata)
          = d.deal (s.ichan, s.dddata) (cells src1 s.src (min left (tlen - s.src))) := by
  intro left
  induction left with
  | zero =>
      intro s hleft
      omega
  | succ left ih =>
      intro s _ hsum hlt
      rw [copyChans]
      by_cases hend : tlen ≤ s.src + 1
      · -- the last word of the buffer
        have hmin : min (left + 1) (tlen - s.src) = 0 + 1 := by omega
        have hcopy : tlen ≤ (d.copyWord src1 s).src := hend
        rw [if_pos hcopy, hmin, deal_cells_succ]
        refine ⟨by simp; omega, rfl, rfl⟩
      · have hcopy : ¬ tlen ≤ (d.copyWord src1 s).src := hend
        rw [if_neg hcopy]
        have hnext : ∀ n, tlen ≤ s.src + (n + 1) ↔ tlen ≤ s.src + 1 + n := by omega
        cases left with
        | zero =>
            -- the last channel
            have hmin : min (0 + 1) (tlen - s.src) = 0 + 1 := by omega
            have hturn : d.dealWord (s.ichan, s.dddata) (src1 s.src)
                = (0, (d.copyWord src1 s).dddata) := by
              rw [dealWord, if_pos (by simp only; omega)]
              rfl
            rw [hmin, deal_cells_succ, hturn, copyChans]
            exact ⟨by simp only [hnext]; simp; omega, rfl, rfl⟩
        | succ left =>
            have hmin : min (left + 1 + 1) (tlen - s.src)
                = min (left + 1) (tlen - (s.src + 1)) + 1 := by omega
            obtain ⟨hended, hsrc, hdeal⟩ := ih
              { d.copyWord src1 s with ichan := s.ichan + 1 } (Nat.succ_pos _)
              (by simp only; omega) (show s.src + 1 < tlen by omega)
            have hturn : d.dealWord (s.ichan, s.dddata) (src1 s.src)
                = (s.ichan + 1, (d.copyWord src1 s).dddata) := by
              rw [dealWord, if_neg (by simp only; omega)]
              rfl
            have hsum' : s.src + 1 + min (left + 1) (tlen - (s.src + 1))
                = s.src + (min (left + 1) (tlen - (s.src + 1)) + 1) := by omega
            rw [hmin, deal_cells_succ, hturn]
            exact ⟨hended.trans (decide_eq_decide.mpr (hnext (left + 1)).symm),
              hsrc.trans hsum', hdeal⟩

theorem deal_sample :
    ∀ (n : Nat) (hand : Nat × (Nat → List T)) (p : Nat), 0 < n → hand.1 + n = d.nchan →
      d.deal hand (cells src1 p n) = (0, fun c => if hand.1 ≤ c ∧ c < d.nchan then
        hand.2 c ++ [ofUnsigned (toUnsigned (src1 (p + (c - hand.1))) &&& d.mask c)]
        else hand.2 c) := by
  intro n
  induction n with
  | zero =>
      intro hand p hn
      omega
  | succ n ih =>
      intro hand p _ hsum
      rw [deal_cells_succ]
      cases n with
      | zero =>
          rw [dealWord, if_pos (by omega)]
          refine Prod.ext rfl (funext fun c => ?_)
          simp only [deal, cells_zero, List.foldl_nil]
          by_cases hc : c = hand.1
          · subst hc
            rw [Function.update_self, if_pos (by omega), Nat.sub_self, Nat.add_zero]
          · rw [Function.update_of_ne hc, if_neg (by omega)]
      | succ n =>
          rw [dealWord, if_neg (by omega), ih _ _ (Nat.succ_pos n) (by simp only; omega)]
          refine Prod.ext rfl (funext fun c => ?_)
          simp only
          by_cases hc : c = hand.1
          · subst hc
            rw [if_neg (by omega), Function.update_self, if_pos (by omega), Nat.sub_self,
              Nat.add_zero]
          · rw [Function.update_of_ne hc]
            by_cases hin : hand.1 + 1 ≤ c ∧ c < d.nchan
            · rw [if_pos hin, if_pos (by omega),
                show p + 1 + (c - (hand.1 + 1)) = p + (c - hand.1) by omega]
            · rw [if_neg hin, if_neg (by omega)]

/-- The words that the loop over the channels reads, and where it ends, wherever it begins. -/
theorem copyChans_reads (d : LiveDemux) (src1 : Nat → T) (tlen : Nat) :
    ∀ (left : Nat) (s : Sweep T), 0 < left → s.ichan + left = d.nchan →
      ∃ n, 0 < n ∧ n ≤ left ∧ (d.copyChans src1 tlen left s).2.src = s.src + n ∧
        (d.copyChans src1 tlen left s).2.reads = s.reads ++ List.range' s.src n ∧
        ((d.copyChans src1 tlen left s).1 = true → tlen ≤ s.src + n ∧
          (d.copyChans src1 tlen left s).2.ichan
            = if d.nchan ≤ s.ichan + n then 0 else s.ichan + n) ∧
        ((d.copyChans src1 tlen left s).1 = false → n = left) := by
  intro left
  induction left with
  | zero =>
      intro s hleft
      omega
  | succ left ih =>
      intro s _ hsum
      rw [copyChans]
      by_cases hend : tlen ≤ s.src + 1
      · have hcopy : tlen ≤ (d.copyWord src1 s).src := hend
        rw [if_pos hcopy]
        exact ⟨1, Nat.one_pos, by omega, rfl, rfl, fun _ => ⟨hend, rfl⟩, fun h => by simp at h⟩
      · have hcopy : ¬ tlen ≤ (d.copyWord src1 s).src := hend
        rw [if_neg hcopy]
        cases left with
        | zero =>
            rw [copyChans]
            exact ⟨1, Nat.one_pos, Nat.le_refl 1, rfl, rfl, fun h => by simp at h, fun _ => rfl⟩
        | succ left =>
            obtain ⟨n, hn, hle, hsrc, hreads, htrue, hfalse⟩ := ih
              { d.copyWord src1 s with ichan := s.ichan + 1 } (Nat.succ_pos left)
              (by simp only; omega)
            refine ⟨n + 1, Nat.succ_pos n, by omega, hsrc.trans ?_, hreads.trans ?_, fun h => ?_,
              fun h => ?_⟩
            · show s.src + 1 + n = _
              omega
            · show s.reads ++ [s.src] ++ List.range' (s.src + 1) n = _
              rw [List.append_assoc, List.range'_succ]
              rfl
            · obtain ⟨hge, hichan⟩ := htrue h
              have hge' : tlen ≤ s.src + 1 + n := hge
              refine ⟨by omega, hichan.trans ?_⟩
              show (if d.nchan ≤ s.ichan + 1 + n then 0 else s.ichan + 1 + n) = _
              rw [show s.ichan + 1 + n = s.ichan + (n + 1) by omega]
            · rw [hfalse h]

/-! ### Two buffers -/

theorem demuxLoop_deal (hpos : 0 < d.nchan) (tlen : Nat)
    (hquiet : ∀ p, p < tlen → (d.isES src1 p).1 = false) :
    ∀ (fuel : Nat) (s : Sweep T), tlen - s.src ≤ fuel → s.ichan < d.nchan → s.src < tlen →
      ∃ s', d.demuxLoop src1 tlen fuel s = some s' ∧
        (s'.ichan, s'.dddata) = d.deal (s.ichan, s.dddata) (cells src1 s.src (tlen - s.src)) := by
  intro fuel
  induction fuel with
  | zero =>
      intro s hfuel
      omega
  | succ fuel ih =>
      intro s hfuel hichan hlt
      have hskip : (d.skipES src1 s).src = s.src ∧ (d.skipES src1 s).ichan = s.ichan ∧
          (d.skipES src1 s).dddata = s.dddata := by
        unfold skipES
        split
        · exact ⟨rfl, rfl, rfl⟩
        · refine ⟨?_, rfl, rfl⟩
          simp only
          rw [hquiet s.src hlt]
          rfl
      rw [demuxLoop]
      generalize d.skipES src1 s = t at hskip ⊢
      obtain ⟨htsrc, htichan, htdata⟩ := hskip
      obtain ⟨hended, hsrc, hdeal⟩ := copyChans_deal d src1 tlen (d.nchan - s.ichan) t
        (by omega) (by omega) (by omega)
      simp only
      generalize d.copyChans src1 tlen (d.nchan - s.ichan) t = turn at hended hsrc hdeal ⊢
      rw [htsrc] at hended hsrc hdeal
      rw [htichan, htdata] at hdeal
      by_cases hend : tlen ≤ s.src + (d.nchan - s.ichan)
      · -- the buffer ends in this sample
        rw [decide_eq_true hend] at hended
        rw [hended, if_pos rfl]
        rw [hended, if_pos rfl, show min (d.nchan - s.ichan) (tlen - s.src) = tlen - s.src by omega]
          at hdeal
        exact ⟨turn.2, rfl, hdeal⟩
      · rw [decide_eq_false hend] at hended
        rw [hended, if_neg Bool.false_ne_true]
        rw [hended, if_neg Bool.false_ne_true,
          show min (d.nchan - s.ichan) (tlen - s.src) = d.nchan - s.ichan by omega] at hdeal
        obtain ⟨s', hs', hrest⟩ := ih { turn.2 with ichan := 0 }
          (show tlen - turn.2.src ≤ fuel by omega) hpos (show turn.2.src < tlen by omega)
        refine ⟨s', hs', hrest.trans ?_⟩
        simp only
        rw [hdeal, ← deal_append, hsrc,
          show min (d.nchan - s.ichan) (tlen - s.src) = d.nchan - s.ichan by omega, cells_append]
        congr 2
        omega

/-! ### Buffers -/

/-- A buffer of shorts, and whether it is the last of its files. -/
structure ShortBuffer where
  bufferLen : Nat
  pdata : Nat → UInt16
  boFinish : Bool

/-- How much of a buffer is demuxed. -/
def demuxLen (d : LiveDemux) (b : ShortBuffer) : Nat :=
  if d.demuxSize ≠ 0 then d.demuxSize else b.bufferLen

/-- Its words. -/
def wordsOf (d : LiveDemux) (b : ShortBuffer) : List UInt16 := cells b.pdata 0 (d.demuxLen b / 2)

/-- `isES` finds no event signature anywhere in the buffer. -/
def NoEvent (d : LiveDemux) (b : ShortBuffer) : Prop :=
  ∀ p, p < d.demuxLen b / 2 → (d.isES b.pdata p).1 = false

/-- The buffers one after the other, BO_START with the first. -/
def writeBuffers (d : LiveDemux) : Bool → List ShortBuffer → LiveOut UInt16 →
    Option (LiveOut UInt16)
  | _, [], out => some out
  | boStart, b :: rest, out =>
    (d.writeBuffer boStart b.boFinish b.bufferLen b.pdata out).bind fun r =>
      writeBuffers d false rest r.2

/-- Whose turn it is, and what the channels have. -/
def handOf (out : LiveOut T) : Nat × (Nat → List T) := (out.startchan, out.dddata)

theorem demux_deal (hpos : 0 < d.nchan) (boStart : Bool) {b : ShortBuffer}
    (hquiet : d.NoEvent b) (hne : d.wordsOf b ≠ []) {out : LiveOut UInt16}
    (hchan : out.startchan < d.nchan) :
    ∃ out' reads, d.demux b.bufferLen boStart b.pdata (d.demuxLen b) out
        = some (false, out', reads) ∧ handOf out' = d.deal (handOf out) (d.wordsOf b) := by
  have hlen : 0 < d.demuxLen b / 2 := by
    apply Nat.pos_of_ne_zero
    intro hzero
    exact hne (cells_eq_nil.mpr hzero)
  have hshort : sizeof UInt16 = 2 := rfl
  have halign : d.channelAlign b.bufferLen boStart b.pdata = (some 0, []) := by
    unfold channelAlign
    rw [if_neg]
    rintro ⟨hsize, -⟩
    exact absurd hsize (by decide)
  obtain ⟨s', hs', hdeal⟩ := demuxLoop_deal hpos (d.demuxLen b / 2) hquiet
    (d.demuxLen b / 2 + 1)
    { src := 0, ichan := out.startchan, dddata := out.dddata, reads := [] }
    (by simp only; omega) hchan hlen
  refine ⟨{ out with dddata := s'.dddata, startchan := s'.ichan }, s'.reads, ?_, hdeal⟩
  unfold demux
  simp only [halign, hshort, hs']
  rfl

/-! ### The arrays -/

/-- What the channels have when so many words have been dealt out since BO_START. -/
def Dealt (d : LiveDemux) (out : LiveOut UInt16) (words : List UInt16) (out' : LiveOut UInt16) :
    Prop := handOf out' = d.deal (handOf (d.start out)) words

/-- The arrays are full when each channel has had as many words as there is room for. -/
theorem overrun_iff (hpos : 0 < d.nchan) {out out' : LiveOut UInt16} {words : List UInt16}
    (h : d.Dealt out words out') :
    d.overrun out' = true ↔ d.nchan * d.room UInt16 < words.length := by
  obtain ⟨-, hlength⟩ := deal_length hpos (d.start out).dddata words
  have hdata : out'.dddata = (d.deal (0, (d.start out).dddata) words).2 := congrArg Prod.snd h
  have hmore : ∀ c < d.nchan, (out'.dddata c).length =
      words.length / d.nchan + if c < words.length % d.nchan then 1 else 0 := by
    intro c hc
    rw [hdata, hlength c hc]
    simp [start, hc]
  have hn := Nat.div_add_mod words.length d.nchan
  have hr := Nat.mod_lt words.length hpos
  unfold overrun
  rw [List.any_eq_true]
  constructor
  · rintro ⟨c, hc, hover⟩
    rw [decide_eq_true_iff, hmore c (List.mem_range.mp hc)] at hover
    by_cases hfirst : c < words.length % d.nchan
    · rw [if_pos hfirst] at hover
      have := Nat.mul_le_mul_left d.nchan (Nat.le_of_lt_succ hover)
      omega
    · rw [if_neg hfirst, Nat.add_zero] at hover
      have := Nat.mul_lt_mul_of_pos_left hover hpos
      omega
  · intro hlt
    -- channel 0 has the most
    refine ⟨0, List.mem_range.mpr hpos, decide_eq_true ?_⟩
    rw [hmore 0 hpos]
    by_contra hfits
    have hle := Nat.mul_le_mul_left d.nchan (Nat.le_of_not_lt hfits)
    rw [Nat.mul_add] at hle
    split at hle <;> omega

/-- A buffer is dealt out to arrays that are long enough, and only to those. -/
theorem writeBuffer_dealt (hpos : 0 < d.nchan) (boStart : Bool) {b : ShortBuffer}
    (hquiet : d.NoEvent b) (hne : d.wordsOf b ≠ []) {out out₁ : LiveOut UInt16}
    {words : List UInt16} (h : d.Dealt out words (if boStart then d.start out₁ else out₁)) :
    (d.nchan * d.room UInt16 < (words ++ d.wordsOf b).length →
      d.writeBuffer boStart b.boFinish b.bufferLen b.pdata out₁ = none) ∧
    ((words ++ d.wordsOf b).length ≤ d.nchan * d.room UInt16 →
      ∃ n out', d.writeBuffer boStart b.boFinish b.bufferLen b.pdata out₁ = some (n, out') ∧
        d.Dealt out (words ++ d.wordsOf b) out') := by
  have hchan : (if boStart then d.start out₁ else out₁).startchan < d.nchan := by
    have hlt := deal_lt hpos words (handOf (d.start out)) hpos
    rwa [← h] at hlt
  obtain ⟨out', reads, hdemux, hdeal⟩ := demux_deal hpos boStart hquiet hne hchan
  have hdealt : d.Dealt out (words ++ d.wordsOf b) out' := by
    unfold Dealt at h ⊢
    rw [hdeal, h, deal_append]
  have hover := overrun_iff hpos hdealt
  have hlen : (if d.demuxSize ≠ 0 then d.demuxSize else b.bufferLen) = d.demuxLen b := rfl
  unfold writeBuffer
  simp only [hlen, hdemux, Option.bind_some]
  refine ⟨fun hlt => if_pos (hover.mpr hlt), fun hle => ?_⟩
  rw [if_neg (mt hover.mp (Nat.not_lt.mpr hle))]
  cases b.boFinish with
  | false => exact ⟨_, _, rfl, hdealt⟩
  | true => exact ⟨_, _, rfl, hdealt⟩

/-- Later buffers are dealt out from where the one before ended, as long as there is room. -/
theorem writeBuffers_dealt (hpos : 0 < d.nchan) {out : LiveOut UInt16} :
    ∀ (bufs : List ShortBuffer) (words : List UInt16) (out₁ : LiveOut UInt16),
      (∀ b ∈ bufs, d.NoEvent b) → (∀ b ∈ bufs, d.wordsOf b ≠ []) → d.Dealt out words out₁ →
      words.length ≤ d.nchan * d.room UInt16 →
        (d.nchan * d.room UInt16 < (words ++ bufs.flatMap d.wordsOf).length →
          d.writeBuffers false bufs out₁ = none) ∧
        ((words ++ bufs.flatMap d.wordsOf).length ≤ d.nchan * d.room UInt16 →
          ∃ out', d.writeBuffers false bufs out₁ = some out' ∧
            d.Dealt out (words ++ bufs.flatMap d.wordsOf) out') := by
  intro bufs
  induction bufs with
  | nil =>
      intro words out₁ _ _ hdealt hfits
      rw [List.flatMap_nil, List.append_nil]
      exact ⟨fun hlt => absurd hlt (Nat.not_lt.mpr hfits), fun _ => ⟨out₁, rfl, hdealt⟩⟩
  | cons b rest ih =>
      intro words out₁ hquiet hne hdealt _
      obtain ⟨hfull, hroom⟩ := writeBuffer_dealt hpos false (hquiet b List.mem_cons_self)
        (hne b List.mem_cons_self) hdealt
      rw [List.flatMap_cons, ← List.append_assoc]
      by_cases hfits : (words ++ d.wordsOf b).length ≤ d.nchan * d.room UInt16
      · obtain ⟨n, out₂, hwrite, hdealt₂⟩ := hroom hfits
        rw [writeBuffers, hwrite, Option.bind_some]
        exact ih _ out₂ (fun b' hb' => hquiet b' (List.mem_cons_of_mem b hb'))
          (fun b' hb' => hne b' (List.mem_cons_of_mem b hb')) hdealt₂ hfits
      · rw [writeBuffers, hfull (Nat.lt_of_not_le hfits)]
        refine ⟨fun _ => rfl, fun hle => absurd hle ?_⟩
        rw [List.length_append]
        omega

/-- With BO_START on the first buffer all of them are dealt out from channel 0. -/
theorem writeBuffers_start (hpos : 0 < d.nchan) {bufs : List ShortBuffer} (hbufs : bufs ≠ [])
    (hquiet : ∀ b ∈ bufs, d.NoEvent b) (hne : ∀ b ∈ bufs, d.wordsOf b ≠ [])
    (out : LiveOut UInt16) :
    (d.nchan * d.room UInt16 < (bufs.flatMap d.wordsOf).length →
      d.writeBuffers true bufs out = none) ∧
    ((bufs.flatMap d.wordsOf).length ≤ d.nchan * d.room UInt16 →
      ∃ out', d.writeBuffers true bufs out = some out' ∧
        d.Dealt out (bufs.flatMap d.wordsOf) out') := by
  cases bufs with
  | nil => exact absurd rfl hbufs
  | cons b rest =>
      have hstart : d.Dealt out [] (if true then d.start out else out) := rfl
      obtain ⟨hfull, hroom⟩ := writeBuffer_dealt hpos true (hquiet b List.mem_cons_self)
        (hne b List.mem_cons_self) hstart
      rw [List.flatMap_cons]
      by_cases hfits : (d.wordsOf b).length ≤ d.nchan * d.room UInt16
      · obtain ⟨n, out₁, hwrite, hdealt⟩ := hroom hfits
        rw [writeBuffers, hwrite, Option.bind_some]
        exact writeBuffers_dealt hpos rest _ out₁
          (fun b' hb' => hquiet b' (List.mem_cons_of_mem b hb'))
          (fun b' hb' => hne b' (List.mem_cons_of_mem b hb')) hdealt hfits
      · rw [writeBuffers, hfull (Nat.lt_of_not_le hfits)]
        refine ⟨fun _ => rfl, fun hle => absurd hle ?_⟩
        rw [List.length_append]
        omega

/-- The buffers one after the other are dealt out in the arrays as one call deals out the whole. -/
def SplitRight (d : LiveDemux) (whole : ShortBuffer) (bufs : List ShortBuffer)
    (out : LiveOut UInt16) : Prop :=
  ∃ cut ret uncut reads, d.writeBuffers true bufs out = some cut ∧
    d.demux whole.bufferLen true whole.pdata (d.demuxLen whole) (d.start out)
      = some (ret, uncut, reads) ∧
    cut.dddata = uncut.dddata ∧ cut.startchan = uncut.startchan

theorem splitRight_iff (hpos : 0 < d.nchan) {whole : ShortBuffer} {bufs : List ShortBuffer}
    (hbufs : bufs ≠ []) (hne : ∀ b ∈ bufs, d.wordsOf b ≠ [])
    (hcut : d.wordsOf whole = bufs.flatMap d.wordsOf) (hquiet : ∀ b ∈ bufs, d.NoEvent b)
    (hquietWhole : d.NoEvent whole) (out : LiveOut UInt16) :
    d.SplitRight whole bufs out ↔ (d.wordsOf whole).length ≤ d.nchan * d.room UInt16 := by
  have hwhole : d.wordsOf whole ≠ [] := by
    obtain ⟨b, hb⟩ := List.exists_mem_of_ne_nil bufs hbufs
    rw [hcut, Ne, List.flatMap_eq_nil_iff]
    exact fun hnil => hne b hb (hnil b hb)
  obtain ⟨hfull, hroom⟩ := writeBuffers_start hpos hbufs hquiet hne out
  rw [hcut]
  constructor
  · rintro ⟨cut, ret, uncut, reads, hrun, -⟩
    by_contra hover
    rw [hfull (Nat.lt_of_not_le hover)] at hrun
    cases hrun
  · intro hfits
    obtain ⟨cut, hrun, hdealt⟩ := hroom hfits
    have hstart : (d.start out).startchan < d.nchan := hpos
    obtain ⟨uncut, reads, hdemux, hdeal⟩ := demux_deal hpos true hquietWhole hwhole hstart
    have hsame : handOf cut = handOf uncut := by rw [hdealt, hdeal, hcut]
    exact ⟨cut, false, uncut, reads, hrun, hdemux, congrArg Prod.snd hsame,
      congrArg Prod.fst hsame⟩

/--
**The demux of a stream that is cut.**  However a stream without event signatures is cut into
buffers that are not empty, at sample boundaries or not, the channels get from the buffers one
after the other what they get from one call on all of the words, if and only if the arrays have
room for so many.
-/
theorem writeBuffers_split (d : LiveDemux) (hpos : 0 < d.nchan) (whole : ShortBuffer)
    (bufs : List ShortBuffer) (hbufs : bufs ≠ []) (hne : ∀ b ∈ bufs, d.wordsOf b ≠ [])
    (hcut : d.wordsOf whole = bufs.flatMap d.wordsOf) (hquiet : ∀ b ∈ bufs, d.NoEvent b)
    (hquietWhole : d.NoEvent whole) (out : LiveOut UInt16) :
    d.SplitRight whole bufs out ↔ (d.wordsOf whole).length ≤ d.nchan * d.room UInt16 :=
  splitRight_iff hpos hbufs hne hcut hquiet hquietWhole out

/-- Three channels, in arrays for `nbCat` buffers of four words. -/
private def threeChannels (nbCat : Nat) : LiveDemux :=
  { nchan := 3, nchanES := 12, mask := fun _ => 0xFFFFFFFF, showEs := false, isAcq480 := false
    nosid := false, demuxSize := 0, firstLen := 8, nbCat := nbCat }

/-- `n` words from `a` on. -/
private def wordsFrom (a n : Nat) : ShortBuffer :=
  { bufferLen := 2 * n, pdata := fun p => UInt16.ofNat (a + p), boFinish := false }

private def nothing : LiveOut UInt16 := { dddata := fun _ => [], startchan := 2, files := [] }

/-- Seven words cut after the fourth, which is in the second sample. -/
theorem writeBuffers_split_seven :
    (threeChannels 3).SplitRight (wordsFrom 0 7) [wordsFrom 0 4, wordsFrom 4 3] nothing := by
  refine (writeBuffers_split (threeChannels 3) (by decide) (wordsFrom 0 7)
    [wordsFrom 0 4, wordsFrom 4 3] (by decide) ?_ (by decide) ?_ ?_ _).mpr (by decide)
  · decide
  · unfold NoEvent
    decide
  · unfold NoEvent
    decide

/-- Ten buffers of four words are 14 words for channel 0, and its array has ten. -/
theorem writeBuffers_overruns :
    ¬(threeChannels 10).SplitRight (wordsFrom 0 40)
      ((List.range 10).map fun i => wordsFrom (4 * i) 4) nothing := by
  have hbufs : ∀ b ∈ (List.range 10).map fun i => wordsFrom (4 * i) 4,
      (threeChannels 10).wordsOf b ≠ [] ∧ (threeChannels 10).NoEvent b := by
    unfold NoEvent
    decide
  rw [splitRight_iff (by decide) (by decide) (fun b hb => (hbufs b hb).1) (by decide)
    (fun b hb => (hbufs b hb).2) (by unfold NoEvent; decide)]
  decide

end LiveDemux

end Acq400
