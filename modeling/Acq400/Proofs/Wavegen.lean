/-
What the generator of waveforms writes.

Before each sample the cursor of a channel is at that sample, or at the last word of the channel.
So the rows are those of the matrix, and there are as many as the longest channel has words; but
`output` returns where the farthest cursor is, which is one less.  What is added up in `outputFP`
then ends, unless no channel has more than one word.
-/
import Acq400.Awg.Wavegen
import Mathlib.Algebra.Order.Group.Nat
import Mathlib.Data.List.Perm.Basic
import Mathlib.Tactic.Common

namespace Acq400

namespace Wavegen

variable {w : Nat} {g : Wavegen w} {channels : List (ChanDef w)}

/-! ### The matrix of some channels -/

/-- The cursor is at a sample, or at the last word. -/
def seek (s : Nat) (chan : ChanDef w) : ChanDef w :=
  { chan with cursor := min s (chan.data.1.length - 1) }

/-- The word of a sample, or the last one. -/
def word (g : Wavegen w) (s : Nat) (chan : ChanDef w) : BitVec w :=
  chan.data.1.getD (min s (chan.data.1.length - 1)) 0 + BitVec.ofInt w (g.chOffset * chan.ichan)

/-- The row of a sample. -/
def row (g : Wavegen w) (channels : List (ChanDef w)) (s : Nat) : List (BitVec w) :=
  channels.map (g.word s)

/-- The number of words of the longest channel. -/
def longest (channels : List (ChanDef w)) : Nat :=
  (channels.map fun chan => chan.data.1.length).foldr max 0

def matrix (g : Wavegen w) (channels : List (ChanDef w)) : List (BitVec w) :=
  (List.range (longest channels)).flatMap (g.row channels)

theorem length_pos (data : WaveData w) : 0 < data.1.length := List.length_pos_of_ne_nil data.2

/-- A channel that is at a sample puts out its word, and goes on to the next one. -/
theorem fwrite1_seek (s : Nat) {chan : ChanDef w} (h : chan = seek s chan) :
    g.fwrite1 chan = (decide (s + 1 < chan.data.1.length), g.word s chan, seek (s + 1) chan) := by
  have hpos := length_pos chan.data
  have hcursor : chan.cursor = min s (chan.data.1.length - 1) := congrArg ChanDef.cursor h
  unfold fwrite1 word
  dsimp only
  rw [← hcursor]
  by_cases hlt : s + 1 < chan.data.1.length
  · have hs : chan.cursor = s := by omega
    have hnext : seek (s + 1) chan = { chan with cursor := chan.cursor + 1 } := by
      unfold seek
      rw [hs, Nat.min_eq_left (by omega)]
    rw [if_pos (by omega), decide_eq_true hlt, hnext]
  · have hnext : seek (s + 1) chan = chan := by
      rw [h]
      unfold seek
      dsimp only
      rw [Nat.min_eq_right (by omega), Nat.min_eq_right (by omega)]
    rw [if_neg (by omega), decide_eq_false hlt, hnext]

/-- The channels that are busy behind a sample. -/
def busy (s : Nat) (channels : List (ChanDef w)) : Nat :=
  channels.countP fun chan => decide (s + 1 < chan.data.1.length)

/-- The farthest cursor. -/
def farthest (s : Nat) (channels : List (ChanDef w)) : Nat :=
  (channels.map fun chan => (seek s chan).cursor).foldr max 0

theorem outputRow_eq (s : Nat) (channels : List (ChanDef w)) :
    (∀ chan ∈ channels, s = 0 ∨ chan = seek s chan) → ∀ nbusy nwrite,
    g.outputRow s channels nbusy nwrite = (g.row channels s, channels.map (seek (s + 1)),
      nbusy + busy s channels, max nwrite (farthest (s + 1) channels)) := by
  induction channels with
  | nil =>
      intro _ nbusy nwrite
      rw [outputRow]
      simp [row, busy, farthest]
  | cons chan channels ih =>
      intro hseek nbusy nwrite
      have hchan : (if s = 0 then { chan with cursor := 0 } else chan) = seek s chan := by
        split
        · rename_i hzero
          rw [hzero]
          unfold seek
          rw [Nat.zero_min]
        · rename_i hpos
          exact (hseek chan List.mem_cons_self).resolve_left hpos
      have hrest := ih fun c hc => hseek c (List.mem_cons_of_mem chan hc)
      have hnext : seek (s + 1) (seek s chan) = seek (s + 1) chan := rfl
      have hmax : ∀ a b : Nat, (if a > b then a else b) = max b a := by
        intro a b
        split <;> omega
      rw [outputRow, hchan, fwrite1_seek s rfl, hnext]
      dsimp only
      rw [hrest, hmax]
      unfold row busy farthest
      rw [List.map_cons, List.map_cons, List.map_cons, List.foldr_cons, List.countP_cons,
        Nat.max_assoc]
      have hdata : (seek s chan).data = chan.data := rfl
      rw [hdata]
      refine Prod.ext rfl (Prod.ext rfl (Prod.ext ?_ rfl))
      dsimp only
      split <;> omega

/-! ### The loops -/

theorem le_foldr_max {l : List Nat} {n : Nat} (h : n ∈ l) : n ≤ l.foldr max 0 := by
  induction l with
  | nil => cases h
  | cons m l ih =>
      rw [List.foldr_cons]
      rcases List.mem_cons.mp h with rfl | h
      · exact Nat.le_max_left _ _
      · exact Nat.le_trans (ih h) (Nat.le_max_right _ _)

theorem le_longest {chan : ChanDef w} (h : chan ∈ channels) :
    chan.data.1.length ≤ longest channels :=
  le_foldr_max (List.mem_map_of_mem h)

theorem exists_longest (h : channels ≠ []) :
    ∃ chan ∈ channels, chan.data.1.length = longest channels := by
  unfold longest
  induction channels with
  | nil => exact absurd rfl h
  | cons c channels ih =>
      rw [List.map_cons, List.foldr_cons]
      by_cases hnil : channels = []
      · subst hnil
        exact ⟨c, List.mem_cons_self, (Nat.max_eq_left (Nat.zero_le _)).symm⟩
      · obtain ⟨chan, hchan, hlen⟩ := ih hnil
        rcases Nat.le_total ((channels.map fun chan => chan.data.1.length).foldr max 0)
          c.data.1.length with hle | hle
        · exact ⟨c, List.mem_cons_self, (Nat.max_eq_left hle).symm⟩
        · exact ⟨chan, List.mem_cons_of_mem c hchan, by rw [hlen, Nat.max_eq_right hle]⟩

theorem busy_eq_zero (h : channels ≠ []) (s : Nat) :
    busy s channels = 0 ↔ longest channels ≤ s + 1 := by
  unfold busy
  rw [List.countP_eq_zero]
  constructor
  · intro hnone
    obtain ⟨chan, hchan, hlen⟩ := exists_longest h
    have := hnone chan hchan
    simp only [decide_eq_true_eq] at this
    omega
  · intro hle chan hchan
    have := le_longest hchan
    simp only [decide_eq_true_eq]
    omega

theorem farthest_eq (s : Nat) (channels : List (ChanDef w)) :
    farthest s channels = min s (longest channels - 1) := by
  unfold farthest longest seek
  induction channels with
  | nil => simp
  | cons chan channels ih =>
      rw [List.map_cons, List.foldr_cons, List.map_cons, List.foldr_cons, ih]
      have := length_pos chan.data
      dsimp only
      omega

theorem map_seek_seek (s t : Nat) (channels : List (ChanDef w)) :
    (channels.map (seek t)).map (seek s) = channels.map (seek s) := by
  rw [List.map_map]
  rfl

theorem row_seek (t : Nat) (channels : List (ChanDef w)) (s : Nat) :
    g.row (channels.map (seek t)) s = g.row channels s := by
  unfold row
  rw [List.map_map]
  rfl

theorem busy_seek (t s : Nat) (channels : List (ChanDef w)) :
    busy s (channels.map (seek t)) = busy s channels := by
  unfold busy
  rw [List.countP_map]
  rfl

theorem longest_seek (t : Nat) (channels : List (ChanDef w)) :
    longest (channels.map (seek t)) = longest channels := by
  unfold longest
  rw [List.map_map]
  rfl

/-- The channels are the same but for their cursors. -/
def Alike (chans channels : List (ChanDef w)) : Prop :=
  chans.map (seek 0) = channels.map (seek 0)

theorem Alike.map_seek {chans : List (ChanDef w)} (h : Alike chans channels) (s : Nat) :
    chans.map (seek s) = channels.map (seek s) := by
  rw [← map_seek_seek s 0 chans, h, map_seek_seek]

theorem Alike.row_eq {chans : List (ChanDef w)} (h : Alike chans channels) (s : Nat) :
    g.row chans s = g.row channels s := by
  rw [← row_seek 0 chans, h, row_seek]

theorem Alike.busy_eq {chans : List (ChanDef w)} (h : Alike chans channels) (s : Nat) :
    busy s chans = busy s channels := by
  rw [← busy_seek 0 s chans, h, busy_seek]

theorem Alike.longest_eq {chans : List (ChanDef w)} (h : Alike chans channels) :
    longest chans = longest channels := by
  rw [← longest_seek 0 chans, h, longest_seek]

theorem alike_seek (s : Nat) (channels : List (ChanDef w)) :
    Alike (channels.map (seek s)) channels := map_seek_seek 0 s channels

/-- From a sample on, the rows up to the longest channel are written. -/
theorem outputLoop_eq (hne : channels ≠ []) (n : Nat) : ∀ (s nbusy nwrite : Nat)
    (chans : List (ChanDef w)), longest channels = s + n → Alike chans channels →
    (s = 0 ∨ chans = channels.map (seek s)) → (nbusy = 0 ↔ n = 0) →
    nwrite = min s (longest channels - 1) →
    ∃ behind, Alike behind channels ∧ ∀ fuel > n, g.outputLoop fuel s nbusy chans nwrite =
      some ((List.range' s n).flatMap (g.row channels), behind, longest channels - 1) := by
  induction n with
  | zero =>
      intro s nbusy nwrite chans hlen halike _ hbusy hnwrite
      refine ⟨chans, halike, fun fuel hfuel => ?_⟩
      obtain ⟨fuel, rfl⟩ := Nat.exists_eq_succ_of_ne_zero (Nat.ne_of_gt hfuel)
      have hlast : nwrite = longest channels - 1 := by omega
      rw [outputLoop, if_neg (not_not.mpr (hbusy.mpr rfl)), hlast]
      rfl
  | succ n ih =>
      intro s nbusy nwrite chans hlen halike hat hbusy hnwrite
      have hseek : ∀ chan ∈ chans, s = 0 ∨ chan = seek s chan := by
        intro chan hchan
        rcases hat with hzero | rfl
        · exact .inl hzero
        · obtain ⟨c, -, rfl⟩ := List.mem_map.mp hchan
          exact .inr rfl
      have hmore : 0 + busy s chans = 0 ↔ n = 0 := by
        rw [Nat.zero_add, halike.busy_eq, busy_eq_zero hne, hlen]
        omega
      have hfar : max nwrite (farthest (s + 1) chans) = min (s + 1) (longest channels - 1) := by
        rw [farthest_eq, halike.longest_eq, hnwrite]
        omega
      obtain ⟨behind, hbehind, hloop⟩ := ih (s + 1) (0 + busy s chans)
        (max nwrite (farthest (s + 1) chans)) (chans.map (seek (s + 1))) (by omega)
        ((congrArg (List.map (seek 0)) (halike.map_seek (s + 1))).trans (alike_seek _ _))
        (.inr (halike.map_seek (s + 1))) hmore hfar
      refine ⟨behind, hbehind, fun fuel hfuel => ?_⟩
      obtain ⟨fuel, rfl⟩ := Nat.exists_eq_succ_of_ne_zero (Nat.ne_of_gt (Nat.zero_lt_of_lt hfuel))
      have hnot : nbusy ≠ 0 := fun h => Nat.succ_ne_zero n (hbusy.mp h)
      rw [outputLoop, if_pos hnot, outputRow_eq s chans hseek, halike.row_eq]
      dsimp only
      rw [hloop fuel (Nat.lt_of_succ_lt_succ hfuel), List.range'_succ, List.flatMap_cons]
      rfl

theorem output_eq (hlen : channels.length = g.nchan) (hne : channels ≠ [])
    {chans : List (ChanDef w)} (halike : Alike chans channels) :
    ∃ behind, Alike behind channels ∧ ∀ fuel > longest channels, g.output fuel chans =
      some (g.matrix channels, behind, longest channels - 1) := by
  have hpos : 0 < longest channels := by
    obtain ⟨chan, hchan, hlong⟩ := exists_longest hne
    have := length_pos chan.data
    omega
  have hcount := List.length_pos_of_ne_nil hne
  obtain ⟨behind, hbehind, hloop⟩ := outputLoop_eq (g := g) hne (longest channels) 0 g.nchan 0 chans
    (Nat.zero_add _).symm halike (.inl rfl) (by omega) (Nat.zero_min _).symm
  refine ⟨behind, hbehind, fun fuel hfuel => ?_⟩
  unfold output matrix
  rw [hloop fuel hfuel, List.range_eq_range']

/-- The copies that `outputFP` writes, if each one adds to the count. -/
theorem outputFPLoop_eq (hlen : channels.length = g.nchan) (hne : channels ≠ []) {minsam : Nat}
    (hadds : 2 ≤ longest channels) (n : Nat) : ∀ (totwrite : Nat) (chans : List (ChanDef w)),
    minsam - totwrite ≤ n → Alike chans channels →
    ∃ copies, minsam ≤ totwrite + copies * (longest channels - 1) ∧
      ∀ fuel > longest channels, ∀ turns > n,
        g.outputFPLoop fuel minsam turns totwrite chans =
          some (List.replicate copies (g.matrix channels)).flatten := by
  induction n with
  | zero =>
      intro totwrite chans hleft _
      refine ⟨0, by omega, fun fuel _ turns hturns => ?_⟩
      obtain ⟨turns, rfl⟩ := Nat.exists_eq_succ_of_ne_zero (Nat.ne_of_gt hturns)
      rw [outputFPLoop, if_neg (by omega)]
      rfl
  | succ n ih =>
      intro totwrite chans hleft halike
      by_cases hdone : totwrite < minsam
      · obtain ⟨behind, hbehind, houtput⟩ := output_eq hlen hne halike
        obtain ⟨copies, henough, hmore⟩ :=
          ih (totwrite + (longest channels - 1)) behind (by omega) hbehind
        refine ⟨copies + 1, ?_, fun fuel hfuel turns hturns => ?_⟩
        · rw [Nat.succ_mul]
          omega
        · obtain ⟨turns, rfl⟩ :=
            Nat.exists_eq_succ_of_ne_zero (Nat.ne_of_gt (Nat.zero_lt_of_lt hturns))
          rw [outputFPLoop, if_pos hdone, houtput fuel hfuel]
          show ((g.outputFPLoop fuel minsam turns (totwrite + (longest channels - 1)) behind).bind
            fun more => some (g.matrix channels ++ more)) = _
          rw [hmore fuel hfuel turns (Nat.lt_of_succ_lt_succ hturns)]
          rfl
      · refine ⟨0, by omega, fun fuel _ turns hturns => ?_⟩
        obtain ⟨turns, rfl⟩ :=
          Nat.exists_eq_succ_of_ne_zero (Nat.ne_of_gt (Nat.zero_lt_of_lt hturns))
        rw [outputFPLoop, if_neg hdone]
        rfl

theorem outputFPLoop_none (hlen : channels.length = g.nchan) (hne : channels ≠ [])
    {minsam fuel totwrite : Nat} (hone : longest channels = 1) (hless : totwrite < minsam)
    (hfuel : 1 < fuel) (turns : Nat) : ∀ chans : List (ChanDef w), Alike chans channels →
      g.outputFPLoop fuel minsam turns totwrite chans = none := by
  induction turns with
  | zero => exact fun _ _ => rfl
  | succ turns ih =>
      intro chans halike
      obtain ⟨behind, hbehind, houtput⟩ := output_eq hlen hne halike
      rw [outputFPLoop, if_pos hless, houtput fuel (by omega), hone]
      show ((g.outputFPLoop fuel minsam turns (totwrite + (1 - 1)) behind).bind
        fun more => some (g.matrix channels ++ more)) = none
      rw [Nat.sub_self, Nat.add_zero, ih behind hbehind]
      rfl

/-- Whole copies of the matrix are written, with enough rows in all. -/
def Copies (g : Wavegen w) (channels : List (ChanDef w)) : Prop :=
  ∃ bound copies, g.minsam ≤ copies * longest channels ∧
    ∀ fuel > bound, ∀ turns > bound, g.outputFP fuel turns channels =
      some (List.replicate copies (g.matrix channels)).flatten

theorem copies_iff (hlen : channels.length = g.nchan) (hne : channels ≠ []) :
    g.Copies channels ↔ longest channels ≠ 1 ∨ g.minsam = 0 := by
  have hcount := List.length_pos_of_ne_nil hne
  have hpos : 0 < longest channels := by
    obtain ⟨chan, hchan, hlong⟩ := exists_longest hne
    have := length_pos chan.data
    omega
  have hfp : ∀ fuel turns, g.outputFP fuel turns channels =
      g.outputFPLoop fuel g.minsam turns 0 channels := fun fuel turns => if_neg (by omega)
  unfold Copies
  simp only [hfp]
  constructor
  · rintro ⟨bound, copies, -, hends⟩
    by_contra hnot
    obtain ⟨hone, hzero⟩ := not_or.mp hnot
    have hone := not_not.mp hone
    have hnone := outputFPLoop_none hlen hne hone (Nat.pos_of_ne_zero hzero)
      (by omega : 1 < bound + 2) (bound + 1) channels rfl
    rw [hends (bound + 2) (by omega) (bound + 1) (by omega)] at hnone
    cases hnone
  · intro hor
    by_cases hadds : 2 ≤ longest channels
    · obtain ⟨copies, henough, hloop⟩ := outputFPLoop_eq hlen hne hadds g.minsam 0 channels
        (Nat.sub_le _ _) rfl
      refine ⟨max (longest channels) g.minsam, copies, ?_, fun fuel hfuel turns hturns =>
        hloop fuel (by omega) turns (by omega)⟩
      have := Nat.mul_le_mul_left copies (Nat.sub_le (longest channels) 1)
      omega
    · have hzero : g.minsam = 0 := hor.resolve_left fun h => h (by omega)
      refine ⟨0, 0, by omega, fun fuel _ turns hturns => ?_⟩
      obtain ⟨turns, rfl⟩ := Nat.exists_eq_succ_of_ne_zero (Nat.ne_of_gt hturns)
      rw [outputFPLoop, if_neg (by omega)]
      rfl

/-! ### The definitions -/

/-- A definition: a channel, and the name of its file. -/
structure Definition where
  lchan : Nat
  fname : List Char

/-- The definitions of the arguments, in order. -/
def definitions (g : Wavegen w) (args : List WaveArg) : List Definition :=
  args.flatMap fun arg => ((List.range' 1 g.nchan).filter arg.channels).map fun ch =>
    { lchan := ch, fname := arg.expandedExpr ch }

/-- The column of the matrix that a channel is mapped to. -/
def column (g : Wavegen w) (lchan : Nat) : Nat := g.mapping.getD (lchan - 1) 0 - 1

def loadDefinition (g : Wavegen w) (channels : List (ChanDef w)) (d : Definition) :
    Option (List (ChanDef w)) :=
  g.loadChanDef channels d.lchan d.fname

theorem create_eq (g : Wavegen w) (channels : List (ChanDef w)) (arg : WaveArg) :
    g.create channels arg = (((List.range' 1 g.nchan).filter arg.channels).map fun ch =>
      ({ lchan := ch, fname := arg.expandedExpr ch } : Definition)).foldlM g.loadDefinition
        channels := by
  unfold create
  induction List.range' 1 g.nchan generalizing channels with
  | nil => rfl
  | cons ch chs ih =>
      rw [List.foldlM_cons, List.filter_cons]
      split
      · rw [List.map_cons, List.foldlM_cons]
        exact congrArg _ (funext ih)
      · exact ih channels

theorem cli_eq (g : Wavegen w) (args : List WaveArg) :
    g.cli args = (g.definitions args).foldlM g.loadDefinition g.nullChannels := by
  unfold cli definitions
  generalize g.nullChannels = channels
  induction args generalizing channels with
  | nil => rfl
  | cons arg args ih =>
      rw [List.foldlM_cons, List.flatMap_cons, List.foldlM_append, create_eq]
      exact congrArg _ (funext ih)

/-- The data of a column: those of the last definition for it. -/
def columnData (g : Wavegen w) (ds : List Definition) (c : Nat) : WaveData w :=
  match ds.reverse.find? fun d => g.column d.lchan = c with
  | none => nullData
  | some d => ((g.files d.fname).map g.convert).getD nullData

theorem columnData_concat (g : Wavegen w) (ds : List Definition) (d : Definition) (c : Nat) :
    g.columnData (ds ++ [d]) c = if g.column d.lchan = c then
      ((g.files d.fname).map g.convert).getD nullData else g.columnData ds c := by
  unfold columnData
  rw [List.reverse_append, List.reverse_singleton, List.singleton_append, List.find?_cons]
  by_cases h : g.column d.lchan = c
  · rw [decide_eq_true h, if_pos h]
  · rw [decide_eq_false h, if_neg h]

/-- The name of a channel without a definition. -/
def nullName : List Char := "null".toList

/-- The channels have the data of the definitions so far, but for a file with the name of a channel
without one. -/
structure Loaded (g : Wavegen w) (ds : List Definition) (channels : List (ChanDef w)) : Prop where
  length : channels.length = g.nchan
  ichan : ∀ c (h : c < channels.length), channels[c].ichan = c
  data : ∀ c (h : c < channels.length), channels[c].data = g.columnData ds c ∨
    (∃ d ∈ ds, d.fname = nullName) ∧ channels[c].data = nullData
  file : ∀ chan ∈ channels, chan.fname = nullName ∧ chan.data = nullData ∨
    ∃ raw, g.files chan.fname = some raw ∧ chan.data = g.convert raw

theorem loaded_null (g : Wavegen w) : Loaded g [] g.nullChannels := by
  refine ⟨by simp [nullChannels], fun c h => ?_, fun c h => .inl ?_, fun chan hchan => .inl ?_⟩
  · simp [nullChannels]
  · simp [nullChannels, columnData]
  · obtain ⟨ii, -, rfl⟩ := List.mem_map.mp hchan
    exact ⟨rfl, rfl⟩

/-- A definition gets its data from its file, or from a channel that has them. -/
theorem loadDefinition_cases {ds : List Definition} {channels' : List (ChanDef w)}
    {d : Definition} (hload : Loaded g ds channels)
    (h : g.loadDefinition channels d = some channels') :
    ∃ data, channels' = channels.set (g.column d.lchan)
        { ichan := g.column d.lchan, fname := d.fname, data := data, cursor := 0 } ∧
      (d.fname = nullName ∧ data = nullData ∨
        ∃ raw, g.files d.fname = some raw ∧ data = g.convert raw) := by
  unfold loadDefinition loadChanDef at h
  dsimp only at h
  cases hfind : channels.find? fun chan => chan.fname = d.fname with
  | some chan =>
      rw [hfind] at h
      have hname : chan.fname = d.fname := by
        have := List.find?_some hfind
        simpa using this
      have hfile := hload.file chan (List.mem_of_find?_eq_some hfind)
      rw [hname] at hfile
      exact ⟨chan.data, (Option.some.inj h).symm, hfile⟩
  | none =>
      rw [hfind] at h
      obtain ⟨raw, hraw, heq⟩ := Option.bind_eq_some_iff.mp h
      exact ⟨g.convert raw, (Option.some.inj heq).symm, .inr ⟨raw, hraw, rfl⟩⟩

theorem Loaded.next {ds : List Definition} {channels' : List (ChanDef w)} {d : Definition}
    (hload : Loaded g ds channels) (h : g.loadDefinition channels d = some channels') :
    Loaded g (ds ++ [d]) channels' := by
  obtain ⟨data, rfl, hdata⟩ := loadDefinition_cases hload h
  refine ⟨by rw [List.length_set, hload.length], fun c hc => ?_, fun c hc => ?_,
    fun chan hchan => ?_⟩
  · rw [List.length_set] at hc
    rw [List.getElem_set]
    split
    · assumption
    · exact hload.ichan c hc
  · rw [List.length_set] at hc
    rw [List.getElem_set, columnData_concat]
    split
    · rcases hdata with ⟨hname, hnull⟩ | ⟨raw, hraw, heq⟩
      · exact .inr ⟨⟨d, List.mem_append_right ds List.mem_cons_self, hname⟩, hnull⟩
      · rw [hraw]
        exact .inl heq
    · rcases hload.data c hc with heq | ⟨⟨e, he, hname⟩, hnull⟩
      · exact .inl heq
      · exact .inr ⟨⟨e, List.mem_append_left [d] he, hname⟩, hnull⟩
  · rcases List.mem_or_eq_of_mem_set hchan with hmem | rfl
    · exact hload.file chan hmem
    · exact hdata

theorem loaded_foldlM (ds : List Definition) : ∀ {done : List Definition}
    {channels channels' : List (ChanDef w)}, Loaded g done channels →
    ds.foldlM g.loadDefinition channels = some channels' → Loaded g (done ++ ds) channels' := by
  induction ds with
  | nil =>
      intro done channels channels' hload h
      obtain rfl := Option.some.inj h
      rw [List.append_nil]
      exact hload
  | cons d ds ih =>
      intro done channels channels' hload h
      rw [List.foldlM_cons] at h
      obtain ⟨next, hnext, h⟩ := Option.bind_eq_some_iff.mp h
      have := ih (hload.next hnext) h
      rwa [List.append_assoc, List.singleton_append] at this

theorem cli_loaded {args : List WaveArg} (h : g.cli args = some channels) :
    Loaded g (g.definitions args) channels := by
  rw [cli_eq] at h
  exact loaded_foldlM _ (loaded_null g) h

/-! ### The matrix of the definitions -/

/-- The number of rows: the greatest length of the data of a column. -/
def rows (g : Wavegen w) (ds : List Definition) : Nat :=
  ((List.range g.nchan).map fun c => (g.columnData ds c).1.length).foldr max 0

/-- The word of a sample in a column, with the offset of the column. -/
def cell (g : Wavegen w) (ds : List Definition) (s c : Nat) : BitVec w :=
  (g.columnData ds c).1.getD (min s ((g.columnData ds c).1.length - 1)) 0 +
    BitVec.ofInt w (g.chOffset * c)

def waveform (g : Wavegen w) (ds : List Definition) : List (BitVec w) :=
  (List.range (g.rows ds)).flatMap fun s => (List.range g.nchan).map (g.cell ds s)

/-- The matrix is written, with as many rows as are returned, and whole copies of it are written
over and over. -/
structure Right (g : Wavegen w) (args : List WaveArg) (channels : List (ChanDef w)) : Prop where
  output : ∃ bound behind, ∀ fuel > bound, g.output fuel channels =
    some (g.waveform (g.definitions args), behind, g.rows (g.definitions args))
  outputFP : ∃ bound copies, g.minsam ≤ copies * g.rows (g.definitions args) ∧
    ∀ fuel > bound, ∀ turns > bound, g.outputFP fuel turns channels =
      some (List.replicate copies (g.waveform (g.definitions args))).flatten

/-- No file has the name of a channel without a definition. -/
def NoNull (g : Wavegen w) (args : List WaveArg) : Prop :=
  ∀ d ∈ g.definitions args, d.fname ≠ nullName

theorem Loaded.exact {args : List WaveArg} (h : Loaded g (g.definitions args) channels)
    (hnull : g.NoNull args) (c : Nat) (hc : c < channels.length) :
    channels[c].data = g.columnData (g.definitions args) c :=
  (h.data c hc).resolve_right fun ⟨⟨d, hd, hname⟩, _⟩ => hnull d hd hname

/-- The rows are as many at least as the longest channel has words. -/
theorem Loaded.longest_le {ds : List Definition} (h : Loaded g ds channels) (hne : channels ≠ []) :
    longest channels ≤ g.rows ds := by
  obtain ⟨chan, hchan, hlong⟩ := exists_longest hne
  obtain ⟨c, hc, rfl⟩ := List.getElem_of_mem hchan
  have hmem : (g.columnData ds c).1.length ≤ g.rows ds := by
    refine le_foldr_max (List.mem_map.mpr ⟨c, ?_, rfl⟩)
    rw [List.mem_range, ← h.length]
    exact hc
  rw [← hlong]
  rcases h.data c hc with heq | ⟨-, hnull⟩
  · rw [heq]
    exact hmem
  · rw [hnull]
    exact Nat.le_trans (length_pos (g.columnData ds c)) hmem

theorem Loaded.matrix_eq {args : List WaveArg} (h : Loaded g (g.definitions args) channels)
    (hnull : g.NoNull args) : longest channels = g.rows (g.definitions args) ∧
      g.matrix channels = g.waveform (g.definitions args) := by
  have hmap : ∀ {β : Type} (f : ChanDef w → β) (f' : Nat → β),
      (∀ c (hc : c < channels.length), f channels[c] = f' c) →
      channels.map f = (List.range g.nchan).map f' := by
    intro β f f' hf
    refine List.ext_getElem (by simp [h.length]) fun c hc hc' => ?_
    rw [List.getElem_map, List.getElem_map, List.getElem_range]
    exact hf c (by simpa using hc)
  have hlong : longest channels = g.rows (g.definitions args) := by
    unfold longest rows
    rw [hmap _ _ fun c hc => by rw [h.exact hnull c hc]]
  refine ⟨hlong, ?_⟩
  unfold matrix waveform
  rw [hlong]
  refine List.flatMap_congr fun s _ => hmap _ _ fun c hc => ?_
  unfold word cell
  rw [h.exact hnull c hc, h.ichan c hc]

theorem not_right {args : List WaveArg} (hcli : g.cli args = some channels) :
    ¬g.Right args channels := by
  rintro ⟨⟨bound, behind, houtput⟩, ⟨bound', copies, -, hfp⟩⟩
  have hload := cli_loaded hcli
  by_cases hne : channels = []
  · have hzero : g.nchan = 0 := by
      rw [← hload.length, hne]
      rfl
    have hnone := hfp (bound' + 1) (Nat.lt_succ_self _) (bound' + 1) (Nat.lt_succ_self _)
    rw [outputFP, if_pos hzero] at hnone
    cases hnone
  · obtain ⟨behind', -, hwrites⟩ := output_eq hload.length hne (rfl : Alike channels channels)
    have heq := (houtput (max bound (longest channels) + 1) (by omega)).symm.trans
      (hwrites (max bound (longest channels) + 1) (by omega))
    have hrows : g.rows (g.definitions args) = longest channels - 1 := by
      simp only [Option.some.injEq, Prod.mk.injEq] at heq
      exact heq.2.2
    have hle := hload.longest_le hne
    obtain ⟨chan, hchan, hlong⟩ := exists_longest hne
    have := length_pos chan.data
    omega

/-- One channel, and files of two words. -/
def oneChannel : Wavegen 16 where
  mapping := [1]
  mapping_perm := List.Perm.refl _
  chOffset := 0
  hasGain := false
  gain := id
  rawDataUnsigned := false
  files := fun _ => some ⟨[5, 6], List.cons_ne_nil _ _⟩

/-- The channel is defined by a file. -/
def oneArg : List WaveArg := [{ channels := fun _ => true, expandedExpr := fun _ => ['a'] }]

/-- The channel that is loaded. -/
def oneLoaded : List (ChanDef 16) :=
  [{ ichan := 0, fname := ['a'], data := ⟨[5, 6], List.cons_ne_nil _ _⟩, cursor := 0 }]

theorem oneChannel_cli : oneChannel.cli oneArg = some oneLoaded := rfl

/--
**What is returned is never the number of rows.**  The rows are right, unless a file has the name
of a channel without a definition, and there is one less of them in what is returned; copies are
written over and over if and only if there is more than one row.
-/
theorem output_never_right (g : Wavegen w) (args : List WaveArg) (channels : List (ChanDef w))
    (hcli : g.cli args = some channels) : ¬g.Right args channels ∧
      (0 < g.nchan → g.NoNull args →
        (∃ bound behind, ∀ fuel > bound, g.output fuel channels =
          some (g.waveform (g.definitions args), behind, g.rows (g.definitions args) - 1)) ∧
        (g.Copies channels ↔ g.rows (g.definitions args) ≠ 1 ∨ g.minsam = 0)) := by
  refine ⟨not_right hcli, fun hpos hnull => ?_⟩
  have hload := cli_loaded hcli
  have hne : channels ≠ [] := by
    rintro rfl
    have := hload.length
    rw [List.length_nil] at this
    omega
  obtain ⟨hrows, hmatrix⟩ := hload.matrix_eq hnull
  obtain ⟨behind, -, hwrites⟩ := output_eq hload.length hne (rfl : Alike channels channels)
  rw [hrows, hmatrix] at hwrites
  refine ⟨⟨_, behind, hwrites⟩, ?_⟩
  rw [copies_iff hload.length hne, hrows]

/-- Two channels that change places, with files of three words and of one. -/
def swapped : Wavegen 16 where
  mapping := [2, 1]
  mapping_perm := List.Perm.swap 1 2 []
  chOffset := 4
  hasGain := true
  gain := (2 * ·)
  rawDataUnsigned := false
  files := fun fname =>
    if fname = ['a'] then some ⟨[5, 6, 7], List.cons_ne_nil _ _⟩
    else some ⟨[8], List.cons_ne_nil _ _⟩

/-- Each channel has a file of its own. -/
def swappedArgs : List WaveArg :=
  [{ channels := fun _ => true, expandedExpr := fun ch => if ch = 1 then ['a'] else ['b'] }]

/-- The channels that are loaded. -/
def swappedLoaded : List (ChanDef 16) :=
  [{ ichan := 0, fname := ['b'], data := ⟨[16], List.cons_ne_nil _ _⟩, cursor := 0 },
    { ichan := 1, fname := ['a'], data := ⟨[10, 12, 14], List.cons_ne_nil _ _⟩, cursor := 0 }]

/-- Three rows are written, the shorter file is held, and 2 is returned. -/
theorem swapped_never_right : ¬swapped.Right swappedArgs swappedLoaded ∧
    (∃ bound behind, ∀ fuel > bound,
      swapped.output fuel swappedLoaded = some ([16, 14, 16, 16, 16, 18], behind, 2)) ∧
    swapped.Copies swappedLoaded := by
  have hnull : swapped.NoNull swappedArgs := by
    unfold NoNull
    decide
  have h := output_never_right swapped swappedArgs swappedLoaded rfl
  obtain ⟨houtput, hcopies⟩ := h.2 (by decide) hnull
  exact ⟨h.1, houtput, hcopies.mpr (Or.inl (by decide))⟩

/-- What is returned for two rows is 1. -/
theorem two_rows_not_right : ¬oneChannel.Right oneArg oneLoaded := not_right oneChannel_cli

end Wavegen

end Acq400
