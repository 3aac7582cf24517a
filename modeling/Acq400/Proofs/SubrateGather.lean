/-
The gather list of the subrate file.

Every descriptor is stored where none was, with the next words for its destination: so the
descriptors in the order in which they are stored tile the sample (`Laid`), the first of the array
among them, which is stored behind those of the set.  A set of `k` devices takes `k + 4` of them,
and there is room for ten; the sample has the words of the set and four more, and there is room
for 256.  The reader looks down from the end of the array, and finds the last one that was stored.
-/
import Acq400.Driver.SubrateGather
import Acq400.Lib.Extents

namespace Acq400

open GatherDesc

/-- The devices of the set that are gathered. -/
def leading : List (Option Nat) → List Nat
  | some slave :: rest => slave :: leading rest
  | none :: _ => []
  | [] => []

/-- The words that they have in a sample. -/
def SubrateDev.setWords (dev : SubrateDev) (set : List (Option Nat)) : Nat :=
  ((leading set).map fun slave => (dev.slave slave).n32).sum

namespace Gather

variable {g : Gather} {d : GatherDesc}

/-- The descriptors, in the order in which they were stored. -/
def parts (g : Gather) : List GatherDesc := g.written.map g.desc

/-- The words of a sample: `T`. -/
def total (g : Gather) : Nat := (g.parts.map GatherDesc.n32).sum

/-- What the list is to be. -/
structure GatherRight (g : Gather) : Prop where
  /-- The descriptors are in the array, each in a place of its own. -/
  room : ∀ i ∈ g.written, i < maxDesc
  nodup : g.written.Nodup
  /-- What they fill of the sample are words of their own, and all of them. -/
  disjoint : (g.parts.map (Extents.cells GatherDesc.dstIdx GatherDesc.n32)).Pairwise Disjoint
  cover : Set.Ico 0 g.total = ⋃ d ∈ g.parts, Extents.cells GatherDesc.dstIdx GatherDesc.n32 d
  /-- The sample fits `lbuf`. -/
  fits : g.total * 4 ≤ maxlbuf
  /-- The reader finds its length, and passes on the descriptors. -/
  sample : sampleWords g.desc = g.total
  passes : ∀ i, i ∈ g.written ↔ i < passed g.desc
  /-- A read of less than the sample fails, and one of more has the words of each descriptor in
  their places. -/
  reads : ∀ acq400rd32 lbuf (count : Nat),
    (acq400ScNaccSubrateRead g.desc acq400rd32 lbuf count).1 =
        (if count < g.total * 4 then -1 else ((g.total * 4 : Nat) : Int)) ∧
      (g.total * 4 ≤ count → ∀ i ∈ g.written, ∀ ii < (g.desc i).n32,
        (acq400ScNaccSubrateRead g.desc acq400rd32 lbuf count).2 ((g.desc i).dstIdx + ii) =
          acq400rd32 (g.desc i).adev ((g.desc i).srcOff + 4 * ii))

/-- What has been stored up to now. -/
structure Laid (g : Gather) : Prop where
  tiles : Extents.Tiles GatherDesc.dstIdx GatherDesc.n32 g.parts 0 g.dstIdx
  held : ∀ i ∈ g.written, (g.desc i).adev.isSome
  clear : ∀ i, i < maxDesc → i ∉ g.written → (g.desc i).adev = none

theorem Laid.alloc (heap : Nat → GatherDesc) : Laid (alloc heap) := by
  refine ⟨rfl, fun i hi => absurd hi List.not_mem_nil, ?_⟩
  intro i hi _
  unfold Gather.alloc
  dsimp only
  rw [if_pos hi]
  rfl

theorem Laid.store (h : Laid g) {i : Nat} (hi : i ∉ g.written) (hdst : d.dstIdx = g.dstIdx)
    (hadev : d.adev.isSome) : Laid ((g.store i d).advance d.n32) := by
  have hold : ∀ j ∈ g.written, (g.store i d).desc j = g.desc j := by
    intro j hj
    have hne : j ≠ i := fun e => hi (e ▸ hj)
    exact Function.update_of_ne hne _ _
  have hnew : (g.store i d).desc i = d := Function.update_self ..
  have hparts : ((g.store i d).advance d.n32).parts = g.parts ++ [d] := by
    show (g.written ++ [i]).map (g.store i d).desc = _
    rw [List.map_append, List.map_congr_left hold, List.map_singleton, hnew]
    rfl
  refine ⟨?_, ?_, ?_⟩
  · have htiles := h.tiles
    rw [← hdst] at htiles
    rw [hparts]
    show Extents.Tiles GatherDesc.dstIdx GatherDesc.n32 _ 0 (g.dstIdx + d.n32)
    rw [← hdst]
    exact htiles.snoc
  · intro j hj
    rcases List.mem_append.mp hj with hj | hj
    · show ((g.store i d).desc j).adev.isSome
      rw [hold j hj]
      exact h.held j hj
    · obtain rfl := List.mem_singleton.mp hj
      show ((g.store j d).desc j).adev.isSome
      rw [hnew]
      exact hadev
  · intro j hj hnot
    have hji : j ≠ i := by
      rintro rfl
      exact hnot (List.mem_append_right _ (List.mem_singleton_self j))
    show ((g.store i d).desc j).adev = none
    rw [show (g.store i d).desc j = g.desc j from Function.update_of_ne hji _ _]
    exact h.clear j hj fun hmem => hnot (List.mem_append_left _ hmem)

theorem Laid.push (h : Laid g) (hgd : g.gd ∉ g.written) (hdst : d.dstIdx = g.dstIdx)
    (hadev : d.adev.isSome) : Laid (g.push d) := by
  have hstore := h.store hgd hdst hadev
  exact ⟨hstore.tiles, hstore.held, hstore.clear⟩

/-- The descriptors of a set that has got `k` of them. -/
structure AtSet (k : Nat) (g : Gather) : Prop where
  laid : Laid g
  gd : g.gd = k + 1
  written : g.written = List.range' 1 k

theorem AtSet.push {k : Nat} (h : AtSet k g) (hdst : d.dstIdx = g.dstIdx)
    (hadev : d.adev.isSome) : AtSet (k + 1) (g.push d) := by
  refine ⟨h.laid.push ?_ hdst hadev, ?_, ?_⟩
  · rw [h.gd, h.written, List.mem_range'_1]
    omega
  · show g.gd + 1 = k + 1 + 1
    rw [h.gd]
  · show g.written ++ [g.gd] = _
    rw [h.gd, h.written, List.range'_1_concat, Nat.add_comm 1 k]

theorem AtSet.gatherSet (dev : SubrateDev) (set : List (Option Nat)) :
    ∀ {k : Nat} {g : Gather}, AtSet k g →
      AtSet (k + (leading set).length) (dev.gatherSet set g) ∧
        (dev.gatherSet set g).dstIdx = g.dstIdx + dev.setWords set := by
  induction set with
  | nil =>
      intro k g h
      exact ⟨h, rfl⟩
  | cons slave rest ih =>
      intro k g h
      cases slave with
      | none => exact ⟨h, rfl⟩
      | some slave =>
          obtain ⟨hset, hdst⟩ := ih (h.push (d := ⟨some slave, if dev.readoff ≠ 0 then dev.readoff
            else adcNaccSamples, (dev.slave slave).n32, g.dstIdx⟩) rfl rfl)
          refine ⟨?_, ?_⟩
          · have : k + (leading (some slave :: rest)).length = k + 1 + (leading rest).length := by
              simp only [leading, List.length_cons]
              omega
            rw [this]
            exact hset
          · have : dev.setWords (some slave :: rest) =
                (dev.slave slave).n32 + dev.setWords rest := rfl
            rw [this, ← Nat.add_assoc]
            exact hdst

/-- The set has got `k` descriptors for `w` words, the first of the array is stored, and `j` of
the scratchpad. -/
structure AtSpad (k w j : Nat) (g : Gather) : Prop where
  laid : Laid g
  gd : g.gd = k + 1 + j
  written : g.written = List.range' 1 k ++ 0 :: List.range' (k + 1) j
  dstIdx : g.dstIdx = w + 1 + j

theorem AtSet.first {k : Nat} (h : AtSet k g) (hdst : d.dstIdx = g.dstIdx)
    (hadev : d.adev.isSome) (hone : d.n32 = 1) :
    AtSpad k g.dstIdx 0 ((g.store 0 d).advance 1) := by
  have hlaid := h.laid.store (i := 0) (by rw [h.written, List.mem_range'_1]; omega) hdst hadev
  rw [hone] at hlaid
  refine ⟨hlaid, h.gd, ?_, rfl⟩
  show g.written ++ [0] = _
  rw [h.written]
  rfl

theorem AtSpad.mem {k w j i : Nat} (h : AtSpad k w j g) : i ∈ g.written ↔ i < k + 1 + j := by
  rw [h.written, List.mem_append, List.mem_cons, List.mem_range'_1, List.mem_range'_1]
  omega

theorem AtSpad.push {k w j : Nat} (h : AtSpad k w j g) (hdst : d.dstIdx = g.dstIdx)
    (hadev : d.adev.isSome) (hone : d.n32 = 1) : AtSpad k w (j + 1) (g.push d) := by
  refine ⟨h.laid.push ?_ hdst hadev, ?_, ?_, ?_⟩
  · rw [h.mem, h.gd]
    exact Nat.lt_irrefl _
  · show g.gd + 1 = _
    rw [h.gd]
    omega
  · show g.written ++ [g.gd] = _
    rw [h.gd, h.written, List.range'_1_concat, List.append_assoc]
    rfl
  · show g.dstIdx + d.n32 = _
    rw [h.dstIdx, hone]
    omega

theorem AtSpad.spads {k w : Nat} (h : AtSpad k w 0 g) (dev : SubrateDev) :
    AtSpad k w 2 (dev.spads g) := by
  unfold SubrateDev.spads
  split
  · exact (h.push (d := dev.spad wrTaiCurL _) rfl rfl rfl).push rfl rfl rfl
  · exact (h.push (d := dev.spad (spadn 1) _) rfl rfl rfl).push rfl rfl rfl

theorem atSpad_open (dev : SubrateDev) (heap : Nat → GatherDesc)
    (hset : (dev.aggregatorSet.getD 0 none).isSome) :
    AtSpad (leading dev.aggregatorSet).length (dev.setWords dev.aggregatorSet) 3
        (dev.acq400ScNaccSubrateOpen heap) ∧
      (dev.acq400ScNaccSubrateOpen heap).desc ((leading dev.aggregatorSet).length + 3) =
        dev.tmp0 (dev.setWords dev.aggregatorSet + 3) := by
  have hstart : AtSet 0 (Gather.alloc heap) := ⟨Laid.alloc heap, rfl, rfl⟩
  obtain ⟨hset', hdst⟩ := hstart.gatherSet dev dev.aggregatorSet
  rw [Nat.zero_add] at hset'
  rw [show (Gather.alloc heap).dstIdx = 0 from rfl, Nat.zero_add] at hdst
  unfold SubrateDev.acq400ScNaccSubrateOpen
  dsimp only
  generalize dev.gatherSet dev.aggregatorSet (Gather.alloc heap) = g at hset' hdst ⊢
  have hspads := (hset'.first (d := dev.tmp0 g.dstIdx) rfl hset rfl).spads dev
  rw [hdst] at hspads ⊢
  generalize dev.spads _ = g at hspads ⊢
  refine ⟨hspads.push rfl hset rfl, ?_⟩
  have hgd := hspads.gd
  show Function.update g.desc g.gd (dev.tmp0 g.dstIdx) _ = _
  rw [hgd, hspads.dstIdx]
  exact Function.update_self ..

theorem lastDesc_eq {desc : Nat → GatherDesc} {i n : Nat} (hi : i < n)
    (hheld : (desc i).adev.isSome) (hclear : ∀ j, i < j → j < n → (desc j).adev = none) :
    lastDesc desc n = some i := by
  induction n with
  | zero => omega
  | succ n ih =>
      unfold lastDesc
      by_cases hin : i = n
      · subst hin
        rw [if_pos hheld]
      · rw [hclear n (by omega) (by omega), if_neg (by decide)]
        exact ih (by omega) fun j hij hj => hclear j hij (by omega)

theorem Laid.total_eq (h : Laid g) : g.total = g.dstIdx := by
  have := h.tiles.sum_len
  rw [Nat.zero_add] at this
  exact this.symm

theorem AtSpad.nodup {k w j : Nat} (h : AtSpad k w j g) : g.written.Nodup := by
  rw [h.written, List.nodup_append]
  refine ⟨List.nodup_range', List.nodup_cons.mpr ⟨?_, List.nodup_range'⟩, ?_⟩
  · rw [List.mem_range'_1]
    omega
  · intro a ha b hb
    rw [List.mem_range'_1] at ha
    rw [List.mem_cons, List.mem_range'_1] at hb
    omega

theorem service_get {desc : Nat → GatherDesc} {n i ii : Nat}
    {acq400rd32 : Option Nat → Nat → UInt32} {lbuf : Nat → UInt32}
    (hdisjoint : ∀ j < n, j ≠ i → Disjoint (Extents.cells GatherDesc.dstIdx GatherDesc.n32 (desc j))
      (Extents.cells GatherDesc.dstIdx GatherDesc.n32 (desc i)))
    (hi : i < n) (hii : ii < (desc i).n32) :
    service desc acq400rd32 lbuf n ((desc i).dstIdx + ii) =
      acq400rd32 (desc i).adev ((desc i).srcOff + 4 * ii) := by
  refine Memory.runWrites_get _ _ (List.mem_flatMap.mpr ⟨i, List.mem_range.mpr hi,
    List.mem_map.mpr ⟨ii, List.mem_range.mpr hii, rfl⟩⟩) ?_
  rintro w hw heq
  obtain ⟨j, hj, hw⟩ := List.mem_flatMap.mp hw
  obtain ⟨jj, hjj, rfl⟩ := List.mem_map.mp hw
  rw [List.mem_range] at hj hjj
  by_cases hji : j = i
  · subst hji
    rw [Nat.add_left_cancel heq]
  · have hmine : (desc i).dstIdx + ii ∈ Extents.cells GatherDesc.dstIdx GatherDesc.n32 (desc i) :=
      ⟨Nat.le_add_right _ _, Nat.add_lt_add_left hii _⟩
    have htheirs : (desc i).dstIdx + ii ∈
        Extents.cells GatherDesc.dstIdx GatherDesc.n32 (desc j) := by
      rw [← heq]
      exact ⟨Nat.le_add_right _ _, Nat.add_lt_add_left hjj _⟩
    exact absurd hmine (Set.disjoint_left.mp (hdisjoint j hj hji) htheirs)

theorem reads_of_passed (hsample : sampleWords g.desc = g.total)
    (hpasses : ∀ i, i ∈ g.written ↔ i < passed g.desc)
    (hdisjoint : (g.parts.map (Extents.cells GatherDesc.dstIdx GatherDesc.n32)).Pairwise Disjoint)
    (acq400rd32 : Option Nat → Nat → UInt32) (lbuf : Nat → UInt32) (count : Nat) :
    (acq400ScNaccSubrateRead g.desc acq400rd32 lbuf count).1 =
        (if count < g.total * 4 then -1 else ((g.total * 4 : Nat) : Int)) ∧
      (g.total * 4 ≤ count → ∀ i ∈ g.written, ∀ ii < (g.desc i).n32,
        (acq400ScNaccSubrateRead g.desc acq400rd32 lbuf count).2 ((g.desc i).dstIdx + ii) =
          acq400rd32 (g.desc i).adev ((g.desc i).srcOff + 4 * ii)) := by
  unfold acq400ScNaccSubrateRead
  dsimp only
  rw [hsample]
  by_cases hshort : count < g.total * 4
  · rw [if_pos hshort, if_pos hshort]
    exact ⟨rfl, fun hcount => absurd hshort (Nat.not_lt.mpr hcount)⟩
  · rw [if_neg hshort, if_neg hshort]
    refine ⟨rfl, fun _ i hi ii hii => service_get (fun j hj hji => ?_) ((hpasses i).mp hi) hii⟩
    rw [parts, List.map_map, List.pairwise_map] at hdisjoint
    have : Std.Symm fun a b => Disjoint (Extents.cells GatherDesc.dstIdx GatherDesc.n32 (g.desc a))
        (Extents.cells GatherDesc.dstIdx GatherDesc.n32 (g.desc b)) := ⟨fun _ _ h => h.symm⟩
    exact hdisjoint.forall ((hpasses j).mpr hj) hi hji

/--
**A set of six devices, and samples of 256 words, are what the list has room for.**
-/
theorem acq400ScNaccSubrateOpen_right_iff (dev : SubrateDev) (heap : Nat → GatherDesc)
    (hset : (dev.aggregatorSet.getD 0 none).isSome) :
    GatherRight (dev.acq400ScNaccSubrateOpen heap) ↔
      (leading dev.aggregatorSet).length ≤ 6 ∧ dev.setWords dev.aggregatorSet + 4 ≤ 256 := by
  obtain ⟨hspad, hlast⟩ := atSpad_open dev heap hset
  generalize dev.acq400ScNaccSubrateOpen heap = g at hspad hlast ⊢
  generalize (leading dev.aggregatorSet).length = k at hspad hlast ⊢
  generalize dev.setWords dev.aggregatorSet = w at hspad hlast ⊢
  have htotal : g.total = w + 4 := by
    rw [hspad.laid.total_eq, hspad.dstIdx]
  constructor
  · intro hright
    have hroom := hright.room (k + 3) (hspad.mem.mpr (by omega))
    have hfits := hright.fits
    rw [htotal] at hfits
    unfold maxDesc at hroom
    unfold maxlbuf at hfits
    exact ⟨by omega, by omega⟩
  · rintro ⟨hk, hw⟩
    have hfound : lastDesc g.desc maxDesc = some (k + 3) := by
      refine lastDesc_eq (by unfold maxDesc; omega) (by rw [hlast]; exact hset) ?_
      intro j hj hmax
      exact hspad.laid.clear j hmax fun hmem => by
        have := hspad.mem.mp hmem
        omega
    have htiles := hspad.laid.tiles
    have hsample : sampleWords g.desc = g.total := by
      unfold sampleWords
      rw [hfound]
      show (g.desc (k + 3)).dstIdx + (g.desc (k + 3)).n32 = _
      rw [hlast, htotal]
      rfl
    have hpasses : ∀ i, i ∈ g.written ↔ i < passed g.desc := by
      intro i
      unfold passed
      rw [hfound, hspad.mem]
    have hdisjoint :
        (g.parts.map (Extents.cells GatherDesc.dstIdx GatherDesc.n32)).Pairwise Disjoint := by
      rw [List.pairwise_map]
      exact htiles.pairwise_below.imp Extents.Below.disjoint
    refine ⟨?_, hspad.nodup, hdisjoint, ?_, ?_, hsample, hpasses,
      reads_of_passed hsample hpasses hdisjoint⟩
    · intro i hi
      have := hspad.mem.mp hi
      unfold maxDesc
      omega
    · rw [hspad.laid.total_eq]
      exact htiles.iUnion_cells
    · rw [htotal]
      unfold maxlbuf
      omega

/-- Devices of 32 channels, the odd ones of 32 bits: `n` of them in the set. -/
def setOf (n : Nat) (hn : n ≤ maxDevices) : SubrateDev where
  adev := 20
  aggregatorSet :=
    (List.range n).map (fun i => some (i + 1)) ++ List.replicate (maxDevices - n) none
  size := by
    rw [List.length_append, List.length_map, List.length_range, List.length_replicate]
    exact Nat.add_sub_cancel' hn
  slave := fun i => { nchanEnabled := 32, data32 := UInt8.ofNat (i % 2) }
  readoff := 0
  wrTiming := false

theorem acq400ScNaccSubrateOpen_right_six :
    GatherRight ((setOf 6 (by decide)).acq400ScNaccSubrateOpen fun _ => zero) :=
  (acq400ScNaccSubrateOpen_right_iff (setOf 6 (by decide)) (fun _ => zero) rfl).mpr
    ⟨by decide, by decide⟩

/-- With a seventh device the last descriptor is stored behind the array. -/
theorem seven_devices_not_right :
    ¬GatherRight ((setOf 7 (by decide)).acq400ScNaccSubrateOpen fun _ => zero) := by
  intro hright
  exact absurd (hright.room 10 (by decide)) (by decide)

end Gather

end Acq400
