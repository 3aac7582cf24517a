/-
Loads of the DMA engine, one after the other.

Building a pool gives its wrappers descriptors from the first on, and each descriptor
the host buffer that its block is to have.  Nothing but building changes either, so
what matters to a later load is which buffers the blocks had for which the pool was
built, and that is kept along with the run.
-/
import Acq400.Proofs.DescrChain
import Mathlib.Data.List.GetD
import Mathlib.Data.List.Nodup

namespace Acq400

namespace AxiPool

section build

variable {dev : AxiDev} {s : AxiPool} {pas given : List Nat} {m : Nat}

/-- The descriptors have the host buffers with the given numbers. -/
def Serves (dev : AxiDev) (s : AxiPool) (pas given : List Nat) : Prop :=
  ∀ k g : Nat, given[k]? = some g →
    ∃ a, pas[k]? = some a ∧ dev.axi64Hb[g]? = some (s.desc a).bufAddr

theorem Serves.length_le (h : Serves dev s pas given) : given.length ≤ pas.length := by
  by_contra hlt
  have hg : given[pas.length]? = some given[pas.length] := List.getElem?_eq_getElem (by omega)
  obtain ⟨a, ha, -⟩ := h _ _ hg
  rw [List.getElem?_eq_none (Nat.le_refl _)] at ha
  cases ha

/-- The descriptor after those that serve is set up for one more buffer. -/
theorem Serves.push (h : Serves dev s pas given) (hnodup : pas.Nodup) {a g : Nat} {d : DmaDesc}
    (ha : pas[given.length]? = some a) (hg : dev.axi64Hb[g]? = some d.bufAddr) :
    Serves dev (s.setDesc a d) pas (given ++ [g]) := by
  intro k g' hk
  rcases Nat.lt_trichotomy k given.length with hlt | rfl | hgt
  · rw [List.getElem?_append_left hlt] at hk
    obtain ⟨a', ha', hb'⟩ := h k g' hk
    have hne : a' ≠ a := by
      rintro rfl
      have := getElem?_inj_of_nodup hnodup ha ha'
      omega
    exact ⟨a', ha', by simpa [setDesc, hne] using hb'⟩
  · rw [List.getElem?_append_right (Nat.le_refl _), Nat.sub_self] at hk
    obtain rfl := Option.some.inj hk
    exact ⟨a, ha, by simpa [setDesc] using hg⟩
  · rw [List.getElem?_eq_none (by simp; omega)] at hk
    cases hk

theorem Serves.setDesc (h : Serves dev s pas given) (hnodup : pas.Nodup) {a : Nat} (d : DmaDesc)
    (ha : pas[given.length]? = some a) : Serves dev (s.setDesc a d) pas given := by
  intro k g hk
  obtain ⟨hlt, -⟩ := List.getElem?_eq_some_iff.mp hk
  obtain ⟨a', ha', hb'⟩ := h k g hk
  have hne : a' ≠ a := by
    rintro rfl
    have := getElem?_inj_of_nodup hnodup ha ha'
    omega
  exact ⟨a', ha', by simpa [AxiPool.setDesc, hne] using hb'⟩

theorem Serves.relinked {s' : AxiPool} (h : Serves dev s pas given) (hrel : Relinked s s') :
    Serves dev s' pas given := by
  intro k g hk
  obtain ⟨a, ha, hb⟩ := h k g hk
  exact ⟨a, ha, by rw [hrel.bufAddr, hb]⟩

/-- More descriptors, none of those that serve another. -/
theorem Serves.mono {pas' : List Nat} {s' : AxiPool} (h : Serves dev s pas given)
    (hpas : ∀ k, k < given.length → pas'[k]? = pas[k]?) (hdesc : s'.desc = s.desc) :
    Serves dev s' pas' given := by
  intro k g hk
  obtain ⟨hlt, -⟩ := List.getElem?_eq_some_iff.mp hk
  obtain ⟨a, ha, hb⟩ := h k g hk
  exact ⟨a, by rw [hpas k hlt, ha], by rw [hdesc, hb]⟩

theorem Wraps.held (h : Wraps s pas m) : s.held = pas := by
  rw [AxiPool.held, h.1, List.filterMap_append, List.filterMap_map, List.filterMap_replicate]
  simp

/-- The first wrapper that has none gets a descriptor. -/
theorem allocDesc_spec (dev : AxiDev) (h : Wraps s pas (m + 1)) :
    Wraps (s.allocDesc dev pas.length).2 (pas ++ [(s.allocDesc dev pas.length).1]) m := by
  refine ⟨?_, ?_⟩
  · simp only [allocDesc]
    rw [h.1, List.set_append_right _ _ (by simp), List.length_map, Nat.sub_self,
      List.replicate_succ, List.set_cons_zero, List.map_append, List.append_assoc]
    rfl
  · have hfresh := dev.pool.fresh s.held
    rw [h.held] at hfresh
    simp only [allocDesc, h.held]
    exact List.Nodup.append h.2 (List.nodup_singleton _) (List.disjoint_singleton.mpr hfresh)

theorem ensureDesc_spec (dev : AxiDev) (h : Wraps s pas m) {w : Nat} (hle : w ≤ pas.length)
    (hge : pas.length ≤ w + 1) (hlt : w < pas.length + m) :
    ∃ a s' pas' m', s.ensureDesc dev w = some (a, s') ∧ Wraps s' pas' m' ∧
      pas'.length = w + 1 ∧ pas'.length + m' = pas.length + m ∧ pas'[w]? = some a ∧
      (∀ k, k < w → pas'[k]? = pas[k]?) ∧ s'.desc = s.desc ∧ s'.dumpPa = s.dumpPa ∧
      s'.segments = s.segments := by
  rcases Nat.eq_or_lt_of_le hle with rfl | hlt'
  · obtain ⟨m, rfl⟩ : ∃ m', m = m' + 1 := ⟨m - 1, by omega⟩
    have hnone : s.channelWrappers[pas.length]? = some none := by
      rw [h.1, List.getElem?_append_right (by simp)]
      simp
    refine ⟨_, _, _, m, by rw [ensureDesc, hnone], allocDesc_spec dev h, by simp, by simp; omega,
      by simp, fun k hk => List.getElem?_append_left hk, rfl, rfl, rfl⟩
  · have ha : pas[w]? = some pas[w] := List.getElem?_eq_getElem hlt'
    have hsome : s.channelWrappers[w]? = some (some pas[w]) := by
      rw [h.1, List.getElem?_append_left (by simpa using hlt'), List.getElem?_map, ha]
      rfl
    exact ⟨_, s, pas, m, by rw [ensureDesc, hsome], h, by omega, rfl, ha, fun _ _ => rfl, rfl, rfl,
      rfl⟩

/-- The descriptors of a load without a table. -/
theorem buildNonseg_spec : ∀ (left : Nat) (s : AxiPool) (pas : List Nat), Wraps s pas left →
    Serves dev s pas (List.range pas.length) → pas.length + left ≤ dev.axi64Hb.length →
    ∃ s' pas', buildNonseg dev left pas.length s = some s' ∧ Wraps s' pas' 0 ∧
      pas'.length = pas.length + left ∧ Serves dev s' pas' (List.range pas'.length) ∧
      s'.segments = s.segments := by
  intro left
  induction left with
  | zero => exact fun s pas h hserves _ => ⟨s, pas, rfl, h, rfl, hserves, rfl⟩
  | succ left ih =>
      intro s pas h hserves hle
      have hhb : dev.axi64Hb[pas.length]? = some dev.axi64Hb[pas.length] :=
        List.getElem?_eq_getElem (by omega)
      have hwraps := allocDesc_spec dev h
      generalize hnew : s.allocDesc dev pas.length = new at hwraps
      have hdesc : new.2.desc = s.desc := by rw [← hnew]; rfl
      have hsegs : new.2.segments = s.segments := by rw [← hnew]; rfl
      have hserves' : Serves dev new.2 (pas ++ [new.1]) (List.range pas.length) :=
        hserves.mono (fun k hk => List.getElem?_append_left (by simpa using hk)) hdesc
      have hpush := hserves'.push (d := { DmaDesc.zero with bufAddr := dev.axi64Hb[pas.length] })
        hwraps.2 (a := new.1) (by simp) hhb
      rw [← List.range_succ] at hpush
      have hlen : (pas ++ [new.1]).length = pas.length + 1 := by simp
      obtain ⟨s', pas', hs', hw', hl', hserves'', hsegs'⟩ :=
        ih (new.2.setDesc new.1 { DmaDesc.zero with bufAddr := dev.axi64Hb[pas.length] })
          (pas ++ [new.1]) hwraps (by rw [hlen]; exact hpush) (by omega)
      refine ⟨s', pas', ?_, hw', by omega, hserves'', hsegs'.trans hsegs⟩
      rw [hlen] at hs'
      rw [buildNonseg, hhb]
      simp only [Option.bind_eq_bind, Option.bind_some, hnew]
      exact hs'

/-- The variables while a table is gone through, with the blocks that are done. -/
structure Building (dev : AxiDev) (last size : Nat) (done : List SegmentMode) (c : Cursors)
    (s : AxiPool) (pas : List Nat) (m : Nat) : Prop where
  wraps : Wraps s pas m
  size : pas.length + m = size
  wrapper : c.wrapper = (place last last done).length
  fits : pas.length ≤ c.wrapper + 1
  ihb : c.ihb = last - (last - done.count .store)
  serves : Serves dev s pas ((place last last done).map Prod.snd)
  dump : dev.axi64Hb[last]? = some s.dumpPa

theorem Building.le {last size : Nat} {done : List SegmentMode} {c : Cursors}
    (h : Building dev last size done c s pas m) : c.wrapper ≤ pas.length := by
  have := h.serves.length_le
  rw [List.length_map] at this
  rw [h.wrapper]
  exact this

/-- One more block, with the descriptor at `a` for the buffer of number `g`. -/
theorem Building.add {last size : Nat} {done : List SegmentMode} {c : Cursors} {mode : SegmentMode}
    {g a : Nat} {d : DmaDesc} (ihb : Nat) (hplace : place last last (done ++ [mode]) =
      place last last done ++ [(mode, g)]) (hw : c.wrapper = (place last last done).length)
    (hwraps : Wraps s pas m) (hlen : pas.length = c.wrapper + 1) (hsize : pas.length + m = size)
    (ha : pas[c.wrapper]? = some a)
    (hserves : Serves dev s pas ((place last last done).map Prod.snd))
    (hg : dev.axi64Hb[g]? = some d.bufAddr) (hdump : dev.axi64Hb[last]? = some s.dumpPa)
    (hihb : ihb = last - (last - (done ++ [mode]).count .store)) :
    Building dev last size (done ++ [mode]) ⟨c.wrapper + 1, ihb⟩ (s.setDesc a d) pas m where
  wraps := hwraps
  size := hsize
  wrapper := by
    rw [hplace, List.length_append, ← hw]
    rfl
  fits := by
    rw [hlen]
    exact Nat.le_succ _
  ihb := hihb
  serves := by
    have hglen : ((place last last done).map Prod.snd).length = c.wrapper := by
      rw [List.length_map, hw]
    rw [hplace, List.map_append]
    exact hserves.push hwraps.2 (by rw [hglen]; exact ha) hg
  dump := hdump

theorem buildBlocks_spec {last size : Nat} (mode : SegmentMode) :
    ∀ (left : Nat) (done : List SegmentMode) (c : Cursors) (s : AxiPool) (pas : List Nat) (m : Nat),
      Building dev last size done c s pas m →
      (∀ i, i < left → (place last last (done ++ List.replicate i mode)).length < size) →
      ∃ c' s' pas' m', buildBlocks dev last mode left c s = some (c', s') ∧
        Building dev last size (done ++ List.replicate left mode) c' s' pas' m' ∧
        s'.segments = s.segments := by
  intro left
  induction left with
  | zero =>
      intro done c s pas m h _
      exact ⟨c, s, pas, m, rfl, by simpa using h, rfl⟩
  | succ left ih =>
      intro done c s pas m h hroom
      have hlt : c.wrapper < size := by
        have := hroom 0 (Nat.succ_pos _)
        rw [List.replicate_zero, List.append_nil] at this
        rw [h.wrapper]
        exact this
      obtain ⟨a, s1, pas1, m1, hensure, hw1, hlen1, hsize1, ha, hbefore, hdesc, hdump, hsegs⟩ :=
        ensureDesc_spec dev h.wraps h.le h.fits (by rw [h.size]; exact hlt)
      have hglen : ((place last last done).map Prod.snd).length = c.wrapper := by
        rw [List.length_map, h.wrapper]
      have hserves1 : Serves dev s1 pas1 ((place last last done).map Prod.snd) :=
        h.serves.mono (fun k hk => hbefore k (by omega)) hdesc
      have hserves2 := hserves1.setDesc hw1.2 DmaDesc.zero (by rw [hglen]; exact ha)
      have hsize2 : pas1.length + m1 = size := hsize1.trans h.size
      have hdump1 : dev.axi64Hb[last]? = some s1.dumpPa := by
        rw [hdump]
        exact h.dump
      have hrest : ∀ i, i < left →
          (place last last ((done ++ [mode]) ++ List.replicate i mode)).length < size := by
        intro i hi
        have := hroom (i + 1) (by omega)
        rwa [List.replicate_succ, List.append_cons] at this
      rw [buildBlocks, hensure, List.replicate_succ, List.append_cons]
      simp only [Option.bind_eq_bind, Option.bind_some]
      cases mode with
      | dump =>
          have hplace : place last last (done ++ [.dump]) =
              place last last done ++ [(.dump, last)] := by
            rw [place_append, place, place]
          have hadd := Building.add (s := s1.setDesc a DmaDesc.zero)
            (d := { DmaDesc.zero with bufAddr := s1.dumpPa, control := dev.bufferlen })
            c.ihb hplace h.wrapper hw1 hlen1 hsize2 ha hserves2 hdump1 hdump1
            (by simpa using h.ihb)
          obtain ⟨c', s', pas', m', hs', hb', hsegs'⟩ := ih _ _ _ _ _ hadd hrest
          exact ⟨c', s', pas', m', hs', hb', hsegs'.trans hsegs⟩
      | store =>
          have hihb := h.ihb
          by_cases hout : last ≤ c.ihb
          · -- the last host buffer is for the dump: no more blocks are stored
            have hzero : last - done.count .store = 0 := by omega
            have hplace : place last last (done ++ [.store] ++ List.replicate left .store) =
                place last last done := by
              have := @place_zero_store last (left + 1)
              rw [List.replicate_succ] at this
              rw [List.append_assoc, place_append, hzero, List.singleton_append, this,
                List.append_nil]
            refine ⟨c, s1.setDesc a DmaDesc.zero, pas1, m1, if_pos hout, ?_, hsegs⟩
            exact
              { wraps := hw1
                size := hsize2
                wrapper := by rw [hplace]; exact h.wrapper
                fits := by omega
                ihb := by
                  rw [hihb, List.count_append, List.count_append]
                  omega
                serves := by rw [hplace]; exact hserves2
                dump := hdump1 }
          · obtain ⟨n, hn⟩ : ∃ n, last - done.count .store = n + 1 :=
              ⟨last - done.count .store - 1, by omega⟩
            have hplace : place last last (done ++ [.store]) =
                place last last done ++ [(.store, c.ihb)] := by
              rw [place_append, hn, place, place, ← hn, ← hihb]
            have hlast := (List.getElem?_eq_some_iff.mp h.dump).1
            have hhb : dev.axi64Hb[c.ihb]? = some dev.axi64Hb[c.ihb] :=
              List.getElem?_eq_getElem (by omega)
            have hadd := Building.add (s := s1.setDesc a DmaDesc.zero)
              (d := { DmaDesc.zero with bufAddr := dev.axi64Hb[c.ihb], control := dev.bufferlen })
              (c.ihb + 1) hplace h.wrapper hw1 hlen1 hsize2 ha hserves2 hhb hdump1
              (by
                rw [List.count_append, List.count_singleton_self]
                omega)
            obtain ⟨c', s', pas', m', hs', hb', hsegs'⟩ := ih _ _ _ _ _ hadd hrest
            refine ⟨c', s', pas', m', ?_, hb', hsegs'.trans hsegs⟩
            rw [if_neg hout, hhb, Option.bind_some]
            exact hs'

/-- The blocks that segments ask for. -/
def blocksOf (table : List AxiSegment) : List SegmentMode :=
  table.flatMap fun segment => List.replicate segment.nblocks segment.mode

theorem blocksOf_cons (segment : AxiSegment) (rest : List AxiSegment) :
    blocksOf (segment :: rest) = List.replicate segment.nblocks segment.mode ++ blocksOf rest := rfl

theorem buildSegments_spec {last size : Nat} :
    ∀ (table : List AxiSegment) (done : List SegmentMode) (c : Cursors) (s : AxiPool)
      (pas : List Nat) (m : Nat), Building dev last size done c s pas m →
      (∀ i, i < (blocksOf table).length →
        (place last last (done ++ (blocksOf table).take i)).length < size) →
      ∃ c' s' pas' m', buildSegments dev last table c s = some (c', s') ∧
        Building dev last size (done ++ blocksOf table) c' s' pas' m' ∧
        s'.segments = s.segments := by
  intro table
  induction table with
  | nil =>
      intro done c s pas m h _
      exact ⟨c, s, pas, m, rfl, by simpa [blocksOf] using h, rfl⟩
  | cons segment rest ih =>
      intro done c s pas m h hroom
      rw [blocksOf_cons] at hroom ⊢
      obtain ⟨c1, s1, pas1, m1, hs1, hb1, hsegs1⟩ :=
        buildBlocks_spec segment.mode segment.nblocks done c s pas m h (by
          intro i hi
          have := hroom i (by rw [List.length_append, List.length_replicate]; omega)
          rwa [List.take_append_of_le_length (by simpa using Nat.le_of_lt hi), List.take_replicate,
            Nat.min_eq_left (Nat.le_of_lt hi)] at this)
      obtain ⟨c2, s2, pas2, m2, hs2, hb2, hsegs2⟩ := ih _ c1 s1 pas1 m1 hb1 (by
        intro i hi
        have := hroom (segment.nblocks + i) (by
          rw [List.length_append, List.length_replicate]
          omega)
        rwa [List.take_append, List.length_replicate, Nat.add_sub_cancel_left,
          List.take_of_length_le (by simp), ← List.append_assoc] at this)
      refine ⟨c2, s2, pas2, m2, ?_, by rwa [← List.append_assoc], hsegs2.trans hsegs1⟩
      rw [buildSegments, hs1]
      exact hs2

end build

/-! ### The shape, from what there is -/

section shape

variable {dev : AxiDev} {par : AxiParams} {s : AxiPool} {pas given : List Nat} {m n : Nat}

theorem active_eq (h : Wraps s pas m) (hn : s.activeDescriptors = n) (hle : n ≤ pas.length) :
    s.active = pas.take n := by
  rw [active, hn, h.1, List.take_append_of_le_length (by simpa using hle), ← List.map_take,
    List.filterMap_map]
  simp

theorem visits_of_tied (h : Wraps s pas m) (hn : s.activeDescriptors = n) (hpos : 0 < n)
    (hle : n ≤ pas.length) (htied : Tied par s (pas.take n)) :
    ∃ first, s.va 0 = some first ∧ s.active.Nodup ∧
      List.iterate s.next first s.activeDescriptors = s.active ∧
      s.next^[s.activeDescriptors] first =
        if par.axiOneshot = 0 then first else s.next^[s.activeDescriptors - 1] first := by
  have hlen : (pas.take n).length = n := by
    rw [List.length_take]
    omega
  obtain ⟨first, rest, hchain⟩ : ∃ first rest, pas.take n = first :: rest :=
    List.exists_cons_of_length_pos (by omega)
  have hfirst : pas[0]? = some first := by
    rw [← List.getElem?_take_of_lt hpos, hchain]
    rfl
  have hrest : n = rest.length + 1 := by
    rw [← hlen, hchain, List.length_cons]
  have hlinks := htied.links
  have hlast := htied.last
  rw [hchain] at hlinks hlast
  refine ⟨first, h.va hfirst, ?_, ?_, ?_⟩
  · rw [active_eq h hn hle]
    exact h.2.sublist (List.take_sublist _ _)
  · rw [active_eq h hn hle, hn, hchain, hrest]
    exact Links.iterate_of_isChain hlinks
  · rw [hn, hrest, Links.iterate_length hlinks, Nat.add_sub_cancel, Links.iterate_last hlinks]
    exact hlast first _ rfl (List.getLast?_eq_some_getLast (List.cons_ne_nil _ _))

/-- The address of the host buffer with this number. -/
def hostBuf (dev : AxiDev) (g : Nat) : Nat := dev.axi64Hb.getD g 0

theorem hostBuf_inj {g g' : Nat} (hg : g < dev.axi64Hb.length) (hg' : g' < dev.axi64Hb.length)
    (h : hostBuf dev g = hostBuf dev g') : g = g' := by
  unfold hostBuf at h
  rw [List.getD_eq_getElem _ _ hg, List.getD_eq_getElem _ _ hg'] at h
  exact (List.Nodup.getElem_inj_iff dev.nodup).mp h

theorem bufAddrs_eq (h : Wraps s pas m) (hn : s.activeDescriptors = n) (hle : n ≤ given.length)
    (hserves : Serves dev s pas given) : s.bufAddrs = (given.take n).map (hostBuf dev) := by
  have hlen := hserves.length_le
  rw [bufAddrs, active_eq h hn (by omega)]
  refine List.ext_getElem? fun k => ?_
  rw [List.getElem?_map, List.getElem?_map]
  rcases Nat.lt_or_ge k n with hk | hk
  · have hg : given[k]? = some given[k] := List.getElem?_eq_getElem (by omega)
    obtain ⟨a, ha, hb⟩ := hserves k _ hg
    rw [List.getElem?_take_of_lt hk, List.getElem?_take_of_lt hk, ha, hg]
    simp only [Option.map_some, hostBuf, List.getD_eq_getElem?_getD, hb, Option.getD_some]
  · rw [List.getElem?_take_eq_none hk, List.getElem?_take_eq_none hk]
    rfl

theorem Serves.lt (hserves : Serves dev s pas given) {g : Nat} (hg : g ∈ given) :
    g < dev.axi64Hb.length := by
  obtain ⟨k, hk⟩ := List.mem_iff_getElem?.mp hg
  obtain ⟨a, -, hb⟩ := hserves k g hk
  exact (List.getElem?_eq_some_iff.mp hb).1

theorem ownBuffers_of_nodup {gs : List Nat} (hnodup : gs.Nodup)
    (hlt : ∀ g ∈ gs, g < dev.axi64Hb.length) : OwnBuffers dev (gs.map (hostBuf dev)) := by
  refine ⟨?_, ?_⟩
  · exact List.Nodup.map_on (fun g hg g' hg' h => hostBuf_inj (hlt g hg) (hlt g' hg') h) hnodup
  · intro b hb
    obtain ⟨g, hg, rfl⟩ := List.mem_map.mp hb
    unfold hostBuf
    rw [List.getD_eq_getElem _ _ (hlt g hg)]
    exact List.getElem_mem _

/-- The buffers that `place` gives are as the blocks ask for. -/
theorem blockBuffers_of_place {last : Nat} {blocks : List SegmentMode} {dumpPa : Nat}
    (hlast : last < dev.axi64Hb.length) (hdump : dumpPa = hostBuf dev last) :
    BlockBuffers dev dumpPa (kept last blocks)
      (((place last last blocks).map Prod.snd).map (hostBuf dev)) := by
  obtain ⟨hpair, hbounds⟩ := place_store blocks (Nat.le_refl last)
  have hzip : (kept last blocks).zip (((place last last blocks).map Prod.snd).map (hostBuf dev)) =
      (place last last blocks).map fun p => (p.1, hostBuf dev p.2) := by
    rw [← place_fst last, List.map_map, List.zip_map']
    rfl
  have hstored : storedBufs (kept last blocks)
      (((place last last blocks).map Prod.snd).map (hostBuf dev)) =
      (((place last last blocks).filter fun p => p.1 = .store).map Prod.snd).map (hostBuf dev) := by
    rw [storedBufs, hzip, List.filter_map, List.map_map, List.map_map]
    rfl
  have hnodup := hpair.imp fun {a b} (hab : a < b) => Nat.ne_of_lt hab
  refine ⟨?_, ?_, ?_, ?_⟩
  · rw [List.length_map, List.length_map, place_length]
  · rw [hstored]
    exact ownBuffers_of_nodup hnodup fun g hg => Nat.lt_trans (hbounds g hg).2 hlast
  · rw [hstored, hdump]
    intro hmem
    obtain ⟨g, hg, heq⟩ := List.mem_map.mp hmem
    have hlt := (hbounds g hg).2
    have := hostBuf_inj (Nat.lt_trans hlt hlast) hlast heq
    omega
  · rw [hzip]
    intro block hblock hmode
    obtain ⟨p, hp, rfl⟩ := List.mem_map.mp hblock
    simp only at hmode ⊢
    rw [hdump, place_dump p hp hmode]

end shape

/-! ### Loads -/

/-- The pool, and the host buffers that its descriptors were built for, by number. -/
structure Tracked where
  pool : AxiPool
  built : List Nat

namespace Tracked

def builtBy (t : Tracked) : Op → List Nat
  | .segments _ => t.built
  | .load par =>
    if par.axiBufferCount ≤ t.pool.ndescriptors then t.built
    else if t.pool.segments.segmentCursor = 0 then List.range par.axiBufferCount
    else (place (par.axiBufferCount - 1) (par.axiBufferCount - 1)
      t.pool.segments.blocks).map Prod.snd

def step (dev : AxiDev) (t : Tracked) (op : Op) : Option Tracked :=
  (t.pool.step dev op).map fun pool => ⟨pool, t.builtBy op⟩

def start (segments : Nat → AxiSegment) : Tracked := ⟨AxiPool.init segments, []⟩

end Tracked

/-- Each block finds a wrapper, among `size` of them. -/
def Room (size : Nat) (blocks : List SegmentMode) : Prop :=
  ∀ i, i < blocks.length → (kept (size - 1) (blocks.take i)).length < size

/-- No loop of the text begins before the table. -/
def LoopsInside (buffer : List Char) : Prop :=
  ∀ line ∈ SegmentTable.lines buffer, ∀ loop ∈ SegmentTable.sscanfLoop line, 0 ≤ loop.1

/-- A load that the descriptors, or those it builds, are enough for. -/
structure Loadable (dev : AxiDev) (par : AxiParams) (t : Tracked) : Prop where
  tied : par.axiOneshot ≠ 0 ∨ par.axiDebugLoopbackIndex ≤ 0
  pos : 0 < par.axiBufferCount
  /-- It builds the pool: there are the host buffers, and the table asks for some blocks and
  not for too many. -/
  builds : t.pool.ndescriptors < par.axiBufferCount →
    par.axiBufferCount ≤ dev.axi64Hb.length ∧
      (t.pool.segments.segmentCursor ≠ 0 →
        kept (par.axiBufferCount - 1) t.pool.segments.blocks ≠ [] ∧
          Room par.axiBufferCount t.pool.segments.blocks)
  /-- It does not: there is no table, and the pool was built for different buffers. -/
  again : par.axiBufferCount ≤ t.pool.ndescriptors →
    t.pool.segments.segmentCursor = 0 ∧ par.axiBufferCount ≤ t.built.length ∧
      (t.built.take par.axiBufferCount).Nodup

/-- When a step is as it should be. -/
def Allowed (dev : AxiDev) (t : Tracked) : Op → Prop
  | .segments buffer => LoopsInside buffer
  | .load par => Loadable dev par t

/-- The descriptors of the pool serve the buffers they were built for. -/
def Kept (dev : AxiDev) (t : Tracked) : Prop :=
  ∃ pas m, Wraps t.pool pas m ∧ Serves dev t.pool pas t.built

section loads

variable {dev : AxiDev} {par : AxiParams} {t : Tracked}

theorem kept_start (segments : Nat → AxiSegment) : Kept dev (Tracked.start segments) :=
  ⟨[], 0, ⟨rfl, List.nodup_nil⟩, fun k g hk => by cases hk⟩

/-- A finished chain of descriptors that serve these buffers. -/
theorem finalize_serves {s : AxiPool} {pas given : List Nat} {m n : Nat} (h : Wraps s pas m)
    (hserves : Serves dev s pas given)
    (htied : par.axiOneshot ≠ 0 ∨ par.axiDebugLoopbackIndex ≤ 0) (hpos : 0 < n)
    (hle : n ≤ given.length) :
    ∃ s', s._finalizeDescriptorChain dev par n = some s' ∧ Wraps s' pas m ∧
      Serves dev s' pas given ∧ s'.segments = s.segments ∧ s'.dumpPa = s.dumpPa ∧
      s'.activeDescriptors = n ∧ s'.bufAddrs = (given.take n).map (hostBuf dev) ∧
      ∃ first, s'.va 0 = some first ∧ s'.active.Nodup ∧
        List.iterate s'.next first s'.activeDescriptors = s'.active ∧
        s'.next^[s'.activeDescriptors] first =
          if par.axiOneshot = 0 then first else s'.next^[s'.activeDescriptors - 1] first := by
  have hlen := hserves.length_le
  obtain ⟨s', hs', hrel, hact, hchain⟩ :=
    finalize_spec dev h htied hpos (Nat.le_trans hle hlen)
  have hw' : Wraps s' pas m := ⟨hrel.channelWrappers.trans h.1, h.2⟩
  have hserves' := hserves.relinked hrel
  exact ⟨s', hs', hw', hserves', hrel.segments, hrel.dumpPa, hact,
    bufAddrs_eq hw' hact hle hserves',
    visits_of_tied hw' hact hpos (Nat.le_trans hle hlen) hchain⟩

theorem initDescriptorCache_again {s : AxiPool} (hpos : 0 < par.axiBufferCount)
    (hagain : par.axiBufferCount ≤ s.ndescriptors) :
    s.initDescriptorCache dev par = s.initCache dev par par.axiBufferCount false := by
  simp only [initDescriptorCache]
  rw [if_neg (show ¬ (s.ndescriptors ≠ 0 ∧ s.ndescriptors < par.axiBufferCount) by omega),
    if_neg (by omega)]

theorem initDescriptorCache_builds {s : AxiPool} (hbuilds : s.ndescriptors < par.axiBufferCount) :
    s.initDescriptorCache dev par =
      (s.newWrappers par.axiBufferCount).initCache dev par par.axiBufferCount true := by
  simp only [initDescriptorCache]
  by_cases hzero : s.ndescriptors = 0
  · rw [if_neg (show ¬ (s.ndescriptors ≠ 0 ∧ s.ndescriptors < par.axiBufferCount) by omega),
      if_pos hzero]
  · have hdelete : (if s.ndescriptors ≠ 0 ∧ s.ndescriptors < par.axiBufferCount then s.deletePool
        else s) = s.deletePool := if_pos ⟨hzero, hbuilds⟩
    rw [hdelete, if_pos (show s.deletePool.ndescriptors = 0 from rfl)]
    rfl

theorem load_again (h : Kept dev t) (hload : Loadable dev par t)
    (hagain : par.axiBufferCount ≤ t.pool.ndescriptors) :
    ∃ s', t.pool.initDescriptorCache dev par = some s' ∧ Kept dev ⟨s', t.built⟩ ∧
      ChainShape dev par s' := by
  obtain ⟨pas, m, hw, hserves⟩ := h
  obtain ⟨hplain, hle, hnodup⟩ := hload.again hagain
  have hpos := hload.pos
  obtain ⟨s', hs', hw', hserves', hsegs, -, hact, hbufs, hvisits⟩ :=
    finalize_serves hw hserves hload.tied hpos hle
  refine ⟨s', ?_, ⟨pas, m, hw', hserves'⟩, ?_⟩
  · rw [initDescriptorCache_again hpos hagain, initCache, if_neg (not_not.mpr hplain),
      initDescriptorCacheNonseg, if_neg Bool.false_ne_true]
    exact hs'
  · have hplain' : s'.segments.segmentCursor = 0 := by rw [hsegs, hplain]
    refine
      { count := by rw [hact]; exact ⟨hpos, Nat.le_refl _⟩
        visits := hvisits
        plain := fun _ => ?_
        table := fun h => absurd hplain' h
        all := fun h => absurd hplain' h }
    rw [hbufs]
    exact ownBuffers_of_nodup hnodup fun g hg => hserves.lt (List.mem_of_mem_take hg)

theorem wraps_newWrappers (s : AxiPool) (n : Nat) : Wraps (s.newWrappers n) [] n :=
  ⟨rfl, List.nodup_nil⟩

theorem serves_nil (s : AxiPool) : Serves dev s [] [] := fun k g hk => by cases hk

/-- A load without a table that builds the pool. -/
theorem load_plain (hload : Loadable dev par t)
    (hbuilds : t.pool.ndescriptors < par.axiBufferCount)
    (hplain : t.pool.segments.segmentCursor = 0) :
    ∃ s', t.pool.initDescriptorCache dev par = some s' ∧
      Kept dev ⟨s', List.range par.axiBufferCount⟩ ∧ ChainShape dev par s' := by
  have hpos := hload.pos
  obtain ⟨hroom, -⟩ := hload.builds hbuilds
  obtain ⟨s1, pas, hs1, hw, hlen, hserves, hsegs1⟩ :=
    buildNonseg_spec par.axiBufferCount _ [] (wraps_newWrappers t.pool par.axiBufferCount)
      (serves_nil _) (by simpa using hroom)
  rw [List.length_nil, Nat.zero_add] at hlen
  rw [hlen] at hserves
  obtain ⟨s', hs', hw', hserves', hsegs, -, hact, hbufs, hvisits⟩ :=
    finalize_serves hw hserves hload.tied hpos (by rw [List.length_range])
  refine ⟨s', ?_, ⟨pas, 0, hw', hserves'⟩, ?_⟩
  · rw [initDescriptorCache_builds hbuilds, initCache, newWrappers_segments,
      if_neg (not_not.mpr hplain), initDescriptorCacheNonseg, if_pos rfl]
    rw [List.length_nil] at hs1
    rw [hs1]
    exact hs'
  · have hplain' : s'.segments.segmentCursor = 0 := by
      rw [hsegs, hsegs1]
      exact hplain
    refine
      { count := by rw [hact]; exact ⟨hpos, Nat.le_refl _⟩
        visits := hvisits
        plain := fun _ => ?_
        table := fun h => absurd hplain' h
        all := fun h => absurd hplain' h }
    rw [hbufs]
    exact ownBuffers_of_nodup (List.nodup_range.sublist (List.take_sublist _ _))
      fun g hg => hserves.lt (List.mem_of_mem_take hg)

theorem load_table (hload : Loadable dev par t)
    (hbuilds : t.pool.ndescriptors < par.axiBufferCount)
    (htable : t.pool.segments.segmentCursor ≠ 0) :
    ∃ s', t.pool.initDescriptorCache dev par = some s' ∧
      Kept dev ⟨s', (place (par.axiBufferCount - 1) (par.axiBufferCount - 1)
        t.pool.segments.blocks).map Prod.snd⟩ ∧ ChainShape dev par s' := by
  have hpos := hload.pos
  obtain ⟨hbuffers, hblocks⟩ := hload.builds hbuilds
  obtain ⟨hsome, hroom⟩ := hblocks htable
  generalize hlast : par.axiBufferCount - 1 = last at hsome
  have hhb : dev.axi64Hb[last]? = some (hostBuf dev last) := by
    unfold hostBuf
    rw [List.getD_eq_getElem _ _ (by omega)]
    exact List.getElem?_eq_getElem (by omega)
  -- the pool with its new wrappers, and the address of the dump buffer
  have hstart : Building dev last par.axiBufferCount [] ⟨0, 0⟩
      { t.pool.newWrappers par.axiBufferCount with dumpPa := hostBuf dev last } []
      par.axiBufferCount :=
    { wraps := wraps_newWrappers t.pool par.axiBufferCount
      size := Nat.zero_add _
      wrapper := rfl
      fits := Nat.zero_le _
      ihb := by simp
      serves := serves_nil _
      dump := hhb }
  obtain ⟨c, s1, pas, m, hs1, hb, hsegs1⟩ :=
    buildSegments_spec t.pool.segments.table [] _ _ _ _ hstart (by
      intro i hi
      rw [List.nil_append, place_length, ← hlast]
      exact hroom i hi)
  rw [List.nil_append] at hb
  have hblocksEq : blocksOf t.pool.segments.table = t.pool.segments.blocks := rfl
  rw [hblocksEq] at hb
  have hcount : c.wrapper = (kept last t.pool.segments.blocks).length := by
    rw [hb.wrapper, place_length]
  have hcpos : 0 < c.wrapper := by
    rw [hcount]
    exact List.length_pos_iff.mpr hsome
  have hclen : ((place last last t.pool.segments.blocks).map Prod.snd).length = c.wrapper := by
    rw [List.length_map, hb.wrapper]
  obtain ⟨s', hs', hw', hserves', hsegs, hdump, hact, hbufs, hvisits⟩ :=
    finalize_serves hb.wraps hb.serves hload.tied hcpos (Nat.le_of_eq hclen.symm)
  refine ⟨s', ?_, ⟨pas, m, hw', hserves'⟩, ?_⟩
  · rw [initDescriptorCache_builds hbuilds, initCache, newWrappers_segments, if_pos htable,
      initDescriptorCacheSegmented, if_neg (by omega)]
    simp only [hlast, hhb, Option.bind_eq_bind, Option.bind_some, if_true, newWrappers_segments]
    rw [Option.bind_eq_some_iff]
    exact ⟨(c, s1), hs1, hs'⟩
  · have hsegs' : s'.segments = t.pool.segments := hsegs.trans hsegs1
    have hle := hb.le
    have hsize := hb.size
    refine
      { count := by rw [hact]; exact ⟨hcpos, by omega⟩
        visits := hvisits
        plain := fun h => absurd (hsegs' ▸ h) htable
        table := fun _ => ?_
        all := fun _ hlt => kept_eq_self (by omega) }
    rw [hbufs, hsegs', hlast, List.take_of_length_le (Nat.le_of_eq hclen)]
    refine blockBuffers_of_place (by omega) ?_
    rw [hdump]
    exact (Option.some.inj (hb.dump.symm.trans hhb))

/-- A text whose loops are inside the table is taken or rejected. -/
theorem parseLines_total (text : List (List Char)) :
    (∀ line ∈ text, ∀ loop ∈ SegmentTable.sscanfLoop line, 0 ≤ loop.1) →
      ∀ (segments : Nat → AxiSegment) (iseg : Nat),
        ∃ r, SegmentTable.parseLines text segments iseg = some r := by
  induction text with
  | nil => exact fun _ segments iseg => ⟨_, rfl⟩
  | cons line rest ih =>
      intro h segments iseg
      have hrest := ih fun l hl => h l (List.mem_cons_of_mem _ hl)
      rw [SegmentTable.parseLines]
      split
      · exact hrest _ _
      · split
        · rename_i loopstart loopcount hloop
          have hpos : 0 ≤ loopstart := h line List.mem_cons_self _ hloop
          split
          · exact ⟨_, rfl⟩
          · rw [SegmentTable.addLoop, if_neg (by omega)]
            exact hrest _ _
        · split
          · split
            · split
              · exact hrest _ _
              · exact hrest _ _
              · exact ⟨_, rfl⟩
            · exact ⟨_, rfl⟩
          · exact ⟨_, rfl⟩

theorem procSegmentsWrite_total (s : SegmentTable) {buffer : List Char} (h : LoopsInside buffer) :
    ∃ written, s.procSegmentsWrite buffer = some written := by
  unfold SegmentTable.procSegmentsWrite
  split
  · exact ⟨_, rfl⟩
  · obtain ⟨⟨segments, parsed⟩, hparsed⟩ := parseLines_total _ h s.segments 0
    unfold SegmentTable.parseUserSegments
    rw [hparsed]
    cases parsed with
    | error e => exact ⟨_, rfl⟩
    | ok iseg => exact ⟨_, rfl⟩

/-- What a load leaves, whether it builds the pool or finds it there. -/
theorem load_spec (h : Kept dev t) (hload : Loadable dev par t) :
    ∃ s', t.pool.initDescriptorCache dev par = some s' ∧
      Kept dev ⟨s', t.builtBy (.load par)⟩ ∧ ChainShape dev par s' := by
  rw [Tracked.builtBy]
  by_cases hagain : par.axiBufferCount ≤ t.pool.ndescriptors
  · rw [if_pos hagain]
    exact load_again h hload hagain
  · rw [if_neg hagain]
    by_cases hplain : t.pool.segments.segmentCursor = 0
    · rw [if_pos hplain]
      exact load_plain hload (Nat.lt_of_not_le hagain) hplain
    · rw [if_neg hplain]
      exact load_table hload (Nat.lt_of_not_le hagain) hplain

/-- A step that is as it should be is possible, and the descriptors serve on. -/
theorem step_spec (h : Kept dev t) (op : Op) (hop : Allowed dev t op) :
    ∃ t', t.step dev op = some t' ∧ Kept dev t' := by
  cases op with
  | segments buffer =>
      obtain ⟨written, hwritten⟩ := procSegmentsWrite_total t.pool.segments hop
      obtain ⟨pas, m, hw, hserves⟩ := h
      refine ⟨⟨{ t.pool with segments := written.1 }, t.built⟩, ?_, pas, m, hw, hserves⟩
      rw [Tracked.step, AxiPool.step, hwritten]
      rfl
  | load par =>
      obtain ⟨s', hs', hkept, -⟩ := load_spec h hop
      refine ⟨⟨s', t.builtBy (.load par)⟩, ?_, hkept⟩
      rw [Tracked.step, AxiPool.step, hs']
      rfl

/-- The run that is kept track of is the run. -/
theorem run_pool (ops : List Op) : ∀ (t t' : Tracked),
    Lts.run (Tracked.step dev) t ops = some t' →
      Lts.run (AxiPool.step dev) t.pool ops = some t'.pool := by
  induction ops with
  | nil =>
      intro t t' h
      rw [Lts.run_nil] at h ⊢
      rw [Option.some.inj h]
  | cons op rest ih =>
      intro t t' h
      rw [Lts.run_cons, Option.bind_eq_some_iff] at h
      obtain ⟨t1, hstep, hrest⟩ := h
      rw [Tracked.step, Option.map_eq_some_iff] at hstep
      obtain ⟨s1, hs1, rfl⟩ := hstep
      rw [Lts.run_cons, hs1, Option.bind_some]
      exact ih _ _ hrest

end loads

/-- **In a run whose steps are all as they should be, every load leaves a chain of the right
shape.** -/
theorem descriptorChain_shape (dev : AxiDev) (segments : Nat → AxiSegment) (ops : List Op)
    (hops : Lts.Meets (Tracked.step dev) (Allowed dev) (Tracked.start segments) ops) :
    (∃ s, Lts.run (AxiPool.step dev) (AxiPool.init segments) ops = some s) ∧
      ∀ before par after, ops = before ++ Op.load par :: after →
        ∃ s, Lts.run (AxiPool.step dev) (AxiPool.init segments) (before ++ [Op.load par]) = some s ∧
          ChainShape dev par s := by
  have hrun := Lts.run_total_of (Kept dev) fun t op h hop => step_spec h op hop
  refine ⟨?_, ?_⟩
  · obtain ⟨t, ht, -⟩ := hrun ops _ (kept_start segments) hops
    exact ⟨t.pool, run_pool ops _ t ht⟩
  · rintro before par after rfl
    obtain ⟨t, ht, hkept⟩ := hrun before _ (kept_start segments) hops.left
    obtain ⟨s', hs', -, hshape⟩ := load_spec hkept (hops.right ht).1
    have hbefore : Lts.run (AxiPool.step dev) (AxiPool.init segments) before = some t.pool :=
      run_pool before _ t ht
    refine ⟨s', ?_, hshape⟩
    rw [Lts.run_append, hbefore, Option.bind_some, Lts.run_cons, AxiPool.step, hs']
    rfl

/-! ### Six host buffers -/

theorem le_foldr_max {out : List Nat} : ∀ pa ∈ out, pa ≤ out.foldr max 0 := by
  induction out with
  | nil => simp
  | cons a rest ih =>
      intro pa hpa
      rw [List.foldr_cons]
      rcases List.mem_cons.mp hpa with rfl | hpa
      · exact Nat.le_max_left _ _
      · exact Nat.le_trans (ih pa hpa) (Nat.le_max_right _ _)

/-- A pool that gives out the address after those that are out. -/
def nextPool : DmaPool where
  alloc out := out.foldr max 0 + 1
  fresh out h := by
    have := le_foldr_max _ h
    omega

/-- A channel with six host buffers. -/
def sixBuffers : AxiDev where
  pool := nextPool
  bufferlen := 4096
  axi64Hb := [10, 11, 12, 13, 14, 15]
  nodup := by decide

/-- Segments that nobody wrote. -/
def noSegments (_ : Nat) : AxiSegment := ⟨.dump, 0⟩

/-- `+2`, `-1` and both again. -/
def twoAndOne : List Char :=
  ['+', '2', '\n', '-', '1', '\n', 'l', 'o', 'o', 'p', ' ', 't', 'o', '=', '0', ' ',
    'c', 'o', 'u', 'n', 't', '=', '1', '\n']

instance (buffer : List Char) : Decidable (LoopsInside buffer) :=
  inferInstanceAs (Decidable (∀ line ∈ SegmentTable.lines buffer,
    ∀ loop ∈ SegmentTable.sscanfLoop line, 0 ≤ loop.1))

instance (size : Nat) (blocks : List SegmentMode) : Decidable (Room size blocks) :=
  inferInstanceAs (Decidable (∀ i, i < blocks.length → _))

instance (dev : AxiDev) (par : AxiParams) (t : Tracked) : Decidable (Loadable dev par t) :=
  decidable_of_iff (_ ∧ _ ∧ (_ → _ ∧ (_ → _ ∧ _)) ∧ (_ → _ ∧ _ ∧ _))
    ⟨fun h => ⟨h.1, h.2.1, h.2.2.1, h.2.2.2⟩, fun h => ⟨h.tied, h.pos, h.builds, h.again⟩⟩

instance (dev : AxiDev) (t : Tracked) : (op : Op) → Decidable (Allowed dev t op)
  | .segments buffer => inferInstanceAs (Decidable (LoopsInside buffer))
  | .load par => inferInstanceAs (Decidable (Loadable dev par t))

def fourDescriptors : AxiParams := ⟨4, 0, 0⟩
def sixDescriptors : AxiParams := ⟨6, 0, 0⟩

/-- Two loads without a table, and one with it that takes more descriptors. -/
theorem descriptorChain_shape_six :
    (∃ s, Lts.run (AxiPool.step sixBuffers) (AxiPool.init noSegments)
      [.load fourDescriptors, .load fourDescriptors, .segments twoAndOne,
        .load sixDescriptors] = some s) ∧
      ∀ before par after, [Op.load fourDescriptors, .load fourDescriptors, .segments twoAndOne,
          .load sixDescriptors] = before ++ Op.load par :: after →
        ∃ s, Lts.run (AxiPool.step sixBuffers) (AxiPool.init noSegments)
            (before ++ [Op.load par]) = some s ∧
          ChainShape sixBuffers par s :=
  descriptorChain_shape sixBuffers noSegments _ (by decide)

/-- Loaded once more, the table has no descriptors at all, and the driver runs off its array. -/
theorem descriptorChain_reload :
    (Lts.run (AxiPool.step sixBuffers) (AxiPool.init noSegments)
      [.segments twoAndOne, .load sixDescriptors]).isSome ∧
    ¬ ∃ s, Lts.run (AxiPool.step sixBuffers) (AxiPool.init noSegments)
        ([.segments twoAndOne, .load sixDescriptors] ++ [Op.load sixDescriptors]) = some s ∧
      ChainShape sixBuffers sixDescriptors s := by
  have hrun : Lts.run (AxiPool.step sixBuffers) (AxiPool.init noSegments)
      ([.segments twoAndOne, .load sixDescriptors] ++ [Op.load sixDescriptors]) = none := by
    rw [← Option.isNone_iff_eq_none]
    decide
  refine ⟨by decide, ?_⟩
  rintro ⟨s, hs, -⟩
  rw [hrun] at hs
  cases hs

end AxiPool

end Acq400
