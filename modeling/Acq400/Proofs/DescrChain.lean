/-
The chain of descriptors after each load.

`_finalize_descriptor_chain` makes a ring of whatever descriptors there are, so the
shape of the chain is a matter of which ones there are.  Without a table a load has
as many as it asks for, from the load that built them on.  With a table it has them
only if it builds them itself: a load that finds them there begins with none, and ties
off the one before the first.  Nor does a table that asks for more than there is stop
at the end of the array: what stops it is that it runs out of buffers to store to.
-/
import Acq400.Lib.Run
import Acq400.Lib.Links
import Acq400.Driver.AxiDma

namespace Acq400

namespace AxiPool

/-- The descriptor that the one at this address leads to. -/
def next (s : AxiPool) (pa : Nat) : Nat := (s.desc pa).nextDesc

/-- The two differ in what their descriptors lead to at most. -/
structure Relinked (s s' : AxiPool) : Prop where
  ndescriptors : s'.ndescriptors = s.ndescriptors
  channelWrappers : s'.channelWrappers = s.channelWrappers
  dumpPa : s'.dumpPa = s.dumpPa
  segments : s'.segments = s.segments
  bufAddr : ∀ pa, (s'.desc pa).bufAddr = (s.desc pa).bufAddr

namespace Relinked

theorem refl (s : AxiPool) : Relinked s s := ⟨rfl, rfl, rfl, rfl, fun _ => rfl⟩

theorem trans {s s' s'' : AxiPool} (h : Relinked s s') (h' : Relinked s' s'') : Relinked s s'' :=
  ⟨h'.ndescriptors.trans h.ndescriptors, h'.channelWrappers.trans h.channelWrappers,
    h'.dumpPa.trans h.dumpPa, h'.segments.trans h.segments,
    fun pa => (h'.bufAddr pa).trans (h.bufAddr pa)⟩

end Relinked

section link

variable {dev : AxiDev} {par : AxiParams} {s : AxiPool} {pas : List Nat} {m : Nat}

/-- The first wrappers have the descriptors at these addresses, the other `m` have none. -/
def Wraps (s : AxiPool) (pas : List Nat) (m : Nat) : Prop :=
  s.channelWrappers = pas.map some ++ List.replicate m none ∧ pas.Nodup

theorem Wraps.va (h : Wraps s pas m) {k a : Nat} (hk : pas[k]? = some a) : s.va k = some a := by
  obtain ⟨hlt, -⟩ := List.getElem?_eq_some_iff.mp hk
  rw [AxiPool.va, h.1, List.getElem?_append_left (by simpa using hlt), List.getElem?_map, hk]
  rfl

theorem Wraps.pa (h : Wraps s pas m) {k a : Nat} (hk : pas[k]? = some a) : s.pa k = some a := by
  obtain ⟨hlt, -⟩ := List.getElem?_eq_some_iff.mp hk
  rw [AxiPool.pa, h.1, List.getElem?_append_left (by simpa using hlt), List.getElem?_map, hk]
  rfl

theorem getElem?_inj_of_nodup {l : List Nat} (hl : l.Nodup) {i j a : Nat} (hi : l[i]? = some a)
    (hj : l[j]? = some a) : i = j := by
  obtain ⟨hlt, -⟩ := List.getElem?_eq_some_iff.mp hi
  exact (List.getElem?_inj hlt hl).mp (hi.trans hj.symm)

theorem relinked_setDesc (dev : AxiDev) (par : AxiParams) (s : AxiPool) (va nextDesc : Nat) :
    Relinked s (s.setDesc va (finish dev par (s.desc va) nextDesc)) := by
  refine ⟨rfl, rfl, rfl, rfl, fun pa => ?_⟩
  by_cases hpa : pa = va
  · subst hpa
    simp [setDesc, finish]
  · simp [setDesc, hpa]

theorem linkUp_spec (dev : AxiDev) (par : AxiParams) :
    ∀ (left cursor : Nat) (s : AxiPool), Wraps s pas m →
    cursor + left < pas.length →
    ∃ s', linkUp dev par left cursor s = some s' ∧ Relinked s s' ∧
      (∀ k a b, cursor ≤ k → k < cursor + left → pas[k]? = some a → pas[k + 1]? = some b →
        s'.next a = b) ∧
      ∀ pa, (∀ k, cursor ≤ k → k < cursor + left → pas[k]? ≠ some pa) →
        s'.desc pa = s.desc pa := by
  intro left
  induction left with
  | zero =>
      intro cursor s h hlt
      refine ⟨s, rfl, Relinked.refl s, ?_, fun pa _ => rfl⟩
      intro k a b hle hk
      omega
  | succ left ih =>
      intro cursor s h hlt
      have hcur : pas[cursor]? = some pas[cursor] := List.getElem?_eq_getElem (by omega)
      have hnext : pas[cursor + 1]? = some pas[cursor + 1] := List.getElem?_eq_getElem (by omega)
      have hstep := relinked_setDesc dev par s pas[cursor] pas[cursor + 1]
      obtain ⟨s', hs', hrel, hlinks, hframe⟩ :=
        ih (cursor + 1)
          (s.setDesc pas[cursor] (finish dev par (s.desc pas[cursor]) pas[cursor + 1]))
          h (by omega)
      refine ⟨s', ?_, hstep.trans hrel, ?_, ?_⟩
      · simp only [linkUp, h.va hcur, h.pa hnext, Option.bind_eq_bind, Option.bind_some]
        exact hs'
      · intro k a b hle hk ha hb
        rcases Nat.eq_or_lt_of_le hle with rfl | hlt'
        · obtain rfl := Option.some.inj (hcur.symm.trans ha)
          obtain rfl := Option.some.inj (hnext.symm.trans hb)
          -- no later one is at this address
          have hother : ∀ k, cursor + 1 ≤ k → k < cursor + 1 + left →
              pas[k]? ≠ some pas[cursor] := by
            intro k hle _ hk
            have := getElem?_inj_of_nodup h.2 hcur hk
            omega
          rw [AxiPool.next, hframe _ hother]
          simp [setDesc, finish]
        · exact hlinks k a b hlt' (by omega) ha hb
      · intro pa hpa
        have hne : pa ≠ pas[cursor] := by
          rintro rfl
          exact hpa cursor (Nat.le_refl _) (by omega) hcur
        rw [hframe pa fun k hle hk => hpa k (by omega) (by omega)]
        simp [setDesc, hne]

/-- A chain that is tied off where it is to be. -/
structure Tied (par : AxiParams) (s : AxiPool) (chain : List Nat) : Prop where
  links : chain.IsChain (Links.To s.next)
  last : ∀ first last, chain.head? = some first → chain.getLast? = some last →
    s.next last = if par.axiOneshot = 0 then first else last

theorem finalize_spec (dev : AxiDev) (h : Wraps s pas m)
    (htied : par.axiOneshot ≠ 0 ∨ par.axiDebugLoopbackIndex ≤ 0) {n : Nat} (hpos : 0 < n)
    (hn : n ≤ pas.length) :
    ∃ s', s._finalizeDescriptorChain dev par n = some s' ∧ Relinked s s' ∧
      s'.activeDescriptors = n ∧ Tied par s' (pas.take n) := by
  obtain ⟨s1, hs1, hrel, hlinks, -⟩ :=
    linkUp_spec dev par (n - 1) 0 s h (by omega)
  have h1 : Wraps s1 pas m := ⟨hrel.channelWrappers.trans h.1, h.2⟩
  have hlast : pas[n - 1]? = some pas[n - 1] := List.getElem?_eq_getElem (by omega)
  have hfirst : pas[0]? = some pas[0] := List.getElem?_eq_getElem (by omega)
  have htie : s1.tieOff par (n - 1) = some (if par.axiOneshot = 0 then pas[0] else pas[n - 1]) := by
    unfold tieOff
    by_cases hone : par.axiOneshot = 0
    · rw [if_neg (by simpa using hone), if_neg (by omega), if_pos hone, h1.pa hfirst]
    · rw [if_pos hone, if_neg hone, h1.pa hlast]
  generalize hend : (if par.axiOneshot = 0 then pas[0] else pas[n - 1]) = tie at htie
  have hrel' := relinked_setDesc dev par s1 pas[n - 1] tie
  refine ⟨{ s1.setDesc pas[n - 1] (finish dev par (s1.desc pas[n - 1]) tie) with
    activeDescriptors := n }, ?_, ?_, rfl, ?_⟩
  · rw [_finalizeDescriptorChain, if_neg (by omega)]
    simp only [hs1, h1.va hlast, htie, Option.bind_eq_bind, Option.bind_some]
    rfl
  · exact ⟨(hrel.trans hrel').ndescriptors, (hrel.trans hrel').channelWrappers,
      (hrel.trans hrel').dumpPa, (hrel.trans hrel').segments, (hrel.trans hrel').bufAddr⟩
  · refine ⟨?_, ?_⟩
    · rw [List.isChain_iff_getElem]
      intro k hk
      rw [List.length_take] at hk
      have ha : pas[k]? = some pas[k] := List.getElem?_eq_getElem (by omega)
      have hb : pas[k + 1]? = some pas[k + 1] := List.getElem?_eq_getElem (by omega)
      have hne : pas[k] ≠ pas[n - 1] := by
        intro heq
        rw [heq] at ha
        have := getElem?_inj_of_nodup h.2 ha hlast
        omega
      have hlink := hlinks k _ _ (Nat.zero_le _) (by omega) ha hb
      rw [List.getElem_take, List.getElem_take]
      simp only [Links.To, AxiPool.next, setDesc, Function.update_of_ne hne]
      exact hlink
    · intro first last hf hl
      have hlen : (pas.take n).length = n := by
        rw [List.length_take]
        omega
      rw [List.head?_eq_getElem?, List.getElem?_take_of_lt hpos, hfirst] at hf
      rw [List.getLast?_eq_getElem?, hlen, List.getElem?_take_of_lt (by omega), hlast] at hl
      obtain rfl := Option.some.inj hf
      obtain rfl := Option.some.inj hl
      simp only [AxiPool.next, setDesc, Function.update_self, finish]
      exact hend.symm

end link

/-! ### What the chain is to be -/

/-- The descriptors in use. -/
def active (s : AxiPool) : List Nat := (s.channelWrappers.take s.activeDescriptors).filterMap id

/-- The addresses they have their data written to. -/
def bufAddrs (s : AxiPool) : List Nat := s.active.map fun pa => (s.desc pa).bufAddr

end AxiPool

/-- The blocks, without those to store for which there is none of `n` host buffers left. -/
@[simp] def kept : Nat → List SegmentMode → List SegmentMode
  | _, [] => []
  | n, .dump :: rest => .dump :: kept n rest
  | 0, .store :: rest => kept 0 rest
  | n + 1, .store :: rest => .store :: kept n rest

/-- The buffers of the blocks to store. -/
def storedBufs (modes : List SegmentMode) (bufs : List Nat) : List Nat :=
  ((modes.zip bufs).filter fun block => block.1 = .store).map Prod.snd

/-- These are different host buffers. -/
structure OwnBuffers (dev : AxiDev) (bufs : List Nat) : Prop where
  nodup : bufs.Nodup
  host : ∀ b ∈ bufs, b ∈ dev.axi64Hb

/-- The buffers are as the blocks ask for. -/
structure BlockBuffers (dev : AxiDev) (dumpPa : Nat) (modes : List SegmentMode)
    (bufs : List Nat) : Prop where
  length : bufs.length = modes.length
  own : OwnBuffers dev (storedBufs modes bufs)
  notDump : dumpPa ∉ storedBufs modes bufs
  dumped : ∀ block ∈ modes.zip bufs, block.1 = .dump → block.2 = dumpPa

/-- What is asked of the chain after a load. -/
structure ChainShape (dev : AxiDev) (par : AxiParams) (s : AxiPool) : Prop where
  count : 0 < s.activeDescriptors ∧ s.activeDescriptors ≤ par.axiBufferCount
  /-- Each descriptor in use is visited once, and then comes the first again, or the last. -/
  visits : ∃ first, s.va 0 = some first ∧ s.active.Nodup ∧
    List.iterate s.next first s.activeDescriptors = s.active ∧
    s.next^[s.activeDescriptors] first =
      if par.axiOneshot = 0 then first else s.next^[s.activeDescriptors - 1] first
  plain : s.segments.segmentCursor = 0 → OwnBuffers dev s.bufAddrs
  table : s.segments.segmentCursor ≠ 0 →
    BlockBuffers dev s.dumpPa (kept (par.axiBufferCount - 1) s.segments.blocks) s.bufAddrs
  /-- A block is left out only if there are more to store than host buffers. -/
  all : s.segments.segmentCursor ≠ 0 → s.segments.blocks.count .store < par.axiBufferCount →
    kept (par.axiBufferCount - 1) s.segments.blocks = s.segments.blocks

theorem kept_eq_self {n : Nat} {blocks : List SegmentMode} (h : blocks.count .store ≤ n) :
    kept n blocks = blocks := by
  induction blocks generalizing n with
  | nil => rfl
  | cons mode rest ih =>
      cases mode with
      | dump =>
          rw [List.count_cons_of_ne (by decide)] at h
          rw [kept, ih h]
      | store =>
          rw [List.count_cons_self] at h
          cases n with
          | zero => omega
          | succ n => rw [kept, ih (Nat.le_of_succ_le_succ h)]

/-! ### Which host buffer each block gets -/

/-- The blocks that are kept, with the numbers of their buffers: `n` are left of `last`. -/
@[simp] def place (last : Nat) : Nat → List SegmentMode → List (SegmentMode × Nat)
  | _, [] => []
  | n, .dump :: rest => (.dump, last) :: place last n rest
  | 0, .store :: rest => place last 0 rest
  | n + 1, .store :: rest => (.store, last - (n + 1)) :: place last n rest

section place

variable {last : Nat}

theorem place_fst (last n : Nat) (blocks : List SegmentMode) :
    (place last n blocks).map Prod.fst = kept n blocks := by
  induction blocks generalizing n with
  | nil => rfl
  | cons mode rest ih =>
      cases mode with
      | dump => simp [place, kept, ih]
      | store =>
          cases n with
          | zero => simp [place, kept, ih]
          | succ n => simp [place, kept, ih]

theorem place_length (n : Nat) (blocks : List SegmentMode) :
    (place last n blocks).length = (kept n blocks).length := by
  rw [← place_fst last, List.length_map]

theorem place_append (n : Nat) (xs ys : List SegmentMode) :
    place last n (xs ++ ys) = place last n xs ++ place last (n - xs.count .store) ys := by
  induction xs generalizing n with
  | nil => simp [place]
  | cons mode rest ih =>
      cases mode with
      | dump => simp [place, ih]
      | store =>
          cases n with
          | zero => simp [place, ih]
          | succ n => simp [place, ih]

theorem place_zero_store (i : Nat) : place last 0 (List.replicate i .store) = [] := by
  induction i with
  | zero => rfl
  | succ i ih => rw [List.replicate_succ, place, ih]

theorem place_dump {n : Nat} {blocks : List SegmentMode} :
    ∀ p ∈ place last n blocks, p.1 = .dump → p.2 = last := by
  induction blocks generalizing n with
  | nil => simp [place]
  | cons mode rest ih =>
      cases mode with
      | dump => simpa [place] using ih
      | store =>
          cases n with
          | zero => exact ih
          | succ n => simpa [place] using ih

/-- The buffers that are stored to are in order, the ones not used yet first. -/
theorem place_store {n : Nat} (blocks : List SegmentMode) (hn : n ≤ last) :
    (((place last n blocks).filter fun p => p.1 = .store).map Prod.snd).Pairwise (· < ·) ∧
      ∀ g ∈ ((place last n blocks).filter fun p => p.1 = .store).map Prod.snd,
        last - n ≤ g ∧ g < last := by
  induction blocks generalizing n with
  | nil => simp [place]
  | cons mode rest ih =>
      cases mode with
      | dump => simpa [place] using ih hn
      | store =>
          cases n with
          | zero => exact ih hn
          | succ n =>
              obtain ⟨hpair, hbounds⟩ := ih (Nat.le_of_succ_le hn)
              rw [place, List.filter_cons_of_pos (by simp), List.map_cons]
              refine ⟨List.pairwise_cons.mpr ⟨?_, hpair⟩, ?_⟩
              · intro g hg
                have := hbounds g hg
                simp only
                omega
              · intro g hg
                rcases List.mem_cons.mp hg with rfl | hg
                · simp only
                  omega
                · have := hbounds g hg
                  omega

end place

end Acq400

/-! ### Tying off

Closing off the ring of descriptors behind the one that is being filled.

Where the descriptor to close off is in the array, the links are those of the ring but
for its own, and the engine comes to a stop there.  The index goes round one too late:
the place behind the last descriptor is not taken for the first.
-/

namespace Acq400.AxiPool

variable {dev : AxiDev} {par : AxiParams} {s : AxiPool} {pas : List Nat} {ii n : Nat}
variable {cursorPa last : Nat}

/-- The descriptors at these addresses are all there are, and lead round. -/
structure Cyclic (s : AxiPool) (pas : List Nat) : Prop where
  wraps : Wraps s pas 0
  ndescriptors : s.ndescriptors = pas.length
  ring : Links.Ring s.next pas

/-- What `_finalize_descriptor_chain` makes of all descriptors, if it ties off none. -/
theorem Tied.ring (htied : Tied par s pas) (hone : par.axiOneshot = 0) :
    Links.Ring s.next pas := by
  intro k a hk
  obtain ⟨hlt, rfl⟩ := List.getElem?_eq_some_iff.mp hk
  rcases Nat.lt_or_ge (k + 1) pas.length with hnext | hend
  · rw [Nat.mod_eq_of_lt hnext, List.getElem?_eq_getElem hnext]
    exact congrArg some (List.isChain_iff_getElem.mp htied.links k hnext).symm
  · have hlen : k + 1 = pas.length := by omega
    rw [hlen, Nat.mod_self, List.getElem?_eq_getElem (by omega)]
    have hhead : pas.head? = some pas[0] := by
      rw [List.head?_eq_getElem?, List.getElem?_eq_getElem]
    have hgetLast : pas.getLast? = some pas[k] := by
      rw [List.getLast?_eq_getElem?, ← hlen]
      exact hk
    rw [htied.last pas[0] pas[k] hhead hgetLast, if_pos hone]

/-! ### What the function does -/

theorem tieOffLoop_eq (h : Wraps s pas 0) (hii : pas[ii]? = some cursorPa) (nbuffers : Int) :
    ∀ left k, k ≤ ii → ii < k + left →
      s.tieOffLoop cursorPa nbuffers left k =
        (s.loopToSelf (if (s.ndescriptors : Int) < ii + nbuffers
          then ii + nbuffers - s.ndescriptors else ii + nbuffers)).map fun s => (0, s) := by
  intro left
  induction left with
  | zero => intro k hk hlt; omega
  | succ left ih =>
      intro k hk hlt
      obtain ⟨hilt, -⟩ := List.getElem?_eq_some_iff.mp hii
      have hkpa : pas[k]? = some pas[k] := List.getElem?_eq_getElem (by omega)
      simp only [tieOffLoop, h.pa hkpa, Option.bind_eq_bind, Option.bind_some]
      rcases Nat.eq_or_lt_of_le hk with rfl | hne
      · rw [if_pos (Option.some.inj (hkpa.symm.trans hii)), Option.map_eq_bind]
        rfl
      · rw [if_neg]
        · exact ih (k + 1) hne (by omega)
        · intro heq
          have := getElem?_inj_of_nodup h.2 (heq ▸ hkpa) hii
          omega

/-- A wrapper of the array is made to lead to itself, and nothing else changes. -/
theorem loopToSelf_eq (h : Wraps s pas 0) {k : Nat} (hk : pas[k]? = some last) :
    s.loopToSelf k = some (s.setDesc last { s.desc last with nextDesc := last }) := by
  simp only [loopToSelf, Int.toNat_natCast, h.va hk, h.pa hk, Option.bind_eq_bind,
    Option.bind_some]
  exact if_neg (by omega)

theorem loopToSelf_length (h : Wraps s pas 0) : s.loopToSelf (pas.length : Nat) = none := by
  have hva : s.va pas.length = none := by
    rw [AxiPool.va, h.1, List.replicate_zero, List.append_nil,
      List.getElem?_eq_none (by rw [List.length_map])]
    rfl
  simp only [loopToSelf, Int.toNat_natCast, hva, Option.bind_eq_bind, Option.bind_none]
  exact if_neg (by omega)

theorem next_setDesc_self :
    (s.setDesc last { s.desc last with nextDesc := last }).next = Links.tieOff s.next last := by
  funext pa
  by_cases hpa : pa = last
  · subst hpa
    rw [Links.tieOff_self]
    simp [AxiPool.next, setDesc]
  · rw [Links.tieOff_of_ne hpa]
    simp [AxiPool.next, setDesc, hpa]

/-- The descriptor `n` on is closed off: it leads to itself as the only one, no other has
changed, and whoever follows them from `ii` on comes through those up to it and stays there. -/
structure ClosedOff (s s' : AxiPool) (pas : List Nat) (ii n : Nat) : Prop where
  self : ∀ k pa, pas[k]? = some pa → (s'.next pa = pa ↔ k = (ii + n) % pas.length)
  frame : ∀ pa, pas[(ii + n) % pas.length]? ≠ some pa → s'.desc pa = s.desc pa
  fills : ∀ j ≤ n, ∀ pa, pas[ii]? = some pa →
    pas[(ii + j) % pas.length]? = some (s'.next^[j] pa)
  stays : ∀ j, n ≤ j → ∀ pa, pas[ii]? = some pa →
    pas[(ii + n) % pas.length]? = some (s'.next^[j] pa)

/-- The function closes off the descriptor that it should. -/
def TiesOff (s : AxiPool) (pas : List Nat) (cursorPa ii n : Nat) : Prop :=
  ∃ s', s.axi64TieOffDmac cursorPa n = some (0, s') ∧ ClosedOff s s' pas ii n

theorem closedOff_setDesc (h : Cyclic s pas) (hn : n < pas.length)
    (hlast : pas[(ii + n) % pas.length]? = some last) :
    ClosedOff s (s.setDesc last { s.desc last with nextDesc := last }) pas ii n := by
  constructor
  · intro k pa hk
    rw [next_setDesc_self, h.ring.tieOff_eq_self_iff h.wraps.2 hlast hk]
    constructor
    · rintro rfl
      exact getElem?_inj_of_nodup h.wraps.2 hk hlast
    · rintro rfl
      exact Option.some.inj (hk.symm.trans hlast)
  · intro pa hpa
    have hne : pa ≠ last := by
      rintro rfl
      exact hpa hlast
    exact Function.update_of_ne hne _ _
  · intro j hj pa hpa
    rw [next_setDesc_self, h.ring.iterate_tieOff_le h.wraps.2 hpa hn hlast hj]
    exact h.ring.iterate hpa j
  · intro j hj pa hpa
    rw [next_setDesc_self, h.ring.iterate_tieOff_ge h.wraps.2 hpa hn hlast hj]
    exact hlast

theorem axi64TieOffDmac_eq (h : Cyclic s pas) (hii : pas[ii]? = some cursorPa) (n : Nat) :
    s.axi64TieOffDmac cursorPa n =
      (s.loopToSelf (if pas.length < ii + n then ii + n - pas.length else ii + n : Nat)).map
        fun s => (0, s) := by
  obtain ⟨hlt, -⟩ := List.getElem?_eq_some_iff.mp hii
  unfold axi64TieOffDmac
  rw [tieOffLoop_eq h.wraps hii _ _ _ (Nat.zero_le ii) (by rw [h.ndescriptors]; omega),
    h.ndescriptors]
  congr 2
  split <;> split <;> omega

/-- **The right descriptor is closed off unless it is the first, and the engine is `n` before
it.** -/
theorem tiesOff_iff (h : Cyclic s pas) (hii : pas[ii]? = some cursorPa) (hn : n < pas.length) :
    TiesOff s pas cursorPa ii n ↔ ii + n ≠ pas.length := by
  obtain ⟨hlt, -⟩ := List.getElem?_eq_some_iff.mp hii
  constructor
  · rintro ⟨s', hties, -⟩ hend
    rw [axi64TieOffDmac_eq h hii, if_neg (by omega), hend, loopToSelf_length h.wraps] at hties
    cases hties
  · intro hne
    have hmod : (if pas.length < ii + n then ii + n - pas.length else ii + n) =
        (ii + n) % pas.length := by
      split
      · rw [Nat.mod_eq_sub_mod (by omega), Nat.mod_eq_of_lt (by omega)]
      · rw [Nat.mod_eq_of_lt (by omega)]
    have hmodlt : (ii + n) % pas.length < pas.length := Nat.mod_lt _ (by omega)
    have hlast : pas[(ii + n) % pas.length]? = some pas[(ii + n) % pas.length] :=
      List.getElem?_eq_getElem hmodlt
    refine ⟨_, ?_, closedOff_setDesc h hn hlast⟩
    rw [axi64TieOffDmac_eq h hii, hmod, loopToSelf_eq h.wraps hlast]
    rfl

/-! ### Four descriptors -/

/-- Descriptors at 64, 128, 192 and 256 that lead round. -/
def ringOfFour : AxiPool where
  ndescriptors := 4
  channelWrappers := [some 64, some 128, some 192, some 256]
  dumpPa := 0
  activeDescriptors := 4
  segments := { segments := fun _ => ⟨.store, 0⟩, segmentCursor := 0 }
  desc := fun pa => { DmaDesc.zero with nextDesc := if pa = 256 then 64 else pa + 64 }

theorem ringOfFour_cyclic : Cyclic ringOfFour [64, 128, 192, 256] := by
  refine ⟨⟨rfl, by decide⟩, rfl, ?_⟩
  intro k a hk
  match k, hk with
  | 0, hk | 1, hk | 2, hk | 3, hk =>
      obtain rfl := Option.some.inj hk
      rfl

/-- Three after the third is the second. -/
theorem ringOfFour_three : TiesOff ringOfFour [64, 128, 192, 256] 192 2 3 :=
  (tiesOff_iff ringOfFour_cyclic rfl (by decide)).mpr (by decide)

/-- Two after the third is the first, but what is closed off is behind the array. -/
theorem ringOfFour_two : ¬ TiesOff ringOfFour [64, 128, 192, 256] 192 2 2 := by
  rintro ⟨s', hties, -⟩
  have hnone : ringOfFour.axi64TieOffDmac 192 (2 : Nat) = none := rfl
  rw [hnone] at hties
  cases hties

end Acq400.AxiPool
