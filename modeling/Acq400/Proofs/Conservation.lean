/-
No host buffer is lost, duplicated or mislabelled.

`listStep` is the device under the operations of `acq400_lists.c`, each taken as
one step, in whatever order they come.  `Conserved` is what every one of them
keeps: the buffers are spread over the lists, each on exactly one, and the state
tag of a buffer is that of the list it is on.

All of them come down to one fact, `Conserved.moved`: a buffer that goes from one
list to another and takes on the tag of its new list keeps the invariant.
-/
import Acq400.Driver.Lists
import Acq400.Lib.Places
import Acq400.Lib.Run
import Acq400.Lib.Fifo

namespace Acq400

open Places

/-- The tag of the buffers on a list. -/
def ListHead.bstate : ListHead → BState
  | .empties => .empty
  | .inflight => .filling
  | .refills => .full
  | .opens => .fullApp
  | .stash => .empty
  | .reserved _ => .reserved

/-- The operations on the buffer lists. -/
inductive ListOp
  | getEmpty
  | putFull
  | getEmptyFromRefills
  | getFull (wait signalled : Bool)
  | putEmpty
  | reserve (pd : Nat) (ibuf : Int)
  | replaceAll (pd : Nat)
  | moveListToEmpty (elist : ListHead)
  | moveListToStash (elist : ListHead)

/--
One operation.  `getFull` is not possible while it would sleep, `putEmpty` only
where OPENS is not empty, and a list is never moved to its own tail, which is a
loop without end in the source.
-/
def listStep (adev : Dev) : ListOp → Option Dev
  | .getEmpty => some adev.getEmpty.2
  | .putFull => some adev.putFull.2
  | .getEmptyFromRefills => some adev.getEmptyFromRefills.2
  | .getFull wait signalled => (adev.getFull wait signalled).map Prod.snd
  | .putEmpty => adev.putEmpty
  | .reserve pd ibuf => some (adev.reserve pd ibuf).2
  | .replaceAll pd => some (adev.replaceAll pd)
  | .moveListToEmpty elist =>
    if elist = .empties then none else some (adev.moveListToEmpty elist)
  | .moveListToStash elist =>
    if elist = .stash then none else some (adev.moveListToStash elist).2

/-- The buffers are spread over the lists and tagged by the list they are on. -/
structure Conserved (bufs : List HbmPtr) (adev : Dev) : Prop where
  part : Partition bufs adev.lists
  tagged : ∀ l hbm, hbm ∈ adev.lists l → (adev.hb hbm).bstate = l.bstate

namespace Conserved

variable {bufs : List HbmPtr} {adev adev' : Dev}

/-- Every buffer on EMPTIES, as at load, is a good place to start from. -/
theorem start (hnodup : bufs.Nodup) (hempties : (adev.lists .empties).Perm bufs)
    (hothers : ∀ l, l ≠ .empties → adev.lists l = [])
    (htags : ∀ hbm ∈ bufs, (adev.hb hbm).bstate = .empty) : Conserved bufs adev := by
  have hmem : ∀ l hbm, hbm ∈ adev.lists l → l = .empties ∧ hbm ∈ bufs := by
    intro l hbm h
    by_cases hl : l = .empties
    · subst hl
      exact ⟨rfl, hempties.mem_iff.mp h⟩
    · simp [hothers l hl] at h
  refine ⟨⟨?_, ?_, ?_⟩, ?_⟩
  · intro l
    by_cases hl : l = .empties
    · subst hl
      exact hempties.nodup_iff.mpr hnodup
    · simp [hothers l hl]
  · intro l l' hbm h h'
    exact (hmem l hbm h).1.trans (hmem l' hbm h').1.symm
  · intro hbm
    exact ⟨fun h => ⟨.empties, hempties.mem_iff.mpr h⟩, fun ⟨l, hl⟩ => (hmem l hbm hl).2⟩
  · intro l hbm h
    obtain ⟨rfl, hb⟩ := hmem l hbm h
    exact htags hbm hb

theorem congr (h : Conserved bufs adev) (hlists : adev'.lists = adev.lists)
    (htags : ∀ cur, (adev'.hb cur).bstate = (adev.hb cur).bstate) : Conserved bufs adev' :=
  ⟨hlists ▸ h.part, fun l hbm hm => (htags hbm).trans (h.tagged l hbm (hlists ▸ hm))⟩

theorem moved (h : Conserved bufs adev) {hbm : HbmPtr} {src dst : ListHead}
    (hmem : hbm ∈ adev.lists src) (hne : src ≠ dst)
    (hsrc : (adev'.lists src).Perm ((adev.lists src).erase hbm))
    (hdst : (adev'.lists dst).Perm (hbm :: adev.lists dst))
    (hlists : ∀ l, l ≠ src → l ≠ dst → adev'.lists l = adev.lists l)
    (htag : (adev'.hb hbm).bstate = dst.bstate)
    (htags : ∀ cur, cur ≠ hbm → (adev'.hb cur).bstate = (adev.hb cur).bstate) :
    Conserved bufs adev' := by
  refine ⟨h.part.move hmem hne hsrc hdst hlists, ?_⟩
  intro l cur hcur
  by_cases hc : cur = hbm
  · subst hc
    -- the buffer itself is on `dst` now and nowhere else
    have hl : l = dst :=
      (h.part.move hmem hne hsrc hdst hlists).disjoint l dst cur hcur
        (hdst.mem_iff.mpr (by simp))
    rw [hl, htag]
  · rw [htags cur hc]
    refine h.tagged l cur ?_
    by_cases hd : l = dst
    · subst hd
      simpa [hc] using hdst.mem_iff.mp hcur
    · by_cases hs : l = src
      · subst hs
        exact List.mem_of_mem_erase (hsrc.mem_iff.mp hcur)
      · rwa [hlists l hs hd] at hcur

theorem listMoveTail (h : Conserved bufs adev) {hbm : HbmPtr} {src dst : ListHead}
    (hmem : hbm ∈ adev.lists src) (hne : src ≠ dst) (tagged : Dev)
    (hlists : tagged.lists = adev.lists) (htag : (tagged.hb hbm).bstate = dst.bstate)
    (htags : ∀ cur, cur ≠ hbm → (tagged.hb cur).bstate = (adev.hb cur).bstate) :
    Conserved bufs (tagged.listMoveTail hbm src dst) := by
  refine h.moved hmem hne ?_ ?_ ?_ htag htags
  · simp [Dev.listMoveTail, hne, hlists]
  · simp only [Dev.listMoveTail, Function.update_self, Function.update_of_ne (Ne.symm hne), hlists]
    exact List.perm_append_singleton hbm _
  · intro l hs hd
    simp [Dev.listMoveTail, hs, hd, hlists]

theorem listMove (h : Conserved bufs adev) {hbm : HbmPtr} {src dst : ListHead}
    (hmem : hbm ∈ adev.lists src) (hne : src ≠ dst) (tagged : Dev)
    (hlists : tagged.lists = adev.lists) (htag : (tagged.hb hbm).bstate = dst.bstate)
    (htags : ∀ cur, cur ≠ hbm → (tagged.hb cur).bstate = (adev.hb cur).bstate) :
    Conserved bufs (tagged.listMove hbm src dst) := by
  refine h.moved hmem hne ?_ ?_ ?_ htag htags
  · simp [Dev.listMove, hne, hlists]
  · simp [Dev.listMove, Function.update_of_ne (Ne.symm hne), hlists]
  · intro l hs hd
    simp [Dev.listMove, hs, hd, hlists]

theorem moveFirst (h : Conserved bufs adev) {src dst : ListHead} (hne : src ≠ dst)
    {hbm : HbmPtr} (hmove : adev.moveFirst src dst dst.bstate = some (hbm, adev')) :
    Conserved bufs adev' := by
  cases hl : adev.lists src with
  | nil => simp [Dev.moveFirst_nil hl] at hmove
  | cons x rest =>
      rw [Dev.moveFirst_cons hl, Option.some.injEq, Prod.mk.injEq] at hmove
      obtain ⟨-, rfl⟩ := hmove
      have hx : x ∈ adev.lists src := by simp [hl]
      refine h.listMoveTail hx hne (adev.setBstate x dst.bstate) rfl ?_ fun cur hc => ?_
      · simp [Dev.setBstate_bstate]
      · simp [Dev.setBstate_bstate, hc]

/-! ### The operations -/

theorem getEmpty (h : Conserved bufs adev) : Conserved bufs adev.getEmpty.2 := by
  unfold Dev.getEmpty
  split
  · rename_i hbm adev₁ hmove
    exact (h.moveFirst (by decide) hmove).congr rfl fun _ => rfl
  · exact h.congr rfl fun _ => rfl

theorem putFull (h : Conserved bufs adev) : Conserved bufs adev.putFull.2 := by
  unfold Dev.putFull
  split
  · rename_i hbm adev₁ hmove
    exact (h.moveFirst (by decide) hmove).congr rfl fun _ => rfl
  · exact h.congr rfl fun _ => rfl

theorem getEmptyFromRefills (h : Conserved bufs adev) :
    Conserved bufs adev.getEmptyFromRefills.2 := by
  unfold Dev.getEmptyFromRefills
  split
  · rename_i hbm adev₁ hmove
    exact (h.moveFirst (by decide) hmove).congr rfl fun _ => rfl
  · exact h

theorem getFull (h : Conserved bufs adev) {wait signalled : Bool} {rc : Dev.GetFull}
    (hget : adev.getFull wait signalled = some (rc, adev')) : Conserved bufs adev' := by
  unfold Dev.getFull at hget
  split at hget
  · rename_i hbm adev₁ hmove
    simp only [Option.some.injEq, Prod.mk.injEq] at hget
    obtain ⟨-, rfl⟩ := hget
    exact h.moveFirst (by decide) hmove
  · -- nothing was taken: whatever it returns, the device is as it was
    split at hget
    · simp only [Option.some.injEq, Prod.mk.injEq] at hget
      exact hget.2 ▸ h
    · split at hget
      · simp only [Option.some.injEq, Prod.mk.injEq] at hget
        exact hget.2 ▸ h
      · split at hget
        · simp only [Option.some.injEq, Prod.mk.injEq] at hget
          exact hget.2 ▸ h
        · split at hget
          · simp only [Option.some.injEq, Prod.mk.injEq] at hget
            exact hget.2 ▸ h
          · simp at hget

theorem putEmpty (h : Conserved bufs adev) (hput : adev.putEmpty = some adev') :
    Conserved bufs adev' := by
  unfold Dev.putEmpty at hput
  split at hput
  · simp at hput
  · rename_i hbm rest hl
    simp only [Option.some.injEq] at hput
    subst hput
    refine h.listMoveTail (by simp [hl]) (by decide) _ (by simp) ?_ ?_
    · simp [Dev.setBstate_bstate, ListHead.bstate]
    · intro cur hc
      simp [Dev.setBstate_bstate, hc]

/-- The bulk moves: the list is emptied entry by entry. -/
theorem moveListTo (h : Conserved bufs adev) {elist dst : ListHead} (hne : elist ≠ dst)
    (hdst : dst.bstate = .empty) : Conserved bufs (adev.moveListTo elist dst) := by
  unfold Dev.moveListTo
  generalize hl : adev.lists elist = l
  induction l generalizing adev with
  | nil => exact h
  | cons x rest ih =>
      rw [List.foldl_cons]
      refine ih ?_ ?_
      · refine h.listMoveTail (by simp [hl]) hne _ (by simp) ?_ ?_
        · simp [Dev.setBstate_bstate, hdst]
        · intro cur hc
          simp [Dev.setBstate_bstate, hc]
      · simp [Dev.listMoveTail, hne, hl]

theorem reserveFrom (h : Conserved bufs adev) {pd : Nat} {ibuf : Int} {list : ListHead}
    (hne : list ≠ .reserved pd) (hres : adev.reserveFrom pd ibuf list = some adev') :
    Conserved bufs adev' := by
  unfold Dev.reserveFrom at hres
  split at hres
  · rename_i cur hfind
    simp only [Option.some.injEq] at hres
    subst hres
    refine h.listMoveTail (List.mem_of_find?_eq_some hfind) hne _ (by simp) ?_ ?_
    · simp [Dev.setBstate_bstate, ListHead.bstate]
    · intro c hc
      simp [Dev.setBstate_bstate, hc]
  · simp at hres

theorem reserve (h : Conserved bufs adev) (pd : Nat) (ibuf : Int) :
    Conserved bufs (adev.reserve pd ibuf).2 := by
  unfold Dev.reserve
  split
  · rename_i adev₁ hres
    exact h.reserveFrom (by simp) hres
  · split
    · rename_i adev₁ hres
      exact h.reserveFrom (by simp) hres
    · exact h

theorem sortEmpties (h : Conserved bufs adev) : Conserved bufs adev.sortEmpties := by
  unfold Dev.sortEmpties
  split
  · exact h
  · -- sorting only rearranges EMPTIES
    have hperm : ∀ l, (Function.update adev.lists .empties
        ((adev.lists .empties).insertionSort fun a b => (adev.hb a).ix ≤ (adev.hb b).ix) l).Perm
        (adev.lists l) := by
      intro l
      by_cases hl : l = .empties
      · subst hl
        simpa using List.perm_insertionSort _ (adev.lists .empties)
      · simp [hl]
    exact ⟨h.part.of_perm hperm, fun l hbm hm => h.tagged l hbm ((hperm l).mem_iff.mp hm)⟩

theorem replaceAll (h : Conserved bufs adev) (pd : Nat) : Conserved bufs (adev.replaceAll pd) := by
  have hback : Conserved bufs ((adev.lists (.reserved pd)).foldl
      (fun adev cur => (adev.setBstate cur .empty).listMove cur (.reserved pd) .empties) adev) := by
    generalize hl : adev.lists (.reserved pd) = l
    induction l generalizing adev with
    | nil => exact h
    | cons x rest ih =>
        rw [List.foldl_cons]
        refine ih ?_ ?_
        · refine h.listMove (by simp [hl]) (by simp) _ (by simp) ?_ ?_
          · simp [Dev.setBstate_bstate, ListHead.bstate]
          · intro cur hc
            simp [Dev.setBstate_bstate, hc]
        · simp [Dev.listMove, hl]
  unfold Dev.replaceAll
  simp only
  split
  · exact hback.sortEmpties
  · exact hback.sortEmpties.sortEmpties

/-- `empty_lists` conserves them too, and leaves the three lists of a capture empty. -/
theorem emptyLists (h : Conserved bufs adev) :
    Conserved bufs adev.emptyLists ∧
      ∀ l ∈ [ListHead.opens, .refills, .inflight], adev.emptyLists.lists l = [] := by
  constructor
  · have hopens : Conserved bufs (adev.moveListToEmpty .opens) :=
      h.moveListTo (by decide) rfl
    have hrefills : Conserved bufs ((adev.moveListToEmpty .opens).moveListToEmpty .refills) :=
      hopens.moveListTo (by decide) rfl
    exact (hrefills.moveListTo (by decide) rfl).sortEmpties
  · intro l hl
    have hne : l ≠ .empties := by
      rintro rfl
      simp at hl
    unfold Dev.emptyLists
    rw [Dev.sortEmpties_lists_other _ hne]
    unfold Dev.moveListToEmpty
    rw [Dev.moveListTo_lists (by decide), Dev.moveListTo_lists (by decide),
      Dev.moveListTo_lists (by decide)]
    simp only [List.mem_cons, List.not_mem_nil, or_false] at hl
    rcases hl with rfl | rfl | rfl
    · simp
    · simp
    · simp

theorem step (h : Conserved bufs adev) {op : ListOp} (hstep : listStep adev op = some adev') :
    Conserved bufs adev' := by
  cases op with
  | getEmpty => exact Option.some.inj hstep ▸ h.getEmpty
  | putFull => exact Option.some.inj hstep ▸ h.putFull
  | getEmptyFromRefills => exact Option.some.inj hstep ▸ h.getEmptyFromRefills
  | getFull wait signalled =>
      simp only [listStep, Option.map_eq_some_iff] at hstep
      obtain ⟨⟨rc, adev₁⟩, hget, rfl⟩ := hstep
      exact h.getFull hget
  | putEmpty => exact h.putEmpty hstep
  | reserve pd ibuf => exact Option.some.inj hstep ▸ h.reserve pd ibuf
  | replaceAll pd => exact Option.some.inj hstep ▸ h.replaceAll pd
  | moveListToEmpty elist =>
      simp only [listStep] at hstep
      split at hstep
      · simp at hstep
      · rename_i hne
        exact Option.some.inj hstep ▸ h.moveListTo hne rfl
  | moveListToStash elist =>
      simp only [listStep] at hstep
      split at hstep
      · simp at hstep
      · rename_i hne
        exact Option.some.inj hstep ▸ h.moveListTo hne rfl

end Conserved

/--
**Host buffers are conserved.**  From a device whose buffers are all on EMPTIES,
after any sequence of operations every buffer is on exactly one list, once, only
buffers are on lists, and a buffer's tag is that of its list.
-/
theorem hbm_conserved {bufs : List HbmPtr} (adev : Dev) {adev' : Dev} (ops : List ListOp)
    (hnodup : bufs.Nodup) (hempties : (adev.lists .empties).Perm bufs)
    (hothers : ∀ l, l ≠ .empties → adev.lists l = [])
    (htags : ∀ hbm ∈ bufs, (adev.hb hbm).bstate = .empty)
    (hrun : Lts.run listStep adev ops = some adev') :
    (∀ hbm ∈ bufs, ∃! l, hbm ∈ adev'.lists l) ∧ (∀ l, (adev'.lists l).Nodup) ∧
      ∀ l hbm, hbm ∈ adev'.lists l → hbm ∈ bufs ∧ (adev'.hb hbm).bstate = l.bstate := by
  have h := Lts.run_invariant (Conserved bufs) (fun _ _ _ h hstep => h.step hstep)
    ops adev adev' (Conserved.start hnodup hempties hothers htags) hrun
  exact ⟨fun hbm hm => h.part.existsUnique hm, h.part.nodup,
    fun l hbm hm => ⟨(h.part.cover hbm).mpr ⟨l, hm⟩, h.tagged l hbm hm⟩⟩

/-- A capture that discards, a reader, a reservation, a stash and a clean up. -/
theorem hbm_conserved_session :
    ∃ adev', Lts.run listStep (Dev.allocated 4 65536 .loaded fun _ _ => 0)
        [.reserve 0 3, .getEmpty, .getEmpty, .putFull, .getFull true false, .putFull,
          .getEmptyFromRefills, .putEmpty, .moveListToStash .empties, .moveListToEmpty .inflight,
          .moveListToEmpty .stash, .replaceAll 0] = some adev' ∧
      (∀ hbm ∈ [0, 1, 2, 3], ∃! l, hbm ∈ adev'.lists l) ∧ (∀ l, (adev'.lists l).Nodup) ∧
      ∀ l hbm, hbm ∈ adev'.lists l →
        hbm ∈ [0, 1, 2, 3] ∧ (adev'.hb hbm).bstate = l.bstate := by
  refine ⟨_, rfl, hbm_conserved (Dev.allocated 4 65536 .loaded fun _ _ => 0)
    [.reserve 0 3, .getEmpty, .getEmpty, .putFull, .getFull true false, .putFull,
      .getEmptyFromRefills, .putEmpty, .moveListToStash .empties, .moveListToEmpty .inflight,
      .moveListToEmpty .stash, .replaceAll 0] (by decide) (by decide) ?_ (fun _ _ => rfl) rfl⟩
  intro l hl
  cases l with
  | empties => exact absurd rfl hl
  | _ => rfl

end Acq400

/-! ### The order of capture

The reader sees the fills in the order in which they were completed.

REFILLS is a queue that loses entries: `getEmptyFromRefills` recycles the oldest
full buffer and `move_list_to_empty` all of them.  `Capture` runs the device next
to the history of that queue, where every completed fill has a number, and
`InOrder` says that the two agree: the queue's entries are the buffers on REFILLS
and what was delivered is what `getFull` handed to the reader.  What the history
keeps in order (`Fifo.Hist.Faithful`) is then true of the reader's buffers.
-/

namespace Acq400

open Fifo

/-- What an operation does to the queue of full buffers. -/
def fifoEvent (adev : Dev) : ListOp → Option (Event HbmPtr)
  | .putFull => adev.putFull.1.map .push
  | .getFull _ _ => (adev.lists .refills).head?.map fun _ => .deliver
  | .getEmptyFromRefills => adev.getEmptyFromRefills.1.map fun _ => .drop
  | .moveListToEmpty elist => if elist = .refills then some .dropAll else none
  | .moveListToStash elist => if elist = .refills then some .dropAll else none
  | _ => none

/-- The buffer an operation hands to the reader. -/
def received (adev : Dev) : ListOp → Option HbmPtr
  | .getFull wait signalled =>
    match adev.getFull wait signalled with
    | some (.ok first, _) => some first
    | _ => none
  | _ => none

/-- The device, what the reader has been given, and the history of the full buffers. -/
structure Capture where
  dev : Dev
  got : List HbmPtr
  hist : Hist HbmPtr

def Capture.start (adev : Dev) : Capture := { dev := adev, got := [], hist := Hist.start }

def captureStep (s : Capture) (op : ListOp) : Option Capture :=
  (listStep s.dev op).map fun adev =>
    { dev := adev
      got := s.got ++ (received s.dev op).toList
      hist :=
        match fifoEvent s.dev op with
        | some e => s.hist.step e
        | none => s.hist }

/-- The history is true to the device and to the reader. -/
structure InOrder (s : Capture) : Prop where
  faithful : s.hist.Faithful
  refills : s.hist.entries s.hist.queued = s.dev.lists .refills
  got : s.hist.entries s.hist.delivered = s.got

namespace InOrder

variable {s : Capture}

/-- Numbers below the count keep their entry when another one is put in. -/
private theorem entries_push {h : Hist HbmPtr} (x : HbmPtr) {ks : List Nat}
    (hks : ∀ k ∈ ks, k < h.pushed.length) :
    (h.step (.push x)).entries ks = h.entries ks := by
  refine List.filterMap_congr fun k hk => ?_
  exact List.getElem?_append_left (hks k hk)

private theorem entries_append (h : Hist HbmPtr) (ks js : List Nat) :
    h.entries (ks ++ js) = h.entries ks ++ h.entries js := List.filterMap_append

/-- The head of REFILLS is the entry with the number at the head of the queue. -/
private theorem head_entry (hs : InOrder s) {hbm : HbmPtr} {rest : List HbmPtr}
    (hl : s.dev.lists .refills = hbm :: rest) :
    ∃ k ks, s.hist.queued = k :: ks ∧ s.hist.entries [k] = [hbm] ∧ s.hist.entries ks = rest := by
  have hentries := hs.refills
  rw [hl] at hentries
  cases hq : s.hist.queued with
  | nil => simp [Hist.entries, hq] at hentries
  | cons k ks =>
      have hk : k < s.hist.pushed.length := hs.faithful.lt (by simp [hq])
      have hsome : s.hist.pushed[k]? = some s.hist.pushed[k] := List.getElem?_eq_getElem hk
      rw [hq] at hentries
      simp only [Hist.entries, List.filterMap_cons, hsome] at hentries
      rw [List.cons.injEq] at hentries
      refine ⟨k, ks, rfl, ?_, hentries.2⟩
      simp only [Hist.entries, List.filterMap_cons, List.filterMap_nil, hsome, hentries.1]

/-- The reader and the queue are untouched: only the rest of the device changes. -/
private theorem frame (hs : InOrder s) {adev : Dev}
    (hlists : adev.lists .refills = s.dev.lists .refills) :
    InOrder { dev := adev, got := s.got ++ (none : Option HbmPtr).toList, hist := s.hist } :=
  ⟨hs.faithful, hs.refills.trans hlists.symm, by simpa using hs.got⟩

private theorem dropAll (hs : InOrder s) {adev : Dev} (hlists : adev.lists .refills = []) :
    InOrder { dev := adev, got := s.got ++ (none : Option HbmPtr).toList,
              hist := s.hist.step .dropAll } :=
  ⟨hs.faithful.step .dropAll, by simp [Hist.step, Hist.entries, hlists],
    hs.got.trans (List.append_nil _).symm⟩

/-- A bulk move drops REFILLS when it is the list moved and leaves it alone otherwise. -/
private theorem moveListTo (hs : InOrder s) {elist dst : ListHead} (hne : elist ≠ dst)
    (hdst : dst ≠ .refills) :
    InOrder
      { dev := s.dev.moveListTo elist dst
        got := s.got ++ (none : Option HbmPtr).toList
        hist :=
          match if elist = .refills then some Event.dropAll else none with
          | some e => s.hist.step e
          | none => s.hist } := by
  by_cases he : elist = .refills
  · subst he
    simp only [if_true]
    exact hs.dropAll (by simp [Dev.moveListTo_lists hne, Ne.symm hdst])
  · simp only [if_neg he]
    refine hs.frame ?_
    simp [Dev.moveListTo_lists hne, Ne.symm hdst, Ne.symm he]

theorem step {s' : Capture} (hs : InOrder s) {op : ListOp}
    (hstep : captureStep s op = some s') : InOrder s' := by
  unfold captureStep at hstep
  rw [Option.map_eq_some_iff] at hstep
  obtain ⟨adev, hdev, rfl⟩ := hstep
  cases op with
  | getEmpty =>
      obtain rfl := Option.some.inj hdev
      refine hs.frame ?_
      cases hl : s.dev.lists .empties with
      | nil => rw [(Dev.getEmpty_nil hl).2]
      | cons hbm rest => rw [(Dev.getEmpty_cons hl).2]; simp [Dev.shifted]
  | putFull =>
      obtain rfl := Option.some.inj hdev
      cases hl : s.dev.lists .inflight with
      | nil =>
          obtain ⟨hnone, hlists⟩ := Dev.putFull_nil hl
          simp only [fifoEvent, hnone, Option.map_none]
          exact hs.frame (by rw [hlists])
      | cons hbm rest =>
          obtain ⟨hsome, hlists⟩ := Dev.putFull_cons hl
          simp only [fifoEvent, hsome, Option.map_some]
          refine ⟨hs.faithful.step (.push hbm), ?_, ?_⟩
          · show (s.hist.step (.push hbm)).entries (s.hist.queued ++ [s.hist.pushed.length]) = _
            rw [entries_append, entries_push hbm fun k hk => hs.faithful.lt (by simp [hk]),
              hs.refills, hlists]
            simp [Hist.entries, Hist.step, Dev.shifted]
          · show (s.hist.step (.push hbm)).entries s.hist.delivered = _
            rw [entries_push hbm fun k hk => hs.faithful.lt (by simp [hk]), hs.got]
            simp [received]
  | getEmptyFromRefills =>
      obtain rfl := Option.some.inj hdev
      cases hl : s.dev.lists .refills with
      | nil =>
          have hnone := Dev.getEmptyFromRefills_nil hl
          simp only [fifoEvent, hnone, Option.map_none]
          exact hs.frame rfl
      | cons hbm rest =>
          obtain ⟨hsome, hlists⟩ := Dev.getEmptyFromRefills_cons hl
          obtain ⟨k, ks, hq, -, hrest⟩ := hs.head_entry hl
          simp only [fifoEvent, hsome, Option.map_some]
          refine ⟨hs.faithful.step .drop, ?_, hs.got.trans (List.append_nil _).symm⟩
          show s.hist.entries s.hist.queued.tail = _
          rw [hq, hlists]
          simpa [Dev.shifted] using hrest
  | getFull wait signalled =>
      simp only [listStep, Option.map_eq_some_iff] at hdev
      obtain ⟨⟨rc, adev₁⟩, hget, rfl⟩ := hdev
      rcases Dev.getFull_cases hget with ⟨hbm, rest, hl, rfl, hlists⟩ | ⟨hl, hrc, rfl⟩
      · obtain ⟨k, ks, hq, hk, hrest⟩ := hs.head_entry hl
        simp only [fifoEvent, received, hget, hl, List.head?_cons, Option.map_some]
        refine ⟨hs.faithful.step .deliver, ?_, ?_⟩
        · show s.hist.entries s.hist.queued.tail = _
          rw [hq, hlists]
          simpa [Dev.shifted] using hrest
        · show s.hist.entries (s.hist.delivered ++ s.hist.queued.head?.toList) = _
          rw [entries_append, hs.got, hq]
          simpa using hk
      · have hnone : received s.dev (.getFull wait signalled) = none := by
          cases rc with
          | ok first => exact absurd rfl (hrc first)
          | _ => simp only [received, hget]
        simp only [fifoEvent, hnone, hl, List.head?_nil, Option.map_none]
        exact hs.frame rfl
  | putEmpty =>
      obtain ⟨hbm, rest, -, hlists⟩ := Dev.putEmpty_cases hdev
      exact hs.frame (by rw [hlists]; simp [Dev.shifted])
  | reserve pd ibuf =>
      obtain rfl := Option.some.inj hdev
      exact hs.frame (s.dev.reserve_lists_other pd ibuf (by decide) (by decide) (by simp))
  | replaceAll pd =>
      obtain rfl := Option.some.inj hdev
      exact hs.frame (s.dev.replaceAll_lists_other pd (by decide) (by simp))
  | moveListToEmpty elist =>
      simp only [listStep] at hdev
      split at hdev
      · simp at hdev
      · rename_i hne
        obtain rfl := Option.some.inj hdev
        exact hs.moveListTo hne (by decide)
  | moveListToStash elist =>
      simp only [listStep] at hdev
      split at hdev
      · simp at hdev
      · rename_i hne
        obtain rfl := Option.some.inj hdev
        exact hs.moveListTo hne (by decide)

end InOrder

/--
**Order of capture.**  From a device with nothing on REFILLS, after any sequence of
operations the buffers the reader has been given, followed by those still on
REFILLS, are the completed fills in order with exactly the discarded ones left
out; the numbers of the fills delivered increase, so none comes twice or late.
-/
theorem capture_in_order (adev : Dev) {s : Capture} (ops : List ListOp)
    (hrefills : adev.lists .refills = [])
    (hrun : Lts.run captureStep (Capture.start adev) ops = some s) :
    s.got ++ s.dev.lists .refills = s.hist.entries s.hist.survivors ∧
      s.hist.entries s.hist.delivered = s.got ∧
      s.hist.delivered.Pairwise (· < ·) ∧
      (∀ k ∈ s.hist.delivered, k < s.hist.pushed.length ∧ k ∉ s.hist.dropped) := by
  have hstart : InOrder (Capture.start adev) :=
    ⟨Hist.faithful_start, by simp [Capture.start, Hist.start, Hist.entries, hrefills], rfl⟩
  have h := Lts.run_invariant InOrder (fun _ _ _ hs hstep => hs.step hstep)
    ops _ s hstart hrun
  refine ⟨?_, h.got, ?_, ?_⟩
  · rw [← h.faithful.order, ← h.got, ← h.refills]
    exact List.filterMap_append.symm
  · exact (List.pairwise_append.mp h.faithful.sorted).1
  · intro k hk
    have hmem : k ∈ s.hist.survivors := by
      rw [← h.faithful.order]
      exact List.mem_append_left _ hk
    rw [Hist.survivors, List.mem_filter, decide_eq_true_eq] at hmem
    exact ⟨List.mem_range.mp hmem.1, hmem.2⟩

/-- An overload: the second fill is recycled and the third discarded with the queue. -/
theorem capture_in_order_overload :
    ∃ s, Lts.run captureStep (Capture.start (Dev.allocated 3 65536 .loaded fun _ _ => 0))
        [.getEmpty, .getEmpty, .putFull, .putFull, .getFull true false, .getEmptyFromRefills,
          .putFull, .moveListToEmpty .refills, .getEmpty, .putFull, .putEmpty,
          .getFull true false] = some s ∧
      s.hist.dropped = [1, 2] ∧
      s.got ++ s.dev.lists .refills = s.hist.entries s.hist.survivors ∧
      s.hist.entries s.hist.delivered = s.got ∧
      s.hist.delivered.Pairwise (· < ·) ∧
      (∀ k ∈ s.hist.delivered, k < s.hist.pushed.length ∧ k ∉ s.hist.dropped) := by
  refine ⟨_, rfl, rfl, capture_in_order (Dev.allocated 3 65536 .loaded fun _ _ => 0)
    [.getEmpty, .getEmpty, .putFull, .putFull, .getFull true false, .getEmptyFromRefills,
      .putFull, .moveListToEmpty .refills, .getEmpty, .putFull, .putEmpty,
      .getFull true false] rfl rfl⟩

end Acq400
