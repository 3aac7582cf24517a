/-
The buffer queues of `acq400_lists.c`.

Every function takes `list_mutex` around its list operations, so each is one
transition of the device here; the emptiness tests that the source makes outside
the mutex are separated again in `Driver/Reader.lean`, where it matters.

Taking the first entry of one list to the tail of another is what five of them do,
and `moveFirst` is that.  `list_first_entry` of an empty list is not a buffer: it
is the list head read as if it were one.  `moveFirst` is `none` there.
-/
import Acq400.Driver.AxiChain
import Mathlib.Data.List.Sort

namespace Acq400

namespace Dev

/-- `list_first_entry(src)`, `list_move_tail` to `dst` and the new state tag. -/
def moveFirst (adev : Dev) (src dst : ListHead) (b : BState) : Option (HbmPtr × Dev) :=
  match adev.lists src with
  | [] => none
  | hbm :: _ => some (hbm, (adev.listMoveTail hbm src dst).setBstate hbm b)

def getEmpty (adev : Dev) : Option HbmPtr × Dev :=
  match adev.moveFirst .empties .inflight .filling with
  | some (hbm, adev) =>
    (some hbm,
      { adev with
        rt := { adev.rt with
          nget := adev.rt.nget + 1
          getEmptyErrors := { adev.rt.getEmptyErrors with reportActive := false } } })
  | none =>
    (none,
      { adev with
        rt := { adev.rt with
          getEmptyErrors :=
            { reportActive := true, errors := adev.rt.getEmptyErrors.errors + 1 } } })

/-- `multipleEmptiesWaiting`: not empty and not singular. -/
def multipleEmptiesWaiting (adev : Dev) : Bool :=
  !(adev.lists .empties).isEmpty && !((adev.lists .empties).length == 1)

/-- `putFull`, with the buffer it moved. -/
def putFull (adev : Dev) : Option HbmPtr × Dev :=
  match adev.moveFirst .inflight .refills .full with
  | some (hbm, adev) =>
    let nput := adev.rt.nput + 1
    (some hbm,
      { adev with
        rt := { adev.rt with
          nput := nput
          pleaseStop :=
            if adev.par.runBuffers ≠ 0 ∧ adev.par.runBuffers ≤ nput then true
            else adev.rt.pleaseStop
          putFullErrors := { adev.rt.putFullErrors with reportActive := false } } })
  | none =>
    (none,
      { adev with
        rt := { adev.rt with
          putFullErrors :=
            { reportActive := true, errors := adev.rt.putFullErrors.errors + 1 } } })

def getEmptyFromRefills (adev : Dev) : Option HbmPtr × Dev :=
  match adev.moveFirst .refills .inflight .filling with
  | some (hbm, adev) => (some hbm, { adev with rt := { adev.rt with ngetr := adev.rt.ngetr + 1 } })
  | none => (none, adev)

/-- What `getFull` returns; `GET_FULL_OK` comes with the buffer stored in `*first`. -/
inductive GetFull
  | ok (first : HbmPtr)
  | done
  | refillErr
  | eintr
deriving DecidableEq, Repr

/-- The mutex section of `__getFull`; `none` where it finds REFILLS empty. -/
def takeFull (adev : Dev) : Option (HbmPtr × Dev) := adev.moveFirst .refills .opens .fullApp

/--
`getFull` as one transition; `none` while it sleeps in `wait_event_interruptible`.
`signalled` is whether a signal is pending, which ends a wait for nothing else.
-/
def getFull (adev : Dev) (wait signalled : Bool) : Option (GetFull × Dev) :=
  match adev.takeFull with
  | some (hbm, adev) => some (.ok hbm, adev)
  | none =>
    if wait = false then some (.eintr, adev)
    else if adev.rt.pleaseStop then some (.done, adev)
    else if adev.rt.refillError then some (.refillErr, adev)
    else if signalled then some (.eintr, adev)
    else none

/-- `putEmpty`; `none` where OPENS is empty and the source would take its head for a buffer. -/
def putEmpty (adev : Dev) : Option Dev :=
  match adev.lists .opens with
  | [] => none
  | hbm :: _ =>
    some (((adev.setBstate hbm .empty).callOnPutEmpty hbm).listMoveTail hbm .opens .empties)

/-- The loop of `move_list_to_empty` and `move_list_to_stash` over the entries of `elist`. -/
def moveListTo (adev : Dev) (elist dst : ListHead) : Dev :=
  (adev.lists elist).foldl
    (fun adev cur => (adev.setBstate cur .empty).listMoveTail cur elist dst) adev

def moveListToEmpty (adev : Dev) (elist : ListHead) : Dev := adev.moveListTo elist .empties

/-- `move_list_to_stash`, with the number of usable buffers: number 0 is left out. -/
def moveListToStash (adev : Dev) (elist : ListHead) : Nat × Dev :=
  (((adev.lists elist).filter fun cur => (adev.hb cur).ix ≠ 0).length,
    adev.moveListTo elist .stash)

/-- `_reserve`: the first entry of the list with index `ibuf`; `none` is the return -1. -/
def reserveFrom (adev : Dev) (pd : Nat) (ibuf : Int) (list : ListHead) : Option Dev :=
  match (adev.lists list).find? fun cur => (adev.hb cur).ix = ibuf with
  | some cur => some ((adev.setBstate cur .reserved).listMoveTail cur list (.reserved pd))
  | none => none

/-- `reserve`: from STASH, else from EMPTIES. -/
def reserve (adev : Dev) (pd : Nat) (ibuf : Int) : Int × Dev :=
  match adev.reserveFrom pd ibuf .stash with
  | some adev => (0, adev)
  | none =>
    match adev.reserveFrom pd ibuf .empties with
    | some adev => (0, adev)
    | none => (-1, adev)

/-- `is_sorted`: the entries are indexed 0, 1, 2, … -/
def isSorted (adev : Dev) (hblist : ListHead) : Bool :=
  (adev.lists hblist).zipIdx.all fun (cursor, ix1) => (adev.hb cursor).ix = ix1

/-- `sort_empties`; `list_sort` is stable, by `hbm_cmp` on the index. -/
def sortEmpties (adev : Dev) : Dev :=
  if adev.isSorted .empties then adev
  else
    { adev with
      lists := Function.update adev.lists .empties
        ((adev.lists .empties).insertionSort fun a b => (adev.hb a).ix ≤ (adev.hb b).ix) }

/-- `replace_all`: RESERVED back to the head of EMPTIES, entry by entry, then sort. -/
def replaceAll (adev : Dev) (pd : Nat) : Dev :=
  let adev := (adev.lists (.reserved pd)).foldl
    (fun adev cur => (adev.setBstate cur .empty).listMove cur (.reserved pd) .empties) adev
  let adev := adev.sortEmpties
  if adev.isSorted .empties then adev else adev.sortEmpties

def emptyLists (adev : Dev) : Dev :=
  (((adev.moveListToEmpty .opens).moveListToEmpty .refills).moveListToEmpty .inflight).sortEmpties

/-! ### The lists after each operation -/

theorem moveFirst_nil {adev : Dev} {src : ListHead} (h : adev.lists src = [])
    (dst : ListHead) (b : BState) : adev.moveFirst src dst b = none := by
  simp [moveFirst, h]

theorem moveFirst_cons {adev : Dev} {src : ListHead} {hbm : HbmPtr} {rest : List HbmPtr}
    (h : adev.lists src = hbm :: rest) (dst : ListHead) (b : BState) :
    adev.moveFirst src dst b
      = some (hbm, (adev.listMoveTail hbm src dst).setBstate hbm b) := by
  simp [moveFirst, h]

/-- `list_move_tail` of the first entry, list by list. -/
theorem listMoveTail_lists {adev : Dev} {src dst : ListHead} {hbm : HbmPtr}
    {rest : List HbmPtr} (h : adev.lists src = hbm :: rest) (hne : src ≠ dst) (l : ListHead) :
    (adev.listMoveTail hbm src dst).lists l
      = if l = dst then adev.lists dst ++ [hbm] else if l = src then rest
        else adev.lists l := by
  unfold listMoveTail
  by_cases hd : l = dst
  · subst hd
    simp [Function.update_of_ne (Ne.symm hne)]
  · by_cases hs : l = src
    · subst hs
      simp [hd, h]
    · simp [hd, hs]

/-- The lists after the first entry of `src` has gone to the tail of `dst`. -/
def shifted (adev : Dev) (src dst : ListHead) (hbm : HbmPtr) (rest : List HbmPtr) :
    ListHead → List HbmPtr := fun l =>
  if l = dst then adev.lists dst ++ [hbm] else if l = src then rest else adev.lists l

theorem getEmpty_cons {adev : Dev} {hbm : HbmPtr} {rest : List HbmPtr}
    (h : adev.lists .empties = hbm :: rest) :
    adev.getEmpty.1 = some hbm ∧
      adev.getEmpty.2.lists = adev.shifted .empties .inflight hbm rest := by
  unfold getEmpty
  rw [moveFirst_cons h]
  exact ⟨rfl, funext fun l => listMoveTail_lists h (by decide) l⟩

theorem getEmpty_nil {adev : Dev} (h : adev.lists .empties = []) :
    adev.getEmpty.1 = none ∧ adev.getEmpty.2.lists = adev.lists := by
  unfold getEmpty
  rw [moveFirst_nil h]
  exact ⟨rfl, rfl⟩

/-- `getEmpty` takes the first of EMPTIES, if there is one, to INFLIGHT. -/
theorem getEmpty_inflight (adev : Dev) :
    adev.getEmpty.2.lists .inflight = adev.lists .inflight ++ adev.getEmpty.1.toList ∧
      adev.getEmpty.1 = (adev.lists .empties).head? ∧
      adev.getEmpty.2.lists .empties = (adev.lists .empties).tail := by
  cases he : adev.lists .empties with
  | nil =>
      obtain ⟨hnone, hlists⟩ := getEmpty_nil he
      simp [hnone, hlists, he]
  | cons hbm rest =>
      obtain ⟨hsome, hlists⟩ := getEmpty_cons he
      simp [hsome, hlists, shifted]

/-- The first buffer that is taken is all of INFLIGHT, -/
theorem getEmpty_first {adev : Dev} (h : adev.lists .inflight = []) :
    adev.getEmpty.2.lists .inflight = adev.getEmpty.1.toList := by
  rw [adev.getEmpty_inflight.1, h, List.nil_append]

/-- and the second comes behind it. -/
theorem getEmpty_second {adev : Dev} {hbm hbm' : HbmPtr} (h : adev.lists .inflight = [hbm])
    (hget : adev.getEmpty.1 = some hbm') :
    adev.getEmpty.2.lists .inflight = [hbm, hbm'] := by
  rw [adev.getEmpty_inflight.1, h, hget]
  rfl

theorem multipleEmptiesWaiting_iff {adev : Dev} :
    adev.multipleEmptiesWaiting = true ↔ 2 ≤ (adev.lists .empties).length := by
  unfold multipleEmptiesWaiting
  rcases adev.lists .empties with _ | ⟨hbm, _ | ⟨hbm', rest⟩⟩
  · simp
  · simp
  · simp

theorem putFull_cons {adev : Dev} {hbm : HbmPtr} {rest : List HbmPtr}
    (h : adev.lists .inflight = hbm :: rest) :
    adev.putFull.1 = some hbm ∧
      adev.putFull.2.lists = adev.shifted .inflight .refills hbm rest := by
  unfold putFull
  rw [moveFirst_cons h]
  exact ⟨rfl, funext fun l => listMoveTail_lists h (by decide) l⟩

/-- `putFull` takes the first of INFLIGHT. -/
theorem putFull_inflight {adev : Dev} {hbm : HbmPtr} {rest : List HbmPtr}
    (h : adev.lists .inflight = hbm :: rest) :
    adev.putFull.1 = some hbm ∧ adev.putFull.2.lists .inflight = rest := by
  obtain ⟨hsome, hlists⟩ := putFull_cons h
  refine ⟨hsome, ?_⟩
  rw [hlists]
  simp [shifted]

theorem putFull_nil {adev : Dev} (h : adev.lists .inflight = []) :
    adev.putFull.1 = none ∧ adev.putFull.2.lists = adev.lists := by
  unfold putFull
  rw [moveFirst_nil h]
  exact ⟨rfl, rfl⟩

theorem getEmptyFromRefills_cons {adev : Dev} {hbm : HbmPtr} {rest : List HbmPtr}
    (h : adev.lists .refills = hbm :: rest) :
    adev.getEmptyFromRefills.1 = some hbm ∧
      adev.getEmptyFromRefills.2.lists = adev.shifted .refills .inflight hbm rest := by
  unfold getEmptyFromRefills
  rw [moveFirst_cons h]
  exact ⟨rfl, funext fun l => listMoveTail_lists h (by decide) l⟩

theorem getEmptyFromRefills_nil {adev : Dev} (h : adev.lists .refills = []) :
    adev.getEmptyFromRefills = (none, adev) := by
  unfold getEmptyFromRefills
  rw [moveFirst_nil h]

theorem takeFull_cons {adev : Dev} {hbm : HbmPtr} {rest : List HbmPtr}
    (h : adev.lists .refills = hbm :: rest) :
    ∃ adev', adev.takeFull = some (hbm, adev') ∧
      adev'.lists = adev.shifted .refills .opens hbm rest := by
  refine ⟨_, moveFirst_cons h .opens .fullApp, ?_⟩
  exact funext fun l => listMoveTail_lists h (by decide) l

theorem takeFull_nil {adev : Dev} (h : adev.lists .refills = []) : adev.takeFull = none :=
  moveFirst_nil h .opens .fullApp

/-- `getFull` takes the oldest full buffer, or it leaves the device alone. -/
theorem getFull_cases {adev adev' : Dev} {wait signalled : Bool} {rc : GetFull}
    (h : adev.getFull wait signalled = some (rc, adev')) :
    (∃ hbm rest, adev.lists .refills = hbm :: rest ∧ rc = .ok hbm ∧
        adev'.lists = adev.shifted .refills .opens hbm rest) ∨
      (adev.lists .refills = [] ∧ (∀ hbm, rc ≠ .ok hbm) ∧ adev' = adev) := by
  unfold getFull at h
  cases hl : adev.lists .refills with
  | cons hbm rest =>
      obtain ⟨adev₁, htake, hlists⟩ := takeFull_cons hl
      simp only [htake, Option.some.injEq, Prod.mk.injEq] at h
      obtain ⟨rfl, rfl⟩ := h
      exact Or.inl ⟨hbm, rest, rfl, rfl, hlists⟩
  | nil =>
      simp only [takeFull_nil hl] at h
      refine Or.inr ⟨rfl, ?_⟩
      have hleft : ∀ other : GetFull, (∀ hbm, other ≠ .ok hbm) →
          some (other, adev) = some (rc, adev') → (∀ hbm, rc ≠ .ok hbm) ∧ adev' = adev := by
        intro other hother heq
        simp only [Option.some.injEq, Prod.mk.injEq] at heq
        obtain ⟨rfl, rfl⟩ := heq
        exact ⟨hother, rfl⟩
      split at h
      · exact hleft .eintr (by simp) h
      · split at h
        · exact hleft .done (by simp) h
        · split at h
          · exact hleft .refillErr (by simp) h
          · split at h
            · exact hleft .eintr (by simp) h
            · simp at h

theorem putEmpty_cases {adev adev' : Dev} (h : adev.putEmpty = some adev') :
    ∃ hbm rest, adev.lists .opens = hbm :: rest ∧
      adev'.lists = adev.shifted .opens .empties hbm rest := by
  unfold putEmpty at h
  split at h
  · simp at h
  · rename_i hbm rest hl
    simp only [Option.some.injEq] at h
    subst h
    refine ⟨hbm, rest, hl, funext fun l => ?_⟩
    have hl' : ((adev.setBstate hbm .empty).callOnPutEmpty hbm).lists .opens = hbm :: rest := by
      simpa using hl
    rw [listMoveTail_lists hl' (by decide)]
    simp [shifted]

/-- The bulk moves append the whole list, in its order. -/
theorem moveListTo_lists {adev : Dev} {elist dst : ListHead} (hne : elist ≠ dst) :
    (adev.moveListTo elist dst).lists = fun l =>
      if l = dst then adev.lists dst ++ adev.lists elist else if l = elist then []
      else adev.lists l := by
  unfold moveListTo
  generalize hl : adev.lists elist = entries
  induction entries generalizing adev with
  | nil =>
      funext l
      by_cases hd : l = dst
      · simp [hd]
      · by_cases hs : l = elist
        · subst hs
          simp [hd, hl]
        · simp [hd, hs]
  | cons hbm rest ih =>
      have hcons : (adev.setBstate hbm .empty).lists elist = hbm :: rest := by simpa using hl
      have hmove := listMoveTail_lists hcons hne
      rw [List.foldl_cons, ih (by rw [hmove]; simp [hne])]
      funext l
      by_cases hd : l = dst
      · simp [hd, hmove]
      · by_cases hs : l = elist
        · simp [hs, hne]
        · simp [hd, hs, hmove]

/-- Reserving and returning buffers concerns STASH, EMPTIES and RESERVED only. -/
theorem reserve_lists_other (adev : Dev) (pd : Nat) (ibuf : Int) {l : ListHead}
    (hs : l ≠ .stash) (he : l ≠ .empties) (hr : l ≠ .reserved pd) :
    (adev.reserve pd ibuf).2.lists l = adev.lists l := by
  unfold reserve reserveFrom
  split
  · rename_i adev₁ hres
    split at hres
    · simp only [Option.some.injEq] at hres
      subst hres
      simp [listMoveTail, hs, hr]
    · simp at hres
  · split
    · rename_i adev₁ hres
      split at hres
      · simp only [Option.some.injEq] at hres
        subst hres
        simp [listMoveTail, he, hr]
      · simp at hres
    · rfl

theorem sortEmpties_lists_other (adev : Dev) {l : ListHead} (he : l ≠ .empties) :
    adev.sortEmpties.lists l = adev.lists l := by
  unfold sortEmpties
  split
  · rfl
  · simp [he]

theorem replaceAll_lists_other (adev : Dev) (pd : Nat) {l : ListHead}
    (he : l ≠ .empties) (hr : l ≠ .reserved pd) : (adev.replaceAll pd).lists l = adev.lists l := by
  have hback : ∀ (entries : List HbmPtr) (adev : Dev),
      (entries.foldl (fun adev cur =>
        (adev.setBstate cur .empty).listMove cur (.reserved pd) .empties) adev).lists l
        = adev.lists l := by
    intro entries
    induction entries with
    | nil => intro adev; rfl
    | cons hbm rest ih =>
        intro adev
        rw [List.foldl_cons, ih]
        simp [listMove, he, hr]
  unfold replaceAll
  simp only
  split
  · rw [sortEmpties_lists_other _ he, hback]
  · rw [sortEmpties_lists_other _ he, sortEmpties_lists_other _ he, hback]

/-! ### REFILLS and the flags of the run-time record -/

theorem getEmpty_refills (adev : Dev) : adev.getEmpty.2.lists .refills = adev.lists .refills := by
  cases he : adev.lists .empties with
  | nil => rw [(getEmpty_nil he).2]
  | cons hbm rest =>
      rw [(getEmpty_cons he).2]
      simp [shifted]

theorem putFull_refills (adev : Dev) :
    adev.putFull.2.lists .refills = adev.lists .refills ++ adev.putFull.1.toList := by
  cases hi : adev.lists .inflight with
  | nil =>
      obtain ⟨hnone, hlists⟩ := putFull_nil hi
      rw [hnone, hlists]
      simp
  | cons hbm rest =>
      obtain ⟨hsome, hlists⟩ := putFull_cons hi
      rw [hsome, hlists]
      simp [shifted]

theorem moveFirst_rt {adev adev' : Dev} {src dst : ListHead} {b : BState} {hbm : HbmPtr}
    (h : adev.moveFirst src dst b = some (hbm, adev')) : adev'.rt = adev.rt := by
  unfold moveFirst at h
  split at h
  · simp at h
  · simp only [Option.some.injEq, Prod.mk.injEq] at h
    rw [← h.2]
    rfl

theorem getEmpty_flags (adev : Dev) :
    adev.getEmpty.2.rt.pleaseStop = adev.rt.pleaseStop ∧
      adev.getEmpty.2.rt.refillError = adev.rt.refillError := by
  unfold getEmpty
  split
  · rename_i hbm adev' hmove
    simp [moveFirst_rt hmove]
  · simp

/-- `putFull` may set `please_stop`, after `run_buffers` of them. -/
theorem putFull_flags (adev : Dev) :
    (adev.putFull.2.rt.pleaseStop = false → adev.rt.pleaseStop = false) ∧
      adev.putFull.2.rt.refillError = adev.rt.refillError := by
  unfold putFull
  split
  · rename_i hbm adev' hmove
    refine ⟨?_, by simp [moveFirst_rt hmove]⟩
    simp only [moveFirst_rt hmove]
    split
    · simp
    · exact id
  · simp

theorem getEmptyFromRefills_flags (adev : Dev) :
    adev.getEmptyFromRefills.2.rt.pleaseStop = adev.rt.pleaseStop ∧
      adev.getEmptyFromRefills.2.rt.refillError = adev.rt.refillError := by
  unfold getEmptyFromRefills
  split
  · rename_i hbm adev' hmove
    simp [moveFirst_rt hmove]
  · simp

theorem moveListToEmpty_rt (adev : Dev) (elist : ListHead) :
    (adev.moveListToEmpty elist).rt = adev.rt := by
  have hrt : ∀ (entries : List HbmPtr) (adev : Dev),
      (entries.foldl (fun adev cur =>
        (adev.setBstate cur .empty).listMoveTail cur elist .empties) adev).rt = adev.rt := by
    intro entries
    induction entries with
    | nil => intro adev; rfl
    | cons hbm rest ih =>
        intro adev
        rw [List.foldl_cons, ih]
        rfl
  exact hrt _ adev

theorem moveListToEmpty_flags (adev : Dev) (elist : ListHead) :
    (adev.moveListToEmpty elist).rt.pleaseStop = adev.rt.pleaseStop ∧
      (adev.moveListToEmpty elist).rt.refillError = adev.rt.refillError := by
  rw [moveListToEmpty_rt]
  exact ⟨rfl, rfl⟩

/-! ### What the operations leave as it was -/

/-- All but the lists, the memory and the counts. -/
structure SameSetup (adev adev' : Dev) : Prop where
  bufferlen : adev'.bufferlen = adev.bufferlen
  par : adev'.par = adev.par
  axi64Hb : adev'.axi64Hb = adev.axi64Hb
  onPutEmpty : adev'.onPutEmpty = adev.onPutEmpty
  ix : ∀ hbm, (adev'.hb hbm).ix = (adev.hb hbm).ix

/-- The memory as well. -/
structure SameMemory (adev adev' : Dev) : Prop extends SameSetup adev adev' where
  va : ∀ hbm, (adev'.hb hbm).va = (adev.hb hbm).va

variable {adev adev' adev'' : Dev} {hbm : HbmPtr}

theorem SameSetup.rfl : SameSetup adev adev :=
  ⟨.refl _, .refl _, .refl _, .refl _, fun _ => .refl _⟩

theorem SameSetup.trans (h : SameSetup adev adev') (h' : SameSetup adev' adev'') :
    SameSetup adev adev'' where
  bufferlen := h'.bufferlen.trans h.bufferlen
  par := h'.par.trans h.par
  axi64Hb := h'.axi64Hb.trans h.axi64Hb
  onPutEmpty := h'.onPutEmpty.trans h.onPutEmpty
  ix hbm := (h'.ix hbm).trans (h.ix hbm)

theorem SameMemory.rfl : SameMemory adev adev := ⟨.rfl, fun _ => .refl _⟩

theorem SameMemory.trans (h : SameMemory adev adev') (h' : SameMemory adev' adev'') :
    SameMemory adev adev'' :=
  ⟨h.toSameSetup.trans h'.toSameSetup, fun hbm => (h'.va hbm).trans (h.va hbm)⟩

theorem sameMemory_setBstate (adev : Dev) (hbm : HbmPtr) (b : BState) :
    SameMemory adev (adev.setBstate hbm b) where
  bufferlen := .refl _
  par := .refl _
  axi64Hb := .refl _
  onPutEmpty := .refl _
  ix cur := setBstate_ix adev hbm cur b
  va cur := by
    unfold setBstate
    by_cases h : cur = hbm
    · simp [h]
    · simp [h]

theorem sameMemory_listMoveTail (adev : Dev) (hbm : HbmPtr) (src dst : ListHead) :
    SameMemory adev (adev.listMoveTail hbm src dst) :=
  ⟨⟨.refl _, .refl _, .refl _, .refl _, fun _ => .refl _⟩, fun _ => .refl _⟩

theorem sameMemory_moveFirst {src dst : ListHead} {b : BState}
    (h : adev.moveFirst src dst b = some (hbm, adev')) : SameMemory adev adev' := by
  unfold moveFirst at h
  split at h
  · cases h
  · obtain ⟨-, rfl⟩ := Prod.mk.inj (Option.some.inj h)
    exact (sameMemory_listMoveTail adev _ src dst).trans (sameMemory_setBstate _ _ b)

/-- Counts are not looked at. -/
theorem SameMemory.withRt (h : SameMemory adev adev') (rt : RunTime) :
    SameMemory adev { adev' with rt := rt } :=
  ⟨⟨h.bufferlen, h.par, h.axi64Hb, h.onPutEmpty, h.ix⟩, h.va⟩

theorem SameMemory.withStats (h : SameMemory adev adev') (errors : Nat) (rt : RunTime) :
    SameMemory adev { adev' with statsErrors := errors, rt := rt } :=
  ⟨⟨h.bufferlen, h.par, h.axi64Hb, h.onPutEmpty, h.ix⟩, h.va⟩

theorem sameMemory_getEmpty (adev : Dev) : SameMemory adev adev.getEmpty.2 := by
  unfold getEmpty
  split
  · rename_i hmove
    exact (sameMemory_moveFirst hmove).withRt _
  · exact SameMemory.rfl.withRt _

theorem sameMemory_putFull (adev : Dev) : SameMemory adev adev.putFull.2 := by
  unfold putFull
  split
  · rename_i hmove
    exact (sameMemory_moveFirst hmove).withRt _
  · exact SameMemory.rfl.withRt _

theorem sameMemory_getEmptyFromRefills (adev : Dev) :
    SameMemory adev adev.getEmptyFromRefills.2 := by
  unfold getEmptyFromRefills
  split
  · rename_i hmove
    exact (sameMemory_moveFirst hmove).withRt _
  · exact .rfl

theorem sameMemory_moveListTo (adev : Dev) (elist dst : ListHead) :
    SameMemory adev (adev.moveListTo elist dst) := by
  unfold moveListTo
  generalize adev.lists elist = entries
  induction entries generalizing adev with
  | nil => exact .rfl
  | cons hbm rest ih =>
      rw [List.foldl_cons]
      exact ((sameMemory_setBstate adev hbm .empty).trans
        (sameMemory_listMoveTail _ _ _ _)).trans (ih _)

theorem sameMemory_getFull {wait signalled : Bool} {rc : GetFull}
    (h : adev.getFull wait signalled = some (rc, adev')) : SameMemory adev adev' := by
  rcases getFull_cases h with ⟨hbm, rest, hl, -, -⟩ | ⟨-, -, rfl⟩
  · have hmove := moveFirst_cons hl .opens .fullApp
    unfold getFull takeFull at h
    rw [hmove] at h
    obtain ⟨-, rfl⟩ := Prod.mk.inj (Option.some.inj h)
    exact sameMemory_moveFirst hmove
  · exact .rfl

theorem sameSetup_setWord (adev : Dev) (hbm : HbmPtr) (w : Nat) (v : UInt32) :
    SameSetup adev (adev.setWord hbm w v) where
  bufferlen := .refl _
  par := .refl _
  axi64Hb := .refl _
  onPutEmpty := .refl _
  ix cur := by
    unfold setWord
    by_cases h : cur = hbm
    · simp [h]
    · simp [h]

end Dev

end Acq400
