/-
From the completed fills to the numbers that the clients read.

The server takes the full buffers in the order of their fills, tells every client of each,
and frees a buffer only behind `OPEN_BACKLOG` later ones.  The order of the fills is that of
`capture_in_order`'s history, which runs beside the server here, and the order of a client's
reads that of its queue; the server hands over in between, one buffer at a time.

The invariant has a part for each: what OPENS holds of what has been taken, what has been
told and what is still in hand, and what each client has of what it was told.
-/
import Acq400.Driver.CaptureServer
import Acq400.Proofs.Conservation
import Acq400.Proofs.BqClients

namespace Acq400

open Fifo

/-! ### What no operation changes -/

namespace Dev

/-- The numbers of the buffers and the backlog stay what they are. -/
structure Fixed (adev adev' : Dev) : Prop where
  ix : ∀ hbm, (adev'.hb hbm).ix = (adev.hb hbm).ix
  openBacklog : adev'.par.openBacklog = adev.par.openBacklog

variable {adev adev' adev'' : Dev}

theorem Fixed.refl (adev : Dev) : Fixed adev adev := ⟨fun _ => rfl, rfl⟩

theorem Fixed.trans (h : Fixed adev adev') (h' : Fixed adev' adev'') : Fixed adev adev'' :=
  ⟨fun hbm => (h'.ix hbm).trans (h.ix hbm), h'.openBacklog.trans h.openBacklog⟩

theorem Fixed.of_same (h : SameSetup adev adev') : Fixed adev adev' :=
  ⟨h.ix, congrArg _ h.par⟩

theorem fixed_poisonOffset (adev : Dev) : Fixed adev adev.poisonOffset.2 := by
  unfold poisonOffset
  split
  · exact ⟨fun _ => rfl, rfl⟩
  · exact ⟨fun _ => rfl, rfl⟩

theorem fixed_callOnPutEmpty (adev : Dev) (hbm : HbmPtr) :
    Fixed adev (adev.callOnPutEmpty hbm) := by
  unfold callOnPutEmpty poisonOneBufferFastidious
  split
  · exact Fixed.refl adev
  · split
    · unfold poisonOneBuffer
      refine (adev.fixed_poisonOffset.trans ?_).trans
        (.trans (.of_same (sameSetup_setWord _ _ _ _)) (.of_same (sameSetup_setWord _ _ _ _)))
      refine ⟨fun cur => ?_, rfl⟩
      by_cases h : cur = hbm
      · simp [h]
      · simp [h]
    · exact Fixed.refl adev

theorem fixed_putEmpty (h : adev.putEmpty = some adev') : Fixed adev adev' := by
  unfold putEmpty at h
  split at h
  · exact absurd h nofun
  · obtain rfl := Option.some.inj h
    exact ((Fixed.of_same (sameMemory_setBstate _ _ _).toSameSetup).trans
      (fixed_callOnPutEmpty _ _)).trans (.of_same (sameMemory_listMoveTail _ _ _ _).toSameSetup)

end Dev

/-! ### The capture thread leaves OPENS alone -/

namespace Dev

variable (adev : Dev)

theorem getEmpty_opens : adev.getEmpty.2.lists .opens = adev.lists .opens := by
  cases hl : adev.lists .empties with
  | nil => rw [(getEmpty_nil hl).2]
  | cons hbm rest =>
      rw [(getEmpty_cons hl).2]
      simp [shifted]

theorem putFull_opens : adev.putFull.2.lists .opens = adev.lists .opens := by
  cases hl : adev.lists .inflight with
  | nil => rw [(putFull_nil hl).2]
  | cons hbm rest =>
      rw [(putFull_cons hl).2]
      simp [shifted]

theorem getEmptyFromRefills_opens :
    adev.getEmptyFromRefills.2.lists .opens = adev.lists .opens := by
  cases hl : adev.lists .refills with
  | nil => rw [getEmptyFromRefills_nil hl]
  | cons hbm rest =>
      rw [(getEmptyFromRefills_cons hl).2]
      simp [shifted]

theorem moveRefillsToEmpty_opens :
    (adev.moveListToEmpty .refills).lists .opens = adev.lists .opens := by
  rw [moveListToEmpty, moveListTo_lists (by decide)]
  simp

end Dev

/-! ### The count of the server is its own -/

namespace Dev

variable (adev : Dev)

theorem getEmpty_dropped : adev.getEmpty.2.rt.buffersDropped = adev.rt.buffersDropped := by
  unfold getEmpty
  split
  · rename_i hmove
    simp [moveFirst_rt hmove]
  · rfl

theorem putFull_dropped : adev.putFull.2.rt.buffersDropped = adev.rt.buffersDropped := by
  unfold putFull
  split
  · rename_i hmove
    simp [moveFirst_rt hmove]
  · rfl

theorem getEmptyFromRefills_dropped :
    adev.getEmptyFromRefills.2.rt.buffersDropped = adev.rt.buffersDropped := by
  unfold getEmptyFromRefills
  split
  · rename_i hmove
    simp [moveFirst_rt hmove]
  · rfl

theorem moveRefillsToEmpty_dropped :
    (adev.moveListToEmpty .refills).rt.buffersDropped = adev.rt.buffersDropped := by
  rw [moveListToEmpty_rt]

theorem callOnPutEmpty_rt (hbm : HbmPtr) : (adev.callOnPutEmpty hbm).rt = adev.rt := by
  unfold callOnPutEmpty poisonOneBufferFastidious
  split
  · rfl
  · split
    · unfold poisonOneBuffer poisonOffset
      split <;> rfl
    · rfl

theorem putEmpty_dropped {adev adev' : Dev} (h : adev.putEmpty = some adev') :
    adev'.rt.buffersDropped = adev.rt.buffersDropped := by
  unfold putEmpty at h
  split at h
  · exact absurd h nofun
  · obtain rfl := Option.some.inj h
    exact congrArg RunTime.buffersDropped (callOnPutEmpty_rt _ _)

end Dev

/-! ### The reader and the capture thread by the list operations -/

namespace Reader

variable {s s' : Reader}

/-- The buffers that `getFull` has taken, in order. -/
def served (s : Reader) : List HbmPtr :=
  s.returned.filterMap fun
    | .ok hbm => some hbm
    | .done | .refillErr | .eintr => none

theorem served_ret (s : Reader) (rc : Dev.GetFull) :
    (s.ret rc).served = s.served ++ (match rc with | .ok hbm => [hbm] | _ => []) := by
  unfold served ret
  rw [List.filterMap_append]
  cases rc <;> rfl

/-- One step of `getFull`: it goes on, it returns without a buffer, it returns with the first of
REFILLS, or it takes a list head. -/
theorem getFull_steps {signalled : Bool} (hstep : s.getFull signalled = some s') :
    (s'.reader ≠ .out ∧ s'.dev = s.dev ∧ s'.returned = s.returned) ∨
    (∃ rc, s' = s.ret rc ∧ ∀ hbm, rc ≠ .ok hbm) ∨
    (∃ hbm dev, s.reader = .take ∧ s.dev.takeFull = some (hbm, dev) ∧
      s' = { s with dev := dev }.ret (.ok hbm)) := by
  unfold getFull at hstep
  split at hstep
  · exact absurd hstep nofun
  all_goals (repeat' split at hstep)
  all_goals obtain rfl := Option.some.inj hstep
  all_goals first
    | exact Or.inl ⟨by simp_all, rfl, rfl⟩
    | exact Or.inr (Or.inl ⟨_, rfl, by simp⟩)
    | exact Or.inr (Or.inr ⟨_, _, ‹_›, ‹_›, rfl⟩)

/-- The list operation that a step is, if it is one. -/
def listOp (s : Reader) : ReaderAct → Option ListOp
  | .read _ =>
    if s.reader = .take ∧ s.dev.lists .refills ≠ [] then some (.getFull true false) else none
  | .putEmpty => some .putEmpty
  | .capture .getEmpty => some .getEmpty
  | .capture .putFull => some .putFull
  | .capture .takeRefills =>
    if s.dev.lists .refills = [] then none else some .getEmptyFromRefills
  | .capture .moveRefillsToEmpty => some (.moveListToEmpty .refills)
  | .capture .testRefills | .capture .refillError | .call _ | .stop => none

/-- What a step does to the lists, and to what has been taken. -/
structure Does (s s' : Reader) (op : Option ListOp) : Prop where
  dev : match op with
    | some op => listStep s.dev op = some s'.dev
    | none => s'.dev.lists = s.dev.lists ∧ s'.dev.hb = s.dev.hb
  served : s'.served = s.served ++ (op.bind (received s.dev)).toList
  fixed : s.dev.Fixed s'.dev

theorem Does.nothing (hlists : s'.dev.lists = s.dev.lists) (hhb : s'.dev.hb = s.dev.hb)
    (hserved : s'.served = s.served) (hpar : s'.dev.par = s.dev.par) : Does s s' none where
  dev := ⟨hlists, hhb⟩
  served := hserved.trans (List.append_nil _).symm
  fixed := ⟨fun hbm => by rw [hhb], by rw [hpar]⟩

theorem does_getFull {signalled : Bool} (hstep : s.getFull signalled = some s') :
    Does s s' (s.listOp (.read signalled)) := by
  have hquiet (h : ¬(s.reader = .take ∧ s.dev.lists .refills ≠ []))
      (hdev : s'.dev = s.dev) (hserved : s'.served = s.served) :
      Does s s' (s.listOp (.read signalled)) := by
    rw [listOp, if_neg h]
    exact .nothing (by rw [hdev]) (by rw [hdev]) hserved (by rw [hdev])
  by_cases htake : s.reader = .take ∧ s.dev.lists .refills ≠ []
  · rw [listOp, if_pos htake]
    obtain ⟨hbm, rest, hl⟩ := List.exists_cons_of_ne_nil htake.2
    obtain ⟨dev, hfull, -⟩ := Dev.takeFull_cons hl
    simp only [getFull, htake.1, hfull] at hstep
    obtain rfl := Option.some.inj hstep
    refine ⟨by simp [listStep, Dev.getFull, hfull, ret], ?_,
      .of_same (Dev.sameMemory_moveFirst hfull).toSameSetup⟩
    rw [served_ret]
    simp [received, Dev.getFull, hfull, served]
  · rcases getFull_steps hstep with ⟨-, hdev, hret⟩ | ⟨rc, rfl, hrc⟩ | ⟨hbm, dev, hpc, hfull, -⟩
    · exact hquiet htake hdev (by rw [served, hret, served])
    · refine hquiet htake rfl ?_
      rw [served_ret]
      cases rc with
      | ok hbm => exact absurd rfl (hrc hbm)
      | _ => exact List.append_nil _
    · refine absurd ⟨hpc, fun hnone => ?_⟩ htake
      rw [Dev.takeFull_nil hnone] at hfull
      cases hfull

theorem does_capture {op : CaptureOp} (hstep : s.captureSection op = some s') :
    Does s s' (s.listOp (.capture op)) := by
  have hserved {dev : Dev} {pc : CapturePc} :
      ({ s with dev := dev, capture := pc } : Reader).served =
        s.served ++ (none : Option HbmPtr).toList := (List.append_nil _).symm
  cases op with
  | getEmpty =>
      simp only [captureSection] at hstep
      split at hstep
      · obtain rfl := Option.some.inj hstep
        exact ⟨rfl, hserved, .of_same (Dev.sameMemory_getEmpty _).toSameSetup⟩
      · cases hstep
  | putFull =>
      simp only [captureSection] at hstep
      split at hstep
      · obtain rfl := Option.some.inj hstep
        exact ⟨rfl, hserved, .of_same (Dev.sameMemory_putFull _).toSameSetup⟩
      · cases hstep
  | testRefills =>
      simp only [captureSection] at hstep
      split at hstep
      · obtain rfl := Option.some.inj hstep
        exact .nothing rfl rfl rfl rfl
      · cases hstep
  | takeRefills =>
      simp only [captureSection] at hstep
      split at hstep
      · cases hl : s.dev.lists .refills with
        | nil =>
            simp only [Dev.getEmptyFromRefills_nil hl] at hstep
            obtain rfl := Option.some.inj hstep
            rw [listOp, if_pos hl]
            exact .nothing rfl rfl rfl rfl
        | cons hbm rest =>
            rw [listOp, if_neg (by rw [hl]; exact List.cons_ne_nil _ _)]
            have hfixed := Dev.Fixed.of_same (Dev.sameMemory_getEmptyFromRefills s.dev).toSameSetup
            obtain ⟨hsome, -⟩ := Dev.getEmptyFromRefills_cons hl
            split at hstep
            · rename_i hbm' dev heq
              rw [heq] at hfixed
              obtain rfl := Option.some.inj hstep
              exact ⟨by simp [listStep, heq], hserved, hfixed⟩
            · rename_i dev heq
              rw [heq] at hsome
              cases hsome
      · cases hstep
  | moveRefillsToEmpty =>
      simp only [captureSection] at hstep
      split at hstep
      · obtain rfl := Option.some.inj hstep
        exact ⟨rfl, hserved, .of_same (Dev.sameMemory_moveListTo _ .refills .empties).toSameSetup⟩
      · cases hstep
  | refillError =>
      simp only [captureSection] at hstep
      split at hstep
      · obtain rfl := Option.some.inj hstep
        exact .nothing rfl rfl rfl rfl
      · cases hstep

theorem does_step {act : ReaderAct} (hstep : readerStep s act = some s') :
    Does s s' (s.listOp act) := by
  unfold readerStep at hstep
  split at hstep
  · exact absurd hstep nofun
  · cases act with
    | call wait =>
        simp only at hstep
        split at hstep
        · obtain rfl := Option.some.inj hstep
          exact .nothing rfl rfl rfl rfl
        · exact absurd hstep nofun
    | read signalled => exact does_getFull hstep
    | putEmpty =>
        simp only at hstep
        split at hstep
        · obtain ⟨dev, hput, rfl⟩ := Option.map_eq_some_iff.mp hstep
          exact ⟨hput, (List.append_nil _).symm, Dev.fixed_putEmpty hput⟩
        · exact absurd hstep nofun
    | capture op => exact does_capture hstep
    | stop =>
        obtain rfl := Option.some.inj hstep
        exact .nothing rfl rfl rfl rfl

theorem step_putEmpty (hstep : readerStep s .putEmpty = some s') :
    s'.served = s.served ∧ ∃ hbm, s.dev.lists .opens = hbm :: s'.dev.lists .opens ∧
      s'.dev.lists .empties = s.dev.lists .empties ++ [hbm] := by
  have hdoes := does_step hstep
  obtain ⟨hbm, rest, hl, hlists⟩ := Dev.putEmpty_cases hdoes.dev
  refine ⟨hdoes.served.trans (List.append_nil _), hbm, ?_, ?_⟩
  · rw [hlists, hl]
    simp [Dev.shifted]
  · rw [hlists]
    simp [Dev.shifted]

/-- Who is not the reader in `getFull`, or in `putEmpty`, leaves OPENS alone. -/
theorem step_beside {act : ReaderAct} (hread : ∀ signalled, act ≠ .read signalled)
    (hput : act ≠ .putEmpty) (hstep : readerStep s act = some s') :
    s'.served = s.served ∧ s'.dev.lists .opens = s.dev.lists .opens := by
  obtain ⟨hdev, hserved, -⟩ := does_step hstep
  cases act with
  | read signalled => exact absurd rfl (hread signalled)
  | putEmpty => exact absurd rfl hput
  | call wait => exact ⟨hserved.trans (List.append_nil _), by rw [hdev.1]⟩
  | stop => exact ⟨hserved.trans (List.append_nil _), by rw [hdev.1]⟩
  | capture op =>
      cases op with
      | getEmpty =>
          refine ⟨hserved.trans (List.append_nil _), ?_⟩
          rw [← Option.some.inj hdev, Dev.getEmpty_opens]
      | putFull =>
          refine ⟨hserved.trans (List.append_nil _), ?_⟩
          rw [← Option.some.inj hdev, Dev.putFull_opens]
      | testRefills => exact ⟨hserved.trans (List.append_nil _), by rw [hdev.1]⟩
      | takeRefills =>
          by_cases hl : s.dev.lists .refills = []
          · simp only [listOp, if_pos hl] at hdev hserved
            exact ⟨hserved.trans (List.append_nil _), by rw [hdev.1]⟩
          · simp only [listOp, if_neg hl] at hdev hserved
            refine ⟨hserved.trans (List.append_nil _), ?_⟩
            rw [← Option.some.inj hdev, Dev.getEmptyFromRefills_opens]
      | moveRefillsToEmpty =>
          refine ⟨hserved.trans (List.append_nil _), ?_⟩
          rw [← Option.some.inj hdev, Dev.moveRefillsToEmpty_opens]
      | refillError => exact ⟨hserved.trans (List.append_nil _), by rw [hdev.1]⟩

theorem step_dropped {act : ReaderAct} (hstep : readerStep s act = some s') :
    s'.dev.rt.buffersDropped = s.dev.rt.buffersDropped := by
  unfold readerStep at hstep
  split at hstep
  · exact absurd hstep nofun
  cases act with
  | call wait =>
      simp only at hstep
      split at hstep
      · obtain rfl := Option.some.inj hstep
        rfl
      · exact absurd hstep nofun
  | read signalled =>
      rcases getFull_steps hstep with ⟨-, hdev, -⟩ | ⟨rc, rfl, -⟩ | ⟨hbm, dev, -, hfull, rfl⟩
      · rw [hdev]
      · rfl
      · exact congrArg RunTime.buffersDropped (Dev.moveFirst_rt hfull)
  | putEmpty =>
      simp only at hstep
      split at hstep
      · obtain ⟨dev, hput, rfl⟩ := Option.map_eq_some_iff.mp hstep
        exact Dev.putEmpty_dropped hput
      · exact absurd hstep nofun
  | capture op =>
      simp only [captureSection] at hstep
      cases op with
      | getEmpty =>
          simp only at hstep
          split at hstep
          · obtain rfl := Option.some.inj hstep
            exact s.dev.getEmpty_dropped
          · cases hstep
      | putFull =>
          simp only at hstep
          split at hstep
          · obtain rfl := Option.some.inj hstep
            exact s.dev.putFull_dropped
          · cases hstep
      | takeRefills =>
          simp only at hstep
          split at hstep
          · have hdropped := s.dev.getEmptyFromRefills_dropped
            split at hstep
            · rename_i heq
              obtain rfl := Option.some.inj hstep
              rwa [heq] at hdropped
            · obtain rfl := Option.some.inj hstep
              rfl
          · cases hstep
      | moveRefillsToEmpty =>
          simp only at hstep
          split at hstep
          · obtain rfl := Option.some.inj hstep
            exact s.dev.moveRefillsToEmpty_dropped
          · cases hstep
      | testRefills | refillError =>
          simp only at hstep
          split at hstep
          · obtain rfl := Option.some.inj hstep
            rfl
          · cases hstep
  | stop =>
      obtain rfl := Option.some.inj hstep
      rfl

theorem takeFull_opens {adev adev' : Dev} {hbm : HbmPtr} (h : adev.takeFull = some (hbm, adev')) :
    adev'.lists .opens = adev.lists .opens ++ [hbm] := by
  cases hl : adev.lists .refills with
  | nil =>
      rw [Dev.takeFull_nil hl] at h
      exact absurd h nofun
  | cons first rest =>
      obtain ⟨dev, hfull, hlists⟩ := Dev.takeFull_cons hl
      obtain ⟨rfl, rfl⟩ := Prod.mk.inj (Option.some.inj (hfull.symm.trans h))
      rw [hlists]
      simp [Dev.shifted]

end Reader

/-! ### The history beside the server -/

namespace CaptureServer

/-- What a step makes the reader or the capture thread do. -/
def readerAct (s : CaptureServer) : ServerAct → Option ReaderAct
  | .serve env =>
    match s.pc with
    | .drop backlog => if backlog > s.rd.dev.par.openBacklog then some .putEmpty else none
    | .call => some (.call true)
    | .getFull => some (.read env.signalled)
    | _ => none
  | .capture op => some (.capture op)
  | .stop => some .stop
  | .read | .bqOpen _ _ | .bqRelease _ | .bqRead _ _ _ => none

def listOp (s : CaptureServer) (act : ServerAct) : Option ListOp :=
  (s.readerAct act).bind s.rd.listOp

end CaptureServer

/-- The server, and the fills by number. -/
structure Recorded where
  srv : CaptureServer
  fills : Hist HbmPtr

def Recorded.start (adev : Dev) : Recorded :=
  { srv := .start adev, fills := Hist.start }

/-- One step, and what it does to the full buffers. -/
def recordedStep (nbuffers : Int) (hb0NoRatelimit : Int32) (r : Recorded) (act : ServerAct) :
    Option Recorded :=
  (serverStep nbuffers hb0NoRatelimit r.srv act).map fun srv =>
    { srv := srv
      fills :=
        match (r.srv.listOp act).bind (fifoEvent r.srv.rd.dev) with
        | some e => r.fills.step e
        | none => r.fills }

namespace CaptureServer

variable {nbuffers : Int} {hb0NoRatelimit : Int32} {s t : CaptureServer}

/-- The device changes by what the reader does or the capture thread, and by nothing else. -/
theorem serverStep_does {act : ServerAct}
    (hstep : serverStep nbuffers hb0NoRatelimit s act = some t) :
    s.rd.Does t.rd (s.listOp act) := by
  have hquiet (h : t.rd = s.rd) : s.rd.Does t.rd none :=
    .nothing (by rw [h]) (by rw [h]) (by rw [h]) (by rw [h])
  cases act with
  | read =>
      simp only [serverStep] at hstep
      split at hstep
      · obtain rfl := Option.some.inj hstep
        exact hquiet rfl
      · exact absurd hstep nofun
  | capture op =>
      obtain ⟨rd, hrd, rfl⟩ := Option.map_eq_some_iff.mp hstep
      exact Reader.does_step hrd
  | stop =>
      obtain ⟨rd, hrd, rfl⟩ := Option.map_eq_some_iff.mp hstep
      exact Reader.does_step hrd
  | bqOpen pdesc minor =>
      obtain ⟨bqw, -, rfl⟩ := Option.map_eq_some_iff.mp hstep
      exact hquiet rfl
  | bqRelease pdesc =>
      obtain rfl := Option.some.inj hstep
      exact hquiet rfl
  | bqRead pdesc count rest =>
      obtain ⟨bqw, -, rfl⟩ := Option.map_eq_some_iff.mp hstep
      exact hquiet rfl
  | serve env =>
      unfold listOp readerAct
      simp only [serverStep, serve] at hstep
      cases hpc : s.pc with
      | drop backlog =>
          simp only [hpc] at hstep
          split at hstep
          · rename_i hmore
            obtain ⟨rd, hrd, rfl⟩ := Option.map_eq_some_iff.mp hstep
            simp only [if_pos hmore]
            exact Reader.does_step hrd
          · rename_i hmore
            obtain rfl := Option.some.inj hstep
            simp only [if_neg hmore]
            exact hquiet rfl
      | call =>
          simp only [hpc] at hstep
          obtain ⟨rd, hrd, rfl⟩ := Option.map_eq_some_iff.mp hstep
          exact Reader.does_step hrd
      | getFull =>
          simp only [hpc] at hstep
          obtain ⟨rd, hrd, rfl⟩ := Option.map_eq_some_iff.mp hstep
          have hdoes := Reader.does_step hrd
          split
          · exact hdoes
          · exact hdoes
      | dropped backlog =>
          simp only [hpc] at hstep
          obtain rfl := Option.some.inj hstep
          exact .nothing rfl rfl rfl rfl
      | out =>
          simp only [hpc] at hstep
          exact absurd hstep nofun
      | stopTest =>
          simp only [hpc] at hstep
          split at hstep <;> obtain rfl := Option.some.inj hstep <;> exact hquiet rfl
      | switch rc =>
          cases rc <;>
            (simp only [hpc] at hstep; obtain rfl := Option.some.inj hstep; exact hquiet rfl)
      | opensTest hbm =>
          simp only [hpc] at hstep
          split at hstep <;> obtain rfl := Option.some.inj hstep <;> exact hquiet rfl
      | hb0Test hbm =>
          simp only [hpc] at hstep
          split at hstep
          · split at hstep <;> obtain rfl := Option.some.inj hstep <;> exact hquiet rfl
          · obtain rfl := Option.some.inj hstep
            exact hquiet rfl
      | _ =>
          simp only [hpc] at hstep
          obtain rfl := Option.some.inj hstep
          exact hquiet rfl

end CaptureServer

/-! ### What goes on OPENS and comes off -/

namespace ServerPc

/-- A buffer has been freed and is not counted yet. -/
def uncounted : ServerPc → Nat
  | .dropped _ => 1
  | _ => 0

end ServerPc

namespace CaptureServer

variable {nbuffers : Int} {hb0NoRatelimit : Int32} {s t : CaptureServer}

def opens (s : CaptureServer) : List HbmPtr := s.rd.dev.lists .opens

/-- The buffers that are counted as freed, with the one that is about to be. -/
def freed (s : CaptureServer) : Nat := s.rd.dev.rt.buffersDropped + s.pc.uncounted

/-- A read frees the first of OPENS, because there are more than `OPEN_BACKLOG`. -/
structure Frees (s t : CaptureServer) (act : ServerAct) (hbm : HbmPtr) : Prop where
  serve : ∃ env left, act = .serve env ∧ s.pc = .drop left ∧ s.rd.dev.par.openBacklog < left
  opens : s.opens = hbm :: t.opens
  empties : t.rd.dev.lists .empties = s.rd.dev.lists .empties ++ [hbm]

/-- What one step does to OPENS: nothing, or it takes a full buffer, or it frees one. -/
theorem serverStep_opens {act : ServerAct}
    (hstep : serverStep nbuffers hb0NoRatelimit s act = some t) :
    (t.opens = s.opens ∧ t.rd.served = s.rd.served ∧ t.freed = s.freed) ∨
    (∃ hbm, t.opens = s.opens ++ [hbm] ∧ t.rd.served = s.rd.served ++ [hbm] ∧
      t.freed = s.freed) ∨
    (∃ hbm, s.Frees t act hbm ∧ t.rd.served = s.rd.served ∧ t.freed = s.freed + 1) := by
  have hbeside {rd : Reader} {ract : ReaderAct} (hread : ∀ signalled, ract ≠ .read signalled)
      (hput : ract ≠ .putEmpty) (hrd : readerStep s.rd ract = some rd) :
      rd.dev.lists .opens = s.opens ∧ rd.served = s.rd.served ∧
        rd.dev.rt.buffersDropped = s.rd.dev.rt.buffersDropped := by
    obtain ⟨hserved, hopens⟩ := Reader.step_beside hread hput hrd
    exact ⟨hopens, hserved, Reader.step_dropped hrd⟩
  cases act with
  | read =>
      simp only [serverStep] at hstep
      split at hstep
      · rename_i hpc
        obtain rfl := Option.some.inj hstep
        exact Or.inl ⟨rfl, rfl, by rw [freed, freed, hpc]; rfl⟩
      · exact absurd hstep nofun
  | capture op =>
      obtain ⟨rd, hrd, rfl⟩ := Option.map_eq_some_iff.mp hstep
      obtain ⟨hopens, hserved, hdropped⟩ := hbeside (by simp) (by simp) hrd
      exact Or.inl ⟨hopens, hserved, congrArg (· + s.pc.uncounted) hdropped⟩
  | stop =>
      obtain ⟨rd, hrd, rfl⟩ := Option.map_eq_some_iff.mp hstep
      obtain ⟨hopens, hserved, hdropped⟩ := hbeside (by simp) (by simp) hrd
      exact Or.inl ⟨hopens, hserved, congrArg (· + s.pc.uncounted) hdropped⟩
  | bqOpen pdesc minor =>
      obtain ⟨bqw, -, rfl⟩ := Option.map_eq_some_iff.mp hstep
      exact Or.inl ⟨rfl, rfl, rfl⟩
  | bqRelease pdesc =>
      obtain rfl := Option.some.inj hstep
      exact Or.inl ⟨rfl, rfl, rfl⟩
  | bqRead pdesc count rest =>
      obtain ⟨bqw, -, rfl⟩ := Option.map_eq_some_iff.mp hstep
      exact Or.inl ⟨rfl, rfl, rfl⟩
  | serve env =>
      simp only [serverStep, serve] at hstep
      -- a step that leaves the reader alone
      have hquiet (hrd : t.rd = s.rd) (hpc : t.pc.uncounted = s.pc.uncounted) :
          t.opens = s.opens ∧ t.rd.served = s.rd.served ∧ t.freed = s.freed :=
        ⟨by rw [opens, hrd, opens], by rw [hrd], by rw [freed, hrd, hpc, freed]⟩
      cases hpc : s.pc with
      | drop left =>
          simp only [hpc] at hstep
          split at hstep
          · rename_i hmore
            obtain ⟨rd, hrd, rfl⟩ := Option.map_eq_some_iff.mp hstep
            obtain ⟨hserved, hbm, hopens, hempties⟩ := Reader.step_putEmpty hrd
            have hfrees : s.Frees { s with rd := rd, pc := .dropped left } (.serve env) hbm :=
              ⟨⟨env, left, rfl, hpc, hmore⟩, hopens, hempties⟩
            refine Or.inr (Or.inr ⟨hbm, hfrees, hserved, ?_⟩)
            rw [freed, freed, hpc]
            exact congrArg (· + 1) (Reader.step_dropped hrd)
          · obtain rfl := Option.some.inj hstep
            exact Or.inl (hquiet rfl (by rw [hpc]; rfl))
      | dropped left =>
          simp only [hpc] at hstep
          obtain rfl := Option.some.inj hstep
          exact Or.inl ⟨rfl, rfl, by rw [freed, freed, hpc]; rfl⟩
      | call =>
          simp only [hpc] at hstep
          obtain ⟨rd, hrd, rfl⟩ := Option.map_eq_some_iff.mp hstep
          obtain ⟨hopens, hserved, hdropped⟩ := hbeside (by simp) (by simp) hrd
          refine Or.inl ⟨hopens, hserved, ?_⟩
          rw [freed, freed, hpc]
          exact hdropped
      | getFull =>
          simp only [hpc] at hstep
          obtain ⟨rd, hrd, rfl⟩ := Option.map_eq_some_iff.mp hstep
          have hdropped := Reader.step_dropped hrd
          unfold readerStep at hrd
          split at hrd
          · exact absurd hrd nofun
          rcases Reader.getFull_steps hrd with ⟨hin, hdev, hret⟩ | ⟨rc, rfl, hrc⟩ |
            ⟨hbm, dev, -, hfull, rfl⟩
          · have hserved : rd.served = s.rd.served := by rw [Reader.served, hret, Reader.served]
            split
            · rename_i hout _
              exact absurd hout hin
            · refine Or.inl ⟨by rw [opens, hdev, opens], hserved, ?_⟩
              rw [freed, freed, hpc]
              exact hdropped
          · simp only [Reader.ret, List.getLast?_concat]
            refine Or.inl ⟨rfl, ?_, by rw [freed, freed, hpc]; rfl⟩
            refine (Reader.served_ret s.rd rc).trans ?_
            cases rc with
            | ok hbm => exact absurd rfl (hrc hbm)
            | _ => exact List.append_nil _
          · simp only [Reader.ret, List.getLast?_concat]
            refine Or.inr (Or.inl ⟨hbm, Reader.takeFull_opens hfull, Reader.served_ret _ _, ?_⟩)
            rw [freed, freed, hpc]
            exact hdropped
      | out =>
          simp only [hpc] at hstep
          exact absurd hstep nofun
      | stopTest =>
          simp only [hpc] at hstep
          split at hstep <;> obtain rfl := Option.some.inj hstep <;>
            exact Or.inl (hquiet rfl (by rw [hpc]; rfl))
      | switch rc =>
          cases rc <;>
            (simp only [hpc] at hstep
             obtain rfl := Option.some.inj hstep
             exact Or.inl (hquiet rfl (by rw [hpc]; rfl)))
      | opensTest hbm =>
          simp only [hpc] at hstep
          split at hstep <;> obtain rfl := Option.some.inj hstep <;>
            exact Or.inl (hquiet rfl (by rw [hpc]; rfl))
      | hb0Test hbm =>
          simp only [hpc] at hstep
          split at hstep
          · split at hstep <;> obtain rfl := Option.some.inj hstep <;>
              exact Or.inl (hquiet rfl (by rw [hpc]; rfl))
          · obtain rfl := Option.some.inj hstep
            exact Or.inl (hquiet rfl (by rw [hpc]; rfl))
      | _ =>
          simp only [hpc] at hstep
          obtain rfl := Option.some.inj hstep
          exact Or.inl (hquiet rfl (by rw [hpc]; rfl))

end CaptureServer

/-! ### What the clients have of what they were told -/

namespace BqWrapper

variable {bqw bqw' : BqWrapper} {nbuffers : Int} {told : List Nat}

/-- What a client has of `told`, of which it has heard the last part. -/
structure ClientTold (told : List Nat) (overruns : Nat) (cur : BqClient) : Prop where
  ok : cur.Ok
  notified : cur.notified <:+ told
  order : (cur.reads ++ cur.bq.items).Sublist cur.notified
  last : cur.bq.items <:+ cur.notified
  all : overruns = 0 → cur.lost = [] → cur.reads ++ cur.bq.items = cur.notified

def Tells (told : List Nat) (bqw : BqWrapper) : Prop :=
  ∀ pdesc cur, bqw.client pdesc = some cur → ClientTold told bqw.bqOverruns cur

theorem Tells.notify (h : bqw.Tells told) (ix : Nat) :
    (bqw.bqNotify nbuffers ix).Tells (told ++ [ix]) := by
  intro pdesc cur' hcur'
  rw [client_bqNotify] at hcur'
  obtain ⟨cur, hcur, rfl⟩ := Option.map_eq_some_iff.mp hcur'
  obtain ⟨hok, ⟨front, hfront⟩, horder, hlast, hall⟩ := h pdesc cur hcur
  obtain ⟨hok', hitems⟩ := BqClient.notify_spec hok (nbuffers - 2) ix
  have hreads : (cur.notify (nbuffers - 2) ix).reads = cur.reads := rfl
  have hnotified : (cur.notify (nbuffers - 2) ix).notified = cur.notified ++ [ix] := rfl
  refine ⟨hok', ⟨front, ?_⟩, ?_, ?_, ?_⟩
  · rw [hnotified, ← List.append_assoc, hfront]
  · rw [hreads, hitems, hnotified, ← List.append_assoc]
    refine List.Sublist.append (List.Sublist.trans ?_ horder) (List.Sublist.refl [ix])
    unfold BqClient.kept
    split
    · rw [List.append_nil]
      exact List.sublist_append_left _ _
    · exact List.Sublist.refl _
  · rw [hitems, hnotified]
    exact List.suffix_append_self_iff.mpr ((cur.kept_suffix _).trans hlast)
  · intro hnone hlost
    have hnot : ¬cur.overruns (nbuffers - 2) := by
      intro hover
      have := lt_bqNotify ix hcur hover
      omega
    have hbefore : bqw.bqOverruns = 0 := by
      rw [bqOverruns_bqNotify] at hnone
      omega
    rw [hreads, hitems, hnotified, BqClient.kept, if_neg hnot, ← List.append_assoc,
      hall hbefore hlost]

theorem Tells.client (h : bqw.Tells told) {act : BqAct} (hroomy : ∀ pdesc, Roomy pdesc act)
    (hnotify : ∀ ix, act ≠ .bqNotify ix) (hstep : step nbuffers bqw act = some bqw') :
    bqw'.Tells told := by
  intro pdesc cur' hcur'
  rcases client_before hcur' hstep with ⟨cur, hcur, hstay⟩ | ⟨backlog, rfl, rfl⟩
  · obtain ⟨hok, hnotified, horder, hlast, hall⟩ := h pdesc cur hcur
    rcases step_client hcur hstay hstep with ⟨hsame, hovers⟩ | ⟨ix, hact, -⟩ |
      ⟨count, rest, -, hread, hovers⟩
    · obtain rfl := Option.some.inj (hsame.symm.trans hcur')
      exact ⟨hok, hnotified, horder, hlast, fun hnone => hall (hovers ▸ hnone)⟩
    · exact absurd hact (hnotify ix)
    · obtain rfl := Option.some.inj (hread.symm.trans hcur')
      obtain ⟨bn, bad, ⟨hok', hsame, hreads, hlost, taken, hitems, hsub, htaken⟩, -⟩ :=
        BqClient.took_read hok count rest
      refine ⟨hok', by rwa [hsame], ?_, ?_, fun hnone hnever => ?_⟩
      · rw [hreads, hsame, List.append_assoc]
        refine List.Sublist.trans ?_ horder
        rw [hitems]
        exact (List.Sublist.refl _).append (hsub.append (List.Sublist.refl _))
      · rw [hsame]
        exact (hitems ▸ List.suffix_append taken _ : _ <:+ cur.bq.items).trans hlast
      · obtain ⟨hnever, hbad⟩ := List.append_eq_nil_iff.mp (hlost.symm.trans hnever)
        rw [hreads, hsame, ← hall (hovers ▸ hnone) hnever, hitems, htaken hbad, List.append_assoc]
  · obtain ⟨k, rfl⟩ := hroomy pdesc rfl
    have hitems : (Bq.init (2 ^ (k + 1))).items = [] := Bq.Sound.init.items_eq_nil rfl
    have hopened : (BqClient.opened pdesc (2 ^ (k + 1))).bq.items = [] := hitems
    refine ⟨⟨Bq.Sound.init, ?_, rfl⟩, List.nil_suffix, ?_, ?_, fun _ _ => by rw [hopened]; rfl⟩
    · show 2 ≤ 2 ^ (k + 1)
      have := Nat.two_pow_pos k
      omega
    · rw [hopened]
      exact List.Sublist.refl []
    · rw [hopened]
      exact List.nil_suffix

theorem roomy_backlog (other pdesc : Nat) (minor : BqMinor) :
    Roomy pdesc (.bqOpen other minor.backlog) := by
  intro _
  cases minor with
  | nowait => exact ⟨0, rfl⟩
  | full => exact ⟨8, rfl⟩

end BqWrapper

/-! ### What is handed over -/

namespace ServerPc

/-- The buffer that has been taken and not returned to the user yet. -/
def unreplied : ServerPc → Option HbmPtr
  | .switch (.ok hbm) | .opensTest hbm | .hb0Test hbm | .hb0Count _ _ hbm | .hb0Prev _ _ hbm
  | .hb0Crnt _ hbm | .hb0Last _ hbm | .hbmM1 hbm | .notify hbm | .copy hbm => some hbm
  | _ => none

/-- The one that the clients have not been told of yet. -/
def inHand : ServerPc → Option HbmPtr
  | .copy _ => none
  | pc => pc.unreplied

/-- The one that is not the last for HB0 yet. -/
def unmarked : ServerPc → Option HbmPtr
  | .notify _ | .copy _ => none
  | pc => pc.unreplied

theorem inHand_unreplied {pc : ServerPc} {hbm : HbmPtr} (h : pc.inHand = some hbm) :
    pc.unreplied = some hbm := by
  unfold inHand at h
  split at h
  · exact absurd h nofun
  · exact h

/-- Nothing is handed over from one to the other. -/
def SameHands (pc pc' : ServerPc) : Prop :=
  pc'.unreplied = pc.unreplied ∧ pc'.inHand = pc.inHand ∧ pc'.unmarked = pc.unmarked

/-- How many buffers there are on OPENS. -/
def Room (backlog : Int) (n : Nat) : ServerPc → Prop
  | .drop left => (n : Int) = left ∧ (n : Int) ≤ backlog + 1
  | .dropped left => (n : Int) + 1 = left ∧ backlog < left ∧ left ≤ backlog + 1
  | .call | .getFull => (n : Int) ≤ backlog
  | _ => (n : Int) ≤ backlog + 1

end ServerPc

def ServerReply.number : ServerReply → Option Int
  | .ix n => some n
  | .rc _ => none

namespace CaptureServer

variable {nbuffers : Int} {hb0NoRatelimit : Int32} {s t : CaptureServer}
  {ix : HbmPtr → Int} {backlog : Int}

/-- What has been taken, without one that is still to go. -/
def upTo (served : List HbmPtr) : Option HbmPtr → List HbmPtr
  | some _ => served.dropLast
  | none => served

/-- What the clients have been told of. -/
def told (s : CaptureServer) : List HbmPtr := upTo s.rd.served s.pc.inHand

/-- The numbers that the user has been given. -/
def numbers (s : CaptureServer) : List Int := s.replies.filterMap ServerReply.number

/-- Two buffers that have been taken one after the other. -/
def Consecutive (ix : HbmPtr → Int) (served : List HbmPtr) (mark : Hb0Mark) : Prop :=
  ∃ before x y after, served = before ++ [x, y] ++ after ∧ mark.prev = ix x ∧ mark.crnt = ix y

/-- The HB0 pair, where it is complete: as it was cleared, or two in a row. -/
def PairOk (ix : HbmPtr → Int) (s : CaptureServer) : Prop :=
  (s.hb0.prev = 0 ∧ s.hb0.crnt = 0) ∨ Consecutive ix s.rd.served s.hb0

/-- What is so of it on the way. -/
def PairAt (ix : HbmPtr → Int) (s : CaptureServer) : Prop :=
  match s.pc with
  | .hb0Count _ hbmM1 _ | .hb0Prev _ hbmM1 _ => s.hb0.hbmM1 = some hbmM1 ∧ s.PairOk ix
  | .hb0Crnt _ _ => ∃ hbmM1, s.hb0.hbmM1 = some hbmM1 ∧ s.hb0.prev = ix hbmM1
  | _ => s.PairOk ix

/-- What the server has taken, keeps on OPENS, has marked and has returned. -/
structure Handing (ix : HbmPtr → Int) (backlog : Int) (s : CaptureServer) : Prop where
  suffix : s.opens <:+ s.rd.served
  atLeast : min s.rd.served.length backlog.toNat ≤ s.opens.length
  room : s.pc.Room backlog s.opens.length
  last : ∀ hbm, s.pc.unreplied = some hbm → s.rd.served.getLast? = some hbm ∧ s.opens ≠ []
  replied : s.numbers = (upTo s.rd.served s.pc.unreplied).map ix
  marked : s.hb0.hbmM1 = (upTo s.rd.served s.pc.unmarked).getLast?
  pair : s.PairAt ix
  tells : s.bqw.Tells (s.told.map fun hbm => (ix hbm).toNat)

theorem Handing.goto (h : s.Handing ix backlog) (hserved : t.rd.served = s.rd.served)
    (hopens : t.opens = s.opens) (hnumbers : t.numbers = s.numbers)
    (hm1 : t.hb0.hbmM1 = s.hb0.hbmM1) (hhands : s.pc.SameHands t.pc)
    (hroom : s.pc.Room backlog s.opens.length → t.pc.Room backlog s.opens.length)
    (hpair : t.PairAt ix)
    (htells : t.bqw.Tells (s.told.map fun hbm => (ix hbm).toNat)) : t.Handing ix backlog where
  suffix := by rw [hopens, hserved]; exact h.suffix
  atLeast := by rw [hopens, hserved]; exact h.atLeast
  room := by rw [hopens]; exact hroom h.room
  last := by rw [hhands.1, hserved, hopens]; exact h.last
  replied := by rw [hnumbers, hserved, hhands.1]; exact h.replied
  marked := by rw [hm1, hserved, hhands.2.2]; exact h.marked
  pair := hpair
  tells := by rw [told, hserved, hhands.2.1]; exact htells

theorem Consecutive.append {served : List HbmPtr} {mark : Hb0Mark}
    (h : Consecutive ix served mark) (new : List HbmPtr) :
    Consecutive ix (served ++ new) mark := by
  obtain ⟨before, x, y, after, rfl, hx, hy⟩ := h
  exact ⟨before, x, y, after ++ new, by simp, hx, hy⟩

theorem Handing.beside (h : s.Handing ix backlog) (hserved : t.rd.served = s.rd.served)
    (hopens : t.opens = s.opens) (hreplies : t.replies = s.replies) (hhb0 : t.hb0 = s.hb0)
    (hpc : t.pc = s.pc) (htells : t.bqw.Tells (s.told.map fun hbm => (ix hbm).toNat)) :
    t.Handing ix backlog := by
  refine h.goto hserved hopens (by rw [numbers, hreplies, numbers]) (by rw [hhb0])
    (by rw [hpc]; exact ⟨rfl, rfl, rfl⟩) (by rw [hpc]; exact id) ?_ htells
  have hpair := h.pair
  unfold PairAt PairOk at hpair ⊢
  rw [hpc, hhb0, hserved]
  exact hpair

theorem upTo_some {served : List HbmPtr} {hbm : HbmPtr} (h : served.getLast? = some hbm) :
    upTo served (some hbm) ++ [hbm] = served := by
  obtain ⟨front, rfl⟩ := List.getLast?_eq_some_iff.mp h
  rw [upTo, List.dropLast_concat]

theorem upTo_append {served : List HbmPtr} {hand : Option HbmPtr}
    (h : ∀ hbm, hand = some hbm → served.getLast? = some hbm) :
    served = upTo served hand ++ hand.toList := by
  cases hand with
  | none => exact (List.append_nil _).symm
  | some hbm => exact (upTo_some (h hbm rfl)).symm

theorem Handing.drop (h : s.Handing ix backlog) {left : Int} (hpc : s.pc = .drop left)
    (hmore : backlog < left) (hserved : t.rd.served = s.rd.served) {hbm : HbmPtr}
    (hopens : s.opens = hbm :: t.opens) (hreplies : t.replies = s.replies)
    (hhb0 : t.hb0 = s.hb0) (hbqw : t.bqw = s.bqw) (htpc : t.pc = .dropped left) :
    t.Handing ix backlog := by
  obtain ⟨hsuffix, hleast, hroom, -, hreplied, hmarked, hpair, htells⟩ := h
  simp only [PairAt, hpc] at hpair
  simp only [told, hpc] at htells
  rw [hpc] at hroom hreplied hmarked
  obtain ⟨hleft, hle⟩ := hroom
  have hlen : s.opens.length = t.opens.length + 1 := by rw [hopens, List.length_cons]
  refine ⟨?_, ?_, ?_, ?_, ?_, ?_, ?_, ?_⟩
  · rw [hserved]
    exact (List.suffix_cons _ _).trans (hopens ▸ hsuffix)
  · rw [hserved]
    omega
  · rw [htpc]
    show (t.opens.length : Int) + 1 = left ∧ backlog < left ∧ left ≤ backlog + 1
    omega
  · rw [htpc]
    intro hbm hnone
    exact absurd hnone nofun
  · rw [numbers, hreplies, hserved, htpc]
    exact hreplied
  · rw [hhb0, hserved, htpc]
    exact hmarked
  · simp only [PairAt, htpc, PairOk, hhb0, hserved]
    exact hpair
  · simp only [told, htpc, hbqw, hserved]
    exact htells

theorem Handing.take (h : s.Handing ix backlog) (hpc : s.pc = .getFull) {hbm : HbmPtr}
    (hserved : t.rd.served = s.rd.served ++ [hbm]) (hopens : t.opens = s.opens ++ [hbm])
    (hreplies : t.replies = s.replies) (hhb0 : t.hb0 = s.hb0) (hbqw : t.bqw = s.bqw)
    (htpc : t.pc = .switch (.ok hbm)) : t.Handing ix backlog := by
  obtain ⟨⟨front, hfront⟩, hleast, hroom, -, hreplied, hmarked, hpair, htells⟩ := h
  simp only [PairAt, hpc] at hpair
  simp only [told, hpc] at htells
  rw [hpc] at hroom hreplied hmarked
  have hlen : t.opens.length = s.opens.length + 1 := by
    rw [hopens, List.length_append, List.length_singleton]
  have hbefore : upTo t.rd.served (some hbm) = s.rd.served := by
    rw [hserved, upTo, List.dropLast_concat]
  refine ⟨?_, ?_, ?_, ?_, ?_, ?_, ?_, ?_⟩
  · exact ⟨front, by rw [hopens, hserved, ← hfront, List.append_assoc]⟩
  · rw [hserved, List.length_append, List.length_singleton]
    have hle : (s.opens.length : Int) ≤ backlog := hroom
    omega
  · rw [htpc]
    have hle : (s.opens.length : Int) ≤ backlog := hroom
    show (t.opens.length : Int) ≤ backlog + 1
    omega
  · rw [htpc]
    rintro _ ⟨⟩
    rw [hserved, List.getLast?_concat, hopens]
    exact ⟨rfl, List.append_ne_nil_of_right_ne_nil _ (List.cons_ne_nil _ _)⟩
  · rw [numbers, hreplies, htpc]
    exact hreplied.trans (congrArg _ hbefore.symm)
  · rw [hhb0, htpc]
    exact hmarked.trans (congrArg _ hbefore.symm)
  · simp only [PairAt, htpc, PairOk, hhb0, hserved]
    exact hpair.imp_right fun hc => hc.append [hbm]
  · simp only [told, htpc, hbqw]
    show s.bqw.Tells ((upTo t.rd.served (some hbm)).map _)
    rw [hbefore]
    exact htells

theorem Handing.pass (h : s.Handing ix backlog) {hbm : HbmPtr}
    (hhas : s.pc.unreplied = some hbm) (hrd : t.rd = s.rd)
    (hroom : s.pc.Room backlog s.opens.length → t.pc.Room backlog s.opens.length)
    (hlast : ∀ cur, t.pc.unreplied = some cur → cur = hbm)
    (hreplied : t.numbers = (upTo s.rd.served t.pc.unreplied).map ix)
    (hmarked : t.hb0.hbmM1 = (upTo s.rd.served t.pc.unmarked).getLast?) (hpair : t.PairAt ix)
    (htells : t.bqw.Tells (t.told.map fun hbm => (ix hbm).toNat)) : t.Handing ix backlog := by
  have hopens : t.opens = s.opens := by rw [opens, hrd, opens]
  refine ⟨?_, ?_, ?_, ?_, ?_, ?_, hpair, htells⟩
  · rw [hopens, hrd]
    exact h.suffix
  · rw [hopens, hrd]
    exact h.atLeast
  · rw [hopens]
    exact hroom h.room
  · intro cur hcur
    obtain rfl := hlast cur hcur
    rw [hopens, hrd]
    exact h.last cur hhas
  · rw [hrd]
    exact hreplied
  · rw [hrd]
    exact hmarked

theorem Handing.mark (h : s.Handing ix backlog) {hbm : HbmPtr} (hpc : s.pc = .hbmM1 hbm) :
    { s with hb0 := { s.hb0 with hbmM1 := some hbm }, pc := .notify hbm }.Handing ix backlog := by
  obtain ⟨-, -, -, hlast, hreplied, -, hpair, htells⟩ := id h
  simp only [PairAt, hpc] at hpair
  simp only [told, hpc] at htells
  rw [hpc] at hreplied
  refine h.pass (by rw [hpc]; rfl) rfl (by rw [hpc]; exact id) ?_ hreplied ?_ hpair htells
  · rintro _ ⟨⟩
    rfl
  · exact (hlast hbm (by rw [hpc]; rfl)).1.symm

theorem Handing.notify (h : s.Handing ix backlog) {hbm : HbmPtr} (hpc : s.pc = .notify hbm) :
    { s with bqw := s.bqw.bqNotify nbuffers (ix hbm).toNat, pc := .copy hbm }.Handing ix
      backlog := by
  obtain ⟨-, -, -, hlast, hreplied, hmarked, hpair, htells⟩ := id h
  simp only [PairAt, hpc] at hpair
  rw [hpc] at hreplied hmarked
  refine h.pass (by rw [hpc]; rfl) rfl (by rw [hpc]; exact id) ?_ hreplied hmarked hpair ?_
  · rintro _ ⟨⟩
    rfl
  · have hall := upTo_some (hlast hbm (by rw [hpc]; rfl)).1
    simp only [told, hpc] at htells
    show (s.bqw.bqNotify nbuffers (ix hbm).toNat).Tells (s.rd.served.map _)
    rw [← hall, List.map_append, List.map_singleton]
    exact htells.notify (ix hbm).toNat

theorem Handing.reply (h : s.Handing ix backlog) {hbm : HbmPtr} (hpc : s.pc = .copy hbm) :
    (s.ret (.ix (ix hbm))).Handing ix backlog := by
  obtain ⟨-, -, -, hlast, hreplied, hmarked, hpair, htells⟩ := id h
  simp only [PairAt, hpc] at hpair
  simp only [told, hpc] at htells
  rw [hpc] at hreplied hmarked
  refine h.pass (by rw [hpc]; rfl) rfl (by rw [hpc]; exact id) (fun _ => nofun) ?_ hmarked hpair
    htells
  have hall := upTo_some (hlast hbm (by rw [hpc]; rfl)).1
  have hnumbers : (s.ret (.ix (ix hbm))).numbers = s.numbers ++ [ix hbm] := by
    rw [numbers, ret, List.filterMap_append]
    rfl
  show _ = s.rd.served.map ix
  rw [hnumbers, hreplied, ← hall, List.map_append, List.map_singleton, hall]
  rfl

theorem Handing.pairOk (h : s.Handing ix backlog) {now : UInt32} {hbm : HbmPtr}
    (hpc : s.pc = .hb0Crnt now hbm) (hrd : t.rd = s.rd)
    (hhb0 : t.hb0 = { s.hb0 with crnt := ix hbm }) : t.PairOk ix := by
  have hmarked := h.marked
  have hpair := h.pair
  have hlast := (h.last hbm (by rw [hpc]; rfl)).1
  simp only [PairAt, hpc] at hpair
  rw [hpc] at hmarked
  obtain ⟨hbmM1, hm1, hprev⟩ := hpair
  obtain ⟨front, hfront⟩ := List.getLast?_eq_some_iff.mp (hmarked.symm.trans hm1)
  refine Or.inr ⟨front, hbmM1, hbm, [], ?_, ?_, ?_⟩
  · rw [hrd, ← upTo_some hlast]
    show upTo s.rd.served (ServerPc.hb0Crnt now hbm).unmarked ++ [hbm] = _
    rw [hfront]
    simp
  · rw [hhb0]
    exact hprev
  · rw [hhb0]

theorem Handing.serve (h : s.Handing ix backlog) (hids : ∀ hbm, (s.rd.dev.hb hbm).ix = ix hbm)
    (hbacklog : s.rd.dev.par.openBacklog = backlog) {env : ServerEnv}
    (hstep : s.serve nbuffers hb0NoRatelimit env = some t) : t.Handing ix backlog := by
  have hpair := h.pair
  have hroom := h.room
  unfold PairAt at hpair
  unfold CaptureServer.serve at hstep
  cases hpc : s.pc with
  | out =>
      simp only [hpc] at hstep
      exact absurd hstep nofun
  | stopTest =>
      simp only [hpc] at hstep hpair
      split at hstep
      · obtain rfl := Option.some.inj hstep
        refine h.goto rfl rfl ?_ rfl (by rw [hpc]; exact ⟨rfl, rfl, rfl⟩) (by rw [hpc]; exact id)
          hpair h.tells
        simp [numbers, ret, ServerReply.number]
      · obtain rfl := Option.some.inj hstep
        exact h.goto rfl rfl rfl rfl (by rw [hpc]; exact ⟨rfl, rfl, rfl⟩) (by rw [hpc]; exact id)
          hpair h.tells
  | depth =>
      simp only [hpc] at hstep hpair
      obtain rfl := Option.some.inj hstep
      exact h.goto rfl rfl rfl rfl (by rw [hpc]; exact ⟨rfl, rfl, rfl⟩)
        (by rw [hpc]; exact fun hle => ⟨rfl, hle⟩) hpair h.tells
  | drop left =>
      simp only [hpc] at hstep hpair
      split at hstep
      · rename_i hmore
        obtain ⟨rd, hrd, rfl⟩ := Option.map_eq_some_iff.mp hstep
        obtain ⟨hserved, hbm, hopens, -⟩ := Reader.step_putEmpty hrd
        exact h.drop hpc (hbacklog ▸ hmore) hserved hopens rfl rfl rfl rfl
      · rename_i hmore
        obtain rfl := Option.some.inj hstep
        refine h.goto rfl rfl rfl rfl (by rw [hpc]; exact ⟨rfl, rfl, rfl⟩) ?_ hpair h.tells
        rw [hpc]
        rintro ⟨hleft, -⟩
        show (s.opens.length : Int) ≤ backlog
        omega
  | dropped left =>
      simp only [hpc] at hstep hpair
      obtain rfl := Option.some.inj hstep
      refine h.goto rfl rfl rfl rfl (by rw [hpc]; exact ⟨rfl, rfl, rfl⟩) ?_ hpair h.tells
      rw [hpc]
      rintro ⟨hleft, hmore, hle⟩
      exact ⟨by omega, by omega⟩
  | call =>
      simp only [hpc] at hstep hpair
      obtain ⟨rd, hrd, rfl⟩ := Option.map_eq_some_iff.mp hstep
      obtain ⟨hserved, hopens⟩ := Reader.step_beside (by simp) (by simp) hrd
      refine h.goto hserved hopens rfl rfl (by rw [hpc]; exact ⟨rfl, rfl, rfl⟩)
        (by rw [hpc]; exact id) ?_ h.tells
      simp only [PairAt, PairOk, hserved]
      exact hpair
  | getFull =>
      simp only [hpc] at hstep hpair
      obtain ⟨rd, hrd, rfl⟩ := Option.map_eq_some_iff.mp hstep
      unfold readerStep at hrd
      split at hrd
      · exact absurd hrd nofun
      rcases Reader.getFull_steps hrd with ⟨hin, hdev, hret⟩ | ⟨rc, rfl, hrc⟩ |
        ⟨hbm, dev, -, hfull, rfl⟩
      · have hserved : rd.served = s.rd.served := by rw [Reader.served, hret, Reader.served]
        split
        · rename_i hout _
          exact absurd hout hin
        · exact h.beside hserved (by rw [opens, hdev, opens]) rfl rfl hpc.symm h.tells
      · have hserved : (s.rd.ret rc).served = s.rd.served := by
          rw [Reader.served_ret]
          cases rc with
          | ok hbm => exact absurd rfl (hrc hbm)
          | _ => exact List.append_nil _
        simp only [Reader.ret, List.getLast?_concat]
        have hpairOk : PairOk ix { s with rd := s.rd.ret rc, pc := .switch rc } := by
          simp only [PairOk, hserved]
          exact hpair
        cases rc with
        | ok hbm => exact absurd rfl (hrc hbm)
        | _ =>
            exact h.goto hserved rfl rfl rfl (by rw [hpc]; exact ⟨rfl, rfl, rfl⟩)
              (by rw [hpc]; exact fun hle => Int.le_add_one hle) hpairOk h.tells
      · simp only [Reader.ret, List.getLast?_concat]
        exact h.take hpc (Reader.served_ret _ _) (Reader.takeFull_opens hfull) rfl rfl rfl rfl
  | switch rc =>
      cases rc with
      | ok hbm =>
          simp only [hpc] at hstep hpair
          obtain rfl := Option.some.inj hstep
          exact h.goto rfl rfl rfl rfl (by rw [hpc]; exact ⟨rfl, rfl, rfl⟩)
            (by rw [hpc]; exact id) hpair h.tells
      | _ =>
          simp only [hpc] at hstep hpair
          obtain rfl := Option.some.inj hstep
          refine h.goto rfl rfl ?_ rfl (by rw [hpc]; exact ⟨rfl, rfl, rfl⟩)
            (by rw [hpc]; exact id) hpair h.tells
          simp [numbers, ret, ServerReply.number]
  | opensTest hbm =>
      simp only [hpc] at hstep hpair
      have hsome := (h.last hbm (by rw [hpc]; rfl)).2
      split at hstep
      · rename_i hnone
        exact absurd (List.isEmpty_iff.mp hnone) hsome
      · obtain rfl := Option.some.inj hstep
        exact h.goto rfl rfl rfl rfl (by rw [hpc]; exact ⟨rfl, rfl, rfl⟩)
          (by rw [hpc]; exact id) hpair h.tells
  | hb0Test hbm =>
      simp only [hpc] at hstep hpair
      split at hstep
      · rename_i hbmM1 hm1
        split at hstep
        · obtain rfl := Option.some.inj hstep
          exact h.goto rfl rfl rfl rfl (by rw [hpc]; exact ⟨rfl, rfl, rfl⟩)
            (by rw [hpc]; exact id) ⟨hm1, hpair⟩ h.tells
        · obtain rfl := Option.some.inj hstep
          exact h.goto rfl rfl rfl rfl (by rw [hpc]; exact ⟨rfl, rfl, rfl⟩)
            (by rw [hpc]; exact id) hpair h.tells
      · obtain rfl := Option.some.inj hstep
        exact h.goto rfl rfl rfl rfl (by rw [hpc]; exact ⟨rfl, rfl, rfl⟩)
          (by rw [hpc]; exact id) hpair h.tells
  | hb0Count now hbmM1 hbm =>
      simp only [hpc] at hstep hpair
      obtain rfl := Option.some.inj hstep
      exact h.goto rfl rfl rfl rfl (by rw [hpc]; exact ⟨rfl, rfl, rfl⟩)
        (by rw [hpc]; exact id) hpair h.tells
  | hb0Prev now hbmM1 hbm =>
      simp only [hpc] at hstep hpair
      obtain rfl := Option.some.inj hstep
      exact h.goto rfl rfl rfl rfl (by rw [hpc]; exact ⟨rfl, rfl, rfl⟩)
        (by rw [hpc]; exact id) ⟨hbmM1, hpair.1, hids hbmM1⟩ h.tells
  | hb0Crnt now hbm =>
      simp only [hpc] at hstep
      obtain rfl := Option.some.inj hstep
      refine h.goto rfl rfl rfl rfl (by rw [hpc]; exact ⟨rfl, rfl, rfl⟩)
        (by rw [hpc]; exact id) ?_ h.tells
      exact h.pairOk hpc rfl (by rw [hids])
  | hb0Last now hbm =>
      simp only [hpc] at hstep hpair
      obtain rfl := Option.some.inj hstep
      exact h.goto rfl rfl rfl rfl (by rw [hpc]; exact ⟨rfl, rfl, rfl⟩)
        (by rw [hpc]; exact id) hpair h.tells
  | hbmM1 hbm =>
      simp only [hpc] at hstep
      obtain rfl := Option.some.inj hstep
      exact h.mark hpc
  | notify hbm =>
      simp only [hpc] at hstep
      rw [hids] at hstep
      obtain rfl := Option.some.inj hstep
      exact h.notify hpc
  | copy hbm =>
      simp only [hpc] at hstep
      obtain rfl := Option.some.inj hstep
      rw [hids]
      exact h.reply hpc

theorem Handing.step (h : s.Handing ix backlog) (hids : ∀ hbm, (s.rd.dev.hb hbm).ix = ix hbm)
    (hbacklog : s.rd.dev.par.openBacklog = backlog) {act : ServerAct}
    (hstep : serverStep nbuffers hb0NoRatelimit s act = some t) : t.Handing ix backlog := by
  cases act with
  | serve env => exact h.serve hids hbacklog hstep
  | read =>
      simp only [serverStep] at hstep
      split at hstep
      · rename_i hpc
        obtain rfl := Option.some.inj hstep
        have hpair := h.pair
        simp only [PairAt, hpc] at hpair
        exact h.goto rfl rfl rfl rfl (by rw [hpc]; exact ⟨rfl, rfl, rfl⟩) (by rw [hpc]; exact id)
          hpair h.tells
      · exact absurd hstep nofun
  | capture op =>
      obtain ⟨rd, hrd, rfl⟩ := Option.map_eq_some_iff.mp hstep
      obtain ⟨hserved, hopens⟩ := Reader.step_beside (by simp) (by simp) hrd
      exact h.beside hserved hopens rfl rfl rfl h.tells
  | stop =>
      obtain ⟨rd, hrd, rfl⟩ := Option.map_eq_some_iff.mp hstep
      obtain ⟨hserved, hopens⟩ := Reader.step_beside (by simp) (by simp) hrd
      exact h.beside hserved hopens rfl rfl rfl h.tells
  | bqOpen pdesc minor =>
      obtain ⟨bqw, hopen, rfl⟩ := Option.map_eq_some_iff.mp hstep
      have hopen : s.bqw.step nbuffers (.bqOpen pdesc minor.backlog) = some bqw := hopen
      have htells := h.tells.client (fun other => BqWrapper.roomy_backlog pdesc other minor)
        (by simp) hopen
      exact h.beside rfl rfl rfl rfl rfl htells
  | bqRelease pdesc =>
      obtain rfl := Option.some.inj hstep
      have hclose : s.bqw.step nbuffers (.bqRelease pdesc) = some (s.bqw.bqRelease pdesc) := rfl
      have hroomy (other : Nat) : BqWrapper.Roomy other (.bqRelease pdesc) := trivial
      have htells := h.tells.client hroomy (by simp) hclose
      exact h.beside rfl rfl rfl rfl rfl htells
  | bqRead pdesc count rest =>
      obtain ⟨bqw, hread, rfl⟩ := Option.map_eq_some_iff.mp hstep
      have hread : s.bqw.step nbuffers (.bqRead pdesc count rest) = some bqw := hread
      have hroomy (other : Nat) : BqWrapper.Roomy other (.bqRead pdesc count rest) := trivial
      have htells := h.tells.client hroomy (by simp) hread
      exact h.beside rfl rfl rfl rfl rfl htells

end CaptureServer

/-! ### Runs -/

/-- The invariant, with the buffers and the history. -/
structure Recorded.Sound (bufs : List HbmPtr) (ix : HbmPtr → Int) (backlog : Int) (dropped : Nat)
    (r : Recorded) : Prop where
  conserved : Conserved bufs r.srv.rd.dev
  ids : ∀ hbm, (r.srv.rd.dev.hb hbm).ix = ix hbm
  openBacklog : r.srv.rd.dev.par.openBacklog = backlog
  inOrder : InOrder { dev := r.srv.rd.dev, got := r.srv.rd.served, hist := r.fills }
  handing : r.srv.Handing ix backlog
  counted : dropped + r.srv.rd.served.length = r.srv.freed + r.srv.opens.length

namespace Recorded

variable {bufs : List HbmPtr} {ix : HbmPtr → Int} {backlog : Int} {dropped : Nat} {r r' : Recorded}
  {nbuffers : Int} {hb0NoRatelimit : Int32}

theorem Sound.step (h : r.Sound bufs ix backlog dropped) {act : ServerAct}
    (hstep : recordedStep nbuffers hb0NoRatelimit r act = some r') :
    r'.Sound bufs ix backlog dropped := by
  obtain ⟨srv, hsrv, rfl⟩ := Option.map_eq_some_iff.mp hstep
  have hhanding := h.handing.step h.ids h.openBacklog hsrv
  obtain ⟨hdev, hserved, hfixed⟩ := CaptureServer.serverStep_does hsrv
  have hids (hbm : HbmPtr) : (srv.rd.dev.hb hbm).ix = ix hbm := (hfixed.ix hbm).trans (h.ids hbm)
  have hbacklog := hfixed.openBacklog.trans h.openBacklog
  have hcounted : dropped + srv.rd.served.length = srv.freed + srv.opens.length := by
    have hcounted := h.counted
    rcases CaptureServer.serverStep_opens hsrv with ⟨hopens, hsame, hfreed⟩ |
      ⟨hbm, hopens, htaken, hfreed⟩ | ⟨hbm, hfrees, hsame, hfreed⟩
    · rw [hopens, hsame, hfreed]
      exact hcounted
    · rw [hopens, htaken, hfreed, List.length_append, List.length_append, ← Nat.add_assoc,
        ← Nat.add_assoc, hcounted]
    · have hopens := congrArg List.length hfrees.opens
      rw [List.length_cons] at hopens
      rw [hsame, hfreed, hcounted]
      omega
  cases hop : r.srv.listOp act with
  | none =>
      rw [hop] at hdev hserved
      have hsame : srv.rd.served = r.srv.rd.served := hserved.trans (List.append_nil _)
      refine ⟨h.conserved.congr hdev.1 fun cur => by rw [hdev.2], hids, hbacklog, ?_, hhanding,
        hcounted⟩
      rw [hsame]
      exact ⟨h.inOrder.faithful, h.inOrder.refills.trans (by rw [hdev.1]), h.inOrder.got⟩
  | some op =>
      rw [hop] at hdev hserved
      refine ⟨h.conserved.step hdev, hids, hbacklog, ?_, hhanding, hcounted⟩
      rw [hserved]
      have hcapture : captureStep ⟨r.srv.rd.dev, r.srv.rd.served, r.fills⟩ op =
          some ⟨srv.rd.dev, r.srv.rd.served ++ (received r.srv.rd.dev op).toList,
            match fifoEvent r.srv.rd.dev op with
            | some e => r.fills.step e
            | none => r.fills⟩ := by
        unfold captureStep
        rw [hdev]
        rfl
      exact h.inOrder.step hcapture

theorem sound_start {adev : Dev} (hbufs : Conserved bufs adev)
    (hrefills : adev.lists .refills = []) (hopens : adev.lists .opens = [])
    (hbacklog : 0 ≤ adev.par.openBacklog) :
    (start adev).Sound bufs (fun hbm => (adev.hb hbm).ix) adev.par.openBacklog
      adev.rt.buffersDropped where
  conserved := hbufs
  ids := fun _ => rfl
  openBacklog := rfl
  inOrder := ⟨Hist.faithful_start, by simp [start, Hist.start, Hist.entries, CaptureServer.start,
    Reader.start, hrefills], rfl⟩
  handing := by
    have hnone : (start adev).srv.opens = [] := hopens
    refine ⟨?_, ?_, ?_, ?_, rfl, rfl, Or.inl ⟨rfl, rfl⟩, ?_⟩
    · rw [hnone]
      exact List.nil_suffix
    · exact Nat.le_trans (Nat.min_le_left _ _) (Nat.zero_le _)
    · rw [hnone]
      show (0 : Int) ≤ adev.par.openBacklog + 1
      omega
    · intro hbm hhand
      cases hhand
    · intro pdesc cur hcur
      cases hcur
  counted := congrArg (adev.rt.buffersDropped + 0 + List.length ·) hopens.symm

/-- What the server has done in a run from `adev`. -/
structure Served (bufs : List HbmPtr) (adev : Dev) (r : Recorded) : Prop where
  /-- Every buffer is in one place. -/
  placed : Places.Partition bufs r.srv.rd.dev.lists
  /-- The fills that have not been dropped are those it has taken and those on REFILLS. -/
  order : r.srv.rd.served ++ r.srv.rd.dev.lists .refills = r.fills.entries r.fills.survivors
  /-- They are told, all but one in hand, -/
  told : r.srv.rd.served = r.srv.told ++ r.srv.pc.inHand.toList
  /-- and returned. -/
  returned : r.srv.rd.served.map (fun hbm => (adev.hb hbm).ix) =
    r.srv.numbers ++ r.srv.pc.unreplied.toList.map fun hbm => (adev.hb hbm).ix
  /-- The last ones, `OPEN_BACKLOG` at least and one more at most, are on OPENS. -/
  kept : r.srv.opens <:+ r.srv.rd.served ∧
    min r.srv.rd.served.length adev.par.openBacklog.toNat ≤ r.srv.opens.length ∧
    (r.srv.opens.length : Int) ≤ adev.par.openBacklog + 1
  /-- The one in hand is on OPENS until it is returned. -/
  hand : ∀ hbm, r.srv.pc.unreplied = some hbm → hbm ∈ r.srv.opens
  /-- What is on OPENS is not filled, and not to be filled. -/
  apart : ∀ hbm ∈ r.srv.opens, ∀ l, l ≠ .opens → hbm ∉ r.srv.rd.dev.lists l
  /-- The others have gone back, and each is counted, the last of them in the next step. -/
  counted : adev.rt.buffersDropped + r.srv.rd.served.length = r.srv.freed + r.srv.opens.length
  /-- HB0 is marked with two in a row, but for a moment. -/
  pair : (∀ now hbm, r.srv.pc ≠ .hb0Crnt now hbm) →
    r.srv.PairOk fun hbm => (adev.hb hbm).ix
  /-- A client has been told of all since it opened.  The last of that is in its ring, fewer than
  the ring is long, and before it comes, in order, what the client has read; all of it as long as
  no overrun has been counted and no read has failed. -/
  clients : ∀ pdesc cur, r.srv.bqw.client pdesc = some cur → ∃ n,
    cur.notified = (r.srv.told.drop n).map (fun hbm => (adev.hb hbm).ix.toNat) ∧
    cur.bq.items <:+ cur.notified ∧ cur.bq.items.length < cur.bq.bqLen ∧
    (cur.reads ++ cur.bq.items).Sublist cur.notified ∧
    (r.srv.bqw.bqOverruns = 0 → cur.lost = [] → cur.reads ++ cur.bq.items = cur.notified)

end Recorded

/-- Two buffers are filled and read; a client opens before the first is told. -/
private def twoReads : List ServerAct :=
  [.capture .getEmpty, .capture .getEmpty, .capture .putFull, .bqOpen 7 .full, .read] ++
    List.replicate 12 (.serve { signalled := false, now := 5 }) ++
    [.bqRead 7 32 0, .capture .putFull, .read] ++
    List.replicate 17 (.serve { signalled := false, now := 5 })

end Acq400
