/-
`__getFull` against a capture thread that discards.

Between the look at REFILLS and the mutex section that takes its first entry the other
party may have emptied it.  `Committed` is where the reader no longer looks, and
`LeavesOne` says that a step does not take the last full buffer away from a party that
has looked.  Under that condition no list head is ever taken for a buffer, and what
`getFull` returns are buffers of the device; without it the party that has looked takes
the list head, whatever it does next.

The sections, without anything in between, are the operations of `acq400_lists.c` taken
as one step, so that the buffers stay conserved through all of this.
-/
import Acq400.Driver.Reader
import Acq400.Proofs.Conservation

namespace Acq400

namespace Reader

/-- The reader takes from REFILLS without another look at it. -/
def Committed (s : Reader) : Prop :=
  match s.reader with
  | .take => True
  | .errorTest => s.dev.rt.refillError = false
  | .stopTest => s.dev.rt.pleaseStop = false ∧ s.dev.rt.refillError = false
  | .out | .test _ | .waitRefills | .waitError | .waitStop => False

instance (s : Reader) : Decidable s.Committed := by
  unfold Committed
  split <;> infer_instance

/-- A flag that is set frees the reader from taking, and none is taken down here. -/
theorem Committed.of_flags {s s' : Reader} (h : s'.Committed) (hpc : s'.reader = s.reader)
    (hstop : s'.dev.rt.pleaseStop = false → s.dev.rt.pleaseStop = false)
    (herror : s'.dev.rt.refillError = false → s.dev.rt.refillError = false) :
    s.Committed := by
  unfold Committed at h ⊢
  rw [hpc] at h
  cases hr : s.reader with
  | take => trivial
  | errorTest =>
      rw [hr] at h
      exact herror h
  | stopTest =>
      rw [hr] at h
      exact ⟨hstop h.1, herror h.2⟩
  | _ =>
      rw [hr] at h
      exact h

/-- A step leaves a full buffer to the party that has looked for one. -/
def LeavesOne (s : Reader) : ReaderAct → Prop
  | .capture .moveRefillsToEmpty => ¬ s.Committed
  | .capture .takeRefills => s.Committed → 2 ≤ (s.dev.lists .refills).length
  | .read _ =>
    s.reader = .take → s.capture = .takeRefills → 2 ≤ (s.dev.lists .refills).length
  | _ => True

/-- The invariant: who does not look again finds something. -/
structure Safe (s : Reader) : Prop where
  fault : s.fault = false
  reader : s.Committed → s.dev.lists .refills ≠ []
  capture : s.capture = .takeRefills → s.dev.lists .refills ≠ []

namespace Safe

variable {s s' : Reader}

theorem getFull (h : s.Safe) {signalled : Bool} (hone : s.LeavesOne (.read signalled))
    (hstep : s.getFull signalled = some s') : s'.Safe := by
  obtain ⟨dev, reader, capture, returned, fault⟩ := s
  obtain ⟨hfault, hreader, hcapture⟩ := h
  cases reader with
  | out => simp [Reader.getFull] at hstep
  | test wait =>
      simp only [Reader.getFull] at hstep
      split at hstep
      · split at hstep
        · obtain rfl := Option.some.inj hstep
          exact ⟨hfault, False.elim, hcapture⟩
        · obtain rfl := Option.some.inj hstep
          exact ⟨hfault, False.elim, hcapture⟩
      · rename_i hsome
        obtain rfl := Option.some.inj hstep
        exact ⟨hfault, fun _ => by simpa using hsome, hcapture⟩
  | waitRefills =>
      simp only [Reader.getFull] at hstep
      split at hstep
      · obtain rfl := Option.some.inj hstep
        exact ⟨hfault, False.elim, hcapture⟩
      · rename_i hsome
        obtain rfl := Option.some.inj hstep
        exact ⟨hfault, fun _ => by simpa using hsome, hcapture⟩
  | waitError =>
      simp only [Reader.getFull] at hstep
      split at hstep
      · rename_i herror
        obtain rfl := Option.some.inj hstep
        refine ⟨hfault, fun hc => ?_, hcapture⟩
        have hnoerror : dev.rt.refillError = false := hc.2
        simp [herror] at hnoerror
      · obtain rfl := Option.some.inj hstep
        exact ⟨hfault, False.elim, hcapture⟩
  | waitStop =>
      simp only [Reader.getFull] at hstep
      split at hstep
      · rename_i hstop
        obtain rfl := Option.some.inj hstep
        refine ⟨hfault, fun hc => ?_, hcapture⟩
        have hnostop : dev.rt.pleaseStop = false := hc.1
        simp [hstop] at hnostop
      · split at hstep
        · obtain rfl := Option.some.inj hstep
          exact ⟨hfault, False.elim, hcapture⟩
        · obtain rfl := Option.some.inj hstep
          exact ⟨hfault, False.elim, hcapture⟩
  | stopTest =>
      simp only [Reader.getFull] at hstep
      split at hstep
      · obtain rfl := Option.some.inj hstep
        exact ⟨hfault, False.elim, hcapture⟩
      · rename_i hnostop
        obtain rfl := Option.some.inj hstep
        exact ⟨hfault, fun hnoerror => hreader ⟨by simpa using hnostop, hnoerror⟩, hcapture⟩
  | errorTest =>
      simp only [Reader.getFull] at hstep
      split at hstep
      · obtain rfl := Option.some.inj hstep
        exact ⟨hfault, False.elim, hcapture⟩
      · rename_i hnoerror
        obtain rfl := Option.some.inj hstep
        exact ⟨hfault, fun _ => hreader (by simpa [Committed] using hnoerror), hcapture⟩
  | take =>
      have hnonempty : dev.lists .refills ≠ [] := hreader trivial
      obtain ⟨hbm, rest, hl⟩ := List.exists_cons_of_ne_nil hnonempty
      obtain ⟨dev', htake, hlists⟩ := Dev.takeFull_cons hl
      simp only [Reader.getFull, htake] at hstep
      obtain rfl := Option.some.inj hstep
      refine ⟨hfault, False.elim, fun hc => ?_⟩
      show dev'.lists .refills ≠ []
      have htwo : 2 ≤ (dev.lists .refills).length := hone rfl hc
      rw [hlists]
      rw [hl, List.length_cons] at htwo
      rcases rest with _ | ⟨hbm', rest⟩
      · simp at htwo
      · simp [Dev.shifted]

theorem keep (h : s.Safe) (hfault : s'.fault = s.fault) (hpc : s'.reader = s.reader)
    (hcapture : s'.capture = s.capture)
    (hlists : s.dev.lists .refills ≠ [] → s'.dev.lists .refills ≠ [])
    (hstop : s'.dev.rt.pleaseStop = false → s.dev.rt.pleaseStop = false)
    (herror : s'.dev.rt.refillError = false → s.dev.rt.refillError = false) : s'.Safe :=
  ⟨hfault.trans h.fault, fun hc => hlists (h.reader (hc.of_flags hpc hstop herror)),
    fun hc => hlists (h.capture (hcapture.symm.trans hc))⟩

theorem captureSection (h : s.Safe) {op : CaptureOp} (hone : s.LeavesOne (.capture op))
    (hstep : s.captureSection op = some s') : s'.Safe := by
  cases op with
  | getEmpty =>
      simp only [Reader.captureSection] at hstep
      split at hstep
      · obtain rfl := Option.some.inj hstep
        refine h.keep rfl rfl rfl ?_ ?_ ?_
        · rw [s.dev.getEmpty_refills]
          exact id
        · exact s.dev.getEmpty_flags.1.symm.trans
        · exact s.dev.getEmpty_flags.2.symm.trans
      · simp at hstep
  | putFull =>
      simp only [Reader.captureSection] at hstep
      split at hstep
      · obtain rfl := Option.some.inj hstep
        refine h.keep rfl rfl rfl ?_ s.dev.putFull_flags.1 s.dev.putFull_flags.2.symm.trans
        rw [s.dev.putFull_refills]
        exact fun hne => List.append_ne_nil_of_left_ne_nil hne _
      · simp at hstep
  | testRefills =>
      simp only [Reader.captureSection] at hstep
      split at hstep
      · obtain rfl := Option.some.inj hstep
        refine ⟨h.fault, h.reader, fun hc => ?_⟩
        show s.dev.lists .refills ≠ []
        intro hempty
        simp [hempty] at hc
      · simp at hstep
  | takeRefills =>
      simp only [Reader.captureSection] at hstep
      split at hstep
      · rename_i hc
        obtain ⟨hbm, rest, hl⟩ := List.exists_cons_of_ne_nil (h.capture hc)
        obtain ⟨hsome, hlists⟩ := Dev.getEmptyFromRefills_cons hl
        split at hstep
        · rename_i hbm' dev heq
          obtain rfl := Option.some.inj hstep
          rw [heq] at hlists
          have hflags := s.dev.getEmptyFromRefills_flags
          rw [heq] at hflags
          refine ⟨h.fault, fun hcommitted => ?_, fun hc' => by simp at hc'⟩
          have hbefore : s.Committed :=
            hcommitted.of_flags (s := s) rfl hflags.1.symm.trans hflags.2.symm.trans
          have htwo : 2 ≤ (s.dev.lists .refills).length := hone hbefore
          show dev.lists .refills ≠ []
          rw [hlists]
          rw [hl, List.length_cons] at htwo
          rcases rest with _ | ⟨hbm'', rest⟩
          · simp at htwo
          · simp [Dev.shifted]
        · rename_i dev heq
          simp [heq] at hsome
      · simp at hstep
  | moveRefillsToEmpty =>
      have hfree : ¬ s.Committed := hone
      simp only [Reader.captureSection] at hstep
      split at hstep
      · rename_i hout
        obtain rfl := Option.some.inj hstep
        have hflags := s.dev.moveListToEmpty_flags .refills
        refine ⟨h.fault, fun hcommitted => ?_, fun hc => by simp [hout] at hc⟩
        exact absurd (hcommitted.of_flags (s := s) rfl hflags.1.symm.trans
          hflags.2.symm.trans) hfree
      · simp at hstep
  | refillError =>
      simp only [Reader.captureSection] at hstep
      split at hstep
      · obtain rfl := Option.some.inj hstep
        exact h.keep rfl rfl rfl id id (fun herror => by simp at herror)
      · simp at hstep

theorem step (h : s.Safe) {act : ReaderAct} (hone : s.LeavesOne act)
    (hstep : readerStep s act = some s') : s'.Safe := by
  unfold readerStep at hstep
  rw [if_neg (by simp [h.fault])] at hstep
  cases act with
  | call wait =>
      simp only at hstep
      split at hstep
      · obtain rfl := Option.some.inj hstep
        exact ⟨h.fault, False.elim, h.capture⟩
      · simp at hstep
  | read signalled => exact h.getFull hone hstep
  | putEmpty =>
      simp only at hstep
      split at hstep
      · rw [Option.map_eq_some_iff] at hstep
        obtain ⟨dev, hput, rfl⟩ := hstep
        obtain ⟨hbm, rest, -, hlists⟩ := Dev.putEmpty_cases hput
        rename_i hout
        refine ⟨h.fault, fun hc => ?_, fun hc => ?_⟩
        · simp [Committed, hout] at hc
        · show dev.lists .refills ≠ []
          rw [hlists]
          exact h.capture hc
      · simp at hstep
  | capture op => exact h.captureSection hone hstep
  | stop =>
      obtain rfl := Option.some.inj hstep
      exact h.keep rfl rfl rfl id (fun hstop => by simp at hstop) id

end Safe

/-! ### The sections are the operations -/

/-- What a step without a fault does to the device is one of the list operations. -/
def Refines (s s' : Reader) : Prop :=
  (∃ op, listStep s.dev op = some s'.dev) ∨
    (s'.dev.lists = s.dev.lists ∧ s'.dev.hb = s.dev.hb)

/-- What is returned is taken from REFILLS. -/
def ReturnsFull (s s' : Reader) : Prop :=
  s'.returned = s.returned ∨
    ∃ rc, s'.returned = s.returned ++ [rc] ∧
      ∀ hbm, rc = .ok hbm → hbm ∈ s.dev.lists .refills

theorem getFull_refines {s s' : Reader} {signalled : Bool} (hfault : s'.fault = false)
    (hstep : s.getFull signalled = some s') : Refines s s' ∧ ReturnsFull s s' := by
  obtain ⟨dev, reader, capture, returned, fault⟩ := s
  have hquiet : ∀ t : Reader, t.dev = dev → some t = some s' →
      (t.returned = returned ∨ ∃ rc, t.returned = returned ++ [rc] ∧ ∀ hbm, rc ≠ .ok hbm) →
      Refines ⟨dev, reader, capture, returned, fault⟩ s' ∧
        ReturnsFull ⟨dev, reader, capture, returned, fault⟩ s' := by
    intro t hdev heq hret
    obtain rfl := Option.some.inj heq
    refine ⟨Or.inr ⟨by rw [hdev], by rw [hdev]⟩, ?_⟩
    rcases hret with hret | ⟨rc, hret, hrc⟩
    · exact Or.inl hret
    · exact Or.inr ⟨rc, hret, fun hbm hok => absurd hok (hrc hbm)⟩
  cases reader with
  | out => simp [Reader.getFull] at hstep
  | test wait =>
      simp only [Reader.getFull] at hstep
      split at hstep
      · split at hstep
        · exact hquiet _ rfl hstep (Or.inl rfl)
        · exact hquiet _ rfl hstep (Or.inr ⟨.eintr, rfl, by simp⟩)
      · exact hquiet _ rfl hstep (Or.inl rfl)
  | waitRefills =>
      simp only [Reader.getFull] at hstep
      split at hstep
      · exact hquiet _ rfl hstep (Or.inl rfl)
      · exact hquiet _ rfl hstep (Or.inl rfl)
  | waitError =>
      simp only [Reader.getFull] at hstep
      split at hstep
      · exact hquiet _ rfl hstep (Or.inl rfl)
      · exact hquiet _ rfl hstep (Or.inl rfl)
  | waitStop =>
      simp only [Reader.getFull] at hstep
      split at hstep
      · exact hquiet _ rfl hstep (Or.inl rfl)
      · split at hstep
        · exact hquiet _ rfl hstep (Or.inr ⟨.eintr, rfl, by simp⟩)
        · exact hquiet _ rfl hstep (Or.inl rfl)
  | stopTest =>
      simp only [Reader.getFull] at hstep
      split at hstep
      · exact hquiet _ rfl hstep (Or.inr ⟨.done, rfl, by simp⟩)
      · exact hquiet _ rfl hstep (Or.inl rfl)
  | errorTest =>
      simp only [Reader.getFull] at hstep
      split at hstep
      · exact hquiet _ rfl hstep (Or.inr ⟨.refillErr, rfl, by simp⟩)
      · exact hquiet _ rfl hstep (Or.inl rfl)
  | take =>
      cases hl : dev.lists .refills with
      | nil =>
          simp only [Reader.getFull, Dev.takeFull_nil hl] at hstep
          obtain rfl := Option.some.inj hstep
          simp at hfault
      | cons hbm rest =>
          obtain ⟨dev', htake, -⟩ := Dev.takeFull_cons hl
          simp only [Reader.getFull, htake] at hstep
          obtain rfl := Option.some.inj hstep
          refine ⟨Or.inl ⟨.getFull true false, ?_⟩, Or.inr ⟨.ok hbm, rfl, ?_⟩⟩
          · simp [listStep, Dev.getFull, htake, Reader.ret]
          · rintro hbm' ⟨⟩
            rw [hl]
            exact List.mem_cons_self

theorem captureSection_refines {s s' : Reader} {op : CaptureOp} (hfault : s'.fault = false)
    (hstep : s.captureSection op = some s') : Refines s s' ∧ s'.returned = s.returned := by
  cases op with
  | getEmpty =>
      simp only [Reader.captureSection] at hstep
      split at hstep
      · obtain rfl := Option.some.inj hstep
        exact ⟨Or.inl ⟨.getEmpty, rfl⟩, rfl⟩
      · simp at hstep
  | putFull =>
      simp only [Reader.captureSection] at hstep
      split at hstep
      · obtain rfl := Option.some.inj hstep
        exact ⟨Or.inl ⟨.putFull, rfl⟩, rfl⟩
      · simp at hstep
  | testRefills =>
      simp only [Reader.captureSection] at hstep
      split at hstep
      · obtain rfl := Option.some.inj hstep
        exact ⟨Or.inr ⟨rfl, rfl⟩, rfl⟩
      · simp at hstep
  | takeRefills =>
      simp only [Reader.captureSection] at hstep
      split at hstep
      · split at hstep
        · rename_i hbm dev heq
          obtain rfl := Option.some.inj hstep
          refine ⟨Or.inl ⟨.getEmptyFromRefills, ?_⟩, rfl⟩
          simp [listStep, heq]
        · obtain rfl := Option.some.inj hstep
          simp at hfault
      · simp at hstep
  | moveRefillsToEmpty =>
      simp only [Reader.captureSection] at hstep
      split at hstep
      · obtain rfl := Option.some.inj hstep
        exact ⟨Or.inl ⟨.moveListToEmpty .refills, rfl⟩, rfl⟩
      · simp at hstep
  | refillError =>
      simp only [Reader.captureSection] at hstep
      split at hstep
      · obtain rfl := Option.some.inj hstep
        exact ⟨Or.inr ⟨rfl, rfl⟩, rfl⟩
      · simp at hstep

theorem step_refines {s s' : Reader} {act : ReaderAct} (hfault : s'.fault = false)
    (hstep : readerStep s act = some s') : Refines s s' ∧ ReturnsFull s s' := by
  unfold readerStep at hstep
  split at hstep
  · simp at hstep
  · cases act with
    | call wait =>
        simp only at hstep
        split at hstep
        · obtain rfl := Option.some.inj hstep
          exact ⟨Or.inr ⟨rfl, rfl⟩, Or.inl rfl⟩
        · simp at hstep
    | read signalled => exact getFull_refines hfault hstep
    | putEmpty =>
        simp only at hstep
        split at hstep
        · rw [Option.map_eq_some_iff] at hstep
          obtain ⟨dev, hput, rfl⟩ := hstep
          exact ⟨Or.inl ⟨.putEmpty, hput⟩, Or.inl rfl⟩
        · simp at hstep
    | capture op =>
        obtain ⟨hrefines, hret⟩ := captureSection_refines hfault hstep
        exact ⟨hrefines, Or.inl hret⟩
    | stop =>
        obtain rfl := Option.some.inj hstep
        exact ⟨Or.inr ⟨rfl, rfl⟩, Or.inl rfl⟩

/-- The invariant with the buffers. -/
structure Sound (bufs : List HbmPtr) (s : Reader) : Prop where
  safe : s.Safe
  conserved : Conserved bufs s.dev
  returned : ∀ hbm, .ok hbm ∈ s.returned → hbm ∈ bufs

theorem Sound.step {bufs : List HbmPtr} {s s' : Reader} {act : ReaderAct} (h : Sound bufs s)
    (hone : s.LeavesOne act) (hstep : readerStep s act = some s') : Sound bufs s' := by
  have hsafe := h.safe.step hone hstep
  obtain ⟨hrefines, hret⟩ := step_refines hsafe.fault hstep
  refine ⟨hsafe, ?_, ?_⟩
  · rcases hrefines with ⟨op, hop⟩ | ⟨hlists, hhb⟩
    · exact h.conserved.step hop
    · exact h.conserved.congr hlists fun cur => by rw [hhb]
  · rcases hret with hret | ⟨rc, hret, hfull⟩
    · rw [hret]
      exact h.returned
    · intro hbm hmem
      rw [hret, List.mem_append, List.mem_singleton] at hmem
      rcases hmem with hmem | hmem
      · exact h.returned hbm hmem
      · exact (h.conserved.part.cover hbm).mpr ⟨.refills, hfull hbm hmem.symm⟩

theorem getFull_uninterrupted {s : Reader} {wait signalled : Bool} {rc : Dev.GetFull} {dev : Dev}
    (hfault : s.fault = false) (hout : s.reader = .out)
    (hget : s.dev.getFull wait signalled = some (rc, dev)) :
    ∃ n, Lts.run readerStep s (.call wait :: List.replicate n (.read signalled))
      = some { s with dev := dev, returned := s.returned ++ [rc] } := by
  obtain ⟨dev₀, reader, capture, returned, fault⟩ := s
  obtain rfl : reader = .out := hout
  obtain rfl : fault = false := hfault
  unfold Dev.getFull at hget
  cases hl : dev₀.lists .refills with
  | cons hbm rest =>
      obtain ⟨dev', htake, -⟩ := Dev.takeFull_cons hl
      simp only [htake, Option.some.injEq, Prod.mk.injEq] at hget
      obtain ⟨rfl, rfl⟩ := hget
      exact ⟨2, by simp [List.replicate, readerStep, Reader.getFull, hl, htake, ret]⟩
  | nil =>
      simp only [Dev.takeFull_nil hl] at hget
      cases wait with
      | false =>
          simp only [if_true, Option.some.injEq, Prod.mk.injEq] at hget
          obtain ⟨rfl, rfl⟩ := hget
          exact ⟨1, by simp [List.replicate, readerStep, Reader.getFull, hl, ret]⟩
      | true =>
          -- five steps at most: the three tests of the wait and the two after it
          cases hstop : dev₀.rt.pleaseStop with
          | true =>
              simp [hstop] at hget
              obtain ⟨rfl, rfl⟩ := hget
              cases herror : dev₀.rt.refillError with
              | true =>
                  exact ⟨4, by
                    simp [List.replicate, readerStep, Reader.getFull, hl, ret, hstop, herror]⟩
              | false =>
                  exact ⟨5, by
                    simp [List.replicate, readerStep, Reader.getFull, hl, ret, hstop, herror]⟩
          | false =>
              cases herror : dev₀.rt.refillError with
              | true =>
                  simp [hstop, herror] at hget
                  obtain ⟨rfl, rfl⟩ := hget
                  exact ⟨5, by
                    simp [List.replicate, readerStep, Reader.getFull, hl, ret, hstop, herror]⟩
              | false =>
                  simp [hstop, herror] at hget
                  obtain ⟨rfl, rfl, rfl⟩ := hget
                  exact ⟨4, by
                    simp [List.replicate, readerStep, Reader.getFull, hl, ret, hstop, herror]⟩

/-! ### Who does not look again -/

/-- A reader that has looked, with REFILLS empty, takes the list head if it goes on. -/
theorem committed_faults {s : Reader} (hfault : s.fault = false) (hc : s.Committed)
    (hempty : s.dev.lists .refills = []) :
    ∃ acts s', Lts.run readerStep s acts = some s' ∧ s'.fault = true := by
  obtain ⟨dev, reader, capture, returned, fault⟩ := s
  obtain rfl : fault = false := hfault
  have htake : dev.takeFull = none := Dev.takeFull_nil hempty
  have hlast : ∀ capture, Lts.run readerStep ⟨dev, .take, capture, returned, false⟩ [.read false]
      = some ⟨dev, .take, capture, returned, true⟩ := by
    intro capture
    simp [readerStep, Reader.getFull, htake]
  cases reader with
  | take => exact ⟨[.read false], _, hlast capture, rfl⟩
  | errorTest =>
      have hnoerror : dev.rt.refillError = false := hc
      refine ⟨.read false :: [.read false], ⟨dev, .take, capture, returned, true⟩, ?_, rfl⟩
      rw [Lts.run_cons]
      simpa [readerStep, Reader.getFull, hnoerror] using hlast capture
  | stopTest =>
      obtain ⟨hnostop, hnoerror⟩ : dev.rt.pleaseStop = false ∧ dev.rt.refillError = false := hc
      refine ⟨.read false :: .read false :: [.read false],
        ⟨dev, .take, capture, returned, true⟩, ?_, rfl⟩
      rw [Lts.run_cons]
      simpa [readerStep, Reader.getFull, hnostop, hnoerror] using hlast capture
  | _ => exact False.elim hc

theorem takeRefills_faults {s : Reader} (hfault : s.fault = false)
    (hc : s.capture = .takeRefills) (hempty : s.dev.lists .refills = []) :
    ∃ acts s', Lts.run readerStep s acts = some s' ∧ s'.fault = true := by
  refine ⟨[.capture .takeRefills], { s with fault := true }, ?_, rfl⟩
  simp [readerStep, captureSection, hfault, hc, Dev.getEmptyFromRefills_nil hempty]

private theorem refills_tail_nil {adev adev' : Dev} {dst : ListHead} {hbm : HbmPtr}
    {rest : List HbmPtr} (hl : adev.lists .refills = hbm :: rest)
    (hfew : ¬ 2 ≤ (adev.lists .refills).length) (hdst : dst ≠ .refills)
    (hlists : adev'.lists = adev.shifted .refills dst hbm rest) : adev'.lists .refills = [] := by
  rw [hl, List.length_cons] at hfew
  have hrest : rest = [] := List.length_eq_zero_iff.mp (by omega)
  rw [hlists]
  simp [Dev.shifted, Ne.symm hdst, hrest]

/-- A step that does not leave one ends in a fault if the other party goes on. -/
theorem not_leavesOne_faults {s s' : Reader} {act : ReaderAct} (h : s.Safe)
    (hone : ¬ s.LeavesOne act) (hstep : readerStep s act = some s') :
    ∃ acts s'', Lts.run readerStep s' acts = some s'' ∧ s''.fault = true := by
  unfold readerStep at hstep
  rw [if_neg (by simp [h.fault])] at hstep
  cases act with
  | call wait => exact absurd trivial hone
  | putEmpty => exact absurd trivial hone
  | stop => exact absurd trivial hone
  | read signalled =>
      simp only [LeavesOne, not_forall] at hone
      obtain ⟨hr, hc, hfew⟩ := hone
      obtain ⟨hbm, rest, hl⟩ := List.exists_cons_of_ne_nil (h.capture hc)
      obtain ⟨dev', htake, hlists⟩ := Dev.takeFull_cons hl
      simp only [Reader.getFull, hr, htake] at hstep
      obtain rfl := Option.some.inj hstep
      exact takeRefills_faults h.fault hc (refills_tail_nil hl hfew (by decide) hlists)
  | capture op =>
      cases op with
      | takeRefills =>
          simp only [LeavesOne, not_forall] at hone
          obtain ⟨hcommitted, hfew⟩ := hone
          obtain ⟨hbm, rest, hl⟩ := List.exists_cons_of_ne_nil (h.reader hcommitted)
          obtain ⟨hsome, hlists⟩ := Dev.getEmptyFromRefills_cons hl
          have hflags := s.dev.getEmptyFromRefills_flags
          simp only [captureSection] at hstep
          split at hstep
          · split at hstep
            · rename_i hbm' dev heq
              obtain rfl := Option.some.inj hstep
              rw [heq] at hlists hflags
              refine committed_faults h.fault ?_ (refills_tail_nil hl hfew (by decide) hlists)
              exact hcommitted.of_flags rfl hflags.1.trans hflags.2.trans
            · rename_i dev heq
              simp [heq] at hsome
          · simp at hstep
      | moveRefillsToEmpty =>
          have hcommitted : s.Committed := not_not.mp hone
          have hflags := s.dev.moveListToEmpty_flags .refills
          simp only [captureSection] at hstep
          split at hstep
          · obtain rfl := Option.some.inj hstep
            refine committed_faults h.fault ?_ ?_
            · exact hcommitted.of_flags rfl hflags.1.trans hflags.2.trans
            · simp [Dev.moveListToEmpty,
                Dev.moveListTo_lists (show ListHead.refills ≠ .empties by decide)]
          · simp at hstep
      | getEmpty => exact absurd trivial hone
      | putFull => exact absurd trivial hone
      | testRefills => exact absurd trivial hone
      | refillError => exact absurd trivial hone

instance (s : Reader) : ∀ act, Decidable (s.LeavesOne act)
  | .capture .moveRefillsToEmpty => inferInstanceAs (Decidable (¬ _))
  | .capture .takeRefills => inferInstanceAs (Decidable (_ → _))
  | .read _ => inferInstanceAs (Decidable (_ → _ → _))
  | .call _ | .putEmpty | .stop => isTrue trivial
  | .capture .getEmpty | .capture .putFull => isTrue trivial
  | .capture .testRefills | .capture .refillError => isTrue trivial

/--
**Reader against discard.**  In every run in which each step leaves a full buffer to the
party that has looked for one, `__getFull` finds REFILLS not empty, no list head is taken
for a buffer, and what `getFull` has returned are buffers of the device.
-/
theorem getFull_takes_buffers {bufs : List HbmPtr} (adev : Dev) {s : Reader}
    (acts : List ReaderAct) (hbufs : Conserved bufs adev)
    (hone : Lts.Meets readerStep LeavesOne (start adev) acts)
    (hrun : Lts.run readerStep (start adev) acts = some s) :
    s.fault = false ∧ (s.reader = .take → s.dev.lists .refills ≠ []) ∧
      ∀ hbm, .ok hbm ∈ s.returned → hbm ∈ bufs := by
  have hstart : Sound bufs (start adev) := by
    refine ⟨⟨rfl, False.elim, fun hc => by simp [start] at hc⟩, hbufs, ?_⟩
    intro hbm hmem
    simp [start] at hmem
  have h := Lts.run_invariant_of (Sound bufs)
    (fun _ _ _ h hone hstep => h.step hone hstep) acts _ s hstart hone hrun
  refine ⟨h.safe.fault, fun htake => h.safe.reader ?_, h.returned⟩
  unfold Committed
  rw [htake]
  trivial

/-- The reader waits for two buffers to be full, and both parties take one. -/
private def bothTake : List ReaderAct :=
  [.call true, .read false, .read false, .capture .getEmpty, .capture .getEmpty,
    .capture .putFull, .capture .putFull, .capture .testRefills] ++ List.replicate 6 (.read false)
    ++ [.capture .takeRefills, .putEmpty]

theorem getFull_takes_buffers_two :
    ∃ s, Lts.run readerStep (start (Dev.allocated 2 65536 .loaded fun _ _ => 0)) bothTake
        = some s ∧
      s.fault = false ∧ (s.reader = .take → s.dev.lists .refills ≠ []) ∧
      ∀ hbm, .ok hbm ∈ s.returned → hbm ∈ [0, 1] := by
  refine ⟨_, rfl, ?_⟩
  refine getFull_takes_buffers (Dev.allocated 2 65536 .loaded fun _ _ => 0) bothTake
    (Conserved.start (by decide) (by decide) ?_ fun _ _ => rfl) (by decide +kernel) rfl
  intro l hl
  cases l with
  | empties => exact absurd rfl hl
  | _ => rfl

/-- The reader has looked, the queue is discarded, and the reader takes the list head. -/
theorem getFull_takes_list_head :
    ∃ s s', Lts.run readerStep (start (Dev.allocated 2 65536 .loaded fun _ _ => 0))
        [.capture .getEmpty, .capture .putFull, .call true, .read false,
          .capture .moveRefillsToEmpty] = some s ∧
      s.reader = .take ∧ s.dev.lists .refills = [] ∧
      readerStep s (.read false) = some s' ∧ s'.fault = true := by
  exact ⟨_, _, rfl, rfl, rfl, rfl, rfl⟩

end Reader

/-! ### `acq400_continuous_read` -/

/-- Dropping no more than there is on OPENS is so many `putEmpty` in a row. -/
theorem Dev.dropBacklog_opens (adev : Dev) (n : Nat) (hn : n ≤ (adev.lists .opens).length) :
    ∃ adev', adev.dropBacklog n = some adev' ∧
      adev'.lists .opens = (adev.lists .opens).drop n ∧
      adev'.lists .empties = adev.lists .empties ++ (adev.lists .opens).take n := by
  induction n generalizing adev with
  | zero => exact ⟨adev, rfl, by simp, by simp⟩
  | succ n ih =>
      cases hl : adev.lists .opens with
      | nil => simp [hl] at hn
      | cons hbm rest =>
          have hput : ∃ adev₁, adev.putEmpty = some adev₁ := by
            unfold putEmpty
            rw [hl]
            exact ⟨_, rfl⟩
          obtain ⟨adev₁, hput⟩ := hput
          obtain ⟨hbm', rest', hl', hlists⟩ := putEmpty_cases hput
          obtain ⟨rfl, rfl⟩ := List.cons.inj (hl.symm.trans hl')
          have hrest : adev₁.lists .opens = rest := by
            rw [hlists]
            simp [shifted]
          rw [hl, List.length_cons] at hn
          obtain ⟨adev', hdrop, hopens, hempties⟩ := ih
            { adev₁ with rt := { adev₁.rt with buffersDropped := adev₁.rt.buffersDropped + 1 } }
            (by rw [hrest]; omega)
          refine ⟨adev', ?_, ?_, ?_⟩
          · rw [dropBacklog, hput]
            exact hdrop
          · rw [hopens, hrest]
            rfl
          · rw [hempties, hrest]
            simp [hlists, shifted]

/--
The reader's own `putEmpty` never meets an empty OPENS, for an `OPEN_BACKLOG` of at
least 0: where `acq400_continuous_read` does not come back it sleeps in `getFull`, with
no more than the backlog on OPENS.
-/
theorem Dev.continuousRead_sleeps {adev : Dev} {signalled : Bool}
    (hbacklog : 0 ≤ adev.par.openBacklog) (h : adev.continuousRead signalled = none) :
    ∃ adev', adev.dropBacklog
        (((adev.lists .opens).length : Int) - adev.par.openBacklog).toNat = some adev' ∧
      ((adev'.lists .opens).length : Int) ≤ adev.par.openBacklog ∧
      adev'.getFull true signalled = none := by
  obtain ⟨adev', hdrop, hopens, -⟩ := Dev.dropBacklog_opens adev
    (((adev.lists .opens).length : Int) - adev.par.openBacklog).toNat (by omega)
  refine ⟨adev', hdrop, ?_, ?_⟩
  · rw [hopens, List.length_drop]
    omega
  · unfold Dev.continuousRead at h
    split at h
    · simp at h
    · simp only at h
      rw [hdrop, Option.bind_some, Option.map_eq_none_iff] at h
      exact h

end Acq400
