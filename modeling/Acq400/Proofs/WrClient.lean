/-
One process at a time.

While a file is open for reading, `wc_pid` is to be the process that it belongs to: that
turns any other reader away.  An open for writing puts another process there, and a release
clears it for all the files of a process at once.  Where neither comes with a reader left,
the device has one reader; where one does, the next open for reading can make it two.
-/
import Acq400.Driver.WrClient
import Mathlib.Tactic.Common

namespace Acq400

namespace WrDev

variable {minor : Nat}

/-- All files open for reading belong to one process. -/
def OneReader (s : WrDev) : Prop :=
  ∀ f ∈ s.files, ∀ g ∈ s.files, f.reads → g.reads → f.pid = g.pid

instance (s : WrDev) : Decidable s.OneReader :=
  inferInstanceAs (Decidable (∀ f ∈ s.files, ∀ g ∈ s.files, f.reads → g.reads → f.pid = g.pid))

/-- A call of `current` has taken the device from another process that has it open for
reading. -/
def Ejects (s : WrDev) (current : Pid) (s' : WrDev) : Prop :=
  ∃ f ∈ s.files, f.reads ∧ f.pid ≠ current ∧ s.wc.wcPid = f.pid ∧ s'.wc.wcPid ≠ f.pid

/-- The process in `wc_pid` is the one that reads. -/
def Held (s : WrDev) : Prop := ∀ f ∈ s.files, f.reads → s.wc.wcPid = f.pid

/-- The call leaves no reader without `wc_pid`. -/
def Guarded (minor : Nat) (s : WrDev) : Pid × WrCall → Prop
  | (current, .wrOpen flags) =>
    flags.mode = .wronly → wrWriteable minor → ∀ f ∈ s.files, f.reads → f.pid = current
  | (_, .tigaOpen _) => True
  | (current, .release file) =>
    s.wc.wcPid = current → ∀ f ∈ s.files.eraseIdx file, ¬f.reads

instance (s : WrDev) : ∀ c, Decidable (s.Guarded minor c)
  | (current, .wrOpen flags) =>
    inferInstanceAs (Decidable (flags.mode = .wronly → wrWriteable minor →
      ∀ f ∈ s.files, f.reads → f.pid = current))
  | (_, .tigaOpen _) => isTrue trivial
  | (current, .release file) =>
    inferInstanceAs (Decidable (s.wc.wcPid = current → ∀ f ∈ s.files.eraseIdx file, ¬f.reads))

theorem Held.oneReader {s : WrDev} (h : s.Held) : s.OneReader := by
  intro f hf g hg hfr hgr
  exact Subtype.ext ((h f hf hfr).symm.trans (h g hg hgr))

theorem init_held : init.Held := nofun

/-! ### What a call does -/

theorem not_readRequested {mode : AccMode} (h : mode = .wronly) : ¬mode.readRequested := by
  rw [h]
  decide

section

variable {wc wc' : WrClient} {current : Pid} {flags : OpenFlags}

theorem not_busy_of (hmode : flags.mode ≠ .wronly)
    (hbusy : ¬(flags.mode.readRequested ∧ wc.busy current)) : ¬wc.busy current := by
  intro h
  refine hbusy ⟨?_, h⟩
  cases hcase : flags.mode with
  | rdonly => exact .inl rfl
  | wronly => exact absurd hcase hmode
  | rdwr => exact .inr rfl

theorem wrOpen_ok (h : _acq400WrOpen minor wc current flags = .ok wc') :
    wc' = wc.claim current flags ∧
      (¬wc.busy current ∨ flags.mode = .wronly ∧ wrWriteable minor) := by
  unfold _acq400WrOpen at h
  split_ifs at h with hnone haccess hbusy
  obtain rfl := Except.ok.inj h
  refine ⟨rfl, ?_⟩
  by_cases hmode : flags.mode = .wronly
  · refine .inr ⟨hmode, ?_⟩
    by_contra hwriteable
    exact haccess ⟨hmode, hwriteable⟩
  · exact .inl (not_busy_of hmode hbusy)

/-- The device is claimed by who opens it for reading. -/
theorem tigaOpen_ok (h : _acq400TigaOpen minor wc current flags = .ok wc') :
    wc' = wc.claim current flags ∧ ¬wc.busy current ∨ wc' = wc ∧ flags.mode = .wronly := by
  unfold _acq400TigaOpen at h
  split_ifs at h with hnone haccess hbusy hmode
  · obtain rfl := Except.ok.inj h
    exact .inl ⟨rfl, not_busy_of hmode hbusy⟩
  · obtain rfl := Except.ok.inj h
    exact .inr ⟨rfl, not_not.mp hmode⟩

/-- A client that is not busy is the caller's, or no one's. -/
theorem eq_of_not_busy {pid : Pid} (hfree : ¬wc.busy current) (hpid : wc.wcPid = pid) :
    pid = current := by
  by_contra hne
  refine hfree ⟨?_, ?_⟩
  · rw [hpid]
    exact pid.2
  · rw [hpid]
    exact fun h => hne (Subtype.ext h)

end

/-- A call that keeps the device with its reader. -/
structure Keeps (s : WrDev) (current : Pid) (t : WrDev) : Prop where
  held : t.Held
  stays : ¬s.Ejects current t

section

variable {s t : WrDev} {current : Pid} {flags : OpenFlags}

theorem Held.refl_keeps (h : s.Held) (current : Pid) : s.Keeps current s where
  held := h
  stays := by
    rintro ⟨f, _, _, _, hpid, hne⟩
    exact hne hpid

/-- The caller claims the device, of which there is no other reader. -/
theorem keeps_claim (hown : ∀ f ∈ s.files, f.reads → f.pid = current) :
    s.Keeps current ⟨s.wc.claim current flags, s.files ++ [⟨current, flags.mode⟩]⟩ where
  held := by
    intro f hf hread
    rcases List.mem_append.mp hf with hold | hnew
    · exact congrArg Subtype.val (hown f hold hread).symm
    · obtain rfl := List.mem_singleton.mp hnew
      rfl
  stays := by
    rintro ⟨f, hf, hread, hother, -, -⟩
    exact hother (hown f hf hread)

theorem Held.keeps_wrOpen (h : s.Held) (hg : s.Guarded minor (current, .wrOpen flags)) :
    s.Keeps current (s.opened current flags (_acq400WrOpen minor s.wc current flags)) := by
  cases hopen : _acq400WrOpen minor s.wc current flags with
  | error e => exact h.refl_keeps current
  | ok wc =>
      obtain ⟨rfl, hfree | ⟨hmode, hwriteable⟩⟩ := wrOpen_ok hopen
      · exact keeps_claim fun f hf hread => eq_of_not_busy hfree (h f hf hread)
      · exact keeps_claim (hg hmode hwriteable)

theorem Held.keeps_tigaOpen (h : s.Held) :
    s.Keeps current (s.opened current flags (_acq400TigaOpen minor s.wc current flags)) := by
  cases hopen : _acq400TigaOpen minor s.wc current flags with
  | error e => exact h.refl_keeps current
  | ok wc =>
      rcases tigaOpen_ok hopen with ⟨rfl, hfree⟩ | ⟨rfl, hmode⟩
      · exact keeps_claim fun f hf hread => eq_of_not_busy hfree (h f hf hread)
      · refine ⟨?_, (h.refl_keeps current).stays⟩
        intro f hf hread
        rcases List.mem_append.mp hf with hold | hnew
        · exact h f hold hread
        · obtain rfl := List.mem_singleton.mp hnew
          exact absurd hread (not_readRequested hmode)

theorem Held.keeps_release (h : s.Held) {file : Nat}
    (hg : s.Guarded minor (current, .release file)) :
    s.Keeps current ⟨acq400WrReleaseExclusive s.wc current, s.files.eraseIdx file⟩ := by
  unfold acq400WrReleaseExclusive
  split_ifs with hmine
  · refine ⟨fun f hf hread => absurd hread (hg hmine.2 f hf), ?_⟩
    rintro ⟨f, _, _, hother, hpid, -⟩
    exact hother (Subtype.ext (hpid.symm.trans hmine.2))
  · refine ⟨fun f hf hread => h f (List.mem_of_mem_eraseIdx hf) hread, ?_⟩
    rintro ⟨f, _, _, _, hpid, hne⟩
    exact hne hpid

theorem Held.step (h : s.Held) {c : Pid × WrCall} (hg : s.Guarded minor c)
    (ht : s.step minor c = some t) : s.Keeps c.1 t := by
  obtain ⟨current, call⟩ := c
  cases call with
  | wrOpen flags =>
      obtain rfl := Option.some.inj ht
      exact h.keeps_wrOpen hg
  | tigaOpen flags =>
      obtain rfl := Option.some.inj ht
      exact h.keeps_tigaOpen
  | release file =>
      simp only [WrDev.step] at ht
      split_ifs at ht
      obtain rfl := Option.some.inj ht
      exact h.keeps_release hg

end

/-! ### A call that is not guarded -/

/-- A read-only file, of an open that blocks. -/
def readOnly : OpenFlags := { mode := .rdonly, nonblock := false }

section

variable {s t : WrDev} {current : Pid}

/-- An open for writing takes the device from its reader. -/
theorem Held.ejects_of_write (h : s.Held) (hminor : (getWCfromMinor minor).isSome = true)
    {flags : OpenFlags} (hmode : flags.mode = .wronly) (hwriteable : wrWriteable minor)
    {f : WrFile} (hf : f ∈ s.files) (hread : f.reads) (hother : f.pid ≠ current) :
    s.Ejects current (s.opened current flags (_acq400WrOpen minor s.wc current flags)) := by
  have hopen : _acq400WrOpen minor s.wc current flags = .ok (s.wc.claim current flags) := by
    unfold _acq400WrOpen
    rw [if_neg (by rw [Option.isNone_iff_eq_none]; exact Option.isSome_iff_ne_none.mp hminor),
      if_neg (fun hc => hc.2 hwriteable), if_neg (fun hc => not_readRequested hmode hc.1)]
  rw [hopen]
  refine ⟨f, hf, hread, hother, h f hf hread, ?_⟩
  exact fun hpid => hother (Subtype.ext hpid.symm)

theorem wrOpen_free {wc : WrClient} (hminor : (getWCfromMinor minor).isSome = true)
    (hfree : wc.wcPid = 0) : _acq400WrOpen minor wc current readOnly =
      .ok (wc.claim current readOnly) := by
  unfold _acq400WrOpen
  rw [if_neg (by rw [Option.isNone_iff_eq_none]; exact Option.isSome_iff_ne_none.mp hminor),
    if_neg (fun hc => absurd hc.1 (by decide)), if_neg (fun hc => hc.2.1 hfree)]

/-- Another process gets a device that has been cleared while `f` is open. -/
theorem shared_of_free (hminor : (getWCfromMinor minor).isSome = true)
    (hfree : t.wc.wcPid = 0) {f : WrFile} (hf : f ∈ t.files) (hread : f.reads) :
    ∃ other u, t.step minor (other, .wrOpen readOnly) = some u ∧ ¬u.OneReader := by
  let other : Pid := ⟨f.pid + 1, Nat.succ_ne_zero _⟩
  refine ⟨other, ⟨t.wc.claim other readOnly, t.files ++ [⟨other, .rdonly⟩]⟩, ?_, ?_⟩
  · simp only [step, wrOpen_free hminor hfree]
    rfl
  · intro hone
    have hpid := hone f (List.mem_append_left _ hf) ⟨other, .rdonly⟩
      (List.mem_append_right _ (List.mem_singleton.mpr rfl)) hread (.inl rfl)
    have hnat : f.pid.val = f.pid.val + 1 := congrArg Subtype.val hpid
    omega

/-- A call that is not guarded ejects the reader, or lets a second one in. -/
theorem Held.unguarded (h : s.Held) (hminor : (getWCfromMinor minor).isSome = true)
    {c : Pid × WrCall} (hg : ¬s.Guarded minor c) (ht : s.step minor c = some t) :
    s.Ejects c.1 t ∨
      ∃ other u, t.step minor (other, .wrOpen readOnly) = some u ∧ ¬u.OneReader := by
  obtain ⟨current, call⟩ := c
  cases call with
  | wrOpen flags =>
      unfold Guarded at hg
      push Not at hg
      obtain ⟨hmode, hwriteable, f, hf, hread, hother⟩ := hg
      obtain rfl := Option.some.inj ht
      exact .inl (h.ejects_of_write hminor hmode hwriteable hf hread hother)
  | tigaOpen flags => exact absurd trivial hg
  | release file =>
      unfold Guarded at hg
      push Not at hg
      obtain ⟨hmine, f, hf, hread⟩ := hg
      simp only [WrDev.step] at ht
      split_ifs at ht
      obtain rfl := Option.some.inj ht
      refine .inr (shared_of_free hminor ?_ hf hread)
      unfold acq400WrReleaseExclusive
      rw [if_pos ⟨by rw [hmine]; exact current.2, hmine⟩]

end

/-! ### Runs -/

theorem run_held {calls : List (Pid × WrCall)} {s : WrDev}
    (hguarded : Lts.Meets (step minor) (Guarded minor) init calls)
    (hrun : Lts.run (step minor) init calls = some s) : s.Held :=
  Lts.run_invariant_of Held (fun _ _ _ hs hg ht => (hs.step hg ht).held) calls init s init_held
    hguarded hrun

/-- **A device has one reader, whom no other process ejects**, in every run of guarded calls. -/
theorem wrClient_exclusive (minor : Nat) (calls : List (Pid × WrCall)) {s : WrDev}
    (hguarded : Lts.Meets (step minor) (Guarded minor) init calls)
    (hrun : Lts.run (step minor) init calls = some s) :
    s.OneReader ∧
      ∀ before c s0, calls = before ++ [c] → Lts.run (step minor) init before = some s0 →
        ¬s0.Ejects c.1 s := by
  refine ⟨(run_held hguarded hrun).oneReader, ?_⟩
  rintro before c s0 rfl hbefore
  have hlast := hguarded.right hbefore
  rw [Lts.run_append, hbefore, Option.bind_some, Lts.run_cons, Option.bind_eq_some_iff] at hrun
  obtain ⟨t, ht, hrun⟩ := hrun
  obtain rfl := Option.some.inj hrun
  exact ((run_held hguarded.left hbefore).step hlast.1 ht).stays

/-- Two processes. -/
def reader : Pid := ⟨1, by decide⟩

def other : Pid := ⟨2, by decide⟩

/-- A process closes what it reads before what it writes, and another one comes after it. -/
def turns : List (Pid × WrCall) :=
  [(reader, .wrOpen readOnly), (reader, .wrOpen ⟨.wronly, true⟩), (other, .wrOpen readOnly),
    (reader, .release 0), (other, .wrOpen readOnly)]

theorem wrClient_exclusive_turns :
    ∃ s, Lts.run (step acq400MinorWrTs) init turns = some s ∧
      s.files = [⟨reader, .wronly⟩, ⟨other, .rdonly⟩] ∧ s.OneReader :=
  ⟨_, rfl, by decide, (wrClient_exclusive acq400MinorWrTs turns (by decide) rfl).1⟩

/-- A process that opens the device for writing can open it for reading too, though another one
reads; so can one that comes when the reader has closed the first of two files. -/
theorem wrClient_shared :
    (∃ s, Lts.run (step acq400MinorWrTs) init
      [(reader, .wrOpen readOnly), (other, .wrOpen ⟨.wronly, false⟩),
        (other, .wrOpen readOnly)] = some s ∧ ¬s.OneReader) ∧
    ∃ s, Lts.run (step acq420MinorTigaTs1) init
      [(reader, .tigaOpen readOnly), (reader, .tigaOpen readOnly), (reader, .release 0),
        (other, .tigaOpen readOnly)] = some s ∧ ¬s.OneReader :=
  ⟨⟨_, rfl, by decide⟩, ⟨_, rfl, by decide⟩⟩

end WrDev

end Acq400
