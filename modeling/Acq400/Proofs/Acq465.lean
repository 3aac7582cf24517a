/-
Who holds the mutex of an ACQ465.

The mutex is meant to belong to the file of a completed `ACQ465_DIG_IF_RESET`, until that
file is released.  `acq465_release` compares processes instead of files, and a fault in
`ACQ465_MCLK_MONITOR` returns with the mutex held.  `Clean` says that neither matters: then,
and only then, the mutex is held exactly while a reset is outstanding.
-/
import Acq400.Driver.Acq465

namespace Acq400

namespace Acq465

/-- The mutex is held exactly while a reset is outstanding. -/
def HeldByReset (s : Acq465) : Prop := s.adev.sem = true ↔ s.resets ≠ []

/-- The operation does to the mutex what it should: it lets go of it where it releases the
file of an outstanding reset, and only there; and an ioctl of another command leaves it
free, without an owner. -/
def Proper (s : Acq465) (op : Acq465Op) (s' : Acq465) : Prop :=
  HeldByReset s' ∧
  match op with
  | .opens _ _ => s'.adev = s.adev
  | .ioctl _ _ cmd _ => cmd ≠ .digIfReset → s'.adev = .free
  | .release _ file =>
      if file ∈ s.resets.map Prod.snd then s'.adev.sem = false else s'.adev.sem = s.adev.sem

/-- The monitor's copies do not fault, no other command than the reset is interrupted while it
waits, and while a reset is outstanding its process releases its file and no other one, and
no other process releases that file. -/
def Clean (s : Acq465) : Acq465Op → Prop
  | .opens _ _ => True
  | .ioctl _ _ cmd io =>
      cmd = .digIfReset ∨ (s.adev.sem = false ∧
        (cmd = .mclkMonitor → io.copyFromUserFaults = false ∧ io.copyToUserFaults = false))
  | .release pid file => ∀ held ∈ s.resets, held.1 = pid ↔ held.2 = file

instance (s : Acq465) : ∀ op, Decidable (Clean s op)
  | .opens _ _ => isTrue trivial
  | .ioctl _ _ _ _ => inferInstanceAs (Decidable (_ ∨ _))
  | .release _ _ => inferInstanceAs (Decidable (∀ _ ∈ _, _))

/-- The invariant: the process of the one outstanding reset is the owner. -/
def Owned (s : Acq465) : Prop :=
  (s.adev.sem = false ∧ s.resets = []) ∨
    ∃ pid file, s.adev = { sem := true, owner := some pid } ∧ s.resets = [(pid, file)]

variable {s s' : Acq465}

theorem Owned.heldByReset (h : Owned s) : HeldByReset s := by
  rcases h with ⟨hsem, hr⟩ | ⟨pid, file, hadev, hr⟩
  · simp [HeldByReset, hsem, hr]
  · simp [HeldByReset, hadev, hr]

theorem ioctl_step (h : Owned s) {pid file : Nat} {cmd : Acq465Cmd} {io : Acq465Ioctl}
    (hstep : acq465Step s (.ioctl pid file cmd io) = some s') :
    (Clean s (.ioctl pid file cmd io) ↔ Proper s (.ioctl pid file cmd io) s') ∧
      (Clean s (.ioctl pid file cmd io) → Owned s') := by
  simp only [acq465Step] at hstep
  split at hstep
  · obtain ⟨⟨rc, adev⟩, hioctl, rfl⟩ := Option.map_eq_some_iff.mp hstep
    unfold Acq465Dev.unlockedIoctl at hioctl
    rcases h with ⟨hsem, hr⟩ | ⟨p, f, hadev, hr⟩
    · -- the mutex is free: the command is carried out
      rw [hsem, if_neg Bool.false_ne_true] at hioctl
      cases cmd with
      | cacheInvalidate | cacheFlush | reset | other =>
          obtain ⟨rfl, rfl⟩ := Prod.mk.inj (Option.some.inj hioctl)
          simp [Clean, Proper, HeldByReset, Owned, Acq465Dev.free, hsem, hr]
      | mclkMonitor =>
          cases hfrom : io.copyFromUserFaults with
          | true =>
              simp only [hfrom, if_true, Option.some.injEq, Prod.mk.injEq] at hioctl
              obtain ⟨rfl, rfl⟩ := hioctl
              simp [Clean, Proper, HeldByReset, hfrom, hr]
          | false =>
              cases hto : io.copyToUserFaults with
              | true =>
                  simp only [hfrom, hto, Bool.false_eq_true, if_false, if_true,
                    Option.some.injEq, Prod.mk.injEq] at hioctl
                  obtain ⟨rfl, rfl⟩ := hioctl
                  simp [Clean, Proper, HeldByReset, hto, hr]
              | false =>
                  simp only [hfrom, hto, Bool.false_eq_true, if_false, Option.some.injEq,
                    Prod.mk.injEq] at hioctl
                  obtain ⟨rfl, rfl⟩ := hioctl
                  simp [Clean, Proper, HeldByReset, Owned, Acq465Dev.free, hsem, hr, hfrom, hto]
      | digIfReset =>
          obtain ⟨rfl, rfl⟩ := Prod.mk.inj (Option.some.inj hioctl)
          simp [Clean, Proper, HeldByReset, Owned, hr]
    · -- it is held: the wait was interrupted
      rw [hadev, if_pos rfl] at hioctl
      split at hioctl
      · obtain ⟨rfl, rfl⟩ := Prod.mk.inj (Option.some.inj hioctl)
        simp [Clean, Proper, HeldByReset, Owned, Acq465Dev.free, hadev, hr]
      · simp at hioctl
  · simp at hstep

theorem release_step (h : Owned s) {pid file : Nat}
    (hstep : acq465Step s (.release pid file) = some s') :
    (Clean s (.release pid file) ↔ Proper s (.release pid file) s') ∧
      (Clean s (.release pid file) → Owned s') := by
  simp only [acq465Step] at hstep
  split at hstep
  · obtain rfl := Option.some.inj hstep
    rcases h with ⟨hsem, hr⟩ | ⟨p, f, hadev, hr⟩
    · simp [Clean, Proper, HeldByReset, Owned, Acq465Dev.release, hsem, hr]
    · by_cases hp : p = pid
      · by_cases hf : f = file
        · simp [Clean, Proper, HeldByReset, Owned, Acq465Dev.release, hadev, hr, hp, hf]
        · -- another file of the process: the mutex goes, the reset stays
          simp [Clean, Proper, HeldByReset, Acq465Dev.release, hadev, hr, hp, hf]
      · by_cases hf : f = file
        · -- another process closes the file: the reset goes, the mutex stays
          simp [Clean, Proper, HeldByReset, Acq465Dev.release, hadev, hr, hp, hf]
        · have hf' : ¬ file = f := fun h => hf h.symm
          simp [Clean, Proper, HeldByReset, Owned, Acq465Dev.release, hadev, hr, hp, hf, hf']
  · simp at hstep

theorem clean_iff_proper (h : Owned s) {op : Acq465Op} (hstep : acq465Step s op = some s') :
    (Clean s op ↔ Proper s op s') ∧ (Clean s op → Owned s') := by
  cases op with
  | opens pid file =>
      simp only [acq465Step] at hstep
      split at hstep
      · simp at hstep
      · obtain rfl := Option.some.inj hstep
        exact ⟨iff_of_true trivial ⟨h.heldByReset, rfl⟩, fun _ => h⟩
  | ioctl pid file cmd io => exact ioctl_step h hstep
  | release pid file => exact release_step h hstep

/--
**The lock protocol.**  In a run every operation leaves the mutex as it should, if and only
if every operation is `Clean`.
-/
theorem lock_proper_iff (ops : List Acq465Op) {t : Acq465}
    (hrun : Lts.run acq465Step start ops = some t) :
    (∀ as op bs s s', ops = as ++ op :: bs → Lts.run acq465Step start as = some s →
        acq465Step s op = some s' → Proper s op s') ↔
      Lts.Meets acq465Step Clean start ops :=
  (Lts.meets_iff_steps Owned Proper (fun _ _ _ h hstep => clean_iff_proper h hstep) ops start t
    (Or.inl ⟨rfl, rfl⟩) hrun).symm

private def quietly : Acq465Ioctl :=
  { signalled := false, copyFromUserFaults := false, copyToUserFaults := false, status := 0 }

/-- Two processes, each with a file: the first resets the interface, the other is interrupted
in a reset of its own, and the first releases its file. -/
private def resetAndRelease : List Acq465Op :=
  [.opens 1 10, .opens 2 20, .ioctl 2 20 .mclkMonitor quietly, .ioctl 1 10 .digIfReset quietly,
    .ioctl 2 20 .digIfReset { quietly with signalled := true }, .release 1 10,
    .ioctl 2 20 .cacheFlush quietly]

theorem lock_proper_reset :
    Lts.run acq465Step start resetAndRelease =
        some { adev := .free, files := [20], resets := [] } ∧
      ∀ as op bs s s', resetAndRelease = as ++ op :: bs →
        Lts.run acq465Step start as = some s → acq465Step s op = some s' → Proper s op s' := by
  have hrun : Lts.run acq465Step start resetAndRelease =
      some { adev := .free, files := [20], resets := [] } := by decide
  exact ⟨hrun, (lock_proper_iff resetAndRelease hrun).mpr (by decide)⟩

/-- A fault in the monitor leaves the mutex held with no reset; and a process with two files
lets go of it with the one that it did not reset. -/
theorem lock_improper :
    (∃ s, Lts.run acq465Step start [.opens 1 10,
        .ioctl 1 10 .mclkMonitor { quietly with copyToUserFaults := true }] = some s ∧
      s.adev.sem = true ∧ s.resets = []) ∧
    ∃ s, Lts.run acq465Step start [.opens 1 10, .opens 1 11, .ioctl 1 10 .digIfReset quietly,
        .release 1 11] = some s ∧
      s.adev.sem = false ∧ s.resets = [(1, 10)] := by
  decide

end Acq465

end Acq400

/-! ### The three copies of the registers

The three copies of the registers of an AD7134.

A register is written by a flush when the driver's copy of it differs from the client's,
and the driver's copy is set before the transfer.  So what matters between flushes is
`Retried`: where the driver's copy is not what the chip has, it is not what the client
has either.  A write that fails breaks it unless the chip had the byte already, and so
does an edit that brings back a byte the driver believes the chip to have.
-/

namespace Acq400

namespace Ad7134

/-- A register that has an address on the chip. -/
def IsReg (r : Nat) : Prop := r ≤ ad7134Maxreg

/-- Where the driver's copy differs from the chip, the next flush writes. -/
def Retried (s : Ad7134) : Prop :=
  ∀ r, IsReg r → s.devBuf r ≠ s.regs r → s.devBuf r ≠ s.cliBuf r

/-- A flush none of whose writes fails, unless the chip has the byte already; and no edit
back to a byte that the driver has and the chip has not. -/
def Reaches (s : Ad7134) : Ad7134Act → Prop
  | .edit addr value => IsReg addr → s.devBuf addr ≠ s.regs addr → value ≠ s.devBuf addr
  | .flush xfer =>
    ∀ r, IsReg r → s.devBuf r ≠ s.cliBuf r → xfer r = 0 ∨ s.regs r = s.cliBuf r
  | .invalidate _ => True

/-- What a status of 0 promises. -/
def Kept (s : Ad7134) (a : Ad7134Act) : Prop :=
  match a with
  | .edit _ _ => True
  | .flush xfer => (s.cacheFlush xfer).1 = 0 →
      ∀ r, IsReg r → (s.cacheFlush xfer).2.regs r = (s.cacheFlush xfer).2.cliBuf r
  | .invalidate xfer => (s.cacheInvalidate xfer).1 = 0 →
      ∀ r, IsReg r → (s.cacheInvalidate xfer).2.cliBuf r = (s.cacheInvalidate xfer).2.devBuf r ∧
        (s.cacheInvalidate xfer).2.devBuf r = (s.cacheInvalidate xfer).2.regs r

/-! ### What the loops do -/

/-- The address of a read comes back to the chip as the register. -/
theorem rd_addr : ∀ addr < ad7134Maxreg + 1,
    (ad7134Rd ||| addr) &&& ad7134Rd ≠ 0 ∧ (ad7134Rd ||| addr) &&& 0x7f = addr := by
  decide

theorem wr_addr : ∀ reg < ad7134Maxreg + 1, reg &&& ad7134Rd = 0 := by
  decide

theorem spiRead_eq (s : Ad7134) {addr : Nat} (h : addr < ad7134Maxreg + 1) :
    s.spiRead (ad7134Rd ||| addr) 0 = s.regs addr := by
  obtain ⟨hrd, haddr⟩ := rd_addr addr h
  rw [spiRead, if_pos rfl, transfer, if_pos hrd, haddr]

theorem spiWrite_eq (s : Ad7134) {reg : Nat} (h : reg < ad7134Maxreg + 1) (v : UInt8)
    (status : Int) :
    s.spiWrite reg v status =
      { s with regs := if status = 0 then Function.update s.regs reg v else s.regs } := by
  unfold spiWrite
  split
  · rw [transfer, if_neg (not_not_intro (wr_addr reg h))]
  · rfl

/-- The loop of a flush: the driver's copy is the client's afterwards, whether the chip has
it or not. -/
theorem foldl_flushReg (xfer : Nat → Int) :
    ∀ (rs : List Nat), (∀ r ∈ rs, r < ad7134Maxreg + 1) → ∀ (status : Int) (s : Ad7134),
      (rs.foldl (flushReg xfer) (status, s)).2 =
        { cliBuf := s.cliBuf
          devBuf := fun r => if r ∈ rs then s.cliBuf r else s.devBuf r
          regs := fun r => if r ∈ rs ∧ s.devBuf r ≠ s.cliBuf r ∧ xfer r = 0 then s.cliBuf r
            else s.regs r } := by
  intro rs
  induction rs with
  | nil =>
      intro _ status s
      simp
  | cons reg rest ih =>
      intro hlt status s
      have hreg := hlt reg List.mem_cons_self
      have hrest : ∀ r ∈ rest, r < ad7134Maxreg + 1 := fun r hr =>
        hlt r (List.mem_cons_of_mem reg hr)
      rw [List.foldl_cons]
      by_cases hdiff : s.devBuf reg = s.cliBuf reg
      · simp only [flushReg, hdiff, ne_eq, not_true_eq_false, if_false]
        rw [ih hrest]
        congr 1
        · funext r
          by_cases hr : r = reg
          · subst hr
            simp [hdiff]
          · simp [hr]
        · funext r
          by_cases hr : r = reg
          · subst hr
            simp [hdiff]
          · simp [hr]
      · simp only [flushReg, ne_eq, hdiff, not_false_eq_true, if_true, Function.update_self]
        rw [spiWrite_eq _ hreg, ih hrest]
        congr 1
        · funext r
          by_cases hr : r = reg
          · subst hr
            simp
          · simp [hr]
        · funext r
          by_cases hr : r = reg
          · subst hr
            by_cases hx : xfer r = 0
            · simp [hx, hdiff]
            · simp [hx]
          · by_cases hx : xfer reg = 0
            · simp [hr, hx]
            · simp [hr, hx]

theorem mem_regs {r : Nat} : r ∈ List.range (ad7134Maxreg + 1) ↔ IsReg r := by
  rw [List.mem_range, IsReg]
  omega

theorem cacheFlush_eq (xfer : Nat → Int) (s : Ad7134) {r : Nat} (hr : IsReg r) :
    (s.cacheFlush xfer).2.cliBuf r = s.cliBuf r ∧
      (s.cacheFlush xfer).2.devBuf r = s.cliBuf r ∧
      (s.cacheFlush xfer).2.regs r =
        if s.devBuf r ≠ s.cliBuf r ∧ xfer r = 0 then s.cliBuf r else s.regs r := by
  rw [cacheFlush, foldl_flushReg xfer _ (fun r hr => List.mem_range.mp hr)]
  simp [mem_regs.mpr hr]

/-- The loop of an invalidate: it goes through, or what it has read is the chip's. -/
theorem invalidateFrom_cases (xfer : Nat → Int) :
    ∀ (addrs : List Nat), (∀ r ∈ addrs, r < ad7134Maxreg + 1) → ∀ s : Ad7134,
      (invalidateFrom xfer s addrs).2.regs = s.regs ∧
      (((invalidateFrom xfer s addrs).1 = 0 ∧
          (∀ r ∈ addrs, (invalidateFrom xfer s addrs).2.devBuf r = s.regs r) ∧
          (∀ r < regsLen, (invalidateFrom xfer s addrs).2.cliBuf r =
            (invalidateFrom xfer s addrs).2.devBuf r)) ∨
        ((invalidateFrom xfer s addrs).1 ≠ 0 ∧
          (invalidateFrom xfer s addrs).2.cliBuf = s.cliBuf)) ∧
      ∀ r, (invalidateFrom xfer s addrs).2.devBuf r = s.devBuf r ∨
        (invalidateFrom xfer s addrs).2.devBuf r = s.regs r := by
  intro addrs
  induction addrs with
  | nil =>
      intro _ s
      refine ⟨rfl, Or.inl ⟨rfl, by simp, fun r hr => ?_⟩, fun r => Or.inl rfl⟩
      simp [invalidateFrom, hr]
  | cons addr rest ih =>
      intro hlt s
      have haddr := hlt addr List.mem_cons_self
      have hrest : ∀ r ∈ rest, r < ad7134Maxreg + 1 := fun r hr =>
        hlt r (List.mem_cons_of_mem addr hr)
      by_cases hx : xfer addr = 0
      · have hloop : invalidateFrom xfer s (addr :: rest) = invalidateFrom xfer
            { s with devBuf := Function.update s.devBuf addr (s.regs addr) } rest := by
          simp only [invalidateFrom, hx, ne_eq, not_true_eq_false, if_false, spiRead_eq s haddr]
        rw [hloop]
        obtain ⟨hregs, hwhich, hdev⟩ :=
          ih hrest { s with devBuf := Function.update s.devBuf addr (s.regs addr) }
        have hread : ∀ r, Function.update s.devBuf addr (s.regs addr) r = s.devBuf r ∨
            Function.update s.devBuf addr (s.regs addr) r = s.regs r := by
          intro r
          by_cases hr : r = addr
          · subst hr
            exact Or.inr (Function.update_self ..)
          · exact Or.inl (Function.update_of_ne hr ..)
        refine ⟨hregs, hwhich.imp_left ?_, fun r => ?_⟩
        · rintro ⟨hzero, hall, hcli⟩
          refine ⟨hzero, fun r hr => ?_, hcli⟩
          rcases List.mem_cons.mp hr with rfl | hr
          · rcases hdev r with h | h
            · rw [h]
              exact Function.update_self ..
            · exact h
          · exact hall r hr
        · rcases hdev r with h | h
          · rw [h]
            exact hread r
          · exact Or.inr h
      · have hloop : invalidateFrom xfer s (addr :: rest) = (xfer addr, s) := by
          simp only [invalidateFrom, ne_eq, hx, not_false_eq_true, if_true]
        rw [hloop]
        exact ⟨rfl, Or.inr ⟨hx, rfl⟩, fun r => Or.inl rfl⟩

theorem cacheInvalidate_cases (xfer : Nat → Int) (s : Ad7134) :
    (s.cacheInvalidate xfer).2.regs = s.regs ∧
    (((s.cacheInvalidate xfer).1 = 0 ∧ ∀ r, IsReg r →
        (s.cacheInvalidate xfer).2.devBuf r = s.regs r ∧
        (s.cacheInvalidate xfer).2.cliBuf r = s.regs r) ∨
      ((s.cacheInvalidate xfer).1 ≠ 0 ∧ (s.cacheInvalidate xfer).2.cliBuf = s.cliBuf)) ∧
    ∀ r, (s.cacheInvalidate xfer).2.devBuf r = s.devBuf r ∨
      (s.cacheInvalidate xfer).2.devBuf r = s.regs r := by
  obtain ⟨hregs, hwhich, hdev⟩ := invalidateFrom_cases xfer (List.range (ad7134Maxreg + 1))
    (fun r hr => List.mem_range.mp hr) s
  refine ⟨hregs, hwhich.imp_left ?_, hdev⟩
  rintro ⟨hzero, hall, hcli⟩
  refine ⟨hzero, fun r hr => ?_⟩
  have hlen : r < regsLen := Nat.lt_of_le_of_lt hr (by decide)
  exact ⟨hall r (mem_regs.mpr hr), (hcli r hlen).trans (hall r (mem_regs.mpr hr))⟩

/-! ### What a step keeps -/

theorem act_flush (s : Ad7134) (xfer : Nat → Int) : s.act (.flush xfer) = s.cacheFlush xfer := rfl

theorem act_invalidate (s : Ad7134) (xfer : Nat → Int) :
    s.act (.invalidate xfer) = s.cacheInvalidate xfer := rfl

theorem edit_retried_iff {s : Ad7134} (h : Retried s) (addr : Nat) (value : UInt8) :
    Reaches s (.edit addr value) ↔
      Retried { s with cliBuf := Function.update s.cliBuf addr value } := by
  constructor
  · intro hreach r hr hdiff
    show s.devBuf r ≠ Function.update s.cliBuf addr value r
    by_cases haddr : r = addr
    · subst haddr
      rw [Function.update_self]
      exact (hreach hr hdiff).symm
    · rw [Function.update_of_ne haddr]
      exact h r hr hdiff
  · intro hafter hr hdiff
    have hne : s.devBuf addr ≠ Function.update s.cliBuf addr value addr := hafter addr hr hdiff
    rw [Function.update_self] at hne
    exact hne.symm

/-- A flush does so exactly when the chip has every byte afterwards. -/
theorem flush_retried_iff {s : Ad7134} (h : Retried s) (xfer : Nat → Int) :
    Reaches s (.flush xfer) ↔ Retried (s.cacheFlush xfer).2 := by
  constructor
  · intro hreach r hr
    obtain ⟨-, hdev, hregs⟩ := s.cacheFlush_eq xfer hr
    rw [hdev, hregs]
    intro hdiff
    refine absurd ?_ hdiff
    split
    · rfl
    · rename_i hnot
      by_cases hsame : s.devBuf r = s.cliBuf r
      · -- nothing to write: the chip has it, or the client would differ
        by_contra hchip
        exact h r hr (fun hc => hchip (hsame.symm.trans hc)) hsame
      · rcases hreach r hr hsame with hzero | hchip
        · exact absurd ⟨hsame, hzero⟩ hnot
        · exact hchip.symm
  · intro hafter r hr hsame
    have hr' := hafter r hr
    obtain ⟨hcli, hdev, hregs⟩ := s.cacheFlush_eq xfer hr
    rw [hdev, hregs, hcli] at hr'
    by_contra hfail
    rw [not_or] at hfail
    rw [if_neg (fun hc => hfail.1 hc.2)] at hr'
    exact hr' (Ne.symm hfail.2) rfl

theorem invalidate_retried {s : Ad7134} (h : Retried s) (xfer : Nat → Int) :
    Retried (s.cacheInvalidate xfer).2 := by
  intro r hr
  obtain ⟨hregs, hwhich, hdev⟩ := s.cacheInvalidate_cases xfer
  rw [hregs]
  intro hdiff
  rcases hwhich with ⟨-, hall⟩ | ⟨-, hcli⟩
  · exact absurd (hall r hr).1 hdiff
  · rcases hdev r with hold | hread
    · rw [hold, hcli]
      refine h r hr fun hc => hdiff ?_
      rw [hold, hc]
    · exact absurd hread hdiff

/-- A step keeps every register in reach of the next flush exactly when it `Reaches`. -/
theorem reaches_iff {s : Ad7134} (h : Retried s) (a : Ad7134Act) :
    Reaches s a ↔ Retried (s.act a).2 := by
  cases a with
  | edit addr value => exact edit_retried_iff h addr value
  | flush xfer =>
      rw [act_flush]
      exact flush_retried_iff h xfer
  | invalidate xfer =>
      rw [act_invalidate]
      exact iff_of_true trivial (invalidate_retried h xfer)

theorem kept_of_reaches {s : Ad7134} (h : Retried s) {a : Ad7134Act} (hreach : Reaches s a) :
    Kept s a := by
  cases a with
  | edit addr value => trivial
  | flush xfer =>
      intro _ r hr
      have hafter := (flush_retried_iff h xfer).mp hreach r hr
      obtain ⟨hcli, hdev, -⟩ := s.cacheFlush_eq xfer hr
      rw [hcli]
      rw [hdev, hcli] at hafter
      by_contra hdiff
      exact hafter (Ne.symm hdiff) rfl
  | invalidate xfer =>
      intro hzero r hr
      obtain ⟨hregs, ⟨-, hall⟩ | ⟨hne, -⟩, -⟩ := s.cacheInvalidate_cases xfer
      · obtain ⟨hdev, hcli⟩ := hall r hr
        exact ⟨hcli.trans hdev.symm, hdev.trans (congrFun hregs r).symm⟩
      · exact absurd hzero hne

/--
**The AD7134 register cache.**  In a run every register in which the driver's copy and the
chip differ stays in reach of the next flush, and every status of 0 keeps its promise, if
and only if that is so to begin with and every step `Reaches`.
-/
theorem cache_kept_iff (s : Ad7134) (acts : List Ad7134Act) :
    (Retried s ∧ ∀ as a bs s', acts = as ++ a :: bs → Lts.run ad7134Step s as = some s' →
        Retried (s'.act a).2 ∧ Kept s' a) ↔
      Retried s ∧ Lts.Meets ad7134Step Reaches s acts := by
  refine and_congr_right fun hs => ?_
  have htotal : ∃ t, Lts.run ad7134Step s acts = some t := by
    obtain ⟨t, hrun, -⟩ := Lts.run_total_of (G := fun _ _ => True) (fun _ => True)
      (fun s a _ _ => ⟨(s.act a).2, rfl, trivial⟩) acts s trivial
      (Lts.Meets.of_forall fun _ _ => trivial)
    exact ⟨t, hrun⟩
  obtain ⟨t, hrun⟩ := htotal
  have hiff : Lts.Meets ad7134Step Reaches s acts ↔
      ∀ as a bs s' s'', acts = as ++ a :: bs → Lts.run ad7134Step s as = some s' →
        ad7134Step s' a = some s'' → Retried s'' ∧ Kept s' a := by
    refine Lts.meets_iff_steps Retried (fun s a s' => Retried s' ∧ Kept s a) ?_ acts s t hs hrun
    intro s a s' h hstep
    obtain rfl := Option.some.inj hstep
    have ha := reaches_iff h a
    exact ⟨⟨fun hr => ⟨ha.mp hr, kept_of_reaches h hr⟩, fun hq => ha.mpr hq.1⟩, ha.mp⟩
  rw [hiff]
  constructor
  · intro h as a bs s' s'' hsplit hpre hstep
    obtain rfl := Option.some.inj hstep
    exact h as a bs s' hsplit hpre
  · intro h as a bs s' hsplit hpre
    exact h as a bs s' _ hsplit hpre rfl

/-- The first of two writes of a flush fails and the flush returns 0; the next flush, with
no transfer failing, writes nothing and returns 0 too. -/
theorem cache_forgets_write :
    ∃ s, Lts.run ad7134Step ⟨fun _ => 0, fun _ => 0, fun _ => 0⟩ [.edit 0 1, .edit 1 1] = some s ∧
      Retried s ∧ (s.cacheFlush fun r => if r = 0 then -5 else 0).1 = 0 ∧
      (s.cacheFlush fun r => if r = 0 then -5 else 0).2.regs 0 = 0 ∧
      (s.cacheFlush fun r => if r = 0 then -5 else 0).2.cliBuf 0 = 1 ∧
      (s.cacheFlush fun r => if r = 0 then -5 else 0).2.devBuf 0 = 1 ∧
      ((s.cacheFlush fun r => if r = 0 then -5 else 0).2.cacheFlush fun _ => 0).1 = 0 ∧
      ((s.cacheFlush fun r => if r = 0 then -5 else 0).2.cacheFlush fun _ => 0).2.regs 0 = 0 := by
  refine ⟨_, rfl, ?_, ?_⟩
  · intro r _ hdiff
    exact absurd rfl hdiff
  · decide

end Ad7134

end Acq400
