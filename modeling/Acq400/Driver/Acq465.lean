/-
The lock of an ACQ465 (`acq465_drv.c`): `acq465_open`, `acq465_release` and
`acq465_unlocked_ioctl`.

Processes open files of one device, pass them on and release them in any order.  A
completed operation is one step; an ioctl that waits for the mutex completes only if a
signal ends the wait.  `ACQ465_DIG_IF_RESET` returns with the mutex held.  What the other
commands do with the chips comes behind that; for the lock it is what they return.
-/
import Acq400.Lib.Run
import Mathlib.Data.List.Defs
import Mathlib.Logic.Function.Basic

namespace Acq400

/-- The commands of `acq465_unlocked_ioctl`. -/
inductive Acq465Cmd
  | cacheInvalidate
  | cacheFlush
  | reset
  | mclkMonitor
  | digIfReset
  /-- Any other number. -/
  | other
deriving DecidableEq, Repr

/-- Of `struct acq465_dev`: the mutex, and the process that took it. -/
structure Acq465Dev where
  sem : Bool
  owner : Option Nat
deriving DecidableEq, Repr

/-- What happens in an ioctl. -/
structure Acq465Ioctl where
  /-- A signal ends the wait for the mutex. -/
  signalled : Bool
  copyFromUserFaults : Bool
  copyToUserFaults : Bool
  /-- What the cache functions return. -/
  status : Int
deriving DecidableEq, Repr

namespace Acq465Dev

/-- After `adev->owner = 0` and `mutex_unlock`, and at first. -/
def free : Acq465Dev := { sem := false, owner := none }

/-- `acq465_unlocked_ioctl` by process `current`; `none` while it waits for the mutex. -/
def unlockedIoctl (adev : Acq465Dev) (current : Nat) (cmd : Acq465Cmd) (io : Acq465Ioctl) :
    Option (Int × Acq465Dev) :=
  if adev.sem then if io.signalled then some (-4, adev) else none
  else
    let adev : Acq465Dev := { sem := true, owner := some current }
    match cmd with
    | .cacheInvalidate | .cacheFlush => some (io.status, free)
    | .reset => some (0, free)
    | .mclkMonitor =>
      if io.copyFromUserFaults then some (-14, adev)
      else if io.copyToUserFaults then some (-14, adev)
      else some (0, free)
    | .digIfReset => some (0, adev)
    | .other => some (-19, free)

/-- `acq465_release` by process `current`. -/
def release (adev : Acq465Dev) (current : Nat) : Acq465Dev :=
  if adev.sem ∧ adev.owner = some current then { adev with sem := false } else adev

end Acq465Dev

/-- The device and its open files. -/
structure Acq465 where
  adev : Acq465Dev
  files : List Nat
  /-- The resets that have completed, by process and file, of the files not released since. -/
  resets : List (Nat × Nat)
deriving DecidableEq, Repr

def Acq465.start : Acq465 := { adev := .free, files := [], resets := [] }

inductive Acq465Op
  | opens (pid file : Nat)
  | ioctl (pid file : Nat) (cmd : Acq465Cmd) (io : Acq465Ioctl)
  | release (pid file : Nat)
deriving DecidableEq, Repr

/-- One completed operation. -/
def acq465Step (s : Acq465) : Acq465Op → Option Acq465
  | .opens _ file => if file ∈ s.files then none else some { s with files := file :: s.files }
  | .ioctl pid file cmd io =>
    if file ∈ s.files then
      (s.adev.unlockedIoctl pid cmd io).map fun (rc, adev) =>
        { s with
          adev := adev
          resets := if cmd = .digIfReset ∧ rc = 0 then s.resets ++ [(pid, file)] else s.resets }
    else none
  | .release pid file =>
    if file ∈ s.files then
      some
        { adev := s.adev.release pid
          files := s.files.erase file
          resets := s.resets.filter fun held => held.2 ≠ file }
    else none

end Acq400

/-! ### The register cache

The register cache of an AD7134 (`acq465_drv.c`): `ad7134_cache_invalidate` and
`ad7134_cache_flush`, with the SPI transfers they make.

There are three copies of the registers of a chip: the client's (`cli_buf`, which it edits
through a mapping), the driver's (`dev_buf`) and the chip's own.  `HW` is set.  What each
transfer returns is given, by its register; one that does not return 0 has not reached the
chip.
-/

namespace Acq400

def ad7134Maxreg : Nat := 0x48

def regsLen : Nat := 0x80

def ad7134Rd : Nat := 0x80

/-- The copies of the registers of one chip, by address. -/
structure Ad7134 where
  cliBuf : Nat → UInt8
  devBuf : Nat → UInt8
  regs : Nat → UInt8

namespace Ad7134

/-- The chip's side of a transfer of two bytes: the register that is read, or written. -/
def transfer (regs : Nat → UInt8) (cmd0 : Nat) (cmd1 : UInt8) : UInt8 × (Nat → UInt8) :=
  if cmd0 &&& ad7134Rd ≠ 0 then (regs (cmd0 &&& 0x7f), regs)
  else (0, Function.update regs cmd0 cmd1)

/-- `acq465_spi_write`; `status` is what `spi_sync_transfer` returns. -/
def spiWrite (s : Ad7134) (cmd0 : Nat) (cmd1 : UInt8) (status : Int) : Ad7134 :=
  if status = 0 then { s with regs := (transfer s.regs cmd0 cmd1).2 } else s

/-- `acq465_spi_read`: the second byte of `rxbuf`. -/
def spiRead (s : Ad7134) (cmd0 : Nat) (status : Int) : UInt8 :=
  if status = 0 then (transfer s.regs cmd0 0).1 else 0x0b

/-- The loop of `ad7134_cache_invalidate` over the addresses that are left. -/
def invalidateFrom (xfer : Nat → Int) (s : Ad7134) : List Nat → Int × Ad7134
  | [] =>
    (0, { s with cliBuf := fun addr => if addr < regsLen then s.devBuf addr else s.cliBuf addr })
  | addr :: rest =>
    let rxd := s.spiRead (ad7134Rd ||| addr) (xfer addr)
    if xfer addr ≠ 0 then (xfer addr, s)
    else invalidateFrom xfer { s with devBuf := Function.update s.devBuf addr rxd } rest

/-- `ad7134_cache_invalidate`. -/
def cacheInvalidate (xfer : Nat → Int) (s : Ad7134) : Int × Ad7134 :=
  invalidateFrom xfer s (List.range (ad7134Maxreg + 1))

/-- One turn of the loop of `ad7134_cache_flush`, with `status` from the turns before. -/
def flushReg (xfer : Nat → Int) (acc : Int × Ad7134) (reg : Nat) : Int × Ad7134 :=
  let (status, s) := acc
  if s.devBuf reg ≠ s.cliBuf reg then
    let s := { s with devBuf := Function.update s.devBuf reg (s.cliBuf reg) }
    (xfer reg, s.spiWrite reg (s.devBuf reg) (xfer reg))
  else (status, s)

/-- `ad7134_cache_flush`. -/
def cacheFlush (xfer : Nat → Int) (s : Ad7134) : Int × Ad7134 :=
  (List.range (ad7134Maxreg + 1)).foldl (flushReg xfer) (0, s)

end Ad7134

inductive Ad7134Act
  /-- The client stores a byte in its buffer. -/
  | edit (addr : Nat) (value : UInt8)
  | flush (xfer : Nat → Int)
  | invalidate (xfer : Nat → Int)

/-- One action, with the status that it returns to the client. -/
def Ad7134.act (s : Ad7134) : Ad7134Act → Int × Ad7134
  | .edit addr value => (0, { s with cliBuf := Function.update s.cliBuf addr value })
  | .flush xfer => s.cacheFlush xfer
  | .invalidate xfer => s.cacheInvalidate xfer

def ad7134Step (s : Ad7134) (a : Ad7134Act) : Option Ad7134 := some (s.act a).2

end Acq400
