/-
White Rabbit clients (`acq400_wrdrv.c`): `_acq400_wr_open`, `_acq400_tiga_open` and
`acq400_wr_release_exclusive`.

A client is a singleton: `wc_pid` is the process that has the device, or 0.  Processes open
and release files of one device in any order; a file may be released by another process
than opened it, to which it was handed on.
-/
import Acq400.Lib.Run
import Mathlib.Algebra.Group.Nat.Defs
import Mathlib.Data.List.Defs

namespace Acq400

/-! ### Minor device numbers (`acq400_includes.h`) -/

def acq400MinorWrTs : Nat := 20

def acq400MinorWrPps : Nat := 21

def acq400MinorWrtt : Nat := 23

def acq400MinorWrtt1 : Nat := 27

def acq400MinorWrPktRx : Nat := 43

def acq420MinorTigaTs1 : Nat := 120

def acq420MinorTigaTt1 : Nat := 130

def acq420MinorTigaTtb1 : Nat := 140

def wrTigaRegcount : Nat := 6

/-- `IS_MINOR_TIGA_TS`, `IS_MINOR_TIGA_TT` and `IS_MINOR_TIGA_TTB`, by their first minor. -/
def isMinorTiga (first minor : Nat) : Prop := first ≤ minor ∧ minor < first + wrTigaRegcount

instance (first minor : Nat) : Decidable (isMinorTiga first minor) :=
  inferInstanceAs (Decidable (_ ∧ _))

/-- The clients of a device. -/
inductive WcName
  | tsClient
  | ppsClient
  | wrttClient0
  | wrttClient1
  | pktRxClient
  | tsClients (i : Nat)
  | ttClients (i : Nat)
deriving DecidableEq, Repr

def _tigaGetWCfromMinor (minor : Nat) : Option WcName :=
  if isMinorTiga acq420MinorTigaTs1 minor then some (.tsClients (minor - acq420MinorTigaTs1))
  else if isMinorTiga acq420MinorTigaTt1 minor then
    some (.ttClients (minor - acq420MinorTigaTt1))
  else if isMinorTiga acq420MinorTigaTtb1 minor then
    some (.ttClients (minor - acq420MinorTigaTtb1))
  else none

def getWCfromMinor (minor : Nat) : Option WcName :=
  if acq420MinorTigaTs1 ≤ minor then _tigaGetWCfromMinor minor
  else if minor = acq400MinorWrTs then some .tsClient
  else if minor = acq400MinorWrPps then some .ppsClient
  else if minor = acq400MinorWrtt then some .wrttClient0
  else if minor = acq400MinorWrtt1 then some .wrttClient1
  else if minor = acq400MinorWrPktRx then some .pktRxClient
  else none

/-! ### Opening and releasing -/

/-- A process id; 0 stands for no process. -/
abbrev Pid := { pid : Nat // pid ≠ 0 }

/-- `ACCMODE(file)`. -/
inductive AccMode
  | rdonly
  | wronly
  | rdwr
deriving DecidableEq, Repr

def AccMode.readRequested (mode : AccMode) : Prop := mode = .rdonly ∨ mode = .rdwr

instance (mode : AccMode) : Decidable mode.readRequested :=
  inferInstanceAs (Decidable (_ ∨ _))

/-- `file->f_flags`, as far as they are looked at. -/
structure OpenFlags where
  mode : AccMode
  nonblock : Bool
deriving DecidableEq, Repr

structure WrClient where
  wcTs : UInt32
  wcPid : Nat
deriving DecidableEq, Repr

/-- What an open fails with. -/
inductive OpenErr
  | enodev
  | eacces
  | ebusy
deriving DecidableEq, Repr

namespace WrClient

variable (wc : WrClient)

/-- Another process has the device. -/
def busy (current : Pid) : Prop := wc.wcPid ≠ 0 ∧ wc.wcPid ≠ current

instance (current : Pid) : Decidable (wc.busy current) := inferInstanceAs (Decidable (_ ∧ _))

/-- What an open that succeeds makes of the client. -/
def claim (current : Pid) (flags : OpenFlags) : WrClient :=
  { wcTs := if flags.nonblock then wc.wcTs else 0
    wcPid := current }

end WrClient

/-- Only TS or PKT_RX are writeable. -/
def wrWriteable (minor : Nat) : Prop := minor = acq400MinorWrTs ∨ minor = acq400MinorWrPktRx

instance (minor : Nat) : Decidable (wrWriteable minor) := inferInstanceAs (Decidable (_ ∨ _))

def _acq400WrOpen (minor : Nat) (wc : WrClient) (current : Pid) (flags : OpenFlags) :
    Except OpenErr WrClient :=
  if (getWCfromMinor minor).isNone then .error .enodev
  else if flags.mode = .wronly ∧ ¬wrWriteable minor then .error .eacces
  else if flags.mode.readRequested ∧ wc.busy current then .error .ebusy
  else .ok (wc.claim current flags)

def _acq400TigaOpen (minor : Nat) (wc : WrClient) (current : Pid) (flags : OpenFlags) :
    Except OpenErr WrClient :=
  if (_tigaGetWCfromMinor minor).isNone then .error .enodev
  else if ¬isMinorTiga acq420MinorTigaTs1 minor ∧ flags.mode = .wronly then .error .eacces
  else if flags.mode.readRequested ∧ wc.busy current then .error .ebusy
  else if flags.mode ≠ .wronly then .ok (wc.claim current flags)
  else .ok wc

def acq400WrReleaseExclusive (wc : WrClient) (current : Pid) : WrClient :=
  if wc.wcPid ≠ 0 ∧ wc.wcPid = current then { wc with wcPid := 0 } else wc

/-! ### Processes -/

/-- An open file, and the process that opened it. -/
structure WrFile where
  pid : Pid
  mode : AccMode
deriving DecidableEq

/-- The file is open for reading. -/
def WrFile.reads (f : WrFile) : Prop := f.mode.readRequested

instance (f : WrFile) : Decidable f.reads := inferInstanceAs (Decidable f.mode.readRequested)

/-- What `current` does. -/
inductive WrCall
  | wrOpen (flags : OpenFlags)
  | tigaOpen (flags : OpenFlags)
  /-- Of the file at this place. -/
  | release (file : Nat)
deriving DecidableEq

/-- A client, and the files of its device that are open. -/
structure WrDev where
  wc : WrClient
  files : List WrFile
deriving DecidableEq

namespace WrDev

variable (minor : Nat) (s : WrDev)

/-- No file is open. -/
def init : WrDev := { wc := { wcTs := 0, wcPid := 0 }, files := [] }

/-- The file is open if the open succeeded. -/
def opened (current : Pid) (flags : OpenFlags) : Except OpenErr WrClient → WrDev
  | .error _ => s
  | .ok wc => { wc := wc, files := s.files ++ [⟨current, flags.mode⟩] }

/-- One call. -/
def step : Pid × WrCall → Option WrDev
  | (current, .wrOpen flags) =>
    some (s.opened current flags (_acq400WrOpen minor s.wc current flags))
  | (current, .tigaOpen flags) =>
    some (s.opened current flags (_acq400TigaOpen minor s.wc current flags))
  | (current, .release file) =>
    if file < s.files.length then
      some { wc := acq400WrReleaseExclusive s.wc current, files := s.files.eraseIdx file }
    else none

end WrDev

end Acq400

/-! ### The predictor

The predictor of the next White Rabbit time stamp (`acq400_wrdrv.c`,
`wr_streamer_trigger_action`).

`ts_c` and `ticks_per_sec` of `struct WrTsPredictor` are not used, and `wr_load_tx` does nothing.
-/

namespace Acq400

/-- The parameters of the module. -/
structure WrTsParams where
  /-- `wr_ticks_per_sec`, an `int`. -/
  ticksPerSec : Nat
  /-- `wr_ts_streamer_coeff_pc`. -/
  coeffPc : Int

structure WrTsPredictor where
  /-- The average number of ticks between two stamps. -/
  dta : UInt32
  /-- The stamp before. -/
  tsP : UInt32
  /-- The next stamp, as it is predicted. -/
  tsN : UInt32
deriving DecidableEq, Repr

def wrtsSec (wrts : UInt32) : UInt32 := wrts >>> 28

def wrtsNextSec (s : UInt32) : UInt32 := (s + 1) &&& 0x0f

def wrtsTick (wrts : UInt32) : UInt32 := wrts &&& 0x0fffffff

def mkWrts (s t : UInt32) : UInt32 := s <<< 28 ||| t

namespace WrTsPredictor

/-- `dt` of `wr_streamer_trigger_action`; `none` is the branch that warns of a missed trigger. -/
def dt (par : WrTsParams) (tsp : WrTsPredictor) (wrTs : UInt32) : Option UInt32 :=
  let secP := wrtsSec tsp.tsP
  let ticksP := wrtsTick tsp.tsP
  let secC := wrtsSec wrTs
  let ticksC := wrtsTick wrTs
  if secP = secC then some (ticksC - ticksP)
  else if wrtsNextSec secP ≠ 0 then some (ticksC + UInt32.ofNat par.ticksPerSec - ticksP)
  else none

def wrStreamerTriggerAction (par : WrTsParams) (tsp : WrTsPredictor) (wrTs : UInt32) :
    WrTsPredictor :=
  let secC := wrtsSec wrTs
  let ticksC := wrtsTick wrTs
  let wrTicksPerSec := UInt32.ofNat par.ticksPerSec
  match tsp.dt par wrTs with
  | none => { tsp with tsP := wrTs }
  | some dt =>
    let dta := (tsp.dta * UInt32.ofInt par.coeffPc + dt * UInt32.ofInt (1 - par.coeffPc)) / 100
    let tsN :=
      if ticksC + dta < wrTicksPerSec then mkWrts secC (ticksC + dta)
      else mkWrts (wrtsNextSec secC) (ticksC + dta - wrTicksPerSec)
    { dta := dta, tsP := wrTs, tsN := tsN }

end WrTsPredictor

end Acq400
