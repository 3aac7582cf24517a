/-
Trigger time stamps (`wrtd_TS.h`) and the receiver's test of one (`ACQ400Receiver::action`
in `wrtd.cpp`).

A relative stamp has the seconds modulo 8 and the ticks of the second in one register
word; an absolute one has the second in `tai_s` as well.  A double is an exact rational,
an `unsigned` a natural number below 2³², and a conversion that has no defined value is
`none`.
-/
import Acq400.Lib.CInt
import Acq400.Lib.WordBits

namespace Acq400.Wrtd

def secondsShl : Nat := 28

def secondsMask : Nat := 0x7

/-- `MIN_TAI`: a greater second is absolute time. -/
def minTai : Nat := 59

def ticksMask : Nat := 0x0fffffff

def tsEn : Nat := 1 <<< 31

/-- `TS_QUICK`: trigger right away, no timing. -/
def tsQuick : Nat := 0xffffffff

/-- `NSPS`: nanoseconds in a second. -/
def nsps : Nat := 1000000000

/-- The globals of namespace `G` that the stamps depend on. -/
structure G where
  ticksPerSec : Nat
  nsPerTick : ℚ

/-- The result of unsigned arithmetic. -/
def unsigned (x : Nat) : Nat := x % 4294967296

/-- `a - b` of two `unsigned`. -/
def unsignedSub (a b : Nat) : Nat := unsigned (a + 4294967296 - b)

structure TS where
  taiS : Nat
  raw : Nat
  mask : UInt8
deriving DecidableEq, Repr

namespace TS

/-- `make_raw`, as the constructor from seconds and ticks calls it. -/
def makeRaw (_secs _ticks : Nat) (en : Bool) : TS where
  taiS := if minTai < _secs then _secs else 0
  mask := 0
  raw := (_secs &&& secondsMask) <<< secondsShl ||| (_ticks &&& ticksMask) |||
    (if en then tsEn else 0)

/-- The constructor from a register word. -/
def ofRaw (_raw : Nat) : TS := { taiS := 0, raw := _raw, mask := 0 }

def dec (s : Nat) : Nat := unsignedSub s 1 &&& secondsMask

def secs (t : TS) : Nat :=
  if t.taiS ≠ 0 then t.taiS else (t.raw &&& (4294967295 - tsEn)) >>> secondsShl

def ticks (t : TS) : Nat := t.raw &&& ticksMask

def nsec (g : G) (t : TS) : Option Nat := CDouble.toUnsigned (t.ticks * g.nsPerTick)

def add (g : G) (t : TS) (dsecs dticks : Nat) : TS :=
  let ss := t.secs
  let tt := unsigned (t.ticks + dticks)
  if g.ticksPerSec < tt then makeRaw (unsigned (ss + 1 + dsecs)) (tt - g.ticksPerSec) true
  else makeRaw (unsigned (ss + dsecs)) tt true

/-- `operator+`. -/
def plus (g : G) (t : TS) (dticks : Nat) : TS := t.add g 0 dticks

/-- What `diff` computes before its result is converted: the product of the seconds is
`unsigned`. -/
def diffValue (g : G) (t ts2 : TS) : ℚ :=
  let (_ticks, _secs) :=
    if t.ticks < ts2.ticks then
      (unsignedSub (unsigned (t.ticks + g.ticksPerSec)) ts2.ticks, dec t.secs)
    else (unsignedSub t.ticks ts2.ticks, t.secs)
  (unsigned (unsignedSub _secs ts2.secs * nsps) : Nat) + _ticks * g.nsPerTick

/-- `diff`; `long` has `w` bits. -/
def diff (w : Nat) (g : G) (t ts2 : TS) : Option Int := CDouble.toLong w (diffValue g t ts2)

def isAbsTai (t : TS) : Prop := t.taiS ≠ 0

instance (t : TS) : Decidable t.isAbsTai := inferInstanceAs (Decidable (_ ≠ _))

end TS

/-! ### The receiver -/

def m1 : Nat := 1000000

/-- What `action` says of a stamp, in ms where it says by how much. -/
inductive Verdict
  | deferred
  | missed (ms : Int)
  | threshold (ms : Int)
  | ok
deriving DecidableEq, Repr

/-- The receiver says that it missed the stamp. -/
def Verdict.isMissed : Verdict → Prop
  | .missed _ => True
  | _ => False

instance : DecidablePred Verdict.isMissed
  | .missed _ => .isTrue trivial
  | .deferred | .threshold _ | .ok => .isFalse id

/-- `action`, once the current time `tsCur` is read; `dns` is `G::dns`. -/
def ACQ400Receiver.action (w : Nat) (g : G) (dns : Nat) (ts tsCur : TS) : Option Verdict :=
  if ts.isAbsTai then some .deferred
  else (ts.diff w g tsCur).map fun (dt : Int) =>
    if dt < 0 then .missed (dt.tdiv m1)
    else if dt < (dns / 4 : Nat) then .threshold (dt.tdiv m1)
    else .ok

end Acq400.Wrtd

/-! ### Alignment

The alignment of a trigger to the local clock (`wrtd.cpp`, `_adjust_ts` and `adjust_ts`).

`rem` is an `int`, but a remainder of ticks fits one.
-/

namespace Acq400.Wrtd

/-- The globals of the local clock. -/
structure LocalClk where
  /-- `G::local_clkdiv`. -/
  clkdiv : Nat
  /-- `G::local_clkoffset`. -/
  clkoffset : Nat

namespace TS

/-- `TS::ts_quick`. -/
def quick : TS := ofRaw tsQuick

/-- `operator!=`. -/
def differs (t ts2 : TS) : Bool := t.ticks ≠ ts2.ticks || t.secs ≠ ts2.secs

def _adjustTs (clk : LocalClk) (ts0 : TS) : TS :=
  let rem := ts0.ticks % clk.clkdiv
  let ticks := if rem ≠ 0 then unsigned (ts0.ticks + unsignedSub clk.clkdiv rem) else ts0.ticks
  let ticks := if clk.clkoffset < ticks then unsignedSub ticks clk.clkoffset else ticks
  makeRaw ts0.secs ticks true

def adjustTs (clk : LocalClk) (ts0 : TS) : TS :=
  if ts0.differs quick ∧ (1 < clk.clkdiv ∨ clk.clkoffset ≠ 0) then ts0._adjustTs clk else ts0

end TS

end Acq400.Wrtd
