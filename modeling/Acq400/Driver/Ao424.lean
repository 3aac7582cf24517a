/-
The spans of an AO424 (`ao424_drv.c`): `ao424_set_spans`, with `ao424_set_odd_channels` of
`acq400_init_defaults.c`.

A register reads back what was written to it.  Of `measure_ao_fifo` there is what it leaves in
`DAC_CTRL`, and nothing unless `measure_ao_fifo_ok` is set.  The status that is polled is given,
poll by poll.
-/
import Mathlib.Data.BitVec

namespace Acq400

/-- `adev` and `ao424_device_settings` of an AO424, with its registers. -/
structure Ao424 where
  dacCtrl : BitVec 32
  /-- `DAC_424_CGEN`. -/
  cgen : BitVec 32
  dacIntCsr : BitVec 32
  /-- The words that have been written to the FIFO. -/
  fifo : List (BitVec 32)
  nchanEnabled : Nat
  taskActive : Bool
  ao424Spans : Nat → BitVec 16
  ao424Initvals : Nat → BitVec 16
  encodedTwocmp : Int
  playloopLength : Nat

/-- Parameters of the module. -/
structure Ao424Params where
  allowSpansInOddsMode : Bool
  measureAoFifoOk : Bool
  setSpansTimeout : Int

namespace Ao424

/-! ### Bits of the registers -/

/-- `ADC_CTRL_MODULE_EN`. -/
def moduleEn : BitVec 32 := 0x001

/-- `ADC_CTRL_FIFO_RST`. -/
def fifoRst : BitVec 32 := 0x002

/-- `ADC_CTRL_FIFO_EN`. -/
def fifoEn : BitVec 32 := 0x004

/-- `ADC_CTRL_ADC_RST`. -/
def dacRst : BitVec 32 := 0x008

/-- `ADC_CTRL_ADC_EN`. -/
def dacEn : BitVec 32 := 0x010

/-- `AO424_DAC_CTRL_SPAN`. -/
def span : BitVec 32 := 0x020

/-- `DAC_CTRL_LL`. -/
def ll : BitVec 32 := 0x100

/-- `DAC_CTRL_TWOCMP`. -/
def twocmp : BitVec 32 := 0x200

/-- `DAC_424_CGEN_ODD_CHANS`. -/
def oddChans : BitVec 32 := 0x10

/-- `DAC_424_CGEN_DISABLE_X`. -/
def disableX : BitVec 32 := 0xf

/-! ### The functions -/

def isUnipolar (span : BitVec 16) : Bool := span = 0 || span = 1

/-- `ao420_reset_fifo`. -/
def resetFifo (s : Ao424) : Ao424 :=
  let ctrl := s.dacCtrl &&& ~~~fifoEn
  let s := { s with dacCtrl := ctrl }
  let s := { s with dacCtrl := ctrl ||| fifoRst }
  { s with dacCtrl := ctrl ||| fifoEn }

def measureAoFifo (p : Ao424Params) (s : Ao424) : Ao424 :=
  if p.measureAoFifoOk then
    let s := { s with dacCtrl := s.dacCtrl &&& ~~~(ll ||| dacEn) }
    s.resetFifo.resetFifo
  else s

/-- `ao424_set_odd_channels`. -/
def setOddChannels (p : Ao424Params) (s : Ao424) (oddChanEn : Bool) : Ao424 :=
  let cgen := s.cgen &&& ~~~disableX
  let s :=
    if oddChanEn then { s with cgen := cgen ||| oddChans, nchanEnabled := 16 }
    else { s with cgen := cgen &&& ~~~oddChans, nchanEnabled := 32 }
  s.measureAoFifo p

/-- `ao424_init_on_setspan`. -/
def initOnSetspan (s : Ao424) : Ao424 :=
  { s with
    ao424Initvals := fun ic =>
      if ic < s.nchanEnabled then if isUnipolar (s.ao424Spans ic) then 0x0000 else 0x8000
      else s.ao424Initvals ic }

/-- `u.lw`: the spans, and the initial values behind them. -/
def lw (s : Ao424) (i : Nat) : BitVec 32 :=
  if i < 16 then s.ao424Spans (2 * i + 1) ++ s.ao424Spans (2 * i)
  else s.ao424Initvals (2 * (i - 16) + 1) ++ s.ao424Initvals (2 * (i - 16))

/-- The loop over the polls, with so many to go: what `rc` is behind it. -/
def pollLoop (swc : Nat → Bool) : Nat → Nat → Int
  | 0, pollcat => if swc pollcat then 0 else -1
  | more + 1, pollcat => if swc pollcat then 0 else pollLoop swc more (pollcat + 1)

/-- `_ao424_set_spans`. -/
def setSpansCtrl (p : Ao424Params) (swc : Nat → Bool) (s : Ao424) (ctrl : BitVec 32) :
    Int × Ao424 :=
  let s := s.initOnSetspan
  let ctrl := ctrl &&& ~~~(dacEn ||| fifoEn)
  let ctrl := ctrl &&& ~~~ll
  let ctrl := ctrl ||| moduleEn
  let s := { s with dacCtrl := ctrl }
  let s := { s with dacIntCsr := 0 }
  let s := { s with dacCtrl := ctrl ||| fifoRst ||| dacRst }
  let ctrl := ctrl ||| fifoEn
  let s := { s with dacCtrl := ctrl }
  let s := { s with fifo := s.fifo ++ (List.range s.nchanEnabled).map s.lw }
  let ctrl := ctrl ||| span
  let s := { s with dacCtrl := ctrl }
  let rc := pollLoop swc p.setSpansTimeout.toNat 0
  let ctrl := ctrl &&& ~~~span
  (rc, { s with dacCtrl := ctrl })

/-- What `ao424_set_spans` does when `_ao424_set_spans` has succeeded. -/
def onSpansSet (p : Ao424Params) (s : Ao424) (ctrl : BitVec 32) (wasC16 : Bool) : Ao424 :=
  let unipolar := (List.range s.nchanEnabled).countP fun ic => isUnipolar (s.ao424Spans ic)
  let (s, ctrl) :=
    if unipolar = 0 then ({ s with encodedTwocmp := 1 }, ctrl ||| twocmp) else (s, ctrl)
  let s := if wasC16 then s.setOddChannels p true else s
  { s with dacCtrl := ctrl }

/-- `ao424_set_spans`. -/
def setSpans (p : Ao424Params) (swc : Nat → Bool) (s : Ao424) : Int × Ao424 :=
  let ctrl := s.dacCtrl
  if s.taskActive then (-1, s)
  else
    let wasC16 := s.cgen &&& oddChans ≠ 0
    if wasC16 ∧ !p.allowSpansInOddsMode then (-1, s)
    else
      let s := if wasC16 then s.setOddChannels p false else s
      let (s, ctrl) :=
        if s.encodedTwocmp = 1 then
          let ctrl := ctrl &&& ~~~twocmp
          ({ s with encodedTwocmp := 0, dacCtrl := ctrl }, ctrl)
        else (s, ctrl)
      if ctrl &&& dacEn ≠ 0 ∧ s.playloopLength > 0 then (-1, s)
      else
        let (rc, s) := s.setSpansCtrl p swc ctrl
        if rc = 0 then (rc, s.onSpansSet p ctrl wasC16) else (rc, s)

end Ao424

end Acq400
