/-
A transient capture in `acq400_stream.cpp`: how `StreamHeadPrePost` makes `pre` and `post`
fit into the buffers, and how `streamCore` counts the buffers of the capture.

`streamCore` is a step for each return of the `select` in `getBufferId`: an event, a buffer
or both may have come.  With a buffer the body of the loop runs once.  The counts of
samples and buffers are numbers here, as far as the capture goes; the constructor's are
32 bit.  `history` is not in the source: it records what has been received, in which state.
-/
import Acq400.Stream.Buffer

namespace Acq400

/-- `STATE`. -/
inductive StreamState
  | stop
  | arm
  | runPre
  | runPost
  | postprocess
  | cleanup
deriving DecidableEq, Repr

/-! ### The capture -/

/-- What `streamCore` reads of a `StreamHeadPrePost`. -/
structure StreamHeadPrePost where
  pre : Nat
  post : Nat
  samplesBuffer : Nat
  cornerTurnDelay : Int
  /-- `bufferSkip`: the buffer that is reported, unless it is skipped. -/
  bufferSkip : Nat → Option Nat

namespace StreamHeadPrePost

/-- `StreamHeadPrePost::bufferSkip`. -/
def skipNone (ib : Nat) : Option Nat := some ib

/-- `DemuxingStreamHeadPrePostDualBuffer::bufferSkip`: wait for an odd buffer, report the even. -/
def skipEven (ib : Nat) : Option Nat := if ib % 2 ≠ 0 then some (ib - 1) else none

/-- `actual` and the variables of the capture. -/
structure Core where
  state : StreamState
  actualPre : Nat
  actualPost : Nat
  elapsed : Nat
  eventReceived : Bool
  acceptingEvents : Bool
  postRunOverOne : Nat
  buffersOverPre : Nat
deriving DecidableEq, Repr

/-- What `select` returns: that it has failed, or an event that has been read, and what there is
to be read of buffers, where a read may fail. -/
inductive Select
  | failed
  | ready (event : Bool) (feed : Option (Option Nat))
deriving DecidableEq, Repr

/-- What has been received: an event, and whether it was accepted, or a buffer, the state it was
received in, and `actual.pre` and `actual.post` after it. -/
inductive Received
  | event (accepted : Bool)
  | buffer (ib : Nat) (state : StreamState) (actualPre actualPost : Nat)
deriving DecidableEq, Repr

/-- How `streamCore` ends. -/
inductive Ended
  | quits
  | badBufferId
deriving DecidableEq, Repr

structure Capture where
  core : Core
  ended : Option Ended
  history : List Received
deriving DecidableEq, Repr

/-- As `stream` starts it. -/
def armed : Capture where
  core :=
    { state := .arm, actualPre := 0, actualPost := 0, elapsed := 0, eventReceived := false
      acceptingEvents := false, postRunOverOne := 0, buffersOverPre := 0 }
  ended := none
  history := []

variable (h : StreamHeadPrePost)

/-- The first `switch`. -/
def leaveArm (c : Core) : Core :=
  match c.state with
  | .arm => { c with state := if h.pre ≠ 0 then .runPre else .runPost }
  | _ => c

/-- `case ST_RUN_PRE`: `actual.pre` goes up to `pre`, -/
def countPre (c : Core) : Core :=
  if c.actualPre < h.pre then
    if c.actualPre + h.samplesBuffer < h.pre then
      { c with actualPre := c.actualPre + h.samplesBuffer }
    else { c with actualPre := h.pre }
  else c

/-- and from there on an event is waited for. -/
def awaitEvent (c : Core) : Core :=
  if h.pre ≤ c.actualPre then
    if c.eventReceived then { c with state := .runPost }
    else
      { c with
        buffersOverPre := c.buffersOverPre + 1
        acceptingEvents :=
          c.acceptingEvents || decide (h.cornerTurnDelay < (c.buffersOverPre + 1 : Nat)) }
  else c

/-- `case ST_RUN_POST`, which may return. -/
def runPost (c : Core) : Core × Bool :=
  if h.post < c.actualPost + h.samplesBuffer then
    let c' := { c with
      actualPost := h.post
      elapsed := c.elapsed + h.samplesBuffer
      postRunOverOne := c.postRunOverOne + 1 }
    -- `post_run_over_one++ > 1`
    if 1 < c.postRunOverOne then ({ c' with state := .postprocess }, true) else (c', false)
  else ({ c with actualPost := c.actualPost + h.samplesBuffer }, false)

/-- The second `switch`; whether it returns comes with it. -/
def switchState (c : Core) : Core × Bool :=
  match c.state with
  | .runPre => (awaitEvent h (countPre h c), false)
  | .runPost => runPost h c
  | _ => (c, false)

/-- The body of the loop from the second `switch` on, for buffer `ib`. -/
def receive (s : Capture) (ib : Nat) : Capture :=
  let (c, quits) := switchState h s.core
  let received := Received.buffer ib s.core.state c.actualPre c.actualPost
  if quits then { core := c, ended := some .quits, history := s.history ++ [received] }
  else
    { core := { c with elapsed := c.elapsed + h.samplesBuffer }
      ended := none
      history := s.history ++ [received] }

/-- The body of the loop. -/
def body (s : Capture) (ib : Nat) : Capture :=
  receive h { s with core := leaveArm h s.core } ib

/-- An event is read. -/
def readEvent (s : Capture) (event : Bool) : Capture :=
  if event then
    { s with
      core := { s.core with eventReceived := s.core.eventReceived || s.core.acceptingEvents }
      history := s.history ++ [.event s.core.acceptingEvents] }
  else s

/-- `select` returns in `getBufferId`; not after the end. -/
def step (s : Capture) (select : Select) : Option Capture :=
  match s.ended, select with
  | some _, _ => none
  | none, .failed => some { s with ended := some .badBufferId }
  | none, .ready event feed =>
    let s := readEvent s event
    match feed with
    | none => some s
    | some none => some { s with ended := some .badBufferId }
    | some (some n) =>
      match h.bufferSkip n with
      | none => some s
      | some ib => some (body h s ib)

/-! ### The constructor -/

/-- `pre` and `post` while they are reduced; `wrapped` records that a subtraction has gone below
zero. -/
structure Fitting where
  pre : Nat
  post : Nat
  wrapped : Bool
deriving DecidableEq, Repr

/-- The sizes that `pre` and `post` have to fit in, each an `unsigned`. -/
structure Sizes where
  sampleSize : Nat
  bufferlen : Nat
  nbuffers : Nat

namespace Sizes

variable (z : Sizes)

/-- `samples_buffer`, which is an `int`. -/
def samplesBuffer : Nat := z.bufferlen / z.sampleSize

/-- `(pre+post)*sample_size()`. -/
def size (f : Fitting) : Nat := (f.pre + f.post) % 2 ^ 32 * z.sampleSize % 2 ^ 32

def totalBufferLimit : Nat := z.nbuffers * z.bufferlen % 2 ^ 32

/-- `x -= samples_buffer/2`. -/
def minusHalf (x : Nat) : Nat := (x + (2 ^ 32 - z.samplesBuffer / 2)) % 2 ^ 32

/-- One turn of the loop. -/
def reduce (f : Fitting) : Fitting where
  pre := if f.pre ≠ 0 then z.minusHalf f.pre else f.pre
  post := if f.post ≠ 0 then z.minusHalf f.post else f.post
  wrapped := f.wrapped ||
    decide (f.pre ≠ 0 ∧ f.pre < z.samplesBuffer / 2 ∨ f.post ≠ 0 ∧ f.post < z.samplesBuffer / 2)

/-- The loop of `StreamHeadPrePost(Progress&, int, int)` that makes `pre` and `post` fit. -/
def fit : Nat → Fitting → Option Fitting
  | 0, _ => none
  | fuel + 1, f => if z.totalBufferLimit < z.size f then fit fuel (z.reduce f) else some f

end Sizes

end StreamHeadPrePost

end Acq400
