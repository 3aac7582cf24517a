/-
The generator of waveforms (`wavegen.cpp`): the channels that `ChanDef::create` loads, and the
samples of them that `ChanDef::output` and `ChanDef::outputFP` write.

The mapping has been read, and of an argument there are the channels that `acqMakeChannelRange`
marks and the names that its expression expands to.  A file has at least one word; without a file
the program exits, and gives nothing.  What the gain makes of a word is given, a word wraps, and
the counts do not.
-/
import Mathlib.Data.BitVec
import Mathlib.Data.List.Range

namespace Acq400

/-- The words of a file, or of a channel. -/
abbrev WaveData (w : Nat) := { words : List (BitVec w) // words ≠ [] }

/-- Every word is changed. -/
def WaveData.map {w : Nat} (f : BitVec w → BitVec w) (data : WaveData w) : WaveData w :=
  ⟨data.1.map f, fun h => data.2 (List.map_eq_nil_iff.mp h)⟩

/-- `ChanDefImpl`. -/
structure ChanDef (w : Nat) where
  ichan : Nat
  fname : List Char
  data : WaveData w
  cursor : Nat

/-- An argument: the channels, and the name of the file of each. -/
structure WaveArg where
  channels : Nat → Bool
  expandedExpr : Nat → List Char

/-- What the program is given, with words of `w` bits. -/
structure Wavegen (w : Nat) where
  mapping : List Nat
  mapping_perm : mapping.Perm (List.range' 1 mapping.length)
  chOffset : Int
  hasGain : Bool
  /-- A word times `ch_gain`. -/
  gain : BitVec w → BitVec w
  rawDataUnsigned : Bool
  files : List Char → Option (WaveData w)

namespace Wavegen

variable {w : Nat} (g : Wavegen w)

def minbytes : Nat := 0x20000

def nchan : Nat := g.mapping.length

def wordSize (_g : Wavegen w) : Nat := w / 8

/-! ### Channels -/

/-- The data of a channel without a definition. -/
def nullData : WaveData w := ⟨[0], List.cons_ne_nil _ _⟩

/-- The channels that `getMapping` makes. -/
def nullChannels : List (ChanDef w) :=
  (List.range g.nchan).map fun ii =>
    { ichan := ii, fname := "null".toList, data := nullData, cursor := 0 }

/-- What a file becomes: it is multiplied by the gain, and converted to unsigned. -/
def convert (data : WaveData w) : WaveData w :=
  let data := if g.hasGain then WaveData.map g.gain data else data
  if g.rawDataUnsigned then WaveData.map (· ^^^ BitVec.twoPow w (w - 1)) data else data

def loadChanDef (channels : List (ChanDef w)) (lchan : Nat) (fname : List Char) :
    Option (List (ChanDef w)) :=
  let ichan := g.mapping.getD (lchan - 1) 0 - 1
  match channels.find? fun chan => chan.fname = fname with
  | some chan =>
    some (channels.set ichan { ichan := ichan, fname := fname, data := chan.data, cursor := 0 })
  | none => do
    let data ← g.files fname
    return channels.set ichan
      { ichan := ichan, fname := fname, data := g.convert data, cursor := 0 }

/-- The loop of `create`. -/
def create (channels : List (ChanDef w)) (arg : WaveArg) : Option (List (ChanDef w)) :=
  (List.range' 1 g.nchan).foldlM (fun channels ch =>
    if arg.channels ch then g.loadChanDef channels ch (arg.expandedExpr ch) else some channels)
    channels

/-- The channels behind all arguments. -/
def cli (args : List WaveArg) : Option (List (ChanDef w)) :=
  args.foldlM g.create g.nullChannels

/-! ### Output -/

/-- `fwrite1`: whether the channel is busy, the word, and the channel behind it. -/
def fwrite1 (chan : ChanDef w) : Bool × BitVec w × ChanDef w :=
  let sam := chan.data.1.getD chan.cursor 0
  let sam := sam + BitVec.ofInt w (g.chOffset * chan.ichan)
  if chan.cursor + 1 < chan.data.1.length then
    (true, sam, { chan with cursor := chan.cursor + 1 })
  else (false, sam, chan)

/-- The loop of `output` over the channels: the words, the channels, `nbusy` and `nwrite`. -/
def outputRow (sample : Nat) : List (ChanDef w) → Nat → Nat →
    List (BitVec w) × List (ChanDef w) × Nat × Nat
  | [], nbusy, nwrite => ([], [], nbusy, nwrite)
  | chan :: channels, nbusy, nwrite =>
    let chan := if sample = 0 then { chan with cursor := 0 } else chan
    let (busy, sam, chan) := g.fwrite1 chan
    let nbusy := if busy then nbusy + 1 else nbusy
    let nwrite := if chan.cursor > nwrite then chan.cursor else nwrite
    let (words, channels, nbusy, nwrite) := outputRow sample channels nbusy nwrite
    (sam :: words, chan :: channels, nbusy, nwrite)

/-- The loop of `output` over the samples, if it takes no more turns than `fuel`. -/
def outputLoop : Nat → Nat → Nat → List (ChanDef w) → Nat →
    Option (List (BitVec w) × List (ChanDef w) × Nat)
  | 0, _, _, _, _ => none
  | fuel + 1, sample, nbusy, channels, nwrite =>
    if nbusy ≠ 0 then do
      let (words, channels, nbusy, nwrite) := g.outputRow sample channels 0 nwrite
      let (more, channels, nwrite) ← outputLoop fuel (sample + 1) nbusy channels nwrite
      return (words ++ more, channels, nwrite)
    else some ([], channels, nwrite)

/-- `output`: the words, the channels, and what it returns. -/
def output (fuel : Nat) (channels : List (ChanDef w)) :
    Option (List (BitVec w) × List (ChanDef w) × Nat) :=
  g.outputLoop fuel 0 g.nchan channels 0

/-- The loop of `outputFP`, if it takes no more turns than `turns`. -/
def outputFPLoop (fuel minsam : Nat) : Nat → Nat → List (ChanDef w) → Option (List (BitVec w))
  | 0, _, _ => none
  | turns + 1, totwrite, channels =>
    if totwrite < minsam then do
      let (words, channels, nwrite) ← g.output fuel channels
      let more ← outputFPLoop fuel minsam turns (totwrite + nwrite) channels
      return words ++ more
    else some []

def minsam : Nat := minbytes / g.nchan / g.wordSize

def outputFP (fuel turns : Nat) (channels : List (ChanDef w)) : Option (List (BitVec w)) :=
  if g.nchan = 0 then none else g.outputFPLoop fuel g.minsam turns 0 channels

end Wavegen

end Acq400
