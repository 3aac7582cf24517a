/-
Lists of channels: `acq-util.c`, `acqMakeChannelRange`, and two of its callers, `getChannels` of
`muxdec.cpp` and `ChannelArchiver` of `tblock2file.cpp`.

An array has the size that its caller has allocated, and nothing is read or written outside of it:
that is `none`, and so is a shift that is not defined.  A file that `is_new_minute` gets the same as
the file of the block, and is left out.
-/
import Acq400.Lib.CText
import Acq400.Lib.Strides
import Acq400.Lib.Words

namespace Acq400

namespace ChannelRange

/-- `channels[ii] = 1`. -/
def mark (channels : List Int) (ii : Nat) : Option (List Int) :=
  if ii < channels.length then some (channels.set ii 1) else none

def addRange' (channels : List Int) (cmax : Nat) (ll rr : Int) : Option (List Int) :=
  let rr : Int := if rr > cmax then cmax else rr
  let ll : Int := if ll < 1 then 1 else ll
  (List.range' ll.toNat (rr + 1 - ll).toNat).foldlM mark channels

def index (text : List Char) (c : Char) : Option Nat :=
  if c ∈ text then some (text.takeWhile fun d => d ≠ c).length else none

def addRange (cmax : Nat) (channels : List Int) (range : List Char) : Option (List Int) :=
  match (index range '-').or (index range ':') with
  | some ranger =>
    let len := range.length
    if ranger = 0 then
      if len = 1 then addRange' channels cmax 1 cmax
      else addRange' channels cmax 1 (CText.atoi (range.drop 1))
    else if ranger = len - 1 then addRange' channels cmax (CText.atoi (range.take ranger)) cmax
    else
      addRange' channels cmax (CText.atoi (range.take ranger))
        (CText.atoi (range.drop (ranger + 1)))
  | none => addRange' channels cmax (CText.atoi range) (CText.atoi range)

def isSep (c : Char) : Bool := c = ' ' || c = ','

/-- What `strtok_r` finds between the separators. -/
def tokens (definition : List Char) : List (List Char) :=
  (definition.splitOnP isSep).filter fun ptok => ptok ≠ []

/-- The channels from 1 that are marked. -/
def markedOnes (channels : List Int) (cmax : Nat) : Option (List Nat) :=
  (List.range' 1 cmax).foldlM
    (fun ones ichan => channels[ichan]?.map fun v => if v ≠ 0 then ones ++ [ichan] else ones) []

def acqMakeChannelRange (channels : List Int) (cmax : Nat) (definition : List Char) :
    Option (Nat × List Int) := do
  let channels ← (tokens definition).foldlM (addRange cmax) channels
  let ones ← markedOnes channels cmax
  some (ones.length, channels)

/-! ### `muxdec.cpp` -/

/-- `getChannels`, which may leave the program: the channels otherwise. -/
def getChannels (nchan : Nat) (defn : List Char) : Option (Option (List Nat)) :=
  match (Words.strstr "CH=".toList defn).bind fun cursor =>
    CText.word (cursor.drop 3).length (cursor.drop 3) with
  | some (word, _) => do
    let (nprint, channels) ← acqMakeChannelRange (List.replicate nchan 0) nchan word
    if nprint = 0 then some none
    else do
      let ones ← markedOnes channels nchan
      some (some ones)
  | none => some (some (List.range' 1 nchan))

/-! ### `tblock2file.cpp` -/

/-- `G::channels` and `G::nchan_selected`, for the definitions in the order in which they come from
the file and from the options. -/
def initChannels (nchan : Nat) (chandefs : List (List Char)) : Option (Nat × List Int) := do
  let (selected, channels) ← chandefs.foldlM
    (fun s chandef => acqMakeChannelRange s.2 nchan chandef) (0, List.replicate (nchan + 1) 0)
  if selected = 0 then acqMakeChannelRange channels nchan ":".toList
  else some (selected, channels)

/-- `(x >> shr) & 0x0000FFFF`, as a `short`. -/
def cut (shr : Int) (x : BitVec 32) : Option (BitVec 16) :=
  if 0 ≤ shr ∧ shr < 32 then some ((x.sshiftRight shr.toNat &&& 0xffff).setWidth 16) else none

variable (nchan : Nat) (channels : List Int) (selected : Nat) (shr : Int) (m : List (BitVec 32))

/-- The loop over the channels of a sample, of which `left` are left; `toc` is what is in `tobuf`
before the cursor. -/
def channelLoop (cursor : Nat) : Nat → Nat → List (BitVec 16) → Option (List (BitVec 16))
  | 0, _, toc => some toc
  | left + 1, ic, toc =>
    if toc.length < selected then do
      let channel ← channels[ic + 1]?
      if channel ≠ 0 then do
        let x ← m[cursor + ic]?
        let y ← cut shr x
        channelLoop cursor left (ic + 1) (toc ++ [y])
      else channelLoop cursor left (ic + 1) toc
    else some toc

/-- The turn of a sample: what `tobuf` has then, and what has been written. -/
def sampleTurn (s : Option (List (BitVec 16) × List (BitVec 16))) (cursor : Nat) :
    Option (List (BitVec 16) × List (BitVec 16)) := do
  let (tobuf, fout) ← s
  let toc ← channelLoop channels selected shr m cursor nchan 0 []
  let tobuf := toc ++ tobuf.drop toc.length
  some (tobuf, fout ++ tobuf)

/-- `ChannelArchiver::process`; `junk` is in `tobuf` at first. -/
def process (junk : Nat → BitVec 16) : Option (List (BitVec 16)) := do
  let s ← Strides.loop (sampleTurn nchan channels selected shr m) nchan m.length (m.length + 1) 0
    (some ((List.range selected).map junk, []))
  s.map Prod.snd

end ChannelRange

end Acq400
