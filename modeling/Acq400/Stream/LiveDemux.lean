/-
The live demux of DB_REGULAR in `acq400_stream.cpp`: `DemuxBuffer<T, DB_REGULAR>`, where
`T` is `short` or `int`, and the event signatures of `ES.cpp` that it leaves out.

A buffer is its words from `src1` on, which is `pdata + start_off`, and `src` counts from
there; what is behind the end of the buffer is there too.  The version for `short` is the
general one without its search for the first channel, which is for `sizeof(T) == 4` only.
A channel's file in the making, from `dddata` to `ddcursors`, is the list of its words.  Its
array has a fixed length, and the demux goes on behind the end of it without a look; so does
the list, and a buffer with which that has happened leaves nothing to be said.

`reads` is not in the source: it records which words have been looked at.
-/
import Mathlib.Algebra.Group.Nat.Defs
import Mathlib.Logic.Function.Basic

namespace Acq400

/-- What the code asks of its type `T`; a `short` is not sign-extended here, as the bits above
it are always masked away. -/
class DemuxWord (T : Type) where
  sizeof : Nat
  toUnsigned : T → UInt32
  ofUnsigned : UInt32 → T
  sizeof_cases : sizeof = 2 ∨ sizeof = 4
  ofUnsigned_toUnsigned : ∀ x, ofUnsigned (toUnsigned x) = x

instance : DemuxWord UInt16 where
  sizeof := 2
  toUnsigned := UInt16.toUInt32
  ofUnsigned := UInt32.toUInt16
  sizeof_cases := Or.inl rfl
  ofUnsigned_toUnsigned := UInt16.toUInt16_toUInt32

instance : DemuxWord UInt32 where
  sizeof := 4
  toUnsigned := id
  ofUnsigned := id
  sizeof_cases := Or.inr rfl
  ofUnsigned_toUnsigned := fun _ => rfl

open DemuxWord

variable {T : Type} [DemuxWord T]

/-! ### Event signatures -/

def evxMagic : UInt32 := 0xaa55f150

def evxMask : UInt32 := 0xfffffff0

def isEsWord (word : UInt32) : Bool := word &&& evxMask == evxMagic

/-- `reinterpret_cast<unsigned*>(src)[ic]`, with `src` at word `p`. -/
def unsignedAt (src1 : Nat → T) (p ic : Nat) : UInt32 :=
  if sizeof T = 2 then
    toUnsigned (src1 (p + 2 * ic)) ||| toUnsigned (src1 (p + 2 * ic + 1)) <<< 16
  else toUnsigned (src1 (p + ic))

/-- The words of it. -/
def unsignedWords (T : Type) [DemuxWord T] (p ic : Nat) : List Nat :=
  if sizeof T = 2 then [p + 2 * ic, p + 2 * ic + 1] else [p + ic]

/-- The loop of `isES`, over the bits of `matches` that are left, at most `fuel` of them; with
the indices that it looks at. -/
def esLoop (cursor : Nat → UInt32) : Nat → Nat → Nat → Bool → Bool × List Nat
  | 0, _, _, isEs => (isEs, [])
  | fuel + 1, left, ic, isEs =>
    if left = 0 then (isEs, [])
    else if left % 2 ≠ 0 then
      if isEsWord (cursor ic) then
        let rest := esLoop cursor fuel (left / 2) (ic + 1) true
        (rest.1, ic :: rest.2)
      else (false, [ic])
    else esLoop cursor fuel (left / 2) (ic + 1) isEs

/-- `evX_instance`: the template argument MATCHES. -/
def evxMatches (isAcq480 : Bool) : Nat := if isAcq480 then 0x0a else 0x0f

/-! ### The demux -/

/-- The fields of a `DemuxBuffer` and the statics. -/
structure LiveDemux where
  nchan : Nat
  nchanES : Nat
  mask : Nat → UInt32
  showEs : Bool
  isAcq480 : Bool
  /-- The environment has NOSID. -/
  nosid : Bool
  demuxSize : Nat
  /-- `buffer_len` of the `DemuxBuffer` that is made first. -/
  firstLen : Nat
  nbCat : Nat

/-- `ddcursors` and `startchan`, which are static, and the files of the last channels finished. -/
structure LiveOut (T : Type) where
  dddata : Nat → List T
  startchan : Nat
  files : List (List T)

/-- The local variables of `demux`. -/
structure Sweep (T : Type) where
  src : Nat
  ichan : Nat
  dddata : Nat → List T
  reads : List Nat

namespace LiveDemux

/-- `evX.isES(src)`, and the words that it looks at. -/
def isES (d : LiveDemux) (src1 : Nat → T) (p : Nat) : Bool × List Nat :=
  let r := esLoop (unsignedAt src1 p) 32 (evxMatches d.isAcq480) 0 false
  (r.1, r.2.flatMap (unsignedWords T p))

def idMask (d : LiveDemux) : UInt32 := if d.nosid then 0x1f else 0xff

def chId (d : LiveDemux) (data : T) : UInt32 := toUnsigned data &&& d.idMask

def dataFitsBuffer (T : Type) [DemuxWord T] (d : LiveDemux) (bufferLen : Nat) : Bool :=
  decide (bufferLen / sizeof T / d.nchan * sizeof T * d.nchan = bufferLen)

/-- The conjunction of the search, for the ids that are left. -/
def alignedFrom (d : LiveDemux) (src1 : Nat → T) : List UInt32 → Nat → Bool × List Nat
  | [], _ => (true, [])
  | id :: ids, p =>
    if d.chId (src1 p) = id &&& d.idMask then
      let rest := alignedFrom d src1 ids (p + 1)
      (rest.1, p :: rest.2)
    else (false, [p])

/-- `ch_id(src[0]) == ch_id(0x20) && ...`. -/
def aligned (d : LiveDemux) (src1 : Nat → T) (p : Nat) : Bool × List Nat :=
  alignedFrom d src1 [0x20, 0x21, 0x22, 0x23] p

/-- The search for the first channel, for at most `fuel` turns; `none` is the failure. -/
def search (d : LiveDemux) (src1 : Nat → T) : Nat → Nat → List Nat → Option Nat × List Nat
  | 0, _, reads => (none, reads)
  | fuel + 1, src, reads =>
    let test := d.aligned src1 src
    let reads := reads ++ test.2
    if test.1 then (some src, reads)
    else if 256 < src then (none, reads)
    else search d src1 fuel (src + 1) reads

/-- Where the demux begins, and what has been looked at to find it. -/
def channelAlign (d : LiveDemux) (bufferLen : Nat) (start : Bool) (src1 : Nat → T) :
    Option Nat × List Nat :=
  if sizeof T = 4 ∧ start = true ∧ dataFitsBuffer T d bufferLen = false then
    d.search src1 258 0 []
  else (some 0, [])

/-- `*ddcursors[ichan]++ = (*src++)&mask[ichan]`. -/
def copyWord (d : LiveDemux) (src1 : Nat → T) (s : Sweep T) : Sweep T :=
  { s with
    src := s.src + 1
    dddata := Function.update s.dddata s.ichan
      (s.dddata s.ichan ++ [ofUnsigned (toUnsigned (src1 s.src) &&& d.mask s.ichan)])
    reads := s.reads ++ [s.src] }

/-- `for (; ichan < nchan; ++ichan)` with `left` channels left; it says whether the buffer has
ended. -/
def copyChans (d : LiveDemux) (src1 : Nat → T) (tlen : Nat) : Nat → Sweep T → Bool × Sweep T
  | 0, s => (false, s)
  | left + 1, s =>
    let s := d.copyWord src1 s
    if tlen ≤ s.src then
      (true, { s with ichan := if d.nchan ≤ s.ichan + 1 then 0 else s.ichan + 1 })
    else copyChans d src1 tlen left { s with ichan := s.ichan + 1 }

/-- `if (!show_es && evX.isES(...)) src += nchan_es`. -/
def skipES (d : LiveDemux) (src1 : Nat → T) (s : Sweep T) : Sweep T :=
  if d.showEs then s
  else
    let test := d.isES src1 s.src
    { s with
      src := if test.1 then s.src + d.nchanES else s.src
      reads := s.reads ++ test.2 }

/-- `for (isam = startoff/nchan; true; ++isam, ichan = 0)`, for at most `fuel` turns. -/
def demuxLoop (d : LiveDemux) (src1 : Nat → T) (tlen : Nat) : Nat → Sweep T → Option (Sweep T)
  | 0, _ => none
  | fuel + 1, s =>
    let turn := d.copyChans src1 tlen (d.nchan - s.ichan) (d.skipES src1 s)
    if turn.1 then some turn.2 else demuxLoop d src1 tlen fuel { turn.2 with ichan := 0 }

/-- `demux`: what it returns, and what it has read; `none` where the loop would not end. -/
def demux (d : LiveDemux) (bufferLen : Nat) (start : Bool) (src1 : Nat → T) (len : Nat)
    (out : LiveOut T) : Option (Bool × LiveOut T × List Nat) :=
  let tlen := len / sizeof T
  let begin := d.channelAlign bufferLen start src1
  match begin.1 with
  | none => some (true, out, begin.2)
  | some src =>
    (d.demuxLoop src1 tlen (tlen + 1)
      { src := src, ichan := out.startchan, dddata := out.dddata, reads := begin.2 }).map fun s =>
        (false, { out with dddata := s.dddata, startchan := s.ichan }, s.reads)

def start (d : LiveDemux) (out : LiveOut T) : LiveOut T :=
  { out with
    dddata := fun ic => if ic < d.nchan then [] else out.dddata ic
    startchan := 0 }

/-- `writeChan` for every channel, and `finish`. -/
def finish (d : LiveDemux) (out : LiveOut T) : LiveOut T :=
  { out with files := (List.range d.nchan).map out.dddata }

/-- `nsam*nb_cat`: the length of the arrays, which the first `DemuxBuffer` makes for all. -/
def room (T : Type) [DemuxWord T] (d : LiveDemux) : Nat :=
  d.firstLen / sizeof T / d.nchan * d.nbCat

/-- A word has been written behind the end of its array. -/
def overrun (d : LiveDemux) (out : LiveOut T) : Bool :=
  (List.range d.nchan).any fun ic => decide (d.room T < (out.dddata ic).length)

/-- `writeBuffer` of a buffer whose words are `pdata`, with BO_START and BO_FINISH. -/
def writeBuffer (d : LiveDemux) (boStart boFinish : Bool) (bufferLen : Nat) (pdata : Nat → T)
    (out : LiveOut T) : Option (Nat × LiveOut T) :=
  let demuxLen := if d.demuxSize ≠ 0 then d.demuxSize else bufferLen
  let out := if boStart then d.start out else out
  (d.demux bufferLen boStart pdata demuxLen out).bind fun (_, out, _) =>
    if d.overrun out then none else some (demuxLen, if boFinish then d.finish out else out)

end LiveDemux

end Acq400
