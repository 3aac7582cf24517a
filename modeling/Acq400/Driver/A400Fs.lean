/-
The data files of a capture (`acq400_fs.c`): the raw file, the channel files of
demuxed data and the channel files of data that has not been demuxed.

`FSN` and `CAPDAT` are one record here, with what the files use of the device of
site 0.  A read gives the value it returns and what it has copied to the user; it
is `none` where the arithmetic has no defined value.  `copy_to_user` succeeds.
The contents of what `kmalloc` returns are whatever they are: an open file has
them for all its allocations to come.
-/
import Acq400.Lib.CInt
import Acq400.Lib.Reads

namespace Acq400

open CInt Reads

/-- `struct InodeMap`; channel 0 is `XX`, the raw file. -/
structure InodeMap where
  adev : Nat
  site : Nat
  channel : Nat

/-- `FSN.site0->adev`, `CAPDAT` and the module parameter `pcomp`. -/
structure A400Fs where
  bufferlen : Nat
  nbuffers : Nat
  wordSize : Nat
  isCooked : Bool
  nsamples : Nat
  nchan : Nat
  pcomp : Int
  /-- `aggregator_set`, by devices. -/
  aggregatorSet : List (Option Nat)
  /-- `nchan_enabled` of a device. -/
  nchanEnabled : Nat → Nat
  /-- The bytes from `hb[ibuf]->va` on. -/
  hb : Int → Int → UInt8

/-- `struct A400_FS_PDESC` and the file it is the private data of. -/
structure A400FsPdesc where
  map : InodeMap
  wordOffset : Int
  /-- `unsigned`. -/
  bufferOffset : Int
  stride : Int
  lbufLen : Int
  lbuf : Option (Nat → UInt8)
  /-- The file position. -/
  offset : Int
  /-- What is in the memory that `kmalloc` will return. -/
  heap : Nat → Nat → UInt8

/-- What a read returns, what it has copied and the file after it. -/
structure ReadRc where
  rc : Int
  copied : List UInt8
  file : A400FsPdesc

/-- `ENODEV`, `ENOMEM`. -/
def eNoDev : Int := 19

def eNoMem : Int := 12

namespace A400Fs

variable (fs : A400Fs)

/-- `raw_offset_w`, from an element of `aggregator_set` on. -/
def rawOffsetFrom (nchanEnabled : Nat → Nat) (map : InodeMap) : List (Option Nat) → Int → Int
  | [], _ => -1
  | none :: rest, offset => rawOffsetFrom nchanEnabled map rest offset
  | some adev :: rest, offset =>
    if adev = map.adev then offset
    else rawOffsetFrom nchanEnabled map rest (offset + nchanEnabled adev)

def rawOffsetW (map : InodeMap) : Int := rawOffsetFrom fs.nchanEnabled map fs.aggregatorSet 0

def chanOffsetW (map : InodeMap) : Int :=
  let rawOff := fs.rawOffsetW map
  if rawOff ≥ 0 then rawOff + map.channel - 1 else rawOff

def getBufferOffsetB (wordOffset : Int) : Option Int :=
  (value (wordOffset * fs.bufferlen)).bind fun offset => div offset fs.nchan

/-- `a400fs_open_chan_file_muxdata`. -/
def openChanFileMuxdata (pd : A400FsPdesc) : Option A400FsPdesc :=
  (value (pd.wordOffset * fs.wordSize)).map fun offset =>
    { pd with bufferOffset := unsigned offset, stride := fs.nchan }

/-- `a400fs_open`; `none` for a negative return. -/
def a400fsOpen (map : InodeMap) (heap : Nat → Nat → UInt8) : Option A400FsPdesc :=
  let pd : A400FsPdesc :=
    { map := map, wordOffset := 0, bufferOffset := 0, stride := 0, lbufLen := 0, lbuf := none,
      offset := 0, heap := heap }
  if map.channel = 0 then
    (fs.getBufferOffsetB pd.wordOffset).map fun offset =>
      { pd with bufferOffset := unsigned offset, stride := 1 }
  else
    let pd := { pd with wordOffset := fs.chanOffsetW map }
    if pd.wordOffset < 0 then none
    else if !fs.isCooked then fs.openChanFileMuxdata pd
    else
      (fs.getBufferOffsetB pd.wordOffset).map fun offset =>
        { pd with bufferOffset := unsigned offset, stride := 1 }

/-- `if (count > headroom) count = headroom`, with an `int` headroom. -/
def clip (count : Nat) (headroom : Int) : Nat :=
  if unsigned headroom < count then (unsigned headroom).toNat else count

/-- `k` bytes from `bp + cursor`. -/
def bytesAt (bp : Int → UInt8) (cursor : Int) (k : Nat) : List UInt8 :=
  cells (fun i : Nat => bp (cursor + i)) 0 k

/-- `_a400fs_read_raw_file`. -/
def _readRawFile (file : A400FsPdesc) (count : Nat) : Option ReadRc := do
  let foffset := wrap file.offset
  let ibuf ← div foffset fs.bufferlen
  let buffOffset := foffset - ibuf * fs.bufferlen
  let bufHeadroom := fs.bufferlen - buffOffset
  let setlen ← value ((fs.nsamples * fs.wordSize : Nat) : Int)
  let setlen ← value (setlen * fs.nchan)
  let setHeadroom ← value (setlen - foffset)
  let headroom := min bufHeadroom setHeadroom
  if setHeadroom ≤ 0 then
    return ⟨0, [], file⟩
  else if ¬(ibuf ≥ 0 ∨ ibuf < fs.nbuffers) then
    return ⟨-1, [], file⟩
  else
    let count := clip count headroom
    return ⟨count, bytesAt (fs.hb ibuf) buffOffset count,
      { file with offset := file.offset + count }⟩

/-- `a400fs_read_raw_file`. -/
def readRawFile (file : A400FsPdesc) (count : Nat) : Option ReadRc :=
  if fs.bufferlen ≠ 0 then fs._readRawFile file count else some ⟨-1, [], file⟩

/-- `memcpy` of a word to `lbuf+iw*wsize` from `src+iw*stride*wsize`. -/
def putWord (wsize : Nat) (src : Int → UInt8) (stride : Int) (lbuf : Nat → UInt8) (iw : Nat) :
    Nat → UInt8 := fun i =>
  if iw * wsize ≤ i ∧ i < iw * wsize + wsize then
    src (iw * stride * wsize + (i - iw * wsize : Nat))
  else lbuf i

/-- The words that are copied to `lbuf` one after the other. -/
def putWords (wsize : Nat) (src : Int → UInt8) (stride : Int) (wcount : Nat)
    (lbuf : Nat → UInt8) : Nat → UInt8 :=
  (List.range wcount).foldl (putWord wsize src stride) lbuf

/-- `cp_muxdata_lbuf_int32_t`, with the pointers as pointers to bytes. -/
def cpMuxdataLbufInt32 (dst : Nat → UInt8) (src : Int → UInt8) (headsam : Nat) (stride : Int) :
    Nat → UInt8 := putWords 4 src stride headsam dst

/-- `cp_muxdata_lbuf_int16_t`. -/
def cpMuxdataLbufInt16 (dst : Nat → UInt8) (src : Int → UInt8) (headsam : Nat) (stride : Int) :
    Nat → UInt8 := putWords 2 src stride headsam dst

/-- `kmalloc`, and the memory that is left for the next one. -/
def kmalloc (pd : A400FsPdesc) : (Nat → UInt8) × A400FsPdesc :=
  (pd.heap 0, { pd with heap := fun n => pd.heap (n + 1) })

/-- `a400fs_read_chan_file`. -/
def readChanFile (file : A400FsPdesc) (count : Nat) : Option ReadRc := do
  let _foffset := wrap file.offset
  let foffset := if _foffset = 0 then fs.pcomp else _foffset
  let bufferlen ← div fs.bufferlen fs.nchan
  let ibuf ← div foffset bufferlen
  let buffOffset := foffset - ibuf * bufferlen
  let bufHeadroom := bufferlen - buffOffset
  let setlen ← value ((fs.nsamples * fs.wordSize : Nat) : Int)
  let setHeadroom ← value (setlen + fs.pcomp - foffset)
  let cursor := wrap (buffOffset + file.bufferOffset)
  let headroom := min bufHeadroom setHeadroom
  let file :=
    if _foffset = 0 ∧ fs.pcomp ≠ 0 then { file with offset := file.offset + fs.pcomp } else file
  if file.map.channel > fs.nchanEnabled file.map.adev then
    return ⟨-1, [], file⟩
  else if setHeadroom ≤ 0 then
    return ⟨0, [], file⟩
  else if ¬(ibuf ≥ 0 ∨ ibuf < fs.nbuffers) then
    return ⟨-eNoMem, [], file⟩
  else
    let bp := fs.hb ibuf
    let count := clip count headroom
    if file.stride = 1 then
      return ⟨count, bytesAt bp cursor count, { file with offset := file.offset + count }⟩
    else
      -- the lbuf, allocated by the first read and never made longer
      let (lbuf, count, file) := match file.lbuf with
        | none =>
          let (lbuf, pd) := kmalloc file
          (lbuf, count, { pd with lbufLen := count })
        | some lbuf => (lbuf, clip count file.lbufLen, file)
      let samples ← div count (unsigned file.stride)
      let wcount ← div samples fs.wordSize
      let lbuf := putWords fs.wordSize (fun i => bp (cursor + i)) file.stride wcount.toNat lbuf
      return ⟨samples, cells lbuf 0 (wcount.toNat * fs.wordSize),
        { file with lbuf := some lbuf, offset := file.offset + samples * unsigned file.stride }⟩

/-- `pd->lbuf`, in its place a longer one when it is too short for `count` bytes. -/
def growLbuf (file : A400FsPdesc) (count : Nat) : (Nat → UInt8) × A400FsPdesc :=
  if (count : Int) > unsigned file.lbufLen then
    let (lbuf, pd) := kmalloc file
    (lbuf, { pd with lbufLen := wrap count })
  else
    (file.lbuf.getD fun _ => 0, file)

/-- `count` and `headsam` after `count` and `headcount` have been compared. -/
def clipSamples (wordSize count : Nat) (headsam headcount : Int) : Option (Nat × Int) :=
  if unsigned headcount < count then
    some ((unsigned headcount).toNat, headsam)
  else if count < unsigned headcount then
    (div (wrap count) wordSize).map fun headsam => (count, headsam)
  else
    some (count, headsam)

/-- `a400fs_read_chan_file_muxdata`. -/
def readChanFileMuxdata (file : A400FsPdesc) (count : Nat) : Option ReadRc := do
  let ssb ← value ((fs.nchan * fs.wordSize : Nat) : Int)
  let file := if file.offset = 0 then { file with offset := file.offset + fs.pcomp } else file
  let foffset := wrap file.offset
  let fsam ← div foffset fs.wordSize
  let bufferSam ← div fs.bufferlen ssb
  let ibuf ← div fsam bufferSam
  let buffOffsetSam := fsam - ibuf * bufferSam
  let bufHeadsam := bufferSam - buffOffsetSam
  let buffOffset := wrap (buffOffsetSam * ssb + file.bufferOffset)
  let buffOffsetW ← div buffOffset fs.wordSize
  let setHeadsam ← value (fs.nsamples - fsam)
  let headsam := min bufHeadsam setHeadsam
  let headcount ← value (headsam * fs.wordSize)
  let (count, headsam) ← clipSamples fs.wordSize count headsam headcount
  if file.map.channel > fs.nchanEnabled file.map.adev then
    return ⟨-eNoDev, [], file⟩
  else if headsam ≤ 0 then
    return ⟨0, [], file⟩
  else if ¬(ibuf ≥ 0 ∧ ibuf < fs.nbuffers) then
    return ⟨-eNoMem, [], file⟩
  else if fs.wordSize ≠ 2 ∧ fs.wordSize ≠ 4 then
    return ⟨-eNoDev, [], file⟩
  else
    let (lbuf, file) := growLbuf file count
    let src := fun i => fs.hb ibuf (buffOffsetW * fs.wordSize + i)
    let lbuf :=
      if fs.wordSize = 2 then cpMuxdataLbufInt16 lbuf src headsam.toNat file.stride
      else cpMuxdataLbufInt32 lbuf src headsam.toNat file.stride
    return ⟨count, cells lbuf 0 count,
      { file with lbuf := some lbuf, offset := file.offset + count }⟩

/-- A read as its caller sees it: the bytes and the file, or a failure. -/
def asRead (r : Option ReadRc) : Option (List UInt8 × A400FsPdesc) :=
  r.bind fun r => if r.rc < 0 then none else some (r.copied, r.file)

/-- A read as its client has it: `buf`, in which `user` was, as far as the read says that it has
been filled. -/
def asClient (user : Nat → UInt8) (r : Option ReadRc) : Option (List UInt8 × A400FsPdesc) :=
  r.bind fun r =>
    if r.rc < 0 then none
    else some (r.copied ++ cells user r.copied.length (r.rc.toNat - r.copied.length), r.file)

def acq400FsStride : Nat := 0xa400f001

/-- `a400fs_unlocked_ioctl`: what it returns, and the file. -/
def a400fsUnlockedIoctl (file : A400FsPdesc) (cmd arg : Nat) : Int × A400FsPdesc :=
  if cmd = acq400FsStride then (0, { file with stride := wrap arg }) else (-eNoDev, file)

end A400Fs

end Acq400
