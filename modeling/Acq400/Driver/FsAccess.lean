/-
What the data files of a capture reach of the buffers (`acq400_fs.c`), whatever `CAPDAT` is.

Here `CAPDAT` is what the control file has made of it, and the device of site 0 is apart from it.
An open or a read gives the places that it reads; it is `none` where the arithmetic has no defined
value.  `kmalloc` and `copy_to_user` succeed.  Where a word is, `iw*stride*wsize` on from the first,
is exact here: an `int` that overflows would be a place behind every buffer.
-/
import Acq400.Driver.A400Fs
import Acq400.Driver.FsControl

namespace Acq400

open CInt

/-- `hb[ibuf]` is read, `len` bytes from `start` on. -/
structure HbAccess where
  ibuf : Int
  start : Int
  len : Nat
  deriving DecidableEq

/-- `FSN.site0->adev` and the module parameters. -/
structure FsDevice where
  bufferlen : Nat
  nbuffers : Nat
  wordSize : Nat
  pcomp : Int
  dmaCacheInvalidateLimit : Int
  /-- `aggregator_set`, by devices. -/
  aggregatorSet : List (Option Nat)
  /-- `nchan_enabled` of a device. -/
  nchanEnabled : Nat → Nat
  bufferlen_pos : 0 < bufferlen
  bufferlen_lt : bufferlen < 2 ^ 30
  wordSize_pos : 0 < wordSize
  wordSize_lt : wordSize < 2 ^ 8
  inRange_pcomp : InRange pcomp

namespace FsDevice

variable (dev : FsDevice) (capdat : CaptureData)

/-- `a/b` of two `int`, which may be one more than the last `int`. -/
def quot (a b : Int) : Option Int := (div a b).bind value

def chanOffsetW (map : InodeMap) : Int :=
  let rawOff := A400Fs.rawOffsetFrom dev.nchanEnabled map dev.aggregatorSet 0
  if rawOff ≥ 0 then rawOff + map.channel - 1 else rawOff

def getBufferOffsetB (wordOffset : Int) : Option Int :=
  (value (wordOffset * dev.bufferlen)).bind fun offset => quot offset capdat.nchan

/-- `a400fs_open`, and `a400fs_open_chan_file_muxdata` where it goes on to it; `some none` for a
negative return. -/
def a400fsOpen (map : InodeMap) (heap : Nat → Nat → UInt8) : Option (Option A400FsPdesc) :=
  let pd : A400FsPdesc :=
    { map := map, wordOffset := 0, bufferOffset := 0, stride := 0, lbufLen := 0, lbuf := none,
      offset := 0, heap := heap }
  if map.channel = 0 then
    (dev.getBufferOffsetB capdat pd.wordOffset).map fun offset =>
      some { pd with bufferOffset := unsigned offset, stride := 1 }
  else
    let pd := { pd with wordOffset := dev.chanOffsetW map }
    if pd.wordOffset < 0 then some none
    else if capdat.isCooked = 0 then
      (value (pd.wordOffset * dev.wordSize)).map fun offset =>
        some { pd with bufferOffset := unsigned offset, stride := capdat.nchan }
    else
      (dev.getBufferOffsetB capdat pd.wordOffset).map fun offset =>
        some { pd with bufferOffset := unsigned offset, stride := 1 }

/-- The buffers that `_a400fs_open_raw` hands to the cpu, from `ibuf` on. -/
def syncFrom (dev : FsDevice) (setlen : Int) (ibuf : Nat) : Option (List HbAccess) :=
  if _h : ((ibuf * dev.bufferlen : Nat) : Int) ≤ setlen then
    (value (ibuf * dev.bufferlen : Nat)).bind fun _ =>
      (syncFrom dev setlen (ibuf + 1)).map ({ ibuf := ibuf, start := 0, len := dev.bufferlen } :: ·)
  else (value (ibuf * dev.bufferlen : Nat)).bind fun _ => some []
termination_by (setlen + 1 - (ibuf * dev.bufferlen : Nat)).toNat
decreasing_by
  have := dev.bufferlen_pos
  rw [Nat.succ_mul]
  omega

/-- `setlen` of `_a400fs_open_raw`, after it has been limited. -/
def syncLen (setlen : Int) : Int :=
  if dev.dmaCacheInvalidateLimit ≠ -1 ∧ setlen > dev.dmaCacheInvalidateLimit then
    dev.dmaCacheInvalidateLimit
  else setlen

def _a400fsOpenRaw : Option (List HbAccess) := do
  let setlen ← value (capdat.nsamples * dev.wordSize)
  let setlen ← value (setlen * capdat.nchan)
  dev.syncFrom (dev.syncLen setlen) 0

/-- The open of a file, the raw one by `a400fs_open_raw`: what is reached, and the file. -/
def openFile (map : InodeMap) (heap : Nat → Nat → UInt8) (reading : Bool) :
    Option (List HbAccess × Option A400FsPdesc) :=
  (dev.a400fsOpen capdat map heap).bind fun file =>
    if map.channel = 0 ∧ reading = true then
      (dev._a400fsOpenRaw capdat).map fun accesses => (accesses, file)
    else some ([], file)

/-- `_a400fs_read_raw_file`. -/
def _readRawFile (file : A400FsPdesc) (count : Nat) : Option (List HbAccess) := do
  let foffset := wrap file.offset
  let ibuf ← quot foffset dev.bufferlen
  let buffOffset := foffset - ibuf * dev.bufferlen
  let bufHeadroom := dev.bufferlen - buffOffset
  let setlen ← value (capdat.nsamples * dev.wordSize)
  let setlen ← value (setlen * capdat.nchan)
  let setHeadroom ← value (setlen - foffset)
  let headroom := min bufHeadroom setHeadroom
  if setHeadroom ≤ 0 then return []
  else if ¬(ibuf ≥ 0 ∨ ibuf < dev.nbuffers) then return []
  else return [⟨ibuf, buffOffset, A400Fs.clip count headroom⟩]

/-- The words that are read one by one, `stride` words apart. -/
def strided (dev : FsDevice) (ibuf start stride : Int) (n : Nat) : List HbAccess :=
  (List.range n).map fun iw : Nat =>
    { ibuf := ibuf, start := start + iw * (stride * dev.wordSize), len := dev.wordSize }

/-- What `a400fs_read_chan_file` copies; `hb[ibuf]` is looked up for no words too. -/
def copyChan (file : A400FsPdesc) (ibuf cursor : Int) (count : Nat) : Option (List HbAccess) :=
  if file.stride = 1 then some [⟨ibuf, cursor, count⟩]
  else do
    -- no more than the `lbuf` of the first read can take
    let count := if file.lbuf.isSome then A400Fs.clip count file.lbufLen else count
    let samples ← div count (unsigned file.stride)
    let wcount ← div samples dev.wordSize
    return ⟨ibuf, cursor, 0⟩ :: dev.strided ibuf cursor file.stride wcount.toNat

/-- `a400fs_read_chan_file`. -/
def readChanFile (file : A400FsPdesc) (count : Nat) : Option (List HbAccess) := do
  let _foffset := wrap file.offset
  let foffset := if _foffset = 0 then dev.pcomp else _foffset
  let bufferlen ← quot dev.bufferlen capdat.nchan
  let ibuf ← quot foffset bufferlen
  let buffOffset := foffset - ibuf * bufferlen
  let bufHeadroom := bufferlen - buffOffset
  let setlen ← value (capdat.nsamples * dev.wordSize)
  let setlen ← value (setlen + dev.pcomp)
  let setHeadroom ← value (setlen - foffset)
  let cursor := wrap (buffOffset + file.bufferOffset)
  let headroom := min bufHeadroom setHeadroom
  if file.map.channel > dev.nchanEnabled file.map.adev then return []
  else if setHeadroom ≤ 0 then return []
  else if ¬(ibuf ≥ 0 ∨ ibuf < dev.nbuffers) then return []
  else dev.copyChan file ibuf cursor (A400Fs.clip count headroom)

/-- `a400fs_read_chan_file_muxdata`. -/
def readChanFileMuxdata (file : A400FsPdesc) (count : Nat) : Option (List HbAccess) := do
  let ssb ← value (capdat.nchan * dev.wordSize)
  let foffset := wrap (if file.offset = 0 then file.offset + dev.pcomp else file.offset)
  let fsam ← quot foffset dev.wordSize
  let bufferSam ← quot dev.bufferlen ssb
  let ibuf ← quot fsam bufferSam
  let buffOffsetSam := fsam - ibuf * bufferSam
  let bufHeadsam := bufferSam - buffOffsetSam
  let buffOffset := wrap (buffOffsetSam * ssb + file.bufferOffset)
  let buffOffsetW ← quot buffOffset dev.wordSize
  let setHeadsam ← value (capdat.nsamples - fsam)
  let headsam := min bufHeadsam setHeadsam
  let headcount ← value (headsam * dev.wordSize)
  let (_, headsam) ← A400Fs.clipSamples dev.wordSize count headsam headcount
  if file.map.channel > dev.nchanEnabled file.map.adev then return []
  else if headsam ≤ 0 then return []
  else if ¬(ibuf ≥ 0 ∧ ibuf < dev.nbuffers) then return []
  else if dev.wordSize ≠ 2 ∧ dev.wordSize ≠ 4 then return []
  else return dev.strided ibuf (buffOffsetW * dev.wordSize) file.stride headsam.toNat

/-- A read of a file, by the operations that an open under `atOpen` has left it with. -/
def readFile (atOpen : CaptureData) (file : A400FsPdesc) (count : Nat) :
    Option (List HbAccess) :=
  if file.map.channel = 0 then dev._readRawFile capdat file count
  else if atOpen.isCooked = 0 then dev.readChanFileMuxdata capdat file count
  else dev.readChanFile capdat file count

end FsDevice

end Acq400
