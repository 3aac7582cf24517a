/-
The memory of the pulse generator through its device node (`acq400_ui.c`): `acq400_gpgmem_open`,
`acq400_gpgmem_read`, `acq400_gpgmem_write`, `set_gpg_top` and `acq400_gpgmem_release`.

The position of a file counts bytes, and `gpg_buffer` is a pointer to words.  Its memory goes on
behind the 4096 bytes that `init_gpg_buffer` allocates, and belongs to others there.  Copies from
and to the user succeed.
-/
import Acq400.Awg.LoadPad
import Acq400.Lib.Reads
import Acq400.Stream.FindEvent

namespace Acq400

/-- `struct GPG_buffer`, and the control register. -/
structure GpgBuffer where
  /-- Memory, by bytes from `gpg_buffer` on. -/
  gpgBuffer : Mem
  gpgCursor : Nat
  gpgUsedBits : UInt32
  gpgFinalState : UInt32
  /-- What has been written to `gpg_base`, by words and in order. -/
  gpgBase : List (Nat × UInt32)
  /-- `GPG_CONTROL`, or `DIO482_PG_GPGCR`. -/
  gpgCr : UInt32

/-- An open file. -/
structure GpgFile where
  gpg : GpgBuffer
  fPos : Nat
  /-- Where `copy_from_user` has stored bytes, and how many. -/
  stored : List (Nat × Nat)

/-- The bytes that `init_gpg_buffer` allocates. -/
def gpgBufferSize : Nat := 4096

def gpgMemActual : Nat := 0x800

def gpgCtrlTopaddrShl : UInt32 := 20

def gpgCtrlTopaddr : UInt32 := 0x1ff00000

namespace GpgBuffer

variable (gpg : GpgBuffer)

def initGpgBuffer : GpgBuffer :=
  { gpg with
    gpgBuffer := fun a => if a < gpgBufferSize then 0 else gpg.gpgBuffer a
    gpgCursor := 0 }

/-- `gpg_buffer[iw]`. -/
def word (iw : Nat) : UInt32 := gpg.gpgBuffer.load32 (4 * iw)

/-- `iowrite32(value, gpg_base + iw)`. -/
def iowrite32 (value : UInt32) (iw : Nat) : GpgBuffer :=
  { gpg with gpgBase := gpg.gpgBase ++ [(iw, value)] }

/-- `acq400_gpgmem_open`, to write or to read. -/
def acq400GpgmemOpen (wronly : Bool) : GpgFile :=
  let opened :=
    if wronly then
      { (List.range gpg.gpgCursor).foldl (fun gpg iw => gpg.iowrite32 0 iw) gpg with
        gpgCursor := 0 }
    else gpg
  { gpg := opened, fPos := 0, stored := [] }

/-- `set_gpg_top`: what it returns, and the buffer. -/
def setGpgTop (gpgCount : Nat) : Int × GpgBuffer :=
  if gpgCount ≥ 2 then
    let gpgTop := (UInt32.ofNat (gpgCount - 1 - 1) <<< gpgCtrlTopaddrShl) &&& gpgCtrlTopaddr
    (0, { gpg with gpgCr := (gpg.gpgCr &&& ~~~gpgCtrlTopaddr) ||| gpgTop })
  else (-1, gpg)

/-- A turn of the loop of `acq400_gpgmem_release`. -/
def releaseEntry (iw : Nat) : GpgBuffer :=
  let stlEntry := gpg.word iw
  let stlState := stlEntry &&& 0x000000ff
  { gpg.iowrite32 stlEntry iw with
    gpgFinalState := stlState
    gpgUsedBits := gpg.gpgUsedBits ||| stlState }

/-- `acq400_gpgmem_release`, of the file of `ACQ400_MINOR_GPGMEM32` or of the other. -/
def acq400GpgmemRelease (gpg32 : Bool) : GpgBuffer :=
  if gpg32 then
    (List.range gpg.gpgCursor).foldl (fun gpg iw => gpg.iowrite32 (gpg.word iw) iw) gpg
  else
    let released := (List.range gpg.gpgCursor).foldl releaseEntry { gpg with gpgUsedBits := 0 }
    (released.setGpgTop gpg.gpgCursor).2

end GpgBuffer

namespace GpgFile

variable (f : GpgFile)

/-- `acq400_gpgmem_read`: what is read, and the file behind it. -/
def acq400GpgmemRead (count : Nat) : List UInt8 × GpgFile :=
  let len := f.gpg.gpgCursor * 4 % 2 ^ 32
  let bcursor := f.fPos % 2 ^ 32
  if bcursor ≥ len then ([], f)
  else
    let headroom := len - bcursor
    let count := min count headroom
    -- `gpg->gpg_buffer+bcursor` is `bcursor` words on
    (Reads.cells f.gpg.gpgBuffer (4 * bcursor) count, { f with fPos := f.fPos + count })

/-- `acq400_gpgmem_write`: what it returns, and the file behind it. -/
def acq400GpgmemWrite (buf : List UInt8) : Nat × GpgFile :=
  let len := gpgMemActual
  let bcursor := f.fPos % 2 ^ 32
  if bcursor ≥ len then (0, f)
  else
    let headroom := len - bcursor
    let count := min buf.length headroom
    (count,
      { gpg :=
          { f.gpg with
            gpgBuffer := memcpy f.gpg.gpgBuffer (4 * bcursor) (fun k => buf.getD k 0) count
            gpgCursor := (f.gpg.gpgCursor + count / 4) % 2 ^ 32 }
        fPos := f.fPos + count
        stored := f.stored ++ [(4 * bcursor, count)] })

end GpgFile

end Acq400
