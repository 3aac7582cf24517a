/-
Buffers written to files: `acq400_stream_disk.cpp`.

A destination is its place among the arguments, a directory the number it has there, and a file the
number of the buffer that it was opened for.  The directories that there are already are given.
-/
import Mathlib.Data.List.Basic

namespace Acq400

namespace StreamDisk

structure Config where
  filesdir : Nat
  concat : Nat
  nbuffers : Nat
  ndest : Nat

structure File (β : Type) where
  dest : Nat
  cycle : Nat
  ibuf : Nat
  data : List β
deriving DecidableEq, Repr

/-- What is asked of the file system. -/
inductive Op
  | mkdir (dest cycle : Nat)
  | fopen (dest cycle ibuf : Nat)
deriving DecidableEq, Repr

/-- `icat`, `fileno` and what has been done; `fp` is the file that has been opened last. -/
structure Disk (β : Type) where
  icat : Nat
  fileno : Nat
  ops : List Op
  files : List (File β)
  exited : Bool

variable {β : Type} (cfg : Config) (pre : Nat → Nat → Bool)

/-- `fopen`, which needs the directory; `_exit` without it. -/
def Disk.fopen (s : Disk β) (dest cycle ibuf : Nat) : Disk β :=
  let s' : Disk β := { s with ops := s.ops ++ [.fopen dest cycle ibuf] }
  if pre dest cycle ∨ .mkdir dest cycle ∈ s.ops then
    { s' with files := s.files ++ [{ dest := dest, cycle := cycle, ibuf := ibuf, data := [] }] }
  else { s' with exited := true }

def Disk.fwrite (s : Disk β) (buf : β) : Disk β :=
  { s with files := s.files.modifyLast fun fp => { fp with data := fp.data ++ [buf] } }

/-- `processBuffer`, of which nothing is left once the program has left. -/
def processBuffer (s : Disk β) (dest ibuf : Nat) (buf : β) : Disk β :=
  if s.exited then s
  else
    let cycle := s.fileno / cfg.filesdir
    let newCycle := s.fileno % cfg.filesdir
    let s : Disk β := if newCycle = 0 then { s with ops := s.ops ++ [.mkdir dest cycle] } else s
    let s : Disk β := if s.icat = 0 then s.fopen pre dest cycle ibuf else s
    if s.exited then s
    else
      let s := s.fwrite buf
      if s.icat + 1 ≥ cfg.concat then { s with icat := 0, fileno := s.fileno + 1 }
      else { s with icat := s.icat + 1 }

/-- `process`, of the whole buffers that are read. -/
def process : List β → Nat → Disk β → Disk β
  | [], _, s => s
  | buf :: input, ibuf, s =>
    let s := (List.range cfg.ndest).foldl (fun s id => processBuffer cfg pre s id ibuf buf) s
    if ibuf + 1 > cfg.nbuffers then s else process input (ibuf + 1) s

/-- What there is at first. -/
def start : Disk β := { icat := 0, fileno := 0, ops := [], files := [], exited := false }

end StreamDisk

end Acq400
