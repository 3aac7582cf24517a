/-
The composer of AWG patterns (`awg_composer.cpp`): `Segment::factory`, `ConcreteSegment`, and the
loops of `main`, without `CHANNEL_2D`.

A template is a line of the manifest with the words of its file, in words of type `T`; what is left
of a file behind its last word is not read.  The accesses to the two tables of a segment are kept,
by their bytes.  A failed `assert` has no output, and neither has a name that does not fit.
-/
import Acq400.Lib.CText

namespace Acq400

namespace AwgComposer

/-- `TemplateFile`; its file has `words`. -/
structure TemplateFile (T : Type) where
  seg : List Char
  chan : Int
  words : List T
deriving DecidableEq, Repr

/-- The size of `_segname`. -/
def segnameSize : Nat := 128

/-- `Segment::factory`: `reps`, and the name. -/
def factory (segdef : List Char) : Option (Int × List Char) :=
  match CText.int segdef with
  | none => some (1, segdef)
  | some (reps, rest) =>
    match (Sscanf.lit ['*'] rest).bind fun rest => CText.word rest.length rest with
    | none => some (reps, segdef)
    | some (segname, _) => if segnameSize < segname.length + 1 then none else some (reps, segname)

/-- The tables of a segment. -/
inductive Table
  | channels | chLen
deriving DecidableEq, Repr

/-- An access to bytes of a table. -/
structure Access where
  table : Table
  first : Nat
  bytes : Nat
deriving DecidableEq, Repr

/-- The size of an entry of either table: a pointer, and an `int`. -/
def entrySize : Nat := 4

/-- An access to the entry of a channel. -/
def Access.entry (table : Table) (ic : Nat) : Access :=
  { table, first := ic * entrySize, bytes := entrySize }

/-- What a segment has while its templates are read. -/
structure Loaded (T : Type) where
  channels : Nat → List T
  chLen : Nat → Nat
  maxLenw : Nat
  accesses : List Access

variable {T : Type}

/-- The constructor, up to `get_templates`. -/
def Loaded.start (sizeofT nchan : Nat) : Loaded T where
  channels := fun _ => []
  chLen := fun _ => 0
  maxLenw := 0
  accesses := [{ table := .channels, first := 0, bytes := sizeofT * nchan + 1 },
    { table := .chLen, first := 0, bytes := entrySize * nchan + 1 }]

/-- A template is read. -/
def Loaded.read (nchan : Nat) (seg : Loaded T) (tt : TemplateFile T) : Option (Loaded T) :=
  let ttLen := tt.words.length
  if ¬tt.chan ≤ nchan then none
  else if ¬0 < tt.chan then none
  else
    let ic := (tt.chan - 1).toNat
    some
      { channels := fun c => if c = ic then tt.words else seg.channels c
        chLen := fun c => if c = ic then ttLen else seg.chLen c
        maxLenw := if ttLen > seg.maxLenw then ttLen else seg.maxLenw
        accesses := seg.accesses ++ [.entry .channels ic, .entry .chLen ic] }

/-- The templates are read one after the other. -/
def Loaded.readAll (nchan : Nat) : List (TemplateFile T) → Loaded T → Option (Loaded T)
  | [], seg => some seg
  | tt :: templates, seg => (seg.read nchan tt).bind (readAll nchan templates)

def Loaded.yy [Zero T] (seg : Loaded T) (sam ic : Nat) : T :=
  if seg.chLen ic = 0 then 0
  else if sam ≥ seg.chLen ic then (seg.channels ic)[seg.chLen ic - 1]?.getD 0
  else (seg.channels ic)[sam]?.getD 0

/-- The tables are looked at for every word. -/
def Loaded.yyAccesses (seg : Loaded T) (ic : Nat) : List Access :=
  if seg.chLen ic = 0 then [.entry .chLen ic] else [.entry .chLen ic, .entry .channels ic]

/-- What is made of a segment: its words, and the accesses. -/
structure ConcreteSegment (T : Type) where
  reps : Int
  data : List T
  accesses : List Access
deriving DecidableEq, Repr

def getTemplates [Zero T] (templateFiles : List (TemplateFile T)) (sizeofT nchan : Nat) (reps : Int)
    (name : List Char) : Option (ConcreteSegment T) := do
  let templates := templateFiles.filter fun tt => tt.seg = name
  let seg ← (Loaded.start sizeofT nchan).readAll nchan templates
  return {
    reps
    data := (List.range seg.maxLenw).flatMap fun sam => (List.range nchan).map (seg.yy sam)
    accesses := seg.accesses ++ (List.range seg.maxLenw).flatMap fun _ =>
      (List.range nchan).flatMap seg.yyAccesses }

/-- The segments of the command line. -/
def segments [Zero T] (templateFiles : List (TemplateFile T)) (sizeofT nchan : Nat) :
    List (List Char) → Option (List (ConcreteSegment T))
  | [] => some []
  | segdef :: segdefs => do
    let (reps, name) ← factory segdef
    let segment ← getTemplates templateFiles sizeofT nchan reps name
    let rest ← segments templateFiles sizeofT nchan segdefs
    return segment :: rest

/-- The loop over the repetitions of a segment. -/
def ConcreteSegment.emit (segment : ConcreteSegment T) : List T :=
  (List.replicate segment.reps.toNat segment.data).flatten

/-- The loops of `main`. -/
def output (segments : List (ConcreteSegment T)) (nreps : Int) : List T :=
  (List.replicate nreps.toNat (segments.flatMap ConcreteSegment.emit)).flatten

end AwgComposer

end Acq400
