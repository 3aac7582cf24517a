/-
Knobs that are commands: `acq400_knobs.cpp`, `KnobX`, and `interpret_phrase` as far as it comes to
them.

An address has 32 bits, and `NULL` is 0.  What a command prints is given with the command, and so
are the names that a pattern matches.  Knobs of other kinds are left out.
-/
import Acq400.Lib.CInt
import Acq400.Lib.CText
import Acq400.Lib.Words
import Mathlib.Data.List.DropRight

namespace Acq400

namespace Knobs

/-- What is in memory. -/
abbrev Chars := Nat → Char

/-- `popen`, which may fail, and `fnmatch`. -/
structure Sys where
  popen : List Char → Option (List Char)
  fnmatch : List Char → List Char → Bool

def decimal (n : Int) : List Char := (toString n).toList

/-- `Validator` and what is made of it. -/
inductive Validator
  | null
  | numeric (rmin rmax : Int)
deriving DecidableEq, Repr

def Validator.isValid (v : Validator) (mem : Chars) (buf maxbuf : Nat) (args : List Char) :
    Chars × Bool :=
  match v with
  | null => (mem, true)
  | numeric rmin rmax =>
    match CText.int args with
    | none =>
      ((CText.snprintf mem buf maxbuf
        ("ERROR: NumericValidator ".toList ++ args ++ " not numeric".toList)).1, false)
    | some (tv, _) =>
      if rmin ≤ tv ∧ tv ≤ rmax then (mem, true)
      else
        ((CText.snprintf mem buf maxbuf
          ("ERROR: NumericValidator ".toList ++ decimal tv ++ " not in range ".toList ++
            decimal rmin ++ ",".toList ++ decimal rmax)).1, false)

/-- A knob by itself. -/
structure Command where
  name : List Char
  site : Int
  validator : Validator

structure KnobX extends Command where
  peers : List Command

/-! ### Commands -/

/-- The loop over the lines that are printed, and what it leaves in `cursor`. -/
def readLines (buf maxbuf : Nat) : Nat → Chars → Nat → List Char → Option (Nat × Chars)
  | 0, _, _, _ => none
  | fuel + 1, mem, cursor, fp =>
    match CText.fgetsAt mem cursor (maxbuf - (cursor - buf)) fp with
    | none => some (0, mem)
    | some (mem, fp) =>
      let ll := CText.strlen mem cursor (maxbuf - (cursor - buf))
      if ll = 1 ∧ mem cursor = '\n' then readLines buf maxbuf fuel mem cursor fp
      else readLines buf maxbuf fuel mem (cursor + ll) fp

/-- The command that is started. -/
def Command.cmd2 (knob : Command) (cmd : List Char) : List Char :=
  if knob.site ≠ 0 then ("SITE=".toList ++ decimal knob.site ++ " ".toList ++ cmd).take 127
  else cmd

def Command.runcmd (sys : Sys) (knob : Command) (fuel : Nat) (mem : Chars) (cmd : List Char)
    (buf maxbuf : Nat) : Option (Int × Chars) :=
  match sys.popen (knob.cmd2 cmd) with
  | none =>
    let (mem, n) := CText.snprintf mem buf maxbuf
      ("ERROR: failed to open \"".toList ++ knob.name ++ "\"\n".toList)
    some (-n, mem)
  | some fp => do
    let (cursor, mem) ← readLines buf maxbuf fuel mem buf fp
    some (CInt.wrap (cursor - buf), mem)

def Command.set (sys : Sys) (knob : Command) (fuel : Nat) (mem : Chars) (buf maxbuf : Nat)
    (args : List Char) : Option (Int × Chars) :=
  match knob.validator.isValid mem buf maxbuf args with
  | (mem, false) => some (-1, mem)
  | (mem, true) =>
    let maxlen := knob.name.length + args.length + 1
    let cmd := knob.name ++ " ".toList ++ args
    if maxlen < 128 then knob.runcmd sys fuel mem (cmd.take 127) buf maxbuf
    else knob.runcmd sys fuel mem (cmd.take (maxlen - 1)) buf maxbuf

def Command.get (sys : Sys) (knob : Command) (fuel : Nat) (mem : Chars) (buf maxbuf : Nat) :
    Option (Int × Chars) :=
  knob.runcmd sys fuel mem ((knob.name ++ " ".toList).take 127) buf maxbuf

/-- `Knob::set`. -/
def KnobX.setAll (sys : Sys) (knob : KnobX) (fuel : Nat) (mem : Chars) (buf maxbuf : Nat)
    (args : List Char) : Option (Int × Chars) := do
  let mem ← knob.peers.foldlM
    (fun mem peer => (peer.set sys fuel mem buf maxbuf args).map Prod.snd) mem
  knob.set sys fuel mem buf maxbuf args

/-! ### Phrases -/

def chomp (text : List Char) : List Char := text.rdropWhile CText.isSpace

def isSep (c : Char) : Bool := c = '=' || c = ' '

/-- The key of a phrase, and what is to be set. -/
def splitPhrase (phrase : List Char) : List Char × Option (List Char) :=
  let isep := phrase.takeWhile fun c => !isSep c
  if isep.length ≠ phrase.length then (isep, some ((phrase.drop isep.length).dropWhile isSep))
  else (phrase, none)

/-- What a phrase has come to. -/
structure Talk where
  mem : Chars
  err : Bool
  found : Bool
  fout : List Char

/-- The error flag for what a knob returns. -/
def isErr (rc : Int) : Bool := decide (rc < 0)

/-- The body of the loop for a knob that is matched, by a pattern if `isGlob`. -/
def Talk.ask (sys : Sys) (fuel bufOut : Nat) (args : Option (List Char)) (isGlob : Bool)
    (knob : KnobX) (talk : Talk) : Option Talk := do
  let (rc, mem) ← match args with
    | none => knob.get sys fuel talk.mem bufOut 4096
    | some args => knob.setAll sys fuel talk.mem bufOut 4096 args
  let said := CText.strAt mem bufOut 4096
  let name :=
    if args = none ∧ isGlob ∧ Words.strstr knob.name said = none then knob.name ++ " ".toList
    else []
  let text := if rc ≠ 0 then chomp said ++ "\n".toList else []
  some { mem := mem, err := isErr rc, found := true, fout := talk.fout ++ name ++ text }

/-- The loop over the knobs. -/
def Talk.loop (sys : Sys) (fuel bufOut : Nat) (key : List Char) (args : Option (List Char)) :
    List KnobX → Talk → Option Talk
  | [], talk => some talk
  | knob :: rest, talk =>
    let talk := { talk with mem := Memory.store talk.mem bufOut ['\x00'], err := false }
    if knob.name = key then talk.ask sys fuel bufOut args false knob
    else if sys.fnmatch key knob.name then do
      let talk ← talk.ask sys fuel bufOut args true knob
      Talk.loop sys fuel bufOut key args rest talk
    else Talk.loop sys fuel bufOut key args rest talk

/-- `interpret_phrase`, which leaves the flag as it is for an empty phrase. -/
def interpretPhrase (sys : Sys) (knobs : List KnobX) (fuel bufOut : Nat) (mem : Chars)
    (err : Bool) (phrase : List Char) : Option Talk :=
  let phrase := chomp phrase
  let talk : Talk := { mem := mem, err := err, found := false, fout := [] }
  if phrase = [] then some talk
  else do
    let (key, args) := splitPhrase phrase
    let talk ← talk.loop sys fuel bufOut key args knobs
    if talk.found then some talk
    else some { talk with fout := talk.fout ++ "ERROR:".toList ++ key ++ "\" not found\n".toList }

end Knobs

end Acq400
