/-
The first transition of each bit (`clocks_to_first_edge.cpp`): `count_clocks` on a file, and
`count_clocks_live` on a stream, over the words that `readw` delivers.

A pointer has 4 bytes, as an `unsigned` has, and `fread` gives a whole page of words unless it comes
to the end.  There is no timeout.  A program that exits gives nothing, and `G::clk` does not wrap.
-/
import Mathlib.Data.BitVec
import Mathlib.Logic.Function.Basic

namespace Acq400

namespace FirstEdge

def nbits : Nat := 32

def pagew : Nat := 1024

/-! ### The words -/

/-- What `readw` has in hand: the page that is in `buf`, the cursor in it, and the input behind
it. -/
structure Reader where
  buf : List (BitVec 32)
  cursor : Nat
  input : List (BitVec 32)
deriving DecidableEq, Repr

namespace Reader

/-- At the start of the program. -/
def ofInput (input : List (BitVec 32)) : Reader := { buf := [], cursor := 0, input := input }

/-- A page is read when the one before it has been used up. -/
def fill (r : Reader) : Option Reader :=
  if r.cursor ≥ r.buf.length then
    let page := r.input.take pagew
    if page.length = 0 then none
    else some { buf := page, cursor := 0, input := r.input.drop pagew }
  else some r

def readw (r : Reader) : Option (BitVec 32 × Reader) := do
  let r ← r.fill
  let xx ← r.buf[r.cursor]?
  return (xx, { r with cursor := r.cursor + 1 })

/-- The words that are still to come. -/
def words (r : Reader) : List (BitVec 32) := r.buf.drop r.cursor ++ r.input

theorem readw_nil {r : Reader} (h : r.words = []) : r.readw = none := by
  obtain ⟨hbuf, hinput⟩ := List.append_eq_nil_iff.mp h
  unfold readw fill
  rw [if_pos (List.drop_eq_nil_iff.mp hbuf), hinput]
  rfl

theorem readw_cons {r : Reader} {x : BitVec 32} {rest : List (BitVec 32)}
    (h : r.words = x :: rest) : ∃ r', r.readw = some (x, r') ∧ r'.words = rest := by
  unfold words at h
  unfold readw fill
  by_cases hused : r.cursor ≥ r.buf.length
  · rw [List.drop_eq_nil_of_le hused, List.nil_append] at h
    have hpage : r.input.take pagew = x :: rest.take 1023 := by
      rw [h]
      rfl
    rw [if_pos hused, hpage, if_neg (by simp)]
    refine ⟨_, rfl, ?_⟩
    unfold words
    rw [h]
    exact List.take_append_drop 1023 rest
  · have hlt : r.cursor < r.buf.length := Nat.lt_of_not_le hused
    rw [List.drop_eq_getElem_cons hlt, List.cons_append] at h
    obtain ⟨hx, hrest⟩ := List.cons.inj h
    rw [if_neg hused, Option.bind_eq_bind, Option.bind_some, List.getElem?_eq_getElem hlt, hx]
    exact ⟨_, rfl, hrest⟩

theorem readw_lt {r r' : Reader} {x : BitVec 32} (h : r.readw = some (x, r')) :
    r'.words.length < r.words.length := by
  cases hwords : r.words with
  | nil =>
      rw [readw_nil hwords] at h
      cases h
  | cons y rest =>
      obtain ⟨r'', hread, hrest⟩ := readw_cons hwords
      obtain ⟨-, rfl⟩ := Prod.mk.inj (Option.some.inj (hread.symm.trans h))
      rw [hrest]
      exact Nat.lt_succ_self _

end Reader

/-! ### The loops -/

/-- What is global of the counts. -/
structure G where
  clocks : Nat → Nat
  /-- The bits that have had a transition. -/
  fin : BitVec 32
  clk : Nat

/-- Before anything is counted. -/
def G.zero : G := { clocks := fun _ => 0, fin := 0, clk := 0 }

/-- A bit that changes for the first time gets the clock. -/
def G.onBit (change : BitVec 32) (clk : Nat) (g : G) (ib : Nat) : G :=
  if g.fin.getLsbD ib = false ∧ change.getLsbD ib = true then
    { g with clocks := Function.update g.clocks ib clk, fin := g.fin ||| BitVec.twoPow 32 ib }
  else g

/-- `onChange`, and the body of the loop in `count_clocks`, each with its clock. -/
def G.onChange (g : G) (clk : Nat) (x0 x1 : BitVec 32) : G :=
  let change := x1 ^^^ x0
  if change &&& ~~~g.fin ≠ 0 then (List.range nbits).foldl (G.onBit change clk) g else g

/-- The loop of `count_clocks` over the samples: what it has counted, and the reader behind it. -/
def countLoop (finished : BitVec 32) (clk : Nat) (r : Reader) (x0 : BitVec 32) (g : G) :
    Option (G × Reader) :=
  if g.fin ≠ finished then
    match _h : r.readw with
    | none => none
    | some (x1, r) =>
      countLoop finished clk r x1 { g.onChange clk x0 x1 with clk := g.clk + 1 }
  else some (g, r)
termination_by r.words.length
decreasing_by exact Reader.readw_lt _h

/-- The loop of `count_clocks` over `skip`. -/
def skipLoop : Nat → BitVec 32 → Reader → Option (BitVec 32 × Reader)
  | 0, x0, r => some (x0, r)
  | turns + 1, _, r => do
    let (x0, r) ← r.readw
    skipLoop turns x0 r

def countClocks (skip : Nat) (finished : BitVec 32) (r : Reader) : Option (G × Reader) := do
  let (x0, r) ← r.readw
  let turns := skip - 1
  let (x0, r) ← skipLoop turns x0 r
  let clk := 1 + turns
  countLoop finished clk r x0 .zero

/-- The loop of `count_clocks_live`. -/
def liveLoop (finished : BitVec 32) (r : Reader) (x0 : BitVec 32) (g : G) : Option (G × Reader) :=
  if g.fin &&& finished ≠ finished then
    match _h : r.readw with
    | none => none
    | some (x1, r) =>
      let g := if x1 ≠ x0 then g.onChange g.clk x0 x1 else g
      liveLoop finished r x1 { g with clk := g.clk + 1 }
  else some (g, r)
termination_by r.words.length
decreasing_by exact Reader.readw_lt _h

def countClocksLive (finished : BitVec 32) (r : Reader) : Option (G × Reader) := do
  let (x0, r) ← r.readw
  liveLoop finished r x0 { G.zero with clk := 1 }

end FirstEdge

end Acq400
