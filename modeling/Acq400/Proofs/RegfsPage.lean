/-
The page of registers is an array of bytes only at position 0.

`va` is not moved on by the position: a call takes the words at the start of the page, wherever
the file is.  So a call that takes something is right at position 0, or where by chance the start
of the page holds the same; and what is cut into several calls all goes to the start.
-/
import Acq400.Driver.RegfsPage
import Acq400.Lib.Run
import Mathlib.Data.List.GetD

namespace Acq400.RegfsPage

open Reads

/-! ### A call -/

theorem writeLoop_eq (f : RegfsPage) (buf : Nat → UInt8) (n : Nat) :
    f.writeLoop buf (4 * n) = memcpy f.va 0 buf (4 * n) := by
  unfold writeLoop
  rw [Nat.mul_div_cancel_left n (by decide : 0 < 4)]
  induction n with
  | zero =>
      funext a
      unfold memcpy
      rw [if_neg (by omega)]
      rfl
  | succ n ih =>
      rw [List.range_succ, List.foldl_append, ih]
      funext a
      simp only [List.foldl_cons, List.foldl_nil]
      unfold memcpy
      by_cases hnew : 4 * n ≤ a ∧ a < 4 * n + 4
      · have hplace : 4 * n + (a - 4 * n) = a - 0 := by omega
        rw [if_pos hnew, if_pos (by omega), ← hplace]
      · rw [if_neg hnew]
        by_cases hold : 0 ≤ a ∧ a < 0 + 4 * n
        · rw [if_pos hold, if_pos (by omega)]
        · rw [if_neg hold, if_neg (by omega)]

theorem readLoop_eq (f : RegfsPage) (n : Nat) : f.readLoop (4 * n) = cells f.va 0 (4 * n) := by
  unfold readLoop
  rw [Nat.mul_div_cancel_left n (by decide : 0 < 4)]
  induction n with
  | zero => rfl
  | succ n ih =>
      rw [List.range_succ, List.flatMap_append, ih, Nat.mul_succ, ← cells_append, Nat.zero_add]
      simp

/-- A call, with counts and positions of whole words. -/
inductive Call where
  | write (buf : List UInt8) (whole : 4 ∣ buf.length)
  | read (count : Nat) (whole : 4 ∣ count)
  | seek (pos : Nat) (whole : 4 ∣ pos)

/-- The file behind a call, what the call has returned and what has been read. -/
structure Called where
  file : RegfsPage
  ret : Nat
  got : List UInt8

/-- A call of the file. -/
def call (f : RegfsPage) : Call → Called
  | .write buf _ => { file := (f.regfsPageWrite buf).2, ret := (f.regfsPageWrite buf).1, got := [] }
  | .read count _ =>
    { file := (f.regfsPageRead count).2, ret := (f.regfsPageRead count).1.length
      got := (f.regfsPageRead count).1 }
  | .seek pos _ => { file := { f with fPos := pos }, ret := pos, got := [] }

/-- How many of `count` bytes an array of a page takes. -/
def room (f : RegfsPage) (count : Nat) : Nat := min count (pageSize - f.fPos)

/-- A call of an array of bytes. -/
def arrayCall (f : RegfsPage) : Call → Called
  | .write buf _ =>
    { file :=
        { va := memcpy f.va f.fPos (fun k => buf.getD k 0) (f.room buf.length)
          fPos := f.fPos + f.room buf.length }
      ret := f.room buf.length
      got := [] }
  | .read count _ =>
    { file := { f with fPos := f.fPos + f.room count }
      ret := f.room count
      got := cells f.va f.fPos (f.room count) }
  | .seek pos _ => { file := { f with fPos := pos }, ret := pos, got := [] }

/-- What is written to the start of the page, with `n` bytes, is in its place by chance. -/
structure ThereToo (f : RegfsPage) (buf : List UInt8) (n : Nat) : Prop where
  /-- Before the position, the page has held it. -/
  before : ∀ i, i < n → i < f.fPos → f.va i = buf.getD i 0
  /-- From the position on, the page holds it once the start has been written. -/
  after : ∀ i, i < n → memcpy f.va 0 (fun k => buf.getD k 0) n (f.fPos + i) = buf.getD i 0

/-- The position is not one that is taken for another one in the page. -/
def InPage (f : RegfsPage) (count : Nat) : Prop :=
  f.fPos < pageSize ∨ pageSize ≤ f.fPos % 2 ^ 32 ∨ count = 0

/-- The call finds at the start of the page what it is to find at the position. -/
def AtStart (f : RegfsPage) : Call → Prop
  | .write buf _ => f.InPage buf.length ∧ f.ThereToo buf (f.room buf.length)
  | .read count _ => f.InPage count ∧ ∀ i, i < f.room count → f.va i = f.va (f.fPos + i)
  | .seek _ _ => True

variable {f : RegfsPage} {count : Nat} {buf : List UInt8}

/-- How many bytes a call takes. -/
def took (f : RegfsPage) (count : Nat) : Nat := (f.clip count).getD 0

theorem four_dvd_took (f : RegfsPage) (count : Nat) : 4 ∣ f.took count := by
  unfold took clip
  dsimp only
  split
  · exact Nat.dvd_zero 4
  · exact Nat.dvd_mul_left 4 _

/-- A call of whole words takes what there is room for, unless the position is cut to 32 bits. -/
theorem took_eq_room_iff (hpos : 4 ∣ f.fPos) (hcount : 4 ∣ count) :
    f.took count = f.room count ↔ f.InPage count := by
  have hpage : pageSize = 4096 := rfl
  unfold took clip room InPage
  dsimp only
  by_cases hend : pageSize ≤ f.fPos % 2 ^ 32
  · rw [if_pos hend, Option.getD_none]
    omega
  · rw [if_neg hend, Option.getD_some]
    omega

theorem memcpy_zero (va : Mem) (p : Nat) (b : Nat → UInt8) : memcpy va p b 0 = va := by
  funext a
  unfold memcpy
  rw [if_neg (by omega)]

theorem call_write (f : RegfsPage) (buf : List UInt8) (hbuf : 4 ∣ buf.length) :
    f.call (.write buf hbuf) =
      { file :=
          { va := memcpy f.va 0 (fun k => buf.getD k 0) (f.took buf.length)
            fPos := f.fPos + f.took buf.length }
        ret := f.took buf.length
        got := [] } := by
  have hwhole := four_dvd_took f buf.length
  unfold took at hwhole ⊢
  unfold call regfsPageWrite
  cases h : f.clip buf.length with
  | none => simp [h, memcpy_zero]
  | some n =>
      rw [h] at hwhole
      obtain ⟨k, rfl⟩ := hwhole
      simp [h, writeLoop_eq]

theorem call_read (f : RegfsPage) (count : Nat) (hcount : 4 ∣ count) :
    f.call (.read count hcount) =
      { file := { f with fPos := f.fPos + f.took count }
        ret := f.took count
        got := cells f.va 0 (f.took count) } := by
  have hwhole := four_dvd_took f count
  unfold took at hwhole ⊢
  unfold call regfsPageRead
  cases h : f.clip count with
  | none => simp [h]
  | some n =>
      rw [h] at hwhole
      obtain ⟨k, rfl⟩ := hwhole
      simp [h, readLoop_eq]

theorem thereToo_iff {n : Nat} :
    f.ThereToo buf n ↔
      memcpy f.va 0 (fun k => buf.getD k 0) n = memcpy f.va f.fPos (fun k => buf.getD k 0) n := by
  have hin : ∀ i, i < n →
      memcpy f.va f.fPos (fun k => buf.getD k 0) n (f.fPos + i) = buf.getD i 0 := by
    intro i hi
    unfold memcpy
    rw [if_pos (by omega), Nat.add_sub_cancel_left]
  constructor
  · intro h
    funext a
    by_cases ha : f.fPos ≤ a ∧ a < f.fPos + n
    · have hplace : f.fPos + (a - f.fPos) = a := by omega
      have hcode := h.after (a - f.fPos) (by omega)
      have harray := hin (a - f.fPos) (by omega)
      rw [hplace] at hcode harray
      rw [hcode, harray]
    · unfold memcpy
      rw [if_neg ha]
      by_cases hstart : 0 ≤ a ∧ a < 0 + n
      · rw [if_pos hstart, Nat.sub_zero, h.before a (by omega) (by omega)]
      · rw [if_neg hstart]
  · intro heq
    refine ⟨?_, ?_⟩
    · intro i hi hp
      have hat := congrFun heq i
      unfold memcpy at hat
      rw [if_pos (by omega), if_neg (by omega)] at hat
      exact hat.symm
    · intro i hi
      rw [heq]
      exact hin i hi

theorem write_right_iff (hpos : 4 ∣ f.fPos) (hbuf : 4 ∣ buf.length) :
    f.call (.write buf hbuf) = f.arrayCall (.write buf hbuf) ↔ f.AtStart (.write buf hbuf) := by
  unfold AtStart
  dsimp only
  rw [call_write, ← took_eq_room_iff hpos hbuf, thereToo_iff]
  unfold arrayCall
  constructor
  · intro h
    obtain ⟨hfile, hret, -⟩ := Called.mk.inj h
    obtain ⟨hva, -⟩ := RegfsPage.mk.inj hfile
    rw [hret] at hva
    exact ⟨hret, hva⟩
  · rintro ⟨hroom, hva⟩
    rw [hroom, hva]

theorem read_right_iff (hpos : 4 ∣ f.fPos) (hcount : 4 ∣ count) :
    f.call (.read count hcount) = f.arrayCall (.read count hcount) ↔
      f.AtStart (.read count hcount) := by
  unfold AtStart
  dsimp only
  rw [call_read, ← took_eq_room_iff hpos hcount]
  unfold arrayCall
  constructor
  · intro h
    obtain ⟨-, hret, hgot⟩ := Called.mk.inj h
    rw [hret] at hgot
    refine ⟨hret, ?_⟩
    intro i hi
    have hat : (cells f.va 0 (f.room count))[i]? = (cells f.va f.fPos (f.room count))[i]? := by
      rw [hgot]
    rw [getElem?_cells, getElem?_cells, if_pos hi, if_pos hi, Nat.zero_add] at hat
    exact Option.some.inj hat
  · rintro ⟨hroom, hva⟩
    have hgot : cells f.va 0 (f.room count) = cells f.va f.fPos (f.room count) :=
      cells_eq_cells fun i hi => by rw [Nat.zero_add, hva i hi]
    rw [hroom, hgot]

theorem atStart_of_zero (h : f.fPos = 0) (c : Call) : f.AtStart c := by
  have hpage : f.fPos < pageSize := by
    rw [h]
    decide
  cases c with
  | write buf hbuf =>
      refine ⟨Or.inl hpage, thereToo_iff.mpr ?_⟩
      rw [h]
  | read count hcount =>
      refine ⟨Or.inl hpage, ?_⟩
      intro i _
      rw [h, Nat.zero_add]
  | seek pos _ => trivial

/-! ### All calls -/

theorem call_right_iff (hpos : 4 ∣ f.fPos) (c : Call) : f.call c = f.arrayCall c ↔ f.AtStart c := by
  cases c with
  | write buf hbuf => exact write_right_iff hpos hbuf
  | read count hcount => exact read_right_iff hpos hcount
  | seek pos _ => exact iff_of_true rfl trivial

theorem call_whole (hpos : 4 ∣ f.fPos) (c : Call) : 4 ∣ (f.call c).file.fPos := by
  cases c with
  | write buf hbuf =>
      rw [call_write]
      exact Nat.dvd_add hpos (four_dvd_took f _)
  | read count hcount =>
      rw [call_read]
      exact Nat.dvd_add hpos (four_dvd_took f _)
  | seek pos hseek => exact hseek

/-- The calls, one after the other. -/
def step (f : RegfsPage) (c : Call) : Option RegfsPage := some (f.call c).file

/-- `regfs_open`. -/
def opened (va : Mem) : RegfsPage := { va := va, fPos := 0 }

theorem run_total (cs : List Call) : ∀ f : RegfsPage, ∃ t, Lts.run step f cs = some t := by
  induction cs with
  | nil => intro f; exact ⟨f, rfl⟩
  | cons c cs ih =>
      intro f
      obtain ⟨t, ht⟩ := ih (f.call c).file
      exact ⟨t, ht⟩

/-- On an array, a transfer may be cut: what is written in two calls, and what is read in two. -/
theorem arrayCall_cut (f : RegfsPage) {b1 b2 : List UInt8} (h1 : 4 ∣ b1.length)
    (h2 : 4 ∣ b2.length) (h : 4 ∣ (b1 ++ b2).length)
    (hfits : f.fPos + (b1 ++ b2).length ≤ pageSize) :
    ((f.arrayCall (.write b1 h1)).file.arrayCall (.write b2 h2)).file =
        (f.arrayCall (.write (b1 ++ b2) h)).file ∧
      (f.arrayCall (.read b1.length h1)).got ++
          ((f.arrayCall (.read b1.length h1)).file.arrayCall (.read b2.length h2)).got =
        (f.arrayCall (.read (b1 ++ b2).length h)).got := by
  have hlength : (b1 ++ b2).length = b1.length + b2.length := List.length_append
  have hr1 : f.room b1.length = b1.length := Nat.min_eq_left (by omega)
  have hr2 : ∀ va, room { va := va, fPos := f.fPos + b1.length } b2.length = b2.length := by
    intro va
    refine Nat.min_eq_left ?_
    dsimp only
    omega
  have hr : f.room (b1 ++ b2).length = b1.length + b2.length := by
    rw [← hlength]
    exact Nat.min_eq_left (by omega)
  simp only [arrayCall, hr1, hr2, hr, cells_append, and_true, Nat.add_assoc]
  congr 1
  funext a
  unfold memcpy
  by_cases hsecond : f.fPos + b1.length ≤ a ∧ a < f.fPos + b1.length + b2.length
  · have hplace : a - f.fPos - b1.length = a - (f.fPos + b1.length) := by omega
    rw [if_pos hsecond, if_pos (by omega)]
    dsimp only
    rw [List.getD_append_right _ _ _ _ (by omega), hplace]
  · rw [if_neg hsecond]
    by_cases hfirst : f.fPos ≤ a ∧ a < f.fPos + b1.length
    · rw [if_pos hfirst, if_pos (by omega)]
      dsimp only
      rw [List.getD_append _ _ _ _ (by omega)]
    · rw [if_neg hfirst, if_neg (by omega)]

/--
**Of the calls of an open file, each does what it would do on an array exactly if each is at the
start of the page, or finds there what it is to find at its position; and an array may be written
and read in several calls for one.**
-/
theorem regfsPage_right_iff (va : Mem) (cs : List Call) :
    ((∀ before c after f, cs = before ++ c :: after → Lts.run step (opened va) before = some f →
        f.call c = f.arrayCall c) ↔
      Lts.Meets step AtStart (opened va) cs) ∧
    ∀ f (b1 b2 : List UInt8) (h1 : 4 ∣ b1.length) (h2 : 4 ∣ b2.length)
        (h : 4 ∣ (b1 ++ b2).length), f.fPos + (b1 ++ b2).length ≤ pageSize →
      ((arrayCall f (.write b1 h1)).file.arrayCall (.write b2 h2)).file =
          (arrayCall f (.write (b1 ++ b2) h)).file ∧
        (arrayCall f (.read b1.length h1)).got ++
            ((arrayCall f (.read b1.length h1)).file.arrayCall (.read b2.length h2)).got =
          (arrayCall f (.read (b1 ++ b2).length h)).got := by
  refine ⟨?_, fun f _ _ h1 h2 h => arrayCall_cut f h1 h2 h⟩
  obtain ⟨t, ht⟩ := run_total cs (opened va)
  have hone : ∀ (f : RegfsPage) (c : Call) (f' : RegfsPage), 4 ∣ f.fPos → step f c = some f' →
      (AtStart f c ↔ f.call c = f.arrayCall c) ∧ (AtStart f c → 4 ∣ f'.fPos) := by
    intro f c f' hpos hstep
    obtain rfl := Option.some.inj hstep
    exact ⟨(call_right_iff hpos c).symm, fun _ => call_whole hpos c⟩
  rw [Lts.meets_iff_steps (fun f => 4 ∣ f.fPos) (fun f c _ => f.call c = f.arrayCall c) hone
    cs (opened va) t (Nat.dvd_zero 4) ht]
  constructor
  · intro h before c after f f' hsplit hrun _
    exact h before c after f hsplit hrun
  · intro h before c after f hsplit hrun
    exact h before c after f _ hsplit hrun rfl

/-- On a page of registers that are all the same, one is written, and read where the next is. -/
theorem regfsPage_right_register :
    ∀ before c after f, [Call.write [0, 1, 2, 3] ⟨1, rfl⟩, .read 4 ⟨1, rfl⟩] =
        before ++ c :: after →
      Lts.run step (opened fun a => UInt8.ofNat (a % 4)) before = some f →
        f.call c = f.arrayCall c := by
  refine (regfsPage_right_iff (fun a => UInt8.ofNat (a % 4)) _).1.mpr ⟨atStart_of_zero rfl _, ?_⟩
  intro f hf
  obtain rfl := Option.some.inj hf
  refine ⟨⟨Or.inl (by decide), ?_⟩, fun _ _ => trivial⟩
  decide

/-- The second of two registers goes to the place of the first. -/
theorem second_register_not_right :
    ¬∀ before c after f, [Call.write [1, 2, 3, 4] ⟨1, rfl⟩, .write [5, 6, 7, 8] ⟨1, rfl⟩] =
        before ++ c :: after →
      Lts.run step (opened fun _ => 0) before = some f → f.call c = f.arrayCall c := by
  intro h
  have hsecond := h [.write [1, 2, 3, 4] ⟨1, rfl⟩] (.write [5, 6, 7, 8] ⟨1, rfl⟩) [] _ rfl rfl
  have hbyte := congrArg (fun r => r.file.va 4) hsecond
  exact absurd hbyte (by decide)

end Acq400.RegfsPage
