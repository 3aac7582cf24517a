/-
What the output of a command leaves in the buffer of its knob.

The loop stores within the buffer, one line over the end of the one before it, and an empty line is
stored over.  When all of the buffer but the room for a 0 is full, `fgets` has nothing to read and
the loop does not end; else it ends where `fgets` returns `NULL`, and with it what is returned is
not the number of characters, but the address of the buffer with a minus.
-/
import Acq400.Driver.Knobs

namespace Acq400

namespace Knobs

open Memory (store Outside)

/-! ### Output without its empty lines -/

/-- The output without the ends of lines that are empty; `start` is at the start of a line. -/
def dropEmpty : Bool → List Char → List Char
  | _, [] => []
  | start, c :: fp =>
    if c = '\n' ∧ start then dropEmpty true fp else c :: dropEmpty (decide (c = '\n')) fp

/-- What is read at once is an empty line, or is kept; then it comes to the end of a line, to the
end of the output or to that of the room. -/
theorem dropEmpty_fgets (n : Nat) (fp : List Char) (start : Bool) :
    (start = true ∧ (CText.fgets n fp).1 = ['\n'] ∧
        dropEmpty start fp = dropEmpty true (CText.fgets n fp).2) ∨
      (¬(start = true ∧ (CText.fgets n fp).1 = ['\n']) ∧ ∃ b,
        dropEmpty start fp = (CText.fgets n fp).1 ++ dropEmpty b (CText.fgets n fp).2 ∧
        (b = true ∨ (CText.fgets n fp).2 = [] ∨ (CText.fgets n fp).1.length = n)) := by
  induction n, fp using CText.fgets.induct generalizing start with
  | case1 fp =>
      refine .inr ⟨fun h => ?_, start, rfl, .inr (.inr rfl)⟩
      cases h.2
  | case2 n =>
      refine .inr ⟨fun h => ?_, start, rfl, .inr (.inl rfl)⟩
      cases h.2
  | case3 n fp =>
      rw [CText.fgets, if_pos rfl]
      cases start with
      | true => exact .inl ⟨rfl, rfl, rfl⟩
      | false =>
          refine .inr ⟨fun h => ?_, true, rfl, .inl rfl⟩
          cases h.1
  | case4 n c fp hc ih =>
      rw [CText.fgets, if_neg hc]
      refine .inr ⟨fun h => hc (List.cons.inj h.2).1, ?_⟩
      rcases ih false with ⟨h, -⟩ | ⟨-, b, heq, hstop⟩
      · cases h
      · refine ⟨b, ?_, hstop.imp_right (Or.imp_right (congrArg (· + 1)))⟩
        rw [dropEmpty, if_neg (fun h => hc h.1), decide_eq_false hc, heq]
        rfl

/-! ### The loop -/

variable {buf maxbuf cursor fuel : Nat} {mem mem' : Chars} {fp : List Char}

theorem fgets_newline {n : Nat} (h : (CText.fgets n fp).1.head? = some '\n') :
    (CText.fgets n fp).1 = ['\n'] := by
  cases n with
  | zero => cases h
  | succ n =>
      cases fp with
      | nil => cases h
      | cons c fp =>
          rw [CText.fgets] at h ⊢
          split
          · rename_i hc
            rw [hc]
          · rename_i hc
            rw [if_neg hc] at h
            exact absurd (Option.some.inj h) hc

theorem readLines_full (hroom : maxbuf - (cursor - buf) = 1) :
    readLines buf maxbuf (fuel + 1) mem cursor fp =
      readLines buf maxbuf fuel (store mem cursor ['\x00']) cursor fp := by
  have hempty : CText.strAt (store mem cursor ([] ++ ['\x00'])) cursor 1 = CText.str [] :=
    CText.strAt_store (by decide)
  have hstr : CText.strlen (store mem cursor ['\x00']) cursor 1 = 0 := congrArg List.length hempty
  rw [readLines, CText.fgetsAt, hroom, if_neg (by decide), if_pos rfl]
  dsimp only
  rw [hstr, if_neg (fun h => absurd h.1 (by decide)), Nat.add_zero]

theorem readLines_end (hroom : 2 ≤ maxbuf - (cursor - buf)) :
    readLines buf maxbuf (fuel + 1) mem cursor [] = some (0, mem) := by
  rw [readLines, CText.fgetsAt, if_neg (by omega), if_neg (by omega), if_pos rfl]

/-- A turn stores what it has read, and goes on over it if it is an empty line. -/
theorem readLines_line (mem : Chars) (fuel : Nat) (hroom : 2 ≤ maxbuf - (cursor - buf))
    (hfp : fp ≠ []) :
    readLines buf maxbuf (fuel + 1) mem cursor fp =
      let got := (CText.fgets (maxbuf - (cursor - buf) - 1) fp).1
      readLines buf maxbuf fuel (store mem cursor (got ++ ['\x00']))
        (if got = ['\n'] then cursor else cursor + (CText.str got).length)
        (CText.fgets (maxbuf - (cursor - buf) - 1) fp).2 := by
  rw [readLines, CText.fgetsAt, if_neg (by omega), if_neg (by omega), if_neg hfp]
  have hle := CText.length_fgets_le (maxbuf - (cursor - buf) - 1) fp
  generalize hgot : (CText.fgets (maxbuf - (cursor - buf) - 1) fp).1 = got at hle
  dsimp only
  have hstr : CText.strlen (store mem cursor (got ++ ['\x00'])) cursor
      (maxbuf - (cursor - buf)) = (CText.str got).length :=
    congrArg List.length (CText.strAt_store (by omega))
  have hfirst : store mem cursor (got ++ ['\x00']) cursor = (got ++ ['\x00']).head (by simp) := by
    have hpos : 0 < (got ++ ['\x00']).length := by simp
    have hget : store mem cursor (got ++ ['\x00']) (cursor + 0) = (got ++ ['\x00'])[0] :=
      Memory.store_inside hpos
    rw [Nat.add_zero] at hget
    rw [hget, List.head_eq_getElem]
  rw [hstr, hfirst]
  by_cases hempty : got = ['\n']
  · subst hempty
    rw [if_pos rfl, if_pos ⟨by decide, rfl⟩]
  · rw [if_neg hempty, if_neg]
    rintro ⟨hlen, hhead⟩
    refine hempty (hgot.symm.trans (fgets_newline ?_))
    rw [hgot]
    cases got with
    | nil => cases hlen
    | cons c got => exact congrArg some hhead

/-! ### What is stored -/

/-- The loop stores in the buffer only, and ends with `NULL`. -/
theorem readLines_inside : ∀ {fuel mem cursor fp c}, buf ≤ cursor → cursor < buf + maxbuf →
    readLines buf maxbuf fuel mem cursor fp = some (c, mem') →
      c = 0 ∧ ∀ a, Outside a buf maxbuf → mem' a = mem a := by
  intro fuel
  induction fuel with
  | zero =>
      intro mem cursor fp c _ _ h
      cases h
  | succ fuel ih =>
      intro mem cursor fp c hlo hhi h
      by_cases hroom : maxbuf - (cursor - buf) = 1
      · rw [readLines_full hroom] at h
        obtain ⟨hc, hframe⟩ := ih hlo hhi h
        refine ⟨hc, fun a ha => ?_⟩
        rw [hframe a ha, Memory.store_outside]
        unfold Outside at ha ⊢
        rw [List.length_singleton]
        omega
      · by_cases hfp : fp = []
        · rw [hfp, readLines_end (by omega)] at h
          obtain ⟨rfl, rfl⟩ := Prod.mk.inj (Option.some.inj h)
          exact ⟨rfl, fun _ _ => rfl⟩
        · rw [readLines_line _ _ (by omega) hfp] at h
          have hle := CText.length_fgets_le (maxbuf - (cursor - buf) - 1) fp
          have hstr : (CText.str (CText.fgets (maxbuf - (cursor - buf) - 1) fp).1).length ≤ _ :=
            (List.takeWhile_prefix _).length_le
          dsimp only at h
          generalize hnext : (if (CText.fgets _ fp).1 = ['\n'] then cursor else _) = next at h
          have hin : buf ≤ next ∧ next < buf + maxbuf := by
            split at hnext
            · omega
            · omega
          obtain ⟨hc, hframe⟩ := ih hin.1 hin.2 h
          refine ⟨hc, fun a ha => ?_⟩
          rw [hframe a ha, Memory.store_outside]
          unfold Outside at ha ⊢
          rw [List.length_append, List.length_singleton]
          omega

/-- `text` is in memory from `buf` on. -/
def Holds (mem : Chars) (buf : Nat) (text : List Char) : Prop :=
  ∀ i (h : i < text.length), mem (buf + i) = text[i]

theorem Holds.append {written : List Char} (h : Holds mem buf written) (got : List Char) :
    Holds (store mem (buf + written.length) (got ++ ['\x00'])) buf (written ++ got) := by
  intro i hi
  rw [List.length_append] at hi
  by_cases hfirst : i < written.length
  · rw [List.getElem_append_left hfirst, Memory.store_outside, h i hfirst]
    exact .inl (by omega)
  · obtain ⟨k, rfl⟩ := Nat.exists_eq_add_of_le (Nat.le_of_not_lt hfirst)
    have hk : k < got.length := by omega
    rw [List.getElem_append_right (by omega), ← Nat.add_assoc,
      Memory.store_inside (by rw [List.length_append]; omega), List.getElem_append_left hk]
    simp only [Nat.add_sub_cancel_left]

theorem Holds.of_append {written got : List Char} (h : Holds mem buf (written ++ got)) :
    Holds mem buf written := by
  intro i hi
  rw [h i (by rw [List.length_append]; omega), List.getElem_append_left hi]

/-- Output that leaves room is stored without its empty lines. -/
theorem readLines_ends (n : Nat) : ∀ {fp written mem}, fp.length ≤ n →
    (∀ c ∈ fp, c ≠ '\x00') → Holds mem buf written →
    written.length + (dropEmpty true fp).length + 1 < maxbuf →
      ∃ fuel mem', readLines buf maxbuf fuel mem (buf + written.length) fp = some (0, mem') ∧
        Holds mem' buf (written ++ dropEmpty true fp) := by
  induction n with
  | zero =>
      intro fp written mem hlen hnul hmem hfit
      obtain rfl := List.length_eq_zero_iff.mp (Nat.le_zero.mp hlen)
      refine ⟨1, mem, readLines_end (by omega), ?_⟩
      rwa [dropEmpty, List.append_nil]
  | succ n ih =>
      intro fp written mem hlen hnul hmem hfit
      by_cases hfp : fp = []
      · subst hfp
        exact ih (Nat.zero_le n) hnul hmem hfit
      · have hroom : 2 ≤ maxbuf - (buf + written.length - buf) := by omega
        have hrest := CText.length_fgets_lt
          (n := maxbuf - (buf + written.length - buf) - 1) (by omega) hfp
        have happend := CText.fgets_append (maxbuf - (buf + written.length - buf) - 1) fp
        have hkept := dropEmpty_fgets (maxbuf - (buf + written.length - buf) - 1) fp true
        have hturn := fun fuel => readLines_line mem fuel hroom hfp
        generalize CText.fgets (maxbuf - (buf + written.length - buf) - 1) fp = line at *
        obtain ⟨got, rest⟩ := line
        dsimp only at *
        have hnul' : ∀ c ∈ rest, c ≠ '\x00' := fun c hc =>
          hnul c (happend ▸ List.mem_append_right got hc)
        have hstr : CText.str got = got := CText.str_of_forall fun c hc =>
          hnul c (happend ▸ List.mem_append_left rest hc)
        have hboth := hmem.append got
        rcases hkept with ⟨-, hempty, heq⟩ | ⟨hline, b, heq, hstop⟩
        · -- an empty line: the next one is read over it
          rw [heq] at hfit ⊢
          obtain ⟨fuel, mem', hrun, hholds⟩ := ih (by omega) hnul' hboth.of_append hfit
          refine ⟨fuel + 1, mem', ?_, hholds⟩
          rw [hturn, if_pos hempty]
          exact hrun
        · have hsame : dropEmpty b rest = dropEmpty true rest := by
            rcases hstop with rfl | rfl | hfull
            · rfl
            · rfl
            · -- a line that is cut has filled the room, which there would be more of
              rw [heq, List.length_append] at hfit
              omega
          rw [heq, hsame, ← List.append_assoc]
          rw [heq, hsame, List.length_append, ← Nat.add_assoc, ← List.length_append] at hfit
          obtain ⟨fuel, mem', hrun, hholds⟩ := ih (by omega) hnul' hboth hfit
          refine ⟨fuel + 1, mem', ?_, hholds⟩
          rw [hturn, if_neg (fun h => hline ⟨rfl, h⟩), hstr, Nat.add_assoc, ← List.length_append]
          exact hrun

theorem readLines_endless (hpos : 0 < maxbuf) (fuel : Nat) : ∀ {fp k mem},
    (∀ c ∈ fp, c ≠ '\x00') → k < maxbuf → maxbuf ≤ k + (dropEmpty true fp).length + 1 →
      readLines buf maxbuf fuel mem (buf + k) fp = none := by
  induction fuel with
  | zero => intros; rfl
  | succ fuel ih =>
      intro fp k mem hnul hk hfull
      by_cases hroom : maxbuf - (buf + k - buf) = 1
      · rw [readLines_full hroom]
        exact ih hnul hk hfull
      · have hfp : fp ≠ [] := by
          rintro rfl
          rw [dropEmpty, List.length_nil] at hfull
          omega
        rw [readLines_line _ _ (by omega) hfp]
        have happend := CText.fgets_append (maxbuf - (buf + k - buf) - 1) fp
        have hkept := dropEmpty_fgets (maxbuf - (buf + k - buf) - 1) fp true
        have hlen := CText.length_fgets_le (maxbuf - (buf + k - buf) - 1) fp
        generalize CText.fgets (maxbuf - (buf + k - buf) - 1) fp = line at *
        obtain ⟨got, rest⟩ := line
        dsimp only at *
        have hnul' : ∀ c ∈ rest, c ≠ '\x00' := fun c hc =>
          hnul c (happend ▸ List.mem_append_right got hc)
        have hstr : CText.str got = got := CText.str_of_forall fun c hc =>
          hnul c (happend ▸ List.mem_append_left rest hc)
        rcases hkept with ⟨-, hempty, heq⟩ | ⟨hline, b, heq, hstop⟩
        · rw [if_pos hempty]
          rw [heq] at hfull
          exact ih hnul' hk hfull
        · rw [if_neg (fun h => hline ⟨rfl, h⟩), hstr, Nat.add_assoc]
          refine ih hnul' (by omega) ?_
          rw [heq, List.length_append] at hfull
          rcases hstop with rfl | rfl | hlast
          · omega
          · rw [dropEmpty, List.length_nil] at hfull
            omega
          · omega

/-! ### What is right -/

/-- A buffer in memory, which has 32 bits of addresses and nothing at `NULL`. -/
structure OutBuf where
  buf : Nat
  maxbuf : Nat
  notNull : 0 < buf
  two : 2 ≤ maxbuf
  fits : buf + maxbuf ≤ 2 ^ 32

variable {sys : Sys} {knob : Command} {cmd : List Char} {out : List Char}

/-- The command ends, stores in the buffer only what it prints but for the empty lines, as far as
there is room, and returns how much that is, which is no error. -/
def Right (sys : Sys) (knob : Command) (cmd out : List Char) (mem : Chars) (b : OutBuf) : Prop :=
  ∃ fuel rc mem', knob.runcmd sys fuel mem cmd b.buf b.maxbuf = some (rc, mem') ∧
    (∀ a, Outside a b.buf b.maxbuf → mem' a = mem a) ∧
    Holds mem' b.buf ((dropEmpty true out).take (b.maxbuf - 1)) ∧
    rc = ((dropEmpty true out).take (b.maxbuf - 1)).length ∧ isErr rc = false

theorem runcmd_eq {b : OutBuf} {rc : Int} (hout : sys.popen (knob.cmd2 cmd) = some out)
    (h : knob.runcmd sys fuel mem cmd b.buf b.maxbuf = some (rc, mem')) :
    rc = CInt.wrap (-b.buf) ∧ ∀ a, Outside a b.buf b.maxbuf → mem' a = mem a := by
  rw [Command.runcmd, hout] at h
  obtain ⟨⟨c, mem''⟩, hrun, heq⟩ := Option.bind_eq_some_iff.mp h
  obtain ⟨rfl, rfl⟩ := Prod.mk.inj (Option.some.inj heq)
  have htwo := b.two
  obtain ⟨rfl, hframe⟩ := readLines_inside (Nat.le_refl _) (by omega) hrun
  refine ⟨?_, hframe⟩
  rw [Int.natCast_zero, Int.zero_sub]

/-- The address of the buffer with a minus is negative, or larger than the buffer. -/
theorem wrap_neg (b : OutBuf) :
    (b.buf ≤ 2 ^ 31 ∧ CInt.wrap (-b.buf) = -b.buf) ∨
      (2 ^ 31 < b.buf ∧ CInt.wrap (-b.buf) = 2 ^ 32 - b.buf) := by
  have hpos := b.notNull
  have hfits := b.fits
  have htwo := b.two
  unfold CInt.wrap
  rw [Int.bmod_def]
  by_cases hlow : b.buf ≤ 2 ^ 31
  · refine .inl ⟨hlow, ?_⟩
    split
    · omega
    · omega
  · refine .inr ⟨by omega, ?_⟩
    split
    · omega
    · omega

/--
**The number of the characters that are stored is never what is returned.**
-/
theorem runcmd_never_right (mem : Chars) (b : OutBuf)
    (hout : sys.popen (knob.cmd2 cmd) = some out) : ¬Right sys knob cmd out mem b := by
  rintro ⟨fuel, rc, mem', hrun, -, -, hrc, -⟩
  obtain ⟨hvalue, -⟩ := runcmd_eq hout hrun
  rw [hvalue] at hrc
  have hlen := List.length_take_le (b.maxbuf - 1) (dropEmpty true out)
  have hpos := b.notNull
  have hfits := b.fits
  have htwo := b.two
  rcases wrap_neg b with ⟨-, hneg⟩ | ⟨-, hlarge⟩
  · omega
  · omega

/-- A command that prints `on`. -/
def shell (out : List Char) : Sys where
  popen := fun _ => some out
  fnmatch := fun _ _ => false

def enable : Command where
  name := "enable".toList
  site := 1
  validator := .null

theorem heapBuf_notNull : 0 < 0x3c010 := by decide

theorem heapBuf_two : 2 ≤ 4096 := by decide

theorem heapBuf_fits : 0x3c010 + 4096 ≤ 2 ^ 32 := by decide

/-- A buffer that `new` has given, with the length that `interpret_phrase` passes on. -/
def heapBuf : OutBuf where
  buf := 0x3c010
  maxbuf := 4096
  notNull := heapBuf_notNull
  two := heapBuf_two
  fits := heapBuf_fits

theorem two_lines_not_right :
    ¬Right (shell "on\n\noff".toList) enable [] "on\n\noff".toList (fun _ => '?') heapBuf :=
  runcmd_never_right _ heapBuf rfl

/-- What it prints is stored, and the answer is an error. -/
theorem enable_not_right :
    ¬Right (shell "on\n".toList) enable "enable ".toList "on\n".toList (fun _ => '?') heapBuf := by
  rintro ⟨fuel, rc, mem', hrun, -, -, -, herr⟩
  obtain ⟨rfl, -⟩ := runcmd_eq rfl hrun
  exact absurd herr (by decide)

/-! ### What is left of it -/

/-- Apart from what it returns, a command whose output leaves room does what it should. -/
theorem runcmd_stores (mem : Chars) (b : OutBuf) (hout : sys.popen (knob.cmd2 cmd) = some out)
    (hnul : ∀ c ∈ out, c ≠ '\x00') (hfit : (dropEmpty true out).length + 1 < b.maxbuf) :
    ∃ fuel mem', knob.runcmd sys fuel mem cmd b.buf b.maxbuf = some (CInt.wrap (-b.buf), mem') ∧
      Holds mem' b.buf (dropEmpty true out) := by
  have hempty : Holds mem b.buf [] := fun i hi => absurd hi (Nat.not_lt_zero i)
  have hroom : ([] : List Char).length + (dropEmpty true out).length + 1 < b.maxbuf := by
    rwa [List.length_nil, Nat.zero_add]
  obtain ⟨fuel, mem', hrun, hholds⟩ :=
    readLines_ends out.length (Nat.le_refl _) hnul hempty hroom
  refine ⟨fuel, mem', ?_, hholds⟩
  rw [Command.runcmd, hout]
  refine Option.bind_eq_some_iff.mpr ⟨(0, mem'), hrun, ?_⟩
  dsimp only
  rw [Int.natCast_zero, Int.zero_sub]

theorem runcmd_endless (mem : Chars) (b : OutBuf) (hout : sys.popen (knob.cmd2 cmd) = some out)
    (hnul : ∀ c ∈ out, c ≠ '\x00') (hfull : b.maxbuf ≤ (dropEmpty true out).length + 1) :
    knob.runcmd sys fuel mem cmd b.buf b.maxbuf = none := by
  have htwo := b.two
  have hnone : readLines b.buf b.maxbuf fuel mem (b.buf + 0) out = none :=
    readLines_endless (by omega) fuel hnul (by omega) (by omega)
  rw [Command.runcmd, hout]
  exact Option.bind_eq_none_iff.mpr fun x hx => by
    rw [Nat.add_zero] at hnone
    rw [hnone] at hx
    cases hx

/-! ### The error mark -/

section Phrase

variable {b : OutBuf} {rc : Int} {knob : KnobX} {args : Option (List Char)} {talk talk' : Talk}

theorem isErr_runcmd {knob : Command} (hopen : ∀ cmd, (sys.popen cmd).isSome)
    (h : knob.runcmd sys fuel mem cmd b.buf b.maxbuf = some (rc, mem')) :
    isErr rc = decide (b.buf ≤ 2 ^ 31) := by
  obtain ⟨out, hout⟩ := Option.isSome_iff_exists.mp (hopen (knob.cmd2 cmd))
  rw [(runcmd_eq hout h).1, isErr, decide_eq_decide]
  have hpos := b.notNull
  have hfits := b.fits
  have htwo := b.two
  rcases wrap_neg b with ⟨hlow, heq⟩ | ⟨hhigh, heq⟩
  · rw [heq]
    omega
  · rw [heq]
    omega

theorem isErr_set {knob : Command} {args : List Char} (hvalid : knob.validator = .null)
    (hopen : ∀ cmd, (sys.popen cmd).isSome)
    (h : knob.set sys fuel mem b.buf b.maxbuf args = some (rc, mem')) :
    isErr rc = decide (b.buf ≤ 2 ^ 31) := by
  unfold Command.set Validator.isValid at h
  rw [hvalid] at h
  dsimp only at h
  split at h
  · exact isErr_runcmd hopen h
  · exact isErr_runcmd hopen h

theorem Talk.ask_err {isGlob : Bool} (hmax : b.maxbuf = 4096) (hvalid : knob.validator = .null)
    (hopen : ∀ cmd, (sys.popen cmd).isSome)
    (h : talk.ask sys fuel b.buf args isGlob knob = some talk') :
    talk'.err = decide (b.buf ≤ 2 ^ 31) ∧ talk'.found = true := by
  unfold Talk.ask at h
  rw [← hmax] at h
  cases args with
  | none =>
      obtain ⟨⟨rc, mem'⟩, hget, htalk⟩ := Option.bind_eq_some_iff.mp h
      obtain rfl := Option.some.inj htalk
      exact ⟨isErr_runcmd hopen hget, rfl⟩
  | some args =>
      obtain ⟨⟨rc, mem'⟩, hall, htalk⟩ := Option.bind_eq_some_iff.mp h
      obtain ⟨mem'', -, hset⟩ := Option.bind_eq_some_iff.mp hall
      obtain rfl := Option.some.inj htalk
      exact ⟨isErr_set hvalid hopen hset, rfl⟩

/-- The loop ends with the knob of the very name, whatever a pattern has matched before. -/
theorem Talk.loop_err {before after : List KnobX} (hmax : b.maxbuf = 4096)
    (hbefore : ∀ other ∈ before, other.name ≠ knob.name) (hvalid : knob.validator = .null)
    (hopen : ∀ cmd, (sys.popen cmd).isSome) : ∀ {talk : Talk},
      Talk.loop sys fuel b.buf knob.name args (before ++ knob :: after) talk = some talk' →
        talk'.err = decide (b.buf ≤ 2 ^ 31) ∧ talk'.found = true := by
  induction before with
  | nil =>
      intro talk h
      rw [List.nil_append, Talk.loop, if_pos rfl] at h
      exact Talk.ask_err hmax hvalid hopen h
  | cons other before ih =>
      intro talk h
      have ih := @ih fun k hk => hbefore k (List.mem_cons_of_mem _ hk)
      rw [List.cons_append, Talk.loop, if_neg (hbefore other List.mem_cons_self)] at h
      split at h
      · obtain ⟨asked, -, hrest⟩ := Option.bind_eq_some_iff.mp h
        exact ih hrest
      · exact ih h

/-- A phrase that names a knob marks an error if and only if the buffer is in the lower half of
memory, whatever the command prints. -/
theorem interpretPhrase_err {before after : List KnobX} {phrase : List Char} {err : Bool}
    (hmax : b.maxbuf = 4096) (hopen : ∀ cmd, (sys.popen cmd).isSome) (hphrase : chomp phrase ≠ [])
    (hname : (splitPhrase (chomp phrase)).1 = knob.name)
    (hbefore : ∀ other ∈ before, other.name ≠ knob.name) (hvalid : knob.validator = .null)
    (h : interpretPhrase sys (before ++ knob :: after) fuel b.buf mem err phrase = some talk) :
    talk.err = decide (b.buf ≤ 2 ^ 31) := by
  unfold interpretPhrase at h
  dsimp only at h
  rw [if_neg hphrase, hname] at h
  obtain ⟨said, hloop, hrest⟩ := Option.bind_eq_some_iff.mp h
  obtain ⟨herr, hfound⟩ := Talk.loop_err hmax hbefore hvalid hopen hloop
  rw [if_pos hfound] at hrest
  obtain rfl := Option.some.inj hrest
  exact herr

end Phrase

end Knobs

end Acq400
