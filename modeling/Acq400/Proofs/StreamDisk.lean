/-
What the destinations get.

The counters are shared by the destinations, so that what matters is how often a buffer has been
written at all: of `c` writes, the next one goes to the destination `c % ndest`, and to a new file
if `c` is a multiple of the buffers of a file (`reached`).  A file takes what is written next, for
whichever destination it is; and a new directory is made only while the first file in it is
written, for the destinations whose turn it is then.
-/
import Acq400.Lib.Strides
import Acq400.Stream.StreamDisk
import Mathlib.Algebra.BigOperators.Group.Finset.Piecewise
import Mathlib.Algebra.BigOperators.Ring.Finset
import Mathlib.Data.Int.GCD
import Mathlib.Data.List.ModifyLast
import Mathlib.Data.Nat.ModEq

namespace Acq400

namespace StreamDisk

open Strides (turns chunk)

variable {β : Type} {cfg : Config} {pre : Nat → Nat → Bool}

/-! ### So many writes -/

/-- The buffers of a file. -/
def Config.k (cfg : Config) : Nat := max 1 cfg.concat

theorem Config.k_pos (cfg : Config) : 0 < cfg.k :=
  Nat.lt_of_lt_of_le Nat.one_pos (Nat.le_max_left _ _)

/-- The directory of a write. -/
def Config.cycle (cfg : Config) (c : Nat) : Nat := c / cfg.k / cfg.filesdir

/-- The directories that a write makes. -/
def mkdirAt (cfg : Config) (c : Nat) : List Op :=
  if c / cfg.k % cfg.filesdir = 0 then [.mkdir (c % cfg.ndest) (cfg.cycle c)] else []

/-- What a write asks for. -/
def opsAt (cfg : Config) (c : Nat) : List Op :=
  mkdirAt cfg c ++
    if c % cfg.k = 0 then [.fopen (c % cfg.ndest) (cfg.cycle c) (c / cfg.ndest)] else []

/-- What the first `c` ask for. -/
def opsOf (cfg : Config) (c : Nat) : List Op := (List.range c).flatMap (opsAt cfg)

/-- The file number `m`, of what is written. -/
def fileOf (cfg : Config) (w : List β) (m : Nat) : File β where
  dest := m * cfg.k % cfg.ndest
  cycle := m / cfg.filesdir
  ibuf := m * cfg.k / cfg.ndest
  data := chunk cfg.k w m

/-- What there is after all of `w` has been written. -/
def reached (cfg : Config) (w : List β) : Disk β where
  icat := w.length % cfg.k
  fileno := w.length / cfg.k
  ops := opsOf cfg w.length
  files := (List.range (turns cfg.k w.length)).map (fileOf cfg w)
  exited := false

/-- The directory of a write has been made by then. -/
def Created (cfg : Config) (c : Nat) : Prop :=
  ∃ c' ≤ c, c' / cfg.k % cfg.filesdir = 0 ∧ c' % cfg.ndest = c % cfg.ndest ∧
    cfg.cycle c' = cfg.cycle c

theorem opsOf_succ (c : Nat) : opsOf cfg (c + 1) = opsOf cfg c ++ opsAt cfg c := by
  unfold opsOf
  rw [List.range_succ, List.flatMap_append, List.flatMap_cons, List.flatMap_nil, List.append_nil]

theorem mkdir_mem_mkdirAt {c d q : Nat} :
    Op.mkdir d q ∈ mkdirAt cfg c ↔
      c / cfg.k % cfg.filesdir = 0 ∧ c % cfg.ndest = d ∧ cfg.cycle c = q := by
  unfold mkdirAt
  split
  · rename_i h
    simp [h, eq_comm]
  · rename_i h
    simp [h]

theorem mkdir_mem_opsOf {c d q : Nat} :
    Op.mkdir d q ∈ opsOf cfg c ↔ ∃ c' < c, Op.mkdir d q ∈ mkdirAt cfg c' := by
  unfold opsOf opsAt
  rw [List.mem_flatMap]
  refine exists_congr fun c' => ?_
  rw [List.mem_range]
  refine and_congr_right fun _ => ?_
  split <;> simp

/-- A directory has been made by the writes before or by the one itself. -/
theorem created_iff {c : Nat} :
    Op.mkdir (c % cfg.ndest) (cfg.cycle c) ∈ opsOf cfg c ++ mkdirAt cfg c ↔ Created cfg c := by
  rw [List.mem_append, mkdir_mem_opsOf]
  constructor
  · rintro (⟨c', hlt, hc'⟩ | hc)
    · exact ⟨c', Nat.le_of_lt hlt, mkdir_mem_mkdirAt.mp hc'⟩
    · exact ⟨c, Nat.le_refl c, mkdir_mem_mkdirAt.mp hc⟩
  · rintro ⟨c', hle, hc'⟩
    rcases Nat.lt_or_eq_of_le hle with hlt | rfl
    · exact .inl ⟨c', hlt, mkdir_mem_mkdirAt.mpr hc'⟩
    · exact .inr (mkdir_mem_mkdirAt.mpr hc')

/-! ### One write -/

theorem fileOf_append_of_lt {w : List β} {b : β} {m : Nat} (hm : m < w.length / cfg.k) :
    fileOf cfg (w ++ [b]) m = fileOf cfg w m := by
  have hle : (m + 1) * cfg.k ≤ w.length :=
    Nat.le_trans (Nat.mul_le_mul_right _ hm) (Nat.div_mul_le_self _ _)
  unfold fileOf
  rw [Strides.chunk_append_of_le hle]

theorem files_reached_append (cfg : Config) (w : List β) (b : β) :
    (reached cfg (w ++ [b])).files =
      (List.range (w.length / cfg.k)).map (fileOf cfg w) ++
        [{ fileOf cfg w (w.length / cfg.k) with
            data := chunk cfg.k w (w.length / cfg.k) ++ [b] }] := by
  have hlast := Strides.chunk_append_last (k := cfg.k) (q := w.length / cfg.k) (w := w) (b := b)
    (Nat.div_mul_le_self _ _) (by
      rw [Nat.succ_mul]
      exact Nat.lt_div_mul_add cfg.k_pos)
  show (List.range (turns cfg.k (w ++ [b]).length)).map _ = _
  rw [List.length_append, List.length_singleton, Strides.turns_succ cfg.k_pos, List.range_succ,
    List.map_append, List.map_singleton]
  congr 1
  · exact List.map_congr_left fun m hm => fileOf_append_of_lt (List.mem_range.mp hm)
  · unfold fileOf
    rw [hlast]

/-- The file that is written to is open, or is opened. -/
theorem files_reached (cfg : Config) (w : List β) :
    (reached cfg w).files ++
        (if cfg.k ∣ w.length then [fileOf cfg w (w.length / cfg.k)] else []) =
      (List.range (w.length / cfg.k)).map (fileOf cfg w) ++
        [fileOf cfg w (w.length / cfg.k)] := by
  show (List.range (turns cfg.k w.length)).map _ ++ _ = _
  split
  · rename_i hdvd
    rw [Strides.turns_of_dvd cfg.k_pos hdvd]
  · rename_i hdvd
    rw [Strides.turns_of_not_dvd cfg.k_pos hdvd, List.range_succ, List.map_append, List.append_nil,
      List.map_singleton]

theorem fileOf_new {w : List β} (hdvd : cfg.k ∣ w.length) :
    fileOf cfg w (w.length / cfg.k) =
      { dest := w.length % cfg.ndest, cycle := cfg.cycle w.length,
        ibuf := w.length / cfg.ndest, data := [] } := by
  have hmul := Nat.div_mul_cancel hdvd
  unfold fileOf chunk
  rw [hmul, List.drop_length, List.take_nil]
  rfl

theorem counters_succ (cfg : Config) (c : Nat) :
    (c % cfg.k + 1 ≥ cfg.concat ∧ (c + 1) % cfg.k = 0 ∧ (c + 1) / cfg.k = c / cfg.k + 1) ∨
      (¬c % cfg.k + 1 ≥ cfg.concat ∧ (c + 1) % cfg.k = c % cfg.k + 1 ∧
        (c + 1) / cfg.k = c / cfg.k) := by
  have hpos := cfg.k_pos
  have hlt := Nat.mod_lt c hpos
  have hk : cfg.k = max 1 cfg.concat := rfl
  have hsplit : c + 1 = cfg.k * (c / cfg.k) + (c % cfg.k + 1) := by
    rw [← Nat.add_assoc, Nat.div_add_mod]
  by_cases hfull : c % cfg.k + 1 = cfg.k
  · refine .inl ⟨by omega, ?_, ?_⟩
    · rw [hsplit, hfull, Nat.mul_add_mod, Nat.mod_self]
    · rw [hsplit, hfull, Nat.mul_add_div hpos, Nat.div_self hpos]
  · have hless : c % cfg.k + 1 < cfg.k := by omega
    refine .inr ⟨by omega, ?_, ?_⟩
    · conv_lhs => rw [hsplit]
      rw [Nat.mul_add_mod, Nat.mod_eq_of_lt hless]
    · conv_lhs => rw [hsplit]
      rw [Nat.mul_add_div hpos, Nat.div_eq_of_lt hless, Nat.add_zero]

/-- What a write has made of the directories before it opens a file. -/
def made (cfg : Config) (w : List β) : Disk β :=
  { reached cfg w with ops := opsOf cfg w.length ++ mkdirAt cfg w.length }

theorem made_eq (cfg : Config) (w : List β) :
    (if (reached cfg w).fileno % cfg.filesdir = 0 then
        { reached cfg w with
          ops := (reached cfg w).ops ++
            [.mkdir (w.length % cfg.ndest) ((reached cfg w).fileno / cfg.filesdir)] }
      else reached cfg w) = made cfg w := by
  unfold made mkdirAt
  show (if w.length / cfg.k % cfg.filesdir = 0 then _ else _) = _
  split
  · rfl
  · rw [List.append_nil]
    rfl

/-- A write once its file is open. -/
def opened (cfg : Config) (w : List β) : Disk β :=
  { made cfg w with
    ops := opsOf cfg (w.length + 1)
    files := (List.range (w.length / cfg.k)).map (fileOf cfg w) ++
      [fileOf cfg w (w.length / cfg.k)] }

theorem made_of_not_dvd {w : List β} (hdvd : ¬cfg.k ∣ w.length) : made cfg w = opened cfg w := by
  have hfiles := files_reached cfg w
  rw [if_neg hdvd, List.append_nil] at hfiles
  have hmod : ¬w.length % cfg.k = 0 := fun h => hdvd (Nat.dvd_of_mod_eq_zero h)
  unfold opened made
  rw [opsOf_succ, opsAt, if_neg hmod, List.append_nil, ← hfiles]

/-- A file can be opened in a directory that there is, or that has been made. -/
def HasDir (cfg : Config) (pre : Nat → Nat → Bool) (c : Nat) : Prop :=
  pre (c % cfg.ndest) (cfg.cycle c) = true ∨ Created cfg c

theorem opsOf_new {w : List β} (hdvd : cfg.k ∣ w.length) :
    opsOf cfg (w.length + 1) = (made cfg w).ops ++
      [.fopen (w.length % cfg.ndest) (cfg.cycle w.length) (w.length / cfg.ndest)] := by
  rw [opsOf_succ, opsAt, if_pos (Nat.mod_eq_zero_of_dvd hdvd), ← List.append_assoc]
  rfl

theorem fopen_opened {w : List β} (hdvd : cfg.k ∣ w.length) (hdir : HasDir cfg pre w.length) :
    (made cfg w).fopen pre (w.length % cfg.ndest) (cfg.cycle w.length) (w.length / cfg.ndest) =
      opened cfg w := by
  have hfiles := files_reached cfg w
  rw [if_pos hdvd] at hfiles
  rw [HasDir, ← created_iff] at hdir
  refine (if_pos hdir).trans ?_
  rw [opened, ← hfiles, fileOf_new hdvd, opsOf_new hdvd]
  rfl

theorem fopen_exit {w : List β} (hdvd : cfg.k ∣ w.length) (hdir : ¬HasDir cfg pre w.length) :
    (made cfg w).fopen pre (w.length % cfg.ndest) (cfg.cycle w.length) (w.length / cfg.ndest) =
      { made cfg w with ops := opsOf cfg (w.length + 1), exited := true } := by
  rw [HasDir, ← created_iff] at hdir
  refine (if_neg hdir).trans ?_
  rw [opsOf_new hdvd]

theorem write_opened (w : List β) (b : β) :
    (if ((opened cfg w).fwrite b).icat + 1 ≥ cfg.concat then
        { (opened cfg w).fwrite b with icat := 0, fileno := ((opened cfg w).fwrite b).fileno + 1 }
      else { (opened cfg w).fwrite b with icat := ((opened cfg w).fwrite b).icat + 1 }) =
      reached cfg (w ++ [b]) := by
  have hfiles := files_reached_append cfg w b
  have hwritten : ((opened cfg w).fwrite b).files = (reached cfg (w ++ [b])).files := by
    rw [hfiles]
    exact List.modifyLast_concat _ _ _
  have hlen : (w ++ [b]).length = w.length + 1 := by
    rw [List.length_append, List.length_singleton]
  have hops : (reached cfg (w ++ [b])).ops = opsOf cfg (w.length + 1) :=
    congrArg (opsOf cfg) hlen
  rcases counters_succ cfg w.length with ⟨h, hmod, hdiv⟩ | ⟨h, hmod, hdiv⟩
  · refine (if_pos h).trans ?_
    rw [← hlen] at hmod hdiv
    show Disk.mk 0 (w.length / cfg.k + 1) (opsOf cfg (w.length + 1)) _ false =
      Disk.mk ((w ++ [b]).length % cfg.k) ((w ++ [b]).length / cfg.k) _ _ false
    rw [hmod, hdiv, hwritten, ← hops]
    rfl
  · refine (if_neg h).trans ?_
    rw [← hlen] at hmod hdiv
    show Disk.mk (w.length % cfg.k + 1) (w.length / cfg.k) (opsOf cfg (w.length + 1)) _ false =
      Disk.mk ((w ++ [b]).length % cfg.k) ((w ++ [b]).length / cfg.k) _ _ false
    rw [hmod, hdiv, hwritten, ← hops]
    rfl

theorem processBuffer_made (w : List β) (b : β) {dest ibuf : Nat}
    (hdest : dest = w.length % cfg.ndest) (hibuf : ibuf = w.length / cfg.ndest) :
    processBuffer cfg pre (reached cfg w) dest ibuf b =
      let s : Disk β := if w.length % cfg.k = 0 then
        (made cfg w).fopen pre (w.length % cfg.ndest) (cfg.cycle w.length) (w.length / cfg.ndest)
        else made cfg w
      if s.exited then s
      else if (s.fwrite b).icat + 1 ≥ cfg.concat then
        { s.fwrite b with icat := 0, fileno := (s.fwrite b).fileno + 1 }
      else { s.fwrite b with icat := (s.fwrite b).icat + 1 } := by
  subst hdest hibuf
  have hmade := made_eq cfg w
  have hlive : ¬(reached cfg w).exited = true := Bool.false_ne_true
  unfold processBuffer
  rw [if_neg hlive]
  dsimp only
  rw [hmade]
  rfl

/-- A write to the file that is open, or to one that can be opened. -/
theorem processBuffer_reached (w : List β) (b : β) {dest ibuf : Nat}
    (hdest : dest = w.length % cfg.ndest) (hibuf : ibuf = w.length / cfg.ndest)
    (hdir : cfg.k ∣ w.length → HasDir cfg pre w.length) :
    processBuffer cfg pre (reached cfg w) dest ibuf b = reached cfg (w ++ [b]) := by
  have hlive : ¬(opened cfg w).exited = true := Bool.false_ne_true
  rw [processBuffer_made w b hdest hibuf]
  by_cases hdvd : cfg.k ∣ w.length
  · rw [if_pos (Nat.mod_eq_zero_of_dvd hdvd), fopen_opened hdvd (hdir hdvd)]
    exact (if_neg hlive).trans (write_opened w b)
  · rw [if_neg (fun h => hdvd (Nat.dvd_of_mod_eq_zero h)), made_of_not_dvd hdvd]
    exact (if_neg hlive).trans (write_opened w b)

/-- A write that opens a file in a directory that there is not. -/
theorem processBuffer_exited (w : List β) (b : β) {dest ibuf : Nat}
    (hdest : dest = w.length % cfg.ndest) (hibuf : ibuf = w.length / cfg.ndest)
    (hdvd : cfg.k ∣ w.length) (hdir : ¬HasDir cfg pre w.length) :
    processBuffer cfg pre (reached cfg w) dest ibuf b =
      { made cfg w with ops := opsOf cfg (w.length + 1), exited := true } := by
  rw [processBuffer_made w b hdest hibuf, if_pos (Nat.mod_eq_zero_of_dvd hdvd),
    fopen_exit hdvd hdir]
  rfl

/-! ### A run -/

/-- The program has left before `writes` of them, since there was no directory for a file. -/
def Dead (cfg : Config) (pre : Nat → Nat → Bool) (writes : Nat) (s : Disk β) : Prop :=
  s.exited = true ∧
    ∃ c < writes, cfg.k ∣ c ∧ ¬HasDir cfg pre c ∧ s.ops = opsOf cfg (c + 1)

variable {writes : Nat}

theorem processBuffer_dead {s : Disk β} (h : Dead cfg pre writes s) (dest ibuf : Nat) (b : β) :
    processBuffer cfg pre s dest ibuf b = s := if_pos h.1

theorem processBuffer_outcome (w : List β) (b : β) {dest ibuf : Nat}
    (hdest : dest = w.length % cfg.ndest) (hibuf : ibuf = w.length / cfg.ndest)
    (hwrites : w.length < writes) :
    processBuffer cfg pre (reached cfg w) dest ibuf b = reached cfg (w ++ [b]) ∨
      Dead cfg pre writes (processBuffer cfg pre (reached cfg w) dest ibuf b) := by
  by_cases hdir : cfg.k ∣ w.length → HasDir cfg pre w.length
  · exact .inl (processBuffer_reached w b hdest hibuf hdir)
  · obtain ⟨hdvd, hnot⟩ := Classical.not_imp.mp hdir
    rw [processBuffer_exited w b hdest hibuf hdvd hnot]
    exact .inr ⟨rfl, w.length, hwrites, hdvd, hnot, rfl⟩

/-- A buffer is written once for each destination. -/
theorem row_outcome (pre : Nat → Nat → Bool) (hndest : 0 < cfg.ndest) (b : β) {ibuf : Nat}
    {w : List β} (hw : w.length = ibuf * cfg.ndest) (hwrites : (ibuf + 1) * cfg.ndest ≤ writes)
    (n : Nat) (hn : n ≤ cfg.ndest) :
    (List.range n).foldl (fun s id => processBuffer cfg pre s id ibuf b) (reached cfg w) =
        reached cfg (w ++ List.replicate n b) ∨
      Dead cfg pre writes ((List.range n).foldl (fun s id => processBuffer cfg pre s id ibuf b)
        (reached cfg w)) := by
  induction n with
  | zero =>
      rw [List.replicate_zero, List.append_nil]
      exact .inl rfl
  | succ n ih =>
      rw [List.range_succ, List.foldl_append, List.foldl_cons, List.foldl_nil]
      rcases ih (Nat.le_of_succ_le hn) with heq | hdead
      · have hlen : (w ++ List.replicate n b).length = n + cfg.ndest * ibuf := by
          rw [List.length_append, List.length_replicate, hw, Nat.mul_comm, Nat.add_comm]
        rw [heq, List.replicate_succ', ← List.append_assoc]
        refine processBuffer_outcome _ b ?_ ?_ ?_
        · rw [hlen, Nat.add_mul_mod_self_left, Nat.mod_eq_of_lt hn]
        · rw [hlen, Nat.add_mul_div_left _ _ hndest, Nat.div_eq_of_lt hn, Nat.zero_add]
        · rw [Nat.succ_mul, Nat.mul_comm] at hwrites
          omega
      · rw [processBuffer_dead hdead]
        exact .inr hdead

theorem process_dead {s : Disk β} (h : Dead cfg pre writes s) (input : List β) (ibuf : Nat) :
    process cfg pre input ibuf s = s := by
  have hrow : ∀ (ids : List Nat) (ibuf : Nat) (b : β),
      ids.foldl (fun s id => processBuffer cfg pre s id ibuf b) s = s := by
    intro ids ibuf b
    induction ids with
    | nil => rfl
    | cons id ids ih => rw [List.foldl_cons, processBuffer_dead h, ih]
  induction input generalizing ibuf with
  | nil => rfl
  | cons b input ih =>
      rw [process, hrow]
      split
      · rfl
      · exact ih (ibuf + 1)

/-- What is written of an input: one buffer more than was asked for, if there is one. -/
theorem process_outcome (hndest : 0 < cfg.ndest) (input : List β) :
    ∀ {ibuf : Nat} {w : List β}, w.length = ibuf * cfg.ndest → ibuf ≤ cfg.nbuffers →
      (ibuf + (input.take (cfg.nbuffers + 1 - ibuf)).length) * cfg.ndest ≤ writes →
      process cfg pre input ibuf (reached cfg w) =
          reached cfg (w ++ (input.take (cfg.nbuffers + 1 - ibuf)).flatMap
            (List.replicate cfg.ndest)) ∨
        Dead cfg pre writes (process cfg pre input ibuf (reached cfg w)) := by
  induction input with
  | nil =>
      intro ibuf w _ _ _
      rw [List.take_nil, List.flatMap_nil, List.append_nil]
      exact .inl rfl
  | cons b input ih =>
      intro ibuf w hw hibuf hwrites
      obtain ⟨left, hleft⟩ := Nat.exists_eq_add_of_le hibuf
      rw [hleft, show ibuf + left + 1 - ibuf = left + 1 by omega, List.take_succ_cons,
        List.length_cons] at hwrites
      rw [process, hleft, show ibuf + left + 1 - ibuf = left + 1 by omega, List.take_succ_cons,
        List.flatMap_cons, ← List.append_assoc]
      have hrow : (ibuf + 1) * cfg.ndest ≤ writes :=
        Nat.le_trans (Nat.mul_le_mul_right _ (by omega)) hwrites
      rcases row_outcome pre hndest b hw hrow cfg.ndest (Nat.le_refl _) with heq | hdead
      · rw [heq]
        split
        · obtain rfl : left = 0 := by omega
          rw [List.take_zero, List.flatMap_nil, List.append_nil]
          exact .inl rfl
        · have hlen : (w ++ List.replicate cfg.ndest b).length = (ibuf + 1) * cfg.ndest := by
            rw [List.length_append, List.length_replicate, hw, Nat.succ_mul]
          have hnext := ih hlen (by omega)
            (by
              rw [hleft, show ibuf + left + 1 - (ibuf + 1) = left by omega]
              rwa [Nat.add_assoc, Nat.add_comm 1])
          rwa [hleft, show ibuf + left + 1 - (ibuf + 1) = left by omega] at hnext
      · split
        · exact .inr hdead
        · rw [process_dead hdead]
          exact .inr hdead

/-! ### Directories before files -/

/-- The directory of every file that is opened has been made before, or was there; `done` is what
has been asked for until now. -/
def CreatedFirst (pre : Nat → Nat → Bool) : List Op → List Op → Prop
  | _, [] => True
  | done, op :: ops =>
    (∀ d q i, op = .fopen d q i → pre d q = true ∨ .mkdir d q ∈ done) ∧
      CreatedFirst pre (done ++ [op]) ops

theorem createdFirst_append {done as bs : List Op} :
    CreatedFirst pre done (as ++ bs) ↔
      CreatedFirst pre done as ∧ CreatedFirst pre (done ++ as) bs := by
  induction as generalizing done with
  | nil => rw [List.nil_append, List.append_nil, CreatedFirst, true_and]
  | cons a as ih =>
      rw [List.cons_append, CreatedFirst, CreatedFirst, ih, and_assoc, List.append_assoc,
        List.singleton_append]

theorem createdFirst_mkdirAt (done : List Op) (c : Nat) :
    CreatedFirst pre done (mkdirAt cfg c) := by
  unfold mkdirAt
  split
  · refine ⟨fun d q i h => ?_, trivial⟩
    cases h
  · trivial

theorem createdFirst_opsOf (c : Nat) :
    CreatedFirst pre [] (opsOf cfg c) ↔ ∀ c' < c, cfg.k ∣ c' → HasDir cfg pre c' := by
  induction c with
  | zero => exact iff_of_true trivial fun c' h => absurd h (Nat.not_lt_zero c')
  | succ c ih =>
      rw [opsOf_succ, opsAt, ← List.append_assoc, createdFirst_append, createdFirst_append, ih,
        List.nil_append, List.nil_append, and_iff_left (createdFirst_mkdirAt _ c)]
      have hlast : CreatedFirst pre (opsOf cfg c ++ mkdirAt cfg c)
          (if c % cfg.k = 0 then [.fopen (c % cfg.ndest) (cfg.cycle c) (c / cfg.ndest)] else []) ↔
            (cfg.k ∣ c → HasDir cfg pre c) := by
        rw [HasDir, ← created_iff, Nat.dvd_iff_mod_eq_zero]
        split
        · rename_i hmod
          rw [CreatedFirst, CreatedFirst, and_true]
          constructor
          · exact fun h _ => h _ _ _ rfl
          · rintro h d q i ⟨⟩
            exact h hmod
        · rename_i hmod
          exact iff_of_true trivial fun h => absurd h hmod
      rw [hlast]
      constructor
      · intro ⟨hbefore, hc⟩ c' hlt
        rcases Nat.lt_succ_iff_lt_or_eq.mp hlt with hlt | rfl
        · exact hbefore c' hlt
        · exact hc
      · intro hall
        exact ⟨fun c' hlt => hall c' (Nat.lt_succ_of_lt hlt), hall c (Nat.lt_succ_self c)⟩

theorem Dead.not_createdFirst {s : Disk β} (h : Dead cfg pre writes s) :
    ¬CreatedFirst pre [] s.ops := by
  obtain ⟨-, c, -, hdvd, hnot, hops⟩ := h
  rw [hops, createdFirst_opsOf]
  exact fun hall => hnot (hall c (Nat.lt_succ_self c) hdvd)

/-- The directory of file `m` is made while the first file of its cycle is written. -/
theorem created_file_iff (hfd : 0 < cfg.filesdir) (m : Nat) :
    Created cfg (m * cfg.k) ↔
      ∃ t < cfg.k, (m / cfg.filesdir * cfg.filesdir * cfg.k + t) % cfg.ndest =
        m * cfg.k % cfg.ndest := by
  have hpos := cfg.k_pos
  have hfirst : m / cfg.filesdir * cfg.filesdir ≤ m := Nat.div_mul_le_self _ _
  have hcycle : cfg.cycle (m * cfg.k) = m / cfg.filesdir := by
    unfold Config.cycle
    rw [Nat.mul_div_cancel _ hpos]
  unfold Created
  rw [hcycle]
  constructor
  · rintro ⟨c, -, hmod, hdest, hc⟩
    refine ⟨c % cfg.k, Nat.mod_lt _ hpos, ?_⟩
    have hstart : m / cfg.filesdir * cfg.filesdir = c / cfg.k := by
      rw [← hc]
      exact Nat.div_mul_cancel (Nat.dvd_of_mod_eq_zero hmod)
    rw [hstart, Nat.div_add_mod', hdest]
  · rintro ⟨t, ht, hturn⟩
    rcases Nat.lt_or_eq_of_le hfirst with hlt | heq
    · have hdiv : (m / cfg.filesdir * cfg.filesdir * cfg.k + t) / cfg.k =
          m / cfg.filesdir * cfg.filesdir := by
        rw [Nat.add_comm, Nat.add_mul_div_right _ _ hpos, Nat.div_eq_of_lt ht, Nat.zero_add]
      refine ⟨_, ?_, ?_, hturn, ?_⟩
      · have hnext : (m / cfg.filesdir * cfg.filesdir + 1) * cfg.k ≤ m * cfg.k :=
          Nat.mul_le_mul_right _ hlt
        rw [Nat.succ_mul] at hnext
        omega
      · rw [hdiv, Nat.mul_mod_left]
      · unfold Config.cycle
        rw [hdiv, Nat.mul_div_cancel _ hfd]
    · refine ⟨m * cfg.k, Nat.le_refl _, ?_, rfl, hcycle⟩
      rw [Nat.mul_div_cancel _ hpos, ← heq, Nat.mul_mod_left]

/-- Every file has its directory: it was there, or one of the buffers of the first file of the cycle
is for the destination as well. -/
def Dirs (cfg : Config) (pre : Nat → Nat → Bool) : Prop :=
  ∀ m, m * cfg.k < cfg.nbuffers * cfg.ndest →
    pre (m * cfg.k % cfg.ndest) (m / cfg.filesdir) = true ∨
      ∃ t < cfg.k, (m / cfg.filesdir * cfg.filesdir * cfg.k + t) % cfg.ndest =
        m * cfg.k % cfg.ndest

theorem dirs_iff (hfd : 0 < cfg.filesdir) :
    Dirs cfg pre ↔ ∀ c < cfg.nbuffers * cfg.ndest, cfg.k ∣ c → HasDir cfg pre c := by
  have hfile : ∀ m, HasDir cfg pre (m * cfg.k) ↔
      (pre (m * cfg.k % cfg.ndest) (m / cfg.filesdir) = true ∨
        ∃ t < cfg.k, (m / cfg.filesdir * cfg.filesdir * cfg.k + t) % cfg.ndest =
          m * cfg.k % cfg.ndest) := by
    intro m
    rw [HasDir, created_file_iff hfd, Config.cycle, Nat.mul_div_cancel _ cfg.k_pos]
  constructor
  · rintro hdirs c hc ⟨m, rfl⟩
    rw [Nat.mul_comm] at hc ⊢
    exact (hfile m).mpr (hdirs m hc)
  · intro hall m hm
    exact (hfile m).mp (hall _ hm (Nat.dvd_mul_left _ _))

/-- While the first file is written, the turn comes to all destinations; or each file has a
directory of its own. -/
theorem dirs_of (hndest : 0 < cfg.ndest) (h : cfg.ndest ≤ cfg.k ∨ cfg.filesdir = 1) :
    Dirs cfg pre := by
  intro m _
  right
  rcases h with hle | hone
  · let first := m / cfg.filesdir * cfg.filesdir * cfg.k
    have hfirst : first ≤ m * cfg.k := Nat.mul_le_mul_right _ (Nat.div_mul_le_self _ _)
    refine ⟨(m * cfg.k - first) % cfg.ndest,
      Nat.lt_of_lt_of_le (Nat.mod_lt _ hndest) hle, ?_⟩
    rw [Nat.add_mod_mod, Nat.add_sub_cancel' hfirst]
  · refine ⟨0, cfg.k_pos, ?_⟩
    rw [hone, Nat.div_one, Nat.mul_one, Nat.add_zero]

/-! ### Files of a destination -/

/-- With nothing in common, the turn comes to a destination once in `ndest` files. -/
theorem filter_turns (hndest : 0 < cfg.ndest) (hcop : Nat.Coprime cfg.k cfg.ndest) {d : Nat}
    (hd : d < cfg.ndest) : ∃ j < cfg.ndest, ∀ a,
      (List.range (a * cfg.ndest)).filter (fun m => m * cfg.k % cfg.ndest = d) =
        (List.range a).map fun i => i * cfg.ndest + j := by
  obtain ⟨j, hj, hturn⟩ := Nat.exists_mul_mod_eq_of_coprime d hcop (Nat.ne_of_gt hndest)
  rw [Nat.mod_eq_of_lt hd, Nat.mul_comm] at hturn
  refine ⟨j, hj, fun a => ?_⟩
  induction a with
  | zero => rw [Nat.zero_mul]; rfl
  | succ a ih =>
      have hone : ∀ i ∈ List.range cfg.ndest,
          decide ((a * cfg.ndest + i) * cfg.k % cfg.ndest = d) = decide (i = j) := by
        intro i hi
        rw [List.mem_range] at hi
        refine decide_eq_decide.mpr ?_
        rw [Nat.add_mul, Nat.mul_right_comm, Nat.mul_add_mod_self_right, ← hturn]
        constructor
        · intro heq
          have hmod : Nat.ModEq cfg.ndest i j := Nat.ModEq.cancel_right_of_coprime hcop.symm heq
          rwa [Nat.ModEq, Nat.mod_eq_of_lt hi, Nat.mod_eq_of_lt hj] at hmod
        · rintro rfl
          rfl
      have hblock : (List.range cfg.ndest).filter
          (fun i => decide ((a * cfg.ndest + i) * cfg.k % cfg.ndest = d)) = [j] := by
        rw [List.filter_congr hone, List.filter_eq,
          List.count_eq_one_of_mem List.nodup_range (List.mem_range.mpr hj), List.replicate_one]
      rw [Nat.succ_mul, List.range_add, List.filter_append, ih, List.range_succ, List.map_append,
        List.filter_map]
      exact congrArg _ (congrArg _ hblock)

/-- A directory has no more files than it may have. -/
theorem perDir_reached (hfd : 0 < cfg.filesdir) (w : List β) (d q : Nat) :
    (reached cfg w).files.countP (fun f => f.dest = d ∧ f.cycle = q) ≤ cfg.filesdir := by
  show ((List.range (turns cfg.k w.length)).map (fileOf cfg w)).countP _ ≤ _
  rw [List.countP_map, List.countP_eq_length_filter]
  have hsub : ((List.range (turns cfg.k w.length)).filter
      ((fun f : File β => decide (f.dest = d ∧ f.cycle = q)) ∘ fileOf cfg w)).Subperm
        (List.range' (q * cfg.filesdir) cfg.filesdir) := by
    refine (List.nodup_range.filter _).subperm fun m hm => ?_
    have hcycle : m / cfg.filesdir = q := (of_decide_eq_true (List.mem_filter.mp hm).2).2
    have hle := Nat.div_mul_le_self m cfg.filesdir
    have hlt := Nat.lt_div_mul_add (a := m) hfd
    rw [hcycle] at hle hlt
    rw [List.mem_range'_1]
    omega
  exact Nat.le_trans hsub.length_le (by rw [List.length_range'])

/-- The files of a destination. -/
def Disk.filesOf (s : Disk β) (d : Nat) : List (File β) := s.files.filter fun f => f.dest = d

theorem filesOf_reached (w : List β) (d : Nat) :
    (reached cfg w).filesOf d = ((List.range (turns cfg.k w.length)).filter
      fun m => m * cfg.k % cfg.ndest = d).map (fileOf cfg w) := List.filter_map

theorem length_fileOf {w : List β} {m : Nat} (hm : m + 1 < turns cfg.k w.length) :
    (fileOf cfg w m).data.length = cfg.k := by
  have hlt := (Strides.lt_turns_iff cfg.k_pos (m + 1)).mp hm
  show (chunk cfg.k w m).length = cfg.k
  rw [Nat.succ_mul] at hlt
  rw [Strides.length_chunk]
  omega

theorem sum_filter (n : Nat) (files : List (File β)) (hdest : ∀ f ∈ files, f.dest < n) :
    ∑ d ∈ Finset.range n, ((files.filter fun f => f.dest = d).flatMap File.data).length =
      (files.flatMap File.data).length := by
  induction files with
  | nil => exact Finset.sum_eq_zero fun d _ => rfl
  | cons f files ih =>
      have hone : ∀ d ∈ Finset.range n,
          (((f :: files).filter fun f => f.dest = d).flatMap File.data).length =
            (if f.dest = d then f.data.length else 0) +
              ((files.filter fun f => f.dest = d).flatMap File.data).length := by
        intro d _
        by_cases hd : f.dest = d
        · rw [List.filter_cons, if_pos (decide_eq_true hd), List.flatMap_cons,
            List.length_append, if_pos hd]
        · rw [List.filter_cons, if_neg (by simpa using hd), if_neg hd, Nat.zero_add]
      rw [Finset.sum_congr rfl hone, Finset.sum_add_distrib,
        ih fun f hf => hdest f (List.mem_cons_of_mem _ hf), Finset.sum_ite_eq,
        if_pos (Finset.mem_range.mpr (hdest f List.mem_cons_self)), List.flatMap_cons,
        List.length_append]

theorem flatMap_files (w : List β) : (reached cfg w).files.flatMap File.data = w := by
  have hall : w.length ≤ turns cfg.k w.length * cfg.k :=
    Nat.le_of_not_lt fun hlt =>
      absurd ((Strides.lt_turns_iff cfg.k_pos _).mpr hlt) (Nat.lt_irrefl _)
  show ((List.range (turns cfg.k w.length)).map (fileOf cfg w)).flatMap File.data = w
  rw [List.flatMap_map]
  refine (Strides.flatMap_chunk cfg.k w _).trans ?_
  rw [List.take_of_length_le hall]

/-- All that is written is in the file of one of the destinations. -/
theorem sum_filesOf (hndest : 0 < cfg.ndest) (w : List β) :
    ∑ d ∈ Finset.range cfg.ndest, (((reached cfg w).filesOf d).flatMap File.data).length =
      w.length := by
  unfold Disk.filesOf
  rw [sum_filter, flatMap_files]
  intro f hf
  obtain ⟨m, -, rfl⟩ := List.mem_map.mp hf
  exact Nat.mod_lt _ hndest

/-! ### What is right -/

/-- Every destination has the first `nbuffers` buffers of the input, in files of `concat` of them;
no directory has too many files, and none has any before there is one. -/
structure Right (cfg : Config) (pre : Nat → Nat → Bool) (input : List β) (s : Disk β) :
    Prop where
  contents : ∀ d < cfg.ndest, (s.filesOf d).flatMap File.data = input.take cfg.nbuffers
  sizes : ∀ d < cfg.ndest, ∀ f ∈ (s.filesOf d).dropLast, f.data.length = max 1 cfg.concat
  perDir : ∀ d q, s.files.countP (fun f => f.dest = d ∧ f.cycle = q) ≤ cfg.filesdir
  created : CreatedFirst pre [] s.ops

/-- What the program is started with. -/
structure Asked (cfg : Config) (input : List β) : Prop where
  filesdir : 0 < cfg.filesdir
  ndest : 0 < cfg.ndest
  nbuffers : 0 < cfg.nbuffers
  input : cfg.nbuffers ≤ input.length

/-- There is one destination; or each has its turn, the files come out even and have their
directories, and the buffers of a file are equal. -/
def Harmless (cfg : Config) (pre : Nat → Nat → Bool) (input : List β) : Prop :=
  input.length = cfg.nbuffers ∧
    (cfg.ndest = 1 ∨
      (Nat.Coprime cfg.k cfg.ndest ∧ cfg.k ∣ cfg.nbuffers ∧ Dirs cfg pre ∧
        ∀ i j, i / cfg.k = j / cfg.k → i < cfg.nbuffers → j < cfg.nbuffers →
          input[i]? = input[j]?))

variable {input : List β}

/-- What has been written in the end. -/
def written (cfg : Config) (input : List β) : List β :=
  (input.take (cfg.nbuffers + 1)).flatMap (List.replicate cfg.ndest)

theorem start_eq (cfg : Config) : (start : Disk β) = reached cfg [] := by
  unfold start reached turns
  simp [opsOf, Nat.div_eq_of_lt (Nat.sub_one_lt_of_lt cfg.k_pos)]

theorem process_start (h : Asked cfg input) :
    process cfg pre input 0 start = reached cfg (written cfg input) ∨
      Dead cfg pre (written cfg input).length (process cfg pre input 0 start) := by
  rw [start_eq cfg]
  refine process_outcome (w := []) h.ndest input (Nat.zero_mul _).symm (Nat.zero_le _) ?_
  rw [written, Strides.length_flatMap_replicate, Nat.zero_add, Nat.sub_zero]

theorem length_written (h : Asked cfg input) (hright : Right cfg pre input (reached cfg
    (written cfg input))) : input.length = cfg.nbuffers := by
  have hsum := sum_filesOf h.ndest (written cfg input)
  have heach : ∀ d ∈ Finset.range cfg.ndest,
      (((reached cfg (written cfg input)).filesOf d).flatMap File.data).length =
        cfg.nbuffers := by
    intro d hd
    rw [hright.contents d (Finset.mem_range.mp hd), List.length_take,
      Nat.min_eq_left h.input]
  rw [Finset.sum_const_nat heach, Finset.card_range, written,
    Strides.length_flatMap_replicate, List.length_take, Nat.mul_comm] at hsum
  have hmin := Nat.eq_of_mul_eq_mul_right h.ndest hsum
  have := h.input
  omega

theorem written_eq (hlen : input.length = cfg.nbuffers) :
    written cfg input = input.flatMap (List.replicate cfg.ndest) := by
  unfold written
  rw [List.take_of_length_le (by omega)]

theorem length_written_eq (hlen : input.length = cfg.nbuffers) :
    (written cfg input).length = cfg.nbuffers * cfg.ndest := by
  rw [written_eq hlen, Strides.length_flatMap_replicate, hlen]

/-- Where no directory is missing, everything is written. -/
theorem process_live (h : Asked cfg input) (hlen : input.length = cfg.nbuffers)
    (hdirs : Dirs cfg pre) :
    process cfg pre input 0 start = reached cfg (written cfg input) := by
  refine (process_start h).resolve_right fun hdead => ?_
  obtain ⟨-, c, hc, hdvd, hnot, -⟩ := hdead
  rw [length_written_eq hlen] at hc
  exact hnot ((dirs_iff h.filesdir).mp hdirs c hc hdvd)

theorem created_reached_iff (h : Asked cfg input) (hlen : input.length = cfg.nbuffers) :
    CreatedFirst pre [] (reached cfg (written cfg input)).ops ↔ Dirs cfg pre := by
  refine (createdFirst_opsOf _).trans ?_
  rw [length_written_eq hlen, dirs_iff h.filesdir]

theorem right_single (h : Asked cfg input) (hone : cfg.ndest = 1)
    (hlen : input.length = cfg.nbuffers) :
    Right cfg pre input (reached cfg (written cfg input)) := by
  have hall : ∀ d < cfg.ndest, (reached cfg (written cfg input)).filesOf d =
      (reached cfg (written cfg input)).files := by
    intro d hd
    refine List.filter_eq_self.mpr fun f hf => decide_eq_true ?_
    obtain ⟨m, -, rfl⟩ := List.mem_map.mp hf
    show m * cfg.k % cfg.ndest = d
    rw [hone, Nat.mod_one]
    omega
  have hk := cfg.k_pos
  refine ⟨fun d hd => ?_, fun d hd f hf => ?_, fun d q => perDir_reached h.filesdir _ d q,
    (created_reached_iff h hlen).mpr (dirs_of h.ndest (.inl (by omega)))⟩
  · rw [hall d hd, flatMap_files, written_eq hlen, hone,
      List.take_of_length_le (Nat.le_of_eq hlen)]
    exact List.flatMap_singleton' input
  · rw [hall d hd] at hf
    have hfiles : (reached cfg (written cfg input)).files =
        (List.range (turns cfg.k (written cfg input).length)).map (fileOf cfg _) := rfl
    rw [hfiles, ← List.map_dropLast] at hf
    obtain ⟨m, hm, rfl⟩ := List.mem_map.mp hf
    rw [List.dropLast_eq_take, List.length_range, List.take_range, List.mem_range] at hm
    exact length_fileOf (by omega)

/-! ### Several destinations -/

/-- The buffers of a file, for whichever destination they were. -/
theorem getElem?_fileOf (hndest : 0 < cfg.ndest) {m t : Nat} (ht : t < cfg.k) :
    (fileOf cfg (input.flatMap (List.replicate cfg.ndest)) m).data[t]? =
      input[(m * cfg.k + t) / cfg.ndest]? := by
  show (chunk cfg.k _ m)[t]? = _
  rw [Strides.getElem?_chunk ht, Strides.getElem?_flatMap_replicate hndest]

theorem turns_written {a : Nat} (hlen : input.length = a * cfg.k) :
    turns cfg.k (input.flatMap (List.replicate cfg.ndest)).length = a * cfg.ndest := by
  have hmul : (input.flatMap (List.replicate cfg.ndest)).length = a * cfg.ndest * cfg.k := by
    rw [Strides.length_flatMap_replicate, hlen, Nat.mul_right_comm]
  rw [hmul, Strides.turns_of_dvd cfg.k_pos (Nat.dvd_mul_left _ _), Nat.mul_div_cancel _ cfg.k_pos]

/-- Without anything left over, all files are full. -/
theorem length_fileOf_of_eq {a m : Nat} (hlen : input.length = a * cfg.k)
    (hm : m < a * cfg.ndest) :
    (fileOf cfg (input.flatMap (List.replicate cfg.ndest)) m).data.length = cfg.k := by
  have hle : (m + 1) * cfg.k ≤ a * cfg.ndest * cfg.k := Nat.mul_le_mul_right _ hm
  rw [Nat.succ_mul] at hle
  show (chunk cfg.k _ m).length = cfg.k
  rw [Strides.length_chunk, Strides.length_flatMap_replicate, hlen, Nat.mul_right_comm]
  omega

/-- Where a file is made of equal buffers, each file of a destination is the next chunk of the
input. -/
theorem fileOf_eq_chunk (hndest : 0 < cfg.ndest) {a i j : Nat} (hlen : input.length = a * cfg.k)
    (hblocks : ∀ i j, i / cfg.k = j / cfg.k → i < input.length → j < input.length →
      input[i]? = input[j]?) (hi : i < a) (hj : j < cfg.ndest) :
    (fileOf cfg (input.flatMap (List.replicate cfg.ndest)) (i * cfg.ndest + j)).data =
      chunk cfg.k input i := by
  have hpos := cfg.k_pos
  have hlast : (i + 1) * cfg.k ≤ a * cfg.k := Nat.mul_le_mul_right _ hi
  have hturns : (j + 1) * cfg.k ≤ cfg.ndest * cfg.k := Nat.mul_le_mul_right _ hj
  rw [Nat.succ_mul] at hlast hturns
  have hindex : i * cfg.ndest + j < a * cfg.ndest := by
    have := Nat.mul_le_mul_right cfg.ndest hi
    rw [Nat.succ_mul] at this
    omega
  have hsame : ∀ x < cfg.k, (i * cfg.k + x) / cfg.k = i := by
    intro x hx
    rw [Nat.mul_comm, Nat.mul_add_div hpos, Nat.div_eq_of_lt hx, Nat.add_zero]
  refine List.ext_getElem? fun t => ?_
  by_cases ht : t < cfg.k
  · have hplace : (i * cfg.ndest + j) * cfg.k + t = j * cfg.k + t + i * cfg.k * cfg.ndest := by
      rw [Nat.add_mul, Nat.mul_right_comm, Nat.add_assoc, Nat.add_comm]
    have hx : (j * cfg.k + t) / cfg.ndest < cfg.k := by
      rw [Nat.div_lt_iff_lt_mul hndest, Nat.mul_comm cfg.k]
      omega
    rw [getElem?_fileOf hndest ht, Strides.getElem?_chunk ht, hplace,
      Nat.add_mul_div_right _ _ hndest, Nat.add_comm]
    refine hblocks _ _ ?_ (by omega) (by omega)
    rw [hsame _ hx, hsame t ht]
  · have hfull := length_fileOf_of_eq hlen hindex
    rw [List.getElem?_eq_none (by omega), List.getElem?_eq_none]
    rw [Strides.length_chunk]
    omega

theorem right_several (h : Asked cfg input) (hlen : input.length = cfg.nbuffers)
    (hcop : Nat.Coprime cfg.k cfg.ndest) (hdvd : cfg.k ∣ cfg.nbuffers)
    (hdirs : Dirs cfg pre)
    (hblocks : ∀ i j, i / cfg.k = j / cfg.k → i < input.length → j < input.length →
      input[i]? = input[j]?) : Right cfg pre input (reached cfg (written cfg input)) := by
  obtain ⟨a, ha⟩ := hdvd
  have hall : input.length = a * cfg.k := by rw [hlen, ha, Nat.mul_comm]
  have hcreated := (created_reached_iff h hlen).mpr hdirs
  rw [written_eq hlen] at hcreated ⊢
  refine ⟨fun d hd => ?_, fun d hd f hf => ?_, fun d q => perDir_reached h.filesdir _ d q,
    hcreated⟩
  · obtain ⟨j, hj, hfilter⟩ := filter_turns h.ndest hcop hd
    rw [filesOf_reached, turns_written hall, hfilter, List.map_map, List.flatMap_map,
      ← hlen, List.take_length]
    have hchunks := Strides.flatMap_chunk cfg.k input a
    rw [← hall, List.take_length] at hchunks
    refine Eq.trans (List.flatMap_congr fun i hi => ?_) hchunks
    exact fileOf_eq_chunk h.ndest hall hblocks (List.mem_range.mp hi) hj
  · have hf := List.mem_of_mem_dropLast hf
    rw [filesOf_reached, turns_written hall] at hf
    obtain ⟨m, hm, rfl⟩ := List.mem_map.mp hf
    exact length_fileOf_of_eq hall (List.mem_range.mp (List.mem_filter.mp hm).1)

theorem contents_ne_nil (h : Asked cfg input) : input.take cfg.nbuffers ≠ [] := by
  intro hnil
  have hlen := congrArg List.length hnil
  have hpos := h.nbuffers
  have hinput := h.input
  rw [List.length_take, List.length_nil] at hlen
  omega

theorem coprime_of_right (h : Asked cfg input) (hseveral : 1 < cfg.ndest)
    (hright : Right cfg pre input (reached cfg (written cfg input))) :
    Nat.Coprime cfg.k cfg.ndest := by
  have hsecond := hright.contents 1 hseveral
  have hne : (reached cfg (written cfg input)).filesOf 1 ≠ [] := by
    intro hnil
    rw [hnil] at hsecond
    exact contents_ne_nil h hsecond.symm
  obtain ⟨f, hf⟩ := List.exists_mem_of_ne_nil _ hne
  rw [filesOf_reached] at hf
  obtain ⟨m, hm, -⟩ := List.mem_map.mp hf
  have hmod : m * cfg.k % cfg.ndest = 1 := of_decide_eq_true (List.mem_filter.mp hm).2
  have hdvd : Nat.gcd cfg.k cfg.ndest ∣ m * cfg.k % cfg.ndest :=
    (Nat.dvd_mod_iff (Nat.gcd_dvd_right _ _)).mpr
      (Nat.dvd_trans (Nat.gcd_dvd_left _ _) (Nat.dvd_mul_left _ _))
  rw [hmod] at hdvd
  exact Nat.dvd_one.mp hdvd

/-- The last file that is written is one destination's, so all files of another are full. -/
theorem dvd_of_right (h : Asked cfg input) (hseveral : 1 < cfg.ndest)
    (hright : Right cfg pre input (reached cfg (written cfg input))) : cfg.k ∣ cfg.nbuffers := by
  let last := turns cfg.k (written cfg input).length - 1
  obtain ⟨d, hd, hother⟩ : ∃ d < cfg.ndest, last * cfg.k % cfg.ndest ≠ d := by
    by_cases hzero : last * cfg.k % cfg.ndest = 0
    · exact ⟨1, hseveral, by omega⟩
    · exact ⟨0, h.ndest, hzero⟩
  have hlen := congrArg List.length (hright.contents d hd)
  have hfull : ∀ f ∈ (reached cfg (written cfg input)).filesOf d, f.data.length = cfg.k := by
    intro f hf
    rw [filesOf_reached] at hf
    obtain ⟨m, hm, rfl⟩ := List.mem_map.mp hf
    obtain ⟨hm, hdest⟩ := List.mem_filter.mp hm
    have hlt := List.mem_range.mp hm
    refine length_fileOf (Nat.lt_of_le_of_ne hlt fun heq => hother ?_)
    obtain rfl : m = last := by omega
    exact of_decide_eq_true hdest
  rw [Strides.length_flatMap_of_forall hfull, List.length_take, Nat.min_eq_left h.input] at hlen
  exact ⟨_, by rw [← hlen, Nat.mul_comm]⟩

/-- The first destination has every `ndest`th file. -/
theorem filter_first (hndest : 0 < cfg.ndest) (hcop : Nat.Coprime cfg.k cfg.ndest) (a : Nat) :
    (List.range (a * cfg.ndest)).filter (fun m => m * cfg.k % cfg.ndest = 0) =
      (List.range a).map fun i => i * cfg.ndest := by
  obtain ⟨j, -, hfilter⟩ := filter_turns hndest hcop hndest
  have hzero : 0 ∈ (List.range (1 * cfg.ndest)).filter
      fun m => m * cfg.k % cfg.ndest = 0 := by
    refine List.mem_filter.mpr ⟨List.mem_range.mpr (by omega), decide_eq_true ?_⟩
    rw [Nat.zero_mul, Nat.zero_mod]
  rw [hfilter] at hzero
  obtain ⟨i, hi, hj⟩ := List.mem_map.mp hzero
  obtain rfl : j = 0 := by omega
  exact hfilter a

theorem blocks_of_right (h : Asked cfg input) (hlen : input.length = cfg.nbuffers)
    (hcop : Nat.Coprime cfg.k cfg.ndest) (hseveral : 1 < cfg.ndest) (hdvd : cfg.k ∣ cfg.nbuffers)
    (hright : Right cfg pre input (reached cfg (written cfg input))) {i j : Nat}
    (hij : i / cfg.k = j / cfg.k) (hi : i < cfg.nbuffers) (hj : j < cfg.nbuffers) :
    input[i]? = input[j]? := by
  obtain ⟨a, ha⟩ := hdvd
  have hall : input.length = a * cfg.k := by rw [hlen, ha, Nat.mul_comm]
  have hpos := cfg.k_pos
  have hfirst := hright.contents 0 h.ndest
  rw [written_eq hlen, filesOf_reached, turns_written hall, filter_first h.ndest hcop,
    List.map_map, List.flatMap_map, ← hlen, List.take_length] at hfirst
  have hfull : ∀ q < a, (fileOf cfg (input.flatMap (List.replicate cfg.ndest))
      (q * cfg.ndest)).data.length = cfg.k := by
    intro q hq
    exact length_fileOf_of_eq hall (Nat.mul_lt_mul_of_pos_right hq h.ndest)
  -- a file of the first destination begins with the buffers of all
  have hstep : ∀ q < a, ∀ t < cfg.k, input[q * cfg.k + t]? = input[q * cfg.k + t / cfg.ndest]? := by
    intro q hq t ht
    have hchunk := Strides.chunk_flatMap hfull hq
    have hinput : (List.range a).flatMap (fun q => (fileOf cfg (input.flatMap
        (List.replicate cfg.ndest)) (q * cfg.ndest)).data) = input := hfirst
    rw [hinput] at hchunk
    rw [← Strides.getElem?_chunk ht, hchunk, getElem?_fileOf h.ndest ht, Nat.mul_right_comm,
      Nat.add_comm, Nat.add_mul_div_right _ _ h.ndest, Nat.add_comm]
  have hsame : ∀ q < a, ∀ t < cfg.k, input[q * cfg.k + t]? = input[q * cfg.k]? := by
    intro q hq t
    induction t using Nat.strongRecOn with
    | ind t ih =>
        intro ht
        rcases Nat.eq_zero_or_pos t with rfl | htpos
        · rw [Nat.add_zero]
        · have hless := Nat.div_lt_self htpos hseveral
          rw [hstep q hq t ht]
          exact ih _ hless (Nat.lt_trans hless ht)
  have heach : ∀ i < cfg.nbuffers, input[i]? = input[i / cfg.k * cfg.k]? := by
    intro i hi
    have hq : i / cfg.k < a := by
      rw [Nat.div_lt_iff_lt_mul hpos]
      omega
    have h := hsame _ hq (i % cfg.k) (Nat.mod_lt i hpos)
    rwa [Nat.div_add_mod'] at h
  rw [heach i hi, heach j hj, hij]

/--
**The files are right if and only if there is one destination and nothing behind the buffers; or
nothing tells the destinations from each other.**
-/
theorem process_right_iff (h : Asked cfg input) :
    Right cfg pre input (process cfg pre input 0 start) ↔ Harmless cfg pre input := by
  constructor
  · intro hright
    have hlive : process cfg pre input 0 start = reached cfg (written cfg input) :=
      (process_start h).resolve_right fun hdead => hdead.not_createdFirst hright.created
    rw [hlive] at hright
    have hlen := length_written h hright
    refine ⟨hlen, ?_⟩
    by_cases hone : cfg.ndest = 1
    · exact .inl hone
    · have hndest := h.ndest
      have hseveral : 1 < cfg.ndest := by omega
      have hcop := coprime_of_right h hseveral hright
      have hdvd := dvd_of_right h hseveral hright
      exact .inr ⟨hcop, hdvd, (created_reached_iff h hlen).mp hright.created,
        fun i j hij hi hj => blocks_of_right h hlen hcop hseveral hdvd hright hij hi hj⟩
  · rintro ⟨hlen, hone | ⟨hcop, hdvd, hdirs, hblocks⟩⟩
    · have hk := cfg.k_pos
      rw [process_live h hlen (dirs_of h.ndest (.inl (by omega)))]
      exact right_single h hone hlen
    · rw [process_live h hlen hdirs]
      refine right_several h hlen hcop hdvd hdirs fun i j hij hi hj => ?_
      exact hblocks i j hij (by omega) (by omega)

/-- Two destinations, and so many buffers for each. -/
def two (nbuffers concat : Nat) : Config where
  filesdir := 100
  concat := concat
  nbuffers := nbuffers
  ndest := 2

/-- No directory is there yet. -/
def fresh (_ _ : Nat) : Bool := false

theorem three_equal_right :
    Right (two 3 3) fresh [7, 7, 7] (process (two 3 3) fresh [7, 7, 7] 0 start) := by
  refine (process_right_iff ⟨by decide, by decide, by decide, by decide⟩).mpr
    ⟨rfl, .inr ⟨by decide, by decide, dirs_of (by decide) (.inl (by decide)),
      fun i j _ hi hj => ?_⟩⟩
  have hall : ∀ i < 3, [7, 7, 7][i]? = some 7 := by decide
  rw [hall i hi, hall j hj]

/-- The second destination has no directory for its first file. -/
theorem two_not_right : ¬Right (two 1 0) fresh [5] (process (two 1 0) fresh [5] 0 start) := by
  intro hright
  have hsecond := hright.contents 1 (by decide)
  exact absurd hsecond (by decide)

end StreamDisk

end Acq400
