/-
When an update of the settings of a `MultiEventServer` is all or nothing.

The first two numbers of a line are scanned into `pre` and `post` before it is known
whether the line is accepted.  A line that is not accepted therefore does no harm only if
it repeats what is there already, and one that is does if the byte counts fit in an `int`.
-/
import Acq400.Lib.Run
import Acq400.Stream.MultiEvent

namespace Acq400.MultiEventServer

variable {s t : MultiEventServer} {sampleSize : Nat} {line : List Char}

/-- The byte counts are those of `pre` and `post`. -/
def Agrees (sampleSize : Nat) (s : MultiEventServer) : Prop :=
  s.preBytes = s.pre * sampleSize ∧ s.postBytes = (s.post + 1) * sampleSize

/-- Everything that a line sets, but for the limit and the count, is as it was. -/
structure Kept (s t : MultiEventServer) : Prop where
  pre : t.pre = s.pre
  post : t.post = s.post
  preBytes : t.preBytes = s.preBytes
  postBytes : t.postBytes = s.postBytes
  maxfiles : t.maxfiles = s.maxfiles
  updateNumber : t.updateNumber = s.updateNumber

/-- `pre` and `post` are those of the line. -/
def Takes (t : MultiEventServer) (line : List Char) : Prop :=
  (fields line)[0]? = some t.pre ∧ (fields line)[1]? = some t.post

/-- The update accepts the line, and takes it over, or leaves everything as it was. -/
def Atomic (sampleSize : Nat) (s : MultiEventServer) (line : List Char) : Prop :=
  if s.accepts line then
    Takes (s.updatePrams sampleSize line) line ∧ Agrees sampleSize (s.updatePrams sampleSize line)
  else Kept s (s.updatePrams sampleSize line)

/-- The byte counts of an accepted line fit, and the line says nothing new otherwise. -/
def Harmless (sampleSize : Nat) (s : MultiEventServer) (line : List Char) : Prop :=
  if s.accepts line then
    (∀ pre ∈ (fields line)[0]?, CInt.InRange (pre * sampleSize)) ∧
      ∀ post ∈ (fields line)[1]?, CInt.InRange ((post + 1) * sampleSize)
  else
    (∀ pre ∈ (fields line)[0]?, pre = s.pre) ∧ ∀ post ∈ (fields line)[1]?, post = s.post

instance : Decidable (Harmless sampleSize s line) :=
  inferInstanceAs (Decidable (if s.accepts line then _ else _))

/-! ### One line -/

theorem exists_fields (haccepts : s.accepts line = true) :
    ∃ pre post maxfiles rest, fields line = pre :: post :: maxfiles :: rest := by
  unfold accepts at haccepts
  split at haccepts
  · rename_i pre post maxfiles hfields
    exact ⟨pre, post, maxfiles, [], hfields⟩
  · rename_i pre post maxfiles updateNumber hfields
    exact ⟨pre, post, maxfiles, [updateNumber], hfields⟩
  · cases haccepts

theorem takeMaxfiles_frame (s : MultiEventServer) (line : List Char) :
    (s.takeMaxfiles line).pre = s.pre ∧ (s.takeMaxfiles line).post = s.post := by
  unfold takeMaxfiles
  dsimp only
  split_ifs <;> split <;> constructor <;> rfl

theorem updatePrams_accepted (sampleSize : Nat) (haccepts : s.accepts line = true) :
    (s.updatePrams sampleSize line).pre = (s.scanPrams line).pre ∧
      (s.updatePrams sampleSize line).post = (s.scanPrams line).post ∧
      (s.updatePrams sampleSize line).preBytes =
        CInt.wrap ((s.scanPrams line).pre * sampleSize) ∧
      (s.updatePrams sampleSize line).postBytes =
        CInt.wrap (((s.scanPrams line).post + 1) * sampleSize) := by
  obtain ⟨hpre, hpost⟩ := takeMaxfiles_frame (s.scanPrams line) line
  unfold updatePrams
  rw [if_pos haccepts]
  dsimp only
  rw [hpre, hpost]
  exact ⟨rfl, rfl, rfl, rfl⟩

theorem updatePrams_rejected (hrejects : ¬ s.accepts line = true) :
    s.updatePrams sampleSize line = s.scanPrams line := by
  unfold updatePrams
  exact if_neg hrejects

theorem atomic_of_accepts (haccepts : s.accepts line = true) :
    Atomic sampleSize s line ↔
      CInt.InRange ((s.scanPrams line).pre * sampleSize) ∧
        CInt.InRange (((s.scanPrams line).post + 1) * sampleSize) := by
  obtain ⟨pre, post, maxfiles, rest, hfields⟩ := exists_fields haccepts
  obtain ⟨hpre, hpost, hpreBytes, hpostBytes⟩ :=
    updatePrams_accepted sampleSize haccepts
  have htakes : Takes (s.updatePrams sampleSize line) line := by
    unfold Takes
    rw [hpre, hpost]
    unfold scanPrams
    rw [hfields]
    exact ⟨rfl, rfl⟩
  unfold Atomic Agrees
  rw [if_pos haccepts, hpre, hpost, hpreBytes, hpostBytes, CInt.wrap_eq_self_iff,
    CInt.wrap_eq_self_iff]
  exact and_iff_right htakes

theorem atomic_of_rejects (hrejects : ¬ s.accepts line = true) :
    Atomic sampleSize s line ↔
      (s.scanPrams line).pre = s.pre ∧ (s.scanPrams line).post = s.post := by
  unfold Atomic
  rw [if_neg hrejects, updatePrams_rejected hrejects]
  constructor
  · intro hkept
    exact ⟨hkept.pre, hkept.post⟩
  · intro hsame
    exact ⟨hsame.1, hsame.2, rfl, rfl, rfl, rfl⟩

theorem atomic_iff : Atomic sampleSize s line ↔ Harmless sampleSize s line := by
  unfold Harmless
  by_cases haccepts : s.accepts line = true
  · obtain ⟨pre, post, maxfiles, rest, hfields⟩ := exists_fields haccepts
    rw [atomic_of_accepts haccepts, if_pos haccepts]
    unfold scanPrams
    rw [hfields]
    simp
  · rw [atomic_of_rejects haccepts, if_neg haccepts]
    unfold scanPrams
    refine and_congr ?_ ?_
    · cases (fields line)[0]? <;> simp
    · cases (fields line)[1]? <;> simp

/-! ### All lines -/

theorem Kept.agrees (hkept : Kept s t) (hs : Agrees sampleSize s) : Agrees sampleSize t := by
  unfold Agrees
  rw [hkept.preBytes, hkept.postBytes, hkept.pre, hkept.post]
  exact hs

theorem Atomic.agrees (hatomic : Atomic sampleSize s line) (hs : Agrees sampleSize s) :
    Agrees sampleSize (s.updatePrams sampleSize line) := by
  unfold Atomic at hatomic
  split at hatomic
  · exact hatomic.2
  · exact hatomic.agrees hs

/-- The settings that are read, if there are any, are harmless. -/
def HarmlessTurn (sampleSize : Nat) (s : MultiEventServer) (line : Option (List Char)) : Prop :=
  ∀ l ∈ line, Harmless sampleSize s l

instance (line : Option (List Char)) : Decidable (HarmlessTurn sampleSize s line) :=
  inferInstanceAs (Decidable (∀ l ∈ line, Harmless sampleSize s l))

theorem serve_agrees {turn : Option (List Char)} (hs : Agrees sampleSize s)
    (hturn : HarmlessTurn sampleSize s turn) (hserve : s.serve sampleSize turn = some t) :
    Agrees sampleSize t := by
  obtain rfl := Option.some.inj hserve
  cases turn with
  | none => exact hs
  | some line => exact (atomic_iff.mpr (hturn line rfl)).agrees hs

/-- The constructor does not know of byte counts, so its line has to be accepted. -/
theorem create_agrees (haccepts : (s.start).accepts line = true)
    (hline : Harmless sampleSize s.start line) : Agrees sampleSize (create sampleSize s line) := by
  have hatomic := atomic_iff.mpr hline
  unfold Atomic at hatomic
  rw [if_pos haccepts] at hatomic
  exact hatomic.2

/-- **An update is all or nothing exactly if the line is harmless, and where all lines are, the
byte counts agree throughout.** -/
theorem update_right_iff (sampleSize : Nat) :
    (∀ s line, Atomic sampleSize s line ↔ Harmless sampleSize s line) ∧
    ∀ memory line turns t, (start memory).accepts line = true →
      Harmless sampleSize (start memory) line →
      Lts.Meets (serve sampleSize) (HarmlessTurn sampleSize) (create sampleSize memory line) turns →
      Lts.run (serve sampleSize) (create sampleSize memory line) turns = some t →
      Agrees sampleSize t := by
  refine ⟨fun s line => atomic_iff, ?_⟩
  intro memory line turns t haccepts hline hmeets hrun
  exact Lts.run_invariant_of (Agrees sampleSize)
    (fun s turn s' hs hturn hserve => serve_agrees hs hturn hserve) turns _ t
    (create_agrees haccepts hline) hmeets hrun

/-! ### A line that comes again -/

/-- A server as its memory may be. -/
def memory : MultiEventServer where
  pre := 0
  post := 0
  maxfiles := 0
  preBytes := 0
  postBytes := 0
  updateNumber := 0
  maxfilesLimit := 199
  evCount := 0

/-- `"100,200,5,1"`. -/
def firstLine : List Char := ['1', '0', '0', ',', '2', '0', '0', ',', '5', ',', '1']

/-- `"50,60,5,1"`. -/
def staleLine : List Char := ['5', '0', ',', '6', '0', ',', '5', ',', '1']

/-- The line that is there already does no harm. -/
theorem firstLine_again :
    Agrees 16 { create 16 memory firstLine with evCount := 2 } :=
  (update_right_iff 16).2 memory firstLine [some firstLine, none] _ (by decide) (by decide)
    (by decide) rfl

/-- A line with the number of the last one is not accepted, but its `pre` and `post` stay. -/
theorem staleLine_pre :
    ¬ Atomic 16 (create 16 memory firstLine) staleLine ∧
      ∃ t, Lts.run (serve 16) (create 16 memory firstLine) [some staleLine] = some t ∧
        t.pre = 50 ∧ t.preBytes = 1600 ∧ ¬ Agrees 16 t := by
  refine ⟨?_, _, rfl, rfl, rfl, ?_⟩
  · rw [atomic_iff]
    decide
  · rintro ⟨hpre, _⟩
    exact absurd hpre (by decide)

end Acq400.MultiEventServer
