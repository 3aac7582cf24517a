/-
What poison does to the data of one buffer.

The stash is taken word by word and the test is a conjunction, so a buffer the
DMA engine has half passed counts as not overwritten, and `clear_poison_from_buffer`
then puts both stashed words back, the one the engine has written included.

`History` records what the client of a buffer is owed: the words as DMA alone
would leave them, what they were at the last poisoning and which were written
since.  `Tracks` relates a device to that record, each operation keeps it, and
`clear_transparent_iff` reads off it exactly when clearing gives the data back.
-/
import Acq400.Driver.AxiChain

namespace Acq400

namespace Dev

/-! ### The two poison words -/

theorem poisonWord_ne (adev : Dev) : adev.poisonWord0 ≠ adev.poisonWord1 := by
  have h : adev.poisonWord0 < 2 ^ 32 := Nat.mod_lt _ (by decide)
  unfold poisonWord1
  omega

@[simp] theorem poisonOffset_poisonWord0 (adev : Dev) :
    adev.poisonOffset.2.poisonWord0 = adev.poisonWord0 := by
  by_cases h0 : adev.par.axiPoisonOffset = 0
  · simp [poisonWord0, poisonOffset, h0]
  · by_cases hb : adev.bufferlen < adev.par.axiPoisonOffset
    · by_cases hz : adev.bufferlen = 0
      · simp [poisonWord0, poisonOffset, h0, hz, Nat.pos_of_ne_zero h0]
      · simp [poisonWord0, poisonOffset, h0, hb, hz]
    · simp [poisonWord0, poisonOffset, h0, hb]

/-- Where the poison stands depends on the parameter and the buffer length only. -/
theorem poisonWord0_congr {adev adev' : Dev} (hpar : adev'.par = adev.par)
    (hlen : adev'.bufferlen = adev.bufferlen) : adev'.poisonWord0 = adev.poisonWord0 := by
  have hoff : adev'.poisonOffset.1 = adev.poisonOffset.1 := by
    unfold poisonOffset
    rw [hpar, hlen]
    split <;> rfl
  unfold poisonWord0
  rw [hoff]

@[simp] theorem setWord_poisonWord0 (adev : Dev) (hbm : HbmPtr) (w : Nat) (v : UInt32) :
    (adev.setWord hbm w v).poisonWord0 = adev.poisonWord0 := poisonWord0_congr rfl rfl

@[simp] theorem setWord_poisonWord1 (adev : Dev) (hbm : HbmPtr) (w : Nat) (v : UInt32) :
    (adev.setWord hbm w v).poisonWord1 = adev.poisonWord1 := by
  simp only [poisonWord1, setWord_poisonWord0]

@[simp] theorem setWord_va (adev : Dev) (hbm : HbmPtr) (w : Nat) (v : UInt32) :
    ((adev.setWord hbm w v).hb hbm).va = Function.update (adev.hb hbm).va w v := by
  simp [setWord]

@[simp] theorem setWord_poisonData (adev : Dev) (hbm : HbmPtr) (w : Nat) (v : UInt32) :
    ((adev.setWord hbm w v).hb hbm).poisonData = (adev.hb hbm).poisonData := by
  simp [setWord]

@[simp] theorem poisonOneBuffer_poisonWord0 (adev : Dev) (hbm : HbmPtr) :
    (adev.poisonOneBuffer hbm).poisonWord0 = adev.poisonWord0 := by
  refine (poisonWord0_congr ?_ ?_).trans adev.poisonOffset_poisonWord0 <;> rfl

@[simp] theorem poisonOneBuffer_poisonWord1 (adev : Dev) (hbm : HbmPtr) :
    (adev.poisonOneBuffer hbm).poisonWord1 = adev.poisonWord1 := by
  simp only [poisonWord1, poisonOneBuffer_poisonWord0]

theorem poisonOneBuffer_va (adev : Dev) (hbm : HbmPtr) :
    ((adev.poisonOneBuffer hbm).hb hbm).va
      = Function.update (Function.update (adev.hb hbm).va adev.poisonWord0 poison0)
          adev.poisonWord1 poison1 := by
  simp [poisonOneBuffer]

theorem poisonOneBuffer_poisonData (adev : Dev) (hbm : HbmPtr) :
    ((adev.poisonOneBuffer hbm).hb hbm).poisonData
      = stash (adev.hb hbm) adev.poisonWord0 adev.poisonWord1 := by
  simp [poisonOneBuffer]

end Dev

/-! ### A buffer in the hands of DMA and the poison code -/

/-- What can happen to a buffer before its poison is cleared. -/
inductive PoisonOp
  | poison
  | dma (word : Nat) (value : UInt32)

/-- `poison_one_buffer(adev, hbm)`, or one word written by the DMA engine. -/
def poisonStep (hbm : HbmPtr) (adev : Dev) : PoisonOp → Dev
  | .poison => adev.poisonOneBuffer hbm
  | .dma word value => adev.setWord hbm word value

/-- What the buffer's client is owed. -/
structure History where
  /-- The words as DMA alone would have left them. -/
  data : Nat → UInt32
  /-- The data at the last poisoning. -/
  before : Nat → UInt32
  /-- The words DMA wrote since then. -/
  written : Nat → Bool
  poisoned : Bool

/-- The history of a buffer nobody has touched yet. -/
def History.start (va : Nat → UInt32) : History :=
  { data := va, before := va, written := fun _ => false, poisoned := false }

def History.step (g : History) : PoisonOp → History
  | .poison => { data := g.data, before := g.data, written := fun _ => false, poisoned := true }
  | .dma word value =>
    { g with
      data := Function.update g.data word value
      written := Function.update g.written word true }

/-- The last value DMA wrote since the last poisoning, else the value before it. -/
def History.expected (g : History) (word : Nat) : UInt32 :=
  if g.written word then g.data word else g.before word

/-- DMA writes neither poison constant to the word it stands in. -/
def NonPoison (w0 w1 : Nat) : PoisonOp → Prop
  | .poison => True
  | .dma word value => (word = w0 → value ≠ poison0) ∧ (word = w1 → value ≠ poison1)

instance (w0 w1 : Nat) : DecidablePred (NonPoison w0 w1)
  | .poison => isTrue trivial
  | .dma word value =>
    inferInstanceAs (Decidable ((word = w0 → value ≠ poison0) ∧ (word = w1 → value ≠ poison1)))

/--
The device holds what the history says: a poison word that DMA has not reached
since the last poisoning holds its constant with the data in the stash, and every
other word holds the data.
-/
structure Tracks (w0 w1 : Nat) (buf : Hbm) (g : History) : Prop where
  clean0 : g.data w0 ≠ poison0
  clean1 : g.data w1 ≠ poison1
  kept : ∀ w, g.written w = false → g.data w = g.before w
  words : ∀ w, (g.poisoned = true → g.written w = false → w ≠ w0 ∧ w ≠ w1) →
    buf.va w = g.data w
  poison0 : g.poisoned = true → g.written w0 = false → buf.va w0 = poison0
  poison1 : g.poisoned = true → g.written w1 = false → buf.va w1 = poison1
  stash : g.poisoned = true → buf.poisonData = (g.before w0, g.before w1)

namespace Tracks

variable {w0 w1 : Nat} {buf : Hbm} {g : History}

theorem start (h0 : buf.va w0 ≠ Acq400.poison0) (h1 : buf.va w1 ≠ Acq400.poison1) :
    Tracks w0 w1 buf (History.start buf.va) where
  clean0 := h0
  clean1 := h1
  kept _ _ := rfl
  words _ _ := rfl
  poison0 h := by simp [History.start] at h
  poison1 h := by simp [History.start] at h
  stash h := by simp [History.start] at h

theorem va_ne_poison0 (h : Tracks w0 w1 buf g) :
    buf.va w0 ≠ Acq400.poison0 ↔ (g.poisoned = true → g.written w0 = true) := by
  constructor
  · intro hva hp
    by_contra hw
    exact hva (h.poison0 hp (by simpa using hw))
  · intro hw
    rw [h.words w0 (fun hp hf => by simp [hw hp] at hf)]
    exact h.clean0

theorem va_ne_poison1 (h : Tracks w0 w1 buf g) :
    buf.va w1 ≠ Acq400.poison1 ↔ (g.poisoned = true → g.written w1 = true) := by
  constructor
  · intro hva hp
    by_contra hw
    exact hva (h.poison1 hp (by simpa using hw))
  · intro hw
    rw [h.words w1 (fun hp hf => by simp [hw hp] at hf)]
    exact h.clean1

/-- The stash never loses the data: what is poison already keeps its old stash. -/
theorem stash_eq (h : Tracks w0 w1 buf g) :
    Dev.stash buf w0 w1 = (g.data w0, g.data w1) := by
  unfold Dev.stash
  refine Prod.ext ?_ ?_
  · by_cases hva : buf.va w0 ≠ Acq400.poison0
    · have hw := h.va_ne_poison0.mp hva
      simp only [if_pos hva]
      exact h.words w0 (fun hp hf => by simp [hw hp] at hf)
    · have hp : g.poisoned = true ∧ g.written w0 = false := by
        have := mt h.va_ne_poison0.mpr hva
        simpa using this
      simp only [if_neg hva, h.stash hp.1]
      exact (h.kept w0 hp.2).symm
  · by_cases hva : buf.va w1 ≠ Acq400.poison1
    · have hw := h.va_ne_poison1.mp hva
      simp only [if_pos hva]
      exact h.words w1 (fun hp hf => by simp [hw hp] at hf)
    · have hp : g.poisoned = true ∧ g.written w1 = false := by
        have := mt h.va_ne_poison1.mpr hva
        simpa using this
      simp only [if_neg hva, h.stash hp.1]
      exact (h.kept w1 hp.2).symm

end Tracks

theorem tracks_step {adev : Dev} {hbm : HbmPtr} {g : History} (op : PoisonOp)
    (h : Tracks adev.poisonWord0 adev.poisonWord1 (adev.hb hbm) g)
    (hop : NonPoison adev.poisonWord0 adev.poisonWord1 op) :
    Tracks adev.poisonWord0 adev.poisonWord1 ((poisonStep hbm adev op).hb hbm) (g.step op) := by
  have hne := adev.poisonWord_ne
  cases op with
  | poison =>
      refine ⟨h.clean0, h.clean1, fun w _ => rfl, ?_, ?_, ?_, ?_⟩
      · intro w hw
        obtain ⟨hw0, hw1⟩ := hw rfl rfl
        rw [poisonStep, Dev.poisonOneBuffer_va, Function.update_of_ne hw1,
          Function.update_of_ne hw0]
        -- the word is no poison word, so it held its data already
        exact h.words w (fun _ _ => ⟨hw0, hw1⟩)
      · intro _ _
        rw [poisonStep, Dev.poisonOneBuffer_va, Function.update_of_ne hne,
          Function.update_self]
      · intro _ _
        rw [poisonStep, Dev.poisonOneBuffer_va, Function.update_self]
      · intro _
        rw [poisonStep, Dev.poisonOneBuffer_poisonData, h.stash_eq]
        rfl
  | dma word value =>
      obtain ⟨hv0, hv1⟩ := hop
      have hpoisoned : (g.step (.dma word value)).poisoned = g.poisoned := rfl
      have hva : ((poisonStep hbm adev (.dma word value)).hb hbm).va
          = Function.update (adev.hb hbm).va word value := adev.setWord_va hbm word value
      -- a word is unwritten after the step when it was and is not the one written
      have hunwritten : ∀ w, (g.step (.dma word value)).written w = false →
          w ≠ word ∧ g.written w = false := by
        intro w hw
        by_cases hww : w = word
        · simp [History.step, hww] at hw
        · exact ⟨hww, by simpa [History.step, hww] using hw⟩
      refine ⟨?_, ?_, ?_, ?_, ?_, ?_, ?_⟩
      · by_cases hw : adev.poisonWord0 = word
        · simpa [History.step, hw] using hv0 hw.symm
        · simpa [History.step, hw] using h.clean0
      · by_cases hw : adev.poisonWord1 = word
        · simpa [History.step, hw] using hv1 hw.symm
        · simpa [History.step, hw] using h.clean1
      · intro w hw
        obtain ⟨hww, hold⟩ := hunwritten w hw
        simpa [History.step, hww] using h.kept w hold
      · intro w hw
        rw [hva]
        by_cases hww : w = word
        · simp [History.step, hww]
        · simp only [History.step, Function.update_of_ne hww] at hw ⊢
          exact h.words w hw
      · intro hp hw
        obtain ⟨hww, hold⟩ := hunwritten _ hw
        rw [hva, Function.update_of_ne hww]
        exact h.poison0 hp hold
      · intro hp hw
        obtain ⟨hww, hold⟩ := hunwritten _ hw
        rw [hva, Function.update_of_ne hww]
        exact h.poison1 hp hold
      · intro hp
        rw [poisonStep, Dev.setWord_poisonData]
        exact h.stash hp

/-- The history of a whole sequence of operations on a buffer that held `va`. -/
def historyOf (va : Nat → UInt32) (ops : List PoisonOp) : History :=
  ops.foldl History.step (History.start va)

theorem tracks_run {hbm : HbmPtr} {w0 w1 : Nat} :
    ∀ (ops : List PoisonOp) (adev : Dev) (g : History),
      adev.poisonWord0 = w0 → adev.poisonWord1 = w1 → Tracks w0 w1 (adev.hb hbm) g →
      (∀ op ∈ ops, NonPoison w0 w1 op) →
      (ops.foldl (poisonStep hbm) adev).poisonWord0 = w0 ∧
        (ops.foldl (poisonStep hbm) adev).poisonWord1 = w1 ∧
        Tracks w0 w1 ((ops.foldl (poisonStep hbm) adev).hb hbm) (ops.foldl History.step g) := by
  intro ops
  induction ops with
  | nil => intro adev g h0 h1 h _; exact ⟨h0, h1, h⟩
  | cons op rest ih =>
      intro adev g h0 h1 h hops
      subst h0
      subst h1
      have hw0 : (poisonStep hbm adev op).poisonWord0 = adev.poisonWord0 := by
        cases op <;> simp [poisonStep]
      have hw1 : (poisonStep hbm adev op).poisonWord1 = adev.poisonWord1 := by
        cases op <;> simp [poisonStep]
      exact ih _ _ hw0 hw1 (tracks_step op h (hops op (by simp)))
        (fun op' hop' => hops op' (by simp [hop']))

/-! ### Clearing -/

theorem clearPoison_va (adev : Dev) (hbm : HbmPtr) :
    ((adev.clearPoisonFromBuffer hbm).hb hbm).va
      = if (adev.hb hbm).va adev.poisonWord0 ≠ poison0 ∧
            (adev.hb hbm).va adev.poisonWord1 ≠ poison1 then (adev.hb hbm).va
        else Function.update (Function.update (adev.hb hbm).va adev.poisonWord0
          (adev.hb hbm).poisonData.1) adev.poisonWord1 (adev.hb hbm).poisonData.2 := by
  unfold Dev.clearPoisonFromBuffer Dev.poisonOverwritten
  by_cases h0 : (adev.hb hbm).va adev.poisonWord0 = poison0
  · simp [h0]
  · by_cases h1 : (adev.hb hbm).va adev.poisonWord1 = poison1
    · simp [h1]
    · simp [h0, h1]

/-- Not exactly one poison word written since the last poisoning, or written as it was. -/
def NotHalfOverwritten (w0 w1 : Nat) (g : History) : Prop :=
  g.poisoned = true → g.written w0 = g.written w1 ∨
    ((g.written w0 = true → g.data w0 = g.before w0) ∧
      (g.written w1 = true → g.data w1 = g.before w1))

theorem Tracks.expected_eq {w0 w1 : Nat} {buf : Hbm} {g : History} (h : Tracks w0 w1 buf g)
    (w : Nat) : g.expected w = g.data w := by
  unfold History.expected
  split
  · rfl
  · rename_i hw
    exact (h.kept w (by simpa using hw)).symm

theorem putBack_iff {va data : Nat → UInt32} {w0 w1 : Nat} (hne : w0 ≠ w1) (a b : UInt32)
    (hva : ∀ w, w ≠ w0 → w ≠ w1 → va w = data w) :
    (∀ w, Function.update (Function.update va w0 a) w1 b w = data w) ↔
      a = data w0 ∧ b = data w1 := by
  constructor
  · intro hall
    have h0 := hall w0
    have h1 := hall w1
    rw [Function.update_of_ne hne, Function.update_self] at h0
    rw [Function.update_self] at h1
    exact ⟨h0, h1⟩
  · intro hab w
    by_cases hw1 : w = w1
    · rw [hw1, Function.update_self]; exact hab.2
    · rw [Function.update_of_ne hw1]
      by_cases hw0 : w = w0
      · rw [hw0, Function.update_self]; exact hab.1
      · rw [Function.update_of_ne hw0]; exact hva w hw0 hw1

theorem clear_of_tracks {adev : Dev} {hbm : HbmPtr} {g : History}
    (h : Tracks adev.poisonWord0 adev.poisonWord1 (adev.hb hbm) g) :
    (∀ w, ((adev.clearPoisonFromBuffer hbm).hb hbm).va w = g.data w) ↔
      NotHalfOverwritten adev.poisonWord0 adev.poisonWord1 g := by
  rw [clearPoison_va]
  unfold NotHalfOverwritten
  by_cases hover : (adev.hb hbm).va adev.poisonWord0 ≠ poison0 ∧
      (adev.hb hbm).va adev.poisonWord1 ≠ poison1
  · -- nothing is put back: both words are data
    have hw0 := h.va_ne_poison0.mp hover.1
    have hw1 := h.va_ne_poison1.mp hover.2
    simp only [if_pos hover]
    refine ⟨fun _ hp => Or.inl ((hw0 hp).trans (hw1 hp).symm), fun _ w => h.words w ?_⟩
    intro hp hf
    exact ⟨fun hc => by simp [hc, hw0 hp] at hf, fun hc => by simp [hc, hw1 hp] at hf⟩
  · -- both are put back, so what matters is whether the stash is still the data
    have hreach : g.poisoned = true ∧
        ¬(g.written adev.poisonWord0 = true ∧ g.written adev.poisonWord1 = true) := by
      rw [h.va_ne_poison0, h.va_ne_poison1] at hover
      by_cases hp : g.poisoned = true
      · exact ⟨hp, fun hw => hover ⟨fun _ => hw.1, fun _ => hw.2⟩⟩
      · exact absurd ⟨fun hc => absurd hc hp, fun hc => absurd hc hp⟩ hover
    obtain ⟨hp, hnot⟩ := hreach
    simp only [if_neg hover, h.stash hp, hp, forall_const]
    rw [putBack_iff adev.poisonWord_ne _ _ fun w h0 h1 => h.words w fun _ _ => ⟨h0, h1⟩]
    have hk0 := h.kept adev.poisonWord0
    have hk1 := h.kept adev.poisonWord1
    constructor
    · intro hback
      exact Or.inr ⟨fun _ => hback.1.symm, fun _ => hback.2.symm⟩
    · intro hcond
      rcases hcond with heq | hsame
      · have hw1 : g.written adev.poisonWord1 = false := by
          by_contra hc
          rw [Bool.not_eq_false] at hc
          exact hnot ⟨heq.trans hc, hc⟩
        exact ⟨(hk0 (heq.trans hw1)).symm, (hk1 hw1).symm⟩
      · refine ⟨?_, ?_⟩
        · by_cases hw : g.written adev.poisonWord0 = true
          · exact (hsame.1 hw).symm
          · exact (hk0 (by simpa using hw)).symm
        · by_cases hw : g.written adev.poisonWord1 = true
          · exact (hsame.2 hw).symm
          · exact (hk1 (by simpa using hw)).symm

/--
**Clearing gives a buffer's data back exactly when DMA has not half passed it.**
The words expected are the last values DMA wrote since the last poisoning and,
where it wrote none, what stood there before.
-/
theorem clear_transparent_iff (adev : Dev) (hbm : HbmPtr) (ops : List PoisonOp)
    (h0 : (adev.hb hbm).va adev.poisonWord0 ≠ poison0)
    (h1 : (adev.hb hbm).va adev.poisonWord1 ≠ poison1)
    (hops : ∀ op ∈ ops, NonPoison adev.poisonWord0 adev.poisonWord1 op) :
    (∀ w, (((ops.foldl (poisonStep hbm) adev).clearPoisonFromBuffer hbm).hb hbm).va w
        = (historyOf (adev.hb hbm).va ops).expected w) ↔
      NotHalfOverwritten adev.poisonWord0 adev.poisonWord1
        (historyOf (adev.hb hbm).va ops) := by
  obtain ⟨hw0, hw1, htracks⟩ := tracks_run ops adev _ rfl rfl (Tracks.start h0 h1) hops
  rw [← hw0, ← hw1] at htracks ⊢
  simp only [historyOf, htracks.expected_eq]
  exact clear_of_tracks htracks

/-- Two poisonings and a buffer DMA has passed whole: nothing is lost. -/
theorem clear_transparent_passed :
    let adev := Dev.allocated 1 65536 .loaded fun _ _ => 0
    let ops := [PoisonOp.poison, .poison, .dma 16382 7, .dma 16383 8]
    ∀ w, (((ops.foldl (poisonStep 0) adev).clearPoisonFromBuffer 0).hb 0).va w
      = (historyOf (adev.hb 0).va ops).expected w :=
  (clear_transparent_iff (Dev.allocated 1 65536 .loaded fun _ _ => 0) 0
    [PoisonOp.poison, .poison, .dma 16382 7, .dma 16383 8] (by decide) (by decide)
    (by decide)).mpr
    (fun _ => Or.inl (by decide))

/-- DMA stopped between the two words: the one it wrote is replaced by the stash. -/
theorem clear_overwrites_dma_word :
    let adev := Dev.allocated 1 65536 .loaded fun _ _ => 0
    let ops := [PoisonOp.poison, .dma 16382 7]
    (adev.hb 0).va adev.poisonWord0 ≠ poison0 ∧ (adev.hb 0).va adev.poisonWord1 ≠ poison1 ∧
      (∀ op ∈ ops, NonPoison adev.poisonWord0 adev.poisonWord1 op) ∧
      ¬∀ w, (((ops.foldl (poisonStep 0) adev).clearPoisonFromBuffer 0).hb 0).va w
        = (historyOf (adev.hb 0).va ops).expected w := by
  refine ⟨by decide, by decide, by decide, ?_⟩
  intro hall
  exact absurd (hall 16382) (by decide)

end Acq400
