/-
Blocks of code.

A machine runs a program from a place in it.  Its state has data and counters.  A block is code
with an effect on the data, a partial function: wherever the code stands in a program, a machine
at its beginning comes to its end with that effect, and with every counter but those of `cs` as
it was.  Blocks put behind each other are a block, and so is a block between an instruction
that loads a counter and one that counts it down and jumps back.
-/
import Mathlib.Data.Set.Insert
import Mathlib.Logic.Relation

/-- A machine for programs of `β`, with counters `κ` and data `δ`. -/
structure CodeMachine (β κ δ σ : Type) where
  /-- None if the machine stops, or is stuck. -/
  step : List β → σ → Option σ
  pc : σ → Nat
  count : σ → κ → Nat
  data : σ → δ

namespace CodeMachine

variable {β κ δ σ : Type}

/-- `code` is in the program from `k` on. -/
def At (prog : List β) (k : Nat) (code : List β) : Prop := code <+: prog.drop k

theorem At.left {prog : List β} {k : Nat} {code code' : List β} (h : At prog k (code ++ code')) :
    At prog k code := (List.prefix_append code code').trans h

theorem At.right {prog : List β} {k : Nat} {code code' : List β}
    (h : At prog k (code ++ code')) : At prog (k + code.length) code' := by
  obtain ⟨post, hpost⟩ := h
  refine ⟨post, ?_⟩
  rw [← List.drop_drop, ← hpost, List.append_assoc, List.drop_left]

theorem at_self (code : List β) : At code 0 code := List.prefix_rfl

/-- So many times, one after the other. -/
def times (f : δ → Option δ) : Nat → δ → Option δ
  | 0, d => some d
  | n + 1, d => (f d).bind (times f n)

@[simp] theorem times_zero (f : δ → Option δ) (d : δ) : times f 0 d = some d := rfl

@[simp] theorem times_succ (f : δ → Option δ) (n : Nat) (d : δ) :
    times f (n + 1) d = (f d).bind (times f n) := rfl

theorem times_add (f : δ → Option δ) (m n : Nat) :
    ∀ d, times f (m + n) d = (times f m d).bind (times f n) := by
  induction m with
  | zero =>
      intro d
      rw [Nat.zero_add]
      rfl
  | succ m ih =>
      intro d
      rw [Nat.succ_add, times_succ, times_succ, Option.bind_assoc]
      exact congrArg _ (funext ih)

theorem times_times (f : δ → Option δ) (m n : Nat) :
    ∀ d, times (times f n) m d = times f (m * n) d := by
  induction m with
  | zero =>
      intro d
      rw [Nat.zero_mul]
      rfl
  | succ m ih =>
      intro d
      rw [times_succ, Nat.succ_mul, Nat.add_comm, times_add]
      exact congrArg _ (funext ih)

variable (M : CodeMachine β κ δ σ)

/-- The machine comes from one state to another. -/
def Reaches (prog : List β) : σ → σ → Prop :=
  Relation.ReflTransGen fun s t => M.step prog s = some t

/-- `code` does `f`, and uses the counters `cs`. -/
def Block (cs : Set κ) (code : List β) (f : δ → Option δ) : Prop :=
  ∀ (prog : List β) (s : σ) (d : δ), At prog (M.pc s) code → f (M.data s) = some d →
    ∃ t, M.Reaches prog s t ∧ M.pc t = M.pc s + code.length ∧ M.data t = d ∧
      ∀ c ∉ cs, M.count t c = M.count s c

variable {M} {cs cs' : Set κ} {code code' : List β} {f f' : δ → Option δ}

namespace Block

theorem nil : M.Block ∅ [] some := by
  intro prog s d _ hd
  exact ⟨s, Relation.ReflTransGen.refl, rfl, Option.some.inj hd, fun _ _ => rfl⟩

theorem of_step (h : ∀ (prog : List β) (s : σ) (d : δ), At prog (M.pc s) code →
    f (M.data s) = some d → ∃ t, M.step prog s = some t ∧ M.pc t = M.pc s + code.length ∧
      M.data t = d ∧ M.count t = M.count s) : M.Block ∅ code f := by
  intro prog s d hat hd
  obtain ⟨t, hstep, hpc, hdata, hcount⟩ := h prog s d hat hd
  exact ⟨t, Relation.ReflTransGen.single hstep, hpc, hdata, fun c _ => congrFun hcount c⟩

theorem mono (h : M.Block cs code f) (hsub : cs ⊆ cs') : M.Block cs' code f := by
  intro prog s d hat hd
  obtain ⟨t, hreach, hpc, hdata, hcount⟩ := h prog s d hat hd
  exact ⟨t, hreach, hpc, hdata, fun c hc => hcount c fun hmem => hc (hsub hmem)⟩

theorem append (h : M.Block cs code f) (h' : M.Block cs code' f') :
    M.Block cs (code ++ code') fun d => (f d).bind f' := by
  intro prog s d hat hd
  obtain ⟨e, he, hd⟩ := Option.bind_eq_some_iff.mp hd
  obtain ⟨t, hreach, hpc, hdata, hcount⟩ := h prog s e hat.left he
  rw [← hdata] at hd
  obtain ⟨u, hreach', hpc', hdata', hcount'⟩ := h' prog t d (hpc ▸ hat.right) hd
  refine ⟨u, hreach.trans hreach', ?_, hdata', fun c hc => (hcount' c hc).trans (hcount c hc)⟩
  rw [hpc', hpc, List.length_append, Nat.add_assoc]

/-- The same code several times in a row. -/
theorem replicate (h : M.Block cs code f) (n : Nat) :
    M.Block cs (List.replicate n code).flatten (times f n) := by
  induction n with
  | zero => exact nil.mono (Set.empty_subset cs)
  | succ n ih =>
      rw [List.replicate_succ, List.flatten_cons]
      exact h.append ih

/-- The turns of a loop from the beginning of its body, with `n` more to come after this one. -/
private theorem loop_turns {c : κ} {last : List β} (h : M.Block cs code f) (hc : c ∉ cs)
    (hend : ∀ (prog : List β) (s : σ), At prog (M.pc s) last → code.length ≤ M.pc s →
      ∃ t, M.step prog s = some t ∧ M.data t = M.data s ∧
        (∀ c' ≠ c, M.count t c' = M.count s c') ∧
        (M.count s c = 0 → M.pc t = M.pc s + last.length) ∧
        ∀ k, M.count s c = k + 1 → M.pc t + code.length = M.pc s ∧ M.count t c = k) :
    ∀ (n : Nat) (prog : List β) (s : σ) (d : δ), At prog (M.pc s) (code ++ last) →
      M.count s c = n → times f (n + 1) (M.data s) = some d →
      ∃ t, M.Reaches prog s t ∧ M.pc t = M.pc s + (code ++ last).length ∧ M.data t = d ∧
        ∀ c' ∉ insert c cs, M.count t c' = M.count s c' := by
  intro n
  induction n with
  | zero =>
      intro prog s d hat hcount hd
      obtain ⟨e, he, hd⟩ := Option.bind_eq_some_iff.mp hd
      obtain ⟨t, hreach, hpc, hdata, hkeep⟩ := h prog s e hat.left he
      obtain ⟨u, hstep, hdata', hkeep', hout, -⟩ := hend prog t (hpc ▸ hat.right) (by omega)
      refine ⟨u, hreach.tail hstep, ?_, ?_, ?_⟩
      · rw [hout ((hkeep c hc).trans hcount), hpc, List.length_append, Nat.add_assoc]
      · rw [hdata', hdata]
        exact Option.some.inj hd
      · intro c' hc'
        rw [hkeep' c' fun heq => hc' (heq ▸ Set.mem_insert c cs),
          hkeep c' fun hmem => hc' (Set.mem_insert_of_mem c hmem)]
  | succ n ih =>
      intro prog s d hat hcount hd
      obtain ⟨e, he, hd⟩ := Option.bind_eq_some_iff.mp hd
      obtain ⟨t, hreach, hpc, hdata, hkeep⟩ := h prog s e hat.left he
      obtain ⟨u, hstep, hdata', hkeep', -, hback⟩ := hend prog t (hpc ▸ hat.right) (by omega)
      obtain ⟨hpcu, hcountu⟩ := hback n ((hkeep c hc).trans hcount)
      have hbegin : M.pc u = M.pc s := by omega
      rw [← hdata, ← hdata'] at hd
      obtain ⟨v, hreach', hpcv, hdatav, hkeepv⟩ := ih prog u d (hbegin ▸ hat) hcountu hd
      refine ⟨v, (hreach.tail hstep).trans hreach', hbegin ▸ hpcv, hdatav, ?_⟩
      intro c' hc'
      rw [hkeepv c' hc', hkeep' c' fun heq => hc' (heq ▸ Set.mem_insert c cs),
        hkeep c' fun hmem => hc' (Set.mem_insert_of_mem c hmem)]

/-- A loop: `first` loads the counter, and `last` jumps back over the body unless it is 0. -/
theorem loop {c : κ} {n : Nat} {first last : List β} (h : M.Block cs code f) (hc : c ∉ cs)
    (hfirst : ∀ (prog : List β) (s : σ), At prog (M.pc s) first →
      ∃ t, M.step prog s = some t ∧ M.pc t = M.pc s + first.length ∧ M.data t = M.data s ∧
        M.count t c = n ∧ ∀ c' ≠ c, M.count t c' = M.count s c')
    (hend : ∀ (prog : List β) (s : σ), At prog (M.pc s) last → code.length ≤ M.pc s →
      ∃ t, M.step prog s = some t ∧ M.data t = M.data s ∧
        (∀ c' ≠ c, M.count t c' = M.count s c') ∧
        (M.count s c = 0 → M.pc t = M.pc s + last.length) ∧
        ∀ k, M.count s c = k + 1 → M.pc t + code.length = M.pc s ∧ M.count t c = k) :
    M.Block (insert c cs) (first ++ (code ++ last)) (times f (n + 1)) := by
  intro prog s d hat hd
  obtain ⟨t, hstep, hpc, hdata, hcount, hkeep⟩ := hfirst prog s hat.left
  rw [← hdata] at hd
  obtain ⟨u, hreach, hpcu, hdatau, hkeepu⟩ :=
    loop_turns h hc hend n prog t d (hpc ▸ hat.right) hcount hd
  refine ⟨u, Relation.ReflTransGen.head hstep hreach, ?_, hdatau, ?_⟩
  · simp only [hpcu, hpc, List.length_append, Nat.add_assoc]
  · intro c' hc'
    rw [hkeepu c' hc', hkeep c' fun heq => hc' (heq ▸ Set.mem_insert c cs)]

end Block

end CodeMachine
