/-
Runs of a partial step function.

A system is a function `step : σ → α → Option σ`: the action `a` either takes the
state to another one or is not possible there.  `run` folds a list of actions
through it, and the induction rules below are all the developments above it use:
an invariant of one step is an invariant of a run, the same with a side condition
that every step of the run has to meet, and what matches the steps matches the runs.
The runs are what `List.foldlM` goes through, and `List.mapM` takes each entry by itself.
-/
import Mathlib.Logic.Function.Basic

namespace Lts

variable {σ α : Type} {step : σ → α → Option σ}

/-- Perform the actions in order; `none` as soon as one of them is not possible. -/
def run (step : σ → α → Option σ) : σ → List α → Option σ
  | s, [] => some s
  | s, a :: rest => (step s a).bind fun s' => run step s' rest

@[simp] theorem run_nil (s : σ) : run step s [] = some s := rfl

@[simp] theorem run_cons (s : σ) (a : α) (rest : List α) :
    run step s (a :: rest) = (step s a).bind fun s' => run step s' rest := rfl

theorem run_append (as bs : List α) :
    ∀ s : σ, run step s (as ++ bs) = (run step s as).bind fun s' => run step s' bs := by
  induction as with
  | nil => intro s; rfl
  | cons a rest ih =>
      intro s
      cases h : step s a with
      | none => simp [h]
      | some s' => simp [h, ih s']

/-- Every step of the run is taken from a state where `G` allows it. -/
def Meets (step : σ → α → Option σ) (G : σ → α → Prop) : σ → List α → Prop
  | _, [] => True
  | s, a :: rest => G s a ∧ ∀ s', step s a = some s' → Meets step G s' rest

theorem Meets.of_forall {P : α → Prop} {as : List α} :
    ∀ {s : σ}, (∀ a ∈ as, P a) → Meets step (fun _ a => P a) s as := by
  induction as with
  | nil => intro s _; trivial
  | cons a rest ih =>
      intro s h
      exact ⟨h a List.mem_cons_self, fun s' _ => ih fun b hb => h b (List.mem_cons_of_mem a hb)⟩

theorem Meets.left {G : σ → α → Prop} {as bs : List α} :
    ∀ {s : σ}, Meets step G s (as ++ bs) → Meets step G s as := by
  induction as with
  | nil => intro s _; trivial
  | cons a rest ih =>
      intro s h
      exact ⟨h.1, fun s' hs' => ih (h.2 s' hs')⟩

theorem Meets.right {G : σ → α → Prop} {as bs : List α} :
    ∀ {s s' : σ}, Meets step G s (as ++ bs) → run step s as = some s' → Meets step G s' bs := by
  induction as with
  | nil =>
      intro s s' h hrun
      obtain rfl := Option.some.inj hrun
      exact h
  | cons a rest ih =>
      intro s s' h hrun
      rw [run_cons, Option.bind_eq_some_iff] at hrun
      obtain ⟨t, ht, hrun⟩ := hrun
      exact ih (h.2 t ht) hrun

/-- A side condition that can be decided can be decided along a run. -/
instance decidableMeets {G : σ → α → Prop} [∀ s a, Decidable (G s a)] :
    ∀ (s : σ) (as : List α), Decidable (Meets step G s as)
  | _, [] => isTrue trivial
  | s, a :: rest =>
    match h : step s a with
    | none =>
      decidable_of_iff (G s a) ⟨fun hG => ⟨hG, fun s' hs' => by simp [h] at hs'⟩, fun hm => hm.1⟩
    | some s' =>
      have := decidableMeets (G := G) s' rest
      decidable_of_iff (G s a ∧ Meets step G s' rest)
        ⟨fun hm => ⟨hm.1, fun t ht => by rw [← Option.some.inj (h.symm.trans ht)]; exact hm.2⟩,
          fun hm => ⟨hm.1, hm.2 s' h⟩⟩

/-- A run that is possible, with what has been computed of where it ends. -/
theorem exists_of_any (step : σ → α → Option σ) (s : σ) (as : List α) (p : σ → Bool)
    (h : (run step s as).any p = true) : ∃ s', run step s as = some s' ∧ p s' = true := by
  simpa [Option.any_eq_true] using h

/-- An invariant of the steps that meet `G` is an invariant of the runs that do. -/
theorem run_invariant_of {G : σ → α → Prop} (inv : σ → Prop)
    (hstep : ∀ s a s', inv s → G s a → step s a = some s' → inv s') :
    ∀ (as : List α) (s s' : σ), inv s → Meets step G s as →
      run step s as = some s' → inv s' := by
  intro as
  induction as with
  | nil =>
      intro s s' hinv _ hrun
      simp only [run_nil, Option.some.injEq] at hrun
      exact hrun ▸ hinv
  | cons a rest ih =>
      intro s s' hinv hmeets hrun
      obtain ⟨hG, hrest⟩ := hmeets
      rw [run_cons, Option.bind_eq_some_iff] at hrun
      obtain ⟨t, ht, hrun⟩ := hrun
      exact ih t s' (hstep s a t hinv hG ht) (hrest t ht) hrun

theorem Meets.imp_of {G G' : σ → α → Prop} (inv : σ → Prop)
    (hG : ∀ s a, inv s → G s a → G' s a)
    (hstep : ∀ s a s', inv s → G s a → step s a = some s' → inv s') :
    ∀ (as : List α) (s : σ), inv s → Meets step G s as → Meets step G' s as := by
  intro as
  induction as with
  | nil => intro s _ _; trivial
  | cons a rest ih =>
      intro s hinv hmeets
      refine ⟨hG s a hinv hmeets.1, ?_⟩
      intro s' hs'
      exact ih s' (hstep s a s' hinv hmeets.1 hs') (hmeets.2 s' hs')

theorem Meets.congr_of {G G' : σ → α → Prop} (inv : σ → Prop)
    (hstep : ∀ s a, inv s → (G s a ↔ G' s a) ∧ (G s a → ∀ s', step s a = some s' → inv s')) :
    ∀ (as : List α) (s : σ), inv s → (Meets step G s as ↔ Meets step G' s as) := by
  intro as
  induction as with
  | nil => intro s _; exact Iff.rfl
  | cons a rest ih =>
      intro s hinv
      obtain ⟨hiff, hkeep⟩ := hstep s a hinv
      constructor
      · rintro ⟨hG, hrest⟩
        exact ⟨hiff.mp hG, fun s' hs' => (ih s' (hkeep hG s' hs')).mp (hrest s' hs')⟩
      · rintro ⟨hG, hrest⟩
        exact ⟨hiff.mpr hG, fun s' hs' =>
          (ih s' (hkeep (hiff.mpr hG) s' hs')).mpr (hrest s' hs')⟩

/-- Where a step from `inv` meets `G` exactly when it does `Q`, and then keeps `inv`, the runs
that meet `G` are those in which every step does `Q`. -/
theorem meets_iff_steps {G : σ → α → Prop} (inv : σ → Prop) (Q : σ → α → σ → Prop)
    (hstep : ∀ s a s', inv s → step s a = some s' → (G s a ↔ Q s a s') ∧ (G s a → inv s')) :
    ∀ (acts : List α) (s t : σ), inv s → run step s acts = some t →
      (Meets step G s acts ↔
        ∀ as a bs s' s'', acts = as ++ a :: bs → run step s as = some s' →
          step s' a = some s'' → Q s' a s'') := by
  intro acts
  induction acts with
  | nil =>
      intro s t _ _
      refine iff_of_true trivial ?_
      intro as a bs s' s'' hsplit
      exact absurd hsplit.symm (List.append_ne_nil_of_right_ne_nil as (List.cons_ne_nil a bs))
  | cons a rest ih =>
      intro s t hinv hrun
      rw [run_cons, Option.bind_eq_some_iff] at hrun
      obtain ⟨u, hu, hrest⟩ := hrun
      obtain ⟨hiff, hkeep⟩ := hstep s a u hinv hu
      have hmeets : Meets step G s (a :: rest) ↔ G s a ∧ Meets step G u rest := by
        refine and_congr_right fun _ => ⟨fun h => h u hu, fun h s' hs' => ?_⟩
        rwa [Option.some.inj (hs'.symm.trans hu)]
      rw [hmeets]
      constructor
      · rintro ⟨hG, hm⟩ as b bs s' s'' hsplit hpre hb
        cases as with
        | nil =>
            obtain ⟨rfl, -⟩ := List.cons.inj hsplit
            obtain rfl := Option.some.inj hpre
            obtain rfl := Option.some.inj (hu.symm.trans hb)
            exact hiff.mp hG
        | cons c as =>
            obtain ⟨rfl, hsplit'⟩ := List.cons.inj hsplit
            rw [run_cons, hu] at hpre
            exact (ih u t (hkeep hG) hrest).mp hm as b bs s' s'' hsplit' hpre hb
      · intro h
        have hG : G s a := hiff.mpr (h [] a rest s u rfl rfl hu)
        refine ⟨hG, (ih u t (hkeep hG) hrest).mpr ?_⟩
        intro as b bs s' s'' hsplit hpre hb
        refine h (a :: as) b bs s' s'' (by rw [hsplit]; rfl) ?_ hb
        rw [run_cons, hu]
        exact hpre

theorem run_invariant (inv : σ → Prop)
    (hstep : ∀ s a s', inv s → step s a = some s' → inv s') (as : List α) (s s' : σ)
    (hinv : inv s) (hrun : run step s as = some s') : inv s' :=
  run_invariant_of (G := fun _ _ => True) inv (fun s a s' h _ => hstep s a s' h) as s s' hinv
    (Meets.of_forall fun _ _ => trivial) hrun

/-- Steps that make a measure smaller do not go on for ever. -/
theorem run_length_le {G : σ → α → Prop} (inv : σ → Prop) (μ : σ → Nat)
    (hstep : ∀ s a s', inv s → G s a → step s a = some s' → inv s' ∧ μ s' < μ s) :
    ∀ (as : List α) (s s' : σ), inv s → Meets step G s as → run step s as = some s' →
      as.length + μ s' ≤ μ s := by
  intro as
  induction as with
  | nil =>
      intro s s' _ _ hrun
      obtain rfl := Option.some.inj hrun
      simp
  | cons a rest ih =>
      intro s s' hinv hmeets hrun
      rw [run_cons, Option.bind_eq_some_iff] at hrun
      obtain ⟨t, ht, hrun⟩ := hrun
      obtain ⟨hinv', hlt⟩ := hstep s a t hinv hmeets.1 ht
      have hle := ih t s' hinv' (hmeets.2 t ht) hrun
      rw [List.length_cons]
      omega

/-- If the steps that meet `G` are possible, the runs that do are. -/
theorem run_total_of {G : σ → α → Prop} (inv : σ → Prop)
    (hstep : ∀ s a, inv s → G s a → ∃ s', step s a = some s' ∧ inv s') :
    ∀ (as : List α) (s : σ), inv s → Meets step G s as →
      ∃ s', run step s as = some s' ∧ inv s' := by
  intro as
  induction as with
  | nil => intro s hinv _; exact ⟨s, rfl, hinv⟩
  | cons a rest ih =>
      intro s hinv hmeets
      obtain ⟨t, ht, htinv⟩ := hstep s a hinv hmeets.1
      obtain ⟨s', hrun, hs'⟩ := ih t htinv (hmeets.2 t ht)
      exact ⟨s', by rw [run_cons, ht, Option.bind_some, hrun], hs'⟩

/-- A system that can match each step of another can match its runs. -/
theorem run_simulates {τ : Type} {step' : τ → α → Option τ} (R : σ → τ → Prop)
    (hstep : ∀ s t a s', R s t → step s a = some s' → ∃ t', step' t a = some t' ∧ R s' t') :
    ∀ (as : List α) (s : σ) (t : τ) (s' : σ), R s t → run step s as = some s' →
      ∃ t', run step' t as = some t' ∧ R s' t' := by
  intro as
  induction as with
  | nil =>
      intro s t s' hR hrun
      obtain rfl := Option.some.inj hrun
      exact ⟨t, rfl, hR⟩
  | cons a rest ih =>
      intro s t s' hR hrun
      rw [run_cons, Option.bind_eq_some_iff] at hrun
      obtain ⟨u, hu, hrun⟩ := hrun
      obtain ⟨v, hv, hRuv⟩ := hstep s t a u hR hu
      obtain ⟨t', ht', hRt'⟩ := ih u v s' hRuv hrun
      exact ⟨t', by rw [run_cons, hv, Option.bind_some, ht'], hRt'⟩

/-- And a side condition that its steps meet, the runs that match them meet. -/
theorem Meets.simulates {τ : Type} {step' : τ → α → Option τ} (R : σ → τ → Prop)
    {G : σ → α → Prop} {G' : τ → α → Prop} (hG : ∀ s t a, R s t → G s a → G' t a)
    (hstep : ∀ s t a t', R s t → step' t a = some t' → ∃ s', step s a = some s' ∧ R s' t') :
    ∀ (as : List α) (s : σ) (t : τ), R s t → Meets step G s as → Meets step' G' t as := by
  intro as
  induction as with
  | nil => intro s t _ _; trivial
  | cons a rest ih =>
      intro s t hR hmeets
      refine ⟨hG s t a hR hmeets.1, ?_⟩
      intro t' ht'
      obtain ⟨s', hs', hR'⟩ := hstep s t a t' hR ht'
      exact ih s' t' hR' (hmeets.2 s' hs')

/-! ### Folds and maps of lists -/

theorem foldlM_eq_run (as : List α) : ∀ s : σ, as.foldlM step s = run step s as := by
  induction as with
  | nil => intro s; rfl
  | cons a rest ih =>
      intro s
      rw [List.foldlM_cons, run_cons]
      exact congrArg (step s a).bind (funext ih)

theorem foldlM_invariant (inv : σ → Prop)
    (hstep : ∀ s a s', inv s → step s a = some s' → inv s') (as : List α) {s s' : σ}
    (hinv : inv s) (hfold : as.foldlM step s = some s') : inv s' :=
  run_invariant inv hstep as s s' hinv (foldlM_eq_run as s ▸ hfold)

/-- A list is mapped if and only if each of it is. -/
theorem mapM_eq_some_iff {β : Type} {f : α → Option β} {l : List α} :
    ∀ {r : List β}, l.mapM f = some r ↔ l.map f = r.map some := by
  induction l with
  | nil =>
      intro r
      rw [List.mapM_nil, List.map_nil, eq_comm (a := ([] : List (Option β))), List.map_eq_nil_iff]
      exact ⟨fun h => (Option.some.inj h).symm, fun h => congrArg some h.symm⟩
  | cons a l ih =>
      intro r
      rw [List.mapM_cons, List.map_cons]
      constructor
      · intro h
        obtain ⟨b, hb, hrest⟩ := Option.bind_eq_some_iff.mp h
        obtain ⟨bs, hbs, heq⟩ := Option.bind_eq_some_iff.mp hrest
        obtain rfl := Option.some.inj heq
        rw [hb, ih.mp hbs, List.map_cons]
      · intro h
        cases r with
        | nil => cases h
        | cons b bs =>
            obtain ⟨hb, hbs⟩ := List.cons.inj h
            rw [hb, ih.mpr hbs]
            rfl

theorem mapM_length {β : Type} {f : α → Option β} {l : List α} {r : List β}
    (h : l.mapM f = some r) : r.length = l.length := by
  have hlen := congrArg List.length (mapM_eq_some_iff.mp h)
  rw [List.length_map, List.length_map] at hlen
  exact hlen.symm

end Lts
