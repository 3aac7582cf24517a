/-
Filling with two processes.

The two halves come to different words, as the staves of a sample do not share one.  So the order of
the steps does not matter, and the two halves come to what one process makes of them.  Two halves
that are truncated leave out the last stave of an odd number.
-/
import Acq400.Awg.PhasedArray

namespace Acq400

namespace PhasedArray

variable {nchan : Nat} {mode : FillMode} {x : Nat}

/-! ### The places -/

theorem places_add (pulse : List (BitVec 16)) (m n delay ic0 : Nat) :
    places nchan pulse (m + n) delay ic0 =
      places nchan pulse m delay ic0 ++ places nchan pulse n delay (ic0 + m) := by
  unfold places
  rw [List.range_add, List.flatMap_append, List.flatMap_map]
  congr 1
  refine List.flatMap_congr fun ic _ => ?_
  rw [show m + ic + ic0 = ic + (ic0 + m) by omega]

theorem mem_places {pulse : List (BitVec 16)} {nstaves delay ic0 : Nat} {p : Nat × BitVec 16}
    (h : p ∈ places nchan pulse nstaves delay ic0) :
    ∃ ic, ic < nstaves ∧ p.1 % nchan = (ic + ic0) % nchan := by
  unfold places at h
  obtain ⟨ic, hic, hp⟩ := List.mem_flatMap.mp h
  rw [List.mem_mapIdx] at hp
  obtain ⟨sam, hsam, rfl⟩ := hp
  refine ⟨ic, List.mem_range.mp hic, ?_⟩
  dsimp only
  rw [Nat.add_mul_mod_self_right, Nat.add_comm, Nat.add_mul_mod_self_right]

theorem places_disjoint {pulse pulse' : List (BitVec 16)} {m n delay delay' ic0 : Nat}
    {p p' : Nat × BitVec 16} (hfits : ic0 + m + n ≤ nchan)
    (hp : p ∈ places nchan pulse m delay ic0) (hp' : p' ∈ places nchan pulse' n delay' (ic0 + m)) :
    p.1 ≠ p'.1 := by
  obtain ⟨ic, hic, hmod⟩ := mem_places hp
  obtain ⟨ic', hic', hmod'⟩ := mem_places hp'
  intro heq
  rw [heq, hmod', Nat.mod_eq_of_lt (by omega), Nat.mod_eq_of_lt (by omega)] at hmod
  omega

/-! ### The steps -/

/-- A word is put over, or added. -/
def put : FillMode → Mem → Nat × BitVec 16 → Mem
  | .fillOver, mem, (pb, v) => Function.update mem pb v
  | .fillAdd, mem, (pb, v) => Function.update mem pb (mem pb + v)

theorem foldl_write (who : Bool) (ps : List (Nat × BitVec 16)) :
    ∀ s : Shared, (((ps.flatMap (write mode)).map (Prod.mk who)).foldl Shared.step s).mem =
      ps.foldl (put mode) s.mem := by
  induction ps with
  | nil => intro s; rfl
  | cons p ps ih =>
      intro s
      rw [List.flatMap_cons, List.map_append, List.foldl_append, ih, List.foldl_cons]
      congr 1
      cases mode with
      | fillOver => rfl
      | fillAdd =>
          change Function.update s.mem p.1 (Function.update s.loaded who (s.mem p.1) who + p.2) = _
          rw [Function.update_self]
          rfl

/-- The place of a step. -/
def MemStep.place : MemStep → Nat
  | .store pb _ => pb
  | .load pb => pb
  | .storeSum pb _ => pb

/-- Steps of two processes at two places may be exchanged. -/
theorem commute_step {a b : MemStep} (h : a.place ≠ b.place) :
    Interleave.Commute Shared.step (true, a) (false, b) := by
  intro s
  have hwho : true ≠ false := by decide
  cases a with
  | store pb v =>
      cases b with
      | store pb' v' =>
          have hne : pb ≠ pb' := h
          simp only [Shared.step, Function.update_comm hne]
      | load pb' =>
          have hne : pb' ≠ pb := h.symm
          simp only [Shared.step, Function.update_of_ne hne]
      | storeSum pb' v' =>
          have hne : pb ≠ pb' := h
          simp only [Shared.step, Function.update_comm hne]
  | load pb =>
      cases b with
      | store pb' v' =>
          have hne : pb ≠ pb' := h
          simp only [Shared.step, Function.update_of_ne hne]
      | load pb' => simp only [Shared.step, Function.update_comm hwho]
      | storeSum pb' v' =>
          have hne : pb ≠ pb' := h
          simp only [Shared.step, Function.update_of_ne hwho.symm, Function.update_of_ne hne]
  | storeSum pb v =>
      cases b with
      | store pb' v' =>
          have hne : pb ≠ pb' := h
          simp only [Shared.step, Function.update_comm hne]
      | load pb' =>
          have hne : pb' ≠ pb := h.symm
          simp only [Shared.step, Function.update_of_ne hwho, Function.update_of_ne hne]
      | storeSum pb' v' =>
          have hne : pb ≠ pb' := h
          simp only [Shared.step, Function.update_comm hne]

theorem place_write {p : Nat × BitVec 16} {a : MemStep} (h : a ∈ write mode p) :
    a.place = p.1 := by
  cases mode with
  | fillOver =>
      rw [List.mem_singleton.mp h]
      rfl
  | fillAdd =>
      rcases List.mem_pair.mp h with rfl | rfl
      · rfl
      · rfl

/-! ### A pulse -/

/-- The places of all staves. -/
def wanted (nchan : Nat) (pd : PulseDef) : List (Nat × BitVec 16) :=
  places nchan pd.pulse pd.staves pd.delay 0

/-- The places of the two halves. -/
def kept (nchan : Nat) (pd : PulseDef) : List (Nat × BitVec 16) :=
  places nchan pd.pulse (pd.staves / 2) pd.delay 0 ++
    places nchan pd.pulse (pd.staves / 2) pd.delay (pd.staves / 2)

/-- The places of the last stave, if the number of staves is odd. -/
def leftOut (nchan : Nat) (pd : PulseDef) : List (Nat × BitVec 16) :=
  places nchan pd.pulse (pd.staves % 2) pd.delay (2 * (pd.staves / 2))

theorem wanted_eq (nchan : Nat) (pd : PulseDef) :
    wanted nchan pd = kept nchan pd ++ leftOut nchan pd := by
  have hstaves : pd.staves = pd.staves / 2 + pd.staves / 2 + pd.staves % 2 := by omega
  unfold wanted kept leftOut
  conv_lhs => rw [hstaves]
  rw [places_add, places_add, Nat.zero_add, Nat.zero_add, Nat.two_mul]

theorem after_fill (who : Bool) (ps : List (Nat × BitVec 16)) (mem : Mem) :
    after ((ps.flatMap (write mode)).map (Prod.mk who)) mem = ps.foldl (put mode) mem :=
  foldl_write who ps _

/-- Whatever the order is, the two processes fill the places of the two halves. -/
theorem after_forked {pd : PulseDef} (hfits : pd.staves ≤ nchan) {steps : List (Bool × MemStep)}
    (h : Interleave
      ((fill mode nchan pd.pulse (pd.staves / 2) pd.delay 0).map (Prod.mk true))
      ((fill mode nchan pd.pulse (pd.staves / 2) pd.delay (pd.staves / 2)).map (Prod.mk false))
      steps) (mem : Mem) : after steps mem = (kept nchan pd).foldl (put mode) mem := by
  have hcomm : ∀ a ∈ (fill mode nchan pd.pulse (pd.staves / 2) pd.delay 0).map (Prod.mk true),
      ∀ b ∈ (fill mode nchan pd.pulse (pd.staves / 2) pd.delay (pd.staves / 2)).map
        (Prod.mk false), Interleave.Commute Shared.step a b := by
    intro a ha b hb
    obtain ⟨a', ha', rfl⟩ := List.mem_map.mp ha
    obtain ⟨b', hb', rfl⟩ := List.mem_map.mp hb
    obtain ⟨p, hp, hwrite⟩ := List.mem_flatMap.mp ha'
    obtain ⟨p', hp', hwrite'⟩ := List.mem_flatMap.mp hb'
    refine commute_step ?_
    rw [place_write hwrite, place_write hwrite']
    have hin : p' ∈ places nchan pd.pulse (pd.staves / 2) pd.delay (0 + pd.staves / 2) := by
      rw [Nat.zero_add]
      exact hp'
    exact places_disjoint (by omega) hp hin
  unfold after
  rw [h.foldl_eq hcomm, List.foldl_append]
  unfold fill
  rw [foldl_write, foldl_write]
  unfold kept
  rw [List.foldl_append]

/-! ### All pulses -/

/-- What the loop with two processes comes to. -/
def halves (nchan : Nat) : FillMode → List PulseDef → Mem → Mem
  | _, [], mem => mem
  | mode, pd :: pulses, mem =>
    halves nchan .fillAdd pulses ((kept nchan pd).foldl (put mode) mem)

theorem single_cons (mode : FillMode) (pd : PulseDef) (pulses : List PulseDef) (mem : Mem) :
    single nchan mode (pd :: pulses) mem =
      single nchan .fillAdd pulses ((wanted nchan pd).foldl (put mode) mem) := by
  rw [single]
  unfold fill
  rw [after_fill]
  rfl

theorem forked_iff {pulses : List PulseDef} (hfits : ∀ pd ∈ pulses, pd.staves ≤ nchan) :
    ∀ (mode : FillMode) (mem mem' : Mem), Forked nchan mode pulses mem mem' ↔
      mem' = halves nchan mode pulses mem := by
  induction pulses with
  | nil =>
      intro mode mem mem'
      constructor
      · intro h
        cases h
        rfl
      · rintro rfl
        exact .nil
  | cons pd pulses ih =>
      intro mode mem mem'
      have hpd := hfits pd List.mem_cons_self
      have hrest := ih fun d hd => hfits d (List.mem_cons_of_mem _ hd)
      constructor
      · intro h
        cases h with
        | cons hsteps hforked =>
            rw [after_forked hpd hsteps] at hforked
            exact (hrest _ _ _).mp hforked
      · rintro rfl
        refine .cons (Interleave.append _ _) ?_
        rw [after_forked hpd (Interleave.append _ _)]
        exact (hrest _ _ _).mpr rfl

/-- What is added to a word. -/
def total (ps : List (Nat × BitVec 16)) (x : Nat) : BitVec 16 :=
  ((ps.filter fun p => p.1 = x).map Prod.snd).sum

theorem total_append (ps ps' : List (Nat × BitVec 16)) (x : Nat) :
    total (ps ++ ps') x = total ps x + total ps' x := by
  unfold total
  rw [List.filter_append, List.map_append, List.sum_append]

theorem foldl_add (ps : List (Nat × BitVec 16)) (x : Nat) :
    ∀ mem : Mem, ps.foldl (put .fillAdd) mem x = mem x + total ps x := by
  induction ps with
  | nil =>
      intro mem
      exact (add_zero _).symm
  | cons p ps ih =>
      intro mem
      rw [List.foldl_cons, ih]
      have hput : put .fillAdd mem p x = mem x + total [p] x := by
        unfold put total
        by_cases h : p.1 = x
        · subst h
          simp
        · simp [h, Function.update_of_ne (Ne.symm h)]
      rw [hput, add_assoc, ← total_append]
      rfl

theorem foldl_over_outside (ps : List (Nat × BitVec 16)) (h : ∀ p ∈ ps, p.1 ≠ x) :
    ∀ mem : Mem, ps.foldl (put .fillOver) mem x = mem x := by
  induction ps with
  | nil => intro mem; rfl
  | cons p ps ih =>
      intro mem
      rw [List.foldl_cons, ih fun q hq => h q (List.mem_cons_of_mem _ hq)]
      exact Function.update_of_ne (h p List.mem_cons_self).symm _ _

/-- A word that is put over does not depend on what it was. -/
theorem foldl_over_inside (ps : List (Nat × BitVec 16)) (h : ∃ p ∈ ps, p.1 = x) :
    ∃ v, ∀ mem : Mem, ps.foldl (put .fillOver) mem x = v := by
  induction ps with
  | nil =>
      obtain ⟨p, hp, -⟩ := h
      cases hp
  | cons p ps ih =>
      by_cases hlater : ∃ q ∈ ps, q.1 = x
      · obtain ⟨v, hv⟩ := ih hlater
        exact ⟨v, fun mem => hv _⟩
      · obtain ⟨q, hq, hx⟩ := h
        rcases List.mem_cons.mp hq with rfl | hin
        · refine ⟨q.2, fun mem => ?_⟩
          rw [List.foldl_cons, foldl_over_outside ps fun q' hq' heq => hlater ⟨q', hq', heq⟩, ← hx]
          exact Function.update_self _ _ _
        · exact absurd ⟨q, hin, hx⟩ hlater

theorem single_add (pulses : List PulseDef) (x : Nat) :
    ∀ mem : Mem, single nchan .fillAdd pulses mem x =
      mem x + total (pulses.flatMap (wanted nchan)) x := by
  induction pulses with
  | nil =>
      intro mem
      exact (add_zero _).symm
  | cons pd pulses ih =>
      intro mem
      rw [single_cons, ih, foldl_add, List.flatMap_cons, total_append, add_assoc]

theorem halves_add (pulses : List PulseDef) (x : Nat) :
    ∀ mem : Mem, halves nchan .fillAdd pulses mem x =
      mem x + total (pulses.flatMap (kept nchan)) x := by
  induction pulses with
  | nil =>
      intro mem
      exact (add_zero _).symm
  | cons pd pulses ih =>
      intro mem
      rw [halves, ih, foldl_add, List.flatMap_cons, total_append, add_assoc]

theorem total_wanted (pulses : List PulseDef) (x : Nat) :
    total (pulses.flatMap (wanted nchan)) x =
      total (pulses.flatMap (kept nchan)) x + total (pulses.flatMap (leftOut nchan)) x := by
  induction pulses with
  | nil => exact (add_zero _).symm
  | cons pd pulses ih =>
      rw [List.flatMap_cons, List.flatMap_cons, List.flatMap_cons, total_append, total_append,
        total_append, ih, wanted_eq, total_append, add_add_add_comm]

/-! ### What is right -/

/-- In any order of the steps, two processes come to the memory of one. -/
def Right (nchan : Nat) (pulses : List PulseDef) : Prop :=
  ∀ mem mem', Forked nchan .fillOver pulses mem mem' → mem' = single nchan .fillOver pulses mem

/-- The staves that are left out make no difference. -/
def NoneLeftOut (nchan : Nat) : List PulseDef → Prop
  | [] => True
  | pd :: pulses =>
    leftOut nchan pd = [] ∧ ∀ x, total (pulses.flatMap (leftOut nchan)) x = 0

/--
**Two processes come to the memory of one where no stave is left out of the first pulse, and those
of the other pulses add up to nothing.**
-/
theorem threads_right_iff (nchan : Nat) (pulses : List PulseDef)
    (hfits : ∀ pd ∈ pulses, pd.staves ≤ nchan) :
    Right nchan pulses ↔ NoneLeftOut nchan pulses := by
  have hright : Right nchan pulses ↔
      ∀ mem, halves nchan .fillOver pulses mem = single nchan .fillOver pulses mem := by
    constructor
    · intro h mem
      exact h mem _ ((forked_iff hfits _ _ _).mpr rfl)
    · intro h mem mem' hforked
      rw [(forked_iff hfits _ _ _).mp hforked, h]
  rw [hright]
  cases pulses with
  | nil => exact iff_of_true (fun mem => rfl) trivial
  | cons pd pulses =>
      have hboth : (∀ mem, halves nchan .fillOver (pd :: pulses) mem =
          single nchan .fillOver (pd :: pulses) mem) ↔
          ∀ mem x, (kept nchan pd).foldl (put .fillOver) mem x =
            (leftOut nchan pd).foldl (put .fillOver) ((kept nchan pd).foldl (put .fillOver) mem) x +
              total (pulses.flatMap (leftOut nchan)) x := by
        refine forall_congr' fun mem => ?_
        rw [funext_iff]
        refine forall_congr' fun x => ?_
        rw [halves, single_cons, halves_add, single_add, total_wanted, wanted_eq,
          List.foldl_append, add_comm (total (pulses.flatMap (kept nchan)) x), ← add_assoc,
          add_left_inj]
      rw [hboth]
      constructor
      · intro h
        have hnone : leftOut nchan pd = [] := by
          by_contra hne
          obtain ⟨p, hp⟩ := List.exists_mem_of_ne_nil _ hne
          obtain ⟨v, hv⟩ := foldl_over_inside (leftOut nchan pd) ⟨p, hp, rfl⟩
          have houtside : ∀ q ∈ kept nchan pd, q.1 ≠ p.1 := by
            intro q hq
            have hpd := hfits pd List.mem_cons_self
            have hkept : kept nchan pd =
                places nchan pd.pulse (pd.staves / 2 + pd.staves / 2) pd.delay 0 := by
              rw [places_add, Nat.zero_add]
              rfl
            have hlast : p ∈ places nchan pd.pulse (pd.staves % 2) pd.delay
                (0 + (pd.staves / 2 + pd.staves / 2)) := by
              rw [Nat.zero_add, ← Nat.two_mul]
              exact hp
            rw [hkept] at hq
            exact places_disjoint (by omega) hq hlast
          -- the word is one value where it is put over, and any value where it is not
          have hany := h (fun _ => v + total (pulses.flatMap (leftOut nchan)) p.1 + 1) p.1
          rw [hv, foldl_over_outside _ houtside] at hany
          exact absurd (add_left_cancel (hany.trans (add_zero _).symm)) (by decide)
        refine ⟨hnone, fun x => ?_⟩
        have hx := h (fun _ => 0) x
        rw [hnone, List.foldl_nil] at hx
        exact (left_eq_add.mp hx)
      · rintro ⟨hnone, hzero⟩ mem x
        rw [hnone, hzero, List.foldl_nil, add_zero]

/-- Pulses with an even number of staves. -/
theorem even_staves_right : Right 96 [⟨[1, 2], 2, 1⟩, ⟨[3], 66, 0⟩] :=
  (threads_right_iff 96 _ (by decide)).mpr ⟨rfl, fun _ => rfl⟩

/-- A single stave is filled by no process. -/
theorem single_stave_not_right :
    ¬∀ (nchan : Nat) (pulses : List PulseDef), (∀ pd ∈ pulses, pd.staves ≤ nchan) →
      Right nchan pulses := by
  intro h
  have hforked : Forked 96 .fillOver [⟨[1], 1, 0⟩] (fun _ => 0) (fun _ => 0) :=
    .cons (Interleave.append _ _) .nil
  have hfilled := congrFun (h 96 [⟨[1], 1, 0⟩] (by decide) _ _ hforked) 0
  exact absurd hfilled (by decide)

end PhasedArray

end Acq400
