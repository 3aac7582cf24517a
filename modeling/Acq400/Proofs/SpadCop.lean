/-
What texts do to a copier of the scratchpad.

The timer runs while the copier is enabled, over every run in which no text enables it for a site
without a device.  The period is a product of 32 bits, and what is shown of it is divided by 1024:
no period of a microsecond or more is shown as it was written.
-/
import Acq400.Driver.SysfsKnobs
import Acq400.Lib.Run

namespace Acq400

namespace SpadCop

variable {lookupSite : BitVec 32 → Bool} {sc sc' : SpadCop} {buf : List Char}

/-! ### Runs -/

inductive Event where
  | store (buf : List Char)
  | fire
deriving DecidableEq, Repr

/-- The callback runs while the timer does. -/
def step (lookupSite : BitVec 32 → Bool) (sc : SpadCop) : Event → Option SpadCop
  | .store buf => (sc.set lookupSite buf).map Prod.snd
  | .fire => if sc.timer = .active then some sc.callback else none

/-- Behind the start of the module. -/
def boot : SpadCop :=
  { enabled := 0, srcSite := 0, reg := 0, ktPeriod := 0, timer := .uninit, function := .read,
    updates := 0 }

/-- The timer runs while it is enabled. -/
def Consistent (sc : SpadCop) : Prop := sc.timer = .active ↔ sc.enabled ≠ 0

/-- A text does what it says, or nothing at all. -/
structure SetRight (sc : SpadCop) (buf : List Char) (ret : Int) (sc' : SpadCop) : Prop where
  consistent : Consistent sc'
  refused : ret ≠ 0 → sc' = sc
  disabled : ∀ w, scan buf = some w → w.enable = 0 → ret = 0
  enabled : ∀ w, scan buf = some w → w.enable ≠ 0 → ret = 0 →
    ∃ site reg usecs, w.more = some (site, reg, usecs) ∧
      (1 ≤ usecs.toNat → sc'.ktPeriod = usecs.toNat * 1000 ∧
        sc'.print = printText w.enable site reg usecs sc'.updates)

def StoreRight (lookupSite : BitVec 32 → Bool) (sc : SpadCop) (buf : List Char) : Prop :=
  ∃ ret sc', sc.set lookupSite buf = some (ret, sc') ∧ SetRight sc buf ret sc'

def Right (lookupSite : BitVec 32 → Bool) (sc : SpadCop) : Event → Prop
  | .store buf => StoreRight lookupSite sc buf
  | .fire => ∀ sc', step lookupSite sc .fire = some sc' → Consistent sc'

/-- A timer is there to be stopped, and what is started is for a site with a device, with no time
between the copies. -/
def AllowedScan (lookupSite : BitVec 32 → Bool) (sc : SpadCop) (w : Scanned) : Prop :=
  if w.enable = 0 then sc.timer ≠ .uninit
  else sc.enabled = 0 → ∀ site reg usecs, w.more = some (site, reg, usecs) →
    lookupSite site = true ∧ usecs = 0

def Allowed (lookupSite : BitVec 32 → Bool) (sc : SpadCop) : Event → Prop
  | .store buf => ∀ w, scan buf = some w → AllowedScan lookupSite sc w
  | .fire => True

/-! ### What is shown -/

theorem decimalText_toInt_inj {a b : BitVec 32}
    (h : Sscanf.decimalText a.toInt = Sscanf.decimalText b.toInt) : a = b := by
  have hrange : ∀ x : BitVec 32, CInt.InRange x.toInt := fun x =>
    ⟨BitVec.le_toInt x, BitVec.toInt_lt⟩
  exact BitVec.eq_of_toInt_eq (Sscanf.decimalText_inj (hrange a) (hrange b) h)

/-- A period that is shown is that of the copier, of all periods. -/
theorem printText_inj {enabled srcSite usecs usecs' : BitVec 32} {reg updates : Nat}
    (h : printText enabled srcSite reg usecs updates =
      printText enabled srcSite reg usecs' updates) : usecs = usecs' := by
  unfold printText at h
  have h := List.append_cancel_left h
  have h := List.append_cancel_left (List.cons.inj h).2
  have h := List.append_cancel_left (List.cons.inj h).2
  exact decimalText_toInt_inj (List.append_cancel_right (List.cons.inj h).2)

/-- No period of a microsecond or more is shown as it was written. -/
theorem usecs_shown (usecs : BitVec 32) :
    BitVec.ofNat 32 ((usecs * 1000).toNat >>> 10) = usecs ↔ usecs = 0 := by
  constructor
  · intro h
    have h := congrArg BitVec.toNat h
    rw [BitVec.toNat_ofNat, Nat.shiftRight_eq_div_pow, BitVec.toNat_mul] at h
    apply BitVec.eq_of_toNat_eq
    have hthousand : (1000 : BitVec 32).toNat = 1000 := rfl
    rw [hthousand] at h
    have hless := Nat.mod_le (usecs.toNat * 1000) (2 ^ 32)
    generalize usecs.toNat * 1000 % 2 ^ 32 = period at h hless
    have hquot : period / 2 ^ 10 % 2 ^ 32 ≤ period / 2 ^ 10 := Nat.mod_le _ _
    show usecs.toNat = 0
    omega
  · rintro rfl
    rfl

/-! ### Steps -/

theorem stop_eq_none : sc.stop = none ↔ sc.timer = .uninit := by
  unfold stop
  cases sc.timer with
  | uninit => exact iff_of_true rfl rfl
  | idle => exact iff_of_false (fun h => by cases h) fun h => by cases h
  | active => exact iff_of_false (fun h => by cases h) fun h => by cases h

theorem stop_timer (h : sc.stop = some sc') : sc'.timer ≠ .active := by
  unfold stop at h
  split at h
  · cases h
  · rename_i hidle
    obtain rfl := Option.some.inj h
    rw [hidle]
    decide
  · obtain rfl := Option.some.inj h
    exact fun hactive => by cases hactive

/-- A text that is refused for its fields, or because the copier is enabled. -/
theorem set_refused {w : Scanned} (hscan : scan buf = some w) (henable : w.enable ≠ 0)
    (h : sc.enabled ≠ 0 ∨ w.more = none) :
    ∃ ret, sc.set lookupSite buf = some (ret, sc) ∧ ret ≠ 0 := by
  unfold set
  rw [hscan]
  dsimp only
  rw [if_pos henable]
  by_cases hbusy : sc.enabled ≠ 0
  · rw [if_pos hbusy]
    exact ⟨-ebusy, rfl, by decide⟩
  · rw [if_neg hbusy, h.resolve_left hbusy]
    exact ⟨-einval, rfl, by decide⟩

theorem set_enable {w : Scanned} {site usecs : BitVec 32} {reg : Nat} (hscan : scan buf = some w)
    (henable : w.enable ≠ 0) (hidle : sc.enabled = 0) (hmore : w.more = some (site, reg, usecs)) :
    sc.set lookupSite buf =
      some (enable lookupSite { sc with enabled := w.enable } site reg usecs) := by
  unfold set
  rw [hscan]
  dsimp only
  rw [if_pos henable, if_neg (not_not.mpr hidle), hmore]

theorem set_disable {w : Scanned} (hscan : scan buf = some w) (henable : w.enable = 0) :
    sc.set lookupSite buf = sc.stop.map fun sc => (0, { sc with enabled := 0 }) := by
  unfold set
  rw [hscan]
  dsimp only
  rw [if_neg (not_not.mpr henable)]

theorem set_unscanned (hscan : scan buf = none) : sc.set lookupSite buf = some (-einval, sc) := by
  unfold set
  rw [hscan]

theorem unscanned_right (hinv : Consistent sc) (hscan : scan buf = none) :
    StoreRight lookupSite sc buf :=
  ⟨_, _, set_unscanned hscan, hinv, fun _ => rfl, fun _ hw => absurd (hscan.symm.trans hw) nofun,
    fun _ hw => absurd (hscan.symm.trans hw) nofun⟩

/-- A timer that is not there cannot be stopped. -/
theorem disable_right_iff {w : Scanned} (hscan : scan buf = some w) (henable : w.enable = 0) :
    StoreRight lookupSite sc buf ↔ sc.timer ≠ .uninit := by
  unfold StoreRight
  rw [set_disable hscan henable, ne_eq, ← stop_eq_none]
  cases hstop : sc.stop with
  | none => exact iff_of_false (fun ⟨_, _, h, _⟩ => by cases h) fun h => h rfl
  | some stopped =>
      have hidle := stop_timer hstop
      refine iff_of_true ⟨0, { stopped with enabled := 0 }, rfl, ?_, fun h => absurd rfl h,
        fun _ _ _ => rfl, fun w' hw' h => ?_⟩ fun h => by cases h
      · exact iff_of_false hidle (not_not.mpr rfl)
      · obtain rfl := Option.some.inj (hscan.symm.trans hw')
        exact absurd henable h

/-- A site without a device is refused when the enable is set already. -/
theorem no_site_not_right {w : Scanned} (hscan : scan buf = some w) (henable : w.enable ≠ 0)
    (hidle : sc.enabled = 0) {site : BitVec 32} {reg : Nat} {usecs : BitVec 32}
    (hmore : w.more = some (site, reg, usecs)) (hsite : lookupSite site = false) :
    ¬StoreRight lookupSite sc buf := by
  rintro ⟨ret, sc', hret, hright⟩
  rw [@set_enable lookupSite _ _ _ _ _ _ hscan henable hidle hmore, enable, hsite,
    if_neg Bool.false_ne_true, Option.some.injEq, Prod.mk.injEq] at hret
  obtain ⟨rfl, rfl⟩ := hret
  have hkept := congrArg enabled (hright.refused (by decide))
  exact henable (hkept.trans hidle)

/-- What is started at a site is right if nothing of it is shown wrong. -/
theorem started_right_iff {w : Scanned} (hscan : scan buf = some w) (henable : w.enable ≠ 0)
    (hidle : sc.enabled = 0) {site : BitVec 32} {reg : Nat} {usecs : BitVec 32}
    (hmore : w.more = some (site, reg, usecs)) (hsite : lookupSite site = true) :
    StoreRight lookupSite sc buf ↔ usecs = 0 := by
  unfold StoreRight
  rw [@set_enable lookupSite _ _ _ _ _ _ hscan henable hidle hmore, enable, hsite, if_pos rfl]
  constructor
  · rintro ⟨ret, sc', hret, hright⟩
    rw [Option.some.injEq, Prod.mk.injEq] at hret
    obtain ⟨rfl, rfl⟩ := hret
    by_contra hpos
    obtain ⟨_, _, _, hmore', hstarted⟩ := hright.enabled w hscan henable rfl
    obtain ⟨rfl, rfl, rfl⟩ : site = _ ∧ reg = _ ∧ usecs = _ := by
      simpa using hmore.symm.trans hmore'
    have hone : 1 ≤ usecs.toNat := by
      have : usecs.toNat ≠ 0 := fun hzero => hpos (BitVec.eq_of_toNat_eq hzero)
      omega
    exact hpos ((usecs_shown usecs).mp (printText_inj (hstarted hone).2))
  · rintro rfl
    refine ⟨0, _, rfl, iff_of_true rfl henable, fun h => absurd rfl h, fun w' hw' h => ?_,
      fun w' hw' _ _ => ?_⟩
    · obtain rfl := Option.some.inj (hscan.symm.trans hw')
      exact absurd h henable
    · obtain rfl := Option.some.inj (hscan.symm.trans hw')
      exact ⟨site, reg, 0, hmore, fun hone => absurd hone (by decide)⟩

theorem enable_right_iff (hinv : Consistent sc) {w : Scanned} (hscan : scan buf = some w)
    (henable : w.enable ≠ 0) :
    StoreRight lookupSite sc buf ↔ (sc.enabled = 0 → ∀ site reg usecs,
      w.more = some (site, reg, usecs) → lookupSite site = true ∧ usecs = 0) := by
  have hnot : ∀ w', scan buf = some w' → w'.enable ≠ 0 := fun w' hw' =>
    Option.some.inj (hscan.symm.trans hw') ▸ henable
  by_cases hrefused : sc.enabled ≠ 0 ∨ w.more = none
  · obtain ⟨ret, hset, hret⟩ := @set_refused lookupSite _ _ _ hscan henable hrefused
    refine iff_of_true ⟨ret, sc, hset, hinv, fun _ => rfl, fun w' hw' h => absurd h (hnot w' hw'),
      fun _ _ _ h => absurd h hret⟩ fun hidle site reg usecs hmore => ?_
    rcases hrefused with hbusy | hnone
    · exact absurd hidle hbusy
    · cases hnone.symm.trans hmore
  · obtain ⟨hidle, hmore⟩ := not_or.mp hrefused
    have hidle := not_not.mp hidle
    obtain ⟨⟨site, reg, usecs⟩, hmore⟩ := Option.ne_none_iff_exists'.mp hmore
    cases hsite : lookupSite site with
    | false =>
        refine iff_of_false (no_site_not_right hscan henable hidle hmore hsite) fun h => ?_
        exact Bool.false_ne_true (hsite.symm.trans (h hidle _ _ _ hmore).1)
    | true =>
        rw [started_right_iff hscan henable hidle hmore hsite]
        constructor
        · intro husecs _ site' reg' usecs' hmore'
          obtain ⟨rfl, rfl, rfl⟩ : site = site' ∧ reg = reg' ∧ usecs = usecs' := by
            simpa using hmore.symm.trans hmore'
          exact ⟨hsite, husecs⟩
        · exact fun h => (h hidle site reg usecs hmore).2

theorem store_right_iff (hinv : Consistent sc) :
    StoreRight lookupSite sc buf ↔ ∀ w, scan buf = some w → AllowedScan lookupSite sc w := by
  cases hscan : scan buf with
  | none => exact iff_of_true (unscanned_right hinv hscan) nofun
  | some w =>
      have hone : (∀ w', some w = some w' → AllowedScan lookupSite sc w') ↔
          AllowedScan lookupSite sc w :=
        ⟨fun h => h w rfl, fun h w' hw' => Option.some.inj hw' ▸ h⟩
      rw [hone]
      unfold AllowedScan
      by_cases henable : w.enable = 0
      · rw [if_pos henable]
        exact disable_right_iff hscan henable
      · rw [if_neg henable]
        exact enable_right_iff hinv hscan henable

theorem callback_consistent (hinv : Consistent sc) : Consistent sc.callback := by
  unfold callback
  split
  · exact hinv
  · exact hinv
  · exact hinv
  · exact hinv

/-- A step is right exactly when it is allowed, and then the timer runs while it is enabled. -/
theorem step_right_iff (hinv : Consistent sc) (e : Event) :
    (Right lookupSite sc e ↔ Allowed lookupSite sc e) ∧
      (Right lookupSite sc e → ∀ sc', step lookupSite sc e = some sc' → Consistent sc') := by
  cases e with
  | store buf =>
      refine ⟨store_right_iff hinv, ?_⟩
      rintro ⟨ret, t, hset, hright⟩ sc' hstep
      have hstep : (sc.set lookupSite buf).map Prod.snd = some sc' := hstep
      rw [hset] at hstep
      obtain rfl := Option.some.inj hstep
      exact hright.consistent
  | fire =>
      have hkeep : ∀ sc', step lookupSite sc .fire = some sc' → Consistent sc' := by
        intro sc' hstep
        unfold step at hstep
        dsimp only at hstep
        split at hstep
        · obtain rfl := Option.some.inj hstep
          exact callback_consistent hinv
        · cases hstep
      exact ⟨iff_of_true hkeep trivial, fun _ => hkeep⟩

/-- A text that starts a copy does it for a site with a device. -/
def HasDevice (lookupSite : BitVec 32 → Bool) : Event → Prop
  | .store buf => ∀ w site reg usecs, scan buf = some w → w.more = some (site, reg, usecs) →
    lookupSite site = true
  | .fire => True

theorem set_consistent (hinv : Consistent sc) (hdevice : HasDevice lookupSite (.store buf))
    {ret : Int} (hset : sc.set lookupSite buf = some (ret, sc')) : Consistent sc' := by
  cases hscan : scan buf with
  | none =>
      rw [set_unscanned hscan, Option.some.injEq, Prod.mk.injEq] at hset
      exact hset.2 ▸ hinv
  | some w =>
      by_cases henable : w.enable = 0
      · rw [set_disable hscan henable, Option.map_eq_some_iff] at hset
        obtain ⟨stopped, hstop, heq⟩ := hset
        obtain ⟨-, rfl⟩ := Prod.mk.inj heq
        have hidle := stop_timer hstop
        exact iff_of_false hidle (not_not.mpr rfl)
      · by_cases hrefused : sc.enabled ≠ 0 ∨ w.more = none
        · obtain ⟨_, hset', -⟩ := @set_refused lookupSite _ _ _ hscan henable hrefused
          rw [hset', Option.some.injEq, Prod.mk.injEq] at hset
          exact hset.2 ▸ hinv
        · obtain ⟨hidle, hmore⟩ := not_or.mp hrefused
          obtain ⟨⟨site, reg, usecs⟩, hmore⟩ := Option.ne_none_iff_exists'.mp hmore
          rw [set_enable hscan henable (not_not.mp hidle) hmore, enable,
            if_pos (hdevice w site reg usecs hscan hmore), Option.some.injEq, Prod.mk.injEq] at hset
          exact hset.2 ▸ iff_of_true rfl henable

theorem boot_consistent : Consistent boot :=
  iff_of_false (fun h => by cases h) (not_not.mpr rfl)

/-- The timer runs while the copier is enabled, if all sites have a device. -/
theorem run_consistent {events : List Event} (hdevices : ∀ e ∈ events, HasDevice lookupSite e)
    (hrun : Lts.run (step lookupSite) boot events = some sc) : Consistent sc := by
  refine Lts.run_invariant_of (G := fun _ e => HasDevice lookupSite e) Consistent ?_ events boot sc
    boot_consistent (Lts.Meets.of_forall hdevices) hrun
  intro t e t' hinv hdevice hstep
  cases e with
  | store buf =>
      obtain ⟨⟨ret, u⟩, hset, rfl⟩ := Option.map_eq_some_iff.mp hstep
      exact set_consistent hinv hdevice hset
  | fire => exact ((step_right_iff hinv .fire).1.mpr trivial) t' hstep

/--
**In a run every text does what it says, or nothing, if and only if none stops a timer that is not
there, and none starts a copy for a site without a device or with a time to show.**
-/
theorem run_right_iff (lookupSite : BitVec 32 → Bool) (events : List Event) :
    Lts.Meets (step lookupSite) (Right lookupSite) boot events ↔
      Lts.Meets (step lookupSite) (Allowed lookupSite) boot events :=
  Lts.Meets.congr_of Consistent (fun _ e hinv => step_right_iff hinv e) events boot boot_consistent

/-- A copy for a site without a device is refused, and enabled all the same. -/
theorem no_device_not_right :
    ¬Lts.Meets (step fun site => site = 0) (Right fun site => site = 0) boot
      [.store "1,5,10,1000\n".toList] := by
  rintro ⟨⟨ret, sc', hset, hright⟩, -⟩
  have hscan : boot.set (fun site => site = 0) "1,5,10,1000\n".toList =
      some (-enodev, { boot with enabled := 1 }) := by decide
  rw [hscan, Option.some.injEq, Prod.mk.injEq] at hset
  obtain ⟨rfl, rfl⟩ := hset
  exact absurd hright.consistent (by unfold Consistent; decide)

end SpadCop

end Acq400
