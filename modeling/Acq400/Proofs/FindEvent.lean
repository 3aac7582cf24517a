/-
What the search for an event finds.

A buffer `Holds` a signature at the stride of the search, and the scan of one buffer finds
one exactly if it does.  The search goes through the buffers that `Searched` names, in
its order, and ends where the scans do.  What it says of them is right, but for one
thing: going backwards it keeps the buffer it started from as `*ibuf`, while `*espp`
is in the one before.
-/
import Acq400.Lib.IndexRing
import Acq400.Stream.FindEvent

namespace Acq400

open IndexRing

/-! ### The ring -/

namespace MapBuffer

variable {g : G} {reserved ib : Nat}

theorem pred_eq (hib : InRing reserved g.nbuffers ib) :
    pred g reserved ib = (prev reserved g.nbuffers ib : Nat) := by
  unfold pred prev
  unfold InRing at hib
  split <;> omega

theorem succ_eq (hib : InRing reserved g.nbuffers ib) :
    succ g reserved ib = (next reserved g.nbuffers ib : Nat) := by
  unfold succ next
  unfold InRing at hib
  split_ifs <;> omega

theorem theBuffers_natCast (hib : ib < g.nbuffers) : theBuffers g ib = some ib := by
  unfold theBuffers
  rw [if_pos (by omega), Int.toNat_natCast]

theorem theBuffers_pred (hib : InRing reserved g.nbuffers ib) :
    theBuffers g (pred g reserved ib) = some (prev reserved g.nbuffers ib) := by
  rw [pred_eq hib, theBuffers_natCast hib.prev.2]

theorem theBuffers_succ (hib : InRing reserved g.nbuffers ib) :
    theBuffers g (succ g reserved ib) = some (next reserved g.nbuffers ib) := by
  rw [succ_eq hib, theBuffers_natCast hib.next.2]

end MapBuffer

/-! ### What a signature is looked for in -/

namespace ES

variable {es : ES} {m : Mem} {cursor : Nat}

theorem le_of_mem_isESInspect {a : Nat} : ∀ {bits left ic : Nat} {isEs : Bool},
    a ∈ (isESInspect es m cursor bits left ic isEs).2 → cursor ≤ a := by
  intro bits
  induction bits with
  | zero => intro _ _ _ h; cases h
  | succ bits ih =>
      intro left ic isEs h
      unfold isESInspect at h
      split at h
      · cases h
      · split at h
        · split at h
          · rcases List.mem_cons.mp h with rfl | h
            · omega
            · exact ih h
          · obtain rfl := List.mem_singleton.mp h
            omega
        · exact ih h

theorem le_end_of_mem_isESInspect {a : Nat} : ∀ {bits left ic k : Nat} {isEs : Bool},
    a ∈ (isESInspect es m cursor bits left ic isEs).2 → left < 2 ^ k →
      a + 4 ≤ cursor + 4 * (ic + k) := by
  intro bits
  induction bits with
  | zero => intro _ _ _ _ h; cases h
  | succ bits ih =>
      intro left ic k isEs h hk
      unfold isESInspect at h
      split at h
      · cases h
      · rename_i hne
        cases k with
        | zero => omega
        | succ k =>
            have hrest : ∀ {isEs : Bool},
                a ∈ (isESInspect es m cursor bits (left / 2) (ic + 1) isEs).2 →
                  a + 4 ≤ cursor + 4 * (ic + (k + 1)) := by
              intro _ ha
              have := ih (k := k) ha (by omega)
              omega
            split at h
            · split at h
              · rcases List.mem_cons.mp h with rfl | h
                · omega
                · exact hrest h
              · obtain rfl := List.mem_singleton.mp h
                omega
            · exact hrest h

/-- As long as match bits are left there is a word to inspect. -/
theorem isESInspect_ne_nil : ∀ {bits left ic : Nat} {isEs : Bool}, left < 2 ^ bits → left ≠ 0 →
    (isESInspect es m cursor bits left ic isEs).2 ≠ [] := by
  intro bits
  induction bits with
  | zero => intro left _ _ hlt hne; omega
  | succ bits ih =>
      intro left ic isEs hlt hne
      unfold isESInspect
      rw [if_neg hne]
      split
      · split
        · exact List.cons_ne_nil _ _
        · exact List.cons_ne_nil _ _
      · exact ih (by omega) (by omega)

theorem inspects_evX_ne_nil (isAcq480 : Bool) : (evX isAcq480).inspects m cursor ≠ [] := by
  refine isESInspect_ne_nil ?_ ?_
  · cases isAcq480 <;> decide
  · cases isAcq480 <;> decide

/-- A signature is in the first four words. -/
theorem le_end_of_mem_inspects {isAcq480 : Bool} {a : Nat}
    (h : a ∈ (evX isAcq480).inspects m cursor) : a + 4 ≤ cursor + 16 :=
  le_end_of_mem_isESInspect (k := 4) h (by cases isAcq480 <;> decide)

end ES

namespace StreamHeadImpl

variable {h : StreamHeadImpl} {m : Mem}

/-! ### One buffer -/

/-- There is a signature in the buffer, at the stride of the search. -/
def Holds (h : StreamHeadImpl) (m : Mem) (ib : Nat) : Prop :=
  ∃ i, i * h.stride < h.len32 ∧
    h.evA.isES m (MapBuffer.getBase h.toG ib + 4 * (i * h.stride)) = true

/-- An active event signature, in the buffer. -/
def FoundIn (h : StreamHeadImpl) (m : Mem) (ib esp : Nat) : Prop :=
  h.evA.isES m esp = true ∧ MapBuffer.getBase h.toG ib ≤ esp ∧
    esp < MapBuffer.getBase h.toG ib + h.bufferlen

/-- A scan comes to the end of a buffer. -/
def Scans (h : StreamHeadImpl) : Prop := 0 < h.stride ∨ h.len32 = 0

variable {base : Nat}

theorem findEventLoop_some {esp : Nat} : ∀ {fuel pos : Nat},
    findEventLoop h m base fuel pos = some (some esp) →
      ∃ i, pos + i * h.stride < h.len32 ∧ esp = base + 4 * (pos + i * h.stride) ∧
        h.evA.isES m esp = true := by
  intro fuel
  induction fuel with
  | zero => intro pos hloop; cases hloop
  | succ fuel ih =>
      intro pos hloop
      unfold findEventLoop at hloop
      split at hloop
      · rename_i hpos
        split at hloop
        · rename_i hes
          obtain rfl := Option.some.inj (Option.some.inj hloop)
          exact ⟨0, by simpa using hpos, by simp, hes⟩
        · obtain ⟨i, hi, hesp, hes⟩ := ih hloop
          have hsucc : (i + 1) * h.stride = i * h.stride + h.stride := Nat.succ_mul i _
          exact ⟨i + 1, by omega, by omega, hes⟩
      · cases hloop

theorem findEventLoop_none : ∀ {fuel pos : Nat},
    findEventLoop h m base fuel pos = some none →
      ∀ i, pos + i * h.stride < h.len32 →
        h.evA.isES m (base + 4 * (pos + i * h.stride)) = false := by
  intro fuel
  induction fuel with
  | zero => intro pos hloop; cases hloop
  | succ fuel ih =>
      intro pos hloop i hi
      unfold findEventLoop at hloop
      rw [if_pos (by omega)] at hloop
      split at hloop
      · cases hloop
      · rename_i hes
        cases i with
        | zero => simpa using hes
        | succ i =>
            have hsucc : pos + (i + 1) * h.stride = pos + h.stride + i * h.stride := by
              rw [Nat.succ_mul i]
              omega
            rw [hsucc] at hi ⊢
            exact ih hloop i (by omega)

theorem findEventLoop_ends (hstride : 0 < h.stride) : ∀ {fuel pos : Nat},
    h.len32 - pos < fuel → ∃ r, findEventLoop h m base fuel pos = some r := by
  intro fuel
  induction fuel with
  | zero => intro pos hfuel; omega
  | succ fuel ih =>
      intro pos hfuel
      unfold findEventLoop
      split
      · split
        · exact ⟨_, rfl⟩
        · exact ih (by omega)
      · exact ⟨_, rfl⟩

/-- With a sample of less than four bytes the scan stays where it is. -/
theorem findEventLoop_stuck (hstride : h.stride = 0) {pos : Nat} (hpos : pos < h.len32)
    (hes : h.evA.isES m (base + 4 * pos) = false) :
    ∀ fuel, findEventLoop h m base fuel pos = none := by
  intro fuel
  induction fuel with
  | zero => rfl
  | succ fuel ih =>
      unfold findEventLoop
      rw [if_pos hpos, hes, hstride]
      exact ih

variable {fuel ib esp : Nat}

theorem findEventBuffer_some (hscan : h.findEventBuffer m fuel ib = some (some esp)) :
    h.Holds m ib ∧ h.FoundIn m ib esp := by
  obtain ⟨i, hi, rfl, hes⟩ := findEventLoop_some hscan
  rw [Nat.zero_add] at hi hes ⊢
  refine ⟨⟨i, hi, hes⟩, hes, by omega, ?_⟩
  unfold len32 at hi
  omega

theorem findEventBuffer_none (hscan : h.findEventBuffer m fuel ib = some none) :
    ¬ h.Holds m ib := by
  rintro ⟨i, hi, hes⟩
  have hno := findEventLoop_none hscan i (by omega)
  rw [Nat.zero_add, hes] at hno
  cases hno

theorem findEventBuffer_ends (hscans : h.Scans) (hfuel : h.len32 < fuel) (ib : Nat) :
    ∃ r, h.findEventBuffer m fuel ib = some r := by
  unfold findEventBuffer
  rcases hscans with hstride | hlen
  · exact findEventLoop_ends hstride (by omega)
  · obtain ⟨fuel, rfl⟩ : ∃ n, fuel = n + 1 := ⟨fuel - 1, by omega⟩
    refine ⟨none, ?_⟩
    unfold findEventLoop
    rw [if_neg (by omega)]

/-! ### The buffers searched -/

/-- The buffer `j` places on from `ib`. -/
def onFrom (h : StreamHeadImpl) (j ib : Nat) : Nat := (next h.buffer0Reserved h.nbuffers)^[j] ib

/-- The buffer `j` places back from `ib`. -/
def backFrom (h : StreamHeadImpl) (j ib : Nat) : Nat := (prev h.buffer0Reserved h.nbuffers)^[j] ib

/-- One of the ring. -/
def IsBuffer (h : StreamHeadImpl) (ib : Nat) : Prop := InRing h.buffer0Reserved h.nbuffers ib

/-- One of the MAX_FORTRACK - 1 successors of `b2`. -/
def IsForward (h : StreamHeadImpl) (b2 ib : Nat) : Prop :=
  ∃ j : Nat, 1 ≤ j ∧ (j : Int) < h.maxFortrack ∧ ib = h.onFrom j b2

/-- The buffer that is searched before the backtracking, for `b1` or for -1. -/
def firstBack (h : StreamHeadImpl) (b1 : Int) (b2 : Nat) : Nat :=
  if b1 = -1 then prev h.buffer0Reserved h.nbuffers b2 else b1.toNat

/-- One of the predecessors of `buffer1` that are backtracked through: the first one, and as many
as MAX_BACKTRACK allows, as long as `b2` has not been come to. -/
def IsBacktracked (h : StreamHeadImpl) (b2 buffer1 ib : Nat) : Prop :=
  ∃ j : Nat, 1 ≤ j ∧ (j = 1 ∨ (j : Int) ≤ h.maxBacktrack) ∧ ib = h.backFrom j buffer1 ∧
    ∀ i, 1 ≤ i → i ≤ j → h.backFrom i buffer1 ≠ b2

/-- One of the buffers of the search. -/
def Searched (h : StreamHeadImpl) (b1 : Int) (b2 ib : Nat) : Prop :=
  ib = b2 ∨ h.IsForward b2 ib ∨ ib = h.firstBack b1 b2 ∨
    h.IsBacktracked b2 (h.firstBack b1 b2) ib

theorem forward_succ {n : Nat} (hib : h.IsBuffer ib) :
    h.forward m fuel (n + 1) ib =
      (h.findEventBuffer m fuel (next h.buffer0Reserved h.nbuffers ib)).bind fun r =>
        match r with
        | some esp => some (some ((next h.buffer0Reserved h.nbuffers ib : Int), esp))
        | none => h.forward m fuel n (next h.buffer0Reserved h.nbuffers ib) := by
  rw [forward, MapBuffer.theBuffers_succ hib, MapBuffer.succ_eq hib]
  rfl

theorem forward_some {b3 : Int} : ∀ {n ib : Nat}, h.IsBuffer ib →
    h.forward m fuel n ib = some (some (b3, esp)) →
      ∃ j, 1 ≤ j ∧ j ≤ n ∧ b3 = (h.onFrom j ib : Nat) ∧ h.Holds m (h.onFrom j ib) ∧
        h.FoundIn m (h.onFrom j ib) esp := by
  intro n
  induction n with
  | zero => intro ib _ hfor; cases hfor
  | succ n ih =>
      intro ib hib hfor
      rw [forward_succ hib, Option.bind_eq_some_iff] at hfor
      obtain ⟨r, hscan, hfor⟩ := hfor
      cases r with
      | some esp' =>
          obtain ⟨rfl, rfl⟩ := Prod.mk.inj (Option.some.inj (Option.some.inj hfor))
          exact ⟨1, Nat.le_refl 1, by omega, rfl, findEventBuffer_some hscan⟩
      | none =>
          obtain ⟨j, hj, hjn, hfound⟩ := ih hib.next hfor
          exact ⟨j + 1, by omega, by omega, hfound⟩

theorem forward_none : ∀ {n ib : Nat}, h.IsBuffer ib → h.forward m fuel n ib = some none →
    ∀ j, 1 ≤ j → j ≤ n → ¬ h.Holds m (h.onFrom j ib) := by
  intro n
  induction n with
  | zero => intro ib _ _ j hj hjn; omega
  | succ n ih =>
      intro ib hib hfor j hj hjn
      rw [forward_succ hib, Option.bind_eq_some_iff] at hfor
      obtain ⟨r, hscan, hfor⟩ := hfor
      cases r with
      | some esp' => cases hfor
      | none =>
          obtain ⟨j, rfl⟩ : ∃ i, j = i + 1 := ⟨j - 1, by omega⟩
          cases j with
          | zero => exact findEventBuffer_none hscan
          | succ j => exact ih hib.next hfor (j + 1) (by omega) (by omega)

theorem forward_ends (hscans : h.Scans) (hfuel : h.len32 < fuel) : ∀ {n ib : Nat},
    h.IsBuffer ib → ∃ r, h.forward m fuel n ib = some r := by
  intro n
  induction n with
  | zero => intro ib _; exact ⟨none, rfl⟩
  | succ n ih =>
      intro ib hib
      rw [forward_succ hib]
      obtain ⟨r, hr⟩ := findEventBuffer_ends (m := m) hscans hfuel
        (next h.buffer0Reserved h.nbuffers ib)
      rw [hr, Option.bind_some]
      cases r with
      | some esp => exact ⟨_, rfl⟩
      | none => exact ih hib.next

variable {scanFuel b2 : Nat} {bt : Int}

theorem backtrackLoop_succ (hib : h.IsBuffer ib) :
    h.backtrackLoop m scanFuel b2 (fuel + 1) bt ib =
      if h.backFrom 1 ib = b2 then some none
      else (h.findEventBuffer m scanFuel (h.backFrom 1 ib)).bind fun r =>
        match r with
        | some esp => some (some esp)
        | none =>
          if h.maxBacktrack ≤ bt then some none
          else h.backtrackLoop m scanFuel b2 fuel (bt + 1) (h.backFrom 1 ib) := by
  rw [backtrackLoop, MapBuffer.theBuffers_pred hib]
  rfl

theorem IsBuffer.backFrom (hib : h.IsBuffer ib) (j : Nat) : h.IsBuffer (h.backFrom j ib) :=
  InRing.iterate_prev hib j

theorem backtrackLoop_some : ∀ {fuel ib : Nat} {bt : Int}, h.IsBuffer ib →
    h.backtrackLoop m scanFuel b2 fuel bt ib = some (some esp) →
      ∃ j : Nat, 1 ≤ j ∧ (j = 1 ∨ bt + j - 1 ≤ h.maxBacktrack) ∧
        (∀ i, 1 ≤ i → i ≤ j → h.backFrom i ib ≠ b2) ∧
        h.Holds m (h.backFrom j ib) ∧ h.FoundIn m (h.backFrom j ib) esp := by
  intro fuel
  induction fuel with
  | zero => intro ib bt _ hback; cases hback
  | succ fuel ih =>
      intro ib bt hib hback
      rw [backtrackLoop_succ hib] at hback
      split at hback
      · cases hback
      · rename_i hne
        obtain ⟨r, hscan, hback⟩ := Option.bind_eq_some_iff.mp hback
        cases r with
        | some esp' =>
            obtain rfl := Option.some.inj (Option.some.inj hback)
            refine ⟨1, Nat.le_refl 1, Or.inl rfl, ?_, findEventBuffer_some hscan⟩
            intro i hi hi1
            obtain rfl : i = 1 := by omega
            exact hne
        | none =>
            dsimp only at hback
            split at hback
            · cases hback
            · rename_i hbt
              obtain ⟨j, hj, hjmax, hjne, hfound⟩ := ih (hib.backFrom 1) hback
              refine ⟨j + 1, by omega, Or.inr (by omega), ?_, hfound⟩
              intro i hi hij
              cases i with
              | zero => omega
              | succ i =>
                  cases i with
                  | zero => exact hne
                  | succ i => exact hjne (i + 1) (by omega) (by omega)

theorem backtrackLoop_none : ∀ {fuel ib : Nat} {bt : Int}, h.IsBuffer ib →
    h.backtrackLoop m scanFuel b2 fuel bt ib = some none →
      ∀ j : Nat, 1 ≤ j → (j = 1 ∨ bt + j - 1 ≤ h.maxBacktrack) →
        (∀ i, 1 ≤ i → i ≤ j → h.backFrom i ib ≠ b2) → ¬ h.Holds m (h.backFrom j ib) := by
  intro fuel
  induction fuel with
  | zero => intro ib bt _ hback; cases hback
  | succ fuel ih =>
      intro ib bt hib hback j hj hjmax hjne
      rw [backtrackLoop_succ hib, if_neg (hjne 1 (Nat.le_refl 1) hj)] at hback
      obtain ⟨r, hscan, hback⟩ := Option.bind_eq_some_iff.mp hback
      cases r with
      | some esp' => cases hback
      | none =>
          obtain ⟨j, rfl⟩ : ∃ i, j = i + 1 := ⟨j - 1, by omega⟩
          cases j with
          | zero => exact findEventBuffer_none hscan
          | succ j =>
              dsimp only at hback
              rw [if_neg (by omega)] at hback
              refine ih (hib.backFrom 1) hback (j + 1) (by omega) (Or.inr (by omega)) ?_
              intro i hi hij
              exact hjne (i + 1) (by omega) (by omega)

/-- The backtracking ends with the buffer that it comes back to. -/
theorem backtrackLoop_ends (hscans : h.Scans) (hscanFuel : h.len32 < scanFuel) :
    ∀ {fuel k ib : Nat} {bt : Int}, h.IsBuffer ib → 0 < k → k ≤ fuel → h.backFrom k ib = b2 →
      ∃ r, h.backtrackLoop m scanFuel b2 fuel bt ib = some r := by
  intro fuel
  induction fuel with
  | zero => intro k ib bt _ hk hkfuel _; omega
  | succ fuel ih =>
      intro k ib bt hib hk hkfuel hkb2
      rw [backtrackLoop_succ hib]
      split
      · exact ⟨_, rfl⟩
      · rename_i hne
        obtain ⟨r, hr⟩ := findEventBuffer_ends (m := m) hscans hscanFuel (h.backFrom 1 ib)
        rw [hr, Option.bind_some]
        cases r with
        | some esp => exact ⟨_, rfl⟩
        | none =>
            dsimp only
            split
            · exact ⟨_, rfl⟩
            · obtain ⟨k, rfl⟩ : ∃ i, k = i + 1 := ⟨k - 1, by omega⟩
              cases k with
              | zero => exact absurd hkb2 hne
              | succ k => exact ih (hib.backFrom 1) (Nat.succ_pos k) (by omega) hkb2

/-! ### The search -/

/-- `b1` of an `event_info`: a buffer, or -1. -/
def IsB1 (h : StreamHeadImpl) (b1 : Int) : Prop := b1 = -1 ∨ ∃ ib : Nat, b1 = ib ∧ h.IsBuffer ib

theorem isBuffer_firstBack {b1 : Int} (h1 : h.IsB1 b1) (h2 : h.IsBuffer b2) :
    h.IsBuffer (h.firstBack b1 b2) := by
  unfold firstBack
  rcases h1 with rfl | ⟨ib, rfl, hib⟩
  · exact h2.prev
  · rw [if_neg (by omega)]
    exact hib

theorem firstBack_eq {b1 : Int} (h1 : h.IsB1 b1) (h2 : h.IsBuffer b2) :
    (if b1 = -1 then MapBuffer.pred h.toG h.buffer0Reserved b2 else b1) =
      (h.firstBack b1 b2 : Nat) := by
  unfold firstBack
  rcases h1 with rfl | ⟨ib, rfl, _⟩
  · exact MapBuffer.pred_eq h2
  · rw [if_neg (by omega), if_neg (by omega)]
    rfl

theorem findEvent_eq {b1 : Int} (h1 : h.IsB1 b1) (h2 : h.IsBuffer b2) :
    h.findEvent m fuel b1 b2 = (h.findEventBuffer m fuel b2).bind fun r =>
      match r with
      | some esp => some (.found b2 esp)
      | none => (h.forward m fuel (h.maxFortrack - 1).toNat b2).bind fun r =>
        match r with
        | some (b3, esp) => some (.found b3 esp)
        | none => (h.findEventBuffer m fuel (h.firstBack b1 b2)).bind fun r =>
          match r with
          | some esp => some (.found (h.firstBack b1 b2 : Int) esp)
          | none => (h.backtrackLoop m fuel b2 fuel 1 (h.firstBack b1 b2)).bind fun r =>
            match r with
            | some esp => some (.found (h.firstBack b1 b2 : Int) esp)
            | none => some (if h.stopOnFail then .exited else .notFound) := by
  have hb1 : MapBuffer.theBuffers h.toG (h.firstBack b1 b2 : Nat) = some (h.firstBack b1 b2) :=
    MapBuffer.theBuffers_natCast (isBuffer_firstBack h1 h2).2
  unfold findEvent
  rw [if_neg (by omega), MapBuffer.theBuffers_natCast h2.2]
  dsimp only [Option.bind_eq_bind, Option.bind_some]
  rw [firstBack_eq h1 h2, hb1]
  rfl

/-- How a search ends: `*ibuf` and `*espp` belong together but where it has gone backwards. -/
inductive Ends (h : StreamHeadImpl) (m : Mem) (b1 : Int) (b2 : Nat) : FindEventResult → Prop
  | atB2 {esp : Nat} (holds : h.Holds m b2) (found : h.FoundIn m b2 esp) :
      Ends h m b1 b2 (.found b2 esp)
  | atB3 {b3 esp : Nat} (isForward : h.IsForward b2 b3) (holds : h.Holds m b3)
      (found : h.FoundIn m b3 esp) : Ends h m b1 b2 (.found b3 esp)
  | atB1 {esp : Nat} (holds : h.Holds m (h.firstBack b1 b2))
      (found : h.FoundIn m (h.firstBack b1 b2) esp) :
      Ends h m b1 b2 (.found (h.firstBack b1 b2 : Nat) esp)
  | back {ib esp : Nat} (notB2 : ¬ h.Holds m b2)
      (notForward : ∀ b3, h.IsForward b2 b3 → ¬ h.Holds m b3)
      (notB1 : ¬ h.Holds m (h.firstBack b1 b2))
      (isBack : h.IsBacktracked b2 (h.firstBack b1 b2) ib) (holds : h.Holds m ib)
      (found : h.FoundIn m ib esp) : Ends h m b1 b2 (.found (h.firstBack b1 b2 : Nat) esp)
  | failed (r : FindEventResult) (hr : r = .exited ∨ r = .notFound)
      (notSearched : ∀ ib, h.Searched b1 b2 ib → ¬ h.Holds m ib) : Ends h m b1 b2 r

theorem findEvent_some {b1 : Int} {r : FindEventResult} (h1 : h.IsB1 b1) (h2 : h.IsBuffer b2)
    (hfind : h.findEvent m fuel b1 b2 = some r) : h.Ends m b1 b2 r := by
  rw [findEvent_eq h1 h2] at hfind
  obtain ⟨r2, hscan2, hfind⟩ := Option.bind_eq_some_iff.mp hfind
  cases r2 with
  | some esp =>
      obtain rfl := Option.some.inj hfind
      obtain ⟨hholds, hfound⟩ := findEventBuffer_some hscan2
      exact .atB2 hholds hfound
  | none =>
      have hno2 := findEventBuffer_none hscan2
      obtain ⟨r3, hfor, hfind⟩ := Option.bind_eq_some_iff.mp hfind
      cases r3 with
      | some at3 =>
          obtain ⟨b3, esp⟩ := at3
          obtain rfl := Option.some.inj hfind
          obtain ⟨j, hj, hjn, rfl, hholds, hfound⟩ := forward_some h2 hfor
          exact .atB3 ⟨j, hj, by omega, rfl⟩ hholds hfound
      | none =>
          have hno3 : ∀ b3, h.IsForward b2 b3 → ¬ h.Holds m b3 := by
            rintro b3 ⟨j, hj, hjmax, rfl⟩
            exact forward_none h2 hfor j hj (by omega)
          obtain ⟨r1, hscan1, hfind⟩ := Option.bind_eq_some_iff.mp hfind
          cases r1 with
          | some esp =>
              obtain rfl := Option.some.inj hfind
              obtain ⟨hholds, hfound⟩ := findEventBuffer_some hscan1
              exact .atB1 hholds hfound
          | none =>
              have hno1 := findEventBuffer_none hscan1
              have hfirst := isBuffer_firstBack h1 h2
              obtain ⟨rb, hback, hfind⟩ := Option.bind_eq_some_iff.mp hfind
              cases rb with
              | some esp =>
                  obtain rfl := Option.some.inj hfind
                  obtain ⟨j, hj, hjmax, hjne, hholds, hfound⟩ := backtrackLoop_some hfirst hback
                  have hisBack : h.IsBacktracked b2 (h.firstBack b1 b2)
                      (h.backFrom j (h.firstBack b1 b2)) :=
                    ⟨j, hj, hjmax.imp_right fun hle => by omega, rfl, hjne⟩
                  exact .back hno2 hno3 hno1 hisBack hholds hfound
              | none =>
                  refine .failed r ?_ ?_
                  · obtain rfl := Option.some.inj hfind
                    split
                    · exact Or.inl rfl
                    · exact Or.inr rfl
                  · rintro ib (rfl | hforward | rfl | ⟨j, hj, hjmax, rfl, hjne⟩)
                    · exact hno2
                    · exact hno3 ib hforward
                    · exact hno1
                    · refine backtrackLoop_none hfirst hback j hj ?_ hjne
                      exact hjmax.imp_right fun hle => by omega

/-- Where the scans end, the search does. -/
theorem findEvent_ends {b1 : Int} (h1 : h.IsB1 b1) (h2 : h.IsBuffer b2) (hscans : h.Scans) :
    ∃ fuel r, h.findEvent m fuel b1 b2 = some r := by
  have hfirst := isBuffer_firstBack h1 h2
  refine ⟨h.len32 + 1 + h.nbuffers, ?_⟩
  rw [findEvent_eq h1 h2]
  have hfuel : h.len32 < h.len32 + 1 + h.nbuffers := by omega
  obtain ⟨r2, hscan2⟩ := findEventBuffer_ends (m := m) hscans hfuel b2
  rw [hscan2, Option.bind_some]
  cases r2 with
  | some esp => exact ⟨_, rfl⟩
  | none =>
      obtain ⟨r3, hfor⟩ := forward_ends (m := m) (n := (h.maxFortrack - 1).toNat) hscans hfuel h2
      dsimp only
      rw [hfor, Option.bind_some]
      cases r3 with
      | some at3 => exact ⟨_, rfl⟩
      | none =>
          obtain ⟨r1, hscan1⟩ := findEventBuffer_ends (m := m) hscans hfuel (h.firstBack b1 b2)
          dsimp only
          rw [hscan1, Option.bind_some]
          cases r1 with
          | some esp => exact ⟨_, rfl⟩
          | none =>
              obtain ⟨k, hk, hkring, hkb2⟩ := exists_iterate_prev hfirst h2
              have hringFuel : k ≤ h.len32 + 1 + h.nbuffers := by omega
              have hends : ∃ r, h.backtrackLoop m (h.len32 + 1 + h.nbuffers) b2
                  (h.len32 + 1 + h.nbuffers) 1 (h.firstBack b1 b2) = some r :=
                backtrackLoop_ends hscans hfuel hfirst hk hringFuel hkb2
              obtain ⟨rb, hback⟩ := hends
              dsimp only
              rw [hback, Option.bind_some]
              cases rb with
              | some esp => exact ⟨_, rfl⟩
              | none => exact ⟨_, rfl⟩

/-- Where they do not, nothing is found but at the very start of `b2`. -/
theorem findEvent_stuck {b1 : Int} (h1 : h.IsB1 b1) (h2 : h.IsBuffer b2) (hscans : ¬ h.Scans)
    (hes : h.evA.isES m (MapBuffer.getBase h.toG b2) = false) (fuel : Nat) :
    h.findEvent m fuel b1 b2 = none := by
  unfold Scans at hscans
  rw [← Nat.add_zero (MapBuffer.getBase h.toG b2), ← Nat.mul_zero 4] at hes
  rw [findEvent_eq h1 h2, findEventBuffer,
    findEventLoop_stuck (by omega) (show 0 < h.len32 by omega) hes, Option.bind_none]

/-- `ibuf` is the index of the buffer that contains `esp`. -/
def Contains (h : StreamHeadImpl) (ibuf : Int) (esp : Nat) : Prop :=
  ∃ ib : Nat, ibuf = ib ∧ ib < h.nbuffers ∧ MapBuffer.getBase h.toG ib ≤ esp ∧
    esp < MapBuffer.getBase h.toG ib + h.bufferlen

/-- The search ends, and is right about what it has found or not found. -/
def SearchesRight (h : StreamHeadImpl) (m : Mem) (b1 : Int) (b2 : Nat) : Prop :=
  ∃ fuel r, h.findEvent m fuel b1 b2 = some r ∧
    (∀ ibuf esp, r = .found ibuf esp → h.evA.isES m esp = true ∧ h.Contains ibuf esp) ∧
    (r = .notFound → ∀ ib, h.Searched b1 b2 ib → ¬ h.Holds m ib)

theorem FoundIn.contains (hfound : h.FoundIn m ib esp) (hib : h.IsBuffer ib) :
    h.Contains ib esp :=
  ⟨ib, rfl, hib.2, hfound.2⟩

/-- An address is in one buffer only. -/
theorem Contains.unique {ibuf : Nat} (hin : h.Contains ibuf esp) (hfound : h.FoundIn m ib esp) :
    ibuf = ib := by
  obtain ⟨n, hn, _, hlo, hhi⟩ := hin
  obtain ⟨_, hlo', hhi'⟩ := hfound
  obtain rfl : ibuf = n := by omega
  unfold MapBuffer.getBase at *
  rcases Nat.lt_trichotomy ibuf ib with hlt | heq | hgt
  · have hmul : (ibuf + 1) * h.bufferlen ≤ ib * h.bufferlen := Nat.mul_le_mul_right _ hlt
    rw [Nat.succ_mul ibuf] at hmul
    omega
  · exact heq
  · have hmul : (ib + 1) * h.bufferlen ≤ ibuf * h.bufferlen := Nat.mul_le_mul_right _ hgt
    rw [Nat.succ_mul ib] at hmul
    omega

/-- Going back does not come round to where it started. -/
theorem IsBacktracked.ne {b3 : Nat} (hback : h.IsBacktracked b2 ib b3) (hib : h.IsBuffer ib)
    (h2 : h.IsBuffer b2) : ib ≠ b3 := by
  obtain ⟨j, hj, _, rfl, hjne⟩ := hback
  obtain ⟨k, hk, hkring, hkb2⟩ := exists_iterate_prev hib h2
  have hjk : j < k := by
    by_contra hge
    exact hjne k hk (by omega) hkb2
  exact (iterate_prev_ne hib hj (by omega)).symm

theorem IsBacktracked.isBuffer {b3 : Nat} (hback : h.IsBacktracked b2 ib b3)
    (hib : h.IsBuffer ib) :
    h.IsBuffer b3 := by
  obtain ⟨j, _, _, rfl, _⟩ := hback
  exact hib.backFrom j

/-- A search that is right has not gone backwards to what it has found. -/
theorem SearchesRight.notBack {b1 : Int} (h1 : h.IsB1 b1) (h2 : h.IsBuffer b2)
    (hright : h.SearchesRight m b1 b2) :
    (h.Holds m b2 ∨ (∃ b3, h.IsForward b2 b3 ∧ h.Holds m b3) ∨ h.Holds m (h.firstBack b1 b2)) ∨
      ∀ ib, h.IsBacktracked b2 (h.firstBack b1 b2) ib → ¬ h.Holds m ib := by
  obtain ⟨fuel, r, hfind, hfound, _⟩ := hright
  cases findEvent_some h1 h2 hfind with
  | atB2 holds _ => exact Or.inl (Or.inl holds)
  | atB3 isForward holds _ => exact Or.inl (Or.inr (Or.inl ⟨_, isForward, holds⟩))
  | atB1 holds _ => exact Or.inl (Or.inr (Or.inr holds))
  | back _ _ _ isBack _ found =>
      exact absurd ((hfound _ _ rfl).2.unique found) (isBack.ne (isBuffer_firstBack h1 h2) h2)
  | failed _ _ notSearched =>
      exact Or.inr fun ib hib => notSearched ib (Or.inr (Or.inr (Or.inr hib)))

/-- **The search is right unless it never ends, or has found what it looks for going
backwards.** -/
theorem searchesRight_iff {b1 : Int} (h1 : h.IsB1 b1) (h2 : h.IsBuffer b2) :
    h.SearchesRight m b1 b2 ↔
      (h.Scans ∨ h.evA.isES m (MapBuffer.getBase h.toG b2) = true) ∧
      ((h.Holds m b2 ∨ (∃ b3, h.IsForward b2 b3 ∧ h.Holds m b3) ∨
          h.Holds m (h.firstBack b1 b2)) ∨
        ∀ ib, h.IsBacktracked b2 (h.firstBack b1 b2) ib → ¬ h.Holds m ib) := by
  have hfirst := isBuffer_firstBack h1 h2
  constructor
  · intro hright
    refine ⟨?_, hright.notBack h1 h2⟩
    obtain ⟨fuel, r, hfind, _⟩ := hright
    by_contra hstuck
    rw [not_or, Bool.not_eq_true] at hstuck
    rw [findEvent_stuck h1 h2 hstuck.1 hstuck.2] at hfind
    cases hfind
  · rintro ⟨hends, hcond⟩
    have hreturns : ∃ fuel r, h.findEvent m fuel b1 b2 = some r := by
      by_cases hscans : h.Scans
      · exact findEvent_ends h1 h2 hscans
      · have hes := hends.resolve_left hscans
        refine ⟨1, .found b2 (MapBuffer.getBase h.toG b2 + 4 * 0), ?_⟩
        rw [findEvent_eq h1 h2, findEventBuffer, findEventLoop]
        unfold Scans at hscans
        rw [if_pos (by omega), Nat.mul_zero, Nat.add_zero, if_pos hes]
        rfl
    obtain ⟨fuel, r, hfind⟩ := hreturns
    refine ⟨fuel, r, hfind, ?_, ?_⟩
    · intro ibuf esp hr
      subst hr
      cases findEvent_some h1 h2 hfind with
      | atB2 _ found => exact ⟨found.1, found.contains h2⟩
      | atB3 isForward _ found =>
          obtain ⟨j, _, _, rfl⟩ := isForward
          exact ⟨found.1, found.contains (InRing.iterate_next h2 j)⟩
      | atB1 _ found => exact ⟨found.1, found.contains hfirst⟩
      | back notB2 notForward notB1 isBack holds _ =>
          exfalso
          rcases hcond with (h2holds | ⟨b3, hb3, h3holds⟩ | h1holds) | hno
          · exact notB2 h2holds
          · exact notForward b3 hb3 h3holds
          · exact notB1 h1holds
          · exact hno _ isBack holds
      | failed _ hr _ => rcases hr with hr | hr <;> cases hr
    · intro hr ib hib
      subst hr
      cases findEvent_some h1 h2 hfind with
      | failed _ _ notSearched => exact notSearched ib hib

/-! ### A signature where it is not expected -/

/-- A memory with one signature, of `ev0`, at `esp`. -/
def oneSignature (esp : Nat) : Mem := fun a =>
  if a < esp ∨ esp + 16 ≤ a then 0
  else match (a - esp) % 4 with
    | 0 => 0x51
    | 1 => 0xf1
    | 2 => 0x55
    | _ => 0xaa

theorem oneSignature_isES {cursor : Nat} (hout : cursor + 4 ≤ esp ∨ esp + 16 ≤ cursor) :
    (ES.ev0 false).isES (oneSignature esp) cursor = false := by
  have hzero : ∀ k < 4, oneSignature esp (cursor + k) = 0 := by
    intro k hk
    unfold oneSignature
    rw [if_pos (by omega)]
  have hword : (oneSignature esp).load32 (cursor + 4 * 0) = 0 := by
    unfold Mem.load32
    rw [hzero (4 * 0) (by decide), Nat.add_assoc, hzero _ (by decide), Nat.add_assoc,
      hzero _ (by decide), Nat.add_assoc, hzero _ (by decide)]
    rfl
  unfold ES.isES
  rw [show (ES.ev0 false).matchBits = 15 from rfl, ES.isESLoop, if_neg (by decide),
    if_pos (by decide), hword]
  rfl

/-- The other buffers hold no signature then. -/
theorem not_holds_oneSignature {jb : Nat} (hev : h.evA = ES.ev0 false) (hlen : 16 ≤ h.bufferlen)
    (hne : ib ≠ jb) : ¬ h.Holds (oneSignature (MapBuffer.getBase h.toG jb)) ib := by
  rintro ⟨i, hi, hes⟩
  rw [hev, oneSignature_isES] at hes
  · cases hes
  · unfold len32 at hi
    unfold MapBuffer.getBase
    rcases Nat.lt_or_gt_of_ne hne with hlt | hgt
    · have hmul : (ib + 1) * h.bufferlen ≤ jb * h.bufferlen := Nat.mul_le_mul_right _ hlt
      rw [Nat.succ_mul ib] at hmul
      exact Or.inl (by omega)
    · have hmul : (jb + 1) * h.bufferlen ≤ ib * h.bufferlen := Nat.mul_le_mul_right _ hgt
      rw [Nat.succ_mul jb] at hmul
      exact Or.inr (by omega)

/-- Twelve buffers, the first two reserved, with the defaults of the search. -/
def twelveBuffers : StreamHeadImpl where
  nchan := 4
  wordsize := 4
  doubleUp := false
  bufferlen := 0x100000
  nbuffers := 12
  buffer0Reserved := 2
  evA := ES.evA false 1
  maxBacktrack := 3
  maxFortrack := 4
  stopOnFail := false

/-- Only a reserved buffer holds a signature: nothing is found, rightly. -/
theorem twelveBuffers_reserved :
    twelveBuffers.SearchesRight (oneSignature (MapBuffer.getBase twelveBuffers.toG 1)) 7 8 := by
  have h1 : twelveBuffers.IsB1 7 := Or.inr ⟨7, rfl, by decide, by decide⟩
  have h2 : twelveBuffers.IsBuffer 8 := ⟨by decide, by decide⟩
  refine (searchesRight_iff h1 h2).mpr ⟨Or.inl (Or.inl (by decide)), Or.inr ?_⟩
  intro ib hib
  have hbuffer := hib.isBuffer (isBuffer_firstBack h1 h2)
  refine not_holds_oneSignature rfl (by decide) ?_
  rintro rfl
  exact absurd hbuffer.1 (by decide)

/-- The signature is in buffer 6, and is found there; but as the event was announced between
buffers 7 and 8, `*ibuf` is 7. -/
theorem twelveBuffers_back :
    ¬ twelveBuffers.SearchesRight (oneSignature (MapBuffer.getBase twelveBuffers.toG 6)) 7 8 := by
  have h1 : twelveBuffers.IsB1 7 := Or.inr ⟨7, rfl, by decide, by decide⟩
  have h2 : twelveBuffers.IsBuffer 8 := ⟨by decide, by decide⟩
  have hno : ∀ ib, ib ≠ 6 →
      ¬ twelveBuffers.Holds (oneSignature (MapBuffer.getBase twelveBuffers.toG 6)) ib :=
    fun ib hne => not_holds_oneSignature rfl (by decide) hne
  intro hright
  rcases hright.notBack h1 h2 with (hb2 | ⟨b3, ⟨j, hj, hjmax, rfl⟩, hb3⟩ | hb1) | hback
  · exact hno 8 (by decide) hb2
  · have hjmax' : (j : Int) < 4 := hjmax
    have hon : twelveBuffers.onFrom j 8 = 8 + j :=
      iterate_next_of_lt (show 8 + j < 12 by omega)
    rw [hon] at hb3
    exact hno (8 + j) (by omega) hb3
  · exact hno 7 (by decide) hb1
  · refine hback 6 ⟨1, Nat.le_refl 1, Or.inl rfl, by decide, ?_⟩ ⟨0, by decide, by decide⟩
    intro i hi hi1
    obtain rfl : i = 1 := by omega
    decide

end StreamHeadImpl

end Acq400
