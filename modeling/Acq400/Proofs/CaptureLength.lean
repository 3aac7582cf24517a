/-
How long a transient capture is.

`Phase` says how far a capture has come, after `n` buffers in ST_RUN_PRE and `k` in
ST_RUN_POST: what `actual` counts, how often the post data has been run over, and that the
event that ended the pre data was received while events were accepted.  Each return of
`select` takes one phase to the next, so that a capture that quits has had its phases in
order, and all of them.
-/
import Acq400.Lib.Run
import Acq400.Stream.StreamHeadPrePost

namespace Acq400.StreamHeadPrePost

variable {h : StreamHeadPrePost} {s s' : Capture} {n k : Nat}

/-! ### What has been received -/

/-- The states the buffers were received in. -/
def states (l : List Received) : List StreamState :=
  l.filterMap fun r => match r with
    | .buffer _ state _ _ => some state
    | .event _ => none

/-- The buffers with which `actual.pre` was all of `pre`. -/
def satisfied (h : StreamHeadPrePost) (l : List Received) : Nat :=
  l.countP fun r => match r with
    | .buffer _ _ actualPre _ => h.pre ≤ actualPre
    | .event _ => false

theorem states_append (as bs : List Received) : states (as ++ bs) = states as ++ states bs :=
  List.filterMap_append

theorem satisfied_append (as bs : List Received) :
    satisfied h (as ++ bs) = satisfied h as + satisfied h bs :=
  List.countP_append

/-- An event was accepted, at the time of at most `n` buffers. -/
def AcceptedBy (s : Capture) (n : Nat) : Prop :=
  ∃ as bs, s.history = as ++ .event true :: bs ∧ (states as).length < n

theorem AcceptedBy.mono {m : Nat} (hevent : AcceptedBy s n) (hle : n ≤ m) : AcceptedBy s m := by
  obtain ⟨as, bs, hsplit, hlt⟩ := hevent
  exact ⟨as, bs, hsplit, Nat.lt_of_lt_of_le hlt hle⟩

theorem AcceptedBy.append {l : List Received} (hevent : AcceptedBy s n)
    (hhistory : s'.history = s.history ++ l) : AcceptedBy s' n := by
  obtain ⟨as, bs, hsplit, hlt⟩ := hevent
  refine ⟨as, bs ++ l, ?_, hlt⟩
  rw [hhistory, hsplit, List.append_assoc, List.cons_append]

/-! ### The phases of a capture -/

inductive Phase (h : StreamHeadPrePost) (s : Capture) : Nat → Nat → Prop
  | arm (core : s.core = armed.core) (ended : s.ended ≠ some .quits) : Phase h s 0 0
  | pre {n : Nat} (state : s.core.state = .runPre) (ended : s.ended ≠ some .quits)
      (hpre : h.pre ≠ 0) (actualPre : s.core.actualPre = min (n * h.samplesBuffer) h.pre)
      (actualPost : s.core.actualPost = 0) (notOver : s.core.postRunOverOne = 0)
      (event : s.core.eventReceived = true → AcceptedBy s (n + 1)) : Phase h s n 0
  | post {n k : Nat} (state : s.core.state = .runPost) (ended : s.ended ≠ some .quits)
      (noPre : h.pre = 0 → n = 0)
      (event : h.pre ≠ 0 → h.pre ≤ n * h.samplesBuffer ∧ AcceptedBy s n)
      (actualPre : s.core.actualPre = h.pre)
      (actualPost : s.core.actualPost = min (k * h.samplesBuffer) h.post)
      (notOver : k * h.samplesBuffer ≤ h.post → s.core.postRunOverOne = 0)
      (isOver : h.post < k * h.samplesBuffer →
        s.core.postRunOverOne + h.post / h.samplesBuffer = k ∧ s.core.postRunOverOne ≤ 2) :
      Phase h s n k
  | done {n : Nat} (state : s.core.state = .postprocess) (ended : s.ended = some .quits)
      (noPre : h.pre = 0 → n = 0)
      (event : h.pre ≠ 0 → h.pre ≤ n * h.samplesBuffer ∧ AcceptedBy s n)
      (actualPre : s.core.actualPre = h.pre) (actualPost : s.core.actualPost = h.post)
      (pos : 0 < h.samplesBuffer) : Phase h s n (h.post / h.samplesBuffer + 3)

/-- The invariant of a capture. -/
structure Follows (h : StreamHeadPrePost) (s : Capture) (n k : Nat) : Prop where
  phase : Phase h s n k
  states : states s.history = List.replicate n .runPre ++ List.replicate k .runPost
  accepting : s.core.acceptingEvents = true → h.cornerTurnDelay < (s.core.buffersOverPre : Int)
  overPre : s.core.buffersOverPre ≤ satisfied h s.history
  events : ∀ as bs, s.history = as ++ .event true :: bs →
    h.cornerTurnDelay < (satisfied h as : Int)

theorem armed_follows (h : StreamHeadPrePost) : Follows h armed 0 0 where
  phase := .arm rfl (by decide)
  states := rfl
  accepting := fun hacc => by cases hacc
  overPre := Nat.le_refl 0
  events := fun as bs hsplit => absurd hsplit.symm (List.append_ne_nil_of_right_ne_nil as (by simp))

/-- The counts do not go beyond what is asked for. -/
theorem Phase.bounds (hphase : Phase h s n k) :
    s.core.actualPre ≤ h.pre ∧ s.core.actualPost ≤ h.post := by
  cases hphase with
  | arm core _ =>
      rw [core]
      exact ⟨Nat.zero_le _, Nat.zero_le _⟩
  | pre _ _ _ actualPre actualPost => omega
  | post _ _ _ _ actualPre actualPost => omega
  | done _ _ _ _ actualPre actualPost => omega

/-! ### An event -/

/-- An entry of a history is one of before, or the last. -/
theorem split_concat {l as bs : List Received} {x y : Received}
    (hsplit : l ++ [y] = as ++ x :: bs) :
    (∃ bs', l = as ++ x :: bs') ∨ (as = l ∧ x = y) := by
  rcases List.eq_nil_or_concat bs with rfl | ⟨bs', z, rfl⟩
  · obtain ⟨hl, hxy⟩ := List.append_inj' hsplit rfl
    exact Or.inr ⟨hl.symm, (List.cons.inj hxy).1.symm⟩
  · rw [List.concat_eq_append, ← List.cons_append, ← List.append_assoc] at hsplit
    exact Or.inl ⟨bs', (List.append_inj' hsplit rfl).1⟩

/-- What has been said of the events stays true with an entry that is not an accepted event, or
comes while events are accepted. -/
theorem events_concat {r : Received} (hfol : Follows h s n k)
    (hr : r = .event true → s.core.acceptingEvents = true) :
    ∀ as bs, s.history ++ [r] = as ++ .event true :: bs →
      h.cornerTurnDelay < (satisfied h as : Int) := by
  intro as bs hsplit
  rcases split_concat hsplit with ⟨bs', hbefore⟩ | ⟨rfl, hlast⟩
  · exact hfol.events as bs' hbefore
  · have haccepting := hfol.accepting (hr hlast.symm)
    have hover := hfol.overPre
    omega

theorem readEvent_phase (hfol : Follows h s n k) : Phase h (readEvent s true) n k := by
  have hkeep : ∀ m, AcceptedBy s m → AcceptedBy (readEvent s true) m :=
    fun m hevent => hevent.append (l := [.event s.core.acceptingEvents]) rfl
  cases hfol.phase with
  | arm core ended =>
      refine .arm ?_ ended
      unfold readEvent
      rw [if_pos rfl, core]
      rfl
  | pre state ended hpre actualPre actualPost notOver event =>
      refine .pre state ended hpre actualPre actualPost notOver ?_
      intro hreceived
      rcases Bool.or_eq_true_iff.mp hreceived with hbefore | haccepting
      · exact hkeep _ (event hbefore)
      · refine ⟨s.history, [], ?_, ?_⟩
        · unfold readEvent
          rw [if_pos rfl, haccepting]
        · rw [hfol.states, List.length_append, List.length_replicate, List.length_replicate]
          omega
  | post state ended noPre event actualPre actualPost notOver isOver =>
      exact .post state ended noPre (fun hpre => (event hpre).imp_right (hkeep _)) actualPre
        actualPost notOver isOver
  | done state ended noPre event actualPre actualPost pos =>
      exact .done state ended noPre (fun hpre => (event hpre).imp_right (hkeep _)) actualPre
        actualPost
        pos

theorem readEvent_follows (event : Bool) (hfol : Follows h s n k) :
    Follows h (readEvent s event) n k := by
  cases event with
  | false => exact hfol
  | true =>
      refine ⟨readEvent_phase hfol, ?_, hfol.accepting, ?_, ?_⟩
      · unfold readEvent
        rw [if_pos rfl, states_append, hfol.states]
        exact List.append_nil _
      · unfold readEvent
        rw [if_pos rfl, satisfied_append]
        exact Nat.le_add_right_of_le hfol.overPre
      · refine events_concat hfol ?_
        intro hr
        exact Received.event.inj hr

/-! ### A buffer -/

theorem leaveArm_of_ne {c : Core} (hne : c.state ≠ .arm) : leaveArm h c = c := by
  unfold leaveArm
  split
  · rename_i harm
    exact absurd harm hne
  · rfl

theorem leaveArm_follows (hfol : Follows h s n k) :
    Follows h { s with core := leaveArm h s.core } n k ∧ (leaveArm h s.core).state ≠ .arm := by
  by_cases harm : s.core.state = .arm
  · cases hfol.phase with
    | pre state _ _ _ _ _ _ =>
        rw [harm] at state
        cases state
    | post state _ _ _ _ _ _ _ =>
        rw [harm] at state
        cases state
    | done state _ _ _ _ _ _ =>
        rw [harm] at state
        cases state
    | arm core ended =>
        have hleave : leaveArm h s.core =
            { armed.core with state := if h.pre ≠ 0 then .runPre else .runPost } := by
          rw [core]
          rfl
        rw [hleave]
        refine ⟨⟨?_, hfol.states, fun hacc => (by cases hacc), Nat.zero_le _, hfol.events⟩, ?_⟩
        · by_cases hpre : h.pre = 0
          · refine .post (if_neg (not_not.mpr hpre)) ended (fun _ => rfl)
              (fun hne => absurd hpre hne) hpre.symm ?_ (fun _ => rfl) ?_
            · rw [Nat.zero_mul, Nat.zero_min]
              rfl
            · intro hlt
              omega
          · refine .pre (if_pos hpre) ended hpre ?_ rfl rfl ?_
            · rw [Nat.zero_mul, Nat.zero_min]
              rfl
            · intro hreceived
              cases hreceived
        · dsimp only
          split <;> decide
  · rw [leaveArm_of_ne harm]
    exact ⟨hfol, harm⟩

theorem receive_pre (ib : Nat) (hstate : s.core.state = .runPre) :
    receive h s ib =
      { core := { awaitEvent h (countPre h s.core) with
          elapsed := (awaitEvent h (countPre h s.core)).elapsed + h.samplesBuffer }
        ended := none
        history := s.history ++ [.buffer ib .runPre (awaitEvent h (countPre h s.core)).actualPre
          (awaitEvent h (countPre h s.core)).actualPost] } := by
  unfold receive switchState
  rw [hstate]
  rfl

theorem countPre_eq {c : Core} (hcount : c.actualPre = min (n * h.samplesBuffer) h.pre) :
    countPre h c = { c with actualPre := min ((n + 1) * h.samplesBuffer) h.pre } := by
  have hsucc : (n + 1) * h.samplesBuffer = n * h.samplesBuffer + h.samplesBuffer :=
    Nat.succ_mul n _
  unfold countPre
  split
  · split
    · rw [show min ((n + 1) * h.samplesBuffer) h.pre = c.actualPre + h.samplesBuffer by omega]
    · rw [show min ((n + 1) * h.samplesBuffer) h.pre = h.pre by omega]
  · rw [show min ((n + 1) * h.samplesBuffer) h.pre = c.actualPre by omega]

/-- The entries of a history, one more buffer with them. -/
theorem states_concat (l : List Received) (ib p q : Nat) (state : StreamState) :
    states (l ++ [.buffer ib state p q]) = states l ++ [state] :=
  states_append l _

theorem satisfied_concat (l : List Received) (ib p q : Nat) (state : StreamState) :
    satisfied h (l ++ [.buffer ib state p q]) = satisfied h l + if h.pre ≤ p then 1 else 0 := by
  rw [satisfied_append]
  unfold satisfied
  rw [List.countP_singleton]
  simp only [decide_eq_true_eq]

/-- What the events and their gate say is kept, with a buffer in the history. -/
theorem follows_of_phase {ib n' k' : Nat} {state : StreamState} (hfol : Follows h s n k)
    (hphase : Phase h s' n' k')
    (hhistory : s'.history =
      s.history ++ [.buffer ib state s'.core.actualPre s'.core.actualPost])
    (hstates : List.replicate n .runPre ++ List.replicate k .runPost ++ [state] =
      List.replicate n' .runPre ++ List.replicate k' .runPost)
    (haccepting : s'.core.acceptingEvents = true →
      h.cornerTurnDelay < (s'.core.buffersOverPre : Int))
    (hover : s'.core.buffersOverPre ≤
      s.core.buffersOverPre + if h.pre ≤ s'.core.actualPre then 1 else 0) :
    Follows h s' n' k' := by
  refine ⟨hphase, ?_, haccepting, ?_, ?_⟩
  · rw [hhistory, states_concat, hfol.states, hstates]
  · rw [hhistory, satisfied_concat]
    have hbefore := hfol.overPre
    omega
  · rw [hhistory]
    refine events_concat hfol ?_
    intro hr
    cases hr

theorem receive_pre_follows {ib : Nat} (hfol : Follows h s n k)
    (hstate : s.core.state = .runPre) : ∃ n' k', Follows h (receive h s ib) n' k' := by
  cases hfol.phase with
  | arm core _ =>
      rw [core] at hstate
      cases hstate
  | post state _ _ _ _ _ _ _ =>
      rw [hstate] at state
      cases state
  | done state _ _ _ _ _ _ =>
      rw [hstate] at state
      cases state
  | pre state ended hpre actualPre actualPost notOver event =>
      have hstates : List.replicate n StreamState.runPre ++ List.replicate 0 StreamState.runPost ++
          [StreamState.runPre] = List.replicate (n + 1) StreamState.runPre ++
            List.replicate 0 StreamState.runPost := by
        rw [List.replicate_succ']
        simp
      have hmono : ∀ {t : Capture} {l : List Received}, t.history = s.history ++ l →
          s.core.eventReceived = true → AcceptedBy t (n + 1) :=
        fun hhistory hreceived => (event hreceived).append hhistory
      have hcore := receive_pre (h := h) ib hstate
      rw [countPre_eq actualPre] at hcore
      unfold awaitEvent at hcore
      dsimp only at hcore
      refine ⟨n + 1, 0, ?_⟩
      by_cases hfull : h.pre ≤ min ((n + 1) * h.samplesBuffer) h.pre
      · rw [if_pos hfull] at hcore
        cases hreceived : s.core.eventReceived with
        | false =>
            rw [if_neg (by rw [hreceived]; decide)] at hcore
            rw [hcore]
            refine follows_of_phase hfol ?_ rfl hstates ?_ ?_
            · refine .pre hstate nofun hpre rfl actualPost notOver ?_
              intro hev
              rw [hreceived] at hev
              cases hev
            · intro hacc
              rcases Bool.or_eq_true_iff.mp hacc with hbefore | hnow
              · have hover := hfol.accepting hbefore
                dsimp only
                omega
              · exact of_decide_eq_true hnow
            · dsimp only
              exact Nat.le_of_eq (congrArg (s.core.buffersOverPre + ·) (if_pos hfull).symm)
        | true =>
            rw [if_pos hreceived] at hcore
            rw [hcore]
            refine follows_of_phase hfol ?_ rfl hstates hfol.accepting (Nat.le_add_right _ _)
            refine .post rfl nofun (fun hzero => absurd hzero hpre) ?_ ?_ ?_ ?_ ?_
            · intro _
              exact ⟨by omega, hmono rfl hreceived⟩
            · dsimp only
              omega
            · dsimp only
              omega
            · exact fun _ => notOver
            · intro hlt
              omega
      · rw [if_neg hfull] at hcore
        rw [hcore]
        refine follows_of_phase hfol ?_ rfl hstates hfol.accepting (Nat.le_add_right _ _)
        refine .pre hstate nofun hpre rfl actualPost notOver ?_
        intro hreceived
        exact (hmono rfl hreceived).mono (Nat.le_succ _)

theorem receive_post (ib : Nat) (hstate : s.core.state = .runPost) :
    receive h s ib =
      if (runPost h s.core).2 then
        { core := (runPost h s.core).1
          ended := some .quits
          history := s.history ++ [.buffer ib .runPost (runPost h s.core).1.actualPre
            (runPost h s.core).1.actualPost] }
      else
        { core := { (runPost h s.core).1 with
            elapsed := (runPost h s.core).1.elapsed + h.samplesBuffer }
          ended := none
          history := s.history ++ [.buffer ib .runPost (runPost h s.core).1.actualPre
            (runPost h s.core).1.actualPost] } := by
  unfold receive switchState
  rw [hstate]

/-- The post data is counted up to `post`, and then three times over. -/
theorem receive_post_follows {ib : Nat} (hfol : Follows h s n k)
    (hstate : s.core.state = .runPost) : ∃ n' k', Follows h (receive h s ib) n' k' := by
  cases hfol.phase with
  | arm core _ =>
      rw [core] at hstate
      cases hstate
  | pre state _ _ _ _ _ _ =>
      rw [hstate] at state
      cases state
  | done state _ _ _ _ _ _ =>
      rw [hstate] at state
      cases state
  | post state ended noPre event actualPre actualPost notOver isOver =>
      have hstates : List.replicate n StreamState.runPre ++ List.replicate k StreamState.runPost ++
          [StreamState.runPost] = List.replicate n StreamState.runPre ++
            List.replicate (k + 1) StreamState.runPost := by
        rw [List.replicate_succ' (n := k), List.append_assoc]
      have hevent : ∀ {t : Capture} {l : List Received}, t.history = s.history ++ l →
          h.pre ≠ 0 → h.pre ≤ n * h.samplesBuffer ∧ AcceptedBy t n :=
        fun hhistory hne => (event hne).imp_right fun hacc => hacc.append hhistory
      have hsucc : (k + 1) * h.samplesBuffer = k * h.samplesBuffer + h.samplesBuffer :=
        Nat.succ_mul k _
      have hcore := receive_post (h := h) ib hstate
      unfold runPost at hcore
      refine ⟨n, k + 1, ?_⟩
      by_cases hpost : h.post < s.core.actualPost + h.samplesBuffer
      · have hpos : 0 < h.samplesBuffer := by omega
        -- the buffers of `post` itself are the quotient
        have hquot : s.core.postRunOverOne + h.post / h.samplesBuffer = k := by
          rcases Nat.lt_or_ge h.post (k * h.samplesBuffer) with hlt | hge
          · exact (isOver hlt).1
          · rw [notOver hge, Nat.zero_add]
            exact Nat.div_eq_of_lt_le hge (by omega)
        rw [if_pos hpost] at hcore
        by_cases hover : 1 < s.core.postRunOverOne
        · rw [if_pos hover, if_pos rfl] at hcore
          rw [hcore]
          refine follows_of_phase hfol ?_ rfl hstates hfol.accepting (Nat.le_add_right _ _)
          have hlast : h.post < k * h.samplesBuffer := by
            by_contra hge
            have hzero := notOver (by omega)
            omega
          have hk : k + 1 = h.post / h.samplesBuffer + 3 := by
            have htwo := (isOver hlast).2
            omega
          rw [hk]
          exact .done rfl rfl noPre (hevent rfl) actualPre rfl hpos
        · rw [if_neg hover, if_neg Bool.false_ne_true] at hcore
          rw [hcore]
          refine follows_of_phase hfol ?_ rfl hstates hfol.accepting (Nat.le_add_right _ _)
          refine .post hstate nofun noPre (hevent rfl) actualPre ?_ ?_ ?_
          · dsimp only
            omega
          · intro hle
            omega
          · intro _
            dsimp only
            omega
      · rw [if_neg hpost, if_neg Bool.false_ne_true] at hcore
        rw [hcore]
        refine follows_of_phase hfol ?_ rfl hstates hfol.accepting (Nat.le_add_right _ _)
        refine .post hstate nofun noPre (hevent rfl) actualPre ?_ ?_ ?_
        · dsimp only
          omega
        · intro hle
          exact notOver (by omega)
        · intro hlt
          exfalso
          have hzero : h.samplesBuffer = 0 := by omega
          rw [hzero, Nat.mul_zero] at hlt
          exact Nat.not_lt_zero _ hlt

/-! ### A run -/

theorem body_follows {ib : Nat} (hfol : Follows h s n k) (hended : s.ended = none) :
    ∃ n' k', Follows h (body h s ib) n' k' := by
  obtain ⟨hleft, hne⟩ := leaveArm_follows hfol
  unfold body
  cases hleft.phase with
  | arm core _ => exact absurd (congrArg Core.state core) hne
  | pre state _ _ _ _ _ _ => exact receive_pre_follows hleft state
  | post state _ _ _ _ _ _ _ => exact receive_post_follows hleft state
  | done _ ended _ _ _ _ _ =>
      rw [hended] at ended
      cases ended

/-- To end with a bad buffer id changes nothing else. -/
theorem badBufferId_follows (hfol : Follows h s n k) (hended : s.ended = none) :
    Follows h { s with ended := some .badBufferId } n k := by
  refine ⟨?_, hfol.states, hfol.accepting, hfol.overPre, hfol.events⟩
  cases hfol.phase with
  | arm core _ => exact .arm core nofun
  | pre state _ hpre actualPre actualPost notOver event =>
      exact .pre state nofun hpre actualPre actualPost notOver event
  | post state _ noPre event actualPre actualPost notOver isOver =>
      exact .post state nofun noPre event actualPre actualPost notOver isOver
  | done _ ended _ _ _ _ _ =>
      rw [hended] at ended
      cases ended

theorem step_follows {select : Select} (hfol : Follows h s n k)
    (hstep : step h s select = some s') : ∃ n' k', Follows h s' n' k' := by
  unfold step at hstep
  cases hended : s.ended with
  | some e =>
      rw [hended] at hstep
      cases hstep
  | none =>
      rw [hended] at hstep
      cases select with
      | failed =>
          obtain rfl := Option.some.inj hstep
          exact ⟨n, k, badBufferId_follows hfol hended⟩
      | ready event feed =>
          have hread := readEvent_follows event hfol
          have hended' : (readEvent s event).ended = none := by
            unfold readEvent
            split <;> exact hended
          cases feed with
          | none =>
              obtain rfl := Option.some.inj hstep
              exact ⟨n, k, hread⟩
          | some got =>
              cases got with
              | none =>
                  obtain rfl := Option.some.inj hstep
                  exact ⟨n, k, badBufferId_follows hread hended'⟩
              | some ib =>
                  dsimp only at hstep
                  split at hstep
                  · obtain rfl := Option.some.inj hstep
                    exact ⟨n, k, hread⟩
                  · obtain rfl := Option.some.inj hstep
                    exact body_follows hread hended'

/-- A capture that has had all its phases, one after the other. -/
structure Complete (h : StreamHeadPrePost) (s : Capture) : Prop where
  state : s.core.state = .postprocess
  /-- First ST_RUN_PRE, with `pre`, and then ST_RUN_POST. -/
  phases : ∃ n, states s.history = List.replicate n .runPre ++
      List.replicate (h.post / h.samplesBuffer + 3) .runPost ∧
    (h.pre = 0 → n = 0) ∧
    (h.pre ≠ 0 → 0 < n ∧ h.pre ≤ n * h.samplesBuffer ∧ AcceptedBy s n)
  /-- Two buffers follow the post data. -/
  follow : h.post + 2 * h.samplesBuffer ≤ (h.post / h.samplesBuffer + 3) * h.samplesBuffer

theorem Follows.complete (hfol : Follows h s n k) (hended : s.ended = some .quits) :
    Complete h s := by
  cases hfol.phase with
  | arm _ ended => exact absurd hended ended
  | pre _ ended _ _ _ _ _ => exact absurd hended ended
  | post _ ended _ _ _ _ _ _ => exact absurd hended ended
  | done state _ noPre event _ _ pos =>
      refine ⟨state, ⟨n, hfol.states, noPre, ?_⟩, ?_⟩
      · intro hne
        obtain ⟨hle, hacc⟩ := event hne
        refine ⟨?_, hle, hacc⟩
        obtain ⟨as, bs, _, hlt⟩ := hacc
        omega
      · have hlt := Nat.lt_div_mul_add pos (a := h.post)
        rw [Nat.add_mul]
        omega

/-- **A capture that quits is complete, and the counts are never too large; an event is accepted
only after more buffers than the corner turn takes.** -/
theorem capture_complete {selects : List Select} (hrun : Lts.run (step h) armed selects = some s) :
    s.core.actualPre ≤ h.pre ∧ s.core.actualPost ≤ h.post ∧
      (∀ as bs, s.history = as ++ .event true :: bs →
        h.cornerTurnDelay < (satisfied h as : Int)) ∧
      (s.ended = some .quits → Complete h s) := by
  have hkeep : ∀ s a s', (∃ n k, Follows h s n k) → step h s a = some s' →
      ∃ n k, Follows h s' n k := by
    intro s a s' hfol hstep
    obtain ⟨n, k, hfol⟩ := hfol
    exact step_follows hfol hstep
  obtain ⟨n, k, hfol⟩ := Lts.run_invariant (fun s => ∃ n k, Follows h s n k) hkeep selects armed s
    ⟨0, 0, armed_follows h⟩ hrun
  exact ⟨hfol.phase.bounds.1, hfol.phase.bounds.2, hfol.events, hfol.complete⟩

/-- Two samples a buffer, and only every second buffer is reported. -/
def fourAndFive : StreamHeadPrePost where
  pre := 4
  post := 5
  samplesBuffer := 2
  cornerTurnDelay := 1
  bufferSkip := skipEven

/-- The first event comes too early, the second with the third buffer that is all of `pre`. -/
def selects : List Select :=
  [.ready false (some (some 2)), .ready false (some (some 3)), .ready true (some (some 5)),
    .ready false (some (some 7)), .ready true none] ++
    (List.range' 8 12).map fun ib => .ready false (some (some ib))

theorem fourAndFive_complete : ∃ s, Lts.run (step fourAndFive) armed selects = some s ∧
    Complete fourAndFive s := by
  have hrun : Lts.run (step fourAndFive) armed selects =
      (Lts.run (step fourAndFive) armed selects).getD armed := rfl
  exact ⟨_, hrun, (capture_complete hrun).2.2.2 rfl⟩

end Acq400.StreamHeadPrePost
