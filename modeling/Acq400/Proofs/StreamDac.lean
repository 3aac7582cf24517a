/-
No buffer of the DAC stream is lost, and none is in two places.

A number is with the application, on one of the rings or in flight, and a turn hands
one on at most.  `Conserves` is what every turn keeps, and with it how many numbers a
ring must have for what is to be got from it, and that the numbers given back are the
first of those that were written.

Two turns do not keep it.  The worker that has looked for another buffer in vain gives
one back and goes on as if it still had it, and when it quits it forgets what is on
REFILLS.  `Continues` is where they do no harm.
-/
import Acq400.Awg.StreamDac
import Acq400.Lib.Places
import Acq400.Driver.Rings

namespace Acq400

open Places

/-! ### The rings -/

namespace Bq

variable {bq : Bq}

/-- A ring as it is to be. -/
structure Ok (bq : Bq) : Prop where
  len : bq.bqLen = awgBacklog
  head : bq.head < awgBacklog
  tail : bq.tail < awgBacklog

theorem Ok.sound (h : bq.Ok) : bq.Sound where
  pow := ⟨5, h.len⟩
  head := h.len ▸ h.head
  tail := h.len ▸ h.tail

theorem Sound.ok (h : bq.Sound) (hlen : bq.bqLen = awgBacklog) : bq.Ok where
  len := hlen
  head := hlen ▸ h.head
  tail := hlen ▸ h.tail

theorem Ok.full (h : bq.Ok) (hroom : bq.items.length + 1 < awgBacklog) : bq.full = false :=
  h.sound.full (h.len ▸ hroom)

theorem Ok.get (h : bq.Ok) : bq.get.2.Ok := h.sound.get.ok h.len

theorem Ok.put (h : bq.Ok) (item : Nat) : (bq.put item).Ok := (h.sound.put item).ok h.len

theorem Ok.clear (hlen : bq.bqLen = awgBacklog) : bq.clear.Ok where
  len := hlen
  head := show 0 < awgBacklog by decide
  tail := show 0 < awgBacklog by decide

theorem Ok.init : (Bq.init awgBacklog).Ok where
  len := rfl
  head := show 0 < awgBacklog by decide
  tail := show 0 < awgBacklog by decide

theorem Ok.items_put (h : bq.Ok) (hroom : bq.items.length + 1 < awgBacklog) (item : Nat) :
    (bq.put item).items = bq.items ++ [item] := h.sound.items_put (h.len ▸ hroom) item

theorem items_clear (hlen : bq.bqLen = awgBacklog) : bq.clear.items = [] :=
  (Ok.clear hlen).sound.items_eq_nil rfl

end Bq

/-! ### Where the numbers are -/

/-- Who has a buffer. -/
inductive Holder
  | app | refills | flight | empties
deriving DecidableEq

namespace StreamDac

/-- What is in flight, what is to be done first to begin with. -/
def flight (s : StreamDac) : List Nat :=
  match s.pc with
  | .start | .first => []
  | .second => [s.ab false]
  | .wait | .stall | .put => [s.ab s.ic, s.ab !s.ic]
  | .refill => [s.ab !s.ic]
  | .push => [s.ab !s.ic, s.ab s.ic]
  | .quit | .ended => if s.running then [s.ab s.ic, s.ab !s.ic] else []

/-- The numbers that each of them has. -/
def places (s : StreamDac) : Holder → List Nat
  | .app => s.held
  | .refills => s.refills.items
  | .flight => s.flight
  | .empties => s.empties.items

/-- A turn that leaves no number behind: REFILLS is empty when it is cleared, and the worker
does not give up while it is. -/
def Continues (s : StreamDac) : DacAct → Prop
  | .loop ev =>
    (s.pc = .stall →
      0 < s.refills.count ∨ (ev ≠ .stop ∧ s.stallCount + 1 ≠ maxStallRetries)) ∧
    (s.pc = .quit → s.refills.count = 0)
  | _ => True

instance (s : StreamDac) : (act : DacAct) → Decidable (s.Continues act)
  | .loop _ => inferInstanceAs (Decidable ((_ → _ ∨ (_ ∧ _)) ∧ (_ → _)))
  | .readWait | .read | .writeWait | .write _ => inferInstanceAs (Decidable True)

/-- How many numbers REFILLS is to have where the worker is. -/
def needs : LoopPc → Nat
  | .first => 2
  | .second | .put | .refill => 1
  | _ => 0

/-- The worker has begun, where it is. -/
def begun : LoopPc → Option Bool
  | .start | .first | .second => some false
  | .quit | .ended => none
  | _ => some true

/-- What every turn keeps. -/
structure Conserves (ids : List Nat) (s : StreamDac) : Prop where
  refills : s.refills.Ok
  empties : s.empties.Ok
  part : Partition ids s.places
  quiet : s.warned = false
  order : s.written = s.returned ++ s.flight ++ s.refills.items
  back : s.readIds ++ s.empties.items = ids ++ s.returned
  reader : s.reader ≤ s.empties.items.length
  needs : needs s.pc ≤ s.refills.items.length
  idle : s.pc ≠ .quit → s.pc ≠ .ended → s.lastPush = .idle
  running : ∀ b, begun s.pc = some b → s.running = b
  turn : begun s.pc = some false → s.ic = false

namespace Conserves

variable {ids : List Nat} {s : StreamDac}

/-- A place has room for one more number that is in another. -/
theorem room (h : Conserves ids s) (hids : ids.length < awgBacklog) {src dst : Holder} {x : Nat}
    (hx : x ∈ s.places src) (hne : src ≠ dst) : (s.places dst).length + 1 < awgBacklog := by
  have hnot : x ∉ s.places dst := fun hc => hne (h.part.disjoint src dst x hx hc)
  have hnodup : (x :: s.places dst).Nodup := List.nodup_cons.mpr ⟨hnot, h.part.nodup dst⟩
  have hsub : x :: s.places dst ⊆ ids := by
    intro y hy
    rcases List.mem_cons.mp hy with rfl | hy
    · exact (h.part.cover _).mpr ⟨src, hx⟩
    · exact (h.part.cover _).mpr ⟨dst, hy⟩
  have hle := (List.subperm_of_subset hnodup hsub).length_le
  rw [List.length_cons] at hle
  omega

/-! ### One turn of the worker -/

/-- The worker goes on, and nothing leaves its place. -/
theorem goOn (h : Conserves ids s) {pc : LoopPc} {ic : Chan} {lastPush : LastPush}
    {stallCount : Nat} {pushes : List (Chan × Nat × DmaFlags)}
    (hflight : flight { s with
      pc := pc, ic := ic, lastPush := lastPush, stallCount := stallCount, pushes := pushes } =
        s.flight)
    (hneeds : StreamDac.needs pc ≤ s.refills.items.length)
    (hidle : pc ≠ .quit → pc ≠ .ended → lastPush = .idle)
    (hrunning : ∀ b, begun pc = some b → s.running = b)
    (hturn : begun pc = some false → ic = false) :
    Conserves ids { s with
      pc := pc, ic := ic, lastPush := lastPush, stallCount := stallCount, pushes := pushes } := by
  refine ⟨h.refills, h.empties, ?_, h.quiet, ?_, h.back, h.reader, hneeds, hidle, hrunning, hturn⟩
  · refine h.part.of_perm fun l => ?_
    cases l with
    | flight => exact List.Perm.of_eq hflight
    | app => exact List.Perm.refl _
    | refills => exact List.Perm.refl _
    | empties => exact List.Perm.refl _
  · rw [hflight]
    exact h.order

theorem getRefills (h : Conserves ids s) {chan : Chan} {pc : LoopPc} {running : Bool}
    {pushes : List (Chan × Nat × DmaFlags)} (hsome : 0 < s.refills.items.length)
    (hflight : flight { s.getRefills chan with pc := pc, running := running, pushes := pushes } =
      s.flight ++ [s.refills.get.1])
    (hneeds : StreamDac.needs pc + 1 ≤ s.refills.items.length) (hidle : s.lastPush = .idle)
    (hrunning : ∀ b, begun pc = some b → running = b)
    (hturn : begun pc = some false → s.ic = false) :
    Conserves ids { s.getRefills chan with pc := pc, running := running, pushes := pushes } := by
  have hitems := h.refills.sound.items_get hsome
  refine ⟨h.refills.get, h.empties, ?_, ?_, ?_, h.back, h.reader, ?_, fun _ _ => hidle, hrunning,
    hturn⟩
  · refine h.part.pass (show Holder.refills ≠ Holder.flight by decide) hitems hflight ?_
    intro l hsrc hdst
    cases l with
    | app => rfl
    | refills => exact absurd rfl hsrc
    | flight => exact absurd rfl hdst
    | empties => rfl
  · show (s.warned || s.refills.empty) = false
    rw [h.quiet, h.refills.sound.empty hsome]
    rfl
  · rw [hflight]
    show s.written = s.returned ++ (s.flight ++ [s.refills.get.1]) ++ s.refills.get.2.items
    rw [h.order, hitems]
    simp
  · show StreamDac.needs pc ≤ s.refills.get.2.items.length
    rw [hitems, List.length_cons] at hneeds
    omega

theorem put (h : Conserves ids s) (hids : ids.length < awgBacklog) (hpc : s.pc = .put) :
    Conserves ids { s.putEmpties (s.ab s.ic) with
      returned := s.returned ++ [s.ab s.ic], pc := .refill } := by
  have hbefore : s.flight = [s.ab s.ic, s.ab !s.ic] := by rw [flight, hpc]
  have hmem : s.ab s.ic ∈ s.places .flight := by
    show _ ∈ s.flight
    rw [hbefore]
    exact List.mem_cons_self
  have hne : Holder.flight ≠ Holder.empties := by decide
  have hroom : s.empties.items.length + 1 < awgBacklog := h.room hids hmem hne
  have hitems := h.empties.items_put hroom (s.ab s.ic)
  have hneeds := h.needs
  have hidle := h.idle
  have hrunning := h.running
  rw [hpc] at hneeds hidle hrunning
  refine ⟨h.refills, h.empties.put _, ?_, ?_, ?_, ?_, ?_, hneeds,
    fun _ _ => hidle (by decide) (by decide), hrunning, ?_⟩
  · refine h.part.pass hne hbefore hitems ?_
    intro l hsrc hdst
    cases l with
    | app => rfl
    | refills => rfl
    | flight => exact absurd rfl hsrc
    | empties => exact absurd rfl hdst
  · show (s.warned || s.empties.full) = false
    rw [h.quiet, h.empties.full hroom]
    rfl
  · show s.written = s.returned ++ [s.ab s.ic] ++ [s.ab !s.ic] ++ s.refills.items
    rw [h.order, hbefore]
    simp
  · show s.readIds ++ (s.empties.put (s.ab s.ic)).items = ids ++ (s.returned ++ [s.ab s.ic])
    rw [hitems, ← List.append_assoc, h.back, List.append_assoc]
  · show s.reader ≤ (s.empties.put (s.ab s.ic)).items.length
    have hreader := h.reader
    rw [hitems, List.length_append]
    omega
  · intro hbegun
    have hnot : some true = some false := hbegun
    exact absurd hnot (by decide)

/-- The worker forgets what is on REFILLS, which is nothing. -/
theorem quit (h : Conserves ids s) (hpc : s.pc = .quit) (hnone : s.refills.items.length = 0) :
    Conserves ids { s with refills := s.refills.clear, pc := .ended } := by
  have hafter := Bq.items_clear h.refills.len
  have hbefore := List.length_eq_zero_iff.mp hnone
  have hflight : flight { s with refills := s.refills.clear, pc := .ended } = s.flight := by
    simp only [flight, hpc]
  refine ⟨Bq.Ok.clear h.refills.len, h.empties, ?_, h.quiet, ?_, h.back, h.reader, Nat.zero_le _,
    fun _ hended => absurd rfl hended, ?_, ?_⟩
  · refine h.part.of_perm fun l => ?_
    cases l with
    | flight => exact List.Perm.of_eq hflight
    | app => exact List.Perm.refl _
    | refills =>
        show List.Perm s.refills.clear.items s.refills.items
        rw [hafter, hbefore]
    | empties => exact List.Perm.refl _
  · rw [hflight]
    show s.written = s.returned ++ s.flight ++ s.refills.clear.items
    rw [hafter, ← hbefore]
    exact h.order
  · intro b hbegun
    have hnot : none = some b := hbegun
    exact absurd hnot nofun
  · intro hbegun
    have hnot : none = some false := hbegun
    exact absurd hnot nofun

/-- A turn of the worker that leaves no number behind. -/
theorem loopStep (h : Conserves ids s) (hids : ids.length < awgBacklog) {ev : LoopEv}
    (hcont : s.Continues (.loop ev)) {s' : StreamDac} (hs : s.loopStep ev = some s') :
    Conserves ids s' := by
  obtain ⟨hstall, hquit⟩ := hcont
  have hneeds := h.needs
  have hidle := h.idle
  have hrunning := h.running
  have hturn := h.turn
  have hcount := h.refills.sound.count
  unfold StreamDac.loopStep at hs
  cases hpc : s.pc with
  | start =>
      rw [hpc] at hs hrunning hturn hidle
      have hnot := hrunning false rfl
      have hfl : s.flight = [] := by rw [flight, hpc]
      simp only at hs
      split_ifs at hs with hev hsome
      · obtain rfl := Option.some.inj hs
        refine h.goOn ?_ (Nat.zero_le _) (fun hq => absurd rfl hq) nofun nofun
        simp [flight, hnot, hpc]
      · obtain rfl := Option.some.inj hs
        refine h.goOn hfl.symm ?_ (fun _ _ => hidle nofun nofun) hrunning hturn
        show 2 ≤ s.refills.items.length
        omega
  | first =>
      rw [hpc] at hs hneeds hrunning hturn hidle
      obtain rfl := Option.some.inj hs
      have htwo : 2 ≤ s.refills.items.length := hneeds
      refine h.getRefills (by omega) ?_ htwo (hidle nofun nofun) hrunning hturn
      simp [flight, hpc, StreamDac.getRefills]
  | second =>
      rw [hpc] at hs hneeds hrunning hturn hidle
      obtain rfl := Option.some.inj hs
      have hone : 1 ≤ s.refills.items.length := hneeds
      refine h.getRefills hone ?_ hone (hidle nofun nofun) (fun b hb => Option.some.inj hb) nofun
      simp [flight, hpc, StreamDac.getRefills, hturn rfl]
  | wait =>
      rw [hpc] at hs hrunning hidle
      have hfl : s.flight = [s.ab s.ic, s.ab !s.ic] := by rw [flight, hpc]
      simp only at hs
      split_ifs at hs with hev
      · obtain rfl := Option.some.inj hs
        refine h.goOn ?_ (Nat.zero_le _) (fun hq => absurd rfl hq) nofun nofun
        rw [hfl, flight, hrunning true rfl]
        rfl
      · obtain rfl := Option.some.inj hs
        exact h.goOn hfl.symm (Nat.zero_le _) (fun _ _ => hidle nofun nofun) hrunning nofun
  | stall =>
      rw [hpc] at hs hrunning hidle
      have hfl : s.flight = [s.ab s.ic, s.ab !s.ic] := by rw [flight, hpc]
      simp only at hs
      split_ifs at hs with hnone hgive
      -- it does not give up: that is what the condition rules out
      · rcases hstall hpc with hsome | ⟨hstop, hleft⟩
        · omega
        · exact absurd hgive (not_or.mpr ⟨hleft, hstop⟩)
      · obtain rfl := Option.some.inj hs
        exact h.goOn hfl.symm (Nat.zero_le _) (fun _ _ => hidle nofun nofun) hrunning nofun
      · obtain rfl := Option.some.inj hs
        refine h.goOn hfl.symm ?_ (fun _ _ => hidle nofun nofun) hrunning nofun
        show 1 ≤ s.refills.items.length
        omega
  | put =>
      rw [hpc] at hs
      obtain rfl := Option.some.inj hs
      exact h.put hids hpc
  | refill =>
      rw [hpc] at hs hneeds hrunning hidle
      have hone : 1 ≤ s.refills.items.length := hneeds
      have hlp := hidle nofun nofun
      simp only [hlp, if_true] at hs
      obtain rfl := Option.some.inj hs
      refine h.getRefills hone ?_ hone hlp hrunning nofun
      simp [flight, hpc, StreamDac.getRefills]
  | push =>
      rw [hpc] at hs hrunning hidle
      have hfl : s.flight = [s.ab !s.ic, s.ab s.ic] := by rw [flight, hpc]
      simp only at hs
      split_ifs at hs with hlast
      · obtain rfl := Option.some.inj hs
        refine h.goOn ?_ (Nat.zero_le _) (fun hq => absurd rfl hq) nofun nofun
        rw [hfl]
        simp [flight, hrunning true rfl]
      · obtain rfl := Option.some.inj hs
        refine h.goOn ?_ (Nat.zero_le _) (fun _ _ => hidle nofun nofun) hrunning nofun
        rw [hfl]
        simp [flight]
  | quit =>
      rw [hpc] at hs
      obtain rfl := Option.some.inj hs
      exact h.quit hpc (by rw [← hcount]; exact hquit hpc)
  | ended =>
      rw [hpc] at hs
      exact absurd hs nofun

/-! ### One turn of the application -/

theorem read (h : Conserves ids s) (hreader : 0 < s.reader) :
    Conserves ids { s.getEmpties.2 with
      held := s.held ++ [s.getEmpties.1]
      readIds := s.readIds ++ [s.getEmpties.1]
      reader := s.reader - 1 } := by
  have hle := h.reader
  have hsome : 0 < s.empties.items.length := by omega
  have hitems := h.empties.sound.items_get hsome
  refine ⟨h.refills, h.empties.get, ?_, ?_, h.order, ?_, ?_, h.needs, h.idle, h.running, h.turn⟩
  · refine h.part.pass (show Holder.empties ≠ Holder.app by decide) hitems rfl ?_
    intro l hsrc hdst
    cases l with
    | app => exact absurd rfl hdst
    | refills => rfl
    | flight => rfl
    | empties => exact absurd rfl hsrc
  · show (s.warned || s.empties.empty) = false
    rw [h.quiet, h.empties.sound.empty hsome]
    rfl
  · show s.readIds ++ [s.empties.get.1] ++ s.empties.get.2.items = ids ++ s.returned
    rw [← h.back, hitems, List.append_assoc]
    rfl
  · show s.reader - 1 ≤ s.empties.get.2.items.length
    rw [hitems, List.length_cons] at hle
    omega

theorem write (h : Conserves ids s) (hids : ids.length < awgBacklog) {id : Nat}
    (hheld : id ∈ s.held) :
    Conserves ids { s.putRefills id with
      held := s.held.erase id, written := s.written ++ [id], writer := s.writer - 1 } := by
  have hmem : id ∈ s.places .app := hheld
  have hne : Holder.app ≠ Holder.refills := by decide
  have hroom : s.refills.items.length + 1 < awgBacklog := h.room hids hmem hne
  have hitems := h.refills.items_put hroom id
  have hneeds := h.needs
  refine ⟨h.refills.put id, h.empties, ?_, ?_, ?_, h.back, h.reader, ?_, h.idle, h.running,
    h.turn⟩
  · refine h.part.move hmem hne ?_ ?_ ?_
    · exact List.Perm.refl _
    · show List.Perm (s.refills.put id).items (id :: s.refills.items)
      rw [hitems]
      exact List.perm_append_singleton _ _
    · intro l hsrc hdst
      cases l with
      | app => exact absurd rfl hsrc
      | refills => exact absurd rfl hdst
      | flight => rfl
      | empties => rfl
  · show (s.warned || s.refills.full) = false
    rw [h.quiet, h.refills.full hroom]
    rfl
  · show s.written ++ [id] = s.returned ++ s.flight ++ (s.refills.put id).items
    rw [h.order, hitems, List.append_assoc]
  · show StreamDac.needs s.pc ≤ (s.refills.put id).items.length
    rw [hitems, List.length_append]
    omega

theorem step (h : Conserves ids s) (hids : ids.length < awgBacklog) {act : DacAct}
    (hcont : s.Continues act) {s' : StreamDac} (hs : s.step act = some s') :
    Conserves ids s' := by
  cases act with
  | readWait =>
      simp only [StreamDac.step] at hs
      split_ifs at hs with hwait
      obtain rfl := Option.some.inj hs
      have htwo : 2 ≤ s.empties.items.length := by
        rw [← h.empties.sound.count]
        exact hwait.2
      exact ⟨h.refills, h.empties, h.part, h.quiet, h.order, h.back, htwo, h.needs, h.idle,
        h.running, h.turn⟩
  | read =>
      simp only [StreamDac.step] at hs
      split_ifs at hs with hreader
      obtain rfl := Option.some.inj hs
      exact h.read hreader
  | writeWait =>
      simp only [StreamDac.step] at hs
      split_ifs at hs with hwait
      obtain rfl := Option.some.inj hs
      exact ⟨h.refills, h.empties, h.part, h.quiet, h.order, h.back, h.reader, h.needs, h.idle,
        h.running, h.turn⟩
  | write id =>
      simp only [StreamDac.step] at hs
      split_ifs at hs with hheld
      obtain rfl := Option.some.inj hs
      exact h.write hids hheld.2
  | loop ev => exact h.loopStep hids hcont hs

end Conserves

/-! ### From the open on -/

/-- The numbers that the application is given to begin with. -/
def backlog (first last : Nat) : List Nat :=
  List.range' first (min last (first + awgBacklog - 1) - first)

theorem length_backlog (first last : Nat) : (backlog first last).length < awgBacklog := by
  rw [backlog, List.length_range', awgBacklog]
  omega

/-- The numbers go onto EMPTIES in their order, if there is room. -/
theorem foldl_putEmpties (ids : List Nat) :
    ∀ s : StreamDac, s.empties.Ok → s.empties.items.length + ids.length < awgBacklog →
      ∃ e : Bq, e.Ok ∧ e.items = s.empties.items ++ ids ∧
        ids.foldl putEmpties s = { s with empties := e } := by
  induction ids with
  | nil =>
      intro s hok _
      exact ⟨s.empties, hok, by simp, rfl⟩
  | cons id rest ih =>
      intro s hok hroom
      rw [List.length_cons] at hroom
      have hput := hok.items_put (by omega) id
      have hwarned : (s.putEmpties id).warned = s.warned := by
        rw [putEmpties, hok.full (by omega), Bool.or_false]
      obtain ⟨e, he, hitems, hfold⟩ := ih (s.putEmpties id) (hok.put id) (by
        show (s.empties.put id).items.length + rest.length < awgBacklog
        rw [hput, List.length_append, List.length_singleton]
        omega)
      refine ⟨e, he, ?_, ?_⟩
      · rw [hitems]
        show (s.empties.put id).items ++ rest = s.empties.items ++ id :: rest
        rw [hput, List.append_assoc]
        rfl
      · rw [List.foldl_cons, hfold]
        simp only [putEmpties] at hwarned ⊢
        rw [hwarned]

theorem Conserves.openWith (first last : Nat) {refills : Bq} (hlen : refills.bqLen = awgBacklog) :
    Conserves (backlog first last) (StreamDac.openWith first last refills) := by
  have hinit := Bq.Ok.init.sound.items_eq_nil rfl
  have hrefills := Bq.items_clear hlen
  have hlength := length_backlog first last
  unfold StreamDac.openWith
  extract_lets limit closed
  have hempties : closed.empties.items = [] := hinit
  obtain ⟨e, he, hitems, hfold⟩ := foldl_putEmpties (backlog first last) closed Bq.Ok.init (by
    rw [hempties, List.length_nil, Nat.zero_add]
    exact hlength)
  rw [hempties, List.nil_append] at hitems
  show Conserves _ ((backlog first last).foldl putEmpties closed)
  rw [hfold]
  refine ⟨Bq.Ok.clear hlen, he, ?_, rfl, hrefills.symm, ?_, Nat.zero_le _, Nat.zero_le _,
    fun _ _ => rfl, fun b hb => Option.some.inj hb, fun _ => rfl⟩
  -- all of them are on EMPTIES
  · have hplace : ∀ l id, id ∈ places { closed with empties := e } l ↔
        l = .empties ∧ id ∈ backlog first last := by
      intro l id
      cases l with
      | app => simp [places, closed]
      | refills => simp [places, closed, hrefills]
      | flight => simp [places, flight, closed]
      | empties => simp [places, hitems]
    refine ⟨?_, ?_, ?_⟩
    · intro l
      cases l with
      | app => exact List.nodup_nil
      | refills =>
          show refills.clear.items.Nodup
          rw [hrefills]
          exact List.nodup_nil
      | flight => exact List.nodup_nil
      | empties =>
          show e.items.Nodup
          rw [hitems]
          exact List.nodup_range'
    · intro l l' id hl hl'
      rw [((hplace l id).mp hl).1, ((hplace l' id).mp hl').1]
    · intro id
      simp only [hplace, exists_eq_left]
  · show [] ++ e.items = backlog first last ++ []
    rw [hitems, List.nil_append, List.append_nil]

/-- What an application is to find. -/
structure Streams (ids : List Nat) (s : StreamDac) : Prop where
  place : ∀ id ∈ ids, ∃! holder, id ∈ s.places holder
  once : ∀ holder, (s.places holder).Nodup
  quiet : s.warned = false
  order : s.returned <+: s.written
  back : s.readIds <+: ids ++ s.written

theorem Conserves.streams {ids : List Nat} {s : StreamDac} (h : Conserves ids s) :
    Streams ids s := by
  have hprefix : s.returned <+: s.written := by
    rw [h.order, List.append_assoc]
    exact List.prefix_append _ _
  refine ⟨fun id hid => h.part.existsUnique hid, h.part.nodup, h.quiet, hprefix, ?_⟩
  have hread : s.readIds <+: ids ++ s.returned := by
    rw [← h.back]
    exact List.prefix_append _ _
  exact hread.trans ((List.prefix_append_right_inj ids).mpr hprefix)

/--
**Whatever turns the worker and the application take, every number is in one place, the rings
hold, and the numbers come back in the order in which they were written.**
-/
theorem streamDac_streams (first last : Nat) (refills : Bq) (acts : List DacAct) (s : StreamDac)
    (hlen : refills.bqLen = awgBacklog)
    (hmeets : Lts.Meets step Continues (openWith first last refills) acts)
    (hrun : Lts.run step (openWith first last refills) acts = some s) :
    Streams (backlog first last) s := by
  have hstart := Conserves.openWith first last hlen
  refine Conserves.streams ?_
  refine Lts.run_invariant_of (Conserves (backlog first last)) ?_ acts _ s hstart hmeets hrun
  intro t act t' ht hcont ht'
  exact ht.step (length_backlog first last) hcont ht'

/-- All four numbers are read and written, and one of them is given back. -/
def servedActs : List DacAct :=
  [.readWait, .read, .read, .readWait, .read, .read, .writeWait, .write 0, .write 1, .writeWait,
    .write 2, .write 3] ++ List.replicate 8 (.loop .go)

theorem streamDac_streams_served :
    ∃ s, Lts.run step (openWith 0 4 (Bq.init awgBacklog)) servedActs = some s ∧
      s.returned = [0] ∧ Streams (backlog 0 4) s := by
  obtain ⟨s, hrun, hs⟩ := Lts.exists_of_any step (openWith 0 4 (Bq.init awgBacklog)) servedActs
    (fun s => s.returned == [0]) (by decide)
  have hmeets : Lts.Meets step Continues (openWith 0 4 (Bq.init awgBacklog)) servedActs := by
    decide
  exact ⟨s, hrun, eq_of_beq hs, streamDac_streams 0 4 _ servedActs s rfl hmeets hrun⟩

/-- Two of the four are written, and the other two only when the worker has given up. -/
def starvedActs : List DacAct :=
  [.readWait, .read, .read, .readWait, .read, .read, .writeWait, .write 0, .write 1] ++
    List.replicate 26 (.loop .go) ++ [.writeWait, .write 2, .write 3, .loop .go, .loop .go]

/-- The number given back at the end is still in flight, and those written last are nowhere. -/
theorem streamDac_starves :
    ∃ s, Lts.run step (openWith 0 4 (Bq.init awgBacklog)) starvedActs = some s ∧
      0 ∈ s.places .flight ∧ 0 ∈ s.places .empties ∧ (∀ holder, 2 ∉ s.places holder) ∧
      ¬Streams (backlog 0 4) s := by
  obtain ⟨s, hrun, hs⟩ := Lts.exists_of_any step (openWith 0 4 (Bq.init awgBacklog)) starvedActs
    (fun s => s.held == [] && s.refills.items == [] && s.flight == [1, 0] &&
      s.empties.items == [0]) (by decide)
  simp only [Bool.and_eq_true, beq_iff_eq] at hs
  obtain ⟨⟨⟨happ, hrefills⟩, hflight⟩, hempties⟩ := hs
  have hlost : ∀ holder, 2 ∉ s.places holder := by
    intro holder
    cases holder with
    | app => simp [places, happ]
    | refills => simp [places, hrefills]
    | flight => simp [places, hflight]
    | empties => simp [places, hempties]
  refine ⟨s, hrun, by simp [places, hflight], by simp [places, hempties], hlost, ?_⟩
  intro h
  obtain ⟨holder, htwo, -⟩ := h.place 2 (by decide)
  exact hlost holder htwo

end StreamDac

end Acq400
