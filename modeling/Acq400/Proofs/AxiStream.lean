/-
What an AXI channel delivers is what the DMA engine has written.

The stream is cut into fills, one for each buffer that the engine goes through.  The four lists,
read off from OPENS, are the buffers of as many fills as there are buffers, from the first that the
reader has not put back.  Of these the engine has been through the first ones and has not come to
the last; where it is, the buffer is written in part, and behind that all are poisoned.  The last
word of a buffer is the last that the engine writes, so the poison of a buffer is gone just when
the engine has been through it, and the thread, which waits for that, is never in front of it.
-/
import Acq400.Driver.AxiStream
import Acq400.Proofs.Poison
import Acq400.Proofs.RingOrder
import Mathlib.Data.List.GetD

namespace Acq400

open Rotation

namespace Dev

variable {adev adev' adev'' : Dev} {hbm : HbmPtr}

theorem setWord_va_of_ne (adev : Dev) {hbm cur : HbmPtr} (h : cur ≠ hbm) (w : Nat) (v : UInt32) :
    ((adev.setWord hbm w v).hb cur).va = (adev.hb cur).va := by
  simp [setWord, h]

/-! ### Poison in the last two words -/

/-- A ring of buffers of `words` words, of one channel that is not a one-shot. -/
structure Setup (ring : List HbmPtr) (words : Nat) (adev : Dev) : Prop where
  nodup : ring.Nodup
  ne_nil : ring ≠ []
  bufferlen : adev.bufferlen = words * usz
  two_le : 2 ≤ words
  lt : words < 2 ^ 32
  offset : adev.par.axiPoisonOffset = 0
  axi64Hb0 : adev.axi64Hb 0 = ring
  axi64Hb1 : adev.axi64Hb 1 = []
  onPutEmpty : adev.onPutEmpty = .poisonOneBufferFastidious
  loopback : ∀ hbm ∈ ring, adev.par.axiDebugLoopbackIndex ≤ (adev.hb hbm).ix

variable {ring : List HbmPtr} {words : Nat}

theorem Setup.of_same (h : Setup ring words adev) (hsame : SameSetup adev adev') :
    Setup ring words adev' where
  nodup := h.nodup
  ne_nil := h.ne_nil
  bufferlen := hsame.bufferlen.trans h.bufferlen
  two_le := h.two_le
  lt := h.lt
  offset := by rw [hsame.par, h.offset]
  axi64Hb0 := by rw [hsame.axi64Hb, h.axi64Hb0]
  axi64Hb1 := by rw [hsame.axi64Hb, h.axi64Hb1]
  onPutEmpty := hsame.onPutEmpty.trans h.onPutEmpty
  loopback hbm hmem := by
    rw [hsame.par, hsame.ix]
    exact h.loopback hbm hmem

theorem Setup.poisonOffset (h : Setup ring words adev) :
    adev.poisonOffset = (adev.bufferlen, adev) := if_pos h.offset

theorem Setup.poisonWord0 (h : Setup ring words adev) : adev.poisonWord0 = words - 2 := by
  have htwo := h.two_le
  have hlt := h.lt
  unfold Dev.poisonWord0 firstPoisonWord
  rw [h.poisonOffset, h.bufferlen, Nat.mul_div_cancel words (by decide)]
  omega

theorem Setup.poisonWord1 (h : Setup ring words adev) : adev.poisonWord1 = words - 1 := by
  have htwo := h.two_le
  have hlt := h.lt
  unfold Dev.poisonWord1
  rw [h.poisonWord0]
  omega

/-- The buffer begins with these words. -/
def Has (adev : Dev) (hbm : HbmPtr) (ws : List UInt32) : Prop :=
  ∀ i v, ws[i]? = some v → (adev.hb hbm).va i = v

/-- The words of a whole buffer, as they are if it is not poisoned. -/
structure Whole (words : Nat) (ws : List UInt32) : Prop where
  length : ws.length = words
  sample0 : ws[words - 2]? ≠ some poison0
  sample1 : ws[words - 1]? ≠ some poison1

/-- The buffer is poisoned, and the engine has written `ws` to it. -/
structure Armed (words : Nat) (adev : Dev) (hbm : HbmPtr) (ws : List UInt32) : Prop where
  has : adev.Has hbm ws
  word0 : ws.length ≤ words - 2 → (adev.hb hbm).va (words - 2) = poison0
  word1 : (adev.hb hbm).va (words - 1) = poison1

theorem Has.congr {ws : List UInt32} (h : adev.Has hbm ws)
    (hva : (adev'.hb hbm).va = (adev.hb hbm).va) : adev'.Has hbm ws := by
  intro i v hi
  rw [hva]
  exact h i v hi

theorem Armed.congr {ws : List UInt32} (h : Armed words adev hbm ws)
    (hva : (adev'.hb hbm).va = (adev.hb hbm).va) : Armed words adev' hbm ws :=
  ⟨h.has.congr hva, fun hlen => by rw [hva, h.word0 hlen], by rw [hva, h.word1]⟩

theorem Armed.not_overwritten (hsetup : Setup ring words adev) {ws : List UInt32}
    (h : Armed words adev hbm ws) : (adev.poisonOverwritten hbm).1 = false := by
  unfold poisonOverwritten
  rw [hsetup.poisonWord1, h.word1]
  simp

theorem Has.overwritten (hsetup : Setup ring words adev) {ws : List UInt32}
    (h : adev.Has hbm ws) (hws : Whole words ws) : (adev.poisonOverwritten hbm).1 = true := by
  have htwo := hsetup.two_le
  have hat : ∀ i, i < words → ws[i]? = some ((adev.hb hbm).va i) := by
    intro i hi
    have hlt : i < ws.length := by
      rw [hws.length]
      exact hi
    rw [List.getElem?_eq_getElem hlt, h i _ (List.getElem?_eq_getElem hlt)]
  have h0 := hws.sample0
  have h1 := hws.sample1
  rw [hat _ (by omega), ne_eq, Option.some_inj] at h0 h1
  unfold poisonOverwritten
  rw [hsetup.poisonWord0, hsetup.poisonWord1]
  simp [h0, h1]

/-- A test of the poison changes nothing. -/
theorem Setup.poisonOverwritten_snd (h : Setup ring words adev) (hbm : HbmPtr) :
    (adev.poisonOverwritten hbm).2 = adev := by
  show adev.poisonOffset.2 = adev
  rw [h.poisonOffset]

/-- One buffer is written to and no other. -/
structure OnlyIn (hbm : HbmPtr) (adev adev' : Dev) : Prop extends SameSetup adev adev' where
  va_of_ne : ∀ cur, cur ≠ hbm → (adev'.hb cur).va = (adev.hb cur).va

theorem OnlyIn.rfl : OnlyIn hbm adev adev := ⟨.rfl, fun _ _ => .refl _⟩

theorem OnlyIn.trans (h : OnlyIn hbm adev adev') (h' : OnlyIn hbm adev' adev'') :
    OnlyIn hbm adev adev'' :=
  ⟨h.toSameSetup.trans h'.toSameSetup, fun cur hne =>
    (h'.va_of_ne cur hne).trans (h.va_of_ne cur hne)⟩

theorem SameMemory.onlyIn (h : SameMemory adev adev') : OnlyIn hbm adev adev' :=
  ⟨h.toSameSetup, fun cur _ => h.va cur⟩

theorem onlyIn_setWord (adev : Dev) (hbm : HbmPtr) (w : Nat) (v : UInt32) :
    OnlyIn hbm adev (adev.setWord hbm w v) :=
  ⟨sameSetup_setWord adev hbm w v, fun _ hne => setWord_va_of_ne adev hne w v⟩

theorem sameMemory_stash (adev : Dev) (hbm : HbmPtr) (data : UInt32 × UInt32) :
    SameMemory adev { adev with
      hb := Function.update adev.hb hbm { adev.hb hbm with poisonData := data } } where
  bufferlen := .refl _
  par := .refl _
  axi64Hb := .refl _
  onPutEmpty := .refl _
  ix cur := by
    by_cases h : cur = hbm
    · simp [h]
    · simp [h]
  va cur := by
    by_cases h : cur = hbm
    · simp [h]
    · simp [h]

theorem Setup.onlyIn_poisonOneBuffer (h : Setup ring words adev) (hbm : HbmPtr) :
    OnlyIn hbm adev (adev.poisonOneBuffer hbm) := by
  unfold poisonOneBuffer
  rw [h.poisonOffset]
  exact (sameMemory_stash adev hbm _).onlyIn.trans
    ((onlyIn_setWord _ hbm _ _).trans (onlyIn_setWord _ hbm _ _))

theorem Setup.armed_poisonOneBuffer (h : Setup ring words adev) (hbm : HbmPtr) :
    Armed words (adev.poisonOneBuffer hbm) hbm [] := by
  have htwo := h.two_le
  have hne : words - 2 ≠ words - 1 := by omega
  refine ⟨nofun, fun _ => ?_, ?_⟩
  · rw [poisonOneBuffer_va, h.poisonWord0, h.poisonWord1, Function.update_of_ne hne,
      Function.update_self]
  · rw [poisonOneBuffer_va, h.poisonWord1, Function.update_self]

theorem onlyIn_initOneBuffer (adev : Dev) (hbm : HbmPtr) :
    OnlyIn hbm adev (adev.initOneBuffer hbm) := by
  unfold initOneBuffer
  generalize List.range (adev.bufferlen / usz) = iis
  induction iis generalizing adev with
  | nil => exact .rfl
  | cons ii iis ih => exact (onlyIn_setWord adev hbm ii _).trans (ih _)

theorem Setup.onlyIn_clearPoisonFromBuffer (h : Setup ring words adev) (hbm : HbmPtr) :
    OnlyIn hbm adev (adev.clearPoisonFromBuffer hbm) := by
  unfold clearPoisonFromBuffer
  dsimp only
  split
  · rw [h.poisonOverwritten_snd]
    exact .rfl
  · rw [h.poisonOverwritten_snd]
    exact (onlyIn_setWord _ hbm _ _).trans (onlyIn_setWord _ hbm _ _)

/-- A buffer that is not poisoned is left alone. -/
theorem Setup.clearPoisonFromBuffer_eq (h : Setup ring words adev)
    (hover : (adev.poisonOverwritten hbm).1 = true) : adev.clearPoisonFromBuffer hbm = adev := by
  unfold clearPoisonFromBuffer
  dsimp only
  rw [if_pos hover, h.poisonOverwritten_snd]

theorem Setup.callOnPutEmpty (h : Setup ring words adev) (hmem : hbm ∈ ring) :
    adev.callOnPutEmpty hbm = adev.poisonOneBuffer hbm := by
  unfold Dev.callOnPutEmpty
  rw [h.onPutEmpty]
  exact if_pos (h.loopback hbm hmem)

/-- After `poison_all_buffers` every buffer of the ring is poisoned. -/
theorem Setup.poisonAllBuffers (h : Setup ring words adev) :
    SameSetup adev adev.poisonAllBuffers ∧
      ∀ hbm ∈ ring, Armed words adev.poisonAllBuffers hbm [] := by
  have hfold : ∀ (l : List HbmPtr) (adev : Dev), Setup ring words adev →
      SameSetup adev (l.foldl (fun adev hbm =>
        (if adev.par.axiInitBuffers then adev.initOneBuffer hbm else adev).poisonOneBuffer hbm)
          adev) ∧
      ∀ hbm, hbm ∈ l ∨ Armed words adev hbm [] → Armed words (l.foldl (fun adev hbm =>
        (if adev.par.axiInitBuffers then adev.initOneBuffer hbm else adev).poisonOneBuffer hbm)
          adev) hbm [] := by
    intro l
    induction l with
    | nil =>
      intro adev _
      exact ⟨.rfl, fun hbm h => h.resolve_left List.not_mem_nil⟩
    | cons hd l ih =>
      intro adev h
      have hinit : OnlyIn hd adev
          (if adev.par.axiInitBuffers then adev.initOneBuffer hd else adev) := by
        split
        · exact onlyIn_initOneBuffer adev hd
        · exact .rfl
      have hsetup := h.of_same hinit.toSameSetup
      have hboth := hinit.trans (hsetup.onlyIn_poisonOneBuffer hd)
      obtain ⟨hsame, harmed⟩ := ih _ (h.of_same hboth.toSameSetup)
      refine ⟨hboth.toSameSetup.trans hsame, fun hbm hor => harmed hbm ?_⟩
      by_cases heq : hbm = hd
      · rw [heq]
        exact Or.inr (hsetup.armed_poisonOneBuffer hd)
      · rcases hor with hmem | hold
        · exact Or.inl ((List.mem_cons.mp hmem).resolve_left heq)
        · exact Or.inr (hold.congr (hboth.va_of_ne hbm heq))
  obtain ⟨hsame, harmed⟩ := hfold (adev.axi64Hb 0 ++ adev.axi64Hb 1) adev h
  refine ⟨hsame, fun hbm hmem => harmed hbm (Or.inl ?_)⟩
  rw [h.axi64Hb0]
  exact List.mem_append_left _ hmem

/-- `clear_poison_all_buffers` leaves the buffers that are full as they are. -/
theorem Setup.clearPoisonAllBuffers (h : Setup ring words adev) :
    SameSetup adev adev.clearPoisonAllBuffers ∧
      ∀ hbm ws, adev.Has hbm ws → Whole words ws → adev.clearPoisonAllBuffers.Has hbm ws := by
  unfold Dev.clearPoisonAllBuffers
  generalize adev.axi64Hb 0 ++ adev.axi64Hb 1 = l
  induction l generalizing adev with
  | nil => exact ⟨.rfl, fun hbm ws hhas _ => hhas⟩
  | cons hd l ih =>
    have honly := h.onlyIn_clearPoisonFromBuffer hd
    obtain ⟨hsame, hkeep⟩ := ih (h.of_same honly.toSameSetup)
    refine ⟨honly.toSameSetup.trans hsame, fun hbm ws hhas hws => hkeep hbm ws ?_ hws⟩
    by_cases heq : hbm = hd
    · rw [← heq, h.clearPoisonFromBuffer_eq (hhas.overwritten h hws)]
      exact hhas
    · exact hhas.congr (honly.va_of_ne hbm heq)

/-! ### The lists -/

theorem getEmpty_stations (adev : Dev) : adev.getEmpty.2.stations.cycle = adev.stations.cycle ∧
    adev.getEmpty.2.lists .opens = adev.lists .opens ∧
    adev.getEmpty.2.lists .refills = adev.lists .refills := by
  cases he : adev.lists .empties with
  | nil =>
    rw [stations_congr (getEmpty_nil he).2, (getEmpty_nil he).2]
    exact ⟨.refl _, .refl _, .refl _⟩
  | cons hbm rest =>
    have hlists := (getEmpty_cons he).2
    refine ⟨?_, ?_, ?_⟩
    · rw [stations_take hlists]
      exact Stations.take_cycle (q := adev.stations) he
    · simp [hlists, shifted]
    · simp [hlists, shifted]

theorem putFull_stations (hi : adev.lists .inflight = [hbm]) :
    adev.putFull.2.stations.cycle = adev.stations.cycle ∧
    adev.putFull.2.lists .opens = adev.lists .opens ∧
    adev.putFull.2.lists .refills = adev.lists .refills ++ [hbm] ∧
    adev.putFull.2.lists .inflight = [] := by
  have hlists := (putFull_cons hi).2
  refine ⟨?_, ?_, ?_, ?_⟩
  · rw [stations_complete hlists]
    exact Stations.complete_cycle (q := adev.stations) hi
  · simp [hlists, shifted]
  · simp [hlists, shifted]
  · simp [hlists, shifted]

end Dev

/-! ### Fills and the ring -/

section RingAt

variable {ring : List HbmPtr}

theorem ringAt_add_length (ring : List HbmPtr) (p : Nat) :
    ringAt ring (p + ring.length) = ringAt ring p := by
  unfold ringAt
  rw [Nat.add_mod_right]

theorem ringAt_mem (hne : ring ≠ []) (p : Nat) : ringAt ring p ∈ ring := by
  have hlt : p % ring.length < ring.length := Nat.mod_lt p (List.length_pos_iff.mpr hne)
  unfold ringAt
  rw [List.getD_eq_getElem _ _ hlt]
  exact List.getElem_mem hlt

/-- Fills that are less than a turn of the ring apart are in different buffers. -/
theorem ringAt_inj (hnodup : ring.Nodup) {b p q : Nat} (hbp : b ≤ p) (hp : p < b + ring.length)
    (hbq : b ≤ q) (hq : q < b + ring.length) (h : ringAt ring p = ringAt ring q) : p = q := by
  have hpos : 0 < ring.length := by omega
  have hp' := Nat.mod_lt p hpos
  have hq' := Nat.mod_lt q hpos
  unfold ringAt at h
  rw [List.getD_eq_getElem _ _ hp', List.getD_eq_getElem _ _ hq'] at h
  have hmod : p % ring.length = q % ring.length := (hnodup.getElem_inj_iff).mp h
  rcases Nat.le_total q p with hle | hle
  · have hsub : (p - q) % ring.length = 0 := Nat.sub_mod_eq_zero_of_mod_eq hmod
    rw [Nat.mod_eq_of_lt (by omega)] at hsub
    omega
  · have hsub : (q - p) % ring.length = 0 := Nat.sub_mod_eq_zero_of_mod_eq hmod.symm
    rw [Nat.mod_eq_of_lt (by omega)] at hsub
    omega

/-- The buffers of a turn of the ring, from the `b`th fill on. -/
def turn (ring : List HbmPtr) (b : Nat) : List HbmPtr :=
  (List.range' b ring.length).map (ringAt ring)

theorem turn_zero (ring : List HbmPtr) : turn ring 0 = ring := by
  refine List.ext_getElem (by simp [turn]) fun i h1 h2 => ?_
  simp [turn, ringAt, Nat.mod_eq_of_lt h2, h2]

/-- What comes first comes again behind the others. -/
theorem turn_succ {b : Nat} {x : HbmPtr} {rest : List HbmPtr} (h : turn ring b = x :: rest) :
    x = ringAt ring b ∧ turn ring (b + 1) = rest ++ [x] := by
  cases hlen : ring.length with
  | zero => simp [turn, hlen] at h
  | succ k =>
    unfold turn at h ⊢
    rw [hlen, List.range'_succ, List.map_cons] at h
    obtain ⟨rfl, rfl⟩ := List.cons.inj h
    refine ⟨rfl, ?_⟩
    have hlast : ringAt ring (b + 1 + k) = ringAt ring b := by
      rw [← ringAt_add_length ring b, hlen, Nat.add_assoc, Nat.add_comm 1 k]
    rw [hlen, List.range'_concat, List.map_append, List.map_singleton, Nat.one_mul, hlast]

theorem turn_getElem? {b k : Nat} (h : k < ring.length) :
    (turn ring b)[k]? = some (ringAt ring (b + k)) := by
  simp [turn, h]

end RingAt

/-! ### The invariant -/

/-- How many buffers the reader has or can get. -/
def Dev.held (adev : Dev) : Nat := (adev.lists .opens ++ adev.lists .refills).length

/-- The buffers and the fills: `b` buffers have been put back, `log` has been written and `cur` is
being written. -/
structure RingFilled (ring : List HbmPtr) (words : Nat) (adev : Dev) (b : Nat)
    (log : List (List UInt32)) (cur : List UInt32) : Prop where
  cycle : adev.stations.cycle = turn ring b
  served : b + adev.held ≤ log.length
  ahead : log.length ≤ b + ring.length
  begun : cur ≠ [] → log.length < b + ring.length
  curLt : cur.length < words
  curSample : cur[words - 2]? ≠ some poison0
  whole : ∀ ws ∈ log, Dev.Whole words ws
  full : ∀ p ws, b ≤ p → log[p]? = some ws → adev.Has (ringAt ring p) ws

/-- The buffers that the engine has not been through are poisoned. -/
def Poised (ring : List HbmPtr) (words : Nat) (adev : Dev) (b : Nat) (log : List (List UInt32))
    (cur : List UInt32) : Prop :=
  ∀ p, log.length ≤ p → p < b + ring.length →
    Dev.Armed words adev (ringAt ring p) (if p = log.length then cur else [])

/-- The invariant of the stream. -/
structure Flows (ring : List HbmPtr) (words : Nat) (s : AxiStream) : Prop where
  setup : s.loop.dev.Setup ring words
  filled : RingFilled ring words s.loop.dev s.returned s.log s.cur
  holds : s.loop.pc.Holds s.loop.hbm (s.loop.dev.lists .inflight)
  poised : s.loop.pc ≠ .poison → s.loop.pc ≠ .exited →
    Poised ring words s.loop.dev s.returned s.log s.cur
  idle : s.loop.pc = .poison → s.log = [] ∧ s.cur = []
  pending : s.loop.pc = .putFull ∨ s.loop.pc = .catchupPut →
    s.returned + s.loop.dev.held < s.log.length
  noRetake : s.loop.pc ≠ .retake

section RingFilled

variable {ring : List HbmPtr} {words b : Nat} {adev adev' : Dev} {log : List (List UInt32)}
  {cur : List UInt32}

theorem RingFilled.congr (h : RingFilled ring words adev b log cur)
    (hcycle : adev'.stations.cycle = adev.stations.cycle)
    (hserved : b + adev'.held ≤ log.length)
    (hva : ∀ hbm, (adev'.hb hbm).va = (adev.hb hbm).va) : RingFilled ring words adev' b log cur :=
  { h with
    cycle := hcycle.trans h.cycle
    served := hserved
    full := fun p ws hp hws => (h.full p ws hp hws).congr (hva _) }

theorem Poised.congr (h : Poised ring words adev b log cur)
    (hva : ∀ hbm, (adev'.hb hbm).va = (adev.hb hbm).va) : Poised ring words adev' b log cur :=
  fun p hp hp' => (h p hp hp').congr (hva _)

/-- What is in work is the buffer of the first fill that is not served. -/
theorem RingFilled.inflight (h : RingFilled ring words adev b log cur) {hbm : HbmPtr}
    (hi : adev.lists .inflight = [hbm]) :
    adev.held < ring.length ∧ hbm = ringAt ring (b + adev.held) := by
  have hcycle : adev.lists .opens ++ adev.lists .refills ++ [hbm] ++ adev.lists .empties =
      turn ring b := by
    rw [← hi]
    exact h.cycle
  have hlen : adev.held < ring.length := by
    have hlength := congrArg List.length hcycle
    simp only [List.length_append, List.length_singleton, turn, List.length_map,
      List.length_range'] at hlength
    unfold Dev.held
    rw [List.length_append]
    omega
  refine ⟨hlen, ?_⟩
  have hget : (adev.lists .opens ++ adev.lists .refills ++ [hbm] ++
      adev.lists .empties)[adev.held]? = some hbm := by
    simp [Dev.held]
  rw [hcycle, turn_getElem? hlen] at hget
  exact (Option.some.inj hget).symm

/-- The poison of the buffer in work is gone just when the engine has been through it. -/
theorem overwritten_iff (hsetup : adev.Setup ring words) (h : RingFilled ring words adev b log cur)
    (hpoised : Poised ring words adev b log cur) {hbm : HbmPtr}
    (hi : adev.lists .inflight = [hbm]) :
    (adev.poisonOverwritten hbm).1 = true ↔ b + adev.held < log.length := by
  obtain ⟨hlen, rfl⟩ := h.inflight hi
  constructor
  · intro hover
    by_contra hge
    have harmed := hpoised (b + adev.held) (Nat.le_of_not_lt hge) (by omega)
    rw [harmed.not_overwritten hsetup] at hover
    cases hover
  · intro hlt
    have hget := List.getElem?_eq_getElem hlt
    exact (h.full _ _ (Nat.le_add_right _ _) hget).overwritten hsetup
      (h.whole _ (List.getElem_mem hlt))

end RingFilled

namespace Flows

variable {ring : List HbmPtr} {words : Nat} {s s' : AxiStream}

/-- A step in which only lists and counts change. -/
theorem move (h : Flows ring words s) {loop : AxiLoop} (hsame : s.loop.dev.SameMemory loop.dev)
    (hcycle : loop.dev.stations.cycle = s.loop.dev.stations.cycle)
    (hserved : s.returned + loop.dev.held ≤ s.log.length)
    (hholds : loop.pc.Holds loop.hbm (loop.dev.lists .inflight))
    (hpoised : loop.pc ≠ .poison → loop.pc ≠ .exited →
      s.loop.pc ≠ .poison ∧ s.loop.pc ≠ .exited)
    (hidle : loop.pc = .poison → s.loop.pc = .poison)
    (hretake : loop.pc = .retake → s.loop.pc = .retake)
    (hpending : loop.pc = .putFull ∨ loop.pc = .catchupPut →
      s.returned + loop.dev.held < s.log.length) :
    Flows ring words { s with loop := loop } where
  setup := h.setup.of_same hsame.toSameSetup
  filled := h.filled.congr hcycle hserved hsame.va
  holds := hholds
  poised hpoison hexited :=
    (h.poised (hpoised hpoison hexited).1 (hpoised hpoison hexited).2).congr hsame.va
  idle hpc := h.idle (hidle hpc)
  pending := hpending
  noRetake hpc := h.noRetake (hretake hpc)

/-- `getEmpty`, and what becomes of the program counter. -/
theorem getEmpty (h : Flows ring words s) {loop : AxiLoop}
    (hsame : s.loop.dev.getEmpty.2.SameMemory loop.dev)
    (hlists : loop.dev.lists = s.loop.dev.getEmpty.2.lists)
    (hpc : s.loop.pc ≠ .poison ∧ s.loop.pc ≠ .exited)
    (hnext : loop.pc ≠ .poison ∧ loop.pc ≠ .retake)
    (hholds : loop.pc.Holds loop.hbm (loop.dev.lists .inflight))
    (hpending : loop.pc = .putFull ∨ loop.pc = .catchupPut →
      s.returned + s.loop.dev.held < s.log.length) :
    Flows ring words { s with loop := loop } := by
  obtain ⟨hcycle, hopens, hrefills⟩ := s.loop.dev.getEmpty_stations
  have hheld : loop.dev.held = s.loop.dev.held := by
    unfold Dev.held
    rw [hlists, hopens, hrefills]
  refine h.move (s.loop.dev.sameMemory_getEmpty.trans hsame) ?_ ?_ hholds (fun _ _ => hpc)
    (fun hpc' => absurd hpc' hnext.1) (fun hpc' => absurd hpc' hnext.2) ?_
  · rw [Dev.stations_congr hlists]
    exact hcycle
  · rw [hheld]
    exact h.filled.served
  · rw [hheld]
    exact hpending

/-- `putFull` of the buffer that the engine has been through. -/
theorem putFull (h : Flows ring words s) {hbm : HbmPtr}
    (hi : s.loop.dev.lists .inflight = [hbm])
    (hpc : s.loop.pc = .putFull ∨ s.loop.pc = .catchupPut) (rt : RunTime) {pc : AxiPc}
    (hnext : pc = .catchup ∨ pc = .take) :
    Flows ring words { s with
      loop := { s.loop with dev := { s.loop.dev.putFull.2 with rt := rt }, pc := pc } } := by
  obtain ⟨hcycle, hopens, hrefills, hinflight⟩ := Dev.putFull_stations hi
  have hheld : (Dev.held { s.loop.dev.putFull.2 with rt := rt }) = s.loop.dev.held + 1 := by
    unfold Dev.held
    show (s.loop.dev.putFull.2.lists .opens ++ s.loop.dev.putFull.2.lists .refills).length = _
    rw [hopens, hrefills, ← List.append_assoc, List.length_append, List.length_singleton]
  have hpending := h.pending hpc
  refine h.move (s.loop.dev.sameMemory_putFull.withRt rt) hcycle ?_ ?_ (fun _ _ => ?_) ?_ ?_ ?_
  · show s.returned + Dev.held { s.loop.dev.putFull.2 with rt := rt } ≤ _
    omega
  · rcases hnext with rfl | rfl
    · exact hinflight
    · exact hinflight
  · rcases hpc with hpc | hpc <;> simp [hpc]
  · rcases hnext with rfl | rfl <;> simp
  · rcases hnext with rfl | rfl <;> simp
  · rcases hnext with rfl | rfl <;> simp

theorem thread (h : Flows ring words s) (env : LoopEnv) (hpc : s.loop.pc ≠ .discard)
    {loop : AxiLoop} (hstep : axi64DataLoop s.loop env = some loop) :
    Flows ring words { s with loop := loop } := by
  obtain ⟨⟨dev, pc, hbm⟩, log, cur, returned⟩ := s
  have hholds := h.holds
  cases pc with
  | poison =>
    obtain rfl := Option.some.inj hstep
    obtain ⟨rfl, rfl⟩ := h.idle rfl
    obtain ⟨hsame, harmed⟩ := h.setup.poisonAllBuffers
    have hlists := dev.poisonAllBuffers_lists
    exact
      { setup := h.setup.of_same hsame
        filled :=
          { h.filled with
            cycle := (congrArg _ (Dev.stations_congr hlists)).trans h.filled.cycle
            served := by
              show returned + Dev.held dev.poisonAllBuffers ≤ _
              unfold Dev.held
              rw [hlists]
              exact h.filled.served
            full := fun p ws _ hws => nomatch hws }
        holds := by
          show dev.poisonAllBuffers.lists .inflight = []
          rw [hlists]
          exact hholds
        poised := fun _ _ p _ _ => by
          rw [ite_self]
          exact harmed _ (ringAt_mem h.setup.ne_nil p)
        idle := by simp
        pending := by simp
        noRetake := by simp }
  | checkPoison =>
    simp only [axi64DataLoop] at hstep
    split at hstep
    · obtain rfl := Option.some.inj hstep
      exact h.move .rfl rfl h.filled.served trivial (by simp) (by simp) (by simp) (by simp)
    · obtain rfl := Option.some.inj hstep
      exact h.move .rfl rfl h.filled.served hholds (by simp) (by simp) (by simp) (by simp)
  | hold =>
    have hinflight := Dev.getEmpty_first hholds
    simp only [axi64DataLoop] at hstep
    split at hstep
    · obtain rfl := Option.some.inj hstep
      exact h.getEmpty .rfl rfl (by simp) (by simp) trivial (by simp)
    · rename_i b hb
      obtain rfl := Option.some.inj hstep
      rw [hb] at hinflight
      exact h.getEmpty ⟨⟨rfl, rfl, rfl, rfl, fun _ => rfl⟩, fun _ => rfl⟩ rfl (by simp) (by simp)
        ⟨b, rfl, hinflight⟩ (by simp)
  | top =>
    simp only [axi64DataLoop] at hstep
    split at hstep
    · obtain rfl := Option.some.inj hstep
      exact h.move .rfl rfl h.filled.served trivial (by simp) (by simp) (by simp) (by simp)
    · obtain ⟨b, rfl, hi⟩ := hholds
      have hover := overwritten_iff h.setup h.filled (h.poised (by simp) (by simp)) hi
      have hdev : (dev.dmaDone b).2 = dev := h.setup.poisonOverwritten_snd b
      have hrt : ∃ rt, (if dev.rt.axi64Firstups ≠ 0 then
          { dev with rt := { dev.rt with axi64Wakeups := dev.rt.axi64Wakeups + 1 } } else dev) =
          { dev with rt := rt } := by
        split
        · exact ⟨_, rfl⟩
        · exact ⟨_, rfl⟩
      obtain ⟨rt, hrt⟩ := hrt
      simp only [hdev, hrt] at hstep
      obtain rfl := Option.some.inj hstep
      by_cases hdone : (dev.dmaDone b).1 = true
      · rw [if_pos hdone]
        exact h.move (Dev.SameMemory.rfl.withRt rt) rfl h.filled.served ⟨b, rfl, hi⟩ (by simp)
          (by simp) (by simp) fun _ => hover.mp hdone
      · rw [if_neg hdone]
        exact h.move (Dev.SameMemory.rfl.withRt rt) rfl h.filled.served ⟨b, rfl, hi⟩ (by simp)
          (by simp) (by simp) (by simp)
  | putFull =>
    obtain ⟨b, rfl, hi⟩ := hholds
    obtain rfl := Option.some.inj hstep
    refine h.putFull hi (Or.inl rfl) _ ?_
    split
    · exact Or.inl rfl
    · exact Or.inr rfl
  | catchup =>
    have hinflight := Dev.getEmpty_first hholds
    simp only [axi64DataLoop] at hstep
    split at hstep
    · rename_i hb
      obtain rfl := Option.some.inj hstep
      rw [hb] at hinflight
      exact h.getEmpty .rfl rfl (by simp) (by simp) hinflight (by simp)
    · rename_i b hb
      obtain rfl := Option.some.inj hstep
      rw [hb] at hinflight
      obtain ⟨hcycle, hopens, hrefills⟩ := dev.getEmpty_stations
      have hsame := dev.sameMemory_getEmpty
      have hsetup := h.setup.of_same hsame.toSameSetup
      have hheld : dev.getEmpty.2.held = dev.held := by
        unfold Dev.held
        rw [hopens, hrefills]
      have hfilled := h.filled.congr hcycle (by rw [hheld]; exact h.filled.served) hsame.va
      have hover := overwritten_iff hsetup hfilled
        ((h.poised (by simp) (by simp)).congr hsame.va) hinflight
      rw [hheld] at hover
      have hdev := hsetup.poisonOverwritten_snd b
      by_cases hdone : (dev.getEmpty.2.poisonOverwritten b).1 = true
      · rw [if_pos hdone, hdev]
        exact h.getEmpty .rfl rfl (by simp) (by simp) ⟨b, rfl, hinflight⟩
          fun _ => hover.mp hdone
      · rw [if_neg hdone, hdev]
        exact h.getEmpty .rfl rfl (by simp) (by simp) hinflight (by simp)
  | catchupPut =>
    obtain ⟨b, rfl, hi⟩ := hholds
    obtain rfl := Option.some.inj hstep
    exact h.putFull hi (Or.inr rfl) _ (Or.inl rfl)
  | take =>
    obtain rfl := Option.some.inj hstep
    exact h.getEmpty .rfl rfl (by simp) (by simp) (Dev.getEmpty_first hholds) (by simp)
  | check =>
    simp only [axi64DataLoop] at hstep
    split at hstep
    · obtain rfl := Option.some.inj hstep
      exact h.move .rfl rfl h.filled.served trivial (by simp) (by simp) (by simp) (by simp)
    · split at hstep
      · rename_i b
        obtain rfl := Option.some.inj hstep
        exact h.move .rfl rfl h.filled.served ⟨b, rfl, hholds⟩ (by simp) (by simp) (by simp)
          (by simp)
      · obtain rfl := Option.some.inj hstep
        exact h.move (Dev.SameMemory.rfl.withStats _ _) rfl h.filled.served hholds (by simp)
          (by simp) (by simp) (by simp)
  | discard => exact absurd rfl hpc
  | retake => exact absurd rfl h.noRetake
  | quit =>
    obtain rfl := Option.some.inj hstep
    obtain ⟨hsame, hkeep⟩ := h.setup.clearPoisonAllBuffers
    have hlists := dev.clearPoisonAllBuffers_lists
    exact
      { setup := h.setup.of_same ⟨hsame.bufferlen, hsame.par, hsame.axi64Hb, hsame.onPutEmpty,
          hsame.ix⟩
        filled :=
          { h.filled with
            cycle := (congrArg _ (Dev.stations_congr hlists)).trans h.filled.cycle
            served := by
              show returned + (dev.clearPoisonAllBuffers.lists .opens ++
                dev.clearPoisonAllBuffers.lists .refills).length ≤ _
              rw [hlists]
              exact h.filled.served
            full := fun p ws hp hws => hkeep _ ws (h.filled.full p ws hp hws)
              (h.filled.whole ws (List.mem_of_getElem? hws)) }
        holds := trivial
        poised := fun _ hexited => absurd rfl hexited
        idle := by simp
        pending := by simp
        noRetake := by simp }
  | exited => cases hstep
  | oops => cases hstep

/-- The reader gets a buffer, or nothing happens. -/
theorem getFull (h : Flows ring words s) {wait signalled : Bool} {loop : AxiLoop}
    (hstep : axiStep s.loop (.beside (.getFull wait signalled)) = some loop) :
    Flows ring words { s with loop := loop } := by
  obtain ⟨dev, hdev, rfl⟩ := Option.map_eq_some_iff.mp hstep
  obtain ⟨⟨rc, dev'⟩, hget, rfl⟩ := Option.map_eq_some_iff.mp hdev
  have hsame := Dev.sameMemory_getFull hget
  have hlists : dev'.stations.cycle = s.loop.dev.stations.cycle ∧ dev'.held = s.loop.dev.held ∧
      dev'.lists .inflight = s.loop.dev.lists .inflight := by
    rcases Dev.getFull_cases hget with ⟨hbm, rest, hl, -, hlists⟩ | ⟨-, -, rfl⟩
    · refine ⟨?_, ?_, ?_⟩
      · rw [Dev.stations_deliver hlists]
        exact Stations.deliver_cycle (q := s.loop.dev.stations) hl
      · simp [Dev.held, hlists, Dev.shifted, hl]
      · simp [hlists, Dev.shifted]
    · exact ⟨rfl, rfl, rfl⟩
  obtain ⟨hcycle, hheld, hinflight⟩ := hlists
  have hholds := h.holds
  rw [← hinflight] at hholds
  refine h.move hsame hcycle ?_ hholds (fun hp he => ⟨hp, he⟩) id id ?_
  · show s.returned + dev'.held ≤ _
    rw [hheld]
    exact h.filled.served
  · intro hpc
    show s.returned + dev'.held < _
    rw [hheld]
    exact h.pending hpc

/-- The reader puts the first of its buffers back, and it is poisoned. -/
theorem putEmpty (h : Flows ring words s) {loop : AxiLoop}
    (hstep : axiStep s.loop (.beside .putEmpty) = some loop) :
    Flows ring words { s with loop := loop, returned := s.returned + 1 } := by
  obtain ⟨dev, hdev, rfl⟩ := Option.map_eq_some_iff.mp hstep
  have hdev : s.loop.dev.putEmpty = some dev := hdev
  obtain ⟨hbm, rest, hopens, hlists⟩ := Dev.putEmpty_cases hdev
  have hcycle : turn ring s.returned =
      hbm :: (rest ++ s.loop.dev.lists .refills ++ s.loop.dev.lists .inflight ++
        s.loop.dev.lists .empties) := by
    rw [← h.filled.cycle]
    simp [Stations.cycle, Dev.stations, hopens]
  obtain ⟨rfl, hturn⟩ := turn_succ hcycle
  have hheld : s.loop.dev.held = dev.held + 1 := by
    simp [Dev.held, hlists, Dev.shifted, hopens]
  -- what is written is the buffer's own poison
  have hwritten : Dev.OnlyIn (ringAt ring s.returned) s.loop.dev dev ∧
      Dev.Armed words dev (ringAt ring s.returned) [] := by
    have hset := s.loop.dev.sameMemory_setBstate (ringAt ring s.returned) .empty
    have hsetup := h.setup.of_same hset.toSameSetup
    unfold Dev.putEmpty at hdev
    rw [hopens] at hdev
    dsimp only at hdev
    rw [hsetup.callOnPutEmpty (ringAt_mem h.setup.ne_nil _)] at hdev
    obtain rfl := Option.some.inj hdev
    have hmove := Dev.sameMemory_listMoveTail ((s.loop.dev.setBstate (ringAt ring s.returned)
      .empty).poisonOneBuffer (ringAt ring s.returned)) (ringAt ring s.returned) .opens .empties
    exact ⟨hset.onlyIn.trans ((hsetup.onlyIn_poisonOneBuffer _).trans hmove.onlyIn),
      (hsetup.armed_poisonOneBuffer _).congr (hmove.va _)⟩
  obtain ⟨honly, harmed⟩ := hwritten
  have hserved := h.filled.served
  have hahead := h.filled.ahead
  have hother : ∀ p, s.returned < p → p < s.returned + ring.length →
      (dev.hb (ringAt ring p)).va = (s.loop.dev.hb (ringAt ring p)).va := by
    intro p hlt hp
    refine honly.va_of_ne _ fun heq => ?_
    have := ringAt_inj h.setup.nodup (Nat.le_of_lt hlt) hp (Nat.le_refl _) (by omega) heq
    omega
  exact
    { setup := h.setup.of_same honly.toSameSetup
      filled :=
        { h.filled with
          cycle := by
            show dev.stations.cycle = turn ring (s.returned + 1)
            rw [hturn, Dev.stations_release hlists]
            simp [Stations.cycle, Dev.stations]
          served := by
            show s.returned + 1 + dev.held ≤ s.log.length
            omega
          ahead := by
            show s.log.length ≤ s.returned + 1 + ring.length
            omega
          begun := fun hcur => by
            have := h.filled.begun hcur
            show s.log.length < s.returned + 1 + ring.length
            omega
          full := fun p ws hp hws => by
            have hp' : s.returned + 1 ≤ p := hp
            have hlt : p < s.log.length := (List.getElem?_eq_some_iff.mp hws).1
            exact (h.filled.full p ws (by omega) hws).congr (hother p (by omega) (by omega)) }
      holds := by
        have hinflight : dev.lists .inflight = s.loop.dev.lists .inflight := by
          simp [hlists, Dev.shifted]
        show s.loop.pc.Holds s.loop.hbm (dev.lists .inflight)
        rw [hinflight]
        exact h.holds
      poised := fun hpoison hexited p hp hp' => by
        have hle : s.log.length ≤ p := hp
        have hlt : p < s.returned + 1 + ring.length := hp'
        by_cases hlast : p = s.returned + ring.length
        · have hempty : (if p = s.log.length then s.cur else []) = [] := by
            split
            · by_contra hcur
              have := h.filled.begun hcur
              omega
            · rfl
          show Dev.Armed words dev (ringAt ring p) (if p = s.log.length then s.cur else [])
          rw [hempty, hlast, ringAt_add_length]
          exact harmed
        · exact (h.poised hpoison hexited p hle (by omega)).congr
            (hother p (by omega) (by omega))
      idle := h.idle
      pending := fun hpc => by
        have := h.pending hpc
        show s.returned + 1 + dev.held < s.log.length
        omega
      noRetake := h.noRetake }

/-- The engine is in none of the buffers that are full. -/
theorem target_lt (h : Flows ring words s)
    (harmed : (s.loop.dev.poisonOverwritten s.target).1 = false) :
    s.target = ringAt ring s.log.length ∧ s.log.length < s.returned + ring.length := by
  have htarget : s.target = ringAt ring s.log.length := by
    unfold AxiStream.target
    rw [h.setup.axi64Hb0]
  refine ⟨htarget, ?_⟩
  by_contra hge
  have hpos : 0 < ring.length := List.length_pos_iff.mpr h.setup.ne_nil
  have hahead := h.filled.ahead
  have heq : s.log.length = s.returned + ring.length := by omega
  -- it would be in the buffer that the reader is to put back next
  have hlt : s.returned < s.log.length := by omega
  have hfull := h.filled.full s.returned _ (Nat.le_refl _) (List.getElem?_eq_getElem hlt)
  have hover := hfull.overwritten h.setup (h.filled.whole _ (List.getElem_mem hlt))
  rw [← ringAt_add_length, ← heq, ← htarget, harmed] at hover
  cases hover

/-- What the engine's next word leaves behind. -/
structure Wrote (ring : List HbmPtr) (words : Nat) (s : AxiStream) (value : UInt32) (dev : Dev) :
    Prop where
  setup : dev.Setup ring words
  lists : dev.lists = s.loop.dev.lists
  has : dev.Has (ringAt ring s.log.length) (s.cur ++ [value])
  sample : (s.cur ++ [value])[words - 2]? ≠ some poison0
  full : ∀ p ws, s.returned ≤ p → s.log[p]? = some ws → dev.Has (ringAt ring p) ws
  armed : ∀ p, s.log.length < p → p < s.returned + ring.length →
    Dev.Armed words dev (ringAt ring p) []
  poisoned : s.cur.length + 1 < words →
    Dev.Armed words dev (ringAt ring s.log.length) (s.cur ++ [value])

theorem wrote (h : Flows ring words s) {value : UInt32}
    (hact : AxiStream.Undisturbed s (.engine value)) :
    Wrote ring words s value (s.loop.dev.setWord s.target s.cur.length value) := by
  obtain ⟨hpoison, hexited, harmed, hsample⟩ := hact
  obtain ⟨htarget, hlt⟩ := h.target_lt harmed
  have hserved := h.filled.served
  unfold AxiStream.Sample at hsample
  rw [h.setup.poisonWord0, h.setup.poisonWord1] at hsample
  have hat := h.poised hpoison hexited s.log.length (Nat.le_refl _) hlt
  rw [if_pos rfl] at hat
  generalize hdev : s.loop.dev.setWord s.target s.cur.length value = dev
  rw [htarget] at hdev
  have honly : Dev.OnlyIn (ringAt ring s.log.length) s.loop.dev dev :=
    hdev ▸ Dev.onlyIn_setWord _ _ _ _
  have hva : (dev.hb (ringAt ring s.log.length)).va =
      Function.update (s.loop.dev.hb (ringAt ring s.log.length)).va s.cur.length value :=
    hdev ▸ Dev.setWord_va _ _ _ _
  have hother : ∀ p, s.returned ≤ p → p < s.returned + ring.length → p ≠ s.log.length →
      (dev.hb (ringAt ring p)).va = (s.loop.dev.hb (ringAt ring p)).va := by
    intro p hp hp' hne
    exact honly.va_of_ne _ fun heq =>
      hne (ringAt_inj h.setup.nodup hp hp' (by omega) hlt heq)
  have hhas : dev.Has (ringAt ring s.log.length) (s.cur ++ [value]) := by
    intro i v hi
    rw [hva]
    rcases Nat.lt_trichotomy i s.cur.length with hless | heq | hmore
    · rw [Function.update_of_ne (Nat.ne_of_lt hless)]
      rw [List.getElem?_append_left hless] at hi
      exact hat.has i v hi
    · subst heq
      simpa using hi
    · rw [List.getElem?_eq_none (by simp; omega)] at hi
      cases hi
  refine ⟨h.setup.of_same honly.toSameSetup, hdev ▸ rfl, hhas, ?_, ?_, ?_, ?_⟩
  · rcases Nat.lt_trichotomy (words - 2) s.cur.length with hless | heq | hmore
    · rw [List.getElem?_append_left hless]
      exact h.filled.curSample
    · rw [heq]
      simpa using hsample.1 heq.symm
    · rw [List.getElem?_eq_none (by simp; omega)]
      simp
  · intro p ws hp hws
    have hp' : p < s.log.length := (List.getElem?_eq_some_iff.mp hws).1
    exact (h.filled.full p ws hp hws).congr (hother p hp (by omega) (by omega))
  · intro p hp hp'
    have hold := h.poised hpoison hexited p (Nat.le_of_lt hp) hp'
    rw [if_neg (Nat.ne_of_gt hp)] at hold
    exact hold.congr (hother p (by omega) hp' (Nat.ne_of_gt hp))
  · intro hless
    refine ⟨hhas, fun hle => ?_, ?_⟩
    · rw [List.length_append, List.length_singleton] at hle
      rw [hva, Function.update_of_ne (by omega)]
      exact hat.word0 (by omega)
    · rw [hva, Function.update_of_ne (by omega)]
      exact hat.word1

theorem Wrote.lists_eq {value : UInt32} {dev : Dev} (h : Wrote ring words s value dev) :
    dev.stations.cycle = s.loop.dev.stations.cycle ∧ dev.held = s.loop.dev.held := by
  refine ⟨congrArg _ (Dev.stations_congr h.lists), ?_⟩
  unfold Dev.held
  rw [h.lists]

/-- The engine writes its next word. -/
theorem engine (h : Flows ring words s) {value : UInt32}
    (hact : AxiStream.Undisturbed s (.engine value)) : Flows ring words (s.engine value) := by
  have hwrote := h.wrote hact
  obtain ⟨hpoison, hexited, harmed, hsample⟩ := hact
  obtain ⟨-, hlt⟩ := h.target_lt harmed
  unfold AxiStream.Sample at hsample
  rw [h.setup.poisonWord1] at hsample
  have hwords : s.loop.dev.bufferlen / usz = words := by
    rw [h.setup.bufferlen, Nat.mul_div_cancel words (by decide)]
  have hcurLt := h.filled.curLt
  have hserved := h.filled.served
  unfold AxiStream.engine
  rw [hwords]
  dsimp only
  generalize s.loop.dev.setWord s.target s.cur.length value = dev at hwrote ⊢
  obtain ⟨hcycle, hheld⟩ := hwrote.lists_eq
  have hholds : s.loop.pc.Holds s.loop.hbm (dev.lists .inflight) := by
    rw [hwrote.lists]
    exact h.holds
  by_cases hdone : (s.cur ++ [value]).length = words
  · rw [if_pos hdone]
    have hlog : (s.log ++ [s.cur ++ [value]]).length = s.log.length + 1 := by simp
    refine ⟨hwrote.setup, ⟨hcycle.trans h.filled.cycle, ?_, ?_, ?_, ?_, ?_, ?_, ?_⟩, hholds, ?_,
      fun hpc => absurd hpc hpoison, fun hpc => ?_, h.noRetake⟩
    · show s.returned + dev.held ≤ (s.log ++ [s.cur ++ [value]]).length
      omega
    · show (s.log ++ [s.cur ++ [value]]).length ≤ s.returned + ring.length
      omega
    · exact fun hne => absurd rfl hne
    · exact Nat.lt_of_le_of_lt (Nat.zero_le _) hcurLt
    · simp
    · intro ws hmem
      rcases List.mem_append.mp hmem with hin | hnew
      · exact h.filled.whole ws hin
      · have hlast : s.cur.length = words - 1 := by
          simp at hdone
          omega
        rw [List.mem_singleton.mp hnew]
        refine ⟨hdone, hwrote.sample, ?_⟩
        rw [← hlast]
        simpa using hsample.2 hlast
    · intro p ws hp hws
      have hws : (s.log ++ [s.cur ++ [value]])[p]? = some ws := hws
      have hp' : p < (s.log ++ [s.cur ++ [value]]).length := (List.getElem?_eq_some_iff.mp hws).1
      rcases Nat.lt_or_ge p s.log.length with hless | hge
      · rw [List.getElem?_append_left hless] at hws
        exact hwrote.full p ws hp hws
      · obtain rfl : p = s.log.length := by omega
        rw [List.getElem?_concat_length] at hws
        rw [← Option.some.inj hws]
        exact hwrote.has
    · intro _ _ p hp hp'
      have hp : (s.log ++ [s.cur ++ [value]]).length ≤ p := hp
      show Dev.Armed words dev (ringAt ring p) (if p = _ then [] else [])
      rw [ite_self]
      exact hwrote.armed p (by omega) hp'
    · have hpending := h.pending hpc
      show s.returned + dev.held < (s.log ++ [s.cur ++ [value]]).length
      omega
  · rw [if_neg hdone]
    have hless : s.cur.length + 1 < words := by
      simp at hdone
      omega
    refine ⟨hwrote.setup, ⟨hcycle.trans h.filled.cycle, ?_, h.filled.ahead, fun _ => hlt, ?_,
      hwrote.sample, h.filled.whole, hwrote.full⟩, hholds, ?_, fun hpc => absurd hpc hpoison,
      fun hpc => ?_, h.noRetake⟩
    · show s.returned + dev.held ≤ s.log.length
      omega
    · rw [List.length_append, List.length_singleton]
      exact hless
    · intro _ _ p hp hp'
      have hp : s.log.length ≤ p := hp
      show Dev.Armed words dev (ringAt ring p) (if p = s.log.length then _ else [])
      by_cases heq : p = s.log.length
      · rw [if_pos heq, heq]
        exact hwrote.poisoned hless
      · rw [if_neg heq]
        exact hwrote.armed p (by omega) hp'
    · have hpending := h.pending hpc
      show s.returned + dev.held < s.log.length
      omega

theorem step (h : Flows ring words s) {act : StreamAct} (hact : AxiStream.Undisturbed s act)
    (hstep : AxiStream.step s act = some s') : Flows ring words s' := by
  cases act with
  | thread env =>
    obtain ⟨loop, hloop, rfl⟩ := Option.map_eq_some_iff.mp hstep
    exact h.thread env hact hloop
  | getFull wait signalled =>
    obtain ⟨loop, hloop, rfl⟩ := Option.map_eq_some_iff.mp hstep
    exact h.getFull hloop
  | putEmpty =>
    obtain ⟨loop, hloop, rfl⟩ := Option.map_eq_some_iff.mp hstep
    exact h.putEmpty hloop
  | interrupt =>
    obtain rfl := Option.some.inj hstep
    exact h.move (Dev.SameMemory.rfl.withRt _) rfl h.filled.served h.holds
      (fun hp he => ⟨hp, he⟩) id id h.pending
  | engine value =>
    obtain rfl := Option.some.inj hstep
    exact h.engine hact

end Flows

/-! ### The stream -/

/-- The words of a buffer. -/
def Dev.contents (adev : Dev) (words : Nat) (hbm : HbmPtr) : List UInt32 :=
  (List.range words).map (adev.hb hbm).va

theorem Dev.Has.contents {adev : Dev} {words : Nat} {hbm : HbmPtr} {ws : List UInt32}
    (h : adev.Has hbm ws) (hlen : ws.length = words) : adev.contents words hbm = ws := by
  subst hlen
  refine List.ext_getElem (by simp [Dev.contents]) fun i h1 h2 => ?_
  have hi := h i _ (List.getElem?_eq_getElem h2)
  simp [Dev.contents, hi]

/-- What the reader has or can get are the next fills. -/
theorem RingFilled.contents_prefix {ring : List HbmPtr} {words b : Nat} {adev : Dev}
    {log : List (List UInt32)} {cur : List UInt32} (h : RingFilled ring words adev b log cur) :
    (adev.lists .opens ++ adev.lists .refills).map (adev.contents words) <+: log.drop b := by
  have hserved := h.served
  rw [List.prefix_iff_eq_take]
  refine List.ext_getElem ?_ fun k h1 h2 => ?_
  · simp only [List.length_map, List.length_take, List.length_drop]
    unfold Dev.held at hserved
    omega
  · rw [List.length_map] at h1
    have hk : b + k < log.length := by
      unfold Dev.held at hserved
      omega
    have hcycle : adev.lists .opens ++ adev.lists .refills ++
        (adev.lists .inflight ++ adev.lists .empties) = turn ring b := by
      rw [← h.cycle]
      simp [Stations.cycle, Dev.stations]
    have hbm : (adev.lists .opens ++ adev.lists .refills)[k] = ringAt ring (b + k) := by
      have hlen : k < (turn ring b).length := by
        rw [← hcycle, List.length_append]
        omega
      have hget : (turn ring b)[k]? = some ((adev.lists .opens ++ adev.lists .refills)[k]) := by
        rw [← hcycle, List.getElem?_append_left h1, List.getElem?_eq_getElem h1]
      rw [turn_getElem? (by simpa [turn] using hlen)] at hget
      exact (Option.some.inj hget).symm
    have hget := List.getElem?_eq_getElem hk
    have hhas := h.full (b + k) _ (Nat.le_add_right b k) hget
    rw [List.getElem_map, List.getElem_take, List.getElem_drop, hbm]
    exact hhas.contents (h.whole _ (List.getElem_mem hk)).length

/-- What the engine is given to write. -/
def StreamAct.value? : StreamAct → Option UInt32
  | .engine value => some value
  | _ => none

/-- The fills are the words of the stream, cut. -/
theorem AxiStream.run_written (acts : List StreamAct) :
    ∀ s s' : AxiStream, Lts.run AxiStream.step s acts = some s' →
      s'.log.flatten ++ s'.cur = s.log.flatten ++ s.cur ++ acts.filterMap StreamAct.value? := by
  induction acts with
  | nil =>
    intro s s' hrun
    obtain rfl := Option.some.inj hrun
    simp
  | cons act acts ih =>
    intro s s' hrun
    rw [Lts.run_cons, Option.bind_eq_some_iff] at hrun
    obtain ⟨t, ht, hrun⟩ := hrun
    rw [ih t s' hrun]
    cases act with
    | engine value =>
      obtain rfl := Option.some.inj ht
      have hcur : (s.engine value).log.flatten ++ (s.engine value).cur =
          s.log.flatten ++ s.cur ++ [value] := by
        unfold AxiStream.engine
        dsimp only
        split
        · simp
        · simp
      have hvalues : (StreamAct.engine value :: acts).filterMap StreamAct.value? =
          value :: acts.filterMap StreamAct.value? := rfl
      rw [hcur, hvalues, List.append_assoc, List.singleton_append]
    | thread env =>
      obtain ⟨loop, -, rfl⟩ := Option.map_eq_some_iff.mp ht
      rfl
    | getFull wait signalled =>
      obtain ⟨loop, -, rfl⟩ := Option.map_eq_some_iff.mp ht
      rfl
    | putEmpty =>
      obtain ⟨loop, -, rfl⟩ := Option.map_eq_some_iff.mp ht
      rfl
    | interrupt =>
      obtain rfl := Option.some.inj ht
      rfl

/--
**As long as the engine finds the next buffer poisoned and the thread has none to discard, the
reader has the stream as it was written: the buffers on OPENS and REFILLS are the next fills from
the first that it has not put back, whole and in their order, and the thread waits for the one
that comes after them and sees it done just when the engine has been through it.**
-/
theorem axi64_data_loop_stream (adev : Dev) (words : Nat) (acts : List StreamAct) {s : AxiStream}
    (hsetup : (AxiStream.start adev).loop.dev.Setup (adev.axi64Hb 0) words)
    (hempties : adev.lists .empties = adev.axi64Hb 0) (hinflight : adev.lists .inflight = [])
    (hrefills : adev.lists .refills = []) (hopens : adev.lists .opens = [])
    (hacts : Lts.Meets AxiStream.step AxiStream.Undisturbed (.start adev) acts)
    (hrun : Lts.run AxiStream.step (.start adev) acts = some s) :
    s.log.flatten ++ s.cur = acts.filterMap StreamAct.value? ∧ (∀ ws ∈ s.log, ws.length = words) ∧
      (s.loop.dev.lists .opens ++ s.loop.dev.lists .refills).map (s.loop.dev.contents words) <+:
        s.log.drop s.returned ∧
      (s.loop.pc = .top → ∃ hbm, s.loop.hbm = some hbm ∧
        hbm = ringAt (adev.axi64Hb 0) (s.returned + s.loop.dev.held) ∧
        ((s.loop.dev.dmaDone hbm).1 = true ↔ s.returned + s.loop.dev.held < s.log.length)) := by
  have hcycle : (AxiStream.start adev).loop.dev.stations.cycle = turn (adev.axi64Hb 0) 0 := by
    rw [turn_zero]
    simp [Stations.cycle, Dev.stations, AxiStream.start, AxiLoop.start, hempties, hinflight,
      hrefills, hopens]
  have hheld : (AxiStream.start adev).loop.dev.held = 0 := by
    simp [Dev.held, AxiStream.start, AxiLoop.start, hrefills, hopens]
  have htwo := hsetup.two_le
  have hstart : Flows (adev.axi64Hb 0) words (.start adev) := by
    refine ⟨hsetup, ⟨hcycle, ?_, Nat.zero_le _, fun hne => absurd rfl hne, ?_, ?_, ?_, ?_⟩,
      hinflight, fun hne => absurd rfl hne, fun _ => ⟨rfl, rfl⟩, ?_, ?_⟩
    · show 0 + (AxiStream.start adev).loop.dev.held ≤ 0
      omega
    · show 0 < words
      omega
    · intro hsample
      cases hsample
    · intro ws hmem
      cases hmem
    · intro p ws _ hws
      cases hws
    · rintro (hpc | hpc) <;> cases hpc
    · intro hpc
      cases hpc
  have h := Lts.run_invariant_of (Flows (adev.axi64Hb 0) words)
    (fun _ _ _ h hact hstep => h.step hact hstep) acts _ s hstart hacts hrun
  refine ⟨AxiStream.run_written acts _ s hrun, fun ws hmem => (h.filled.whole ws hmem).length,
    h.filled.contents_prefix, fun hpc => ?_⟩
  have hholds := h.holds
  rw [hpc] at hholds
  obtain ⟨hbm, hsome, hi⟩ := hholds
  exact ⟨hbm, hsome, (h.filled.inflight hi).2,
    overwritten_iff h.setup h.filled (h.poised (by simp [hpc]) (by simp [hpc])) hi⟩

/-- Three buffers of four words. -/
private def threeOfFour : Dev :=
  (Dev.allocated 3 16 .loaded fun _ _ => 0).initAxi64Hbm1 [0, 1, 2] 3

/-- The engine fills two buffers and begins a third, the reader gets two and puts one back. -/
private def nineWords : List StreamAct :=
  List.replicate 3 (.thread { shouldStop := false, fifoError := false }) ++
    (List.range 9).map (fun i => .engine (UInt32.ofNat (i + 1))) ++
    List.replicate 5 (.thread { shouldStop := false, fifoError := false }) ++
    [.getFull true true, .getFull true true, .putEmpty]

theorem axi64_data_loop_stream_nine :
    ∃ s, Lts.run AxiStream.step (.start threeOfFour) nineWords = some s ∧
      (s.log, s.cur) = ([[1, 2, 3, 4], [5, 6, 7, 8]], [9]) ∧ s.returned = 1 ∧
      (s.loop.dev.lists .opens ++ s.loop.dev.lists .refills).map (s.loop.dev.contents 4) <+:
        s.log.drop s.returned := by
  obtain ⟨s, hrun, hs⟩ := Lts.exists_of_any AxiStream.step (.start threeOfFour) nineWords
    (fun s => (s.log, s.cur) = ([[1, 2, 3, 4], [5, 6, 7, 8]], [9]) ∧ s.returned = 1)
    (by decide +kernel)
  obtain ⟨hwritten, hreturned⟩ := of_decide_eq_true hs
  have hsetup : (AxiStream.start threeOfFour).loop.dev.Setup [0, 1, 2] 4 :=
    ⟨by decide, by decide, rfl, by decide, by decide, rfl, rfl, rfl, rfl, by decide⟩
  have hacts : Lts.Meets AxiStream.step AxiStream.Undisturbed (.start threeOfFour) nineWords := by
    decide +kernel
  exact ⟨s, hrun, hwritten, hreturned,
    (axi64_data_loop_stream threeOfFour 4 nineWords hsetup rfl rfl rfl rfl hacts hrun).2.2.1⟩

end Acq400
