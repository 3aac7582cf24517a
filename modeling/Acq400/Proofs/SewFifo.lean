/-
The register words carry the bytes that were written.

A byte is in a word, in the word that is being made up, or in the ring, and it was
reported as written or the call that put it has not returned yet.  A turn breaks that if
it puts a byte in a full ring, which a wait that has timed out does, or if it fails a
call of which bytes are on their way.
-/
import Acq400.Driver.SewFifo
import Acq400.Driver.Rings

namespace Acq400

/-! ### Words -/

namespace EmbWord

theorem byte0_toNat {count payloadCount : Nat} (hcount : count < 64) (hpay : payloadCount < 4) :
    (UInt8.ofNat (count <<< 2 ||| payloadCount)).toNat = 4 * count + payloadCount := by
  rw [← Nat.shiftLeft_add_eq_or_of_lt (show payloadCount < 2 ^ 2 from hpay), Nat.shiftLeft_eq]
  rw [UInt8.toNat_ofNat']
  omega

theorem payload_length {xx : EmbWord} {count payloadCount : Nat}
    (h : xx.byte0.toNat = 4 * count + payloadCount) (hpay : payloadCount < 4) :
    (xx.byte0 &&& 3).toNat = payloadCount := by
  rw [UInt8.toNat_and, h]
  have hmask := Nat.and_two_pow_sub_one_eq_mod (4 * count + payloadCount) 2
  show (4 * count + payloadCount) &&& (2 ^ 2 - 1) = payloadCount
  omega

theorem countField_eq {xx : EmbWord} {count payloadCount : Nat}
    (h : xx.byte0.toNat = 4 * count + payloadCount) (hpay : payloadCount < 4) :
    xx.countField = count := by
  rw [countField, UInt8.toNat_shiftRight, h]
  show (4 * count + payloadCount) >>> 2 = count
  rw [Nat.shiftRight_eq_div_pow]
  omega

/-- The bytes a payload is taken from. -/
def bytes (xx : EmbWord) : List UInt8 := [xx.byte1, xx.byte2, xx.byte3]

theorem setByte_byte0 {xx : EmbWord} {ipay : Nat} {byte : UInt8} (hipay : 1 ≤ ipay) :
    (xx.setByte ipay byte).byte0 = xx.byte0 := by
  unfold setByte
  split
  · omega
  · rfl
  · rfl
  · rfl

/-- A payload grows by the byte that is set behind it. -/
theorem take_setByte {xx : EmbWord} {ipay : Nat} {byte : UInt8} (hlow : 1 ≤ ipay)
    (hhigh : ipay ≤ 3) :
    (xx.setByte ipay byte).bytes.take ipay = xx.bytes.take (ipay - 1) ++ [byte] := by
  obtain rfl | rfl | rfl : ipay = 1 ∨ ipay = 2 ∨ ipay = 3 := by omega
  · rfl
  · rfl
  · rfl

end EmbWord

/-! ### The two parties -/

namespace SewFifo

/-- What the worker has got for the word that it makes up. -/
def pending (s : SewFifo) : List UInt8 :=
  match s.pc with
  | .get _ ipay => s.xx.bytes.take (ipay - 1)
  | _ => []

/-- What the words are to say. -/
structure Embeds (s : SewFifo) : Prop where
  /-- Every byte that has been put is in a word, on its way to one or in the ring. -/
  bytes : s.words.flatMap EmbWord.payload ++ s.pending ++ s.sfBuf.items sewFifoLen =
    s.reported ++ s.sent
  /-- Between two calls and two words, the words and the ring are what was reported. -/
  rest : s.wpc = .idle → s.pc = .wait →
    s.words.flatMap EmbWord.payload ++ s.sfBuf.items sewFifoLen = s.reported
  counts : ∀ (i : Nat) (xx : EmbWord), s.words[i]? = some xx → xx.countField = i % 64

/-- A turn that loses nothing: a byte that is put finds room, and a call that fails has put
nothing yet. -/
def Keeps (s : SewFifo) : SewAct → Prop
  | .writer ev =>
    (s.wpc = .put → 0 < s.sfBuf.bufSpace sewFifoLen) ∧
    (s.wpc = .next → ev = .fault → s.sent = []) ∧
    (s.wpc = .wait → ev = .interrupted → s.sent = [])
  | _ => True

instance (s : SewFifo) : (act : SewAct) → Decidable (s.Keeps act)
  | .writer _ => inferInstanceAs (Decidable ((_ → _) ∧ (_ → _ → _) ∧ (_ → _ → _)))
  | .call _ | .work | .stop => inferInstanceAs (Decidable True)

/-- What every turn keeps. -/
structure Carries (s : SewFifo) : Prop where
  sound : s.sfBuf.Sound sewFifoLen
  bytes : s.words.flatMap EmbWord.payload ++ s.pending ++ s.sfBuf.items sewFifoLen =
    s.reported ++ s.sent
  counts : ∀ (i : Nat) (xx : EmbWord), s.words[i]? = some xx → xx.countField = i % 64
  modulo : s.moduloCount = s.words.length % 64
  idle : s.wpc = .idle → s.sent = []
  word : ∀ payloadCount ipay, s.pc = .get payloadCount ipay →
    payloadCount < 4 ∧ 1 ≤ ipay ∧ ipay ≤ payloadCount + 1 ∧
    s.xx.byte0.toNat = 4 * s.moduloCount + payloadCount ∧
    payloadCount + 1 - ipay ≤ (s.sfBuf.items sewFifoLen).length

namespace Carries

variable {s s' : SewFifo}

theorem embeds (h : s.Carries) : s.Embeds := by
  refine ⟨h.bytes, ?_, h.counts⟩
  intro hidle hwait
  have hbytes := h.bytes
  rw [h.idle hidle, List.append_nil, pending, hwait, List.append_nil] at hbytes
  exact hbytes

theorem goOn (h : s.Carries) {wpc : SewWritePc} {buf sent reported : List UInt8}
    (hsame : reported ++ sent = s.reported ++ s.sent) (hidle : wpc = .idle → sent = []) :
    Carries { s with wpc := wpc, buf := buf, sent := sent, reported := reported } where
  sound := h.sound
  bytes := h.bytes.trans hsame.symm
  counts := h.counts
  modulo := h.modulo
  idle := hidle
  word := h.word

theorem put (h : s.Carries) (hspace : 0 < s.sfBuf.bufSpace sewFifoLen) {tmp : UInt8}
    {rest : List UInt8} :
    Carries { s with
      sfBuf := s.sfBuf.bufPut sewFifoLen tmp, wpc := .next, buf := rest,
      sent := s.sent ++ [tmp] } := by
  rw [h.sound.bufSpace] at hspace
  have hitems := h.sound.items_put (by omega) tmp
  refine ⟨h.sound.bufPut tmp, ?_, h.counts, h.modulo, nofun, ?_⟩
  · show s.words.flatMap EmbWord.payload ++ s.pending ++
      (s.sfBuf.bufPut sewFifoLen tmp).items sewFifoLen = s.reported ++ (s.sent ++ [tmp])
    rw [hitems, ← List.append_assoc, h.bytes, List.append_assoc]
  · intro payloadCount ipay hpc
    obtain ⟨hpay, hlow, hhigh, hbyte, hleft⟩ := h.word payloadCount ipay hpc
    refine ⟨hpay, hlow, hhigh, hbyte, ?_⟩
    show _ ≤ ((s.sfBuf.bufPut sewFifoLen tmp).items sewFifoLen).length
    rw [hitems, List.length_append]
    omega

theorem writerStep (h : s.Carries) {ev : SewEv} (hkeeps : s.Keeps (.writer ev))
    (hs : s.writerStep ev = some s') : s'.Carries := by
  obtain ⟨hput, hfault, hinterrupted⟩ := hkeeps
  have hfail : s.sent = [] → s.fail.Carries := fun hsent =>
    h.goOn (by rw [hsent]) fun _ => rfl
  unfold SewFifo.writerStep at hs
  cases hwpc : s.wpc with
  | idle =>
      rw [hwpc] at hs
      exact absurd hs nofun
  | next =>
      rw [hwpc] at hs
      simp only at hs
      split at hs
      · obtain rfl := Option.some.inj hs
        exact h.goOn (List.append_nil _) fun _ => rfl
      · split_ifs at hs with hev
        · obtain rfl := Option.some.inj hs
          exact hfail (hfault hwpc hev)
        · obtain rfl := Option.some.inj hs
          exact h.goOn rfl nofun
  | wait =>
      rw [hwpc] at hs
      simp only at hs
      cases ev with
      | interrupted =>
          obtain rfl := Option.some.inj hs
          exact hfail (hinterrupted hwpc rfl)
      | timeout =>
          simp only at hs
          split_ifs at hs
          obtain rfl := Option.some.inj hs
          exact h.goOn rfl nofun
      | go =>
          simp only at hs
          split_ifs at hs
          obtain rfl := Option.some.inj hs
          exact h.goOn rfl nofun
      | fault => exact absurd hs nofun
  | put =>
      rw [hwpc] at hs
      simp only at hs
      split at hs
      · exact absurd hs nofun
      · obtain rfl := Option.some.inj hs
        exact h.put (hput hwpc)

theorem beginWord (h : s.Carries) (hpc : s.pc = .wait) :
    Carries { s with
      xx := s.xx.setByte 0
        (UInt8.ofNat (s.moduloCount <<< 2 ||| min (s.sfBuf.bufCount sewFifoLen) 3))
      pc := .get (min (s.sfBuf.bufCount sewFifoLen) 3) 1 } := by
  have hcount : s.moduloCount < 64 := by
    rw [h.modulo]
    exact Nat.mod_lt _ (by decide)
  have hbytes := h.bytes
  rw [pending, hpc] at hbytes
  refine ⟨h.sound, hbytes, h.counts, h.modulo, h.idle, ?_⟩
  intro payloadCount ipay hget
  obtain ⟨rfl, rfl⟩ := SewPc.get.inj hget
  have hitems := h.sound.bufCount
  refine ⟨by omega, Nat.le_refl 1, by omega, EmbWord.byte0_toNat hcount (by omega), ?_⟩
  show _ ≤ (s.sfBuf.items sewFifoLen).length
  omega

theorem getByte (h : s.Carries) {payloadCount ipay : Nat} (hpc : s.pc = .get payloadCount ipay)
    (hmore : ipay ≤ payloadCount) :
    Carries { s with
      sfBuf := (s.sfBuf.bufGet sewFifoLen).2
      xx := s.xx.setByte ipay (s.sfBuf.bufGet sewFifoLen).1
      pc := .get payloadCount (ipay + 1) } := by
  obtain ⟨hpay, hlow, hhigh, hbyte, hleft⟩ := h.word payloadCount ipay hpc
  have hitems := h.sound.items_get (by omega)
  have hbytes := h.bytes
  rw [pending, hpc, hitems] at hbytes
  rw [hitems, List.length_cons] at hleft
  refine ⟨h.sound.bufGet, ?_, h.counts, h.modulo, h.idle, ?_⟩
  · show s.words.flatMap EmbWord.payload ++ (s.xx.setByte ipay _).bytes.take (ipay + 1 - 1) ++ _ = _
    rw [Nat.add_sub_cancel, EmbWord.take_setByte hlow (by omega), ← hbytes]
    simp
  · intro payloadCount' ipay' hget
    obtain ⟨rfl, rfl⟩ := SewPc.get.inj hget
    refine ⟨hpay, by omega, by omega, ?_, ?_⟩
    · rw [EmbWord.setByte_byte0 hlow]
      exact hbyte
    · show _ ≤ ((s.sfBuf.bufGet sewFifoLen).2.items sewFifoLen).length
      omega

theorem writeWord (h : s.Carries) {payloadCount ipay : Nat}
    (hpc : s.pc = .get payloadCount ipay) (hdone : ¬ipay ≤ payloadCount) {xx : EmbWord} :
    Carries { s with
      words := s.words ++ [s.xx], xx := xx, moduloCount := (s.moduloCount + 1) &&& 0x3f,
      pc := .wait } := by
  obtain ⟨hpay, hlow, hhigh, hbyte, hleft⟩ := h.word payloadCount ipay hpc
  have hpayload : s.xx.payload = s.xx.bytes.take (ipay - 1) := by
    rw [EmbWord.payload, EmbWord.payload_length hbyte hpay, show ipay - 1 = payloadCount by omega]
    rfl
  have hbytes := h.bytes
  rw [pending, hpc] at hbytes
  refine ⟨h.sound, ?_, ?_, ?_, h.idle, nofun⟩
  · show (s.words ++ [s.xx]).flatMap EmbWord.payload ++ [] ++ s.sfBuf.items sewFifoLen = _
    rw [List.flatMap_append, List.flatMap_singleton, hpayload, List.append_nil]
    exact hbytes
  · intro i xx' hxx'
    rcases Nat.lt_or_ge i s.words.length with hi | hi
    · rw [List.getElem?_append_left hi] at hxx'
      exact h.counts i xx' hxx'
    · rw [List.getElem?_append_right hi, List.getElem?_singleton] at hxx'
      split_ifs at hxx' with hi0
      obtain rfl := Option.some.inj hxx'
      rw [EmbWord.countField_eq hbyte hpay, h.modulo]
      congr 1
      omega
  · show (s.moduloCount + 1) &&& (2 ^ 6 - 1) = (s.words ++ [s.xx]).length % 64
    rw [Nat.and_two_pow_sub_one_eq_mod, h.modulo, List.length_append, List.length_singleton]
    exact Nat.mod_add_mod _ _ _

theorem step (h : s.Carries) {act : SewAct} (hkeeps : s.Keeps act) (hs : s.step act = some s') :
    s'.Carries := by
  cases act with
  | call buf =>
      simp only [SewFifo.step] at hs
      split_ifs at hs with hidle
      obtain rfl := Option.some.inj hs
      exact h.goOn rfl nofun
  | writer ev => exact h.writerStep hkeeps hs
  | work =>
      simp only [SewFifo.step, workStep] at hs
      split at hs
      · rename_i hpc
        obtain rfl := Option.some.inj hs
        exact h.beginWord hpc
      · rename_i payloadCount ipay hpc
        split_ifs at hs with hmore
        · obtain rfl := Option.some.inj hs
          exact h.getByte hpc hmore
        · obtain rfl := Option.some.inj hs
          exact h.writeWord hpc hmore
      · exact absurd hs nofun
  | stop =>
      simp only [SewFifo.step] at hs
      split_ifs at hs with hpc
      obtain rfl := Option.some.inj hs
      have hbytes := h.bytes
      rw [pending, hpc] at hbytes
      exact ⟨h.sound, hbytes, h.counts, h.modulo, h.idle, nofun⟩

end Carries

theorem carries_init (buf : Nat → UInt8) : (init buf).Carries := by
  have hends : Ring.Ends sewFifoLen 0 0 := ⟨⟨12, rfl⟩, by decide, by decide⟩
  have hempty : (⟨buf, 0, 0⟩ : CircBuf).items sewFifoLen = [] :=
    CircBuf.Sound.items_eq_nil hends rfl
  refine ⟨hends, ?_, nofun, rfl, fun _ => rfl, nofun⟩
  show [] ++ [] ++ (⟨buf, 0, 0⟩ : CircBuf).items sewFifoLen = [] ++ []
  rw [hempty]
  rfl

/--
**Whatever the turns of the writer and the worker, the words carry the bytes that were reported as
written, and count.**
-/
theorem sewFifo_embeds (buf : Nat → UInt8) (acts : List SewAct) (s : SewFifo)
    (hkeeps : Lts.Meets step Keeps (init buf) acts)
    (hrun : Lts.run step (init buf) acts = some s) : s.Embeds := by
  refine Carries.embeds ?_
  refine Lts.run_invariant_of Carries ?_ acts _ s (carries_init buf) hkeeps hrun
  intro t act t' ht hact hstep
  exact ht.step hact hstep

/-- Four bytes go out in two words. -/
def fourBytes : List SewAct :=
  .call [1, 2, 3, 4] :: List.replicate 13 (.writer .go) ++ List.replicate 8 .work

theorem sewFifo_embeds_four :
    ∃ s, Lts.run step (init fun _ => 0) fourBytes = some s ∧ s.reported = [1, 2, 3, 4] ∧
      s.words = [⟨3, 1, 2, 3⟩, ⟨5, 4, 32, 32⟩] ∧ s.Embeds := by
  obtain ⟨s, hrun, hs⟩ := Lts.exists_of_any step (init fun _ => 0) fourBytes
    (fun s => s.reported == [1, 2, 3, 4] && s.words == [⟨3, 1, 2, 3⟩, ⟨5, 4, 32, 32⟩])
    (by decide)
  have hkeeps : Lts.Meets step Keeps (init fun _ => 0) fourBytes := by decide
  rw [Bool.and_eq_true, beq_iff_eq, beq_iff_eq] at hs
  exact ⟨s, hrun, hs.1, hs.2, sewFifo_embeds _ fourBytes s hkeeps hrun⟩

/-! ### A wait that times out -/

/-- The put of byte `n`: the wait for the last one times out. -/
def filling (n : Nat) : List SewAct :=
  [.writer .go, .writer (if n = 4095 then .timeout else .go), .writer .go]

/-- A call of 4096 bytes, of which `n` are put while the worker does nothing. -/
def fill (n : Nat) : List SewAct :=
  .call (List.replicate 4096 0) :: (List.range n).flatMap filling

/-- A writer that has put `n` bytes of 4096, and a worker that does nothing. -/
structure Filled (n : Nat) (s : SewFifo) : Prop where
  wpc : s.wpc = .next
  head : s.sfBuf.head = n % sewFifoLen
  tail : s.sfBuf.tail = 0
  buf : s.buf = List.replicate (4096 - n) 0
  sent : s.sent = List.replicate n 0
  words : s.words = []
  reported : s.reported = []
  pc : s.pc = .wait

namespace Filled

variable {n : Nat} {s : SewFifo}

theorem sound (h : Filled n s) : s.sfBuf.Sound sewFifoLen := by
  refine ⟨⟨12, rfl⟩, ?_, ?_⟩
  · rw [h.head]
    exact Nat.mod_lt _ (by decide)
  · rw [h.tail]
    decide

theorem bufSpace (h : Filled n s) (hn : n < 4096) :
    s.sfBuf.bufSpace sewFifoLen = 4095 - n := by
  rw [CircBuf.bufSpace, circCnt, h.head, h.tail, sewFifoLen]
  omega

/-- The put makes no difference between a ring with room and a full one. -/
theorem put (h : Filled n s) (hn : n < 4096) :
    ∃ s', Lts.run step s (filling n) = some s' ∧ Filled (n + 1) s' := by
  have hspace := h.bufSpace hn
  have hbuf : s.buf = 0 :: List.replicate (4096 - (n + 1)) 0 := by
    rw [h.buf, show 4096 - n = 4096 - (n + 1) + 1 by omega]
    rfl
  refine ⟨{ s with
    sfBuf := s.sfBuf.bufPut sewFifoLen 0, buf := List.replicate (4096 - (n + 1)) 0,
    sent := s.sent ++ [0] }, ?_, ?_⟩
  · by_cases hlast : n = 4095
    · have hfull : s.sfBuf.bufSpace sewFifoLen = 0 := by omega
      simp [filling, step, writerStep, h.wpc, hbuf, hfull, hlast]
    · have hfull : ¬s.sfBuf.bufSpace sewFifoLen = 0 := by omega
      simp [filling, step, writerStep, h.wpc, hbuf, hfull, hlast]
  · refine ⟨h.wpc, ?_, h.tail, rfl, ?_, h.words, h.reported, h.pc⟩
    · show CircBuf.bufIncr s.sfBuf.head sewFifoLen = (n + 1) % sewFifoLen
      rw [CircBuf.bufIncr, h.head]
      exact (Nat.and_two_pow_sub_one_eq_mod (n % sewFifoLen + 1) 12).trans (Nat.mod_add_mod n _ 1)
    · show s.sent ++ [0] = List.replicate (n + 1) 0
      rw [h.sent, List.replicate_succ']

end Filled

theorem fill_run (n : Nat) (hn : n ≤ 4096) :
    ∃ s, Lts.run step (init fun _ => 0) (fill n) = some s ∧ Filled n s := by
  induction n with
  | zero => exact ⟨_, rfl, rfl, rfl, rfl, rfl, rfl, rfl, rfl, rfl⟩
  | succ n ih =>
      obtain ⟨s, hrun, hs⟩ := ih (by omega)
      obtain ⟨s', hrun', hs'⟩ := hs.put (by omega)
      refine ⟨s', ?_, hs'⟩
      rw [fill, List.range_succ, List.flatMap_append, List.flatMap_singleton, ← List.cons_append,
        ← fill, Lts.run_append, hrun]
      exact hrun'

/-- The byte that is put after a wait of 100 ms makes the ring empty again. -/
theorem sewFifo_overfills :
    ∃ s, Lts.run step (init fun _ => 0) (fill 4096) = some s ∧
      s.sent = List.replicate 4096 0 ∧ s.words = [] ∧ s.sfBuf.items sewFifoLen = [] ∧
      ¬s.Embeds := by
  obtain ⟨s, hrun, h⟩ := fill_run 4096 (Nat.le_refl _)
  have hempty := h.sound.items_eq_nil (h.head.trans h.tail.symm)
  refine ⟨s, hrun, h.sent, h.words, hempty, ?_⟩
  intro hembeds
  have hpending : s.pending = [] := by
    rw [pending, h.pc]
  have hbytes := hembeds.bytes
  rw [h.words, hpending, hempty, h.reported, h.sent] at hbytes
  have hlength := congrArg List.length hbytes
  rw [List.nil_append, List.length_replicate] at hlength
  exact absurd hlength (by decide)

end SewFifo

end Acq400
