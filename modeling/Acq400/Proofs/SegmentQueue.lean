/-
Every segment letter is applied once, in order, and answered once.

`Applies` is what holds in every state, and `room` is what the writer knows of the free
cells while it copies: an update only makes more.  Two turns can break it.  Nothing looks
for room on the queue of replies, and a wait that is interrupted empties the other one.
`Keeps` is where neither does harm.
-/
import Acq400.Awg.SegmentQueue
import Acq400.Driver.Rings

namespace Acq400

namespace AwgAbcde

/-- What becomes of the letters that are written with `seg` active to begin with. -/
structure Applies (seg : UInt8) (s : AwgAbcde) : Prop where
  /-- The valid ones are applied in their order, or still wait in the queue. -/
  letters : s.copied.filter (validAbcde s.maxSeg) = s.applied ++ s.newQueue.items awgAbcdeLen
  /-- Every one that is applied is answered with the segment before it. -/
  replies : s.replies ++ [s.awgSeg] = seg :: s.applied
  /-- The replies have been read in their order, or are still to be. -/
  reads : s.reads ++ s.retQueue.items awgAbcdeLen = s.replies
  offset : s.distributorSegmentOffset = (s.awgSeg.toNat : Int) - codeA.toNat

/-- A turn that loses nothing: the queue of replies has room for the one that it puts there,
and an interrupted wait finds the queue empty that it empties. -/
def Keeps (s : AwgAbcde) : AbcdeAct → Prop
  | .update => s.newQueue.bufCount awgAbcdeLen ≠ 0 → 0 < s.retQueue.bufSpace awgAbcdeLen
  | .writing interrupted =>
    s.pc = .wait → interrupted = true → s.newQueue.bufCount awgAbcdeLen = 0
  | _ => True

instance (s : AwgAbcde) : (act : AbcdeAct) → Decidable (s.Keeps act)
  | .update => inferInstanceAs (Decidable (_ → _))
  | .writing _ => inferInstanceAs (Decidable (_ → _ → _))
  | .write _ | .read => inferInstanceAs (Decidable True)

/-- How many letters the writer has seen room for. -/
def headroom : WritePc → Nat
  | .copy headroom => headroom
  | _ => 0

/-- What every turn keeps. -/
structure Serves (seg : UInt8) (s : AwgAbcde) : Prop where
  new : s.newQueue.Sound awgAbcdeLen
  ret : s.retQueue.Sound awgAbcdeLen
  applies : s.Applies seg
  room : headroom s.pc + (s.newQueue.items awgAbcdeLen).length < awgAbcdeLen

namespace Serves

variable {seg : UInt8} {s s' : AwgAbcde}

theorem goOn (h : s.Serves seg) {pc : WritePc} {buf : List UInt8}
    (hroom : headroom pc + (s.newQueue.items awgAbcdeLen).length < awgAbcdeLen) :
    Serves seg { s with pc := pc, buf := buf } where
  new := h.new
  ret := h.ret
  applies := ⟨h.applies.letters, h.applies.replies, h.applies.reads, h.applies.offset⟩
  room := hroom

theorem copy (h : s.Serves seg) {left : Nat} (hpc : s.pc = .copy (left + 1)) {lbuf : UInt8}
    {rest : List UInt8} :
    Serves seg { s.copyLetter lbuf with buf := rest, pc := .copy left } := by
  have hroom := h.room
  rw [hpc] at hroom
  simp only [headroom] at hroom
  by_cases hvalid : validAbcde s.maxSeg lbuf = true
  · have hitems := h.new.items_put (by omega) lbuf
    simp only [copyLetter, hvalid, if_true]
    refine ⟨h.new.bufPut lbuf, h.ret, ⟨?_, h.applies.replies, h.applies.reads,
      h.applies.offset⟩, ?_⟩
    · show (s.copied ++ [lbuf]).filter _ = s.applied ++ (s.newQueue.bufPut _ lbuf).items _
      rw [hitems, List.filter_append, h.applies.letters, List.append_assoc]
      simp [hvalid]
    · show left + ((s.newQueue.bufPut _ lbuf).items _).length < awgAbcdeLen
      rw [hitems, List.length_append, List.length_singleton]
      omega
  · simp only [copyLetter, hvalid, if_false, Bool.false_eq_true]
    refine ⟨h.new, h.ret, ⟨?_, h.applies.replies, h.applies.reads, h.applies.offset⟩, ?_⟩
    · show (s.copied ++ [lbuf]).filter _ = s.applied ++ s.newQueue.items _
      rw [List.filter_append, h.applies.letters]
      simp [hvalid]
    · show left + (s.newQueue.items _).length < awgAbcdeLen
      omega

theorem flush (h : s.Serves seg) (hnone : s.newQueue.items awgAbcdeLen = []) :
    Serves seg { s with newQueue := s.newQueue.initCbEmpty, buf := [], pc := .idle } := by
  have hflush : s.newQueue.initCbEmpty.items awgAbcdeLen = [] :=
    h.new.initCbEmpty.items_eq_nil rfl
  refine ⟨h.new.initCbEmpty, h.ret, ⟨?_, h.applies.replies, h.applies.reads,
    h.applies.offset⟩, ?_⟩
  · show s.copied.filter _ = s.applied ++ s.newQueue.initCbEmpty.items awgAbcdeLen
    rw [hflush, ← hnone]
    exact h.applies.letters
  · show 0 + (s.newQueue.initCbEmpty.items awgAbcdeLen).length < awgAbcdeLen
    rw [hflush]
    decide

theorem writeStep (h : s.Serves seg) {interrupted : Bool}
    (hkeeps : s.Keeps (.writing interrupted)) (hs : s.writeStep interrupted = some s') :
    s'.Serves seg := by
  have hroom := h.room
  have hspace := h.new.bufSpace
  have hidle : 0 + (s.newQueue.items awgAbcdeLen).length < awgAbcdeLen := by omega
  unfold AwgAbcde.writeStep at hs
  cases hpc : s.pc with
  | idle =>
      rw [hpc] at hs
      exact absurd hs nofun
  | top =>
      rw [hpc] at hs
      simp only at hs
      split at hs
      · obtain rfl := Option.some.inj hs
        exact h.goOn hidle
      · obtain rfl := Option.some.inj hs
        refine h.goOn ?_
        simp only [headroom]
        omega
  | copy left =>
      rw [hpc] at hs
      cases left with
      | zero =>
          simp only at hs
          split at hs
          · obtain rfl := Option.some.inj hs
            exact h.goOn hidle
          · obtain rfl := Option.some.inj hs
            exact h.goOn hidle
      | succ left =>
          simp only at hs
          split at hs
          · exact absurd hs nofun
          · obtain rfl := Option.some.inj hs
            exact h.copy hpc
  | wait =>
      rw [hpc] at hs
      simp only at hs
      split at hs
      · rename_i hinterrupted
        obtain rfl := Option.some.inj hs
        have hcount := hkeeps hpc hinterrupted
        rw [h.new.bufCount] at hcount
        exact h.flush (List.length_eq_zero_iff.mp hcount)
      · split at hs
        · obtain rfl := Option.some.inj hs
          exact h.goOn hidle
        · exact absurd hs nofun

theorem read (h : s.Serves seg) (hsome : s.retQueue.bufCount awgAbcdeLen ≠ 0) :
    Serves seg { s with
      retQueue := (s.retQueue.bufGet awgAbcdeLen).2
      reads := s.reads ++ [(s.retQueue.bufGet awgAbcdeLen).1] } := by
  rw [h.ret.bufCount] at hsome
  have hitems := h.ret.items_get (Nat.pos_of_ne_zero hsome)
  refine ⟨h.new, h.ret.bufGet, ⟨h.applies.letters, h.applies.replies, ?_, h.applies.offset⟩,
    h.room⟩
  show s.reads ++ [_] ++ (s.retQueue.bufGet awgAbcdeLen).2.items awgAbcdeLen = s.replies
  rw [← h.applies.reads, hitems, List.append_assoc]
  rfl

theorem apply (h : s.Serves seg) (hsome : 0 < (s.newQueue.items awgAbcdeLen).length)
    (hroom : (s.retQueue.items awgAbcdeLen).length + 1 < awgAbcdeLen) :
    s._updateAbcdeStatus.Serves seg := by
  have hitems := h.new.items_get hsome
  have hret := h.ret.items_put hroom s.awgSeg
  have hletters := h.applies.letters
  rw [hitems] at hletters
  have hvalid : validAbcde s.maxSeg (s.newQueue.bufGet awgAbcdeLen).1 = true := by
    have hmem : (s.newQueue.bufGet awgAbcdeLen).1 ∈ s.copied.filter (validAbcde s.maxSeg) := by
      rw [hletters]
      simp
    exact (List.mem_filter.mp hmem).2
  simp only [_updateAbcdeStatus, hvalid, if_true]
  refine ⟨h.new.bufGet, h.ret.bufPut _, ⟨?_, ?_, ?_, rfl⟩, ?_⟩
  · rw [hletters]
    simp
  · show s.replies ++ [s.awgSeg] ++ [_] = seg :: (s.applied ++ [_])
    rw [h.applies.replies]
    rfl
  · show s.reads ++ (s.retQueue.bufPut awgAbcdeLen s.awgSeg).items awgAbcdeLen =
      s.replies ++ [s.awgSeg]
    rw [hret, ← List.append_assoc, h.applies.reads]
  · have hwriter := h.room
    rw [hitems, List.length_cons] at hwriter
    show headroom s.pc + ((s.newQueue.bufGet awgAbcdeLen).2.items awgAbcdeLen).length < _
    omega

theorem step (h : s.Serves seg) {act : AbcdeAct} (hkeeps : s.Keeps act)
    (hs : s.step act = some s') : s'.Serves seg := by
  cases act with
  | write buf =>
      simp only [AwgAbcde.step] at hs
      split_ifs at hs with hpc
      obtain rfl := Option.some.inj hs
      refine h.goOn ?_
      have hroom := h.room
      rw [hpc] at hroom
      exact hroom
  | writing interrupted => exact h.writeStep hkeeps hs
  | read =>
      simp only [AwgAbcde.step] at hs
      split_ifs at hs with hsome
      obtain rfl := Option.some.inj hs
      exact h.read hsome
  | update =>
      obtain rfl := Option.some.inj hs
      unfold updateAbcdeStatus
      split_ifs with hnew
      · have hspace := hkeeps hnew
        rw [h.new.bufCount] at hnew
        rw [h.ret.bufSpace] at hspace
        exact h.apply (Nat.pos_of_ne_zero hnew) (by omega)
      · exact h

end Serves

theorem serves_opened (maxSeg seg : UInt8) (newBuf retBuf : Nat → UInt8) :
    (opened maxSeg seg newBuf retBuf).Serves seg := by
  have hends : Ring.Ends awgAbcdeLen 0 0 := ⟨⟨12, rfl⟩, by decide, by decide⟩
  have hempty : ∀ buf : Nat → UInt8, (⟨buf, 0, 0⟩ : CircBuf).items awgAbcdeLen = [] :=
    fun buf => CircBuf.Sound.items_eq_nil hends rfl
  refine ⟨hends, hends, ⟨?_, rfl, ?_, rfl⟩, ?_⟩
  · show [] = [] ++ (⟨newBuf, 0, 0⟩ : CircBuf).items awgAbcdeLen
    rw [hempty, List.append_nil]
  · show [] ++ (⟨retBuf, 0, 0⟩ : CircBuf).items awgAbcdeLen = []
    rw [hempty, List.append_nil]
  · show 0 + ((⟨newBuf, 0, 0⟩ : CircBuf).items awgAbcdeLen).length < awgAbcdeLen
    rw [hempty]
    decide

/--
**Whatever the turns of the writer, the reader and the driver, the valid letters are applied once
and in order, each with the segment before it for a reply.**
-/
theorem awgAbcde_applies (maxSeg seg : UInt8) (newBuf retBuf : Nat → UInt8)
    (acts : List AbcdeAct) (s : AwgAbcde)
    (hkeeps : Lts.Meets step Keeps (opened maxSeg seg newBuf retBuf) acts)
    (hrun : Lts.run step (opened maxSeg seg newBuf retBuf) acts = some s) : s.Applies seg := by
  have hstart := serves_opened maxSeg seg newBuf retBuf
  refine Serves.applies ?_
  refine Lts.run_invariant_of (Serves seg) ?_ acts _ s hstart hkeeps hrun
  intro t act t' ht hact hstep
  exact ht.step hact hstep

/-- Three bytes are written, of which one is no letter, and two are applied. -/
def threeBytes : List AbcdeAct :=
  [.write [67, 33, 66], .writing false, .writing false, .writing false, .update, .read,
    .writing false, .update, .writing false]

theorem awgAbcde_applies_three :
    ∃ s, Lts.run step (opened 69 65 (fun _ => 0) fun _ => 0) threeBytes = some s ∧
      s.applied = [67, 66] ∧ s.reads = [65] ∧ s.Applies 65 := by
  obtain ⟨s, hrun, hs⟩ := Lts.exists_of_any step (opened 69 65 (fun _ => 0) fun _ => 0) threeBytes
    (fun s => s.applied == [67, 66] && s.reads == [65]) (by decide)
  have hkeeps : Lts.Meets step Keeps (opened 69 65 (fun _ => 0) fun _ => 0) threeBytes := by
    decide
  rw [Bool.and_eq_true, beq_iff_eq, beq_iff_eq] at hs
  exact ⟨s, hrun, hs.1, hs.2, awgAbcde_applies 69 65 _ _ threeBytes s hkeeps hrun⟩

/-! ### Replies that are not read -/

/-- A letter is written and applied, and nobody reads the reply. -/
def unread : List AbcdeAct :=
  [.write [66], .writing false, .writing false, .writing false, .update]

/-- The queue of replies after so many of them, with nothing read. -/
structure Unread (n : Nat) (s : AwgAbcde) : Prop where
  pc : s.pc = .idle
  maxSeg : s.maxSeg = 69
  newEnds : s.newQueue.Sound awgAbcdeLen
  new : s.newQueue.head = s.newQueue.tail
  retHead : s.retQueue.head = n % awgAbcdeLen
  retTail : s.retQueue.tail = 0
  replies : s.replies.length = n
  reads : s.reads = []

theorem Unread.next {n : Nat} {s : AwgAbcde} (h : Unread n s) :
    ∃ s', Lts.run step s unread = some s' ∧ Unread (n + 1) s' := by
  have hempty := h.newEnds.items_eq_nil h.new
  have hlen : (s.newQueue.items awgAbcdeLen).length + 1 < awgAbcdeLen := by
    rw [hempty]
    decide
  have hspace : s.newQueue.bufSpace awgAbcdeLen = 4095 := by
    rw [h.newEnds.bufSpace, hempty]
    rfl
  have hput := h.newEnds.items_put hlen 66
  have hends := h.newEnds.bufPut 66
  have hcount : (s.newQueue.bufPut awgAbcdeLen 66).bufCount awgAbcdeLen ≠ 0 := by
    rw [hends.bufCount, hput, hempty]
    decide
  have hgot : ((s.newQueue.bufPut awgAbcdeLen 66).bufGet awgAbcdeLen).1 = 66 := by
    have hitems := hends.items_get (by rw [hput, hempty]; decide)
    rw [hput, hempty] at hitems
    exact (List.cons.inj hitems).1.symm
  have hvalid : validAbcde s.maxSeg 66 = true := by
    rw [h.maxSeg]
    decide
  have hrun : Lts.run step s unread = some
      ({ s.copyLetter 66 with buf := [], pc := .idle } : AwgAbcde)._updateAbcdeStatus := by
    simp [unread, step, writeStep, h.pc, hspace, copyLetter, hvalid, updateAbcdeStatus, hcount]
  refine ⟨_, hrun, ?_⟩
  simp only [_updateAbcdeStatus, copyLetter, hvalid, if_true, hgot]
  have hret : CircBuf.bufIncr s.retQueue.head awgAbcdeLen = (n + 1) % awgAbcdeLen := by
    rw [CircBuf.bufIncr, h.retHead]
    exact (Nat.and_two_pow_sub_one_eq_mod (n % awgAbcdeLen + 1) 12).trans (Nat.mod_add_mod n _ 1)
  refine ⟨rfl, h.maxSeg, hends.bufGet, ?_, hret, h.retTail, ?_, h.reads⟩
  · show CircBuf.bufIncr s.newQueue.head _ = CircBuf.bufIncr s.newQueue.tail _
    rw [h.new]
  · show (s.replies ++ [s.awgSeg]).length = n + 1
    rw [List.length_append, h.replies]
    rfl

theorem unread_run (n : Nat) : ∃ s, Lts.run step (opened 69 65 (fun _ => 0) fun _ => 0)
    (List.replicate n unread).flatten = some s ∧ Unread n s := by
  induction n with
  | zero =>
      have hends : Ring.Ends awgAbcdeLen 0 0 := ⟨⟨12, rfl⟩, by decide, by decide⟩
      exact ⟨_, rfl, rfl, rfl, hends, rfl, rfl, rfl, rfl, rfl⟩
  | succ n ih =>
      obtain ⟨s, hrun, hs⟩ := ih
      obtain ⟨s', hrun', hs'⟩ := hs.next
      refine ⟨s', ?_, hs'⟩
      rw [List.replicate_succ', List.flatten_append, Lts.run_append, hrun, List.flatten_singleton]
      exact hrun'

/-- With 4096 replies that are not read the queue of them is empty again. -/
theorem awgAbcde_loses_replies :
    ∃ s, Lts.run step (opened 69 65 (fun _ => 0) fun _ => 0)
        (List.replicate 4096 unread).flatten = some s ∧
      s.replies.length = 4096 ∧ s.reads = [] ∧ s.retQueue.items awgAbcdeLen = [] ∧
      ¬s.Applies 65 := by
  obtain ⟨s, hrun, h⟩ := unread_run 4096
  have hends : s.retQueue.Sound awgAbcdeLen := by
    refine ⟨⟨12, rfl⟩, ?_, ?_⟩
    · rw [h.retHead]
      decide
    · rw [h.retTail]
      decide
  have hempty := hends.items_eq_nil (h.retHead.trans h.retTail.symm)
  refine ⟨s, hrun, h.replies, h.reads, hempty, ?_⟩
  intro happlies
  have hreads := happlies.reads
  rw [h.reads, hempty] at hreads
  have hlength := h.replies
  rw [← hreads] at hlength
  exact absurd hlength (by decide)

end AwgAbcde

end Acq400
