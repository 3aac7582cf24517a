/-
Which messages a filter of ids accepts.

The id of a message is a C string in sixteen bytes, the last of which is the receivers' mask.  An
id of less than fifteen characters ends before that.  One of fifteen ends there if the mask is 0;
otherwise the mask is its sixteenth character, and a string of the lists is taken for it if it
begins with those sixteen.
-/
import Acq400.Proofs.WrtdTS
import Acq400.Wrtd.Message
import Mathlib.Data.List.Infix
import Mathlib.Data.List.TakeWhile

namespace Acq400.Wrtd

/-- The C string that bytes begin with. -/
def cString (bytes : List UInt8) : List UInt8 := bytes.takeWhile (· ≠ 0)

@[simp] theorem cString_nil : cString [] = [] := rfl

@[simp] theorem cString_zero (bytes : List UInt8) : cString (0 :: bytes) = [] :=
  List.takeWhile_cons_of_neg (by decide)

theorem cString_cons {b : UInt8} (hb : b ≠ 0) (bytes : List UInt8) :
    cString (b :: bytes) = b :: cString bytes :=
  List.takeWhile_cons_of_pos (by simpa using hb)

theorem toNat_sub_ne_zero {a b : UInt8} (h : a ≠ b) : (a.toNat : Int) - b.toNat ≠ 0 := by
  intro heq
  exact h (UInt8.toNat_inj.mp (by omega))

theorem strncmp_eq_zero_iff :
    ∀ (n : Nat) (ss bytes : List UInt8), 0 ∉ ss →
      (strncmp n ss bytes = 0 ↔ ss.take n = (cString bytes).take n) := by
  intro n
  induction n with
  | zero =>
      intro ss bytes _
      rw [List.take_zero, List.take_zero]
      exact iff_of_true rfl rfl
  | succ n ih =>
      intro ss bytes hss
      unfold strncmp
      cases ss with
      | nil =>
          cases bytes with
          | nil => exact iff_of_true rfl rfl
          | cons b bytes =>
              by_cases hb : b = 0
              · subst hb
                rw [cString_zero]
                exact iff_of_true rfl rfl
              · rw [cString_cons hb]
                dsimp only [List.headD_nil, List.headD_cons]
                rw [if_pos (Ne.symm hb)]
                exact iff_of_false (toNat_sub_ne_zero (Ne.symm hb)) (by simp)
      | cons a ss =>
          have ha : a ≠ 0 := fun h => hss (h ▸ List.mem_cons_self)
          have hrest : 0 ∉ ss := fun h => hss (List.mem_cons_of_mem a h)
          cases bytes with
          | nil =>
              dsimp only [List.headD_nil, List.headD_cons]
              rw [if_pos ha]
              exact iff_of_false (toNat_sub_ne_zero ha) (by simp)
          | cons b bytes =>
              dsimp only [List.headD_cons, List.tail_cons]
              by_cases hab : a = b
              · subst hab
                rw [if_neg (not_not_intro rfl), if_neg ha, ih ss bytes hrest, cString_cons ha,
                  List.take_succ_cons, List.take_succ_cons, List.cons.injEq]
                exact (and_iff_right rfl).symm
              · rw [if_pos hab]
                refine iff_of_false (toNat_sub_ne_zero hab) ?_
                by_cases hb : b = 0
                · subst hb
                  simp
                · rw [cString_cons hb]
                  simp [hab]

/-! ### The id in a message -/

namespace WrtdCaster

variable {g : G} {txId : CString} {mask : UInt8}

theorem imask_lt : (imask : Nat) < wrtdIdLen := imask.isLt

/-- The id, and the mask at its place. -/
def built (txId : CString) (mask : UInt8) : Vector UInt8 wrtdIdLen :=
  (strncpy (wrtdIdLen - 1) txId.chars).set imask mask imask_lt

theorem eventId_run (seq : Nat) (isForUs : WrtdMessage → Bool) (sends : List Send) (last : Send)
    (c : WrtdCaster)
    (h : Lts.run (send g) (ofTxId seq isForUs txId) (sends ++ [last]) = some c) :
    c.msg.eventId = built txId last.mask := by
  have hstep : ∀ (s : WrtdCaster) (a : Send) (s' : WrtdCaster), send g s a = some s' →
      s'.msg.eventId = s.msg.eventId.set imask a.mask := by
    intro s a s' hs
    cases a with
    | raw txMask raw =>
        obtain rfl := Option.some.inj hs
        rfl
    | stamp ts =>
        unfold send sendto at hs
        obtain ⟨ns, -, rfl⟩ := Option.map_eq_some_iff.mp hs
        rfl
  have hinv : ∀ (s : WrtdCaster) (a : Send) (s' : WrtdCaster),
      (∀ m, s.msg.eventId.set imask m = built txId m) → send g s a = some s' →
      ∀ m, s'.msg.eventId.set imask m = built txId m := by
    intro s a s' hs ha m
    rw [hstep s a s' ha, Vector.set_set, hs m]
  rw [Lts.run_append] at h
  obtain ⟨s, hs, hlast⟩ := Option.bind_eq_some_iff.mp h
  rw [Lts.run_cons] at hlast
  obtain ⟨t, ht, htc⟩ := Option.bind_eq_some_iff.mp hlast
  obtain rfl := Option.some.inj htc
  rw [hstep s last t ht]
  have hstart : ∀ m, (ofTxId seq isForUs txId).msg.eventId.set imask m = built txId m := by
    intro m
    rfl
  exact Lts.run_invariant (fun s => ∀ m, s.msg.eventId.set imask m = built txId m) hinv sends _ s
    hstart hs last.mask

theorem toList_built (hlen : txId.chars.length ≤ wrtdIdLen - 1) :
    (built txId mask).toList =
      txId.chars ++ List.replicate (wrtdIdLen - 1 - txId.chars.length) 0 ++ [mask] := by
  have h16 : wrtdIdLen = 16 := rfl
  have hmask : (imask : Nat) = 15 := rfl
  have hpad : (txId.chars ++
      List.replicate (wrtdIdLen - 1 - txId.chars.length) (0 : UInt8)).length = 15 := by
    rw [List.length_append, List.length_replicate]
    omega
  refine List.ext_getElem ?_ ?_
  · rw [Vector.length_toList, List.length_append, hpad, List.length_singleton, h16]
  · intro i hi hi'
    rw [Vector.length_toList] at hi
    rw [Vector.getElem_toList]
    unfold built strncpy
    rw [Vector.getElem_set]
    by_cases hlast : (imask : Nat) = i
    · rw [if_pos hlast, List.getElem_append_right (by omega), List.getElem_singleton]
    · have hin : i < wrtdIdLen - 1 := by omega
      rw [if_neg hlast, Vector.getElem_ofFn, if_pos hin, List.getElem_append_left (by omega)]
      by_cases hid : i < txId.chars.length
      · rw [List.getElem_append_left hid, List.getD_eq_getElem _ _ hid]
      · rw [List.getElem_append_right (by omega), List.getElem_replicate,
          List.getD_eq_default _ _ (Nat.le_of_not_lt hid)]

theorem cString_built (hlen : txId.chars.length ≤ wrtdIdLen - 1) :
    cString (built txId mask).toList =
      if txId.chars.length = wrtdIdLen - 1 ∧ mask ≠ 0 then txId.chars ++ [mask]
      else txId.chars := by
  have hid : ∀ c ∈ txId.chars, (decide (c ≠ 0)) = true := by
    intro c hc
    exact decide_eq_true fun h => txId.terminated (h ▸ hc)
  unfold cString
  rw [toList_built hlen, List.append_assoc, List.takeWhile_append_of_pos hid]
  by_cases hfull : txId.chars.length = wrtdIdLen - 1
  · rw [hfull, Nat.sub_self, List.replicate_zero, List.nil_append]
    by_cases hmask : mask = 0
    · subst hmask
      rw [if_neg fun h => h.2 rfl, List.takeWhile_cons_of_neg (by decide), List.append_nil]
    · rw [if_pos ⟨rfl, hmask⟩, List.takeWhile_cons_of_pos (by simpa using hmask),
        List.takeWhile_nil]
  · obtain ⟨k, hk⟩ : ∃ k, wrtdIdLen - 1 - txId.chars.length = k + 1 :=
      ⟨wrtdIdLen - 1 - txId.chars.length - 1, by omega⟩
    rw [hk, List.replicate_succ, List.cons_append, List.takeWhile_cons_of_neg (by decide),
      List.append_nil, if_neg fun h => hfull h.1]

end WrtdCaster

/-! ### The filter -/

namespace MultipleMatchFilter

open WrtdCaster

variable {f : MultipleMatchFilter} {txId : CString} {mask : UInt8} {msg : WrtdMessage} {trg : Nat}

/-- The strings of the lists are C strings. -/
def Terminated (f : MultipleMatchFilter) : Prop := ∀ vs ∈ f.lists, ∀ ss ∈ vs, 0 ∉ ss

theorem mem_split2 {delim c : UInt8} :
    ∀ {str token : List UInt8}, token ∈ split2 delim str → c ∈ token → c ∈ str := by
  intro str
  induction str with
  | nil =>
      intro token h _
      exact absurd h List.not_mem_nil
  | cons d str ih =>
      intro token h hc
      unfold split2 at h
      by_cases hd : d = delim
      · rw [if_pos hd] at h
        rcases List.mem_cons.mp h with rfl | h
        · exact absurd hc List.not_mem_nil
        · exact List.mem_cons_of_mem d (ih h hc)
      · rw [if_neg hd] at h
        cases hsplit : split2 delim str with
        | nil =>
            rw [hsplit] at h
            obtain rfl := List.mem_singleton.mp h
            obtain rfl := List.mem_singleton.mp hc
            exact List.mem_cons_self
        | cons first tokens =>
            rw [hsplit] at h ih
            rcases List.mem_cons.mp h with rfl | h
            · rcases List.mem_cons.mp hc with rfl | hc
              · exact List.mem_cons_self
              · exact List.mem_cons_of_mem d (ih List.mem_cons_self hc)
            · exact List.mem_cons_of_mem d (ih (List.mem_cons_of_mem first h) hc)

theorem ofMatches_terminated (m0 m1 m2 : Option CString) : (ofMatches m0 m1 m2).Terminated := by
  have hmatch : ∀ (mx : Option CString), ∀ ss ∈ mx.elim [] fun mx => split2 comma mx.chars,
      0 ∉ ss := by
    intro mx ss hss
    cases mx with
    | none => exact absurd hss List.not_mem_nil
    | some mx => exact fun h => mx.terminated (mem_split2 hss h)
  intro vs hvs
  have hlists : vs ∈ [m0, m1, m2].map fun mx =>
      mx.elim [] fun mx => split2 comma mx.chars := hvs
  obtain ⟨mx, -, rfl⟩ := List.mem_map.mp hlists
  exact hmatch mx

/-- What the filter is to make of a message with the id. -/
structure FilterRight (f : MultipleMatchFilter) (txId : CString) (trg : Nat) (msg : WrtdMessage) :
    Prop where
  /-- It accepts it if the id is one of the strings. -/
  accepts : (f.accept trg msg).1 = true ↔ ∃ vs ∈ f.lists, txId.chars ∈ vs
  /-- `G::trg` is then the first list that has it. -/
  first : (f.accept trg msg).1 = true →
    f.lists.findIdx? (fun vs => vs.contains txId.chars) = some (f.accept trg msg).2

theorem filterRight_iff : FilterRight f txId trg msg ↔
    f.lists.findIdx? (hits msg) = f.lists.findIdx? fun vs => vs.contains txId.chars := by
  have hlisted : (f.lists.findIdx? fun vs => vs.contains txId.chars).isSome = true ↔
      ∃ vs ∈ f.lists, txId.chars ∈ vs := by
    simp
  constructor
  · intro h
    have haccepts := h.accepts
    have hfirst := h.first
    rw [← hlisted] at haccepts
    unfold accept at haccepts hfirst
    cases hhits : f.lists.findIdx? (hits msg) with
    | none =>
        rw [hhits] at haccepts
        cases hidx : f.lists.findIdx? fun vs => vs.contains txId.chars with
        | none => rfl
        | some ii =>
            rw [hidx] at haccepts
            exact absurd (haccepts.mpr rfl) Bool.false_ne_true
    | some ii =>
        rw [hhits] at hfirst
        exact (hfirst rfl).symm
  · intro h
    refine ⟨?_, ?_⟩
    · rw [← hlisted, ← h]
      unfold accept
      cases f.lists.findIdx? (hits msg) with
      | none => simp
      | some ii => simp
    · rw [← h]
      unfold accept
      cases f.lists.findIdx? (hits msg) with
      | none => simp
      | some ii => simp

theorem findIdx_agree {lists : List (List (List UInt8))} {p q : List (List UInt8) → Bool}
    (h : ∀ vs ∈ lists, p vs = q vs) : lists.findIdx? p = lists.findIdx? q := by
  induction lists with
  | nil => rfl
  | cons vs lists ih =>
      rw [List.findIdx?_cons, List.findIdx?_cons, h vs List.mem_cons_self,
        ih fun vs hvs => h vs (List.mem_cons_of_mem _ hvs)]

/-- A list has a string that begins with these characters. -/
def begins (chars : List UInt8) (vs : List (List UInt8)) : Bool :=
  vs.any fun ss => chars.isPrefixOf ss

theorem take_eq_iff_begins {chars ss : List UInt8} {n : Nat} (h : chars.length = n) :
    ss.take n = chars ↔ chars <+: ss := by
  rw [List.prefix_iff_eq_take, h]
  exact eq_comm

theorem take_eq_iff_eq {chars ss : List UInt8} {n : Nat} (h : chars.length < n) :
    ss.take n = chars ↔ ss = chars := by
  constructor
  · intro heq
    have hlen := congrArg List.length heq
    rw [List.length_take] at hlen
    rwa [List.take_of_length_le (by omega)] at heq
  · rintro rfl
    exact List.take_of_length_le (by omega)

/-- Which list the message hits, where its id is the one that was built. -/
theorem hits_built (hlen : txId.chars.length ≤ wrtdIdLen - 1) (hmsg : msg.eventId = built txId mask)
    {vs : List (List UInt8)} (hvs : ∀ ss ∈ vs, 0 ∉ ss) :
    hits msg vs =
      if txId.chars.length = wrtdIdLen - 1 ∧ mask ≠ 0 then begins (txId.chars ++ [mask]) vs
      else vs.contains txId.chars := by
  have h16 : wrtdIdLen = 16 := rfl
  rw [Bool.eq_iff_iff]
  have hany : hits msg vs = true ↔
      ∃ ss ∈ vs, ss.take wrtdIdLen = cString (built txId mask).toList := by
    unfold hits
    rw [List.any_eq_true]
    refine exists_congr fun ss => and_congr_right fun hss => ?_
    rw [decide_eq_true_iff, hmsg, strncmp_eq_zero_iff _ _ _ (hvs ss hss),
      List.take_of_length_le (l := cString _)]
    refine (List.takeWhile_prefix _).length_le.trans ?_
    rw [Vector.length_toList]
  rw [hany, cString_built hlen]
  by_cases hfull : txId.chars.length = wrtdIdLen - 1 ∧ mask ≠ 0
  · rw [if_pos hfull, if_pos hfull]
    unfold begins
    rw [List.any_eq_true]
    refine exists_congr fun ss => and_congr_right fun _ => ?_
    rw [take_eq_iff_begins (by rw [List.length_append, hfull.1]; rfl), List.isPrefixOf_iff_prefix]
  · rw [if_neg hfull, if_neg hfull, List.contains_iff_mem]
    constructor
    · rintro ⟨ss, hss, heq⟩
      rw [take_eq_iff_eq (by omega)] at heq
      exact heq ▸ hss
    · intro hmem
      exact ⟨_, hmem, List.take_of_length_le (by omega)⟩

/--
**Whatever has been sent, the filter is right about the last message just where the id ends before
the mask, or the mask is 0, or the string of sixteen characters that the mask makes of the id
comes in the same list first as the id does.**
-/
theorem accept_right_iff (g : G) (seq trg : Nat) (isForUs : WrtdMessage → Bool) (txId : CString)
    (m0 m1 m2 : Option CString) (sends : List Send) (last : Send) (c : WrtdCaster)
    (hlen : txId.chars.length ≤ wrtdIdLen - 1)
    (hrun : Lts.run (send g) (ofTxId seq isForUs txId) (sends ++ [last]) = some c) :
    FilterRight (ofMatches m0 m1 m2) txId trg c.msg ↔
      txId.chars.length < wrtdIdLen - 1 ∨ last.mask = 0 ∨
        (ofMatches m0 m1 m2).lists.findIdx? (begins (txId.chars ++ [last.mask])) =
          (ofMatches m0 m1 m2).lists.findIdx? fun vs => vs.contains txId.chars := by
  have hmsg := eventId_run seq isForUs sends last c hrun
  have hterm := ofMatches_terminated m0 m1 m2
  rw [filterRight_iff]
  by_cases hfull : txId.chars.length = wrtdIdLen - 1 ∧ last.mask ≠ 0
  · have hhits : (ofMatches m0 m1 m2).lists.findIdx? (hits c.msg) =
        (ofMatches m0 m1 m2).lists.findIdx? (begins (txId.chars ++ [last.mask])) := by
      refine findIdx_agree fun vs hvs => ?_
      rw [hits_built hlen hmsg (hterm vs hvs), if_pos hfull]
    rw [hhits, or_iff_right (by omega), or_iff_right hfull.2]
  · refine iff_of_true ?_ ?_
    · refine findIdx_agree fun vs hvs => ?_
      rw [hits_built hlen hmsg (hterm vs hvs), if_neg hfull]
    · by_cases hshort : txId.chars.length < wrtdIdLen - 1
      · exact Or.inl hshort
      · refine Or.inr (Or.inl ?_)
        by_contra hmask
        exact hfull ⟨by omega, hmask⟩

/-- `acq2106_123`. -/
def boxId : CString :=
  { chars := [0x61, 0x63, 0x71, 0x32, 0x31, 0x30, 0x36, 0x5f, 0x31, 0x32, 0x33]
    terminated := by decide }

/-- `acq2106_123.trg`, of fifteen characters. -/
def longId : CString :=
  { chars := boxId.chars ++ [0x2e, 0x74, 0x72, 0x67]
    terminated := by decide }

/-- `acq2106_123.trg,acq2106_123`. -/
def bothIds : CString :=
  { chars := longId.chars ++ [comma] ++ boxId.chars
    terminated := by decide }

theorem accept_right_short :
    ∃ c, (boxId.chars.length ≤ wrtdIdLen - 1 ∧
        Lts.run (send TS.g50) (ofTxId 0 (fun _ => true) boxId) ([] ++ [.raw 3 0x10000000]) =
          some c) ∧
      (FilterRight (ofMatches (some bothIds) none none) boxId 0 c.msg ↔
        boxId.chars.length < wrtdIdLen - 1 ∨ (Send.raw 3 0x10000000).mask = 0 ∨
          (ofMatches (some bothIds) none none).lists.findIdx?
              (begins (boxId.chars ++ [(Send.raw 3 0x10000000).mask])) =
            (ofMatches (some bothIds) none none).lists.findIdx? fun vs =>
              vs.contains boxId.chars) :=
  ⟨_, ⟨by decide, rfl⟩, accept_right_iff TS.g50 0 0 (fun _ => true) boxId (some bothIds) none none
    [] (.raw 3 0x10000000) _ (by decide) rfl⟩

/-- An id of fifteen characters and a mask: the id is listed, and the message is dropped. -/
theorem masked_not_right :
    ∃ c, Lts.run (send TS.g50) (ofTxId 0 (fun _ => true) longId) [.raw 3 0x10000000] = some c ∧
      ¬FilterRight (ofMatches (some bothIds) none none) longId 0 c.msg := by
  refine ⟨_, rfl, fun h => ?_⟩
  have hlisted : ∃ vs ∈ (ofMatches (some bothIds) none none).lists, longId.chars ∈ vs :=
    ⟨split2 comma bothIds.chars, by decide, by decide⟩
  exact absurd (h.accepts.mpr hlisted) (by decide)

end MultipleMatchFilter

end Acq400.Wrtd
