/-
A client reads what it is told, in order, and misses ids only by an overrun.

What one action does to one client is said in `step_client`.  From it follows how a
client at the end of a run comes from the same client at the start: what is in the ring
and what is notified since are taken in order, all of it as long as nothing overran.  What is
taken is handed over, unless the read has failed behind the ring.
-/
import Acq400.Driver.BqClients
import Acq400.Driver.Rings
import Acq400.Proofs.StreamDac

namespace Acq400

/-! ### One client -/

namespace BqClient

variable {cur : BqClient} {th : Int}

/-- The ring of a client, which has room for one id at least. -/
structure Ok (cur : BqClient) : Prop where
  sound : cur.bq.Sound
  len : 2 ≤ cur.bq.bqLen
  quiet : cur.warned = false

/-- What the driver leaves to put a new id behind. -/
def kept (cur : BqClient) (th : Int) : List Nat := if cur.overruns th then [] else cur.bq.items

theorem kept_suffix (cur : BqClient) (th : Int) : cur.kept th <:+ cur.bq.items := by
  unfold kept
  split
  · exact List.nil_suffix
  · exact List.suffix_refl _

theorem notify_spec (h : cur.Ok) (th : Int) (ix : Nat) :
    (cur.notify th ix).Ok ∧ (cur.notify th ix).bq.items = cur.kept th ++ [ix] := by
  have hlen := h.len
  have hspace := h.sound.space
  by_cases hover : cur.overruns th
  · have hnil := h.sound.items_clear
    have hroom : cur.bq.clear.items.length + 1 < cur.bq.clear.bqLen := by
      rw [hnil]
      exact hlen
    refine ⟨⟨?_, ?_, ?_⟩, ?_⟩
    · simp only [notify, if_pos hover]
      exact h.sound.clear.put ix
    · simp only [notify, if_pos hover]
      exact hlen
    · simp only [notify, if_pos hover]
      rw [h.quiet, h.sound.clear.full hroom]
      rfl
    · simp only [notify, kept, if_pos hover]
      rw [h.sound.clear.items_put hroom, hnil]
  · have hroom : cur.bq.items.length + 1 < cur.bq.bqLen := by
      have := (not_or.mp hover).1
      omega
    refine ⟨⟨?_, ?_, ?_⟩, ?_⟩
    · simp only [notify, if_neg hover]
      exact h.sound.put ix
    · simp only [notify, if_neg hover]
      exact hlen
    · simp only [notify, if_neg hover]
      rw [h.quiet, h.sound.full hroom]
      rfl
    · simp only [notify, kept, if_neg hover]
      rw [h.sound.items_put hroom]

/-- The read has room for the text of the id that it takes, and all of it is copied. -/
def Fits (cur : BqClient) (count rest : Nat) : Prop :=
  ∀ bn bq, cur.bq.getSt = some (bn, bq) → (bqText bn).length ≤ count ∧ rest = 0

/-- What a read takes off the ring it hands over or loses. -/
structure Took (cur cur' : BqClient) (bn bad : List Nat) : Prop where
  ok : cur'.Ok
  notified : cur'.notified = cur.notified
  reads : cur'.reads = cur.reads ++ bn
  lost : cur'.lost = cur.lost ++ bad
  items : ∃ taken, cur.bq.items = taken ++ cur'.bq.items ∧ bn.Sublist taken ∧
    (bad = [] → taken = bn)

theorem took_read (h : cur.Ok) (count rest : Nat) :
    ∃ bn bad, cur.Took (cur.read count rest) bn bad ∧ (cur.Fits count rest → bad = []) := by
  unfold read
  rcases Nat.eq_zero_or_pos cur.bq.items.length with hnone | hpos
  · rw [h.sound.getSt_nil (List.length_eq_zero_iff.mp hnone)]
    exact ⟨[], [], ⟨h, rfl, (List.append_nil _).symm, (List.append_nil _).symm, [], rfl,
      List.Sublist.refl [], fun _ => rfl⟩, fun _ => rfl⟩
  · have hget := h.sound.getSt_cons hpos
    have hok {lost reads rc} : BqClient.Ok { cur with
        bq := cur.bq.get.2, lost := lost, reads := reads, rc := rc } :=
      ⟨h.sound.get, h.len, h.quiet⟩
    have hitems := h.sound.items_get hpos
    rw [hget]
    simp only
    split_ifs with hroom hcopy
    · refine ⟨[], [cur.bq.get.1], ⟨hok, rfl, (List.append_nil _).symm, rfl, [cur.bq.get.1], hitems,
        List.nil_sublist _, fun hc => absurd hc (List.cons_ne_nil _ _)⟩, fun hfits => ?_⟩
      exact absurd (hfits _ _ hget).1 (Nat.not_le.mpr hroom)
    · refine ⟨[], [cur.bq.get.1], ⟨hok, rfl, (List.append_nil _).symm, rfl, [cur.bq.get.1], hitems,
        List.nil_sublist _, fun hc => absurd hc (List.cons_ne_nil _ _)⟩, fun hfits => ?_⟩
      exact absurd (hfits _ _ hget).2 hcopy
    · exact ⟨[cur.bq.get.1], [], ⟨hok, rfl, rfl, (List.append_nil _).symm, [cur.bq.get.1], hitems,
        List.Sublist.refl _, fun _ => rfl⟩, fun _ => rfl⟩

/-- A ring of one cell has no room: the cell is kept free to tell a full ring from an empty one.
The first notify finds it full, and puts the id there all the same. -/
theorem notify_warned_of_one (hsound : cur.bq.Sound) (hlen : cur.bq.bqLen = 1) (th : Int)
    (ix : Nat) : cur.bq.space = 0 ∧ (cur.notify th ix).warned = true := by
  have hspace : cur.bq.space = 0 := by
    have := hsound.space
    omega
  have hover : cur.overruns th := Or.inl (by omega)
  have hfull : cur.bq.clear.full = true := by
    have hincr : cur.bq.clear.incr 0 = 0 := by
      show (0 + 1) &&& (cur.bq.bqLen - 1) = 0
      rw [hlen]
      rfl
    show decide (cur.bq.clear.incr 0 = 0) = true
    rw [hincr]
    rfl
  refine ⟨hspace, ?_⟩
  simp only [notify, if_pos hover, hfull, Bool.or_true]

end BqClient

/-! ### All of them -/

namespace BqWrapper

variable {bqw bqw' : BqWrapper} {nbuffers : Int} {pdesc : Nat} {cur : BqClient}

/-- A client is found again when all are changed and keep their descriptors. -/
theorem client_map {f : BqClient → BqClient} (hf : ∀ c, (f c).pdesc = c.pdesc)
    (hclients : bqw'.bqClients = bqw.bqClients.map f) :
    bqw'.client pdesc = (bqw.client pdesc).map f := by
  have hsame : ((fun c : BqClient => decide (c.pdesc = pdesc)) ∘ f) =
      fun c => decide (c.pdesc = pdesc) := by
    funext c
    rw [Function.comp_apply, hf]
  unfold client
  rw [hclients, List.find?_map, hsame]

/-- The loop of the notify tells every client, and counts those that overran. -/
theorem notifyClients_eq (th : Int) (ix : Nat) (cs : List BqClient) :
    ∀ bqw : BqWrapper,
      (notifyClients th ix cs bqw).bqClients = bqw.bqClients ++ cs.map (·.notify th ix) ∧
      (notifyClients th ix cs bqw).bqOverruns =
        bqw.bqOverruns + cs.countP fun c => c.overruns th := by
  induction cs with
  | nil =>
      intro bqw
      exact ⟨(List.append_nil _).symm, rfl⟩
  | cons c rest ih =>
      intro bqw
      rw [notifyClients, (ih _).1, (ih _).2, List.map_cons, List.countP_cons]
      refine ⟨by rw [List.append_assoc, List.singleton_append], ?_⟩
      by_cases hover : c.overruns th
      · simp only [hover, if_true, decide_true]
        omega
      · simp only [hover, if_false, decide_false, Bool.false_eq_true]
        omega

theorem client_bqNotify (ix : Nat) : (bqw.bqNotify nbuffers ix).client pdesc =
    (bqw.client pdesc).map (·.notify (nbuffers - 2) ix) := by
  refine client_map (fun c => rfl) ?_
  rw [bqNotify, (notifyClients_eq (nbuffers - 2) ix bqw.bqClients _).1, List.nil_append]

theorem bqOverruns_bqNotify (ix : Nat) : (bqw.bqNotify nbuffers ix).bqOverruns =
    bqw.bqOverruns + bqw.bqClients.countP fun c => c.overruns (nbuffers - 2) :=
  (notifyClients_eq (nbuffers - 2) ix bqw.bqClients _).2

theorem lt_bqNotify (ix : Nat) (hcur : bqw.client pdesc = some cur)
    (hover : cur.overruns (nbuffers - 2)) :
    bqw.bqOverruns < (bqw.bqNotify nbuffers ix).bqOverruns := by
  have hmem : cur ∈ bqw.bqClients := List.mem_of_find?_eq_some hcur
  have hpos : 0 < bqw.bqClients.countP fun c => c.overruns (nbuffers - 2) :=
    List.countP_pos_iff.mpr ⟨cur, hmem, decide_eq_true hover⟩
  rw [bqOverruns_bqNotify]
  omega

theorem client_bqRead {other count rest : Nat} (hread : bqw.bqRead other count rest = some bqw') :
    bqw'.client pdesc =
      (bqw.client pdesc).map (fun c => if c.pdesc = other then c.read count rest else c) ∧
      bqw'.bqOverruns = bqw.bqOverruns := by
  unfold bqRead at hread
  split at hread
  · exact absurd hread nofun
  · obtain rfl := Option.some.inj hread
    refine ⟨client_map ?_ rfl, rfl⟩
    intro c
    split
    · unfold BqClient.read
      split
      · rfl
      · simp only
        split_ifs <;> rfl
    · rfl

theorem client_bqOpen {other backlog : Nat} (hcur : bqw.client pdesc = some cur)
    (hopen : bqw.bqOpen other backlog = some bqw') :
    bqw'.client pdesc = some cur ∧ bqw'.bqOverruns = bqw.bqOverruns := by
  unfold bqOpen at hopen
  split at hopen
  · obtain rfl := Option.some.inj hopen
    refine ⟨?_, rfl⟩
    unfold client at hcur ⊢
    rw [List.find?_append, hcur]
    rfl
  · exact absurd hopen nofun

theorem client_bqRelease {other : Nat} (hne : pdesc ≠ other) :
    (bqw.bqRelease other).client pdesc = bqw.client pdesc := by
  unfold client
  rw [bqRelease, List.find?_filter]
  congr 1
  funext c
  by_cases hc : c.pdesc = pdesc
  · simp [hc, hne]
  · simp [hc]

theorem step_client {act : BqAct} (hcur : bqw.client pdesc = some cur)
    (hstay : act ≠ .bqRelease pdesc) (hstep : step nbuffers bqw act = some bqw') :
    (bqw'.client pdesc = some cur ∧ bqw'.bqOverruns = bqw.bqOverruns) ∨
    (∃ ix, act = .bqNotify ix ∧ bqw'.client pdesc = some (cur.notify (nbuffers - 2) ix) ∧
      bqw.bqOverruns ≤ bqw'.bqOverruns ∧
      (cur.overruns (nbuffers - 2) → bqw.bqOverruns < bqw'.bqOverruns)) ∨
    (∃ count rest, act = .bqRead pdesc count rest ∧
      bqw'.client pdesc = some (cur.read count rest) ∧ bqw'.bqOverruns = bqw.bqOverruns) := by
  cases act with
  | bqOpen other backlog => exact Or.inl (client_bqOpen hcur hstep)
  | bqRelease other =>
      obtain rfl := Option.some.inj hstep
      have hne : pdesc ≠ other := fun hc => hstay (by rw [hc])
      exact Or.inl ⟨(client_bqRelease hne).trans hcur, rfl⟩
  | bqNotify ix =>
      refine Or.inr (Or.inl ⟨ix, rfl, ?_⟩)
      obtain rfl := Option.some.inj hstep
      refine ⟨?_, ?_, lt_bqNotify ix hcur⟩
      · rw [client_bqNotify, hcur]
        rfl
      · rw [bqOverruns_bqNotify]
        exact Nat.le_add_right _ _
  | bqRead other count rest =>
      obtain ⟨hclient, hovers⟩ := client_bqRead hstep
      rw [hcur, Option.map_some] at hclient
      by_cases hmine : cur.pdesc = other
      · rw [if_pos hmine] at hclient
        have hfound : cur.pdesc = pdesc := by simpa using List.find?_some hcur
        exact Or.inr (Or.inr ⟨count, rest, by rw [← hfound, hmine], hclient, hovers⟩)
      · rw [if_neg hmine] at hclient
        exact Or.inl ⟨hclient, hovers⟩

/-- A client that is open was open before, or has just been opened. -/
theorem client_before {act : BqAct} {cur' : BqClient} (hcur' : bqw'.client pdesc = some cur')
    (hstep : step nbuffers bqw act = some bqw') :
    (∃ cur, bqw.client pdesc = some cur ∧ act ≠ .bqRelease pdesc) ∨
    ∃ backlog, act = .bqOpen pdesc backlog ∧ cur' = .opened pdesc backlog := by
  cases hcur : bqw.client pdesc with
  | some cur =>
      refine Or.inl ⟨cur, rfl, ?_⟩
      rintro rfl
      obtain rfl := Option.some.inj hstep
      have hfound := List.find?_some hcur'
      have hmem := List.mem_filter.mp (List.mem_of_find?_eq_some hcur')
      simp only [decide_eq_true_eq] at hfound hmem
      exact hmem.2 hfound
  | none =>
      refine Or.inr ?_
      cases act with
      | bqOpen other backlog =>
          simp only [step, bqOpen] at hstep
          split at hstep
          · obtain rfl := Option.some.inj hstep
            unfold client at hcur hcur'
            rw [List.find?_append, hcur, Option.none_or] at hcur'
            by_cases hother : other = pdesc
            · subst hother
              simp only [List.find?_cons, BqClient.opened, decide_true] at hcur'
              exact ⟨backlog, rfl, (Option.some.inj hcur').symm⟩
            · simp [BqClient.opened, hother] at hcur'
          · exact absurd hstep nofun
      | bqRelease other =>
          obtain rfl := Option.some.inj hstep
          unfold client at hcur hcur'
          rw [List.find?_eq_none] at hcur
          have hmem := List.mem_filter.mp (List.mem_of_find?_eq_some hcur')
          exact absurd (List.find?_some hcur') (hcur cur' hmem.1)
      | bqNotify ix =>
          obtain rfl := Option.some.inj hstep
          rw [client_bqNotify, hcur] at hcur'
          exact absurd hcur' nofun
      | bqRead other count rest =>
          rw [(client_bqRead hstep).1, hcur] at hcur'
          exact absurd hcur' nofun

end BqWrapper

/-! ### Runs -/

/-- How a client is found at the end of a run in which it stays open. -/
structure BqClient.Since (cur cur' : BqClient) (bqw bqw' : BqWrapper) (new got bad : List Nat) :
    Prop where
  ok : cur'.Ok
  notified : cur'.notified = cur.notified ++ new
  reads : cur'.reads = cur.reads ++ got
  lost : cur'.lost = cur.lost ++ bad
  order : (got ++ cur'.bq.items).Sublist (cur.bq.items ++ new)
  /-- The ring has the last of them. -/
  last : cur'.bq.items <:+ cur.bq.items ++ new
  mono : bqw.bqOverruns ≤ bqw'.bqOverruns
  all : bqw'.bqOverruns = bqw.bqOverruns → bad = [] →
    got ++ cur'.bq.items = cur.bq.items ++ new

namespace BqWrapper

variable {nbuffers : Int} {pdesc : Nat} {cur : BqClient} {bqw bqw' : BqWrapper}

theorem since_refl (h : cur.Ok) : cur.Since cur bqw bqw [] [] [] where
  ok := h
  notified := (List.append_nil _).symm
  reads := (List.append_nil _).symm
  lost := (List.append_nil _).symm
  order := by rw [List.append_nil, List.nil_append]
  last := ⟨[], by rw [List.nil_append, List.append_nil]⟩
  mono := Nat.le_refl _
  all := fun _ _ => by rw [List.append_nil, List.nil_append]

/-- A read of the client, if the action is one, hands over what it takes. -/
def ReadFits (pdesc : Nat) (bqw : BqWrapper) : BqAct → Prop
  | .bqRead other count rest =>
    other = pdesc → ∀ cur, bqw.client pdesc = some cur → cur.Fits count rest
  | _ => True

theorem since_step {act : BqAct} {mid : BqWrapper} {cur₁ : BqClient} {new got bad : List Nat}
    (h : cur.Since cur₁ bqw mid new got bad) (hcur₁ : mid.client pdesc = some cur₁)
    (hstay : act ≠ .bqRelease pdesc) (hstep : step nbuffers mid act = some bqw') :
    ∃ cur' new' got' bad', bqw'.client pdesc = some cur' ∧
      cur.Since cur' bqw bqw' new' got' bad' ∧ (ReadFits pdesc mid act → bad' = bad) := by
  rcases step_client hcur₁ hstay hstep with ⟨hcur', hovers⟩ | ⟨ix, -, hcur', hle, hover⟩ |
    ⟨count, rest, rfl, hcur', hovers⟩
  · exact ⟨cur₁, new, got, bad, hcur',
      ⟨h.ok, h.notified, h.reads, h.lost, h.order, h.last, hovers ▸ h.mono,
        fun ho => h.all (hovers ▸ ho)⟩, fun _ => rfl⟩
  · obtain ⟨hok, hitems⟩ := BqClient.notify_spec h.ok (nbuffers - 2) ix
    refine ⟨_, new ++ [ix], got, bad, hcur',
      ⟨hok, ?_, h.reads, h.lost, ?_, ?_, Nat.le_trans h.mono hle, ?_⟩, fun _ => rfl⟩
    · show cur₁.notified ++ [ix] = cur.notified ++ (new ++ [ix])
      rw [h.notified, List.append_assoc]
    · rw [hitems, ← List.append_assoc, ← List.append_assoc]
      refine List.Sublist.append ?_ (List.Sublist.refl [ix])
      refine List.Sublist.trans ?_ h.order
      unfold BqClient.kept
      split
      · rw [List.append_nil]
        exact List.sublist_append_left _ _
      · exact List.Sublist.refl _
    · rw [hitems, ← List.append_assoc]
      exact List.suffix_append_self_iff.mpr ((cur₁.kept_suffix _).trans h.last)
    · intro hsame hbad
      have hnot : ¬cur₁.overruns (nbuffers - 2) := by
        intro hc
        have := hover hc
        have := h.mono
        omega
      have hmid : mid.bqOverruns = bqw.bqOverruns := by
        have := h.mono
        omega
      rw [hitems, BqClient.kept, if_neg hnot, ← List.append_assoc, h.all hmid hbad,
        List.append_assoc]
  · obtain ⟨bn, bad', ⟨hok, hnotified, hreads, hlost, taken, hitems, hsub, htaken⟩, hfits⟩ :=
      BqClient.took_read h.ok count rest
    refine ⟨_, new, got ++ bn, bad ++ bad', hcur',
      ⟨hok, hnotified.trans h.notified, ?_, ?_, ?_, ?_, ?_, ?_⟩, fun hread => ?_⟩
    · rw [hreads, h.reads, List.append_assoc]
    · rw [hlost, h.lost, List.append_assoc]
    · refine List.Sublist.trans ?_ h.order
      rw [hitems, List.append_assoc]
      exact (List.Sublist.refl got).append (hsub.append (List.Sublist.refl _))
    · exact (hitems ▸ List.suffix_append taken _ : _ <:+ cur₁.bq.items).trans h.last
    · rw [hovers]
      exact h.mono
    · intro hsame hbad
      obtain ⟨hbad, hbad'⟩ := List.append_eq_nil_iff.mp hbad
      rw [← h.all (hovers ▸ hsame) hbad, hitems, htaken hbad', List.append_assoc]
    · rw [hfits (hread rfl cur₁ hcur₁), List.append_nil]

/-- A run in which the client stays open, and in which nothing is lost if its reads fit. -/
theorem since_run {acts : List BqAct} (hok : cur.Ok) (hcur : bqw.client pdesc = some cur)
    (hstay : .bqRelease pdesc ∉ acts) (hrun : Lts.run (step nbuffers) bqw acts = some bqw') :
    ∃ cur' new got bad, bqw'.client pdesc = some cur' ∧ cur.Since cur' bqw bqw' new got bad ∧
      (Lts.Meets (step nbuffers) (ReadFits pdesc) bqw acts → bad = []) := by
  induction acts using List.reverseRecOn generalizing bqw' with
  | nil =>
      obtain rfl := Option.some.inj hrun
      exact ⟨cur, [], [], [], hcur, since_refl hok, fun _ => rfl⟩
  | append_singleton acts act ih =>
      rw [Lts.run_append, Option.bind_eq_some_iff] at hrun
      obtain ⟨mid, hmid, hlast⟩ := hrun
      rw [Lts.run_cons, Option.bind_eq_some_iff] at hlast
      obtain ⟨t, ht, hend⟩ := hlast
      obtain rfl := Option.some.inj hend
      obtain ⟨cur₁, new, got, bad, hcur₁, hsince, hbad⟩ :=
        ih (fun hc => hstay (List.mem_append_left _ hc)) hmid
      have hne : act ≠ .bqRelease pdesc :=
        fun hc => hstay (hc ▸ List.mem_append_right _ List.mem_cons_self)
      obtain ⟨cur', new', got', bad', hcur', hsince', hbad'⟩ :=
        since_step hsince hcur₁ hne ht
      refine ⟨cur', new', got', bad', hcur', hsince', fun hmeets => ?_⟩
      rw [hbad' (hmeets.right hmid).1, hbad hmeets.left]

/-- A ring that is opened has room for one id at least: the descriptors have rings of
`BQ_MIN_BACKLOG` = 2 and `BQ_MAX_BACKLOG` = 512. -/
def Roomy (pdesc : Nat) : BqAct → Prop
  | .bqOpen other backlog => other = pdesc → ∃ k, backlog = 2 ^ (k + 1)
  | _ => True

/-- The client, if it is open, has a ring as it is to be, with the last ids it was told of, and has
read in order. -/
def Orderly (pdesc : Nat) (bqw : BqWrapper) : Prop :=
  ∀ cur, bqw.client pdesc = some cur →
    cur.Ok ∧ (cur.reads ++ cur.bq.items).Sublist cur.notified ∧ cur.bq.items <:+ cur.notified

theorem orderly_step {act : BqAct} (h : bqw.Orderly pdesc) (hroomy : Roomy pdesc act)
    (hstep : step nbuffers bqw act = some bqw') : bqw'.Orderly pdesc := by
  intro cur' hcur'
  rcases client_before hcur' hstep with ⟨cur, hcur, hstay⟩ | ⟨backlog, rfl, rfl⟩
  · obtain ⟨hok, horder, hlast⟩ := h cur hcur
    obtain ⟨cur₁, new, got, bad, hcur₁, hsince, -⟩ := since_step (since_refl hok) hcur hstay hstep
    rw [hcur'] at hcur₁
    obtain rfl := Option.some.inj hcur₁
    refine ⟨hsince.ok, ?_, ?_⟩
    · rw [hsince.reads, hsince.notified, List.append_assoc]
      refine List.Sublist.trans (List.Sublist.append (List.Sublist.refl _) hsince.order) ?_
      rw [← List.append_assoc]
      exact List.Sublist.append horder (List.Sublist.refl _)
    · rw [hsince.notified]
      exact hsince.last.trans (List.suffix_append_self_iff.mpr hlast)
  · obtain ⟨k, rfl⟩ := hroomy rfl
    have hsound : (Bq.init (2 ^ (k + 1))).Sound := Bq.Sound.init
    have hitems : (Bq.init (2 ^ (k + 1))).items = [] := hsound.items_eq_nil rfl
    refine ⟨⟨hsound, ?_, rfl⟩, ?_, ?_⟩
    · show 2 ≤ 2 ^ (k + 1)
      have := Nat.two_pow_pos k
      omega
    · show ([] ++ (Bq.init (2 ^ (k + 1))).items).Sublist []
      rw [hitems]
      exact List.Sublist.refl []
    · exact ⟨[], hitems⟩

theorem orderly_run {acts : List BqAct} (hroomy : ∀ act ∈ acts, Roomy pdesc act)
    (hrun : Lts.run (step nbuffers) init acts = some bqw) : bqw.Orderly pdesc := by
  refine Lts.run_invariant_of (Orderly pdesc) ?_ acts init bqw ?_ (Lts.Meets.of_forall hroomy) hrun
  · intro t act t' h hact hstep
    exact orderly_step h hact hstep
  · intro cur hcur
    exact absurd hcur nofun

/-- What a client that stays open from `bqw` on, to be `cur'` at the end, has read. -/
structure ReadsInOrder (nbuffers : Int) (cur cur' : BqClient) (bqw bqw' : BqWrapper)
    (acts : List BqAct) : Prop where
  quiet : cur'.warned = false
  subsequence : cur'.reads.Sublist cur'.notified
  since : ∃ new got, cur'.notified = cur.notified ++ new ∧ cur'.reads = cur.reads ++ got ∧
    got.Sublist (cur.bq.items ++ new) ∧
    -- nothing is left out unless an overrun has been counted
    (bqw'.bqOverruns = bqw.bqOverruns → got ++ cur'.bq.items = cur.bq.items ++ new) ∧
    -- what is read after an overrun was notified by it or later
    (cur.overruns (nbuffers - 2) → (∃ ix rest, acts = .bqNotify ix :: rest) →
      bqw.bqOverruns < bqw'.bqOverruns ∧ got.Sublist new)

/--
**The ids a client reads.**  As long as each of its reads has room for the text of the id that it
takes, they are those it was notified of, in their order, and ids are left out by a counted overrun
only.
-/
theorem bqClient_reads_in_order (nbuffers : Int) (before acts : List BqAct)
    (bqw bqw' : BqWrapper) (pdesc : Nat) (cur : BqClient)
    (hroomy : ∀ act ∈ before, Roomy pdesc act)
    (hbefore : Lts.run (step nbuffers) init before = some bqw)
    (hcur : bqw.client pdesc = some cur) (hstay : .bqRelease pdesc ∉ acts)
    (hfits : Lts.Meets (step nbuffers) (ReadFits pdesc) bqw acts)
    (hrun : Lts.run (step nbuffers) bqw acts = some bqw') :
    ∃ cur', bqw'.client pdesc = some cur' ∧
      ReadsInOrder nbuffers cur cur' bqw bqw' acts := by
  obtain ⟨hok, horder, -⟩ := orderly_run hroomy hbefore cur hcur
  obtain ⟨cur', new, got, bad, hcur', hsince, hbad⟩ := since_run hok hcur hstay hrun
  have hgot : got.Sublist (cur.bq.items ++ new) :=
    (List.sublist_append_left _ _).trans hsince.order
  refine ⟨cur', hcur', hsince.ok.quiet, ?_, new, got, hsince.notified, hsince.reads, hgot,
    fun hsame => hsince.all hsame (hbad hfits), ?_⟩
  · rw [hsince.reads, hsince.notified]
    refine List.Sublist.trans (List.Sublist.append (List.Sublist.refl _) hgot) ?_
    rw [← List.append_assoc]
    exact List.Sublist.append horder (List.Sublist.refl _)
  · rintro hover ⟨ix, rest, rfl⟩
    -- what is in the ring after that notify is its id alone
    rw [Lts.run_cons, Option.bind_eq_some_iff] at hrun
    obtain ⟨mid, hmid, hrest⟩ := hrun
    obtain rfl := Option.some.inj hmid
    have hcur₁ : (bqw.bqNotify nbuffers ix).client pdesc =
        some (cur.notify (nbuffers - 2) ix) := by
      rw [client_bqNotify, hcur]
      rfl
    obtain ⟨hok₁, hitems⟩ := BqClient.notify_spec hok (nbuffers - 2) ix
    rw [BqClient.kept, if_pos hover, List.nil_append] at hitems
    obtain ⟨cur₂, new₂, got₂, bad₂, hcur₂, hsince₂, -⟩ :=
      since_run hok₁ hcur₁ (fun hc => hstay (List.mem_cons_of_mem _ hc)) hrest
    rw [hcur'] at hcur₂
    obtain rfl := Option.some.inj hcur₂
    refine ⟨Nat.lt_of_lt_of_le (lt_bqNotify ix hcur hover) hsince₂.mono, ?_⟩
    have hnew : new = [ix] ++ new₂ := by
      have hsame := hsince.notified.symm.trans hsince₂.notified
      exact List.append_cancel_left (hsame.trans (List.append_assoc cur.notified [ix] new₂))
    have hsamegot : got = got₂ :=
      List.append_cancel_left (hsince.reads.symm.trans hsince₂.reads)
    rw [hnew, hsamegot, ← hitems]
    exact (List.sublist_append_left _ _).trans hsince₂.order

/-- A ring of two has room for one id, and the second notify overruns it. -/
theorem bqClient_reads_in_order_two : ∃ bqw bqw' cur cur',
    Lts.run (step 16) init [.bqOpen 1 2, .bqNotify 7] = some bqw ∧ bqw.client 1 = some cur ∧
      Lts.run (step 16) bqw [.bqNotify 8, .bqRead 1 32 0] = some bqw' ∧
      bqw'.client 1 = some cur' ∧ cur'.reads = [8] ∧
      ReadsInOrder 16 cur cur' bqw bqw' [.bqNotify 8, .bqRead 1 32 0] := by
  have hroomy : ∀ act ∈ [BqAct.bqOpen 1 2, .bqNotify 7], Roomy 1 act := by
    intro act hact
    rcases List.mem_cons.mp hact with rfl | hact
    · exact fun _ => ⟨0, rfl⟩
    · obtain rfl := List.mem_singleton.mp hact
      trivial
  have hfits : Lts.Meets (step 16) (ReadFits 1)
      { bqClients := [(BqClient.opened 1 2).notify 14 7], bqOverruns := 0, bqMax := 0 }
      [.bqNotify 8, .bqRead 1 32 0] := by
    refine ⟨trivial, fun mid hmid => ⟨?_, fun _ _ => trivial⟩⟩
    obtain rfl := Option.some.inj hmid
    intro _ cur hcur bn bq hget
    obtain rfl := Option.some.inj hcur
    obtain ⟨rfl, -⟩ := Prod.mk.inj (Option.some.inj hget)
    exact ⟨by decide, rfl⟩
  obtain ⟨cur', hcur', h⟩ := bqClient_reads_in_order 16 [.bqOpen 1 2, .bqNotify 7]
    [.bqNotify 8, .bqRead 1 32 0] _ _ 1 _ hroomy rfl rfl (by decide) hfits rfl
  refine ⟨_, _, _, cur', rfl, rfl, rfl, hcur', ?_, h⟩
  obtain rfl := Option.some.inj hcur'
  rfl

/-- A read of two bytes takes the id of a ring and returns `-ENOSPC`, and a ring of one cell is put
into though it is full. -/
theorem bqClient_leaves_out :
    (∃ bqw bqw' cur cur', Lts.run (step 16) init [.bqOpen 1 512] = some bqw ∧
      bqw.client 1 = some cur ∧
      Lts.run (step 16) bqw [.bqNotify 7, .bqRead 1 2 0, .bqNotify 8, .bqRead 1 32 0]
        = some bqw' ∧
      bqw'.client 1 = some cur' ∧ bqw'.bqOverruns = 0 ∧ cur'.notified = [7, 8] ∧
      cur'.reads = [8] ∧ cur'.bq.items = [] ∧
      ¬ReadsInOrder 16 cur cur' bqw bqw'
        [.bqNotify 7, .bqRead 1 2 0, .bqNotify 8, .bqRead 1 32 0]) ∧
    ∃ bqw cur, Lts.run (step 16) init [.bqOpen 1 1, .bqNotify 7] = some bqw ∧
      bqw.client 1 = some cur ∧ cur.warned = true := by
  refine ⟨⟨_, _, _, _, rfl, rfl, rfl, rfl, rfl, rfl, rfl, rfl, ?_⟩, _, _, rfl, rfl, rfl⟩
  rintro ⟨-, -, new, got, hnotified, hreads, -, hall, -⟩
  obtain rfl : [7, 8] = new := hnotified
  obtain rfl : [8] = got := hreads
  exact absurd (hall rfl) (by decide)

end BqWrapper

end Acq400

/-! ### Polling

Whether `acq400_bq_poll` tells when there is something to read.

It asks for the space of the ring, where the reads wait for what is in it.  So it is right only
while the ring is neither empty nor full, and for the stream of the DAC, whose reads take two ids
at a time, only while two are there.

`Right` and its condition are about a ring with its ends in it.  That a ring is one is kept by
every action of the driver and of the clients, and is all that is needed of a run.
-/

namespace Acq400

namespace Bq

variable {bq : Bq}

/-- What a poll is to tell: that a read does not wait, and that the ring holds an id. -/
structure PollsRight (bq : Bq) (readBlocks : Prop) : Prop where
  read : bq.acq400BqPoll bq = pollIn ↔ ¬readBlocks
  holds : bq.acq400BqPoll bq = pollIn ↔ bq.items ≠ []

theorem acq400BqPoll_iff (h : bq.Sound) :
    bq.acq400BqPoll bq = pollIn ↔ bq.items.length + 1 < bq.bqLen := by
  have hspace := h.space
  unfold acq400BqPoll
  by_cases hroom : bq.space = 0
  · rw [if_neg (not_not.mpr hroom), if_neg (not_not.mpr hroom)]
    refine iff_of_false (by decide) ?_
    omega
  · rw [if_pos hroom]
    refine iff_of_true rfl ?_
    omega

theorem pollsRight_iff (h : bq.Sound) {least : Nat} (hleast : 1 ≤ least) (hlen : 1 < bq.bqLen) :
    bq.PollsRight (bq.items.length < least) ↔
      least ≤ bq.items.length ∧ bq.items.length + 1 < bq.bqLen := by
  have hpoll := acq400BqPoll_iff h
  have hitems : bq.items ≠ [] ↔ 0 < bq.items.length := List.length_pos_iff.symm
  constructor
  · intro hright
    have hread := hpoll.symm.trans hright.read
    have hholds := (hpoll.symm.trans hright.holds).trans hitems
    omega
  · intro hboth
    exact ⟨hpoll.trans (by omega), (hpoll.trans (by omega)).trans hitems.symm⟩

end Bq

/-! ### The clients -/

namespace BqClient

variable {cur : BqClient}

theorem Ok.readBlocks_iff (h : cur.Ok) : cur.readBlocks ↔ cur.bq.items.length < 1 := by
  unfold readBlocks
  rw [h.sound.count]
  omega

theorem Ok.pollsRight_iff (h : cur.Ok) : cur.bq.PollsRight cur.readBlocks ↔
    1 ≤ cur.bq.items.length ∧ cur.bq.items.length + 1 < cur.bq.bqLen := by
  rw [h.readBlocks_iff]
  exact Bq.pollsRight_iff h.sound (Nat.le_refl 1) h.len

end BqClient

/-! ### The stream of the DAC -/

namespace StreamDac

variable {s s' : StreamDac}

/-- The ring that is polled is one. -/
def EmptiesOk (s : StreamDac) : Prop := s.empties.Ok

theorem EmptiesOk.putEmpties (h : s.EmptiesOk) (id : Nat) : (s.putEmpties id).EmptiesOk :=
  Bq.Ok.put h id

theorem EmptiesOk.foldl (ids : List Nat) :
    ∀ {s : StreamDac}, s.EmptiesOk → (ids.foldl StreamDac.putEmpties s).EmptiesOk := by
  induction ids with
  | nil =>
    intro s h
    exact h
  | cons id ids ih =>
    intro s h
    exact ih (h.putEmpties id)

theorem emptiesOk_openWith (first last : Nat) (refills : Bq) :
    (openWith first last refills).EmptiesOk := by
  unfold openWith
  refine EmptiesOk.foldl _ ?_
  exact Bq.Ok.init

theorem empties_loopStep {ev : LoopEv} (hstep : s.loopStep ev = some s') :
    s'.empties = s.empties ∨ ∃ id, s'.empties = s.empties.put id := by
  unfold loopStep at hstep
  cases hpc : s.pc with
  | start =>
    rw [hpc] at hstep
    simp only at hstep
    split_ifs at hstep
    · obtain rfl := Option.some.inj hstep
      exact Or.inl rfl
    · obtain rfl := Option.some.inj hstep
      exact Or.inl rfl
  | first =>
    rw [hpc] at hstep
    obtain rfl := Option.some.inj hstep
    exact Or.inl rfl
  | second =>
    rw [hpc] at hstep
    obtain rfl := Option.some.inj hstep
    exact Or.inl rfl
  | wait =>
    rw [hpc] at hstep
    simp only at hstep
    split_ifs at hstep
    · obtain rfl := Option.some.inj hstep
      exact Or.inl rfl
    · obtain rfl := Option.some.inj hstep
      exact Or.inl rfl
  | stall =>
    rw [hpc] at hstep
    simp only at hstep
    split_ifs at hstep
    · obtain rfl := Option.some.inj hstep
      exact Or.inl rfl
    · obtain rfl := Option.some.inj hstep
      exact Or.inl rfl
    · obtain rfl := Option.some.inj hstep
      exact Or.inl rfl
  | put =>
    -- the one turn that puts
    rw [hpc] at hstep
    obtain rfl := Option.some.inj hstep
    exact Or.inr ⟨_, rfl⟩
  | refill =>
    rw [hpc] at hstep
    simp only at hstep
    split_ifs at hstep
    · obtain rfl := Option.some.inj hstep
      exact Or.inl rfl
    · obtain rfl := Option.some.inj hstep
      exact Or.inl rfl
  | push =>
    rw [hpc] at hstep
    simp only at hstep
    split_ifs at hstep
    · obtain rfl := Option.some.inj hstep
      exact Or.inl rfl
    · obtain rfl := Option.some.inj hstep
      exact Or.inl rfl
  | quit =>
    rw [hpc] at hstep
    obtain rfl := Option.some.inj hstep
    exact Or.inl rfl
  | ended =>
    rw [hpc] at hstep
    cases hstep

/-- What a turn does to the ring that is polled: it puts a number there, or gets one from it, or
leaves it. -/
theorem empties_step {act : DacAct} (hstep : s.step act = some s') :
    s'.empties = s.empties ∨ (∃ id, s'.empties = s.empties.put id) ∨
      s'.empties = s.empties.get.2 := by
  unfold step at hstep
  cases act with
  | readWait =>
    simp only at hstep
    split_ifs at hstep
    obtain rfl := Option.some.inj hstep
    exact Or.inl rfl
  | read =>
    simp only at hstep
    split_ifs at hstep
    obtain rfl := Option.some.inj hstep
    exact Or.inr (Or.inr rfl)
  | writeWait =>
    simp only at hstep
    split_ifs at hstep
    obtain rfl := Option.some.inj hstep
    exact Or.inl rfl
  | write id =>
    simp only at hstep
    split_ifs at hstep
    obtain rfl := Option.some.inj hstep
    exact Or.inl rfl
  | loop ev =>
    obtain hsame | hput := empties_loopStep hstep
    · exact Or.inl hsame
    · exact Or.inr (Or.inl hput)

theorem EmptiesOk.step (h : s.EmptiesOk) {act : DacAct} (hstep : s.step act = some s') :
    s'.EmptiesOk := by
  unfold EmptiesOk at h ⊢
  obtain hsame | ⟨id, hput⟩ | hget := empties_step hstep
  · rw [hsame]
    exact h
  · rw [hput]
    exact h.put id
  · rw [hget]
    exact h.get

theorem emptiesOk_run (first last : Nat) (refills : Bq) {acts : List DacAct}
    (hrun : Lts.run StreamDac.step (openWith first last refills) acts = some s) : s.EmptiesOk := by
  refine Lts.run_invariant EmptiesOk ?_ acts _ s (emptiesOk_openWith first last refills) hrun
  intro t act t' ht hstep
  exact ht.step hstep

theorem EmptiesOk.pollsRight_iff (h : s.EmptiesOk) : s.empties.PollsRight s.readBlocks ↔
    2 ≤ s.empties.items.length ∧ s.empties.items.length + 1 < awgBacklog := by
  have hblocks : s.readBlocks ↔ s.empties.items.length < 2 := by
    unfold readBlocks
    rw [h.sound.count]
    omega
  have hlen : 1 < s.empties.bqLen := by
    rw [h.len]
    decide
  rw [hblocks, Bq.pollsRight_iff h.sound (by decide) hlen, h.len]

end StreamDac

/-! ### The files -/

namespace BqWrapper

/--
**The poll of a ring of buffers.**  In whatever state the driver and the clients have brought the
rings to, a poll is right exactly if the ring has what a read takes, one id or for the stream of the
DAC two, and room for one more.
-/
theorem poll_right_iff (nbuffers : Int) (acts : List BqAct) (bqw : BqWrapper) (pdesc : Nat)
    (cur : BqClient) (hroomy : ∀ act ∈ acts, Roomy pdesc act)
    (hrun : Lts.run (step nbuffers) init acts = some bqw) (hcur : bqw.client pdesc = some cur)
    (first last : Nat) (refills : Bq) (turns : List DacAct) (s : StreamDac)
    (hturns : Lts.run StreamDac.step (.openWith first last refills) turns = some s) :
    (cur.bq.PollsRight cur.readBlocks ↔
      1 ≤ cur.bq.items.length ∧ cur.bq.items.length + 1 < cur.bq.bqLen) ∧
    (s.empties.PollsRight s.readBlocks ↔
      2 ≤ s.empties.items.length ∧ s.empties.items.length + 1 < awgBacklog) :=
  ⟨(orderly_run hroomy hrun cur hcur).1.pollsRight_iff,
    (StreamDac.emptiesOk_run first last refills hturns).pollsRight_iff⟩

/-- One id in the ring of `BQ_MAX_BACKLOG`, and four numbers for the stream of the DAC. -/
theorem poll_right_one : ∃ bqw cur s,
    Lts.run (step 16) init [.bqOpen 1 512, .bqNotify 7] = some bqw ∧ bqw.client 1 = some cur ∧
      Lts.run StreamDac.step (.openWith 0 4 (Bq.init awgBacklog)) [.readWait] = some s ∧
      cur.bq.PollsRight cur.readBlocks ∧ s.empties.PollsRight s.readBlocks := by
  have hroomy : ∀ act ∈ [BqAct.bqOpen 1 512, .bqNotify 7], Roomy 1 act := by
    intro act hact
    rcases List.mem_cons.mp hact with rfl | hact
    · exact fun _ => ⟨8, rfl⟩
    · obtain rfl := List.mem_singleton.mp hact
      trivial
  obtain ⟨hcur, hs⟩ := poll_right_iff 16 [.bqOpen 1 512, .bqNotify 7] _ 1 _ hroomy rfl rfl 0 4
    (Bq.init awgBacklog) [.readWait] _ rfl
  exact ⟨_, _, _, rfl, rfl, rfl, hcur.mpr (by decide), hs.mpr (by decide)⟩

/-- A ring that has just been opened, a ring of `BQ_MIN_BACKLOG` with its one id, and the stream of
the DAC as it is opened with all the numbers it can have. -/
theorem poll_wrong : ∃ bqw cur bqw' cur' s,
    Lts.run (step 16) init [.bqOpen 1 512] = some bqw ∧ bqw.client 1 = some cur ∧
      cur.bq.acq400BqPoll cur.bq = pollIn ∧ cur.readBlocks ∧
      Lts.run (step 16) init [.bqOpen 1 2, .bqNotify 7] = some bqw' ∧ bqw'.client 1 = some cur' ∧
      cur'.bq.acq400BqPoll cur'.bq = 0 ∧ ¬cur'.readBlocks ∧
      Lts.run StreamDac.step (.openWith 0 64 (Bq.init awgBacklog)) [] = some s ∧
      s.empties.acq400BqPoll s.empties = 0 ∧ ¬s.readBlocks := by
  refine ⟨_, _, _, _, _, rfl, rfl, ?_, ?_, rfl, rfl, ?_, ?_, rfl, ?_, ?_⟩
  · decide
  · unfold BqClient.readBlocks
    decide
  · decide
  · unfold BqClient.readBlocks
    decide
  · decide
  · unfold StreamDac.readBlocks
    decide

end BqWrapper

end Acq400
