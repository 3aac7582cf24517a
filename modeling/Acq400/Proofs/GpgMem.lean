/-
Loading the memory of the pulse generator, and reading it back.

`gpg_buffer` points to words and the position counts bytes, so what is stored or read from a
position on is four times as far on.  The first call is at the beginning, where that is the same.
A load is right exactly if one call takes the whole string, and it is read back right exactly if
one call reads all of it.
-/
import Acq400.Driver.GpgMem
import Acq400.Lib.Reads
import Acq400.Proofs.LoadTimeouts

namespace Acq400

open Reads Writes

namespace GpgFile

/-- The words of a string. -/
def words (data : List UInt8) : List UInt32 :=
  (List.range (data.length / 4)).map fun iw => Mem.load32 (fun a => data.getD a 0) (4 * iw)

/-- A call of the writer. -/
def write (f : GpgFile) (buf : List UInt8) : Option (Nat × GpgFile) :=
  some (f.acq400GpgmemWrite buf)

/-- A call of the reader. -/
def read (f : GpgFile) (count : Nat) : Option (List UInt8 × GpgFile) :=
  some (f.acq400GpgmemRead count)

/-- What is to come of loading `data`, reading it back by `counts`, and the release. -/
structure Right (data : List UInt8) (counts : Nat → Nat) (gpg32 : Bool) (f : GpgFile) : Prop where
  inside : ∀ c ∈ f.stored, c.1 + c.2 ≤ gpgBufferSize
  bytes : ∀ a < data.length, data[a]? = some (f.gpg.gpgBuffer a)
  cursor : f.gpg.gpgCursor = data.length / 4
  reads : ReadsTo read (f.gpg.acq400GpgmemOpen false) counts data
  written : (f.gpg.acq400GpgmemRelease gpg32).gpgBase =
    f.gpg.gpgBase ++ (List.range (data.length / 4)).zip (words data)
  /-- The states are the low bytes; the other file has none. -/
  usedBits : gpg32 = false → (f.gpg.acq400GpgmemRelease gpg32).gpgUsedBits =
    (words data).foldl (fun bits entry => bits ||| (entry &&& 0xff)) 0
  finalState : gpg32 = false → (f.gpg.acq400GpgmemRelease gpg32).gpgFinalState =
    ((words data).getLast?.map (· &&& 0xff)).getD f.gpg.gpgFinalState

/-! ### The release -/

theorem foldl_releaseEntry (gpg : GpgBuffer) (n : Nat) :
    (List.range n).foldl GpgBuffer.releaseEntry gpg =
      { gpg with
        gpgBase := gpg.gpgBase ++ (List.range n).map fun iw => (iw, gpg.word iw)
        gpgUsedBits :=
          (List.range n).foldl (fun bits iw => bits ||| (gpg.word iw &&& 0xff)) gpg.gpgUsedBits
        gpgFinalState :=
          ((List.range n).getLast?.map fun iw => gpg.word iw &&& 0xff).getD
            gpg.gpgFinalState } := by
  induction n with
  | zero =>
    rw [List.range_zero, List.map_nil, List.append_nil]
    rfl
  | succ n ih =>
    rw [List.range_succ, List.foldl_append, ih, List.map_append, List.foldl_append,
      List.getLast?_concat, ← List.append_assoc]
    rfl

/-- The loop that writes the words alone. -/
theorem foldl_iowrite32 (gpg : GpgBuffer) (n : Nat) :
    (List.range n).foldl (fun gpg iw => gpg.iowrite32 (gpg.word iw) iw) gpg =
      { gpg with gpgBase := gpg.gpgBase ++ (List.range n).map fun iw => (iw, gpg.word iw) } := by
  induction n with
  | zero =>
    rw [List.range_zero, List.map_nil, List.append_nil]
    rfl
  | succ n ih =>
    rw [List.range_succ, List.foldl_append, ih, List.map_append, ← List.append_assoc]
    rfl

theorem setGpgTop_rest (gpg : GpgBuffer) (n : Nat) :
    (gpg.setGpgTop n).2.gpgBase = gpg.gpgBase ∧
      (gpg.setGpgTop n).2.gpgUsedBits = gpg.gpgUsedBits ∧
      (gpg.setGpgTop n).2.gpgFinalState = gpg.gpgFinalState := by
  unfold GpgBuffer.setGpgTop
  split
  · exact ⟨rfl, rfl, rfl⟩
  · exact ⟨rfl, rfl, rfl⟩

theorem release_gpgBase (gpg : GpgBuffer) (gpg32 : Bool) :
    (gpg.acq400GpgmemRelease gpg32).gpgBase =
      gpg.gpgBase ++ (List.range gpg.gpgCursor).map fun iw => (iw, gpg.word iw) := by
  cases gpg32 with
  | true =>
    show ((List.range gpg.gpgCursor).foldl _ gpg).gpgBase = _
    rw [foldl_iowrite32]
  | false =>
    show (GpgBuffer.setGpgTop _ _).2.gpgBase = _
    rw [(setGpgTop_rest _ _).1, foldl_releaseEntry]
    rfl

theorem release_states (gpg : GpgBuffer) :
    (gpg.acq400GpgmemRelease false).gpgUsedBits =
        (List.range gpg.gpgCursor).foldl (fun bits iw => bits ||| (gpg.word iw &&& 0xff)) 0 ∧
      (gpg.acq400GpgmemRelease false).gpgFinalState =
        ((List.range gpg.gpgCursor).getLast?.map fun iw => gpg.word iw &&& 0xff).getD
          gpg.gpgFinalState := by
  obtain ⟨-, hused, hfinal⟩ := setGpgTop_rest
    ((List.range gpg.gpgCursor).foldl GpgBuffer.releaseEntry { gpg with gpgUsedBits := 0 })
    gpg.gpgCursor
  constructor
  · refine hused.trans ?_
    rw [foldl_releaseEntry]
    rfl
  · refine hfinal.trans ?_
    rw [foldl_releaseEntry]
    rfl

/-! ### The string as a whole -/

/-- Nothing has been stored yet. -/
structure Fresh (gpg : GpgBuffer) (data : List UInt8) (s : Client GpgFile UInt8) : Prop where
  gpg : s.file.gpg = gpg
  fPos : s.file.fPos = 0
  rest : s.rest = data
  stored : ∀ c ∈ s.file.stored, c = (0, 0)

/-- The string has been stored by one call. -/
structure Whole (gpg : GpgBuffer) (data : List UInt8) (f : GpgFile) : Prop where
  gpg : f.gpg =
    { gpg with
      gpgBuffer := memcpy gpg.gpgBuffer 0 (fun k => data.getD k 0) data.length
      gpgCursor := data.length / 4 }
  stored : ∀ c ∈ f.stored, c.1 = 0 ∧ c.2 ≤ data.length

variable {gpg : GpgBuffer} {data : List UInt8} {s t : Client GpgFile UInt8} {count : Nat}

theorem write_eq (f : GpgFile) (buf : List UInt8) (hfits : f.fPos + buf.length ≤ gpgMemActual)
    (hend : f.fPos < gpgMemActual) :
    f.write buf = some (buf.length,
      { gpg :=
          { f.gpg with
            gpgBuffer := memcpy f.gpg.gpgBuffer (4 * f.fPos) (fun k => buf.getD k 0) buf.length
            gpgCursor := (f.gpg.gpgCursor + buf.length / 4) % 2 ^ 32 }
        fPos := f.fPos + buf.length
        stored := f.stored ++ [(4 * f.fPos, buf.length)] }) := by
  have hcursor : f.fPos % 2 ^ 32 = f.fPos :=
    Nat.mod_eq_of_lt (Nat.lt_trans hend (by decide))
  have hcount : min buf.length (gpgMemActual - f.fPos) = buf.length := by omega
  unfold write acq400GpgmemWrite
  simp only [hcursor, hcount, if_neg (Nat.not_le_of_lt hend), ge_iff_le]

theorem memcpy_none (mem src : Nat → UInt8) (dest : Nat) : memcpy mem dest src 0 = mem := by
  funext a
  unfold memcpy
  rw [if_neg (by omega)]

theorem memcpy_behind (mem src : Nat → UInt8) (n : Nat) : memcpy mem 0 src n n = mem n := by
  unfold memcpy
  rw [if_neg (by omega)]

/-- The bytes of the string are what counts. -/
theorem memcpy_take (mem : Nat → UInt8) (data : List UInt8) {n : Nat} (hn : n = data.length) :
    memcpy mem 0 (fun k => (data.take n).getD k 0) n =
      memcpy mem 0 (fun k => data.getD k 0) data.length := by
  rw [hn, List.take_length]

theorem Fresh.step (h : Fresh gpg data s) (hfits : data.length ≤ gpgMemActual)
    (hpos : 0 < data.length) (hle : count ≤ data.length) :
    Writes.step write s count = some
      { file :=
          { gpg :=
              { gpg with
                gpgBuffer := memcpy gpg.gpgBuffer 0 (fun k => (data.take count).getD k 0) count
                gpgCursor := (gpg.gpgCursor + count / 4) % 2 ^ 32 }
            fPos := count
            stored := s.file.stored ++ [(0, count)] }
        rest := data.drop count } := by
  have hgo : ¬(s.rest = [] ∨ s.rest.length < count) := by
    rw [h.rest]
    exact not_or.mpr ⟨List.ne_nil_of_length_pos hpos, Nat.not_lt_of_le hle⟩
  have hbuf : (data.take count).length = count := List.length_take_of_le hle
  have hwrite := write_eq s.file (data.take count) (by rw [h.fPos, hbuf]; omega)
    (by rw [h.fPos]; exact Nat.zero_lt_of_lt (by decide : 0 < gpgMemActual))
  rw [h.fPos, hbuf, h.gpg, Nat.zero_add] at hwrite
  unfold Writes.step
  rw [if_neg hgo, h.rest, hwrite]
  rfl

theorem Fresh.step_empty (h : Fresh gpg data s) (hfits : data.length ≤ gpgMemActual)
    (hpos : 0 < data.length) (hcursor : gpg.gpgCursor = 0) :
    ∃ u, Writes.step write s 0 = some u ∧ Fresh gpg data u := by
  refine ⟨_, h.step hfits hpos (Nat.zero_le _), ?_, rfl, rfl, ?_⟩
  · show { gpg with gpgBuffer := memcpy gpg.gpgBuffer 0 _ 0, gpgCursor := _ } = gpg
    rw [memcpy_none, hcursor]
    show { gpg with gpgCursor := 0 } = gpg
    rw [← hcursor]
  · intro c hc
    rcases List.mem_append.mp hc with hc | hc
    · exact h.stored c hc
    · exact List.mem_singleton.mp hc

theorem Fresh.step_whole (h : Fresh gpg data s) (hfits : data.length ≤ gpgMemActual)
    (hpos : 0 < data.length) (hcursor : gpg.gpgCursor = 0) :
    ∃ u, Writes.step write s data.length = some u ∧ u.rest = [] ∧ Whole gpg data u.file := by
  refine ⟨_, h.step hfits hpos (Nat.le_refl _), List.drop_length, ?_, ?_⟩
  · have hcount : (gpg.gpgCursor + data.length / 4) % 2 ^ 32 = data.length / 4 := by
      rw [hcursor, Nat.zero_add]
      refine Nat.mod_eq_of_lt (Nat.lt_of_le_of_lt (Nat.div_le_self _ _) ?_)
      exact Nat.lt_of_le_of_lt hfits (by decide)
    show { gpg with gpgBuffer := memcpy gpg.gpgBuffer 0 _ data.length, gpgCursor := _ } = _
    rw [memcpy_take gpg.gpgBuffer data rfl, hcount]
  · intro c hc
    rcases List.mem_append.mp hc with hc | hc
    · rw [h.stored c hc]
      exact ⟨rfl, Nat.zero_le _⟩
    · rw [List.mem_singleton.mp hc]
      exact ⟨rfl, Nat.le_refl _⟩

/-- Nothing else than empty calls and one that takes everything. -/
theorem run_whole (hfits : data.length ≤ gpgMemActual) (hcursor : gpg.gpgCursor = 0)
    (counts : List Nat) :
    ∀ s : Client GpgFile UInt8, Fresh gpg data s → Hands data.length counts →
      (∀ c ∈ counts, c = 0 ∨ c = data.length) →
      ∃ t, Lts.run (Writes.step write) s counts = some t ∧ t.rest = [] ∧ Whole gpg data t.file := by
  induction counts with
  | nil =>
    intro s h hands _
    have hnil : data = [] := List.length_eq_zero_iff.mp hands
    refine ⟨s, rfl, h.rest.trans hnil, ?_, ?_⟩
    · rw [h.gpg, hnil]
      show gpg = { gpg with gpgBuffer := memcpy gpg.gpgBuffer 0 _ 0, gpgCursor := 0 }
      rw [memcpy_none, ← hcursor]
    · intro c hc
      rw [h.stored c hc]
      exact ⟨rfl, Nat.zero_le _⟩
  | cons count counts ih =>
    intro s h hands hall
    obtain ⟨hpos, hle, hrest⟩ := hands
    rw [Lts.run_cons]
    rcases hall count List.mem_cons_self with rfl | rfl
    · obtain ⟨u, hstep, hu⟩ := h.step_empty hfits hpos hcursor
      rw [hstep]
      exact ih u hu hrest fun c hc => hall c (List.mem_cons_of_mem _ hc)
    · obtain ⟨u, hstep, hu, hwhole⟩ := h.step_whole hfits hpos hcursor
      rw [Nat.sub_self] at hrest
      rw [hstep, hrest.nil]
      exact ⟨u, rfl, hu, hwhole⟩

/-! ### The string in pieces -/

theorem write_takes : Takes write GpgFile.fPos := by
  intro f buf taken t hwrite
  unfold write acq400GpgmemWrite at hwrite
  by_cases hend : f.fPos % 2 ^ 32 ≥ gpgMemActual
  · simp only [hend, if_true] at hwrite
    obtain ⟨rfl, rfl⟩ := Prod.mk.inj (Option.some.inj hwrite)
    exact ⟨Nat.zero_le _, rfl⟩
  · simp only [hend, if_false] at hwrite
    obtain ⟨rfl, rfl⟩ := Prod.mk.inj (Option.some.inj hwrite)
    exact ⟨Nat.min_le_left _ _, rfl⟩

theorem Fresh.place (h : Fresh gpg data s) : At GpgFile.fPos data s where
  le := by
    rw [h.fPos]
    exact Nat.zero_le _
  rest := by
    rw [h.fPos]
    exact h.rest

/-- The first call has ended at `p`, and the byte there is as it was. -/
structure Torn (gpg : GpgBuffer) (data : List UInt8) (p : Nat) (s : Client GpgFile UInt8) :
    Prop where
  place : At GpgFile.fPos data s
  le : p ≤ s.file.fPos
  kept : s.file.gpg.gpgBuffer p = gpg.gpgBuffer p

theorem Torn.step {p : Nat} (h : Torn gpg data p s) (hfits : data.length ≤ gpgMemActual)
    (hp : 0 < p) (hstep : Writes.step write s count = some t) : Torn gpg data p t := by
  obtain ⟨hlt, hcount, taken, hcall, -⟩ := h.place.call hstep
  have hbuf := length_piece hcount
  have hwrite := write_eq s.file ((data.drop s.file.fPos).take count)
    (by rw [hbuf]; exact Nat.le_trans hcount hfits) (Nat.lt_of_lt_of_le hlt hfits)
  have hfile := (Prod.mk.inj (Option.some.inj (hcall.symm.trans hwrite))).2
  have hle := h.le
  refine ⟨h.place.step write_takes hstep, ?_, ?_⟩
  · rw [hfile]
    exact Nat.le_add_right_of_le hle
  · rw [hfile]
    dsimp only
    have hbelow : p < 4 * s.file.fPos := by omega
    exact (LoadPrams.memcpy_below hbelow).trans h.kept

/-- A call that takes a part of the string leaves the byte behind it as it was. -/
theorem run_torn (hfits : data.length ≤ gpgMemActual) (hcursor : gpg.gpgCursor = 0)
    (counts : List Nat) :
    ∀ s : Client GpgFile UInt8, Fresh gpg data s → Hands data.length counts →
      ¬(∀ c ∈ counts, c = 0 ∨ c = data.length) →
      Lts.run (Writes.step write) s counts = some t →
      ∃ p < data.length, t.file.gpg.gpgBuffer p = gpg.gpgBuffer p := by
  induction counts with
  | nil =>
    intro s _ _ hpart _
    exact absurd (fun c hc => absurd hc List.not_mem_nil) hpart
  | cons count counts ih =>
    intro s h hands hpart hrun
    obtain ⟨hpos, hle, hrest⟩ := hands
    rw [Lts.run_cons, Option.bind_eq_some_iff] at hrun
    obtain ⟨u, hstep, hrun⟩ := hrun
    by_cases hzero : count = 0
    · subst hzero
      obtain ⟨v, hv, hfresh⟩ := h.step_empty hfits hpos hcursor
      obtain rfl := Option.some.inj (hstep.symm.trans hv)
      refine ih u hfresh hrest ?_ hrun
      intro hall
      exact hpart (List.forall_mem_cons.mpr ⟨Or.inl rfl, hall⟩)
    · by_cases hfull : count = data.length
      · -- nothing is left
        rw [hfull, Nat.sub_self] at hrest
        refine absurd ?_ hpart
        rw [hrest.nil]
        exact List.forall_mem_cons.mpr ⟨Or.inr hfull, fun c hc => absurd hc List.not_mem_nil⟩
      · have htorn : Torn gpg data count u := by
          have hu := Option.some.inj (hstep.symm.trans (h.step hfits hpos hle))
          refine ⟨h.place.step write_takes hstep, ?_, ?_⟩
          · rw [hu]
          · rw [hu]
            dsimp only
            exact memcpy_behind gpg.gpgBuffer _ count
        have hend : Torn gpg data count t :=
          Lts.run_invariant (Torn gpg data count)
            (fun _ _ _ hv hw => hv.step hfits (Nat.pos_of_ne_zero hzero) hw) counts u t htorn hrun
        exact ⟨count, by omega, hend.kept⟩

/-! ### Reading back -/

theorem read_eq (f : GpgFile) (n : Nat) (hend : f.fPos < f.gpg.gpgCursor * 4)
    (hcursor : f.gpg.gpgCursor * 4 < 2 ^ 32) :
    f.read n = some
      (cells f.gpg.gpgBuffer (4 * f.fPos) (min n (f.gpg.gpgCursor * 4 - f.fPos)),
        { f with fPos := f.fPos + min n (f.gpg.gpgCursor * 4 - f.fPos) }) := by
  have hlen : f.gpg.gpgCursor * 4 % 2 ^ 32 = f.gpg.gpgCursor * 4 := Nat.mod_eq_of_lt hcursor
  have hpos : f.fPos % 2 ^ 32 = f.fPos := Nat.mod_eq_of_lt (Nat.lt_trans hend hcursor)
  unfold read acq400GpgmemRead
  simp only [hlen, hpos, ge_iff_le, if_neg (Nat.not_le_of_lt hend)]

theorem read_end (f : GpgFile) (n : Nat) (hend : f.fPos = f.gpg.gpgCursor * 4)
    (hcursor : f.gpg.gpgCursor * 4 < 2 ^ 32) : f.read n = some ([], f) := by
  have hlen : f.gpg.gpgCursor * 4 % 2 ^ 32 = f.gpg.gpgCursor * 4 := Nat.mod_eq_of_lt hcursor
  unfold read acq400GpgmemRead
  simp only [hend, hlen, ge_iff_le, Nat.le_refl, if_true]

/-- Reading on goes on four times as far on. -/
theorem ReadsTo.head {f : GpgFile} {counts : Nat → Nat} {out : List UInt8}
    (h : ReadsTo read f counts out) (hend : f.fPos < f.gpg.gpgCursor * 4)
    (hcursor : f.gpg.gpgCursor * 4 < 2 ^ 32) {b : UInt8} (hb : out[0]? = some b) :
    b = f.gpg.gpgBuffer (4 * f.fPos) := by
  have hread := read_eq f (counts 0) hend hcursor
  cases h with
  | eof h => exact nomatch hb
  | more h hne rest =>
    obtain ⟨rfl, -⟩ := Prod.mk.inj (Option.some.inj (h.symm.trans hread))
    rw [ne_eq, cells_eq_nil] at hne
    rw [List.getElem?_append_left (by rw [length_cells]; omega), getElem?_cells,
      if_pos (by omega)] at hb
    exact (Option.some.inj hb).symm

/-! ### Loads -/

variable {f : GpgFile} {counts : Nat → Nat}

theorem Whole.byte (h : Whole gpg data f) {a : Nat} (ha : a < data.length) :
    f.gpg.gpgBuffer a = data.getD a 0 := by
  rw [h.gpg]
  dsimp only
  unfold memcpy
  rw [if_pos ⟨Nat.zero_le a, by omega⟩, Nat.sub_zero]

theorem Whole.words (h : Whole gpg data f) :
    (List.range (data.length / 4)).map f.gpg.word = words data := by
  refine List.map_congr_left fun iw hiw => ?_
  have hlt := List.mem_range.mp hiw
  unfold GpgBuffer.word Mem.load32
  rw [h.byte (by omega), h.byte (by omega), h.byte (by omega), h.byte (by omega)]

theorem Whole.cells_eq (h : Whole gpg data f) : cells f.gpg.gpgBuffer 0 data.length = data := by
  refine List.ext_getElem? fun a => ?_
  rw [getElem?_cells, Nat.zero_add]
  by_cases ha : a < data.length
  · rw [if_pos ha, h.byte ha, List.getD_eq_getElem?_getD, List.getElem?_eq_getElem ha]
    rfl
  · rw [if_neg ha, List.getElem?_eq_none (Nat.le_of_not_lt ha)]

theorem Whole.reads (h : Whole gpg data f) (hfits : data.length ≤ gpgMemActual)
    (hwords : 4 ∣ data.length) (hcounts : data.length ≤ counts 0) :
    ReadsTo read (f.gpg.acq400GpgmemOpen false) counts data := by
  have hcursor : (f.gpg.acq400GpgmemOpen false).gpg.gpgCursor * 4 = data.length := by
    show f.gpg.gpgCursor * 4 = data.length
    rw [h.gpg]
    exact Nat.div_mul_cancel hwords
  have hlt : (f.gpg.acq400GpgmemOpen false).gpg.gpgCursor * 4 < 2 ^ 32 := by
    rw [hcursor]
    exact Nat.lt_of_le_of_lt hfits (by decide)
  by_cases hsome : 0 < data.length
  · have hread := read_eq (f.gpg.acq400GpgmemOpen false) (counts 0)
      (by rw [hcursor]; exact hsome) hlt
    rw [hcursor] at hread
    have hmin : min (counts 0) (data.length - (f.gpg.acq400GpgmemOpen false).fPos) =
        data.length := Nat.min_eq_right hcounts
    rw [hmin] at hread
    have hall : cells (f.gpg.acq400GpgmemOpen false).gpg.gpgBuffer
        (4 * (f.gpg.acq400GpgmemOpen false).fPos) data.length = data := h.cells_eq
    rw [hall] at hread
    have hdone := ReadsTo.more hread (List.ne_nil_of_length_pos hsome)
      (.eof (read_end _ _ (by rw [hcursor]; exact Nat.zero_add _) hlt))
    rwa [List.append_nil] at hdone
  · have hnil : data = [] := List.length_eq_zero_iff.mp (Nat.eq_zero_of_not_pos hsome)
    rw [hnil] at hcursor ⊢
    exact .eof (read_end _ _ hcursor.symm hlt)

theorem right_of_whole (h : Whole gpg data f) (hfits : data.length ≤ gpgMemActual)
    (hwords : 4 ∣ data.length) (hcounts : data.length ≤ counts 0) (gpg32 : Bool) :
    Right data counts gpg32 f := by
  have hcursor : f.gpg.gpgCursor = data.length / 4 := by
    rw [h.gpg]
  refine ⟨?_, ?_, hcursor, h.reads hfits hwords hcounts, ?_, ?_, ?_⟩
  · intro c hc
    obtain ⟨hzero, hle⟩ := h.stored c hc
    rw [hzero, Nat.zero_add]
    exact Nat.le_trans hle (Nat.le_trans hfits (by decide))
  · intro a ha
    rw [h.byte ha, List.getD_eq_getElem?_getD, List.getElem?_eq_getElem ha]
    rfl
  · rw [release_gpgBase, hcursor, List.map_prod_left_eq_zip, h.words]
  · rintro rfl
    rw [(release_states _).1, hcursor, ← h.words, List.foldl_map]
  · rintro rfl
    rw [(release_states _).2, hcursor, ← h.words, List.getLast?_map, Option.map_map]
    rfl

theorem byte_succ_ne (b : UInt8) : b + 1 ≠ b := by
  intro h
  have hnat := congrArg UInt8.toNat h
  rw [UInt8.toNat_add, UInt8.toNat_one] at hnat
  have := b.toNat_lt
  omega

/-- What the second call reads first, of a string that one call has loaded. -/
theorem Whole.second (h : Whole gpg data f) (hfits : data.length ≤ gpgMemActual)
    (hwords : 4 ∣ data.length) (hcut : counts 0 < data.length)
    (hreads : ReadsTo read (f.gpg.acq400GpgmemOpen false) counts data) :
    0 < counts 0 ∧ data[counts 0]? = some (f.gpg.gpgBuffer (4 * counts 0)) := by
  have hcursor : f.gpg.gpgCursor * 4 = data.length := by
    rw [h.gpg]
    exact Nat.div_mul_cancel hwords
  have hlt : data.length < 2 ^ 32 := Nat.lt_of_le_of_lt hfits (by decide)
  have hread := read_eq (f.gpg.acq400GpgmemOpen false) (counts 0)
    (show 0 < f.gpg.gpgCursor * 4 by omega) (show f.gpg.gpgCursor * 4 < 2 ^ 32 by omega)
  have hmin : min (counts 0) ((f.gpg.acq400GpgmemOpen false).gpg.gpgCursor * 4 -
      (f.gpg.acq400GpgmemOpen false).fPos) = counts 0 := by
    show min (counts 0) (f.gpg.gpgCursor * 4 - 0) = counts 0
    omega
  rw [hmin] at hread
  have hget : data[counts 0]? = some (data.get ⟨counts 0, hcut⟩) :=
    List.getElem?_eq_getElem hcut
  generalize data.get ⟨counts 0, hcut⟩ = b at hget
  rw [hget]
  generalize hall : data = all at hreads hget
  cases hreads with
  | eof => exact nomatch hget
  | @more _ u _ got out hgot hne rest =>
    obtain ⟨rfl, rfl⟩ := Prod.mk.inj (Option.some.inj (hgot.symm.trans hread))
    rw [List.getElem?_append_right (by rw [length_cells]), length_cells, Nat.sub_self] at hget
    rw [ne_eq, cells_eq_nil] at hne
    refine ⟨Nat.pos_of_ne_zero hne, congrArg some ?_⟩
    have hhead := ReadsTo.head rest (b := b) ?_ ?_ hget
    · rw [hhead]
      show f.gpg.gpgBuffer (4 * (0 + counts 0)) = _
      rw [Nat.zero_add]
    · show 0 + counts 0 < f.gpg.gpgCursor * 4
      omega
    · show f.gpg.gpgCursor * 4 < 2 ^ 32
      omega

/-- A string that is read in more than one call does not come back, whatever has been loaded. -/
theorem counts_of_reads (gpg : GpgBuffer) {n : Nat} (hn : n ≤ gpgMemActual) (hwords : 4 ∣ n)
    (hall : ∀ data : List UInt8, data.length = n →
      ∃ f, Whole gpg data f ∧ ReadsTo read (f.gpg.acq400GpgmemOpen false) counts data) :
    n ≤ counts 0 := by
  by_contra hlt
  -- the byte where the second call begins is no other's
  let other := gpg.gpgBuffer (4 * counts 0)
  let data := cells (fun a => if a = counts 0 then other + 1 else other) 0 n
  have hlength : data.length = n := length_cells _ _ _
  obtain ⟨f, hwhole, hreads⟩ := hall data hlength
  obtain ⟨hpos, hsecond⟩ := hwhole.second (hlength ▸ hn) (hlength ▸ hwords)
    (by rw [hlength]; exact Nat.lt_of_not_le hlt) hreads
  rw [getElem?_cells, if_pos (Nat.lt_of_not_le hlt), Nat.zero_add, if_pos rfl] at hsecond
  have hfar : f.gpg.gpgBuffer (4 * counts 0) = other := by
    by_cases hin : 4 * counts 0 < n
    · have hne : ¬4 * counts 0 = counts 0 := by omega
      rw [hwhole.byte (hlength ▸ hin), List.getD_eq_getElem?_getD, getElem?_cells, if_pos hin,
        Nat.zero_add, if_neg hne]
      rfl
    · have hout : ¬(0 ≤ 4 * counts 0 ∧ 4 * counts 0 < 0 + data.length) := by
        rw [hlength]
        omega
      rw [hwhole.gpg]
      exact if_neg hout
  exact byte_succ_ne other ((Option.some.inj hsecond).trans hfar)

/-- A buffer as it is allocated. -/
def newBuffer : GpgBuffer :=
  GpgBuffer.initGpgBuffer
    { gpgBuffer := fun _ => 0xa5, gpgCursor := 0, gpgUsedBits := 0, gpgFinalState := 0,
      gpgBase := [], gpgCr := 0 }

end GpgFile

end Acq400
