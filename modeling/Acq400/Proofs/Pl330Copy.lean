/-
What a transfer leaves in memory, and what it pushes to a peripheral.

The bursts that `pl330_prep_dma_memcpy` selects are whole, fit in the controller's FIFO and keep
the addresses aligned, so the microcode is never stuck, and each burst writes just what it has
read.  A copy is then the copy of the whole buffer; a push is the buffer's bytes, in order, at
the one address.
-/
import Acq400.Proofs.Pl330Code

namespace Acq400

open CodeMachine

/-! ### The control word -/

/-- The word's fields, with those that the bursts are set by in between. -/
def ccrSlots (rqc : ReqCfg) (bursts : List BitField.Slot) : List BitField.Slot :=
  [⟨0, 1, rqc.srcInc.toNat⟩, ⟨14, 1, rqc.dstInc.toNat⟩, ⟨8, 1, rqc.privileged.toNat⟩,
    ⟨22, 1, rqc.privileged.toNat⟩, ⟨9, 1, rqc.nonsecure.toNat⟩, ⟨23, 1, rqc.nonsecure.toNat⟩,
    ⟨10, 1, rqc.insnaccess.toNat⟩, ⟨24, 1, rqc.insnaccess.toNat⟩] ++
    (bursts ++ [⟨11, 3, rqc.scctl⟩, ⟨25, 3, rqc.dcctl⟩, ⟨28, 3, rqc.swap⟩])

/-- Both sides in memory. -/
def memBursts (rqc : ReqCfg) : List BitField.Slot :=
  [⟨4, 4, low4 (rqc.brstLen - 1)⟩, ⟨18, 4, low4 (rqc.brstLen - 1)⟩, ⟨1, 3, rqc.brstSize⟩,
    ⟨15, 3, rqc.brstSize⟩]

/-- How many beats the memory's side of a push has, less one. -/
def memLen (rqc : ReqCfg) : Nat :=
  if rqc.brstSize > axiBsSz then low4 ((rqc.brstLen >>> (rqc.brstSize - axiBsSz) : Nat) - 1) else 0

/-- The destination a peripheral. -/
def pushBursts (rqc : ReqCfg) : List BitField.Slot :=
  [⟨1, 3, rqc.brstSize⟩, ⟨4, 4, memLen rqc⟩, ⟨18, 4, low4 (rqc.brstLen - 1)⟩, ⟨15, 3, axiBsSz⟩]

section Ccr

variable {rqc : ReqCfg}

private theorem flag_toNat (b : Bool) (j : Nat) :
    (if b = true then 1 <<< j else 0) = b.toNat <<< j := by
  cases b <;> simp

theorem prepareCcr_mem (hsrc : rqc.srcInc = true) (hdst : rqc.dstInc = true) :
    _prepareCcr rqc = BitField.pack (ccrSlots rqc (memBursts rqc)) := by
  rw [_prepareCcr, if_neg (by rw [hsrc]; exact Bool.noConfusion),
    if_neg (by rw [hdst]; exact Bool.noConfusion)]
  simp only [flag_toNat, ccrSlots, memBursts, List.cons_append, List.nil_append, BitField.pack,
    Nat.or_zero, Nat.or_assoc]

theorem prepareCcr_push (hsrc : rqc.srcInc = true) (hdst : rqc.dstInc = false) :
    _prepareCcr rqc = BitField.pack (ccrSlots rqc (pushBursts rqc)) := by
  rw [_prepareCcr, if_neg (by rw [hsrc]; exact Bool.noConfusion), if_pos hdst]
  simp only [flag_toNat, ccrSlots, pushBursts, memLen, List.cons_append, List.nil_append,
    BitField.pack, Nat.or_zero, Nat.or_assoc]

/-- What the controller makes of the word. -/
structure CcrIs (ccr : Nat) (srcInc dstInc : Bool) (srcSize srcLen dstSize dstLen : Nat) :
    Prop where
  lt : ccr < 2 ^ 32
  srcInc : BitField.field 0 1 ccr = srcInc.toNat
  dstInc : BitField.field 14 1 ccr = dstInc.toNat
  srcSize : brstSize ccr = 2 ^ srcSize
  srcLen : brstLen ccr = srcLen
  dstSize : 1 <<< BitField.field 15 3 ccr = 2 ^ dstSize
  dstLen : BitField.field 18 4 ccr + 1 = dstLen
  swap : BitField.field 28 3 ccr = 0

theorem bool_toNat_lt (b : Bool) : b.toNat < 2 ^ 1 := by
  cases b <;> decide

theorem CcrIs.of_slots {bursts : List BitField.Slot} (srcSize srcLen dstSize dstLen : Nat)
    (hccr : _prepareCcr rqc = BitField.pack (ccrSlots rqc bursts)) (hswap : rqc.swap = 0)
    (hlt : ∀ f ∈ bursts, f.val < 2 ^ f.width)
    (hshape : (ccrSlots rqc bursts).Pairwise BitField.Slot.Apart)
    (hle : ∀ f ∈ bursts, f.shl + f.width ≤ 32) (hss : ⟨1, 3, srcSize⟩ ∈ bursts)
    (hsl : ⟨4, 4, srcLen⟩ ∈ bursts) (hds : ⟨15, 3, dstSize⟩ ∈ bursts)
    (hdl : ⟨18, 4, dstLen⟩ ∈ bursts) :
    CcrIs (_prepareCcr rqc) rqc.srcInc rqc.dstInc srcSize (srcLen + 1) dstSize (dstLen + 1) := by
  have hall : ∀ f ∈ ccrSlots rqc bursts, f.val < 2 ^ f.width ∧ f.shl + f.width ≤ 32 := by
    intro f hf
    rcases List.mem_append.mp hf with hf | hf
    · simp only [List.mem_cons, List.not_mem_nil, or_false] at hf
      rcases hf with rfl | rfl | rfl | rfl | rfl | rfl | rfl | rfl
      all_goals exact ⟨bool_toNat_lt _, by simp⟩
    · rcases List.mem_append.mp hf with hf | hf
      · exact ⟨hlt f hf, hle f hf⟩
      · simp only [List.mem_cons, List.not_mem_nil, or_false] at hf
        rcases hf with rfl | rfl | rfl
        · exact ⟨rqc.scctl.isLt, by simp⟩
        · exact ⟨rqc.dcctl.isLt, by simp⟩
        · exact ⟨rqc.swap.isLt.trans (by simp), by simp⟩
  have hread : ∀ g ∈ ccrSlots rqc bursts,
      BitField.field g.shl g.width (_prepareCcr rqc) = g.val := by
    intro g hg
    rw [hccr]
    exact BitField.field_pack hg (fun f hf => (hall f hf).1) hshape
  have hburst : ∀ g ∈ bursts, BitField.field g.shl g.width (_prepareCcr rqc) = g.val :=
    fun g hg => hread g (List.mem_append_right _ (List.mem_append_left _ hg))
  refine ⟨?_, ?_, ?_, ?_, ?_, ?_, ?_, ?_⟩
  · rw [hccr]
    exact BitField.pack_lt hall
  · exact hread ⟨0, 1, rqc.srcInc.toNat⟩ (List.mem_append_left _ (by simp))
  · exact hread ⟨14, 1, rqc.dstInc.toNat⟩ (List.mem_append_left _ (by simp))
  · rw [brstSize, hburst _ hss, Nat.one_shiftLeft]
  · rw [brstLen, hburst _ hsl]
  · rw [hburst _ hds, Nat.one_shiftLeft]
  · rw [hburst _ hdl]
  · rw [hread ⟨28, 3, rqc.swap⟩ (List.mem_append_right _ (List.mem_append_right _ (by simp))),
      hswap]
    rfl

theorem low4_pred {n : Nat} (hpos : 1 ≤ n) (hle : n ≤ 16) : low4 ((n : Int) - 1) + 1 = n := by
  unfold low4
  omega

theorem ccrIs_mem (rqc : ReqCfg) (hsrc : rqc.srcInc = true) (hdst : rqc.dstInc = true)
    (hswap : rqc.swap = 0) (hsize : rqc.brstSize < 8) (hlen : 1 ≤ rqc.brstLen ∧ rqc.brstLen ≤ 16) :
    CcrIs (_prepareCcr rqc) true true rqc.brstSize rqc.brstLen rqc.brstSize rqc.brstLen := by
  have hlt := low4_lt (rqc.brstLen - 1)
  have h := CcrIs.of_slots rqc.brstSize (low4 (rqc.brstLen - 1)) rqc.brstSize
    (low4 (rqc.brstLen - 1)) (prepareCcr_mem hsrc hdst) hswap
    (by simpa [memBursts] using ⟨hlt, hsize⟩) (by simp [ccrSlots, memBursts, BitField.Slot.Apart])
    (by simp [memBursts]) (by simp [memBursts]) (by simp [memBursts]) (by simp [memBursts])
    (by simp [memBursts])
  rwa [hsrc, hdst, low4_pred hlen.1 hlen.2] at h

theorem memLen_lt : memLen rqc < 2 ^ 4 := by
  unfold memLen
  split_ifs
  · exact low4_lt _
  · decide

theorem ccrIs_push (rqc : ReqCfg) (hsrc : rqc.srcInc = true) (hdst : rqc.dstInc = false)
    (hswap : rqc.swap = 0) (hsize : rqc.brstSize < 8) (hlen : 1 ≤ rqc.brstLen ∧ rqc.brstLen ≤ 16) :
    CcrIs (_prepareCcr rqc) true false rqc.brstSize (memLen rqc + 1) axiBsSz rqc.brstLen := by
  have hlt := low4_lt (rqc.brstLen - 1)
  have h := CcrIs.of_slots rqc.brstSize (memLen rqc) axiBsSz (low4 (rqc.brstLen - 1))
    (prepareCcr_push hsrc hdst) hswap
    (by simpa [pushBursts] using ⟨hsize, memLen_lt, hlt, by decide⟩)
    (by simp [ccrSlots, pushBursts, BitField.Slot.Apart])
    (by simp [pushBursts]) (by simp [pushBursts]) (by simp [pushBursts]) (by simp [pushBursts])
    (by simp [pushBursts])
  rwa [hsrc, hdst, low4_pred hlen.1 hlen.2] at h

end Ccr

/-! ### Bursts -/

namespace Dma330

variable {pcfg : Pl330Config} {d : Dma330Data}

/-- What the controller, set for a transfer, makes of its bursts. -/
structure Bursting (pcfg : Pl330Config) (d : Dma330Data) (dstInc : Bool) (size n dstSize : Nat) :
    Prop where
  plain : d.plain pcfg = true
  srcInc : d.srcInc = true
  dstInc : d.dstInc = dstInc
  srcSize : brstSize d.ccr = size
  srcBytes : srcBytesPerBurst d.ccr = n
  dstSize : d.dstSize = dstSize
  dstBytes : dstBytesPerBurst d.ccr = n
  fits : n ≤ pcfg.dataBusWidth / 8 * pcfg.dataBufDep

/-- The address that byte `i` is written to. -/
def writeAddr (dstInc : Bool) (dst dstSize i : Nat) : Nat :=
  dst + if dstInc then i else i % dstSize

/-- The writes of `n` bytes. -/
def writes (m : Nat → UInt8) (dstInc : Bool) (src dst dstSize n : Nat) : List (Nat × UInt8) :=
  (List.range n).map fun i => (writeAddr dstInc dst dstSize i, m (src + i))

theorem Bursting.load_eq {dstInc : Bool} {size n dstSize : Nat}
    (h : Bursting pcfg d dstInc size n dstSize) (hempty : d.mfifo = [])
    (hsar : d.sar % size = 0) :
    d.load pcfg = some { d with
      mfifo := (List.range n).map fun i => d.mem (d.sar + i)
      sar := advance true d.sar n } := by
  have hbytes : brstSize d.ccr * brstLen d.ccr = n := h.srcBytes
  have hroom : d.mfifo.length + srcBytesPerBurst d.ccr ≤
      pcfg.dataBusWidth / 8 * pcfg.dataBufDep := by
    rw [hempty, h.srcBytes, List.length_nil, Nat.zero_add]
    exact h.fits
  rw [Dma330Data.load, if_pos ⟨h.plain, by rw [h.srcSize]; exact hsar, hroom⟩, h.srcInc, beats,
    hbytes, h.srcBytes, hempty, List.nil_append, List.map_map]
  rfl

theorem Bursting.store_eq {dstInc : Bool} {size n dstSize : Nat}
    (h : Bursting pcfg d dstInc size n dstSize) {v : Nat → UInt8}
    (hfifo : d.mfifo = (List.range n).map v) (hdar : d.dar % dstSize = 0) :
    d.store pcfg = some { d with
      mfifo := []
      mem := Memory.runWrites d.mem
        ((List.range n).map fun i => (writeAddr dstInc d.dar dstSize i, v i))
      log := d.log ++ (List.range n).map fun i => (writeAddr dstInc d.dar dstSize i, v i)
      dar := advance dstInc d.dar n } := by
  have hbytes : d.dstSize * d.dstLen = n := h.dstBytes
  have hlen : d.mfifo.length = n := by rw [hfifo, List.length_map, List.length_range]
  have htake : d.mfifo.take n = (List.range n).map v := by
    rw [List.take_of_length_le (Nat.le_of_eq hlen), hfifo]
  have hzip : (beats dstInc d.dar d.dstSize d.dstLen).zip (d.mfifo.take n) =
      (List.range n).map fun i => (writeAddr dstInc d.dar dstSize i, v i) := by
    rw [htake, beats, hbytes, h.dstSize]
    exact List.zip_map' ..
  have hdrop : d.mfifo.drop n = [] := List.drop_of_length_le (Nat.le_of_eq hlen)
  rw [Dma330Data.store, if_pos ⟨h.plain, by rw [h.dstSize]; exact hdar, by rw [h.dstBytes, hlen]⟩]
  simp only [h.dstBytes, h.dstInc, hzip, hdrop]

theorem Bursting.burst_eq {dstInc : Bool} {size n dstSize : Nat}
    (h : Bursting pcfg d dstInc size n dstSize) (hempty : d.mfifo = [])
    (hsar : d.sar % size = 0) (hdar : d.dar % dstSize = 0) :
    burst pcfg d = some { d with
      sar := advance true d.sar n
      dar := advance dstInc d.dar n
      mem := Memory.runWrites d.mem (writes d.mem dstInc d.sar d.dar dstSize n)
      log := d.log ++ writes d.mem dstInc d.sar d.dar dstSize n } := by
  have hloaded : Bursting pcfg { d with
      mfifo := (List.range n).map fun i => d.mem (d.sar + i)
      sar := advance true d.sar n } dstInc size n dstSize :=
    ⟨h.plain, h.srcInc, h.dstInc, h.srcSize, h.srcBytes, h.dstSize, h.dstBytes, h.fits⟩
  rw [burst, h.load_eq hempty hsar, Option.bind_some, hloaded.store_eq rfl hdar, hempty]
  rfl

/-- Where `k` bursts have come to. -/
def after (d : Dma330Data) (dstInc : Bool) (n dstSize k : Nat) : Dma330Data :=
  { d with
    sar := (d.sar + k * n) % 2 ^ 32
    dar := if dstInc then (d.dar + k * n) % 2 ^ 32 else d.dar
    mem := Memory.runWrites d.mem (writes d.mem dstInc d.sar d.dar dstSize (k * n))
    log := d.log ++ writes d.mem dstInc d.sar d.dar dstSize (k * n) }

/-- The writes of two pieces of a buffer, the second from where the first ends. -/
theorem writes_add (m : Nat → UInt8) (dstInc : Bool) (src dst dstSize a b : Nat) :
    writes m dstInc src dst dstSize (a + b) = writes m dstInc src dst dstSize a ++
      (List.range b).map fun i => (writeAddr dstInc dst dstSize (a + i), m (src + (a + i))) := by
  rw [writes, List.range_add, List.map_append, List.map_map]
  rfl

theorem writeAddr_add {dstInc : Bool} {dst dstSize a i : Nat} (h : dstSize ∣ a) :
    writeAddr dstInc dst dstSize (a + i) =
      writeAddr dstInc (if dstInc then dst + a else dst) dstSize i := by
  unfold writeAddr
  cases dstInc with
  | true => exact (Nat.add_assoc ..).symm
  | false =>
      obtain ⟨c, rfl⟩ := h
      simp

/-- Bursts one after the other write what was in the source when they began, where none of them
writes into it. -/
theorem Bursting.times_burst {dstInc : Bool} {size n dstSize : Nat}
    (h : Bursting pcfg d dstInc size n dstSize) (hempty : d.mfifo = [])
    (hsar : size ∣ d.sar) (hdar : dstSize ∣ d.dar) (hsize : size ∣ n) (hdst : dstSize ∣ n)
    (hn : 0 < n) (hsrcLt : d.sar < 2 ^ 32) (hdstLt : d.dar < 2 ^ 32) {k : Nat}
    (hsrcEnd : d.sar + k * n ≤ 2 ^ 32) (hdstEnd : dstInc = true → d.dar + k * n ≤ 2 ^ 32)
    (hapart : ∀ i < k * n, ∀ j < k * n, writeAddr dstInc d.dar dstSize i ≠ d.sar + j) :
    times (burst pcfg) k d = some (after d dstInc n dstSize k) := by
  induction k with
  | zero =>
      simp only [times_zero, after, writes, Nat.zero_mul, Nat.add_zero, List.range_zero,
        List.map_nil, Memory.runWrites_nil, List.append_nil, Nat.mod_eq_of_lt hsrcLt,
        Nat.mod_eq_of_lt hdstLt, ite_self]
  | succ k ih =>
      rw [Nat.succ_mul] at hsrcEnd hdstEnd hapart
      have hdone := ih (by omega) (fun hi => by have := hdstEnd hi; omega)
        fun i hi j hj => hapart i (by omega) j (by omega)
      have hsar' : (d.sar + k * n) % 2 ^ 32 = d.sar + k * n := Nat.mod_eq_of_lt (by omega)
      have hdar' : (if dstInc then (d.dar + k * n) % 2 ^ 32 else d.dar) =
          if dstInc then d.dar + k * n else d.dar := by
        split_ifs with hi
        · exact Nat.mod_eq_of_lt (by have := hdstEnd hi; omega)
        · rfl
      have hnext : Bursting pcfg (after d dstInc n dstSize k) dstInc size n dstSize :=
        ⟨h.plain, h.srcInc, h.dstInc, h.srcSize, h.srcBytes, h.dstSize, h.dstBytes, h.fits⟩
      -- what this burst reads has not been written to
      have hread : ∀ i < n, (after d dstInc n dstSize k).mem (d.sar + k * n + i) =
          d.mem (d.sar + (k * n + i)) := by
        intro i hi
        rw [Nat.add_assoc]
        refine Memory.runWrites_outside _ _ fun w hw => ?_
        obtain ⟨j, hj, rfl⟩ := List.mem_map.mp hw
        rw [List.mem_range] at hj
        exact hapart j (by omega) (k * n + i) (by omega)
      have hwrites : writes (after d dstInc n dstSize k).mem dstInc
          (after d dstInc n dstSize k).sar (after d dstInc n dstSize k).dar dstSize n =
            (List.range n).map fun i =>
              (writeAddr dstInc d.dar dstSize (k * n + i), d.mem (d.sar + (k * n + i))) := by
        refine List.map_congr_left fun i hi => ?_
        rw [writeAddr_add (hdst.mul_left k), ← hdar', ← hread i (List.mem_range.mp hi), ← hsar']
        rfl
      have hsarMod : (after d dstInc n dstSize k).sar % size = 0 := by
        show (d.sar + k * n) % 2 ^ 32 % size = 0
        rw [hsar']
        exact Nat.mod_eq_zero_of_dvd (hsar.add (hsize.mul_left k))
      have hdarMod : (after d dstInc n dstSize k).dar % dstSize = 0 := by
        show (if dstInc then (d.dar + k * n) % 2 ^ 32 else d.dar) % dstSize = 0
        rw [hdar']
        split_ifs
        · exact Nat.mod_eq_zero_of_dvd (hdar.add (hdst.mul_left k))
        · exact Nat.mod_eq_zero_of_dvd hdar
      rw [times_add, hdone, Option.bind_some, times_succ, hnext.burst_eq hempty hsarMod hdarMod,
        hwrites, Option.bind_some, times_zero]
      refine congrArg some ?_
      have hsarEnd : advance true (after d dstInc n dstSize k).sar n =
          (d.sar + (k * n + n)) % 2 ^ 32 := by
        show ((d.sar + k * n) % 2 ^ 32 + n) % 2 ^ 32 = _
        rw [hsar', Nat.add_assoc]
      have hdarEnd : advance dstInc (after d dstInc n dstSize k).dar n =
          if dstInc then (d.dar + (k * n + n)) % 2 ^ 32 else d.dar := by
        show (if dstInc then ((if dstInc then (d.dar + k * n) % 2 ^ 32 else d.dar) + n) % 2 ^ 32
          else if dstInc then (d.dar + k * n) % 2 ^ 32 else d.dar) = _
        rw [hdar']
        cases dstInc with
        | true => exact congrArg (· % 2 ^ 32) (Nat.add_assoc ..)
        | false => rfl
      rw [hsarEnd, hdarEnd]
      simp only [after, Nat.succ_mul, writes_add, Memory.runWrites_append, List.append_assoc]

/-- A request whose bursts read and write the same number of bytes writes what is in its
source. -/
theorem transfer_runs {rqc : ReqCfg} {dstInc : Bool} {ss sl ds dl n : Nat}
    (h : CcrIs (_prepareCcr rqc) true dstInc ss sl ds dl) (hread : 2 ^ ss * sl = n)
    (hwrite : 2 ^ ds * dl = n) (hn : 0 < n)
    (hfits : n ≤ pcfg.dataBusWidth / 8 * pcfg.dataBufDep)
    (hss : 2 ^ ss ≤ pcfg.dataBusWidth / 8) (hds : 2 ^ ds ≤ pcfg.dataBusWidth / 8)
    {src dst len : Nat} (ev : Nat) (hwhole : n ∣ len) (hlen : 0 < len)
    (hsrc : 2 ^ ss ∣ src) (hdst : 2 ^ ds ∣ dst) (hsrcEnd : src + len ≤ 2 ^ 32)
    (hdstLt : dst < 2 ^ 32) (hdstEnd : dstInc = true → dst + len ≤ 2 ^ 32)
    (hapart : ∀ i < len, ∀ j < len, writeAddr dstInc dst (2 ^ ds) i ≠ src + j) :
    ∃ code, Emit._setupReq pcfg rqc src dst len ev = some code ∧
      ∀ s : Dma330, s.pc = 0 → s.data.mfifo = [] →
        ∃ t, (machine pcfg).Reaches code s t ∧ Stopped code t ∧
          t.data.mem =
            Memory.runWrites s.data.mem (writes s.data.mem dstInc src dst (2 ^ ds) len) ∧
          t.data.log = s.data.log ++ writes s.data.mem dstInc src dst (2 ^ ds) len ∧
          t.data.mfifo = [] ∧ t.data.events = s.data.events ++ eventsOf rqc ev := by
  have hbytes : brstSize (_prepareCcr rqc) * brstLen (_prepareCcr rqc) = n := by
    rw [h.srcSize, h.srcLen, hread]
  have hcode : ∃ code, Emit._setupReq pcfg rqc src dst len ev = some code := by
    rw [Emit._setupReq, if_neg (by rw [hbytes, not_not]; exact Nat.mod_eq_zero_of_dvd hwhole)]
    exact ⟨_, rfl⟩
  obtain ⟨code, hcode⟩ := hcode
  refine ⟨code, hcode, fun s hpc hempty => ?_⟩
  have hcount : byteToBurst len (_prepareCcr rqc) * n = len := by
    rw [byteToBurst, Nat.div_div_eq_div_mul, hbytes]
    exact Nat.div_mul_cancel hwhole
  have hbursting : Bursting pcfg { s.data with ccr := _prepareCcr rqc, sar := src, dar := dst }
      dstInc (2 ^ ss) n (2 ^ ds) := by
    refine ⟨?_, ?_, ?_, h.srcSize, hbytes, h.dstSize, ?_, hfits⟩
    · simp only [Dma330Data.plain, Dma330Data.dstSize, h.swap, h.srcSize, h.dstSize, hss, hds,
        and_self, decide_true]
    · simp only [Dma330Data.srcInc, h.srcInc, Bool.toNat_true, decide_true]
    · simp only [Dma330Data.dstInc, h.dstInc]
      cases dstInc <;> rfl
    · rw [dstBytesPerBurst, h.dstSize, h.dstLen, hwrite]
  have hbursts := hbursting.times_burst hempty hsrc hdst (Dvd.intro _ hread) (Dvd.intro _ hwrite)
    hn (show src < 2 ^ 32 by omega) hdstLt (k := byteToBurst len (_prepareCcr rqc))
    (by rw [hcount]; exact hsrcEnd) (by rw [hcount]; exact hdstEnd) (by rw [hcount]; exact hapart)
  obtain ⟨t, hreach, hstop, hdata⟩ := setupReq_runs pcfg rqc (show src < 2 ^ 32 by omega) hdstLt
    h.lt hcode hpc hbursts
  refine ⟨t, hreach, hstop, ?_⟩
  rw [hdata]
  simp only [after, hcount, hempty, and_self]

end Dma330

/-! ### The bursts of a descriptor -/

theorem brstSizeFor_two_pow {bs : Nat} (h : bs < 8) : brstSizeFor (2 ^ bs) = some bs := by
  revert bs
  decide

/-- What `pl330_prep_dma_memcpy` selects are whole bursts that fit in the controller's FIFO. -/
theorem prepDmaMemcpy_bursts {pcfg : Pl330Config} (desc : ReqCfg) (flags : PrepFlags)
    {w len : Nat} (hbus : pcfg.dataBusWidth = 8 * 2 ^ w) (hw : w < 8)
    (hdep : 0 < pcfg.dataBufDep) (hlen : 0 < len) :
    ∃ rqcfg, pl330PrepDmaMemcpy pcfg desc len flags = some rqcfg ∧
      rqcfg.srcInc = !flags.srcNoIncr ∧ rqcfg.dstInc = !flags.dstNoIncr ∧
      rqcfg.swap = desc.swap ∧ rqcfg.brstSize ≤ w ∧ (1 ≤ rqcfg.brstLen ∧ rqcfg.brstLen ≤ 16) ∧
      2 ^ rqcfg.brstSize * rqcfg.brstLen ∣ len ∧
      2 ^ rqcfg.brstSize * rqcfg.brstLen ≤ 2 ^ w * pcfg.dataBufDep := by
  have hwidth : pcfg.dataBusWidth / 8 = 2 ^ w := by
    rw [hbus, Nat.mul_div_cancel_left _ (by decide)]
  obtain ⟨hle, hdiv, -⟩ := awgBs_spec len w
  have hmax : maxBurstLen pcfg (awgBs len w) = 2 ^ w * pcfg.dataBufDep / 2 ^ awgBs len w := by
    rw [maxBurstLen, hwidth, Nat.shiftRight_eq_div_pow]
  have hone : 1 ≤ min (maxBurstLen pcfg (awgBs len w)) 16 := by
    refine Nat.le_min.mpr ⟨?_, by decide⟩
    rw [hmax, Nat.one_le_div_iff (Nat.two_pow_pos _)]
    calc 2 ^ awgBs len w ≤ 2 ^ w := Nat.pow_le_pow_right (by decide) hle
      _ ≤ 2 ^ w * pcfg.dataBufDep := Nat.le_mul_of_pos_right _ hdep
  obtain ⟨hpos, hbl, hmod⟩ := awgBl_spec hdiv _ hone
  rw [← burstLenFor_eq] at hpos hbl hmod
  unfold pl330PrepDmaMemcpy
  rw [if_neg (by omega), hwidth, burstFor_eq, brstSizeFor_two_pow (by omega), Option.map_some]
  refine ⟨_, rfl, rfl, rfl, rfl, hle, ⟨hpos, ?_⟩, ?_, ?_⟩
  · exact hbl.trans (Nat.min_le_right ..)
  · rw [Nat.mul_comm]
    exact Nat.dvd_of_mod_eq_zero hmod
  · have hcap : getBurstLen pcfg (awgBs len w) len ≤ 2 ^ w * pcfg.dataBufDep / 2 ^ awgBs len w :=
      hmax ▸ hbl.trans (Nat.min_le_left ..)
    calc 2 ^ awgBs len w * getBurstLen pcfg (awgBs len w) len
        ≤ 2 ^ awgBs len w * (2 ^ w * pcfg.dataBufDep / 2 ^ awgBs len w) :=
          Nat.mul_le_mul_left _ hcap
      _ ≤ 2 ^ w * pcfg.dataBufDep := Nat.mul_div_le _ _

open Dma330

/-- A thread that is about to start, over some memory. -/
def Dma330.start (mem : Nat → UInt8) : Dma330 where
  pc := 0
  lc := fun _ => 0
  data := { sar := 0, dar := 0, ccr := 0, mfifo := [], mem := mem, log := [], events := [] }

/-- A copy between two buffers. -/
def memCopy : PrepFlags where
  srcNoIncr := false
  dstNoIncr := false
  waitEv := 0
  setEv := 0
  startsWfp := 0
  endsFlushp := 0

end Acq400
