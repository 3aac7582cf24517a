/-
What is sent of the buffers.

With some packets for each buffer the samples go out from `positions`: the packets are as far apart
as the buffer has bytes for each, which need not be whole samples.  Without, the buffer is taken in
messages of so many samples, and what is left of it is not sent.  `local_spad` goes through all the
samples that are instrumented, so that each has the difference to the one before it (`Follows`).
-/
import Acq400.Lib.Strides
import Acq400.Stream.BbqSend
import Mathlib.Data.List.Chain

namespace Acq400

namespace BbqSend

/-- `sample_size_bytes`. -/
def Globals.size (g : Globals) : Nat := g.sampleSizeBytes.toNat

/-- `buffer_data_bytes`. -/
def Globals.bytes (g : Globals) : Nat := g.bufferDataBytes.toNat

variable {g : Globals} {buf : Mem} {ib : Nat} {s : LocalSpad}

/-! ### One sample after the other -/

/-- What is sent of samples at some places. -/
def sendAll (g : Globals) (buf : Mem) (ib : Nat) : List (BitVec 32) → LocalSpad →
    List Send × LocalSpad
  | [], s => ([], s)
  | cursor :: rest, s =>
    let first := sendSample g buf ib cursor s
    let more := sendAll g buf ib rest first.2
    (first.1 ++ more.1, more.2)

theorem sendAll_append (as bs : List (BitVec 32)) (s : LocalSpad) :
    sendAll g buf ib (as ++ bs) s =
      ((sendAll g buf ib as s).1 ++ (sendAll g buf ib bs (sendAll g buf ib as s).2).1,
        (sendAll g buf ib bs (sendAll g buf ib as s).2).2) := by
  induction as generalizing s with
  | nil => rfl
  | cons a as ih =>
      simp only [List.cons_append, sendAll, ih, List.append_assoc]

theorem packetLoop_eq (cursor : BitVec 32) (left : Nat) : ∀ (ii : Nat) (s : LocalSpad),
    packetLoop g buf ib cursor left ii s = sendAll g buf ib
      ((List.range' ii left).map fun i => cursor + BitVec.ofNat 32 i * g.sampleSizeBytes) s := by
  induction left with
  | zero => intros; rfl
  | succ left ih =>
      intro ii s
      rw [packetLoop, List.range'_succ, List.map_cons, sendAll]
      simp only [ih]

theorem packets_eq (g : Globals) (buf : Mem) (ib : Nat) (stride : BitVec 32) (left : Nat) :
    ∀ (p : Nat) (s : LocalSpad),
      packets g buf ib stride left (BitVec.ofNat 32 p * stride) s = sendAll g buf ib
        ((List.range' p left).flatMap fun p => (List.range' 0 g.samplesPerPacket).map fun i =>
          BitVec.ofNat 32 p * stride + BitVec.ofNat 32 i * g.sampleSizeBytes) s := by
  induction left with
  | zero => intros; rfl
  | succ left ih =>
      intro p s
      have hnext : BitVec.ofNat 32 p * stride + stride = BitVec.ofNat 32 (p + 1) * stride := by
        rw [BitVec.ofNat_add, BitVec.add_mul, BitVec.one_mul]
      rw [packets, List.range'_succ, List.flatMap_cons, sendAll_append, hnext]
      simp only [packetLoop_eq, ih]

/-! ### Where the samples are -/

/-- The places that the packets of a buffer are sent from. -/
def positions (g : Globals) : List Nat :=
  Strides.blocks g.packetsPerBuffer g.samplesPerPacket (g.bytes / g.packetsPerBuffer) g.size

/-- A sample ends with a scratchpad, a packet has samples, and the buffer has room for as many as
there are in the packets. -/
structure Fits (g : Globals) : Prop where
  size : 16 ≤ g.size
  samples : 1 ≤ g.samplesPerPacket
  intSamples : g.samplesPerPacket < 2 ^ 31
  intPackets : g.packetsPerBuffer < 2 ^ 31
  room : g.packetsPerBuffer * g.samplesPerPacket * g.size ≤ g.bytes

theorem Fits.size_pos (h : Fits g) : 0 < g.size := Nat.lt_of_lt_of_le (by decide) h.size

theorem Fits.block (h : Fits g) (hppb : 0 < g.packetsPerBuffer) :
    g.samplesPerPacket * g.size ≤ g.bytes / g.packetsPerBuffer := by
  rw [Nat.le_div_iff_mul_le hppb, Nat.mul_comm, ← Nat.mul_assoc]
  exact h.room

theorem inside_of_mem_positions (h : Fits g) (hppb : 0 < g.packetsPerBuffer) {x : Nat}
    (hx : x ∈ positions g) : x + g.size ≤ g.bytes :=
  Strides.inside_of_mem_blocks (h.block hppb) (Nat.mul_div_le _ _) hx

theorem packets_positions (h : Fits g) :
    packets g buf ib (g.bufferDataBytes / BitVec.ofNat 32 g.packetsPerBuffer)
        g.packetsPerBuffer 0 s =
      sendAll g buf ib ((positions g).map (BitVec.ofNat 32)) s := by
  have hstride : g.bufferDataBytes / BitVec.ofNat 32 g.packetsPerBuffer =
      BitVec.ofNat 32 (g.bytes / g.packetsPerBuffer) := by
    have hle := Nat.div_le_self g.bytes g.packetsPerBuffer
    have hlt : g.bytes < 2 ^ 32 := g.bufferDataBytes.isLt
    have := h.intPackets
    rw [← BitVec.toNat_inj, BitVec.toNat_udiv, BitVec.toNat_ofNat, BitVec.toNat_ofNat,
      Nat.mod_eq_of_lt (by omega), Nat.mod_eq_of_lt (by omega)]
    rfl
  have hsize : g.sampleSizeBytes = BitVec.ofNat 32 g.size := by
    unfold Globals.size
    rw [BitVec.ofNat_toNat, BitVec.setWidth_eq]
  have hfirst := packets_eq g buf ib
    (BitVec.ofNat 32 (g.bytes / g.packetsPerBuffer)) g.packetsPerBuffer 0 s
  rw [BitVec.zero_mul] at hfirst
  rw [hstride]
  refine hfirst.trans ?_
  unfold positions Strides.blocks
  rw [List.map_flatMap, List.range_eq_range', List.range_eq_range']
  congr 1
  refine List.flatMap_congr fun p _ => ?_
  rw [List.map_map]
  refine List.map_congr_left fun i _ => ?_
  rw [Function.comp_apply, BitVec.ofNat_add, BitVec.ofNat_mul, BitVec.ofNat_mul, hsize]

/-! ### What has been sent -/

/-- A sample that has been sent: where it was, and the first and the third word of its
scratchpad. -/
structure Sent where
  start : Nat
  count : UInt32
  third : UInt32

/-- A sample as it is in the buffer. -/
def sampleAt (g : Globals) (buf : Mem) (start : Nat) : Sent :=
  { start := start
    count := buf.load32 (start + g.size - 16)
    third := buf.load32 (start + g.size - 8) }

/-- The samples that have been sent: each with its scratchpad, or as many as are whole in what is
sent at once. -/
def sent (g : Globals) (buf : Mem) : List Send → List Sent
  | [] => []
  | .data off _ :: .spad _ words :: rest =>
    { start := off.toNat, count := words.w0, third := words.w2 } :: sent g buf rest
  | .data off len :: rest =>
    ((List.range (len.toNat / g.size)).map fun j => sampleAt g buf (off.toNat + j * g.size)) ++
      sent g buf rest
  | .spad _ _ :: rest => sent g buf rest

/-- What is looked at is in the buffer. -/
def Send.Inside (g : Globals) : Send → Prop
  | .data off len => off.toNat + len.toNat ≤ g.bytes
  | .spad src _ => src.toNat + 8 ≤ g.bytes

/-- The third words are the differences of the counts, the first from `count`. -/
def Follows : UInt32 → List Sent → Prop
  | _, [] => True
  | count, sample :: rest => sample.third = sample.count - count ∧ Follows sample.count rest

/-- The count of the last sample. -/
def lastCount (count : UInt32) (samples : List Sent) : UInt32 :=
  samples.foldl (fun _ sample => sample.count) count

theorem follows_append {count : UInt32} {as bs : List Sent} :
    Follows count (as ++ bs) ↔ Follows count as ∧ Follows (lastCount count as) bs := by
  induction as generalizing count with
  | nil => exact (and_iff_right trivial).symm
  | cons a as ih =>
      rw [List.cons_append, Follows, Follows, ih, and_assoc]
      rfl

theorem Follows.isChain {count : UInt32} {samples : List Sent} (h : Follows count samples) :
    samples.IsChain fun a b => b.third = b.count - a.count := by
  induction samples generalizing count with
  | nil => exact List.IsChain.nil
  | cons a rest ih =>
      cases rest with
      | nil => exact List.IsChain.singleton a
      | cons b rest => exact List.IsChain.cons_cons h.2.1 (ih h.2)

/-- The samples at some places, with what is made of their scratchpads. -/
def instrumented (g : Globals) (buf : Mem) : UInt32 → List Nat → List Sent
  | _, [] => []
  | count, x :: rest =>
    let sample := sampleAt g buf x
    { sample with third := sample.count - count } :: instrumented g buf sample.count rest

theorem instrumented_start (count : UInt32) (xs : List Nat) :
    (instrumented g buf count xs).map Sent.start = xs := by
  induction xs generalizing count with
  | nil => rfl
  | cons x xs ih =>
      rw [instrumented, List.map_cons, ih]
      rfl

theorem instrumented_follows (count : UInt32) (xs : List Nat) :
    Follows count (instrumented g buf count xs) := by
  induction xs generalizing count with
  | nil => trivial
  | cons x xs ih => exact ⟨rfl, ih _⟩

/-! ### What is sent from places in the buffer -/

theorem toNat_scratchpad (h : Fits g) {x : Nat} (hx : x + g.size ≤ g.bytes) :
    (BitVec.ofNat 32 x + g.sampleSizeBytes - lspadlen).toNat = x + g.size - 16 := by
  have hlt : g.bytes < 2 ^ 32 := g.bufferDataBytes.isLt
  have hsize : 16 ≤ g.sampleSizeBytes.toNat := h.size
  have hx : x + g.sampleSizeBytes.toNat ≤ g.bytes := hx
  unfold Globals.size lspadlen
  rw [BitVec.toNat_sub, BitVec.toNat_add, BitVec.toNat_ofNat, Nat.mod_eq_of_lt (by omega : x < _),
    Nat.mod_eq_of_lt (by omega : x + _ < _)]
  show (2 ^ 32 - 16 + _) % 2 ^ 32 = _
  omega

theorem toNat_cut (h : Fits g) : (g.sampleSizeBytes - lspadlen).toNat = g.size - 16 := by
  have hsize : lspadlen ≤ g.sampleSizeBytes := h.size
  rw [BitVec.toNat_sub_of_le hsize]
  rfl

section Spad

variable {x : Nat}

theorem toNat_place (h : Fits g) (hx : x + g.size ≤ g.bytes) : (BitVec.ofNat 32 x).toNat = x := by
  have hlt : g.bytes < 2 ^ 32 := g.bufferDataBytes.isLt
  have hsize := h.size
  rw [BitVec.toNat_ofNat, Nat.mod_eq_of_lt (by omega)]

theorem sendSample_count (h : Fits g) (hspad : g.spad = true) (hx : x + g.size ≤ g.bytes)
    (s : LocalSpad) :
    (sendSample g buf ib (BitVec.ofNat 32 x) s).2.w0 = (sampleAt g buf x).count := by
  unfold sendSample
  rw [if_pos hspad]
  exact congrArg buf.load32 (toNat_scratchpad h hx)

theorem sent_sendSample (h : Fits g) (hspad : g.spad = true) (hx : x + g.size ≤ g.bytes)
    (s : LocalSpad) (rest : List Send) :
    sent g buf ((sendSample g buf ib (BitVec.ofNat 32 x) s).1 ++ rest) =
      { sampleAt g buf x with third := (sampleAt g buf x).count - s.w0 } :: sent g buf rest := by
  unfold sendSample
  rw [if_pos hspad]
  simp only [instrumentSpad, List.cons_append, List.nil_append, sent, toNat_place h hx,
    toNat_scratchpad h hx, sampleAt]

theorem sendSample_inside (h : Fits g) (hspad : g.spad = true) (hx : x + g.size ≤ g.bytes)
    (s : LocalSpad) :
    ∀ send ∈ (sendSample g buf ib (BitVec.ofNat 32 x) s).1, send.Inside g := by
  have hsize := h.size
  intro send hsend
  unfold sendSample at hsend
  rw [if_pos hspad] at hsend
  simp only [instrumentSpad, List.mem_cons, List.not_mem_nil, or_false] at hsend
  rcases hsend with rfl | rfl
  · show _ + _ ≤ _
    have hcut := toNat_cut h
    rw [toNat_place h hx]
    omega
  · show _ + 8 ≤ _
    rw [toNat_scratchpad h hx]
    omega

/-- With a scratchpad, what is sent of the samples is instrumented. -/
theorem sent_sendAll_spad (buf : Mem) (ib : Nat) (h : Fits g) (hspad : g.spad = true)
    {xs : List Nat} (hin : ∀ x ∈ xs, x + g.size ≤ g.bytes) (s : LocalSpad) :
    sent g buf (sendAll g buf ib (xs.map (BitVec.ofNat 32)) s).1 =
        instrumented g buf s.w0 xs ∧
      (∀ send ∈ (sendAll g buf ib (xs.map (BitVec.ofNat 32)) s).1, send.Inside g) ∧
      (sendAll g buf ib (xs.map (BitVec.ofNat 32)) s).2.w0 =
        lastCount s.w0 (instrumented g buf s.w0 xs) := by
  induction xs generalizing s with
  | nil =>
      refine ⟨rfl, ?_, rfl⟩
      intro send hsend
      exact absurd hsend List.not_mem_nil
  | cons x xs ih =>
      have hx := hin x List.mem_cons_self
      obtain ⟨hsent, hinside, hlast⟩ := ih (fun y hy => hin y (List.mem_cons_of_mem _ hy))
        (sendSample g buf ib (BitVec.ofNat 32 x) s).2
      rw [List.map_cons, sendAll]
      refine ⟨?_, ?_, ?_⟩
      · rw [sent_sendSample h hspad hx, hsent, sendSample_count h hspad hx]
        rfl
      · intro send hsend
        rcases List.mem_append.mp hsend with hfirst | hrest
        · exact sendSample_inside h hspad hx s send hfirst
        · exact hinside send hrest
      · rw [hlast, sendSample_count h hspad hx]
        rfl

end Spad

/-- Without, the buffer is sent as it is. -/
theorem sendAll_data (hspad : g.spad = false) (offs : List (BitVec 32)) :
    sendAll g buf ib offs s = (offs.map fun off => .data off g.sampleSizeBytes, s) := by
  induction offs with
  | nil => rfl
  | cons off offs ih =>
      have hsample : sendSample g buf ib off s = ([.data off g.sampleSizeBytes], s) := by
        unfold sendSample
        rw [hspad]
        rfl
      rw [sendAll, hsample, ih]
      rfl

theorem messages_eq (len : BitVec 32) (left : Nat) : ∀ k : Nat,
    messages len left (BitVec.ofNat 32 k * len) =
      (List.range' k left).map fun k => .data (BitVec.ofNat 32 k * len) len := by
  induction left with
  | zero => intro; rfl
  | succ left ih =>
      intro k
      have hnext : BitVec.ofNat 32 k * len + len = BitVec.ofNat 32 (k + 1) * len := by
        rw [BitVec.ofNat_add, BitVec.add_mul, BitVec.one_mul]
      rw [messages, List.range'_succ, List.map_cons, hnext, ih]

/-- The samples of what is sent as it is. -/
theorem sent_data (len : BitVec 32) (offs : List (BitVec 32)) :
    sent g buf (offs.map fun off => .data off len) = offs.flatMap fun off =>
      (List.range (len.toNat / g.size)).map fun j => sampleAt g buf (off.toNat + j * g.size) := by
  induction offs with
  | nil => rfl
  | cons off offs ih =>
      rw [List.flatMap_cons, ← ih]
      cases offs with
      | nil => rfl
      | cons next offs => rfl

/-! ### What is sent of a buffer -/

/-- The length of a message, of which there are `imax`. -/
def Globals.messageLen (g : Globals) : BitVec 32 :=
  g.sampleSizeBytes * BitVec.ofNat 32 g.samplesPerPacket

def Globals.imax (g : Globals) : Nat := (g.bufferDataBytes / g.messageLen).toInt.toNat

/-- The whole samples of a buffer. -/
def Globals.whole (g : Globals) : Nat := g.bytes / g.size

/-- Where the samples are that are sent. -/
def starts (g : Globals) : List Nat :=
  if 0 < g.packetsPerBuffer then positions g
  else Strides.blocks g.imax (g.messageLen.toNat / g.size) g.messageLen.toNat g.size

theorem toNat_toInt_le (x : BitVec 32) : x.toInt.toNat ≤ x.toNat := by
  rw [BitVec.toInt_eq_toNat_cond]
  split
  · rw [Int.toNat_natCast]
  · have := x.isLt
    omega

theorem imax_mul_le : g.imax * g.messageLen.toNat ≤ g.bytes := by
  have hle := toNat_toInt_le (g.bufferDataBytes / g.messageLen)
  rw [BitVec.toNat_udiv] at hle
  exact Nat.le_trans (Nat.mul_le_mul_right _ hle) (Nat.div_mul_le_self _ _)

/-- What a buffer has come to, which began with `s`. -/
structure Outcome (g : Globals) (buf : Mem) (s : LocalSpad) (sends : List Send)
    (s' : LocalSpad) : Prop where
  inside : ∀ send ∈ sends, send.Inside g
  starts : (sent g buf sends).map Sent.start = starts g
  follows : g.spad = true → 0 < g.packetsPerBuffer →
    Follows s.w0 (sent g buf sends) ∧ s'.w0 = lastCount s.w0 (sent g buf sends)
  raw : g.packetsPerBuffer = 0 → sent g buf sends = (BbqSend.starts g).map (sampleAt g buf)

theorem send_packets (h : Fits g) (hppb : 0 < g.packetsPerBuffer) :
    ∃ r, send g buf ib s = some r ∧ Outcome g buf s r.1 r.2 := by
  have hstarts : starts g = positions g := if_pos hppb
  have hin := fun x hx => inside_of_mem_positions h hppb (x := x) hx
  refine ⟨_, (if_pos hppb).trans (congrArg some (packets_positions h)), ?_⟩
  cases hspad : g.spad with
  | true =>
      obtain ⟨hsent, hinside, hlast⟩ := sent_sendAll_spad buf ib h hspad hin s
      refine ⟨hinside, ?_, fun _ _ => ?_, fun hzero => absurd hppb (by omega)⟩
      · rw [hsent, instrumented_start, hstarts]
      · rw [hsent]
        exact ⟨instrumented_follows _ _, hlast⟩
  | false =>
      rw [sendAll_data hspad]
      have hone : g.sampleSizeBytes.toNat / g.size = 1 := Nat.div_self h.size_pos
      have hlt : g.bytes < 2 ^ 32 := g.bufferDataBytes.isLt
      have hsent : sent g buf (((positions g).map (BitVec.ofNat 32)).map fun off =>
          .data off g.sampleSizeBytes) = (positions g).map (sampleAt g buf) := by
        rw [sent_data, hone, List.flatMap_map, ← List.flatMap_singleton' ((positions g).map _),
          List.flatMap_map]
        refine List.flatMap_congr fun x hx => ?_
        have := hin x hx
        have := h.size
        rw [List.range_one, List.map_singleton, Nat.zero_mul, Nat.add_zero, BitVec.toNat_ofNat,
          Nat.mod_eq_of_lt (by omega)]
      refine ⟨?_, ?_, fun htrue => absurd htrue (by rw [hspad]; decide),
        fun hzero => absurd hppb (by omega)⟩
      · intro send hsend
        obtain ⟨off, hoff, rfl⟩ := List.mem_map.mp hsend
        obtain ⟨x, hx, rfl⟩ := List.mem_map.mp hoff
        have hx := hin x hx
        have := h.size
        show (BitVec.ofNat 32 x).toNat + g.size ≤ g.bytes
        rw [BitVec.toNat_ofNat, Nat.mod_eq_of_lt (by omega)]
        exact hx
      · rw [hsent, List.map_map, hstarts]
        exact List.map_id _

theorem send_messages (hppb : g.packetsPerBuffer = 0) (hlen : g.messageLen ≠ 0) :
    ∃ r, send g buf ib s = some r ∧ Outcome g buf s r.1 r.2 := by
  have hnot : ¬0 < g.packetsPerBuffer := by omega
  have hlt : g.bytes < 2 ^ 32 := g.bufferDataBytes.isLt
  have hroom := imax_mul_le (g := g)
  have hsend : send g buf ib s = some (messages g.messageLen g.imax 0, s) :=
    (if_neg hnot).trans (if_neg hlen)
  have hmessages : messages g.messageLen g.imax 0 = (List.range g.imax).map fun k =>
      .data (BitVec.ofNat 32 k * g.messageLen) g.messageLen := by
    rw [List.range_eq_range', ← messages_eq, BitVec.zero_mul]
    rfl
  have hplace : ∀ k < g.imax, (k + 1) * g.messageLen.toNat ≤ g.bytes ∧
      (BitVec.ofNat 32 k * g.messageLen).toNat = k * g.messageLen.toNat := by
    intro k hk
    have hlast : (k + 1) * g.messageLen.toNat ≤ g.bytes :=
      Nat.le_trans (Nat.mul_le_mul_right g.messageLen.toNat hk) hroom
    have hfirst : k * g.messageLen.toNat ≤ (k + 1) * g.messageLen.toNat :=
      Nat.mul_le_mul_right _ (Nat.le_succ k)
    refine ⟨hlast, ?_⟩
    rw [BitVec.toNat_mul, BitVec.toNat_ofNat, Nat.mod_mul_mod, Nat.mod_eq_of_lt (by omega)]
  have hsent : sent g buf (messages g.messageLen g.imax 0) = (starts g).map (sampleAt g buf) := by
    have hmap : messages g.messageLen g.imax 0 = ((List.range g.imax).map fun k =>
        BitVec.ofNat 32 k * g.messageLen).map fun off => .data off g.messageLen := by
      rw [List.map_map]
      exact hmessages
    have hstarts : starts g = Strides.blocks _ _ _ _ := if_neg hnot
    rw [hmap, sent_data, hstarts, Strides.blocks, List.map_flatMap, List.flatMap_map]
    refine List.flatMap_congr fun k hk => ?_
    rw [(hplace k (List.mem_range.mp hk)).2, List.map_map]
    rfl
  refine ⟨_, hsend, ?_, ?_, fun _ hpos => absurd hpos hnot, fun _ => hsent⟩
  · intro send hsend
    have hsend : send ∈ messages g.messageLen g.imax 0 := hsend
    rw [hmessages] at hsend
    obtain ⟨k, hk, rfl⟩ := List.mem_map.mp hsend
    obtain ⟨hlast, hfirst⟩ := hplace k (List.mem_range.mp hk)
    show (BitVec.ofNat 32 k * g.messageLen).toNat + g.messageLen.toNat ≤ g.bytes
    rw [hfirst, ← Nat.succ_mul]
    exact hlast
  · rw [hsent, List.map_map]
    exact List.map_id _

theorem send_none (hppb : g.packetsPerBuffer = 0) (hlen : g.messageLen = 0) :
    send g buf ib s = none := by
  have hnot : ¬0 < g.packetsPerBuffer := by omega
  exact (if_neg hnot).trans (if_pos hlen)

/-! ### What is sent of all the buffers -/

theorem send_outcome (buf : Mem) (ib : Nat) (s : LocalSpad) (h : Fits g)
    (hlen : 0 < g.packetsPerBuffer ∨ g.messageLen ≠ 0) :
    ∃ r, send g buf ib s = some r ∧ Outcome g buf s r.1 r.2 := by
  by_cases hppb : 0 < g.packetsPerBuffer
  · exact send_packets h hppb
  · exact send_messages (by omega) (hlen.resolve_left hppb)

/-- The samples that have been sent of the buffers. -/
def allSent (g : Globals) (bufs : List (Nat × Mem)) (results : List (List Send)) : List Sent :=
  (bufs.zip results).flatMap fun p => sent g p.1.2 p.2

structure RunOutcome (g : Globals) (s : LocalSpad) (bufs : List (Nat × Mem))
    (results : List (List Send)) : Prop where
  length : results.length = bufs.length
  each : ∀ p ∈ bufs.zip results, (∀ send ∈ p.2, send.Inside g) ∧
    (sent g p.1.2 p.2).map Sent.start = starts g
  follows : g.spad = true → 0 < g.packetsPerBuffer → Follows s.w0 (allSent g bufs results)
  raw : g.packetsPerBuffer = 0 →
    allSent g bufs results = bufs.flatMap fun b => (starts g).map (sampleAt g b.2)

theorem run_outcome (h : Fits g) (hlen : 0 < g.packetsPerBuffer ∨ g.messageLen ≠ 0)
    (bufs : List (Nat × Mem)) (s : LocalSpad) :
    ∃ results, run g bufs s = some results ∧ RunOutcome g s bufs results := by
  induction bufs generalizing s with
  | nil =>
      refine ⟨[], rfl, rfl, ?_, fun _ _ => trivial, fun _ => rfl⟩
      intro p hp
      exact absurd hp List.not_mem_nil
  | cons b bufs ih =>
      obtain ⟨ib, buf⟩ := b
      obtain ⟨⟨sends, words⟩, hsend, hone⟩ := send_outcome buf ib s h hlen
      obtain ⟨more, hrun, hmore⟩ := ih words
      refine ⟨sends :: more, ?_, congrArg (· + 1) hmore.length, ?_, ?_, ?_⟩
      · rw [run, hsend, Option.bind_eq_bind, Option.bind_some]
        dsimp only
        rw [hrun]
        rfl
      · intro p hp
        rcases List.mem_cons.mp hp with rfl | hp
        · exact ⟨hone.inside, hone.starts⟩
        · exact hmore.each p hp
      · intro hspad hppb
        obtain ⟨hfirst, hlast⟩ := hone.follows hspad hppb
        refine follows_append.mpr ⟨hfirst, ?_⟩
        have hrest := hmore.follows hspad hppb
        rwa [show words.w0 = _ from hlast] at hrest
      · intro hppb
        rw [List.flatMap_cons, ← hmore.raw hppb, ← hone.raw hppb]
        rfl

/-! ### What is right -/

/-- The sends of a buffer are within it, and have samples of it in their order, all of them if they
are not to be spread. -/
structure BufferRight (g : Globals) (buf : Mem) (sends : List Send) : Prop where
  inside : ∀ send ∈ sends, send.Inside g
  aligned : ∀ sample ∈ sent g buf sends, g.size ∣ sample.start
  increasing : (sent g buf sends).Pairwise fun a b => a.start < b.start
  complete : g.packetsPerBuffer = 0 →
    ∀ i < g.whole, ∃ sample ∈ sent g buf sends, sample.start = i * g.size

/-- The sends of each buffer are right, and a third word is a difference to the sample sent
before. -/
def Right (g : Globals) (bufs : List (Nat × Mem)) : Prop :=
  ∃ results, run g bufs zeroSpad = some results ∧
    (∀ p ∈ bufs.zip results, BufferRight g p.1.2 p.2) ∧
    (g.spad = true → (allSent g bufs results).IsChain fun a b => b.third = b.count - a.count)

/-- The messages come to all of the whole samples: they are of as many as go into them, or there is
one that has them all. -/
def Covers (g : Globals) : Prop :=
  g.whole = 0 ∨
    (g.size ∣ g.messageLen.toNat ∧ g.messageLen.toNat ∣ g.whole * g.size) ∨
    (g.whole * g.size ≤ g.messageLen.toNat ∧ g.messageLen.toNat ≤ g.bytes)

/-- The third words in the buffers are differences already. -/
def Instrumented (g : Globals) (bufs : List (Nat × Mem)) : Prop :=
  (bufs.flatMap fun b => (List.range g.whole).map fun i => sampleAt g b.2 (i * g.size)).IsChain
    fun a b => b.third = b.count - a.count

def Harmless (g : Globals) (bufs : List (Nat × Mem)) : Prop :=
  bufs = [] ∨
    (0 < g.packetsPerBuffer ∧ (g.packetsPerBuffer = 1 ∨ g.size ∣ g.bytes / g.packetsPerBuffer)) ∨
    (g.packetsPerBuffer = 0 ∧ g.messageLen ≠ 0 ∧ Covers g ∧
      (g.spad = true → Instrumented g bufs))

theorem starts_increasing (h : Fits g) : (starts g).Pairwise (· < ·) := by
  unfold starts
  split
  · exact Strides.blocks_increasing h.size_pos (h.block ‹_›)
  · exact Strides.blocks_increasing h.size_pos (Nat.div_mul_le_self _ _)

theorem bufferRight_iff (h : Fits g) {sends : List Send} (hin : ∀ send ∈ sends, send.Inside g)
    (hstarts : (sent g buf sends).map Sent.start = starts g) :
    BufferRight g buf sends ↔ (∀ x ∈ starts g, g.size ∣ x) ∧
      (g.packetsPerBuffer = 0 → ∀ i < g.whole, i * g.size ∈ starts g) := by
  have hmem : ∀ P : Nat → Prop, (∀ sample ∈ sent g buf sends, P sample.start) ↔
      ∀ x ∈ starts g, P x := by
    intro P
    rw [← hstarts, List.forall_mem_map]
  have hex : ∀ x, (∃ sample ∈ sent g buf sends, sample.start = x) ↔ x ∈ starts g := by
    intro x
    rw [← hstarts, List.mem_map]
  constructor
  · intro hright
    exact ⟨(hmem _).mp hright.aligned, fun hppb i hi => (hex _).mp (hright.complete hppb i hi)⟩
  · intro ⟨haligned, hcomplete⟩
    refine ⟨hin, (hmem _).mpr haligned, ?_, fun hppb i hi => (hex _).mpr (hcomplete hppb i hi)⟩
    have hincreasing := starts_increasing h
    rwa [← hstarts, List.pairwise_map] at hincreasing

theorem packets_right_iff (h : Fits g) (hppb : 0 < g.packetsPerBuffer) :
    (∀ x ∈ starts g, g.size ∣ x) ↔
      g.packetsPerBuffer = 1 ∨ g.size ∣ g.bytes / g.packetsPerBuffer := by
  have hstarts : starts g = positions g := if_pos hppb
  have hsamples := h.samples
  rw [hstarts, positions, Strides.blocks_aligned_iff]
  constructor
  · rintro (hm | hn | hdvd)
    · omega
    · exact .inl (by omega)
    · exact .inr hdvd
  · rintro (hone | hdvd)
    · exact .inr (.inl (by omega))
    · exact .inr (.inr hdvd)

theorem imax_eq (hsize : 16 ≤ g.size) (hlen : g.size ≤ g.messageLen.toNat) :
    g.imax = g.bytes / g.messageLen.toNat := by
  have hlt : g.bytes < 2 ^ 32 := g.bufferDataBytes.isLt
  have hdiv : (g.bufferDataBytes / g.messageLen).toNat = g.bytes / g.messageLen.toNat :=
    BitVec.toNat_udiv
  have hsmall : g.bytes / g.messageLen.toNat < 2 ^ 31 := by
    rw [Nat.div_lt_iff_lt_mul (by omega)]
    have := Nat.mul_le_mul_left (2 ^ 31) (Nat.le_trans hsize hlen)
    omega
  unfold Globals.imax
  rw [BitVec.toInt_eq_toNat_cond, hdiv, if_pos (by omega), Int.toNat_natCast]

theorem whole_mul_le : g.whole * g.size ≤ g.bytes := Nat.div_mul_le_self _ _

/-- A message that begins after each sample it has is followed by others only if it is of whole
samples. -/
theorem blocks_whole (h : Fits g) (hcovers : Covers g) :
    g.imax * (g.messageLen.toNat / g.size) = g.whole ∧
      (g.messageLen.toNat / g.size = 0 ∨ g.imax ≤ 1 ∨ g.size ∣ g.messageLen.toNat) := by
  have hpos := h.size_pos
  have hrest : g.bytes < g.whole * g.size + g.size := Nat.lt_div_mul_add hpos
  have hroom := imax_mul_le (g := g)
  by_cases hzero : g.whole = 0
  · -- not one whole sample: a message has none, or there is no message
    rw [hzero] at hrest ⊢
    by_cases hlen : g.messageLen.toNat < g.size
    · rw [Nat.div_eq_of_lt hlen]
      exact ⟨rfl, .inl rfl⟩
    · have himax : g.imax = 0 := by
        by_contra hne
        have := Nat.le_mul_of_pos_left g.messageLen.toNat (Nat.pos_of_ne_zero hne)
        omega
      rw [himax]
      exact ⟨Nat.zero_mul _, .inr (.inl (by decide))⟩
  · rcases hcovers.resolve_left hzero with ⟨⟨m, hm⟩, ⟨q, hq⟩⟩ | ⟨hleast, hmost⟩
    · have hlen : 0 < g.messageLen.toNat := by
        refine Nat.pos_of_ne_zero fun hnone => ?_
        rw [hnone, Nat.zero_mul] at hq
        exact (Nat.mul_pos (Nat.pos_of_ne_zero hzero) hpos).ne' hq
      have hle : g.size ≤ g.messageLen.toNat := Nat.le_of_dvd hlen ⟨m, hm⟩
      have hcommon := whole_mul_le (g := g)
      have himax : g.imax = q := by
        rw [imax_eq h.size hle]
        rw [hq, Nat.mul_comm] at hcommon hrest
        refine Nat.div_eq_of_lt_le hcommon ?_
        rw [Nat.succ_mul]
        omega
      have hsamples : g.messageLen.toNat / g.size = m := by
        rw [hm, Nat.mul_div_cancel_left m hpos]
      refine ⟨?_, .inr (.inr ⟨m, hm⟩)⟩
      rw [himax, hsamples]
      refine Nat.eq_of_mul_eq_mul_right hpos ?_
      rw [hq, hm, Nat.mul_assoc, Nat.mul_comm, Nat.mul_comm m]
    · -- one message that has all of them
      have hone := Nat.le_mul_of_pos_left g.size (Nat.pos_of_ne_zero hzero)
      have himax : g.imax = 1 := by
        rw [imax_eq h.size (by omega)]
        refine Nat.div_eq_of_lt_le ?_ ?_
        · omega
        · omega
      have hsamples : g.messageLen.toNat / g.size = g.whole := by
        refine Nat.div_eq_of_lt_le hleast ?_
        rw [Nat.succ_mul]
        omega
      rw [himax, hsamples]
      exact ⟨Nat.one_mul _, .inr (.inl (Nat.le_refl 1))⟩

/-- The messages are of whole samples, and of all of them, if and only if they cover them. -/
theorem messages_right_iff (h : Fits g) (hppb : g.packetsPerBuffer = 0) :
    ((∀ x ∈ starts g, g.size ∣ x) ∧ ∀ i < g.whole, i * g.size ∈ starts g) ↔ Covers g := by
  have hstarts : starts g = Strides.blocks _ _ _ _ := if_neg (by omega)
  have hroom : g.imax * g.messageLen.toNat ≤ g.bytes := imax_mul_le
  have hcomplete := Strides.blocks_complete_iff h.size_pos
    (Nat.div_mul_le_self g.messageLen.toNat g.size) hroom
  rw [hstarts]
  constructor
  · intro ⟨haligned, hall⟩
    have hcount : g.imax * (g.messageLen.toNat / g.size) = g.whole :=
      (hcomplete haligned).mp hall
    rcases Strides.blocks_aligned_iff.mp haligned with hm | hn | hdvd
    · rw [hm] at hcount
      exact .inl hcount.symm
    · rcases Nat.le_one_iff_eq_zero_or_eq_one.mp hn with hn | hn
      · rw [hn, Nat.zero_mul] at hcount
        exact .inl hcount.symm
      · have hroom := imax_mul_le (g := g)
        rw [hn, Nat.one_mul] at hcount hroom
        rw [Covers, ← hcount]
        exact .inr (.inr ⟨Nat.div_mul_le_self _ _, hroom⟩)
    · refine .inr (.inl ⟨hdvd, ?_⟩)
      rw [← hcount, Nat.mul_assoc, Nat.div_mul_cancel hdvd]
      exact Nat.dvd_mul_left _ _
  · intro hcovers
    obtain ⟨hcount, haligned⟩ := blocks_whole h hcovers
    have haligned := Strides.blocks_aligned_iff.mpr haligned
    exact ⟨haligned, (hcomplete haligned).mpr hcount⟩

theorem starts_of_covers (h : Fits g) (hppb : g.packetsPerBuffer = 0) (hcovers : Covers g) :
    starts g = (List.range g.whole).map (· * g.size) := by
  have hstarts : starts g = Strides.blocks _ _ _ _ := if_neg (by omega)
  obtain ⟨hcount, haligned⟩ := blocks_whole h hcovers
  rw [hstarts]
  rcases haligned with hm | hwhole
  · rw [hm, Nat.mul_zero] at hcount
    rw [← hcount, hm]
    refine List.length_eq_zero_iff.mp ?_
    rw [Strides.length_blocks, Nat.mul_zero]
  · rw [← hcount]
    refine Strides.blocks_eq_map_range (hwhole.imp_right fun hdvd => ?_)
    rw [Nat.div_mul_cancel hdvd]

theorem each_right_iff (h : Fits g) {bufs : List (Nat × Mem)} {results : List (List Send)}
    (hout : RunOutcome g s bufs results) (hne : bufs ≠ []) :
    (∀ p ∈ bufs.zip results, BufferRight g p.1.2 p.2) ↔
      (∀ x ∈ starts g, g.size ∣ x) ∧
        (g.packetsPerBuffer = 0 → ∀ i < g.whole, i * g.size ∈ starts g) := by
  have hzip : bufs.zip results ≠ [] := by
    intro hnil
    have hlength := congrArg List.length hnil
    rw [List.length_zip, hout.length, Nat.min_self] at hlength
    exact hne (List.length_eq_zero_iff.mp hlength)
  constructor
  · intro hall
    obtain ⟨p, hp⟩ := List.exists_mem_of_ne_nil _ hzip
    exact (bufferRight_iff h (hout.each p hp).1 (hout.each p hp).2).mp (hall p hp)
  · intro hstarts p hp
    exact (bufferRight_iff h (hout.each p hp).1 (hout.each p hp).2).mpr hstarts

theorem right_packets_iff (h : Fits g) (hppb : 0 < g.packetsPerBuffer)
    {bufs : List (Nat × Mem)} (hne : bufs ≠ []) :
    Right g bufs ↔ g.packetsPerBuffer = 1 ∨ g.size ∣ g.bytes / g.packetsPerBuffer := by
  obtain ⟨results, hrun, hout⟩ := run_outcome h (.inl hppb) bufs zeroSpad
  rw [← packets_right_iff h hppb]
  constructor
  · rintro ⟨results', hrun', hall, -⟩
    rw [hrun] at hrun'
    obtain rfl := Option.some.inj hrun'
    exact ((each_right_iff h hout hne).mp hall).1
  · intro haligned
    refine ⟨results, hrun, (each_right_iff h hout hne).mpr ⟨haligned, fun hzero => ?_⟩,
      fun hspad => (hout.follows hspad hppb).isChain⟩
    omega

theorem right_messages_iff (h : Fits g) (hppb : g.packetsPerBuffer = 0)
    (hlen : g.messageLen ≠ 0) {bufs : List (Nat × Mem)} (hne : bufs ≠ []) :
    Right g bufs ↔ Covers g ∧ (g.spad = true → Instrumented g bufs) := by
  obtain ⟨results, hrun, hout⟩ := run_outcome h (.inr hlen) bufs zeroSpad
  have heach := each_right_iff h hout hne
  have hsent : Covers g → allSent g bufs results = bufs.flatMap fun b =>
      (List.range g.whole).map fun i => sampleAt g b.2 (i * g.size) := by
    intro hcovers
    rw [hout.raw hppb, starts_of_covers h hppb hcovers]
    simp only [List.map_map, Function.comp_def]
  constructor
  · rintro ⟨results', hrun', hall, hchain⟩
    rw [hrun] at hrun'
    obtain rfl := Option.some.inj hrun'
    obtain ⟨haligned, hcomplete⟩ := heach.mp hall
    have hcovers := (messages_right_iff h hppb).mp ⟨haligned, hcomplete hppb⟩
    refine ⟨hcovers, fun hspad => ?_⟩
    have hchain := hchain hspad
    rwa [hsent hcovers] at hchain
  · intro ⟨hcovers, hspad⟩
    obtain ⟨haligned, hcomplete⟩ := (messages_right_iff h hppb).mpr hcovers
    refine ⟨results, hrun, heach.mpr ⟨haligned, fun _ => hcomplete⟩, fun htrue => ?_⟩
    rw [hsent hcovers]
    exact hspad htrue

/--
**The sends are right if and only if the packets are whole samples apart; or the messages are of
whole samples, come to all of them, and need nothing to be made of their scratchpads.**
-/
theorem send_right_iff (h : Fits g) (bufs : List (Nat × Mem)) :
    Right g bufs ↔ Harmless g bufs := by
  unfold Harmless
  by_cases hne : bufs = []
  · subst hne
    refine iff_of_true ⟨[], rfl, ?_, fun _ => List.IsChain.nil⟩ (.inl rfl)
    intro p hp
    exact absurd hp List.not_mem_nil
  rw [or_iff_right hne]
  rcases Nat.eq_zero_or_pos g.packetsPerBuffer with hppb | hppb
  · rw [or_iff_right fun hpos => absurd hpos.1 (by omega), and_iff_right hppb]
    by_cases hlen : g.messageLen = 0
    · refine iff_of_false ?_ fun hmessages => hmessages.1 hlen
      rintro ⟨results, hrun, -⟩
      obtain ⟨⟨ib, buf⟩, rest, rfl⟩ := List.exists_cons_of_ne_nil hne
      rw [run, send_none hppb hlen] at hrun
      cases hrun
    · rw [and_iff_right hlen]
      exact right_messages_iff h hppb hlen hne
  · rw [or_iff_left fun hzero => absurd hzero.1 (by omega), and_iff_right hppb]
    exact right_packets_iff h hppb hne

/-- Samples of 24 bytes. -/
def smallBuffer (bytes : BitVec 32) (packetsPerBuffer : Nat) : Globals where
  samplesPerPacket := 1
  bufferDataBytes := bytes
  sampleSizeBytes := 24
  packetsPerBuffer := packetsPerBuffer
  spad := true

theorem smallBuffer_right :
    Right (smallBuffer 96 4) [(3, fun _ => 1), (7, fun _ => 2)] :=
  (send_right_iff ⟨by decide, by decide, by decide, by decide, by decide⟩ _).mpr
    (.inr (.inl ⟨by decide, .inr (by decide)⟩))

/-- Two packets of 100 bytes are 50 apart, and the second is not a sample. -/
theorem shifted_not_right : ¬Right (smallBuffer 100 2) [(0, fun _ => 0)] := by
  have hfits : Fits (smallBuffer 100 2) :=
    ⟨by decide, by decide, by decide, by decide, by decide⟩
  rw [right_packets_iff hfits (by decide) (by decide)]
  decide

end BbqSend

end Acq400
