/-
The rings of the driver (`acq400_structs.h`): `struct BQ`, of buffer numbers, and the
`struct circ_buf` of bytes that the kernel declares.

What is put in goes to `head` and what is got comes from `tail`.  The length of a ring
is a power of two, and the ends are masked with it.
-/
import Acq400.Lib.Ring

namespace Acq400

/-- `CIRC_CNT`: the mask of a length that is a power of two leaves the remainder. -/
def circCnt (head tail size : Int) : Nat := ((head - tail) % size).toNat

structure Bq where
  buf : Nat → Nat
  head : Nat
  tail : Nat
  bqLen : Nat

namespace Bq

variable (bq : Bq)

/-- `BQ_incr`. -/
def incr (cursor : Nat) : Nat := (cursor + 1) &&& (bq.bqLen - 1)

/-- `BQ_empty`. -/
def empty : Bool := bq.head = bq.tail

/-- `BQ_full`. -/
def full : Bool := bq.incr bq.head = bq.tail

/-- `BQ_count`. -/
def count : Nat := circCnt bq.head bq.tail bq.bqLen

/-- `BQ_space`. -/
def space : Nat := circCnt bq.tail (bq.head + 1) bq.bqLen

/-- `BQ_init`. -/
def init (len : Nat) : Bq := { buf := fun _ => 0, head := 0, tail := 0, bqLen := len }

/-- `BQ_get_st`: none if the ring is empty. -/
def getSt : Option (Nat × Bq) := if bq.empty then none else some (bq.buf bq.tail,
  { bq with tail := bq.incr bq.tail })

/-- `BQ_get`: it warns if the ring is empty, and takes what is there all the same. -/
def get : Nat × Bq := (bq.buf bq.tail, { bq with tail := bq.incr bq.tail })

/-- `BQ_put`: it warns if the ring is full, and puts it there all the same. -/
def put (item : Nat) : Bq :=
  { bq with buf := Function.update bq.buf bq.head item, head := bq.incr bq.head }

/-- `BQ_clear`. -/
def clear : Bq := { bq with head := 0, tail := 0 }

/-- What is in the ring. -/
def items : List Nat := Ring.items bq.buf bq.bqLen bq.head bq.tail

end Bq

structure CircBuf where
  buf : Nat → UInt8
  head : Nat
  tail : Nat

namespace CircBuf

variable (cb : CircBuf) (len : Nat)

def bufCount : Nat := circCnt cb.head cb.tail len

/-- `buf_space`: `CIRC_SPACE`. -/
def bufSpace : Nat := circCnt cb.tail (cb.head + 1) len

def bufIncr (p len : Nat) : Nat := (p + 1) &&& (len - 1)

/-- `init_cb_empty`, of a buffer that there is. -/
def initCbEmpty : CircBuf := { cb with head := 0, tail := 0 }

/-- `buf_put`: it does not look whether there is room. -/
def bufPut (xx : UInt8) : CircBuf :=
  { cb with buf := Function.update cb.buf cb.head xx, head := bufIncr cb.head len }

/-- `buf_get`: it does not look whether there is anything. -/
def bufGet : UInt8 × CircBuf := (cb.buf cb.tail, { cb with tail := bufIncr cb.tail len })

/-- What is in it. -/
def items : List UInt8 := Ring.items cb.buf len cb.head cb.tail

end CircBuf

end Acq400

/-! ### What the rings hold

The rings hold a queue.

Both kinds of ring are the same to `Ring`, which has the queue and what puts and gets
do to it.  What is here says that the operations of the driver, as long as they are not
put into a ring that is full or got from one that is empty, are those.
-/

namespace Acq400

/-! ### `struct BQ` -/

namespace Bq

variable {bq : Bq}

/-- A ring as it is to be. -/
abbrev Sound (bq : Bq) : Prop := Ring.Ends bq.bqLen bq.head bq.tail

theorem length_items (bq : Bq) : bq.items.length = Ring.count bq.bqLen bq.head bq.tail :=
  Ring.length_items bq.buf

namespace Sound

theorem init {k : Nat} : (Bq.init (2 ^ k)).Sound :=
  ⟨⟨k, rfl⟩, Nat.two_pow_pos k, Nat.two_pow_pos k⟩

theorem count (h : bq.Sound) : bq.count = bq.items.length := by
  rw [length_items]
  exact Ring.sub_emod bq.head (Nat.le_of_lt h.tail)

theorem space (h : bq.Sound) : bq.space = bq.bqLen - 1 - bq.items.length := by
  rw [length_items]
  exact Ring.sub_emod_space h.head h.tail

theorem empty_iff (h : bq.Sound) : bq.empty = true ↔ bq.items = [] := by
  rw [Bq.empty, decide_eq_true_iff, Ring.empty_iff h.head h.tail, ← length_items,
    List.length_eq_zero_iff]

theorem empty (h : bq.Sound) (hsome : 0 < bq.items.length) : bq.empty = false := by
  rw [Bool.eq_false_iff, ne_eq, h.empty_iff]
  exact List.length_pos_iff.mp hsome

theorem full (h : bq.Sound) (hroom : bq.items.length + 1 < bq.bqLen) : bq.full = false := by
  rw [length_items] at hroom
  have hiff := Ring.full_iff h.head h.tail
  rw [Bq.full, Bq.incr, h.next, decide_eq_false_iff_not]
  omega

theorem get (h : bq.Sound) : bq.get.2.Sound := by
  have hget := Ring.Ends.get h
  rw [← h.next] at hget
  exact hget

theorem put (h : bq.Sound) (item : Nat) : (bq.put item).Sound := by
  have hput := Ring.Ends.put h
  rw [← h.next] at hput
  exact hput

theorem clear (h : bq.Sound) : bq.clear.Sound := Ring.Ends.reset h

theorem items_get (h : bq.Sound) (hsome : 0 < bq.items.length) :
    bq.items = bq.get.1 :: bq.get.2.items := by
  rw [length_items] at hsome
  simp only [items, Bq.get, Bq.incr, h.next]
  exact Ring.items_get h.head h.tail hsome

theorem items_put (h : bq.Sound) (hroom : bq.items.length + 1 < bq.bqLen) (item : Nat) :
    (bq.put item).items = bq.items ++ [item] := by
  rw [length_items] at hroom
  simp only [items, Bq.put, Bq.incr, h.next]
  exact Ring.items_put h.head h.tail hroom item

theorem items_eq_nil (h : bq.Sound) (hends : bq.head = bq.tail) : bq.items = [] := by
  rw [← List.length_eq_zero_iff, length_items, hends]
  exact Ring.count_self h.tail

theorem items_clear (h : bq.Sound) : bq.clear.items = [] := h.clear.items_eq_nil rfl

theorem getSt_nil (h : bq.Sound) (hnone : bq.items = []) : bq.getSt = none :=
  if_pos (h.empty_iff.mpr hnone)

theorem getSt_cons (h : bq.Sound) (hsome : 0 < bq.items.length) : bq.getSt = some bq.get := by
  rw [getSt, h.empty hsome]
  rfl

end Sound

end Bq

/-! ### `struct circ_buf` -/

namespace CircBuf

variable {cb : CircBuf} {len : Nat}

/-- A ring as it is to be. -/
abbrev Sound (cb : CircBuf) (len : Nat) : Prop := Ring.Ends len cb.head cb.tail

theorem length_items (cb : CircBuf) (len : Nat) :
    (cb.items len).length = Ring.count len cb.head cb.tail := Ring.length_items cb.buf

namespace Sound

theorem bufCount (h : cb.Sound len) : cb.bufCount len = (cb.items len).length := by
  rw [length_items]
  exact Ring.sub_emod cb.head (Nat.le_of_lt h.tail)

theorem bufSpace (h : cb.Sound len) : cb.bufSpace len = len - 1 - (cb.items len).length := by
  rw [length_items]
  exact Ring.sub_emod_space h.head h.tail

theorem bufGet (h : cb.Sound len) : (cb.bufGet len).2.Sound len := by
  have hget := Ring.Ends.get h
  rw [← h.next] at hget
  exact hget

theorem bufPut (h : cb.Sound len) (xx : UInt8) : (cb.bufPut len xx).Sound len := by
  have hput := Ring.Ends.put h
  rw [← h.next] at hput
  exact hput

theorem initCbEmpty (h : cb.Sound len) : cb.initCbEmpty.Sound len := Ring.Ends.reset h

theorem items_get (h : cb.Sound len) (hsome : 0 < (cb.items len).length) :
    cb.items len = (cb.bufGet len).1 :: (cb.bufGet len).2.items len := by
  rw [length_items] at hsome
  simp only [items, CircBuf.bufGet, bufIncr, h.next]
  exact Ring.items_get h.head h.tail hsome

theorem items_put (h : cb.Sound len) (hroom : (cb.items len).length + 1 < len) (xx : UInt8) :
    (cb.bufPut len xx).items len = cb.items len ++ [xx] := by
  rw [length_items] at hroom
  simp only [items, CircBuf.bufPut, bufIncr, h.next]
  exact Ring.items_put h.head h.tail hroom xx

theorem items_eq_nil (h : cb.Sound len) (hends : cb.head = cb.tail) : cb.items len = [] := by
  rw [← List.length_eq_zero_iff, length_items, hends]
  exact Ring.count_self h.tail

end Sound

end CircBuf

end Acq400
