import Mathlib.Algebra.Group.Nat.Defs
import Mathlib.Data.List.Basic
import Mathlib.Tactic.Common
import IndexedHash.ByteWord

/-!
# Byte buffers

An allocation as the program sees it: a row of bytes, of which those that nothing has
written yet have no value.  A read of such a byte, or a read or a write outside the
allocation, is stuck.

`read_write?`, `read_writeBytes?`, `read_memset?` and `read_realloc` say for each operation
what every later read gives.  A number of `k` bytes is stored in one of the two byte orders
(`ByteOrder.encode`) and read back modulo `2 ^ (8 * k)` (`decode_encode`).  Records laid out
one after another are told apart by `record_inj`.
-/

namespace IndexedHash

open ByteWord

/-! ## Reading and writing -/

abbrev Buffer := List (Option (BitVec 8))

namespace Buffer

/-- `p[i]` -/
def read (b : Buffer) (p : Nat) : Option (BitVec 8) := b[p]?.join

def readBytes (b : Buffer) (p : Nat) : Nat → Option (List (BitVec 8))
  | 0 => some []
  | n + 1 => (b.read p).bind fun v => (readBytes b (p + 1) n).map (v :: ·)

/-- `p[i] = v` -/
def write? (b : Buffer) (p : Nat) (v : BitVec 8) : Option Buffer :=
  if p < b.length then some (b.set p (some v)) else none

def writeBytes? (b : Buffer) (p : Nat) : List (BitVec 8) → Option Buffer
  | [] => some b
  | v :: vs => (b.write? p v).bind fun b => writeBytes? b (p + 1) vs

/-- `memset (p, v, n)` -/
def memset? (b : Buffer) (p : Nat) (v : BitVec 8) (n : Nat) : Option Buffer :=
  if p + n ≤ b.length then some (b.mapIdx fun q old => if p ≤ q ∧ q < p + n then some v else old)
  else none

/-- `realloc (p, n)`; `malloc (n)` is the same from nothing. -/
def realloc (b : Buffer) (n : Nat) : Buffer := b.take n ++ List.replicate (n - b.length) none

@[simp] theorem length_realloc (b : Buffer) (n : Nat) : (b.realloc n).length = n := by
  simp only [realloc, List.length_append, List.length_take, List.length_replicate]
  omega

variable {b b' : Buffer} {p q n : Nat} {v : BitVec 8} {vs : List (BitVec 8)}

theorem read_eq_none (h : b.length ≤ p) : b.read p = none := by
  simp [read, h]

theorem write?_of_lt (h : p < b.length) (v : BitVec 8) : ∃ b', b.write? p v = some b' :=
  ⟨_, if_pos h⟩

theorem length_write? (h : b.write? p v = some b') : b'.length = b.length := by
  unfold write? at h
  split at h
  · cases h
    exact List.length_set
  · cases h

theorem read_write? (h : b.write? p v = some b') (q : Nat) :
    b'.read q = if q = p then some v else b.read q := by
  unfold write? at h
  split at h
  · rename_i hp
    cases h
    by_cases hq : q = p
    · subst hq
      simp [read, hp]
    · simp [read, hq, Ne.symm hq]
  · cases h

theorem writeBytes?_of_le (h : p + vs.length ≤ b.length) : ∃ b', b.writeBytes? p vs = some b' := by
  induction vs generalizing b p with
  | nil => exact ⟨b, rfl⟩
  | cons v vs ih =>
    rw [List.length_cons] at h
    obtain ⟨b₁, hb₁⟩ := write?_of_lt (show p < b.length by omega) v
    obtain ⟨b₂, hb₂⟩ := ih (b := b₁) (p := p + 1) (by rw [length_write? hb₁]; omega)
    exact ⟨b₂, by rw [writeBytes?, hb₁, Option.bind_some, hb₂]⟩

theorem length_writeBytes? (h : b.writeBytes? p vs = some b') : b'.length = b.length := by
  induction vs generalizing b p with
  | nil =>
    cases h
    rfl
  | cons v vs ih =>
    obtain ⟨b₁, hb₁, h⟩ := Option.bind_eq_some_iff.mp h
    rw [ih h, length_write? hb₁]

/-- A write of several bytes is seen by the reads at these bytes and by no other. -/
theorem read_writeBytes? (h : b.writeBytes? p vs = some b') (q : Nat) :
    b'.read q = if p ≤ q ∧ q < p + vs.length then vs[q - p]? else b.read q := by
  induction vs generalizing b p with
  | nil =>
    cases h
    rw [if_neg (by simp)]
  | cons v vs ih =>
    obtain ⟨b₁, hb₁, h⟩ := Option.bind_eq_some_iff.mp h
    rw [ih h, read_write? hb₁, List.length_cons]
    by_cases hfirst : q = p
    · subst hfirst
      simp
    · by_cases hin : p + 1 ≤ q ∧ q < p + 1 + vs.length
      · have hrest : p ≤ q ∧ q < p + (vs.length + 1) := by omega
        have hpos : q - p = q - (p + 1) + 1 := by omega
        rw [if_pos hin, if_pos hrest, hpos, List.getElem?_cons_succ]
      · have hrest : ¬ (p ≤ q ∧ q < p + (vs.length + 1)) := by omega
        rw [if_neg hin, if_neg hrest, if_neg hfirst]

theorem memset?_of_le (h : p + n ≤ b.length) (v : BitVec 8) : ∃ b', b.memset? p v n = some b' :=
  ⟨_, if_pos h⟩

theorem length_memset? (h : b.memset? p v n = some b') : b'.length = b.length := by
  unfold memset? at h
  split at h
  · cases h
    exact List.length_mapIdx
  · cases h

theorem read_memset? (h : b.memset? p v n = some b') (q : Nat) :
    b'.read q = if p ≤ q ∧ q < p + n then some v else b.read q := by
  unfold memset? at h
  split at h
  · rename_i hle
    cases h
    rw [read, read, List.getElem?_mapIdx]
    by_cases hin : p ≤ q ∧ q < p + n
    · rw [if_pos hin, List.getElem?_eq_getElem (Nat.lt_of_lt_of_le hin.2 hle), Option.map_some,
        if_pos hin]
      rfl
    · simp only [if_neg hin, Option.map_id']
  · cases h

theorem read_realloc (b : Buffer) {n q : Nat} (hq : q < n) : (b.realloc n).read q = b.read q := by
  unfold read realloc
  by_cases hb : q < b.length
  · rw [List.getElem?_append_left (by simp [hq, hb]), List.getElem?_take_of_lt hq]
  · rw [List.getElem?_append_right (by simp; omega), List.getElem?_eq_none (Nat.le_of_not_lt hb)]
    cases hr : (List.replicate (n - b.length) none)[q - (b.take n).length]? with
    | none => rfl
    | some x => rw [List.eq_of_mem_replicate (List.mem_of_getElem? hr)]; rfl

/-! ## Several bytes -/

/-- Reads of several bytes see only these bytes. -/
theorem readBytes_congr (h : ∀ i < n, b.read (p + i) = b'.read (q + i)) :
    b.readBytes p n = b'.readBytes q n := by
  induction n generalizing p q with
  | zero => rfl
  | succ n ih =>
    have hfirst : b.read p = b'.read q := h 0 (Nat.succ_pos n)
    have hrest : b.readBytes (p + 1) n = b'.readBytes (q + 1) n := by
      apply ih
      intro i hi
      rw [Nat.add_right_comm p, Nat.add_right_comm q]
      exact h (i + 1) (Nat.succ_lt_succ hi)
    rw [readBytes, readBytes, hfirst, hrest]

theorem readBytes_eq_some (h : ∀ i < vs.length, b.read (p + i) = vs[i]?) :
    b.readBytes p vs.length = some vs := by
  induction vs generalizing p with
  | nil => rfl
  | cons v vs ih =>
    have hfirst : b.read p = some v := h 0 (Nat.succ_pos _)
    have hrest : b.readBytes (p + 1) vs.length = some vs := by
      apply ih
      intro i hi
      rw [Nat.add_right_comm, ← List.getElem?_cons_succ (a := v)]
      exact h (i + 1) (Nat.succ_lt_succ hi)
    rw [List.length_cons, readBytes, hfirst, Option.bind_some, hrest, Option.map_some]

/-- A read that starts with a byte that has no value is stuck. -/
theorem readBytes_eq_none (hn : 0 < n) (h : b.read p = none) : b.readBytes p n = none := by
  obtain ⟨n, rfl⟩ := Nat.exists_eq_add_of_le' hn
  rw [readBytes, h, Option.bind_none]

end Buffer

/-! ## Numbers -/

def bytesOf : Nat → Nat → List (BitVec 8)
  | 0, _ => []
  | k + 1, n => BitVec.ofNat 8 n :: bytesOf k (n / 2 ^ 8)

@[simp] theorem length_bytesOf (k n : Nat) : (bytesOf k n).length = k := by
  induction k generalizing n with
  | zero => rfl
  | succ k ih => simp [bytesOf, ih]

theorem packBytes_bytesOf (k n : Nat) : packBytes (bytesOf k n) = n % 2 ^ (8 * k) := by
  induction k generalizing n with
  | zero => simp [bytesOf, packBytes, Nat.mod_one]
  | succ k ih =>
    have hpow : 2 ^ (8 * (k + 1)) = 2 ^ 8 * 2 ^ (8 * k) := by
      rw [← Nat.pow_add, Nat.mul_succ, Nat.add_comm]
    rw [bytesOf, packBytes, ih, BitVec.toNat_ofNat, hpow, Nat.mod_mul, Nat.add_comm]

def ByteOrder.encode : ByteOrder → Nat → Nat → List (BitVec 8)
  | .little, k, n => bytesOf k n
  | .big, k, n => (bytesOf k n).reverse

def ByteOrder.decode : ByteOrder → List (BitVec 8) → Nat
  | .little, bytes => packBytes bytes
  | .big, bytes => packBytes bytes.reverse

@[simp] theorem ByteOrder.length_encode (order : ByteOrder) (k n : Nat) :
    (order.encode k n).length = k := by
  cases order with
  | little => exact length_bytesOf k n
  | big => rw [encode, List.length_reverse, length_bytesOf]

theorem ByteOrder.decode_encode (order : ByteOrder) (k n : Nat) :
    order.decode (order.encode k n) = n % 2 ^ (8 * k) := by
  cases order with
  | little => exact packBytes_bytesOf k n
  | big => rw [encode, decode, List.reverse_reverse, packBytes_bytesOf]

namespace Buffer

def readNum (order : ByteOrder) (b : Buffer) (p k : Nat) : Option Nat :=
  (b.readBytes p k).map order.decode

/-- `*p = n` for a number of `k` bytes. -/
def writeNum? (order : ByteOrder) (b : Buffer) (p k n : Nat) : Option Buffer :=
  b.writeBytes? p (order.encode k n)

variable {order : ByteOrder} {b b' : Buffer} {p q k n : Nat}

theorem readNum_congr (h : ∀ i < k, b.read (p + i) = b'.read (q + i)) :
    b.readNum order p k = b'.readNum order q k := by
  rw [readNum, readNum, readBytes_congr h]

theorem readNum_eq_none (hk : 0 < k) (h : b.read p = none) : b.readNum order p k = none := by
  rw [readNum, readBytes_eq_none hk h]
  rfl

theorem read_writeNum? (h : b.writeNum? order p k n = some b') (hq : q < p ∨ p + k ≤ q) :
    b'.read q = b.read q := by
  rw [read_writeBytes? h, if_neg]
  rw [ByteOrder.length_encode]
  omega

theorem readNum_writeNum? (h : b.writeNum? order p k n = some b') :
    b'.readNum order p k = some (n % 2 ^ (8 * k)) := by
  have hread : b'.readBytes p k = some (order.encode k n) := by
    nth_rewrite 1 [← order.length_encode k n]
    apply readBytes_eq_some
    intro i hi
    rw [read_writeBytes? h, if_pos ⟨Nat.le_add_right p i, Nat.add_lt_add_left hi p⟩,
      Nat.add_sub_cancel_left]
  rw [readNum, hread, Option.map_some, ByteOrder.decode_encode]

end Buffer

/-! ## Records in a row -/

/-- Offsets inside records of `size` bytes in a row. -/
theorem record_inj {size r r' o o' : Nat} (ho : o < size) (ho' : o' < size) :
    r * size + o = r' * size + o' ↔ r = r' ∧ o = o' := by
  constructor
  · intro h
    have hdiv := congrArg (· / size) h
    have hmod := congrArg (· % size) h
    simp only [Nat.mul_add_mod_self_right, Nat.mod_eq_of_lt ho, Nat.mod_eq_of_lt ho'] at hmod
    subst hmod
    have hpos : 0 < size := by omega
    exact ⟨Nat.eq_of_mul_eq_mul_right hpos (Nat.add_right_cancel h), rfl⟩
  · rintro ⟨rfl, rfl⟩
    rfl

theorem record_lt {size r n o : Nat} (hr : r < n) (ho : o < size) : r * size + o < n * size := by
  calc r * size + o < r * size + size := Nat.add_lt_add_left ho _
    _ = (r + 1) * size := (Nat.succ_mul r size).symm
    _ ≤ n * size := Nat.mul_le_mul_right size hr

end IndexedHash
