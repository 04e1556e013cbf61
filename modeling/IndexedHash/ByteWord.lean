import Mathlib.Data.List.Basic
import Mathlib.Data.Nat.Bitwise
import Mathlib.Tactic.Common
import Mathlib.Tactic.Ring
import IndexedHash.Loop

/-!
# Words of bytes and walks over their set bits

General facts about 64-bit words that hold eight bytes, least significant first.

* `packBytes` assembles bytes into a number; `testBit_packBytes` reads a bit back.
* `ctz` and `m & (m - 1)` walk the set bits of a mask in ascending order
  (`setBits_eq_cons`), so a `while (mask)` loop over them is a walk along the
  list `setBits` (`whileMask_eq`).
* `subOnes` is the digit-by-digit subtraction of `0x01…01`, with its borrows.
  It is what the "find a zero byte" trick `(x - 0x01…01) & ~x & 0x80…80`
  computes (`getLsbD_zeroBytes`).
-/

namespace IndexedHash.ByteWord

open Loop

/-! ## Packing bytes -/

def packBytes : List (BitVec 8) → Nat
  | [] => 0
  | b :: bs => 2 ^ 8 * packBytes bs + b.toNat

theorem testBit_packBytes (bytes : List (BitVec 8)) (j : Nat) {i : Nat} (hi : i < 8) :
    (packBytes bytes).testBit (8 * j + i) = (bytes[j]?.getD 0#8).getLsbD i := by
  induction bytes generalizing j with
  | nil => simp [packBytes]
  | cons b bs ih =>
    rw [packBytes, Nat.testBit_two_pow_mul_add _ b.isLt]
    cases j with
    | zero =>
      have h : 8 * 0 + i < 8 := by omega
      rw [if_pos h]
      simp [BitVec.getLsbD]
    | succ j =>
      have h : ¬ 8 * (j + 1) + i < 8 := by omega
      rw [if_neg h, show 8 * (j + 1) + i - 8 = 8 * j + i by omega, ih]
      simp

theorem packBytes_lt (bytes : List (BitVec 8)) : packBytes bytes < 2 ^ (8 * bytes.length) := by
  induction bytes with
  | nil => simp [packBytes]
  | cons b bs ih =>
    have hb := b.isLt
    rw [packBytes, List.length_cons, show 8 * (bs.length + 1) = 8 + 8 * bs.length by ring, pow_add]
    calc 2 ^ 8 * packBytes bs + b.toNat < 2 ^ 8 * packBytes bs + 2 ^ 8 * 1 := by omega
      _ = 2 ^ 8 * (packBytes bs + 1) := by ring
      _ ≤ 2 ^ 8 * 2 ^ (8 * bs.length) := Nat.mul_le_mul_left _ ih

/-- Two words of eight bytes are equal when their bytes have the same bits. -/
theorem eq_of_byte_bits {x y : BitVec 64}
    (h : ∀ j < 8, ∀ i < 8, x.getLsbD (8 * j + i) = y.getLsbD (8 * j + i)) : x = y := by
  apply BitVec.eq_of_getLsbD_eq
  intro k hk
  have hk' := h (k / 8) (by omega) (k % 8) (Nat.mod_lt k (by decide))
  rwa [Nat.div_add_mod] at hk'

def loadLE (bytes : List (BitVec 8)) : BitVec 64 := BitVec.ofNat 64 (packBytes bytes)

theorem getLsbD_loadLE (bytes : List (BitVec 8)) {j i : Nat} (hj : j < 8) (hi : i < 8) :
    (loadLE bytes).getLsbD (8 * j + i) = (bytes[j]?.getD 0#8).getLsbD i := by
  rw [loadLE, BitVec.getLsbD_ofNat, testBit_packBytes bytes j hi]
  have h : 8 * j + i < 64 := by omega
  simp [h]

def byteAt (word : BitVec 64) (j : Nat) : BitVec 8 := word.extractLsb' (8 * j) 8

theorem getLsbD_byteAt (word : BitVec 64) (j : Nat) {i : Nat} (hi : i < 8) :
    (byteAt word j).getLsbD i = word.getLsbD (8 * j + i) := by
  simp [byteAt, hi]

theorem byteAt_loadLE (bytes : List (BitVec 8)) {j : Nat} (hj : j < 8) :
    byteAt (loadLE bytes) j = bytes[j]?.getD 0#8 := by
  apply BitVec.eq_of_getLsbD_eq
  intro i hi
  rw [getLsbD_byteAt _ _ hi, getLsbD_loadLE _ hj hi]

def unpackBytes (word : BitVec 64) : List (BitVec 8) := (List.range 8).map (byteAt word)

@[simp] theorem length_unpackBytes (word : BitVec 64) : (unpackBytes word).length = 8 := by
  simp [unpackBytes]

theorem getElem?_unpackBytes (word : BitVec 64) {j : Nat} (hj : j < 8) :
    (unpackBytes word)[j]? = some (byteAt word j) := by
  simp [unpackBytes, hj]

theorem take_unpackBytes_loadLE {bytes : List (BitVec 8)} (h : bytes.length ≤ 8) :
    (unpackBytes (loadLE bytes)).take bytes.length = bytes := by
  apply List.ext_getElem?
  intro j
  rcases Nat.lt_or_ge j bytes.length with hj | hj
  · rw [List.getElem?_take_of_lt hj, getElem?_unpackBytes _ (by omega), byteAt_loadLE _ (by omega),
      List.getElem?_eq_getElem hj, Option.getD_some]
  · rw [List.getElem?_eq_none hj, List.getElem?_eq_none (by simp; omega)]

theorem loadLE_unpacked (word : BitVec 64) : loadLE (unpackBytes word) = word := by
  apply eq_of_byte_bits
  intro j hj i hi
  rw [getLsbD_loadLE _ hj hi, getElem?_unpackBytes word hj, Option.getD_some, getLsbD_byteAt word j hi]

def bigEndianBytes (w : BitVec 64) : List (BitVec 8) := (unpackBytes w).reverse

theorem length_bigEndianBytes (w : BitVec 64) : (bigEndianBytes w).length = 8 := by
  rw [bigEndianBytes, List.length_reverse, length_unpackBytes]

theorem loadLE_cons (b : BitVec 8) (bs : List (BitVec 8)) :
    loadLE (b :: bs) = (loadLE bs <<< 8) ||| b.setWidth 64 := by
  apply eq_of_byte_bits
  intro j hj i hi
  rw [getLsbD_loadLE _ hj hi, BitVec.getLsbD_or, BitVec.getLsbD_shiftLeft, BitVec.getLsbD_setWidth]
  cases j with
  | zero => simp [hi]; omega
  | succ j =>
    have hlow : b.getLsbD (8 * (j + 1) + i) = false := BitVec.getLsbD_of_ge _ _ (by omega)
    have hpos : ¬ 8 * (j + 1) + i < 8 := by omega
    have hlt : 8 * (j + 1) + i < 64 := by omega
    rw [hlow, show 8 * (j + 1) + i - 8 = 8 * j + i by omega, getLsbD_loadLE _ (by omega) hi]
    simp [hpos, hlt]

theorem bigEndianBytes_loadLE {bs : List (BitVec 8)} (h : bs.length = 8) :
    bigEndianBytes (loadLE bs.reverse) = bs := by
  have hlen : bs.reverse.length = 8 := by rw [List.length_reverse, h]
  have htake := take_unpackBytes_loadLE (Nat.le_of_eq hlen)
  rw [hlen, List.take_of_length_le (Nat.le_of_eq (length_unpackBytes _))] at htake
  rw [bigEndianBytes, htake, List.reverse_reverse]

theorem bigEndianBytes_injective : Function.Injective bigEndianBytes := by
  intro x y h
  have hbytes : unpackBytes x = unpackBytes y := List.reverse_injective h
  apply eq_of_byte_bits
  intro j hj i hi
  have hj' := congrArg (fun bs => bs[j]?) hbytes
  rw [getElem?_unpackBytes x hj, getElem?_unpackBytes y hj, Option.some.injEq] at hj'
  rw [← getLsbD_byteAt x j hi, ← getLsbD_byteAt y j hi, hj']

theorem flatMap_bigEndianBytes_injective : Function.Injective (List.flatMap bigEndianBytes) := by
  intro xs
  induction xs with
  | nil =>
    intro ys h
    cases ys with
    | nil => rfl
    | cons y ys =>
      have hlen := congrArg List.length h
      rw [List.flatMap_cons, List.length_append, length_bigEndianBytes] at hlen
      exact absurd hlen (by simp; omega)
  | cons x xs ih =>
    intro ys h
    cases ys with
    | nil =>
      have hlen := congrArg List.length h
      rw [List.flatMap_cons, List.length_append, length_bigEndianBytes] at hlen
      exact absurd hlen (by simp)
    | cons y ys =>
      rw [List.flatMap_cons, List.flatMap_cons] at h
      have hlen : (bigEndianBytes x).length = (bigEndianBytes y).length := by
        rw [length_bigEndianBytes, length_bigEndianBytes]
      rcases List.append_inj h hlen with ⟨hx, hxs⟩
      rw [bigEndianBytes_injective hx, ih hxs]

def packBits : List Bool → Nat
  | [] => 0
  | b :: bs => Nat.bit b (packBits bs)

theorem testBit_packBits (bits : List Bool) (j : Nat) :
    (packBits bits).testBit j = bits[j]?.getD false := by
  induction bits generalizing j with
  | nil => simp [packBits]
  | cons b bs ih =>
    cases j with
    | zero => simp [packBits]
    | succ j => simpa [packBits, Nat.testBit_bit_succ] using ih j

/-! ## Set bits in ascending order -/

def setBits (mask : BitVec 64) : List Nat := (List.range 64).filter mask.getLsbD

/-- `__builtin_ctzll`: the position of the lowest set bit. -/
def ctz (mask : BitVec 64) : Nat := ((List.range 64).find? mask.getLsbD).getD 64

theorem setBits_zero : setBits 0#64 = [] := by
  simp [setBits]

theorem exists_getLsbD_of_ne_zero {mask : BitVec 64} (h : mask ≠ 0#64) :
    ∃ i < 64, mask.getLsbD i = true := by
  by_contra hno
  apply h
  apply BitVec.eq_of_getLsbD_eq
  intro i hi
  have := fun hb => hno ⟨i, hi, hb⟩
  simpa using this

/-- `ctz` of a non-zero mask is a set bit, and no lower bit is set. -/
theorem ctz_spec {mask : BitVec 64} (h : mask ≠ 0#64) :
    ctz mask < 64 ∧ mask.getLsbD (ctz mask) = true ∧ ∀ i < ctz mask, mask.getLsbD i = false := by
  obtain ⟨i, hi, hbit⟩ := exists_getLsbD_of_ne_zero h
  cases hf : (List.range 64).find? mask.getLsbD with
  | none =>
    have := List.find?_eq_none.mp hf i (List.mem_range.mpr hi)
    exact absurd hbit this
  | some c =>
    have hc : ctz mask = c := by simp [ctz, hf]
    rw [hc]
    have hmem : c < 64 := List.mem_range.mp (List.mem_of_find?_eq_some hf)
    refine ⟨hmem, List.find?_some hf, ?_⟩
    intro k hk
    obtain ⟨_, as, bs, heq, hfalse⟩ := List.find?_eq_some_iff_append.mp hf
    have hlen : as.length = c := by
      have hget : (List.range 64)[as.length]? = some c := by rw [heq]; simp
      have hlt : as.length < 64 := by
        have := congrArg List.length heq
        simp at this
        omega
      rw [List.getElem?_range hlt] at hget
      exact Option.some.inj hget
    have hk' : k ∈ as := by
      have hget : (List.range 64)[k]? = some k := List.getElem?_range (by omega)
      rw [heq, List.getElem?_append_left (by omega)] at hget
      exact List.mem_of_getElem? hget
    simpa using hfalse k hk'

/-- Subtracting one from a number whose lowest set bit is `c` keeps the bits above `c`. -/
private theorem testBit_sub_one {m c : Nat} (hc : m.testBit c = true)
    (hlow : ∀ i < c, m.testBit i = false) (i : Nat) :
    (m &&& (m - 1)).testBit i = (m.testBit i && decide (i ≠ c)) := by
  -- split `m` at its lowest set bit
  have hmod : m % 2 ^ c = 0 := by
    apply Nat.eq_of_testBit_eq
    intro i
    rw [Nat.testBit_mod_two_pow, Nat.zero_testBit]
    by_cases hi : i < c
    · simp [hlow i hi]
    · simp [hi]
  have hodd : m / 2 ^ c % 2 = 1 := by
    have := Nat.testBit_eq_decide_div_mod_eq (x := m) (i := c)
    rw [hc] at this
    simpa using this.symm
  obtain ⟨q, hq⟩ : ∃ q, m = 2 ^ (c + 1) * q + 2 ^ c := by
    refine ⟨m / 2 ^ c / 2, ?_⟩
    have h1 : m = 2 ^ c * (m / 2 ^ c) := by
      have := Nat.div_add_mod m (2 ^ c)
      omega
    have h2 : m / 2 ^ c = 2 * (m / 2 ^ c / 2) + 1 := by omega
    calc m = 2 ^ c * (m / 2 ^ c) := h1
      _ = 2 ^ c * (2 * (m / 2 ^ c / 2) + 1) := by rw [← h2]
      _ = 2 ^ (c + 1) * (m / 2 ^ c / 2) + 2 ^ c := by ring
  have hpos : 0 < 2 ^ c := Nat.two_pow_pos c
  have hpred : m - 1 = 2 ^ (c + 1) * q + (2 ^ c - 1) := by omega
  have hlt : 2 ^ c < 2 ^ (c + 1) := Nat.pow_lt_pow_right (by decide) (Nat.lt_succ_self c)
  rw [Nat.testBit_and, hpred, Nat.testBit_two_pow_mul_add _ (by omega)]
  by_cases hic : i < c
  · simp [hlow i hic]
  · by_cases heq : i = c
    · subst heq
      simp [Nat.testBit_two_pow_sub_one]
    · have hge : ¬ i < c + 1 := by omega
      rw [if_neg hge]
      simp only [heq, ne_eq, not_false_eq_true, decide_true, Bool.and_true]
      rw [hq, Nat.testBit_two_pow_mul_add _ hlt, if_neg hge, Bool.and_self]

/-- `m & (m - 1)` clears the lowest set bit and keeps the others. -/
theorem getLsbD_clearLowest {mask : BitVec 64} (h : mask ≠ 0#64) (i : Nat) :
    (mask &&& (mask - 1)).getLsbD i = (mask.getLsbD i && decide (i ≠ ctz mask)) := by
  obtain ⟨_, hbit, hlow⟩ := ctz_spec h
  have hne : mask.toNat ≠ 0 := fun h0 => h (by
    apply BitVec.eq_of_toNat_eq
    simpa using h0)
  have hpred : (mask - 1).toNat = mask.toNat - 1 := by
    have := mask.isLt
    rw [BitVec.toNat_sub, show (1 : BitVec 64).toNat = 1 from rfl]
    omega
  have hkey := testBit_sub_one (m := mask.toNat) (c := ctz mask) hbit hlow i
  rw [← BitVec.testBit_toNat, BitVec.toNat_and, hpred, hkey, BitVec.testBit_toNat]

private theorem filter_range_eq_cons {p q : Nat → Bool} {c n : Nat} (hc : c < n) (hpc : p c = true)
    (hlow : ∀ i < c, p i = false) (hq : ∀ i, q i = (p i && decide (i ≠ c))) :
    (List.range n).filter p = c :: (List.range n).filter q := by
  have hsplit : List.range n = List.range c ++ c :: List.range' (c + 1) (n - c - 1) := by
    rw [List.range_eq_range', List.range_eq_range', ← List.range'_succ,
      show n - c - 1 + 1 = n - c by omega]
    have := List.range'_append_1 (s := 0) (m := c) (n := n - c)
    rw [Nat.zero_add] at this
    rw [this, show c + (n - c) = n by omega]
  have hzero : ∀ f : Nat → Bool, (∀ i < c, f i = false) → (List.range c).filter f = [] := by
    intro f hf
    rw [List.filter_eq_nil_iff]
    intro i hi
    simp [hf i (List.mem_range.mp hi)]
  rw [hsplit, List.filter_append, List.filter_append, hzero p hlow,
    hzero q (fun i hi => by simp [hq, hlow i hi]), List.filter_cons_of_pos hpc,
    List.filter_cons_of_neg (by simp [hq])]
  simp only [List.nil_append, List.cons.injEq, true_and]
  apply List.filter_congr
  intro i hi
  have hne : i ≠ c := by
    have := List.mem_range'_1.mp hi
    omega
  simp [hq, hne]

theorem setBits_eq_cons {mask : BitVec 64} (h : mask ≠ 0#64) :
    setBits mask = ctz mask :: setBits (mask &&& (mask - 1)) := by
  obtain ⟨hlt, hbit, hlow⟩ := ctz_spec h
  exact filter_range_eq_cons hlt hbit hlow (getLsbD_clearLowest h)

/-! ## `while (mask)` -/

section WhileMask

variable {σ ρ : Type*}

/-- `while (mask) { … ctz (mask) …; mask &= mask - 1; }` with at most `k` passes.
    A mask of 64 bits is empty after 64 of them. -/
def whileMask (body : σ → Nat → Option (Step σ ρ)) : Nat → σ → BitVec 64 → Option (Step σ ρ)
  | 0, s, _ => some (.again s)
  | k + 1, s, mask =>
      if mask = 0#64 then some (.again s)
      else
        match body s (ctz mask) with
        | none => none
        | some (.leave r) => some (.leave r)
        | some (.again s') => whileMask body k s' (mask &&& (mask - 1))

def scan (body : σ → Nat → Option (Step σ ρ)) : σ → List Nat → Option (Step σ ρ)
  | s, [] => some (.again s)
  | s, i :: is =>
      match body s i with
      | none => none
      | some (.leave r) => some (.leave r)
      | some (.again s') => scan body s' is

theorem whileMask_eq_of_length_le (body : σ → Nat → Option (Step σ ρ)) (k : Nat) (s : σ)
    (mask : BitVec 64) (hk : (setBits mask).length ≤ k) :
    whileMask body k s mask = scan body s (setBits mask) := by
  induction k generalizing s mask with
  | zero =>
    have : setBits mask = [] := List.eq_nil_of_length_eq_zero (Nat.le_zero.mp hk)
    rw [this]
    rfl
  | succ k ih =>
    by_cases h : mask = 0#64
    · subst h
      simp [whileMask, setBits_zero, scan]
    · rw [setBits_eq_cons h] at hk ⊢
      simp only [whileMask, if_neg h, scan]
      cases body s (ctz mask) with
      | none => rfl
      | some step =>
        cases step with
        | leave r => rfl
        | again s' => exact ih s' _ (by simpa using hk)

theorem whileMask_eq (body : σ → Nat → Option (Step σ ρ)) (s : σ) (mask : BitVec 64) :
    whileMask body 64 s mask = scan body s (setBits mask) := by
  apply whileMask_eq_of_length_le
  calc (setBits mask).length ≤ (List.range 64).length := List.length_filter_le _ _
    _ = 64 := List.length_range

/-- A walk whose body looks at its position through `f` only. -/
theorem scan_map (body : σ → Nat → Option (Step σ ρ)) (f : Nat → Nat) (s : σ) (is : List Nat) :
    scan (fun s i => body s (f i)) s is = scan body s (is.map f) := by
  induction is generalizing s with
  | nil => rfl
  | cons i is ih =>
    simp only [scan, List.map_cons]
    cases body s (f i) with
    | none => rfl
    | some step =>
      cases step with
      | leave r => rfl
      | again s' => exact ih s'

/-- A walk that only tests its positions finds the first one that passes. -/
theorem scan_congr {body body' : σ → Nat → Option (Step σ ρ)} {is : List Nat}
    (h : ∀ i ∈ is, ∀ s, body s i = body' s i) (s : σ) : scan body s is = scan body' s is := by
  induction is generalizing s with
  | nil => rfl
  | cons i is ih =>
    rw [List.forall_mem_cons] at h
    simp only [scan, h.1 s]
    cases body' s i with
    | none => rfl
    | some step =>
      cases step with
      | leave r => rfl
      | again s' => exact ih h.2 s'

/-- What a walk leaves with, some pass along the list left with. -/
theorem exists_of_scan_leave {body : σ → Nat → Option (Step σ ρ)} {is : List Nat} {s : σ} {r : ρ}
    (h : scan body s is = some (.leave r)) : ∃ i ∈ is, ∃ s', body s' i = some (.leave r) := by
  induction is generalizing s with
  | nil => cases h
  | cons i is ih =>
    simp only [scan] at h
    cases hbody : body s i with
    | none =>
      rw [hbody] at h
      cases h
    | some step =>
      rw [hbody] at h
      cases step with
      | leave r' =>
        cases h
        exact ⟨i, List.mem_cons_self, s, hbody⟩
      | again s' =>
        obtain ⟨j, hj, hleave⟩ := ih h
        exact ⟨j, List.mem_cons_of_mem i hj, hleave⟩

theorem scan_eq_find? {body : Unit → Nat → Option (Step Unit ρ)} {q : Nat → Bool} {v : Nat → ρ}
    {is : List Nat}
    (h : ∀ i ∈ is, body () i = some (if q i then .leave (v i) else .again ())) :
    scan body () is =
      some (match is.find? q with
        | some i => .leave (v i)
        | none => .again ()) := by
  induction is with
  | nil => rfl
  | cons i is ih =>
    have hi := h i List.mem_cons_self
    cases hq : q i with
    | true => simp [scan, hi, hq]
    | false =>
      have hrest := ih fun j hj => h j (List.mem_cons_of_mem i hj)
      simp [scan, hi, hq, hrest]

/-- A walk on which no position leaves. -/
theorem scan_again (body : σ → Nat → Option (Step σ ρ)) (I : σ → Prop) (is : List Nat)
    (h : ∀ i ∈ is, ∀ s, I s → ∃ s', body s i = some (.again s') ∧ I s') {s : σ} (hs : I s) :
    ∃ s', scan body s is = some (.again s') ∧ I s' := by
  induction is generalizing s with
  | nil => exact ⟨s, rfl, hs⟩
  | cons i is ih =>
    obtain ⟨s', hs', hI⟩ := h i List.mem_cons_self s hs
    simp only [scan, hs']
    exact ih (fun j hj => h j (List.mem_cons_of_mem i hj)) hI

/-- A walk on which only position `j` leaves. -/
theorem scan_leave {body : σ → Nat → Option (Step σ ρ)} {is : List Nat} {j : Nat} {r : ρ}
    (hj : j ∈ is) (h : ∀ i ∈ is, i ≠ j → ∀ s, ∃ s', body s i = some (.again s'))
    (hleave : ∀ s, body s j = some (.leave r)) (s : σ) :
    scan body s is = some (.leave r) := by
  induction is generalizing s with
  | nil => cases hj
  | cons i is ih =>
    by_cases hij : i = j
    · subst hij
      simp only [scan, hleave s]
    · obtain ⟨s', hs'⟩ := h i List.mem_cons_self hij s
      have hrest : j ∈ is := by
        rcases List.mem_cons.mp hj with hj | hj
        · exact absurd hj.symm hij
        · exact hj
      simp only [scan, hs']
      exact ih hrest (fun l hl => h l (List.mem_cons_of_mem i hl)) s'

end WhileMask

/-! ## One flag for each byte

A mask flags byte `j` by its bit `j`, or by the top bit of its byte `j`. -/

theorem setBits_of_low {mask : BitVec 64} (h : ∀ i, mask.getLsbD i = true → i < 8) :
    setBits mask = (List.range 8).filter mask.getLsbD := by
  have hsplit : List.range 64 = List.range 8 ++ List.range' 8 56 := by decide
  have hnil : (List.range' 8 56).filter mask.getLsbD = [] := by
    rw [List.filter_eq_nil_iff]
    intro i hi hbit
    have h1 := h i hbit
    have h2 := (List.mem_range'_1.mp hi).1
    omega
  rw [setBits, hsplit, List.filter_append, hnil, List.append_nil]

theorem setBits_of_high {mask : BitVec 64} (h : ∀ i, mask.getLsbD i = true → i % 8 = 7) :
    (setBits mask).map (· / 8) = (List.range 8).filter fun j => mask.getLsbD (8 * j + 7) := by
  -- bits that are not the top bit of a byte never pass the filter
  have hpass : setBits mask
      = ((List.range 8).map fun j => 8 * j + 7).filter mask.getLsbD := by
    have hrange : ((List.range 8).map fun j => 8 * j + 7)
        = (List.range 64).filter fun i => i % 8 = 7 := by decide
    rw [hrange, List.filter_filter, setBits]
    apply List.filter_congr
    intro i _
    by_cases hi : i % 8 = 7
    · simp [hi]
    · cases hb : mask.getLsbD i with
      | false => simp
      | true => exact absurd (h i hb) hi
  rw [hpass, List.filter_map, List.map_map]
  have hdiv : ((· / 8) ∘ fun j => 8 * j + 7) = id := by
    funext j
    simp only [Function.comp_apply, id]
    omega
  rw [hdiv, List.map_id]
  rfl

/-! ## The zero-byte trick

`(x - 0x01…01) & ~x & 0x80…80` flags the zero bytes of `x`.  The subtraction
borrows across bytes, so a byte `0x01` above a flagged byte is flagged too; the
borrow out of byte `j` is exactly the flag of byte `j`. -/

/-- The borrow into byte `j` when `0x01…01` and a borrow `b` are subtracted. -/
def borrowInto : List (BitVec 8) → Bool → Nat → Bool
  | _, b, 0 => b
  | [], b, _ + 1 => b
  | c :: cs, b, j + 1 => borrowInto cs (decide (c.toNat < 1 + b.toNat)) j

def subOnes : List (BitVec 8) → Bool → List (BitVec 8)
  | [], _ => []
  | c :: cs, b =>
      (c - 1#8 - (BitVec.ofBool b).setWidth 8) :: subOnes cs (decide (c.toNat < 1 + b.toNat))

theorem borrowInto_succ (cs : List (BitVec 8)) (b : Bool) {j : Nat} (hj : j < cs.length) :
    borrowInto cs b (j + 1) =
      decide ((cs[j]?.getD 0#8).toNat < 1 + (borrowInto cs b j).toNat) := by
  induction cs generalizing b j with
  | nil => simp at hj
  | cons c cs ih =>
    cases j with
    | zero => simp [borrowInto]
    | succ j =>
      have hj' : j < cs.length := by simpa using hj
      rw [borrowInto, ih _ hj', borrowInto]
      simp

private theorem digit_sub (c : BitVec 8) (b : Bool) :
    (c - 1#8 - (BitVec.ofBool b).setWidth 8).toNat + 1 + b.toNat =
      c.toNat + 2 ^ 8 * (decide (c.toNat < 1 + b.toNat)).toNat := by
  have hall : ∀ (c : BitVec 8) (b : Bool),
      (c - 1#8 - (BitVec.ofBool b).setWidth 8).toNat + 1 + b.toNat =
        c.toNat + 2 ^ 8 * (decide (c.toNat < 1 + b.toNat)).toNat := by decide
  exact hall c b

private theorem digit_flag (c : BitVec 8) (b : Bool) :
    ((c - 1#8 - (BitVec.ofBool b).setWidth 8).getLsbD 7 && !c.getLsbD 7) =
      decide (c.toNat < 1 + b.toNat) := by
  have hall : ∀ (c : BitVec 8) (b : Bool),
      ((c - 1#8 - (BitVec.ofBool b).setWidth 8).getLsbD 7 && !c.getLsbD 7) =
        decide (c.toNat < 1 + b.toNat) := by decide
  exact hall c b

theorem packBytes_subOnes (cs : List (BitVec 8)) (b : Bool) :
    packBytes (subOnes cs b) + packBytes (List.replicate cs.length 1#8) + b.toNat =
      packBytes cs + 2 ^ (8 * cs.length) * (borrowInto cs b cs.length).toNat := by
  induction cs generalizing b with
  | nil => simp [packBytes, subOnes, borrowInto]
  | cons c cs ih =>
    have hih := ih (decide (c.toNat < 1 + b.toNat))
    have hdigit := digit_sub c b
    rw [subOnes, List.length_cons, List.replicate_succ, packBytes, packBytes, packBytes,
      borrowInto, show 8 * (cs.length + 1) = 8 + 8 * cs.length by ring, pow_add]
    have hone : (1#8).toNat = 1 := rfl
    rw [hone]
    generalize hB : (borrowInto cs (decide (c.toNat < 1 + b.toNat)) cs.length).toNat = B at hih ⊢
    have hmul : 2 ^ 8 * 2 ^ (8 * cs.length) * B = 2 ^ 8 * (2 ^ (8 * cs.length) * B) := by ring
    rw [hmul]
    omega

theorem getElem?_subOnes (cs : List (BitVec 8)) (b : Bool) {j : Nat} (hj : j < cs.length) :
    (subOnes cs b)[j]?.getD 0#8 =
      cs[j]?.getD 0#8 - 1#8 - (BitVec.ofBool (borrowInto cs b j)).setWidth 8 := by
  induction cs generalizing b j with
  | nil => simp at hj
  | cons c cs ih =>
    cases j with
    | zero => simp [subOnes, borrowInto]
    | succ j =>
      have hj' : j < cs.length := by simpa using hj
      simpa [subOnes, borrowInto] using ih _ hj'

/-- `(x - lsb) & ~x & msb` -/
def zeroBytes (x : BitVec 64) : BitVec 64 :=
  (x - 0x0101010101010101#64) &&& ~~~x &&& 0x8080808080808080#64

private theorem getLsbD_msb (i : Nat) :
    (0x8080808080808080#64).getLsbD i = decide (i < 64 ∧ i % 8 = 7) := by
  by_cases hi : i < 64
  · have hall : ∀ i < 64, (0x8080808080808080#64).getLsbD i = decide (i < 64 ∧ i % 8 = 7) := by
      decide
    exact hall i hi
  · rw [BitVec.getLsbD_of_ge _ _ (by omega)]
    simp [hi]

theorem getLsbD_and_msb (x : BitVec 64) (i : Nat) :
    (x &&& 0x8080808080808080#64).getLsbD i = (x.getLsbD i && decide (i < 64 ∧ i % 8 = 7)) := by
  rw [BitVec.getLsbD_and, getLsbD_msb]

private theorem loadLE_sub_ones {cs : List (BitVec 8)} (hlen : cs.length = 8) :
    loadLE cs - 0x0101010101010101#64 = loadLE (subOnes cs false) := by
  have hsum := packBytes_subOnes cs false
  rw [hlen] at hsum
  have hones : packBytes (List.replicate 8 1#8) = 0x0101010101010101 := by decide
  rw [hones] at hsum
  apply BitVec.eq_of_toNat_eq
  have hx : packBytes cs < 2 ^ 64 := by simpa [hlen] using packBytes_lt cs
  simp only [loadLE, BitVec.toNat_sub, BitVec.toNat_ofNat, Bool.toNat_false] at hsum ⊢
  cases hb : borrowInto cs false 8
  · simp only [hb, Bool.toNat_false] at hsum
    omega
  · simp only [hb, Bool.toNat_true] at hsum
    omega

/-- Byte `j` is flagged exactly when the subtraction borrows out of it. -/
theorem getLsbD_zeroBytes {cs : List (BitVec 8)} (hlen : cs.length = 8) {j : Nat} (hj : j < 8) :
    (zeroBytes (loadLE cs)).getLsbD (8 * j + 7) = borrowInto cs false (j + 1) := by
  have hlt : 8 * j + 7 < 64 := by omega
  have hmod : (8 * j + 7) % 8 = 7 := by omega
  rw [zeroBytes, getLsbD_and_msb, BitVec.getLsbD_and, BitVec.getLsbD_not, loadLE_sub_ones hlen,
    getLsbD_loadLE _ hj (by decide), getLsbD_loadLE _ hj (by decide),
    getElem?_subOnes cs false (by omega), borrowInto_succ cs false (by omega), ← digit_flag]
  simp [hlt, hmod]

theorem mod_of_getLsbD_zeroBytes {x : BitVec 64} {i : Nat} (h : (zeroBytes x).getLsbD i = true) :
    i % 8 = 7 := by
  rw [zeroBytes, getLsbD_and_msb] at h
  simp only [Bool.and_eq_true, decide_eq_true_eq] at h
  exact h.2.2

/-- A flagged byte is zero, or it is one and the byte below it is flagged. -/
theorem borrowInto_succ_cases {cs : List (BitVec 8)} {j : Nat} (hj : j < cs.length)
    (h : borrowInto cs false (j + 1) = true) :
    cs[j]?.getD 0#8 = 0#8 ∨
      (cs[j]?.getD 0#8 = 1#8 ∧ ∃ i, j = i + 1 ∧ borrowInto cs false (i + 1) = true) := by
  rw [borrowInto_succ cs false hj, decide_eq_true_eq] at h
  cases hb : borrowInto cs false j with
  | false =>
    left
    apply BitVec.eq_of_toNat_eq
    simp only [hb, Bool.toNat_false] at h
    simpa using h
  | true =>
    have hj0 : ∃ i, j = i + 1 := by
      cases j with
      | zero => simp [borrowInto] at hb
      | succ i => exact ⟨i, rfl⟩
    simp only [hb, Bool.toNat_true] at h
    rcases Nat.lt_or_ge (cs[j]?.getD 0#8).toNat 1 with h0 | h1
    · left
      apply BitVec.eq_of_toNat_eq
      simpa using h0
    · right
      refine ⟨BitVec.eq_of_toNat_eq ?_, ?_⟩
      · rw [show (1#8).toNat = 1 from rfl]
        omega
      · obtain ⟨i, rfl⟩ := hj0
        exact ⟨i, rfl, hb⟩

theorem borrowInto_succ_of_zero {cs : List (BitVec 8)} {j : Nat} (hj : j < cs.length)
    (h : cs[j]?.getD 0#8 = 0#8) : borrowInto cs false (j + 1) = true := by
  rw [borrowInto_succ cs false hj, h]
  simp

end IndexedHash.ByteWord

namespace IndexedHash

open ByteWord

/-! ## Byte order -/

inductive ByteOrder where
  | little
  | big
deriving DecidableEq, Repr

/-- `*(const uint64_t *) p`, or the load of a shorter word -/
def ByteOrder.load : ByteOrder → List (BitVec 8) → BitVec 64
  | .little, bytes => loadLE bytes
  | .big, bytes => loadLE bytes.reverse

end IndexedHash
