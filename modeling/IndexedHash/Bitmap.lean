import Mathlib.Data.List.Basic
import Mathlib.Tactic.Common

/-!
# Bitmaps stored in bytes

Bit `i` of a bitmap is bit `i % 8` of byte `i / 8`.  `test?` and `mark?` are the
reads and writes a program performs, `none` when the byte is not allocated;
`test` and `mark` are their total forms, which the specifications use.
-/

namespace IndexedHash

abbrev Bitmap := List (BitVec 8)

namespace Bitmap

def zeros (n : Nat) : Bitmap := List.replicate n 0#8

/-- `map[i / 8] & (1 << (i % 8))` -/
def test? (map : Bitmap) (i : Nat) : Option Bool :=
  map[i / 8]?.map fun byte => byte &&& (1#8 <<< (i % 8)) != 0#8

/-- `map[i / 8] |= 1 << (i % 8)` -/
def mark? (map : Bitmap) (i : Nat) : Option Bitmap :=
  map[i / 8]?.map fun byte => map.set (i / 8) (byte ||| (1#8 <<< (i % 8)))

def test (map : Bitmap) (i : Nat) : Bool := (map[i / 8]?.getD 0#8).getLsbD (i % 8)

def mark (map : Bitmap) (i : Nat) : Bitmap :=
  map.set (i / 8) (map[i / 8]?.getD 0#8 ||| (1#8 <<< (i % 8)))

@[simp] theorem length_zeros (n : Nat) : (zeros n).length = n := List.length_replicate

@[simp] theorem length_mark (map : Bitmap) (i : Nat) : (map.mark i).length = map.length :=
  List.length_set

private theorem and_shift_ne_zero (byte : BitVec 8) (k : Nat) (hk : k < 8) :
    (byte &&& (1#8 <<< k) != 0#8) = byte.getLsbD k := by
  revert byte
  have hall : ∀ k < 8, ∀ byte : BitVec 8, (byte &&& (1#8 <<< k) != 0#8) = byte.getLsbD k := by
    decide
  exact hall k hk

private theorem getLsbD_or_shift (byte : BitVec 8) (k l : Nat) (hk : k < 8) (hl : l < 8) :
    (byte ||| (1#8 <<< k)).getLsbD l = (decide (l = k) || byte.getLsbD l) := by
  rw [BitVec.getLsbD_or, BitVec.getLsbD_shiftLeft, Bool.or_comm]
  congr 1
  by_cases h : l = k
  · subst h
    simp [hl]
  · simp only [hl, decide_true, Bool.true_and, h, decide_false]
    by_cases hlt : l < k
    · simp [hlt]
    · have hpos : l - k ≠ 0 := by omega
      simp [hpos]

theorem test?_eq_some {map : Bitmap} {i : Nat} (hi : i < 8 * map.length) :
    map.test? i = some (map.test i) := by
  have hb : i / 8 < map.length := by omega
  simp only [test?, test, List.getElem?_eq_getElem hb, Option.map_some, Option.getD_some]
  rw [and_shift_ne_zero _ _ (Nat.mod_lt i (by decide))]

theorem mark?_eq_some {map : Bitmap} {i : Nat} (hi : i < 8 * map.length) :
    map.mark? i = some (map.mark i) := by
  have hb : i / 8 < map.length := by omega
  simp only [mark?, mark, List.getElem?_eq_getElem hb, Option.map_some, Option.getD_some]

/-- Marking a bit sets that bit and no other. -/
theorem test_mark {map : Bitmap} {i : Nat} (hi : i < 8 * map.length) (j : Nat) :
    (map.mark i).test j = (decide (j = i) || map.test j) := by
  have hb : i / 8 < map.length := by omega
  unfold test mark
  by_cases hij : i / 8 = j / 8
  · rw [hij, List.getElem?_set_self (hij ▸ hb), Option.getD_some,
      getLsbD_or_shift _ _ _ (Nat.mod_lt i (by decide)) (Nat.mod_lt j (by decide))]
    congr 1
    have : j % 8 = i % 8 ↔ j = i := by omega
    simp [this]
  · rw [List.getElem?_set_ne hij]
    have hne : j ≠ i := fun h => hij (by rw [h])
    simp [hne]

@[simp] theorem test_zeros (n i : Nat) : (zeros n).test i = false := by
  unfold test zeros
  by_cases h : i / 8 < n
  · simp [h]
  · simp [h]

end Bitmap

end IndexedHash
