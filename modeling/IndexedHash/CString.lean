import Mathlib.Data.Nat.Find
import Mathlib.Tactic.Common

/-!
# Strings that end with a zero byte

A string is an address from which some later byte of the memory is zero.  `strlen` is the
distance to the first one, and `strcmp` compares byte by byte up to a difference or to the
end of both strings.  `strcmp` finds no difference between strings of equal contents and no
others (`strcmpZero_iff`).
-/

namespace IndexedHash.CString

def Ends (mem : Nat → BitVec 8) (p : Nat) : Prop := ∃ n, mem (p + n) = 0

variable {mem : Nat → BitVec 8} {p q : Nat}

/-- `strlen (p)` -/
def strlen (h : Ends mem p) : Nat := Nat.find h

def contents (h : Ends mem p) : List (BitVec 8) := (List.range (strlen h)).map fun o => mem (p + o)

/-- `strcmp (p, q) == 0`, as far as `n` bytes show it. -/
def strcmpZero (mem : Nat → BitVec 8) : Nat → Nat → Nat → Bool
  | 0, _, _ => false
  | n + 1, p, q =>
      if mem p = mem q then
        if mem p = 0 then true else strcmpZero mem n (p + 1) (q + 1)
      else false

theorem mem_strlen (h : Ends mem p) : mem (p + strlen h) = 0 := Nat.find_spec h

theorem mem_ne_zero (h : Ends mem p) {o : Nat} (ho : o < strlen h) : mem (p + o) ≠ 0 := Nat.find_min h ho

@[simp] theorem length_contents (h : Ends mem p) : (contents h).length = strlen h := by
  rw [contents, List.length_map, List.length_range]

theorem strlen_eq_zero (h : Ends mem p) (hp : mem p = 0) : strlen h = 0 :=
  (Nat.find_eq_zero h).mpr hp

theorem Ends.tail (h : Ends mem p) (hp : mem p ≠ 0) : Ends mem (p + 1) := by
  obtain ⟨n, hn⟩ := h
  cases n with
  | zero => exact absurd hn hp
  | succ n =>
    refine ⟨n, ?_⟩
    rw [Nat.add_assoc, Nat.add_comm 1 n]
    exact hn

theorem strlen_tail (h : Ends mem p) (hp : mem p ≠ 0) : strlen h = strlen (h.tail hp) + 1 := by
  apply (Nat.find_eq_iff h).mpr
  constructor
  · have htail := mem_strlen (h.tail hp)
    rwa [Nat.add_assoc, Nat.add_comm 1] at htail
  · intro o ho
    cases o with
    | zero => exact hp
    | succ o =>
      have hless := mem_ne_zero (h.tail hp) (Nat.lt_of_succ_lt_succ ho)
      rwa [Nat.add_assoc, Nat.add_comm 1] at hless

theorem contents_eq_nil (h : Ends mem p) (hp : mem p = 0) : contents h = [] := by
  rw [contents, strlen_eq_zero h hp, List.range_zero, List.map_nil]

theorem contents_eq_cons (h : Ends mem p) (hp : mem p ≠ 0) :
    contents h = mem p :: contents (h.tail hp) := by
  rw [contents, strlen_tail h hp, List.range_succ_eq_map, List.map_cons, List.map_map, contents]
  congr 1
  apply List.map_congr_left
  intro o _
  rw [Function.comp_apply, Nat.succ_eq_add_one, Nat.add_assoc, Nat.add_comm 1]

/-- `strcmp` tells whether two strings have the same contents. -/
theorem strcmpZero_iff (hp : Ends mem p) (hq : Ends mem q) {n : Nat} (hn : strlen hp < n) :
    strcmpZero mem n p q = true ↔ contents hp = contents hq := by
  induction n generalizing p q with
  | zero => exact absurd hn (Nat.not_lt_zero _)
  | succ n ih =>
    rw [strcmpZero]
    by_cases hpz : mem p = 0
    · rw [contents_eq_nil hp hpz, hpz]
      by_cases hqz : mem q = 0
      · rw [contents_eq_nil hq hqz, hqz]
        simp
      · rw [contents_eq_cons hq hqz, if_neg (Ne.symm hqz)]
        simp
    · rw [contents_eq_cons hp hpz]
      by_cases hqz : mem q = 0
      · rw [contents_eq_nil hq hqz, hqz, if_neg hpz]
        simp
      · have hlen := strlen_tail hp hpz
        rw [contents_eq_cons hq hqz, List.cons.injEq, if_neg hpz,
          ← ih (hp.tail hpz) (hq.tail hqz) (by omega)]
        split
        · next heq => simp [heq]
        · next hne => simp [hne]

end IndexedHash.CString
