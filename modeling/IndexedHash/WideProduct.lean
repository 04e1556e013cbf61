import Mathlib.Tactic.Common
import Mathlib.Tactic.Ring

/-!
# Products of double words by halves

The product of two double words has twice as many bits.  Its two words can be put
together from the four products of the halves: the two middle products contribute their
upper halves to the high word and their lower halves to the low one, where the additions
may carry.  `words_of_halves` says so for any base and any way to add in which no carry
is lost, and `toNat_add_carry` that comparing a sum with a summand finds the carry.

The words of a number are unique (`words_unique`).
-/

namespace IndexedHash.WideProduct

/-- The carry of an addition is where the sum is less than a summand. -/
theorem toNat_add_carry {w : Nat} (x y : BitVec w) :
    (x + y).toNat + 2 ^ w * (decide (x + y < x)).toNat = x.toNat + y.toNat := by
  have hx := x.isLt
  have hy := y.isLt
  simp only [BitVec.lt_def, BitVec.toNat_add]
  by_cases hlt : x.toNat + y.toNat < 2 ^ w
  · rw [Nat.mod_eq_of_lt hlt]
    simp
  · have hmod : (x.toNat + y.toNat) % 2 ^ w = x.toNat + y.toNat - 2 ^ w := by
      rw [Nat.mod_eq_sub_mod (by omega), Nat.mod_eq_of_lt (by omega)]
    rw [hmod, decide_eq_true (show x.toNat + y.toNat - 2 ^ w < x.toNat by omega)]
    simp only [Bool.toNat_true]
    omega

/-- The carries of two additions, one after the other. -/
theorem add_add_carries {w : Nat} (x y z : BitVec w) :
    ∃ c ≤ 2, (x + y + z).toNat + 2 ^ w * c = x.toNat + y.toNat + z.toNat ∧
      (if x + y < x then 1 else 0) + (if x + y + z < x + y then 1 else 0) = BitVec.ofNat w c := by
  have hcarry := toNat_add_carry x y
  have hcarry' := toNat_add_carry (x + y) z
  have hle := Bool.toNat_le (decide (x + y < x))
  have hle' := Bool.toNat_le (decide (x + y + z < x + y))
  refine ⟨(decide (x + y < x)).toNat + (decide (x + y + z < x + y)).toNat, by omega, ?_, ?_⟩
  · rw [Nat.mul_add]
    omega
  · have hbit : ∀ (P : Prop) [Decidable P],
        (if P then 1 else 0) = BitVec.ofNat w (decide P).toNat := by
      intro P _
      by_cases hP : P <;> simp [hP]
    rw [hbit, hbit, BitVec.ofNat_add]

/-- The four products of the halves. -/
theorem mul_eq_halves (B v p : Nat) :
    v * p = v / B * (p / B) * (B * B) + (v / B * (p % B) + p / B * (v % B)) * B +
      v % B * (p % B) := by
  calc v * p = (B * (v / B) + v % B) * (B * (p / B) + p % B) := by
        rw [Nat.div_add_mod, Nat.div_add_mod]
    _ = _ := by ring

/-- A middle product, one half further up. -/
theorem mul_base (B m : Nat) : m * B = m / B * (B * B) + m % B * B := by
  calc m * B = (B * (m / B) + m % B) * B := by rw [Nat.div_add_mod]
    _ = _ := by ring

def lowSum (B v p : Nat) : Nat :=
  v % B * (p % B) + v / B * (p % B) % B * B + p / B * (v % B) % B * B

/-- The words of the product, from the halves of the factors, if `lo` with `c` carries is
    the sum of what belongs into the low word. -/
theorem words_of_halves {B v p lo c : Nat} (h : lo + B * B * c = lowSum B v p) :
    (v / B * (p / B) + v / B * (p % B) / B + p / B * (v % B) / B + c) * (B * B) + lo = v * p := by
  have hmid := mul_base B (v / B * (p % B))
  have hmid' := mul_base B (p / B * (v % B))
  rw [mul_eq_halves B v p, Nat.add_mul _ _ B, hmid, hmid']
  unfold lowSum at h
  calc _ = v / B * (p / B) * (B * B) + v / B * (p % B) / B * (B * B) +
        p / B * (v % B) / B * (B * B) + (lo + B * B * c) := by ring
    _ = _ := by rw [h]; ring

/-- Two pairs of words that stand for one number are the same. -/
theorem words_unique {W hi lo hi' lo' : Nat} (hlo : lo < W) (hlo' : lo' < W)
    (h : hi * W + lo = hi' * W + lo') : hi = hi' ∧ lo = lo' := by
  have hhi : hi = hi' := by
    have hdiv := congrArg (· / W) h
    simp only [Nat.mul_comm _ W] at hdiv
    rwa [Nat.mul_add_div (by omega), Nat.div_eq_of_lt hlo, Nat.mul_add_div (by omega),
      Nat.div_eq_of_lt hlo', Nat.add_zero, Nat.add_zero] at hdiv
  subst hhi
  exact ⟨rfl, Nat.add_left_cancel h⟩

end IndexedHash.WideProduct
