import Mathlib.Data.Finset.Card
import Mathlib.Data.Finset.Range
import Mathlib.Data.Nat.Find
import Mathlib.Data.Nat.ModEq
import Mathlib.Data.Nat.Bitwise
import Mathlib.Tactic.Common

/-!
# Cyclic probing and slot counts

Two general ingredients of open addressing.  A linear probe over `n` groups
visits group `(start + k) % n` at step `k`; it meets every group, the first `n`
steps meet each group once, and so a probe that stops at a property stops within
`n` steps if any group has the property.  The slots of a table with a property
are counted by the cardinality of a filter, and a write to one slot moves such a
count by at most one.
-/

namespace IndexedHash.Probing

/-! ## The walk -/

theorem exists_step {n g : Nat} (start : Nat) (hg : g < n) : ∃ k < n, (start + k) % n = g := by
  have hn : 0 < n := by omega
  have hr : start % n < n := Nat.mod_lt _ hn
  have hsplit := Nat.div_add_mod start n
  by_cases h : start % n ≤ g
  · refine ⟨g - start % n, by omega, ?_⟩
    have : start + (g - start % n) = g + n * (start / n) := by omega
    rw [this, Nat.add_mul_mod_self_left, Nat.mod_eq_of_lt hg]
  · refine ⟨g + n - start % n, by omega, ?_⟩
    have : start + (g + n - start % n) = g + n * (start / n + 1) := by
      rw [Nat.mul_add, Nat.mul_one]
      omega
    rw [this, Nat.add_mul_mod_self_left, Nat.mod_eq_of_lt hg]

/-- A walk that looks for a property finds it at a first step below `n`. -/
theorem exists_first {p : Nat → Prop} {n g : Nat} (start : Nat) (hg : g < n) (hp : p g) :
    ∃ k < n, p ((start + k) % n) ∧ ∀ j < k, ¬ p ((start + j) % n) := by
  classical
  obtain ⟨k, hk, hkg⟩ := exists_step start hg
  have hex : ∃ k, p ((start + k) % n) := ⟨k, by rw [hkg]; exact hp⟩
  refine ⟨Nat.find hex, ?_, Nat.find_spec hex, fun j hj => Nat.find_min hex hj⟩
  exact Nat.lt_of_le_of_lt (Nat.find_min' hex (by rw [hkg]; exact hp)) hk

/-- Group `g` is on the walk from `start`, and every group before it is full. -/
def OnPath (full : Nat → Prop) (n start g : Nat) : Prop :=
  ∃ k < n, g = (start + k) % n ∧ ∀ j < k, full ((start + j) % n)

theorem OnPath.mono {full full' : Nat → Prop} {n start g : Nat} (hfull : ∀ g, full g → full' g)
    (h : OnPath full n start g) : OnPath full' n start g := by
  obtain ⟨k, hk, hg, hpath⟩ := h
  exact ⟨k, hk, hg, fun j hj => hfull _ (hpath j hj)⟩

theorem step_injective {n start j k : Nat} (hj : j < n) (hk : k < n)
    (h : (start + j) % n = (start + k) % n) : j = k := by
  have hmod : j % n = k % n := Nat.ModEq.add_left_cancel' start h
  rwa [Nat.mod_eq_of_lt hj, Nat.mod_eq_of_lt hk] at hmod

/-- `(group + 1) & mask` is the next step of the walk. -/
theorem next_step {n m : Nat} (hn : n = 2 ^ m) (start k : Nat) :
    ((start + k) % n + 1) &&& (n - 1) = (start + (k + 1)) % n := by
  rw [hn, Nat.and_two_pow_sub_one_eq_mod, ← hn, Nat.mod_add_mod, Nat.add_assoc]

/-- `x & mask`, with `x` kept in `w` bits, is `x` modulo the number of groups. -/
theorem mod_and_mask {n m w : Nat} (hn : n = 2 ^ m) (hmw : m ≤ w) (x : Nat) :
    x % 2 ^ w &&& (n - 1) = x % n := by
  rw [hn, Nat.and_two_pow_sub_one_eq_mod, Nat.mod_mod_of_dvd _ (Nat.pow_dvd_pow 2 hmw)]

/-! ## Counting slots -/

section Counting

variable {p q : Nat → Prop} [DecidablePred p] [DecidablePred q] {m s : Nat}

def slotCount (m : Nat) (p : Nat → Prop) [DecidablePred p] : Nat :=
  ((Finset.range m).filter p).card

theorem slotCount_congr (h : ∀ i < m, p i ↔ q i) : slotCount m p = slotCount m q := by
  unfold slotCount
  congr 1
  apply Finset.filter_congr
  intro i hi
  exact h i (Finset.mem_range.mp hi)

theorem slotCount_insert (hs : s < m) (hp : ¬ p s) (hq : q s) (h : ∀ i < m, i ≠ s → (q i ↔ p i)) :
    slotCount m q = slotCount m p + 1 := by
  have hset : (Finset.range m).filter q = insert s ((Finset.range m).filter p) := by
    ext i
    simp only [Finset.mem_filter, Finset.mem_range, Finset.mem_insert]
    constructor
    · rintro ⟨hi, hqi⟩
      by_cases his : i = s
      · exact Or.inl his
      · exact Or.inr ⟨hi, (h i hi his).mp hqi⟩
    · rintro (rfl | ⟨hi, hpi⟩)
      · exact ⟨hs, hq⟩
      · have his : i ≠ s := fun he => hp (he ▸ hpi)
        exact ⟨hi, (h i hi his).mpr hpi⟩
  unfold slotCount
  rw [hset, Finset.card_insert_of_notMem]
  simp [hp]

theorem slotCount_eq_zero (h : ∀ i < m, ¬ p i) : slotCount m p = 0 := by
  unfold slotCount
  rw [Finset.card_eq_zero, Finset.filter_eq_empty_iff]
  intro i hi
  exact h i (Finset.mem_range.mp hi)

theorem slotCount_add_not (m : Nat) (p : Nat → Prop) [DecidablePred p] :
    slotCount m p + slotCount m (fun i => ¬ p i) = m := by
  unfold slotCount
  rw [Finset.card_filter_add_card_filter_not, Finset.card_range]

/-- A count below the number of slots leaves a slot without the property. -/
theorem exists_not_of_slotCount_lt (h : slotCount m p < m) : ∃ i < m, ¬ p i := by
  by_contra hno
  have hall : ∀ i < m, p i := fun i hi => by
    by_contra hpi
    exact hno ⟨i, hi, hpi⟩
  have hfull : (Finset.range m).filter p = Finset.range m := by
    rw [Finset.filter_eq_self]
    intro i hi
    exact hall i (Finset.mem_range.mp hi)
  unfold slotCount at h
  rw [hfull, Finset.card_range] at h
  exact Nat.lt_irrefl m h

end Counting

/-! ## Writing one slot -/

def Overwritten {α : Type} (f f' : Nat → Option α) (a : Nat) (v : α) : Prop :=
  ∀ s, f' s = if s = a then some v else f s

section Overwritten

variable {α : Type} {f f' : Nat → Option α} {a : Nat} {v e : α}

theorem Overwritten.at (h : Overwritten f f' a v) : f' a = some v := by rw [h, if_pos rfl]

theorem Overwritten.of_ne (h : Overwritten f f' a v) {s : Nat} (hs : s ≠ a) : f' s = f s := by
  rw [h, if_neg hs]

/-- A new value is the one written or an old one of another slot. -/
theorem Overwritten.cases (h : Overwritten f f' a v) {s : Nat} {t : α} (ht : f' s = some t) :
    s = a ∧ t = v ∨ s ≠ a ∧ f s = some t := by
  by_cases hs : s = a
  · rw [hs, h.at, Option.some.injEq] at ht
    exact Or.inl ⟨hs, ht.symm⟩
  · exact Or.inr ⟨hs, (h.of_ne hs).symm.trans ht⟩

theorem Overwritten.all (h : Overwritten f f' a v) {P : α → Prop} (hv : P v)
    (hf : ∀ s t, f s = some t → P t) : ∀ s t, f' s = some t → P t := by
  intro s t ht
  rcases h.cases ht with ⟨-, rfl⟩ | ⟨-, ht⟩
  · exact hv
  · exact hf s t ht

theorem Overwritten.ne_some (h : Overwritten f f' a v) (hv : v ≠ e) {s : Nat} (hs : f s ≠ some e) :
    f' s ≠ some e := by
  intro hs'
  rcases h.cases hs' with ⟨-, heq⟩ | ⟨-, heq⟩
  · exact hv heq.symm
  · exact hs heq

variable [DecidableEq α] {m : Nat}

/-- A free slot comes into use. -/
theorem Overwritten.slotCount_succ (h : Overwritten f f' a v) (ha : a < m) (hfree : f a = some e)
    (hv : v ≠ e) :
    slotCount m (fun s => f' s ≠ some e) = slotCount m (fun s => f s ≠ some e) + 1 := by
  refine slotCount_insert ha (by simp [hfree]) ?_ fun s _ hs => by rw [h.of_ne hs]
  rw [h.at]
  simpa using hv

/-- A slot in use stays in use. -/
theorem Overwritten.slotCount_eq (h : Overwritten f f' a v) (hused : f a ≠ some e) (hv : v ≠ e) :
    slotCount m (fun s => f' s ≠ some e) = slotCount m (fun s => f s ≠ some e) := by
  refine slotCount_congr fun s _ => ?_
  by_cases hs : s = a
  · subst hs
    rw [h.at]
    simp [hused, hv]
  · rw [h.of_ne hs]

end Overwritten

end IndexedHash.Probing
