import Mathlib.Data.List.Basic
import Mathlib.Data.List.Pairwise
import Mathlib.Data.List.Perm.Basic
import Mathlib.Data.List.Nodup
import Mathlib.Tactic.Common

/-!
# Lists of elements that are keys

A finite map whose elements are their own keys, compared by a Boolean relation
`eq`: an association list without the association.  `Apart` says that no two
elements are equal, `lookup`, `remove` and `replace` act on the element equal to a
given one.  As a map such a list does not depend on its order (`lookup_perm`,
`remove_perm`, `replace_perm`); as a sequence it does.
-/

namespace IndexedHash.KeyedList

variable {α : Type*} {eq : α → α → Bool}

def lookup (eq : α → α → Bool) (l : List α) (k : α) : Option α := l.find? (eq · k)

def remove (eq : α → α → Bool) (l : List α) (k : α) : List α := l.filter fun x => !eq x k

def replace (eq : α → α → Bool) (l : List α) (k y : α) : List α :=
  l.map fun x => if eq x k then y else x

def Apart (eq : α → α → Bool) (l : List α) : Prop := l.Pairwise fun x y => eq x y = false

section Lookup

variable {l : List α} {k x : α}

theorem lookup_some (h : lookup eq l k = some x) : x ∈ l ∧ eq x k = true :=
  ⟨List.mem_of_find?_eq_some h, by simpa using List.find?_some h⟩

theorem lookup_none (h : lookup eq l k = none) (hx : x ∈ l) : eq x k = false := by
  simpa using List.find?_eq_none.mp h x hx

theorem lookup_eq_none (h : ∀ x ∈ l, eq x k = false) : lookup eq l k = none :=
  List.find?_eq_none.mpr fun x hx => by simp [h x hx]

theorem remove_eq_self (h : ∀ x ∈ l, eq x k = false) : remove eq l k = l :=
  List.filter_eq_self.mpr fun x hx => by simp [h x hx]

theorem replace_eq_self (h : ∀ x ∈ l, eq x k = false) (y : α) : replace eq l k y = l :=
  (List.map_congr_left fun x hx => by simp [h x hx]).trans (List.map_id l)

end Lookup

section Apart

variable (heq : Equivalence fun x y => eq x y = true) {l l' : List α} {k x y : α}
include heq

theorem eq_false_symm : Std.Symm fun x y => eq x y = false where
  symm x y h := by
    by_contra hyx
    rw [heq.symm (by simpa using hyx)] at h
    cases h

/-- Equal elements of the list are the same. -/
theorem Apart.eq_of_eq (h : Apart eq l) (hx : x ∈ l) (hy : y ∈ l) (hxy : eq x y = true) : x = y := by
  by_contra hne
  have := eq_false_symm heq
  rw [List.Pairwise.forall h hx hy hne] at hxy
  cases hxy

theorem Apart.nodup (h : Apart eq l) : l.Nodup := by
  refine List.Pairwise.imp ?_ h
  rintro a b hab rfl
  rw [heq.refl a] at hab
  cases hab

theorem lookup_eq_some (h : Apart eq l) (hx : x ∈ l) (hxk : eq x k = true) :
    lookup eq l k = some x := by
  cases hfind : lookup eq l k with
  | none =>
    rw [lookup_none hfind hx] at hxk
    cases hxk
  | some z =>
    obtain ⟨hz, hzk⟩ := lookup_some hfind
    rw [h.eq_of_eq heq hz hx (heq.trans hzk (heq.symm hxk))]

/-- At most as many elements as there are keys among them. -/
theorem Apart.length_le (h : Apart eq l) (hcover : ∀ y ∈ l, ∃ x ∈ l', eq x y = true) :
    l.length ≤ l'.length := by
  choose! f hmem hf using hcover
  have hnodup : (l.map f).Nodup := by
    rw [List.Nodup, List.pairwise_map]
    refine List.Pairwise.imp_of_mem ?_ h
    intro y z hy hz hyz hfyz
    rw [heq.trans (heq.symm (hf y hy)) (hfyz ▸ hf z hz)] at hyz
    cases hyz
  have hsub : l.map f ⊆ l' := by
    intro x hx
    obtain ⟨y, hy, rfl⟩ := List.mem_map.mp hx
    exact hmem y hy
  have hle := (List.subperm_of_subset hnodup hsub).length_le
  rwa [List.length_map] at hle

theorem length_remove (h : Apart eq l) (hx : lookup eq l k = some x) :
    (remove eq l k).length + 1 = l.length := by
  obtain ⟨hxl, hxk⟩ := lookup_some hx
  have hcount : (l.filter fun z => eq z k) = [x] := by
    have hmem : ∀ z, z ∈ l.filter (fun z => eq z k) ↔ z ∈ [x] := by
      intro z
      rw [List.mem_filter, List.mem_singleton]
      constructor
      · rintro ⟨hz, hzk⟩
        exact h.eq_of_eq heq hz hxl (heq.trans hzk (heq.symm hxk))
      · rintro rfl
        exact ⟨hxl, hxk⟩
    exact List.perm_singleton.mp
      ((List.perm_ext_iff_of_nodup ((h.nodup heq).filter _) (List.nodup_singleton x)).mpr hmem)
  have hsplit := List.length_eq_length_filter_add (l := l) fun z => eq z k
  rw [hcount] at hsplit
  simp only [List.length_singleton] at hsplit
  unfold remove
  omega

theorem remove_head (h : Apart eq (x :: l)) : remove eq (x :: l) x = l := by
  have hne : ∀ y ∈ l, eq y x = false := fun y hy =>
    (eq_false_symm heq).symm x y ((List.pairwise_cons.mp h).1 y hy)
  unfold remove
  rw [List.filter_cons_of_neg (by simp [heq.refl x])]
  exact remove_eq_self hne

theorem Apart.replace (h : Apart eq l) (hyk : eq y k = true) : Apart eq (replace eq l k y) := by
  unfold KeyedList.replace Apart
  rw [List.pairwise_map]
  refine List.Pairwise.imp ?_ h
  intro a b hab
  -- at most one of the two is replaced, by an element equal to it
  by_contra hne
  have hne : eq (if eq a k then y else a) (if eq b k then y else b) = true := by simpa using hne
  have hpart : ∀ c, eq c (if eq c k then y else c) = true := by
    intro c
    split
    · next hck => exact heq.trans hck (heq.symm hyk)
    · exact heq.refl c
  rw [heq.trans (hpart a) (heq.trans hne (heq.symm (hpart b)))] at hab
  cases hab

theorem lookup_perm (h : Apart eq l) (hp : l.Perm l') : lookup eq l' k = lookup eq l k := by
  have h' : Apart eq l' := hp.pairwise h fun {a b} hab => (eq_false_symm heq).symm a b hab
  cases hfind : lookup eq l k with
  | none => exact lookup_eq_none fun x hx => lookup_none hfind (hp.mem_iff.mpr hx)
  | some x =>
    obtain ⟨hx, hxk⟩ := lookup_some hfind
    exact lookup_eq_some heq h' (hp.mem_iff.mp hx) hxk

end Apart

theorem Apart.remove {l : List α} (h : Apart eq l) (k : α) : Apart eq (remove eq l k) :=
  h.sublist List.filter_sublist

theorem Apart.append {l : List α} {y : α} (h : Apart eq l) (hy : ∀ x ∈ l, eq x y = false) :
    Apart eq (l ++ [y]) :=
  List.pairwise_append.mpr ⟨h, List.pairwise_singleton _ _, fun x hx z hz => by
    rw [List.mem_singleton] at hz
    exact hz ▸ hy x hx⟩

theorem remove_perm {l l' : List α} (hp : l.Perm l') (k : α) :
    (remove eq l k).Perm (remove eq l' k) := hp.filter _

theorem replace_perm {l l' : List α} (hp : l.Perm l') (k y : α) :
    (replace eq l k y).Perm (replace eq l' k y) := hp.map _

/-! ## A part of a list

Where only a part of a list can have elements equal to `k`, the operations act on that
part. -/

section Part

variable {l₁ l l₂ : List α} {k : α} (h₁ : ∀ x ∈ l₁, eq x k = false) (h₂ : ∀ x ∈ l₂, eq x k = false)
include h₁ h₂

theorem lookup_part : lookup eq (l₁ ++ l ++ l₂) k = lookup eq l k := by
  have hnone : lookup eq l₁ k = none := lookup_eq_none h₁
  have hnone' : lookup eq l₂ k = none := lookup_eq_none h₂
  unfold lookup at *
  rw [List.find?_append, List.find?_append, hnone, hnone', Option.none_or, Option.or_none]

theorem remove_part : remove eq (l₁ ++ l ++ l₂) k = l₁ ++ remove eq l k ++ l₂ := by
  have hid := remove_eq_self h₁
  have hid' := remove_eq_self h₂
  unfold remove at *
  rw [List.filter_append, List.filter_append, hid, hid']

theorem replace_part (y : α) : replace eq (l₁ ++ l ++ l₂) k y = l₁ ++ replace eq l k y ++ l₂ := by
  have hid := replace_eq_self h₁ y
  have hid' := replace_eq_self h₂ y
  unfold replace at *
  rw [List.map_append, List.map_append, hid, hid']

end Part

end IndexedHash.KeyedList
