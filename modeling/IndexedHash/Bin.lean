import Mathlib.Algebra.Group.Nat.Defs
import Mathlib.Data.List.Basic
import Mathlib.Tactic.Common
import IndexedHash.Loop
import IndexedHash.Bitmap

/-!
# Bins

The data model shared by the four headers.  A bin is a dense array `els` of which
the positions below `els_bound` are used, a bitmap `deleted` of the positions that
hold deleted elements, and an index that leads from a hash to positions.  The
headers differ in the index only: interleaved groups in `ihtab.h` and `ixhtab.h`,
separate `h7` and `indexes` arrays in the `v0` headers.  So a bin is written over
the type `G` of its index, and a header supplies the index as a `BinOps`; the
table code above a bin (`Iht.lean`, `Ixht.lean`) is then one text for both.

Storage that `malloc` or `realloc` has handed out and nobody has written is
`none`.  Reading it, or reading or writing outside the allocation, makes the
computation stuck (`none` in the `Option` of the result), so a theorem that a
call returns also says that it touches no such storage.
-/

namespace IndexedHash

/-- `enum iht_action`, `enum ixht_action`, in the order of the source; INSERT is
    the greatest, so `action >= INSERT` means `action = INSERT`. -/
inductive Action where
  | find
  | delete
  | insert
deriving DecidableEq, Repr

/-- The `Hash` and `Eq` arguments of `DEFINE_IHT` and `DEFINE_IXHT`. -/
structure Key (El : Type) where
  hash : El → BitVec 64
  eq : El → El → Bool

/-- What the headers expect of them. -/
structure Key.Lawful {El : Type} (key : Key El) : Prop where
  refl : ∀ x, key.eq x x = true
  symm : ∀ x y, key.eq x y = true → key.eq y x = true
  trans : ∀ x y z, key.eq x y = true → key.eq y z = true → key.eq x z = true
  hash_eq : ∀ x y, key.eq x y = true → key.hash x = key.hash y

def identityKey : Key (BitVec 64) := ⟨id, (· == ·)⟩

theorem identityKey_lawful : identityKey.Lawful where
  refl x := beq_self_eq_true x
  symm _ _ h := beq_iff_eq.mpr (beq_iff_eq.mp h).symm
  trans _ _ _ hxy hyz := beq_iff_eq.mpr ((beq_iff_eq.mp hxy).trans (beq_iff_eq.mp hyz))
  hash_eq _ _ h := beq_iff_eq.mp h

/-- The number of bits of the counters (`iht_size_t`, `unsigned int`) and of a
    stored index (`iht_ind_t`, `ixht_ind_t`). -/
structure Widths where
  size : Nat
  ind : Nat

def ihtWidths : Widths := ⟨64, 32⟩
def ixhtWidths : Widths := ⟨32, 16⟩

/-- `n++` on a counter -/
def Widths.incr (w : Widths) (n : Nat) : Nat := (n + 1) % 2 ^ w.size

/-- `n--` on a counter -/
def Widths.decr (w : Widths) (n : Nat) : Nat := (n + (2 ^ w.size - 1)) % 2 ^ w.size

theorem Widths.incr_eq {w : Widths} {n : Nat} (h : n + 1 < 2 ^ w.size) : w.incr n = n + 1 :=
  Nat.mod_eq_of_lt h

theorem Widths.decr_eq {w : Widths} {n : Nat} (hpos : 0 < n) (h : n < 2 ^ w.size) :
    w.decr n = n - 1 := by
  unfold decr
  rw [show n + (2 ^ w.size - 1) = n - 1 + 2 ^ w.size by omega, Nat.add_mod_right,
    Nat.mod_eq_of_lt (by omega)]

def GROUP_SIZE : Nat := 8

/-- `(hash / GROUP_SIZE) & groups_mask`, in the width of the counters -/
def homeGroup (w : Widths) (hash : BitVec 64) (groupsMask : Nat) : Nat :=
  hash.toNat / GROUP_SIZE % 2 ^ w.size &&& groupsMask

/-- `struct hbin_iht` over an index of type `G`. -/
structure Hbin (El G : Type) where
  elsBound : Nat
  els : List (Option El)
  deleted : Bitmap
  groups : G
  groupsMask : Nat

namespace Hbin

variable {El G G' : Type}

/-- `els[i]` -/
def elAt (b : Hbin El G) (i : Nat) : Option El := b.els[i]?.join

/-- `els[i] = x` -/
def store? (b : Hbin El G) (i : Nat) (x : El) : Option (Hbin El G) :=
  if i < b.els.length then some { b with els := b.els.set i (some x) } else none

theorem store?_eq_some_iff {b b' : Hbin El G} {i : Nat} {x : El} :
    b.store? i x = some b' ↔
      i < b.els.length ∧ b' = { b with els := b.els.set i (some x) } := by
  unfold store?
  by_cases hi : i < b.els.length
  · simp [hi, eq_comm]
  · simp [hi]

theorem store?_eq_some {b : Hbin El G} {i : Nat} {x : El} (hi : i < b.els.length) :
    b.store? i x = some { b with els := b.els.set i (some x) } :=
  store?_eq_some_iff.mpr ⟨hi, rfl⟩

theorem store?_elsBound {b b' : Hbin El G} {i : Nat} {x : El} (h : b.store? i x = some b') :
    b'.elsBound = b.elsBound := by
  obtain ⟨-, rfl⟩ := store?_eq_some_iff.mp h
  rfl

theorem store?_groupsMask {b b' : Hbin El G} {i : Nat} {x : El} (h : b.store? i x = some b') :
    b'.groupsMask = b.groupsMask := by
  obtain ⟨-, rfl⟩ := store?_eq_some_iff.mp h
  rfl

theorem elAt_set {b : Hbin El G} {i : Nat} (hi : i < b.els.length) (x : El) (j : Nat) :
    ({ b with els := b.els.set i (some x) } : Hbin El G).elAt j =
      if j = i then some x else b.elAt j := by
  unfold elAt
  by_cases hj : j = i
  · subst hj
    simp [hi]
  · simp [hj, Ne.symm hj]

def withGroups (b : Hbin El G) (g : G') : Hbin El G' :=
  { elsBound := b.elsBound, els := b.els, deleted := b.deleted, groups := g,
    groupsMask := b.groupsMask }

def numGroups (b : Hbin El G) : Nat := b.groupsMask + 1

/-- The capacity of the dense array, `indexes_size / 2`. -/
def elsSize (b : Hbin El G) : Nat := 4 * b.numGroups

/-- `(groups_mask + 1) * GROUP_SIZE` -/
def indexesSize (w : Widths) (b : Hbin El G) : Nat := (b.groupsMask + 1) * GROUP_SIZE % 2 ^ w.size

theorem indexesSize_eq {w : Widths} {b : Hbin El G} (h : 8 * b.numGroups < 2 ^ w.size) :
    b.indexesSize w = 8 * b.numGroups := by
  unfold indexesSize GROUP_SIZE
  rw [Nat.mul_comm]
  exact Nat.mod_eq_of_lt h

def live (b : Hbin El G) : List El :=
  (List.range b.elsBound).filterMap fun i => if b.deleted.test i then none else b.elAt i

@[simp] theorem withGroups_groups (b : Hbin El G) (g : G') : (b.withGroups g).groups = g := rfl
@[simp] theorem withGroups_els (b : Hbin El G) (g : G') : (b.withGroups g).els = b.els := rfl
@[simp] theorem withGroups_elsBound (b : Hbin El G) (g : G') :
    (b.withGroups g).elsBound = b.elsBound := rfl
@[simp] theorem withGroups_deleted (b : Hbin El G) (g : G') :
    (b.withGroups g).deleted = b.deleted := rfl
@[simp] theorem withGroups_groupsMask (b : Hbin El G) (g : G') :
    (b.withGroups g).groupsMask = b.groupsMask := rfl
@[simp] theorem withGroups_elAt (b : Hbin El G) (g : G') (i : Nat) :
    (b.withGroups g).elAt i = b.elAt i := rfl
@[simp] theorem withGroups_live (b : Hbin El G) (g : G') : (b.withGroups g).live = b.live := rfl

end Hbin

/-- One pass of `while (el_idx < els_bound)` of the iterators.  The loop leaves with
    the index it stops at, and with that index again if a live element is there. -/
def Hbin.advanceBody {El G : Type} (w : Widths) (b : Hbin El G) (elIdx : Nat) :
    Option (Loop.Step Nat (Nat × Option Nat)) :=
  if elIdx < b.elsBound then
    (b.deleted.test? elIdx).map fun del =>
      if del then .again (w.incr elIdx) else .leave (elIdx, some elIdx)
  else some (.leave (elIdx, none))

def Hbin.advance {El G : Type} (w : Widths) (fuel : Nat) (b : Hbin El G) (elIdx : Nat) :
    Option (Nat × Option Nat) :=
  Loop.forever (b.advanceBody w) fuel elIdx

/-- What `iht_do_1` leaves behind: its return value, the position `*res` points
    to when it was written, the element counter of the table, and the bin. -/
structure Outcome (El G : Type) where
  found : Bool
  res : Option Nat
  elsNum : Nat
  bin : Hbin El G

/-- The part of a header that knows the index: its allocation, its reset and
    `iht_do_1`.  The first argument of `do1` bounds the passes of its probe loop. -/
structure BinOps (El G : Type) where
  /-- a fresh index of `n` groups, all slots empty -/
  alloc : Nat → G
  /-- reset the tags of the `n` groups; stuck if the index has fewer -/
  clear : Nat → G → Option G
  /-- `realloc` to `n` groups, then reset the tags -/
  regrow : Nat → G → G
  do1 : Nat → Nat → Hbin El G → BitVec 64 → El → Action → Option (Outcome El G)

/-- `do_1 (t, bin, hash, el, INSERT, &r); *r = el;`, as the rebuilds write it. -/
def reinsert {El G : Type} (ops : BinOps El G) (fuel elsNum : Nat) (b : Hbin El G)
    (hash : BitVec 64) (el : El) : Option (Nat × Hbin El G) :=
  (ops.do1 fuel elsNum b hash el .insert).bind fun r =>
    r.res.bind fun p => (r.bin.store? p el).map fun b => (r.elsNum, b)

def BinOps.Mono {El G : Type} (ops : BinOps El G) : Prop :=
  ∀ elsNum b hash el action, Loop.Mono fun fuel => ops.do1 fuel elsNum b hash el action

theorem BinOps.Mono.reinsert {El G : Type} {ops : BinOps El G} (hmono : ops.Mono) (n : Nat)
    (b : Hbin El G) (hash : BitVec 64) (el : El) :
    Loop.Mono fun fuel => IndexedHash.reinsert ops fuel n b hash el :=
  Loop.Mono.bind (hmono n b hash el .insert) fun _ => Loop.Mono.const _

end IndexedHash
