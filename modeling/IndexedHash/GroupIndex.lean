import Mathlib.Data.List.Nodup
import Mathlib.Data.List.Find
import Mathlib.Tactic.Common
import IndexedHash.Groups
import IndexedHash.IdealIndex

/-!
# Interleaved groups

The index of `ihtab.h` and `ixhtab.h`: groups of eight tags followed by eight
stored indices, and `iht_do_1` / `ixht_do_1` over it.  Slot `s` of the index is
slot `s % 8` of group `s / 8`.

`SlotsOk` is the representation invariant of the index alone.  Its last clause is
the one that makes probing work: on the way from the home group of an entry to
the group that holds it, no group has an empty slot.  `probeGroup_eq` reads one
pass of the probe loop off the slots, on any lawful target, and `groupOps_lawful`
shows that the index implements the ideal one.
-/

namespace IndexedHash

open Loop ByteWord Probing

variable {El : Type}

/-! ## The code -/

structure Group where
  tags : Tags
  indexes : Vector (Option Nat) 8

/-- A group as `aligned_alloc` and `memset (…, EMPTY_H7, GROUP_SIZE)` leave it. -/
def Group.fresh : Group := ⟨Vector.replicate 8 EMPTY_H7, Vector.replicate 8 none⟩

/-- `memset (…, EMPTY_H7, GROUP_SIZE)` on a group in use; the stored indices stay. -/
def Group.clear (group : Group) : Group :=
  { group with tags := Vector.replicate 8 EMPTY_H7 }

/-- `group_base[bit] = tag` -/
def setTag (groups : List Group) (g bit : Nat) (tag : BitVec 8) : List Group :=
  groups.modify g fun group => { group with tags := group.tags.setIfInBounds bit tag }

/-- `group_indexes[bit] = ind` -/
def setIndex (groups : List Group) (g bit ind : Nat) : List Group :=
  groups.modify g fun group => { group with indexes := group.indexes.setIfInBounds bit (some ind) }

/-- How the probe loop ends: at a slot that leads to an equal element, or in a
    group with an empty slot. -/
inductive Probe where
  | hit (g bit elInd : Nat)
  | vacant (g bit : Nat)
deriving DecidableEq, Repr

/-- One pass of `while (mmask)`. -/
def probeSlot (eq : El → El → Bool) (b : Hbin El (List Group)) (group : Group) (el : El)
    (bit : Nat) : Option (Step Unit (Nat × Nat)) :=
  group.indexes[bit]?.join.bind fun elInd =>
    (b.elAt elInd).map fun x => if eq x el then .leave (bit, elInd) else .again ()

/-- One pass of `for (;;)`. -/
def probeGroup (gops : GroupOps) (eq : El → El → Bool) (b : Hbin El (List Group)) (h7 : BitVec 8)
    (el : El) (g : Nat) : Option (Step Nat Probe) :=
  b.groups[g]?.bind fun group =>
    let word := gops.groupLoad group.tags.toList
    (whileMask (fun _ i => probeSlot eq b group el (gops.bit i)) 64 ()
      (gops.matchMask word h7)).map fun
      | .leave (bit, elInd) => .leave (.hit g bit elInd)
      | .again _ =>
          match gops.firstFlagged (gops.matchEmpty word) with
          | some bit => .leave (.vacant g bit)
          | none => .again ((g + 1) &&& b.groupsMask)

/-- The probe loop of `do_1`, up to its `return`. -/
def probe (w : Widths) (gops : GroupOps) (eq : El → El → Bool) (fuel : Nat)
    (b : Hbin El (List Group)) (hash : BitVec 64) (el : El) : Option Probe :=
  forever (probeGroup gops eq b (h7Val hash) el) fuel (homeGroup w hash b.groupsMask)

/-- `iht_do_1`, `ixht_do_1` -/
def groupDo1 (w : Widths) (gops : GroupOps) (eq : El → El → Bool) (fuel elsNum : Nat)
    (b : Hbin El (List Group)) (hash : BitVec 64) (el : El) (action : Action) :
    Option (Outcome El (List Group)) :=
  (probe w gops eq fuel b hash el).bind fun
    | .hit g bit elInd =>
        if action = .delete then
          (b.deleted.mark? elInd).map fun deleted =>
            { found := true, res := none, elsNum := w.decr elsNum,
              bin := { b with deleted := deleted, groups := setTag b.groups g bit DELETED_H7 } }
        else some { found := true, res := some elInd, elsNum := elsNum, bin := b }
    | .vacant g bit =>
        if action = .insert then
          some { found := false, res := some b.elsBound, elsNum := w.incr elsNum,
                 bin := { b with
                   groups := setIndex (setTag b.groups g bit (h7Val hash)) g bit
                     (b.elsBound % 2 ^ w.ind),
                   elsBound := w.incr b.elsBound } }
        else some { found := false, res := none, elsNum := elsNum, bin := b }

def groupOps (w : Widths) (gops : GroupOps) (eq : El → El → Bool) : BinOps El (List Group) where
  alloc n := List.replicate n Group.fresh
  clear n groups :=
    if n ≤ groups.length then some ((groups.take n).map Group.clear ++ groups.drop n) else none
  regrow n groups := (groups.take n).map Group.clear ++ List.replicate (n - groups.length) Group.fresh
  do1 := groupDo1 w gops eq

/-! ## Slots -/

def slotTag (groups : List Group) (s : Nat) : Option (BitVec 8) :=
  groups[s / 8]?.bind fun group => group.tags[s % 8]?

def slotInd (groups : List Group) (s : Nat) : Option Nat :=
  groups[s / 8]?.bind fun group => group.indexes[s % 8]?.join

section Slots

variable {groups : List Group} {g bit s : Nat}

theorem slotTag_isSome (groups : List Group) (hs : s < 8 * groups.length) : ∃ t, slotTag groups s = some t := by
  have hg : s / 8 < groups.length := by omega
  have hb : s % 8 < 8 := Nat.mod_lt s (by decide)
  refine ⟨groups[s / 8].tags[s % 8], ?_⟩
  rw [slotTag, List.getElem?_eq_getElem hg, Option.bind_some, Vector.getElem?_eq_getElem hb]

theorem slotTag_lt {t : BitVec 8} (h : slotTag groups s = some t) : s < 8 * groups.length := by
  by_contra hs
  have hg : groups.length ≤ s / 8 := by omega
  simp [slotTag, List.getElem?_eq_none hg] at h

theorem slotTag_of_group {group : Group} (hgroup : groups[g]? = some group) {j : Nat} (hj : j < 8) :
    slotTag groups (8 * g + j) = group.tags[j]? := by
  have h1 : (8 * g + j) / 8 = g := by omega
  have h2 : (8 * g + j) % 8 = j := by omega
  simp [slotTag, h1, h2, hgroup]

theorem slotInd_of_group {group : Group} (hgroup : groups[g]? = some group) {j : Nat} (hj : j < 8) :
    slotInd groups (8 * g + j) = group.indexes[j]?.join := by
  have h1 : (8 * g + j) / 8 = g := by omega
  have h2 : (8 * g + j) % 8 = j := by omega
  simp [slotInd, h1, h2, hgroup]

@[simp] theorem length_setTag (groups : List Group) (g bit : Nat) (tag : BitVec 8) :
    (setTag groups g bit tag).length = groups.length := List.length_modify _ _ _

@[simp] theorem length_setIndex (groups : List Group) (g bit ind : Nat) :
    (setIndex groups g bit ind).length = groups.length := List.length_modify _ _ _

/-- A write to place `bit` of group `g` is a write to slot `8 * g + bit`. -/
theorem overwritten_modify {α : Type} (read : Group → Nat → Option α) {write : Group → Group} {v : α}
    (hwrite : ∀ group j, read (write group) j = if j = bit then some v else read group j)
    (hg : g < groups.length) (hbit : bit < 8) :
    Overwritten (fun s => groups[s / 8]?.bind fun group => read group (s % 8))
      (fun s => (groups.modify g write)[s / 8]?.bind fun group => read group (s % 8)) (8 * g + bit)
      v := by
  intro s
  simp only [List.getElem?_modify]
  by_cases hgs : g = s / 8
  · subst hgs
    have hiff : s = 8 * (s / 8) + bit ↔ s % 8 = bit := by omega
    simp only [List.getElem?_eq_getElem hg, if_true, Option.map_eq_map, Option.map_some,
      Option.bind_some, hwrite, hiff]
  · have hne : ¬ s = 8 * g + bit := by omega
    rw [if_neg hne]
    cases groups[s / 8]? with
    | none => simp
    | some group => simp [hgs]

/-- A write that a read does not see. -/
theorem bind_modify {α : Type} (read : Group → Option α) {write : Group → Group}
    (hwrite : ∀ group, read (write group) = read group) (groups : List Group) (g n : Nat) :
    (groups.modify g write)[n]?.bind read = groups[n]?.bind read := by
  rw [List.getElem?_modify]
  cases groups[n]? with
  | none => simp
  | some group =>
    by_cases hgn : g = n
    · simp [hgn, hwrite]
    · simp [hgn]

theorem slotTag_setTag (hg : g < groups.length) (hbit : bit < 8) (tag : BitVec 8) :
    Overwritten (slotTag groups) (slotTag (setTag groups g bit tag)) (8 * g + bit) tag := by
  refine overwritten_modify (fun group j => group.tags[j]?) (fun group j => ?_) hg hbit
  rw [Vector.getElem?_setIfInBounds, if_congr eq_comm (if_pos hbit) rfl]

@[simp] theorem slotInd_setTag (groups : List Group) (g bit : Nat) (tag : BitVec 8) (s : Nat) :
    slotInd (setTag groups g bit tag) s = slotInd groups s := by
  refine bind_modify (fun group => group.indexes[s % 8]?.join) (fun group => ?_) groups g (s / 8)
  rfl

@[simp] theorem slotTag_setIndex (groups : List Group) (g bit ind : Nat) (s : Nat) :
    slotTag (setIndex groups g bit ind) s = slotTag groups s := by
  refine bind_modify (fun group => group.tags[s % 8]?) (fun group => ?_) groups g (s / 8)
  rfl

theorem slotInd_setIndex (hg : g < groups.length) (hbit : bit < 8) (ind : Nat) :
    Overwritten (slotInd groups) (slotInd (setIndex groups g bit ind)) (8 * g + bit) ind := by
  refine overwritten_modify (fun group j => group.indexes[j]?.join) (fun group j => ?_) hg hbit
  rw [Vector.getElem?_setIfInBounds, if_congr eq_comm (if_pos hbit) rfl]
  split
  · rfl
  · rfl

/-- `group_base[bit] = tag; group_indexes[bit] = ind` -/
theorem slotTag_write (hg : g < groups.length) (hbit : bit < 8) (tag : BitVec 8) (ind : Nat) :
    Overwritten (slotTag groups) (slotTag (setIndex (setTag groups g bit tag) g bit ind)) (8 * g + bit)
      tag := by
  intro s
  rw [slotTag_setIndex]
  exact slotTag_setTag hg hbit tag s

theorem slotInd_write (hg : g < groups.length) (hbit : bit < 8) (tag : BitVec 8) (ind : Nat) :
    Overwritten (slotInd groups) (slotInd (setIndex (setTag groups g bit tag) g bit ind)) (8 * g + bit)
      ind := by
  intro s
  rw [slotInd_setIndex (by simpa using hg) hbit, slotInd_setTag]

end Slots

/-! ## The invariant of the index -/

def GroupFull (groups : List Group) (g : Nat) : Prop :=
  ∀ j < 8, slotTag groups (8 * g + j) ≠ some EMPTY_H7

theorem GroupFull.overwritten {groups groups' : List Group} {a g : Nat} {tag : BitVec 8}
    (h : GroupFull groups g) (hwrite : Overwritten (slotTag groups) (slotTag groups') a tag)
    (htag : tag ≠ EMPTY_H7) : GroupFull groups' g :=
  fun j hj => hwrite.ne_some htag (h j hj)

structure SlotsOk (groups : List Group) (n bound : Nat) (es : List Entry) : Prop where
  length : groups.length = n
  valid : ∀ s t, slotTag groups s = some t → ValidTag t
  used : slotCount (8 * n) (fun s => slotTag groups s ≠ some EMPTY_H7) = bound
  dead : slotCount (8 * n) (fun s => slotTag groups s = some DELETED_H7) + es.length = bound
  stored : ∀ s t, slotTag groups s = some t → t ≠ EMPTY_H7 → ∃ i < bound, slotInd groups s = some i
  slot : ∀ s t, slotTag groups s = some t → t < 0x80#8 →
    ∃ e ∈ es, t = h7Val e.hash ∧ slotInd groups s = some e.pos
  inj : ∀ s s' t t', slotTag groups s = some t → slotTag groups s' = some t' → t < 0x80#8 →
    t' < 0x80#8 → slotInd groups s = slotInd groups s' → s = s'
  entry : ∀ e ∈ es, ∃ s, slotTag groups s = some (h7Val e.hash) ∧ slotInd groups s = some e.pos ∧
    OnPath (GroupFull groups) n (e.hash.toNat / 8) (s / 8)

theorem empty_not_lt : ¬ EMPTY_H7 < 0x80#8 := by decide
theorem deleted_not_lt : ¬ DELETED_H7 < 0x80#8 := by decide
theorem deleted_ne_empty : DELETED_H7 ≠ EMPTY_H7 := by decide

theorem ne_empty_of_lt {t : BitVec 8} (h : t < 0x80#8) : t ≠ EMPTY_H7 := by
  rintro rfl
  exact empty_not_lt h

theorem ne_deleted_of_lt {t : BitVec 8} (h : t < 0x80#8) : t ≠ DELETED_H7 := by
  rintro rfl
  exact deleted_not_lt h

/-- An index in which every slot is empty. -/
theorem SlotsOk.of_empty {groups : List Group} {n : Nat} (hlen : groups.length = n)
    (hempty : ∀ s t, slotTag groups s = some t → t = EMPTY_H7) : SlotsOk groups n 0 [] := by
  have hall : ∀ s < 8 * n, slotTag groups s = some EMPTY_H7 := by
    intro s hs
    obtain ⟨t, ht⟩ := slotTag_isSome groups (by rw [hlen]; exact hs)
    rw [ht, hempty s t ht]
  refine ⟨hlen, fun s t ht => Or.inr (Or.inr (hempty s t ht)), ?_, ?_, ?_, ?_, ?_, ?_⟩
  · exact slotCount_eq_zero fun s hs => by simp [hall s hs]
  · rw [slotCount_eq_zero fun s hs => by simp [hall s hs, EMPTY_H7, DELETED_H7]]
    rfl
  · intro s t ht hne
    exact absurd (hempty s t ht) hne
  · intro s t ht hlt
    rw [hempty s t ht] at hlt
    exact absurd hlt empty_not_lt
  · intro s s' t t' ht _ hlt
    rw [hempty s t ht] at hlt
    exact absurd hlt empty_not_lt
  · intro e he
    cases he

section Update

variable {groups : List Group} {n bound : Nat} {es : List Entry}

theorem SlotsOk.lt_of_tag (h : SlotsOk groups n bound es) {s : Nat} {t : BitVec 8}
    (ht : slotTag groups s = some t) : s < 8 * n := by
  rw [← h.length]
  exact slotTag_lt ht

/-- A new entry in an empty slot of the first group on its path that has one. -/
theorem SlotsOk.insert (h : SlotsOk groups n bound es) {g bit : Nat} {hash : BitVec 64}
    (hbit : bit < 8) (hempty : slotTag groups (8 * g + bit) = some EMPTY_H7)
    (hpath : OnPath (GroupFull groups) n (hash.toNat / 8) g) (hpos : ∀ e ∈ es, e.pos < bound) :
    SlotsOk (setIndex (setTag groups g bit (h7Val hash)) g bit bound) n (bound + 1)
      (es ++ [⟨bound, hash⟩]) := by
  have hlt := h.lt_of_tag hempty
  have hg : g < groups.length := by rw [h.length]; omega
  have htag := slotTag_write hg hbit (h7Val hash) bound
  have hind := slotInd_write hg hbit (h7Val hash) bound
  have hh7 := h7Val_lt hash
  have hfull : ∀ g', GroupFull groups g' → GroupFull _ g' :=
    fun g' hg' => hg'.overwritten htag (ne_empty_of_lt hh7)
  have hlen : (setIndex (setTag groups g bit (h7Val hash)) g bit bound).length = n := by
    simpa using h.length
  generalize setIndex (setTag groups g bit (h7Val hash)) g bit bound = groups'
    at htag hind hfull hlen ⊢
  refine ⟨hlen, htag.all (Or.inl hh7) h.valid, ?_, ?_, ?_, ?_, ?_, ?_⟩
  · rw [← h.used]
    exact htag.slotCount_succ hlt hempty (ne_empty_of_lt hh7)
  · rw [List.length_append, List.length_singleton, ← Nat.add_assoc, ← h.dead]
    congr 2
    refine slotCount_congr fun s _ => ?_
    by_cases hs : s = 8 * g + bit
    · subst hs
      rw [htag.at]
      simp [hempty, ne_deleted_of_lt hh7, deleted_ne_empty.symm]
    · rw [htag.of_ne hs]
  · intro s t ht hne
    rcases htag.cases ht with ⟨rfl, -⟩ | ⟨hs, ht⟩
    · exact ⟨bound, Nat.lt_succ_self _, hind.at⟩
    · obtain ⟨i, hi, hsi⟩ := h.stored s t ht hne
      exact ⟨i, Nat.lt_succ_of_lt hi, by rw [hind.of_ne hs, hsi]⟩
  · intro s t ht hlt'
    rcases htag.cases ht with ⟨rfl, rfl⟩ | ⟨hs, ht⟩
    · exact ⟨⟨bound, hash⟩, by simp, rfl, hind.at⟩
    · obtain ⟨e, he, hte, hse⟩ := h.slot s t ht hlt'
      exact ⟨e, List.mem_append_left _ he, hte, by rw [hind.of_ne hs, hse]⟩
  · intro s s' t t' ht ht' hlt1 hlt2 hss
    -- an old entry has a position below `bound`
    have hne : ∀ s t, slotTag groups s = some t → t < 0x80#8 → slotInd groups s ≠ some bound := by
      intro s t ht hlt' hs
      obtain ⟨e, he, -, hse⟩ := h.slot s t ht hlt'
      rw [hs, Option.some.injEq] at hse
      have := hpos e he
      omega
    rcases htag.cases ht with ⟨rfl, -⟩ | ⟨hs, ht⟩
    · rcases htag.cases ht' with ⟨rfl, -⟩ | ⟨hs', ht'⟩
      · rfl
      · rw [hind.at, hind.of_ne hs'] at hss
        exact absurd hss.symm (hne s' t' ht' hlt2)
    · rw [hind.of_ne hs] at hss
      rcases htag.cases ht' with ⟨rfl, -⟩ | ⟨hs', ht'⟩
      · rw [hind.at] at hss
        exact absurd hss (hne s t ht hlt1)
      · rw [hind.of_ne hs'] at hss
        exact h.inj s s' t t' ht ht' hlt1 hlt2 hss
  · intro e he
    rcases List.mem_append.mp he with he | he
    · obtain ⟨s, hst, hsi, hp⟩ := h.entry e he
      -- a slot that was not empty is not the one written
      have hs : s ≠ 8 * g + bit := by
        rintro rfl
        rw [hempty, Option.some.injEq] at hst
        exact ne_empty_of_lt (h7Val_lt e.hash) hst.symm
      exact ⟨s, by rw [htag.of_ne hs, hst], by rw [hind.of_ne hs, hsi], hp.mono hfull⟩
    · rw [List.mem_singleton] at he
      subst he
      refine ⟨8 * g + bit, htag.at, hind.at, ?_⟩
      have hdiv : (8 * g + bit) / 8 = g := by omega
      rw [hdiv]
      exact hpath.mono hfull

/-- The slot of an entry marked deleted. -/
theorem SlotsOk.delete (h : SlotsOk groups n bound es) (hnodup : (es.map Entry.pos).Nodup)
    {e : Entry} (he : e ∈ es) {g bit : Nat} (hbit : bit < 8)
    (htagE : slotTag groups (8 * g + bit) = some (h7Val e.hash))
    (hindE : slotInd groups (8 * g + bit) = some e.pos) :
    SlotsOk (setTag groups g bit DELETED_H7) n bound (es.filter (·.pos ≠ e.pos)) := by
  have hlt := h.lt_of_tag htagE
  have hg : g < groups.length := by rw [h.length]; omega
  have htag := slotTag_setTag hg hbit DELETED_H7
  have hh7 := h7Val_lt e.hash
  have hfull : ∀ g', GroupFull groups g' → GroupFull (setTag groups g bit DELETED_H7) g' :=
    fun g' hg' => hg'.overwritten htag deleted_ne_empty
  -- the remaining live slots are not the one marked
  have hlive : ∀ s t, slotTag (setTag groups g bit DELETED_H7) s = some t → t < 0x80#8 →
      s ≠ 8 * g + bit ∧ slotTag groups s = some t := by
    intro s t ht hlt'
    rcases htag.cases ht with ⟨-, rfl⟩ | hold
    · exact absurd hlt' deleted_not_lt
    · exact hold
  have hlen := length_filter_pos_ne hnodup he
  refine ⟨by simpa using h.length, htag.all (Or.inr (Or.inl rfl)) h.valid, ?_, ?_, ?_, ?_, ?_, ?_⟩
  · rw [← h.used]
    exact htag.slotCount_eq (by simpa [htagE] using ne_empty_of_lt hh7) deleted_ne_empty
  · have hcount : slotCount (8 * n) (fun s => slotTag (setTag groups g bit DELETED_H7) s
        = some DELETED_H7) = slotCount (8 * n) (fun s => slotTag groups s = some DELETED_H7) + 1 := by
      refine slotCount_insert hlt ?_ htag.at fun s _ hs => by rw [htag.of_ne hs]
      simpa [htagE] using ne_deleted_of_lt hh7
    have := h.dead
    omega
  · intro s t ht hne
    rw [slotInd_setTag]
    rcases htag.cases ht with ⟨rfl, -⟩ | ⟨-, ht⟩
    · exact h.stored _ _ htagE (ne_empty_of_lt hh7)
    · exact h.stored s t ht hne
  · intro s t ht hlt'
    obtain ⟨hs, ht'⟩ := hlive s t ht hlt'
    obtain ⟨f, hf, htf, hsf⟩ := h.slot s t ht' hlt'
    refine ⟨f, List.mem_filter.mpr ⟨hf, ?_⟩, htf, by rw [slotInd_setTag, hsf]⟩
    -- another slot leads to another position
    have hne : f.pos ≠ e.pos := by
      intro hpos
      exact hs (h.inj s _ t _ ht' htagE hlt' hh7 (by rw [hsf, hindE, hpos]))
    simpa using hne
  · intro s s' t t' ht ht' hlt1 hlt2 hss
    rw [slotInd_setTag, slotInd_setTag] at hss
    exact h.inj s s' t t' (hlive s t ht hlt1).2 (hlive s' t' ht' hlt2).2 hlt1 hlt2 hss
  · intro f hf
    obtain ⟨hf, hne⟩ := List.mem_filter.mp hf
    obtain ⟨s, hst, hsi, hp⟩ := h.entry f hf
    have hs : s ≠ 8 * g + bit := by
      rintro rfl
      rw [hindE, Option.some.injEq] at hsi
      simp [hsi] at hne
    exact ⟨s, by rw [htag.of_ne hs, hst], by rw [slotInd_setTag, hsi], hp.mono hfull⟩

end Update

/-! ## One pass of the probe loop -/

def slotHits (eq : El → El → Bool) (b : Hbin El (List Group)) (h7 : BitVec 8) (el : El)
    (s : Nat) : Bool :=
  slotTag b.groups s = some h7 && (slotInd b.groups s).any fun i => (b.elAt i).any (eq · el)

def probeGroupSpec (eq : El → El → Bool) (b : Hbin El (List Group)) (h7 : BitVec 8) (el : El)
    (g : Nat) : Step Nat Probe :=
  match (List.range 8).find? fun j => slotHits eq b h7 el (8 * g + j) with
  | some j => .leave (.hit g j ((slotInd b.groups (8 * g + j)).getD 0))
  | none =>
      match (List.range 8).find? fun j => slotTag b.groups (8 * g + j) = some EMPTY_H7 with
      | some j => .leave (.vacant g j)
      | none => .again ((g + 1) &&& b.groupsMask)

section Probe

variable {w : Widths} {key : Key El} {gops : GroupOps} {b : Hbin El (List Group)} {a : IdealBin El}

/-- A live slot leads to an initialised element of the hash its tag comes from. -/
theorem BinSim.slot_element (hsim : BinSim SlotsOk b a) (hok : IndexOk w key a) {s : Nat}
    {t : BitVec 8} (ht : slotTag b.groups s = some t) (hlt : t < 0x80#8) :
    ∃ e ∈ a.groups, ∃ x, t = h7Val e.hash ∧ slotInd b.groups s = some e.pos ∧
      b.elAt e.pos = some x ∧ key.hash x = e.hash := by
  obtain ⟨e, he, hte, hse⟩ := hsim.slots.slot s t ht hlt
  obtain ⟨_, x, hx, hxh⟩ := hok.entry e he
  rw [hsim.elAt] at hx
  exact ⟨e, he, x, hte, hse, hx, hxh⟩

/-- A pass of the probe loop on a lawful target: it stops at the first flagged slot that
    passes the test `q`, or else at the first empty slot.  Besides the slots tagged `h7`
    the target may flag slots with the tag `h7 ^ 1`. -/
theorem probeGroup_scan (hgops : gops.Lawful ValidTag EMPTY_H7) (eq : El → El → Bool)
    (hvalid : ∀ s t, slotTag b.groups s = some t → ValidTag t) {h7 : BitVec 8} (hh7 : h7 < 0x80#8)
    (el : El) {g : Nat} (hg : g < b.groups.length) :
    ∃ p : Nat → Bool,
      (∀ j < 8, slotTag b.groups (8 * g + j) = some h7 → p j = true) ∧
      (∀ j < 8, p j = true → slotTag b.groups (8 * g + j) = some h7 ∨
        slotTag b.groups (8 * g + j) = some (h7 ^^^ 1#8)) ∧
      ∀ (q : Nat → Bool) (pos : Nat → Nat),
        (∀ j < 8, p j = true → ∃ x, slotInd b.groups (8 * g + j) = some (pos j) ∧
          b.elAt (pos j) = some x ∧ eq x el = q j) →
        probeGroup gops eq b h7 el g = some (
          match ((List.range 8).filter p).find? q with
          | some j => .leave (.hit g j (pos j))
          | none =>
              match (List.range 8).find? fun j => slotTag b.groups (8 * g + j) = some EMPTY_H7 with
              | some j => .leave (.vacant g j)
              | none => .again ((g + 1) &&& b.groupsMask)) := by
  obtain ⟨group, hgroup⟩ : ∃ group, b.groups[g]? = some group := ⟨_, List.getElem?_eq_getElem hg⟩
  have htags : ∀ t ∈ group.tags, ValidTag t := by
    intro t ht
    obtain ⟨j, hj, hget⟩ := Vector.mem_iff_getElem.mp ht
    apply hvalid (8 * g + j) t
    rw [slotTag_of_group hgroup hj, Vector.getElem?_eq_getElem hj, hget]
  obtain ⟨p, hflag, hcomplete, hsound⟩ := hgops.matches_h7 group.tags h7 hh7
  have hempties : gops.firstFlagged (gops.matchEmpty (gops.groupLoad group.tags.toList)) =
      (List.range 8).find? fun j => slotTag b.groups (8 * g + j) = some EMPTY_H7 := by
    rw [hgops.firstFlagged_empty htags]
    apply List.find?_congr
    intro j hj
    rw [slotTag_of_group hgroup (List.mem_range.mp hj)]
  refine ⟨p, fun j hj ht => hcomplete j ?_, fun j hj hpj => ?_, fun q pos hq => ?_⟩
  · rw [← slotTag_of_group hgroup hj, ht]
  · rw [slotTag_of_group hgroup hj]
    exact hsound j hj hpj
  -- the walk over the flagged slots
  · have hbody : ∀ j ∈ (List.range 8).filter p,
        probeSlot eq b group el j = some (if q j then .leave (j, pos j) else .again ()) := by
      intro j hj
      obtain ⟨hj8, hpj⟩ := List.mem_filter.mp hj
      rw [List.mem_range] at hj8
      obtain ⟨x, hind, hx, hxq⟩ := hq j hj8 hpj
      rw [slotInd_of_group hgroup hj8] at hind
      simp [probeSlot, hind, hx, hxq]
    unfold probeGroup
    simp only [hgroup, Option.bind_some]
    rw [whileMask_eq, scan_map (fun _ j => probeSlot eq b group el j) gops.bit,
      show (setBits (gops.matchMask (gops.groupLoad group.tags.toList) h7)).map gops.bit
        = (List.range 8).filter p from hflag, scan_eq_find? hbody, hempties]
    cases ((List.range 8).filter p).find? q with
    | none => rfl
    | some j => rfl

/-- On every lawful target a pass of the probe loop is `probeGroupSpec`.  The slots
    a target may flag besides the matching ones hold a tag below `0x80`, so they
    lead to an initialised element, and its hash keeps it from being equal. -/
theorem probeGroup_eq (hgops : gops.Lawful ValidTag EMPTY_H7) (hkey : key.Lawful)
    (hsim : BinSim SlotsOk b a) (hok : IndexOk w key a) (el : El) {g : Nat}
    (hg : g < b.numGroups) :
    probeGroup gops key.eq b (h7Val (key.hash el)) el g =
      some (probeGroupSpec key.eq b (h7Val (key.hash el)) el g) := by
  have hglen : g < b.groups.length := by rw [hsim.slots.length]; exact hg
  have hh7 := h7Val_lt (key.hash el)
  generalize hh7def : h7Val (key.hash el) = h7 at hh7 ⊢
  obtain ⟨p, hcomplete, hsound, hscan⟩ :=
    probeGroup_scan hgops key.eq hsim.slots.valid hh7 el hglen
  have hfind : ((List.range 8).filter p).find? (fun j => slotHits key.eq b h7 el (8 * g + j)) =
      (List.range 8).find? fun j => slotHits key.eq b h7 el (8 * g + j) := by
    rw [List.find?_filter]
    apply List.find?_congr
    intro j hj
    rw [List.mem_range] at hj
    cases hhit : slotHits key.eq b h7 el (8 * g + j) with
    | false => simp
    | true =>
      simp only [slotHits, Bool.and_eq_true, decide_eq_true_eq] at hhit
      simp [hcomplete j hj hhit.1]
  rw [hscan (fun j => slotHits key.eq b h7 el (8 * g + j))
    (fun j => (slotInd b.groups (8 * g + j)).getD 0), hfind]
  · rfl
  · intro j hj8 hpj
    obtain ⟨t, ht, htlt, hcase⟩ : ∃ t, slotTag b.groups (8 * g + j) = some t ∧ t < 0x80#8 ∧
        (t = h7 ∨ t ≠ h7) := by
      rcases hsound j hj8 hpj with h | h
      · exact ⟨h7, h, hh7, Or.inl rfl⟩
      · exact ⟨h7 ^^^ 1#8, h, xor_one_lt hh7, Or.inr (xor_one_ne h7)⟩
    obtain ⟨e, -, x, hte, hse, hx, hxh⟩ := hsim.slot_element hok ht htlt
    refine ⟨x, by rw [hse, Option.getD_some], by rw [hse, Option.getD_some, hx], ?_⟩
    rcases hcase with rfl | hne
    · simp [slotHits, ht, hse, hx]
    · have hneq : key.eq x el = false := by
        by_contra heq
        have hhash := hkey.hash_eq x el (by simpa using heq)
        apply hne
        rw [hte, ← hxh, hhash, hh7def]
      simp [slotHits, ht, hne, hneq]

/-! ## The whole probe -/

theorem slotHits_cases (hsim : BinSim SlotsOk b a) (hok : IndexOk w key a) {el : El} {s : Nat}
    (h : slotHits key.eq b (h7Val (key.hash el)) el s = true) :
    ∃ f ∈ a.groups, ∃ y, slotTag b.groups s = some (h7Val (key.hash el)) ∧
      slotInd b.groups s = some f.pos ∧ a.elAt f.pos = some y ∧ key.eq y el = true := by
  simp only [slotHits, Bool.and_eq_true, decide_eq_true_eq] at h
  obtain ⟨htag, hany⟩ := h
  obtain ⟨f, hf, y, -, hsf, hy, -⟩ := hsim.slot_element hok htag (h7Val_lt _)
  refine ⟨f, hf, y, htag, hsf, by rw [hsim.elAt, hy], ?_⟩
  simpa [hsf, hy] using hany

/-- The slot of the entry that a lookup finds is the only one that hits. -/
theorem slotHits_iff (hkey : key.Lawful) (hsim : BinSim SlotsOk b a) (hok : IndexOk w key a)
    {el : El} {e : Entry} (hfind : idealLookup key.eq a el = some e) {s : Nat}
    (htag : slotTag b.groups s = some (h7Val e.hash)) (hind : slotInd b.groups s = some e.pos)
    (s' : Nat) : slotHits key.eq b (h7Val (key.hash el)) el s' = true ↔ s' = s := by
  have hhash := hok.lookup_hash hkey hfind
  constructor
  · intro h
    obtain ⟨f, hf, y, htag', hind', hy, heq⟩ := slotHits_cases hsim hok h
    have hfe := hok.lookup_unique hkey hfind hf hy heq
    subst hfe
    exact hsim.slots.inj s' s _ _ htag' htag (h7Val_lt _) (h7Val_lt _) (by rw [hind', hind])
  · rintro rfl
    obtain ⟨-, x, hx, hxe⟩ := idealLookup_some hfind
    rw [hsim.elAt] at hx
    simp [slotHits, htag, hind, hx, hxe, hhash]

/-- A pass over a full group in which nothing hits goes on to the next group. -/
theorem probeGroupSpec_again {h7 : BitVec 8} {el : El} {g : Nat}
    (hmiss : ∀ j < 8, slotHits key.eq b h7 el (8 * g + j) ≠ true)
    (hfull : GroupFull b.groups g) :
    probeGroupSpec key.eq b h7 el g = .again ((g + 1) &&& b.groupsMask) := by
  have h1 : (List.range 8).find? (fun j => slotHits key.eq b h7 el (8 * g + j)) = none :=
    List.find?_eq_none.mpr fun j hj => hmiss j (List.mem_range.mp hj)
  have h2 : (List.range 8).find? (fun j => slotTag b.groups (8 * g + j) = some EMPTY_H7) = none :=
    List.find?_eq_none.mpr fun j hj => by simpa using hfull j (List.mem_range.mp hj)
  simp only [probeGroupSpec, h1, h2]

/-- A probe goes from group to group up to the first one that ends it. -/
theorem probe_of_path (hgops : gops.Lawful ValidTag EMPTY_H7) (hkey : key.Lawful)
    (hsim : BinSim SlotsOk b a) (hok : IndexOk w key a) {el : El} {k : Nat} (hk : k < b.numGroups)
    {r : Probe}
    (hbefore : ∀ j < k, ∀ g, g = ((key.hash el).toNat / 8 + j) % b.numGroups →
      probeGroupSpec key.eq b (h7Val (key.hash el)) el g = .again ((g + 1) &&& b.groupsMask))
    (hstop : probeGroupSpec key.eq b (h7Val (key.hash el)) el
      (((key.hash el).toNat / 8 + k) % b.numGroups) = .leave r)
    {fuel : Nat} (hfuel : b.groupsMask < fuel) :
    probe w gops key.eq fuel b (key.hash el) el = some r := by
  obtain ⟨hhome, hnext⟩ := Hbin.walk hok.pow2 (key.hash el)
  rw [hsim.groupsMask, hsim.numGroups] at hhome
  rw [hsim.groupsMask, hsim.numGroups] at hnext
  have hn : 0 < b.numGroups := Nat.succ_pos _
  have hsize : b.numGroups = b.groupsMask + 1 := rfl
  rw [probe, hhome]
  refine forever_of_path (fun j => ((key.hash el).toNat / 8 + j) % b.numGroups) k ?_ ?_ (by omega)
  · intro j hj
    rw [probeGroup_eq hgops hkey hsim hok el (Nat.mod_lt _ hn), hbefore j hj _ rfl, hnext j]
  · rw [probeGroup_eq hgops hkey hsim hok el (Nat.mod_lt _ hn), hstop]

theorem probe_hit (hgops : gops.Lawful ValidTag EMPTY_H7) (hkey : key.Lawful)
    (hsim : BinSim SlotsOk b a) (hok : IndexOk w key a) {el : El} {e : Entry}
    (hfind : idealLookup key.eq a el = some e) {fuel : Nat} (hfuel : b.groupsMask < fuel) :
    ∃ g bit, bit < 8 ∧ slotTag b.groups (8 * g + bit) = some (h7Val e.hash) ∧
      slotInd b.groups (8 * g + bit) = some e.pos ∧
      probe w gops key.eq fuel b (key.hash el) el = some (.hit g bit e.pos) := by
  obtain ⟨s, htag, hind, k, hk, hg, hpath⟩ := hsim.slots.entry e (idealLookup_some hfind).1
  have hsplit : 8 * (s / 8) + s % 8 = s := Nat.div_add_mod s 8
  have hmod : s % 8 < 8 := Nat.mod_lt s (by decide)
  rw [hok.lookup_hash hkey hfind] at hg hpath
  have hhits := slotHits_iff hkey hsim hok hfind htag hind
  refine ⟨s / 8, s % 8, hmod, by rw [hsplit, htag], by rw [hsplit, hind], ?_⟩
  refine probe_of_path hgops hkey hsim hok hk ?_ ?_ hfuel
  · -- before the group of `s` nothing hits and no slot is empty
    rintro j hj g rfl
    apply probeGroupSpec_again _ (hpath j hj)
    intro i hi hhit
    have hs := (hhits _).mp hhit
    have hgs : s / 8 = ((key.hash el).toNat / 8 + j) % b.numGroups := by omega
    have := step_injective (Nat.lt_trans hj hk) hk (hgs.symm.trans hg)
    omega
  · rw [← hg]
    have hfirst : (List.range 8).find?
        (fun j => slotHits key.eq b (h7Val (key.hash el)) el (8 * (s / 8) + j)) = some (s % 8) := by
      have hpred : ∀ j ∈ List.range 8,
          slotHits key.eq b (h7Val (key.hash el)) el (8 * (s / 8) + j) = (j == s % 8) := by
        intro j hj
        rw [Bool.eq_iff_iff, hhits, beq_iff_eq]
        omega
      rw [List.find?_congr hpred]
      cases hf : (List.range 8).find? (· == s % 8) with
      | none => simpa using List.find?_eq_none.mp hf (s % 8) (List.mem_range.mpr hmod)
      | some j =>
        have hj : j = s % 8 := by simpa using List.find?_some hf
        rw [hj]
    simp only [probeGroupSpec, hfirst, hsplit, hind, Option.getD_some]

theorem probe_vacant (hgops : gops.Lawful ValidTag EMPTY_H7) (hkey : key.Lawful)
    (hsim : BinSim SlotsOk b a) (hok : IndexOk w key a) {el : El}
    (hfind : idealLookup key.eq a el = none) (hroom : b.elsBound < 8 * b.numGroups) {fuel : Nat}
    (hfuel : b.groupsMask < fuel) :
    ∃ g bit, bit < 8 ∧ slotTag b.groups (8 * g + bit) = some EMPTY_H7 ∧
      OnPath (GroupFull b.groups) b.numGroups ((key.hash el).toNat / 8) g ∧
      probe w gops key.eq fuel b (key.hash el) el = some (.vacant g bit) := by
  have hmiss : ∀ s, slotHits key.eq b (h7Val (key.hash el)) el s ≠ true := by
    intro s h
    obtain ⟨f, hf, y, -, -, hy, heq⟩ := slotHits_cases hsim hok h
    rw [idealLookup_none hfind hf hy] at heq
    cases heq
  -- fewer slots are used than there are, so some group is not full
  have hused := hsim.slots.used
  obtain ⟨s, hs, hempty⟩ := exists_not_of_slotCount_lt (hused ▸ hroom)
  rw [not_not] at hempty
  have hnotfull : ¬ GroupFull b.groups (s / 8) := by
    intro hfull
    apply hfull (s % 8) (Nat.mod_lt s (by decide))
    rw [Nat.div_add_mod, hempty]
  obtain ⟨k, hk, hstop, hbefore⟩ := exists_first (p := fun g => ¬ GroupFull b.groups g)
    ((key.hash el).toNat / 8) (show s / 8 < b.numGroups by omega) hnotfull
  have hpath : ∀ j < k, GroupFull b.groups (((key.hash el).toNat / 8 + j) % b.numGroups) :=
    fun j hj => not_not.mp (hbefore j hj)
  -- the first empty slot of that group
  cases hfirst : (List.range 8).find? fun j =>
      slotTag b.groups (8 * (((key.hash el).toNat / 8 + k) % b.numGroups) + j) = some EMPTY_H7 with
  | none =>
    refine absurd (fun j hj => ?_) hstop
    simpa using List.find?_eq_none.mp hfirst j (List.mem_range.mpr hj)
  | some bit =>
    have hbit : bit < 8 := List.mem_range.mp (List.mem_of_find?_eq_some hfirst)
    refine ⟨_, bit, hbit, by simpa using List.find?_some hfirst, ⟨k, hk, rfl, hpath⟩, ?_⟩
    refine probe_of_path hgops hkey hsim hok hk ?_ ?_ hfuel
    · rintro j hj g rfl
      exact probeGroupSpec_again (fun i _ => hmiss _) (hpath j hj)
    · have hnone : (List.range 8).find? (fun j => slotHits key.eq b (h7Val (key.hash el)) el
          (8 * (((key.hash el).toNat / 8 + k) % b.numGroups) + j)) = none :=
        List.find?_eq_none.mpr fun j _ => hmiss _
      simp only [probeGroupSpec, hnone, hfirst]

end Probe

/-! ## The index implements the ideal one -/

theorem probe_mono (w : Widths) (gops : GroupOps) (eq : El → El → Bool) (b : Hbin El (List Group))
    (hash : BitVec 64) (el : El) : Mono fun fuel => probe w gops eq fuel b hash el := by
  have h : ∀ g, Mono fun _ : Nat => probeGroup gops eq b (h7Val hash) el g :=
    fun g => Mono.const _
  exact Mono.forever h _

theorem groupDo1_mono (w : Widths) (gops : GroupOps) (eq : El → El → Bool) (elsNum : Nat)
    (b : Hbin El (List Group)) (hash : BitVec 64) (el : El) (action : Action) :
    Mono fun fuel => groupDo1 w gops eq fuel elsNum b hash el action :=
  Mono.bind (probe_mono w gops eq b hash el) fun _ => Mono.const _

theorem slotsOk_alloc (n : Nat) : SlotsOk (List.replicate n Group.fresh) n 0 [] := by
  refine SlotsOk.of_empty List.length_replicate fun s t ht => ?_
  have hs := slotTag_lt ht
  rw [List.length_replicate] at hs
  have hmod : s % 8 < 8 := Nat.mod_lt s (by decide)
  have hg : s / 8 < n := by omega
  rw [slotTag, List.getElem?_replicate, if_pos hg, Option.bind_some, Group.fresh,
    Vector.getElem?_eq_getElem hmod, Vector.getElem_replicate, Option.some.injEq] at ht
  exact ht.symm

/-- Groups that are fresh or cleared have empty slots only. -/
private theorem slotTag_of_clear {groups : List Group}
    (h : ∀ group ∈ groups, group.tags = Vector.replicate 8 EMPTY_H7) (s : Nat) (t : BitVec 8)
    (ht : slotTag groups s = some t) : t = EMPTY_H7 := by
  have hmod : s % 8 < 8 := Nat.mod_lt s (by decide)
  obtain ⟨group, hgroup, htag⟩ := Option.bind_eq_some_iff.mp ht
  rw [h group (List.mem_of_getElem? hgroup), Vector.getElem?_eq_getElem hmod,
    Vector.getElem_replicate, Option.some.injEq] at htag
  exact htag.symm

theorem groupOps_clear (w : Widths) (gops : GroupOps) (eq : El → El → Bool) {groups : List Group}
    {n : Nat} (hlen : groups.length = n) :
    ∃ groups', (groupOps w gops eq).clear n groups = some groups' ∧ SlotsOk groups' n 0 [] := by
  refine ⟨_, if_pos (Nat.le_of_eq hlen.symm), ?_⟩
  have hdrop : groups.drop n = [] := List.drop_eq_nil_of_le (Nat.le_of_eq hlen)
  refine SlotsOk.of_empty (by simp [hlen]) fun s t ht => ?_
  rw [hdrop, List.append_nil] at ht
  refine slotTag_of_clear (fun group hgroup => ?_) s t ht
  obtain ⟨group', -, rfl⟩ := List.mem_map.mp hgroup
  rfl

theorem slotsOk_regrow (n : Nat) (groups : List Group) :
    SlotsOk ((groups.take n).map Group.clear ++ List.replicate (n - groups.length) Group.fresh)
      n 0 [] := by
  refine SlotsOk.of_empty (by simp; omega) fun s t ht => ?_
  refine slotTag_of_clear (fun group hgroup => ?_) s t ht
  rcases List.mem_append.mp hgroup with hgroup | hgroup
  · obtain ⟨group', -, rfl⟩ := List.mem_map.mp hgroup
    rfl
  · rw [(List.mem_replicate.mp hgroup).2]
    rfl

theorem groupOps_lawful {w : Widths} (hw : 2 ^ w.ind + 1 < 2 ^ w.size) {key : Key El} (hkey : key.Lawful)
    {gops : GroupOps} (hgops : gops.Lawful ValidTag EMPTY_H7) :
    (groupOps w gops key.eq).Lawful w key (2 ^ w.ind) SlotsOk where
  alloc := slotsOk_alloc
  clear h := groupOps_clear w gops key.eq h.length
  regrow := slotsOk_regrow
  mono := groupDo1_mono w gops key.eq
  do1 := by
    intro b a hsim hok hlimit hroom el action fuel hfuel elsNum
    show Option.Rel _ (groupDo1 w gops key.eq fuel elsNum b (key.hash el) el action) _
    have hslots := hsim.slots
    unfold groupDo1 idealDo1
    cases hfind : idealLookup key.eq a el with
    | some e =>
      obtain ⟨g, bit, hbit, htag, hind, hprobe⟩ := probe_hit hgops hkey hsim hok hfind hfuel
      have he := (idealLookup_some hfind).1
      rw [hprobe]
      simp only [Option.bind_some]
      by_cases haction : action = .delete
      · rw [if_pos haction, if_pos haction, ← hsim.deleted, hok.mark?_eq he]
        refine Option.Rel.some ⟨rfl, rfl, rfl, ?_, ?_⟩
        · simp only [Hbin.withGroups, hsim.elsBound, hsim.els, hsim.groupsMask]
        · exact fun _ => hslots.delete hok.nodup he hbit htag hind
      · rw [if_neg haction, if_neg haction]
        exact Option.Rel.some ⟨rfl, rfl, rfl, hsim.same, fun _ => hslots⟩
    | none =>
      obtain ⟨g, bit, hbit, hempty, hpath, hprobe⟩ :=
        probe_vacant hgops hkey hsim hok hfind hroom hfuel
      rw [hprobe]
      simp only [Option.bind_some]
      by_cases haction : action = .insert
      · have hincr : w.incr b.elsBound = b.elsBound + 1 := Widths.incr_eq (by omega)
        rw [if_pos haction, if_pos haction, hincr, hsim.elsBound]
        refine Option.Rel.some ⟨rfl, rfl, rfl, ?_, fun hbound => ?_⟩
        · simp only [Hbin.withGroups, hsim.els, hsim.deleted, hsim.groupsMask]
        · have hlt : b.elsBound < 2 ^ w.ind := hbound
          simp only [Nat.mod_eq_of_lt hlt]
          refine hslots.insert hbit hempty hpath fun e he => ?_
          rw [← hsim.elsBound]
          exact (hok.entry e he).1
      · rw [if_neg haction, if_neg haction]
        exact Option.Rel.some ⟨rfl, rfl, rfl, hsim.same, fun _ => hslots⟩

end IndexedHash
