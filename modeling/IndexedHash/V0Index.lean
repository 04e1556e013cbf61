import Mathlib.Data.List.Nodup
import Mathlib.Data.List.Find
import Mathlib.Tactic.Common
import IndexedHash.Groups
import IndexedHash.IdealIndex

/-!
# Separate tag and index arrays

The index of `ihtab-v0.h` and `ixhtab-v0.h`: one array of tags, one of stored
indices, and `iht_do_1` / `ixht_do_1` over them.  There is no deleted tag.  A
deleted slot keeps its tag and stores the sentinel `INDEX_DELETED`, the probe loop
remembers the first such slot it meets, and INSERT writes there.

So the slots are laid out differently from the interleaved groups after the first
deletion.  What the two have in common is the ideal index, which `v0Ops_lawful`
shows this one to implement too, up to one position less: position
`INDEX_DELETED` cannot be stored.
-/

namespace IndexedHash

open Loop ByteWord Probing

variable {El : Type}

/-! ## The code -/

structure V0Index where
  h7 : List (BitVec 8)
  indexes : List (Option Nat)

/-- `INDEX_DELETED`, all ones in the width of a stored index -/
def indexDeleted (w : Widths) : Nat := 2 ^ w.ind - 1

namespace V0Index

/-- The eight bytes that `group_load (h7 + group_ind * GROUP_SIZE)` reads. -/
def tagsAt (idx : V0Index) (g : Nat) : Option Tags :=
  if h : GROUP_SIZE * g + 8 ≤ idx.h7.length then
    some (Vector.ofFn fun j : Fin 8 => idx.h7.get ⟨GROUP_SIZE * g + j, by omega⟩)
  else none

/-- `h7[slot]` -/
def tag (idx : V0Index) (slot : Nat) : Option (BitVec 8) := idx.h7[slot]?

/-- `indexes[slot]` -/
def ind (idx : V0Index) (slot : Nat) : Option Nat := idx.indexes[slot]?.join

/-- `h7[slot] = tag` -/
def setTag (idx : V0Index) (slot : Nat) (tag : BitVec 8) : V0Index :=
  { idx with h7 := idx.h7.set slot tag }

/-- `indexes[slot] = i` -/
def setInd (idx : V0Index) (slot i : Nat) : V0Index :=
  { idx with indexes := idx.indexes.set slot (some i) }

end V0Index

/-- How the probe loop ends: at a slot that leads to an equal element, or in a
    group with an empty slot, with `first_deleted_slot` (`none` for `~0`). -/
inductive V0Probe where
  | hit (slot elInd : Nat)
  | vacant (firstDeletedSlot : Option Nat) (slot : Nat)
deriving DecidableEq, Repr

/-- One pass of `while (mmask)`. -/
def v0ProbeSlot (w : Widths) (eq : El → El → Bool) (b : Hbin El V0Index) (el : El) (g : Nat)
    (firstDeletedSlot : Option Nat) (bit : Nat) : Option (Step (Option Nat) V0Probe) :=
  let slot := GROUP_SIZE * g + bit
  (b.groups.ind slot).bind fun elInd =>
    if elInd = indexDeleted w then some (.again (firstDeletedSlot.or (some slot)))
    else (b.elAt elInd).map fun x =>
      if eq x el then .leave (.hit slot elInd) else .again firstDeletedSlot

/-- One pass of `for (;;)`, on the group and `first_deleted_slot`. -/
def v0ProbeGroup (w : Widths) (gops : GroupOps) (eq : El → El → Bool) (b : Hbin El V0Index)
    (h7 : BitVec 8) (el : El) (s : Nat × Option Nat) : Option (Step (Nat × Option Nat) V0Probe) :=
  (b.groups.tagsAt s.1).bind fun tags =>
    let word := gops.groupLoad tags.toList
    (whileMask (fun first i => v0ProbeSlot w eq b el s.1 first (gops.bit i)) 64 s.2
      (gops.matchMask word h7)).map fun
      | .leave r => .leave r
      | .again first =>
          match gops.firstFlagged (gops.matchEmpty word) with
          | some bit => .leave (.vacant first (GROUP_SIZE * s.1 + bit))
          | none => .again ((s.1 + 1) &&& b.groupsMask, first)

/-- The probe loop of `do_1`, up to its `return`. -/
def v0Probe (w : Widths) (gops : GroupOps) (eq : El → El → Bool) (fuel : Nat)
    (b : Hbin El V0Index) (hash : BitVec 64) (el : El) : Option V0Probe :=
  forever (v0ProbeGroup w gops eq b (h7Val hash) el) fuel
    (homeGroup w hash b.groupsMask, none)

/-- `iht_do_1`, `ixht_do_1` of the `v0` headers -/
def v0Do1 (w : Widths) (gops : GroupOps) (eq : El → El → Bool) (fuel elsNum : Nat)
    (b : Hbin El V0Index) (hash : BitVec 64) (el : El) (action : Action) :
    Option (Outcome El V0Index) :=
  (v0Probe w gops eq fuel b hash el).bind fun
    | .hit slot elInd =>
        if action = .delete then
          (b.deleted.mark? elInd).map fun deleted =>
            { found := true, res := none, elsNum := w.decr elsNum,
              bin := { b with deleted := deleted,
                              groups := b.groups.setInd slot (indexDeleted w) } }
        else some { found := true, res := some elInd, elsNum := elsNum, bin := b }
    | .vacant firstDeletedSlot emptySlot =>
        if action = .insert then
          let slot := firstDeletedSlot.getD emptySlot
          some { found := false, res := some b.elsBound, elsNum := w.incr elsNum,
                 bin := { b with
                   groups := (b.groups.setTag slot (h7Val hash)).setInd slot
                     (b.elsBound % 2 ^ w.ind),
                   elsBound := w.incr b.elsBound } }
        else some { found := false, res := none, elsNum := elsNum, bin := b }

/-- The index of the `v0` headers.  `memset` covers the tags only, so stored indices
    survive a reset. -/
def v0Ops (w : Widths) (gops : GroupOps) (eq : El → El → Bool) : BinOps El V0Index where
  alloc n := ⟨List.replicate (GROUP_SIZE * n) V0_EMPTY_H7, List.replicate (GROUP_SIZE * n) none⟩
  clear n idx :=
    if GROUP_SIZE * n ≤ idx.h7.length then
      some { idx with
        h7 := List.replicate (GROUP_SIZE * n) V0_EMPTY_H7 ++ idx.h7.drop (GROUP_SIZE * n) }
    else none
  regrow n idx :=
    ⟨List.replicate (GROUP_SIZE * n) V0_EMPTY_H7,
      idx.indexes.take (GROUP_SIZE * n) ++
        List.replicate (GROUP_SIZE * n - idx.indexes.length) none⟩
  do1 := v0Do1 w gops eq

/-! ## Slots -/

section Slots

variable {idx : V0Index} {slot s : Nat}

theorem V0Index.tag_lt {t : BitVec 8} (h : idx.tag s = some t) : s < idx.h7.length :=
  (List.getElem?_eq_some_iff.mp h).1

theorem V0Index.tag_setTag (hs : slot < idx.h7.length) (t : BitVec 8) :
    Overwritten idx.tag (idx.setTag slot t).tag slot t := by
  intro s
  unfold setTag tag
  by_cases h : s = slot
  · subst h
    simp [hs]
  · rw [if_neg h, List.getElem?_set_ne (Ne.symm h)]

theorem V0Index.ind_setInd (hs : slot < idx.indexes.length) (i : Nat) :
    Overwritten idx.ind (idx.setInd slot i).ind slot i := by
  intro s
  unfold setInd ind
  by_cases h : s = slot
  · subst h
    simp [hs]
  · simp only [if_neg h, List.getElem?_set_ne (Ne.symm h)]

@[simp] theorem V0Index.tag_setInd (idx : V0Index) (slot i s : Nat) :
    (idx.setInd slot i).tag s = idx.tag s := rfl

@[simp] theorem V0Index.ind_setTag (idx : V0Index) (slot : Nat) (t : BitVec 8) (s : Nat) :
    (idx.setTag slot t).ind s = idx.ind s := rfl

theorem V0Index.tagsAt_eq {n g : Nat} (hlen : idx.h7.length = 8 * n) (hg : g < n) :
    ∃ tags, idx.tagsAt g = some tags ∧ ∀ j < 8, tags[j]? = idx.tag (8 * g + j) := by
  have hle : GROUP_SIZE * g + 8 ≤ idx.h7.length := by
    rw [hlen, GROUP_SIZE]
    omega
  refine ⟨_, dif_pos hle, fun j hj => ?_⟩
  rw [Vector.getElem?_eq_getElem hj, Vector.getElem_ofFn, tag]
  exact (List.getElem?_eq_getElem _).symm

end Slots

/-! ## The invariant of the index -/

def V0GroupFull (idx : V0Index) (g : Nat) : Prop :=
  ∀ j < 8, idx.tag (8 * g + j) ≠ some V0_EMPTY_H7

/-- Unlike in the interleaved groups, used slots can be fewer than used positions,
    because a deleted slot is used again. -/
structure V0SlotsOk (sentinel : Nat) (idx : V0Index) (n bound : Nat) (es : List Entry) : Prop where
  length_h7 : idx.h7.length = 8 * n
  length_indexes : idx.indexes.length = 8 * n
  valid : ∀ s t, idx.tag s = some t → V0ValidTag t
  used : slotCount (8 * n) (fun s => idx.tag s ≠ some V0_EMPTY_H7) ≤ bound
  small : ∀ e ∈ es, e.pos < sentinel
  slot : ∀ s t, idx.tag s = some t → t ≠ V0_EMPTY_H7 →
    idx.ind s = some sentinel ∨ ∃ e ∈ es, t = h7Val e.hash ∧ idx.ind s = some e.pos
  inj : ∀ s s' t t' p, idx.tag s = some t → idx.tag s' = some t' → t ≠ V0_EMPTY_H7 →
    t' ≠ V0_EMPTY_H7 → idx.ind s = some p → idx.ind s' = some p → p ≠ sentinel → s = s'
  entry : ∀ e ∈ es, ∃ s, idx.tag s = some (h7Val e.hash) ∧ idx.ind s = some e.pos ∧
    OnPath (V0GroupFull idx) n (e.hash.toNat / 8) (s / 8)

def V0Free (sentinel : Nat) (idx : V0Index) (s : Nat) : Prop :=
  idx.tag s = some V0_EMPTY_H7 ∨
    (∃ t, idx.tag s = some t ∧ t ≠ V0_EMPTY_H7) ∧ idx.ind s = some sentinel

theorem v0_ne_empty_of_lt {t : BitVec 8} (h : t < 0x80#8) : t ≠ V0_EMPTY_H7 := by
  rintro rfl
  exact absurd h (by decide)

theorem V0SlotsOk.of_empty {sentinel : Nat} {idx : V0Index} {n : Nat}
    (hh7 : idx.h7 = List.replicate (8 * n) V0_EMPTY_H7) (hlen : idx.indexes.length = 8 * n) :
    V0SlotsOk sentinel idx n 0 [] := by
  have hempty : ∀ s t, idx.tag s = some t → t = V0_EMPTY_H7 := by
    intro s t ht
    rw [V0Index.tag, hh7] at ht
    exact List.eq_of_mem_replicate (List.mem_of_getElem? ht)
  have hall : ∀ s < 8 * n, idx.tag s = some V0_EMPTY_H7 := by
    intro s hs
    rw [V0Index.tag, hh7, List.getElem?_replicate, if_pos hs]
  refine ⟨by rw [hh7, List.length_replicate], hlen, fun s t ht => Or.inr (hempty s t ht), ?_, ?_, ?_,
    ?_, ?_⟩
  · exact Nat.le_of_eq (slotCount_eq_zero fun s hs => by simp [hall s hs])
  · intro e he
    cases he
  · intro s t ht hne
    exact absurd (hempty s t ht) hne
  · intro s s' t t' p ht _ hne
    exact absurd (hempty s t ht) hne
  · intro e he
    cases he

section Update

variable {sentinel : Nat} {idx : V0Index} {n bound : Nat} {es : List Entry}

theorem V0SlotsOk.lt_of_tag (h : V0SlotsOk sentinel idx n bound es) {s : Nat} {t : BitVec 8}
    (ht : idx.tag s = some t) : s < 8 * n := by
  rw [← h.length_h7]
  exact V0Index.tag_lt ht

/-- A free slot is in range, and no entry is there. -/
theorem V0SlotsOk.free_slot (h : V0SlotsOk sentinel idx n bound es) {slot : Nat}
    (hfree : V0Free sentinel idx slot) :
    slot < 8 * n ∧ ∀ s t p, idx.tag s = some t → t ≠ V0_EMPTY_H7 → idx.ind s = some p →
      p ≠ sentinel → s ≠ slot := by
  rcases hfree with hempty | ⟨⟨t', ht', hne'⟩, hdel⟩
  · refine ⟨h.lt_of_tag hempty, ?_⟩
    rintro s t p ht hne - - rfl
    rw [hempty, Option.some.injEq] at ht
    exact hne ht.symm
  · refine ⟨h.lt_of_tag ht', ?_⟩
    rintro s t p - - hp hps rfl
    rw [hdel, Option.some.injEq] at hp
    exact hps hp.symm

/-- A new entry in a free slot on its path. -/
theorem V0SlotsOk.insert (h : V0SlotsOk sentinel idx n bound es) {slot : Nat} {hash : BitVec 64}
    (hfree : V0Free sentinel idx slot)
    (hpath : OnPath (V0GroupFull idx) n (hash.toNat / 8) (slot / 8)) (hbound : bound < sentinel)
    (hpos : ∀ e ∈ es, e.pos < bound) :
    V0SlotsOk sentinel ((idx.setTag slot (h7Val hash)).setInd slot bound) n (bound + 1)
      (es ++ [⟨bound, hash⟩]) := by
  obtain ⟨hlt, hold⟩ := h.free_slot hfree
  have htag : Overwritten idx.tag ((idx.setTag slot (h7Val hash)).setInd slot bound).tag slot
      (h7Val hash) := V0Index.tag_setTag (by rw [h.length_h7]; exact hlt) _
  have hind : Overwritten idx.ind ((idx.setTag slot (h7Val hash)).setInd slot bound).ind slot bound :=
    V0Index.ind_setInd (by rw [← h.length_indexes] at hlt; exact hlt) _
  have hh7 := v0_ne_empty_of_lt (h7Val_lt hash)
  have hfull : ∀ g, V0GroupFull idx g →
      V0GroupFull ((idx.setTag slot (h7Val hash)).setInd slot bound) g :=
    fun g hg j hj => htag.ne_some hh7 (hg j hj)
  have hlen : ((idx.setTag slot (h7Val hash)).setInd slot bound).h7.length = 8 * n ∧
      ((idx.setTag slot (h7Val hash)).setInd slot bound).indexes.length = 8 * n := by
    simp [V0Index.setTag, V0Index.setInd, h.length_h7, h.length_indexes]
  generalize (idx.setTag slot (h7Val hash)).setInd slot bound = idx' at htag hind hfull hlen ⊢
  refine ⟨hlen.1, hlen.2, htag.all (Or.inl (h7Val_lt hash)) h.valid, ?_, ?_, ?_, ?_, ?_⟩
  · have hused := h.used
    rcases hfree with hempty | ⟨⟨t, ht, hne⟩, -⟩
    · -- an empty slot comes into use
      have hcount := htag.slotCount_succ hlt hempty hh7
      omega
    · -- a deleted slot is used again
      have hcount : slotCount (8 * n) (fun s => idx'.tag s ≠ some V0_EMPTY_H7) =
          slotCount (8 * n) (fun s => idx.tag s ≠ some V0_EMPTY_H7) :=
        htag.slotCount_eq (by simpa [ht] using hne) hh7
      omega
  · intro e he
    rcases List.mem_append.mp he with he | he
    · exact h.small e he
    · rw [List.mem_singleton] at he
      subst he
      exact hbound
  · intro s t ht hne
    rcases htag.cases ht with ⟨rfl, rfl⟩ | ⟨hs, ht⟩
    · exact Or.inr ⟨⟨bound, hash⟩, by simp, rfl, hind.at⟩
    · rw [hind.of_ne hs]
      rcases h.slot s t ht hne with hdel | ⟨e, he, hte, hse⟩
      · exact Or.inl hdel
      · exact Or.inr ⟨e, List.mem_append_left _ he, hte, hse⟩
  · intro s s' t t' p ht ht' hne hne' hp hp' hps
    -- an old live slot stores a position below `bound`
    have hlt' : ∀ s t, idx.tag s = some t → t ≠ V0_EMPTY_H7 → idx.ind s = some p → p < bound := by
      intro s t ht hne hp
      rcases h.slot s t ht hne with hdel | ⟨e, he, -, hse⟩
      · rw [hp, Option.some.injEq] at hdel
        exact absurd hdel hps
      · rw [hp, Option.some.injEq] at hse
        exact hse ▸ hpos e he
    rcases htag.cases ht with ⟨rfl, -⟩ | ⟨hs, ht⟩
    · rcases htag.cases ht' with ⟨rfl, -⟩ | ⟨hs', ht'⟩
      · rfl
      · rw [hind.at, Option.some.injEq] at hp
        rw [hind.of_ne hs'] at hp'
        have := hlt' s' t' ht' hne' hp'
        omega
    · rw [hind.of_ne hs] at hp
      rcases htag.cases ht' with ⟨rfl, -⟩ | ⟨hs', ht'⟩
      · rw [hind.at, Option.some.injEq] at hp'
        have := hlt' s t ht hne hp
        omega
      · rw [hind.of_ne hs'] at hp'
        exact h.inj s s' t t' p ht ht' hne hne' hp hp' hps
  · intro e he
    rcases List.mem_append.mp he with he | he
    · obtain ⟨s, hst, hsi, hp⟩ := h.entry e he
      have hs := hold s _ _ hst (v0_ne_empty_of_lt (h7Val_lt e.hash)) hsi
        (Nat.ne_of_lt (h.small e he))
      exact ⟨s, by rw [htag.of_ne hs, hst], by rw [hind.of_ne hs, hsi], hp.mono hfull⟩
    · rw [List.mem_singleton] at he
      subst he
      exact ⟨slot, htag.at, hind.at, hpath.mono hfull⟩

/-- The slot of an entry marked deleted; the tags stay. -/
theorem V0SlotsOk.delete (h : V0SlotsOk sentinel idx n bound es) {e : Entry} (he : e ∈ es)
    {slot : Nat} (htagE : idx.tag slot = some (h7Val e.hash)) (hindE : idx.ind slot = some e.pos) :
    V0SlotsOk sentinel (idx.setInd slot sentinel) n bound (es.filter (·.pos ≠ e.pos)) := by
  have hlt := h.lt_of_tag htagE
  have hind : Overwritten idx.ind (idx.setInd slot sentinel).ind slot sentinel :=
    V0Index.ind_setInd (by rw [h.length_indexes]; exact hlt) sentinel
  have hneE := v0_ne_empty_of_lt (h7Val_lt e.hash)
  have hsE : e.pos ≠ sentinel := Nat.ne_of_lt (h.small e he)
  refine ⟨h.length_h7, by simp [V0Index.setInd, h.length_indexes], h.valid, h.used,
    fun f hf => h.small f (List.mem_of_mem_filter hf), ?_, ?_, ?_⟩
  · intro s t ht hne
    rw [V0Index.tag_setInd] at ht
    by_cases hs : s = slot
    · rw [hs]
      exact Or.inl hind.at
    · rw [hind.of_ne hs]
      rcases h.slot s t ht hne with hdel | ⟨f, hf, htf, hsf⟩
      · exact Or.inl hdel
      · refine Or.inr ⟨f, List.mem_filter.mpr ⟨hf, ?_⟩, htf, hsf⟩
        have hpos : f.pos ≠ e.pos := by
          intro hpos
          rw [hpos] at hsf
          exact hs (h.inj s slot t _ e.pos ht htagE hne hneE hsf hindE hsE)
        simpa using hpos
  · intro s s' t t' p ht ht' hne hne' hp hp' hps
    rw [V0Index.tag_setInd] at ht ht'
    rcases hind.cases hp with ⟨-, heq⟩ | ⟨-, hp⟩
    · exact absurd heq hps
    · rcases hind.cases hp' with ⟨-, heq⟩ | ⟨-, hp'⟩
      · exact absurd heq hps
      · exact h.inj s s' t t' p ht ht' hne hne' hp hp' hps
  · intro f hf
    obtain ⟨hf, hne⟩ := List.mem_filter.mp hf
    obtain ⟨s, hst, hsi, hp⟩ := h.entry f hf
    have hs : s ≠ slot := by
      rintro rfl
      rw [hindE, Option.some.injEq] at hsi
      simp [hsi] at hne
    exact ⟨s, hst, by rw [hind.of_ne hs, hsi], hp⟩

end Update

/-! ## One pass of the probe loop -/

section Probe

variable {w : Widths} {key : Key El} {gops : GroupOps} {b : Hbin El V0Index} {a : IdealBin El}

/-- A tagged slot is deleted, and then remembered if it is the first, or it leads to
    an initialised element, which is compared. -/
theorem v0ProbeSlot_cases (hsim : BinSim (V0SlotsOk (indexDeleted w)) b a)
    (hok : IndexOk w key a) (el : El) {g j : Nat} {t : BitVec 8}
    (ht : b.groups.tag (8 * g + j) = some t) (hlt : t < 0x80#8) :
    (b.groups.ind (8 * g + j) = some (indexDeleted w) ∧ ∀ first,
      v0ProbeSlot w key.eq b el g first j = some (.again (first.or (some (8 * g + j))))) ∨
    ∃ e ∈ a.groups, ∃ x, t = h7Val e.hash ∧ b.groups.ind (8 * g + j) = some e.pos ∧
      a.elAt e.pos = some x ∧ key.hash x = e.hash ∧ ∀ first,
      v0ProbeSlot w key.eq b el g first j =
        some (if key.eq x el then .leave (.hit (8 * g + j) e.pos) else .again first) := by
  rcases hsim.slots.slot _ t ht (v0_ne_empty_of_lt hlt) with hdel | ⟨e, he, hte, hse⟩
  · exact Or.inl ⟨hdel, fun first => by simp [v0ProbeSlot, GROUP_SIZE, hdel]⟩
  · obtain ⟨_, x, hx, hxh⟩ := hok.entry e he
    have hne : e.pos ≠ indexDeleted w := Nat.ne_of_lt (hsim.slots.small e he)
    have hx' : b.elAt e.pos = some x := by rw [← hsim.elAt, hx]
    exact Or.inr ⟨e, he, x, hte, hse, hx, hxh,
      fun first => by simp [v0ProbeSlot, GROUP_SIZE, hse, hne, hx']⟩

/-- The flagged slots of a group, and its first empty one. -/
theorem v0_flags (hgops : gops.Lawful V0ValidTag V0_EMPTY_H7)
    (hsim : BinSim (V0SlotsOk (indexDeleted w)) b a) {g : Nat} (hg : g < b.numGroups)
    {h7 : BitVec 8} (hh7 : h7 < 0x80#8) :
    ∃ tags, b.groups.tagsAt g = some tags ∧
      gops.firstFlagged (gops.matchEmpty (gops.groupLoad tags.toList)) =
        ((List.range 8).find? fun j => b.groups.tag (8 * g + j) = some V0_EMPTY_H7) ∧
      ∃ flags, (setBits (gops.matchMask (gops.groupLoad tags.toList) h7)).map gops.bit = flags ∧
        (∀ j < 8, b.groups.tag (8 * g + j) = some h7 → j ∈ flags) ∧
        ∀ j ∈ flags, j < 8 ∧ ∃ t < 0x80#8, b.groups.tag (8 * g + j) = some t := by
  obtain ⟨tags, htags, htag⟩ := V0Index.tagsAt_eq hsim.slots.length_h7 hg
  have hvalid : ∀ t ∈ tags, V0ValidTag t := by
    intro t ht
    obtain ⟨j, hj, hget⟩ := Vector.mem_iff_getElem.mp ht
    apply hsim.slots.valid (8 * g + j) t
    rw [← htag j hj, Vector.getElem?_eq_getElem hj, hget]
  obtain ⟨p, hflag, hcomplete, hsound⟩ := hgops.matches_h7 tags h7 hh7
  refine ⟨tags, htags, ?_, (List.range 8).filter p, hflag, ?_, ?_⟩
  · rw [hgops.firstFlagged_empty hvalid]
    apply List.find?_congr
    intro j hj
    rw [htag j (List.mem_range.mp hj)]
  · intro j hj ht
    exact List.mem_filter.mpr ⟨List.mem_range.mpr hj, hcomplete j (by rw [htag j hj, ht])⟩
  · intro j hj
    obtain ⟨hj8, hpj⟩ := List.mem_filter.mp hj
    rw [List.mem_range] at hj8
    refine ⟨hj8, ?_⟩
    rcases hsound j hj8 hpj with h | h
    · exact ⟨h7, hh7, by rw [← htag j hj8, h]⟩
    · exact ⟨h7 ^^^ 1#8, xor_one_lt hh7, by rw [← htag j hj8, h]⟩

/-- A pass over a group without the element keeps the remembered slot or takes a
    deleted slot of this group, and leaves if the group has an empty slot. -/
theorem v0ProbeGroup_miss (hgops : gops.Lawful V0ValidTag V0_EMPTY_H7)
    (hsim : BinSim (V0SlotsOk (indexDeleted w)) b a) (hok : IndexOk w key a) (el : El) {g : Nat}
    (hg : g < b.numGroups) (first : Option Nat)
    (hmiss : ∀ j < 8, ∀ e ∈ a.groups, ∀ x, b.groups.tag (8 * g + j) = some (h7Val e.hash) →
      b.groups.ind (8 * g + j) = some e.pos → a.elAt e.pos = some x → key.eq x el = false) :
    ∃ first', (first' = first ∨
        ∃ j < 8, first' = some (8 * g + j) ∧ V0Free (indexDeleted w) b.groups (8 * g + j)) ∧
      v0ProbeGroup w gops key.eq b (h7Val (key.hash el)) el (g, first) =
        some (match (List.range 8).find? fun j => b.groups.tag (8 * g + j) = some V0_EMPTY_H7 with
          | some j => .leave (.vacant first' (8 * g + j))
          | none => .again ((g + 1) &&& b.groupsMask, first')) := by
  obtain ⟨tags, htags, hempty, flags, hflags, -, htagged⟩ :=
    v0_flags hgops hsim hg (h7Val_lt (key.hash el))
  have hscan := scan_again (fun first j => v0ProbeSlot w key.eq b el g first j)
    (fun first' => first' = first ∨
      ∃ j < 8, first' = some (8 * g + j) ∧ V0Free (indexDeleted w) b.groups (8 * g + j))
    flags (s := first) (by
      intro j hj first' hI
      obtain ⟨hj8, t, hlt, ht⟩ := htagged j hj
      rcases v0ProbeSlot_cases hsim hok el ht hlt with ⟨hdel, hbody⟩ | ⟨e, he, x, hte, hse, hx, -, hbody⟩
      · refine ⟨_, hbody first', ?_⟩
        cases first' with
        | none => exact Or.inr ⟨j, hj8, rfl, Or.inr ⟨⟨t, ht, v0_ne_empty_of_lt hlt⟩, hdel⟩⟩
        | some slot => exact hI
      · have hneq := hmiss j hj8 e he x (by rw [ht, hte]) hse hx
        exact ⟨first', by rw [hbody first', hneq]; rfl, hI⟩) (Or.inl rfl)
  obtain ⟨first', hwalk, hfirst⟩ := hscan
  refine ⟨first', hfirst, ?_⟩
  unfold v0ProbeGroup
  simp only [htags, Option.bind_some]
  rw [whileMask_eq, scan_map (fun first j => v0ProbeSlot w key.eq b el g first j) gops.bit, hflags,
    hwalk, hempty]
  simp only [Option.map_some, GROUP_SIZE]

/-- A pass over the group that holds the element finds it. -/
theorem v0ProbeGroup_hit (hgops : gops.Lawful V0ValidTag V0_EMPTY_H7) (hkey : key.Lawful)
    (hsim : BinSim (V0SlotsOk (indexDeleted w)) b a) (hok : IndexOk w key a) {el : El} {e : Entry}
    (hfind : idealLookup key.eq a el = some e) {g j : Nat} (hg : g < b.numGroups) (hj : j < 8)
    (htag : b.groups.tag (8 * g + j) = some (h7Val e.hash))
    (hind : b.groups.ind (8 * g + j) = some e.pos) (first : Option Nat) :
    v0ProbeGroup w gops key.eq b (h7Val (key.hash el)) el (g, first) =
      some (.leave (.hit (8 * g + j) e.pos)) := by
  have hhash := hok.lookup_hash hkey hfind
  have hpos : e.pos ≠ indexDeleted w :=
    Nat.ne_of_lt (hsim.slots.small e (idealLookup_some hfind).1)
  obtain ⟨tags, htags, -, flags, hflags, hcomplete, htagged⟩ :=
    v0_flags hgops hsim hg (h7Val_lt (key.hash el))
  have hwalk : scan (fun first j => v0ProbeSlot w key.eq b el g first j) first flags =
      some (.leave (.hit (8 * g + j) e.pos)) := by
    refine scan_leave (hcomplete j hj (by rw [htag, hhash])) ?_ ?_ first
    · intro i hi hij first
      obtain ⟨hi8, t, hlt, ht⟩ := htagged i hi
      rcases v0ProbeSlot_cases hsim hok el ht hlt with ⟨-, hbody⟩ | ⟨f, hf, x, -, hsf, hx, -, hbody⟩
      · exact ⟨_, hbody first⟩
      · have hneq : key.eq x el = false := by
          by_contra heq
          -- another slot of the same position
          have hfe := hok.lookup_unique hkey hfind hf hx (by simpa using heq)
          subst hfe
          have := hsim.slots.inj _ _ _ _ _ ht htag (v0_ne_empty_of_lt hlt)
            (v0_ne_empty_of_lt (h7Val_lt _)) hsf hind hpos
          omega
        exact ⟨first, by rw [hbody first, hneq]; rfl⟩
    · intro first
      rcases v0ProbeSlot_cases hsim hok el htag (h7Val_lt _) with
        ⟨hdel, -⟩ | ⟨f, hf, x, -, hsf, hx, -, hbody⟩
      · rw [hind, Option.some.injEq] at hdel
        exact absurd hdel hpos
      · rw [hind, Option.some.injEq] at hsf
        have hfe := hok.eq_of_pos hf (idealLookup_some hfind).1 hsf.symm
        subst hfe
        obtain ⟨-, y, hy, hye⟩ := idealLookup_some hfind
        rw [hx, Option.some.injEq] at hy
        subst hy
        rw [hbody first, hye]
        rfl
  unfold v0ProbeGroup
  simp only [htags, Option.bind_some]
  rw [whileMask_eq, scan_map (fun first j => v0ProbeSlot w key.eq b el g first j) gops.bit, hflags,
    hwalk]
  rfl

/-! ## The whole probe -/

theorem v0Probe_hit (hgops : gops.Lawful V0ValidTag V0_EMPTY_H7) (hkey : key.Lawful)
    (hsim : BinSim (V0SlotsOk (indexDeleted w)) b a) (hok : IndexOk w key a) {el : El} {e : Entry}
    (hfind : idealLookup key.eq a el = some e) {fuel : Nat} (hfuel : b.groupsMask < fuel) :
    ∃ slot, b.groups.tag slot = some (h7Val e.hash) ∧ b.groups.ind slot = some e.pos ∧
      v0Probe w gops key.eq fuel b (key.hash el) el = some (.hit slot e.pos) := by
  obtain ⟨s, htag, hind, k, hk, hg, hpath⟩ := hsim.slots.entry e (idealLookup_some hfind).1
  refine ⟨s, htag, hind, ?_⟩
  have hsplit : 8 * (s / 8) + s % 8 = s := Nat.div_add_mod s 8
  rw [hok.lookup_hash hkey hfind] at hg hpath
  obtain ⟨hhome, hnext⟩ := Hbin.walk hok.pow2 (key.hash el)
  rw [hsim.groupsMask, hsim.numGroups] at hhome hnext
  have hn : 0 < b.numGroups := Nat.succ_pos _
  have hpos : e.pos ≠ indexDeleted w :=
    Nat.ne_of_lt (hsim.slots.small e (idealLookup_some hfind).1)
  obtain ⟨r, hr, rfl⟩ := forever_of_steps
    (v0ProbeGroup w gops key.eq b (h7Val (key.hash el)) el)
    (fun j s => s.1 = ((key.hash el).toNat / 8 + j) % b.numGroups)
    (fun r => r = V0Probe.hit s e.pos) k (by
      -- before the group of `s` the element is not met and no slot is empty
      rintro j hj ⟨g, first⟩ rfl
      have hgj := Nat.mod_lt ((key.hash el).toNat / 8 + j) hn
      obtain ⟨first', -, hpass⟩ := v0ProbeGroup_miss hgops hsim hok el hgj first (by
        intro i hi f hf x htag' hind' hx
        by_contra heq
        have hfe := hok.lookup_unique hkey hfind hf hx (by simpa using heq)
        subst hfe
        have hs := hsim.slots.inj _ _ _ _ _ htag' htag (v0_ne_empty_of_lt (h7Val_lt _))
          (v0_ne_empty_of_lt (h7Val_lt _)) hind' hind hpos
        have hgs : s / 8 = ((key.hash el).toNat / 8 + j) % b.numGroups := by omega
        have := step_injective (Nat.lt_trans hj hk) hk (hgs.symm.trans hg)
        omega)
      have hnone : (List.range 8).find? (fun i => b.groups.tag
          (8 * (((key.hash el).toNat / 8 + j) % b.numGroups) + i) = some V0_EMPTY_H7) = none :=
        List.find?_eq_none.mpr fun i hi => by
          simpa using hpath j hj i (List.mem_range.mp hi)
      rw [hnone] at hpass
      exact ⟨_, hpass, hnext j⟩)
    (by
      rintro ⟨g, first⟩ rfl
      have hhit := v0ProbeGroup_hit hgops hkey hsim hok hfind (Nat.mod_lt _ hn)
        (Nat.mod_lt s (by decide)) (by rw [← hg, hsplit, htag]) (by rw [← hg, hsplit, hind]) first
      exact ⟨_, hhit, by rw [← hg, hsplit]⟩)
    (show k < fuel by
      have : b.numGroups = b.groupsMask + 1 := rfl
      omega)
    (s := (homeGroup w (key.hash el) b.groupsMask, none)) hhome
  exact hr

theorem v0Probe_vacant (hgops : gops.Lawful V0ValidTag V0_EMPTY_H7)
    (hsim : BinSim (V0SlotsOk (indexDeleted w)) b a) (hok : IndexOk w key a) {el : El}
    (hfind : idealLookup key.eq a el = none) (hroom : b.elsBound < 8 * b.numGroups) {fuel : Nat}
    (hfuel : b.groupsMask < fuel) :
    ∃ first slot, V0Free (indexDeleted w) b.groups (first.getD slot) ∧
      OnPath (V0GroupFull b.groups) b.numGroups ((key.hash el).toNat / 8) (first.getD slot / 8) ∧
      v0Probe w gops key.eq fuel b (key.hash el) el = some (.vacant first slot) := by
  -- fewer slots are used than there are, so some group is not full
  obtain ⟨s, hs, hempty⟩ := exists_not_of_slotCount_lt
    (Nat.lt_of_le_of_lt hsim.slots.used hroom)
  rw [not_not] at hempty
  have hnotfull : ¬ V0GroupFull b.groups (s / 8) := by
    intro hfull
    apply hfull (s % 8) (Nat.mod_lt s (by decide))
    rw [Nat.div_add_mod, hempty]
  obtain ⟨k, hk, hstop, hbefore⟩ := exists_first (p := fun g => ¬ V0GroupFull b.groups g)
    ((key.hash el).toNat / 8) (show s / 8 < b.numGroups by omega) hnotfull
  have hpath : ∀ j < k, V0GroupFull b.groups (((key.hash el).toNat / 8 + j) % b.numGroups) :=
    fun j hj => not_not.mp (hbefore j hj)
  have hn : 0 < b.numGroups := Nat.succ_pos _
  have hmiss : ∀ j < 8, ∀ g, ∀ e ∈ a.groups, ∀ x, b.groups.tag (8 * g + j) = some (h7Val e.hash) →
      b.groups.ind (8 * g + j) = some e.pos → a.elAt e.pos = some x → key.eq x el = false :=
    fun j _ g e he x _ _ hx => idealLookup_none hfind he hx
  obtain ⟨hhome, hnext⟩ := Hbin.walk hok.pow2 (key.hash el)
  rw [hsim.groupsMask, hsim.numGroups] at hhome hnext
  -- the remembered slot is free and on the path
  obtain ⟨r, hr, first, slot, rfl, hfree, hon⟩ := forever_of_steps
    (v0ProbeGroup w gops key.eq b (h7Val (key.hash el)) el)
    (fun j s => s.1 = ((key.hash el).toNat / 8 + j) % b.numGroups ∧
      ∀ slot, s.2 = some slot → V0Free (indexDeleted w) b.groups slot ∧
        OnPath (V0GroupFull b.groups) b.numGroups ((key.hash el).toNat / 8) (slot / 8))
    (fun r => ∃ first slot, r = V0Probe.vacant first slot ∧
      V0Free (indexDeleted w) b.groups (first.getD slot) ∧
      OnPath (V0GroupFull b.groups) b.numGroups ((key.hash el).toNat / 8) (first.getD slot / 8))
    k (by
      rintro j hj ⟨g, first⟩ ⟨rfl, hfirst⟩
      obtain ⟨first', hcase, hpass⟩ := v0ProbeGroup_miss hgops hsim hok el (Nat.mod_lt _ hn) first
        (fun i hi => hmiss i hi _)
      have hnone : (List.range 8).find? (fun i => b.groups.tag
          (8 * (((key.hash el).toNat / 8 + j) % b.numGroups) + i) = some V0_EMPTY_H7) = none :=
        List.find?_eq_none.mpr fun i hi => by
          simpa using hpath j hj i (List.mem_range.mp hi)
      rw [hnone] at hpass
      refine ⟨_, hpass, hnext j, fun slot hslot => ?_⟩
      rcases hcase with rfl | ⟨i, hi, rfl, hfree⟩
      · exact hfirst slot hslot
      · rw [Option.some.injEq] at hslot
        subst hslot
        exact ⟨hfree, j, Nat.lt_trans hj hk, by omega, fun l hl => hpath l (Nat.lt_trans hl hj)⟩)
    (by
      rintro ⟨g, first⟩ ⟨rfl, hfirst⟩
      obtain ⟨first', hcase, hpass⟩ := v0ProbeGroup_miss hgops hsim hok el (Nat.mod_lt _ hn) first
        (fun i hi => hmiss i hi _)
      cases hfound : (List.range 8).find? fun i => b.groups.tag
          (8 * (((key.hash el).toNat / 8 + k) % b.numGroups) + i) = some V0_EMPTY_H7 with
      | none =>
        refine absurd (fun i hi => ?_) hstop
        simpa using List.find?_eq_none.mp hfound i (List.mem_range.mpr hi)
      | some bit =>
        rw [hfound] at hpass
        refine ⟨_, hpass, first', _, rfl, ?_⟩
        have hbit : bit < 8 := List.mem_range.mp (List.mem_of_find?_eq_some hfound)
        rcases hcase with rfl | ⟨i, hi, rfl, hfree⟩
        · cases first' with
          | some slot => exact hfirst slot rfl
          | none =>
            refine ⟨Or.inl (by simpa using List.find?_some hfound), k, hk, ?_, hpath⟩
            simp only [Option.getD_none]
            omega
        · refine ⟨hfree, k, hk, ?_, hpath⟩
          simp only [Option.getD_some]
          omega)
    (show k < fuel by
      have : b.numGroups = b.groupsMask + 1 := rfl
      omega)
    (s := (homeGroup w (key.hash el) b.groupsMask, none))
    ⟨hhome, fun slot hslot => by cases hslot⟩
  exact ⟨first, slot, hfree, hon, hr⟩

end Probe

/-! ## The index implements the ideal one -/

theorem v0Do1_mono (w : Widths) (gops : GroupOps) (eq : El → El → Bool) (elsNum : Nat)
    (b : Hbin El V0Index) (hash : BitVec 64) (el : El) (action : Action) :
    Mono fun fuel => v0Do1 w gops eq fuel elsNum b hash el action := by
  have h : ∀ s, Mono fun _ : Nat => v0ProbeGroup w gops eq b (h7Val hash) el s :=
    fun s => Mono.const _
  exact Mono.bind (Mono.forever h _) fun _ => Mono.const _

theorem v0Ops_lawful {w : Widths} (hw : 2 ^ w.ind + 1 < 2 ^ w.size) {key : Key El} (hkey : key.Lawful)
    {gops : GroupOps} (hgops : gops.Lawful V0ValidTag V0_EMPTY_H7) :
    (v0Ops w gops key.eq).Lawful w key (indexDeleted w) (V0SlotsOk (indexDeleted w)) where
  alloc n := V0SlotsOk.of_empty rfl (by simp [v0Ops, GROUP_SIZE])
  clear {idx n bound es} h := by
    have hlen : GROUP_SIZE * n = idx.h7.length := h.length_h7.symm
    refine ⟨_, if_pos (Nat.le_of_eq hlen), V0SlotsOk.of_empty ?_ h.length_indexes⟩
    simp [GROUP_SIZE, h.length_h7]
  regrow n idx := V0SlotsOk.of_empty rfl (by simp [v0Ops, GROUP_SIZE]; omega)
  mono := v0Do1_mono w gops key.eq
  do1 := by
    intro b a hsim hok hlimit hroom el action fuel hfuel elsNum
    show Option.Rel _ (v0Do1 w gops key.eq fuel elsNum b (key.hash el) el action) _
    have hslots := hsim.slots
    unfold v0Do1 idealDo1
    cases hfind : idealLookup key.eq a el with
    | some e =>
      obtain ⟨slot, htag, hind, hprobe⟩ := v0Probe_hit hgops hkey hsim hok hfind hfuel
      have he := (idealLookup_some hfind).1
      rw [hprobe]
      simp only [Option.bind_some]
      by_cases haction : action = .delete
      · rw [if_pos haction, if_pos haction, ← hsim.deleted, hok.mark?_eq he]
        refine Option.Rel.some ⟨rfl, rfl, rfl, ?_, ?_⟩
        · simp only [Hbin.withGroups, hsim.elsBound, hsim.els, hsim.groupsMask]
        · exact fun _ => hslots.delete he htag hind
      · rw [if_neg haction, if_neg haction]
        exact Option.Rel.some ⟨rfl, rfl, rfl, hsim.same, fun _ => hslots⟩
    | none =>
      obtain ⟨first, slot, hfree, hpath, hprobe⟩ := v0Probe_vacant hgops hsim hok hfind hroom hfuel
      rw [hprobe]
      simp only [Option.bind_some]
      by_cases haction : action = .insert
      · have hpos : 0 < 2 ^ w.ind := Nat.two_pow_pos w.ind
        unfold indexDeleted at hlimit
        have hincr : w.incr b.elsBound = b.elsBound + 1 := Widths.incr_eq (by omega)
        rw [if_pos haction, if_pos haction, hincr, hsim.elsBound]
        refine Option.Rel.some ⟨rfl, rfl, rfl, ?_, fun hbound => ?_⟩
        · simp only [Hbin.withGroups, hsim.els, hsim.deleted, hsim.groupsMask]
        · have hlt : b.elsBound < indexDeleted w := hbound
          have hbits : b.elsBound < 2 ^ w.ind := by
            unfold indexDeleted at hlt
            omega
          simp only [Nat.mod_eq_of_lt hbits]
          refine hslots.insert hfree hpath hlt fun e he => ?_
          rw [← hsim.elsBound]
          exact (hok.entry e he).1
      · rw [if_neg haction, if_neg haction]
        exact Option.Rel.some ⟨rfl, rfl, rfl, hsim.same, fun _ => hslots⟩

end IndexedHash
