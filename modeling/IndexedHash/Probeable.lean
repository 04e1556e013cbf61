import Mathlib.Tactic.Common
import IndexedHash.GroupIndex
import IndexedHash.Scanning

/-!
# Bins in which every probe ends

`Probeable` is what is left of the invariant of a bin when nothing is asked of `Hash`
and `Eq` and a stored index may be a truncated one: every used position has taken one
slot from the empty ones, and a live slot leads to some initialised element.  This is
all a probe needs in order to return (`Probeable.probe_cases`), and it survives the
wrong answers of a table whose positions do not fit into the stored indices.

`Effect` lists what `do_1` can do to such a bin, with the slot it reads or writes.
Every later fact about calls on arbitrary reachable tables is read off it.
-/

namespace IndexedHash

open Loop ByteWord Probing

variable {El : Type} {w : Widths} {gops : GroupOps} {eq : El → El → Bool}
  {b b' : Hbin El (List Group)}

structure Probeable (w : Widths) (b : Hbin El (List Group)) : Prop where
  pow2 : ∃ k ≤ w.size, b.numGroups = 2 ^ k
  small : 8 * b.numGroups < 2 ^ w.size
  groups_length : b.groups.length = b.numGroups
  els_length : b.els.length = b.elsSize
  deleted_length : b.deleted.length = (b.elsSize + 7) / 8
  valid : ∀ s t, slotTag b.groups s = some t → ValidTag t
  /-- every used position has used up one slot -/
  used : slotCount (8 * b.numGroups) (fun s => slotTag b.groups s ≠ some EMPTY_H7) = b.elsBound
  stored : ∀ s t, slotTag b.groups s = some t → t < 0x80#8 →
    ∃ i < b.elsBound, i < 2 ^ w.ind ∧ slotInd b.groups s = some i
  initialised : ∀ i < b.elsBound, ∃ x, b.elAt i = some x

theorem Hbin.lt_of_elAt {G : Type} {b : Hbin El G} {i : Nat} {x : El} (h : b.elAt i = some x) :
    i < b.els.length := by
  by_contra hge
  rw [Hbin.elAt, List.getElem?_eq_none (by omega)] at h
  cases h

theorem Probeable.bound (h : Probeable w b) : b.elsBound ≤ b.elsSize := by
  rw [← h.els_length]
  by_contra hlt
  obtain ⟨x, hx⟩ := h.initialised b.els.length (by omega)
  exact absurd (Hbin.lt_of_elAt hx) (Nat.lt_irrefl _)

/-- At least half of the slots are empty. -/
theorem Probeable.room (h : Probeable w b) : 2 * b.elsBound ≤ 8 * b.numGroups := by
  have hbound := h.bound
  rw [Hbin.elsSize] at hbound
  omega

theorem Probeable.bits (h : Probeable w b) : b.elsBound ≤ 8 * b.deleted.length := by
  have hbound := h.bound
  rw [h.deleted_length]
  omega

theorem Probeable.slot_element (h : Probeable w b) {s : Nat} {t : BitVec 8}
    (ht : slotTag b.groups s = some t) (hlt : t < 0x80#8) :
    ∃ i < b.elsBound, slotInd b.groups s = some i ∧ ∃ x, b.elAt i = some x := by
  obtain ⟨i, hi, -, hsi⟩ := h.stored s t ht hlt
  exact ⟨i, hi, hsi, h.initialised i hi⟩

/-! ## One pass of the probe loop -/

/-- A live slot `bit` of group `g` that leads to position `i`, where an element equal
    to `el` is. -/
structure HitAt (eq : El → El → Bool) (b : Hbin El (List Group)) (el : El) (g bit i : Nat) :
    Prop where
  bit_lt : bit < 8
  tag : ∃ t, slotTag b.groups (8 * g + bit) = some t ∧ t < 0x80#8
  ind : slotInd b.groups (8 * g + bit) = some i
  equal : ∃ x, b.elAt i = some x ∧ eq x el = true

/-- What a pass over group `g` can do: stop at an equal element, or, if no slot tagged
    `h7` leads to one, stop at an empty slot, or go on from a full group. -/
inductive Pass1 (eq : El → El → Bool) (b : Hbin El (List Group)) (h7 : BitVec 8) (el : El)
    (g : Nat) : Step Nat Probe → Prop where
  | hit {bit i} : HitAt eq b el g bit i → Pass1 eq b h7 el g (.leave (.hit g bit i))
  | vacant {bit} : (∀ j < 8, slotHits eq b h7 el (8 * g + j) = false) → bit < 8 →
      slotTag b.groups (8 * g + bit) = some EMPTY_H7 →
      Pass1 eq b h7 el g (.leave (.vacant g bit))
  | again : (∀ j < 8, slotHits eq b h7 el (8 * g + j) = false) → GroupFull b.groups g →
      Pass1 eq b h7 el g (.again ((g + 1) &&& b.groupsMask))

theorem Probeable.pass (h : Probeable w b) (hgops : gops.Lawful ValidTag EMPTY_H7) (eq : El → El → Bool)
    {h7 : BitVec 8} (hh7 : h7 < 0x80#8) (el : El) {g : Nat} (hg : g < b.numGroups) :
    ∃ step, probeGroup gops eq b h7 el g = some step ∧ Pass1 eq b h7 el g step := by
  have hglen : g < b.groups.length := by rw [h.groups_length]; exact hg
  obtain ⟨p, hcomplete, hsound, hscan⟩ := probeGroup_scan hgops eq h.valid hh7 el hglen
  -- a flagged slot is live, whether its tag is `h7` or `h7 ^ 1`
  have hlive : ∀ j < 8, p j = true → ∃ t, slotTag b.groups (8 * g + j) = some t ∧ t < 0x80#8 := by
    intro j hj hpj
    rcases hsound j hj hpj with hj' | hj'
    · exact ⟨h7, hj', hh7⟩
    · exact ⟨h7 ^^^ 1#8, hj', xor_one_lt hh7⟩
  let pos : Nat → Nat := fun j => (slotInd b.groups (8 * g + j)).getD 0
  let q : Nat → Bool := fun j => (b.elAt (pos j)).any (eq · el)
  have helement : ∀ j < 8, p j = true → ∃ x, slotInd b.groups (8 * g + j) = some (pos j) ∧
      b.elAt (pos j) = some x ∧ eq x el = q j := by
    intro j hj hpj
    obtain ⟨t, ht, hlt⟩ := hlive j hj hpj
    obtain ⟨i, -, hsi, x, hx⟩ := h.slot_element ht hlt
    have hpos : pos j = i := by simp only [pos, hsi, Option.getD_some]
    refine ⟨x, by rw [hpos, hsi], by rw [hpos, hx], ?_⟩
    simp only [q, hpos, hx, Option.any_some]
  refine ⟨_, hscan q pos helement, ?_⟩
  cases hfind : ((List.range 8).filter p).find? q with
  | some j =>
    obtain ⟨hj8, hpj⟩ := List.mem_filter.mp (List.mem_of_find?_eq_some hfind)
    rw [List.mem_range] at hj8
    obtain ⟨x, hsi, hx, hxq⟩ := helement j hj8 hpj
    exact Pass1.hit ⟨hj8, hlive j hj8 hpj, hsi, x, hx, hxq.trans (List.find?_some hfind)⟩
  | none =>
    have hmiss : ∀ j < 8, slotHits eq b h7 el (8 * g + j) = false := by
      intro j hj
      cases hhit : slotHits eq b h7 el (8 * g + j) with
      | false => rfl
      | true =>
        simp only [slotHits, Bool.and_eq_true, decide_eq_true_eq] at hhit
        have hpj := hcomplete j hj hhit.1
        obtain ⟨x, hsi, hx, hxq⟩ := helement j hj hpj
        rw [hsi, Option.any_some] at hhit
        have hmem := List.mem_filter.mpr ⟨List.mem_range.mpr hj, hpj⟩
        exact absurd hhit.2 (List.find?_eq_none.mp hfind j hmem)
    cases hempty : (List.range 8).find? fun j => slotTag b.groups (8 * g + j) = some EMPTY_H7 with
    | some j =>
      have hj8 := List.mem_range.mp (List.mem_of_find?_eq_some hempty)
      have hje := List.find?_some hempty
      exact Pass1.vacant hmiss hj8 (by simpa using hje)
    | none =>
      refine Pass1.again hmiss fun j hj => ?_
      simpa using List.find?_eq_none.mp hempty j (List.mem_range.mpr hj)

/-! ## The whole probe -/

/-- No slot tagged `h7` on the way from `start` leads to an element equal to `el`, as far
    as the way goes through full groups. -/
def MissesAll (eq : El → El → Bool) (b : Hbin El (List Group)) (hash : BitVec 64) (el : El) :
    Prop :=
  ∀ s, OnPath (GroupFull b.groups) b.numGroups (hash.toNat / 8) (s / 8) →
    slotHits eq b (h7Val hash) el s = false

inductive Probed (eq : El → El → Bool) (b : Hbin El (List Group)) (hash : BitVec 64) (el : El) :
    Probe → Prop where
  | hit {g bit i} : HitAt eq b el g bit i → Probed eq b hash el (.hit g bit i)
  | vacant {g bit} : MissesAll eq b hash el → bit < 8 →
      slotTag b.groups (8 * g + bit) = some EMPTY_H7 →
      OnPath (GroupFull b.groups) b.numGroups (hash.toNat / 8) g →
      Probed eq b hash el (.vacant g bit)

/-- The probe returns within as many passes as there are groups. -/
theorem Probeable.probe_cases (h : Probeable w b) (hgops : gops.Lawful ValidTag EMPTY_H7)
    (eq : El → El → Bool) (hash : BitVec 64) (el : El) {fuel : Nat} (hfuel : b.groupsMask < fuel) :
    ∃ r, probe w gops eq fuel b hash el = some r ∧ Probed eq b hash el r := by
  have hn : 0 < b.numGroups := Nat.succ_pos _
  let path : Nat → Nat := fun j => (hash.toNat / 8 + j) % b.numGroups
  have hlt : ∀ j, path j < b.numGroups := fun j => Nat.mod_lt _ hn
  have hpass := fun j => h.pass hgops eq (h7Val_lt hash) el (hlt j)
  -- fewer slots are used than there are, so some group is not full
  have hroom := h.room
  obtain ⟨s, hs, hempty⟩ := exists_not_of_slotCount_lt (show slotCount (8 * b.numGroups)
    (fun s => slotTag b.groups s ≠ some EMPTY_H7) < 8 * b.numGroups by rw [h.used]; omega)
  rw [not_not] at hempty
  have hstops : ∃ r, probeGroup gops eq b (h7Val hash) el (s / 8) = some (.leave r) := by
    obtain ⟨step, hstep, hcase⟩ := h.pass hgops eq (h7Val_lt hash) el
      (show s / 8 < b.numGroups by omega)
    cases hcase with
    | hit _ => exact ⟨_, hstep⟩
    | vacant _ _ _ => exact ⟨_, hstep⟩
    | again _ hfull =>
      refine absurd ?_ (hfull (s % 8) (Nat.mod_lt s (by decide)))
      rw [Nat.div_add_mod, hempty]
  obtain ⟨k, hk, ⟨r, hr⟩, hbefore⟩ := exists_first
    (p := fun g => ∃ r, probeGroup gops eq b (h7Val hash) el g = some (.leave r))
    (hash.toNat / 8) (show s / 8 < b.numGroups by omega) hstops
  have hagain : ∀ j < k, probeGroup gops eq b (h7Val hash) el (path j) =
      some (.again ((path j + 1) &&& b.groupsMask)) ∧ GroupFull b.groups (path j) ∧
      ∀ i < 8, slotHits eq b (h7Val hash) el (8 * path j + i) = false := by
    intro j hj
    obtain ⟨step, hstep, hcase⟩ := hpass j
    cases hcase with
    | hit _ => exact absurd ⟨_, hstep⟩ (hbefore j hj)
    | vacant _ _ _ => exact absurd ⟨_, hstep⟩ (hbefore j hj)
    | again hmiss hfull => exact ⟨hstep, hfull, hmiss⟩
  obtain ⟨hhome, hnext⟩ := Hbin.walk h.pow2 hash
  refine ⟨r, ?_, ?_⟩
  · rw [probe, hhome]
    refine forever_of_path path k (fun j hj => ?_) hr ?_
    · rw [(hagain j hj).1]
      simp only [path, hnext]
    · have : b.numGroups = b.groupsMask + 1 := rfl
      omega
  · obtain ⟨step, hstep, hcase⟩ := hpass k
    obtain rfl : step = .leave r := by
      rw [hr, Option.some.injEq] at hstep
      exact hstep.symm
    cases hcase with
    | hit hhit => exact Probed.hit hhit
    | @vacant bit hmiss hbit htag =>
      refine Probed.vacant ?_ hbit htag ⟨k, hk, rfl, fun j hj => (hagain j hj).2.1⟩
      -- a way through full groups does not pass the group of the empty slot
      rintro s ⟨k', hk', hsg, hfull⟩
      have hle : k' ≤ k := by
        by_contra hlt'
        exact hfull k (by omega) bit hbit htag
      rw [← Nat.div_add_mod s 8, hsg]
      rcases Nat.lt_or_eq_of_le hle with hk | rfl
      · exact (hagain k' hk).2.2 _ (Nat.mod_lt s (by decide))
      · exact hmiss _ (Nat.mod_lt s (by decide))

/-! ## What `do_1` does -/

def Hbin.forget (b : Hbin El (List Group)) (g bit i : Nat) : Hbin El (List Group) :=
  { b with deleted := b.deleted.mark i, groups := setTag b.groups g bit DELETED_H7 }

def Hbin.extend (w : Widths) (b : Hbin El (List Group)) (hash : BitVec 64) (g bit : Nat) :
    Hbin El (List Group) :=
  { b with
    groups := setIndex (setTag b.groups g bit (h7Val hash)) g bit (b.elsBound % 2 ^ w.ind),
    elsBound := b.elsBound + 1 }

inductive Effect (w : Widths) (eq : El → El → Bool) (n : Nat) (b : Hbin El (List Group))
    (hash : BitVec 64) (el : El) : Action → Outcome El (List Group) → Prop where
  | found {action g bit i} : action ≠ .delete → HitAt eq b el g bit i →
      Effect w eq n b hash el action { found := true, res := some i, elsNum := n, bin := b }
  | removed {g bit i} : HitAt eq b el g bit i →
      Effect w eq n b hash el .delete
        { found := true, res := none, elsNum := w.decr n, bin := b.forget g bit i }
  | added {g bit} : MissesAll eq b hash el → bit < 8 →
      slotTag b.groups (8 * g + bit) = some EMPTY_H7 →
      OnPath (GroupFull b.groups) b.numGroups (hash.toNat / 8) g →
      Effect w eq n b hash el .insert
        { found := false, res := some b.elsBound, elsNum := w.incr n,
          bin := b.extend w hash g bit }
  | absent {action} : action ≠ .insert → MissesAll eq b hash el →
      Effect w eq n b hash el action { found := false, res := none, elsNum := n, bin := b }

theorem HitAt.lt (h : Probeable w b) {el : El} {g bit i : Nat} (hhit : HitAt eq b el g bit i) :
    i < b.elsBound := by
  obtain ⟨t, ht, hlt⟩ := hhit.tag
  obtain ⟨j, hj, hsj, -⟩ := h.slot_element ht hlt
  rw [hhit.ind, Option.some.injEq] at hsj
  exact hsj ▸ hj

section Do1

variable {n : Nat} {hash : BitVec 64} {el : El} {action : Action}

theorem Probeable.do1 (h : Probeable w b) (hgops : gops.Lawful ValidTag EMPTY_H7)
    (eq : El → El → Bool) (n : Nat) (hash : BitVec 64) (el : El) (action : Action) {fuel : Nat}
    (hfuel : b.groupsMask < fuel) :
    ∃ r, groupDo1 w gops eq fuel n b hash el action = some r ∧
      Effect w eq n b hash el action r := by
  obtain ⟨r, hr, hcase⟩ := h.probe_cases hgops eq hash el hfuel
  unfold groupDo1
  rw [hr]
  cases hcase with
  | @hit g bit i hhit =>
    simp only [Option.bind_some]
    by_cases haction : action = .delete
    · subst haction
      rw [if_pos rfl, Bitmap.mark?_eq_some (Nat.lt_of_lt_of_le (hhit.lt h) h.bits)]
      exact ⟨_, rfl, Effect.removed hhit⟩
    · rw [if_neg haction]
      exact ⟨_, rfl, Effect.found haction hhit⟩
  | @vacant g bit hmiss hbit htag hpath =>
    simp only [Option.bind_some]
    by_cases haction : action = .insert
    · subst haction
      have hroom := h.room
      have hsmall := h.small
      have hn : 0 < b.numGroups := Nat.succ_pos _
      rw [if_pos rfl, Widths.incr_eq (show b.elsBound + 1 < 2 ^ w.size by omega)]
      exact ⟨_, rfl, Effect.added hmiss hbit htag hpath⟩
    · rw [if_neg haction]
      exact ⟨_, rfl, Effect.absent haction hmiss⟩

/-- Whatever fuel it returns on. -/
theorem Probeable.do1_effect (h : Probeable w b) (hgops : gops.Lawful ValidTag EMPTY_H7)
    {fuel : Nat} {r : Outcome El (List Group)}
    (hr : groupDo1 w gops eq fuel n b hash el action = some r) :
    Effect w eq n b hash el action r := by
  obtain ⟨r', hr', heffect⟩ := h.do1 hgops eq n hash el action (Nat.lt_succ_self b.groupsMask)
  rw [(groupDo1_mono w gops eq n b hash el action).eq_of_some hr hr']
  exact heffect

end Do1

/-! ## Writes -/

theorem Probeable.store (h : Probeable w b) {i : Nat} {x : El} (hb' : b.store? i x = some b') :
    Probeable w b' := by
  obtain ⟨hi, rfl⟩ := Hbin.store?_eq_some_iff.mp hb'
  refine ⟨h.pow2, h.small, h.groups_length, ?_, h.deleted_length, h.valid, h.used, h.stored, ?_⟩
  · rw [List.length_set]
    exact h.els_length
  · intro j hj
    rw [Hbin.elAt_set hi]
    split
    · exact ⟨x, rfl⟩
    · exact h.initialised j hj

theorem Probeable.forget (h : Probeable w b) {el : El} {g bit i : Nat}
    (hhit : HitAt eq b el g bit i) : Probeable w (b.forget g bit i) := by
  obtain ⟨t, ht, hlt⟩ := hhit.tag
  have hg : g < b.groups.length := by
    have := slotTag_lt ht
    omega
  have htag := slotTag_setTag hg hhit.bit_lt DELETED_H7
  refine ⟨h.pow2, h.small, ?_, h.els_length, ?_, ?_, ?_, ?_, h.initialised⟩
  · exact (length_setTag _ _ _ _).trans h.groups_length
  · exact (Bitmap.length_mark _ _).trans h.deleted_length
  · exact htag.all (Or.inr (Or.inl rfl)) h.valid
  · exact (htag.slotCount_eq (by simpa [ht] using ne_empty_of_lt hlt) deleted_ne_empty).trans h.used
  · intro s t' ht' hlt'
    rcases htag.cases ht' with ⟨-, rfl⟩ | ⟨-, ht'⟩
    · exact absurd hlt' deleted_not_lt
    · obtain ⟨j, hj, hjw, hsj⟩ := h.stored s t' ht' hlt'
      exact ⟨j, hj, hjw, by rw [Hbin.forget, slotInd_setTag, hsj]⟩

section Extend

variable {g bit : Nat} {hash : BitVec 64}

theorem Hbin.extend_slotTag (w : Widths) (hg : g < b.groups.length) (hbit : bit < 8)
    (hash : BitVec 64) :
    Overwritten (slotTag b.groups) (slotTag (b.extend w hash g bit).groups) (8 * g + bit)
      (h7Val hash) :=
  slotTag_write hg hbit _ _

theorem Hbin.extend_slotInd (w : Widths) (hg : g < b.groups.length) (hbit : bit < 8)
    (hash : BitVec 64) :
    Overwritten (slotInd b.groups) (slotInd (b.extend w hash g bit).groups) (8 * g + bit)
      (b.elsBound % 2 ^ w.ind) :=
  slotInd_write hg hbit _ _

theorem Probeable.extend (h : Probeable w b) (hbit : bit < 8)
    (hempty : slotTag b.groups (8 * g + bit) = some EMPTY_H7) {x : El}
    (hb' : (b.extend w hash g bit).store? b.elsBound x = some b') : Probeable w b' := by
  obtain ⟨hroom, rfl⟩ := Hbin.store?_eq_some_iff.mp hb'
  have hlt := slotTag_lt hempty
  have hg : g < b.groups.length := by omega
  have htag := Hbin.extend_slotTag w hg hbit hash
  have hind := Hbin.extend_slotInd w hg hbit hash
  have hh7 := h7Val_lt hash
  refine ⟨h.pow2, h.small, ?_, ?_, h.deleted_length, ?_, ?_, ?_, ?_⟩
  · exact (length_setIndex _ _ _ _).trans ((length_setTag _ _ _ _).trans h.groups_length)
  · exact List.length_set.trans h.els_length
  · exact htag.all (Or.inl hh7) h.valid
  · show slotCount (8 * b.numGroups) _ = b.elsBound + 1
    rw [← h.used]
    exact htag.slotCount_succ (by rw [← h.groups_length]; omega) hempty (ne_empty_of_lt hh7)
  · intro s t ht hlt'
    rcases htag.cases ht with ⟨rfl, -⟩ | ⟨hs, ht⟩
    · refine ⟨_, ?_, Nat.mod_lt _ (Nat.two_pow_pos _), hind.at⟩
      exact Nat.lt_succ_of_le (Nat.mod_le _ _)
    · obtain ⟨i, hi, hiw, hsi⟩ := h.stored s t ht hlt'
      exact ⟨i, Nat.lt_succ_of_lt hi, hiw, (hind.of_ne hs).trans hsi⟩
  · intro i hi
    rw [Hbin.elAt_set hroom]
    split
    · exact ⟨x, rfl⟩
    · next hne =>
        have hi' : i < b.elsBound + 1 := hi
        exact h.initialised i (by omega)

end Extend

/-! ## A call and the caller's write -/

def insertions (action : Action) (found : Bool) : Nat :=
  if action = .insert ∧ found = false then 1 else 0

theorem insertions_le (action : Action) (found : Bool) : insertions action found ≤ 1 := by
  unfold insertions
  split <;> decide

section Call

variable {n : Nat} {hash : BitVec 64} {el : El} {action : Action} {r : Outcome El (List Group)}
  {c : Call El}

theorem Effect.written (h : Probeable w b) (he : Effect w eq n b hash el action r)
    (hb' : r.written c = some b') :
    Probeable w b' ∧ b'.groupsMask = b.groupsMask ∧
      b'.elsBound = b.elsBound + insertions action r.found := by
  cases he with
  | found _ hhit =>
    have hnone : insertions action true = 0 := if_neg fun hi => nomatch hi.2
    rw [hnone]
    cases hup : c.update with
    | none =>
      simp only [Outcome.written, hup, if_true, Option.some.injEq] at hb'
      subst hb'
      exact ⟨h, rfl, rfl⟩
    | some y =>
      simp only [Outcome.written, hup, if_true] at hb'
      obtain ⟨-, hb''⟩ := Hbin.store?_eq_some_iff.mp hb'
      refine ⟨h.store hb', ?_⟩
      rw [hb'']
      exact ⟨rfl, rfl⟩
  | removed hhit =>
    simp only [Outcome.written, Option.some.injEq] at hb'
    subst hb'
    exact ⟨h.forget hhit, rfl, rfl⟩
  | added _ hbit hempty _ =>
    simp only [Outcome.written, Bool.false_eq_true, if_false] at hb'
    obtain ⟨-, hb''⟩ := Hbin.store?_eq_some_iff.mp hb'
    refine ⟨h.extend hbit hempty hb', ?_⟩
    rw [hb'']
    exact ⟨rfl, rfl⟩
  | absent haction _ =>
    simp only [Outcome.written, Option.some.injEq] at hb'
    subst hb'
    exact ⟨h, rfl, by rw [insertions, if_neg fun hi => haction hi.1]; rfl⟩

/-- A FIND or DELETE and the write after it succeed, and only delete. -/
theorem Effect.shrinks (h : Probeable w b) (he : Effect w eq n b hash el action r)
    (haction : action ≠ .insert) (c : Call El) :
    ∃ b', r.written c = some b' ∧ Shrinks b b' := by
  cases he with
  | found _ hhit =>
    obtain ⟨x, hx, -⟩ := hhit.equal
    cases hup : c.update with
    | none => exact ⟨b, by simp only [Outcome.written, hup, if_true], Shrinks.refl b⟩
    | some y =>
      simp only [Outcome.written, hup, if_true]
      exact ⟨_, Hbin.store?_eq_some (Hbin.lt_of_elAt hx), rfl, rfl, fun _ hi => hi⟩
  | removed hhit =>
    refine ⟨_, rfl, rfl, rfl, fun i hi => ?_⟩
    rw [Hbin.forget, Bitmap.test_mark (Nat.lt_of_lt_of_le (hhit.lt h) h.bits), hi, Bool.or_true]
  | added _ _ _ _ => exact absurd rfl haction
  | absent _ _ => exact ⟨b, rfl, Shrinks.refl b⟩

end Call

/-! ## Reinsertion -/

/-- A reinsertion is an INSERT after which the element is written in either case. -/
def Call.rewrite (x : El) : Call El := ⟨x, .insert, x, some x⟩

theorem Effect.reinsert {n : Nat} {hash : BitVec 64} {x : El} {r : Outcome El (List Group)}
    (he : Effect w eq n b hash x .insert r) :
    (r.res.bind fun p => (r.bin.store? p x).map fun b => (r.elsNum, b)) =
      (r.written (Call.rewrite x)).map fun b => (r.elsNum, b) := by
  cases he with
  | found _ _ => rfl
  | added _ _ _ _ => rfl
  | absent haction _ => exact absurd rfl haction

section Reinsert

variable {n : Nat} {hash : BitVec 64} {x : El}

theorem Probeable.reinsert_effect (h : Probeable w b) (hgops : gops.Lawful ValidTag EMPTY_H7)
    {fuel : Nat} {s : Nat × Hbin El (List Group)}
    (hs : reinsert (groupOps w gops eq) fuel n b hash x = some s) :
    ∃ r, Effect w eq n b hash x .insert r ∧ r.written (Call.rewrite x) = some s.2 ∧
      s.1 = r.elsNum := by
  obtain ⟨r, hr, hs⟩ := Option.bind_eq_some_iff.mp hs
  have he := h.do1_effect hgops hr
  rw [he.reinsert] at hs
  obtain ⟨b', hb', rfl⟩ := Option.map_eq_some_iff.mp hs
  exact ⟨r, he, hb', rfl⟩

/-- With room for one more element a reinsertion returns. -/
theorem Probeable.reinsert (h : Probeable w b) (hgops : gops.Lawful ValidTag EMPTY_H7)
    (eq : El → El → Bool) (hroom : b.elsBound < b.els.length) (n : Nat) (hash : BitVec 64) (x : El)
    {fuel : Nat} (hfuel : b.groupsMask < fuel) :
    ∃ s, reinsert (groupOps w gops eq) fuel n b hash x = some s := by
  obtain ⟨r, hr, he⟩ := h.do1 hgops eq n hash x .insert hfuel
  have hdo : (groupOps w gops eq).do1 fuel n b hash x .insert = some r := hr
  unfold IndexedHash.reinsert
  rw [hdo, Option.bind_some, he.reinsert]
  cases he with
  | found _ hhit =>
    obtain ⟨y, hy, -⟩ := hhit.equal
    simp only [Outcome.written, Call.rewrite, if_true]
    rw [Hbin.store?_eq_some (Hbin.lt_of_elAt hy)]
    exact ⟨_, rfl⟩
  | @added g bit _ _ _ _ =>
    have hlen : b.elsBound < (b.extend w hash g bit).els.length := hroom
    simp only [Outcome.written, Call.rewrite, Bool.false_eq_true, if_false]
    rw [Hbin.store?_eq_some hlen]
    exact ⟨_, rfl⟩
  | absent haction _ => exact absurd rfl haction

end Reinsert

/-! ## Bins without elements -/

theorem Probeable.of_empty {k : Nat} (hb : b.numGroups = 2 ^ k) (hsmall : 8 * 2 ^ k < 2 ^ w.size)
    (hbound : b.elsBound = 0) (hels : b.els.length = b.elsSize)
    (hdel : b.deleted.length = (b.elsSize + 7) / 8)
    (hslots : SlotsOk b.groups b.numGroups 0 []) : Probeable w b := by
  have hk : k ≤ w.size := by
    by_contra hlt
    have := Nat.pow_le_pow_right (show 0 < 2 by decide) (show w.size ≤ k by omega)
    omega
  refine ⟨⟨k, hk, hb⟩, hb ▸ hsmall, hslots.length, hels, hdel, hslots.valid, ?_, ?_, ?_⟩
  · rw [hslots.used, hbound]
  · intro s t ht hlt
    obtain ⟨e, he, -⟩ := hslots.slot s t ht hlt
    cases he
  · intro i hi
    omega

end IndexedHash
