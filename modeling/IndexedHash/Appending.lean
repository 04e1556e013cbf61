import Mathlib.Tactic.Common
import IndexedHash.IhtProbes

/-!
# Calls that append, and calls that undo them

What an INSERT of a new key and a DELETE do to a table of `ihtab.h`, in terms of the dense
array alone and in any reachable state, with stored indices exact or not.  An INSERT
appends if no slot leads to an equal element (`ihtStep_appends`).  A DELETE right after
it finds something if the stored index leads to an equal element, which need not be the
new one (`ihtStep_deletes`).

`Holds` describes a table of words by the position of each; runs over billions of
positions are then inductions on a counter.
-/

namespace IndexedHash

open Loop Probing

variable {El : Type} {key : Key El} {target : Target}

/-! ## One call -/

structure Appended (key : Key El) (c : Call El) (b b' : Hbin El (List Group)) : Prop where
  elsBound : b'.elsBound = b.elsBound + 1
  groupsMask : b'.groupsMask = b.groupsMask
  deleted : b'.deleted = b.deleted
  elAt : ∀ i, b'.elAt i = if i = b.elsBound then some c.fresh else b.elAt i
  /-- the key is found if the stored index leads to an element of it -/
  found : ∀ y, b'.elAt (b.elsBound % 2 ^ 32) = some y → key.eq y c.el = true →
    ¬ MissesAll key.eq b' (key.hash c.el) c.el

theorem Appended.of_added {c : Call El} {b b' : Hbin El (List Group)} {g bit : Nat} (hbit : bit < 8)
    (hempty : slotTag b.groups (8 * g + bit) = some EMPTY_H7)
    (hpath : OnPath (GroupFull b.groups) b.numGroups ((key.hash c.el).toNat / 8) g)
    (hb' : (b.extend ihtWidths (key.hash c.el) g bit).store? b.elsBound c.fresh = some b') :
    Appended key c b b' := by
  obtain ⟨hroom, rfl⟩ := Hbin.store?_eq_some_iff.mp hb'
  have hlt := slotTag_lt hempty
  have hg : g < b.groups.length := by omega
  have htag := Hbin.extend_slotTag ihtWidths hg hbit (key.hash c.el)
  have hind := (Hbin.extend_slotInd ihtWidths hg hbit (key.hash c.el)).at
  refine ⟨rfl, rfl, rfl, fun i => Hbin.elAt_set hroom c.fresh i, fun y hy heq hmiss => ?_⟩
  have hslot : (8 * g + bit) / 8 = g := by omega
  have hfull : ∀ g', GroupFull b.groups g' →
      GroupFull (b.extend ihtWidths (key.hash c.el) g bit).groups g' :=
    fun g' hg' => hg'.overwritten htag (ne_empty_of_lt (h7Val_lt _))
  -- the slot that was taken is on the way
  have hno := hmiss (8 * g + bit) (by rw [hslot]; exact hpath.mono hfull)
  have hel : Hbin.elAt _ (b.elsBound % 2 ^ ihtWidths.ind) = some y := hy
  simp only [slotHits, htag.at, hind, decide_true, Bool.true_and, Option.any_some, hel, heq] at hno
  cases hno

section Step

variable {t p : Iht El (List Group)} {c : Call El}

/-- An INSERT appends if no slot leads to an equal element. -/
theorem ihtStep_appends (h : Probeable ihtWidths t.bin) (hfits : t.Fits) (hins : c.action = .insert)
    (hp : Returns (fun fuel => ihtPrepare (ihtOps key target) key fuel t .insert) p)
    (hmiss : ∀ g bit i, ¬ HitAt key.eq p.bin c.el g bit i)
    (hroom : p.bin.elsBound < p.bin.els.length) :
    ∃ t', Returns (fun fuel => ihtStep (ihtOps key target) key fuel t c)
        (⟨false, some p.bin.elsBound, none⟩, t') ∧
      t'.elsNum = ihtWidths.incr p.elsNum ∧ Appended key c p.bin t'.bin := by
  obtain ⟨p', hp', hprobe, hle⟩ := ihtPrepare_probeable key target h hfits .insert
  obtain rfl := hp.unique ⟨_, hp'⟩
  obtain ⟨o, ho, heffect⟩ := hprobe.do1 target.lawful key.eq p.elsNum (key.hash c.el) c.el .insert
    (show p.bin.groupsMask < ihtRebuildSize t from hle)
  cases heffect with
  | found _ hhit => exact absurd hhit (hmiss _ _ _)
  | absent haction _ => exact absurd rfl haction
  | @added g bit _ hbit hempty hpath =>
    obtain ⟨b', hb'⟩ : ∃ b', (p.bin.extend ihtWidths (key.hash c.el) g bit).store? p.bin.elsBound
        c.fresh = some b' := ⟨_, Hbin.store?_eq_some hroom⟩
    refine ⟨⟨ihtWidths.incr p.elsNum, b'⟩, (ihtStep_mono (ihtOps_mono key target) t c).returns
      (n := ihtRebuildSize t) ?_, rfl, Appended.of_added hbit hempty hpath hb'⟩
    · have hdo : (ihtOps key target).do1 (ihtRebuildSize t) p.elsNum p.bin (key.hash c.el) c.el .insert =
        some _ := ho
      rw [ihtStep, ihtPerform_eq, hins, hp' _ (Nat.le_refl _), Option.bind_some, hdo, Option.bind_some]
      simp only [Outcome.written, Bool.false_eq_true, if_false, hb', Option.map_some]
      rfl

/-- A DELETE that does not miss marks the position of some equal element. -/
theorem ihtStep_deletes (target : Target) (h : Probeable ihtWidths t.bin) (hdel : c.action = .delete)
    (hnot : ¬ MissesAll key.eq t.bin (key.hash c.el) c.el) :
    ∃ g bit i, HitAt key.eq t.bin c.el g bit i ∧
      Returns (fun fuel => ihtStep (ihtOps key target) key fuel t c)
        (⟨true, none, none⟩, ⟨ihtWidths.decr t.elsNum, t.bin.forget g bit i⟩) := by
  obtain ⟨o, ho, heffect⟩ := h.do1 target.lawful key.eq t.elsNum (key.hash c.el) c.el .delete
    (Nat.lt_succ_self t.bin.groupsMask)
  cases heffect with
  | found haction _ => exact absurd rfl haction
  | absent _ hmiss => exact absurd hmiss hnot
  | @removed g bit i hhit =>
    refine ⟨g, bit, i, hhit, (ihtStep_mono (ihtOps_mono key target) t c).returns
      (n := t.bin.groupsMask + 1) ?_⟩
    · have hdo : (ihtOps key target).do1 (t.bin.groupsMask + 1) t.elsNum t.bin (key.hash c.el) c.el
        .delete = some _ := ho
      rw [ihtStep, hdel, ihtPerform_of_ne (by decide), hdo, Option.bind_some]
      simp only [Outcome.written, Option.map_some]
      rfl

end Step

/-! ## Tables of words -/

def word (i : Nat) : BitVec 64 := BitVec.ofNat 64 i

theorem word_inj {i j : Nat} (hi : i < 2 ^ 64) (hj : j < 2 ^ 64) (h : word i = word j) : i = j := by
  have heq := congrArg BitVec.toNat h
  rwa [word, word, BitVec.toNat_ofNat, BitVec.toNat_ofNat, Nat.mod_eq_of_lt hi, Nat.mod_eq_of_lt hj]
    at heq

/-- The table has used the positions below `bound`, the first `dead` of them are marked as
    deleted, and position `i` holds the word `content i`. -/
structure Holds (content : Nat → Nat) (bound dead num k : Nat) (t : Iht (BitVec 64) (List Group)) :
    Prop where
  probe : Probeable ihtWidths t.bin
  fits : t.Fits
  elsBound : t.bin.elsBound = bound
  elsNum : t.elsNum = num
  groups : t.bin.numGroups = 2 ^ k
  els : ∀ i < bound, t.bin.elAt i = some (word (content i))
  deleted : ∀ i, t.bin.deleted.test i = decide (i < dead)

section Words

variable {content : Nat → Nat} {bound dead num k : Nat} {t : Iht (BitVec 64) (List Group)}

theorem Holds.elsSize (h : Holds content bound dead num k t) : t.bin.elsSize = 4 * 2 ^ k := by
  rw [Hbin.elsSize, h.groups]

theorem Holds.full_iff (h : Holds content bound dead num k t) :
    ihtFull t = true ↔ 4 * 2 ^ k ≤ bound + 1 := by
  rw [ihtFull_eq h.probe.small, decide_eq_true_iff, h.elsSize, h.elsBound]

theorem Holds.congr (h : Holds content bound dead num k t) {content' : Nat → Nat}
    (heq : ∀ i < bound, content i = content' i) : Holds content' bound dead num k t :=
  { h with els := fun i hi => by rw [h.els i hi, heq i hi] }

/-- A slot leads to a word only at a position in the range of an index. -/
theorem Holds.hit (h : Holds content bound dead num k t) {m g bit i : Nat} (hm : m < 2 ^ 64)
    (hcontent : ∀ i < bound, content i < 2 ^ 64)
    (hhit : HitAt identityKey.eq t.bin (word m) g bit i) : i < bound ∧ i < 2 ^ 32 ∧ content i = m := by
  obtain ⟨tag, htag, hlt⟩ := hhit.tag
  obtain ⟨j, hj, hrange, hind⟩ := h.probe.stored _ _ htag hlt
  rw [hhit.ind, Option.some.injEq] at hind
  subst hind
  rw [h.elsBound] at hj
  obtain ⟨x, hx, heq⟩ := hhit.equal
  rw [h.els i hj, Option.some.injEq] at hx
  subst hx
  exact ⟨hj, hrange, word_inj (hcontent i hj) hm (beq_iff_eq.mp heq)⟩

theorem Holds.misses (h : Holds content bound dead num k t) {m : Nat} (hm : m < 2 ^ 64)
    (hcontent : ∀ i < bound, content i < 2 ^ 64) (hother : ∀ i < bound, i < 2 ^ 32 → content i ≠ m) :
    ∀ g bit i, ¬ HitAt identityKey.eq t.bin (word m) g bit i := by
  intro g bit i hhit
  obtain ⟨hi, hrange, heq⟩ := h.hit hm hcontent hhit
  exact hother i hi hrange heq

/-- An INSERT of a word that no slot leads to. -/
theorem Holds.append (h : Holds content bound dead num k t) (target : Target)
    (hroom : bound + 1 < 4 * 2 ^ k) (hnum : num + 1 < 2 ^ 64)
    (hmiss : ∀ g bit i, ¬ HitAt identityKey.eq t.bin (word (content bound)) g bit i) :
    ∃ t', Returns (fun fuel => ihtStep (ihtOps identityKey target) identityKey fuel t
        (Call.plain .insert (word (content bound)))) (⟨false, some bound, none⟩, t') ∧
      Holds content (bound + 1) dead (num + 1) k t' ∧
      Appended identityKey (Call.plain .insert (word (content bound))) t.bin t'.bin := by
  have hfull : ¬ ihtFull t = true := by
    rw [h.full_iff]
    omega
  obtain ⟨t', hstep, hcount, happend⟩ := ihtStep_appends (c := Call.plain .insert (word (content bound)))
    h.probe h.fits rfl ⟨0, fun _ _ => ihtPrepare_same fun hf => hfull hf.2⟩ hmiss
    (by rw [h.probe.els_length, h.elsSize, h.elsBound]; omega)
  obtain ⟨fuel, hfuel⟩ := hstep.exists_some
  obtain ⟨p, o, -, hprobe, heffect, hwritten, -⟩ := ihtStep_effect h.probe h.fits hfuel
  have hgroups : t'.bin.numGroups = t.bin.numGroups := congrArg (· + 1) happend.groupsMask
  refine ⟨t', ?_, ⟨(heffect.written hprobe hwritten).1, h.fits.of_groupsMask happend.groupsMask, ?_, ?_,
    ?_, ?_, ?_⟩, happend⟩
  · rw [← h.elsBound] at hstep ⊢
    exact hstep
  · rw [happend.elsBound, h.elsBound]
  · rw [hcount, h.elsNum]
    exact Nat.mod_eq_of_lt hnum
  · rw [hgroups, h.groups]
  · intro i hi
    rw [happend.elAt, h.elsBound]
    split
    · next heq => rw [heq]; rfl
    · exact h.els i (by omega)
  · intro i
    rw [happend.deleted, h.deleted]

/-- INSERTs of `m` words, each of them new.  `Q` is kept by such an INSERT. -/
theorem Holds.fill (target : Target) {Q : Nat → Iht (BitVec 64) (List Group) → Prop}
    (hQ : ∀ {n t c fuel i t' b m}, Q n t → ¬ ihtFull t = true → c.Ok identityKey →
      c.action = .insert →
      ihtStep (ihtOps identityKey target) identityKey fuel t c = some (⟨false, i, none⟩, t') →
      Holds content b dead m k t' → Q (n + 1) t')
    (h : Holds content bound dead num k t) {n : Nat} (hq : Q n t) {m : Nat}
    (hroom : bound + m < 4 * 2 ^ k) (hnum : num + m < 2 ^ 64)
    (hcontent : ∀ i < bound + m, content i < 2 ^ 64)
    (hnew : ∀ j < bound + m, bound ≤ j → ∀ i < j, i < 2 ^ 32 → content i ≠ content j) :
    ∃ t', Q (n + m) t' ∧ Holds content (bound + m) dead (num + m) k t' := by
  induction m with
  | zero => exact ⟨t, hq, h⟩
  | succ m ih =>
    obtain ⟨t', hq', h'⟩ := ih (by omega) (by omega) (fun i hi => hcontent i (by omega))
      (fun j hj => hnew j (by omega))
    have hfull : ¬ ihtFull t' = true := by
      rw [h'.full_iff]
      omega
    obtain ⟨t'', hstep, h'', -⟩ := h'.append target (by omega) (by omega)
      (h'.misses (hcontent _ (by omega)) (fun i hi => hcontent i (by omega))
        (hnew (bound + m) (by omega) (by omega)))
    obtain ⟨fuel, hfuel⟩ := hstep.exists_some
    exact ⟨t'', hQ hq' hfull (Call.plain_ok identityKey_lawful _ _) rfl hfuel h'', h''⟩

theorem IhtStates.fill (target : Target) (h : Holds content bound dead num k t)
    (hstate : IhtStates (ihtOps identityKey target) identityKey Iht.Fits t) (m : Nat)
    (hroom : bound + m < 4 * 2 ^ k) (hnum : num + m < 2 ^ 64)
    (hcontent : ∀ i < bound + m, content i < 2 ^ 64)
    (hnew : ∀ j < bound + m, bound ≤ j → ∀ i < j, i < 2 ^ 32 → content i ≠ content j) :
    ∃ t', IhtStates (ihtOps identityKey target) identityKey Iht.Fits t' ∧
      Holds content (bound + m) dead (num + m) k t' := by
  refine h.fill target (Q := fun _ => IhtStates (ihtOps identityKey target) identityKey Iht.Fits)
    (n := 0) ?_ hstate hroom hnum hcontent hnew
  intro _ t c fuel i t' b m hq _ hc _ hstep h'
  exact hq.call hc hstep h'.fits

/-- A DELETE of a word that some index leads to marks the position of that index. -/
theorem Holds.delete (h : Holds content bound dead num k t) (target : Target) (dead' : Nat) {m : Nat}
    (hm : m < 2 ^ 64) (hcontent : ∀ i < bound, content i < 2 ^ 64)
    (hnot : ¬ MissesAll identityKey.eq t.bin (identityKey.hash (word m)) (word m))
    (hpos : ∀ i < bound, i < 2 ^ 32 → content i = m → ∀ j, (j = i ∨ j < dead) ↔ j < dead') :
    ∃ t', Returns (fun fuel => ihtStep (ihtOps identityKey target) identityKey fuel t
        (Call.plain .delete (word m))) (⟨true, none, none⟩, t') ∧
      Holds content bound dead' (ihtWidths.decr num) k t' := by
  obtain ⟨g, bit, i, hhit, hstep⟩ := ihtStep_deletes (c := Call.plain .delete (word m)) target h.probe
    rfl hnot
  obtain ⟨fuel, hfuel⟩ := hstep.exists_some
  obtain ⟨p, o, -, hprobe, heffect, hwritten, -⟩ := ihtStep_effect h.probe h.fits hfuel
  obtain ⟨hi, hrange, heq⟩ := h.hit hm hcontent hhit
  refine ⟨_, hstep, (heffect.written hprobe hwritten).1, h.fits.of_groupsMask rfl, h.elsBound, ?_,
    h.groups, h.els, fun j => ?_⟩
  · rw [h.elsNum]
  · have hbits := h.probe.bits
    have hlt : i < 8 * t.bin.deleted.length := by
      rw [h.elsBound] at hbits
      omega
    have htest : (t.bin.forget g bit i).deleted.test j = (decide (j = i) || t.bin.deleted.test j) :=
      Bitmap.test_mark hlt j
    rw [htest, h.deleted, ← Bool.decide_or, decide_eq_decide]
    exact hpos i hi hrange heq j

/-- A new table. -/
theorem Holds.create (target : Target) (content : Nat → Nat) (hk : 2 ^ k * IHT_GROUP_BYTES < 2 ^ 64) :
    Holds content 0 0 0 k ⟨0, ihtAllocBin (ihtOps identityKey target) (8 * 2 ^ k)⟩ := by
  have hgroups := ihtAllocBin_numGroups (ihtOps identityKey target) k
  have hk60 : k ≤ 60 := by
    by_contra hlt
    have hpow := Nat.pow_le_pow_right (show 0 < 2 by decide) (show 61 ≤ k by omega)
    unfold IHT_GROUP_BYTES at hk
    omega
  refine ⟨ihtAllocBin_probeable target identityKey hk60, ?_, rfl, rfl, hgroups,
    fun i hi => absurd hi (Nat.not_lt_zero i), fun i => ?_⟩
  · unfold Iht.Fits
    rwa [hgroups]
  · rw [decide_eq_false (Nat.not_lt_zero i)]
    exact Bitmap.test_zeros _ _

end Words

end IndexedHash
