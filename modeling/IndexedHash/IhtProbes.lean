import Mathlib.Tactic.Common
import IndexedHash.Probeable
import IndexedHash.IhtRefinement

/-!
# Every probe of `ihtab.h` ends

Nothing bounds the cyclic walk of `iht_do_1` but an empty slot.  Deleted tags never
become empty again except by a rebuild, so this rests on a count over whole histories:
a used position has used up one slot, and `els_bound` stays within the dense array,
which has half as many places as there are slots.

The count holds in every state that calls can reach (`IhtReachable`), for any `Hash` and
`Eq` and beyond the range of the stored indices, and at every point of a rebuild.
-/

namespace IndexedHash

open Loop Probing

variable {El : Type} {key : Key El} {target : Target}

/-- `IHT_GROUP_SIZE * (1 + sizeof (iht_ind_t))` -/
def IHT_GROUP_BYTES : Nat := 40

/-- The groups take a number of bytes that `aligned_alloc` can be asked for. -/
def Iht.Fits {G : Type} (t : Iht El G) : Prop := t.bin.numGroups * IHT_GROUP_BYTES < 2 ^ 64

theorem Iht.Fits.of_groupsMask {G : Type} {t t' : Iht El G} (h : t.Fits)
    (heq : t'.bin.groupsMask = t.bin.groupsMask) : t'.Fits := by
  unfold Iht.Fits Hbin.numGroups at h ⊢
  rwa [heq]

inductive IhtReachable (ops : BinOps El (List Group)) (key : Key El) :
    Iht El (List Group) → Prop where
  | create {fuel minSize t} : ihtCreate ops fuel minSize = some t → t.Fits → IhtReachable ops key t
  | call {fuel t c r t'} : IhtReachable ops key t → ihtStep ops key fuel t c = some (r, t') →
      t'.Fits → IhtReachable ops key t'

inductive IhtStates (ops : BinOps El (List Group)) (key : Key El)
    (P : Iht El (List Group) → Prop) : Iht El (List Group) → Prop where
  | create {fuel minSize t} : ihtCreate ops fuel minSize = some t → P t → IhtStates ops key P t
  | call {fuel t c r t'} : IhtStates ops key P t → c.Ok key →
      ihtStep ops key fuel t c = some (r, t') → P t' → IhtStates ops key P t'

theorem IhtStates.holds {ops : BinOps El (List Group)} {P : Iht El (List Group) → Prop}
    {t : Iht El (List Group)} (h : IhtStates ops key P t) : P t := by
  cases h with
  | create _ hP => exact hP
  | call _ _ _ hP => exact hP

theorem IhtStates.imp {ops : BinOps El (List Group)} {P Q : Iht El (List Group) → Prop}
    {t : Iht El (List Group)} (hPQ : ∀ t, P t → Q t) (h : IhtStates ops key P t) :
    IhtStates ops key Q t := by
  induction h with
  | create hcreate hP => exact IhtStates.create hcreate (hPQ _ hP)
  | call _ hc hstep hP ih => exact ih.call hc hstep (hPQ _ hP)

theorem IhtStates.reachable {ops : BinOps El (List Group)} {t : Iht El (List Group)}
    (h : IhtStates ops key Iht.Fits t) : IhtReachable ops key t := by
  induction h with
  | create hcreate hfits => exact IhtReachable.create hcreate hfits
  | call _ _ hstep hfits ih => exact ih.call hstep hfits

theorem IhtStates.run {ops : BinOps El (List Group)} {P : Iht El (List Group) → Prop}
    {t t' : Iht El (List Group)} (h : IhtStates ops key P t) {fuel : Nat} {calls : List (Call El)}
    {rs : List (Reply Nat El)} (hcalls : ∀ c ∈ calls, c.Ok key)
    (hrun : ihtRun ops key fuel t calls = some (rs, t'))
    (hP : ∀ pre s, pre <+: calls → ihtRun ops key fuel t pre = some s → P s.2) :
    IhtStates ops key P t' := by
  induction calls using List.reverseRecOn generalizing rs t' with
  | nil =>
    obtain ⟨-, rfl⟩ := Prod.mk.inj (Option.some.inj hrun)
    exact h
  | append_singleton calls c ih =>
    have hlast := hP _ _ (List.prefix_refl _) hrun
    rw [ihtRun, runCalls_concat] at hrun
    obtain ⟨⟨rs₁, t₁⟩, hrun₁, hmap⟩ := Option.bind_eq_some_iff.mp hrun
    obtain ⟨⟨r, t₂⟩, hstep, heq⟩ := Option.map_eq_some_iff.mp hmap
    obtain ⟨-, rfl⟩ := Prod.mk.inj heq
    obtain ⟨hcalls, hc⟩ := List.forall_mem_append.mp hcalls
    have h₁ := ih hcalls hrun₁ fun pre s hpre => hP pre s (hpre.trans (List.prefix_append _ _))
    exact h₁.call (hc c (List.mem_singleton_self c)) hstep hlast

theorem IhtStates.returns {ops : BinOps El (List Group)} {P : Iht El (List Group) → Prop}
    {t t' : Iht El (List Group)} {c : Call El} {r : Reply Nat El} (h : IhtStates ops key P t)
    (hc : c.Ok key) (hstep : Returns (fun fuel => ihtStep ops key fuel t c) (r, t')) (hP : P t') :
    IhtStates ops key P t' := by
  obtain ⟨fuel, hfuel⟩ := hstep.exists_some
  exact h.call hc hfuel hP

/-! ## Allocated bins -/

theorem ihtAllocBin_probeable (target : Target) (key : Key El) {k : Nat} (hk : k ≤ 60) :
    Probeable ihtWidths (ihtAllocBin (ihtOps key target) (8 * 2 ^ k)) := by
  have hgroups := ihtAllocBin_numGroups (ihtOps key target) k
  have hels := ihtAllocBin_els_length (ihtOps key target) k
  have hsize := ihtAllocBin_elsSize (ihtOps key target) k
  have hpos : 0 < 2 ^ k := Nat.two_pow_pos k
  have hle := two_pow_le_60 hk
  refine Probeable.of_empty hgroups (show 8 * 2 ^ k < 2 ^ 64 by omega) rfl (by rw [hels, hsize]) ?_ ?_
  · rw [hsize]
    simp only [ihtAllocBin, Bitmap.length_zeros, LF_FACTOR, LF_DIVISOR]
    omega
  · have hnum : 8 * 2 ^ k / GROUP_SIZE = 2 ^ k := by
      simp only [GROUP_SIZE]
      omega
    rw [hgroups]
    simp only [ihtAllocBin, hnum]
    exact slotsOk_alloc _

section Rebuild

variable {t : Iht El (List Group)}

/-- The size a rebuild allocates: as before, or twice as much. -/
theorem ihtRebuildSize_cases (h : Probeable ihtWidths t.bin) (hfits : t.Fits) :
    ∃ k ≤ 60, ihtRebuildSize t = 8 * 2 ^ k ∧ t.bin.numGroups ≤ 2 ^ k ∧ 2 ^ k ≤ 2 * t.bin.numGroups := by
  obtain ⟨k, -, hk⟩ := h.pow2
  unfold Iht.Fits IHT_GROUP_BYTES at hfits
  have hindexes := Hbin.indexesSize_eq h.small
  have hpos : 0 < 2 ^ k := Nat.two_pow_pos k
  have hk59 : k ≤ 59 := by
    by_contra hlt
    have := Nat.pow_le_pow_right (show 0 < 2 by decide) (show 60 ≤ k by omega)
    omega
  unfold ihtRebuildSize
  simp only [hindexes, hk]
  split
  · have hsucc : 2 ^ (k + 1) = 2 ^ k * 2 := Nat.pow_succ 2 k
    have hle := Nat.pow_le_pow_right (show 0 < 2 by decide) hk59
    exact ⟨k + 1, by omega, by omega, by omega, by omega⟩
  · exact ⟨k, by omega, rfl, Nat.le_refl _, by omega⟩

/-- After `i` passes of the rebuild loop at most `i` positions of the new bin are used. -/
structure Refilling (t : Iht El (List Group)) (i : Nat) (rb : Hbin El (List Group)) : Prop where
  bin : Probeable ihtWidths rb
  bound : rb.elsBound ≤ i
  size : ihtRebuildSize t = 8 * rb.numGroups

theorem Refilling.pass (key : Key El) (target : Target) (h : Probeable ihtWidths t.bin) {i : Nat}
    (hi : i < t.bin.elsBound) {s : Nat × Hbin El (List Group)} (hs : Refilling t i s.2)
    (hsize : t.bin.numGroups ≤ s.2.numGroups) {fuel : Nat} (hfuel : s.2.groupsMask < fuel) :
    ∃ s', ihtReinsert (ihtOps key target) key fuel t.bin s i = some s' ∧
      Refilling t (i + 1) s'.2 := by
  unfold ihtReinsert
  rw [Bitmap.test?_eq_some (Nat.lt_of_lt_of_le hi h.bits), Option.bind_some]
  by_cases hdel : t.bin.deleted.test i = true
  · rw [if_pos hdel]
    exact ⟨s, rfl, hs.bin, Nat.le_succ_of_le hs.bound, hs.size⟩
  · obtain ⟨x, hx⟩ := h.initialised i hi
    have hroom : s.2.elsBound < s.2.els.length := by
      have hbound := h.bound
      have hle := hs.bound
      rw [hs.bin.els_length, Hbin.elsSize]
      rw [Hbin.elsSize] at hbound
      omega
    obtain ⟨s', hs'⟩ := hs.bin.reinsert target.lawful key.eq hroom s.1 (key.hash x) x hfuel
    obtain ⟨r, he, hb', -⟩ := hs.bin.reinsert_effect target.lawful hs'
    obtain ⟨hprobe, hmask, hbound⟩ := he.written hs.bin hb'
    rw [if_neg hdel, hx, Option.bind_some]
    refine ⟨s', hs', hprobe, ?_, ?_⟩
    · rw [hbound]
      exact Nat.add_le_add hs.bound (insertions_le _ _)
    · rw [hs.size, Hbin.numGroups, Hbin.numGroups, hmask]

/-- The rebuild, up to its pass `i`. -/
theorem ihtRebuild_upTo (key : Key El) (target : Target) (h : Probeable ihtWidths t.bin)
    (hfits : t.Fits) {i : Nat} (hi : i ≤ t.bin.elsBound) {fuel : Nat}
    (hfuel : ihtRebuildSize t ≤ fuel) :
    ∃ s, (List.range i).foldlM (ihtReinsert (ihtOps key target) key fuel t.bin)
      (t.elsNum, ihtAllocBin (ihtOps key target) (ihtRebuildSize t)) = some s ∧
      Refilling t i s.2 := by
  obtain ⟨k, hk, hsize, hle, -⟩ := ihtRebuildSize_cases h hfits
  have hpos : 0 < 2 ^ k := Nat.two_pow_pos k
  refine foldlM_range_spec (fun i (s : Nat × Hbin El (List Group)) => Refilling t i s.2) i ?_ ?_
  · rw [hsize]
    refine ⟨ihtAllocBin_probeable target key hk, Nat.le_refl 0, ?_⟩
    rw [hsize, ihtAllocBin_numGroups]
  · intro j hj s hs
    have hnum : s.2.numGroups = 2 ^ k := by
      have := hs.size
      omega
    refine hs.pass key target h (by omega) (by omega) ?_
    rw [Hbin.numGroups] at hnum
    omega

theorem ihtRebuild_probeable (key : Key El) (target : Target) (h : Probeable ihtWidths t.bin)
    (hfits : t.Fits) {fuel : Nat} (hfuel : ihtRebuildSize t ≤ fuel) :
    ∃ t', ihtRebuild (ihtOps key target) key fuel t = some t' ∧
      Refilling t t.bin.elsBound t'.bin := by
  obtain ⟨s, hs, hfill⟩ := ihtRebuild_upTo key target h hfits (Nat.le_refl _) hfuel
  exact ⟨{ elsNum := t.elsNum, bin := s.2 }, by rw [ihtRebuild, hs]; rfl, hfill⟩

end Rebuild

/-! ## Calls -/

theorem ihtOps_mono (key : Key El) (target : Target) : (ihtOps key target).Mono :=
  groupDo1_mono ihtWidths target.ops key.eq

/-- The table on which `iht_perform` calls `iht_do_1`. -/
def ihtPrepare {G : Type} (ops : BinOps El G) (key : Key El) (fuel : Nat) (t : Iht El G)
    (action : Action) : Option (Iht El G) :=
  if action = .insert ∧ ihtFull t then ihtRebuild ops key fuel t else some t

theorem ihtPrepare_mono {G : Type} {ops : BinOps El G} (hmono : ops.Mono) (key : Key El)
    (t : Iht El G) (action : Action) : Mono fun fuel => ihtPrepare ops key fuel t action :=
  Mono.ite (ihtRebuild_mono hmono t) (Mono.const _)

theorem ihtPerform_eq {G : Type} (ops : BinOps El G) (key : Key El) (fuel : Nat) (t : Iht El G)
    (el : El) (action : Action) :
    ihtPerform ops key fuel t el action = (ihtPrepare ops key fuel t action).bind fun t =>
      ops.do1 fuel t.elsNum t.bin (key.hash el) el action := rfl

/-- Without a rebuild `iht_do_1` works on the table as it is. -/
theorem ihtPrepare_same {G : Type} {ops : BinOps El G} {fuel : Nat} {t : Iht El G} {action : Action}
    (h : ¬ (action = .insert ∧ ihtFull t = true)) : ihtPrepare ops key fuel t action = some t :=
  if_neg h

theorem ihtPerform_of_ne {G : Type} {ops : BinOps El G} {fuel : Nat} {t : Iht El G} {el : El}
    {action : Action} (h : action ≠ .insert) :
    ihtPerform ops key fuel t el action = ops.do1 fuel t.elsNum t.bin (key.hash el) el action := by
  rw [ihtPerform_eq, ihtPrepare_same fun hf => h hf.1, Option.bind_some]

/-- The parts of a call. -/
theorem ihtStep_inv {G : Type} {ops : BinOps El G} {fuel : Nat} {t t' : Iht El G} {c : Call El}
    {r : Reply Nat El} (hstep : ihtStep ops key fuel t c = some (r, t')) :
    ∃ p o, ihtPrepare ops key fuel t c.action = some p ∧
      ops.do1 fuel p.elsNum p.bin (key.hash c.el) c.el c.action = some o ∧
      o.written c = some t'.bin ∧ t'.elsNum = o.elsNum ∧ r = ⟨o.found, o.res, o.value⟩ := by
  obtain ⟨o, ho, hmap⟩ := Option.bind_eq_some_iff.mp hstep
  obtain ⟨b', hb', heq⟩ := Option.map_eq_some_iff.mp hmap
  obtain ⟨rfl, rfl⟩ := Prod.mk.inj heq
  rw [ihtPerform_eq] at ho
  obtain ⟨p, hp, hdo⟩ := Option.bind_eq_some_iff.mp ho
  exact ⟨p, o, hp, hdo, hb', rfl, rfl⟩

section Call

variable {t : Iht El (List Group)}

theorem ihtPrepare_probeable (key : Key El) (target : Target) (h : Probeable ihtWidths t.bin)
    (hfits : t.Fits) (action : Action) :
    ∃ t', (∀ fuel, ihtRebuildSize t ≤ fuel →
        ihtPrepare (ihtOps key target) key fuel t action = some t') ∧
      Probeable ihtWidths t'.bin ∧ t'.bin.numGroups ≤ ihtRebuildSize t := by
  obtain ⟨k, -, hsize, hle, -⟩ := ihtRebuildSize_cases h hfits
  unfold ihtPrepare
  split
  · obtain ⟨t', ht', hfill⟩ := ihtRebuild_probeable key target h hfits (Nat.le_refl _)
    refine ⟨t', fun fuel hfuel => ?_, hfill.bin, ?_⟩
    · exact ihtRebuild_mono (ihtOps_mono key target) t hfuel ht'
    · have := hfill.size
      omega
  · exact ⟨t, fun _ _ => rfl, h, by omega⟩

theorem ihtPerform_returns (key : Key El) (target : Target) (h : Probeable ihtWidths t.bin)
    (hfits : t.Fits) (el : El) (action : Action) :
    ∃ r, Returns (fun fuel => ihtPerform (ihtOps key target) key fuel t el action) r := by
  obtain ⟨t', ht', hprobe, hle⟩ := ihtPrepare_probeable key target h hfits action
  obtain ⟨r, hr, -⟩ := hprobe.do1 target.lawful key.eq t'.elsNum (key.hash el) el action
    (show t'.bin.groupsMask < ihtRebuildSize t from hle)
  have hperform : ihtPerform (ihtOps key target) key (ihtRebuildSize t) t el action = some r := by
    rw [ihtPerform_eq, ht' _ (Nat.le_refl _), Option.bind_some]
    exact hr
  exact ⟨r, (ihtPerform_mono (ihtOps_mono key target) t el action).returns hperform⟩

/-- What a call does, whatever fuel it returns on. -/
theorem ihtStep_effect (h : Probeable ihtWidths t.bin) (hfits : t.Fits) {fuel : Nat} {c : Call El}
    {r : Reply Nat El} {t' : Iht El (List Group)}
    (hstep : ihtStep (ihtOps key target) key fuel t c = some (r, t')) :
    ∃ p o, ihtPrepare (ihtOps key target) key fuel t c.action = some p ∧
      Probeable ihtWidths p.bin ∧
      Effect ihtWidths key.eq p.elsNum p.bin (key.hash c.el) c.el c.action o ∧
      o.written c = some t'.bin ∧ t'.elsNum = o.elsNum ∧ r = ⟨o.found, o.res, o.value⟩ := by
  obtain ⟨p, o, hp, hdo, hreply⟩ := ihtStep_inv hstep
  obtain ⟨p', hp', hprobe, -⟩ := ihtPrepare_probeable key target h hfits c.action
  have hmono := ihtPrepare_mono (ihtOps_mono key target) key t c.action
  obtain rfl := hmono.eq_of_some hp (hp' _ (Nat.le_refl _))
  exact ⟨p, o, hp, hprobe, hprobe.do1_effect target.lawful hdo, hreply⟩

theorem IhtReachable.probeable (h : IhtReachable (ihtOps key target) key t) :
    Probeable ihtWidths t.bin ∧ t.Fits := by
  induction h with
  | create hcreate hfits =>
    obtain ⟨size, hsize, rfl⟩ := Option.map_eq_some_iff.mp hcreate
    obtain ⟨k, hk, rfl⟩ := ihtCreate_size hsize
    exact ⟨ihtAllocBin_probeable target key hk, hfits⟩
  | call _ hstep hfits ih =>
    obtain ⟨p, o, -, hprobe, heffect, hwritten, -⟩ := ihtStep_effect ih.1 ih.2 hstep
    exact ⟨(heffect.written hprobe hwritten).1, hfits⟩

/-- A run through tables that fit. -/
theorem IhtReachable.run {ops : BinOps El (List Group)} (h : IhtReachable ops key t) {fuel : Nat}
    {calls : List (Call El)} {rs : List (Reply Nat El)} {t' : Iht El (List Group)}
    (hrun : ihtRun ops key fuel t calls = some (rs, t'))
    (hfits : ∀ n s, ihtRun ops key fuel t (calls.take n) = some s → s.2.Fits) :
    IhtReachable ops key t' := by
  have hinit : ∀ pre s, pre <+: calls → ihtRun ops key fuel t pre = some s → s.2.Fits := by
    intro pre s hpre hs
    rw [List.prefix_iff_eq_take.mp hpre] at hs
    exact hfits _ s hs
  refine runCalls_invariant (fun t => t.Fits → IhtReachable ops key t) Iht.Fits ?_ (fun _ => h) hrun
    hinit (hinit calls _ (List.prefix_refl _) hrun)
  intro t c r t' hreach hfits hstep hfits'
  exact (hreach hfits).call hstep hfits'

end Call

/-! ## The count -/

/-- At least half of the slots are empty, and `do_1` returns within `groups_mask + 1`
    passes of its loop. -/
structure ProbesEnd (ops : BinOps El (List Group)) (b : Hbin El (List Group)) : Prop where
  half_empty : 8 * b.numGroups ≤
    2 * slotCount (8 * b.numGroups) (fun s => slotTag b.groups s = some EMPTY_H7)
  returns : ∀ elsNum hash el action fuel, b.groupsMask < fuel →
    ∃ r, ops.do1 fuel elsNum b hash el action = some r

theorem Probeable.probesEnd {b : Hbin El (List Group)} (h : Probeable ihtWidths b) (key : Key El)
    (target : Target) : ProbesEnd (ihtOps key target) b := by
  constructor
  · have hcount := slotCount_add_not (8 * b.numGroups) fun s => slotTag b.groups s = some EMPTY_H7
    have hused : slotCount (8 * b.numGroups) (fun s => ¬ slotTag b.groups s = some EMPTY_H7) =
      b.elsBound := h.used
    have hroom := h.room
    omega
  · intro elsNum hash el action fuel hfuel
    obtain ⟨r, hr, -⟩ := h.do1 target.lawful key.eq elsNum hash el action hfuel
    exact ⟨r, hr⟩

/-- In every reachable state and at every point of a rebuild, a probe ends within as
    many passes as there are groups, and so every call returns. -/
theorem iht_probes_end (key : Key El) (target : Target) {t : Iht El (List Group)}
    (h : IhtReachable (ihtOps key target) key t) :
    ProbesEnd (ihtOps key target) t.bin ∧
    (∀ i ≤ t.bin.elsBound, ∀ fuel, ihtRebuildSize t ≤ fuel →
      ∃ s, (List.range i).foldlM (ihtReinsert (ihtOps key target) key fuel t.bin)
          (t.elsNum, ihtAllocBin (ihtOps key target) (ihtRebuildSize t)) = some s ∧
        ProbesEnd (ihtOps key target) s.2) ∧
    ∀ el action, ∃ r, Returns (fun fuel => ihtPerform (ihtOps key target) key fuel t el action) r := by
  obtain ⟨hprobe, hfits⟩ := h.probeable
  refine ⟨hprobe.probesEnd key target, ?_, fun el action => ?_⟩
  · intro i hi fuel hfuel
    obtain ⟨s, hs, hfill⟩ := ihtRebuild_upTo key target hprobe hfits hi hfuel
    exact ⟨s, hs, hfill.bin.probesEnd key target⟩
  · exact ihtPerform_returns key target hprobe hfits el action

def churnSample : List (Call (BitVec 64)) :=
  plainCalls [(.insert, 5#64), (.insert, 6#64), (.delete, 5#64)]

theorem churnSample_reachable :
    ∃ t, IhtReachable (ihtOps identityKey .swar) identityKey t ∧ (t.elsNum, t.bin.elsBound) = (1, 2) := by
  have hstart : IhtReachable (ihtOps identityKey .swar) identityKey
      (sampleTable (ihtOps identityKey .swar)) :=
    IhtReachable.create (show ihtCreate _ 1 4 = _ from rfl) (by unfold Iht.Fits; decide)
  have hrun : (ihtRun (ihtOps identityKey .swar) identityKey 1
      (sampleTable (ihtOps identityKey .swar)) churnSample).map
      (fun s => (s.2.elsNum, s.2.bin.elsBound)) = some (1, 2) := by
    decide +kernel
  obtain ⟨⟨rs, t⟩, hrun, heq⟩ := Option.map_eq_some_iff.mp hrun
  refine ⟨t, hstart.run hrun fun n s hs => ?_, heq⟩
  have hmask : (ihtRun (ihtOps identityKey .swar) identityKey 1
      (sampleTable (ihtOps identityKey .swar)) (churnSample.take n)).map
      (fun s => s.2.bin.groupsMask) = some 0 := by
    rcases n with _ | _ | _ | n
    · decide +kernel
    · decide +kernel
    · decide +kernel
    · rw [List.take_of_length_le (by simp [churnSample, plainCalls])]
      decide +kernel
  rw [hs, Option.map_some, Option.some.injEq] at hmask
  unfold Iht.Fits
  rw [Hbin.numGroups, hmask]
  decide

theorem iht_probes_end_churn :
    ∃ t, IhtReachable (ihtOps identityKey .swar) identityKey t ∧
      (t.elsNum, t.bin.elsBound) = (1, 2) ∧
      ProbesEnd (ihtOps identityKey .swar) t.bin ∧
      ∃ r, Returns (fun fuel => ihtPerform (ihtOps identityKey .swar) identityKey fuel t 5#64 .find) r := by
  obtain ⟨t, ht, heq⟩ := churnSample_reachable
  obtain ⟨hends, -, hreturns⟩ := iht_probes_end identityKey .swar ht
  exact ⟨t, ht, heq, hends, hreturns 5#64 .find⟩

end IndexedHash
