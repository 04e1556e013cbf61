import Mathlib.Tactic.Common
import IndexedHash.Truncation

/-!
# How far apart rebuilds are

An INSERT rebuilds the bin when `els_bound`, which also counts deleted positions, has
reached one less than the capacity.  `iht_rebuild` takes twice the capacity if `els_num`,
which does not count them, is at least half of it.  As long as `els_num` is the number of
live positions, a rebuild leaves half of the new capacity free, and nothing but INSERTs
of new elements uses it up (`iht_rebuilds_spaced`).

It is that number while the positions fit into stored indices.  Beyond, a DELETE may mark
the position of an element that is deleted already, so that `els_num` falls behind and
the rebuilt bin has less room than the count promises (`iht_rebuilds_crowded`).
-/

namespace IndexedHash

open Loop KeyedList Probing

variable {El : Type} {key : Key El} {target : Target}

/-! ## From one rebuild to the next -/

/-- An INSERT has rebuilt `t₁` to `p`, and no call since has rebuilt the bin: the number of
    new elements inserted since, and the state. -/
inductive SinceRebuild (ops : BinOps El (List Group)) (key : Key El) (t₁ p : Iht El (List Group)) :
    Nat → Iht El (List Group) → Prop where
  | rebuild {fuel c r t} : c.Ok key → c.action = .insert → ihtFull t₁ = true →
      ihtRebuild ops key fuel t₁ = some p → ihtStep ops key fuel t₁ c = some (r, t) →
      SinceRebuild ops key t₁ p (insertions c.action r.found) t
  | call {fuel n t c r t'} : SinceRebuild ops key t₁ p n t → c.Ok key →
      ¬ (c.action = .insert ∧ ihtFull t = true) → ihtStep ops key fuel t c = some (r, t') →
      SinceRebuild ops key t₁ p (n + insertions c.action r.found) t'

section Segment

variable {t₁ p t : Iht El (List Group)} {n : Nat}

theorem SinceRebuild.rebuilt {ops : BinOps El (List Group)} (h : SinceRebuild ops key t₁ p n t) :
    ∃ fuel, ihtRebuild ops key fuel t₁ = some p := by
  induction h with
  | rebuild _ _ _ hp _ => exact ⟨_, hp⟩
  | call _ _ _ _ ih => exact ih

/-- Only INSERTs of new elements use up positions. -/
theorem SinceRebuild.count (h : SinceRebuild (ihtOps key target) key t₁ p n t)
    (hprobe : Probeable ihtWidths p.bin) :
    Probeable ihtWidths t.bin ∧ t.bin.groupsMask = p.bin.groupsMask ∧
      t.bin.elsBound = p.bin.elsBound + n := by
  induction h with
  | rebuild _ hins hfull hp hstep =>
    obtain ⟨p', o, hp', hdo, hwritten, -, rfl⟩ := ihtStep_inv hstep
    rw [ihtPrepare, if_pos ⟨hins, hfull⟩, hp, Option.some.injEq] at hp'
    subst hp'
    exact (hprobe.do1_effect target.lawful hdo).written hprobe hwritten
  | call _ _ hquiet hstep ih =>
    obtain ⟨hprobe', hmask, hbound⟩ := ih
    obtain ⟨t', o, ht', hdo, hwritten, -, rfl⟩ := ihtStep_inv hstep
    rw [ihtPrepare_same hquiet, Option.some.injEq] at ht'
    subst ht'
    obtain ⟨hprobe'', hmask', hbound'⟩ :=
      (hprobe'.do1_effect target.lawful hdo).written hprobe' hwritten
    refine ⟨hprobe'', hmask'.trans hmask, ?_⟩
    rw [hbound', hbound, Nat.add_assoc]

end Segment

/-! ## While `els_num` counts the live positions -/

/-- The groups can be allocated, and every position fits into a stored index. -/
def Iht.InRange (t : Iht El (List Group)) : Prop := t.Fits ∧ t.bin.elsBound ≤ 2 ^ 32

/-- The bin is in order, `els_num` is the number of live positions, and one position at
    least is not used. -/
structure Counted (key : Key El) (t : Iht El (List Group)) : Prop where
  rep : BinRep ihtWidths key t.bin
  count : t.elsNum = t.bin.live.length
  room : t.bin.elsBound < t.bin.elsSize

/-- A bin right after a rebuild: only live positions are used, and less than half of all. -/
structure Roomy (key : Key El) (p : Iht El (List Group)) : Prop where
  probe : Probeable ihtWidths p.bin
  rep : BinRep ihtWidths key p.bin
  count : p.elsNum = p.bin.live.length
  bound : p.bin.elsBound = p.elsNum
  room : p.bin.elsBound + p.bin.elsSize / 2 < p.bin.elsSize

section Rebuild

variable {t p : Iht El (List Group)} {fuel : Nat}

theorem Counted.rebuild (hkey : key.Lawful) (h : Counted key t) (hprobe : Probeable ihtWidths t.bin)
    (hrange : t.InRange) (hp : ihtRebuild (ihtOps key target) key fuel t = some p) : Roomy key p := by
  obtain ⟨hfits, hle⟩ := hrange
  obtain ⟨hfill, hrefilled, hnum⟩ := ihtRebuild_refilled hkey hprobe hfits hp
  have hple := Nat.le_trans hfill.bound hle
  have hapart : Apart key.eq t.bin.live := by
    rw [← h.rep.sim.live]
    exact h.rep.denseOk.apart
  have hlive : p.bin.live = t.bin.live := by rw [hrefilled.live hple, distinct_of_apart hapart]
  have hcount : p.elsNum = p.bin.live.length := by rw [hnum, h.count, hlive]
  have hbound : p.bin.elsBound = p.elsNum := by
    rw [hcount, hfill.bin.length_live hrefilled.clear]
  refine ⟨hfill.bin, hrefilled.exact hple, hcount, hbound, ?_⟩
  -- twice the capacity, or less than half of the positions live
  have hsize := hfill.size
  have hlt := Nat.lt_of_le_of_lt hfill.bound h.room
  have hindexes := Hbin.indexesSize_eq hprobe.small
  unfold Iht.Fits IHT_GROUP_BYTES at hfits
  unfold Hbin.elsSize at hlt ⊢
  simp only [ihtRebuildSize, hindexes, LF_FACTOR, LF_DIVISOR] at hsize
  by_cases hgrow : 2 * 2 * t.elsNum % 2 ^ 64 ≥ 1 * (8 * t.bin.numGroups)
  · rw [if_pos hgrow] at hsize
    omega
  · rw [if_neg hgrow] at hsize
    omega

/-- The table on which `iht_do_1` works has room for one more element. -/
theorem Counted.prepare (hkey : key.Lawful) (h : Counted key t) (hprobe : Probeable ihtWidths t.bin)
    (hrange : t.InRange) {action : Action}
    (hp : ihtPrepare (ihtOps key target) key fuel t action = some p) :
    Probeable ihtWidths p.bin ∧ Counted key p ∧ p.bin.elsBound ≤ t.bin.elsBound ∧
      (action = .insert → p.bin.elsBound + 1 < p.bin.elsSize) := by
  by_cases hrebuild : action = .insert ∧ ihtFull t = true
  · rw [ihtPrepare, if_pos hrebuild] at hp
    have hroomy := h.rebuild hkey hprobe hrange hp
    obtain ⟨hfill, -⟩ := ihtRebuild_refilled hkey hprobe hrange.1 hp
    have hroom := hroomy.room
    have hpos : 0 < p.bin.numGroups := Nat.succ_pos _
    have hsize : p.bin.elsSize = 4 * p.bin.numGroups := rfl
    exact ⟨hroomy.probe, ⟨hroomy.rep, hroomy.count, by omega⟩, hfill.bound, fun _ => by omega⟩
  · rw [ihtPrepare_same hrebuild, Option.some.injEq] at hp
    subst hp
    refine ⟨hprobe, h, Nat.le_refl _, fun hins => ?_⟩
    have hnot : ¬ ihtFull t = true := fun hfull => hrebuild ⟨hins, hfull⟩
    rw [ihtFull_eq hprobe.small, decide_eq_true_iff] at hnot
    omega

theorem IhtStates.counted (hkey : key.Lawful)
    (h : IhtStates (ihtOps key target) key Iht.InRange t) : Counted key t := by
  induction h with
  | create hcreate _ =>
    obtain ⟨size, hsize, rfl⟩ := Option.map_eq_some_iff.mp hcreate
    obtain ⟨k, hk, rfl⟩ := ihtCreate_size hsize
    have hrefilled := ihtAllocBin_refilled hkey target hk
    have hpos : 0 < 2 ^ k := Nat.two_pow_pos k
    refine ⟨hrefilled.exact (Nat.zero_le _), ?_, ?_⟩
    · rw [hrefilled.live (Nat.zero_le _)]
      rfl
    · rw [ihtAllocBin_elsSize]
      show 0 < _
      omega
  | @call _ _ c _ _ hbefore hc hstep hrange ih =>
    have hprobe := (hbefore.imp fun _ hr => hr.1).reachable.probeable.1
    obtain ⟨p, o, hp, hdo, hwritten, hnum, -⟩ := ihtStep_inv hstep
    obtain ⟨hprobe', hcounted, hle, hroom⟩ := ih.prepare hkey hprobe hbefore.holds hp
    have hple := Nat.le_trans hle hbefore.holds.2
    have hstepped := hcounted.rep.step hkey hple hc hdo hwritten
    obtain ⟨-, hmask, hbound⟩ := (hprobe'.do1_effect target.lawful hdo).written hprobe' hwritten
    refine ⟨hstepped.rep hrange.2, hnum.trans (hstepped.count hcounted.count), ?_⟩
    rw [Hbin.elsSize, Hbin.numGroups, hmask, hbound]
    by_cases hins : c.action = .insert
    · exact Nat.lt_of_le_of_lt (Nat.add_le_add_left (insertions_le _ _) _) (hroom hins)
    · rw [insertions, if_neg fun hi => hins hi.1]
      exact hcounted.room

end Rebuild

theorem ihtSize_eq {t : Iht El (List Group)} (h : Probeable ihtWidths t.bin) :
    ihtSize t = t.bin.elsSize := by
  rw [ihtSize, Hbin.indexesSize_eq h.small, Hbin.elsSize]
  simp only [LF_FACTOR, LF_DIVISOR]
  omega

/-! ## Tables of words -/

section Words

variable {content : Nat → Nat} {bound dead num k : Nat} {t p : Iht (BitVec 64) (List Group)}

theorem Holds.live_eq (h : Holds content bound dead num k t) {n : Nat} (hn : n ≤ bound) :
    t.bin.liveUpTo n = (List.range (n - dead)).map fun i => word (content (dead + i)) := by
  induction n with
  | zero => rw [Nat.zero_sub]; rfl
  | succ n ih =>
    rw [Hbin.liveUpTo_succ, ih (by omega), h.deleted, h.els n (by omega)]
    by_cases hlt : n < dead
    · have hnone : n + 1 - dead = n - dead := by omega
      rw [hnone]
      simp [hlt]
    · have hsucc : n + 1 - dead = (n - dead) + 1 := by omega
      have hpos : dead + (n - dead) = n := by omega
      rw [hsucc, List.range_succ, List.map_append, List.map_singleton, hpos]
      simp [hlt]

theorem Holds.rebuildSize (h : Holds content bound dead num k t) (hnum : num ≤ bound) :
    ihtRebuildSize t = 8 * 2 ^ (if 2 * 2 ^ k ≤ num then k + 1 else k) := by
  have hsmall := h.probe.small
  have hfits := h.fits
  have hbound := h.probe.bound
  have hsucc : 2 ^ (k + 1) = 2 ^ k * 2 := Nat.pow_succ 2 k
  rw [h.elsSize, h.elsBound] at hbound
  unfold Iht.Fits IHT_GROUP_BYTES at hfits
  rw [h.groups] at hfits
  simp only [ihtRebuildSize, Hbin.indexesSize_eq hsmall, h.elsNum, h.groups, LF_FACTOR, LF_DIVISOR]
  by_cases hgrow : 2 * 2 ^ k ≤ num
  · rw [if_pos hgrow, if_pos (by omega)]
    omega
  · rw [if_neg hgrow, if_neg (by omega)]

/-- A rebuild moves the words at live positions to the front. -/
theorem Holds.rebuild (h : Holds content bound dead num k t) (target : Target) (hdead : dead ≤ bound)
    (hlive : bound - dead ≤ 2 ^ 32) (hcontent : ∀ i < bound, content i < 2 ^ 64)
    (hinj : ∀ i j, dead ≤ i → i < j → j < bound → content i ≠ content j) {k' : Nat}
    (hsize : ihtRebuildSize t = 8 * 2 ^ k') (hk' : 2 ^ k' * IHT_GROUP_BYTES < 2 ^ 64) :
    ∃ p, Returns (fun fuel => ihtRebuild (ihtOps identityKey target) identityKey fuel t) p ∧
      Holds (fun i => content (dead + i)) (bound - dead) 0 num k' p := by
  obtain ⟨p, hp, -⟩ := ihtRebuild_probeable identityKey target h.probe h.fits (Nat.le_refl _)
  obtain ⟨hfill, hrefilled, hnum⟩ := ihtRebuild_refilled identityKey_lawful h.probe h.fits hp
  have hwords : t.bin.live = (List.range (bound - dead)).map fun i => word (content (dead + i)) := by
    rw [Hbin.live_eq_liveUpTo, h.elsBound, h.live_eq (Nat.le_refl _)]
  have hapart : Apart identityKey.eq t.bin.live := by
    rw [hwords, Apart, List.pairwise_map]
    refine List.pairwise_lt_range.imp_of_mem fun {i j} hi hj hij => ?_
    rw [List.mem_range] at hi hj
    refine beq_eq_false_iff_ne.mpr fun heq => ?_
    exact hinj (dead + i) (dead + j) (by omega) (by omega) (by omega)
      (word_inj (hcontent _ (by omega)) (hcontent _ (by omega)) heq)
  have hdistinct := distinct_of_apart hapart
  have hple : p.bin.elsBound ≤ 2 ^ 32 := by
    by_contra hgt
    have hbeyond := hrefilled.beyond (by omega)
    rw [hdistinct, hwords, List.length_map, List.length_range] at hbeyond
    omega
  have hplive := (hrefilled.live hple).trans (hdistinct.trans hwords)
  have hbound : p.bin.elsBound = bound - dead := by
    rw [← hfill.bin.length_live hrefilled.clear, hplive, List.length_map, List.length_range]
  have hgroups : p.bin.numGroups = 2 ^ k' := by
    have := hfill.size
    omega
  refine ⟨p, (ihtRebuild_mono (ihtOps_mono identityKey target) t).returns hp, hfill.bin, ?_, hbound,
    hnum.trans h.elsNum, hgroups, fun i hi => ?_, fun i => ?_⟩
  · unfold Iht.Fits
    rwa [hgroups]
  · have hget := congrArg (·[i]?) (Hbin.take_els hrefilled.clear hfill.bin.initialised)
    simp only [List.getElem?_take, hbound, if_pos hi, hplive, List.getElem?_map,
      List.getElem?_range hi, Option.map_some] at hget
    rw [Hbin.elAt, hget]
    rfl
  · rw [hrefilled.clear, decide_eq_false (Nat.not_lt_zero i)]

/-- The INSERT that rebuilds a table, of a word that no slot of the rebuilt one leads to. -/
theorem Holds.since (h : Holds content bound dead num k p) (hfull : ihtFull t = true)
    (hp : Returns (fun fuel => ihtRebuild (ihtOps identityKey target) identityKey fuel t) p)
    (hroom : bound + 1 < 4 * 2 ^ k) (hnum : num + 1 < 2 ^ 64)
    (hmiss : ∀ g bit i, ¬ HitAt identityKey.eq p.bin (word (content bound)) g bit i) :
    ∃ t', SinceRebuild (ihtOps identityKey target) identityKey t p 1 t' ∧
      Holds content (bound + 1) dead (num + 1) k t' := by
  obtain ⟨t', hstep, h', -⟩ := h.append target hroom hnum hmiss
  have hnot : ¬ ihtFull p = true := by
    rw [h.full_iff]
    omega
  obtain ⟨N, hN⟩ := hp
  obtain ⟨M, hM⟩ := hstep
  have hrebuild := hN (max N M) (Nat.le_max_left N M)
  have hfuel := hM (max N M) (Nat.le_max_right N M)
  dsimp only at hrebuild hfuel
  -- the rebuilt table is not full: the INSERT does the same to it
  have hsame : ihtStep (ihtOps identityKey target) identityKey (max N M) t
      (Call.plain .insert (word (content bound))) = some (⟨false, some bound, none⟩, t') := by
    rw [ihtStep, ihtPerform_eq, ihtPrepare_same fun hf => hnot hf.2] at hfuel
    rw [ihtStep, ihtPerform_eq, ihtPrepare, if_pos ⟨rfl, hfull⟩, hrebuild, hfuel]
  exact ⟨t', SinceRebuild.rebuild (Call.plain_ok identityKey_lawful _ _) rfl hfull hrebuild hsame, h'⟩

theorem SinceRebuild.fill (h : Holds content bound dead num k t) {t₁ : Iht (BitVec 64) (List Group)}
    {n m : Nat} (hsince : SinceRebuild (ihtOps identityKey target) identityKey t₁ p n t)
    (hroom : bound + m < 4 * 2 ^ k) (hnum : num + m < 2 ^ 64)
    (hcontent : ∀ i < bound + m, content i < 2 ^ 64)
    (hnew : ∀ j < bound + m, bound ≤ j → ∀ i < j, i < 2 ^ 32 → content i ≠ content j) :
    ∃ t', SinceRebuild (ihtOps identityKey target) identityKey t₁ p (n + m) t' ∧
      Holds content (bound + m) dead (num + m) k t' := by
  refine h.fill target (Q := SinceRebuild (ihtOps identityKey target) identityKey t₁ p) ?_
    hsince hroom hnum hcontent hnew
  intro n t c fuel i t' b m hq hfull hc hins hstep _
  have hnext := hq.call hc (fun hf => hfull hf.2) hstep
  rw [hins] at hnext
  exact hnext

end Words

/-! ## The room after a rebuild -/

/-- Let `C` be the capacity after a rebuild.  In a run through tables whose positions fit
    into stored indices, `els_bound` is then `els_num` and `C / 2` positions are free, and
    the bin is not full again before `C / 2` new elements have been inserted, whatever
    other calls there are. -/
theorem iht_rebuilds_spaced (hkey : key.Lawful) (target : Target) :
    ∀ t₁, IhtStates (ihtOps key target) key Iht.InRange t₁ → ∀ p n t₂,
      SinceRebuild (ihtOps key target) key t₁ p n t₂ →
      p.bin.elsBound = p.elsNum ∧ p.bin.elsBound + ihtSize p / 2 ≤ ihtSize p - 1 ∧
        (ihtFull t₂ = true → ihtSize p / 2 ≤ n) := by
  intro t₁ h p n t₂ hsince
  have hprobe := (h.imp fun _ hr => hr.1).reachable.probeable.1
  obtain ⟨fuel, hp⟩ := hsince.rebuilt
  have hroomy := (h.counted hkey).rebuild hkey hprobe h.holds hp
  obtain ⟨hprobe₂, hmask, hbound⟩ := hsince.count hroomy.probe
  have hroom := hroomy.room
  rw [ihtSize_eq hroomy.probe]
  refine ⟨hroomy.bound, by omega, fun hfull => ?_⟩
  have hsame : t₂.bin.elsSize = p.bin.elsSize := by
    rw [Hbin.elsSize, Hbin.elsSize, Hbin.numGroups, Hbin.numGroups, hmask]
  rw [ihtFull_eq hprobe₂.small, decide_eq_true_iff, hbound, hsame] at hfull
  omega

/-- Three words fill a table of capacity 4; the next INSERT rebuilds it to capacity 8, and
    four insertions fill it again. -/
theorem iht_rebuilds_spaced_tight :
    ∃ t₁ p t₂, IhtStates (ihtOps identityKey .swar) identityKey Iht.InRange t₁ ∧
      SinceRebuild (ihtOps identityKey .swar) identityKey t₁ p 4 t₂ ∧ ihtFull t₂ = true ∧
      ihtSize p = 8 ∧ p.bin.elsBound = p.elsNum ∧ ihtSize p / 2 ≤ 4 := by
  have h₀ := Holds.create .swar id (show 2 ^ 0 * IHT_GROUP_BYTES < 2 ^ 64 by decide)
  have hrange₀ : Iht.InRange ⟨0, ihtAllocBin (ihtOps identityKey .swar) (8 * 2 ^ 0)⟩ :=
    ⟨h₀.fits, Nat.zero_le _⟩
  have hstate₀ : IhtStates (ihtOps identityKey .swar) identityKey Iht.InRange _ :=
    IhtStates.create (show ihtCreate (ihtOps identityKey .swar) 1 4 = some _ from rfl) hrange₀
  obtain ⟨t₁, hstate, h₁⟩ := h₀.fill .swar
    (Q := fun _ => IhtStates (ihtOps identityKey .swar) identityKey Iht.InRange)
    (fun hq _ hc _ hstep h => hq.call hc hstep
      ⟨h.fits, Nat.le_trans h.probe.bound (by rw [h.elsSize]; decide)⟩) hstate₀ (m := 3) (n := 0)
    (by decide) (by decide) (fun i hi => show i < 2 ^ 64 by omega) fun j _ _ i hi _ => show i ≠ j by omega
  rw [Nat.zero_add] at h₁
  have hsize : ihtRebuildSize t₁ = 8 * 2 ^ 1 := h₁.rebuildSize (by decide)
  obtain ⟨p, hp, hpHolds⟩ := h₁.rebuild .swar (by decide) (by decide)
    (fun i hi => show i < 2 ^ 64 by omega) (fun i j _ hij _ => show i ≠ j by omega) hsize (by decide)
  have hfull : ihtFull t₁ = true := h₁.full_iff.mpr (by decide)
  obtain ⟨t, hsince, h⟩ := hpHolds.since hfull hp (by decide) (by decide)
    (hpHolds.misses (show 0 + 3 < 2 ^ 64 by decide) (fun i hi => show 0 + i < 2 ^ 64 by omega)
      fun i hi _ => show 0 + i ≠ 0 + 3 by omega)
  obtain ⟨t₂, hsince, h⟩ := SinceRebuild.fill (m := 3) h hsince (by decide) (by decide)
    (fun i hi => show 0 + i < 2 ^ 64 by omega) fun j _ _ i hij _ => show 0 + i ≠ 0 + j by omega
  have hfull₂ : ihtFull t₂ = true := h.full_iff.mpr (by decide)
  obtain ⟨hbound, -, hspaced⟩ := iht_rebuilds_spaced identityKey_lawful .swar t₁ hstate p _ t₂ hsince
  exact ⟨t₁, p, t₂, hstate, hsince, hfull₂, by rw [ihtSize_eq hpHolds.probe, hpHolds.elsSize]; decide,
    hbound, hspaced hfull₂⟩

/-! ## Beyond the range of an index -/

/-- Pairs of an INSERT and a DELETE of the same word. -/
theorem exists_churned (n : Nat) (hn : n < 2 ^ 32) :
    ∃ t, IhtStates (ihtOps identityKey .swar) identityKey Iht.Fits t ∧ Holds id n n 0 31 t := by
  induction n with
  | zero =>
    have h := Holds.create .swar id (show 2 ^ 31 * IHT_GROUP_BYTES < 2 ^ 64 by decide)
    exact ⟨_, IhtStates.create (show ihtCreate (ihtOps identityKey .swar) 40 (2 ^ 33) = some _ from rfl) h.fits, h⟩
  | succ n ih =>
    obtain ⟨t, hstate, h⟩ := ih (by omega)
    obtain ⟨t', hstep, h', happend⟩ := h.append .swar (by omega) (by omega)
      (h.misses (show n < 2 ^ 64 by omega) (fun i hi => show i < 2 ^ 64 by omega)
        fun i hi _ => show i ≠ n by omega)
    have hstate' := hstate.returns (Call.plain_ok identityKey_lawful _ _) hstep h'.fits
    have hnot := happend.found (word n)
      (by rw [h.elsBound, Nat.mod_eq_of_lt (by omega)]; exact h'.els n (by omega)) (beq_self_eq_true _)
    obtain ⟨t'', hstep', h''⟩ := h'.delete .swar (n + 1)
      (show n < 2 ^ 64 by omega) (fun i hi => show i < 2 ^ 64 by omega) hnot
      fun i _ _ (heq : i = n) j => by omega
    exact ⟨t'', hstate'.returns (Call.plain_ok identityKey_lawful _ _) hstep' h''.fits, h''⟩

/-- The words by position, where position `2 ^ 32` holds the word of position 0. -/
def wrapped (i : Nat) : Nat := if i = 2 ^ 32 then 0 else i

theorem wrapped_ne {i j : Nat} (hi : 0 < i) (hij : i < j) : wrapped i ≠ wrapped j := by
  unfold wrapped
  split <;> split <;> omega

theorem wrapped_lt {i : Nat} (hi : i < 2 ^ 64) : wrapped i < 2 ^ 64 := by
  unfold wrapped
  split
  · decide
  · exact hi

/-- Word 0 is inserted at position 0, deleted, inserted again at position `2 ^ 32` and
    deleted again.  The index that the last DELETE follows is 0, so that position `2 ^ 32`
    stays live and `els_num` is one too low. -/
theorem exists_uncounted {N : Nat} (hN : N = 2 ^ 32) :
    ∃ t, IhtStates (ihtOps identityKey .swar) identityKey Iht.Fits t ∧
      Holds wrapped (N + 1) (N - 1) 1 31 t := by
  obtain ⟨t₁, hstate₁, h₁⟩ := exists_churned (N - 1) (by omega)
  have hwrapped : ∀ i < N - 1, i = wrapped i := fun i hi => (if_neg (by omega)).symm
  have h₁ := h₁.congr hwrapped
  have hlast : wrapped (N - 1) = N - 1 := if_neg (by omega)
  have hzero : wrapped N = 0 := if_pos hN
  have hcontent : ∀ i < 2 * N, wrapped i < 2 ^ 64 := fun i hi => wrapped_lt (by omega)
  -- a word that stays
  obtain ⟨t₂, hstate₂, h₂⟩ := IhtStates.fill .swar h₁ hstate₁ 1 (by omega) (by omega)
    (fun i hi => hcontent i (by omega)) fun j hj hle i hi _ => by
      obtain rfl : j = N - 1 := by omega
      rw [hlast, ← hwrapped i (by omega)]
      exact Nat.ne_of_lt (by omega)
  have hsucc : N - 1 + 1 = N := by omega
  rw [hsucc] at h₂
  -- word 0 again: the indices are still exact, and the only live position is the last
  have hrep := hstate₂.exact identityKey_lawful (by rw [h₂.elsBound, hN])
  have hmiss : ∀ g bit i, ¬ HitAt identityKey.eq t₂.bin (word (wrapped N)) g bit i := by
    intro g bit i hhit
    obtain ⟨-, hlive⟩ := hhit.livePos hrep
    obtain ⟨hi, -, heq⟩ := h₂.hit (hcontent N (by omega)) (fun i hi => hcontent i (by omega)) hhit
    rw [h₂.deleted, decide_eq_false_iff_not] at hlive
    obtain rfl : i = N - 1 := by omega
    rw [hlast, hzero] at heq
    omega
  obtain ⟨t₃, hstep₃, h₃, happend⟩ := h₂.append .swar (by omega) (by omega) hmiss
  have hstate₃ := hstate₂.returns (Call.plain_ok identityKey_lawful _ _) hstep₃ h₃.fits
  have hindex : t₃.bin.elAt (t₂.bin.elsBound % 2 ^ 32) = some (word (wrapped N)) := by
    rw [h₂.elsBound, hN, Nat.mod_self, h₃.els 0 (by omega)]
    rfl
  -- its DELETE
  obtain ⟨t₄, hstep₄, h₄⟩ := h₃.delete .swar (N - 1) (hcontent N (by omega))
    (fun i hi => hcontent i (by omega)) (happend.found _ hindex (beq_self_eq_true _))
    fun i _ hrange heq j => by
      rw [hzero, wrapped, if_neg (by omega)] at heq
      omega
  have hone : ihtWidths.decr (0 + 1 + 1) = 1 := by decide
  rw [hone] at h₄
  exact ⟨t₄, hstate₃.returns (Call.plain_ok identityKey_lawful _ _) hstep₄ h₄.fits, h₄⟩

/-- New words fill the bin. -/
theorem exists_miscounted {N : Nat} (hN : N = 2 ^ 32) :
    ∃ t, IhtStates (ihtOps identityKey .swar) identityKey Iht.Fits t ∧
      Holds wrapped (2 * N - 1) (N - 1) (N - 1) 31 t := by
  obtain ⟨t₁, hstate₁, h₁⟩ := exists_uncounted hN
  obtain ⟨t₂, hstate₂, h₂⟩ := IhtStates.fill .swar h₁ hstate₁ (N - 2) (by omega) (by omega)
    (fun i hi => wrapped_lt (by omega)) fun j hj hle i hi hrange => by
      rw [wrapped, if_neg (by omega), wrapped, if_neg (by omega)]
      omega
  have hbound : N + 1 + (N - 2) = 2 * N - 1 := by omega
  have hnum : 1 + (N - 2) = N - 1 := by omega
  rw [hbound, hnum] at h₂
  exact ⟨t₂, hstate₂, h₂⟩

/-- A rebuild of a bin of capacity `2 ^ 33` after which `els_bound` is not `els_num`, and
    which is full again after `2 ^ 32 - 1` insertions. -/
theorem iht_rebuilds_crowded :
    ∃ t₁ p n t₂, IhtStates (ihtOps identityKey .swar) identityKey Iht.Fits t₁ ∧
      SinceRebuild (ihtOps identityKey .swar) identityKey t₁ p n t₂ ∧ ihtFull t₂ = true ∧
      p.bin.elsBound ≠ p.elsNum ∧ n < ihtSize p / 2 := by
  obtain ⟨N, hN⟩ : ∃ N, N = 2 ^ 32 := ⟨_, rfl⟩
  obtain ⟨t₁, hstate, h₁⟩ := exists_miscounted hN
  have hcontent : ∀ i < 3 * N, wrapped i < 2 ^ 64 := fun i hi => wrapped_lt (by omega)
  have hsize := h₁.rebuildSize (by omega)
  rw [if_neg (by omega)] at hsize
  obtain ⟨p, hp, hpHolds⟩ := h₁.rebuild .swar (by omega) (by omega)
    (fun i hi => hcontent i (by omega)) (fun i j hi hij _ => wrapped_ne (by omega) hij) hsize (by decide)
  have hlive : 2 * N - 1 - (N - 1) = N := by omega
  rw [hlive] at hpHolds
  have hfull : ihtFull t₁ = true := h₁.full_iff.mpr (by omega)
  obtain ⟨t, hsince, h⟩ := hpHolds.since hfull hp (by omega) (by omega)
    (hpHolds.misses (hcontent _ (by omega)) (fun i hi => hcontent _ (by omega))
      fun i hi _ => wrapped_ne (by omega) (by omega))
  obtain ⟨t₂, hsince, h⟩ := SinceRebuild.fill (m := N - 2) h hsince (by omega) (by omega)
    (fun i hi => hcontent _ (by omega)) fun j _ _ i hij _ => wrapped_ne (by omega) (by omega)
  refine ⟨t₁, p, _, t₂, hstate, hsince, h.full_iff.mpr (by omega), ?_, ?_⟩
  · rw [hpHolds.elsBound, hpHolds.elsNum]
    omega
  · rw [ihtSize_eq hpHolds.probe, hpHolds.elsSize]
    omega

end IndexedHash
