import Mathlib.Data.List.Forall2
import Mathlib.Tactic.Common
import IndexedHash.Iht
import IndexedHash.IxhtSimulation

/-!
# The table code over two indices

`Iht.lean` and `Ixht.lean` are written over any index.  If two indices are kept in a
relation by allocation, by the two resets and by `do_1` (`BinOps.Related`), whatever the
bin they belong to, then so are the tables over them: `iht_create`, `ixht_create` and every
sequence of calls do the same on both, call by call and fuel by fuel, and are stuck on both
or on neither.

Nothing is asked of `Hash`, `Eq` or of the state of the table.  `IxhtSimulation.lean`
needs more for less: there the second index is the ideal one, which a bin follows only
while its invariant holds.
-/

namespace IndexedHash

open Loop

variable {El G G' : Type} {R : G → G' → Prop}

/-! ## Bins -/

structure BinRel (R : G → G' → Prop) (b : Hbin El G) (b' : Hbin El G') : Prop where
  same : b' = b.withGroups b'.groups
  groups : R b.groups b'.groups

namespace BinRel

variable {b : Hbin El G} {b' : Hbin El G'}

theorem elsBound (h : BinRel R b b') : b'.elsBound = b.elsBound := by rw [h.same]; rfl
theorem els (h : BinRel R b b') : b'.els = b.els := by rw [h.same]; rfl
theorem deleted (h : BinRel R b b') : b'.deleted = b.deleted := by rw [h.same]; rfl
theorem groupsMask (h : BinRel R b b') : b'.groupsMask = b.groupsMask := by rw [h.same]; rfl
theorem numGroups (h : BinRel R b b') : b'.numGroups = b.numGroups := by rw [h.same]; rfl
theorem elAt (h : BinRel R b b') (i : Nat) : b'.elAt i = b.elAt i := by rw [h.same]; rfl

theorem indexesSize (h : BinRel R b b') (w : Widths) : b'.indexesSize w = b.indexesSize w := by
  rw [h.same]; rfl

theorem halfIndexes (h : BinRel R b b') : b'.halfIndexes = b.halfIndexes := by rw [h.same]; rfl

theorem store? (h : BinRel R b b') (i : Nat) (x : El) :
    Option.Rel (BinRel R) (b.store? i x) (b'.store? i x) := by
  obtain ⟨hsame, hgroups⟩ := h
  generalize b'.groups = g' at hsame hgroups
  subst hsame
  unfold Hbin.store?
  by_cases hi : i < b.els.length
  · rw [if_pos hi, if_pos (show i < (b.withGroups g').els.length from hi)]
    exact Option.Rel.some ⟨rfl, hgroups⟩
  · rw [if_neg hi, if_neg (show ¬ i < (b.withGroups g').els.length from hi)]
    exact Option.Rel.none

end BinRel

structure OutcomeRel (R : G → G' → Prop) (r : Outcome El G) (r' : Outcome El G') : Prop where
  found : r.found = r'.found
  res : r.res = r'.res
  elsNum : r.elsNum = r'.elsNum
  bin : BinRel R r.bin r'.bin

theorem OutcomeRel.value {r : Outcome El G} {r' : Outcome El G'} (h : OutcomeRel R r r') :
    r.value = r'.value := by
  have hat : r'.bin.elAt = r.bin.elAt := funext h.bin.elAt
  rw [Outcome.value, Outcome.value, h.found, h.res, hat]

theorem OutcomeRel.written {r : Outcome El G} {r' : Outcome El G'} (h : OutcomeRel R r r')
    (c : Call El) : Option.Rel (BinRel R) (r.written c) (r'.written c) := by
  unfold Outcome.written
  rw [h.found, h.res]
  cases r'.res with
  | none => exact Option.Rel.some h.bin
  | some p =>
    cases (if r'.found then c.update else some c.fresh) with
    | none => exact Option.Rel.some h.bin
    | some y => exact h.bin.store? p y

structure BinOps.Related (R : G → G' → Prop) (ops : BinOps El G) (ops' : BinOps El G') : Prop where
  alloc : ∀ n, R (ops.alloc n) (ops'.alloc n)
  clear : ∀ n {g g'}, R g g' → Option.Rel R (ops.clear n g) (ops'.clear n g')
  regrow : ∀ n {g g'}, R g g' → R (ops.regrow n g) (ops'.regrow n g')
  do1 : ∀ {b b'}, BinRel R b b' → ∀ fuel elsNum hash el action,
    Option.Rel (OutcomeRel R) (ops.do1 fuel elsNum b hash el action)
      (ops'.do1 fuel elsNum b' hash el action)

section Lift

variable {key : Key El} {ops : BinOps El G} {ops' : BinOps El G'}

theorem BinOps.Related.reinsert (h : ops.Related R ops') {b : Hbin El G} {b' : Hbin El G'}
    (hb : BinRel R b b') (fuel n : Nat) (hash : BitVec 64) (el : El) :
    Option.Rel (fun p p' => p.1 = p'.1 ∧ BinRel R p.2 p'.2)
      (IndexedHash.reinsert ops fuel n b hash el) (IndexedHash.reinsert ops' fuel n b' hash el) := by
  refine bind_rel (h.do1 hb fuel n hash el .insert) fun r r' hr => ?_
  rw [hr.res, hr.elsNum]
  cases r'.res with
  | none => exact Option.Rel.none
  | some p => exact map_rel (hr.bin.store? p el) fun _ _ hs => ⟨rfl, hs⟩

/-! ## `ihtab.h` -/

structure IhtRel (R : G → G' → Prop) (t : Iht El G) (t' : Iht El G') : Prop where
  elsNum : t.elsNum = t'.elsNum
  bin : BinRel R t.bin t'.bin

theorem ihtAllocBin_rel (h : ops.Related R ops') (n : Nat) :
    BinRel R (ihtAllocBin ops n) (ihtAllocBin ops' n) :=
  ⟨rfl, h.alloc _⟩

theorem ihtCreate_rel (h : ops.Related R ops') (fuel minSize : Nat) :
    Option.Rel (IhtRel R) (ihtCreate ops fuel minSize) (ihtCreate ops' fuel minSize) := by
  unfold ihtCreate
  cases forever (ihtCreateBody minSize) fuel GROUP_SIZE with
  | none => exact Option.Rel.none
  | some size => exact Option.Rel.some ⟨rfl, ihtAllocBin_rel h size⟩

section Iht

variable {t : Iht El G} {t' : Iht El G'}

theorem IhtRel.full (ht : IhtRel R t t') : ihtFull t = ihtFull t' := by
  unfold ihtFull
  rw [ht.bin.indexesSize, ht.bin.elsBound]

theorem ihtRebuild_rel (h : ops.Related R ops') (ht : IhtRel R t t') (fuel : Nat) :
    Option.Rel (IhtRel R) (ihtRebuild ops key fuel t) (ihtRebuild ops' key fuel t') := by
  have hsize : ihtRebuildSize t = ihtRebuildSize t' := by
    simp only [ihtRebuildSize, ht.bin.indexesSize, ht.elsNum]
  unfold ihtRebuild
  rw [hsize, ht.bin.elsBound, ht.elsNum]
  refine map_rel (foldlM_range_rel (fun _ s s' => s.1 = s'.1 ∧ BinRel R s.2 s'.2) t.bin.elsBound
    ⟨rfl, ihtAllocBin_rel h _⟩ ?_) fun s s' hs => ⟨rfl, hs.2⟩
  rintro i - ⟨n, b⟩ ⟨n', b'⟩ ⟨rfl, hb⟩
  unfold ihtReinsert
  rw [ht.bin.deleted, ht.bin.elAt]
  cases t.bin.deleted.test? i with
  | none => exact Option.Rel.none
  | some del =>
    simp only [Option.bind_some]
    split
    · exact Option.Rel.some ⟨rfl, hb⟩
    · cases t.bin.elAt i with
      | none => exact Option.Rel.none
      | some x => exact h.reinsert hb fuel n (key.hash x) x

theorem ihtStep_rel (h : ops.Related R ops') (ht : IhtRel R t t') (fuel : Nat) (c : Call El) :
    Option.Rel (fun s s' => s.1 = s'.1 ∧ IhtRel R s.2 s'.2) (ihtStep ops key fuel t c)
      (ihtStep ops' key fuel t' c) := by
  have hprep : Option.Rel (IhtRel R)
      (if c.action = .insert ∧ ihtFull t then ihtRebuild ops key fuel t else some t)
      (if c.action = .insert ∧ ihtFull t' then ihtRebuild ops' key fuel t' else some t') := by
    rw [ht.full]
    split
    · exact ihtRebuild_rel h ht fuel
    · exact Option.Rel.some ht
  have hperform : Option.Rel (OutcomeRel R) (ihtPerform ops key fuel t c.el c.action)
      (ihtPerform ops' key fuel t' c.el c.action) := by
    refine bind_rel hprep fun p p' hp => ?_
    rw [hp.elsNum]
    exact h.do1 hp.bin fuel p'.elsNum (key.hash c.el) c.el c.action
  refine bind_rel hperform fun r r' hr => map_rel (hr.written c) fun b b' hb => ⟨?_, hr.elsNum, hb⟩
  rw [hr.found, hr.res, hr.value]

end Iht

/-! ## Sessions -/

/-- Two systems that stay related step by step stay related, with the same replies. -/
theorem runCalls_rel {τ τ' ρ : Type} {step : τ → Call El → Option (ρ × τ)}
    {step' : τ' → Call El → Option (ρ × τ')} {Q : τ → τ' → Prop}
    (hstep : ∀ t t' c, Q t t' →
      Option.Rel (fun s s' => s.1 = s'.1 ∧ Q s.2 s'.2) (step t c) (step' t' c))
    {t : τ} {t' : τ'} (ht : Q t t') (calls : List (Call El)) :
    Option.Rel (fun s s' => s.1 = s'.1 ∧ Q s.2 s'.2) (runCalls step t calls)
      (runCalls step' t' calls) := by
  induction calls generalizing t t' with
  | nil => exact Option.Rel.some ⟨rfl, ht⟩
  | cons c cs ih =>
    refine bind_rel (hstep t t' c ht) fun s s' hs => map_rel (ih hs.2) fun r r' hr => ⟨?_, hr.2⟩
    rw [hs.1, hr.1]

def ihtSession (ops : BinOps El G) (key : Key El) (fuel minSize : Nat) (calls : List (Call El)) :
    Option (List (Reply Nat El) × Iht El G) :=
  (ihtCreate ops fuel minSize).bind fun t => ihtRun ops key fuel t calls

theorem ihtSession_rel (h : ops.Related R ops') (fuel minSize : Nat) (calls : List (Call El)) :
    Option.Rel (fun s s' => s.1 = s'.1 ∧ IhtRel R s.2 s'.2)
      (ihtSession ops key fuel minSize calls) (ihtSession ops' key fuel minSize calls) := by
  refine bind_rel (ihtCreate_rel h fuel minSize) fun t t' ht => ?_
  exact runCalls_rel (Q := IhtRel R) (fun _ _ c hs => ihtStep_rel h hs fuel c) ht calls

/-! ## `ixhtab.h` -/

structure EbinRel (R : G → G' → Prop) (b : Ebin El G) (b' : Ebin El G') : Prop where
  depth : b.depth = b'.depth
  mask : b.mask = b'.mask
  elsStart : b.elsStart = b'.elsStart
  bin : BinRel R b.bin b'.bin

structure IxRel (R : G → G' → Prop) (t : Ixht El G) (t' : Ixht El G') : Prop where
  elsNum : t.elsNum = t'.elsNum
  maxDepth : t.maxDepth = t'.maxDepth
  binMask : t.binMask = t'.binMask
  dir : t.dir = t'.dir
  bins : List.Forall₂ (EbinRel R) t.bins t'.bins

theorem ixhtCreateBin_rel (h : ops.Related R ops') (size : Nat) :
    EbinRel R (ixhtCreateBin ops size) (ixhtCreateBin ops' size) :=
  ⟨rfl, rfl, rfl, rfl, h.alloc _⟩

theorem ixhtCreate_rel (h : ops.Related R ops') (maxPower fuel minSize : Nat) :
    Option.Rel (IxRel R) (ixhtCreate maxPower ops fuel minSize)
      (ixhtCreate maxPower ops' fuel minSize) := by
  unfold ixhtCreate
  cases forever (ixhtCreateBody minSize) fuel 2 with
  | none => exact Option.Rel.none
  | some size =>
    rw [Option.bind_some, Option.bind_some]
    cases ixhtGetParams maxPower fuel size with
    | none => exact Option.Rel.none
    | some p =>
      refine Option.Rel.some ⟨rfl, rfl, rfl, rfl, ?_⟩
      simp only [ixhtOfParams, List.forall₂_map_left_iff, List.forall₂_map_right_iff,
        List.forall₂_same]
      intro i _
      exact ⟨rfl, rfl, rfl, (ixhtCreateBin_rel h p.bs).bin⟩

structure HalvesRel (R : G → G' → Prop) (h : Halves El G) (h' : Halves El G') : Prop where
  elsNum : h.elsNum = h'.elsNum
  bin : BinRel R h.bin h'.bin
  newBin : BinRel R h.newBin h'.newBin
  oldAdded : h.oldAdded = h'.oldAdded
  newAdded : h.newAdded = h'.newAdded

theorem ixhtDistribute_rel (h : ops.Related R ops') {s : Halves El G} {s' : Halves El G'}
    (hs : HalvesRel R s s') (fuel splitMask i : Nat) :
    Option.Rel (HalvesRel R) (ixhtDistribute ops key fuel splitMask s i)
      (ixhtDistribute ops' key fuel splitMask s' i) := by
  unfold ixhtDistribute
  rw [hs.bin.deleted, hs.bin.elAt, hs.elsNum]
  cases s.bin.deleted.test? i with
  | none => exact Option.Rel.none
  | some del =>
    simp only [Option.bind_some]
    split
    · exact Option.Rel.some hs
    · cases s.bin.elAt i with
      | none => exact Option.Rel.none
      | some x =>
        simp only [Option.bind_some]
        split
        · refine map_rel (h.reinsert hs.bin fuel _ _ x) fun p p' hp => ?_
          exact ⟨hp.1, hp.2, hs.newBin, rfl, hs.newAdded⟩
        · refine map_rel (h.reinsert hs.newBin fuel _ _ x) fun p p' hp => ?_
          exact ⟨hp.1, hs.bin, hp.2, hs.oldAdded, rfl⟩

section Ixht

variable {t : Ixht El G} {t' : Ixht El G'}

theorem IxRel.binOf (h : IxRel R t t') (hash : BitVec 64) : t.binOf hash = t'.binOf hash := by
  rw [Ixht.binOf, Ixht.binOf, h.dir, h.binMask]

theorem IxRel.deepen (h : IxRel R t t') (depth : Nat) :
    Option.Rel (IxRel R) (t.deepen depth) (t'.deepen depth) := by
  unfold Ixht.deepen
  rw [h.maxDepth, h.dir]
  split
  · split
    · exact Option.Rel.some ⟨h.elsNum, rfl, rfl, rfl, h.bins⟩
    · exact Option.Rel.none
  · exact Option.Rel.some h

theorem IxRel.redirect (h : IxRel R t t') (mask ind : Nat) :
    Option.Rel (IxRel R) (t.redirect mask ind) (t'.redirect mask ind) := by
  unfold Ixht.redirect
  rw [h.dir]
  split
  · exact Option.Rel.some ⟨h.elsNum, h.maxDepth, h.binMask, rfl, h.bins⟩
  · exact Option.Rel.none

end Ixht

structure SplittingRel (R : G → G' → Prop) (s : Splitting El G) (s' : Splitting El G') : Prop where
  table : IxRel R s.table s'.table
  binInd : s.binInd = s'.binInd
  newInd : s.newInd = s'.newInd

section Split

variable {s : Splitting El G} {s' : Splitting El G'}

theorem SplittingRel.close (hs : SplittingRel R s s') {t : Ixht El G} {t' : Ixht El G'}
    (ht : IxRel R t t') {e f : Ebin El G} {e' f' : Ebin El G'} (he : EbinRel R e e')
    (hf : EbinRel R f f') {h : Halves El G} {h' : Halves El G'} (hh : HalvesRel R h h') :
    SplittingRel R (s.close t e f h) (s'.close t' e' f' h') := by
  refine ⟨⟨ht.elsNum, ht.maxDepth, ht.binMask, ht.dir, ?_⟩, hs.binInd, hs.newInd⟩
  simp only [Splitting.close, hs.binInd, hs.newInd, he.depth, he.mask]
  refine Forall₂.set (Forall₂.set ht.bins ?_ _) ?_ _
  · exact ⟨rfl, rfl, rfl, hh.bin⟩
  · exact ⟨rfl, rfl, hf.elsStart, hh.newBin⟩

theorem ixhtSplitPass_rel (h : ops.Related R ops') (hs : SplittingRel R s s') (fuel : Nat) :
    Option.Rel (Step.Rel (SplittingRel R) (SplittingRel R)) (ixhtSplitPass ops key fuel s)
      (ixhtSplitPass ops' key fuel s') := by
  unfold ixhtSplitPass
  rw [hs.binInd, hs.newInd]
  refine bind_rel (Forall₂.getElem?_rel hs.table.bins _) fun f f' hf => ?_
  refine bind_rel (Forall₂.getElem?_rel hs.table.bins _) fun e e' he => ?_
  rw [he.depth, he.mask, he.elsStart, he.bin.elsBound, he.bin.numGroups]
  refine bind_rel (h.clear _ he.bin.groups) fun g g' hg => ?_
  split
  · exact Option.Rel.none
  refine bind_rel (hs.table.deepen _) fun t₁ t₁' h₁ => bind_rel (h₁.redirect _ _) fun t₂ t₂' h₂ => ?_
  have hclear : BinRel R (e.bin.emptied g) (e'.bin.emptied g') := by
    refine ⟨?_, hg⟩
    simp only [Hbin.emptied, Hbin.withGroups, he.bin.els, he.bin.deleted, he.bin.groupsMask]
  refine map_rel (foldlM_rel (fun i _ _ hu => ixhtDistribute_rel h hu fuel _ i) _
    ⟨h₂.elsNum, hclear, hf.bin, rfl, rfl⟩) fun u u' hu => ?_
  have hclose := hs.close h₂ he hf hu
  rw [hu.oldAdded, hu.newAdded]
  split
  · exact Step.Rel.again ⟨hclose.table, rfl, rfl⟩
  · split
    · exact Step.Rel.leave hclose
    · exact Step.Rel.again hclose

theorem EbinRel.resetDeleted {e : Ebin El G} {e' : Ebin El G'} (h : EbinRel R e e') :
    Option.Rel (EbinRel R) e.resetDeleted e'.resetDeleted := by
  simp only [Ebin.resetDeleted, h.bin.halfIndexes, h.bin.deleted]
  split
  · refine Option.Rel.some ⟨h.depth, h.mask, h.elsStart, ?_, h.bin.groups⟩
    simp only [Hbin.withGroups, h.bin.elsBound, h.bin.els, h.bin.groupsMask]
  · exact Option.Rel.none

theorem SplittingRel.finish (h : SplittingRel R s s') :
    Option.Rel (IxRel R) s.finish s'.finish := by
  unfold Splitting.finish
  rw [h.binInd, h.newInd]
  refine bind_rel (Forall₂.getElem?_rel h.table.bins _) fun ob ob' hob => ?_
  refine bind_rel hob.resetDeleted fun ob ob' hob => ?_
  refine bind_rel (Forall₂.getElem?_rel h.table.bins _) fun nb nb' hnb => ?_
  refine map_rel hnb.resetDeleted fun nb nb' hnb => ?_
  exact ⟨h.table.elsNum, h.table.maxDepth, h.table.binMask, h.table.dir,
    Forall₂.set (Forall₂.set h.table.bins hob _) hnb _⟩

theorem ixhtSplitBin_rel (h : ops.Related R ops') {t : Ixht El G} {t' : Ixht El G'}
    (ht : IxRel R t t') (fuel binInd : Nat) :
    Option.Rel (IxRel R) (ixhtSplitBin ops key fuel t binInd)
      (ixhtSplitBin ops' key fuel t' binInd) := by
  refine bind_rel (Forall₂.getElem?_rel ht.bins binInd) fun e e' he => ?_
  rw [he.bin.halfIndexes]
  refine bind_rel (forever_rel (SplittingRel R) (SplittingRel R)
    (fun s s' hs => ixhtSplitPass_rel h hs fuel) fuel ⟨⟨ht.elsNum, ht.maxDepth, ht.binMask, ht.dir, ?_⟩,
      rfl, List.Forall₂.length_eq ht.bins⟩) fun _ _ hs => hs.finish
  exact List.rel_append ht.bins (List.Forall₂.cons (ixhtCreateBin_rel h _) List.Forall₂.nil)

end Split

theorem ixhtRebuildBin_rel (h : ops.Related R ops') {e : Ebin El G} {e' : Ebin El G'}
    (he : EbinRel R e e') (fuel indexesSize elsSize : Nat) :
    Option.Rel (EbinRel R) (ixhtRebuildBin ops key fuel e indexesSize elsSize)
      (ixhtRebuildBin ops' key fuel e' indexesSize elsSize) := by
  have hinit : BinRel R (ixhtRealloc ops e.bin indexesSize elsSize)
      (ixhtRealloc ops' e'.bin indexesSize elsSize) := by
    refine ⟨?_, h.regrow _ he.bin.groups⟩
    simp only [ixhtRealloc, he.bin.els]
    rfl
  unfold ixhtRebuildBin
  rw [he.elsStart, he.bin.elsBound, he.bin.deleted]
  refine map_rel (foldlM_rel (R := fun s s' => s.1 = s'.1 ∧ BinRel R s.2 s'.2) ?_ _ ⟨rfl, hinit⟩)
    fun s s' hs => ⟨he.depth, he.mask, rfl, hs.2⟩
  rintro i ⟨n, b⟩ ⟨n', b'⟩ ⟨rfl, hb⟩
  unfold ixhtReinsert
  rw [hb.elAt]
  cases e.bin.deleted.test? i with
  | none => exact Option.Rel.none
  | some del =>
    simp only [Option.bind_some]
    split
    · exact Option.Rel.some ⟨rfl, hb⟩
    · cases b.elAt i with
      | none => exact Option.Rel.none
      | some x => exact h.reinsert hb fuel n _ x

section Call

variable {t : Ixht El G} {t' : Ixht El G'} {maxPower : Nat}

theorem ixhtPrepare_rel (h : ops.Related R ops') (ht : IxRel R t t') (fuel : Nat)
    (hash : BitVec 64) (action : Action) :
    Option.Rel (fun p p' => IxRel R p.1 p'.1 ∧ p.2 = p'.2)
      (ixhtPrepare maxPower ops key fuel t hash action)
      (ixhtPrepare maxPower ops' key fuel t' hash action) := by
  unfold ixhtPrepare
  rw [ht.binOf]
  cases t'.binOf hash with
  | none => exact Option.Rel.none
  | some binInd =>
    simp only [Option.bind_some]
    refine bind_rel (Forall₂.getElem?_rel ht.bins binInd) fun e e' he => ?_
    have hfull : ixhtFull e = ixhtFull e' := by
      rw [ixhtFull, ixhtFull, he.bin.elsBound, he.bin.halfIndexes]
    have hgrow : ixhtGrow t e = ixhtGrow t' e' := by
      rw [ixhtGrow, ixhtGrow, he.bin.indexesSize, ht.elsNum]
    have hsplits : ixhtSplits maxPower t e = ixhtSplits maxPower t' e' := by
      rw [ixhtSplits, ixhtSplits, hgrow, he.bin.halfIndexes]
    have hfactor : ixhtFactor t e = ixhtFactor t' e' := by
      rw [ixhtFactor, ixhtFactor, hgrow]
    rw [hfull, hfactor, hsplits, he.bin.indexesSize, he.bin.halfIndexes]
    split
    · split
      · refine bind_rel (ixhtSplitBin_rel h ht fuel binInd) fun u u' hu => ?_
        rw [hu.binOf]
        cases u'.binOf hash with
        | none => exact Option.Rel.none
        | some i => exact Option.Rel.some ⟨hu, rfl⟩
      · refine map_rel (ixhtRebuildBin_rel h he fuel _ _) fun e e' he => ⟨?_, rfl⟩
        exact ⟨ht.elsNum, ht.maxDepth, ht.binMask, ht.dir, Forall₂.set ht.bins he binInd⟩
    · exact Option.Rel.some ⟨ht, rfl⟩

theorem Forall₂.modify {α β : Type} {Q : α → β → Prop} {l : List α} {l' : List β}
    (h : List.Forall₂ Q l l') {f : α → α} {g : β → β} (hfg : ∀ a b, Q a b → Q (f a) (g b)) (i : Nat) :
    List.Forall₂ Q (l.modify i f) (l'.modify i g) := by
  induction h generalizing i with
  | nil => simp
  | cons hab htail ih =>
    cases i with
    | zero => exact List.Forall₂.cons (hfg _ _ hab) htail
    | succ i => exact List.Forall₂.cons hab (ih i)

theorem IxRel.setBin (ht : IxRel R t t') {b : Hbin El G} {b' : Hbin El G'} (hb : BinRel R b b')
    (i n : Nat) : IxRel R (t.setBin i n b) (t'.setBin i n b') := by
  refine ⟨rfl, ht.maxDepth, ht.binMask, ht.dir, ?_⟩
  refine Forall₂.modify ht.bins ?_ i
  intro e e' he
  exact ⟨he.depth, he.mask, he.elsStart, hb⟩

theorem ixhtStep_rel (h : ops.Related R ops') (ht : IxRel R t t') (fuel : Nat) (c : Call El) :
    Option.Rel (fun s s' => s.1 = s'.1 ∧ IxRel R s.2 s'.2) (ixhtStep maxPower ops key fuel t c)
      (ixhtStep maxPower ops' key fuel t' c) := by
  have hperform : Option.Rel (fun p p' => p.1 = p'.1 ∧ OutcomeRel R p.2.1 p'.2.1 ∧ IxRel R p.2.2 p'.2.2)
      (ixhtPerform maxPower ops key fuel t c.el c.action)
      (ixhtPerform maxPower ops' key fuel t' c.el c.action) := by
    refine bind_rel (ixhtPrepare_rel h ht fuel _ c.action) fun p p' hp => ?_
    rw [hp.2]
    refine bind_rel (Forall₂.getElem?_rel hp.1.bins _) fun e e' he => ?_
    rw [hp.1.elsNum]
    refine map_rel (h.do1 he.bin fuel _ _ c.el c.action) fun r r' hr => ⟨rfl, hr, ?_⟩
    rw [hr.elsNum]
    exact hp.1.setBin hr.bin p'.2 r'.elsNum
  refine bind_rel hperform fun p p' hp => map_rel (hp.2.1.written c) fun b b' hb => ⟨?_, ?_⟩
  · rw [hp.1, hp.2.1.found, hp.2.1.res, hp.2.1.value]
  · rw [hp.1, hp.2.2.elsNum]
    exact hp.2.2.setBin hb _ _

end Call

def ixhtSession (maxPower : Nat) (ops : BinOps El G) (key : Key El) (fuel minSize : Nat)
    (calls : List (Call El)) : Option (List (Reply (Nat × Nat) El) × Ixht El G) :=
  (ixhtCreate maxPower ops fuel minSize).bind fun t => ixhtRun maxPower ops key fuel t calls

theorem ixhtSession_rel (h : ops.Related R ops') (maxPower fuel minSize : Nat)
    (calls : List (Call El)) :
    Option.Rel (fun s s' => s.1 = s'.1 ∧ IxRel R s.2 s'.2)
      (ixhtSession maxPower ops key fuel minSize calls)
      (ixhtSession maxPower ops' key fuel minSize calls) := by
  refine bind_rel (ixhtCreate_rel h maxPower fuel minSize) fun t t' ht => ?_
  exact runCalls_rel (Q := IxRel R) (fun _ _ c hs => ixhtStep_rel h hs fuel c) ht calls

end Lift

end IndexedHash
