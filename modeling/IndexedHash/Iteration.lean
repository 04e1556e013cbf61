import Mathlib.Tactic.Common
import IndexedHash.Cursor
import IndexedHash.IhtProbes
import IndexedHash.IxhtProbes

/-!
# Iterating while elements are deleted

Between two steps of an iterator the caller may make any FIND and DELETE calls.  These
never move an element and never change `els_bound` (`Shrinks`): they set bits of
`deleted`, and the caller may write to elements.  So the iterator is a cursor over the
positions that were live when it began, and what it meets is the sweep of `Cursor.lean`.

Nothing is assumed about `Hash` and `Eq`, and the states are arbitrary reachable ones.
-/

namespace IndexedHash

open Loop Cursor

variable {El : Type} {key : Key El} {target : Target} {maxPower : Nat}

def Hbin.view {G : Type} (b : Hbin El G) (i : Nat) : Option El :=
  if b.deleted.test i then none else b.elAt i

theorem Probeable.scannable {w : Widths} {b : Hbin El (List Group)} (h : Probeable w b) :
    b.Scannable w := by
  refine ⟨h.bits, ?_, fun i hi _ => h.initialised i hi⟩
  have hroom := h.room
  have hsmall := h.small
  omega

/-! ## `ihtab.h` -/

section Iht

variable {t₀ t : Iht El (List Group)}

def Iht.positions {G : Type} (t : Iht El G) : List Nat := t.bin.positionsFrom 0

def ihtBatch {G : Type} (ops : BinOps El G) (key : Key El) (fuel : Nat) (t : Iht El G)
    (calls : List (Call El)) : Option (Iht El G) :=
  (ihtRun ops key fuel t calls).map Prod.snd

def IhtIter.Ahead {G : Type} (t₀ : Iht El G) (it : IhtIter) (rest : List Nat) : Prop :=
  it.elIdx < t₀.bin.elsBound ∧ rest = t₀.bin.positionsFrom (it.elIdx + 1)

theorem ihtIterAdvance_landed (hs : Shrinks t₀.bin t.bin) (h : Probeable ihtWidths t.bin) (i : Nat) :
    ∃ it, Returns (fun fuel => ihtIterAdvance fuel t i) it ∧
      Landed IhtIter.ptr (fun t i => t.bin.elAt i) (fun t i => t.bin.view i) (IhtIter.Ahead t₀) t it
        (t₀.bin.positionsFrom i) := by
  obtain ⟨j, p, hreturns, hscan, hcase⟩ := h.scannable.advance_scan i
  have hview : ∀ k, t.bin.deleted.test k = true → t.bin.view k = none := fun k hk => if_pos hk
  refine ⟨⟨j, p⟩, hreturns.map fun s => IhtIter.mk s.1 s.2, ?_⟩
  unfold Landed
  rcases hcase with ⟨rfl, -⟩ | rfl
  · rw [settle_eq_none fun k hk => hview k (hscan.dead hs k hk)]
  · obtain ⟨pre, hsplit, hdead⟩ := hscan.first hs
    cases hscan with
    | stop _ hj hlive _ =>
      obtain ⟨x, hx⟩ := h.initialised j hj
      have hxv : t.bin.view j = some x := by rw [Hbin.view, hlive, ← hx]; rfl
      rw [hsplit, settle_of_split (fun k hk => hview k (hdead k hk)) hxv]
      exact ⟨rfl, hx, hs.elsBound ▸ hj, rfl⟩

theorem ihtStep_shrinks (key : Key El) (target : Target) (h : Probeable ihtWidths t.bin)
    {c : Call El} (haction : c.action ≠ .insert) :
    ∃ r t', Returns (fun fuel => ihtStep (ihtOps key target) key fuel t c) (r, t') ∧
      Probeable ihtWidths t'.bin ∧ Shrinks t.bin t'.bin := by
  obtain ⟨o, ho, he⟩ := h.do1 target.lawful key.eq t.elsNum (key.hash c.el) c.el c.action
    (Nat.lt_succ_self t.bin.groupsMask)
  obtain ⟨b', hb', hshrinks⟩ := he.shrinks h haction c
  refine ⟨⟨o.found, o.res, o.value⟩, ⟨o.elsNum, b'⟩, ?_, (he.written h hb').1, hshrinks⟩
  refine (ihtStep_mono (ihtOps_mono key target) t c).returns (n := t.bin.groupsMask + 1) ?_
  have hdo : (ihtOps key target).do1 (t.bin.groupsMask + 1) t.elsNum t.bin (key.hash c.el) c.el
      c.action = some o := ho
  rw [ihtStep, ihtPerform, if_neg (fun hfull => haction hfull.1), Option.bind_some, hdo,
    Option.bind_some, hb', Option.map_some]

theorem ihtBatch_shrinks (h : Probeable ihtWidths t.bin) (hs : Shrinks t₀.bin t.bin)
    {calls : List (Call El)} (hcalls : ∀ c ∈ calls, c.action ≠ .insert) :
    ∃ t', Returns (fun fuel => ihtBatch (ihtOps key target) key fuel t calls) t' ∧
      Probeable ihtWidths t'.bin ∧ Shrinks t₀.bin t'.bin := by
  obtain ⟨rs, t', hrun, ht'⟩ := Returns.run_invariant
    (fun fuel => ihtStep (ihtOps key target) key fuel)
    (fun t => Probeable ihtWidths t.bin ∧ Shrinks t₀.bin t.bin) (fun t c ht hc => by
      obtain ⟨r, t', hstep, hprobe, hshrinks⟩ := ihtStep_shrinks key target ht.1 hc
      exact ⟨r, t', hstep, hprobe, ht.2.trans hshrinks⟩) ⟨h, hs⟩ hcalls
  exact ⟨t', hrun.map Prod.snd, ht'⟩

end Iht

/-! ## `ixhtab.h` -/

section Ixht

variable {t₀ t : Ixht El (List Group)}

def Ixht.view {G : Type} (t : Ixht El G) (p : Nat × Nat) : Option El :=
  t.bins[p.1]?.bind fun e => e.bin.view p.2

def Ixht.positions {G : Type} (t : Ixht El G) : List (Nat × Nat) :=
  (List.range t.bins.length).flatMap fun k => t.binPositions k 0

def ixhtBatch {G : Type} (maxPower : Nat) (ops : BinOps El G) (key : Key El) (fuel : Nat)
    (t : Ixht El G) (calls : List (Call El)) : Option (Ixht El G) :=
  (ixhtRun maxPower ops key fuel t calls).map Prod.snd

def IxhtIter.Ahead {G : Type} (t₀ : Ixht El G) (it : IxhtIter) (rest : List (Nat × Nat)) : Prop :=
  (∃ e, t₀.bins[it.binIdx]? = some e ∧ it.elIdx < e.bin.elsBound) ∧
    rest = t₀.positionsFrom it.binIdx (it.elIdx + 1)

theorem ixhtIterAdvance_landed (hs : IxShrinks t₀ t) (h : IxProbeable maxPower t) (k i : Nat) :
    ∃ it, Returns (fun fuel => ixhtIterAdvance fuel t k i) it ∧
      Landed IxhtIter.ptr Ixht.elAt Ixht.view (IxhtIter.Ahead t₀) t it (t₀.positionsFrom k i) := by
  obtain ⟨it, hreturns, hscan, hptr⟩ := ixhtIterAdvance_scan
    (fun e he => (h.bins e he).1.bin.scannable) k i
  have hview : ∀ q, t.DeletedAt q → t.view q = none := by
    rintro q ⟨e, he, hdel⟩
    rw [Ixht.view, he, Option.bind_some]
    exact if_pos hdel
  refine ⟨it, hreturns, ?_⟩
  unfold Landed
  cases hp : it.ptr with
  | none => rw [settle_eq_none fun q hq => hview q ((hscan.split hs).1 hp q hq)]
  | some p =>
    obtain rfl := hptr p hp
    obtain ⟨⟨e, he, hj, hlive⟩, pre, hsplit, hdead⟩ := (hscan.split hs).2 _ _ hp
    obtain ⟨x, hx⟩ := (h.bins e (List.mem_of_getElem? he)).1.bin.initialised _ hj
    have helAt : t.elAt (it.binIdx, it.elIdx) = some x := by
      rw [Ixht.elAt, he, Option.bind_some, hx]
    have hxv : t.view (it.binIdx, it.elIdx) = some x := by
      rw [Ixht.view, he, Option.bind_some, Hbin.view, hlive, ← hx]
      rfl
    rw [hsplit, settle_of_split (fun q hq => hview q (hdead q hq)) hxv]
    refine ⟨rfl, helAt, ?_, rfl⟩
    have he₀ := List.getElem?_eq_getElem (hs.length ▸ (List.getElem?_eq_some_iff.mp he).1)
    exact ⟨_, he₀, (hs.bins he₀ he).1.elsBound ▸ hj⟩

/-- The directory leads every hash to a bin. -/
theorem IxProbeable.binOf (h : IxProbeable maxPower t) (hash : BitVec 64) :
    ∃ b e, t.binOf hash = some b ∧ t.bins[b]? = some e := by
  have hlt : hash.toNat &&& t.binMask < t.dir.length := by
    rw [h.mask, Nat.and_two_pow_sub_one_eq_mod, h.length]
    exact Nat.mod_lt _ (Nat.two_pow_pos _)
  have hbin := h.entries _ (List.getElem_mem hlt)
  exact ⟨_, _, List.getElem?_eq_getElem hlt, List.getElem?_eq_getElem hbin⟩

theorem ixhtStep_shrinks (key : Key El) (target : Target) (hpower : PowerOk maxPower)
    (h : IxProbeable maxPower t) {c : Call El} (haction : c.action ≠ .insert) :
    ∃ r t', Returns (fun fuel => ixhtStep maxPower (ixhtOps key target) key fuel t c) (r, t') ∧
      IxProbeable maxPower t' ∧ IxShrinks t t' := by
  obtain ⟨b, e, hb, he⟩ := h.binOf (key.nonzero.hash c.el)
  obtain ⟨hok, -⟩ := h.bins e (List.mem_of_getElem? he)
  obtain ⟨o, ho, heffect⟩ := hok.bin.do1 target.lawful key.eq t.elsNum (key.nonzero.hash c.el) c.el
    c.action (Nat.lt_succ_self e.bin.groupsMask)
  obtain ⟨bin, hbin, hshrinks⟩ := heffect.shrinks hok.bin haction c
  have hdo : (ixhtOps key target).do1 (e.bin.groupsMask + 1) t.elsNum e.bin
      (key.nonzero.hash c.el) c.el c.action = some o := ho
  have hprepare : ixhtPrepare maxPower (ixhtOps key target) key (e.bin.groupsMask + 1) t
      (key.nonzero.hash c.el) c.action = some (t, b) := by
    rw [ixhtPrepare, hb, Option.bind_some, he, Option.bind_some,
      if_neg (fun hfull => haction hfull.1)]
  obtain ⟨r, t', hstep, ht'⟩ : ∃ r t', ixhtStep maxPower (ixhtOps key target) key
      (e.bin.groupsMask + 1) t c = some (r, t') ∧
      t' = { t with elsNum := o.elsNum, bins := t.bins.set b { e with bin := bin } } := by
    refine ⟨⟨o.found, o.res.map fun i => (b, i), o.value⟩, _, ?_, rfl⟩
    simp only [ixhtStep, ixhtPerform, hprepare, he, hdo, hbin, Option.bind_some, Option.map_some]
    rw [Ixht.setBin_setBin he]
    rfl
  refine ⟨r, t', (ixhtStep_mono (ixhtOps_mono key target) t c).returns hstep, h.step hpower hstep, ?_⟩
  subst ht'
  refine ⟨List.length_set, fun {k f f'} hf hf' => ?_⟩
  by_cases hk : b = k
  · subst hk
    rw [List.getElem?_set_self (List.getElem?_eq_some_iff.mp he).1, Option.some.injEq] at hf'
    rw [he, Option.some.injEq] at hf
    rw [← hf, ← hf']
    exact ⟨hshrinks, rfl⟩
  · rw [List.getElem?_set_ne hk, hf, Option.some.injEq] at hf'
    exact hf' ▸ ⟨Shrinks.refl _, rfl⟩

theorem ixhtBatch_shrinks (hpower : PowerOk maxPower) (h : IxProbeable maxPower t)
    (hs : IxShrinks t₀ t) {calls : List (Call El)} (hcalls : ∀ c ∈ calls, c.action ≠ .insert) :
    ∃ t', Returns (fun fuel => ixhtBatch maxPower (ixhtOps key target) key fuel t calls) t' ∧
      IxProbeable maxPower t' ∧ IxShrinks t₀ t' := by
  obtain ⟨rs, t', hrun, ht'⟩ := Returns.run_invariant
    (fun fuel => ixhtStep maxPower (ixhtOps key target) key fuel)
    (fun t => IxProbeable maxPower t ∧ IxShrinks t₀ t) (fun t c ht hc => by
      obtain ⟨r, t', hstep, hprobe, hshrinks⟩ := ixhtStep_shrinks key target hpower ht.1 hc
      exact ⟨r, t', hstep, hprobe, ht.2.trans hshrinks⟩) ⟨h, hs⟩ hcalls
  exact ⟨t', hrun.map Prod.snd, ht'⟩

end Ixht

/-! ## Both iterators -/

/-- The iterator from `begin` on over `t`, moved on after each of the batches, sees what
    a cursor over the positions `ps` sees, and has ended when there were batches enough. -/
def Sweeping {τ ι π : Type} (ptr : ι → Option π) (elAt view : τ → π → Option El)
    (begin : Nat → τ → Option ι) (next : Nat → τ → ι → Option ι)
    (batch : Nat → τ → List (Call El) → Option τ) (t : τ) (ps : List π)
    (batches : List (List (Call El))) : Prop :=
  ∃ it ts seen it', Returns (fun fuel => begin fuel t) it ∧
    Returns (fun fuel => states (batch fuel) t batches) ts ∧
    Returns (fun fuel => interleaved ptr elAt (batch fuel) (next fuel) t it batches) (seen, it') ∧
    Sweeps view ps ts seen ∧ (ps.length ≤ batches.length → ptr it' = none)

/-- From what one batch and one step do to what the whole iteration sees. -/
theorem Sweeping.of_landed {τ ι π : Type} {ptr : ι → Option π} {elAt view : τ → π → Option El}
    {begin : Nat → τ → Option ι} {next : Nat → τ → ι → Option ι}
    {batch : Nat → τ → List (Call El) → Option τ} {t : τ} {ps : List π} (good : τ → Prop)
    (ahead : ι → List π → Prop) (ht : good t)
    (hbegin : ∃ it, Returns (fun fuel => begin fuel t) it ∧ Landed ptr elAt view ahead t it ps)
    (hbatch : ∀ s calls, good s → (∀ c ∈ calls, c.action ≠ .insert) →
      ∃ s', Returns (fun fuel => batch fuel s calls) s' ∧ good s')
    (hnext : ∀ s it rest, good s → ahead it rest →
      ∃ it', Returns (fun fuel => next fuel s it) it' ∧ Landed ptr elAt view ahead s it' rest)
    {batches : List (List (Call El))} (hbatches : ∀ cs ∈ batches, ∀ c ∈ cs, c.action ≠ .insert) :
    Sweeping ptr elAt view begin next batch t ps batches := by
  obtain ⟨it, hit, hlanded⟩ := hbegin
  obtain ⟨ts, hts, -⟩ := states_returns hbatch ht hbatches
  obtain ⟨it', hseen, hend⟩ := interleaved_eq hbatch hnext ht hlanded hbatches hts
  exact ⟨it, _, _, it', hit, hts, hseen, sweeps_sweep _ _ _, hend⟩

theorem IxProbeable.positions_eq {t : Ixht El (List Group)} (h : IxProbeable maxPower t) :
    t.positions = t.positionsFrom 0 (t.startAt 0) := by
  have hstart : ∀ k, t.startAt k = 0 := by
    intro k
    unfold Ixht.startAt
    cases he : t.bins[k]? with
    | none => rfl
    | some e => exact (h.bins e (List.mem_of_getElem? he)).1.start
  rw [Ixht.positionsFrom_start, Ixht.positions, List.range_eq_range', Nat.sub_zero]
  simp only [hstart]

theorem Hbin.positionsFrom_nodup {G : Type} (b : Hbin El G) (i : Nat) : (b.positionsFrom i).Nodup :=
  List.Nodup.filter _ List.nodup_range'

theorem Ixht.positions_nodup {G : Type} (t : Ixht El G) : t.positions.Nodup := by
  refine List.nodup_flatMap.mpr ⟨fun k _ => ?_, ?_⟩
  · refine List.Nodup.map (fun _ _ heq => (Prod.mk.inj heq).2) ?_
    cases t.bins[k]? with
    | none => exact List.nodup_nil
    | some e => exact e.bin.positionsFrom_nodup 0
  · refine List.nodup_range.imp ?_
    intro k k' hne q hq hq'
    apply hne
    obtain ⟨j, -, rfl⟩ := List.mem_map.mp hq
    obtain ⟨j', -, heq⟩ := List.mem_map.mp hq'
    exact (Prod.mk.inj heq).1.symm

/-- Iteration while elements are deleted, in every reachable state of both tables. -/
theorem iteration_stable (key : Key El) (target : Target) (hpower : PowerOk maxPower)
    {batches : List (List (Call El))} (hbatches : ∀ cs ∈ batches, ∀ c ∈ cs, c.action ≠ .insert) :
    (∀ t, IhtReachable (ihtOps key target) key t → t.positions.Nodup ∧
      Sweeping IhtIter.ptr (fun t i => t.bin.elAt i) (fun t i => t.bin.view i) ihtIterBegin
        ihtIterNext (ihtBatch (ihtOps key target) key) t t.positions batches) ∧
    ∀ t, IxhtReachable maxPower (ixhtOps key target) key t → t.positions.Nodup ∧
      Sweeping IxhtIter.ptr Ixht.elAt Ixht.view ixhtIterBegin ixhtIterNext
        (ixhtBatch maxPower (ixhtOps key target) key) t t.positions batches := by
  constructor
  · intro t h
    obtain ⟨hprobe, -⟩ := h.probeable
    refine ⟨t.bin.positionsFrom_nodup 0, Sweeping.of_landed
      (fun s => Probeable ihtWidths s.bin ∧ Shrinks t.bin s.bin) (IhtIter.Ahead t) ⟨hprobe, Shrinks.refl t.bin⟩
      (ihtIterAdvance_landed (Shrinks.refl t.bin) hprobe 0)
      (fun s calls hs hcalls => ihtBatch_shrinks hs.1 hs.2 hcalls) ?_ hbatches⟩
    rintro s it rest ⟨hs, hshrinks⟩ ⟨hlt, rfl⟩
    have hcounter : s.bin.elsBound < 2 ^ ihtWidths.size := hs.scannable.counter
    have hbound := hshrinks.elsBound
    have hincr : ihtWidths.incr it.elIdx = it.elIdx + 1 := Widths.incr_eq (by omega)
    simp only [ihtIterNext, hincr]
    exact ihtIterAdvance_landed hshrinks hs (it.elIdx + 1)
  · intro t h
    have hprobe := h.probeable hpower
    refine ⟨t.positions_nodup, Sweeping.of_landed
      (fun s => IxProbeable maxPower s ∧ IxShrinks t s) (IxhtIter.Ahead t) ⟨hprobe, IxShrinks.refl t⟩
      ?_ (fun s calls hs hcalls => ixhtBatch_shrinks hpower hs.1 hs.2 hcalls) ?_ hbatches⟩
    · simp only [ixhtIterBegin_eq, hprobe.positions_eq]
      exact ixhtIterAdvance_landed (IxShrinks.refl t) hprobe 0 (t.startAt 0)
    · rintro s it rest ⟨hs, hshrinks⟩ ⟨⟨e, he, hlt⟩, rfl⟩
      have he' := List.getElem?_eq_getElem (hshrinks.length ▸ (List.getElem?_eq_some_iff.mp he).1)
      have hcounter := (hs.bins _ (List.mem_of_getElem? he')).1.bin.scannable.counter
      have hbound := (hshrinks.bins he he').1.elsBound
      have hincr : ixhtWidths.incr it.elIdx = it.elIdx + 1 := Widths.incr_eq (by omega)
      simp only [ixhtIterNext, hincr]
      exact ixhtIterAdvance_landed hshrinks hs it.binIdx (it.elIdx + 1)

def deletingBatches : List (List (Call (BitVec 64))) :=
  [plainCalls [(.find, 5#64), (.delete, 6#64)], []]

theorem iteration_stable_deleting :
    ∃ t, IhtReachable (ihtOps identityKey .swar) identityKey t ∧
      Sweeping IhtIter.ptr (fun t i => t.bin.elAt i) (fun t i => t.bin.view i) ihtIterBegin
        ihtIterNext (ihtBatch (ihtOps identityKey .swar) identityKey) t t.positions deletingBatches ∧
    ∃ t', IxhtReachable 15 (ixhtOps identityKey .swar) identityKey t' ∧
      Sweeping IxhtIter.ptr Ixht.elAt Ixht.view ixhtIterBegin ixhtIterNext
        (ixhtBatch 15 (ixhtOps identityKey .swar) identityKey) t' t'.positions deletingBatches := by
  have hbatches : ∀ calls ∈ deletingBatches, ∀ c ∈ calls, c.action ≠ .insert := by decide
  obtain ⟨hiht, hixht⟩ := iteration_stable identityKey .swar powerOk_source hbatches
  obtain ⟨t, ht, -⟩ := churnSample_reachable
  have hrun : ((ixhtCreate 15 (ixhtOps identityKey .swar) 4 8).bind fun t =>
      (ixhtRun 15 (ixhtOps identityKey .swar) identityKey 2 t churnSample).map fun s => s.2.elsNum) =
      some 1 := by
    decide +kernel
  obtain ⟨t₀, hcreate, hrun⟩ := Option.bind_eq_some_iff.mp hrun
  obtain ⟨⟨rs, t'⟩, hrun, -⟩ := Option.map_eq_some_iff.mp hrun
  have ht' := (IxhtReachable.create hcreate).run hrun
  exact ⟨t, ht, (hiht t ht).2, t', ht', (hixht t' ht').2⟩

end IndexedHash
