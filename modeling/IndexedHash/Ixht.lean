import Mathlib.Tactic.Common
import IndexedHash.GroupIndex
import IndexedHash.V0Index
import IndexedHash.DenseBin

/-!
# `ixhtab.h`

The table with many bins under an extendible-hashing directory: `ixht_create`,
`ixht_split_bin`, `ixht_perform` and the iterator, over any index (`BinOps`).  As in
`Iht.lean` one text serves `ixhtab.h` and `ixhtab-v0.h`, under the indices `ixhtOps`
and `v0IxhtOps`.

Allocations succeed, so `bins_capacity` is not modelled, and `dir_capacity` is the
length of `dir`.  Counters have 32 bits.  `IXHT_MAX_BIN_SIZE_POWER` is a parameter,
since `ixhtab.hpp` allows smaller values of it.
-/

namespace IndexedHash

open Loop

variable {El G : Type}

def IXHT_MAX_BIN_SIZE_POWER : Nat := 15

/-- `struct ebin_ixht`; the fields it shares with `struct hbin_iht` are in `bin`. -/
structure Ebin (El G : Type) where
  depth : Nat
  mask : Nat
  elsStart : Nat
  bin : Hbin El G

/-- `struct ixht` -/
structure Ixht (El G : Type) where
  elsNum : Nat
  maxDepth : Nat
  binMask : Nat
  dir : List Nat
  bins : List (Ebin El G)

/-- `Hash`, followed by `if (hash == 0) hash = 1;` -/
def Key.nonzero (key : Key El) : Key El :=
  { key with hash := fun x => if key.hash x = 0#64 then 1#64 else key.hash x }

/-- `ixht_do_1` and the index it works on, for a target. -/
def ixhtOps (key : Key El) (target : Target) : BinOps El (List Group) :=
  groupOps ixhtWidths target.ops key.eq

/-- The same in `ixhtab-v0.h`. -/
def v0IxhtOps (key : Key El) (target : Target) : BinOps El V0Index :=
  v0Ops ixhtWidths target.v0IxhtOps key.eq

/-- `(groups_mask + 1) * GROUP_SIZE / 2` -/
def Hbin.halfIndexes (b : Hbin El G) : Nat := b.indexesSize ixhtWidths / 2

/-! ## Creation -/

/-- The three results of `ixht_get_params`. -/
structure IxhtParams where
  bn : Nat
  bp2 : Nat
  bs : Nat

/-- One pass of `while (*bs >= (1u << IXHT_MAX_BIN_SIZE_POWER))`. -/
def ixhtGetParamsBody (maxPower : Nat) (p : IxhtParams) : Option (Step IxhtParams IxhtParams) :=
  some (if 2 ^ maxPower ≤ p.bs then .again ⟨p.bn * 2 % 2 ^ 64, p.bp2 + 1, p.bs / 2⟩ else .leave p)

/-- `ixht_get_params` -/
def ixhtGetParams (maxPower fuel size : Nat) : Option IxhtParams :=
  forever (ixhtGetParamsBody maxPower) fuel ⟨1, 0, size⟩

/-- The bin that `ixht_create_bin` appends.  It leaves `depth` and `mask` to its
    callers, which write them before anything reads them. -/
def ixhtCreateBin (ops : BinOps El G) (size : Nat) : Ebin El G :=
  let size := if size < GROUP_SIZE then GROUP_SIZE else size
  let indexesSize := 2 * size % 2 ^ 32
  let numGroups := indexesSize / GROUP_SIZE
  { depth := 0
    mask := 0
    elsStart := 0
    bin :=
      { elsBound := 0
        els := List.replicate size none
        deleted := Bitmap.zeros ((size + 7) / 8)
        groups := ops.alloc numGroups
        groupsMask := numGroups - 1 } }

/-- One pass of `for (size = 2; min_size > size; size *= 2);`. -/
def ixhtCreateBody (minSize size : Nat) : Option (Step Nat Nat) :=
  some (if size < minSize then .again (size * 2 % 2 ^ 32) else .leave size)

/-- The table `ixht_create` makes of its parameters: bin `i` is entered at `dir[i]`. -/
def ixhtOfParams (ops : BinOps El G) (p : IxhtParams) : Ixht El G :=
  { elsNum := 0
    maxDepth := p.bp2 % 2 ^ 16
    binMask := 2 ^ p.bp2 - 1
    dir := List.range p.bn
    bins := (List.range p.bn).map fun i =>
      { ixhtCreateBin ops p.bs with depth := p.bp2 % 2 ^ 16, mask := i } }

/-- `ixht_create` -/
def ixhtCreate (maxPower : Nat) (ops : BinOps El G) (fuel minSize : Nat) : Option (Ixht El G) :=
  (forever (ixhtCreateBody minSize) fuel 2).bind fun size =>
    (ixhtGetParams maxPower fuel size).map (ixhtOfParams ops)

/-! ## Splitting a bin -/

structure Halves (El G : Type) where
  elsNum : Nat
  bin : Hbin El G
  newBin : Hbin El G
  oldAdded : Bool
  newAdded : Bool

/-- One pass of the inner loop of `ixht_split_bin`. -/
def ixhtDistribute (ops : BinOps El G) (key : Key El) (fuel splitMask : Nat) (s : Halves El G)
    (i : Nat) : Option (Halves El G) :=
  (s.bin.deleted.test? i).bind fun del =>
    if del then some s
    else (s.bin.elAt i).bind fun x =>
      let hash := key.nonzero.hash x
      if hash.toNat &&& splitMask = 0 then
        (reinsert ops fuel s.elsNum s.bin hash x).map fun r =>
          { s with elsNum := r.1, bin := r.2, oldAdded := true }
      else
        (reinsert ops fuel s.elsNum s.newBin hash x).map fun r =>
          { s with elsNum := r.1, newBin := r.2, newAdded := true }

/-- The directory when a bin gets depth `depth`: doubled if that exceeds `max_depth`.
    Neither the shift by 64 nor a length of `2 ^ 32` is defined. -/
def Ixht.deepen (t : Ixht El G) (depth : Nat) : Option (Ixht El G) :=
  if t.maxDepth < depth then
    if depth < 64 ∧ 2 * t.dir.length < 2 ^ 32 then
      some { t with maxDepth := depth, binMask := 2 ^ depth - 1, dir := t.dir ++ t.dir }
    else none
  else some t

/-- `t->dir[mask] = ind` -/
def Ixht.redirect (t : Ixht El G) (mask ind : Nat) : Option (Ixht El G) :=
  if mask < t.dir.length then some { t with dir := t.dir.set mask ind } else none

/-- The variables of the `for (;;)` of `ixht_split_bin`. -/
structure Splitting (El G : Type) where
  table : Ixht El G
  binInd : Nat
  newInd : Nat

/-- The table after a pass over `bin` and `newBin`; `els_num` is as saved. -/
def Splitting.close (s : Splitting El G) (t : Ixht El G) (bin newBin : Ebin El G)
    (h : Halves El G) : Splitting El G :=
  let depth := bin.depth + 1
  { s with
    table := { t with
      bins := (t.bins.set s.binInd { bin with depth := depth, elsStart := 0, bin := h.bin }).set
        s.newInd { newBin with
          depth := depth, mask := bin.mask ||| 2 ^ bin.depth, bin := h.newBin } } }

/-- The bin that a pass reads, with its tags reset and `els_bound` at 0. -/
def Hbin.emptied (b : Hbin El G) (groups : G) : Hbin El G := { b with elsBound := 0, groups := groups }

/-- One pass of `for (;;)`. -/
def ixhtSplitPass (ops : BinOps El G) (key : Key El) (fuel : Nat) (s : Splitting El G) :
    Option (Step (Splitting El G) (Splitting El G)) :=
  s.table.bins[s.newInd]?.bind fun newBin =>
    s.table.bins[s.binInd]?.bind fun bin =>
      (ops.clear bin.bin.numGroups bin.bin.groups).bind fun groups =>
        if 64 ≤ bin.depth then none
        else
          let splitMask := 2 ^ bin.depth
          (s.table.deepen (bin.depth + 1)).bind fun t =>
            (t.redirect (bin.mask ||| splitMask) s.newInd).bind fun t =>
              ((List.range' bin.elsStart (bin.bin.elsBound - bin.elsStart)).foldlM
                (ixhtDistribute ops key fuel splitMask)
                ⟨t.elsNum, bin.bin.emptied groups, newBin.bin, false, false⟩).map fun h =>
                  let next := s.close t bin newBin h
                  if !h.oldAdded then .again { next with binInd := s.newInd, newInd := s.binInd }
                  else if h.newAdded then .leave next
                  else .again next

/-- `memset (deleted, 0, …)` for the capacity of the bin. -/
def Ebin.resetDeleted (b : Ebin El G) : Option (Ebin El G) :=
  let bytes := (b.bin.halfIndexes + 7) / 8
  if bytes ≤ b.bin.deleted.length then
    some { b with bin := { b.bin with deleted := Bitmap.zeros bytes ++ b.bin.deleted.drop bytes } }
  else none

/-- The last four lines of `ixht_split_bin`. -/
def Splitting.finish (s : Splitting El G) : Option (Ixht El G) :=
  s.table.bins[s.binInd]?.bind fun ob => ob.resetDeleted.bind fun ob =>
    s.table.bins[s.newInd]?.bind fun nb => nb.resetDeleted.map fun nb =>
      { s.table with bins := (s.table.bins.set s.binInd ob).set s.newInd nb }

/-- `ixht_split_bin` -/
def ixhtSplitBin (ops : BinOps El G) (key : Key El) (fuel : Nat) (t : Ixht El G) (binInd : Nat) :
    Option (Ixht El G) :=
  t.bins[binInd]?.bind fun bin =>
    (forever (ixhtSplitPass ops key fuel) fuel
      { table := { t with bins := t.bins ++ [ixhtCreateBin ops bin.bin.halfIndexes] }
        binInd := binInd
        newInd := t.bins.length }).bind Splitting.finish

/-! ## `ixht_perform` -/

/-- One pass of the loop of the in-place rebuild, on `els_num` and `b`. -/
def ixhtReinsert (ops : BinOps El G) (key : Key El) (fuel : Nat) (oldDeleted : Bitmap)
    (s : Nat × Hbin El G) (i : Nat) : Option (Nat × Hbin El G) :=
  (oldDeleted.test? i).bind fun del =>
    if del then some s
    else (s.2.elAt i).bind fun x => reinsert ops fuel s.1 s.2 (key.nonzero.hash x) x

/-- The bin after the allocations of the in-place rebuild; `realloc` keeps the
    elements that fit. -/
def ixhtRealloc (ops : BinOps El G) (b : Hbin El G) (indexesSize elsSize : Nat) : Hbin El G :=
  let numGroups := indexesSize / GROUP_SIZE
  { elsBound := 0
    els := b.els.take elsSize ++ List.replicate (elsSize - b.els.length) none
    deleted := Bitmap.zeros ((elsSize + 7) / 8)
    groups := ops.regrow numGroups b.groups
    groupsMask := numGroups - 1 }

/-- The `else` branch of `ixht_perform`: rebuild a bin in place. -/
def ixhtRebuildBin (ops : BinOps El G) (key : Key El) (fuel : Nat) (b : Ebin El G)
    (indexesSize elsSize : Nat) : Option (Ebin El G) :=
  ((List.range' b.elsStart (b.bin.elsBound - b.elsStart)).foldlM
    (ixhtReinsert ops key fuel b.bin.deleted) (0, ixhtRealloc ops b.bin indexesSize elsSize)).map
      fun s => { b with elsStart := 0, bin := s.2 }

/-- `bin->els_bound == els_size` -/
def ixhtFull (b : Ebin El G) : Bool := b.bin.elsBound = b.bin.halfIndexes

/-- `2 * t->els_num >= indexes_size` -/
def ixhtGrow (t : Ixht El G) (b : Ebin El G) : Bool :=
  b.bin.indexesSize ixhtWidths ≤ 2 * t.elsNum % 2 ^ 32

/-- `els_size` after the growth test, as a multiple of what it was -/
def ixhtFactor (t : Ixht El G) (b : Ebin El G) : Nat := if ixhtGrow t b then 2 else 1

/-- `grow && els_size >= (1u << IXHT_MAX_BIN_SIZE_POWER)`, after the doubling -/
def ixhtSplits (maxPower : Nat) (t : Ixht El G) (b : Ebin El G) : Bool :=
  ixhtGrow t b && 2 ^ maxPower ≤ b.bin.halfIndexes * 2 % 2 ^ 32

/-- `t->dir[hash & t->bin_mask]` -/
def Ixht.binOf (t : Ixht El G) (hash : BitVec 64) : Option Nat := t.dir[hash.toNat &&& t.binMask]?

/-- `ixht_perform` up to its last line: the table and the bin for `ixht_do_1`. -/
def ixhtPrepare (maxPower : Nat) (ops : BinOps El G) (key : Key El) (fuel : Nat) (t : Ixht El G)
    (hash : BitVec 64) (action : Action) : Option (Ixht El G × Nat) :=
  (t.binOf hash).bind fun binInd =>
    t.bins[binInd]?.bind fun b =>
      if action = .insert ∧ ixhtFull b then
        if ixhtSplits maxPower t b then
          (ixhtSplitBin ops key fuel t binInd).bind fun t =>
            (t.binOf hash).map fun binInd => (t, binInd)
        else
          (ixhtRebuildBin ops key fuel b (b.bin.indexesSize ixhtWidths * ixhtFactor t b % 2 ^ 32)
            (b.bin.halfIndexes * ixhtFactor t b % 2 ^ 32)).map fun b =>
              ({ t with bins := t.bins.set binInd b }, binInd)
      else some (t, binInd)

/-- The three ways to the last line of `ixht_perform`. -/
inductive PrepareCase (maxPower : Nat) (ops : BinOps El G) (key : Key El) (fuel : Nat)
    (t : Ixht El G) (hash : BitVec 64) (action : Action) (b : Nat) (e : Ebin El G) :
    Ixht El G → Nat → Prop where
  | asIs : ¬ (action = .insert ∧ ixhtFull e) →
      PrepareCase maxPower ops key fuel t hash action b e t b
  | split {t' i} : action = .insert → ixhtFull e = true → ixhtSplits maxPower t e = true →
      ixhtSplitBin ops key fuel t b = some t' → t'.binOf hash = some i →
      PrepareCase maxPower ops key fuel t hash action b e t' i
  | rebuild {e'} : action = .insert → ixhtFull e = true → ixhtSplits maxPower t e = false →
      ixhtRebuildBin ops key fuel e (e.bin.indexesSize ixhtWidths * ixhtFactor t e % 2 ^ 32)
        (e.bin.halfIndexes * ixhtFactor t e % 2 ^ 32) = some e' →
      PrepareCase maxPower ops key fuel t hash action b e { t with bins := t.bins.set b e' } b

/-- The table with another `els_num`, and other contents in bin `i`. -/
def Ixht.setBin (t : Ixht El G) (i elsNum : Nat) (bin : Hbin El G) : Ixht El G :=
  { t with elsNum := elsNum, bins := t.bins.modify i fun b => { b with bin := bin } }

/-- `ixht_perform`: the bin, what `ixht_do_1` returned, and the table. -/
def ixhtPerform (maxPower : Nat) (ops : BinOps El G) (key : Key El) (fuel : Nat) (t : Ixht El G)
    (el : El) (action : Action) : Option (Nat × Outcome El G × Ixht El G) :=
  (ixhtPrepare maxPower ops key fuel t (key.nonzero.hash el) action).bind fun p =>
    p.1.bins[p.2]?.bind fun b =>
      (ops.do1 fuel p.1.elsNum b.bin (key.nonzero.hash el) el action).map fun r =>
        (p.2, r, p.1.setBin p.2 r.elsNum r.bin)

/-- `ixht_els_count` -/
def ixhtElsCount (t : Ixht El G) : Nat := t.elsNum

/-! ## The iterator -/

/-- `struct ixht_iter`; `ptr` is a bin and a position in it, `none` for `NULL`. -/
structure IxhtIter where
  binIdx : Nat
  elIdx : Nat
  ptr : Option (Nat × Nat)

/-- One pass of `while (it->bin_idx < t->bins_num)`. -/
def ixhtIterAdvanceBody (fuel : Nat) (t : Ixht El G) (s : Nat × Nat) :
    Option (Step (Nat × Nat) IxhtIter) :=
  if s.1 < t.bins.length then
    t.bins[s.1]?.bind fun b =>
      (b.bin.advance ixhtWidths fuel s.2).map fun
        | (elIdx, some p) => .leave ⟨s.1, elIdx, some (s.1, p)⟩
        | (elIdx, none) =>
            .again (s.1 + 1, match t.bins[s.1 + 1]? with
              | some next => next.elsStart
              | none => elIdx)
  else some (.leave ⟨s.1, s.2, none⟩)

/-- `ixht_iter_advance` -/
def ixhtIterAdvance (fuel : Nat) (t : Ixht El G) (binIdx elIdx : Nat) : Option IxhtIter :=
  forever (ixhtIterAdvanceBody fuel t) fuel (binIdx, elIdx)

/-- `ixht_iter_begin` -/
def ixhtIterBegin (fuel : Nat) (t : Ixht El G) : Option IxhtIter :=
  ixhtIterAdvance fuel t 0 (match t.bins[0]? with
    | some b => b.elsStart
    | none => 0)

/-- `ixht_iter_valid` -/
def ixhtIterValid (it : IxhtIter) : Bool := it.ptr.isSome

/-- `ixht_iter_next` -/
def ixhtIterNext (fuel : Nat) (t : Ixht El G) (it : IxhtIter) : Option IxhtIter :=
  ixhtIterAdvance fuel t it.binIdx (ixhtWidths.incr it.elIdx)

/-- `*it.ptr` -/
def Ixht.elAt (t : Ixht El G) (p : Nat × Nat) : Option El := t.bins[p.1]?.bind fun b => b.bin.elAt p.2

/-- One pass of `for (it = begin; valid (it); next (it))`, collecting `*it.ptr`. -/
def ixhtVisit (fuel : Nat) (t : Ixht El G) (s : IxhtIter × List El) :
    Option (Step (IxhtIter × List El) (List El)) :=
  if ixhtIterValid s.1 then
    (s.1.ptr.bind t.elAt).bind fun x =>
      (ixhtIterNext fuel t s.1).map fun it => .again (it, s.2 ++ [x])
  else some (.leave s.2)

def ixhtElements (fuel : Nat) (t : Ixht El G) : Option (List El) :=
  (ixhtIterBegin fuel t).bind fun it => forever (ixhtVisit fuel t) fuel (it, [])

/-! ## Sessions -/

def ixhtStep (maxPower : Nat) (ops : BinOps El G) (key : Key El) (fuel : Nat) (t : Ixht El G)
    (c : Call El) : Option (Reply (Nat × Nat) El × Ixht El G) :=
  (ixhtPerform maxPower ops key fuel t c.el c.action).bind fun p =>
    (p.2.1.written c).map fun bin =>
      (⟨p.2.1.found, p.2.1.res.map fun i => (p.1, i), p.2.1.value⟩,
        p.2.2.setBin p.1 p.2.2.elsNum bin)

def ixhtRun (maxPower : Nat) (ops : BinOps El G) (key : Key El) (fuel : Nat) :
    Ixht El G → List (Call El) → Option (List (Reply (Nat × Nat) El) × Ixht El G) :=
  runCalls (ixhtStep maxPower ops key fuel)

/-! ## What a call does before `ixht_do_1` -/

theorem ixhtPrepare_cases {maxPower : Nat} {ops : BinOps El G} {key : Key El} {fuel : Nat}
    {t t' : Ixht El G} {hash : BitVec 64} {action : Action} {i : Nat}
    (h : ixhtPrepare maxPower ops key fuel t hash action = some (t', i)) :
    ∃ b e, t.binOf hash = some b ∧ t.bins[b]? = some e ∧
      PrepareCase maxPower ops key fuel t hash action b e t' i := by
  obtain ⟨b, hb, h⟩ := Option.bind_eq_some_iff.mp h
  obtain ⟨e, he, h⟩ := Option.bind_eq_some_iff.mp h
  refine ⟨b, e, hb, he, ?_⟩
  split at h
  · next hfull =>
      split at h
      · next hsplits =>
          obtain ⟨t₁, ht₁, h⟩ := Option.bind_eq_some_iff.mp h
          obtain ⟨j, hj, heq⟩ := Option.map_eq_some_iff.mp h
          obtain ⟨rfl, rfl⟩ := Prod.mk.inj heq
          exact PrepareCase.split hfull.1 hfull.2 hsplits ht₁ hj
      · next hsplits =>
          obtain ⟨e', he', heq⟩ := Option.map_eq_some_iff.mp h
          obtain ⟨rfl, rfl⟩ := Prod.mk.inj heq
          exact PrepareCase.rebuild hfull.1 hfull.2 (by simpa using hsplits) he'
  · next hfull =>
      obtain ⟨rfl, rfl⟩ := Prod.mk.inj (Option.some.inj h)
      exact PrepareCase.asIs hfull

/-- The write of `ixht_do_1` and the caller's write go to the same bin. -/
theorem Ixht.setBin_setBin {t : Ixht El G} {i : Nat} {e : Ebin El G} (h : t.bins[i]? = some e)
    (m m' : Nat) (b b' : Hbin El G) :
    (t.setBin i m b).setBin i m' b' =
      { t with elsNum := m', bins := t.bins.set i { e with bin := b' } } := by
  have hlt := (List.getElem?_eq_some_iff.mp h).1
  simp only [Ixht.setBin, Ixht.mk.injEq, true_and]
  apply List.ext_getElem?
  intro j
  by_cases hj : i = j
  · subst hj
    simp [h, List.getElem?_set_self hlt]
  · simp [hj]

/-- What a call does, with the bin and the outcome of `ixht_do_1`. -/
theorem ixhtStep_cases {maxPower : Nat} {ops : BinOps El G} {key : Key El} {fuel : Nat}
    {t t' : Ixht El G} {c : Call El} {r : Reply (Nat × Nat) El}
    (h : ixhtStep maxPower ops key fuel t c = some (r, t')) :
    ∃ p i e o bin, ixhtPrepare maxPower ops key fuel t (key.nonzero.hash c.el) c.action =
        some (p, i) ∧ p.bins[i]? = some e ∧
      ops.do1 fuel p.elsNum e.bin (key.nonzero.hash c.el) c.el c.action = some o ∧
      o.written c = some bin ∧
      t' = { p with elsNum := o.elsNum, bins := p.bins.set i { e with bin := bin } } ∧
      r = ⟨o.found, o.res.map fun j => (i, j), o.value⟩ := by
  obtain ⟨⟨i, o, q⟩, hperform, h⟩ := Option.bind_eq_some_iff.mp h
  obtain ⟨bin, hbin, heq⟩ := Option.map_eq_some_iff.mp h
  obtain ⟨rfl, rfl⟩ := Prod.mk.inj heq
  obtain ⟨⟨p, j⟩, hprepare, hperform⟩ := Option.bind_eq_some_iff.mp hperform
  obtain ⟨e, he, hdo⟩ := Option.bind_eq_some_iff.mp hperform
  obtain ⟨o', ho', heq⟩ := Option.map_eq_some_iff.mp hdo
  simp only [Prod.mk.injEq] at heq
  obtain ⟨rfl, rfl, rfl⟩ := heq
  exact ⟨p, j, e, o', bin, hprepare, he, ho', hbin, Ixht.setBin_setBin he _ _ _ _, rfl⟩

/-! ## More fuel never changes a result -/

theorem ixhtCreate_mono (maxPower : Nat) (ops : BinOps El G) (minSize : Nat) :
    Mono fun fuel => ixhtCreate maxPower ops fuel minSize := by
  have hsize : ∀ s, Mono fun _ : Nat => ixhtCreateBody minSize s := fun _ => Mono.const _
  have hparams : ∀ p, Mono fun _ : Nat => ixhtGetParamsBody maxPower p := fun _ => Mono.const _
  exact Mono.bind (Mono.forever hsize 2) fun size => Mono.map (Mono.forever hparams _) _

section Mono

variable {key : Key El} {maxPower : Nat} {ops : BinOps El G}

theorem ixhtSplitPass_mono (hmono : ops.Mono) (s : Splitting El G) :
    Mono fun fuel => ixhtSplitPass ops key fuel s := by
  have hpass : ∀ mask h i, Mono fun fuel => ixhtDistribute ops key fuel mask h i := by
    intro mask h i
    refine Mono.bind (Mono.const _) fun del => Mono.ite (Mono.const _) ?_
    refine Mono.bind (Mono.const _) fun x => Mono.ite ?_ ?_
    · exact Mono.map (hmono.reinsert h.elsNum h.bin _ x) _
    · exact Mono.map (hmono.reinsert h.elsNum h.newBin _ x) _
  refine Mono.bind (Mono.const _) fun newBin => Mono.bind (Mono.const _) fun bin =>
    Mono.bind (Mono.const _) fun groups => Mono.ite (Mono.const _) ?_
  refine Mono.bind (Mono.const _) fun t => Mono.bind (Mono.const _) fun t => ?_
  exact Mono.map (Mono.foldlM (hpass _) _ _) _

theorem ixhtSplitBin_mono (hmono : ops.Mono) (t : Ixht El G) (binInd : Nat) :
    Mono fun fuel => ixhtSplitBin ops key fuel t binInd :=
  Mono.bind (Mono.const _) fun _ =>
    Mono.bind (Mono.forever (ixhtSplitPass_mono hmono) _) fun _ => Mono.const _

theorem ixhtRebuildBin_mono (hmono : ops.Mono) (b : Ebin El G) (indexesSize elsSize : Nat) :
    Mono fun fuel => ixhtRebuildBin ops key fuel b indexesSize elsSize := by
  have hpass : ∀ s i, Mono fun fuel => ixhtReinsert ops key fuel b.bin.deleted s i := by
    intro s i
    refine Mono.bind (Mono.const _) fun del => Mono.ite (Mono.const _) ?_
    exact Mono.bind (Mono.const _) fun x => hmono.reinsert s.1 s.2 _ x
  exact Mono.map (Mono.foldlM hpass _ _) _

theorem ixhtPrepare_mono (hmono : ops.Mono) (t : Ixht El G) (hash : BitVec 64)
    (action : Action) : Mono fun fuel => ixhtPrepare maxPower ops key fuel t hash action := by
  refine Mono.bind (Mono.const _) fun binInd => Mono.bind (Mono.const _) fun b =>
    Mono.ite (Mono.ite ?_ ?_) (Mono.const _)
  · exact Mono.bind (ixhtSplitBin_mono hmono t binInd) fun _ => Mono.const _
  · exact Mono.map (ixhtRebuildBin_mono hmono b _ _) _

theorem ixhtPerform_mono (hmono : ops.Mono) (t : Ixht El G) (el : El)
    (action : Action) : Mono fun fuel => ixhtPerform maxPower ops key fuel t el action :=
  Mono.bind (ixhtPrepare_mono hmono t _ action) fun p =>
    Mono.bind (Mono.const _) fun b => Mono.map (hmono p.1.elsNum b.bin _ el action) _

theorem ixhtStep_mono (hmono : ops.Mono) (t : Ixht El G) (c : Call El) :
    Mono fun fuel => ixhtStep maxPower ops key fuel t c :=
  Mono.bind (ixhtPerform_mono hmono t c.el c.action) fun _ => Mono.const _

end Mono

theorem ixhtIterAdvanceBody_mono (t : Ixht El G) (s : Nat × Nat) :
    Mono fun fuel => ixhtIterAdvanceBody fuel t s :=
  Mono.ite (Mono.bind (Mono.const _) fun b => Mono.map (b.bin.advance_mono ixhtWidths s.2) _)
    (Mono.const _)

theorem ixhtIterAdvance_mono (t : Ixht El G) (binIdx elIdx : Nat) :
    Mono fun fuel => ixhtIterAdvance fuel t binIdx elIdx :=
  Mono.forever (ixhtIterAdvanceBody_mono t) _

theorem ixhtVisit_mono (t : Ixht El G) (s : IxhtIter × List El) :
    Mono fun fuel => ixhtVisit fuel t s :=
  Mono.ite (Mono.bind (Mono.const _) fun _ => Mono.map (ixhtIterAdvance_mono t _ _) _)
    (Mono.const _)

end IndexedHash
