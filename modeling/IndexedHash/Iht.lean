import Mathlib.Tactic.Common
import IndexedHash.GroupIndex
import IndexedHash.V0Index
import IndexedHash.DenseBin

/-!
# `ihtab.h`

The table with one bin: `iht_create`, `iht_rebuild`, `iht_perform` and the
iterator, over any index (`BinOps`).  The text of these functions is the same in
`ihtab.h` and `ihtab-v0.h`; `ihtOps` and `v0IhtOps` are the two indices.

Allocations succeed.  The arithmetic is that of `iht_size_t`, of 64 bits.
-/

namespace IndexedHash

open Loop

variable {El G : Type}

def LF_FACTOR : Nat := 1
def LF_DIVISOR : Nat := 2

/-- `struct iht` -/
structure Iht (El G : Type) where
  elsNum : Nat
  bin : Hbin El G

/-- `iht_do_1` and the index it works on, for a target. -/
def ihtOps (key : Key El) (target : Target) : BinOps El (List Group) :=
  groupOps ihtWidths target.ops key.eq

/-- The same in `ihtab-v0.h`. -/
def v0IhtOps (key : Key El) (target : Target) : BinOps El V0Index :=
  v0Ops ihtWidths target.v0IhtOps key.eq

/-- The bin that `iht_create` and `iht_rebuild` allocate. -/
def ihtAllocBin (ops : BinOps El G) (indexesSize : Nat) : Hbin El G :=
  let elsSize := indexesSize * LF_FACTOR / LF_DIVISOR
  let numGroups := indexesSize / GROUP_SIZE
  { elsBound := 0
    els := List.replicate elsSize none
    deleted := Bitmap.zeros ((elsSize + 7) / 8)
    groups := ops.alloc numGroups
    groupsMask := numGroups - 1 }

/-- One pass of `while (indexes_size * LF_FACTOR / LF_DIVISOR < min_size)`. -/
def ihtCreateBody (minSize indexesSize : Nat) : Option (Step Nat Nat) :=
  some (if indexesSize * LF_FACTOR / LF_DIVISOR < minSize then .again (indexesSize * 2 % 2 ^ 64)
    else .leave indexesSize)

/-- `iht_create` -/
def ihtCreate (ops : BinOps El G) (fuel minSize : Nat) : Option (Iht El G) :=
  (forever (ihtCreateBody minSize) fuel GROUP_SIZE).map fun indexesSize =>
    { elsNum := 0, bin := ihtAllocBin ops indexesSize }

/-- One pass of the loop of `iht_rebuild`, on `els_num` and `rb`. -/
def ihtReinsert (ops : BinOps El G) (key : Key El) (fuel : Nat) (bin : Hbin El G)
    (s : Nat × Hbin El G) (i : Nat) : Option (Nat × Hbin El G) :=
  (bin.deleted.test? i).bind fun del =>
    if del then some s
    else (bin.elAt i).bind fun x => reinsert ops fuel s.1 s.2 (key.hash x) x

/-- `indexes_size` of the bin that `iht_rebuild` allocates. -/
def ihtRebuildSize (t : Iht El G) : Nat :=
  let indexesSize := t.bin.indexesSize ihtWidths
  if 2 * LF_DIVISOR * t.elsNum % 2 ^ 64 ≥ LF_FACTOR * indexesSize then indexesSize * 2 % 2 ^ 64
  else indexesSize

/-- `iht_rebuild` -/
def ihtRebuild (ops : BinOps El G) (key : Key El) (fuel : Nat) (t : Iht El G) :
    Option (Iht El G) :=
  ((List.range t.bin.elsBound).foldlM (ihtReinsert ops key fuel t.bin)
    (t.elsNum, ihtAllocBin ops (ihtRebuildSize t))).map fun s => { elsNum := t.elsNum, bin := s.2 }

/-- `els_bound >= els_size`, where `els_size` is one less than the capacity -/
def ihtFull (t : Iht El G) : Bool :=
  ihtWidths.decr (t.bin.indexesSize ihtWidths * LF_FACTOR / LF_DIVISOR) ≤ t.bin.elsBound

/-- `iht_perform` -/
def ihtPerform (ops : BinOps El G) (key : Key El) (fuel : Nat) (t : Iht El G) (el : El)
    (action : Action) : Option (Outcome El G) :=
  (if action = .insert ∧ ihtFull t then ihtRebuild ops key fuel t else some t).bind fun t =>
    ops.do1 fuel t.elsNum t.bin (key.hash el) el action

/-- `iht_els_count` -/
def ihtElsCount (t : Iht El G) : Nat := t.elsNum

/-- `iht_size` -/
def ihtSize (t : Iht El G) : Nat := t.bin.indexesSize ihtWidths * LF_FACTOR / LF_DIVISOR

/-! ## The iterator -/

/-- `struct iht_iter`; `ptr` is the position it points to, `none` for `NULL`. -/
structure IhtIter where
  elIdx : Nat
  ptr : Option Nat

/-- `iht_iter_advance` -/
def ihtIterAdvance (fuel : Nat) (t : Iht El G) (elIdx : Nat) : Option IhtIter :=
  (t.bin.advance ihtWidths fuel elIdx).map fun s => ⟨s.1, s.2⟩

/-- `iht_iter_begin` -/
def ihtIterBegin (fuel : Nat) (t : Iht El G) : Option IhtIter := ihtIterAdvance fuel t 0

/-- `iht_iter_valid` -/
def ihtIterValid (it : IhtIter) : Bool := it.ptr.isSome

/-- `iht_iter_next` -/
def ihtIterNext (fuel : Nat) (t : Iht El G) (it : IhtIter) : Option IhtIter :=
  ihtIterAdvance fuel t (ihtWidths.incr it.elIdx)

/-- One pass of `for (it = begin; valid (it); next (it))`, collecting `*it.ptr`. -/
def ihtVisit (fuel : Nat) (t : Iht El G) (s : IhtIter × List El) :
    Option (Step (IhtIter × List El) (List El)) :=
  if ihtIterValid s.1 then
    (s.1.ptr.bind t.bin.elAt).bind fun x =>
      (ihtIterNext fuel t s.1).map fun it => .again (it, s.2 ++ [x])
  else some (.leave s.2)

def ihtElements (fuel : Nat) (t : Iht El G) : Option (List El) :=
  (ihtIterBegin fuel t).bind fun it => forever (ihtVisit fuel t) fuel (it, [])

/-! ## Sessions -/

def ihtStep (ops : BinOps El G) (key : Key El) (fuel : Nat) (t : Iht El G) (c : Call El) :
    Option (Reply Nat El × Iht El G) :=
  (ihtPerform ops key fuel t c.el c.action).bind fun r =>
    (r.written c).map fun b => (⟨r.found, r.res, r.value⟩, { elsNum := r.elsNum, bin := b })

def ihtRun (ops : BinOps El G) (key : Key El) (fuel : Nat) :
    Iht El G → List (Call El) → Option (List (Reply Nat El) × Iht El G) :=
  runCalls (ihtStep ops key fuel)

/-! ## More fuel never changes a result -/

theorem ihtCreate_mono (ops : BinOps El G) (minSize : Nat) :
    Mono fun fuel => ihtCreate ops fuel minSize := by
  have h : ∀ s, Mono fun _ : Nat => ihtCreateBody minSize s := fun _ => Mono.const _
  exact Mono.map (Mono.forever h GROUP_SIZE) _

theorem ihtIterAdvance_mono (t : Iht El G) (elIdx : Nat) :
    Mono fun fuel => ihtIterAdvance fuel t elIdx :=
  Mono.map (t.bin.advance_mono ihtWidths elIdx) _

theorem ihtVisit_mono (t : Iht El G) (s : IhtIter × List El) :
    Mono fun fuel => ihtVisit fuel t s :=
  Mono.ite (Mono.bind (Mono.const _) fun _ => Mono.map (ihtIterAdvance_mono t _) _) (Mono.const _)

section Mono

variable {key : Key El} {ops : BinOps El G}

theorem ihtRebuild_mono (hmono : ops.Mono) (t : Iht El G) :
    Mono fun fuel => ihtRebuild ops key fuel t := by
  have hpass : ∀ s i, Mono fun fuel => ihtReinsert ops key fuel t.bin s i := by
    intro s i
    refine Mono.bind (Mono.const _) fun del => Mono.ite (Mono.const _) ?_
    exact Mono.bind (Mono.const _) fun x => hmono.reinsert s.1 s.2 (key.hash x) x
  unfold ihtRebuild
  exact Mono.map (Mono.foldlM hpass _ _) _

theorem ihtPerform_mono (hmono : ops.Mono) (t : Iht El G) (el : El)
    (action : Action) : Mono fun fuel => ihtPerform ops key fuel t el action :=
  Mono.bind (Mono.ite (ihtRebuild_mono hmono t) (Mono.const _)) fun t =>
    hmono t.elsNum t.bin (key.hash el) el action

theorem ihtStep_mono (hmono : ops.Mono) (t : Iht El G) (c : Call El) :
    Mono fun fuel => ihtStep ops key fuel t c :=
  Mono.bind (ihtPerform_mono hmono t c.el c.action) fun _ => Mono.const _

end Mono

end IndexedHash
