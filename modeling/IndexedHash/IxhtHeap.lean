import Mathlib.Tactic.Common
import IndexedHash.IhtHeap
import IndexedHash.Ixht

/-!
# `ixhtab.h` on a heap

The table of `Ixht.lean` with its memory management.  Besides the three blocks of each bin it
has two of its own: the directory, which doubles by `realloc`, and the array of the bin
records, which grows by `realloc` to `bins_capacity` whenever `bins_num` has reached it.  Both
move when they grow, so a pointer to a record does not survive `ixht_create_bin`, and
`ixht_split_bin` takes its pointers anew in every pass.

`IxhtAt` says which blocks a table has.  `IxhtAt.focus` takes the blocks of one bin out of
them and says how to put them back; the rules for the accesses to a record follow from it.
-/

namespace IndexedHash

open Loop HeapM

variable {El G : Type}

/-! ## The code -/

/-- `struct ixht`; `bins` is `none` for `NULL`. -/
structure IxhtPtr where
  elsNum : Nat
  maxDepth : Nat
  binMask : Nat
  dir : Nat
  dirCapacity : Nat
  bins : Option Nat
  binsNum : Nat
  binsCapacity : Nat

namespace Block

def bins? : Block El G → Option (List (Option EbinPtr))
  | .bins records => some records
  | _ => none

def dir? : Block El G → Option (List (Option Nat))
  | .dir entries => some entries
  | _ => none

end Block

/-- `t->bins[i]` -/
def getBin (t : IxhtPtr) (i : Nat) : HeapM (Block El G) EbinPtr := do
  let a ← lift t.bins
  let records ← loadAs Block.bins? a
  lift records[i]?.join

/-- `t->bins[i] = q` -/
def putBin (t : IxhtPtr) (i : Nat) (q : EbinPtr) : HeapM (Block El G) Unit := do
  let a ← lift t.bins
  let records ← loadAs Block.bins? a
  if i < records.length then store a (.bins (records.set i (some q))) else lift none

/-- Assignments to fields of `t->bins[i]`. -/
def modifyBin (t : IxhtPtr) (i : Nat) (f : EbinPtr → EbinPtr) : HeapM (Block El G) Unit := do
  let q ← getBin t i
  putBin t i (f q)

/-- `t->dir[i]` -/
def getDir (t : IxhtPtr) (i : Nat) : HeapM (Block El G) Nat := do
  let entries ← loadAs Block.dir? t.dir
  lift entries[i]?.join

/-- `t->dir[i] = ind` -/
def putDir (t : IxhtPtr) (i ind : Nat) : HeapM (Block El G) Unit := do
  let entries ← loadAs Block.dir? t.dir
  if i < entries.length then store t.dir (.dir (entries.set i (some ind))) else lift none

/-- `realloc` of an array of `old` to `n` entries -/
def resized {α : Type} (old : List (Option α)) (n : Nat) : List (Option α) :=
  old.take n ++ List.replicate (n - old.length) none

/-- `realloc (t->bins, capacity)` -/
def reallocBins (t : IxhtPtr) (capacity : Nat) : HeapM (Block El G) Nat :=
  match t.bins with
  | none => malloc (.bins (resized [] capacity))
  | some a => do
      let records ← loadAs Block.bins? a
      free a
      malloc (.bins (resized records capacity))

/-- `if (t->bins_num == t->bins_capacity)` of `ixht_create_bin` -/
def ixhtHeapReserve (t : IxhtPtr) : HeapM (Block El G) IxhtPtr :=
  if t.binsNum = t.binsCapacity then do
    let capacity := if t.binsCapacity = 0 then 4 else t.binsCapacity * 2 % 2 ^ 32
    let a ← reallocBins t capacity
    return { t with bins := some a, binsCapacity := capacity }
  else pure t

/-- The three allocations of `ixht_create_bin`. -/
def ixhtHeapAllocBin (ops : BinOps El G) (size : Nat) : HeapM (Block El G) BinPtr := do
  let size := if size < GROUP_SIZE then GROUP_SIZE else size
  let els ← malloc (.els (List.replicate size none))
  let deleted ← malloc (.deleted (Bitmap.zeros ((size + 7) / 8)))
  let numGroups := 2 * size % 2 ^ 32 / GROUP_SIZE
  let groups ← malloc (.groups (ops.alloc numGroups))
  return { elsBound := 0, els := els, deleted := deleted, groups := groups,
           groupsMask := numGroups - 1 }

/-- `ixht_create_bin`; `depth` and `mask` are left to the callers. -/
def ixhtHeapCreateBin (ops : BinOps El G) (t : IxhtPtr) (size : Nat) :
    HeapM (Block El G) (IxhtPtr × Nat) := do
  let t ← ixhtHeapReserve t
  let bin ← ixhtHeapAllocBin ops size
  putBin t t.binsNum { depth := 0, mask := 0, elsStart := 0, bin := bin }
  return ({ t with binsNum := (t.binsNum + 1) % 2 ^ 32 }, t.binsNum)

/-- One pass of the loop of `ixht_create`. -/
def ixhtHeapCreatePass (ops : BinOps El G) (p : IxhtParams) (t : IxhtPtr) (i : Nat) :
    HeapM (Block El G) IxhtPtr := do
  putDir t i i
  let (t, ind) ← ixhtHeapCreateBin ops t p.bs
  modifyBin t ind fun q => { q with depth := p.bp2 % 2 ^ 16, mask := i }
  return t

/-- `ixht_create` -/
def ixhtHeapCreate (maxPower : Nat) (ops : BinOps El G) (fuel minSize : Nat) :
    HeapM (Block El G) IxhtPtr := do
  let size ← lift (Loop.forever (ixhtCreateBody minSize) fuel 2)
  let p ← lift (ixhtGetParams maxPower fuel size)
  let dir ← malloc (.dir (List.replicate p.bn none))
  (List.range p.bn).foldlM (ixhtHeapCreatePass ops p)
    { elsNum := 0, maxDepth := p.bp2 % 2 ^ 16, binMask := 2 ^ p.bp2 - 1, dir := dir,
      dirCapacity := p.bn % 2 ^ 32, bins := none, binsNum := 0, binsCapacity := 0 }

/-- `t->dir[j + len] = t->dir[j]` -/
def copyEntry (t : IxhtPtr) (len : Nat) (_ : Unit) (j : Nat) : HeapM (Block El G) Unit := do
  let ind ← getDir t j
  putDir t (j + len) ind

/-- The doubling of the directory in `ixht_split_bin`. -/
def ixhtHeapDeepen (t : IxhtPtr) (depth : Nat) : HeapM (Block El G) IxhtPtr :=
  if t.maxDepth < depth then
    if depth < 64 ∧ 2 * t.dirCapacity < 2 ^ 32 then do
      let len := t.dirCapacity
      let entries ← loadAs Block.dir? t.dir
      free t.dir
      let dir ← malloc (.dir (resized entries (2 * len)))
      let t := { t with maxDepth := depth, binMask := 2 ^ depth - 1, dir := dir, dirCapacity := 2 * len }
      (List.range len).foldlM (copyEntry t len) ()
      return t
    else lift none
  else pure t

structure HalvesPtr where
  elsNum : Nat
  oldAdded : Bool
  newAdded : Bool

/-- One pass of the inner loop of `ixht_split_bin`. -/
def ixhtHeapDistribute (ops : BinOps El G) (key : Key El) (fuel splitMask : Nat) (t : IxhtPtr)
    (binInd newInd : Nat) (s : HalvesPtr) (i : Nat) : HeapM (Block El G) HalvesPtr := do
  let q ← getBin t binInd
  let deleted ← loadAs Block.deleted? q.bin.deleted
  let del ← lift (deleted.test? i)
  if del then return s
  else
    let els ← loadAs Block.els? q.bin.els
    let x ← lift els[i]?.join
    let hash := key.nonzero.hash x
    if hash.toNat &&& splitMask = 0 then
      let q ← getBin t binInd
      let r ← heapReinsert ops fuel s.elsNum q.bin hash x
      putBin t binInd { q with bin := r.2 }
      return { s with elsNum := r.1, oldAdded := true }
    else
      let q ← getBin t newInd
      let r ← heapReinsert ops fuel s.elsNum q.bin hash x
      putBin t newInd { q with bin := r.2 }
      return { s with elsNum := r.1, newAdded := true }

/-- The variables of the `for (;;)` of `ixht_split_bin`. -/
structure SplittingPtr where
  table : IxhtPtr
  binInd : Nat
  newInd : Nat

/-- `for (…) memset (bin->groups + …, EMPTY_H7, GROUP_SIZE);` -/
def clearGroups (ops : BinOps El G) (p : BinPtr) : HeapM (Block El G) Unit := do
  let groups ← loadAs Block.groups? p.groups
  let groups ← lift (ops.clear (p.groupsMask + 1) groups)
  store p.groups (.groups groups)

/-- A pass of `for (;;)` from there to its inner loop, for the record `bin` of the bin that is
    split. -/
def ixhtHeapOpenPass (t : IxhtPtr) (binInd newInd : Nat) (bin : EbinPtr) :
    HeapM (Block El G) IxhtPtr := do
  if 64 ≤ bin.depth then lift none
  else
    let splitMask := 2 ^ bin.depth
    modifyBin t binInd fun q => { q with depth := bin.depth + 1 }
    modifyBin t newInd fun q => { q with depth := bin.depth + 1 }
    let t ← ixhtHeapDeepen t (bin.depth + 1)
    modifyBin t newInd fun q => { q with mask := bin.mask ||| splitMask }
    putDir t (bin.mask ||| splitMask) newInd
    modifyBin t binInd fun q => { q with elsStart := 0, bin := { q.bin with elsBound := 0 } }
    return t

/-- One pass of `for (;;)`. -/
def ixhtHeapSplitPass (ops : BinOps El G) (key : Key El) (fuel : Nat) (s : SplittingPtr) :
    HeapM (Block El G) (Step SplittingPtr SplittingPtr) := do
  let _ ← getBin s.table s.newInd
  let bin ← getBin s.table s.binInd
  clearGroups ops bin.bin
  let t ← ixhtHeapOpenPass s.table s.binInd s.newInd bin
  let h ← (List.range' bin.elsStart (bin.bin.elsBound - bin.elsStart)).foldlM
    (ixhtHeapDistribute ops key fuel (2 ^ bin.depth) t s.binInd s.newInd) ⟨t.elsNum, false, false⟩
  if !h.oldAdded then return .again { table := t, binInd := s.newInd, newInd := s.binInd }
  else if h.newAdded then return .leave { s with table := t }
  else return .again { s with table := t }

/-- `memset (b->deleted, 0, …)` -/
def resetDeleted (t : IxhtPtr) (i : Nat) : HeapM (Block El G) Unit := do
  let q ← getBin t i
  let map ← loadAs Block.deleted? q.bin.deleted
  let bytes := ((q.bin.counters : Hbin El Unit).halfIndexes + 7) / 8
  if bytes ≤ map.length then
    store q.bin.deleted (.deleted (Bitmap.zeros bytes ++ map.drop bytes))
  else lift none

/-- `ixht_split_bin` -/
def ixhtHeapSplitBin (ops : BinOps El G) (key : Key El) (fuel : Nat) (t : IxhtPtr) (binInd : Nat) :
    HeapM (Block El G) IxhtPtr := do
  let q ← getBin t binInd
  let (t, newInd) ← ixhtHeapCreateBin ops t (q.bin.counters : Hbin El Unit).halfIndexes
  let s ← HeapM.forever (ixhtHeapSplitPass ops key fuel) fuel
    { table := t, binInd := binInd, newInd := newInd }
  resetDeleted s.table s.binInd
  resetDeleted s.table s.newInd
  return s.table

/-- One pass of the loop of the in-place rebuild, on `els_num` and `b`. -/
def ixhtHeapReinsert (ops : BinOps El G) (key : Key El) (fuel : Nat) (oldDeleted : Nat)
    (s : Nat × BinPtr) (i : Nat) : HeapM (Block El G) (Nat × BinPtr) := do
  let map ← loadAs Block.deleted? oldDeleted
  let del ← lift (map.test? i)
  if del then return s
  else
    let els ← loadAs Block.els? s.2.els
    let x ← lift els[i]?.join
    heapReinsert ops fuel s.1 s.2 (key.nonzero.hash x) x

/-- The `else` branch of `ixht_perform`.  The bin records do not move in it; the fields of the
    one it rebuilds are written back at the end. -/
def ixhtHeapRebuildBin (ops : BinOps El G) (key : Key El) (fuel : Nat) (t : IxhtPtr) (binInd : Nat)
    (q : EbinPtr) (indexesSize elsSize : Nat) : HeapM (Block El G) Unit := do
  let oldDeleted := q.bin.deleted
  let deleted ← malloc (.deleted (Bitmap.zeros ((elsSize + 7) / 8)))
  let oldEls ← loadAs Block.els? q.bin.els
  free q.bin.els
  let els ← malloc (.els (resized oldEls elsSize))
  let numGroups := indexesSize / GROUP_SIZE
  let oldGroups ← loadAs Block.groups? q.bin.groups
  free q.bin.groups
  let groups ← malloc (.groups (ops.regrow numGroups oldGroups))
  let s ← (List.range' q.elsStart (q.bin.elsBound - q.elsStart)).foldlM
    (ixhtHeapReinsert ops key fuel oldDeleted)
    (0, { elsBound := 0, els := els, deleted := deleted, groups := groups,
          groupsMask := numGroups - 1 })
  free oldDeleted
  putBin t binInd { q with elsStart := 0, bin := s.2 }

def EbinPtr.counters (q : EbinPtr) : Ebin El Unit := ⟨q.depth, q.mask, q.elsStart, q.bin.counters⟩

def IxhtPtr.counters (t : IxhtPtr) : Ixht El Unit := ⟨t.elsNum, t.maxDepth, t.binMask, [], []⟩

/-- `ixht_perform` up to its last line: the table and the bin for `ixht_do_1`. -/
def ixhtHeapPrepare (maxPower : Nat) (ops : BinOps El G) (key : Key El) (fuel : Nat) (t : IxhtPtr)
    (hash : BitVec 64) (action : Action) : HeapM (Block El G) (IxhtPtr × Nat) := do
  let binInd ← getDir t (hash.toNat &&& t.binMask)
  let q ← getBin t binInd
  let e : Ebin El Unit := q.counters
  if action = .insert ∧ ixhtFull e then
    if ixhtSplits maxPower t.counters e then
      let t ← ixhtHeapSplitBin ops key fuel t binInd
      let binInd ← getDir t (hash.toNat &&& t.binMask)
      return (t, binInd)
    else
      ixhtHeapRebuildBin ops key fuel t binInd q
        (e.bin.indexesSize ixhtWidths * ixhtFactor t.counters e % 2 ^ 32)
        (e.bin.halfIndexes * ixhtFactor t.counters e % 2 ^ 32)
      return (t, binInd)
  else return (t, binInd)

/-- `ixht_perform`, and what the caller does after it. -/
def ixhtHeapStep (maxPower : Nat) (ops : BinOps El G) (key : Key El) (fuel : Nat) (t : IxhtPtr)
    (c : Call El) : HeapM (Block El G) ((Nat × Reply (Nat × Nat) El) × IxhtPtr) := do
  let hash := key.nonzero.hash c.el
  let (t, binInd) ← ixhtHeapPrepare maxPower ops key fuel t hash c.action
  let q ← getBin t binInd
  let r ← heapDo1 ops fuel t.elsNum q.bin hash c.el c.action
  putBin t binInd { q with bin := r.bin }
  let reply ← callerUse r c
  return ((binInd, reply), { t with elsNum := r.elsNum })

def ixhtHeapRun (maxPower : Nat) (ops : BinOps El G) (key : Key El) (fuel minSize : Nat)
    (calls : List (Call El)) :
    HeapM (Block El G) (List (Nat × Reply (Nat × Nat) El) × IxhtPtr) := do
  let t ← ixhtHeapCreate maxPower ops fuel minSize
  replies (ixhtHeapStep maxPower ops key fuel) t calls

/-- `ixht_destroy_bin (&t->bins[i])` -/
def ixhtHeapDestroyBin (t : IxhtPtr) (_ : Unit) (i : Nat) : HeapM (Block El G) Unit := do
  let q ← getBin t i
  heapDestroyBin q.bin

/-- `free (t->bins)`, which may be `NULL` -/
def freeBins (t : IxhtPtr) : HeapM (Block El G) Unit :=
  match t.bins with
  | none => pure ()
  | some a => free a

/-- `ixht_destroy` -/
def ixhtHeapDestroy (t : IxhtPtr) : HeapM (Block El G) Unit := do
  (List.range t.binsNum).foldlM (ixhtHeapDestroyBin t) ()
  freeBins t
  free t.dir

def ixhtHeapSession (maxPower : Nat) (ops : BinOps El G) (key : Key El) (fuel minSize : Nat)
    (calls : List (Call El)) : HeapM (Block El G) (List (Nat × Reply (Nat × Nat) El)) := do
  let s ← ixhtHeapRun maxPower ops key fuel minSize calls
  ixhtHeapDestroy s.2
  return s.1

/-! ## The array of records -/

section Resized

variable {α : Type} {l : List (Option α)} {n i : Nat}

theorem length_resized (l : List (Option α)) (n : Nat) : (resized l n).length = n := by
  simp only [resized, List.length_append, List.length_take, List.length_replicate]
  omega

theorem resized_of_le (h : l.length ≤ n) : resized l n = l ++ List.replicate (n - l.length) none := by
  rw [resized, List.take_of_length_le h]

theorem resized_resized {m : Nat} (hm : l.length ≤ m) (hn : m ≤ n) :
    resized (resized l m) n = resized l n := by
  have hle : l.length ≤ n := Nat.le_trans hm hn
  have hsum : n - l.length = m - l.length + (n - m) := by omega
  rw [resized_of_le hm, resized_of_le hle, resized_of_le (by simp; omega), hsum, List.replicate_add,
    List.append_assoc, List.length_append, List.length_replicate, Nat.add_sub_cancel' hm]

theorem getElem?_resized (h : l.length ≤ n) (hi : i < l.length) : (resized l n)[i]? = l[i]? := by
  rw [resized_of_le h, List.getElem?_append_left hi]

theorem join_getElem?_resized (h : l.length ≤ n) (i : Nat) :
    (resized l n)[i]?.join = l[i]?.join := by
  by_cases hi : i < l.length
  · rw [getElem?_resized h hi]
  · rw [resized_of_le h, List.getElem?_append_right (Nat.le_of_not_lt hi), List.getElem?_replicate,
      List.getElem?_eq_none (Nat.le_of_not_lt hi)]
    split
    · rfl
    · rfl

theorem set_resized (h : l.length ≤ n) (hi : i < l.length) (x : Option α) :
    (resized l n).set i x = resized (l.set i x) n := by
  rw [resized_of_le h, resized_of_le (by rwa [List.length_set]), List.set_append_left _ _ hi,
    List.length_set]

/-- A write to the first free place. -/
theorem set_resized_length (h : l.length < n) (x : Option α) :
    (resized l n).set l.length x = resized (l ++ [x]) n := by
  have hfree : n - l.length = n - (l.length + 1) + 1 := by omega
  rw [resized_of_le (Nat.le_of_lt h), resized_of_le (by simpa using Nat.succ_le_of_lt h),
    List.set_append_right _ _ (Nat.le_refl _), Nat.sub_self, hfree, List.replicate_succ,
    List.set_cons_zero, List.length_append, List.length_singleton, List.append_assoc]
  rfl

end Resized

/-- What a list of parts adds up to, with one of them replaced. -/
theorem sum_map_set {α M : Type} [AddCommMonoid M] (f : α → M) {l : List α} {i : Nat}
    (hi : i < l.length) (y : α) :
    ((l.set i y).map f).sum = f y + ((l.eraseIdx i).map f).sum := by
  induction l generalizing i with
  | nil => cases hi
  | cons x l ih =>
    cases i with
    | zero => simp
    | succ i =>
      have htail := ih (Nat.lt_of_succ_lt_succ hi)
      simp only [List.set_cons_succ, List.eraseIdx_cons_succ, List.map_cons, List.sum_cons, htail]
      rw [add_left_comm]

theorem sum_map_eq_add {α M : Type} [AddCommMonoid M] (f : α → M) {l : List α} {i : Nat} {x : α}
    (hx : l[i]? = some x) : (l.map f).sum = f x + ((l.eraseIdx i).map f).sum := by
  obtain ⟨hi, rfl⟩ := List.getElem?_eq_some_iff.mp hx
  rw [← sum_map_set f hi, List.set_getElem_self]

structure EbinPtr.At (q : EbinPtr) (e : Ebin El G) : Prop where
  depth : q.depth = e.depth
  mask : q.mask = e.mask
  elsStart : q.elsStart = e.elsStart
  elsBound : q.bin.elsBound = e.bin.elsBound
  groupsMask : q.bin.groupsMask = e.bin.groupsMask

def recordBlock (a : Option Nat) (capacity : Nat) (records : List EbinPtr) :
    Multiset (Nat × Block El G) :=
  match a with
  | none => 0
  | some a => {(a, .bins (resized (records.map some) capacity))}

def allBinBlocks (pairs : List (EbinPtr × Ebin El G)) : Multiset (Nat × Block El G) :=
  (pairs.map fun x => binBlocks x.1.bin x.2.bin).sum

/-- The array of records at `a` describes the bins, each with its record in `pairs`. -/
structure Records (a : Option Nat) (num capacity : Nat) (bins : List (Ebin El G))
    (pairs : List (EbinPtr × Ebin El G)) : Prop where
  bins : bins = pairs.map Prod.snd
  records : ∀ x ∈ pairs, x.1.At x.2
  num : num = pairs.length
  room : pairs.length ≤ capacity
  null : a = none → capacity = 0

def BinsAt (F : Multiset (Nat × Block El G)) (t : IxhtPtr) (bins : List (Ebin El G))
    (P : Multiset (Nat × Block El G)) : Prop :=
  ∃ pairs, Records t.bins t.binsNum t.binsCapacity bins pairs ∧
    P = recordBlock t.bins t.binsCapacity (pairs.map Prod.fst) + allBinBlocks pairs + F

structure IxhtAt (F : Multiset (Nat × Block El G)) (t : IxhtPtr) (u : Ixht El G)
    (P : Multiset (Nat × Block El G)) : Prop where
  elsNum : t.elsNum = u.elsNum
  maxDepth : t.maxDepth = u.maxDepth
  binMask : t.binMask = u.binMask
  dirCapacity : t.dirCapacity = u.dir.length
  bins : BinsAt ({(t.dir, .dir (u.dir.map some))} + F) t u.bins P

section Bins

variable {F F' P : Multiset (Nat × Block El G)} {t : IxhtPtr} {bins : List (Ebin El G)} {i : Nat}
  {e : Ebin El G} {q : EbinPtr}

theorem BinsAt.binsNum (h : BinsAt F t bins P) : t.binsNum = bins.length := by
  obtain ⟨pairs, hrecords, -⟩ := h
  rw [hrecords.num, hrecords.bins, List.length_map]

/-- Blocks of the frame may be set aside. -/
theorem BinsAt.split (h : BinsAt (F' + F) t bins P) : ∃ P', P = F' + P' ∧ BinsAt F t bins P' := by
  obtain ⟨pairs, hrecords, hblocks⟩ := h
  refine ⟨_, ?_, pairs, hrecords, rfl⟩
  rw [hblocks]
  ac_rfl

theorem BinsAt.join (h : BinsAt F t bins P) : BinsAt (F' + F) t bins (F' + P) := by
  obtain ⟨pairs, hrecords, hblocks⟩ := h
  refine ⟨pairs, hrecords, ?_⟩
  rw [hblocks]
  ac_rfl

/-- Bin `i` is taken out: its record is `q`, the records are at `a`, and `rest` is what
    remains.  It may be put back with another record and other contents. -/
structure Focus (F : Multiset (Nat × Block El G)) (t : IxhtPtr) (bins : List (Ebin El G)) (i : Nat)
    (q : EbinPtr) (a : Nat) (records : List (Option EbinPtr)) (rest : Multiset (Nat × Block El G)) :
    Prop where
  addr : t.bins = some a
  record : records[i]? = some (some q)
  back : ∀ q' e', q'.At e' → BinsAt F t (bins.set i e')
    ({(a, .bins (records.set i (some q')))} + binBlocks q'.bin e'.bin + rest)

theorem Focus.lt {a : Nat} {records : List (Option EbinPtr)} {rest : Multiset (Nat × Block El G)}
    (h : Focus F t bins i q a records rest) : i < records.length :=
  (List.getElem?_eq_some_iff.mp h.record).1

/-- Another record for bin `i`. -/
theorem Focus.renew {a : Nat} {records : List (Option EbinPtr)} {rest : Multiset (Nat × Block El G)}
    (h : Focus F t bins i q a records rest) (q' : EbinPtr) (e : Ebin El G) :
    Focus F t (bins.set i e) i q' a (records.set i (some q')) rest where
  addr := h.addr
  record := List.getElem?_set_self h.lt
  back q'' e'' hat'' := by
    rw [List.set_set, List.set_set]
    exact h.back q'' e'' hat''

/-- Bin `i` back in its place, with the record it had. -/
theorem Focus.same {a : Nat} {records : List (Option EbinPtr)} {rest : Multiset (Nat × Block El G)}
    (h : Focus F t bins i q a records rest) (hat : q.At e)
    (hbin : BinAt ({(a, .bins records)} + rest) q.bin e.bin P) : BinsAt F t (bins.set i e) P := by
  have hrecords : records.set i (some q) = records := by
    obtain ⟨hlt, hget⟩ := List.getElem?_eq_some_iff.mp h.record
    rw [← hget, List.set_getElem_self]
  have hback := h.back q e hat
  rw [hrecords, add_comm {(a, _)}, add_assoc] at hback
  rwa [hbin.blocks]

theorem BinsAt.focus (h : BinsAt F t bins P) (he : bins[i]? = some e) :
    ∃ q a records rest, Focus F t bins i q a records rest ∧ q.At e ∧
      BinAt ({(a, .bins records)} + rest) q.bin e.bin P := by
  obtain ⟨pairs, hrecords, hblocks⟩ := h
  rw [hrecords.bins, List.getElem?_map] at he
  obtain ⟨⟨q, e'⟩, hpair, heq⟩ := Option.map_eq_some_iff.mp he
  cases heq
  have hlt := (List.getElem?_eq_some_iff.mp hpair).1
  have hat := hrecords.records _ (List.mem_of_getElem? hpair)
  have hroom := hrecords.room
  cases hbins : t.bins with
  | none =>
    have := hrecords.null hbins
    omega
  | some a =>
    have hlen : ((pairs.map Prod.fst).map some).length ≤ t.binsCapacity := by simpa using hroom
    have hplace : i < ((pairs.map Prod.fst).map some).length := by simpa using hlt
    refine ⟨q, a, resized ((pairs.map Prod.fst).map some) t.binsCapacity,
      ((pairs.eraseIdx i).map fun x => binBlocks x.1.bin x.2.bin).sum + F, ⟨hbins, ?_, ?_⟩, hat,
      hat.elsBound, hat.groupsMask, ?_⟩
    · rw [getElem?_resized hlen hplace, List.getElem?_map, List.getElem?_map, hpair]
      rfl
    · intro q' e' hat'
      refine ⟨pairs.set i (q', e'), ⟨?_, ?_, ?_, ?_, hrecords.null⟩, ?_⟩
      · rw [hrecords.bins, List.map_set]
      · intro x hx
        rcases List.mem_or_eq_of_mem_set hx with hx | rfl
        · exact hrecords.records x hx
        · exact hat'
      · rw [hrecords.num, List.length_set]
      · rwa [List.length_set]
      · rw [allBinBlocks, sum_map_set _ hlt, hbins, recordBlock, List.map_set, List.map_set,
          ← set_resized hlen hplace]
        ac_rfl
    · rw [hblocks, allBinBlocks, sum_map_eq_add _ hpair, hbins, recordBlock]
      ac_rfl

end Bins

namespace Sim

variable {F P : Multiset (Nat × Block El G)} {t : IxhtPtr} {bins : List (Ebin El G)} {i : Nat}
  {e : Ebin El G} {q : EbinPtr} {γ δ : Type} {y : Option δ}
  {R : γ → δ → Multiset (Nat × Block El G) → Prop}

/-- `t->bins[i]`, where bin `i` exists. -/
theorem getBin {a : Nat} {records : List (Option EbinPtr)} {rest : Multiset (Nat × Block El G)}
    (hfocus : Focus F t bins i q a records rest) {f : EbinPtr → HeapM (Block El G) γ}
    (hmem : (a, .bins records) ∈ P) (h : Sim P (f q) y R) :
    Sim P (IndexedHash.getBin t i >>= f) y R := by
  simp only [IndexedHash.getBin, bind_assoc, hfocus.addr, HeapM.lift_some_bind]
  refine Sim.load hmem rfl ?_
  rwa [hfocus.record]

/-- `t->bins[i]` on both sides: it exists on both or on neither. -/
theorem getBin_bind (hbins : BinsAt F t bins P) {f : EbinPtr → HeapM (Block El G) γ}
    {g : Ebin El G → Option δ}
    (h : ∀ e q a records rest, bins[i]? = some e → Focus F t bins i q a records rest → q.At e →
      BinAt ({(a, .bins records)} + rest) q.bin e.bin P → Sim P (f q) (g e) R) :
    Sim P (IndexedHash.getBin t i >>= f) (bins[i]?.bind g) R := by
  cases he : bins[i]? with
  | none =>
    obtain ⟨pairs, hrecords, hblocks⟩ := hbins
    simp only [IndexedHash.getBin, bind_assoc]
    cases haddr : t.bins with
    | none => exact Sim.stuck
    | some a =>
      have hlen : ((pairs.map Prod.fst).map some).length ≤ t.binsCapacity := by
        simpa using hrecords.room
      have hnone : pairs[i]? = none := by
        rw [hrecords.bins, List.getElem?_map] at he
        exact Option.map_eq_none_iff.mp he
      have hmem : (a, .bins (resized ((pairs.map Prod.fst).map some) t.binsCapacity)) ∈ P := by
        rw [hblocks, haddr]
        simp [recordBlock]
      rw [HeapM.lift_some_bind]
      refine Sim.load hmem rfl ?_
      rw [join_getElem?_resized hlen, List.getElem?_map, List.getElem?_map, hnone]
      exact Sim.stuck
  | some e =>
    obtain ⟨q, a, records, rest, hfocus, hat, hbin⟩ := hbins.focus he
    refine Sim.getBin hfocus ?_ (h e q a records rest he hfocus hat hbin)
    rw [hbin.blocks]
    simp

/-- `t->bins[i] = q'`, with bin `i` still taken out. -/
theorem putRecord {a : Nat} {records : List (Option EbinPtr)} {rest : Multiset (Nat × Block El G)}
    (hfocus : Focus F t bins i q a records rest) {q' : EbinPtr} {b : Hbin El G}
    (hbin : BinAt ({(a, .bins records)} + rest) q'.bin b P) {f : Unit → HeapM (Block El G) γ}
    (h : ∀ P', BinAt ({(a, .bins (records.set i (some q')))} + rest) q'.bin b P' → Sim P' (f ()) y R) :
    Sim P (IndexedHash.putBin t i q' >>= f) y R := by
  have hmem : (a, .bins records) ∈ P := by
    rw [hbin.blocks]
    simp
  simp only [IndexedHash.putBin, bind_assoc, hfocus.addr, HeapM.lift_some_bind]
  refine Sim.load hmem rfl ?_
  rw [if_pos hfocus.lt]
  refine Sim.store (.bins records) (binBlocks q'.bin b + rest) ?_ (h _ ⟨hbin.elsBound, hbin.groupsMask, ?_⟩)
  · rw [hbin.blocks]
    ac_rfl
  · ac_rfl

/-- `t->bins[i] = q'`, after which the table is whole again. -/
theorem putBin {a : Nat} {records : List (Option EbinPtr)} {rest : Multiset (Nat × Block El G)}
    (hfocus : Focus F t bins i q a records rest) {q' : EbinPtr} {e' : Ebin El G} (hat : q'.At e')
    (hbin : BinAt ({(a, .bins records)} + rest) q'.bin e'.bin P)
    {f : Unit → HeapM (Block El G) γ}
    (h : ∀ P', BinsAt F t (bins.set i e') P' → Sim P' (f ()) y R) :
    Sim P (IndexedHash.putBin t i q' >>= f) y R := by
  refine Sim.putRecord hfocus hbin fun P' hbin' => h P' ?_
  have hwhole := (hfocus.renew q' e').same hat hbin'
  rwa [List.set_set] at hwhole

/-- Assignments to fields of a record, which leave the arrays of the bin alone. -/
theorem modifyBin (hbins : BinsAt F t bins P) (he : bins[i]? = some e) (e' : Ebin El G)
    {g : EbinPtr → EbinPtr} {f : Unit → HeapM (Block El G) γ}
    (hfields : ∀ q, q.At e → (g q).At e' ∧ binBlocks (g q).bin e'.bin = binBlocks q.bin e.bin)
    (h : ∀ P', BinsAt F t (bins.set i e') P' → Sim P' (f ()) y R) :
    Sim P (IndexedHash.modifyBin t i g >>= f) y R := by
  obtain ⟨q, a, records, rest, hfocus, hq, hbin⟩ := hbins.focus he
  obtain ⟨hat, hblocks⟩ := hfields q hq
  simp only [IndexedHash.modifyBin, bind_assoc]
  refine Sim.getBin hfocus (by rw [hbin.blocks]; simp) ?_
  refine Sim.putBin hfocus hat ⟨hat.elsBound, hat.groupsMask, ?_⟩ h
  rw [hbin.blocks, hblocks]

end Sim

end IndexedHash
