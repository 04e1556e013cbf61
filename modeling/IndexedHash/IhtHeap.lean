import Mathlib.Tactic.Common
import IndexedHash.Heap
import IndexedHash.IndexRelation

/-!
# `ihtab.h` on a heap

`Iht.lean` has the three arrays of a bin as values.  Here they are blocks of a heap that the
table shares with the rest of the program, and the table holds their addresses: `iht_create`
allocates three blocks, `iht_rebuild` three more before it frees the old ones, `iht_destroy`
frees what is left, and `*res` is the address of a block and a position in it.

`iht_heap_session` compares a whole session, from creation to destruction, with the one on
values.  The heap makes no difference to it, and the blocks that are allocated at the end are
those that were allocated before the table was created, with the same contents.
-/

namespace IndexedHash

open Loop

variable {El G : Type}

/-! ## Blocks -/

/-- `struct hbin_iht`, with its arrays by their addresses. -/
structure BinPtr where
  elsBound : Nat
  els : Nat
  deleted : Nat
  groups : Nat
  groupsMask : Nat

/-- `struct ebin_ixht`, with its arrays by their addresses. -/
structure EbinPtr where
  depth : Nat
  mask : Nat
  elsStart : Nat
  bin : BinPtr

inductive Block (El G : Type) where
  | els (els : List (Option El))
  | deleted (map : Bitmap)
  | groups (groups : G)
  | bins (bins : List (Option EbinPtr))
  | dir (dir : List (Option Nat))

namespace Block

def els? : Block El G → Option (List (Option El))
  | .els xs => some xs
  | _ => none

def deleted? : Block El G → Option Bitmap
  | .deleted map => some map
  | _ => none

def groups? : Block El G → Option G
  | .groups g => some g
  | _ => none

end Block

open HeapM

/-- The bin as `do_1` finds it in memory. -/
def openBin (p : BinPtr) : HeapM (Block El G) (Hbin El G) := do
  let els ← loadAs Block.els? p.els
  let deleted ← loadAs Block.deleted? p.deleted
  let groups ← loadAs Block.groups? p.groups
  return { elsBound := p.elsBound, els := els, deleted := deleted, groups := groups,
           groupsMask := p.groupsMask }

def BinPtr.renew (p : BinPtr) (b : Hbin El G) : BinPtr :=
  { p with elsBound := b.elsBound, groupsMask := b.groupsMask }

/-- The bin as `do_1` leaves it in memory.  Its blocks stay where they are. -/
def closeBin (p : BinPtr) (b : Hbin El G) : HeapM (Block El G) BinPtr := do
  store p.els (.els b.els)
  store p.deleted (.deleted b.deleted)
  store p.groups (.groups b.groups)
  return p.renew b

/-- `iht_destroy_bin`, `ixht_destroy_bin` -/
def heapDestroyBin (p : BinPtr) : HeapM (Block El G) Unit := do
  free p.els
  free p.deleted
  free p.groups

/-- What `do_1` leaves behind; `res` is an address and a position. -/
structure HeapOutcome where
  found : Bool
  res : Option (Nat × Nat)
  elsNum : Nat
  bin : BinPtr

/-- `iht_do_1`, `ixht_do_1` on the bin at `p`.  It neither allocates nor frees. -/
def heapDo1 (ops : BinOps El G) (fuel elsNum : Nat) (p : BinPtr) (hash : BitVec 64) (el : El)
    (action : Action) : HeapM (Block El G) HeapOutcome := do
  let b ← openBin p
  let r ← lift (ops.do1 fuel elsNum b hash el action)
  let p ← closeBin p r.bin
  return { found := r.found, res := r.res.map fun i => (p.els, i), elsNum := r.elsNum, bin := p }

/-- `*res = x` -/
def writeEl (res : Nat × Nat) (x : El) : HeapM (Block El G) Unit := do
  let els ← loadAs Block.els? res.1
  if res.2 < els.length then store res.1 (.els (els.set res.2 (some x))) else lift none

/-- `*res` -/
def readEl (res : Nat × Nat) : HeapM (Block El G) (Option El) := do
  let els ← loadAs Block.els? res.1
  return els[res.2]?.join

/-- `do_1 (t, bin, hash, el, INSERT, &r); *r = el;` -/
def heapReinsert (ops : BinOps El G) (fuel elsNum : Nat) (p : BinPtr) (hash : BitVec 64) (x : El) :
    HeapM (Block El G) (Nat × BinPtr) := do
  let r ← heapDo1 ops fuel elsNum p hash x .insert
  let res ← lift r.res
  writeEl res x
  return (r.elsNum, r.bin)

/-! ## The table -/

/-- `struct iht` -/
structure IhtPtr where
  elsNum : Nat
  bin : BinPtr

def BinPtr.counters (p : BinPtr) : Hbin El Unit :=
  { elsBound := p.elsBound, els := [], deleted := [], groups := (), groupsMask := p.groupsMask }

/-- The allocations of `iht_create` and `iht_rebuild`. -/
def ihtHeapAllocBin (ops : BinOps El G) (indexesSize : Nat) : HeapM (Block El G) BinPtr := do
  let elsSize := indexesSize * LF_FACTOR / LF_DIVISOR
  let els ← malloc (.els (List.replicate elsSize none))
  let deleted ← malloc (.deleted (Bitmap.zeros ((elsSize + 7) / 8)))
  let numGroups := indexesSize / GROUP_SIZE
  let groups ← malloc (.groups (ops.alloc numGroups))
  return { elsBound := 0, els := els, deleted := deleted, groups := groups,
           groupsMask := numGroups - 1 }

/-- `iht_create` -/
def ihtHeapCreate (ops : BinOps El G) (fuel minSize : Nat) : HeapM (Block El G) IhtPtr := do
  let indexesSize ← lift (Loop.forever (ihtCreateBody minSize) fuel GROUP_SIZE)
  let bin ← ihtHeapAllocBin ops indexesSize
  return { elsNum := 0, bin := bin }

/-- One pass of the loop of `iht_rebuild`, on `els_num` and `rb`. -/
def ihtHeapReinsert (ops : BinOps El G) (key : Key El) (fuel : Nat) (bin : BinPtr)
    (s : Nat × BinPtr) (i : Nat) : HeapM (Block El G) (Nat × BinPtr) := do
  let deleted ← loadAs Block.deleted? bin.deleted
  let del ← lift (deleted.test? i)
  if del then return s
  else
    let els ← loadAs Block.els? bin.els
    let x ← lift els[i]?.join
    heapReinsert ops fuel s.1 s.2 (key.hash x) x

/-- `iht_rebuild` -/
def ihtHeapRebuild (ops : BinOps El G) (key : Key El) (fuel : Nat) (t : IhtPtr) :
    HeapM (Block El G) IhtPtr := do
  let rb ← ihtHeapAllocBin ops (ihtRebuildSize (⟨t.elsNum, t.bin.counters⟩ : Iht El Unit))
  let s ← (List.range t.bin.elsBound).foldlM (ihtHeapReinsert ops key fuel t.bin) (t.elsNum, rb)
  heapDestroyBin t.bin
  return { elsNum := t.elsNum, bin := s.2 }

/-- `iht_perform` -/
def ihtHeapPerform (ops : BinOps El G) (key : Key El) (fuel : Nat) (t : IhtPtr) (el : El)
    (action : Action) : HeapM (Block El G) HeapOutcome :=
  (if action = .insert ∧ ihtFull (⟨t.elsNum, t.bin.counters⟩ : Iht El Unit)
    then ihtHeapRebuild ops key fuel t else pure t) >>= fun t =>
      heapDo1 ops fuel t.elsNum t.bin (key.hash el) el action

/-- What the caller does with `*res` after the call: it looks at an element that was found,
    and it writes. -/
def callerUse (r : HeapOutcome) (c : Call El) :
    HeapM (Block El G) (Reply (Nat × Nat) El) := do
  match r.res with
  | none => return ⟨r.found, none, none⟩
  | some res =>
      let value ← readEl res
      match (if r.found then c.update else some c.fresh) with
      | none => return ⟨r.found, some res, if r.found then value else none⟩
      | some y =>
          writeEl res y
          return ⟨r.found, some res, if r.found then value else none⟩

def ihtHeapStep (ops : BinOps El G) (key : Key El) (fuel : Nat) (t : IhtPtr) (c : Call El) :
    HeapM (Block El G) (Reply (Nat × Nat) El × IhtPtr) := do
  let r ← ihtHeapPerform ops key fuel t c.el c.action
  let reply ← callerUse r c
  return (reply, { elsNum := r.elsNum, bin := r.bin })

def ihtHeapRun (ops : BinOps El G) (key : Key El) (fuel minSize : Nat) (calls : List (Call El)) :
    HeapM (Block El G) (List (Reply (Nat × Nat) El) × IhtPtr) := do
  let t ← ihtHeapCreate ops fuel minSize
  replies (ihtHeapStep ops key fuel) t calls

def binBlocks (p : BinPtr) (b : Hbin El G) : Multiset (Nat × Block El G) :=
  {(p.els, .els b.els)} + {(p.deleted, .deleted b.deleted)} + {(p.groups, .groups b.groups)}

structure BinAt (F : Multiset (Nat × Block El G)) (p : BinPtr) (b : Hbin El G)
    (P : Multiset (Nat × Block El G)) : Prop where
  elsBound : p.elsBound = b.elsBound
  groupsMask : p.groupsMask = b.groupsMask
  blocks : P = binBlocks p b + F

variable {F P : Multiset (Nat × Block El G)} {p : BinPtr} {b : Hbin El G}

theorem BinAt.els_mem (h : BinAt F p b P) : (p.els, .els b.els) ∈ P := by
  rw [h.blocks]
  simp [binBlocks]

theorem BinAt.deleted_mem (h : BinAt F p b P) : (p.deleted, .deleted b.deleted) ∈ P := by
  rw [h.blocks]
  simp [binBlocks]

theorem BinAt.groups_mem (h : BinAt F p b P) : (p.groups, .groups b.groups) ∈ P := by
  rw [h.blocks]
  simp [binBlocks]

namespace Sim

variable {γ δ : Type} {y : Option δ} {R : γ → δ → Multiset (Nat × Block El G) → Prop}

theorem openBin (hp : BinAt F p b P) {f : Hbin El G → HeapM (Block El G) γ} (h : Sim P (f b) y R) :
    Sim P (IndexedHash.openBin p >>= f) y R := by
  simp only [IndexedHash.openBin, bind_assoc, pure_bind]
  refine Sim.load hp.els_mem rfl (Sim.load hp.deleted_mem rfl (Sim.load hp.groups_mem rfl ?_))
  rwa [hp.elsBound, hp.groupsMask]

theorem closeBin (hp : BinAt F p b P) {b' : Hbin El G} {f : BinPtr → HeapM (Block El G) γ}
    (h : Sim (binBlocks (p.renew b') b' + F) (f (p.renew b')) y R) :
    Sim P (IndexedHash.closeBin p b' >>= f) y R := by
  simp only [IndexedHash.closeBin, bind_assoc, pure_bind]
  have hblocks := hp.blocks
  unfold binBlocks at h hblocks
  refine Sim.store (.els b.els) ({(p.deleted, .deleted b.deleted)} + {(p.groups, .groups b.groups)} + F)
    (by rw [hblocks]; ac_rfl) ?_
  refine Sim.store (.deleted b.deleted) ({(p.els, .els b'.els)} + {(p.groups, .groups b.groups)} + F)
    (by ac_rfl) ?_
  refine Sim.store (.groups b.groups)
    ({(p.els, .els b'.els)} + {(p.deleted, .deleted b'.deleted)} + F) (by ac_rfl) ?_
  rwa [← add_assoc, add_comm {(p.groups, _)}]

/-- The three `free`s. -/
theorem destroyBin (hp : BinAt F p b P) {f : Unit → HeapM (Block El G) γ} (h : Sim F (f ()) y R) :
    Sim P (heapDestroyBin p >>= f) y R := by
  simp only [heapDestroyBin, bind_assoc]
  refine Sim.free (.els b.els) ({(p.deleted, .deleted b.deleted)} + {(p.groups, .groups b.groups)} + F)
    ?_ ?_
  · rw [hp.blocks, binBlocks]
    ac_rfl
  · exact Sim.free (.deleted b.deleted) ({(p.groups, .groups b.groups)} + F) (by ac_rfl)
      (Sim.free (.groups b.groups) F rfl h)

theorem do1 (hp : BinAt F p b P) (ops : BinOps El G) (fuel elsNum : Nat) (hash : BitVec 64) (el : El)
    (action : Action) :
    Sim P (heapDo1 ops fuel elsNum p hash el action) (ops.do1 fuel elsNum b hash el action)
      fun r o P' => r.found = o.found ∧ r.res = o.res.map (fun i => (r.bin.els, i)) ∧
        r.elsNum = o.elsNum ∧ BinAt F r.bin o.bin P' := by
  unfold heapDo1
  refine Sim.openBin hp ?_
  refine Sim.last fun o _ => Sim.closeBin hp (Sim.pure ?_)
  exact ⟨rfl, rfl, rfl, rfl, rfl, rfl⟩

theorem readEl (hp : BinAt F p b P) (i : Nat) {f : Option El → HeapM (Block El G) γ}
    (h : Sim P (f (b.elAt i)) y R) : Sim P (IndexedHash.readEl (p.els, i) >>= f) y R := by
  simp only [IndexedHash.readEl, bind_assoc, pure_bind]
  exact Sim.load hp.els_mem rfl h

theorem writeEl (hp : BinAt F p b P) (i : Nat) (x : El) :
    Sim P (IndexedHash.writeEl (p.els, i) x) (b.store? i x) fun _ b' P' => BinAt F p b' P' := by
  unfold IndexedHash.writeEl Hbin.store?
  refine Sim.load hp.els_mem rfl ?_
  simp only
  split
  · have hstore : Sim P (HeapM.store p.els (.els (b.els.set i (some x))) >>= Pure.pure)
        (some { b with els := b.els.set i (some x) }) fun _ b' P' => BinAt F p b' P' := by
      refine Sim.store (.els b.els)
        ({(p.deleted, .deleted b.deleted)} + {(p.groups, .groups b.groups)} + F) ?_
        (Sim.pure ⟨hp.elsBound, hp.groupsMask, ?_⟩)
      · rw [hp.blocks, binBlocks]
        ac_rfl
      · rw [binBlocks]
        ac_rfl
    rwa [bind_pure] at hstore
  · exact Sim.stuck

theorem reinsert (hp : BinAt F p b P) (ops : BinOps El G) (fuel elsNum : Nat) (hash : BitVec 64)
    (x : El) :
    Sim P (heapReinsert ops fuel elsNum p hash x) (IndexedHash.reinsert ops fuel elsNum b hash x)
      fun r s P' => r.1 = s.1 ∧ BinAt F r.2 s.2 P' := by
  unfold heapReinsert IndexedHash.reinsert
  refine Sim.bind (Sim.do1 hp ops fuel elsNum hash x .insert) ?_
  rintro r o P' ⟨-, hres, hnum, hbin⟩
  rw [hres]
  refine Sim.bind (Sim.lift (Q := fun res i P'' => res = (r.bin.els, i) ∧ P'' = P') ?_) ?_
  · cases o.res with
    | none => exact Option.Rel.none
    | some i => exact Option.Rel.some ⟨rfl, rfl⟩
  · rintro res i P'' ⟨rfl, rfl⟩
    exact Sim.map (Sim.writeEl hbin i x) fun _ b' P' hb' => ⟨hnum, hb'⟩

end Sim

/-! ## `iht_create`, `iht_rebuild`, `iht_perform` -/

structure IhtAt (F : Multiset (Nat × Block El G)) (t : IhtPtr) (u : Iht El G)
    (P : Multiset (Nat × Block El G)) : Prop where
  elsNum : t.elsNum = u.elsNum
  bin : BinAt F t.bin u.bin P

section Table

variable {ops : BinOps El G} {key : Key El} {t : IhtPtr} {u : Iht El G}

theorem ihtHeapAllocBin_sim (ops : BinOps El G) (indexesSize : Nat)
    (F : Multiset (Nat × Block El G)) {γ δ : Type} {f : BinPtr → HeapM (Block El G) γ}
    {y : Option δ} {R : γ → δ → Multiset (Nat × Block El G) → Prop}
    (h : ∀ p P, BinAt F p (ihtAllocBin ops indexesSize) P → Sim P (f p) y R) :
    Sim F (ihtHeapAllocBin ops indexesSize >>= f) y R := by
  simp only [ihtHeapAllocBin, bind_assoc, pure_bind]
  refine Sim.malloc fun els => Sim.malloc fun deleted => Sim.malloc fun groups => ?_
  refine h _ _ ⟨rfl, rfl, ?_⟩
  simp only [binBlocks, ihtAllocBin]
  ac_rfl

theorem ihtHeapCreate_sim (ops : BinOps El G) (fuel minSize : Nat) (F : Multiset (Nat × Block El G)) :
    Sim F (ihtHeapCreate ops fuel minSize) (ihtCreate ops fuel minSize) (IhtAt F) := by
  unfold ihtHeapCreate ihtCreate
  rw [Option.map_eq_bind]
  refine Sim.both fun indexesSize _ => ?_
  exact ihtHeapAllocBin_sim ops indexesSize F fun p P hp => Sim.pure ⟨rfl, hp⟩

theorem IhtAt.rebuildSize (h : IhtAt F t u P) :
    ihtRebuildSize (⟨t.elsNum, t.bin.counters⟩ : Iht El Unit) = ihtRebuildSize u := by
  simp only [ihtRebuildSize, Hbin.indexesSize, BinPtr.counters, h.elsNum, h.bin.groupsMask]
  rfl

theorem IhtAt.full (h : IhtAt F t u P) :
    ihtFull (⟨t.elsNum, t.bin.counters⟩ : Iht El Unit) = ihtFull u := by
  simp only [ihtFull, Hbin.indexesSize, BinPtr.counters, h.bin.elsBound, h.bin.groupsMask]
  rfl

/-- While the new bin is filled, the blocks of both bins are allocated. -/
theorem ihtHeapReinsert_sim {bin : BinPtr} {s : Nat × BinPtr} {v : Nat × Hbin El G}
    (hold : BinAt F bin b (binBlocks bin b + F)) (hnum : s.1 = v.1)
    (hnew : BinAt (binBlocks bin b + F) s.2 v.2 P) (fuel i : Nat) :
    Sim P (ihtHeapReinsert ops key fuel bin s i) (ihtReinsert ops key fuel b v i)
      fun s v P' => s.1 = v.1 ∧ BinAt (binBlocks bin b + F) s.2 v.2 P' := by
  have hmem : ∀ x ∈ binBlocks bin b + F, x ∈ P := by
    intro x hx
    rw [hnew.blocks]
    exact Multiset.mem_add.mpr (Or.inr hx)
  unfold ihtHeapReinsert ihtReinsert
  refine Sim.load (hmem _ hold.deleted_mem) rfl (Sim.both fun del _ => ?_)
  split
  · exact Sim.pure ⟨hnum, hnew⟩
  · refine Sim.load (hmem _ hold.els_mem) rfl (Sim.both fun x _ => ?_)
    rw [hnum]
    exact Sim.reinsert hnew ops fuel v.1 (key.hash x) x

theorem ihtHeapRebuild_sim (ht : IhtAt F t u P) (fuel : Nat) :
    Sim P (ihtHeapRebuild ops key fuel t) (ihtRebuild ops key fuel u) (IhtAt F) := by
  have hold : BinAt F t.bin u.bin (binBlocks t.bin u.bin + F) :=
    ⟨ht.bin.elsBound, ht.bin.groupsMask, rfl⟩
  unfold ihtHeapRebuild ihtRebuild
  rw [ht.rebuildSize, ht.bin.elsBound, ht.elsNum, ht.bin.blocks, Option.map_eq_bind]
  refine ihtHeapAllocBin_sim ops _ _ fun rb P' hrb => ?_
  refine Sim.bind (Sim.foldlM (fun i _ s v P'' hs => ihtHeapReinsert_sim hold hs.1 hs.2 fuel i)
    ⟨rfl, hrb⟩) ?_
  rintro s v P'' ⟨-, hs⟩
  -- the old blocks are the ones that go
  have hdestroy : BinAt (binBlocks s.2 v.2 + F) t.bin u.bin P'' := by
    refine ⟨ht.bin.elsBound, ht.bin.groupsMask, ?_⟩
    rw [hs.blocks]
    ac_rfl
  exact Sim.destroyBin hdestroy (Sim.pure ⟨rfl, hs.elsBound, hs.groupsMask, rfl⟩)

theorem ihtHeapPerform_sim (ht : IhtAt F t u P) (fuel : Nat) (el : El) (action : Action) :
    Sim P (ihtHeapPerform ops key fuel t el action) (ihtPerform ops key fuel u el action)
      fun r o P' => r.found = o.found ∧ r.res = o.res.map (fun i => (r.bin.els, i)) ∧
        r.elsNum = o.elsNum ∧ BinAt F r.bin o.bin P' := by
  have hprepare : Sim P
      (if action = .insert ∧ ihtFull (⟨t.elsNum, t.bin.counters⟩ : Iht El Unit)
        then ihtHeapRebuild ops key fuel t else Pure.pure t)
      (if action = .insert ∧ ihtFull u then ihtRebuild ops key fuel u else some u) (IhtAt F) := by
    rw [ht.full]
    split
    · exact ihtHeapRebuild_sim ht fuel
    · exact Sim.pure ht
  unfold ihtHeapPerform ihtPerform
  refine Sim.bind hprepare fun t' u' P' ht' => ?_
  rw [ht'.elsNum]
  exact Sim.do1 ht'.bin ops fuel u'.elsNum (key.hash el) el action

/-- The caller's use of `*res` stays in the blocks of the table. -/
theorem callerUse_sim {r : HeapOutcome} {o : Outcome El G} (hfound : r.found = o.found)
    (hres : r.res = o.res.map fun i => (r.bin.els, i)) (hbin : BinAt F r.bin o.bin P) (c : Call El) :
    Sim P (callerUse r c) (o.written c) fun reply b' P' =>
      reply = ⟨o.found, o.res.map (fun i => (r.bin.els, i)), o.value⟩ ∧ BinAt F r.bin b' P' := by
  unfold callerUse Outcome.written Outcome.value
  rw [hres, hfound]
  cases o.res with
  | none =>
    refine Sim.pure ⟨?_, hbin⟩
    simp
  | some i =>
    refine Sim.readEl hbin i ?_
    cases (if o.found then c.update else some c.fresh) with
    | none => exact Sim.pure ⟨rfl, hbin⟩
    | some z =>
      exact Sim.andThen (Sim.writeEl hbin i z) fun _ b' P' hb' => Sim.pure ⟨rfl, hb'⟩

def Reply.position (r : Reply (Nat × Nat) El) : Reply Nat El := ⟨r.found, r.res.map Prod.snd, r.value⟩

theorem ihtHeapStep_sim (ht : IhtAt F t u P) (fuel : Nat) (c : Call El) :
    Sim P (ihtHeapStep ops key fuel t c) (ihtStep ops key fuel u c)
      fun s v P' => s.1.position = v.1 ∧ IhtAt F s.2 v.2 P' := by
  unfold ihtHeapStep ihtStep
  refine Sim.bind (ihtHeapPerform_sim ht fuel c.el c.action) ?_
  rintro r o P' ⟨hfound, hres, hnum, hbin⟩
  refine Sim.map (callerUse_sim hfound hres hbin c) ?_
  rintro reply b' P'' ⟨rfl, hb'⟩
  refine ⟨?_, hnum, hb'⟩
  simp [Reply.position, Function.comp_def]

end Table

/-- Replies and calls, step by step. -/
theorem Sim.runCalls {τ τ' ρ ρ' : Type} {step : τ → Call El → HeapM (Block El G) (ρ × τ)}
    {step' : τ' → Call El → Option (ρ' × τ')} (I : τ → τ' → Multiset (Nat × Block El G) → Prop)
    (view : ρ → ρ')
    (hstep : ∀ t t' P c, I t t' P →
      Sim P (step t c) (step' t' c) fun s s' P' => view s.1 = s'.1 ∧ I s.2 s'.2 P')
    {t : τ} {t' : τ'} (ht : I t t' P) (calls : List (Call El)) :
    Sim P (replies step t calls) (IndexedHash.runCalls step' t' calls)
      fun s s' P' => s.1.map view = s'.1 ∧ I s.2 s'.2 P' := by
  induction calls generalizing t t' P with
  | nil => exact Sim.pure ⟨rfl, ht⟩
  | cons c cs ih =>
    refine Sim.bind (hstep t t' P c ht) fun s s' P' hs => ?_
    refine Sim.map (ih hs.2) fun r r' P'' hr => ⟨?_, hr.2⟩
    rw [List.map_cons, hs.1, hr.1]

/-- The table through a session: it has three blocks of its own and touches no other. -/
theorem ihtHeapRun_sim (ops : BinOps El G) (key : Key El) (fuel minSize : Nat) (calls : List (Call El))
    (F : Multiset (Nat × Block El G)) :
    Sim F (ihtHeapRun ops key fuel minSize calls) (ihtSession ops key fuel minSize calls)
      fun s s' P => s.1.map Reply.position = s'.1 ∧ IhtAt F s.2 s'.2 P := by
  refine Sim.bind (ihtHeapCreate_sim ops fuel minSize F) fun t u P ht => ?_
  exact Sim.runCalls (IhtAt F) Reply.position (fun _ _ _ c h => ihtHeapStep_sim h fuel c) ht calls

end IndexedHash
