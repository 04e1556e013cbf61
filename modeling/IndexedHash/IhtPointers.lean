import IndexedHash.IhtHeap

/-!
# How long `*res` points to its element

`iht_perform` hands out the address of an element.  The caller may keep it, and later calls
move elements only in `iht_rebuild`, which copies the live ones to new blocks and frees the
old ones.  `iht_pointer_lifetime` has both halves, for a block `els` at any moment of any
session and any later calls: while no call rebuilds, the address is that of the table's
current `els`, so position `i` of it is the table's position `i`; from the first rebuild on
it is the address of a freed block, and no later allocation brings it back.

A caller that passes such an address on as the `el` of a call runs into the second half within
that call.  `iht_perform` reads `*el` after it has rebuilt the table, so an INSERT of an element
that stands in the table is the INSERT of its value unless the table is full, and reads a freed
block if it is (`iht_aliased_perform`).
-/

namespace IndexedHash

open Loop HeapM

variable {El G : Type} {ops : BinOps El G} {key : Key El}

/-! ## An address that was freed stays freed -/

section Freed

variable {a : Nat}

theorem openBin_freed (p : BinPtr) : Post.KeepsFreed a (openBin p : HeapM (Block El G) _) := by
  refine Post.bind (Post.loadAs_freed _ _) fun els => ?_
  refine Post.bind (Post.loadAs_freed _ _) fun deleted => ?_
  refine Post.bind (Post.loadAs_freed _ _) fun groups => ?_
  exact Post.pure fun _ h => h

theorem closeBin_freed (p : BinPtr) (b : Hbin El G) : Post.KeepsFreed a (closeBin p b) := by
  refine Post.bind (Post.store_freed _ _) fun _ => ?_
  refine Post.bind (Post.store_freed _ _) fun _ => ?_
  refine Post.bind (Post.store_freed _ _) fun _ => ?_
  exact Post.pure fun _ h => h

theorem heapDo1_freed (fuel elsNum : Nat) (p : BinPtr) (hash : BitVec 64) (el : El)
    (action : Action) : Post.KeepsFreed a (heapDo1 ops fuel elsNum p hash el action) := by
  refine Post.bind (openBin_freed p) fun b => ?_
  refine Post.bind (Post.lift fun _ _ h => h) fun r => ?_
  refine Post.bind (closeBin_freed p r.bin) fun p' => ?_
  exact Post.pure fun _ h => h

theorem readEl_freed (res : Nat × Nat) : Post.KeepsFreed a (readEl res : HeapM (Block El G) _) := by
  refine Post.bind (Post.loadAs_freed _ _) fun els => ?_
  exact Post.pure fun _ h => h

theorem writeEl_freed (res : Nat × Nat) (x : El) :
    Post.KeepsFreed a (writeEl res x : HeapM (Block El G) _) := by
  refine Post.bind (Post.loadAs_freed _ _) fun els => ?_
  split
  · exact Post.store_freed _ _
  · exact Post.lift fun _ _ h => h

theorem ihtHeapAllocBin_freed (n : Nat) : Post.KeepsFreed a (ihtHeapAllocBin ops n) := by
  refine Post.bind (Post.malloc_freed _) fun els => ?_
  refine Post.bind (Post.malloc_freed _) fun deleted => ?_
  refine Post.bind (Post.malloc_freed _) fun groups => ?_
  exact Post.pure fun _ h => h

theorem heapReinsert_freed (fuel elsNum : Nat) (p : BinPtr) (hash : BitVec 64) (x : El) :
    Post.KeepsFreed a (heapReinsert ops fuel elsNum p hash x) := by
  refine Post.bind (heapDo1_freed fuel elsNum p hash x .insert) fun r => ?_
  refine Post.bind (Post.lift fun _ _ h => h) fun res => ?_
  refine Post.bind (writeEl_freed res x) fun _ => ?_
  exact Post.pure fun _ h => h

theorem ihtHeapReinsert_freed (fuel : Nat) (bin : BinPtr) (s : Nat × BinPtr) (i : Nat) :
    Post.KeepsFreed a (ihtHeapReinsert ops key fuel bin s i) := by
  refine Post.bind (Post.loadAs_freed _ _) fun deleted => ?_
  refine Post.bind (Post.lift fun _ _ h => h) fun del => ?_
  split
  · exact Post.pure fun _ h => h
  · refine Post.bind (Post.loadAs_freed _ _) fun els => ?_
    refine Post.bind (Post.lift fun _ _ h => h) fun x => ?_
    exact heapReinsert_freed fuel s.1 s.2 (key.hash x) x

theorem heapDestroyBin_freed (p : BinPtr) :
    Post.KeepsFreed a (heapDestroyBin p : HeapM (Block El G) _) := by
  refine Post.bind (Post.free_freed _) fun _ => ?_
  refine Post.bind (Post.free_freed _) fun _ => ?_
  exact Post.free_freed _

theorem ihtHeapRebuild_freed (fuel : Nat) (t : IhtPtr) :
    Post.KeepsFreed a (ihtHeapRebuild ops key fuel t) := by
  refine Post.bind (ihtHeapAllocBin_freed _) fun rb => ?_
  refine Post.bind (Post.foldlM (fun s i _ => ihtHeapReinsert_freed fuel t.bin s i) _) fun s => ?_
  refine Post.bind (heapDestroyBin_freed t.bin) fun _ => ?_
  exact Post.pure fun _ h => h

theorem callerUse_freed (r : HeapOutcome) (c : Call El) :
    Post.KeepsFreed a (callerUse r c : HeapM (Block El G) _) := by
  unfold callerUse
  split
  · exact Post.pure fun _ h => h
  · refine Post.bind (readEl_freed _) fun value => ?_
    split
    · exact Post.pure fun _ h => h
    · refine Post.bind (writeEl_freed _ _) fun _ => ?_
      exact Post.pure fun _ h => h

theorem ihtHeapStep_freed (fuel : Nat) (t : IhtPtr) (c : Call El) :
    Post.KeepsFreed a (ihtHeapStep ops key fuel t c) := by
  have hprepare : Post.KeepsFreed a
      (if c.action = .insert ∧ ihtFull (⟨t.elsNum, t.bin.counters⟩ : Iht El Unit)
        then ihtHeapRebuild ops key fuel t else pure t) := by
    split
    · exact ihtHeapRebuild_freed fuel t
    · exact Post.pure fun _ h => h
  refine Post.bind (hprepare.bind fun t => heapDo1_freed fuel t.elsNum t.bin (key.hash c.el) c.el c.action) fun r => ?_
  refine Post.bind (callerUse_freed r c) fun reply => ?_
  exact Post.pure fun _ h => h

end Freed

/-! ## Where the elements are -/

section Els

theorem closeBin_els (p : BinPtr) (b : Hbin El G) :
    Post (fun _ => True) (closeBin p b) fun p' _ => p'.els = p.els := by
  refine Post.bind Post.any fun _ => ?_
  refine Post.bind Post.any fun _ => ?_
  refine Post.bind Post.any fun _ => ?_
  exact Post.pure fun _ _ => rfl

theorem heapDo1_els (fuel elsNum : Nat) (p : BinPtr) (hash : BitVec 64) (el : El)
    (action : Action) :
    Post (fun _ => True) (heapDo1 ops fuel elsNum p hash el action) fun r _ => r.bin.els = p.els := by
  refine Post.bind Post.any fun b => ?_
  refine Post.bind Post.any fun r => ?_
  refine Post.bind (closeBin_els p r.bin) fun p' => ?_
  exact Post.pure fun _ h => h

theorem heapDestroyBin_els (p : BinPtr) :
    Post (fun _ => True) (heapDestroyBin p : HeapM (Block El G) _) fun _ h => h.Freed p.els := by
  refine Post.bind Post.free_self fun _ => ?_
  refine Post.bind (Post.free_freed _) fun _ => ?_
  exact Post.free_freed _

theorem ihtHeapRebuild_els (fuel : Nat) (t : IhtPtr) :
    Post (fun _ => True) (ihtHeapRebuild ops key fuel t) fun _ h => h.Freed t.bin.els := by
  refine Post.bind Post.any fun rb => ?_
  refine Post.bind Post.any fun s => ?_
  refine Post.bind (heapDestroyBin_els t.bin) fun _ => ?_
  exact Post.pure fun _ h => h

/-- A call that does not rebuild leaves `els` where it is. -/
theorem ihtHeapStep_stays (fuel : Nat) {t : IhtPtr} {c : Call El}
    (hno : ¬(c.action = .insert ∧ ihtFull (⟨t.elsNum, t.bin.counters⟩ : Iht El Unit))) :
    Post (fun _ => True) (ihtHeapStep ops key fuel t c) fun s _ => s.2.bin.els = t.bin.els := by
  have hperform : Post (fun _ => True) (ihtHeapPerform ops key fuel t c.el c.action)
      fun r _ => r.bin.els = t.bin.els := by
    rw [ihtHeapPerform, if_neg hno]
    exact heapDo1_els fuel t.elsNum t.bin (key.hash c.el) c.el c.action
  refine Post.bind hperform fun r => ?_
  refine Post.bind (Q := fun _ _ => r.bin.els = t.bin.els) (fun _ h _ _ _ => h) fun reply => ?_
  exact Post.pure fun _ h => h

/-- A call that rebuilds frees the block that `els` was. -/
theorem ihtHeapStep_frees (fuel : Nat) {t : IhtPtr} {c : Call El}
    (hyes : c.action = .insert ∧ ihtFull (⟨t.elsNum, t.bin.counters⟩ : Iht El Unit)) :
    Post (fun _ => True) (ihtHeapStep ops key fuel t c) fun _ h => h.Freed t.bin.els := by
  have hperform : Post (fun _ => True) (ihtHeapPerform ops key fuel t c.el c.action)
      fun _ h => h.Freed t.bin.els := by
    rw [ihtHeapPerform, if_pos hyes]
    exact (ihtHeapRebuild_els fuel t).bind
      fun t => heapDo1_freed fuel t.elsNum t.bin (key.hash c.el) c.el c.action
  refine Post.bind hperform fun r => ?_
  refine Post.bind (callerUse_freed r c) fun reply => ?_
  exact Post.pure fun _ h => h

end Els

/-! ## Over a run -/

def ihtRebuilds (t : Iht El G) (c : Call El) : Bool := c.action = .insert ∧ ihtFull t

def ihtRunRebuilds (ops : BinOps El G) (key : Key El) (fuel : Nat) :
    Iht El G → List (Call El) → Bool
  | _, [] => false
  | t, c :: cs =>
      ihtRebuilds t c ||
        ((ihtStep ops key fuel t c).map fun s => ihtRunRebuilds ops key fuel s.2 cs).getD false

section Run

variable {F : Multiset (Nat × Block El G)} {t t' : IhtPtr} {u : Iht El G}
  {h h' : Heap (Block El G)}

theorem replies_freed {a : Nat} (fuel : Nat) (t : IhtPtr) (calls : List (Call El)) :
    Post.KeepsFreed a (replies (ihtHeapStep ops key fuel) t calls) := by
  induction calls generalizing t with
  | nil => exact Post.pure fun _ h => h
  | cons c cs ih =>
    refine Post.bind (ihtHeapStep_freed fuel t c) fun s => ?_
    refine Post.bind (ih s.2) fun rest => ?_
    exact Post.pure fun _ h => h

/-- The run lemma: the heap run follows the run on values, and the block that `els` was at
    its beginning is the one at its end or has been freed on the way. -/
theorem replies_els (fuel : Nat) {calls : List (Call El)} {rs : List (Reply (Nat × Nat) El)}
    (ht : IhtAt F t u h.blocks)
    (hrun : replies (ihtHeapStep ops key fuel) t calls h = some ((rs, t'), h')) :
    ∃ vs u', ihtRun ops key fuel u calls = some (vs, u') ∧ IhtAt F t' u' h'.blocks ∧
      if ihtRunRebuilds ops key fuel u calls then h'.Freed t.bin.els else t'.bin.els = t.bin.els := by
  induction calls generalizing t u h rs with
  | nil =>
    cases hrun
    exact ⟨[], u, rfl, ht, rfl⟩
  | cons c cs ih =>
    obtain ⟨⟨r, t₁⟩, h₁, hstep, hrest⟩ := bind_eq_some hrun
    obtain ⟨⟨rs', t₂⟩, h₂, hreplies, heq⟩ := bind_eq_some hrest
    cases heq
    obtain ⟨⟨v, u₁⟩, hv, -, ht₁⟩ := (ihtHeapStep_sim ht fuel c).of_run rfl hstep
    obtain ⟨vs, u₂, hvs, ht₂, hels⟩ := ih ht₁ hreplies
    refine ⟨v :: vs, u₂, ?_, ht₂, ?_⟩
    · rw [ihtRun, runCalls, hv]
      exact congrArg (Option.map _) hvs
    · rw [ihtRunRebuilds, hv, Option.map_some, Option.getD_some]
      by_cases hyes : c.action = .insert ∧ ihtFull u
      · rw [if_pos (by simp [ihtRebuilds, hyes])]
        rw [← ht.full] at hyes
        exact replies_freed fuel t₁ cs h₁ (ihtHeapStep_frees fuel hyes h trivial _ _ hstep) _ _ hreplies
      · rw [show ihtRebuilds u c = false from decide_eq_false hyes, Bool.false_or]
        rw [← ht.full] at hyes
        have hstays : t₁.bin.els = t.bin.els := ihtHeapStep_stays fuel hyes h trivial _ _ hstep
        rwa [← hstays]

end Run

/-- The block of elements of a table at any moment of a session, after any later calls.  It is
    the table's current block, at the same address, as long as none of these calls rebuilt;
    after a rebuild a load from the address is stuck. -/
theorem iht_pointer_lifetime {fuel minSize : Nat} {pre post : List (Call El)}
    {h h₁ h₂ : Heap (Block El G)} {rs₁ rs₂ : List (Reply (Nat × Nat) El)} {t₁ t₂ : IhtPtr}
    (hpre : ihtHeapRun ops key fuel minSize pre h = some ((rs₁, t₁), h₁))
    (hpost : replies (ihtHeapStep ops key fuel) t₁ post h₁ = some ((rs₂, t₂), h₂)) :
    ∃ vs₁ u₁ vs₂ u₂, ihtSession ops key fuel minSize pre = some (vs₁, u₁) ∧
      ihtRun ops key fuel u₁ post = some (vs₂, u₂) ∧
      (ihtRunRebuilds ops key fuel u₁ post = false → t₂.bin.els = t₁.bin.els) ∧
      h₂.load t₁.bin.els =
        if ihtRunRebuilds ops key fuel u₁ post then none else some (.els u₂.bin.els) := by
  obtain ⟨⟨vs₁, u₁⟩, hv₁, -, ht₁⟩ := (ihtHeapRun_sim ops key fuel minSize pre h.blocks).of_run rfl hpre
  obtain ⟨vs₂, u₂, hv₂, ht₂, hels⟩ := replies_els fuel ht₁ hpost
  refine ⟨vs₁, u₁, vs₂, u₂, hv₁, hv₂, fun hno => ?_, ?_⟩
  · rwa [hno, if_neg Bool.false_ne_true] at hels
  split
  case isTrue hyes =>
    rw [if_pos hyes] at hels
    exact hels.load
  case isFalse hno =>
    rw [if_neg hno] at hels
    rw [← hels]
    exact Heap.mem_blocks.mp ht₂.bin.els_mem

def rebuildingCalls : List (Call (BitVec 64)) :=
  [5, 6, 7, 8, 9].map fun x => ⟨x, .insert, x, none⟩

/-- The first two of the four leave the block where it is, and all four do not. -/
theorem iht_pointer_lifetime_five :
    (∃ rs₁ t₁ h₁ rs₂ t₂ h₂ els,
      ihtHeapRun (ihtOps identityKey .sse2) identityKey 8 4 (rebuildingCalls.take 1) [] =
        some ((rs₁, t₁), h₁) ∧
      replies (ihtHeapStep (ihtOps identityKey .sse2) identityKey 8) t₁
        ((rebuildingCalls.drop 1).take 2) h₁ = some ((rs₂, t₂), h₂) ∧
      t₂.bin.els = t₁.bin.els ∧ h₂.load t₁.bin.els = some (.els els)) ∧
    ∃ rs₁ t₁ h₁ rs₂ t₂ h₂,
      ihtHeapRun (ihtOps identityKey .sse2) identityKey 8 4 (rebuildingCalls.take 1) [] =
        some ((rs₁, t₁), h₁) ∧
      replies (ihtHeapStep (ihtOps identityKey .sse2) identityKey 8) t₁ (rebuildingCalls.drop 1) h₁ =
        some ((rs₂, t₂), h₂) ∧
      h₂.load t₁.bin.els = none := by
  have hruns : ∀ n ∈ [2, 4], ((ihtHeapRun (ihtOps identityKey .sse2) identityKey 8 4
      (rebuildingCalls.take 1) >>= fun s => replies (ihtHeapStep (ihtOps identityKey .sse2)
        identityKey 8) s.2 ((rebuildingCalls.drop 1).take n)) []).isSome := by decide +kernel
  have hrebuilds : ∀ n ∈ [2, 4], (ihtSession (ihtOps identityKey .sse2) identityKey 8 4
      (rebuildingCalls.take 1)).map (fun s => ihtRunRebuilds (ihtOps identityKey .sse2) identityKey 8
        s.2 ((rebuildingCalls.drop 1).take n)) = some (decide (n = 4)) := by decide +kernel
  constructor
  · obtain ⟨_, hboth⟩ := Option.isSome_iff_exists.mp (hruns 2 (by decide))
    obtain ⟨⟨rs₁, t₁⟩, h₁, hpre, hpost⟩ := bind_eq_some hboth
    obtain ⟨vs₁, u₁, vs₂, u₂, hsession, -, hstays, hload⟩ := iht_pointer_lifetime hpre hpost
    have hno := hrebuilds 2 (by decide)
    rw [hsession, Option.map_some, Option.some_inj] at hno
    rw [hno, if_neg (by decide)] at hload
    exact ⟨rs₁, t₁, h₁, _, _, _, _, hpre, hpost, hstays hno, hload⟩
  · obtain ⟨_, hboth⟩ := Option.isSome_iff_exists.mp (hruns 4 (by decide))
    obtain ⟨⟨rs₁, t₁⟩, h₁, hpre, hpost⟩ := bind_eq_some hboth
    obtain ⟨vs₁, u₁, vs₂, u₂, hsession, -, -, hload⟩ := iht_pointer_lifetime hpre hpost
    have hyes := hrebuilds 4 (by decide)
    rw [hsession, Option.map_some, Option.some_inj] at hyes
    rw [hyes, if_pos (by decide)] at hload
    exact ⟨rs₁, t₁, h₁, _, _, _, hpre, hpost, hload⟩

/-! ## An element of the table as the argument of a call -/

/-- `iht_perform` with a pointer `el`.  `iht_do_1` does not write to `els` while it reads
    `*el`, so that one load stands for all of them. -/
def ihtHeapPerformAt (ops : BinOps El G) (key : Key El) (fuel : Nat) (t : IhtPtr) (el : Nat × Nat)
    (action : Action) : HeapM (Block El G) HeapOutcome :=
  (if action = .insert ∧ ihtFull (⟨t.elsNum, t.bin.counters⟩ : Iht El Unit)
    then ihtHeapRebuild ops key fuel t else pure t) >>= fun t => do
      let x ← readEl el
      let x ← lift x
      heapDo1 ops fuel t.elsNum t.bin (key.hash x) x action

theorem readEl_of_freed {h : Heap (Block El G)} {res : Nat × Nat} (hfreed : h.Freed res.1) :
    readEl res h = none := by
  show ((((h.load res.1).bind Block.els?).map fun u => (u, h)).bind _) = none
  rw [hfreed.load]
  rfl

theorem readEl_of_mem {h : Heap (Block El G)} {a i : Nat} {els : List (Option El)}
    (hmem : (a, .els els) ∈ h.blocks) : readEl (a, i) h = some (els[i]?.join, h) := by
  show ((((h.load a).bind Block.els?).map fun u => (u, h)).bind _) = _
  rw [Heap.mem_blocks.mp hmem]
  rfl

/-- After any calls, a call about an element that stands in the table, by its address: it is
    the call about the value, unless it is an INSERT into a full table, which is stuck. -/
theorem iht_aliased_perform {fuel minSize : Nat} {calls : List (Call El)} {h h₁ : Heap (Block El G)}
    {rs : List (Reply (Nat × Nat) El)} {t : IhtPtr}
    (hrun : ihtHeapRun ops key fuel minSize calls h = some ((rs, t), h₁)) :
    ∃ vs u, ihtSession ops key fuel minSize calls = some (vs, u) ∧
      ∀ i x action, u.bin.elAt i = some x →
        ihtHeapPerformAt ops key fuel t (t.bin.els, i) action h₁ =
          if action = .insert ∧ ihtFull u then none
          else ihtHeapPerform ops key fuel t x action h₁ := by
  obtain ⟨⟨vs, u⟩, hv, -, ht⟩ := (ihtHeapRun_sim ops key fuel minSize calls h.blocks).of_run rfl hrun
  refine ⟨vs, u, hv, fun i x action hx => ?_⟩
  unfold ihtHeapPerformAt ihtHeapPerform
  rw [ht.full]
  split
  · -- the block is freed by the time it is read
    rw [Option.eq_none_iff_forall_ne_some]
    intro r hr
    obtain ⟨t', h₂, hrebuild, hrest⟩ := bind_eq_some hr
    have hfreed := ihtHeapRebuild_els fuel t h₁ trivial t' h₂ hrebuild
    obtain ⟨y, h₃, hread, -⟩ := bind_eq_some hrest
    rw [readEl_of_freed hfreed] at hread
    cases hread
  · have hread : readEl (t.bin.els, i) h₁ = some (some x, h₁) := by
      rw [readEl_of_mem ht.bin.els_mem]
      exact congrArg (fun y => some (y, h₁)) hx
    rw [pure_bind, pure_bind]
    show (readEl (t.bin.els, i) h₁).bind _ = _
    rw [hread]
    rfl

/-- The table is full after three of the insertions, and their first element is passed on. -/
theorem iht_aliased_perform_full :
    ∃ rs t h, ihtHeapRun (ihtOps identityKey .sse2) identityKey 8 4 (rebuildingCalls.take 3) [] =
        some ((rs, t), h) ∧
      ihtHeapPerformAt (ihtOps identityKey .sse2) identityKey 8 t (t.bin.els, 0) .insert h = none ∧
      ihtHeapPerformAt (ihtOps identityKey .sse2) identityKey 8 t (t.bin.els, 0) .find h =
        ihtHeapPerform (ihtOps identityKey .sse2) identityKey 8 t 5 .find h := by
  have hruns : (ihtHeapRun (ihtOps identityKey .sse2) identityKey 8 4 (rebuildingCalls.take 3)
      []).isSome := by decide +kernel
  obtain ⟨⟨⟨rs, t⟩, h⟩, hrun⟩ := Option.isSome_iff_exists.mp hruns
  obtain ⟨vs, u, hsession, haliased⟩ := iht_aliased_perform hrun
  have hvalues : (ihtSession (ihtOps identityKey .sse2) identityKey 8 4 (rebuildingCalls.take 3)).map
      (fun s => (s.2.bin.elAt 0, ihtFull s.2)) = some (some 5, true) := by decide +kernel
  rw [hsession, Option.map_some, Option.some_inj, Prod.mk.injEq] at hvalues
  obtain ⟨hel, hfull⟩ := hvalues
  refine ⟨rs, t, h, hrun, ?_, ?_⟩
  · rw [haliased 0 5 .insert hel, if_pos ⟨rfl, hfull⟩]
  · rw [haliased 0 5 .find hel, if_neg (fun hins => by cases hins.1)]

end IndexedHash
