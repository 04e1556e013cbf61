import Mathlib.Tactic.Common
import IndexedHash.IxhtHeap
import IndexedHash.SplitElements

/-!
# Sessions of `ixhtab.h` on a heap

Each function of `IxhtHeap.lean` against the one of `Ixht.lean` that it implements.  The
directory and the array of records are reallocated while bins are in use, an in-place rebuild
keeps the old bitmap until its loop is over, and a split works on two bins at once;
`ixht_heap_session` puts the pieces together for a session from `ixht_create` to
`ixht_destroy`.

The only thing that the heap adds to the table on values is `bins_capacity`, a 32-bit counter
that doubles.  So the sessions are those with fewer than `2 ^ 31` bins.
-/

namespace IndexedHash

open Loop HeapM

variable {El G : Type} {F P : Multiset (Nat × Block El G)} {t : IxhtPtr} {u : Ixht El G}

theorem IxhtAt.withBins {P' : Multiset (Nat × Block El G)} {bins : List (Ebin El G)}
    (h : IxhtAt F t u P) (hbins : BinsAt ({(t.dir, .dir (u.dir.map some))} + F) t bins P') :
    IxhtAt F t { u with bins := bins } P' :=
  ⟨h.elsNum, h.maxDepth, h.binMask, h.dirCapacity, hbins⟩

/-! ## The directory -/

namespace Sim

variable {γ δ : Type} {y : Option δ} {R : γ → δ → Multiset (Nat × Block El G) → Prop}
  {entries : List (Option Nat)} {i ind : Nat}

theorem getEntry (hmem : (t.dir, .dir entries) ∈ P) (hget : entries[i]? = some (some ind))
    {f : Nat → HeapM (Block El G) γ} (h : Sim P (f ind) y R) : Sim P (getDir t i >>= f) y R := by
  simp only [getDir, bind_assoc]
  refine Sim.load hmem rfl ?_
  rwa [hget]

theorem putEntry (hP : P = {(t.dir, .dir entries)} + F) (hi : i < entries.length)
    {f : Unit → HeapM (Block El G) γ}
    (h : Sim ({(t.dir, .dir (entries.set i (some ind)))} + F) (f ()) y R) :
    Sim P (putDir t i ind >>= f) y R := by
  simp only [putDir, bind_assoc]
  refine Sim.load (v := .dir entries) (by rw [hP]; simp) rfl ?_
  rw [if_pos hi]
  exact Sim.store (.dir entries) F hP h

end Sim

theorem IxhtAt.dir_mem (h : IxhtAt F t u P) : (t.dir, .dir (u.dir.map some)) ∈ P := by
  obtain ⟨P', hP, -⟩ := h.bins.split
  rw [hP]
  simp

namespace Sim

variable {γ δ : Type} {R : γ → δ → Multiset (Nat × Block El G) → Prop} {i ind : Nat}

/-- `t->dir[i]` on both sides. -/
theorem getDir_bind (ht : IxhtAt F t u P) {f : Nat → HeapM (Block El G) γ} {g : Nat → Option δ}
    (h : ∀ ind, Sim P (f ind) (g ind) R) : Sim P (getDir t i >>= f) (u.dir[i]?.bind g) R := by
  simp only [getDir, bind_assoc]
  refine Sim.load ht.dir_mem rfl ?_
  rw [List.getElem?_map]
  cases u.dir[i]? with
  | none => exact Sim.stuck
  | some ind => exact h ind

/-- `t->dir[i] = ind` on both sides; the bins may be different ones. -/
theorem putDir_bind {bins : List (Ebin El G)} (ht : IxhtAt F t { u with bins := bins } P)
    {f : Unit → HeapM (Block El G) γ} {g : Ixht El G → Option δ}
    (h : ∀ P', IxhtAt F t { u with dir := u.dir.set i ind, bins := bins } P' →
      Sim P' (f ()) (g { u with dir := u.dir.set i ind }) R) :
    Sim P (putDir t i ind >>= f) ((u.redirect i ind).bind g) R := by
  obtain ⟨P₁, hP, hbins⟩ := ht.bins.split
  unfold Ixht.redirect
  by_cases hi : i < u.dir.length
  · rw [if_pos hi]
    refine Sim.putEntry hP (by simpa using hi) ?_
    rw [← List.map_set]
    refine h _ ⟨ht.elsNum, ht.maxDepth, ht.binMask, ?_, hbins.join⟩
    rw [ht.dirCapacity, List.length_set]
  · rw [if_neg hi]
    simp only [putDir, bind_assoc]
    refine Sim.load ht.dir_mem rfl ?_
    rw [List.length_map, if_neg hi]
    exact Sim.stuck

end Sim

def copied (dir : List Nat) (k : Nat) : List (Option Nat) :=
  resized ((dir ++ dir.take k).map some) (2 * dir.length)

theorem copied_step {dir : List Nat} {k : Nat} (hk : k < dir.length) :
    (copied dir k)[k]? = some (dir[k]?) ∧
      (copied dir k).set (k + dir.length) (dir[k]?) = copied dir (k + 1) := by
  have hlen : ((dir ++ dir.take k).map some).length = k + dir.length := by
    simp
    omega
  constructor
  · rw [copied, getElem?_resized (by omega) (by omega), List.getElem?_map,
      List.getElem?_append_left hk, List.getElem?_eq_getElem hk]
    rfl
  · rw [copied, copied, ← hlen, set_resized_length (by omega), List.take_add_one,
      List.getElem?_eq_getElem hk, Option.toList_some, ← List.append_assoc]
    simp only [List.map_append, List.map_singleton]

theorem copied_zero (dir : List Nat) :
    copied dir 0 = resized (dir.map some) (2 * dir.length) := by
  rw [copied, List.take_zero, List.append_nil]

theorem copied_length (dir : List Nat) : copied dir dir.length = (dir ++ dir).map some := by
  rw [copied, List.take_length, resized_of_le (by simp; omega)]
  simp
  omega

/-- The copying loop doubles the directory. -/
theorem copyEntry_sim {dir : List Nat} (hdir : P = {(t.dir, .dir (copied dir 0))} + F) :
    Sim P ((List.range dir.length).foldlM (copyEntry t dir.length) ()) (some ())
      fun _ _ P' => P' = {(t.dir, .dir ((dir ++ dir).map some))} + F := by
  rw [← copied_length]
  refine Sim.foldlM_silent (fun k _ P' => P' = {(t.dir, .dir (copied dir k))} + F) dir.length ?_ hdir
  · intro k hk s P' hP'
    obtain ⟨hget, hset⟩ := copied_step hk
    rw [List.getElem?_eq_getElem hk] at hget hset
    unfold copyEntry
    refine Sim.getEntry (by rw [hP']; simp) hget ?_
    have hput : Sim P' (putDir t (k + dir.length) dir[k] >>= Pure.pure) (some ())
        fun (_ : Unit) (_ : Unit) P'' => P'' = {(t.dir, .dir (copied dir (k + 1)))} + F := by
      refine Sim.putEntry hP' ?_ ?_
      · rw [copied, length_resized]
        omega
      · rw [hset]
        exact Sim.pure rfl
    rwa [bind_pure] at hput

theorem ixhtHeapDeepen_sim {bins : List (Ebin El G)} (ht : IxhtAt F t { u with bins := bins } P)
    (depth : Nat) :
    Sim P (ixhtHeapDeepen t depth) (u.deepen depth)
      fun t' u' P' => IxhtAt F t' { u' with bins := bins } P' ∧ u'.bins = u.bins := by
  have hmax : t.maxDepth = u.maxDepth := ht.maxDepth
  have hcapacity : t.dirCapacity = u.dir.length := ht.dirCapacity
  unfold ixhtHeapDeepen Ixht.deepen
  rw [hmax, hcapacity]
  split
  · split
    · obtain ⟨P', hP, hbins⟩ := ht.bins.split
      refine Sim.load ht.dir_mem rfl (Sim.free (.dir (u.dir.map some)) P' hP (Sim.malloc fun a => ?_))
      rw [← copied_zero]
      refine Sim.silent (copyEntry_sim (t := { t with
        maxDepth := depth, binMask := 2 ^ depth - 1, dir := a, dirCapacity := 2 * u.dir.length })
          rfl) fun _ P'' hP'' => Sim.pure ?_
      subst hP''
      refine ⟨⟨ht.elsNum, rfl, rfl, ?_, BinsAt.join hbins⟩, rfl⟩
      rw [List.length_append]
      exact Nat.two_mul _
    · exact Sim.stuck
  · exact Sim.pure ⟨ht, rfl⟩

/-! ## New bins -/

section Create

variable {bins : List (Ebin El G)} {γ δ : Type} {y : Option δ}
  {R : γ → δ → Multiset (Nat × Block El G) → Prop}

/-- After `ixht_create_bin` has made sure of it, there is a free place in the array. -/
theorem ixhtHeapReserve_sim (hbins : BinsAt F t bins P) (hlen : bins.length < 2 ^ 31)
    {f : IxhtPtr → HeapM (Block El G) γ}
    (h : ∀ a capacity P', bins.length < capacity →
      BinsAt F { t with bins := some a, binsCapacity := capacity } bins P' →
      Sim P' (f { t with bins := some a, binsCapacity := capacity }) y R) :
    Sim P (ixhtHeapReserve t >>= f) y R := by
  obtain ⟨pairs, hrecords, hblocks⟩ := hbins
  have hnum : bins.length = pairs.length := by rw [hrecords.bins, List.length_map]
  have hroom := hrecords.room
  unfold ixhtHeapReserve
  by_cases hfull : t.binsNum = t.binsCapacity
  · have hcapacity : t.binsCapacity = pairs.length := hfull.symm.trans hrecords.num
    rw [if_pos hfull]
    simp only [bind_assoc, pure_bind]
    generalize hgrown : (if t.binsCapacity = 0 then 4 else t.binsCapacity * 2 % 2 ^ 32) = capacity
    have hmore : pairs.length < capacity := by
      rw [← hgrown]
      split <;> omega
    -- the records in their new place
    have hmoved : ∀ a P', P' = {(a, .bins (resized ((pairs.map Prod.fst).map some) capacity))} +
        (allBinBlocks pairs + F) →
        Sim P' (f { t with bins := some a, binsCapacity := capacity }) y R := by
      intro a P' hP'
      refine h a capacity P' (by omega) ⟨pairs, ⟨hrecords.bins, hrecords.records, hrecords.num,
        Nat.le_of_lt hmore, fun hnone => by cases hnone⟩, ?_⟩
      rw [hP', recordBlock, add_assoc]
    unfold reallocBins
    cases haddr : t.bins with
    | none =>
      have hzero := hrecords.null haddr
      have hnil : pairs = [] := List.eq_nil_of_length_eq_zero (by omega)
      refine Sim.malloc fun a => hmoved a _ ?_
      rw [hblocks, haddr, hnil, recordBlock, zero_add]
      rfl
    | some a =>
      rw [haddr, recordBlock, add_assoc] at hblocks
      simp only [bind_assoc]
      refine Sim.load (v := .bins (resized ((pairs.map Prod.fst).map some) t.binsCapacity)) ?_ rfl ?_
      · rw [hblocks]
        simp
      refine Sim.free _ _ hblocks (Sim.malloc fun a' => hmoved a' _ ?_)
      rw [resized_resized (by simpa using hroom) (by omega)]
  · rw [if_neg hfull, pure_bind]
    have hnum' := hrecords.num
    cases haddr : t.bins with
    | none =>
      have hzero := hrecords.null haddr
      omega
    | some a =>
      have heq : t = { t with bins := some a, binsCapacity := t.binsCapacity } := by rw [← haddr]
      rw [heq]
      refine h a t.binsCapacity P (by omega) ⟨pairs, ?_, ?_⟩
      · rw [← haddr]
        exact hrecords
      · rw [hblocks, haddr]

theorem ixhtHeapAllocBin_sim (ops : BinOps El G) (size : Nat) {f : BinPtr → HeapM (Block El G) γ}
    (h : ∀ p P', BinAt P p (ixhtCreateBin ops size).bin P' → Sim P' (f p) y R) :
    Sim P (ixhtHeapAllocBin ops size >>= f) y R := by
  simp only [ixhtHeapAllocBin, bind_assoc, pure_bind]
  refine Sim.malloc fun els => Sim.malloc fun deleted => Sim.malloc fun groups => ?_
  refine h _ _ ⟨rfl, rfl, ?_⟩
  simp only [binBlocks, ixhtCreateBin]
  ac_rfl

/-- `ixht_create_bin` appends a bin.  The array of records may have moved. -/
theorem ixhtHeapCreateBin_sim (hbins : BinsAt F t bins P) (hlen : bins.length < 2 ^ 31)
    (ops : BinOps El G) (size : Nat) {f : IxhtPtr × Nat → HeapM (Block El G) γ}
    (h : ∀ a capacity P',
      BinsAt F { t with bins := some a, binsNum := bins.length + 1, binsCapacity := capacity }
        (bins ++ [ixhtCreateBin ops size]) P' →
      Sim P' (f ({ t with bins := some a, binsNum := bins.length + 1, binsCapacity := capacity },
        bins.length)) y R) :
    Sim P (ixhtHeapCreateBin ops t size >>= f) y R := by
  simp only [ixhtHeapCreateBin, bind_assoc, pure_bind]
  refine ixhtHeapReserve_sim hbins hlen fun a capacity P' hroom hbins' => ?_
  refine ixhtHeapAllocBin_sim ops size fun bin P'' hbin => ?_
  obtain ⟨pairs, hrecords, hblocks⟩ := hbins'
  have hnum : bins.length = pairs.length := by rw [hrecords.bins, List.length_map]
  have hlength : ((pairs.map Prod.fst).map some).length = bins.length := by simp [hnum]
  have hbinsNum : t.binsNum = bins.length := hrecords.num.trans hnum.symm
  have hmod : (bins.length + 1) % 2 ^ 32 = bins.length + 1 := Nat.mod_eq_of_lt (by omega)
  rw [recordBlock] at hblocks
  simp only [putBin, bind_assoc, HeapM.lift_some_bind, hbinsNum, hmod]
  refine Sim.load (v := .bins (resized ((pairs.map Prod.fst).map some) capacity)) ?_ rfl ?_
  · rw [hbin.blocks, hblocks]
    simp
  rw [length_resized, if_pos hroom]
  refine Sim.store (.bins (resized ((pairs.map Prod.fst).map some) capacity))
    (binBlocks bin (ixhtCreateBin ops size).bin + (allBinBlocks pairs + F)) ?_ ?_
  · rw [hbin.blocks, hblocks]
    ac_rfl
  -- the new record stands in the first free place
  refine h a capacity _ ⟨pairs ++ [(⟨0, 0, 0, bin⟩, ixhtCreateBin ops size)], ⟨?_, ?_, ?_, ?_, ?_⟩, ?_⟩
  · rw [hrecords.bins, List.map_append]
    rfl
  · intro x hx
    rcases List.mem_append.mp hx with hx | hx
    · exact hrecords.records x hx
    · rw [List.mem_singleton.mp hx]
      exact ⟨rfl, rfl, rfl, hbin.elsBound, hbin.groupsMask⟩
  · simp [hnum]
  · simpa [← hnum] using Nat.succ_le_of_lt hroom
  · intro hnone
    cases hnone
  · rw [← hlength, set_resized_length (by rwa [hlength]), recordBlock, allBinBlocks, allBinBlocks,
      List.map_append, List.map_append, List.map_append, List.sum_append]
    simp only [List.map_cons, List.map_nil, List.sum_cons, List.sum_nil, add_zero]
    ac_rfl

end Create

section Make

variable {ops : BinOps El G} {p : IxhtParams}

def firstBins (ops : BinOps El G) (p : IxhtParams) (k : Nat) : List (Ebin El G) :=
  (List.range k).map fun i => { ixhtCreateBin ops p.bs with depth := p.bp2 % 2 ^ 16, mask := i }

/-- The table during the loop of `ixht_create`, after `k` passes. -/
structure Making (F : Multiset (Nat × Block El G)) (ops : BinOps El G) (p : IxhtParams) (k : Nat)
    (t : IxhtPtr) (P : Multiset (Nat × Block El G)) : Prop where
  elsNum : t.elsNum = 0
  maxDepth : t.maxDepth = p.bp2 % 2 ^ 16
  binMask : t.binMask = 2 ^ p.bp2 - 1
  dirCapacity : t.dirCapacity = p.bn % 2 ^ 32
  bins : BinsAt ({(t.dir, .dir (resized ((List.range k).map some) p.bn))} + F) t (firstBins ops p k) P

theorem Making.next {k : Nat} (h : Making F ops p k t P) (hk : k < p.bn) (hbn : p.bn < 2 ^ 31) :
    Sim P (ixhtHeapCreatePass ops p t k) (some ()) fun t' _ P' => Making F ops p (k + 1) t' P' := by
  have hlen : (firstBins ops p k).length = k := by simp [firstBins]
  obtain ⟨P₁, hP, hbins⟩ := h.bins.split
  unfold ixhtHeapCreatePass
  refine Sim.putEntry hP (by rwa [length_resized]) ?_
  have hentries : (resized ((List.range k).map some) p.bn).set k (some k) =
      resized ((List.range (k + 1)).map some) p.bn := by
    have hset := set_resized_length (l := (List.range k).map some) (n := p.bn) (by simpa using hk)
      (some k)
    rwa [List.length_map, List.length_range, ← List.map_singleton (f := some), ← List.map_append,
      ← List.range_succ] at hset
  rw [hentries]
  refine ixhtHeapCreateBin_sim hbins.join (by omega) ops p.bs fun a capacity P' hbins' => ?_
  rw [hlen] at hbins' ⊢
  have hget : (firstBins ops p k ++ [ixhtCreateBin ops p.bs])[k]? = some (ixhtCreateBin ops p.bs) := by
    simp [hlen]
  refine Sim.modifyBin hbins' hget
    { ixhtCreateBin ops p.bs with depth := p.bp2 % 2 ^ 16, mask := k } ?_
    fun P'' hbins'' => Sim.pure ?_
  · intro q hq
    exact ⟨⟨rfl, rfl, hq.elsStart, hq.elsBound, hq.groupsMask⟩, rfl⟩
  refine ⟨h.elsNum, h.maxDepth, h.binMask, h.dirCapacity, ?_⟩
  have hbinsEq : (firstBins ops p k ++ [ixhtCreateBin ops p.bs]).set k
      { ixhtCreateBin ops p.bs with depth := p.bp2 % 2 ^ 16, mask := k } = firstBins ops p (k + 1) := by
    rw [List.set_append_right _ _ (by rw [hlen]), hlen, Nat.sub_self]
    simp [firstBins, List.range_succ]
  rwa [hbinsEq] at hbins''

theorem ixhtHeapCreate_sim (maxPower : Nat) (ops : BinOps El G) (fuel minSize : Nat)
    (F : Multiset (Nat × Block El G))
    (hfew : ∀ u, ixhtCreate maxPower ops fuel minSize = some u → u.bins.length < 2 ^ 31) :
    Sim F (ixhtHeapCreate maxPower ops fuel minSize) (ixhtCreate maxPower ops fuel minSize)
      (IxhtAt F) := by
  unfold ixhtHeapCreate ixhtCreate
  refine Sim.both fun size hsize => ?_
  rw [Option.map_eq_bind]
  refine Sim.both fun p hp => ?_
  have hbn : p.bn < 2 ^ 31 := by
    have := hfew (ixhtOfParams ops p) (by rw [ixhtCreate, hsize, Option.bind_some, hp]; rfl)
    simpa [ixhtOfParams] using this
  refine Sim.malloc fun dir => ?_
  have hinit : Making F ops p 0
      { elsNum := 0, maxDepth := p.bp2 % 2 ^ 16, binMask := 2 ^ p.bp2 - 1, dir := dir,
        dirCapacity := p.bn % 2 ^ 32, bins := none, binsNum := 0, binsCapacity := 0 }
      ({(dir, .dir (List.replicate p.bn none))} + F) := by
    refine ⟨rfl, rfl, rfl, rfl, [], ⟨rfl, by simp, rfl, Nat.le_refl 0, fun _ => rfl⟩, ?_⟩
    simp [recordBlock, allBinBlocks, resized]
  have hloop := Sim.foldlM_silent (Making F ops p) p.bn
    (fun k hk t P h => h.next hk hbn) hinit
  refine hloop.yields fun t P h => ⟨h.elsNum, h.maxDepth, h.binMask, ?_, ?_⟩
  · have hmod : p.bn % 2 ^ 32 = p.bn := Nat.mod_eq_of_lt (by omega)
    rw [h.dirCapacity, hmod]
    simp [ixhtOfParams]
  · have hfull : resized ((List.range p.bn).map some) p.bn = (List.range p.bn).map some := by
      simp [resized]
    have hbins := h.bins
    rwa [hfull] at hbins

end Make

/-! ## Splits -/

section Split

variable {ops : BinOps El G} {key : Key El} {bins : List (Ebin El G)} {i j : Nat} {e n : Ebin El G}

def halved (bins : List (Ebin El G)) (i j : Nat) (e n : Ebin El G) (h : Halves El G) :
    List (Ebin El G) :=
  (bins.set i { e with bin := h.bin }).set j { n with bin := h.newBin }

theorem getElem?_halved_left (hij : i ≠ j) (hi : i < bins.length) (h : Halves El G) :
    (halved bins i j e n h)[i]? = some { e with bin := h.bin } := by
  rw [halved, List.getElem?_set_ne hij.symm, List.getElem?_set_self hi]

theorem getElem?_halved_right (hj : j < bins.length) (h : Halves El G) :
    (halved bins i j e n h)[j]? = some { n with bin := h.newBin } := by
  rw [halved, List.getElem?_set_self (by rwa [List.length_set])]

structure HalvesAt (F : Multiset (Nat × Block El G)) (t : IxhtPtr) (bins : List (Ebin El G))
    (i j : Nat) (e n : Ebin El G) (s : HalvesPtr) (h : Halves El G)
    (P : Multiset (Nat × Block El G)) : Prop where
  elsNum : s.elsNum = h.elsNum
  oldAdded : s.oldAdded = h.oldAdded
  newAdded : s.newAdded = h.newAdded
  bins : BinsAt F t (halved bins i j e n h) P

theorem ixhtHeapDistribute_sim (hij : i ≠ j) (hi : i < bins.length) (hj : j < bins.length)
    {s : HalvesPtr} {h : Halves El G} (hs : HalvesAt F t bins i j e n s h P)
    (fuel splitMask k : Nat) :
    Sim P (ixhtHeapDistribute ops key fuel splitMask t i j s k)
      (ixhtDistribute ops key fuel splitMask h k) (HalvesAt F t bins i j e n) := by
  obtain ⟨q, a, records, rest, hfocus, hat, hbin⟩ := hs.bins.focus (getElem?_halved_left hij hi h)
  have hmem : (a, .bins records) ∈ P := by
    rw [hbin.blocks]
    simp
  unfold ixhtHeapDistribute ixhtDistribute
  refine Sim.getBin hfocus hmem (Sim.load hbin.deleted_mem rfl (Sim.both fun del _ => ?_))
  split
  · exact Sim.pure hs
  refine Sim.load hbin.els_mem rfl (Sim.both fun x _ => ?_)
  simp only [hs.elsNum, Option.map_eq_bind]
  split
  · refine Sim.getBin hfocus hmem (Sim.bind (Sim.reinsert hbin ops fuel _ _ x) ?_)
    rintro r r' P' ⟨hnum, hbin'⟩
    have hat' : EbinPtr.At { q with bin := r.2 } { e with bin := r'.2 } :=
      ⟨hat.depth, hat.mask, hat.elsStart, hbin'.elsBound, hbin'.groupsMask⟩
    refine Sim.putBin hfocus hat' hbin' fun P'' hbins => Sim.pure ⟨hnum, rfl, hs.newAdded, ?_⟩
    rw [halved, List.set_comm _ _ hij.symm, List.set_set] at hbins
    rwa [halved]
  · obtain ⟨q, a, records, rest, hfocus, hat, hbin⟩ :=
      hs.bins.focus (getElem?_halved_right (i := i) (e := e) (n := n) hj h)
    refine Sim.getBin hfocus (by rw [hbin.blocks]; simp)
      (Sim.bind (Sim.reinsert hbin ops fuel _ _ x) ?_)
    rintro r r' P' ⟨hnum, hbin'⟩
    have hat' : EbinPtr.At { q with bin := r.2 } { n with bin := r'.2 } :=
      ⟨hat.depth, hat.mask, hat.elsStart, hbin'.elsBound, hbin'.groupsMask⟩
    refine Sim.putBin hfocus hat' hbin' fun P'' hbins => Sim.pure ⟨hnum, hs.oldAdded, rfl, ?_⟩
    rwa [halved, List.set_set] at hbins

structure SplittingAt (F : Multiset (Nat × Block El G)) (s : SplittingPtr) (v : Splitting El G)
    (P : Multiset (Nat × Block El G)) : Prop where
  table : IxhtAt F s.table v.table P
  binInd : s.binInd = v.binInd
  newInd : s.newInd = v.newInd
  ne : v.binInd ≠ v.newInd

/-- The tags of a bin are reset where they are. -/
theorem clearGroups_sim {b : Hbin El G} {p : BinPtr} (hbin : BinAt F p b P) {γ δ : Type}
    {f : Unit → HeapM (Block El G) γ} {y : G → Option δ}
    {R : γ → δ → Multiset (Nat × Block El G) → Prop}
    (h : ∀ groups P', BinAt F p { b with groups := groups } P' → Sim P' (f ()) (y groups) R) :
    Sim P (clearGroups ops p >>= f) ((ops.clear b.numGroups b.groups).bind y) R := by
  have hnum : p.groupsMask + 1 = b.numGroups := congrArg (· + 1) hbin.groupsMask
  simp only [clearGroups, bind_assoc, hnum]
  refine Sim.load hbin.groups_mem rfl (Sim.both fun groups _ => ?_)
  refine Sim.store (.groups b.groups) ({(p.els, .els b.els)} + {(p.deleted, .deleted b.deleted)} + F)
    ?_ (h groups _ ⟨hbin.elsBound, hbin.groupsMask, ?_⟩)
  · rw [hbin.blocks, binBlocks]
    ac_rfl
  · rw [binBlocks]
    ac_rfl

private theorem ite_none_bind {α β : Type} {c : Prop} [Decidable c] (x : Option α)
    (f : α → Option β) :
    (if c then none else x).bind f = if c then none else x.bind f := by
  split
  · rfl
  · rfl

def opened (e : Ebin El G) (groups : G) : Ebin El G :=
  { e with depth := e.depth + 1, elsStart := 0, bin := e.bin.emptied groups }

theorem ixhtHeapOpenPass_sim (hij : i ≠ j) (he : u.bins[i]? = some e) (hn : u.bins[j]? = some n)
    {q : EbinPtr} (hat : q.At e) {groups : G}
    (ht : IxhtAt F t
      { u with bins := u.bins.set i { e with bin := { e.bin with groups := groups } } } P) :
    Sim P (ixhtHeapOpenPass t i j q)
      ((if 64 ≤ e.depth then none else u.deepen (e.depth + 1)).bind
        fun u => u.redirect (e.mask ||| 2 ^ e.depth) j)
      fun t' u' P' => u'.bins = u.bins ∧ IxhtAt F t' { u' with
        bins := (u.bins.set i (opened e groups)).set j
          { n with depth := e.depth + 1, mask := e.mask ||| 2 ^ e.depth } } P' := by
  have hi := (List.getElem?_eq_some_iff.mp he).1
  have hj := (List.getElem?_eq_some_iff.mp hn).1
  unfold ixhtHeapOpenPass
  rw [hat.depth, hat.mask, ite_none_bind]
  split
  · exact Sim.stuck
  refine Sim.modifyBin ht.bins (List.getElem?_set_self hi)
    { e with depth := e.depth + 1, bin := { e.bin with groups := groups } } ?_ fun P₂ hbins₂ => ?_
  · intro q hq
    exact ⟨⟨rfl, hq.mask, hq.elsStart, hq.elsBound, hq.groupsMask⟩, rfl⟩
  rw [List.set_set] at hbins₂
  refine Sim.modifyBin hbins₂ (by rw [List.getElem?_set_ne hij, hn]) { n with depth := e.depth + 1 } ?_
    fun P₃ hbins₃ => ?_
  · intro q hq
    exact ⟨⟨rfl, hq.mask, hq.elsStart, hq.elsBound, hq.groupsMask⟩, rfl⟩
  refine Sim.bind (ixhtHeapDeepen_sim (u := u) (ht.withBins hbins₃) (e.depth + 1)) ?_
  rintro t₄ u₄ P₄ ⟨ht₄, hsame⟩
  refine Sim.modifyBin ht₄.bins (List.getElem?_set_self (by rwa [List.length_set]))
    { n with depth := e.depth + 1, mask := e.mask ||| 2 ^ e.depth } ?_ fun P₅ hbins₅ => ?_
  · intro q hq
    exact ⟨⟨hq.depth, rfl, hq.elsStart, hq.elsBound, hq.groupsMask⟩, rfl⟩
  rw [List.set_set] at hbins₅
  rw [← Option.bind_fun_some (u₄.redirect _ _)]
  refine Sim.putDir_bind (u := u₄) (ht₄.withBins hbins₅) fun P₆ ht₆ => ?_
  refine Sim.modifyBin ht₆.bins
    (by rw [List.getElem?_set_ne hij.symm, List.getElem?_set_self hi]) (opened e groups) ?_
    fun P₇ hbins₇ => Sim.pure ⟨hsame, ?_⟩
  · intro q hq
    exact ⟨⟨hq.depth, hq.mask, rfl, rfl, hq.groupsMask⟩, rfl⟩
  rw [List.set_comm _ _ hij.symm, List.set_set] at hbins₇
  exact ht₆.withBins hbins₇

theorem ixhtHeapSplitPass_sim (ops : BinOps El G) (key : Key El) {s : SplittingPtr}
    {v : Splitting El G} (hs : SplittingAt F s v P) (fuel : Nat) :
    Sim P (ixhtHeapSplitPass ops key fuel s) (ixhtSplitPass ops key fuel v)
      fun u u' P' => Step.Rel (fun s v => SplittingAt F s v P') (fun s v => SplittingAt F s v P') u u' := by
  have hij := hs.ne
  unfold ixhtHeapSplitPass ixhtSplitPass
  rw [hs.newInd, hs.binInd]
  refine Sim.getBin_bind hs.table.bins fun n _ _ _ _ hn _ _ _ => ?_
  refine Sim.getBin_bind hs.table.bins fun e q a records rest he hfocus hat hbin => ?_
  have hi := (List.getElem?_eq_some_iff.mp he).1
  have hj := (List.getElem?_eq_some_iff.mp hn).1
  refine clearGroups_sim hbin fun groups P₁ hbin₁ => ?_
  have hbins₁ := hfocus.same (e := { e with bin := { e.bin with groups := groups } })
    ⟨hat.depth, hat.mask, hat.elsStart, hat.elsBound, hat.groupsMask⟩ hbin₁
  rw [hat.depth, hat.elsStart, hat.elsBound]
  simp only [← Option.bind_assoc, ← ite_none_bind]
  refine Sim.bind (ixhtHeapOpenPass_sim hij he hn hat (hs.table.withBins hbins₁)) ?_
  rintro t' u' P' ⟨hsame, ht'⟩
  rw [Option.map_eq_bind]
  refine Sim.bind (Sim.foldlM (I := HalvesAt _ t' v.table.bins v.binInd v.newInd (opened e groups)
    { n with depth := e.depth + 1, mask := e.mask ||| 2 ^ e.depth })
    (fun k _ s h P hs => ixhtHeapDistribute_sim hij hi hj hs fuel _ k)
    ⟨ht'.elsNum, rfl, rfl, ht'.bins⟩) fun h h' P'' hh => ?_
  have hclose : IxhtAt F t' (v.close u' e n h').table P'' := by
    have hbins := ht'.withBins hh.bins
    rwa [← hsame] at hbins
  have hstay : SplittingAt F ⟨t', v.binInd, v.newInd⟩ (v.close u' e n h') P'' :=
    ⟨hclose, rfl, rfl, hij⟩
  have hswap : SplittingAt F ⟨t', v.newInd, v.binInd⟩
      { v.close u' e n h' with binInd := v.newInd, newInd := v.binInd } P'' :=
    ⟨hclose, rfl, rfl, hij.symm⟩
  simp only [Function.comp_apply, hh.oldAdded, hh.newAdded]
  split
  · exact Sim.pure (Step.Rel.again (R := fun s v => SplittingAt F s v P'') hswap)
  · split
    · exact Sim.pure (Step.Rel.leave (Q := fun s v => SplittingAt F s v P'') hstay)
    · exact Sim.pure (Step.Rel.again (R := fun s v => SplittingAt F s v P'') hstay)

/-- `memset (b->deleted, 0, …)` -/
theorem resetDeleted_sim {γ δ : Type} {R : γ → δ → Multiset (Nat × Block El G) → Prop}
    (hbins : BinsAt F t bins P) {f : Unit → HeapM (Block El G) γ} {g : Ebin El G → Option δ}
    (h : ∀ e P', BinsAt F t (bins.set i e) P' → Sim P' (f ()) (g e) R) :
    Sim P (resetDeleted t i >>= f) (bins[i]?.bind fun e => e.resetDeleted.bind g) R := by
  simp only [resetDeleted, bind_assoc]
  refine Sim.getBin_bind hbins fun e q a records rest he hfocus hat hbin => ?_
  have hsize : (q.bin.counters : Hbin El Unit).halfIndexes = e.bin.halfIndexes := by
    simp only [Hbin.halfIndexes, Hbin.indexesSize, BinPtr.counters, hat.groupsMask]
  refine Sim.load hbin.deleted_mem rfl ?_
  simp only [hsize, Ebin.resetDeleted]
  split
  · refine Sim.store (.deleted e.bin.deleted)
      ({(q.bin.els, .els e.bin.els)} + {(q.bin.groups, .groups e.bin.groups)} +
        ({(a, .bins records)} + rest)) ?_ ?_
    · rw [hbin.blocks, binBlocks]
      ac_rfl
    · refine h _ _ (hfocus.same ⟨hat.depth, hat.mask, hat.elsStart, hat.elsBound, hat.groupsMask⟩
        ⟨hbin.elsBound, hbin.groupsMask, ?_⟩)
      rw [binBlocks]
      ac_rfl
  · exact Sim.stuck

theorem ixhtHeapSplitBin_sim (ht : IxhtAt F t u P) (hfew : u.bins.length < 2 ^ 31) (fuel binInd : Nat) :
    Sim P (ixhtHeapSplitBin ops key fuel t binInd) (ixhtSplitBin ops key fuel u binInd) (IxhtAt F) := by
  unfold ixhtHeapSplitBin ixhtSplitBin
  refine Sim.getBin_bind ht.bins fun e q a records rest he hfocus hat hbin => ?_
  have hlt := (List.getElem?_eq_some_iff.mp he).1
  have hsize : (q.bin.counters : Hbin El Unit).halfIndexes = e.bin.halfIndexes := by
    simp only [Hbin.halfIndexes, Hbin.indexesSize, BinPtr.counters, hat.groupsMask]
  rw [hsize]
  refine ixhtHeapCreateBin_sim ht.bins hfew ops _ fun a' capacity P' hbins => ?_
  have hsplit := Sim.forever (I := SplittingAt F) (L := SplittingAt F)
    (fun s v P hs => ixhtHeapSplitPass_sim ops key hs fuel) fuel
    (s := ⟨{ t with bins := some a', binsNum := u.bins.length + 1, binsCapacity := capacity }, binInd,
      u.bins.length⟩)
    (t := ⟨{ u with bins := u.bins ++ [ixhtCreateBin ops e.bin.halfIndexes] }, binInd, u.bins.length⟩)
    ⟨⟨ht.elsNum, ht.maxDepth, ht.binMask, ht.dirCapacity, hbins⟩, rfl, rfl, Nat.ne_of_lt hlt⟩
  refine Sim.bind hsplit fun s v P'' hs => ?_
  unfold Splitting.finish
  rw [hs.binInd, hs.newInd]
  refine resetDeleted_sim hs.table.bins fun ob P₁ hbins₁ => ?_
  rw [← List.getElem?_set_ne hs.ne (a := ob)]
  simp only [Option.map_eq_bind]
  refine resetDeleted_sim hbins₁ fun nb P₂ hbins₂ => Sim.pure ?_
  exact hs.table.withBins hbins₂

end Split

/-! ## Calls -/

section Calls

variable {ops : BinOps El G} {key : Key El} {maxPower : Nat}

/-- One pass of the in-place rebuild reads the old bitmap, which is not a block of the bin
    any more. -/
theorem ixhtHeapReinsert_sim {old : Nat} {map : Bitmap} {s : Nat × BinPtr} {v : Nat × Hbin El G}
    (hnum : s.1 = v.1) (hbin : BinAt ({(old, .deleted map)} + F) s.2 v.2 P) (fuel i : Nat) :
    Sim P (ixhtHeapReinsert ops key fuel old s i) (ixhtReinsert ops key fuel map v i)
      fun s v P' => s.1 = v.1 ∧ BinAt ({(old, .deleted map)} + F) s.2 v.2 P' := by
  unfold ixhtHeapReinsert ixhtReinsert
  refine Sim.load (v := .deleted map) (by rw [hbin.blocks]; simp) rfl (Sim.both fun del _ => ?_)
  split
  · exact Sim.pure ⟨hnum, hbin⟩
  · refine Sim.load hbin.els_mem rfl (Sim.both fun x _ => ?_)
    rw [hnum]
    exact Sim.reinsert hbin ops fuel v.1 _ x

theorem ixhtHeapRebuildBin_sim {bins : List (Ebin El G)} {i a : Nat} {e : Ebin El G} {q : EbinPtr}
    {records : List (Option EbinPtr)} {rest : Multiset (Nat × Block El G)}
    (hfocus : Focus F t bins i q a records rest) (hat : q.At e)
    (hbin : BinAt ({(a, .bins records)} + rest) q.bin e.bin P) (fuel indexesSize elsSize : Nat)
    {γ δ : Type} {f : Unit → HeapM (Block El G) γ} {g : Ebin El G → Option δ}
    {R : γ → δ → Multiset (Nat × Block El G) → Prop}
    (h : ∀ e' P', BinsAt F t (bins.set i e') P' → Sim P' (f ()) (g e') R) :
    Sim P (ixhtHeapRebuildBin ops key fuel t i q indexesSize elsSize >>= f)
      ((ixhtRebuildBin ops key fuel e indexesSize elsSize).bind g) R := by
  unfold ixhtHeapRebuildBin ixhtRebuildBin
  simp only [bind_assoc]
  have hblocks := hbin.blocks
  rw [binBlocks] at hblocks
  generalize hF' : {(a, Block.bins records)} + rest = F' at hblocks hbin
  -- the three allocations; `els` and `groups` move, `deleted` gets a successor
  refine Sim.malloc fun deleted => ?_
  refine Sim.load (v := .els e.bin.els) (by rw [hblocks]; simp) rfl ?_
  refine Sim.free (.els e.bin.els) ({(deleted, .deleted (Bitmap.zeros ((elsSize + 7) / 8)))} +
    {(q.bin.deleted, .deleted e.bin.deleted)} + {(q.bin.groups, .groups e.bin.groups)} + F')
    (by rw [hblocks]; ac_rfl) (Sim.malloc fun els => ?_)
  refine Sim.load (v := .groups e.bin.groups) (by simp) rfl ?_
  refine Sim.free (.groups e.bin.groups) ({(els, .els (resized e.bin.els elsSize))} +
    {(deleted, .deleted (Bitmap.zeros ((elsSize + 7) / 8)))} +
    {(q.bin.deleted, .deleted e.bin.deleted)} + F') (by ac_rfl) (Sim.malloc fun groups => ?_)
  have hinit : BinAt ({(q.bin.deleted, .deleted e.bin.deleted)} + F')
      { elsBound := 0, els := els, deleted := deleted, groups := groups,
        groupsMask := indexesSize / GROUP_SIZE - 1 } (ixhtRealloc ops e.bin indexesSize elsSize)
      ({(groups, .groups (ops.regrow (indexesSize / GROUP_SIZE) e.bin.groups))} +
        ({(els, .els (resized e.bin.els elsSize))} +
          {(deleted, .deleted (Bitmap.zeros ((elsSize + 7) / 8)))} +
          {(q.bin.deleted, .deleted e.bin.deleted)} + F')) := by
    refine ⟨rfl, rfl, ?_⟩
    simp only [binBlocks, ixhtRealloc, resized]
    ac_rfl
  rw [hat.elsStart, hat.elsBound, Option.map_eq_bind, Option.bind_assoc]
  refine Sim.bind (Sim.foldlM (fun k _ s v P' hs => ixhtHeapReinsert_sim hs.1 hs.2 fuel k)
    ⟨rfl, hinit⟩) ?_
  rintro s v P' ⟨-, hs⟩
  refine Sim.free (.deleted e.bin.deleted) (binBlocks s.2 v.2 + F') ?_ ?_
  · rw [hs.blocks]
    ac_rfl
  have hat' : EbinPtr.At { q with elsStart := 0, bin := s.2 } { e with elsStart := 0, bin := v.2 } :=
    ⟨hat.depth, hat.mask, rfl, hs.elsBound, hs.groupsMask⟩
  refine Sim.putBin hfocus hat' ⟨hs.elsBound, hs.groupsMask, ?_⟩ fun P'' hbins => h _ P'' hbins
  rw [hF']

theorem ixhtHeapPrepare_sim (ht : IxhtAt F t u P) (hfew : u.bins.length < 2 ^ 31) (fuel : Nat)
    (hash : BitVec 64) (action : Action) :
    Sim P (ixhtHeapPrepare maxPower ops key fuel t hash action)
      (ixhtPrepare maxPower ops key fuel u hash action)
      fun p p' P' => IxhtAt F p.1 p'.1 P' ∧ p.2 = p'.2 := by
  unfold ixhtHeapPrepare ixhtPrepare Ixht.binOf
  rw [ht.binMask]
  refine Sim.getDir_bind ht fun i => ?_
  refine Sim.getBin_bind ht.bins fun e q a records rest he hfocus hat hbin => ?_
  have hindexes : (q.counters : Ebin El Unit).bin.indexesSize ixhtWidths =
      e.bin.indexesSize ixhtWidths := by
    simp only [Hbin.indexesSize, EbinPtr.counters, BinPtr.counters, hat.groupsMask]
  have hhalf : (q.counters : Ebin El Unit).bin.halfIndexes = e.bin.halfIndexes := by
    rw [Hbin.halfIndexes, Hbin.halfIndexes, hindexes]
  have hfull : ixhtFull (q.counters : Ebin El Unit) = ixhtFull e := by
    rw [ixhtFull, ixhtFull, hhalf]
    simp only [EbinPtr.counters, BinPtr.counters, hat.elsBound]
  have hgrow : ixhtGrow t.counters (q.counters : Ebin El Unit) = ixhtGrow u e := by
    rw [ixhtGrow, ixhtGrow, hindexes]
    simp only [IxhtPtr.counters, ht.elsNum]
  have hsplits : ixhtSplits maxPower t.counters (q.counters : Ebin El Unit) =
      ixhtSplits maxPower u e := by
    rw [ixhtSplits, ixhtSplits, hgrow, hhalf]
  have hfactor : ixhtFactor t.counters (q.counters : Ebin El Unit) = ixhtFactor u e := by
    rw [ixhtFactor, ixhtFactor, hgrow]
  simp only [hfull, hfactor, hsplits, hindexes, hhalf]
  split
  · split
    · refine Sim.bind (ixhtHeapSplitBin_sim ht hfew fuel i) fun t' u' P' ht' => ?_
      rw [ht'.binMask, Option.map_eq_bind]
      exact Sim.getDir_bind ht' fun i' => Sim.pure ⟨ht', rfl⟩
    · rw [Option.map_eq_bind]
      refine ixhtHeapRebuildBin_sim hfocus hat hbin fuel _ _ fun e' P' hbins => Sim.pure ?_
      exact ⟨ht.withBins hbins, rfl⟩
  · exact Sim.pure ⟨ht, rfl⟩

def binReply (r : Nat × Reply (Nat × Nat) El) : Reply (Nat × Nat) El :=
  ⟨r.2.found, r.2.res.map fun p => (r.1, p.2), r.2.value⟩

theorem ixhtStep_eq (fuel : Nat) (u : Ixht El G) (c : Call El) :
    ixhtStep maxPower ops key fuel u c =
      (ixhtPrepare maxPower ops key fuel u (key.nonzero.hash c.el) c.action).bind fun p =>
        p.1.bins[p.2]?.bind fun e =>
          (ops.do1 fuel p.1.elsNum e.bin (key.nonzero.hash c.el) c.el c.action).bind fun r =>
            (r.written c).map fun bin =>
              (⟨r.found, r.res.map fun i => (p.2, i), r.value⟩,
                (p.1.setBin p.2 r.elsNum r.bin).setBin p.2 r.elsNum bin) := by
  simp only [ixhtStep, ixhtPerform, Option.bind_assoc, Option.bind_map]
  rfl

theorem ixhtHeapStep_sim (ht : IxhtAt F t u P) (hfew : u.bins.length < 2 ^ 31) (fuel : Nat)
    (c : Call El) :
    Sim P (ixhtHeapStep maxPower ops key fuel t c) (ixhtStep maxPower ops key fuel u c)
      fun s v P' => binReply s.1 = v.1 ∧ IxhtAt F s.2 v.2 P' := by
  rw [ixhtHeapStep, ixhtStep_eq]
  refine Sim.bind (ixhtHeapPrepare_sim ht hfew fuel _ c.action) ?_
  rintro ⟨t', i⟩ ⟨u', i'⟩ P' ⟨ht', rfl⟩
  refine Sim.getBin_bind ht'.bins fun e q a records rest he hfocus hat hbin => ?_
  have hcount : t'.elsNum = u'.elsNum := ht'.elsNum
  rw [hcount]
  refine Sim.bind (Sim.do1 hbin ops fuel u'.elsNum _ c.el c.action) ?_
  rintro r o P₁ ⟨hfound, hres, hnum, hbin₁⟩
  refine Sim.putRecord hfocus hbin₁ fun P₂ hbin₂ => ?_
  refine Sim.map (callerUse_sim hfound hres hbin₂ c) ?_
  rintro reply b P₃ ⟨rfl, hbin₃⟩
  refine ⟨?_, ?_⟩
  · simp [binReply, Function.comp_def]
  · have hat₃ : EbinPtr.At { q with bin := r.bin } { e with bin := b } :=
      ⟨hat.depth, hat.mask, hat.elsStart, hbin₃.elsBound, hbin₃.groupsMask⟩
    have hbins := (hfocus.renew _ { e with bin := o.bin }).same hat₃ hbin₃
    rw [List.set_set] at hbins
    rw [Ixht.setBin_setBin he]
    exact ⟨hnum, ht'.maxDepth, ht'.binMask, ht'.dirCapacity, hbins⟩

/-! ## The number of bins -/

/-- A split adds one bin. -/
theorem ixhtSplitBin_length {u' : Ixht El G} {fuel b : Nat}
    (h : ixhtSplitBin ops key fuel u b = some u') : u'.bins.length = u.bins.length + 1 := by
  obtain ⟨e, -, h⟩ := Option.bind_eq_some_iff.mp h
  obtain ⟨v, hloop, hfinish⟩ := Option.bind_eq_some_iff.mp h
  have hv : v.table.bins.length = u.bins.length + 1 := by
    refine splitLoop_invariant (fun s => s.table.bins.length = u.bins.length + 1) ?_ ?_ hloop
    · intro s s' bin newBin t h hs htaken
      exact htaken.length_bins.trans hs
    · rw [List.length_append, List.length_singleton]
  obtain ⟨ob, -, hfinish⟩ := Option.bind_eq_some_iff.mp hfinish
  obtain ⟨ob', -, hfinish⟩ := Option.bind_eq_some_iff.mp hfinish
  obtain ⟨nb, -, hfinish⟩ := Option.bind_eq_some_iff.mp hfinish
  obtain ⟨nb', -, hfinish⟩ := Option.map_eq_some_iff.mp hfinish
  rw [← hfinish]
  simp only [List.length_set, hv]

theorem ixhtStep_length {u' : Ixht El G} {fuel : Nat} {c : Call El} {r : Reply (Nat × Nat) El}
    (h : ixhtStep maxPower ops key fuel u c = some (r, u')) :
    u'.bins.length ≤ u.bins.length + 1 := by
  obtain ⟨p, i, e, o, bin, hprepare, -, -, -, rfl, -⟩ := ixhtStep_cases h
  obtain ⟨b, e₀, -, -, hcase⟩ := ixhtPrepare_cases hprepare
  rw [List.length_set]
  cases hcase with
  | asIs _ => exact Nat.le_succ _
  | split _ _ _ hsplit _ => rw [ixhtSplitBin_length hsplit]
  | rebuild _ _ _ _ =>
    rw [List.length_set]
    exact Nat.le_succ _

/-! ## Sessions -/

theorem ixhtHeapReplies_sim (ht : IxhtAt F t u P) (fuel : Nat) (calls : List (Call El))
    (hfew : u.bins.length + calls.length < 2 ^ 31) :
    Sim P (replies (ixhtHeapStep maxPower ops key fuel) t calls) (ixhtRun maxPower ops key fuel u calls)
      fun s v P' => s.1.map binReply = v.1 ∧ IxhtAt F s.2 v.2 P' := by
  induction calls generalizing t u P with
  | nil => exact Sim.pure ⟨rfl, ht⟩
  | cons c cs ih =>
    rw [List.length_cons] at hfew
    refine Sim.bind (ixhtHeapStep_sim ht (by omega) fuel c).remember ?_
    rintro s ⟨r, u'⟩ P' ⟨⟨hreply, ht'⟩, hstep⟩
    have hlength := ixhtStep_length hstep
    have hfew' : u'.bins.length + cs.length < 2 ^ 31 := by omega
    refine Sim.map (ih ht' hfew') fun w v P'' hw => ⟨?_, hw.2⟩
    rw [List.map_cons, hreply, hw.1]

theorem ixhtHeapDestroy_sim (ht : IxhtAt F t u P) {γ δ : Type} {f : Unit → HeapM (Block El G) γ}
    {y : Option δ} {R : γ → δ → Multiset (Nat × Block El G) → Prop} (h : Sim F (f ()) y R) :
    Sim P (ixhtHeapDestroy t >>= f) y R := by
  obtain ⟨pairs, hrecords, hblocks⟩ := ht.bins
  simp only [ixhtHeapDestroy, bind_assoc, hrecords.num]
  have hloop : Sim P ((List.range pairs.length).foldlM (ixhtHeapDestroyBin t) ()) (some ())
      fun _ _ P' => P' = recordBlock t.bins t.binsCapacity (pairs.map Prod.fst) +
        allBinBlocks (pairs.drop pairs.length) + ({(t.dir, .dir (u.dir.map some))} + F) := by
    refine Sim.foldlM_silent (fun k _ P' => P' = recordBlock t.bins t.binsCapacity
      (pairs.map Prod.fst) + allBinBlocks (pairs.drop k) + ({(t.dir, .dir (u.dir.map some))} + F))
      pairs.length ?_ hblocks
    intro k hk _ P' hP'
    have hdrop : pairs.drop k = pairs[k] :: pairs.drop (k + 1) := List.drop_eq_getElem_cons hk
    have hat := hrecords.records _ (List.getElem_mem hk)
    have hlen : ((pairs.map Prod.fst).map some).length ≤ t.binsCapacity := by
      simpa using hrecords.room
    rw [hdrop, allBinBlocks, List.map_cons, List.sum_cons] at hP'
    have hbin : BinAt (recordBlock t.bins t.binsCapacity (pairs.map Prod.fst) +
        allBinBlocks (pairs.drop (k + 1)) + ({(t.dir, .dir (u.dir.map some))} + F))
        pairs[k].1.bin pairs[k].2.bin P' := by
      refine ⟨hat.elsBound, hat.groupsMask, ?_⟩
      rw [hP', allBinBlocks]
      ac_rfl
    simp only [ixhtHeapDestroyBin, getBin, bind_assoc]
    cases haddr : t.bins with
    | none =>
      have := hrecords.null haddr
      have := hrecords.room
      omega
    | some a =>
      rw [haddr] at hbin hP'
      rw [HeapM.lift_some_bind]
      refine Sim.load (v := .bins (resized ((pairs.map Prod.fst).map some) t.binsCapacity)) ?_ rfl ?_
      · rw [hP']
        simp [recordBlock]
      have hget : (resized ((pairs.map Prod.fst).map some) t.binsCapacity)[k]?.join =
          some pairs[k].1 := by
        rw [join_getElem?_resized hlen]
        simp [hk]
      rw [hget, HeapM.lift_some_bind, ← bind_pure (heapDestroyBin _)]
      exact Sim.destroyBin hbin (Sim.pure rfl)
  refine Sim.silent hloop fun _ P' hP' => ?_
  rw [List.drop_length] at hP'
  have hrest : ∀ P'', P'' = {(t.dir, .dir (u.dir.map some))} + F →
      Sim P'' (free t.dir >>= f) y R := fun P'' hP'' => Sim.free (.dir (u.dir.map some)) F hP'' h
  unfold freeBins
  cases haddr : t.bins with
  | none =>
    refine hrest P' ?_
    rw [hP', haddr]
    simp [recordBlock, allBinBlocks]
  | some a =>
    refine Sim.free (.bins (resized ((pairs.map Prod.fst).map some) t.binsCapacity))
      ({(t.dir, .dir (u.dir.map some))} + F) ?_ (hrest _ rfl)
    rw [hP', haddr]
    simp [recordBlock, allBinBlocks]

/-- `ixht_get_params` stops doubling the number of bins while they still have eight places. -/
theorem ixhtCreate_length (hpower : PowerOk maxPower) {fuel minSize : Nat}
    (h : ixhtCreate maxPower ops fuel minSize = some u) : u.bins.length ≤ 2 ^ 29 := by
  have hge := hpower.ge
  obtain ⟨s, j, hs, hj, -, -, -, rfl⟩ := ixhtCreate_params hpower h
  simp only [ixhtOfParams, List.length_map, List.length_range]
  exact Nat.pow_le_pow_right (by decide) (by omega)

theorem ixhtHeapSession_sim (ops : BinOps El G) (key : Key El) (hpower : PowerOk maxPower)
    (fuel minSize : Nat) {calls : List (Call El)} (hcalls : calls.length < 2 ^ 30)
    (F : Multiset (Nat × Block El G)) :
    Sim F (ixhtHeapSession maxPower ops key fuel minSize calls)
      (ixhtSession maxPower ops key fuel minSize calls)
      fun rs s P => rs.map binReply = s.1 ∧ P = F := by
  have hcreate := ixhtHeapCreate_sim maxPower ops fuel minSize F fun u hu => by
    have := ixhtCreate_length hpower hu
    omega
  have hrun : Sim F (ixhtHeapRun maxPower ops key fuel minSize calls)
      (ixhtSession maxPower ops key fuel minSize calls)
      fun s v P => s.1.map binReply = v.1 ∧ IxhtAt F s.2 v.2 P := by
    refine Sim.bind hcreate.remember ?_
    rintro t u P ⟨ht, hu⟩
    have hlength := ixhtCreate_length hpower hu
    exact ixhtHeapReplies_sim ht fuel calls (by omega)
  refine Sim.andThen hrun ?_
  rintro s v P ⟨hreplies, ht⟩
  exact ixhtHeapDestroy_sim ht (Sim.pure ⟨hreplies, rfl⟩)

/-- A session of `ixhtab.h` from creation to destruction, on a heap with any blocks in it.
    Whatever the index, `Hash` and `Eq` do, it returns where the session on values returns,
    with the same replies, and leaves exactly the blocks that were there before, unchanged. -/
theorem ixht_heap_session (ops : BinOps El G) (key : Key El) (hpower : PowerOk maxPower)
    (fuel minSize : Nat) (calls : List (Call El)) (hcalls : calls.length < 2 ^ 30)
    (h : Heap (Block El G)) :
    Option.Rel (fun r s => r.1.map binReply = s.1 ∧ r.2.blocks = h.blocks)
      (ixhtHeapSession maxPower ops key fuel minSize calls h)
      (ixhtSession maxPower ops key fuel minSize calls) :=
  ixhtHeapSession_sim ops key hpower fuel minSize hcalls h.blocks h rfl

/-- A session that rebuilds a bin in place and splits it, on a heap with a block in it. -/
theorem ixht_heap_session_sample :
    ∃ rs h vs t,
      ixhtHeapSession 4 (ixhtOps identityKey .sse2) identityKey 40 4 sampleCalls
        [some (.dir [none])] = some (rs, h) ∧
      ixhtSession 4 (ixhtOps identityKey .sse2) identityKey 40 4 sampleCalls = some (vs, t) ∧
      t.bins.length = 2 ∧ rs.map binReply = vs ∧ h.blocks = {(0, .dir [none])} := by
  have hrel := ixht_heap_session (ixhtOps identityKey .sse2) identityKey powerOk_four 40 4 sampleCalls
    (show 15 < 2 ^ 30 by decide) [some (.dir [none])]
  have hruns : (ixhtSession 4 (ixhtOps identityKey .sse2) identityKey 40 4 sampleCalls).map
      (fun s => s.2.bins.length) = some 2 := by decide +kernel
  obtain ⟨⟨vs, t⟩, hvalues, hlength⟩ := Option.map_eq_some_iff.mp hruns
  rw [hvalues] at hrel
  obtain ⟨⟨rs, h⟩, hheap, hreplies, hblocks⟩ := Rel.of_some hrel
  exact ⟨rs, h, vs, t, hheap, hvalues, hlength, hreplies, hblocks⟩

end Calls

end IndexedHash
