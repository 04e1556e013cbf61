import Mathlib.Data.List.Forall2
import Mathlib.Tactic.Common
import IndexedHash.IxhtInvariant

/-!
# `ixhtab.h` follows the ideal table

Lock-step simulation of the table over a real index by the table over the ideal one:
creation, every pass of a split, the in-place rebuild, and a whole call.  Where one
returns, so does the other, in the same state up to the index.
-/

namespace IndexedHash

open Loop KeyedList

variable {El G : Type} {key : Key El}

/-! ## Lists side by side -/

section Lists

variable {α β : Type} {R : α → β → Prop} {l : List α} {l' : List β}

theorem Forall₂.getElem?_rel (h : List.Forall₂ R l l') (i : Nat) : Option.Rel R l[i]? l'[i]? := by
  induction h generalizing i with
  | nil => exact Option.Rel.none
  | cons hxy _ ih =>
    cases i with
    | zero => exact Option.Rel.some hxy
    | succ i => exact ih i

theorem Forall₂.exists_of_right (h : List.Forall₂ R l l') {i : Nat} {y : β}
    (hy : l'[i]? = some y) : ∃ x, l[i]? = some x ∧ R x y := by
  have hrel := Forall₂.getElem?_rel h i
  rw [hy] at hrel
  generalize hx : l[i]? = o at hrel
  cases hrel with
  | some hxy => exact ⟨_, rfl, hxy⟩

theorem Forall₂.exists_of_left (h : List.Forall₂ R l l') {i : Nat} {x : α}
    (hx : l[i]? = some x) : ∃ y, l'[i]? = some y ∧ R x y := by
  obtain ⟨y, hy, hxy⟩ := Forall₂.exists_of_right h.flip hx
  exact ⟨y, hy, hxy⟩

theorem Forall₂.set (h : List.Forall₂ R l l') {x : α} {y : β} (hxy : R x y) (i : Nat) :
    List.Forall₂ R (l.set i x) (l'.set i y) := by
  induction h generalizing i with
  | nil => exact List.Forall₂.nil
  | cons hab htail ih =>
    cases i with
    | zero => exact List.Forall₂.cons hxy htail
    | succ i => exact List.Forall₂.cons hab (ih i)

end Lists

/-! ## Tables side by side -/

structure EbinSim (Slots : G → Nat → Nat → List Entry → Prop) (b : Ebin El G)
    (a : Ebin El (List Entry)) : Prop where
  depth : b.depth = a.depth
  mask : b.mask = a.mask
  elsStart : b.elsStart = a.elsStart
  bin : BinSim Slots b.bin a.bin

structure IxSim (Slots : G → Nat → Nat → List Entry → Prop) (t : Ixht El G) (a : IdealIxht El) :
    Prop where
  elsNum : t.elsNum = a.elsNum
  maxDepth : t.maxDepth = a.maxDepth
  binMask : t.binMask = a.binMask
  dir : t.dir = a.dir
  bins : List.Forall₂ (EbinSim Slots) t.bins a.bins

section Simulation

variable {limit maxPower : Nat} {ops : BinOps El G} {Slots : G → Nat → Nat → List Entry → Prop}
  {t : Ixht El G} {a : IdealIxht El}

theorem BinSim.halfIndexes {b : Hbin El G} {a : IdealBin El} (h : BinSim Slots b a) :
    b.halfIndexes = a.halfIndexes := by
  rw [Hbin.halfIndexes, Hbin.halfIndexes, Hbin.indexesSize, Hbin.indexesSize, h.groupsMask]

theorem IxSim.binOf (h : IxSim Slots t a) (hash : BitVec 64) : t.binOf hash = a.binOf hash := by
  rw [Ixht.binOf, Ixht.binOf, h.dir, h.binMask]

theorem IxSim.deepen (h : IxSim Slots t a) (depth : Nat) :
    Option.Rel (IxSim Slots) (t.deepen depth) (a.deepen depth) := by
  unfold Ixht.deepen
  rw [h.maxDepth, h.dir]
  split
  · split
    · exact Option.Rel.some ⟨h.elsNum, rfl, rfl, rfl, h.bins⟩
    · exact Option.Rel.none
  · exact Option.Rel.some h

theorem IxSim.redirect (h : IxSim Slots t a) (mask ind : Nat) :
    Option.Rel (IxSim Slots) (t.redirect mask ind) (a.redirect mask ind) := by
  unfold Ixht.redirect
  rw [h.dir]
  split
  · exact Option.Rel.some ⟨h.elsNum, h.maxDepth, h.binMask, rfl, h.bins⟩
  · exact Option.Rel.none

/-- Reinsertion into a bin that is being refilled. -/
theorem reinsert_sim (hlaw : ops.Lawful ixhtWidths key.nonzero limit Slots) (hkey : key.Lawful)
    {n : Nat} {b : Hbin El G} {b' : IdealBin El} {xs : List El}
    (hsim : BinSim Slots b (b'.refill key.nonzero.hash xs)) (hsized : Sized n b')
    (hpow : ∃ j ≤ 28, n = 2 ^ j) (hxs : Apart key.eq xs) (hlen : xs.length < 4 * n)
    (hlimit : 4 * n ≤ limit) (x : El) {fuel : Nat} (hfuel : n ≤ fuel) (m : Nat) :
    Option.Rel (fun p p' => p.1 = p'.1 ∧ BinSim Slots p.2 p'.2)
      (reinsert ops fuel m b (key.nonzero.hash x) x)
      (reinsert (idealIxhtOps key) fuel m (b'.refill key.nonzero.hash xs) (key.nonzero.hash x) x) := by
  obtain ⟨j, hj, hn⟩ := hpow
  have hj32 : j ≤ ixhtWidths.size := by
    show j ≤ 32
    omega
  have hbits : xs.length ≤ 8 * b'.deleted.length := by
    rw [hsized.bytes]
    omega
  have hok : IndexOk ixhtWidths key.nonzero (b'.refill key.nonzero.hash xs) :=
    IndexOk.refill rfl ⟨j, hj32, hsized.groups.trans hn⟩ hxs hkey.nonzero hbits
  have hbound : b.elsBound = xs.length := hsim.elsBound.symm
  have hgroups : b.numGroups = n := hsim.numGroups.symm.trans hsized.groups
  have hmask : b.numGroups = b.groupsMask + 1 := rfl
  exact hlaw.reinsert hsim hok (by omega) (by omega) x (by omega) m

/-! ## Splitting -/

structure HalvesSim (Slots : G → Nat → Nat → List Entry → Prop) (h : Halves El G)
    (h' : Halves El (List Entry)) : Prop where
  elsNum : h.elsNum = h'.elsNum
  bin : BinSim Slots h.bin h'.bin
  newBin : BinSim Slots h.newBin h'.newBin
  oldAdded : h.oldAdded = h'.oldAdded
  newAdded : h.newAdded = h'.newAdded

theorem distribute_sim (hlaw : ops.Lawful ixhtWidths key.nonzero limit Slots) (hkey : key.Lawful)
    {n d m : Nat} {bin newBin : IdealBin El} {xs : List El} {h : Halves El G}
    (hsim : HalvesSim Slots h (Halves.after key d bin newBin m xs)) (hbin : Sized n bin)
    (hnew : Sized n newBin) (hpow : ∃ j ≤ 28, n = 2 ^ j) (hxs : Apart key.eq xs)
    (hlen : xs.length < 4 * n) (hlimit : 4 * n ≤ limit) {fuel : Nat} (hfuel : n ≤ fuel) (i : Nat) :
    Option.Rel (HalvesSim Slots) (ixhtDistribute ops key fuel (2 ^ d) h i)
      (ixhtDistribute (idealIxhtOps key) key fuel (2 ^ d)
        (Halves.after key d bin newBin m xs) i) := by
  unfold ixhtDistribute
  rw [← hsim.bin.deleted, ← hsim.bin.elAt, hsim.elsNum]
  have hstay : (staying key d xs).length < 4 * n :=
    Nat.lt_of_le_of_lt (List.length_filter_le _ _) hlen
  have hgo : (going key d xs).length < 4 * n :=
    Nat.lt_of_le_of_lt (List.length_filter_le _ _) hlen
  cases (Halves.after key d bin newBin m xs).bin.deleted.test? i with
  | none => exact Option.Rel.none
  | some del =>
    cases del with
    | true => exact Option.Rel.some hsim
    | false =>
      simp only [Option.bind_some, Bool.false_eq_true, if_false]
      cases (Halves.after key d bin newBin m xs).bin.elAt i with
      | none => exact Option.Rel.none
      | some x =>
        simp only [Option.bind_some]
        split
        · refine map_rel (reinsert_sim hlaw hkey hsim.bin hbin hpow
            (hxs.sublist List.filter_sublist) hstay hlimit x hfuel _) ?_
          rintro p p' ⟨hn, hb⟩
          exact ⟨hn, hb, hsim.newBin, rfl, hsim.newAdded⟩
        · refine map_rel (reinsert_sim hlaw hkey hsim.newBin hnew hpow
            (hxs.sublist List.filter_sublist) hgo hlimit x hfuel _) ?_
          rintro p p' ⟨hn, hb⟩
          exact ⟨hn, hsim.bin, hb, hsim.oldAdded, rfl⟩

structure SplittingSim (Slots : G → Nat → Nat → List Entry → Prop) (s : Splitting El G)
    (s' : Splitting El (List Entry)) : Prop where
  table : IxSim Slots s.table s'.table
  binInd : s.binInd = s'.binInd
  newInd : s.newInd = s'.newInd

section Split

variable {n b₀ k : Nat} {t₀ : IdealIxht El} {e₀ : Ebin El (List Entry)} {s : Splitting El G}
  {s' : Splitting El (List Entry)}

theorem splitPass_sim (hlaw : ops.Lawful ixhtWidths key.nonzero limit Slots) (hkey : key.Lawful)
    (hsim : SplittingSim Slots s s') (h : SplitInv key n t₀ b₀ e₀ k s')
    (hpow : ∃ j ≤ 28, n = 2 ^ j) (hlimit : 4 * n ≤ limit) {fuel : Nat} (hfuel : n ≤ fuel) :
    Option.Rel (Step.Rel (SplittingSim Slots) (SplittingSim Slots)) (ixhtSplitPass ops key fuel s)
      (ixhtSplitPass (idealIxhtOps key) key fuel s') := by
  obtain ⟨e', hbin', he'⟩ := h.bin
  obtain ⟨f', hnew', hf'⟩ := h.newBin
  obtain ⟨e, hbin, he⟩ := Forall₂.exists_of_right hsim.table.bins hbin'
  obtain ⟨f, hnew, hf⟩ := Forall₂.exists_of_right hsim.table.bins hnew'
  rw [← hsim.binInd] at hbin
  rw [← hsim.newInd] at hnew
  have hread := he'.readable
  obtain ⟨groups, hgroups, hslots⟩ := hlaw.clear he.bin.slots
  have hgroups : ops.clear e.bin.numGroups e.bin.groups = some groups := hgroups
  unfold ixhtSplitPass
  simp only [hbin, hnew, hbin', hnew', hgroups, idealOps, Option.bind_some]
  simp only [he.depth, he.mask, he.elsStart, he'.start, ← he.bin.elsBound, Nat.sub_zero,
    ← List.range_eq_range', hsim.newInd]
  split
  · exact Option.Rel.none
  refine bind_rel (hsim.table.deepen _) fun t₁ a₁ h₁ => bind_rel (h₁.redirect _ _) fun t₂ a₂ h₂ => ?_
  have hempty := refill_nil_of_vacant hf'.bound hf'.groups key.nonzero.hash
  -- the ideal loop runs along known states
  have hinit : (⟨a₂.elsNum, e'.bin.emptied [], f'.bin, false, false⟩ :
      Halves El (List Entry)) = Halves.after key e'.depth e'.bin f'.bin a₂.elsNum [] := by
    simp only [Halves.after, staying, going, List.filter_nil, hempty, List.any_nil]
    rfl
  have hloop : Option.Rel (HalvesSim Slots)
      ((List.range e'.bin.elsBound).foldlM (ixhtDistribute ops key fuel (2 ^ e'.depth))
        ⟨t₂.elsNum, e.bin.emptied groups, f.bin, false, false⟩)
      ((List.range e'.bin.elsBound).foldlM
        (ixhtDistribute (idealIxhtOps key) key fuel (2 ^ e'.depth))
        ⟨a₂.elsNum, e'.bin.emptied [], f'.bin, false, false⟩) := by
    refine Rel.imp (foldlM_range_rel (fun i h h' => HalvesSim Slots h h' ∧
      ∃ m, h' = Halves.after key e'.depth e'.bin f'.bin m (e'.bin.liveUpTo i)) e'.bin.elsBound
      ⟨⟨h₂.elsNum, ⟨?_, hslots⟩, hf.bin, rfl, rfl⟩, a₂.elsNum, hinit⟩ ?_)
      fun _ _ hh => hh.1
    · rw [he.bin.same]
      rfl
    · rintro i hi h h' ⟨hh, m, rfl⟩
      have hlen := e'.bin.length_liveUpTo_le i
      have hbound := he'.bound
      have hapart : Apart key.eq (e'.bin.liveUpTo i) :=
        hread.apart.sublist (e'.bin.liveUpTo_sublist (Nat.le_of_lt hi))
      have hrel := distribute_sim hlaw hkey hh he'.sized hf'.sized hpow hapart (by omega) hlimit
        hfuel i
      obtain ⟨m', hm'⟩ := distribute_ideal (d := e'.depth) hread
        (by rw [he'.sized.els]; exact hbound) (by rw [hf'.sized.els]; exact hbound) hi m fuel
      refine Rel.and_right hrel fun h'' hh'' => ?_
      rw [hm', Option.some.injEq] at hh''
      exact ⟨m', hh''.symm⟩
  refine map_rel hloop ?_
  intro h h' hh
  rw [hh.oldAdded, hh.newAdded]
  have hclose : SplittingSim Slots (s.close t₂ e f h) (s'.close a₂ e' f' h') := by
    refine ⟨⟨h₂.elsNum, h₂.maxDepth, h₂.binMask, h₂.dir, ?_⟩, hsim.binInd, hsim.newInd⟩
    simp only [Splitting.close, hsim.binInd, hsim.newInd, he.depth, he.mask]
    refine Forall₂.set (Forall₂.set h₂.bins ?_ _) ?_ _
    · exact ⟨rfl, rfl, rfl, hh.bin⟩
    · exact ⟨rfl, rfl, hf.elsStart, hh.newBin⟩
  split
  · exact Step.Rel.again ⟨hclose.table, rfl, hsim.binInd⟩
  · split
    · exact Step.Rel.leave hclose
    · exact Step.Rel.again hclose

theorem EbinSim.resetDeleted {e : Ebin El G} {e' : Ebin El (List Entry)}
    (h : EbinSim Slots e e') : Option.Rel (EbinSim Slots) e.resetDeleted e'.resetDeleted := by
  simp only [Ebin.resetDeleted, h.bin.halfIndexes, h.bin.deleted]
  split
  · refine Option.Rel.some ⟨h.depth, h.mask, h.elsStart, ?_, h.bin.slots⟩
    rw [h.bin.same]
    rfl
  · exact Option.Rel.none

theorem SplittingSim.finish (h : SplittingSim Slots s s') :
    Option.Rel (IxSim Slots) s.finish s'.finish := by
  unfold Splitting.finish
  rw [h.binInd, h.newInd]
  refine bind_rel (Forall₂.getElem?_rel h.table.bins _) fun ob ob' hob => ?_
  refine bind_rel hob.resetDeleted fun ob ob' hob => ?_
  refine bind_rel (Forall₂.getElem?_rel h.table.bins _) fun nb nb' hnb => ?_
  refine map_rel hnb.resetDeleted fun nb nb' hnb => ?_
  exact ⟨h.table.elsNum, h.table.maxDepth, h.table.binMask, h.table.dir,
    Forall₂.set (Forall₂.set h.table.bins hob _) hnb _⟩

theorem ixhtCreateBin_sim (hlaw : ops.Lawful ixhtWidths key.nonzero limit Slots) {size : Nat}
    (hsize : size < 2 ^ 31) :
    EbinSim Slots (ixhtCreateBin ops size) (ixhtCreateBin (idealIxhtOps key) size) := by
  refine ⟨rfl, rfl, rfl, rfl, ?_⟩
  have hpos : 0 < 2 * (if size < GROUP_SIZE then GROUP_SIZE else size) % 2 ^ 32 / GROUP_SIZE := by
    by_cases hs : size < GROUP_SIZE
    · rw [if_pos hs]
      decide
    · rw [if_neg hs]
      simp only [GROUP_SIZE] at hs ⊢
      omega
  have hgroups : (ixhtCreateBin ops size).bin.numGroups =
      2 * (if size < GROUP_SIZE then GROUP_SIZE else size) % 2 ^ 32 / GROUP_SIZE :=
    Nat.sub_add_cancel hpos
  rw [hgroups]
  exact hlaw.alloc _

theorem splitBin_sim (hlaw : ops.Lawful ixhtWidths key.nonzero limit Slots) (hkey : key.Lawful)
    (hsim : IxSim Slots t t₀) {maxLog : Nat} (hok : EbinOk key maxLog e₀) (hlog : maxLog ≤ 28)
    (hshape : DirShape t₀) (hb₀ : t₀.bins[b₀]? = some e₀) (hlimit : e₀.bin.elsSize ≤ limit)
    {fuel : Nat} (hfuel : e₀.bin.numGroups ≤ fuel) :
    Option.Rel (IxSim Slots) (ixhtSplitBin ops key fuel t b₀)
      (ixhtSplitBin (idealIxhtOps key) key fuel t₀ b₀) := by
  obtain ⟨e, he, hee⟩ := Forall₂.exists_of_right hsim.bins hb₀
  obtain ⟨j, hj, hle, hn⟩ := hok.size
  have hpow : ∃ j ≤ 28, e₀.bin.numGroups = 2 ^ j := ⟨j, by omega, hn⟩
  have hhalf := hok.halfIndexes hlog
  have hsmall : e₀.bin.halfIndexes < 2 ^ 31 := by
    have : 2 ^ j ≤ 2 ^ 28 := Nat.pow_le_pow_right (by decide) (by omega)
    rw [hhalf, Hbin.elsSize, hn]
    omega
  simp only [ixhtSplitBin, he, hb₀, Option.bind_some, hee.bin.halfIndexes]
  refine bind_rel (forever_rel
    (fun s s' => SplittingSim Slots s s' ∧ ∃ k, SplitInv key e₀.bin.numGroups t₀ b₀ e₀ k s')
    (SplittingSim Slots) ?_ fuel ⟨⟨⟨hsim.elsNum, hsim.maxDepth, hsim.binMask, hsim.dir, ?_⟩, rfl,
      List.Forall₂.length_eq hsim.bins⟩, 0, SplitInv.init hok hlog hshape hb₀⟩)
    fun _ _ h => h.finish
  · rintro s s' ⟨hs, k, hinv⟩
    have hpass := splitPass_sim hlaw hkey hs hinv hpow hlimit hfuel
    -- the ideal pass decides how both end
    rcases hinv.cases hkey hshape hb₀ hpow with ⟨r, hr, hr'⟩ | ⟨r, -, hr, -⟩ | hr
    · rw [hr fuel] at hpass ⊢
      generalize ixhtSplitPass ops key fuel s = x at hpass ⊢
      cases hpass with
      | some h =>
        cases h with
        | again h => exact Option.Rel.some (Step.Rel.again ⟨h, k + 1, hr'⟩)
    · rw [hr fuel] at hpass ⊢
      generalize ixhtSplitPass ops key fuel s = x at hpass ⊢
      cases hpass with
      | some h =>
        cases h with
        | leave h => exact Option.Rel.some (Step.Rel.leave h)
    · rw [hr fuel] at hpass ⊢
      generalize ixhtSplitPass ops key fuel s = x at hpass ⊢
      cases hpass with
      | none => exact Option.Rel.none
  · exact List.rel_append hsim.bins (List.Forall₂.cons (ixhtCreateBin_sim hlaw hsmall) List.Forall₂.nil)

end Split

/-! ## Rebuilding a bin in place -/

theorem rebuildBin_sim (hlaw : ops.Lawful ixhtWidths key.nonzero limit Slots) (hkey : key.Lawful)
    {maxLog n : Nat} {e : Ebin El G} {e' : Ebin El (List Entry)} (hsim : EbinSim Slots e e')
    (hok : EbinOk key maxLog e') (hle : e'.bin.numGroups ≤ n) (hpow : ∃ j ≤ 28, n = 2 ^ j)
    (hlimit : 4 * n ≤ limit) {fuel : Nat} (hfuel : n ≤ fuel) :
    Option.Rel (EbinSim Slots) (ixhtRebuildBin ops key fuel e (8 * n) (4 * n))
      (ixhtRebuildBin (idealIxhtOps key) key fuel e' (8 * n) (4 * n)) := by
  have hpos : 0 < n := Nat.lt_of_lt_of_le (Nat.succ_pos _) hle
  have hread := hok.dense.readable
  have hsized := ixhtRealloc_sized (idealIxhtOps key) e'.bin hpos
  have hcap := hok.sized.els
  have hat := ixhtRealloc_elAt key (b := e'.bin) (n := n) (by omega)
  have hbound : e'.bin.elsBound ≤ 4 * n := by
    have := hok.dense.bound
    have := hok.dense.capacity
    omega
  have hinit : BinSim Slots (ixhtRealloc ops e.bin (8 * n) (4 * n))
      (ixhtRealloc (idealIxhtOps key) e'.bin (8 * n) (4 * n)) := by
    have hgroups : 8 * n / GROUP_SIZE = n := by
      simp only [GROUP_SIZE]
      omega
    refine ⟨?_, ?_⟩
    · simp only [ixhtRealloc, hsim.bin.els]
      rfl
    · have hn : (ixhtRealloc ops e.bin (8 * n) (4 * n)).numGroups = n := by
        simp only [ixhtRealloc, Hbin.numGroups, hgroups]
        omega
      rw [hn]
      simp only [ixhtRealloc, hgroups]
      exact hlaw.regrow n e.bin.groups
  unfold ixhtRebuildBin
  rw [hsim.elsStart, hok.start, ← hsim.bin.elsBound, ← hsim.bin.deleted, Nat.sub_zero,
    ← List.range_eq_range']
  refine map_rel (foldlM_range_rel (fun i s s' => BinSim Slots s.2 s'.2 ∧ s.1 = s'.1 ∧
      s'.2 = (ixhtRealloc (idealIxhtOps key) e'.bin (8 * n) (4 * n)).refill key.nonzero.hash
        (e'.bin.liveUpTo i)) e'.bin.elsBound
    ⟨hinit, rfl, (refill_nil_of_vacant rfl rfl _).symm⟩ ?_) ?_
  · rintro i hi ⟨m, b⟩ ⟨m', b'⟩ ⟨hb, rfl, rfl⟩
    have hlen := e'.bin.length_liveUpTo_le i
    have hapart : Apart key.eq (e'.bin.liveUpTo i) :=
      hread.apart.sublist (e'.bin.liveUpTo_sublist (Nat.le_of_lt hi))
    obtain ⟨m', hm'⟩ := ixhtReinsert_ideal hread (by rw [hsized.els]; exact hbound) hat hi m fuel
    have hrel : Option.Rel (fun s s' => s.1 = s'.1 ∧ BinSim Slots s.2 s'.2)
        (ixhtReinsert ops key fuel e'.bin.deleted (m, b) i)
        (ixhtReinsert (idealIxhtOps key) key fuel e'.bin.deleted
          (m, (ixhtRealloc (idealIxhtOps key) e'.bin (8 * n) (4 * n)).refill key.nonzero.hash
            (e'.bin.liveUpTo i)) i) := by
      unfold ixhtReinsert
      rw [← hb.elAt, refill_elAt_ge hlen, hat]
      rcases hread.next hi with ⟨hdel, -⟩ | ⟨hdel, x, hx, -, -⟩
      · simp only [hdel, Option.bind_some, if_true]
        exact Option.Rel.some ⟨rfl, hb⟩
      · simp only [hdel, Option.bind_some, hx]
        exact reinsert_sim hlaw hkey hb hsized hpow hapart (by omega) hlimit x hfuel m
    refine Rel.imp (Rel.and_right hrel (P := fun s' => s'.2 =
      (ixhtRealloc (idealIxhtOps key) e'.bin (8 * n) (4 * n)).refill key.nonzero.hash
        (e'.bin.liveUpTo (i + 1))) ?_) fun s s' h => ⟨h.1.2, h.1.1, h.2⟩
    intro s' hs'
    rw [hm', Option.some.injEq] at hs'
    rw [← hs']
  · rintro s s' ⟨hs, -, -⟩
    exact ⟨hsim.depth, hsim.mask, rfl, hs⟩


/-! ## Creation -/

theorem ixhtCreate_sim (hlaw : ops.Lawful ixhtWidths key.nonzero limit Slots)
    (hpower : PowerOk maxPower) (fuel minSize : Nat) :
    Option.Rel (IxSim Slots) (ixhtCreate maxPower ops fuel minSize)
      (ixhtCreate maxPower (idealIxhtOps key) fuel minSize) := by
  have hge := hpower.ge
  have hle := hpower.le
  unfold ixhtCreate
  cases hsize : forever (ixhtCreateBody minSize) fuel 2 with
  | none => exact Option.Rel.none
  | some size =>
    obtain ⟨s, -, hs, rfl, -⟩ := ixhtCreate_size hsize
    rw [Option.bind_some, Option.bind_some]
    cases hparams : ixhtGetParams maxPower fuel (2 ^ s) with
    | none => exact Option.Rel.none
    | some p =>
      obtain ⟨j, hj, rfl⟩ := ixhtGetParams_some (by omega) hs hparams
      have hsmall : 2 ^ (s - j) < 2 ^ 31 := Nat.pow_lt_pow_right (by decide) (by omega)
      have hbin := ixhtCreateBin_sim hlaw hsmall
      refine Option.Rel.some ⟨rfl, rfl, rfl, rfl, ?_⟩
      simp only [ixhtOfParams, List.forall₂_map_left_iff, List.forall₂_map_right_iff,
        List.forall₂_same]
      exact fun i _ => ⟨rfl, rfl, rfl, hbin.bin⟩

/-! ## Whole calls -/

theorem EbinSim.full {e : Ebin El G} {e' : Ebin El (List Entry)} (h : EbinSim Slots e e') :
    ixhtFull e = ixhtFull e' := by
  rw [ixhtFull, ixhtFull, h.bin.halfIndexes, h.bin.elsBound]

theorem IxSim.grow (h : IxSim Slots t a) {e : Ebin El G} {e' : Ebin El (List Entry)}
    (he : EbinSim Slots e e') : ixhtGrow t e = ixhtGrow a e' := by
  rw [ixhtGrow, ixhtGrow, Hbin.indexesSize, Hbin.indexesSize, he.bin.groupsMask, h.elsNum]

theorem IxSim.splits (h : IxSim Slots t a) {e : Ebin El G} {e' : Ebin El (List Entry)}
    (he : EbinSim Slots e e') : ixhtSplits maxPower t e = ixhtSplits maxPower a e' := by
  rw [ixhtSplits, ixhtSplits, h.grow he, he.bin.halfIndexes]

theorem IxSim.factor (h : IxSim Slots t a) {e : Ebin El G} {e' : Ebin El (List Entry)}
    (he : EbinSim Slots e e') : ixhtFactor t e = ixhtFactor a e' := by
  rw [ixhtFactor, ixhtFactor, h.grow he]

/-- The bound on the capacity of a bin, also after it has doubled. -/
theorem EbinOk.capacity_lt (hpower : PowerOk maxPower) {e : Ebin El (List Entry)}
    (h : EbinOk key (maxPower - 3) e) : 8 * e.bin.numGroups ≤ 2 ^ maxPower := by
  have hge := hpower.ge
  obtain ⟨j, -, hle, hn⟩ := h.size
  calc 8 * e.bin.numGroups = 2 ^ (j + 3) := by rw [hn, Nat.pow_add]; omega
    _ ≤ 2 ^ maxPower := Nat.pow_le_pow_right (by decide) (by omega)

theorem prepare_sim (hlaw : ops.Lawful ixhtWidths key.nonzero limit Slots) (hkey : key.Lawful)
    (hpower : PowerOk maxPower) (hlimit : 2 ^ maxPower ≤ limit) (hsim : IxSim Slots t a)
    (h : IxOk maxPower key a) (hash : BitVec 64) (action : Action) {fuel : Nat}
    (hfuel : 2 ^ maxPower ≤ fuel) :
    Option.Rel (fun q q' => IxSim Slots q.1 q'.1 ∧ q.2 = q'.2)
      (ixhtPrepare maxPower ops key fuel t hash action)
      (ixhtPrepare maxPower (idealIxhtOps key) key fuel a hash action) := by
  have hge := hpower.ge
  have hle := hpower.le
  obtain ⟨b, e', hbin, he'⟩ := h.shape.binOf_some hash
  obtain ⟨e, he, hee⟩ := Forall₂.exists_of_right hsim.bins he'
  have hok := h.bins e' (List.mem_of_getElem? he')
  have hcap := hok.capacity_lt hpower
  unfold ixhtPrepare
  simp only [hsim.binOf, hbin, he, he', Option.bind_some, hee.full, hsim.splits hee, hsim.factor hee]
  split
  · split
    · refine bind_rel (splitBin_sim hlaw hkey hsim hok (by omega) h.shape he'
        (by rw [Hbin.elsSize]; omega) (by omega)) fun t₁ a₁ h₁ => ?_
      rw [h₁.binOf]
      cases a₁.binOf hash with
      | none => exact Option.Rel.none
      | some i => exact Option.Rel.some ⟨h₁, rfl⟩
    · -- the sizes that the rebuild is given
      obtain ⟨j, hj, hjle, hn⟩ := hok.size
      have hindexes := hok.indexesSize (show maxPower - 3 ≤ 28 by omega)
      have hhalf := hok.halfIndexes (show maxPower - 3 ≤ 28 by omega)
      have hpow : 2 ^ j ≤ 2 ^ 12 := Nat.pow_le_pow_right (by decide) (by omega)
      have hmask : e.bin.indexesSize ixhtWidths = e'.bin.indexesSize ixhtWidths := by
        rw [Hbin.indexesSize, Hbin.indexesSize, hee.bin.groupsMask]
      rw [hmask, hee.bin.halfIndexes, hindexes, hhalf, Hbin.elsSize, hn]
      have hsizes : ∀ f, f ≤ 1 → 8 * 2 ^ j * 2 ^ f % 2 ^ 32 = 8 * 2 ^ (j + f) ∧
          4 * 2 ^ j * 2 ^ f % 2 ^ 32 = 4 * 2 ^ (j + f) ∧ 2 ^ j ≤ 2 ^ (j + f) ∧
          4 * 2 ^ (j + f) ≤ 8 * 2 ^ j := by
        intro f hf
        have : f = 0 ∨ f = 1 := by omega
        rcases this with rfl | rfl
        · rw [Nat.add_zero]
          omega
        · rw [Nat.pow_succ]
          omega
      obtain ⟨f, hf, hfactor⟩ : ∃ f ≤ 1, ixhtFactor a e' = 2 ^ f := by
        unfold ixhtFactor
        cases ixhtGrow a e' with
        | true => exact ⟨1, Nat.le_refl 1, rfl⟩
        | false => exact ⟨0, Nat.zero_le 1, rfl⟩
      obtain ⟨h8, h4, hmore, hless⟩ := hsizes f hf
      rw [hfactor, h8, h4]
      refine map_rel (rebuildBin_sim hlaw hkey hee hok (by rw [hn]; exact hmore)
        ⟨j + f, by omega, rfl⟩ (by omega) (by omega)) fun x y hxy => ⟨?_, rfl⟩
      exact ⟨hsim.elsNum, hsim.maxDepth, hsim.binMask, hsim.dir, Forall₂.set hsim.bins hxy b⟩
  · exact Option.Rel.some ⟨hsim, rfl⟩

/-- A call on the real table follows the call on the ideal one. -/
theorem ixhtStep_sim (hlaw : ops.Lawful ixhtWidths key.nonzero limit Slots) (hkey : key.Lawful)
    (hpower : PowerOk maxPower) (hlimit : 2 ^ maxPower ≤ limit) (hsim : IxSim Slots t a)
    (h : IxOk maxPower key a) (hnum : a.elsNum < 2 ^ 31) (c : Call El) {fuel : Nat}
    (hfuel : 2 ^ maxPower ≤ fuel) :
    Option.Rel (fun s s' => s.1 = s'.1 ∧ IxSim Slots s.2 s'.2)
      (ixhtStep maxPower ops key fuel t c) (ixhtStep maxPower (idealIxhtOps key) key fuel a c) := by
  have hprep := Rel.and_right (P := fun q' => Prepared maxPower key a (key.nonzero.hash c.el)
      c.action q'.1 q'.2)
    (prepare_sim hlaw hkey hpower hlimit hsim h (key.nonzero.hash c.el) c.action hfuel)
    fun q' hq' => prepare_cases hkey hpower h hnum hq'
  unfold ixhtStep ixhtPerform
  rw [Option.bind_assoc, Option.bind_assoc]
  refine bind_rel hprep ?_
  rintro ⟨p, i⟩ ⟨p', _⟩ ⟨⟨hp, rfl⟩, hcases⟩
  have hp : IxSim Slots p p' := hp
  obtain ⟨hok, -, e', he', -⟩ := hcases.ok h
  obtain ⟨e, he, hee⟩ := Forall₂.exists_of_right hp.bins he'
  have hbin := hok.bins e' (List.mem_of_getElem? he')
  have hcap := hbin.capacity_lt hpower
  have hbound := hbin.dense.bound
  rw [Hbin.elsSize] at hbound
  have heq := hee.bin.elsBound
  have hgroups := hee.bin.numGroups
  have hmask : e.bin.numGroups = e.bin.groupsMask + 1 := rfl
  simp only [he, he', Option.bind_some, hp.elsNum]
  rw [Option.bind_map, Option.bind_map]
  have hdo := Rel.and_right (P := fun r' => r'.bin.elsBound ≤ e'.bin.elsBound + 1)
    (hlaw.do1 hee.bin hbin.dense.index (by omega) (by omega) c.el c.action fuel (by omega)
      p'.elsNum) fun r' hr' => idealDo1_elsBound_le hr'
  refine bind_rel hdo ?_
  rintro r r' ⟨hr, hrb⟩
  have hwritten := Rel.and_right (P := fun b' => b'.elsBound ≤ limit) (hr.written c) (by
    intro b' hb'
    rw [Outcome.written_elsBound hb']
    omega)
  refine map_rel hwritten ?_
  rintro b b' ⟨hb, hbl⟩
  have hb := hb.sim hbl
  refine ⟨by rw [hr.found, hr.res, hr.value], ?_⟩
  show IxSim Slots ((p.setBin i r.elsNum r.bin).setBin i r.elsNum b)
    ((p'.setBin i r'.elsNum r'.bin).setBin i r'.elsNum b')
  rw [Ixht.setBin_setBin he, Ixht.setBin_setBin he']
  refine ⟨hr.elsNum, hp.maxDepth, hp.binMask, hp.dir, Forall₂.set hp.bins ?_ i⟩
  exact ⟨hee.depth, hee.mask, hee.elsStart, hb⟩

end Simulation

end IndexedHash
