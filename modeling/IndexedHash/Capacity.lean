import Mathlib.Tactic.Common
import IndexedHash.IhtProbes
import IndexedHash.IxhtSessions
import IndexedHash.SplitElements

/-!
# How large the tables become

Used positions, live and deleted ones, decide when a bin is rebuilt or split; the number
of live elements decides whether it grows then.  So churn alone does not make a table
larger: a capacity that has grown was at most four times (`ihtab.h`) or twice (`ixhtab.h`)
the `els_num` of that moment.  Nothing here depends on what is in the bins, only on
`do_1` never changing the size of one (`KeepsSize`), so the bounds hold for every run.

The last section is about the sizes that `ixht_create` starts with.
-/

namespace IndexedHash

open Loop

variable {El G : Type}

/-! ## Sizes of bins -/

def BinOps.KeepsSize (ops : BinOps El G) : Prop :=
  ∀ {fuel n b hash el action r}, ops.do1 fuel n b hash el action = some r →
    r.bin.groupsMask = b.groupsMask

theorem groupOps_keepsSize (w : Widths) (gops : GroupOps) (eq : El → El → Bool) :
    (groupOps w gops eq).KeepsSize := by
  intro fuel n b hash el action r hr
  obtain ⟨p, -, hr⟩ := Option.bind_eq_some_iff.mp hr
  cases p with
  | hit g bit i =>
    dsimp only at hr
    split at hr
    · obtain ⟨deleted, -, rfl⟩ := Option.map_eq_some_iff.mp hr
      rfl
    · exact Option.some.inj hr ▸ rfl
  | vacant g bit =>
    dsimp only at hr
    split at hr
    · exact Option.some.inj hr ▸ rfl
    · exact Option.some.inj hr ▸ rfl

theorem Outcome.written_groupsMask {r : Outcome El G} {c : Call El} {b : Hbin El G}
    (h : r.written c = some b) : b.groupsMask = r.bin.groupsMask := by
  unfold Outcome.written at h
  split at h
  · exact Hbin.store?_groupsMask h
  · exact Option.some.inj h ▸ rfl

theorem BinOps.KeepsSize.reinsert {ops : BinOps El G} (hkeep : ops.KeepsSize) {fuel n : Nat}
    {b : Hbin El G} {hash : BitVec 64} {x : El} {s : Nat × Hbin El G}
    (h : IndexedHash.reinsert ops fuel n b hash x = some s) : s.2.groupsMask = b.groupsMask := by
  obtain ⟨r, hr, h⟩ := Option.bind_eq_some_iff.mp h
  obtain ⟨p, -, h⟩ := Option.bind_eq_some_iff.mp h
  obtain ⟨b', hb', rfl⟩ := Option.map_eq_some_iff.mp h
  exact (Hbin.store?_groupsMask hb').trans (hkeep hr)

theorem Hbin.indexesSize_le (w : Widths) (b : Hbin El G) : b.indexesSize w ≤ 2 * b.elsSize := by
  have hmod := Nat.mod_le ((b.groupsMask + 1) * GROUP_SIZE) (2 ^ w.size)
  simp only [GROUP_SIZE] at hmod
  simp only [Hbin.indexesSize, Hbin.elsSize, Hbin.numGroups, GROUP_SIZE]
  omega

/-! ## `ihtab.h` -/

section Iht

variable {ops : BinOps El G} {key : Key El} {fuel : Nat} {t t' : Iht El G}

theorem ihtRebuild_groupsMask (hkeep : ops.KeepsSize) (h : ihtRebuild ops key fuel t = some t') :
    t'.bin.groupsMask = ihtRebuildSize t / GROUP_SIZE - 1 := by
  obtain ⟨⟨m, b⟩, hloop, rfl⟩ := Option.map_eq_some_iff.mp h
  refine foldlM_invariant (fun s => s.2.groupsMask = ihtRebuildSize t / GROUP_SIZE - 1)
    (fun s i s' hs hpass => ?_) rfl hloop
  obtain ⟨del, -, hpass⟩ := Option.bind_eq_some_iff.mp hpass
  split at hpass
  · exact Option.some.inj hpass ▸ hs
  · obtain ⟨x, -, hpass⟩ := Option.bind_eq_some_iff.mp hpass
    exact (hkeep.reinsert hpass).trans hs

/-- The growth test is on `els_num`. -/
theorem ihtRebuildSize_le (t : Iht El G) :
    ihtRebuildSize t ≤ max (t.bin.indexesSize ihtWidths) (8 * t.elsNum) := by
  unfold ihtRebuildSize
  dsimp only
  split
  · next hgrow =>
      simp only [LF_FACTOR, LF_DIVISOR] at hgrow
      omega
  · exact Nat.le_max_left _ _

/-- A call leaves the capacity, or doubles it to at most four times `els_num`. -/
theorem ihtStep_size (hkeep : ops.KeepsSize) {c : Call El} {r : Reply Nat El}
    (h : ihtStep ops key fuel t c = some (r, t')) :
    ihtSize t' ≤ max (max 4 (ihtSize t)) (4 * t.elsNum) := by
  obtain ⟨o, ho, h⟩ := Option.bind_eq_some_iff.mp h
  obtain ⟨b, hb, heq⟩ := Option.map_eq_some_iff.mp h
  obtain ⟨-, rfl⟩ := Prod.mk.inj heq
  obtain ⟨p, hp, hdo⟩ := Option.bind_eq_some_iff.mp ho
  have hmask : b.groupsMask = p.bin.groupsMask :=
    (Outcome.written_groupsMask hb).trans (hkeep hdo)
  have hsize : ihtSize (⟨o.elsNum, b⟩ : Iht El G) = ihtSize p := by
    simp only [ihtSize, Hbin.indexesSize, hmask]
  rw [hsize]
  split at hp
  · have hle := ihtRebuildSize_le t
    simp only [ihtSize, LF_FACTOR, LF_DIVISOR]
    rw [Hbin.indexesSize, ihtRebuild_groupsMask hkeep hp, GROUP_SIZE]
    have hmod := Nat.mod_le ((ihtRebuildSize t / 8 - 1 + 1) * 8) (2 ^ ihtWidths.size)
    omega
  · rw [Option.some.inj hp]
    omega

end Iht

/-! ## `ixhtab.h` -/

section Ixht

variable {ops : BinOps El G} {key : Key El} {maxPower fuel : Nat} {t t' : Ixht El G}

def Ixht.BinsUpTo (size : Nat) (t : Ixht El G) : Prop := ∀ e ∈ t.bins, e.bin.elsSize ≤ size

theorem ixhtCreateBin_elsSize_le (ops : BinOps El G) (size : Nat) :
    (ixhtCreateBin ops size).bin.elsSize ≤ max 8 size := by
  by_cases hlt : size < GROUP_SIZE
  · simp only [ixhtCreateBin, if_pos hlt, Hbin.elsSize, Hbin.numGroups]
    simp only [GROUP_SIZE]
    omega
  · simp only [ixhtCreateBin, if_neg hlt, Hbin.elsSize, Hbin.numGroups]
    simp only [GROUP_SIZE]
    omega

/-- The growth test is on `els_num`. -/
theorem ixhtFactor_le (t : Ixht El G) (e : Ebin El G) :
    e.bin.indexesSize ixhtWidths * ixhtFactor t e ≤
      max (e.bin.indexesSize ixhtWidths) (4 * t.elsNum) := by
  unfold ixhtFactor
  split
  · next hgrow =>
      simp only [ixhtGrow, decide_eq_true_eq] at hgrow
      omega
  · omega

theorem Ixht.BinsUpTo.set {size : Nat} {bins : List (Ebin El G)} {e : Ebin El G}
    (h : ∀ e ∈ bins, e.bin.elsSize ≤ size) (he : e.bin.elsSize ≤ size) (i : Nat) :
    ∀ f ∈ bins.set i e, f.bin.elsSize ≤ size := by
  intro f hf
  rcases List.mem_or_eq_of_mem_set hf with hf | rfl
  · exact h f hf
  · exact he

theorem ixhtDistribute_groupsMask (hkeep : ops.KeepsSize) {mask i : Nat} {s s' : Halves El G}
    (h : ixhtDistribute ops key fuel mask s i = some s') :
    s'.bin.groupsMask = s.bin.groupsMask ∧ s'.newBin.groupsMask = s.newBin.groupsMask := by
  obtain ⟨del, -, h⟩ := Option.bind_eq_some_iff.mp h
  split at h
  · exact Option.some.inj h ▸ ⟨rfl, rfl⟩
  obtain ⟨x, -, h⟩ := Option.bind_eq_some_iff.mp h
  dsimp only at h
  split at h
  · obtain ⟨r, hr, rfl⟩ := Option.map_eq_some_iff.mp h
    exact ⟨hkeep.reinsert hr, rfl⟩
  · obtain ⟨r, hr, rfl⟩ := Option.map_eq_some_iff.mp h
    exact ⟨rfl, hkeep.reinsert hr⟩

theorem Ixht.BinsUpTo.pass (hkeep : ops.KeepsSize) {size : Nat} {s s' : Splitting El G}
    {bin newBin : Ebin El G} {halves : Halves El G} (h : s.table.BinsUpTo size)
    (htaken : PassTaken ops key fuel s s' bin newBin t halves) : s'.table.BinsUpTo size := by
  obtain ⟨groups, -, hloop⟩ := htaken.halves
  obtain ⟨hbin, hnew⟩ := foldlM_invariant
    (fun h => h.bin.groupsMask = bin.bin.groupsMask ∧ h.newBin.groupsMask = newBin.bin.groupsMask)
    (fun s i s' hs hpass => by
      obtain ⟨hb, hn⟩ := ixhtDistribute_groupsMask hkeep hpass
      exact ⟨hb.trans hs.1, hn.trans hs.2⟩) ⟨rfl, rfl⟩ hloop
  have hbinSize := h bin (List.mem_of_getElem? htaken.at_bin)
  have hnewSize := h newBin (List.mem_of_getElem? htaken.at_new)
  unfold Ixht.BinsUpTo
  rw [htaken.table]
  simp only [Splitting.close, htaken.bins]
  refine BinsUpTo.set (BinsUpTo.set h ?_ _) ?_ _
  · rw [Hbin.elsSize, Hbin.numGroups, hbin]
    exact hbinSize
  · rw [Hbin.elsSize, Hbin.numGroups, hnew]
    exact hnewSize

theorem Ebin.resetDeleted_groupsMask {e e' : Ebin El G} (h : e.resetDeleted = some e') :
    e'.bin.groupsMask = e.bin.groupsMask := by
  unfold Ebin.resetDeleted at h
  dsimp only at h
  split at h
  · exact Option.some.inj h ▸ rfl
  · cases h

/-- The new bin of a split is as large as the old one. -/
theorem Ixht.BinsUpTo.split (hkeep : ops.KeepsSize) {size b : Nat} (hsize : 8 ≤ size)
    (h : t.BinsUpTo size) (hsplit : ixhtSplitBin ops key fuel t b = some t') : t'.BinsUpTo size := by
  obtain ⟨e, he, hsplit⟩ := Option.bind_eq_some_iff.mp hsplit
  obtain ⟨s, hloop, hfinish⟩ := Option.bind_eq_some_iff.mp hsplit
  have hs : s.table.BinsUpTo size := by
    refine splitLoop_invariant (fun s => s.table.BinsUpTo size)
      (fun _ _ _ _ _ _ hs htaken => hs.pass hkeep htaken) ?_ hloop
    intro f hf
    rcases List.mem_append.mp hf with hf | hf
    · exact h f hf
    · have hesize := h e (List.mem_of_getElem? he)
      have hnew := ixhtCreateBin_elsSize_le ops e.bin.halfIndexes
      have hindexes := e.bin.indexesSize_le ixhtWidths
      rw [Hbin.halfIndexes] at hnew
      rw [List.mem_singleton.mp hf, Hbin.halfIndexes]
      omega
  obtain ⟨ob, hob, hfinish⟩ := Option.bind_eq_some_iff.mp hfinish
  obtain ⟨ob', hob', hfinish⟩ := Option.bind_eq_some_iff.mp hfinish
  obtain ⟨nb, hnb, hfinish⟩ := Option.bind_eq_some_iff.mp hfinish
  obtain ⟨nb', hnb', rfl⟩ := Option.map_eq_some_iff.mp hfinish
  refine BinsUpTo.set (BinsUpTo.set hs ?_ _) ?_ _
  · rw [Hbin.elsSize, Hbin.numGroups, Ebin.resetDeleted_groupsMask hob']
    exact hs ob (List.mem_of_getElem? hob)
  · rw [Hbin.elsSize, Hbin.numGroups, Ebin.resetDeleted_groupsMask hnb']
    exact hs nb (List.mem_of_getElem? hnb)

theorem ixhtRebuildBin_groupsMask (hkeep : ops.KeepsSize) {e e' : Ebin El G}
    {indexesSize elsSize : Nat}
    (h : ixhtRebuildBin ops key fuel e indexesSize elsSize = some e') :
    e'.bin.groupsMask = indexesSize / GROUP_SIZE - 1 := by
  obtain ⟨⟨m, b⟩, hloop, rfl⟩ := Option.map_eq_some_iff.mp h
  refine foldlM_invariant (fun s => s.2.groupsMask = indexesSize / GROUP_SIZE - 1)
    (fun s i s' hs hpass => ?_) rfl hloop
  obtain ⟨del, -, hpass⟩ := Option.bind_eq_some_iff.mp hpass
  split at hpass
  · exact Option.some.inj hpass ▸ hs
  · obtain ⟨x, -, hpass⟩ := Option.bind_eq_some_iff.mp hpass
    exact (hkeep.reinsert hpass).trans hs

/-- A call leaves the capacities within any bound that is at least twice `els_num`. -/
theorem Ixht.BinsUpTo.step (hkeep : ops.KeepsSize) {size : Nat} (hsize : 8 ≤ size)
    (h : t.BinsUpTo size) (hnum : 2 * t.elsNum ≤ size) {c : Call El} {r : Reply (Nat × Nat) El}
    (hstep : ixhtStep maxPower ops key fuel t c = some (r, t')) : t'.BinsUpTo size := by
  obtain ⟨p, i, e, o, bin, hp, he, hdo, hbin, rfl, -⟩ := ixhtStep_cases hstep
  have hprep : p.BinsUpTo size := by
    obtain ⟨b, f, -, hf, hcase⟩ := ixhtPrepare_cases hp
    cases hcase with
    | asIs _ => exact h
    | split _ _ _ hsplit _ => exact h.split hkeep hsize hsplit
    | @rebuild f' _ _ _ hf' =>
      have hfsize := h f (List.mem_of_getElem? hf)
      have hfactor := ixhtFactor_le t f
      have hindexes := f.bin.indexesSize_le ixhtWidths
      refine BinsUpTo.set h ?_ _
      rw [Hbin.elsSize, Hbin.numGroups, ixhtRebuildBin_groupsMask hkeep hf', GROUP_SIZE]
      omega
  refine BinsUpTo.set hprep ?_ _
  rw [Hbin.elsSize, Hbin.numGroups, Outcome.written_groupsMask hbin, hkeep hdo]
  exact hprep e (List.mem_of_getElem? he)

structure SameShape (t t' : Ixht El G) : Prop where
  bins : t'.bins.length = t.bins.length
  dir : t'.dir = t.dir
  maxDepth : t'.maxDepth = t.maxDepth

theorem ixhtSplits_eq_false (hnum : 2 * t.elsNum < 2 ^ maxPower) (e : Ebin El G) :
    ixhtSplits maxPower t e = false := by
  by_contra hsplits
  simp only [ixhtSplits, ixhtGrow, Bool.not_eq_false, Bool.and_eq_true, decide_eq_true_eq] at hsplits
  rw [Hbin.halfIndexes] at hsplits
  omega

theorem ixhtStep_shape (hnum : 2 * t.elsNum < 2 ^ maxPower) {c : Call El}
    {r : Reply (Nat × Nat) El} (hstep : ixhtStep maxPower ops key fuel t c = some (r, t')) :
    SameShape t t' := by
  obtain ⟨p, i, e, o, bin, hp, -, -, -, rfl, -⟩ := ixhtStep_cases hstep
  obtain ⟨b, f, -, -, hcase⟩ := ixhtPrepare_cases hp
  cases hcase with
  | asIs _ => exact ⟨List.length_set, rfl, rfl⟩
  | split _ _ hsplits _ _ =>
    rw [ixhtSplits_eq_false hnum] at hsplits
    cases hsplits
  | rebuild _ _ _ _ => exact ⟨List.length_set.trans List.length_set, rfl, rfl⟩

end Ixht

/-! ## Creation -/

section Create

variable {ops : BinOps El G} {fuel minSize : Nat} {t : Ixht El G}

structure IxhtCreated (minSize : Nat) (t : Ixht El G) : Prop where
  elsNum : t.elsNum = 0
  bins_length : t.bins.length = 2 ^ t.maxDepth
  dir_length : t.dir.length = 2 ^ t.maxDepth
  dir : ∀ i < t.dir.length, t.dir[i]? = some i
  bins : ∀ (i : Nat) (e : Ebin El G), t.bins[i]? = some e → e.depth = t.maxDepth ∧ e.mask = i
  capacity : ∀ e ∈ t.bins, ∃ k, 3 ≤ k ∧ k ≤ 14 ∧ e.bin.elsSize = 2 ^ k
  total : minSize ≤ (t.bins.map fun e => e.bin.elsSize).sum

/-- What `ixht_create` returns, on any fuel on which it returns. -/
theorem ixhtCreate_cases
    (h : ixhtCreate IXHT_MAX_BIN_SIZE_POWER ops fuel minSize = some t) :
    ∃ j k, j ≤ 31 ∧ 3 ≤ k ∧ k ≤ 14 ∧ minSize ≤ 2 ^ 31 ∧ minSize ≤ 2 ^ j * 2 ^ k ∧
      (ixhtCreateBin ops (2 ^ k)).bin.elsSize = 2 ^ k ∧
      t = { elsNum := 0, maxDepth := j, binMask := 2 ^ j - 1, dir := List.range (2 ^ j),
            bins := (List.range (2 ^ j)).map fun i =>
              { ixhtCreateBin ops (2 ^ k) with depth := j, mask := i } } := by
  obtain ⟨s, j, hs, hj, hj16, henough, -, rfl⟩ := ixhtCreate_params powerOk_source h
  unfold IXHT_MAX_BIN_SIZE_POWER at hj
  -- a bin size below eight is raised to eight
  have hbin : ixhtCreateBin ops (2 ^ (s - j)) = ixhtCreateBin ops (2 ^ max 3 (s - j)) := by
    rw [ixhtCreateBin_pow, ixhtCreateBin_pow ops (max 3 (s - j))]
    congr 3
    omega
  refine ⟨j, max 3 (s - j), by omega, by omega, by omega, ?_, ?_, ?_, ?_⟩
  · exact Nat.le_trans henough (Nat.pow_le_pow_right (by decide) (by omega))
  · rw [← Nat.pow_add]
    exact Nat.le_trans henough (Nat.pow_le_pow_right (by decide) (by omega))
  · obtain ⟨i, hi⟩ : ∃ i, max 3 (s - j) = 2 + i := ⟨max 3 (s - j) - 2, by omega⟩
    have hlow : 2 ^ 1 ≤ 2 ^ i := Nat.pow_le_pow_right (by decide) (by omega)
    have hhigh : 2 ^ i ≤ 2 ^ 12 := Nat.pow_le_pow_right (by decide) (by omega)
    have hsized := ixhtCreateBin_sized ops (n := 2 ^ i) (by omega) (by omega)
    rw [hi, Nat.pow_add, show 2 ^ 2 = 4 from rfl, Hbin.elsSize, hsized.groups]
  · simp only [ixhtOfParams, hj16, hbin]

theorem ixhtCreated_of_cases (h : ixhtCreate IXHT_MAX_BIN_SIZE_POWER ops fuel minSize = some t) :
    IxhtCreated minSize t := by
  obtain ⟨j, k, -, hk3, hk14, -, hmin, hsize, rfl⟩ := ixhtCreate_cases h
  have hbins : ∀ (i : Nat) (e : Ebin El G), ((List.range (2 ^ j)).map fun i =>
      { ixhtCreateBin ops (2 ^ k) with depth := j, mask := i })[i]? = some e →
      e = { ixhtCreateBin ops (2 ^ k) with depth := j, mask := i } := by
    intro i e he
    rw [List.getElem?_map] at he
    obtain ⟨i', hi', rfl⟩ := Option.map_eq_some_iff.mp he
    obtain ⟨hlt, rfl⟩ := List.getElem?_eq_some_iff.mp hi'
    rw [List.getElem_range]
  refine ⟨rfl, ?_, List.length_range, fun i hi => ?_, fun i e he => ?_, fun e he => ?_, ?_⟩
  · rw [List.length_map, List.length_range]
  · rw [List.getElem?_range (by rwa [List.length_range] at hi)]
  · rw [hbins i e he]
    exact ⟨rfl, rfl⟩
  · obtain ⟨i, -, rfl⟩ := List.mem_map.mp he
    exact ⟨k, hk3, hk14, hsize⟩
  · rw [List.map_map]
    simp only [Function.comp_def, hsize, List.map_const', List.sum_replicate_nat, List.length_range]
    exact hmin

/-- `ixht_create` returns a table as asked for if `min_size` is at most `2 ^ 31`.  Beyond
    that `size *= 2` wraps to 0 before it suffices, and the loop does not end. -/
theorem ixht_create_iff (ops : BinOps El G) (minSize : Nat) :
    (∃ t, Returns (fun fuel => ixhtCreate IXHT_MAX_BIN_SIZE_POWER ops fuel minSize) t ∧
      IxhtCreated minSize t) ↔ minSize ≤ 2 ^ 31 := by
  constructor
  · rintro ⟨t, ht, -⟩
    obtain ⟨fuel, hfuel⟩ := ht.exists_some
    obtain ⟨j, k, -, -, -, hle, -⟩ := ixhtCreate_cases hfuel
    exact hle
  · intro hle
    obtain ⟨t, ht⟩ := ixhtCreate_returns (show 1 ≤ IXHT_MAX_BIN_SIZE_POWER by decide) ops hle
    obtain ⟨fuel, hfuel⟩ := ht.exists_some
    exact ⟨t, ht, ixhtCreated_of_cases hfuel⟩

/-- A `min_size` for which the loop does not end. -/
theorem ixht_create_loops :
    ¬ ∃ t, Returns (fun fuel => ixhtCreate IXHT_MAX_BIN_SIZE_POWER (ixhtOps identityKey .swar) fuel
      (2 ^ 31 + 1)) t := by
  rintro ⟨t, ht⟩
  obtain ⟨fuel, hfuel⟩ := ht.exists_some
  obtain ⟨j, k, -, -, -, hle, -⟩ := ixhtCreate_cases hfuel
  omega

end Create

/-! ## Runs -/

def PeakUpTo {τ ρ : Type} (step : τ → Call El → Option (ρ × τ)) (elsNum : τ → Nat) (m : Nat) (t : τ)
    (calls : List (Call El)) : Prop :=
  ∀ pre s, pre <+: calls → runCalls step t pre = some s → elsNum s.2 ≤ m

/-- The capacities of every run are bounded by the initial ones and the largest `els_num`,
    and below `2 ^ 14` elements nothing is split. -/
theorem tables_not_inflated (key : Key El) (target : Target) :
    (∀ fuel minSize t₀, ihtCreate (ihtOps key target) fuel minSize = some t₀ →
      ∀ calls rs t, ihtRun (ihtOps key target) key fuel t₀ calls = some (rs, t) →
      ∀ m, PeakUpTo (ihtStep (ihtOps key target) key fuel) Iht.elsNum m t₀ calls →
        ihtSize t ≤ max (ihtSize t₀) (4 * m)) ∧
    ∀ fuel minSize t₀,
      ixhtCreate IXHT_MAX_BIN_SIZE_POWER (ixhtOps key target) fuel minSize = some t₀ →
      ∀ calls rs t,
        ixhtRun IXHT_MAX_BIN_SIZE_POWER (ixhtOps key target) key fuel t₀ calls = some (rs, t) →
      ∀ m, PeakUpTo (ixhtStep IXHT_MAX_BIN_SIZE_POWER (ixhtOps key target) key fuel) Ixht.elsNum m t₀
          calls →
        (∀ e₀ ∈ t₀.bins, ∀ e ∈ t.bins, e.bin.elsSize ≤ max e₀.bin.elsSize (2 * m)) ∧
        (m < 2 ^ 14 → SameShape t₀ t ∧
          ∀ e, ixhtSplits IXHT_MAX_BIN_SIZE_POWER t e = false) := by
  constructor
  · intro fuel minSize t₀ hcreate calls rs t hrun m hpeak
    have hfour : 4 ≤ ihtSize t₀ := by
      obtain ⟨size, hsize, rfl⟩ := Option.map_eq_some_iff.mp hcreate
      obtain ⟨k, hk, rfl⟩ := ihtCreate_size hsize
      have hpos : 0 < 2 ^ k := Nat.two_pow_pos k
      have hle := two_pow_le_60 hk
      have hgroups := ihtAllocBin_numGroups (ihtOps key target) k
      have hsmall : 8 * (ihtAllocBin (ihtOps key target) (8 * 2 ^ k)).numGroups < 2 ^ 64 := by omega
      simp only [ihtSize, LF_FACTOR, LF_DIVISOR]
      rw [Hbin.indexesSize_eq hsmall]
      omega
    refine runCalls_invariant (fun t => ihtSize t ≤ max (ihtSize t₀) (4 * m)) (fun t => t.elsNum ≤ m)
      (fun s c r s' hs hnum hstep => ?_) (Nat.le_max_left _ _) hrun hpeak
    have hsize := ihtStep_size (groupOps_keepsSize _ _ _) hstep
    omega
  · intro fuel minSize t₀ hcreate calls rs t hrun m hpeak
    constructor
    · intro e₀ he₀
      obtain ⟨j, k, -, hk, -, -, -, hsize, rfl⟩ := ixhtCreate_cases hcreate
      have heq : ∀ i, ({ ixhtCreateBin (ixhtOps key target) (2 ^ k) with
          depth := j, mask := i } : Ebin El (List Group)).bin.elsSize = 2 ^ k := fun _ => hsize
      have h8 : 2 ^ 3 ≤ 2 ^ k := Nat.pow_le_pow_right (by decide) hk
      obtain ⟨i₀, -, rfl⟩ := List.mem_map.mp he₀
      rw [heq]
      refine runCalls_invariant (fun t => t.BinsUpTo (max (2 ^ k) (2 * m)))
        (fun t : Ixht El (List Group) => t.elsNum ≤ m) (fun s c r s' hs hnum hstep => ?_) ?_ hrun hpeak
      · exact hs.step (groupOps_keepsSize _ _ _) (by omega) (by omega) hstep
      · intro e he
        obtain ⟨i, -, rfl⟩ := List.mem_map.mp he
        rw [heq]
        exact Nat.le_max_left _ _
    · intro hm
      refine ⟨?_, fun e => ?_⟩
      · refine runCalls_invariant (SameShape t₀) (fun t => t.elsNum ≤ m)
          (fun s c r s' hs hnum hstep => ?_) ⟨rfl, rfl, rfl⟩ hrun hpeak
        have hnum' : 2 * s.elsNum < 2 ^ IXHT_MAX_BIN_SIZE_POWER := by
          rw [IXHT_MAX_BIN_SIZE_POWER]
          omega
        have hshape := ixhtStep_shape hnum' hstep
        exact ⟨hshape.bins.trans hs.bins, hshape.dir.trans hs.dir,
          hshape.maxDepth.trans hs.maxDepth⟩
      · have hnum : t.elsNum ≤ m := hpeak calls (rs, t) (List.prefix_refl _) hrun
        refine ixhtSplits_eq_false ?_ e
        rw [IXHT_MAX_BIN_SIZE_POWER]
        omega

theorem peakUpTo_of_take {τ ρ : Type} {step : τ → Call El → Option (ρ × τ)} {elsNum : τ → Nat}
    {m : Nat} {t : τ} {calls : List (Call El)}
    (h : ∀ n ≤ calls.length, (runCalls step t (calls.take n)).all fun s => elsNum s.2 ≤ m) :
    PeakUpTo step elsNum m t calls := by
  intro pre s hpre hs
  have hall := h pre.length hpre.length_le
  rw [← List.prefix_iff_eq_take.mp hpre, hs] at hall
  simpa using hall

/-- Calls that rebuild both of the tables for four twice, with at most nine elements at a
    time. -/
theorem tables_not_inflated_churn :
    (∃ rs t, ihtRun (ihtOps identityKey .swar) identityKey 16 (sampleTable (ihtOps identityKey .swar))
        sampleCalls = some (rs, t) ∧ ihtSize t = 16 ∧ ihtSize t ≤ max 4 (4 * 9)) ∧
    ∃ rs t, ixhtRun IXHT_MAX_BIN_SIZE_POWER (ixhtOps identityKey .swar) identityKey 16
        (sampleIxht (ixhtOps identityKey .swar)) sampleCalls = some (rs, t) ∧
      (∀ e ∈ t.bins, e.bin.elsSize ≤ max 8 (2 * 9)) ∧
      SameShape (sampleIxht (ixhtOps identityKey .swar)) t ∧
      ∀ e, ixhtSplits IXHT_MAX_BIN_SIZE_POWER t e = false := by
  obtain ⟨hiht, hixht⟩ := tables_not_inflated identityKey .swar
  constructor
  · have hsize : (ihtRun (ihtOps identityKey .swar) identityKey 16 (sampleTable (ihtOps identityKey
        .swar)) sampleCalls).map (fun s => ihtSize s.2) = some 16 := by decide +kernel
    obtain ⟨⟨rs, t⟩, hrun, hsixteen⟩ := Option.map_eq_some_iff.mp hsize
    exact ⟨rs, t, hrun, hsixteen, hiht 16 4 _ rfl sampleCalls rs t hrun 9
      (peakUpTo_of_take (by decide +kernel))⟩
  · obtain ⟨⟨rs, t⟩, hrun⟩ := Option.isSome_iff_exists.mp (show (ixhtRun IXHT_MAX_BIN_SIZE_POWER
      (ixhtOps identityKey .swar) identityKey 16 (sampleIxht (ixhtOps identityKey .swar))
      sampleCalls).isSome by decide +kernel)
    obtain ⟨hsizes, hshape⟩ := hixht 16 4 _ rfl sampleCalls rs t hrun 9
      (peakUpTo_of_take (by decide +kernel))
    exact ⟨rs, t, hrun, hsizes _ (List.mem_singleton_self _), hshape (by decide)⟩

end IndexedHash
