import Mathlib.Tactic.Common
import IndexedHash.Probeable
import IndexedHash.SplitElements

/-!
# The bins of `ixhtab.h` in every reachable state

`IxProbeable` is what holds of a table whatever calls have been made on it: its bins can
be probed and read from the front, and its directory leads to bins.  It does not say
that a search finds what it should, and it needs no bound on `els_num`: where a bin
overflows, the caller's write is outside the array and there is no next state.

Calls, rebuilds and splits are all made of `ixht_do_1` with the write after it, so one
lemma about these (`Effect.written`) carries the invariant through all of them.
-/

namespace IndexedHash

open Loop Probing

variable {El : Type} {key : Key El} {target : Target} {maxPower : Nat}

structure EbinProbeable (maxPower : Nat) (e : Ebin El (List Group)) : Prop where
  bin : Probeable ixhtWidths e.bin
  start : e.elsStart = 0
  two : 2 ≤ e.bin.numGroups
  small : e.bin.elsSize < 2 ^ maxPower

structure IxProbeable (maxPower : Nat) (t : Ixht El (List Group)) : Prop where
  bins : ∀ e ∈ t.bins, EbinProbeable maxPower e ∧ e.depth ≤ t.maxDepth
  length : t.dir.length = 2 ^ t.maxDepth
  mask : t.binMask = 2 ^ t.maxDepth - 1
  entries : ∀ b ∈ t.dir, b < t.bins.length

inductive IxhtReachable (maxPower : Nat) (ops : BinOps El (List Group)) (key : Key El) :
    Ixht El (List Group) → Prop where
  | create {fuel minSize t} : ixhtCreate maxPower ops fuel minSize = some t →
      IxhtReachable maxPower ops key t
  | call {fuel t c r t'} : IxhtReachable maxPower ops key t →
      ixhtStep maxPower ops key fuel t c = some (r, t') → IxhtReachable maxPower ops key t'

theorem ixhtOps_mono (key : Key El) (target : Target) : (ixhtOps key target).Mono :=
  groupDo1_mono ixhtWidths target.ops key.eq

/-! ## Bins without elements -/

theorem EbinProbeable.numGroups_lt (hpower : PowerOk maxPower) {e : Ebin El (List Group)}
    (h : EbinProbeable maxPower e) : e.bin.numGroups < 2 ^ 13 := by
  have hle : 2 ^ maxPower ≤ 2 ^ 15 := Nat.pow_le_pow_right (by decide) hpower.le
  have hsmall := h.small
  rw [Hbin.elsSize] at hsmall
  omega

theorem Sized.probeable {n k : Nat} {b : Hbin El (List Group)} (h : Sized n b) (hn : n = 2 ^ k)
    (hsmall : 8 * n < 2 ^ 32) (hbound : b.elsBound = 0) (hslots : SlotsOk b.groups n 0 []) :
    Probeable ixhtWidths b := by
  have hsize : b.elsSize = 4 * n := by rw [Hbin.elsSize, h.groups]
  refine Probeable.of_empty (h.groups.trans hn) (hn ▸ hsmall) hbound ?_ ?_ ?_
  · rw [hsize, h.els]
  · rw [hsize, h.bytes]
  · rw [h.groups]
    exact hslots

/-- A created bin. -/
theorem ixhtCreateBin_probeable (key : Key El) (target : Target) {n k : Nat} (hn : n = 2 ^ k)
    (htwo : 2 ≤ n) (hsmall : 8 * n < 2 ^ 32) :
    Probeable ixhtWidths (ixhtCreateBin (ixhtOps key target) (4 * n)).bin := by
  refine (ixhtCreateBin_sized _ htwo hsmall).probeable hn hsmall rfl ?_
  have hge : ¬ 4 * n < GROUP_SIZE := by
    simp only [GROUP_SIZE]
    omega
  have hgroups : 2 * (4 * n) % 2 ^ 32 / GROUP_SIZE = n := by
    simp only [GROUP_SIZE]
    omega
  simp only [ixhtCreateBin, if_neg hge, hgroups]
  exact slotsOk_alloc n

theorem EbinProbeable.created (key : Key El) (target : Target) (hpower : PowerOk maxPower)
    {k : Nat} (hk : 1 ≤ k) (hsmall : 4 * 2 ^ k < 2 ^ maxPower) (depth mask : Nat) :
    EbinProbeable maxPower
      { ixhtCreateBin (ixhtOps key target) (4 * 2 ^ k) with depth := depth, mask := mask } := by
  have hlow : 2 ^ 1 ≤ 2 ^ k := Nat.pow_le_pow_right (by decide) hk
  have hle : 2 ^ maxPower ≤ 2 ^ 15 := Nat.pow_le_pow_right (by decide) hpower.le
  have hsized := ixhtCreateBin_sized (ixhtOps key target) (n := 2 ^ k) (by omega) (by omega)
  refine ⟨ixhtCreateBin_probeable key target rfl (by omega) (by omega), rfl, ?_, ?_⟩
  · show 2 ≤ Hbin.numGroups _
    rw [hsized.groups]
    omega
  · show Hbin.elsSize _ < _
    rw [Hbin.elsSize, hsized.groups]
    exact hsmall

theorem ixhtCreate_probeable (hpower : PowerOk maxPower) {fuel minSize : Nat}
    {t : Ixht El (List Group)}
    (h : ixhtCreate maxPower (ixhtOps key target) fuel minSize = some t) :
    IxProbeable maxPower t := by
  have hge := hpower.ge
  have hle := hpower.le
  obtain ⟨s, j, hs31, hj, hj16, -, -, rfl⟩ := ixhtCreate_params hpower h
  have hsmall : 4 * 2 ^ max 1 (s - j - 2) < 2 ^ maxPower := by
    have hpow : 2 ^ (2 + max 1 (s - j - 2)) < 2 ^ maxPower :=
      Nat.pow_lt_pow_right (by decide) (by omega)
    rw [Nat.pow_add] at hpow
    omega
  refine ⟨?_, ?_, ?_, ?_⟩
  · intro e he
    obtain ⟨i, -, rfl⟩ := List.mem_map.mp he
    simp only [ixhtOfParams, hj16, ixhtCreateBin_pow]
    exact ⟨EbinProbeable.created key target hpower (by omega) hsmall j i, Nat.le_refl j⟩
  · simp only [ixhtOfParams, List.length_range, hj16]
  · simp only [ixhtOfParams, hj16]
  · intro i hi
    simp only [ixhtOfParams, List.length_map, List.length_range]
    exact List.mem_range.mp hi

/-! ## Rebuilding and splitting -/

section Distribute

variable {fuel : Nat}

/-- A reinsertion keeps a bin as it should be, and of the size it is. -/
theorem reinsert_keeps {b : Hbin El (List Group)} (h : Probeable ixhtWidths b) {n : Nat}
    {hash : BitVec 64} {x : El} {s : Nat × Hbin El (List Group)}
    (hs : reinsert (ixhtOps key target) fuel n b hash x = some s) :
    Probeable ixhtWidths s.2 ∧ s.2.groupsMask = b.groupsMask := by
  obtain ⟨r, he, hb', -⟩ := h.reinsert_effect target.lawful hs
  obtain ⟨hprobe, hmask, -⟩ := he.written h hb'
  exact ⟨hprobe, hmask⟩

structure HalvesProbeable (n m : Nat) (h : Halves El (List Group)) : Prop where
  bin : Probeable ixhtWidths h.bin
  newBin : Probeable ixhtWidths h.newBin
  binMask : h.bin.groupsMask = n
  newMask : h.newBin.groupsMask = m

theorem HalvesProbeable.distribute {n m mask i : Nat} {s s' : Halves El (List Group)}
    (h : HalvesProbeable n m s)
    (hs : ixhtDistribute (ixhtOps key target) key fuel mask s i = some s') :
    HalvesProbeable n m s' := by
  obtain ⟨del, -, hs⟩ := Option.bind_eq_some_iff.mp hs
  split at hs
  · exact Option.some.inj hs ▸ h
  obtain ⟨x, -, hs⟩ := Option.bind_eq_some_iff.mp hs
  dsimp only at hs
  split at hs
  · obtain ⟨r, hr, rfl⟩ := Option.map_eq_some_iff.mp hs
    obtain ⟨hprobe, hmask⟩ := reinsert_keeps h.bin hr
    exact ⟨hprobe, h.newBin, hmask.trans h.binMask, h.newMask⟩
  · obtain ⟨r, hr, rfl⟩ := Option.map_eq_some_iff.mp hs
    obtain ⟨hprobe, hmask⟩ := reinsert_keeps h.newBin hr
    exact ⟨h.bin, hprobe, h.binMask, hmask.trans h.newMask⟩

/-- The bin that a pass empties before it reads it. -/
theorem Probeable.emptied {b : Hbin El (List Group)} (h : Probeable ixhtWidths b)
    {groups : List Group} (hgroups : (ixhtOps key target).clear b.numGroups b.groups = some groups) :
    Probeable ixhtWidths (b.emptied groups) := by
  obtain ⟨k, -, hk⟩ := h.pow2
  have hsized : Sized b.numGroups (b.emptied groups) := ⟨rfl, h.els_length, h.deleted_length⟩
  obtain ⟨groups', hclear, hslots⟩ := groupOps_clear ixhtWidths target.ops key.eq h.groups_length
  obtain rfl : groups' = groups := Option.some.inj (hclear.symm.trans hgroups)
  exact hsized.probeable hk h.small rfl hslots

end Distribute

section Table

variable {t t' : Ixht El (List Group)} {fuel : Nat}

/-- Writing a bin. -/
theorem IxProbeable.set (h : IxProbeable maxPower t) {e : Ebin El (List Group)}
    (he : EbinProbeable maxPower e) (hdepth : e.depth ≤ t.maxDepth) (i n : Nat) :
    IxProbeable maxPower { t with elsNum := n, bins := t.bins.set i e } := by
  refine ⟨fun f hf => ?_, h.length, h.mask, fun b hb => ?_⟩
  · rcases List.mem_or_eq_of_mem_set hf with hf | rfl
    · exact h.bins f hf
    · exact ⟨he, hdepth⟩
  · rw [List.length_set]
    exact h.entries b hb

/-- The directory after a pass of the split has entered a bin at depth `d + 1`. -/
theorem IxProbeable.directory (h : IxProbeable maxPower t) {d mask ind : Nat} (hd : d ≤ t.maxDepth)
    (hind : ind < t.bins.length)
    (hdir : ((t.deepen (d + 1)).bind fun t => t.redirect mask ind) = some t') :
    IxProbeable maxPower t' ∧ t'.bins = t.bins ∧ d + 1 ≤ t'.maxDepth := by
  obtain ⟨t₁, hdeepen, hredirect⟩ := Option.bind_eq_some_iff.mp hdir
  have hbins := Ixht.deepen_bins hdeepen
  have h₁ : IxProbeable maxPower t₁ ∧ d + 1 ≤ t₁.maxDepth := by
    unfold Ixht.deepen at hdeepen
    split at hdeepen
    · next hlt =>
        split at hdeepen
        · obtain rfl := Option.some.inj hdeepen
          have hmax : t.maxDepth = d := by omega
          refine ⟨⟨fun e he => ?_, ?_, rfl, fun b hb => ?_⟩, Nat.le_refl _⟩
          · exact ⟨(h.bins e he).1, Nat.le_of_lt (Nat.lt_of_le_of_lt (h.bins e he).2 hlt)⟩
          · rw [List.length_append, h.length, hmax, Nat.pow_succ]
            omega
          · rcases List.mem_append.mp hb with hb | hb
            · exact h.entries b hb
            · exact h.entries b hb
        · cases hdeepen
    · next hge =>
        obtain rfl := Option.some.inj hdeepen
        exact ⟨h, by omega⟩
  obtain ⟨h₁, hdepth⟩ := h₁
  unfold Ixht.redirect at hredirect
  split at hredirect
  · obtain rfl := Option.some.inj hredirect
    refine ⟨⟨h₁.bins, ?_, h₁.mask, fun b hb => ?_⟩, hbins, hdepth⟩
    · rw [List.length_set]
      exact h₁.length
    · rcases List.mem_or_eq_of_mem_set hb with hb | rfl
      · exact h₁.entries b hb
      · rw [hbins]
        exact hind
  · cases hredirect

theorem IxProbeable.pass {s s' : Splitting El (List Group)} {bin newBin : Ebin El (List Group)}
    {h : Halves El (List Group)} (hs : IxProbeable maxPower s.table)
    (htaken : PassTaken (ixhtOps key target) key fuel s s' bin newBin t h) :
    IxProbeable maxPower s'.table := by
  obtain ⟨hnew, -⟩ := List.getElem?_eq_some_iff.mp htaken.at_new
  obtain ⟨hbinOk, hdepth⟩ := hs.bins bin (List.mem_of_getElem? htaken.at_bin)
  obtain ⟨hnewOk, -⟩ := hs.bins newBin (List.mem_of_getElem? htaken.at_new)
  obtain ⟨ht, hbins, hdeep⟩ := hs.directory hdepth hnew htaken.directory
  obtain ⟨groups, hgroups, hloop⟩ := htaken.halves
  have hhalves := foldlM_invariant
    (fun h => HalvesProbeable bin.bin.groupsMask newBin.bin.groupsMask h)
    (fun _ _ _ hI hstep => hI.distribute hstep)
    ⟨hbinOk.bin.emptied hgroups, hnewOk.bin, rfl, rfl⟩ hloop
  rw [htaken.table]
  refine (ht.set (e := { bin with depth := bin.depth + 1, elsStart := 0, bin := h.bin }) ?_ hdeep
    s.binInd t.elsNum).set (e := { newBin with
      depth := bin.depth + 1, mask := bin.mask ||| 2 ^ bin.depth, bin := h.newBin }) ?_ hdeep s.newInd _
  · refine ⟨hhalves.bin, rfl, ?_, ?_⟩
    · rw [Hbin.numGroups, hhalves.binMask]
      exact hbinOk.two
    · rw [Hbin.elsSize, Hbin.numGroups, hhalves.binMask]
      exact hbinOk.small
  · refine ⟨hhalves.newBin, hnewOk.start, ?_, ?_⟩
    · rw [Hbin.numGroups, hhalves.newMask]
      exact hnewOk.two
    · rw [Hbin.elsSize, Hbin.numGroups, hhalves.newMask]
      exact hnewOk.small

theorem EbinProbeable.resetDeleted {e e' : Ebin El (List Group)} (h : EbinProbeable maxPower e)
    (he : e.resetDeleted = some e') : EbinProbeable maxPower e' ∧ e'.depth = e.depth := by
  unfold Ebin.resetDeleted at he
  dsimp only at he
  split at he
  · next hle =>
      obtain rfl := Option.some.inj he
      refine ⟨⟨?_, h.start, h.two, h.small⟩, rfl⟩
      have hb := h.bin
      refine ⟨hb.pow2, hb.small, hb.groups_length, hb.els_length, ?_, hb.valid, hb.used, hb.stored,
        hb.initialised⟩
      rw [List.length_append, Bitmap.length_zeros, List.length_drop, Nat.add_sub_cancel' hle]
      exact hb.deleted_length
  · cases he

theorem IxProbeable.split (hpower : PowerOk maxPower) (h : IxProbeable maxPower t) {b : Nat}
    (hsplit : ixhtSplitBin (ixhtOps key target) key fuel t b = some t') :
    IxProbeable maxPower t' := by
  obtain ⟨e, he, hsplit⟩ := Option.bind_eq_some_iff.mp hsplit
  obtain ⟨s, hloop, hfinish⟩ := Option.bind_eq_some_iff.mp hsplit
  obtain ⟨hok, -⟩ := h.bins e (List.mem_of_getElem? he)
  have hlt := hok.numGroups_lt hpower
  have hhalf : e.bin.halfIndexes = 4 * e.bin.numGroups := by
    rw [Hbin.halfIndexes, Hbin.indexesSize_eq hok.bin.small]
    omega
  obtain ⟨k, -, hk⟩ := hok.bin.pow2
  have hk1 : 1 ≤ k := by
    have htwo := hok.two
    by_contra hzero
    rw [hk, show k = 0 by omega] at htwo
    omega
  have hnew := EbinProbeable.created key target hpower hk1 (by rw [← hk]; exact hok.small) 0 0
  have hs : IxProbeable maxPower s.table := by
    refine splitLoop_invariant (fun s => IxProbeable maxPower s.table)
      (fun _ _ _ _ _ _ hs htaken => hs.pass htaken) ?_ hloop
    rw [hhalf, hk]
    refine ⟨fun f hf => ?_, h.length, h.mask, fun i hi => ?_⟩
    · rcases List.mem_append.mp hf with hf | hf
      · exact h.bins f hf
      · rw [List.mem_singleton.mp hf]
        exact ⟨hnew, Nat.zero_le _⟩
    · rw [List.length_append]
      exact Nat.lt_add_right _ (h.entries i hi)
  obtain ⟨ob, hob, hfinish⟩ := Option.bind_eq_some_iff.mp hfinish
  obtain ⟨ob', hob', hfinish⟩ := Option.bind_eq_some_iff.mp hfinish
  obtain ⟨nb, hnb, hfinish⟩ := Option.bind_eq_some_iff.mp hfinish
  obtain ⟨nb', hnb', rfl⟩ := Option.map_eq_some_iff.mp hfinish
  obtain ⟨hobOk, hobDepth⟩ := hs.bins ob (List.mem_of_getElem? hob)
  obtain ⟨hnbOk, hnbDepth⟩ := hs.bins nb (List.mem_of_getElem? hnb)
  obtain ⟨hob'Ok, hob'Depth⟩ := hobOk.resetDeleted hob'
  obtain ⟨hnb'Ok, hnb'Depth⟩ := hnbOk.resetDeleted hnb'
  have hset := hs.set hob'Ok (hob'Depth ▸ hobDepth) s.binInd s.table.elsNum
  exact hset.set hnb'Ok (hnb'Depth ▸ hnbDepth) s.newInd _

theorem EbinProbeable.rebuilt (hpower : PowerOk maxPower) {e e' : Ebin El (List Group)} {n k : Nat}
    (hn : n = 2 ^ k) (htwo : 2 ≤ n) (hsmall : 4 * n < 2 ^ maxPower)
    (he : ixhtRebuildBin (ixhtOps key target) key fuel e (8 * n) (4 * n) = some e') :
    EbinProbeable maxPower e' ∧ e'.depth = e.depth := by
  have hle : 2 ^ maxPower ≤ 2 ^ 15 := Nat.pow_le_pow_right (by decide) hpower.le
  obtain ⟨⟨m, b⟩, hloop, rfl⟩ := Option.map_eq_some_iff.mp he
  have hsized := ixhtRealloc_sized (ixhtOps key target) e.bin (show 0 < n by omega)
  have hfresh : Probeable ixhtWidths (ixhtRealloc (ixhtOps key target) e.bin (8 * n) (4 * n)) := by
    refine hsized.probeable hn (by omega) rfl ?_
    simp only [ixhtRealloc, GROUP_SIZE, show 8 * n / 8 = n by omega]
    exact slotsOk_regrow n _
  obtain ⟨hb, hmask⟩ := foldlM_invariant (fun s => Probeable ixhtWidths s.2 ∧
      s.2.groupsMask = (ixhtRealloc (ixhtOps key target) e.bin (8 * n) (4 * n)).groupsMask)
    (fun s i s' hs hstep => by
      obtain ⟨del, -, hstep⟩ := Option.bind_eq_some_iff.mp hstep
      split at hstep
      · exact Option.some.inj hstep ▸ hs
      · obtain ⟨x, -, hstep⟩ := Option.bind_eq_some_iff.mp hstep
        obtain ⟨hprobe, hmask⟩ := reinsert_keeps hs.1 hstep
        exact ⟨hprobe, hmask.trans hs.2⟩) ⟨hfresh, rfl⟩ hloop
  have hgroups : b.numGroups = n := by
    rw [Hbin.numGroups, hmask]
    exact hsized.groups
  refine ⟨⟨hb, rfl, ?_, ?_⟩, rfl⟩
  · rw [hgroups]
    exact htwo
  · rw [Hbin.elsSize, hgroups]
    exact hsmall

theorem IxProbeable.prepare (hpower : PowerOk maxPower) (h : IxProbeable maxPower t)
    {hash : BitVec 64} {action : Action} {i : Nat}
    (hp : ixhtPrepare maxPower (ixhtOps key target) key fuel t hash action = some (t', i)) :
    IxProbeable maxPower t' := by
  obtain ⟨b, e, -, he, hcase⟩ := ixhtPrepare_cases hp
  obtain ⟨hok, hdepth⟩ := h.bins e (List.mem_of_getElem? he)
  cases hcase with
  | asIs _ => exact h
  | split _ _ _ hsplit _ => exact h.split hpower hsplit
  | @rebuild e' _ _ hsplits he' =>
    obtain ⟨k, -, hk⟩ := hok.bin.pow2
    have hlt := hok.numGroups_lt hpower
    have htwo := hok.two
    have hsmall := hok.small
    rw [Hbin.elsSize] at hsmall
    have hindexes := Hbin.indexesSize_eq hok.bin.small
    have hhalf : e.bin.halfIndexes = 4 * e.bin.numGroups := by
      rw [Hbin.halfIndexes, hindexes]
      omega
    rw [hindexes, hhalf] at he'
    obtain ⟨hok', hdepth'⟩ : EbinProbeable maxPower e' ∧ e'.depth = e.depth := by
      unfold ixhtFactor at he'
      split at he'
      · next hgrow =>
          simp only [ixhtSplits, hgrow, Bool.true_and, decide_eq_false_iff_not, hhalf] at hsplits
          rw [show 8 * e.bin.numGroups * 2 % 2 ^ 32 = 8 * (2 * e.bin.numGroups) by omega,
            show 4 * e.bin.numGroups * 2 % 2 ^ 32 = 4 * (2 * e.bin.numGroups) by omega] at he'
          refine EbinProbeable.rebuilt hpower (k := k + 1) ?_ (by omega) (by omega) he'
          rw [hk, Nat.pow_succ]
          omega
      · rw [show 8 * e.bin.numGroups * 1 % 2 ^ 32 = 8 * e.bin.numGroups by omega,
          show 4 * e.bin.numGroups * 1 % 2 ^ 32 = 4 * e.bin.numGroups by omega] at he'
        exact EbinProbeable.rebuilt hpower hk htwo hsmall he'
    exact h.set hok' (hdepth' ▸ hdepth) i _

/-! ## Calls -/

theorem IxProbeable.step (hpower : PowerOk maxPower) (h : IxProbeable maxPower t) {c : Call El}
    {r : Reply (Nat × Nat) El}
    (hstep : ixhtStep maxPower (ixhtOps key target) key fuel t c = some (r, t')) :
    IxProbeable maxPower t' := by
  obtain ⟨p, i, e, o, bin, hp, he, hdo, hbin, rfl, -⟩ := ixhtStep_cases hstep
  have hprep := h.prepare hpower hp
  obtain ⟨hok, hdepth⟩ := hprep.bins e (List.mem_of_getElem? he)
  obtain ⟨hprobe, hmask, -⟩ := (hok.bin.do1_effect target.lawful hdo).written hok.bin hbin
  refine hprep.set (e := { e with bin := bin }) ⟨hprobe, hok.start, ?_, ?_⟩ hdepth i _
  · rw [Hbin.numGroups, hmask]
    exact hok.two
  · rw [Hbin.elsSize, Hbin.numGroups, hmask]
    exact hok.small

theorem IxhtReachable.probeable (hpower : PowerOk maxPower)
    (h : IxhtReachable maxPower (ixhtOps key target) key t) : IxProbeable maxPower t := by
  induction h with
  | create hcreate => exact ixhtCreate_probeable hpower hcreate
  | call _ hstep ih => exact ih.step hpower hstep

theorem IxhtReachable.run {ops : BinOps El (List Group)} (h : IxhtReachable maxPower ops key t)
    {calls : List (Call El)} {rs : List (Reply (Nat × Nat) El)}
    (hrun : ixhtRun maxPower ops key fuel t calls = some (rs, t')) : IxhtReachable maxPower ops key t' := by
  refine runCalls_invariant (IxhtReachable maxPower ops key) (fun _ => True) ?_ h hrun
    (fun _ _ _ _ => trivial)
  intro t c r t' hreach _ hstep
  exact hreach.call hstep

end Table

end IndexedHash
