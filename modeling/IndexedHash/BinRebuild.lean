import Mathlib.Tactic.Common
import IndexedHash.SplitReturns

/-!
# Rebuilding a bin

An INSERT into a bin whose positions are all used rebuilds the bin in place, unless it
splits it.  The loop of the rebuild reads `els[i]`, passes it to `ixht_do_1` by
reference and stores it at `els[els_bound]` of the same array.  It loses nothing, since
`ixht_do_1` does not write to `els` and the write cursor is never ahead of the read
cursor (`ixht_rebuild_in_place`).

Whether the bin has room afterwards is decided by `2 * els_num >= indexes_size`, in
32 bits.  `ixht_insert_room_iff` says for which tables an INSERT finds room.  From
`2 ^ 31` elements on the product wraps, and a bin full of live elements may be rebuilt
at its old capacity (`ixht_insert_overflows`).
-/

namespace IndexedHash

open Loop KeyedList

variable {El G : Type} {key : Key El}

/-! ## The rebuild -/

structure Rebuilt (key : Key El) (e e' : Ebin El (List Group)) : Prop where
  rep : EbinRep key e'
  els : e'.bin.els.take e'.bin.elsBound = e.bin.live.map some
  bound : e'.bin.elsBound = e.bin.live.length
  clear : ∀ i, e'.bin.deleted.test i = false
  live : e'.bin.live = e.bin.live
  depth : e'.depth = e.depth
  mask : e'.mask = e.mask

section Rebuild

variable {maxPower b : Nat} {t : Ixht El (List Group)} {e : Ebin El (List Group)}

theorem EbinRep.rebuild (hkey : key.Lawful) (target : Target) (h : EbinRep key e) {j : Nat}
    (hj : j ≤ 14) (hle : e.bin.numGroups ≤ 2 ^ j) :
    ∃ e', Returns (fun fuel => ixhtRebuildBin (ixhtOps key target) key fuel e (8 * 2 ^ j) (4 * 2 ^ j))
        e' ∧ Rebuilt key e e' ∧ e'.bin.numGroups = 2 ^ j := by
  have hlaw := ixhtOps_lawful hkey target
  have hok := h.ideal
  have hpow : 2 ^ j ≤ 2 ^ 14 := Nat.pow_le_pow_right (by decide) hj
  have hone : 1 ≤ j := by
    by_contra hzero
    have htwo : 2 ≤ e.bin.numGroups := hok.numGroups_le.1
    rw [show j = 0 by omega] at hle
    omega
  have hideal : EbinSim SlotsOk e (idealEbin key e) := ⟨rfl, rfl, rfl, h.bin.sim⟩
  obtain ⟨a, ha, hhalf⟩ := rebuildBin_ideal hkey hok hle ⟨j, by omega, rfl⟩
  obtain ⟨e', he', hsim⟩ := Returns.of_rel (ixhtRebuildBin_mono hlaw.mono e (8 * 2 ^ j) (4 * 2 ^ j))
    (fun fuel (hfuel : fuel ≥ 2 ^ j) =>
      rebuildBin_sim hlaw hkey hideal hok hle ⟨j, by omega, rfl⟩ (by omega) hfuel)
    ⟨0, fun fuel _ => ha fuel⟩
  have hlive : e'.bin.live = e.bin.live := hsim.bin.live.symm.trans hhalf.live
  have hclear : ∀ i, e'.bin.deleted.test i = false := by
    intro i
    rw [← hsim.bin.deleted]
    exact hhalf.clear i
  have hrep := EbinRep.of_half hsim hhalf hone hj
  refine ⟨e', he', ⟨hrep, ?_, ?_, hclear, hlive, ?_, ?_⟩, ?_⟩
  · rw [Hbin.take_els hclear fun i hi => hrep.bin.initialised i ⟨hi, hclear i⟩, hlive]
  · rw [← hsim.bin.elsBound]
    exact hhalf.bound
  · exact hsim.depth.trans hhalf.depth
  · exact hsim.mask.trans hhalf.mask
  · rw [← hsim.bin.numGroups]
    exact hhalf.groups

theorem EbinRep.sizes (h : EbinRep key e) :
    e.bin.halfIndexes = e.bin.elsSize ∧ e.bin.indexesSize ixhtWidths = 2 * e.bin.elsSize := by
  refine ⟨h.ideal.halfIndexes (by decide), ?_⟩
  have hindexes : e.bin.indexesSize ixhtWidths = 8 * e.bin.numGroups :=
    h.ideal.indexesSize (by decide)
  rw [hindexes, Hbin.elsSize]
  omega

theorem EbinRep.full_iff (h : EbinRep key e) : ixhtFull e = true ↔ e.bin.elsBound = e.bin.elsSize := by
  rw [ixhtFull, decide_eq_true_eq, h.sizes.1]

/-- The rebuild branch of `ixht_perform`. -/
theorem EbinRep.prepare_rebuild (hkey : key.Lawful) (hmax : maxPower ≤ 15) (target : Target)
    (h : EbinRep key e) {hash : BitVec 64} (hbin : t.binOf hash = some b) (hb : t.bins[b]? = some e)
    (hfull : ixhtFull e = true) (hsplits : ixhtSplits maxPower t e = false) :
    ∃ e', Returns (fun fuel => ixhtPrepare maxPower (ixhtOps key target) key fuel t hash .insert)
        ({ t with bins := t.bins.set b e' }, b) ∧
      Rebuilt key e e' ∧ e'.bin.elsSize = e.bin.elsSize * ixhtFactor t e := by
  obtain ⟨hhalf, hindexes⟩ := h.sizes
  obtain ⟨j, hone, hj, hn⟩ := h.ideal.size
  have hn : e.bin.numGroups = 2 ^ j := hn
  have hpow : 2 ^ j ≤ 2 ^ 14 := Nat.pow_le_pow_right (by decide) hj
  have hsize : e.bin.elsSize = 4 * 2 ^ j := by rw [Hbin.elsSize, hn]
  -- the number of groups after the growth test
  obtain ⟨k, hk, hle, hfactor⟩ : ∃ k ≤ 14, 2 ^ j ≤ 2 ^ k ∧ 2 ^ k = 2 ^ j * ixhtFactor t e := by
    by_cases hgrow : ixhtGrow t e = true
    · have hlim : 8 * 2 ^ j < 2 ^ maxPower := by
        simp only [ixhtSplits, hgrow, Bool.true_and, decide_eq_false_iff_not, hhalf, hsize] at hsplits
        omega
      have hlog : 2 ^ (j + 3) < 2 ^ maxPower := by
        rw [Nat.pow_add]
        omega
      have := (Nat.pow_lt_pow_iff_right (by decide)).mp hlog
      refine ⟨j + 1, by omega, Nat.pow_le_pow_right (by decide) (by omega), ?_⟩
      rw [ixhtFactor, if_pos hgrow, Nat.pow_succ]
    · refine ⟨j, hj, Nat.le_refl _, ?_⟩
      rw [ixhtFactor, if_neg hgrow, Nat.mul_one]
  have hpow' : 2 ^ k ≤ 2 ^ 14 := Nat.pow_le_pow_right (by decide) hk
  have hels : e.bin.elsSize * ixhtFactor t e = 4 * 2 ^ k := by rw [hsize, Nat.mul_assoc, ← hfactor]
  obtain ⟨e', he', hrebuilt, hgroups⟩ := h.rebuild hkey target hk (by rw [hn]; exact hle)
  refine ⟨e', ?_, hrebuilt, ?_⟩
  · have hsizes : e.bin.indexesSize ixhtWidths * ixhtFactor t e % 2 ^ 32 = 8 * 2 ^ k ∧
        e.bin.halfIndexes * ixhtFactor t e % 2 ^ 32 = 4 * 2 ^ k := by
      rw [hindexes, hhalf, Nat.mul_assoc 2, hels]
      omega
    have hprep : ∀ fuel, ixhtPrepare maxPower (ixhtOps key target) key fuel t hash .insert =
        (ixhtRebuildBin (ixhtOps key target) key fuel e (8 * 2 ^ k) (4 * 2 ^ k)).map fun e' =>
          ({ t with bins := t.bins.set b e' }, b) := by
      intro fuel
      rw [← hsizes.1, ← hsizes.2]
      simp only [ixhtPrepare, hbin, hb, Option.bind_some, hfull, hsplits, and_self, if_true,
        Bool.false_eq_true, if_false, ixhtFactor]
    simp only [hprep]
    exact Returns.map he' _
  · rw [hels, Hbin.elsSize, hgroups]

end Rebuild

/-- A bin that has grown has room. -/
theorem Rebuilt.room_of_grow {e e' : Ebin El (List Group)} {t : Ixht El (List Group)}
    (h : Rebuilt key e e') (hsize : e'.bin.elsSize = e.bin.elsSize * ixhtFactor t e)
    (hbound : e.bin.elsBound ≤ e.bin.elsSize) (hgrow : ixhtGrow t e = true) :
    e'.bin.elsBound < e'.bin.elsSize := by
  have hlive := e.bin.length_live_le
  have hcap : 0 < e.bin.elsSize := Nat.mul_pos (by decide) (Nat.succ_pos _)
  rw [h.bound, hsize, ixhtFactor, if_pos hgrow]
  omega

/-- The rebuild branch of `ixht_perform` moves the live elements of the bin to the
    front of its array, in their order, and changes nothing else of the table. -/
theorem ixht_rebuild_in_place (hkey : key.Lawful) {maxPower : Nat} (hmax : maxPower ≤ 15)
    (target : Target) :
    ∀ (t : Ixht El (List Group)) hash b e, t.binOf hash = some b → t.bins[b]? = some e →
      EbinRep key e → e.bin.elsBound = e.bin.elsSize → ixhtSplits maxPower t e = false →
      t.elsNum < 2 ^ 31 → e.bin.live.length ≤ t.elsNum →
      ∃ e', Returns (fun fuel => ixhtPrepare maxPower (ixhtOps key target) key fuel t hash .insert)
          ({ t with bins := t.bins.set b e' }, b) ∧
        Rebuilt key e e' ∧ e'.bin.elsBound < e'.bin.elsSize := by
  intro t hash b e hbin hb h hfull hsplits hnum hcount
  obtain ⟨e', he', hrebuilt, hsize⟩ := h.prepare_rebuild hkey hmax target hbin hb
    (h.full_iff.mpr hfull) hsplits
  refine ⟨e', he', hrebuilt, ?_⟩
  by_cases hgrow : ixhtGrow t e = true
  · exact hrebuilt.room_of_grow hsize (Nat.le_of_eq hfull) hgrow
  · -- the whole table counts fewer elements than the bin has positions
    have hfew : 2 * t.elsNum < 2 * e.bin.elsSize := by
      have hwrap : 2 * t.elsNum % 2 ^ 32 = 2 * t.elsNum := Nat.mod_eq_of_lt (by omega)
      rw [ixhtGrow, decide_eq_true_eq, h.sizes.2, hwrap] at hgrow
      omega
    rw [hrebuilt.bound, hsize, ixhtFactor, if_neg hgrow]
    omega

def gappedBin : IdealBin (BitVec 64) := (smallBin [1, 2, 3, 4, 5, 6, 7, 8]).drop ⟨2, 3⟩

theorem exists_gapped :
    ∃ t e, WellFormed identityKey t ∧ IxSim SlotsOk t (oneBin 7 gappedBin) ∧ t.bins[0]? = some e ∧
      EbinSim SlotsOk e ⟨0, 0, 0, gappedBin⟩ := by
  obtain ⟨t, e, hwf, -, hsim, hb, hee⟩ := exists_oneBin (n := 7) (plainCalls_ok identityKey_lawful
      ([1, 2, 3, 4, 5, 6, 7, 8].map (fun x => (Action.insert, x)) ++ [(Action.delete, 3)])) (by decide)
    (show ixhtRun _ _ _ 1 _ _ = some (_, oneBin 7 gappedBin) from rfl)
  exact ⟨t, e, hwf, hsim, hb, hee⟩

theorem ixht_rebuild_in_place_gapped :
    ∃ (t : Ixht (BitVec 64) (List Group)) (e e' : Ebin (BitVec 64) (List Group)),
      t.bins[0]? = some e ∧ e.bin.deleted.test 2 = true ∧
      Returns (fun fuel => ixhtPrepare IXHT_MAX_BIN_SIZE_POWER (ixhtOps identityKey .swar) identityKey
        fuel t 9 .insert) ({ t with bins := t.bins.set 0 e' }, 0) ∧
      e'.bin.els.take e'.bin.elsBound = [1, 2, 4, 5, 6, 7, 8].map some ∧
      e'.bin.elsBound < e'.bin.elsSize := by
  obtain ⟨t, e, hwf, hsim, hb, hee⟩ := exists_gapped
  have hlive : e.bin.live = [1, 2, 4, 5, 6, 7, 8] := hee.bin.live.symm
  have hnum : t.elsNum = 7 := hsim.elsNum
  have hrep := hwf.bins e (List.mem_of_getElem? hb)
  obtain ⟨e', he', hrebuilt, hroom⟩ := ixht_rebuild_in_place identityKey_lawful
    powerOk_source.le .swar t 9 0 e ((hsim.binOf _).trans rfl) hb hrep
    (hrep.full_iff.mp (hee.full.trans rfl)) ((hsim.splits hee).trans rfl) (by omega)
    (by rw [hlive, hnum]; decide)
  refine ⟨t, e, e', hb, ?_, he', ?_, hroom⟩
  · rw [← hee.bin.deleted]
    decide
  · rw [hrebuilt.els, hlive]

/-! ## Room for an INSERT -/

/-- An INSERT of a new element comes to its last line with room in the bin that it has
    chosen, and `ixht_do_1` gives it the position `els_bound`, which is inside `els`. -/
def RoomForInsert (maxPower : Nat) (key : Key El) (target : Target) (t : Ixht El (List Group))
    (el : El) : Prop :=
  ∃ p i f o,
    Returns (fun fuel => ixhtPrepare maxPower (ixhtOps key target) key fuel t (key.nonzero.hash el)
      .insert) (p, i) ∧
    p.bins[i]? = some f ∧ f.bin.elsBound < f.bin.elsSize ∧
    Returns (fun fuel => (ixhtOps key target).do1 fuel p.elsNum f.bin (key.nonzero.hash el) el
      .insert) o ∧
    o.found = false ∧ o.res = some f.bin.elsBound ∧ f.bin.elsBound < f.bin.els.length ∧
    o.bin.elsBound ≤ o.bin.elsSize

/-- A bin full of live elements that the growth test leaves at its capacity. -/
structure Overfull (t : Ixht El G) (e : Ebin El G) : Prop where
  full : ixhtFull e = true
  grow : ixhtGrow t e = false
  live : e.bin.live.length = e.bin.elsSize

section Room

variable {maxPower b : Nat} {target : Target} {t : Ixht El (List Group)} {e : Ebin El (List Group)}
  {el : El}

theorem EbinRep.roomForInsert (hkey : key.Lawful) {p : Ixht El (List Group)} {i : Nat}
    {f : Ebin El (List Group)} (h : EbinRep key f)
    (hprep : Returns (fun fuel => ixhtPrepare maxPower (ixhtOps key target) key fuel t
      (key.nonzero.hash el) .insert) (p, i)) (hf : p.bins[i]? = some f)
    (hroom : f.bin.elsBound < f.bin.elsSize) (habsent : ∀ x ∈ f.bin.live, key.eq x el = false) :
    RoomForInsert maxPower key target t el := by
  obtain ⟨o, ho, hnew⟩ := h.insert hkey target p.elsNum el
  obtain ⟨hfound, hres, hbound, hsize⟩ := hnew habsent
  refine ⟨p, i, f, o, hprep, hf, hroom, ho, hfound, hres, ?_, ?_⟩
  · rw [h.bin.els_length]
    exact hroom
  · rw [hbound, hsize]
    exact hroom

theorem RoomForInsert.split_returns (hkey : key.Lawful)
    (hbin : t.binOf (key.nonzero.hash el) = some b) (hb : t.bins[b]? = some e)
    (hfull : ixhtFull e = true) (hsplits : ixhtSplits maxPower t e = true)
    (h : RoomForInsert maxPower key target t el) :
    ∃ t', Returns (fun fuel => ixhtSplitBin (ixhtOps key target) key fuel t b) t' := by
  obtain ⟨p, i, -, -, hprep, -⟩ := h
  obtain ⟨fuel, hfuel⟩ := hprep.exists_some
  simp only [ixhtPrepare, hbin, hb, Option.bind_some, hfull, hsplits, if_true, and_self] at hfuel
  obtain ⟨t', ht', -⟩ := Option.bind_eq_some_iff.mp hfuel
  exact ⟨t', (ixhtSplitBin_mono (ixhtOps_lawful hkey target).mono t b).returns ht'⟩

theorem WellFormed.roomForInsert_iff (hkey : key.Lawful) (hmax : maxPower ≤ 15)
    (h : WellFormed key t) (habsent : ∀ x ∈ t.contents, key.eq x el = false)
    (hbin : t.binOf (key.nonzero.hash el) = some b) (hb : t.bins[b]? = some e) :
    RoomForInsert maxPower key target t el ↔
      ¬ Overfull t e ∧
        (ixhtFull e = true → ixhtSplits maxPower t e = true → Separable key e) := by
  have hmem := List.mem_of_getElem? hb
  have hrep := h.bins e hmem
  have hlt := (List.getElem?_eq_some_iff.mp hb).1
  have hnew : ∀ x ∈ e.bin.live, key.eq x el = false := fun x hx =>
    habsent x (mem_contents.mpr ⟨e, hmem, hx⟩)
  by_cases hfull : ixhtFull e = true
  · by_cases hsplits : ixhtSplits maxPower t e = true
    · -- a split, if it returns, leaves room in both bins
      have hgrow : ixhtGrow t e = true := (Bool.and_eq_true_iff.mp hsplits).1
      have hnot : ¬ Overfull t e := fun hover => absurd hover.grow (by rw [hgrow]; decide)
      rw [← exists_mixed_iff_separable, ← h.split_returns_iff hkey target hb]
      constructor
      · intro hroom
        exact ⟨hnot, fun _ _ => hroom.split_returns hkey hbin hb hfull hsplits⟩
      · rintro ⟨-, hreturns⟩
        obtain ⟨t', ht'⟩ := hreturns hfull hsplits
        obtain ⟨i, f, hi, hf, hfrep, hsub, hroom⟩ := h.after_split hkey target hbin hb ht'
        refine hfrep.roomForInsert hkey ?_ hf hroom fun x hx => hnew x (hsub x hx)
        simp only [ixhtPrepare, hbin, hb, Option.bind_some, hfull, hsplits, if_true, and_self]
        refine Returns.bind ht' ?_
        simp only [hi, Option.map_some]
        exact Returns.const _
    · have hsplits : ixhtSplits maxPower t e = false := by simpa using hsplits
      obtain ⟨e', hprep, hrebuilt, hsize⟩ := hrep.prepare_rebuild hkey hmax target hbin hb hfull hsplits
      have hget : (t.bins.set b e')[b]? = some e' := List.getElem?_set_self hlt
      constructor
      · intro hroom
        refine ⟨fun hover => ?_, fun _ hsplits' => absurd hsplits' (by rw [hsplits]; decide)⟩
        -- the rebuilt bin is as full as before
        obtain ⟨p, i, f, o, hp, hf, hlt', -⟩ := hroom
        obtain ⟨rfl, rfl⟩ := Prod.mk.inj (hp.unique hprep)
        rw [hget, Option.some.injEq] at hf
        subst hf
        rw [hrebuilt.bound, hsize, hover.live, ixhtFactor, hover.grow] at hlt'
        simp at hlt'
      · rintro ⟨hover, -⟩
        refine hrebuilt.rep.roomForInsert hkey hprep hget ?_ fun x hx => hnew x (hrebuilt.live ▸ hx)
        have hlive := e.bin.length_live_le
        have hbound := hrep.bin.bound
        by_cases hgrow : ixhtGrow t e = true
        · exact hrebuilt.room_of_grow hsize hbound hgrow
        · rw [hrebuilt.bound, hsize, ixhtFactor, if_neg hgrow, Nat.mul_one]
          refine Nat.lt_of_le_of_ne (Nat.le_trans hlive hbound) fun heq => hover ⟨hfull, ?_, heq⟩
          simpa using hgrow
  · -- nothing to prepare
    constructor
    · intro _
      exact ⟨fun hover => hfull hover.full, fun hfull' => absurd hfull' hfull⟩
    · intro _
      refine hrep.roomForInsert hkey (p := t) (i := b) ?_ hb ?_ hnew
      · simp only [ixhtPrepare, hbin, hb, Option.bind_some, hfull]
        exact Returns.const _
      · have hbound := hrep.bin.bound
        have hne : e.bin.elsBound ≠ e.bin.elsSize := fun heq => hfull (hrep.full_iff.mpr heq)
        omega

end Room

/-- An INSERT of a new element finds room, for any value of `els_num`, unless its bin is
    full of live elements and the doubled count, in 32 bits, is below the number of
    index slots of the bin, or a split of the bin does not end. -/
theorem ixht_insert_room_iff (hkey : key.Lawful) {maxPower : Nat} (hmax : maxPower ≤ 15)
    (target : Target) :
    ∀ t, WellFormed key t → ∀ el, (∀ x ∈ t.contents, key.eq x el = false) →
      ∀ b e, t.binOf (key.nonzero.hash el) = some b → t.bins[b]? = some e →
      (RoomForInsert maxPower key target t el ↔
        ¬ Overfull t e ∧
          (ixhtFull e = true → ixhtSplits maxPower t e = true → Separable key e)) :=
  fun _ h _ habsent _ _ hbin hb => h.roomForInsert_iff hkey hmax habsent hbin hb

theorem ixht_insert_room_gapped :
    ∃ t, WellFormed identityKey t ∧ t.elsNum = 7 ∧
      RoomForInsert IXHT_MAX_BIN_SIZE_POWER identityKey .swar t 9 := by
  obtain ⟨t, e, hwf, hsim, hb, hee⟩ := exists_gapped
  have hsplits : ixhtSplits IXHT_MAX_BIN_SIZE_POWER t e = false := (hsim.splits hee).trans rfl
  refine ⟨t, hwf, hsim.elsNum, (ixht_insert_room_iff identityKey_lawful powerOk_source.le .swar t hwf 9
    ?_ 0 e ((hsim.binOf _).trans rfl) hb).mpr ⟨fun hover => ?_, fun _ h => ?_⟩⟩
  · rw [hsim.contents, show (oneBin 7 gappedBin).contents = [1, 2, 4, 5, 6, 7, 8] from rfl]
    simp [identityKey]
  · have hlive := hover.live
    rw [← hee.bin.live, Hbin.elsSize, ← hee.bin.numGroups] at hlive
    exact absurd hlive (by decide)
  · rw [hsplits] at h
    cases h

/-! ### A table of `2 ^ 31` elements -/

section Filled

variable {j k : Nat}

def binElements (j i : Nat) : List (BitVec 64) := progression (2 ^ 14) (2 ^ j) (2 ^ j + i)

def fillCalls (j : Nat) : Nat → List (Call (BitVec 64))
  | 0 => []
  | k + 1 => fillCalls j k ++ plainCalls ((binElements j k).map fun x => (Action.insert, x))

def filled (j k : Nat) : IdealIxht (BitVec 64) :=
  { elsNum := 2 ^ 14 * k
    maxDepth := j
    binMask := 2 ^ j - 1
    dir := List.range (2 ^ j)
    bins := (List.range (2 ^ j)).map fun i =>
      ⟨j, i, 0, if i < k then (largeBin identityKey).refill identityKey.nonzero.hash (binElements j i)
        else largeBin identityKey⟩ }

theorem filled_getElem? {i : Nat} (hi : i < 2 ^ j) :
    (filled j k).bins[i]? = some ⟨j, i, 0,
      if i < k then (largeBin identityKey).refill identityKey.nonzero.hash (binElements j i)
        else largeBin identityKey⟩ := by
  rw [filled, List.getElem?_map, List.getElem?_range hi, Option.map_some]

theorem filled_binOf (hash : BitVec 64) : (filled j k).binOf hash = some (hash.toNat % 2 ^ j) := by
  rw [Ixht.binOf, filled, Nat.and_two_pow_sub_one_eq_mod,
    List.getElem?_range (Nat.mod_lt _ (Nat.two_pow_pos j))]

theorem filled_created (hj : j = 17) :
    Returns (fun fuel => ixhtCreate IXHT_MAX_BIN_SIZE_POWER (idealIxhtOps identityKey) fuel (2 ^ 31))
      (filled j 0) := by
  have hsize : forever (ixhtCreateBody (2 ^ 31)) 32 2 = some (2 ^ 31) := by rfl
  have hparams : ixhtGetParams IXHT_MAX_BIN_SIZE_POWER 32 (2 ^ 31) = some ⟨2 ^ j, j, 2 ^ 14⟩ := by
    rw [hj]
    rfl
  have hlog : j % 2 ^ 16 = j := Nat.mod_eq_of_lt (by omega)
  have hfilled : ixhtOfParams (idealIxhtOps identityKey) ⟨2 ^ j, j, 2 ^ 14⟩ = filled j 0 := by
    simp only [ixhtOfParams, filled, hlog, Nat.not_lt_zero, if_false, Nat.mul_zero]
    rfl
  refine (ixhtCreate_mono _ _ _).returns (n := 32) ?_
  rw [ixhtCreate, hsize, Option.bind_some, hparams, Option.map_some, hfilled]

theorem binElements_hash (hj : j ≤ 17) {i : Nat} (hi : i < 2 ^ j) {x : BitVec 64}
    (hx : x ∈ binElements j i) :
    identityKey.nonzero.hash x = x ∧ x.toNat % 2 ^ j = i ∧ x.toNat < 2 ^ j * (2 ^ 14 + 1) := by
  have hpow : 2 ^ j ≤ 2 ^ 17 := Nat.pow_le_pow_right (by decide) hj
  obtain ⟨m, hm, hxm⟩ := (mem_progression (by omega)).mp hx
  have hle : 2 ^ j * m + 2 ^ j ≤ 2 ^ j * 2 ^ 14 := by
    rw [← Nat.mul_succ]
    exact Nat.mul_le_mul_left _ hm
  refine ⟨identityKey_nonzero (by omega), ?_, ?_⟩
  · rw [hxm, Nat.mul_add_mod, Nat.add_mod_left, Nat.mod_eq_of_lt hi]
  · rw [Nat.mul_add, hxm]
    omega

theorem fill_bins (hj : j ≤ 17) (hk : k ≤ 2 ^ j) :
    ∃ rs, Returns (fun fuel => ixhtRun IXHT_MAX_BIN_SIZE_POWER (idealIxhtOps identityKey) identityKey
      fuel (filled j 0) (fillCalls j k)) (rs, filled j k) := by
  have hpow : 2 ^ j ≤ 2 ^ 17 := Nat.pow_le_pow_right (by decide) hj
  induction k with
  | zero => exact ⟨[], Returns.const ([], filled j 0)⟩
  | succ k ih =>
    obtain ⟨rs, hrun⟩ := ih (by omega)
    have hlen : (binElements j k).length = 2 ^ 14 := length_progression
    obtain ⟨rs', hfill⟩ := fill_largeBin IXHT_MAX_BIN_SIZE_POWER (a := filled j k) (i := k)
      (d := j) (m := k) (s := 0) (by rw [filled_getElem? (by omega), if_neg (Nat.lt_irrefl k)]) (Nat.le_of_eq hlen)
      (progression_apart (Nat.two_pow_pos j) (by omega))
      (fun x hx => by
        obtain ⟨hhash, hmod, -⟩ := binElements_hash hj (by omega) hx
        rw [filled_binOf, hhash, hmod])
      (by rw [hlen]; show 2 ^ 14 * k + 2 ^ 14 < 2 ^ 32; omega)
    -- bin `k` now holds its elements, and no other bin has changed
    have hnext : { filled j k with
        elsNum := (filled j k).elsNum + (binElements j k).length
        bins := (filled j k).bins.set k ⟨j, k, 0,
          (largeBin identityKey).refill identityKey.nonzero.hash (binElements j k)⟩ } =
        filled j (k + 1) := by
      have hbins : (filled j k).bins.set k ⟨j, k, 0,
          (largeBin identityKey).refill identityKey.nonzero.hash (binElements j k)⟩ =
          (filled j (k + 1)).bins := by
        refine List.ext_getElem? fun i => ?_
        by_cases hi : i < 2 ^ j
        · by_cases hik : k = i
          · subst hik
            rw [List.getElem?_set_self (by simpa [filled] using hi), filled_getElem? hi,
              if_pos (Nat.lt_succ_self k)]
          · rw [List.getElem?_set_ne hik, filled_getElem? hi, filled_getElem? hi]
            simp only [show i < k ↔ i < k + 1 by omega]
        · rw [List.getElem?_eq_none (by simpa [filled] using hi),
            List.getElem?_eq_none (by simpa [filled] using hi)]
      rw [hbins, hlen]
      rfl
    rw [hnext] at hfill
    exact ⟨rs ++ rs', Returns.append hrun hfill⟩

theorem length_fillCalls : (fillCalls j k).length = 2 ^ 14 * k := by
  induction k with
  | zero => rfl
  | succ k ih =>
    rw [fillCalls, List.length_append, ih, plainCalls, List.length_map, List.length_map, binElements,
      length_progression, Nat.mul_succ]

theorem fillCalls_ok : ∀ c ∈ fillCalls j k, c.Ok identityKey := by
  induction k with
  | zero => exact fun c hc => nomatch hc
  | succ k ih =>
    intro c hc
    rcases List.mem_append.mp hc with hc | hc
    · exact ih c hc
    · exact plainCalls_ok identityKey_lawful _ c hc

theorem filled_contents :
    (filled j (2 ^ j)).contents = (List.range (2 ^ j)).flatMap (binElements j) := by
  rw [Ixht.contents, filled, List.flatMap_map]
  refine List.flatMap_congr fun i hi => ?_
  simp only [if_pos (List.mem_range.mp hi), largeBin_live]

def overflowing (j : Nat) : BitVec 64 := BitVec.ofNat 64 (2 ^ j * (2 ^ 14 + 1))

theorem overflowing_toNat (hj : j ≤ 17) : (overflowing j).toNat = 2 ^ j * (2 ^ 14 + 1) := by
  have hpow : 2 ^ j ≤ 2 ^ 17 := Nat.pow_le_pow_right (by decide) hj
  rw [overflowing, BitVec.toNat_ofNat, Nat.mod_eq_of_lt (by omega)]

theorem overflowing_new (hj : j ≤ 17) :
    ∀ x ∈ (filled j (2 ^ j)).contents, identityKey.eq x (overflowing j) = false := by
  intro x hx
  rw [filled_contents] at hx
  obtain ⟨i, hi, hxi⟩ := List.mem_flatMap.mp hx
  have hlt := (binElements_hash hj (List.mem_range.mp hi) hxi).2.2
  show (x == overflowing j) = false
  rw [beq_eq_false_iff_ne]
  rintro rfl
  rw [overflowing_toNat hj] at hlt
  omega

theorem overflowing_binOf (hj : j ≤ 17) :
    (filled j k).binOf (identityKey.nonzero.hash (overflowing j)) = some 0 := by
  have hpos := Nat.two_pow_pos j
  have hne : (overflowing j).toNat ≠ 0 := by
    rw [overflowing_toNat hj]
    omega
  rw [filled_binOf, identityKey_nonzero hne, overflowing_toNat hj, Nat.mul_mod_right]

/-- Bin `0` is full of live elements, and twice the number of elements is `0` in 32
    bits. -/
theorem filled_overfull (hj : j = 17) {e : Ebin (BitVec 64) (List Entry)}
    (he : (filled j (2 ^ j)).bins[0]? = some e) : Overfull (filled j (2 ^ j)) e := by
  have hpos := Nat.two_pow_pos j
  rw [filled_getElem? hpos, if_pos hpos, Option.some.injEq] at he
  subst he
  have hlen : (binElements j 0).length = 2 ^ 14 := length_progression
  have hgroups := (largeBin_sized identityKey).groups
  have hindexes : ∀ xs, ((largeBin identityKey).refill identityKey.nonzero.hash xs).indexesSize
      ixhtWidths = 2 ^ 15 := by
    intro xs
    have hbase : (largeBin identityKey).indexesSize ixhtWidths = 8 * (largeBin identityKey).numGroups :=
      Hbin.indexesSize_eq (by rw [hgroups]; decide)
    exact hbase.trans (by rw [hgroups]; decide)
  refine ⟨?_, ?_, ?_⟩
  · rw [ixhtFull, decide_eq_true_eq, refill_elsBound, hlen, Hbin.halfIndexes, hindexes]
    decide
  · have hnum : 2 * (filled j (2 ^ j)).elsNum % 2 ^ 32 = 0 := by
      show 2 * (2 ^ 14 * 2 ^ j) % 2 ^ 32 = 0
      rw [hj]
      decide
    rw [ixhtGrow, decide_eq_false_iff_not, hnum, hindexes]
    decide
  · have hsize : ∀ xs, ((largeBin identityKey).refill identityKey.nonzero.hash xs).elsSize =
        4 * (largeBin identityKey).numGroups := fun _ => rfl
    rw [largeBin_live, hlen, hsize, hgroups]
    decide

end Filled

/-- A table created for `2 ^ 31` elements and filled with them.  Twice their number is
    `0` in 32 bits, so the next INSERT rebuilds its bin at the old capacity, and the
    bin is as full as before. -/
theorem ixht_insert_overflows :
    ∃ t₀ calls rs t el,
      Returns (fun fuel => ixhtCreate IXHT_MAX_BIN_SIZE_POWER (ixhtOps identityKey .swar) fuel
        (2 ^ 31)) t₀ ∧
      (∀ c ∈ calls, c.Ok identityKey) ∧
      Returns (fun fuel => ixhtRun IXHT_MAX_BIN_SIZE_POWER (ixhtOps identityKey .swar) identityKey
        fuel t₀ calls) (rs, t) ∧
      WellFormed identityKey t ∧ t.elsNum = 2 ^ 31 ∧ t.elsNum = t.contents.length ∧
      (∀ x ∈ t.contents, identityKey.eq x el = false) ∧
      (∃ p i f, Returns (fun fuel => ixhtPrepare IXHT_MAX_BIN_SIZE_POWER (ixhtOps identityKey .swar)
          identityKey fuel t (identityKey.nonzero.hash el) .insert) (p, i) ∧
        p.bins[i]? = some f ∧ f.bin.elsBound = f.bin.elsSize) ∧
      ¬ RoomForInsert IXHT_MAX_BIN_SIZE_POWER identityKey .swar t el := by
  obtain ⟨j, hj⟩ : ∃ j, j = 17 := ⟨_, rfl⟩
  have hle : j ≤ 17 := Nat.le_of_eq hj
  have hnum : 2 ^ 14 * 2 ^ j = 2 ^ 31 := by rw [hj, ← Nat.pow_add]
  have hlaw := ixhtOps_lawful identityKey_lawful .swar
  obtain ⟨t₀, a₀, ht₀, ha₀, h₀, -, -⟩ := ixhtCreate_follows hlaw identityKey_lawful powerOk_source
    (Nat.le_refl (2 ^ 31))
  rw [ha₀.unique (filled_created hj)] at h₀
  obtain ⟨rs, hrun⟩ := fill_bins hle (Nat.le_refl (2 ^ j))
  obtain ⟨t, ht, hta⟩ := h₀.run_of_ideal hlaw identityKey_lawful powerOk_source (by decide)
    fillCalls_ok (by rw [length_fillCalls, hnum]; exact Nat.le_of_eq (Nat.zero_add _)) hrun
  have hwf := hta.wellFormed powerOk_source
  have hcontents : t.contents = (filled j (2 ^ j)).contents := hta.sim.contents
  have habsent : ∀ x ∈ t.contents, identityKey.eq x (overflowing j) = false := by
    rw [hcontents]
    exact overflowing_new hle
  have hbin : t.binOf (identityKey.nonzero.hash (overflowing j)) = some 0 :=
    (hta.sim.binOf _).trans (overflowing_binOf hle)
  obtain ⟨e', he'⟩ : ∃ e', (filled j (2 ^ j)).bins[0]? = some e' :=
    ⟨_, filled_getElem? (Nat.two_pow_pos j)⟩
  obtain ⟨e, he, hee⟩ := Forall₂.exists_of_right hta.sim.bins he'
  have hover' := filled_overfull hj he'
  have hover : Overfull t e := by
    refine ⟨hee.full.trans hover'.full, (hta.sim.grow hee).trans hover'.grow, ?_⟩
    rw [← hee.bin.live, Hbin.elsSize, ← hee.bin.numGroups]
    exact hover'.live
  have hsplits : ixhtSplits IXHT_MAX_BIN_SIZE_POWER t e = false := by
    rw [ixhtSplits, hover.grow, Bool.false_and]
  have htnum : t.elsNum = 2 ^ 31 := hta.sim.elsNum.trans hnum
  refine ⟨t₀, fillCalls j (2 ^ j), rs, t, overflowing j, ht₀, fillCalls_ok, ht, hwf, htnum, ?_,
    habsent, ?_, ?_⟩
  · rw [htnum, hcontents, filled_contents, List.length_flatMap]
    simp only [binElements, length_progression, List.map_const', List.length_range,
      List.sum_replicate_nat]
    omega
  · obtain ⟨f, hf, hrebuilt, hsize⟩ := (hwf.bins e (List.mem_of_getElem? he)).prepare_rebuild
      identityKey_lawful powerOk_source.le .swar hbin he hover.full hsplits
    refine ⟨_, 0, f, hf, List.getElem?_set_self (List.getElem?_eq_some_iff.mp he).1, ?_⟩
    rw [hrebuilt.bound, hsize, hover.live, ixhtFactor, hover.grow]
    exact (Nat.mul_one _).symm
  · rw [hwf.roomForInsert_iff identityKey_lawful powerOk_source.le habsent hbin he]
    exact fun h => h.1 hover

end IndexedHash
