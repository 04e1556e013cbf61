import Mathlib.Data.Nat.Bitwise
import Mathlib.Tactic.Common
import IndexedHash.IxhtSessions

/-!
# The directory

`Dir` is the invariant of extendible hashing: the directory leads each hash to the bin
whose mask it matches.  `ixht_create` establishes it.  `ixht_split_bin` redirects one
entry in each pass, the one at the mask of the new bin, so it keeps `Dir` in one case
only: a bin of depth `max_depth` or `max_depth - 1`, whose live elements the first bit
already separates (`ixht_split_dir`).

The results about a split are shown on the ideal table and hold of every well-formed
table, because each stands for an ideal one (`WellFormed.sim`).
-/

namespace IndexedHash

open Loop KeyedList

variable {El G : Type} {key : Key El}

/-! ## Well-formed tables -/

structure EbinRep (key : Key El) (e : Ebin El (List Group)) : Prop where
  bin : BinRep ixhtWidths key.nonzero e.bin
  start : e.elsStart = 0
  capacity : ∃ j, 3 ≤ j ∧ j ≤ 16 ∧ e.bin.elsSize = 2 ^ j

structure WellFormed (key : Key El) (t : Ixht El (List Group)) : Prop where
  bins : ∀ e ∈ t.bins, EbinRep key e
  shape : DirShape t

def idealEbin (key : Key El) (e : Ebin El (List Group)) : Ebin El (List Entry) :=
  ⟨e.depth, e.mask, e.elsStart, idealOf key.nonzero e.bin⟩

def idealIxht (key : Key El) (t : Ixht El (List Group)) : IdealIxht El :=
  ⟨t.elsNum, t.maxDepth, t.binMask, t.dir, t.bins.map (idealEbin key)⟩

theorem IxSim.shape {Slots : G → Nat → Nat → List Entry → Prop} {t : Ixht El G} {a : IdealIxht El}
    (h : IxSim Slots t a) (hshape : DirShape a) : DirShape t := by
  refine ⟨?_, ?_, ?_, ?_, ?_⟩
  · rw [h.dir, h.maxDepth]
    exact hshape.length
  · rw [h.binMask, h.maxDepth]
    exact hshape.mask
  · rw [h.maxDepth]
    exact hshape.maxDepth
  · intro e he
    obtain ⟨i, hi⟩ := List.mem_iff_getElem?.mp he
    obtain ⟨e', he', hee⟩ := Forall₂.exists_of_left h.bins hi
    rw [hee.depth, hee.mask, h.maxDepth]
    exact hshape.bins e' (List.mem_of_getElem? he')
  · rw [h.dir, h.bins.length_eq]
    exact hshape.entries

theorem Follows.wellFormed {maxPower : Nat} {t : Ixht El (List Group)} {a : IdealIxht El}
    (hpower : PowerOk maxPower) (h : Follows maxPower key SlotsOk t a) : WellFormed key t := by
  have hrep := h.rep hpower
  have hle := hpower.le
  refine ⟨fun e he => ⟨hrep.bin e he, hrep.start e he, ?_⟩, h.sim.shape h.ok.shape⟩
  obtain ⟨j, hj, hlt, hsize⟩ := hrep.capacity e he
  exact ⟨j, hj, by omega, hsize⟩

section WellFormed

variable {t t' : Ixht El (List Group)} {b : Nat} {e : Ebin El (List Group)}

theorem EbinRep.ideal (h : EbinRep key e) : EbinOk key 14 (idealEbin key e) := by
  obtain ⟨j, hj, hle, hsize⟩ := h.capacity
  refine ⟨h.bin.denseOk, h.start, j - 2, by omega, by omega, ?_⟩
  have hsplit : 2 ^ j = 4 * 2 ^ (j - 2) := by
    rw [show j = j - 2 + 2 by omega, Nat.pow_add]
    simp only [Nat.add_sub_cancel]
    omega
  rw [Hbin.elsSize, hsplit] at hsize
  show e.bin.numGroups = 2 ^ (j - 2)
  omega

theorem WellFormed.sim (h : WellFormed key t) : IxSim SlotsOk t (idealIxht key t) := by
  refine ⟨rfl, rfl, rfl, rfl, ?_⟩
  simp only [idealIxht, List.forall₂_map_right_iff, List.forall₂_same]
  exact fun e he => ⟨rfl, rfl, rfl, (h.bins e he).bin.sim⟩

theorem WellFormed.ideal_shape (h : WellFormed key t) : DirShape (idealIxht key t) := by
  refine ⟨h.shape.length, h.shape.mask, h.shape.maxDepth, ?_, ?_⟩
  · intro e he
    obtain ⟨f, hf, rfl⟩ := List.mem_map.mp he
    exact h.shape.bins f hf
  · simp only [idealIxht, List.length_map]
    exact h.shape.entries

theorem idealIxht_getElem? (hb : t.bins[b]? = some e) :
    (idealIxht key t).bins[b]? = some (idealEbin key e) := by
  simp only [idealIxht, List.getElem?_map, hb, Option.map_some]

/-- The passes of a split do not look at the index. -/
theorem EbinSim.pass {Slots : G → Nat → Nat → List Entry → Prop} {e : Ebin El G}
    {e' : Ebin El (List Entry)} (h : EbinSim Slots e e') (k : Nat) : e.pass key k = e'.pass key k := by
  induction k with
  | zero => simp only [Ebin.pass, h.mask, h.bin.live]
  | succ k ih => simp only [Ebin.pass, ih, h.depth, h.bin.deleted]

/-- The split of a well-formed table follows the split of the ideal one. -/
theorem WellFormed.split_sim (hkey : key.Lawful) (target : Target) (h : WellFormed key t)
    (hb : t.bins[b]? = some e) {fuel : Nat} (hfuel : 2 ^ 14 ≤ fuel) :
    Option.Rel (IxSim SlotsOk) (ixhtSplitBin (ixhtOps key target) key fuel t b)
      (ixhtSplitBin (idealIxhtOps key) key fuel (idealIxht key t) b) := by
  have hok := (h.bins e (List.mem_of_getElem? hb)).ideal
  obtain ⟨j, -, hle, hn⟩ := hok.size
  have hpow : 2 ^ j ≤ 2 ^ 14 := Nat.pow_le_pow_right (by decide) hle
  exact splitBin_sim (ixhtOps_lawful hkey target) hkey h.sim hok (by decide) h.ideal_shape
    (idealIxht_getElem? hb) (by rw [Hbin.elsSize]; omega) (by omega)

theorem WellFormed.split_done (hkey : key.Lawful) (target : Target) (h : WellFormed key t)
    (hb : t.bins[b]? = some e)
    (hsplit : Returns (fun fuel => ixhtSplitBin (ixhtOps key target) key fuel t b) t') :
    ∃ a k, IxSim SlotsOk t' a ∧
      SplitDone key e.bin.numGroups (idealIxht key t) b (idealEbin key e) k a := by
  have hok := (h.bins e (List.mem_of_getElem? hb)).ideal
  obtain ⟨a, ha, hsim⟩ := Returns.of_rel_left
    (ixhtSplitBin_mono (idealOps_lawful ixhtWidths key.nonzero 0).mono (idealIxht key t) b)
    (fun fuel hfuel => h.split_sim hkey target hb hfuel) hsplit
  obtain ⟨fuel, hfuel⟩ := ha.exists_some
  obtain ⟨k, hdone⟩ := splitBin_done hkey hok (by decide) h.ideal_shape (idealIxht_getElem? hb) hfuel
  exact ⟨a, k, hsim, hdone⟩

/-- A split returns if some pass that the directory admits finds elements for both
    sides. -/
theorem WellFormed.split_returns_iff (hkey : key.Lawful) (target : Target) (h : WellFormed key t)
    (hb : t.bins[b]? = some e) :
    (∃ t', Returns (fun fuel => ixhtSplitBin (ixhtOps key target) key fuel t b) t') ↔
      ∃ k, e.depth + k ≤ 30 ∧ Mixed key (e.depth + k) (e.pass key k).els := by
  have hrep := h.bins e (List.mem_of_getElem? hb)
  have hsim : EbinSim SlotsOk e (idealEbin key e) := ⟨rfl, rfl, rfl, hrep.bin.sim⟩
  have hpass : ∀ k, e.pass key k = (idealEbin key e).pass key k := hsim.pass
  constructor
  · rintro ⟨t', hsplit⟩
    obtain ⟨a, k, -, hdone⟩ := h.split_done hkey target hb hsplit
    exact ⟨k, hdone.depth, hpass k ▸ hdone.mixed⟩
  · rintro ⟨k, hd, hmix⟩
    obtain ⟨a, ha⟩ := splitBin_returns hkey hrep.ideal (by decide) h.ideal_shape
      (idealIxht_getElem? hb) ⟨k, hd, hpass k ▸ hmix⟩ (show 31 < 2 ^ 14 by decide)
    have hmono : Mono fun fuel => ixhtSplitBin (idealIxhtOps key) key fuel (idealIxht key t) b :=
      ixhtSplitBin_mono (idealOps_lawful ixhtWidths key.nonzero 0).mono _ b
    obtain ⟨t', ht', -⟩ := Returns.of_rel (ixhtSplitBin_mono (ixhtOps_lawful hkey target).mono t b)
      (fun fuel hfuel => h.split_sim hkey target hb hfuel) (hmono.returns ha)
    exact ⟨t', ht'⟩

theorem EbinRep.of_half {f : Ebin El (List Entry)} {j depth mask : Nat} {xs : List El}
    (hsim : EbinSim SlotsOk e f) (h : Half key (2 ^ j) depth mask xs f) (hone : 1 ≤ j)
    (hle : j ≤ 14) : EbinRep key e := by
  refine ⟨BinRep.of_sim hsim.bin h.dense, hsim.elsStart.trans h.start, j + 2, by omega, by omega, ?_⟩
  rw [Hbin.elsSize, ← hsim.bin.numGroups, h.groups, Nat.pow_add]
  omega

/-- After a split the directory leads to a bin that is in order and has room. -/
theorem WellFormed.after_split (hkey : key.Lawful) (target : Target) (h : WellFormed key t)
    {hash : BitVec 64} (hbin : t.binOf hash = some b) (hb : t.bins[b]? = some e)
    (hsplit : Returns (fun fuel => ixhtSplitBin (ixhtOps key target) key fuel t b) t') :
    ∃ i f, t'.binOf hash = some i ∧ t'.bins[i]? = some f ∧ EbinRep key f ∧
      (∀ x ∈ f.bin.live, x ∈ e.bin.live) ∧ f.bin.elsBound < f.bin.elsSize := by
  have hmem := List.mem_of_getElem? hb
  have hok := (h.bins e hmem).ideal
  obtain ⟨j, hone, hj, hn⟩ := hok.size
  have hn : e.bin.numGroups = 2 ^ j := hn
  obtain ⟨a, k, hsim, hdone⟩ := h.split_done hkey target hb hsplit
  obtain ⟨i, hi⟩ : ∃ i, a.binOf hash = some i := by
    refine ⟨_, List.getElem?_eq_getElem ?_⟩
    rw [hdone.dir.length, hdone.dir.mask, Nat.and_two_pow_sub_one_eq_mod]
    exact Nat.mod_lt _ (Nat.two_pow_pos _)
  obtain ⟨f', _, _, xs, hf', hhalf, hxs, hroom⟩ := hdone.room hok (h.shape.bins e hmem).2
    (idealIxht_getElem? hb) (hdone.binOf_cases h.ideal_shape hbin hi)
  obtain ⟨f, hf, hff⟩ := Forall₂.exists_of_right hsim.bins hf'
  refine ⟨i, f, (hsim.binOf hash).trans hi, hf, ?_, ?_, ?_⟩
  · have hhalf : Half key e.bin.numGroups _ _ xs f' := hhalf
    rw [hn] at hhalf
    exact EbinRep.of_half hff hhalf hone hj
  · intro x hx
    rw [← hff.bin.live, hhalf.live] at hx
    exact hxs x hx
  · rw [Hbin.elsSize, ← hff.bin.elsBound, ← hff.bin.numGroups]
    exact hroom

/-- `ixht_do_1` for an INSERT into a bin in order; an element that is new goes to
    position `els_bound`. -/
theorem EbinRep.insert (hkey : key.Lawful) (target : Target) (h : EbinRep key e) (n : Nat)
    (el : El) :
    ∃ o, Returns (fun fuel => (ixhtOps key target).do1 fuel n e.bin (key.nonzero.hash el) el
        .insert) o ∧
      ((∀ x ∈ e.bin.live, key.eq x el = false) → o.found = false ∧ o.res = some e.bin.elsBound ∧
        o.bin.elsBound = e.bin.elsBound + 1 ∧ o.bin.elsSize = e.bin.elsSize) := by
  have hlaw := ixhtOps_lawful hkey target
  have hdense := h.bin.denseOk
  have hbound := h.bin.bound
  have hcap : e.bin.elsSize = 4 * e.bin.numGroups := rfl
  have hmask : e.bin.numGroups = e.bin.groupsMask + 1 := rfl
  obtain ⟨j, -, hj, hsize⟩ := h.capacity
  have hpow : 2 ^ j ≤ 2 ^ 16 := Nat.pow_le_pow_right (by decide) hj
  obtain ⟨o', ho', hnew⟩ : ∃ o', idealDo1 ixhtWidths key.eq n (idealOf key.nonzero e.bin)
      (key.nonzero.hash el) el .insert = some o' ∧
      ((∀ x ∈ e.bin.live, key.eq x el = false) → o'.found = false ∧ o'.res = some e.bin.elsBound ∧
        o'.bin.elsBound = e.bin.elsBound + 1 ∧ o'.bin.elsSize = e.bin.elsSize) := by
    unfold idealDo1
    split
    · next entry hfound =>
        refine ⟨_, rfl, fun habsent => ?_⟩
        obtain ⟨hentry, x, hx, hxe⟩ := idealLookup_some hfound
        have hlive : x ∈ (idealOf key.nonzero e.bin).live := by
          rw [hdense.live_eq]
          exact List.mem_filterMap.mpr ⟨entry, hentry, hx⟩
        rw [habsent x hlive] at hxe
        cases hxe
    · exact ⟨_, rfl, fun _ => ⟨rfl, rfl, rfl, rfl⟩⟩
  obtain ⟨o, ho, hoo⟩ := Returns.of_rel (hlaw.mono n e.bin (key.nonzero.hash el) el .insert)
    (fun fuel (hfuel : fuel ≥ 2 ^ 16) => hlaw.do1 h.bin.sim hdense.index (by omega) (by omega) el
      .insert fuel (by omega) n) ⟨0, fun _ _ => ho'⟩
  refine ⟨o, ho, fun habsent => ?_⟩
  obtain ⟨hfound, hres, hbound', hsize'⟩ := hnew habsent
  refine ⟨hoo.found.trans hfound, hoo.res.trans hres, ?_, ?_⟩
  · rw [← hoo.bin.elsBound, hbound']
  · have hsame : o'.bin.elsSize = o.bin.elsSize := by
      rw [hoo.bin.same]
      rfl
    rw [← hsame, hsize']

end WellFormed

/-! ## The invariant -/

structure Dir (key : Key El) (t : Ixht El G) : Prop where
  length : t.dir.length = 2 ^ t.maxDepth
  binMask : t.binMask = 2 ^ t.maxDepth - 1
  bins : ∀ e ∈ t.bins, e.depth ≤ t.maxDepth ∧ e.mask < 2 ^ e.depth
  routes : ∀ i < t.dir.length, ∀ b e, t.bins[b]? = some e →
    (t.dir[i]? = some b ↔ i % 2 ^ e.depth = e.mask)
  placed : ∀ e ∈ t.bins, ∀ x ∈ e.bin.live, (key.nonzero.hash x).toNat % 2 ^ e.depth = e.mask

/-- The invariant does not look at the index. -/
theorem Dir.transfer {G' : Type} {t : Ixht El G} {t' : Ixht El G'} (h : Dir key t)
    (hmax : t.maxDepth = t'.maxDepth) (hmask : t.binMask = t'.binMask) (hdir : t.dir = t'.dir)
    (hbins : ∀ {i : Nat} {e' : Ebin El G'}, t'.bins[i]? = some e' → ∃ e : Ebin El G,
      t.bins[i]? = some e ∧ e.depth = e'.depth ∧ e.mask = e'.mask ∧ e.bin.live = e'.bin.live) :
    Dir key t' := by
  refine ⟨by rw [← hdir, ← hmax]; exact h.length, by rw [← hmask, ← hmax]; exact h.binMask,
    ?_, ?_, ?_⟩
  · intro e' he'
    obtain ⟨i, hi⟩ := List.mem_iff_getElem?.mp he'
    obtain ⟨e, he, hd, hm, -⟩ := hbins hi
    rw [← hd, ← hm, ← hmax]
    exact h.bins e (List.mem_of_getElem? he)
  · intro i hi b e' hb
    obtain ⟨e, he, hd, hm, -⟩ := hbins hb
    rw [← hd, ← hm, ← hdir]
    exact h.routes i (hdir ▸ hi) b e he
  · intro e' he' x hx
    obtain ⟨i, hi⟩ := List.mem_iff_getElem?.mp he'
    obtain ⟨e, he, hd, hm, hlive⟩ := hbins hi
    rw [← hd, ← hm]
    exact h.placed e (List.mem_of_getElem? he) x (hlive ▸ hx)

/-- Where the directory leads, for any number. -/
theorem Dir.route_iff {t : Ixht El G} (h : Dir key t) {c : Nat} {f : Ebin El G}
    (hc : t.bins[c]? = some f) (i : Nat) :
    t.dir[i % t.dir.length]? = some c ↔ i % 2 ^ f.depth = f.mask := by
  have hpos : 0 < t.dir.length := by
    rw [h.length]
    exact Nat.two_pow_pos _
  have hdvd : 2 ^ f.depth ∣ t.dir.length := by
    rw [h.length]
    exact Nat.pow_dvd_pow 2 (h.bins f (List.mem_of_getElem? hc)).1
  rw [h.routes _ (Nat.mod_lt i hpos) c f hc, Nat.mod_mod_of_dvd i hdvd]

theorem Dir.binOf_iff {t : Ixht El G} (h : Dir key t) {c : Nat} {f : Ebin El G}
    (hc : t.bins[c]? = some f) (hash : BitVec 64) :
    t.binOf hash = some c ↔ hash.toNat % 2 ^ f.depth = f.mask := by
  rw [Ixht.binOf, h.binMask, Nat.and_two_pow_sub_one_eq_mod, ← h.length]
  exact h.route_iff hc hash.toNat

/-- New contents of a bin that belong there. -/
theorem Dir.set_bin {t : Ixht El G} (h : Dir key t) {i : Nat} {e : Ebin El G}
    (hi : t.bins[i]? = some e) (e' : Ebin El G) (hd : e'.depth = e.depth) (hm : e'.mask = e.mask)
    (hplaced : ∀ x ∈ e'.bin.live, (key.nonzero.hash x).toNat % 2 ^ e.depth = e.mask) (m : Nat) :
    Dir key { t with elsNum := m, bins := t.bins.set i e' } := by
  have hlt := (List.getElem?_eq_some_iff.mp hi).1
  refine ⟨h.length, h.binMask, ?_, ?_, ?_⟩
  · intro f hf
    rcases List.mem_or_eq_of_mem_set hf with hf | rfl
    · exact h.bins f hf
    · rw [hd, hm]
      exact h.bins e (List.mem_of_getElem? hi)
  · intro j hj b f hb
    by_cases hbi : i = b
    · subst hbi
      rw [List.getElem?_set_self hlt, Option.some.injEq] at hb
      rw [← hb, hd, hm]
      exact h.routes j hj i e hi
    · rw [List.getElem?_set_ne hbi] at hb
      exact h.routes j hj b f hb
  · intro f hf x hx
    rcases List.mem_or_eq_of_mem_set hf with hf | rfl
    · exact h.placed f hf x hx
    · rw [hd, hm]
      exact hplaced x hx

theorem IxSim.dir_iff {Slots : G → Nat → Nat → List Entry → Prop} {t : Ixht El G}
    {a : IdealIxht El} (h : IxSim Slots t a) : Dir key t ↔ Dir key a := by
  constructor
  · intro hdir
    refine hdir.transfer h.maxDepth h.binMask h.dir fun hi => ?_
    obtain ⟨e, he, hee⟩ := Forall₂.exists_of_right h.bins hi
    exact ⟨e, he, hee.depth, hee.mask, hee.bin.live.symm⟩
  · intro hdir
    refine hdir.transfer h.maxDepth.symm h.binMask.symm h.dir.symm fun hi => ?_
    obtain ⟨e, he, hee⟩ := Forall₂.exists_of_left h.bins hi
    exact ⟨e, he, hee.depth.symm, hee.mask.symm, hee.bin.live⟩

theorem ixhtCreate_dir {maxPower fuel minSize : Nat} (hkey : key.Lawful) (hpower : PowerOk maxPower)
    {a : IdealIxht El} (h : ixhtCreate maxPower (idealIxhtOps key) fuel minSize = some a) :
    Dir key a := by
  have hempty := (ixhtCreate_ok hkey hpower h).2
  obtain ⟨s, j, -, -, hj16, -, -, rfl⟩ := ixhtCreate_params hpower h
  refine ⟨?_, ?_, ?_, ?_, ?_⟩
  · simp only [ixhtOfParams, List.length_range, hj16]
  · simp only [ixhtOfParams, hj16]
  · intro e he
    obtain ⟨i, hi, rfl⟩ := List.mem_map.mp he
    simp only [ixhtOfParams, hj16]
    exact ⟨Nat.le_refl j, List.mem_range.mp hi⟩
  · -- bin `b` has mask `b`, and `dir[i] = i`
    intro i hi b e hb
    simp only [ixhtOfParams, List.length_range] at hi
    simp only [ixhtOfParams, List.getElem?_map] at hb
    obtain ⟨c, hc, rfl⟩ := Option.map_eq_some_iff.mp hb
    obtain ⟨hlt, rfl⟩ := List.getElem?_eq_some_iff.mp hc
    simp only [ixhtOfParams, hj16, Nat.mod_eq_of_lt hi, List.getElem_range,
      List.getElem?_range hi, Option.some.injEq]
  · intro e he x hx
    have hmem := mem_contents.mpr ⟨e, he, hx⟩
    rw [hempty] at hmem
    cases hmem

/-! ## Splitting -/

/-- A number in terms of its low `d` bits and of bit `d`. -/
theorem mod_two_pow_succ_iff {m d : Nat} (hm : m < 2 ^ d) (i : Nat) :
    (i % 2 ^ (d + 1) = m ↔ i % 2 ^ d = m ∧ i.testBit d = false) ∧
      (i % 2 ^ (d + 1) = m ||| 2 ^ d ↔ i % 2 ^ d = m ∧ i.testBit d = true) := by
  have hlow := Nat.mod_lt i (Nat.two_pow_pos d)
  have hor : m ||| 2 ^ d = m + 2 ^ d := by
    have := Nat.two_pow_add_eq_or_of_lt hm 1
    rw [Nat.mul_one] at this
    rw [Nat.lor_comm, ← this, Nat.add_comm]
  rw [Nat.mod_pow_succ, ← Nat.toNat_testBit, hor]
  cases i.testBit d with
  | false =>
    simp only [Bool.toNat_false, Nat.mul_zero, Nat.add_zero, and_true, Bool.false_eq_true, and_false,
      iff_false, true_and]
    omega
  | true =>
    simp only [Bool.toNat_true, Nat.mul_one, Bool.true_eq_false, and_false, iff_false, and_true]
    omega

section Split

variable {n b₀ k : Nat} {t₀ t : IdealIxht El} {e₀ : Ebin El (List Entry)}

/-- A bin whose first bit separates its elements is split in one pass. -/
theorem SplitDone.eq_zero (hdone : SplitDone key n t₀ b₀ e₀ k t)
    (hmix : Mixed key e₀.depth e₀.bin.live) : k = 0 := by
  by_contra hk
  exact hdone.earlier 0 (Nat.pos_of_ne_zero hk) hmix

/-- The directory after a single pass. -/
theorem SplitDone.entry_zero (hdone : SplitDone key n t₀ b₀ e₀ 0 t) {i : Nat}
    (hi : i < t.dir.length) :
    t.dir[i]? = if i = e₀.mask ||| 2 ^ e₀.depth then some t₀.bins.length
      else t₀.dir[i % t₀.dir.length]? := by
  rw [hdone.first rfl, List.length_set] at hi
  rw [hdone.first rfl]
  split
  · next heq => rw [heq, List.getElem?_set_self (heq ▸ hi)]
  · next hne =>
      rw [List.getElem?_set_ne (Ne.symm hne)]
      simp only [Ixht.deepened] at hi ⊢
      split at hi
      · next hlt =>
          rw [if_pos hlt]
          exact getElem?_double hi
      · next hge => rw [if_neg hge, Nat.mod_eq_of_lt hi]

/-- A bin of the new table is one of the halves or an old one. -/
theorem SplitDone.bin_cases (hdone : SplitDone key n t₀ b₀ e₀ k t) {x y f : Ebin El (List Entry)}
    (hx : t.bins[b₀]? = some x) (hy : t.bins[t₀.bins.length]? = some y) {c : Nat}
    (hc : t.bins[c]? = some f) :
    (c = b₀ ∧ f = x) ∨ (c = t₀.bins.length ∧ f = y) ∨
      (c ≠ b₀ ∧ c ≠ t₀.bins.length ∧ t₀.bins[c]? = some f) := by
  by_cases hcb : c = b₀
  · subst hcb
    exact Or.inl ⟨rfl, Option.some.inj (hc.symm.trans hx)⟩
  · by_cases hcn : c = t₀.bins.length
    · subst hcn
      exact Or.inr (Or.inl ⟨rfl, Option.some.inj (hc.symm.trans hy)⟩)
    · exact Or.inr (Or.inr ⟨hcb, hcn, by rw [← hdone.others c hcb hcn, hc]⟩)

/-- A split keeps the directory in order if the bin is not far below `max_depth` and
    the first bit separates its elements. -/
theorem SplitDone.keeps_dir (hdone : SplitDone key n t₀ b₀ e₀ 0 t) (hshape : DirShape t₀)
    (hb₀ : t₀.bins[b₀]? = some e₀) (hdir : Dir key t₀) (hdepth : t₀.maxDepth ≤ e₀.depth + 1) :
    Dir key t := by
  have hlt := (List.getElem?_eq_some_iff.mp hb₀).1
  have hmem := List.mem_of_getElem? hb₀
  obtain ⟨hd, hm⟩ := hdir.bins e₀ hmem
  have hmax : t.maxDepth = e₀.depth + 1 := by
    have := hdone.dir.maxDepth
    omega
  have hlen : t.dir.length = 2 ^ (e₀.depth + 1) := by rw [hdone.dir.length, hmax]
  obtain ⟨x, hx, hhx⟩ := hdone.stays
  obtain ⟨y, hy, hhy⟩ := hdone.goes
  have hx : t.bins[b₀]? = some x := hx
  have hy : t.bins[t₀.bins.length]? = some y := hy
  have hxd : x.depth = e₀.depth + 1 := hhx.depth
  have hxm : x.mask = e₀.mask := hhx.mask
  have hyd : y.depth = e₀.depth + 1 := hhy.depth
  have hym : y.mask = e₀.mask ||| 2 ^ e₀.depth := hhy.mask
  have hpow : 2 ^ e₀.depth < 2 ^ (e₀.depth + 1) := Nat.pow_lt_pow_right (by decide) (by omega)
  refine ⟨hdone.dir.length, hdone.dir.mask, ?_, ?_, ?_⟩
  · intro f hf
    obtain ⟨c, hc⟩ := List.mem_iff_getElem?.mp hf
    rcases hdone.bin_cases hx hy hc with ⟨-, rfl⟩ | ⟨-, rfl⟩ | ⟨-, -, hc⟩
    · rw [hxd, hxm]
      omega
    · rw [hyd, hym]
      exact ⟨by omega, Nat.or_lt_two_pow (by omega) hpow⟩
    · obtain ⟨hfd, hfm⟩ := hdir.bins f (List.mem_of_getElem? hc)
      exact ⟨by omega, hfm⟩
  · intro i hi c f hc
    have hbit := mod_two_pow_succ_iff hm i
    have hmod : i % 2 ^ (e₀.depth + 1) = i := Nat.mod_eq_of_lt (by omega)
    rw [hdone.entry_zero hi]
    rcases hdone.bin_cases hx hy hc with ⟨rfl, rfl⟩ | ⟨rfl, rfl⟩ | ⟨hcb, hcn, hc⟩
    · -- the old bin keeps the entries without the bit
      rw [hxd, hxm, hbit.1]
      split
      · next heq =>
          have := hbit.2.mp (hmod.trans heq)
          simp [this, Nat.ne_of_gt hlt]
      · next hne =>
          rw [hdir.route_iff hb₀]
          constructor
          · intro hlow
            refine ⟨hlow, ?_⟩
            by_contra hset
            exact hne (hmod.symm.trans (hbit.2.mpr ⟨hlow, by simpa using hset⟩))
          · exact fun h => h.1
    · -- the new bin has the one entry that has been redirected
      rw [hyd, hym, hmod]
      split
      · next heq => simp [heq]
      · next hne =>
          constructor
          · intro hentry
            have := hshape.entries _ (List.mem_of_getElem? hentry)
            omega
          · exact fun h => absurd h hne
    · split
      · next heq =>
          -- the redirected entry was one of the bin that is split
          have hlow := (hbit.2.mp (hmod.trans heq)).1
          have hwas := (hdir.route_iff hb₀ i).mpr hlow
          constructor
          · intro hentry
            exact absurd (Option.some.inj hentry).symm hcn
          · intro hroute
            have hwas' := (hdir.route_iff hc i).mpr hroute
            rw [hwas, Option.some.injEq] at hwas'
            exact absurd hwas'.symm hcb
      · exact hdir.route_iff hc i
  · intro f hf z hz
    obtain ⟨c, hc⟩ := List.mem_iff_getElem?.mp hf
    rcases hdone.bin_cases hx hy hc with ⟨-, rfl⟩ | ⟨-, rfl⟩ | ⟨-, -, hc⟩
    · rw [hhx.live] at hz
      obtain ⟨hz, hstay⟩ := List.mem_filter.mp hz
      rw [hxd, hxm, (mod_two_pow_succ_iff hm _).1]
      exact ⟨hdir.placed e₀ hmem z hz, by simpa [goesNew] using hstay⟩
    · rw [hhy.live] at hz
      obtain ⟨hz, hgo⟩ := List.mem_filter.mp hz
      rw [hyd, hym, (mod_two_pow_succ_iff hm _).2]
      exact ⟨hdir.placed e₀ hmem z hz, hgo⟩
    · exact hdir.placed f (List.mem_of_getElem? hc) z hz

/-- If the first bit does not separate the elements, the entries with the other value
    of the bit still lead to one of the two bins. -/
theorem SplitDone.mixed_of_dir (hdone : SplitDone key n t₀ b₀ e₀ k t)
    (hb₀ : t₀.bins[b₀]? = some e₀) (hdir : Dir key t₀) (h : Dir key t) :
    Mixed key e₀.depth e₀.bin.live := by
  by_contra hmix
  have hlt := (List.getElem?_eq_some_iff.mp hb₀).1
  obtain ⟨hd, hm⟩ := hdir.bins e₀ (List.mem_of_getElem? hb₀)
  -- the value of the bit that all elements have
  obtain ⟨c, hc⟩ : ∃ c, ∀ z ∈ e₀.bin.live, goesNew key e₀.depth z = c := by
    by_cases hex : ∃ z ∈ e₀.bin.live, goesNew key e₀.depth z = false
    · refine ⟨false, fun z hz => ?_⟩
      by_contra hne
      exact hmix ⟨hex, z, hz, by simpa using hne⟩
    · exact ⟨true, fun z hz => by by_contra hne; exact hex ⟨z, hz, by simpa using hne⟩⟩
  -- an index with the other value
  have hpow : 2 ^ e₀.depth < 2 ^ (e₀.depth + 1) := Nat.pow_lt_pow_right (by decide) (by omega)
  obtain ⟨i, hi, hlow, hbit⟩ : ∃ i < 2 ^ (e₀.depth + 1), i % 2 ^ e₀.depth = e₀.mask ∧
      i.testBit e₀.depth = !c := by
    cases c with
    | true =>
      have hmod : e₀.mask % 2 ^ (e₀.depth + 1) = e₀.mask := Nat.mod_eq_of_lt (by omega)
      exact ⟨e₀.mask, by omega, (mod_two_pow_succ_iff hm _).1.mp hmod⟩
    | false =>
      have hor := Nat.or_lt_two_pow (show e₀.mask < 2 ^ (e₀.depth + 1) by omega) hpow
      exact ⟨e₀.mask ||| 2 ^ e₀.depth, hor, (mod_two_pow_succ_iff hm _).2.mp (Nat.mod_eq_of_lt hor)⟩
  have hlen : i < t.dir.length := by
    rw [hdone.dir.length, hdone.dir.maxDepth]
    exact Nat.lt_of_lt_of_le hi (Nat.pow_le_pow_right (by decide) (by omega))
  -- it leads to one of the halves, and that one has an element
  obtain ⟨x, y, -, hx, hy⟩ := hdone.bins_eq hlt
  obtain ⟨mx, my, xs, ys, hhx, hhy, -, -, hperm, hxs, hys⟩ := hdone.halves hm hx hy
  have hsub := (e₀.pass_sublist key k).subset
  obtain ⟨b, f, z, hentry, hf, hfd, hzf, hz⟩ : ∃ b f z, t.dir[i]? = some b ∧ t.bins[b]? = some f ∧
      f.depth = e₀.depth + k + 1 ∧ z ∈ f.bin.live ∧ z ∈ e₀.bin.live := by
    have hcases : t.dir[i]? = some b₀ ∨ t.dir[i]? = some t₀.bins.length := by
      rcases hdone.dir.entry i hlen with hold | hnew
      · exact Or.inl (hold.trans ((hdir.route_iff hb₀ i).mpr hlow))
      · exact hnew
    rcases hcases with hentry | hentry
    · obtain ⟨z, hz⟩ := List.exists_mem_of_ne_nil xs hxs
      exact ⟨b₀, x, z, hentry, hx, hhx.depth, hhx.live ▸ hz,
        hsub (hperm.subset (List.mem_append_left _ hz))⟩
    · obtain ⟨z, hz⟩ := List.exists_mem_of_ne_nil ys hys
      exact ⟨_, y, z, hentry, hy, hhy.depth, hhy.live ▸ hz,
        hsub (hperm.subset (List.mem_append_right _ hz))⟩
  -- so the index and the element agree in the bit
  have hplaced := h.placed f (List.mem_of_getElem? hf) z hzf
  have hroute := (h.routes i hlen b f hf).mp hentry
  have hagree := congrArg (Nat.testBit · e₀.depth) (hplaced.trans hroute.symm)
  simp only [hfd, Nat.testBit_mod_two_pow, show e₀.depth < e₀.depth + k + 1 by omega, decide_true,
    Bool.true_and, hbit] at hagree
  have hzc : (key.nonzero.hash z).toNat.testBit e₀.depth = c := hc z hz
  rw [hzc] at hagree
  cases c <;> cases hagree

/-- If the bin is far below `max_depth`, entries that should lead to the new bin still
    lead to the old one. -/
theorem SplitDone.depth_of_dir (hdone : SplitDone key n t₀ b₀ e₀ 0 t)
    (hb₀ : t₀.bins[b₀]? = some e₀) (hdir : Dir key t₀) (h : Dir key t) :
    t₀.maxDepth ≤ e₀.depth + 1 := by
  by_contra hgt
  obtain ⟨-, hm⟩ := hdir.bins e₀ (List.mem_of_getElem? hb₀)
  have hpow : 2 ^ e₀.depth < 2 ^ (e₀.depth + 1) := Nat.pow_lt_pow_right (by decide) (by omega)
  have hor := Nat.or_lt_two_pow (show e₀.mask < 2 ^ (e₀.depth + 1) by omega) hpow
  -- the redirected index and the same with one more bit
  have hmod : ((e₀.mask ||| 2 ^ e₀.depth) + 2 ^ (e₀.depth + 1)) % 2 ^ (e₀.depth + 1) =
      e₀.mask ||| 2 ^ e₀.depth := by
    rw [Nat.add_mod_right, Nat.mod_eq_of_lt hor]
  have hbits := (mod_two_pow_succ_iff hm _).2.mp hmod
  have hlen : (e₀.mask ||| 2 ^ e₀.depth) + 2 ^ (e₀.depth + 1) < t.dir.length := by
    rw [hdone.dir.length, hdone.dir.maxDepth]
    have : 2 ^ (e₀.depth + 2) ≤ 2 ^ max t₀.maxDepth (e₀.depth + 0 + 1) :=
      Nat.pow_le_pow_right (by decide) (by omega)
    rw [Nat.pow_succ 2 (e₀.depth + 1)] at this
    omega
  have hentry := hdone.entry_zero hlen
  rw [if_neg (by omega), (hdir.route_iff hb₀ _).mpr hbits.1] at hentry
  obtain ⟨x, hx, hhx⟩ := hdone.stays
  have hroute := (h.routes _ hlen b₀ x hx).mp hentry
  rw [hhx.depth, hhx.mask] at hroute
  have := ((mod_two_pow_succ_iff hm _).1.mp hroute).2
  rw [hbits.2] at this
  cases this

theorem SplitDone.dir_iff (hdone : SplitDone key n t₀ b₀ e₀ k t) (hshape : DirShape t₀)
    (hb₀ : t₀.bins[b₀]? = some e₀) (hdir : Dir key t₀) :
    Dir key t ↔ t₀.maxDepth ≤ e₀.depth + 1 ∧ Mixed key e₀.depth e₀.bin.live := by
  constructor
  · intro h
    have hmix := hdone.mixed_of_dir hb₀ hdir h
    have hk := hdone.eq_zero hmix
    subst hk
    exact ⟨hdone.depth_of_dir hb₀ hdir h, hmix⟩
  · rintro ⟨hdepth, hmix⟩
    have hk := hdone.eq_zero hmix
    subst hk
    exact hdone.keeps_dir hshape hb₀ hdir hdepth

end Split

theorem WellFormed.split_dir_iff (hkey : key.Lawful) (target : Target) {t t' : Ixht El (List Group)}
    (h : WellFormed key t) (hdir : Dir key t) {b : Nat} {e : Ebin El (List Group)}
    (hb : t.bins[b]? = some e)
    (hsplit : Returns (fun fuel => ixhtSplitBin (ixhtOps key target) key fuel t b) t') :
    Dir key t' ↔ t.maxDepth ≤ e.depth + 1 ∧ Mixed key e.depth e.bin.live := by
  obtain ⟨a, k, hsim, hdone⟩ := h.split_done hkey target hb hsplit
  rw [hsim.dir_iff, hdone.dir_iff h.ideal_shape (idealIxht_getElem? hb) (h.sim.dir_iff.mp hdir)]
  rfl

/-- `ixht_create` establishes the invariant, and `ixht_split_bin` keeps it in exactly
    one case: the bin has depth `max_depth` or `max_depth - 1`, and its live elements
    differ in the next bit of their hashes. -/
theorem ixht_split_dir {maxPower : Nat} (hkey : key.Lawful) (hpower : PowerOk maxPower)
    (target : Target) :
    (∀ minSize ≤ 2 ^ 31, ∃ t, Returns (fun fuel => ixhtCreate maxPower (ixhtOps key target) fuel
      minSize) t ∧ WellFormed key t ∧ Dir key t) ∧
    ∀ t, WellFormed key t → Dir key t → ∀ b e t', t.bins[b]? = some e →
      Returns (fun fuel => ixhtSplitBin (ixhtOps key target) key fuel t b) t' →
      (Dir key t' ↔ t.maxDepth ≤ e.depth + 1 ∧ Mixed key e.depth e.bin.live) := by
  refine ⟨fun minSize hmin => ?_, fun t h hdir b e t' hb hsplit =>
    h.split_dir_iff hkey target hdir hb hsplit⟩
  obtain ⟨t, a, ht, ha, hta, -⟩ :=
    ixhtCreate_follows (ixhtOps_lawful hkey target) hkey hpower hmin
  obtain ⟨fuel, hfuel⟩ := ha.exists_some
  exact ⟨t, ht, hta.wellFormed hpower, hta.sim.dir_iff.mpr (ixhtCreate_dir hkey hpower hfuel)⟩

/-! ## Tables of one bin -/

def oneBin (n : Nat) (bin : IdealBin (BitVec 64)) : IdealIxht (BitVec 64) :=
  { sampleIxht (idealIxhtOps identityKey) with elsNum := n, bins := [⟨0, 0, 0, bin⟩] }

theorem oneBin_dir (n : Nat) (bin : IdealBin (BitVec 64)) : Dir identityKey (oneBin n bin) := by
  have hbin : ∀ e ∈ (oneBin n bin).bins, e = ⟨0, 0, 0, bin⟩ := fun e he => List.mem_singleton.mp he
  refine ⟨rfl, rfl, ?_, ?_, ?_⟩
  · intro e he
    rw [hbin e he]
    exact ⟨Nat.le_refl 0, Nat.one_pos⟩
  · -- every number leads to the only bin
    intro i hi b e hb
    have hi0 : i = 0 := Nat.lt_one_iff.mp hi
    have hb0 : b = 0 := Nat.lt_one_iff.mp (List.getElem?_eq_some_iff.mp hb).1
    rw [hbin e (List.mem_of_getElem? hb), hi0, hb0]
    exact ⟨fun _ => rfl, fun _ => rfl⟩
  · intro e he x _
    rw [hbin e he, Nat.pow_zero, Nat.mod_one]

/-- The real table that a run of the ideal one stands for. -/
theorem exists_oneBin {calls : List (Call (BitVec 64))} {n fuel : Nat} {bin : IdealBin (BitVec 64)}
    {rs : List (Reply (Nat × Nat) (BitVec 64))} (hcalls : ∀ c ∈ calls, c.Ok identityKey)
    (hlen : calls.length ≤ 2 ^ 31)
    (hrun : ixhtRun IXHT_MAX_BIN_SIZE_POWER (idealIxhtOps identityKey) identityKey fuel
      (sampleIxht (idealIxhtOps identityKey)) calls = some (rs, oneBin n bin)) :
    ∃ t e, WellFormed identityKey t ∧ Dir identityKey t ∧ IxSim SlotsOk t (oneBin n bin) ∧
      t.bins[0]? = some e ∧ EbinSim SlotsOk e ⟨0, 0, 0, bin⟩ := by
  have hideal := idealOps_lawful ixhtWidths identityKey.nonzero 0
  obtain ⟨t, -, hta⟩ := (sampleIxht_follows powerOk_source).run_of_ideal
    (ixhtOps_lawful identityKey_lawful .swar) identityKey_lawful powerOk_source (by decide) hcalls
    (Nat.le_trans (Nat.le_of_eq (Nat.zero_add _)) hlen)
    ((runCalls_mono (ixhtStep_mono hideal.mono) _ calls).returns hrun)
  obtain ⟨e, he, hee⟩ := Forall₂.exists_of_right hta.sim.bins
    (show (oneBin n bin).bins[0]? = some ⟨0, 0, 0, bin⟩ from rfl)
  exact ⟨t, e, hta.wellFormed powerOk_source, hta.sim.dir_iff.mpr (oneBin_dir n bin), hta.sim, he,
    hee⟩

def smallBin (xs : List (BitVec 64)) : IdealBin (BitVec 64) :=
  (ixhtCreateBin (idealIxhtOps identityKey) 4).bin.refill identityKey.nonzero.hash xs

/-- A table that holds `1` and `2`, and its split, which the first bit decides. -/
theorem exists_even_split :
    ∃ t e t', WellFormed identityKey t ∧ Dir identityKey t ∧ t.maxDepth = 0 ∧
      t.bins[0]? = some e ∧ e.depth = 0 ∧ Mixed identityKey 0 e.bin.live ∧
      Returns (fun fuel => ixhtSplitBin (ixhtOps identityKey .swar) identityKey fuel t 0) t' := by
  obtain ⟨t, e, hwf, hdir, hsim, hb, hee⟩ := exists_oneBin (n := 2)
    (plainCalls_ok identityKey_lawful [(.insert, 1), (.insert, 2)]) (by decide)
    (show ixhtRun _ _ _ 1 _ _ = some (_, oneBin 2 (smallBin [1, 2])) from rfl)
  have hd : e.depth = 0 := hee.depth
  have hmix : Mixed identityKey 0 e.bin.live := by
    rw [← hee.bin.live, mixed_iff]
    decide
  obtain ⟨t', ht'⟩ := (hwf.split_returns_iff identityKey_lawful .swar hb).mpr
    ⟨0, by omega, by rw [hd]; exact hmix⟩
  exact ⟨t, e, t', hwf, hdir, hsim.maxDepth, hb, hd, hmix, ht'⟩

theorem ixht_split_dir_even :
    ∃ t t', WellFormed identityKey t ∧ Dir identityKey t ∧
      Returns (fun fuel => ixhtSplitBin (ixhtOps identityKey .swar) identityKey fuel t 0) t' ∧
      Dir identityKey t' := by
  obtain ⟨t, e, t', hwf, hdir, hmax, hb, hd, hmix, ht'⟩ := exists_even_split
  refine ⟨t, t', hwf, hdir, ht', ?_⟩
  exact ((ixht_split_dir identityKey_lawful powerOk_source .swar).2 t hwf hdir 0 e t' hb ht').mpr
    ⟨by omega, hd ▸ hmix⟩

/-- A split that takes two passes, of elements `2` and `4`: `dir[1]` leads to the new
    bin, though no number that is `1` in the first bit belongs there. -/
theorem ixht_split_dir_skewed :
    ∃ t t', WellFormed identityKey t ∧ Dir identityKey t ∧
      Returns (fun fuel => ixhtSplitBin (ixhtOps identityKey .swar) identityKey fuel t 0) t' ∧
      ¬ Dir identityKey t' := by
  obtain ⟨t, e, hwf, hdir, -, hb, hee⟩ := exists_oneBin (n := 2)
    (plainCalls_ok identityKey_lawful [(.insert, 2), (.insert, 4)]) (by decide)
    (show ixhtRun _ _ _ 1 _ _ = some (_, oneBin 2 (smallBin [2, 4])) from rfl)
  have hd : e.depth = 0 := hee.depth
  have hfirst : ¬ Mixed identityKey 0 (e.pass identityKey 0).els := by
    rw [hee.pass, mixed_iff]
    decide
  have hsecond : Mixed identityKey 1 (e.pass identityKey 1).els := by
    rw [hee.pass, mixed_iff]
    decide
  obtain ⟨t', ht'⟩ := (hwf.split_returns_iff identityKey_lawful .swar hb).mpr
    ⟨1, by omega, by rw [hd]; exact hsecond⟩
  refine ⟨t, t', hwf, hdir, ht', fun hdir' => hfirst ?_⟩
  have := ((hwf.split_dir_iff identityKey_lawful .swar hdir hb ht').mp hdir').2
  rwa [hd] at this

end IndexedHash
