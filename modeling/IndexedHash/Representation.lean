import Mathlib.Data.Set.Function
import Mathlib.Tactic.Common
import IndexedHash.IhtRefinement

/-!
# The representation invariant

`BinRep` is the invariant of a bin with interleaved groups in terms of what is in
memory: tags, stored indices, the bitmap and the dense array.  It holds exactly of
the bins that stand for an ideal bin in order (`binRep_iff`), so it is kept by every
call of every session (`iht_representation`), and conversely whatever is shown of
such bins by way of the ideal index holds of every bin that satisfies it.

`iht_targets_agree` uses the converse.  The SWAR match mask is not exact, but on a
bin that satisfies the invariant its additional flags lead to initialised elements
of another hash, so `iht_do_1` is the same on every target.
-/

namespace IndexedHash

open Loop ByteWord KeyedList Probing

variable {El : Type} {w : Widths} {key : Key El} {b : Hbin El (List Group)}

def LiveSlot (groups : List Group) (s : Nat) : Prop := ∃ t, slotTag groups s = some t ∧ t < 0x80#8

def LivePos (b : Hbin El (List Group)) (i : Nat) : Prop :=
  i < b.elsBound ∧ b.deleted.test i = false

structure BinRep (w : Widths) (key : Key El) (b : Hbin El (List Group)) : Prop where
  pow2 : ∃ k ≤ w.size, b.numGroups = 2 ^ k
  groups_length : b.groups.length = b.numGroups
  els_length : b.els.length = b.elsSize
  deleted_length : b.deleted.length = (b.elsSize + 7) / 8
  bound : b.elsBound ≤ b.elsSize
  valid : ∀ s t, slotTag b.groups s = some t → ValidTag t
  /-- every used position has used up one slot -/
  used : slotCount (8 * b.numGroups) (fun s => slotTag b.groups s ≠ some EMPTY_H7) = b.elsBound
  stored : ∀ s t, slotTag b.groups s = some t → t ≠ EMPTY_H7 →
    ∃ i < b.elsBound, slotInd b.groups s = some i
  bijective : Set.BijOn (slotInd b.groups) {s | LiveSlot b.groups s}
    (Set.image some {i | LivePos b i})
  initialised : ∀ i, LivePos b i → ∃ x, b.elAt i = some x
  tag_eq : ∀ s t i x, slotTag b.groups s = some t → t < 0x80#8 → slotInd b.groups s = some i →
    b.elAt i = some x → t = h7Val (key.hash x)
  /-- as many deleted tags as deleted bits -/
  dead : slotCount (8 * b.numGroups) (fun s => slotTag b.groups s = some DELETED_H7) =
    slotCount (8 * b.deleted.length) (fun i => b.deleted.test i = true)
  clear : ∀ i, b.elsBound ≤ i → b.deleted.test i = false
  apart : ∀ i j x y, LivePos b i → LivePos b j → b.elAt i = some x → b.elAt j = some y → i ≠ j →
    key.eq x y = false
  /-- no empty slot between the home group of an element and its own -/
  path : ∀ s i x, LiveSlot b.groups s → slotInd b.groups s = some i → b.elAt i = some x →
    OnPath (GroupFull b.groups) b.numGroups ((key.hash x).toNat / 8) (s / 8)

/-! ## Counting positions -/

theorem slotCount_eq_length {m : Nat} {p : Nat → Prop} [DecidablePred p] :
    slotCount m p = ((List.range m).filter p).length := rfl

/-- A property that fails from `m` on is counted below `m`. -/
theorem slotCount_of_le {m n : Nat} {p : Nat → Prop} [DecidablePred p] (hmn : m ≤ n)
    (h : ∀ i, m ≤ i → ¬ p i) : slotCount n p = slotCount m p := by
  unfold slotCount
  congr 1
  ext i
  simp only [Finset.mem_filter, Finset.mem_range]
  constructor
  · rintro ⟨-, hi⟩
    refine ⟨?_, hi⟩
    by_contra hge
    exact h i (by omega) hi
  · rintro ⟨hi, hp⟩
    exact ⟨by omega, hp⟩

/-- The positions below `bound` are the deleted ones and the others. -/
theorem deleted_count {map : Bitmap} {bound : Nat} (hbits : bound ≤ 8 * map.length)
    (hclear : ∀ i, bound ≤ i → map.test i = false) :
    slotCount (8 * map.length) (fun i => map.test i = true) +
      ((List.range bound).filter fun i => !map.test i).length = bound := by
  have hlen : ((List.range bound).filter fun i => !map.test i).length =
      slotCount bound (fun i => ¬ map.test i = true) := by
    rw [slotCount_eq_length]
    congr 1
    apply List.filter_congr
    intro i _
    simp
  rw [slotCount_of_le hbits (fun i hi => by simp [hclear i hi]), hlen]
  exact slotCount_add_not bound fun i => map.test i = true

/-! ## From the ideal index -/

section ToRep

variable {a : IdealBin El}

theorem DenseOk.livePos_iff (h : DenseOk w key a) (hsim : BinSim SlotsOk b a) (i : Nat) :
    LivePos b i ↔ ∃ e ∈ a.groups, e.pos = i := by
  have hmem : i ∈ a.groups.map Entry.pos ↔ LivePos b i := by
    rw [h.positions, List.mem_filter, List.mem_range, hsim.elsBound, hsim.deleted, LivePos]
    simp
  rw [← hmem, List.mem_map]

theorem BinRep.of_sim (hsim : BinSim SlotsOk b a) (h : DenseOk w key a) : BinRep w key b := by
  have hslots := hsim.slots
  have hn := hsim.numGroups
  have hsize : b.elsSize = a.elsSize := by rw [Hbin.elsSize, Hbin.elsSize, hn]
  have hlive := h.livePos_iff hsim
  -- the entry a live slot leads to
  have hentry : ∀ s t, slotTag b.groups s = some t → t < 0x80#8 →
      ∃ e ∈ a.groups, slotInd b.groups s = some e.pos ∧ t = h7Val e.hash ∧
        ∀ x, b.elAt e.pos = some x → key.hash x = e.hash := by
    intro s t ht hlt
    obtain ⟨e, he, hte, hse⟩ := hslots.slot s t ht hlt
    refine ⟨e, he, hse, hte, fun x hx => ?_⟩
    obtain ⟨-, y, hy, hyh⟩ := h.index.entry e he
    rw [hsim.elAt, hx, Option.some.injEq] at hy
    rw [hy, hyh]
  constructor
  case pow2 => rw [← hn]; exact h.index.pow2
  case groups_length => exact hslots.length
  case els_length => rw [hsize, ← h.capacity, hsim.els]
  case deleted_length => rw [hsize, ← h.bytes, hsim.deleted]
  case bound => rw [hsize, ← hsim.elsBound]; exact h.bound
  case valid => exact hslots.valid
  case used => exact hslots.used
  case stored => exact hslots.stored
  case bijective =>
    refine ⟨?_, ?_, ?_⟩
    · rintro s ⟨t, ht, hlt⟩
      obtain ⟨e, he, hse, -, -⟩ := hentry s t ht hlt
      exact ⟨e.pos, (hlive e.pos).mpr ⟨e, he, rfl⟩, hse.symm⟩
    · rintro s ⟨t, ht, hlt⟩ s' ⟨t', ht', hlt'⟩ hss
      exact hslots.inj s s' t t' ht ht' hlt hlt' hss
    · rintro _ ⟨i, hi, rfl⟩
      obtain ⟨e, he, rfl⟩ := (hlive i).mp hi
      obtain ⟨s, hst, hsi, -⟩ := hslots.entry e he
      exact ⟨s, ⟨_, hst, h7Val_lt e.hash⟩, hsi⟩
  case initialised =>
    intro i hi
    obtain ⟨e, he, rfl⟩ := (hlive i).mp hi
    obtain ⟨-, x, hx, -⟩ := h.index.entry e he
    exact ⟨x, by rw [← hsim.elAt, hx]⟩
  case tag_eq =>
    intro s t i x ht hlt hsi hx
    obtain ⟨e, he, hse, hte, hhash⟩ := hentry s t ht hlt
    rw [hsi, Option.some.injEq] at hse
    subst hse
    rw [hte, hhash x hx]
  case dead =>
    have hcount := deleted_count h.index.bitmap h.clear
    rw [← h.positions, List.length_map, hsim.elsBound, hsim.deleted] at hcount
    have hdead := hslots.dead
    omega
  case clear =>
    intro i hi
    rw [← hsim.deleted]
    exact h.clear i (by rw [hsim.elsBound]; exact hi)
  case apart =>
    intro i j x y hi hj hx hy hij
    obtain ⟨e, he, rfl⟩ := (hlive i).mp hi
    obtain ⟨f, hf, rfl⟩ := (hlive j).mp hj
    by_contra hxy
    refine hij (h.index.apart e he f hf x y ?_ ?_ (by simpa using hxy))
    · rw [hsim.elAt, hx]
    · rw [hsim.elAt, hy]
  case path =>
    rintro s i x ⟨t, ht, hlt⟩ hsi hx
    obtain ⟨e, he, hse, hte, hhash⟩ := hentry s t ht hlt
    obtain ⟨s', hst', hsi', hpath⟩ := hslots.entry e he
    have heq := hslots.inj s s' t _ ht hst' hlt (h7Val_lt _) (by rw [hse, hsi'])
    rw [hsi, Option.some.injEq] at hse
    subst hse
    rw [hhash x hx, heq]
    exact hpath

end ToRep

/-! ## To the ideal index -/

def idealOf (key : Key El) (b : Hbin El (List Group)) : IdealBin El :=
  b.withGroups (((List.range b.elsBound).filter fun i => !b.deleted.test i).map fun i =>
    ⟨i, ((b.elAt i).map key.hash).getD 0#64⟩)

section FromRep

theorem mem_idealOf {e : Entry} (h : BinRep w key b) :
    e ∈ (idealOf key b).groups ↔
      LivePos b e.pos ∧ ∃ x, b.elAt e.pos = some x ∧ key.hash x = e.hash := by
  simp only [idealOf, Hbin.withGroups_groups, List.mem_map, List.mem_filter, List.mem_range]
  constructor
  · rintro ⟨i, ⟨hi, hdel⟩, rfl⟩
    have hlive : LivePos b i := ⟨hi, by simpa using hdel⟩
    obtain ⟨x, hx⟩ := h.initialised i hlive
    exact ⟨hlive, x, hx, by simp [hx]⟩
  · rintro ⟨⟨hi, hdel⟩, x, hx, hhash⟩
    refine ⟨e.pos, ⟨hi, by simp [hdel]⟩, ?_⟩
    simp [hx, hhash]

theorem idealOf_positions (key : Key El) (b : Hbin El (List Group)) :
    (idealOf key b).groups.map Entry.pos =
      (List.range b.elsBound).filter fun i => !b.deleted.test i := by
  simp only [idealOf, Hbin.withGroups_groups, List.map_map]
  exact List.map_id _

theorem BinRep.denseOk (h : BinRep w key b) : DenseOk w key (idealOf key b) := by
  have hbits : b.elsBound ≤ 8 * b.deleted.length := by
    have := h.bound
    have := h.deleted_length
    omega
  refine ⟨⟨h.pow2, ?_, ?_, ?_, hbits⟩, idealOf_positions key b, h.els_length, h.deleted_length,
    h.clear, h.bound⟩
  · rw [idealOf_positions]
    exact List.nodup_range.filter _
  · intro e he
    obtain ⟨hlive, hx⟩ := (mem_idealOf h).mp he
    exact ⟨hlive.1, hx⟩
  · intro e he f hf x y hx hy hxy
    by_contra hne
    have := h.apart e.pos f.pos x y ((mem_idealOf h).mp he).1 ((mem_idealOf h).mp hf).1 hx hy hne
    rw [this] at hxy
    cases hxy

theorem BinRep.sim (h : BinRep w key b) : BinSim SlotsOk b (idealOf key b) := by
  -- the entry a live slot leads to
  have hslot : ∀ s t, slotTag b.groups s = some t → t < 0x80#8 → ∃ e ∈ (idealOf key b).groups,
      ∃ x, t = h7Val e.hash ∧ slotInd b.groups s = some e.pos ∧ b.elAt e.pos = some x ∧
        key.hash x = e.hash := by
    intro s t ht hlt
    obtain ⟨i, hi, hsi⟩ := h.bijective.mapsTo (show LiveSlot b.groups s from ⟨t, ht, hlt⟩)
    obtain ⟨x, hx⟩ := h.initialised i hi
    refine ⟨⟨i, key.hash x⟩, (mem_idealOf h).mpr ⟨hi, x, hx, rfl⟩, x, ?_, hsi.symm, hx, rfl⟩
    exact h.tag_eq s t i x ht hlt hsi.symm hx
  refine ⟨rfl, h.groups_length, h.valid, h.used, ?_, h.stored, ?_, ?_, ?_⟩
  · have hbits : b.elsBound ≤ 8 * b.deleted.length := h.denseOk.index.bitmap
    have hcount := deleted_count hbits h.clear
    rw [← idealOf_positions key b, List.length_map] at hcount
    rw [h.dead]
    exact hcount
  · intro s t ht hlt
    obtain ⟨e, he, x, hte, hse, -, -⟩ := hslot s t ht hlt
    exact ⟨e, he, hte, hse⟩
  · intro s s' t t' ht ht' hlt hlt' hss
    exact h.bijective.injOn (show LiveSlot b.groups s from ⟨t, ht, hlt⟩)
      (show LiveSlot b.groups s' from ⟨t', ht', hlt'⟩) hss
  · intro e he
    obtain ⟨hlive, x, hx, hhash⟩ := (mem_idealOf h).mp he
    obtain ⟨s, ⟨t, ht, hlt⟩, hsi⟩ := h.bijective.surjOn ⟨e.pos, hlive, rfl⟩
    have htag := h.tag_eq s t e.pos x ht hlt hsi hx
    rw [hhash] at htag
    refine ⟨s, by rw [ht, htag], hsi, ?_⟩
    rw [← hhash]
    exact h.path s e.pos x ⟨t, ht, hlt⟩ hsi hx

/-- The invariant holds of exactly the bins that stand for an ideal bin in order. -/
theorem binRep_iff : BinRep w key b ↔ ∃ a, BinSim SlotsOk b a ∧ DenseOk w key a := by
  constructor
  · intro h
    exact ⟨idealOf key b, h.sim, h.denseOk⟩
  · rintro ⟨a, hsim, hok⟩
    exact BinRep.of_sim hsim hok

end FromRep

/-! ## `ihtab.h` -/

/-- The invariant of `ihtab.h` between two calls. -/
structure IhtRep (key : Key El) (t : Iht El (List Group)) : Prop where
  bin : BinRep ihtWidths key t.bin
  room : t.bin.elsBound ≤ t.bin.elsSize - 1
  count : t.elsNum + slotCount (8 * t.bin.deleted.length) (fun i => t.bin.deleted.test i = true) =
    t.bin.elsBound

theorem IhtSim.rep {t : Iht El (List Group)} {a : IdealIht El} (h : IhtSim (2 ^ 32) SlotsOk t a)
    (hok : IhtOk key a) (hle : a.bin.elsBound ≤ 2 ^ 32) : IhtRep key t := by
  have hbin := h.bin.sim hle
  refine ⟨BinRep.of_sim hbin hok.dense, ?_, ?_⟩
  · have hroom := hok.room
    rw [Hbin.elsSize, hbin.numGroups, hbin.elsBound] at hroom
    rw [Hbin.elsSize]
    omega
  · have hcount := deleted_count hok.dense.index.bitmap hok.dense.clear
    rw [← hok.dense.positions, List.length_map, ← hok.dense.length_live, ← hok.count, ← h.elsNum,
      hbin.elsBound, hbin.deleted] at hcount
    omega

theorem IhtSession.rep (hkey : key.Lawful) (target : Target) {minSize : Nat}
    {t₀ : Iht El (List Group)} {calls : List (Call El)}
    (h : IhtSession (ihtOps key target) key (2 ^ 32) minSize t₀ calls)
    {rs : List (Reply Nat El)} {t : Iht El (List Group)}
    (hrun : Returns (fun fuel => ihtRun (ihtOps key target) key fuel t₀ calls) (rs, t)) :
    IhtRep key t := by
  obtain ⟨a₀, rs', t', a, -, hrun', -, hsim, hle, hok, -, -⟩ :=
    h.spec (ihtOps_lawful hkey target) hkey (Nat.le_refl _)
  obtain ⟨-, rfl⟩ := Prod.mk.inj (hrun.unique hrun')
  exact hsim.rep hok hle

/-- The invariant holds in every state that a session can reach. -/
theorem iht_representation (hkey : key.Lawful) (target : Target) {minSize : Nat}
    {t₀ : Iht El (List Group)} {calls pre : List (Call El)}
    (h : IhtSession (ihtOps key target) key (2 ^ 32) minSize t₀ calls) (hpre : pre <+: calls) :
    ∃ rs t, Returns (fun fuel => ihtRun (ihtOps key target) key fuel t₀ pre) (rs, t) ∧
      IhtRep key t := by
  obtain ⟨a₀, rs, t, a, -, hrun, -⟩ :=
    (h.initial hpre).spec (ihtOps_lawful hkey target) hkey (Nat.le_refl _)
  exact ⟨rs, t, hrun, (h.initial hpre).rep hkey target hrun⟩

/-- The table after the second of the rebuilds. -/
theorem iht_representation_sample :
    IhtSession (ihtOps identityKey .sse2) identityKey (2 ^ 32) 4
        (sampleTable (ihtOps identityKey .sse2)) sampleCalls ∧
      ∃ rs t, Returns (fun fuel => ihtRun (ihtOps identityKey .sse2) identityKey fuel
          (sampleTable (ihtOps identityKey .sse2)) (sampleCalls.take 12)) (rs, t) ∧
        IhtRep identityKey t := by
  have h := (sampleSession .sse2).mono (2 ^ 32) (by decide)
  exact ⟨h, iht_representation identityKey_lawful .sse2 h (List.take_prefix 12 sampleCalls)⟩

/-! ## The targets -/

section Targets

variable {gops gops' : GroupOps}

/-- The probe loop meets the same slots on every lawful target. -/
theorem probe_congr (hgops : gops.Lawful ValidTag EMPTY_H7)
    (hgops' : gops'.Lawful ValidTag EMPTY_H7) (hkey : key.Lawful) (h : BinRep w key b) (fuel : Nat)
    (el : El) :
    probe w gops key.eq fuel b (key.hash el) el = probe w gops' key.eq fuel b (key.hash el) el := by
  have hok := h.denseOk.index
  obtain ⟨hhome, -⟩ := Hbin.walk hok.pow2 (key.hash el)
  have hn : 0 < b.numGroups := Nat.succ_pos _
  refine forever_congr (fun g => g < b.numGroups) ?_ ?_ fuel ?_
  · intro g hg
    rw [probeGroup_eq hgops hkey h.sim hok el hg, probeGroup_eq hgops' hkey h.sim hok el hg]
  · intro g g' hg hstep
    rw [probeGroup_eq hgops hkey h.sim hok el hg, Option.some.injEq] at hstep
    unfold probeGroupSpec at hstep
    split at hstep
    · cases hstep
    · split at hstep
      · cases hstep
      · rw [Step.again.injEq] at hstep
        rw [← hstep]
        exact Nat.lt_succ_of_le Nat.and_le_right
  · have hlt := Nat.mod_lt ((key.hash el).toNat / 8) hn
    exact Nat.lt_of_le_of_lt (Nat.le_of_eq hhome) hlt

end Targets

/-- The targets differ in the masks they compute and not in what `iht_do_1` does.
    The SWAR match mask flags the bytes equal to `h7` and otherwise only bytes equal
    to `h7 ^ 1`, the lowest one it flags is a match, and the empty masks are exact. -/
theorem iht_targets_agree (hkey : key.Lawful) :
    (∀ (tags : Tags) (h7 : BitVec 8), (∀ t ∈ tags, ValidTag t) → h7 < 0x80#8 →
      (∀ target : Target, target ≠ .swar →
        target.ops.flagged (ihtMatchMask target (target.ops.groupLoad tags.toList) h7) =
          (List.range 8).filter fun j => tags[j]? = some h7) ∧
      (∀ target : Target,
        target.ops.flagged (ihtMatchEmpty target (target.ops.groupLoad tags.toList)) =
          (List.range 8).filter fun j => tags[j]? = some EMPTY_H7) ∧
      let flags := Target.swar.ops.flagged
        (ihtMatchMask .swar (Target.swar.ops.groupLoad tags.toList) h7)
      (∀ j, tags[j]? = some h7 → j ∈ flags) ∧
      (∀ j ∈ flags, tags[j]? = some h7 ∨ tags[j]? = some (h7 ^^^ 1#8)) ∧
      ∀ j, flags.head? = some j → tags[j]? = some h7) ∧
    ∀ t : Iht El (List Group), IhtRep key t → ∀ (target : Target) (fuel : Nat) (el : El)
      (action : Action),
      probe ihtWidths target.ops key.eq fuel t.bin (key.hash el) el =
        probe ihtWidths Target.swar.ops key.eq fuel t.bin (key.hash el) el ∧
      (ihtOps key target).do1 fuel t.elsNum t.bin (key.hash el) el action =
        (ihtOps key .swar).do1 fuel t.elsNum t.bin (key.hash el) el action := by
  constructor
  · intro tags h7 hvalid _
    refine ⟨fun target htarget => Target.matches_exact htarget tags h7,
      fun target => target.lawful.matches_empty tags hvalid, ?_, ?_, fun j hj => swar_first_match hj⟩
    · intro j hj
      have hlt : j < 8 := by
        by_contra hge
        rw [Vector.getElem?_eq_none (by omega)] at hj
        cases hj
      obtain ⟨p, hflags, hall, -⟩ := Target.swar.matches_h7 tags h7
      exact hflags ▸ List.mem_filter.mpr ⟨List.mem_range.mpr hlt, hall j hj⟩
    · intro j hj
      obtain ⟨p, hflags, -, honly⟩ := Target.swar.matches_h7 tags h7
      obtain ⟨hlt, hp⟩ := List.mem_filter.mp (hflags ▸ hj)
      exact honly j (List.mem_range.mp hlt) hp
  · intro t ht target fuel el action
    have hprobe := probe_congr target.lawful Target.swar.lawful hkey ht.bin fuel el
    exact ⟨hprobe, congrArg (Option.bind · _) hprobe⟩

def sampleTags : Tags := #v[5, 4, 0x80, 0xc0, 0xc0, 0xc0, 0xc0, 0xc0]

theorem iht_targets_agree_sample :
    Target.swar.ops.flagged (ihtMatchMask .swar (loadLE sampleTags.toList) 5#8) = [0, 1] ∧
      (∀ j ∈ Target.swar.ops.flagged (ihtMatchMask .swar (loadLE sampleTags.toList) 5#8),
        sampleTags[j]? = some 5#8 ∨ sampleTags[j]? = some 4#8) ∧
      ∃ t, IhtRep identityKey t ∧
        probe ihtWidths Target.sse2.ops identityKey.eq 4 t.bin 6#64 6#64 =
          probe ihtWidths Target.swar.ops identityKey.eq 4 t.bin 6#64 6#64 := by
  obtain ⟨hmasks, hsame⟩ := iht_targets_agree identityKey_lawful
  obtain ⟨-, -, -, honly, -⟩ := hmasks sampleTags 5#8 (by unfold ValidTag; decide +kernel)
    (by decide)
  have hsession := ((sampleSession .sse2).mono (2 ^ 32) (by decide)).initial
    (List.take_prefix 12 sampleCalls)
  obtain ⟨a₀, rs, t, a, -, hrun, -⟩ :=
    hsession.spec (ihtOps_lawful identityKey_lawful .sse2) identityKey_lawful (Nat.le_refl _)
  have ht := hsession.rep identityKey_lawful .sse2 hrun
  exact ⟨by decide +kernel, honly, t, ht, (hsame t ht .sse2 4 6#64 .find).1⟩

end IndexedHash
