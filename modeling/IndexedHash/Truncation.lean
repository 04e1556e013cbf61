import Mathlib.Tactic.Common
import IndexedHash.Appending
import IndexedHash.BinCalls

/-!
# Positions that a stored index cannot hold

`iht_do_1` stores `(iht_ind_t) els_bound`, the position of a new element in 32 bits, and
nothing keeps `els_bound` below `2 ^ 32`.  A bin with more used positions than that may
lead to wrong elements, and it stays so until a rebuild stores every index anew.  So in
every state that calls can reach the bin is in order as far as its indices can be exact
(`Hbin.Exact`), whatever has happened before.

`iht_index_exact_iff` says for every such state whether the index that an INSERT stores
is the position of its element.
-/

namespace IndexedHash

open Loop KeyedList Probing

variable {El : Type} {key : Key El} {target : Target}

/-! ## Bins whose indices are exact -/

/-- The bin is in order if no position is beyond the range of a stored index. -/
def Hbin.Exact (key : Key El) (b : Hbin El (List Group)) : Prop :=
  b.elsBound ≤ 2 ^ 32 → BinRep ihtWidths key b

section Step

variable {b b' : Hbin El (List Group)} {c : Call El} {fuel n : Nat} {o : Outcome El (List Group)}

theorem Hbin.Exact.step (hkey : key.Lawful) (h : b.Exact key) (hprobe : Probeable ihtWidths b)
    (hc : c.Ok key)
    (hdo : (ihtOps key target).do1 fuel n b (key.hash c.el) c.el c.action = some o)
    (hwritten : o.written c = some b') : b'.Exact key := by
  intro hle
  have heffect := hprobe.do1_effect target.lawful hdo
  have hbound := (heffect.written hprobe hwritten).2.2
  have hb := Nat.le_trans (Nat.le.intro hbound.symm) hle
  exact ((h hb).step hkey hb hc hdo hwritten).rep hle

/-- Where nothing is deleted, every used position counts. -/
theorem Probeable.length_live {w : Widths} (h : Probeable w b)
    (hclear : ∀ i, b.deleted.test i = false) : b.live.length = b.elsBound := by
  have hlength := congrArg List.length (Hbin.take_els hclear h.initialised)
  rw [List.length_map, List.length_take, h.els_length, Nat.min_eq_left h.bound] at hlength
  exact hlength.symm

theorem Effect.keeps_deleted {w : Widths} {eq : El → El → Bool} {hash : BitVec 64} {el : El}
    {action : Action} (he : Effect w eq n b hash el action o) (haction : action ≠ .delete)
    (hwritten : o.written c = some b') : b'.deleted = b.deleted := by
  have hstore : ∀ {d : Hbin El (List Group)} {i : Nat} {x : El}, d.store? i x = some b' →
      b'.deleted = d.deleted := by
    intro d i x hd
    obtain ⟨-, rfl⟩ := Hbin.store?_eq_some_iff.mp hd
    rfl
  cases he with
  | found _ _ =>
    cases hup : c.update with
    | none =>
      simp only [Outcome.written, hup, if_true, Option.some.injEq] at hwritten
      rw [hwritten]
    | some y =>
      simp only [Outcome.written, hup, if_true] at hwritten
      exact hstore hwritten
  | added _ _ _ _ =>
    simp only [Outcome.written, Bool.false_eq_true, if_false] at hwritten
    exact (hstore hwritten).trans rfl
  | removed _ => exact absurd rfl haction
  | absent _ _ =>
    simp only [Outcome.written, Option.some.injEq] at hwritten
    rw [hwritten]

end Step

/-! ## Rebuilding from any state -/

def distinct (eq : El → El → Bool) (xs : List El) : List El :=
  (refRun eq [] (xs.map Call.rewrite)).2

theorem Call.rewrite_ok (hkey : key.Lawful) (x : El) : (Call.rewrite x).Ok key := by
  refine ⟨hkey.refl x, ?_⟩
  rintro y ⟨⟩
  exact hkey.refl x

theorem distinct_concat (eq : El → El → Bool) (xs : List El) (x : El) :
    distinct eq (xs ++ [x]) = (refStep eq (distinct eq xs) (Call.rewrite x)).2 := by
  rw [distinct, List.map_append, List.map_singleton, refRun_concat]
  rfl

theorem distinct_length_le (eq : El → El → Bool) (xs : List El) (x : El) :
    (distinct eq xs).length ≤ (distinct eq (xs ++ [x])).length := by
  rw [distinct_concat, refStep]
  split
  · simp [Call.rewrite, replace]
  · simp [Call.rewrite]

theorem distinct_of_apart {eq : El → El → Bool} {xs : List El} (h : Apart eq xs) :
    distinct eq xs = xs := by
  induction xs using List.reverseRecOn with
  | nil => rfl
  | append_singleton xs x ih =>
    obtain ⟨hxs, -, hx⟩ := List.pairwise_append.mp h
    have hnone : lookup eq xs x = none := lookup_eq_none fun y hy => hx y hy x (List.mem_singleton_self x)
    have hel : (Call.rewrite x).el = x := rfl
    rw [distinct_concat, ih hxs, refStep, hel, hnone]
    rfl

structure Refilled (key : Key El) (xs : List El) (rb : Hbin El (List Group)) : Prop where
  exact : rb.Exact key
  clear : ∀ i, rb.deleted.test i = false
  live : rb.elsBound ≤ 2 ^ 32 → rb.live = distinct key.eq xs
  beyond : 2 ^ 32 < rb.elsBound → 2 ^ 32 < (distinct key.eq xs).length

theorem Refilled.reinsert (hkey : key.Lawful) {xs : List El} {rb : Hbin El (List Group)}
    (h : Refilled key xs rb) (hprobe : Probeable ihtWidths rb) {fuel n : Nat} {x : El}
    {s : Nat × Hbin El (List Group)}
    (hs : reinsert (ihtOps key target) fuel n rb (key.hash x) x = some s) :
    Refilled key (xs ++ [x]) s.2 := by
  obtain ⟨r, hr, hs⟩ := Option.bind_eq_some_iff.mp hs
  have he := hprobe.do1_effect target.lawful hr
  rw [he.reinsert] at hs
  obtain ⟨b', hb', rfl⟩ := Option.map_eq_some_iff.mp hs
  have hc := Call.rewrite_ok hkey x
  obtain ⟨hprobe', -, hbound⟩ := he.written hprobe hb'
  have hclear : ∀ i, b'.deleted.test i = false := by
    rw [he.keeps_deleted (by decide) hb']
    exact h.clear
  have hlive : rb.elsBound ≤ 2 ^ 32 → b'.live = distinct key.eq (xs ++ [x]) := by
    intro hle
    have hstep := ((h.exact hle).step (c := Call.rewrite x) hkey hle hc hr hb').live
    rw [hstep, h.live hle, distinct_concat]
  refine ⟨h.exact.step (c := Call.rewrite x) hkey hprobe hc hr hb', hclear,
    fun hle => hlive (Nat.le_trans (Nat.le.intro hbound.symm) hle), fun hgt => ?_⟩
  by_cases hle : rb.elsBound ≤ 2 ^ 32
  · rw [← hlive hle, hprobe'.length_live hclear]
    exact hgt
  · exact Nat.lt_of_lt_of_le (h.beyond (by omega)) (distinct_length_le key.eq xs x)

theorem Refilled.elsBound_lt_iff {xs : List El} {rb : Hbin El (List Group)} (h : Refilled key xs rb)
    (hprobe : Probeable ihtWidths rb) :
    rb.elsBound < 2 ^ 32 ↔ (distinct key.eq xs).length < 2 ^ 32 := by
  by_cases hle : rb.elsBound ≤ 2 ^ 32
  · rw [← h.live hle, hprobe.length_live h.clear]
  · have := h.beyond (by omega)
    omega

section Rebuild

variable {t p : Iht El (List Group)}

theorem ihtAllocBin_refilled (hkey : key.Lawful) (target : Target) {k : Nat} (hk : k ≤ 60) :
    Refilled key [] (ihtAllocBin (ihtOps key target) (8 * 2 ^ k)) := by
  obtain ⟨hdense, hlive⟩ := ihtAllocBin_refill hkey hk (List.Pairwise.nil : Apart key.eq [])
    (Nat.zero_le _)
  have hsim := ihtAllocBin_sim (ihtOps_lawful hkey target) k
  have hzero : (ihtAllocBin (ihtOps key target) (8 * 2 ^ k)).elsBound = 0 := rfl
  refine ⟨fun _ => BinRep.of_sim hsim hdense, fun i => Bitmap.test_zeros _ i, fun _ => ?_, fun hgt => ?_⟩
  · rw [← hsim.live]
    exact hlive
  · rw [hzero] at hgt
    omega

/-- The rebuild loop inserts the elements at live positions, in any state. -/
theorem ihtRebuild_loop (hkey : key.Lawful) (h : Probeable ihtWidths t.bin) (hfits : t.Fits)
    {i : Nat} (hi : i ≤ t.bin.elsBound) {s : Nat × Hbin El (List Group)}
    (hs : (List.range i).foldlM (ihtReinsert (ihtOps key target) key (ihtRebuildSize t) t.bin)
      (t.elsNum, ihtAllocBin (ihtOps key target) (ihtRebuildSize t)) = some s) :
    Refilled key (t.bin.liveUpTo i) s.2 := by
  induction i generalizing s with
  | zero =>
    obtain ⟨k, hk, hsize, -⟩ := ihtRebuildSize_cases h hfits
    rw [← Option.some.inj hs, hsize]
    exact ihtAllocBin_refilled hkey target hk
  | succ i ih =>
    obtain ⟨s', hs', hfill⟩ := ihtRebuild_upTo key target h hfits (show i ≤ t.bin.elsBound by omega)
      (Nat.le_refl _)
    rw [List.range_succ, List.foldlM_append, hs'] at hs
    have hpass : ihtReinsert (ihtOps key target) key (ihtRebuildSize t) t.bin s' i = some s := by
      simpa using hs
    have hrefilled := ih (by omega) hs'
    unfold ihtReinsert at hpass
    rw [Bitmap.test?_eq_some (Nat.lt_of_lt_of_le (by omega) h.bits), Option.bind_some] at hpass
    rw [Hbin.liveUpTo_succ]
    by_cases hdel : t.bin.deleted.test i = true
    · rw [if_pos hdel, Option.some.injEq] at hpass
      rw [if_pos hdel, ← hpass]
      simpa using hrefilled
    · obtain ⟨x, hx⟩ := h.initialised i (by omega)
      rw [if_neg hdel, hx, Option.bind_some] at hpass
      rw [if_neg hdel, hx]
      exact hrefilled.reinsert hkey hfill.bin hpass

theorem ihtRebuild_refilled (hkey : key.Lawful) (h : Probeable ihtWidths t.bin) (hfits : t.Fits)
    {fuel : Nat} (hp : ihtRebuild (ihtOps key target) key fuel t = some p) :
    Refilling t t.bin.elsBound p.bin ∧ Refilled key t.bin.live p.bin ∧ p.elsNum = t.elsNum := by
  obtain ⟨s, hs, hfill⟩ := ihtRebuild_upTo key target h hfits (Nat.le_refl _) (Nat.le_refl _)
  have hp' : ihtRebuild (ihtOps key target) key (ihtRebuildSize t) t =
      some { elsNum := t.elsNum, bin := s.2 } := by
    rw [ihtRebuild, hs]
    rfl
  rw [(ihtRebuild_mono (ihtOps_mono key target) t).eq_of_some hp hp']
  exact ⟨hfill, ihtRebuild_loop hkey h hfits (Nat.le_refl _) hs, rfl⟩

/-- The position of the next new element: `els_bound`, or after a rebuild the number of
    different keys at live positions. -/
def Iht.nextPos (key : Key El) (t : Iht El (List Group)) : Nat :=
  if ihtFull t then (distinct key.eq t.bin.live).length else t.bin.elsBound

theorem ihtPrepare_exact (hkey : key.Lawful) (h : Probeable ihtWidths t.bin) (hfits : t.Fits)
    (hexact : t.bin.Exact key) {fuel : Nat} {action : Action}
    (hp : ihtPrepare (ihtOps key target) key fuel t action = some p) :
    Probeable ihtWidths p.bin ∧ p.bin.Exact key ∧
      (action = .insert → (p.bin.elsBound < 2 ^ 32 ↔ t.nextPos key < 2 ^ 32)) := by
  unfold ihtPrepare at hp
  by_cases hrebuild : action = .insert ∧ ihtFull t = true
  · rw [if_pos hrebuild] at hp
    obtain ⟨hfill, hrefilled, -⟩ := ihtRebuild_refilled hkey h hfits hp
    refine ⟨hfill.bin, hrefilled.exact, fun _ => ?_⟩
    rw [Iht.nextPos, if_pos hrebuild.2]
    exact hrefilled.elsBound_lt_iff hfill.bin
  · rw [if_neg hrebuild, Option.some.injEq] at hp
    subst hp
    refine ⟨h, hexact, fun haction => ?_⟩
    rw [Iht.nextPos, if_neg fun hfull => hrebuild ⟨haction, hfull⟩]

end Rebuild

/-! ## The states that calls can reach -/

section States

variable {t p : Iht El (List Group)}

theorem IhtStates.exact (hkey : key.Lawful)
    (h : IhtStates (ihtOps key target) key Iht.Fits t) : t.bin.Exact key := by
  induction h with
  | create hcreate hfits =>
    obtain ⟨size, hsize, rfl⟩ := Option.map_eq_some_iff.mp hcreate
    obtain ⟨k, hk, rfl⟩ := ihtCreate_size hsize
    exact (ihtAllocBin_refilled hkey target hk).exact
  | call hreach hc hstep _ ih =>
    obtain ⟨hprobe, hfits⟩ := hreach.reachable.probeable
    obtain ⟨p, o, hp, hdo, hb', -⟩ := ihtStep_inv hstep
    obtain ⟨hprobe', hexact, -⟩ := ihtPrepare_exact hkey hprobe hfits ih hp
    exact hexact.step hkey hprobe' hc hdo hb'

end States

/-! ## The index that an INSERT stores -/

/-- After an INSERT into bin `b`: the slot it has taken leads to the position of the new
    element, and a FIND finds the element there. -/
structure StoresExact (key : Key El) (target : Target) (c : Call El) (b : Hbin El (List Group))
    (t' : Iht El (List Group)) : Prop where
  index : ∃ s, slotTag b.groups s = some EMPTY_H7 ∧
    slotTag t'.bin.groups s = some (h7Val (key.hash c.el)) ∧
    slotInd t'.bin.groups s = some b.elsBound
  find : ∃ o, Returns (fun fuel => ihtPerform (ihtOps key target) key fuel t' c.el .find) o ∧
    o.found = true ∧ o.res = some b.elsBound ∧ o.value = some c.fresh

section Insert

variable {c : Call El} {b : Hbin El (List Group)} {t' : Iht El (List Group)}

/-- A hit on a bin in order is at a live position. -/
theorem HitAt.livePos (h : BinRep ihtWidths key b) {el : El} {g bit i : Nat}
    (hhit : HitAt key.eq b el g bit i) : LivePos b i := by
  obtain ⟨j, hj, heq⟩ := h.bijective.mapsTo (show 8 * g + bit ∈ {s | LiveSlot b.groups s} from hhit.tag)
  rw [hhit.ind, Option.some.injEq] at heq
  exact heq ▸ hj

theorem storesExact_iff (hkey : key.Lawful) (hprobe : Probeable ihtWidths b) (hexact : b.Exact key)
    (hc : c.Ok key) (hins : c.action = .insert) {fuel n : Nat} {o : Outcome El (List Group)}
    (hdo : (ihtOps key target).do1 fuel n b (key.hash c.el) c.el c.action = some o)
    (hwritten : o.written c = some t'.bin) (hfound : o.found = false) :
    StoresExact key target c b t' ↔ b.elsBound < 2 ^ 32 := by
  have heffect := hprobe.do1_effect target.lawful hdo
  have hprobe' := (heffect.written hprobe hwritten).1
  have hexact' := hexact.step hkey hprobe hc hdo hwritten
  rw [hins] at heffect
  cases heffect with
  | @added g bit hmiss hbit hempty hpath =>
    simp only [Outcome.written, Bool.false_eq_true, if_false] at hwritten
    obtain ⟨hroom, hbin⟩ := Hbin.store?_eq_some_iff.mp hwritten
    have hlt := slotTag_lt hempty
    have hg : g < b.groups.length := by omega
    have htag := Hbin.extend_slotTag ihtWidths hg hbit (key.hash c.el)
    have hind := Hbin.extend_slotInd ihtWidths hg hbit (key.hash c.el)
    have hgroups : t'.bin.groups = (b.extend ihtWidths (key.hash c.el) g bit).groups := by rw [hbin]
    constructor
    · rintro ⟨⟨s, hs, hs', hsi⟩, -⟩
      have hslot : s = 8 * g + bit := by
        by_contra hne
        rw [hgroups, htag.of_ne hne, hs, Option.some.injEq] at hs'
        exact ne_empty_of_lt (h7Val_lt _) hs'.symm
      rw [hgroups, hslot, hind.at, Option.some.injEq] at hsi
      rw [← hsi]
      exact Nat.mod_lt _ (by decide)
    · intro hlt32
      have hbound : t'.bin.elsBound = b.elsBound + 1 := by rw [hbin]; rfl
      have hle : b.elsBound ≤ 2 ^ 32 := Nat.le_of_lt hlt32
      have hle' : t'.bin.elsBound ≤ 2 ^ 32 := by omega
      have hpos : LivePos t'.bin b.elsBound := by
        refine ⟨by omega, ?_⟩
        rw [hbin]
        exact (hexact hle).clear b.elsBound (Nat.le_refl _)
      have hel : t'.bin.elAt b.elsBound = some c.fresh := by
        rw [hbin, Hbin.elAt_set hroom, if_pos rfl]
      refine ⟨⟨8 * g + bit, hempty, ?_, ?_⟩, ?_⟩
      · rw [hgroups, htag.at]
      · rw [hgroups, hind.at]
        exact congrArg some (Nat.mod_eq_of_lt hlt32)
      · simp only [ihtPerform_of_ne (show Action.find ≠ .insert by decide)]
        exact (hexact' hle').find hkey target hle' hpos hel hc.fresh t'.elsNum
  | found _ _ => cases hfound
  | absent haction _ => exact absurd rfl haction

end Insert

theorem IhtStates.storesExact_iff (hkey : key.Lawful) {t p : Iht El (List Group)}
    (h : IhtStates (ihtOps key target) key Iht.Fits t) {c : Call El} (hc : c.Ok key)
    (hins : c.action = .insert) {r : Reply Nat El} {t' : Iht El (List Group)}
    (hp : Returns (fun fuel => ihtPrepare (ihtOps key target) key fuel t .insert) p)
    (hstep : Returns (fun fuel => ihtStep (ihtOps key target) key fuel t c) (r, t'))
    (hfound : r.found = false) :
    StoresExact key target c p.bin t' ↔ t.nextPos key < 2 ^ 32 := by
  obtain ⟨hprobe, hfits⟩ := h.reachable.probeable
  obtain ⟨fuel, hfuel⟩ := hstep.exists_some
  obtain ⟨p', o, hp', hdo, hb', -, rfl⟩ := ihtStep_inv hfuel
  rw [hins] at hp'
  obtain rfl := hp.unique ((ihtPrepare_mono (ihtOps_mono key target) key t .insert).returns hp')
  obtain ⟨hprobe', hexact, hnext⟩ := ihtPrepare_exact hkey hprobe hfits (h.exact hkey) hp'
  rw [← hnext rfl]
  exact IndexedHash.storesExact_iff hkey hprobe' hexact hc hins hdo hb' hfound

/-- In every state that calls can reach, the index that an INSERT of a new key stores is
    the position of its element, and a FIND returns the element, if and only if that
    position is below `2 ^ 32`. -/
theorem iht_index_exact_iff (hkey : key.Lawful) (target : Target) :
    ∀ t, IhtStates (ihtOps key target) key Iht.Fits t → ∀ c : Call El, c.Ok key →
      c.action = .insert → ∀ p r t',
      Returns (fun fuel => ihtPrepare (ihtOps key target) key fuel t .insert) p →
      Returns (fun fuel => ihtStep (ihtOps key target) key fuel t c) (r, t') → r.found = false →
      (StoresExact key target c p.bin t' ↔ t.nextPos key < 2 ^ 32) :=
  fun _ h _ hc hins _ _ _ hp hstep hfound => h.storesExact_iff hkey hc hins hp hstep hfound

/-- An INSERT into a full table, for which it is rebuilt. -/
theorem iht_index_exact_sample :
    ∃ t p r t', IhtStates (ihtOps identityKey .swar) identityKey Iht.Fits t ∧
      (t.bin.elsBound, p.bin.elsBound) = (7, 6) ∧
      Returns (fun fuel => ihtPrepare (ihtOps identityKey .swar) identityKey fuel t .insert) p ∧
      Returns (fun fuel => ihtStep (ihtOps identityKey .swar) identityKey fuel t
        (Call.plain .insert 9#64)) (r, t') ∧
      StoresExact identityKey .swar (Call.plain .insert 9#64) p.bin t' := by
  have hops := ihtOps_mono identityKey .swar
  have ht₀ : IhtStates (ihtOps identityKey .swar) identityKey Iht.Fits
      (sampleTable (ihtOps identityKey .swar)) :=
    IhtStates.create (show ihtCreate _ 1 4 = _ from rfl) (by unfold Iht.Fits; decide)
  have hall : ((ihtRun (ihtOps identityKey .swar) identityKey 16 (sampleTable (ihtOps identityKey
      .swar)) (sampleCalls.take 11)).bind fun s => (ihtPrepare (ihtOps identityKey .swar) identityKey
        16 s.2 .insert).bind fun p => (ihtStep (ihtOps identityKey .swar) identityKey 16 s.2
          (Call.plain .insert 9#64)).map fun q => ((s.2.bin.elsBound, p.bin.elsBound), q.1.found,
            decide (s.2.nextPos identityKey < 2 ^ 32))) = some ((7, 6), false, true) := by
    decide +kernel
  obtain ⟨⟨rs, t⟩, hrun, hall⟩ := Option.bind_eq_some_iff.mp hall
  obtain ⟨p, hp, hall⟩ := Option.bind_eq_some_iff.mp hall
  obtain ⟨⟨r, t'⟩, hstep, heq⟩ := Option.map_eq_some_iff.mp hall
  simp only [Prod.mk.injEq] at heq
  obtain ⟨⟨hseven, hsix⟩, hfound, hnext⟩ := heq
  have hfits : (sampleCalls.take 11).inits.all (fun pre => (ihtRun (ihtOps identityKey .swar)
      identityKey 16 (sampleTable (ihtOps identityKey .swar)) pre).all fun s =>
        s.2.bin.numGroups * IHT_GROUP_BYTES < 2 ^ 64) = true := by
    decide +kernel
  have ht := ht₀.run (fun c hc => sampleCalls_ok c (List.take_subset _ _ hc)) hrun fun pre s hpre hs => by
    have hpre := List.all_eq_true.mp hfits pre ((List.mem_inits pre _).mpr hpre)
    rw [hs, Option.all_some, decide_eq_true_iff] at hpre
    exact hpre
  have hp := (ihtPrepare_mono hops identityKey t .insert).returns hp
  have hstep := (ihtStep_mono hops t (Call.plain .insert 9#64)).returns hstep
  refine ⟨t, p, r, t', ht, Prod.ext hseven hsix, hp, hstep, (iht_index_exact_iff identityKey_lawful
    .swar t ht (Call.plain .insert 9#64) (Call.plain_ok identityKey_lawful _ _) rfl p r t' hp hstep
    hfound).mpr ?_⟩
  exact of_decide_eq_true hnext

/-- The INSERT of one more word than there are indices stores the index 0, and a FIND of
    the word does not find it. -/
theorem iht_index_truncated :
    ∃ t p r t' o, IhtStates (ihtOps identityKey .swar) identityKey Iht.Fits t ∧
      t.bin.elsBound = 2 ^ 32 ∧
      Returns (fun fuel => ihtPrepare (ihtOps identityKey .swar) identityKey fuel t .insert) p ∧
      Returns (fun fuel => ihtStep (ihtOps identityKey .swar) identityKey fuel t
        (Call.plain .insert (word (2 ^ 32)))) (r, t') ∧ r.found = false ∧
      ¬ StoresExact identityKey .swar (Call.plain .insert (word (2 ^ 32))) p.bin t' ∧
      Returns (fun fuel =>
        ihtPerform (ihtOps identityKey .swar) identityKey fuel t' (word (2 ^ 32)) .find) o ∧
      o.found = false := by
  obtain ⟨N, hN⟩ : ∃ N, N = 2 ^ 32 := ⟨_, rfl⟩
  rw [← hN]
  -- the words below `2 ^ 32`, inserted one after the other
  have h₀ := Holds.create .swar id (show 2 ^ 31 * IHT_GROUP_BYTES < 2 ^ 64 by decide)
  have hstate₀ : IhtStates (ihtOps identityKey .swar) identityKey Iht.Fits _ :=
    IhtStates.create (show ihtCreate (ihtOps identityKey .swar) 40 (2 ^ 33) = some _ from rfl) h₀.fits
  obtain ⟨t, hstate, h⟩ := IhtStates.fill .swar h₀ hstate₀ N (by omega) (by omega)
    (fun i hi => show i < 2 ^ 64 by omega) fun j _ _ i hi _ => show i ≠ j by omega
  rw [Nat.zero_add] at h
  have hmiss := h.misses (m := N) (by omega) (fun i hi => show i < 2 ^ 64 by omega)
    fun i hi _ => show i ≠ N by omega
  obtain ⟨t', hstep, h', -⟩ := h.append .swar (by omega) (by omega) hmiss
  have hfull : ¬ ihtFull t = true := by
    rw [h.full_iff]
    omega
  have hp : Returns (fun fuel => ihtPrepare (ihtOps identityKey .swar) identityKey fuel t .insert) t :=
    ⟨0, fun _ _ => ihtPrepare_same fun hf => hfull hf.2⟩
  -- the new word is at position `2 ^ 32`, where no index leads
  have hmiss' := h'.misses (m := N) (by omega) (fun i hi => show i < 2 ^ 64 by omega)
    fun i hi hlt => show i ≠ N by omega
  obtain ⟨o, ho, heffect⟩ := h'.probe.do1 (Target.lawful .swar) identityKey.eq t'.elsNum
    (identityKey.hash (word N)) (word N) .find (Nat.lt_succ_self _)
  have hfind : ihtPerform (ihtOps identityKey .swar) identityKey (t'.bin.groupsMask + 1) t' (word N)
      .find = some o := by
    rw [ihtPerform_of_ne (by decide)]
    exact ho
  refine ⟨t, t, _, t', o, hstate, h.elsBound, hp, hstep, rfl, ?_,
    (ihtPerform_mono (ihtOps_mono identityKey .swar) t' _ .find).returns hfind, ?_⟩
  · intro hexact
    have hnext := (hstate.storesExact_iff identityKey_lawful (Call.plain_ok identityKey_lawful _ _)
      rfl hp hstep rfl).mp hexact
    rw [Iht.nextPos, if_neg hfull, h.elsBound] at hnext
    omega
  · cases heffect with
    | found _ hhit => exact absurd hhit (hmiss' _ _ _)
    | absent _ _ => rfl

end IndexedHash
