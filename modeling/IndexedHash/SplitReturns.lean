import Mathlib.Logic.Function.Iterate
import Mathlib.Tactic.Common
import IndexedHash.Filling
import IndexedHash.SplitElements

/-!
# When a split returns

The loop of `ixht_split_bin` ends in a pass that finds elements for both sides.  Which
elements a pass finds depends on the bits before and on the bitmap from before the
split (`survivors`), so `ixht_insert_returns_iff` says in terms of the table before the
call whether an INSERT that splits a bin returns.

The decision to split is made from `els_num`, the count of the whole table.  A bin
without live elements may be split, and then the loop goes on as long as the directory
can grow (`ixht_insert_never_returns`).
-/

namespace IndexedHash

open Loop KeyedList

variable {El G : Type} {key : Key El}

/-! ## The elements that a pass finds -/

/-- Whether elements whose hashes have the bits of `h` are in the bin that is split,
    before pass `k` of a split at depth `d`. -/
def inOwn (h d : Nat) : Nat → Bool
  | 0 => true
  | k + 1 => inOwn h d k ^^ h.testBit (d + k)

/-- How many of the passes `1, …, k` read that bin again. -/
def staleReads (h d : Nat) : Nat → Nat
  | 0 => 0
  | k + 1 => staleReads h d k + (inOwn h d (k + 1)).toNat

/-- What is left of a list after `r` readings through a bitmap, with the list compacted
    in between. -/
def Bitmap.survivors (map : Bitmap) (r : Nat) (xs : List El) : List El := map.thin^[r] xs

theorem Bitmap.survivors_succ (map : Bitmap) (r : Nat) (xs : List El) :
    map.survivors (r + 1) xs = map.thin (map.survivors r xs) :=
  Function.iterate_succ_apply' _ _ _

theorem Bitmap.survivors_sublist (map : Bitmap) (xs : List El) {r r' : Nat} (h : r ≤ r') :
    (map.survivors r' xs).Sublist (map.survivors r xs) := by
  induction r' with
  | zero =>
    have hr : r = 0 := by omega
    subst hr
    exact List.Sublist.refl _
  | succ r' ih =>
    by_cases hr : r = r' + 1
    · subst hr
      exact List.Sublist.refl _
    · rw [survivors_succ]
      exact (map.thin_sublist _).trans (ih (by omega))

theorem staleReads_mono (h d : Nat) {i k : Nat} (hik : i ≤ k) : staleReads h d i ≤ staleReads h d k := by
  induction k with
  | zero =>
    have hi : i = 0 := by omega
    subst hi
    exact Nat.le_refl _
  | succ k ih =>
    by_cases hi : i = k + 1
    · subst hi
      exact Nat.le_refl _
    · exact Nat.le_trans (ih (by omega)) (Nat.le_add_right _ _)

section Passes

variable {e : Ebin El G} {k : Nat} {x : El}

/-- As long as no pass separates the elements, the bits of any that is left say which
    elements a pass finds. -/
theorem Ebin.pass_eq_survivors (hnot : ∀ j < k, ¬ Mixed key (e.depth + j) (e.pass key j).els)
    (hx : ∀ j < k, x ∈ (e.pass key j).els) :
    (e.pass key k).own = inOwn (key.nonzero.hash x).toNat e.depth k ∧
      (e.pass key k).els = e.bin.deleted.survivors
        (staleReads (key.nonzero.hash x).toNat e.depth k) e.bin.live := by
  induction k with
  | zero => exact ⟨rfl, rfl⟩
  | succ k ih =>
    obtain ⟨hown, hels⟩ := ih (fun j hj => hnot j (by omega)) fun j hj => hx j (by omega)
    obtain ⟨hown', hels'⟩ := Pass.next_eq (hnot k (by omega)) (hx k (by omega)) e.bin.deleted
    rw [hown] at hown' hels'
    have hbit : inOwn (key.nonzero.hash x).toNat e.depth (k + 1) =
        (inOwn (key.nonzero.hash x).toNat e.depth k ^^ goesNew key (e.depth + k) x) := rfl
    rw [← hbit] at hown' hels'
    refine ⟨hown', hels'.trans ?_⟩
    rw [hels, staleReads]
    cases inOwn (key.nonzero.hash x).toNat e.depth (k + 1) with
    | false => rfl
    | true => exact (Bitmap.survivors_succ _ _ _).symm

/-- Some bit that the directory admits differs in two of the elements that are left
    when the loop comes to it. -/
def Separable (key : Key El) (e : Ebin El G) : Prop :=
  ∃ k x y, e.depth + k ≤ 30 ∧
    x ∈ e.bin.deleted.survivors (staleReads (key.nonzero.hash x).toNat e.depth k) e.bin.live ∧
    y ∈ e.bin.deleted.survivors (staleReads (key.nonzero.hash x).toNat e.depth k) e.bin.live ∧
    goesNew key (e.depth + k) x ≠ goesNew key (e.depth + k) y

theorem mixed_of_ne {d : Nat} {xs : List El} {y : El} (hx : x ∈ xs) (hy : y ∈ xs)
    (hne : goesNew key d x ≠ goesNew key d y) : Mixed key d xs := by
  by_contra hmix
  exact hne (goesNew_eq_of_not_mixed hmix hy hx)

theorem exists_mixed_iff_separable :
    (∃ k, e.depth + k ≤ 30 ∧ Mixed key (e.depth + k) (e.pass key k).els) ↔ Separable key e := by
  classical
  constructor
  · intro hex
    -- the first pass that separates the elements
    obtain ⟨hd, hmix⟩ := Nat.find_spec hex
    have hnot : ∀ j < Nat.find hex, ¬ Mixed key (e.depth + j) (e.pass key j).els := fun j hj hj' =>
      Nat.find_min hex hj ⟨by omega, hj'⟩
    obtain ⟨⟨x, hx, hxb⟩, y, hy, hyb⟩ := hmix
    have hels := (Ebin.pass_eq_survivors hnot fun j hj =>
      (e.pass_sublist_of_le key (Nat.le_of_lt hj)).subset hx).2
    exact ⟨Nat.find hex, x, y, hd, hels ▸ hx, hels ▸ hy, by rw [hxb, hyb]; decide⟩
  · rintro ⟨k, x, y, hd, hx, hy, hne⟩
    by_cases hearlier : ∃ j < k, Mixed key (e.depth + j) (e.pass key j).els
    · obtain ⟨j, hj, hmix⟩ := hearlier
      exact ⟨j, by omega, hmix⟩
    · have hnot : ∀ j < k, ¬ Mixed key (e.depth + j) (e.pass key j).els := fun j hj hmix =>
        hearlier ⟨j, hj, hmix⟩
      -- `x` is left at the end, so every pass before finds it
      have hin : ∀ j ≤ k, x ∈ (e.pass key j).els := by
        intro j
        induction j using Nat.strongRecOn with
        | ind j ih =>
          intro hj
          rw [(Ebin.pass_eq_survivors (fun i hi => hnot i (by omega)) fun i hi =>
            ih i hi (by omega)).2]
          exact (e.bin.deleted.survivors_sublist _ (staleReads_mono _ _ hj)).subset hx
      have hels := (Ebin.pass_eq_survivors hnot fun j hj => hin j (Nat.le_of_lt hj)).2
      exact ⟨k, hd, mixed_of_ne (hin k (Nat.le_refl k)) (hels ▸ hy) hne⟩

end Passes

/-! ## An INSERT that splits a bin -/

section Insert

variable {t : Ixht El (List Group)} {b maxPower : Nat} {e : Ebin El (List Group)} {el : El}

theorem WellFormed.insert_returns_iff (hkey : key.Lawful) (target : Target) (h : WellFormed key t)
    (hbin : t.binOf (key.nonzero.hash el) = some b) (hb : t.bins[b]? = some e)
    (hfull : ixhtFull e = true) (hsplits : ixhtSplits maxPower t e = true) :
    (∃ r, Returns (fun fuel => ixhtPerform maxPower (ixhtOps key target) key fuel t el .insert) r) ↔
      Separable key e := by
  have hlaw := ixhtOps_lawful hkey target
  rw [← exists_mixed_iff_separable, ← h.split_returns_iff hkey target hb]
  have hprep : ∀ fuel, ixhtPrepare maxPower (ixhtOps key target) key fuel t (key.nonzero.hash el)
      .insert = (ixhtSplitBin (ixhtOps key target) key fuel t b).bind fun t =>
        (t.binOf (key.nonzero.hash el)).map fun i => (t, i) := by
    intro fuel
    simp only [ixhtPrepare, hbin, hb, Option.bind_some, hfull, hsplits, if_true, and_self]
  constructor
  · rintro ⟨r, hr⟩
    obtain ⟨fuel, hperform⟩ := hr.exists_some
    obtain ⟨p, hp, -⟩ := Option.bind_eq_some_iff.mp hperform
    rw [hprep] at hp
    obtain ⟨t', ht', -⟩ := Option.bind_eq_some_iff.mp hp
    exact ⟨t', (ixhtSplitBin_mono hlaw.mono t b).returns ht'⟩
  · rintro ⟨t', ht'⟩
    -- after the split the INSERT itself goes through
    obtain ⟨i, f, hi, hf, hrep, -⟩ := h.after_split hkey target hbin hb ht'
    obtain ⟨o, ho, -⟩ := hrep.insert hkey target t'.elsNum el
    refine ⟨(i, o, t'.setBin i o.elsNum o.bin), ?_⟩
    have hprep' : Returns (fun fuel => ixhtPrepare maxPower (ixhtOps key target) key fuel t
        (key.nonzero.hash el) .insert) (t', i) := by
      simp only [hprep]
      refine Returns.bind ht' ?_
      simp only [hi, Option.map_some]
      exact Returns.const _
    refine Returns.bind hprep' ?_
    simp only [hf, Option.bind_some]
    exact Returns.map ho _

end Insert

/-- An INSERT that splits a bin returns if and only if some bit, before the directory
    has its largest size, differs in two of the elements that are left when the loop
    comes to that bit. -/
theorem ixht_insert_returns_iff (hkey : key.Lawful) (target : Target) (maxPower : Nat) :
    ∀ t, WellFormed key t → ∀ el b e, t.binOf (key.nonzero.hash el) = some b →
      t.bins[b]? = some e → ixhtFull e = true → ixhtSplits maxPower t e = true →
      ((∃ r, Returns (fun fuel => ixhtPerform maxPower (ixhtOps key target) key fuel t el .insert) r) ↔
        Separable key e) :=
  fun _ h _ _ _ hbin hb hfull hsplits => h.insert_returns_iff hkey target hbin hb hfull hsplits

/-- The ninth INSERT into a table of one bin, with bins of at most eight elements. -/
theorem ixht_insert_returns_even :
    ∃ t, WellFormed identityKey t ∧
      ∃ r, Returns (fun fuel => ixhtPerform 4 (ixhtOps identityKey .swar) identityKey fuel t 9
        .insert) r := by
  obtain ⟨t, e, hwf, -, hsim, hb, hee⟩ := exists_oneBin (n := 8) (plainCalls_ok identityKey_lawful
      ([1, 2, 3, 4, 5, 6, 7, 8].map fun x => (Action.insert, x))) (by decide)
    (show ixhtRun _ _ _ 1 _ _ = some (_, oneBin 8 (smallBin [1, 2, 3, 4, 5, 6, 7, 8])) from rfl)
  have hlive : e.bin.live = [1, 2, 3, 4, 5, 6, 7, 8] := hee.bin.live.symm
  refine ⟨t, hwf, (ixht_insert_returns_iff identityKey_lawful .swar 4 t hwf 9 0 e
    ((hsim.binOf _).trans rfl) hb (hee.full.trans rfl) ((hsim.splits hee).trans rfl)).mpr ?_⟩
  have hd : e.depth = 0 := hee.depth
  refine ⟨0, 1, 2, by omega, ?_, ?_, by rw [hd]; decide⟩
  · show 1 ∈ e.bin.live
    rw [hlive]
    decide
  · show 2 ∈ e.bin.live
    rw [hlive]
    decide

def evens : List (BitVec 64) := progression (2 ^ 14) 2 2
def odds : List (BitVec 64) := progression (2 ^ 14) 2 1

def churnCalls : List (Call (BitVec 64)) :=
  plainCalls (evens.map fun x => (Action.insert, x)) ++
    plainCalls (evens.map fun x => (Action.delete, x)) ++
    plainCalls (odds.map fun x => (Action.insert, x))

theorem evens_hash {x : BitVec 64} (hx : x ∈ evens) :
    identityKey.nonzero.hash x = x ∧ x.toNat % 2 = 0 ∧ x.toNat < 2 ^ 24 := by
  obtain ⟨j, hj, hxj⟩ := (mem_progression (by decide)).mp hx
  exact ⟨identityKey_nonzero (by omega), by omega, by omega⟩

theorem odds_hash {x : BitVec 64} (hx : x ∈ odds) :
    identityKey.nonzero.hash x = x ∧ x.toNat % 2 = 1 ∧ x.toNat < 2 ^ 24 := by
  obtain ⟨j, hj, hxj⟩ := (mem_progression (by decide)).mp hx
  exact ⟨identityKey_nonzero (by omega), by omega, by omega⟩

theorem churnCalls_ok : ∀ c ∈ churnCalls, c.Ok identityKey := by
  intro c hc
  simp only [churnCalls, List.mem_append, or_assoc] at hc
  rcases hc with hc | hc | hc
  · exact plainCalls_ok identityKey_lawful _ c hc
  · exact plainCalls_ok identityKey_lawful _ c hc
  · exact plainCalls_ok identityKey_lawful _ c hc

theorem churnCalls_el {c : Call (BitVec 64)} (hc : c ∈ churnCalls) : c.el.toNat < 2 ^ 24 := by
  simp only [churnCalls, plainCalls, List.mem_append, List.mem_map, exists_exists_and_eq_and,
    or_assoc] at hc
  rcases hc with ⟨x, hx, rfl⟩ | ⟨x, hx, rfl⟩ | ⟨x, hx, rfl⟩
  · exact (evens_hash hx).2.2
  · exact (evens_hash hx).2.2
  · exact (odds_hash hx).2.2

theorem length_churnCalls : churnCalls.length = 3 * 2 ^ 14 := by
  simp only [churnCalls, plainCalls, List.length_append, List.length_map, evens, odds,
    length_progression]
  decide

def churned (bin : IdealBin (BitVec 64)) : IdealIxht (BitVec 64) :=
  { twoBins identityKey with
    elsNum := 2 ^ 14
    bins := [⟨1, 0, 0, bin⟩,
      ⟨1, 1, 0, (largeBin identityKey).refill identityKey.nonzero.hash odds⟩] }

theorem churn_run (h₀ : IxOk IXHT_MAX_BIN_SIZE_POWER identityKey (twoBins identityKey)) :
    ∃ rs bin, Returns (fun fuel => ixhtRun IXHT_MAX_BIN_SIZE_POWER (idealIxhtOps identityKey)
        identityKey fuel (twoBins identityKey) churnCalls) (rs, churned bin) ∧
      bin.live = [] ∧ bin.elsBound = 2 ^ 14 ∧
      bin.groupsMask = (largeBin identityKey).groupsMask := by
  have hevens : evens.length = 2 ^ 14 := length_progression
  have hodds : odds.length = 2 ^ 14 := length_progression
  have hroute₀ : ∀ {a : IdealIxht (BitVec 64)}, a.dir = [0, 1] → a.binMask = 1 →
      ∀ x ∈ evens, a.binOf (identityKey.nonzero.hash x) = some 0 := by
    intro a hdir hmask x hx
    rw [twoBins_binOf hdir hmask, (evens_hash hx).1, (evens_hash hx).2.1]
  have hroute₁ : ∀ {a : IdealIxht (BitVec 64)}, a.dir = [0, 1] → a.binMask = 1 →
      ∀ x ∈ odds, a.binOf (identityKey.nonzero.hash x) = some 1 := by
    intro a hdir hmask x hx
    rw [twoBins_binOf hdir hmask, (odds_hash hx).1, (odds_hash hx).2.1]
  obtain ⟨rs₁, hrun₁⟩ := fill_largeBin IXHT_MAX_BIN_SIZE_POWER (a := twoBins identityKey)
    (i := 0) rfl
    (Nat.le_of_eq hevens) (progression_apart (by decide) (by decide)) (hroute₀ rfl rfl)
    (by rw [hevens]; decide)
  have hok₁ := (idealRun_ok identityKey_lawful powerOk_source h₀ (plainCalls_ok identityKey_lawful _)
    (by rw [plainCalls, List.length_map, List.length_map, hevens]; decide) hrun₁).1
  obtain ⟨rs₂, bin, hrun₂, hlive, hbound, hmask⟩ := drain_run (i := 0) identityKey_lawful
    powerOk_source hok₁ (by rw [hevens]; decide) rfl (largeBin_live identityKey evens)
    (hroute₀ rfl rfl)
  obtain ⟨rs₃, hrun₃⟩ := fill_largeBin IXHT_MAX_BIN_SIZE_POWER (i := 1)
    (a := { twoBins identityKey with
      bins := [⟨1, 0, 0, bin⟩, ⟨1, 1, 0, largeBin identityKey⟩] }) rfl
    (Nat.le_of_eq hodds) (progression_apart (by decide) (by decide)) (hroute₁ rfl rfl)
    (by rw [hodds]; exact (by decide : 0 + 2 ^ 14 < 2 ^ 32))
  simp only [hevens, Nat.add_sub_cancel] at hrun₁ hrun₂
  rw [hodds, show (twoBins identityKey).elsNum + 2 ^ 14 = 2 ^ 14 from Nat.zero_add _] at hrun₃
  have hrun := Returns.append (Returns.append hrun₁ hrun₂) hrun₃
  exact ⟨_, bin, hrun, hlive,
    hbound.trans (refill_elsBound.trans hevens), hmask⟩

/-- A bin is filled with even elements and emptied again; the other bin is filled with
    odd elements.  The count of the table now asks for a split of the bin whose
    positions are all used and all deleted, and no pass of it finds an element. -/
theorem ixht_insert_never_returns :
    ∃ t₀ calls rs t e,
      Returns (fun fuel => ixhtCreate IXHT_MAX_BIN_SIZE_POWER (ixhtOps identityKey .swar) fuel
        (2 ^ 15)) t₀ ∧
      (∀ c ∈ calls, c.Ok identityKey) ∧
      Returns (fun fuel => ixhtRun IXHT_MAX_BIN_SIZE_POWER (ixhtOps identityKey .swar) identityKey
        fuel t₀ calls) (rs, t) ∧
      WellFormed identityKey t ∧ Dir identityKey t ∧
      t.binOf (identityKey.nonzero.hash 2) = some 0 ∧ t.bins[0]? = some e ∧ ixhtFull e = true ∧
      ixhtSplits IXHT_MAX_BIN_SIZE_POWER t e = true ∧
      (∀ l : List (BitVec 64), l.Nodup → l.length = 2 ^ 14 →
        (∀ x ∈ l, x = 2 ∨ ∃ c ∈ calls, c.action = .insert ∧ c.el = x) →
        ∃ x ∈ l, ∃ y ∈ l, (identityKey.hash x).toNat % 2 ^ 24 ≠ (identityKey.hash y).toNat % 2 ^ 24) ∧
      ¬ ∃ r, Returns (fun fuel => ixhtPerform IXHT_MAX_BIN_SIZE_POWER (ixhtOps identityKey .swar)
        identityKey fuel t 2 .insert) r := by
  obtain ⟨t₀, ht₀, h₀⟩ := twoBins_follows identityKey_lawful .swar
  obtain ⟨rs, bin, hrun, hlive, hbound, hmask⟩ := churn_run h₀.ok
  have hlen : (twoBins identityKey).elsNum + churnCalls.length ≤ 2 ^ 31 := by
    rw [length_churnCalls]
    decide
  obtain ⟨t, ht, hta⟩ := h₀.run_of_ideal (ixhtOps_lawful identityKey_lawful .swar)
    identityKey_lawful powerOk_source (by decide) churnCalls_ok hlen hrun
  obtain ⟨e, hb, hee⟩ := Forall₂.exists_of_right hta.sim.bins (i := 0) (y := ⟨1, 0, 0, bin⟩) rfl
  have hwf := hta.wellFormed powerOk_source
  have hbin : t.binOf (identityKey.nonzero.hash 2) = some 0 :=
    (hta.sim.binOf _).trans ((twoBins_binOf rfl rfl _).trans (by decide))
  have hsize : bin.indexesSize ixhtWidths = 2 ^ 15 := by
    rw [Hbin.indexesSize, hmask]
    rfl
  have hfull : ixhtFull e = true := by
    rw [hee.full, ixhtFull, decide_eq_true_eq, Hbin.halfIndexes, hsize, hbound]
    decide
  have hsplits : ixhtSplits IXHT_MAX_BIN_SIZE_POWER t e = true := by
    rw [hta.sim.splits hee, ixhtSplits, ixhtGrow, Hbin.halfIndexes, hsize,
      show (churned bin).elsNum = 2 ^ 14 from rfl]
    decide
  refine ⟨t₀, churnCalls, rs, t, e, ht₀, churnCalls_ok, ht, hwf, ?_, hbin, hb, hfull, hsplits, ?_, ?_⟩
  · -- no element is in the first bin, and the odd ones are in the second
    refine hta.sim.dir_iff.mpr (twoBins_dir identityKey_lawful (fun x hx => ?_) (fun x hx => ?_) _)
    · rw [hlive] at hx
      cases hx
    · rw [largeBin_live] at hx
      rw [(odds_hash hx).1]
      exact (odds_hash hx).2.1
  · intro l hnodup hl hmem
    have hsmall : ∀ x ∈ l, x.toNat % 2 ^ 24 = x.toNat := by
      intro x hx
      refine Nat.mod_eq_of_lt ?_
      rcases hmem x hx with rfl | ⟨c, hc, -, rfl⟩
      · decide
      · exact churnCalls_el hc
    obtain ⟨x, y, rest, rfl⟩ : ∃ x y rest, l = x :: y :: rest := by
      rcases l with - | ⟨x, - | ⟨y, rest⟩⟩
      · exact absurd hl (by decide)
      · simp at hl
      · exact ⟨x, y, rest, rfl⟩
    refine ⟨x, by simp, y, by simp, ?_⟩
    show x.toNat % 2 ^ 24 ≠ y.toNat % 2 ^ 24
    rw [hsmall x (by simp), hsmall y (by simp)]
    intro heq
    have hxy : x ≠ y := by
      rintro rfl
      simp at hnodup
    exact hxy (BitVec.eq_of_toNat_eq heq)
  · rw [hwf.insert_returns_iff identityKey_lawful .swar hbin hb hfull hsplits]
    rintro ⟨k, x, y, -, hx, -⟩
    have hnil : e.bin.live = [] := hee.bin.live.symm.trans hlive
    have hx : x ∈ e.bin.live :=
      (e.bin.deleted.survivors_sublist e.bin.live (Nat.zero_le _)).subset hx
    rw [hnil] at hx
    cases hx

end IndexedHash
