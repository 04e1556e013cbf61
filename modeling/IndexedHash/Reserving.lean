import Mathlib.Tactic.Common
import IndexedHash.RebuildSpacing

/-!
# The room that `min_size` reserves

`iht_create` takes the smallest capacity that is at least `min_size`, while
`iht_perform` rebuilds before an INSERT as soon as all positions but one are used.  So
the last position of a capacity is never used, and the INSERT that finds one position
free rebuilds even if its element is there already.  A table for `min_size` elements
takes them all without a rebuild exactly if two positions are left over, and they are
unless `min_size` is a power of two from 4 on, or one less (`iht_reserves_iff`).

Without deletions and rebuilds nothing moves: `*res` is a pointer into `els`, which only
`iht_rebuild` frees, and the position it points to keeps an equal element.
-/

namespace IndexedHash

open Loop KeyedList Probing

variable {El : Type} {key : Key El} {target : Target}

/-! ## Positions that keep their elements -/

def Hbin.HasAt {G : Type} (key : Key El) (b : Hbin El G) (p : Nat) (x : El) : Prop :=
  p < b.elsBound ∧ ∃ y, b.elAt p = some y ∧ key.eq y x = true

section Step

variable {b b' : Hbin El (List Group)} {c : Call El} {n : Nat} {o : Outcome El (List Group)}

/-- `*res` points to an equal element, and no other position changes. -/
theorem Effect.hasAt (hkey : key.Lawful) (hprobe : Probeable ihtWidths b)
    (he : Effect ihtWidths key.eq n b (key.hash c.el) c.el c.action o) (hc : c.Ok key)
    (hkeep : c.action ≠ .delete) (hwritten : o.written c = some b') :
    (∀ p, o.res = some p → b'.HasAt key p c.el) ∧ ∀ p x, b.HasAt key p x → b'.HasAt key p x := by
  generalize c.action = action at he hkeep
  cases he with
  | @found _ g bit i _ hhit =>
    have hi := hhit.lt hprobe
    obtain ⟨z, hz, hzc⟩ := hhit.equal
    cases hup : c.update with
    | none =>
      simp only [Outcome.written, hup, if_true, Option.some.injEq] at hwritten
      subst hwritten
      refine ⟨fun p hp => ?_, fun p x hx => hx⟩
      obtain rfl := Option.some.inj hp
      exact ⟨hi, z, hz, hzc⟩
    | some y =>
      simp only [Outcome.written, hup, if_true] at hwritten
      obtain ⟨hlt, rfl⟩ := Hbin.store?_eq_some_iff.mp hwritten
      refine ⟨fun p hp => ?_, fun p x hx => ?_⟩
      · obtain rfl := Option.some.inj hp
        exact ⟨hi, y, by rw [Hbin.elAt_set hlt, if_pos rfl], hc.update y hup⟩
      · obtain ⟨hp, z', hz', hzx⟩ := hx
        refine ⟨hp, ?_⟩
        rw [Hbin.elAt_set hlt]
        by_cases hpi : p = i
        · -- the element that is overwritten is equal to both
          rw [hpi, hz, Option.some.injEq] at hz'
          rw [if_pos hpi]
          refine ⟨y, rfl, hkey.trans _ _ _ (hc.update y hup) ?_⟩
          exact hkey.trans _ _ _ (hkey.symm _ _ hzc) (hz' ▸ hzx)
        · rw [if_neg hpi]
          exact ⟨z', hz', hzx⟩
  | removed _ => exact absurd rfl hkeep
  | @added g bit _ _ _ _ =>
    simp only [Outcome.written, Bool.false_eq_true, if_false] at hwritten
    obtain ⟨hlt, rfl⟩ := Hbin.store?_eq_some_iff.mp hwritten
    refine ⟨fun p hp => ?_, fun p x hx => ?_⟩
    · obtain rfl := Option.some.inj hp
      refine ⟨Nat.lt_succ_self _, c.fresh, ?_, hc.fresh⟩
      rw [Hbin.elAt_set hlt, if_pos rfl]
    · obtain ⟨hp, z, hz, hzx⟩ := hx
      refine ⟨Nat.lt_succ_of_lt hp, z, ?_, hzx⟩
      rw [Hbin.elAt_set hlt, if_neg (Nat.ne_of_lt hp)]
      exact hz
  | absent _ _ =>
    simp only [Outcome.written, Option.some.injEq] at hwritten
    subst hwritten
    exact ⟨fun p hp => (by cases hp), fun p x hx => hx⟩

end Step

/-! ## Filling a table -/

structure Filled (key : Key El) (size : Nat) (calls : List (Call El)) (t : Iht El (List Group)) :
    Prop where
  probe : Probeable ihtWidths t.bin
  rep : BinRep ihtWidths key t.bin
  clear : ∀ i, t.bin.deleted.test i = false
  size : t.bin.elsSize = size
  live : t.bin.live = (refRun key.eq [] calls).2

section Filling

variable {size : Nat} {calls : List (Call El)} {t : Iht El (List Group)} {c : Call El}

theorem Filled.elsBound (h : Filled key size calls t) :
    t.bin.elsBound = (refRun key.eq [] calls).2.length := by
  rw [← h.live, h.probe.length_live h.clear]

theorem Filled.full_iff (h : Filled key size calls t) :
    ihtFull t = true ↔ size ≤ (refRun key.eq [] calls).2.length + 1 := by
  rw [ihtFull_eq h.probe.small, decide_eq_true_iff, h.size, h.elsBound]

theorem Filled.step (hkey : key.Lawful) (target : Target) (h : Filled key size calls t)
    (hsize : size ≤ 2 ^ 32) (hc : c.Ok key) (hkeep : c.action ≠ .delete)
    (hroom : (refRun key.eq [] calls).2.length + 1 < size) :
    ∃ r t', Returns (fun fuel => ihtStep (ihtOps key target) key fuel t c) (r, t') ∧
      Filled key size (calls ++ [c]) t' ∧ (∀ p, r.res = some p → t'.bin.HasAt key p c.el) ∧
      ∀ p x, t.bin.HasAt key p x → t'.bin.HasAt key p x := by
  rw [← h.elsBound] at hroom
  have hle : t.bin.elsBound ≤ 2 ^ 32 := by omega
  obtain ⟨o, b', hdo, hwritten⟩ := h.rep.perform hkey target hle hc (by rw [h.size]; omega) t.elsNum
  have hquiet : ¬ (c.action = .insert ∧ ihtFull t = true) := by
    rintro ⟨-, hfull⟩
    rw [h.full_iff, ← h.elsBound] at hfull
    omega
  have hstep : Returns (fun fuel => ihtStep (ihtOps key target) key fuel t c)
      (⟨o.found, o.res, o.value⟩, ⟨o.elsNum, b'⟩) := by
    have hperform : ∀ fuel, ihtPerform (ihtOps key target) key fuel t c.el c.action =
        (ihtOps key target).do1 fuel t.elsNum t.bin (key.hash c.el) c.el c.action := by
      intro fuel
      rw [ihtPerform_eq, ihtPrepare_same hquiet, Option.bind_some]
    simp only [ihtStep, hperform]
    refine Returns.bind hdo ?_
    rw [hwritten]
    exact Returns.const _
  obtain ⟨fuel, hfuel⟩ := hdo.exists_some
  have heffect := h.probe.do1_effect target.lawful hfuel
  have hstepped := h.rep.step hkey hle hc hfuel hwritten
  obtain ⟨hprobe, hmask, -⟩ := heffect.written h.probe hwritten
  obtain ⟨hres, hstay⟩ := heffect.hasAt hkey h.probe hc hkeep hwritten
  have hbound := hstepped.bound
  refine ⟨_, _, hstep, ⟨hprobe, hstepped.rep (by omega), ?_, ?_, ?_⟩, hres, hstay⟩
  · rw [heffect.keeps_deleted hkeep hwritten]
    exact h.clear
  · rw [← h.size, Hbin.elsSize, Hbin.elsSize, Hbin.numGroups, Hbin.numGroups, hmask]
  · rw [hstepped.live, h.live, refRun_concat]

def HandedOut (key : Key El) (calls : List (Call El)) (rs : List (Reply Nat El))
    (t : Iht El (List Group)) : Prop :=
  List.Forall₂ (fun c r => ∀ p, r.res = some p → t.bin.HasAt key p c.el) calls rs

theorem Filled.run (hkey : key.Lawful) (target : Target) {t₀ : Iht El (List Group)}
    (h₀ : Filled key size [] t₀) (hsize : size ≤ 2 ^ 32) (hok : ∀ c ∈ calls, c.Ok key)
    (hkeep : ∀ c ∈ calls, c.action ≠ .delete)
    (hroom : ∀ pre c, pre ++ [c] <+: calls → (refRun key.eq [] pre).2.length + 1 < size) :
    ∃ rs t, Returns (fun fuel => ihtRun (ihtOps key target) key fuel t₀ calls) (rs, t) ∧
      Filled key size calls t ∧ HandedOut key calls rs t := by
  induction calls using List.reverseRecOn with
  | nil => exact ⟨[], t₀, Returns.const _, h₀, List.Forall₂.nil⟩
  | append_singleton calls c ih =>
    obtain ⟨hok, hc⟩ := List.forall_mem_append.mp hok
    obtain ⟨hkeep, hckeep⟩ := List.forall_mem_append.mp hkeep
    obtain ⟨rs, t, hrun, h, hout⟩ := ih hok hkeep fun pre d hpre =>
      hroom pre d (hpre.trans (List.prefix_append _ _))
    obtain ⟨r, t', hstep, h', hres, hstay⟩ := h.step hkey target hsize
      (hc c (List.mem_singleton_self c)) (hckeep c (List.mem_singleton_self c))
      (hroom calls c (List.prefix_refl _))
    refine ⟨rs ++ [r], t', Returns.concat hrun hstep, h', List.rel_append ?_ ?_⟩
    · exact hout.imp fun d s hd p hp => hstay p d.el (hd p hp)
    · exact List.Forall₂.cons hres List.Forall₂.nil

end Filling

/-! ## The table that `iht_create` makes -/

/-- Neither a power of two from 4 on nor one less. -/
def OffPowers (n : Nat) : Prop := ∀ k ≥ 2, n ≠ 2 ^ k ∧ n ≠ 2 ^ k - 1

/-- The least capacity for `n` leaves two places over unless `n` is at a power of two. -/
theorem add_two_le_iff_offPowers {n k : Nat} (hle : n ≤ 4 * 2 ^ k)
    (hleast : k = 0 ∨ 2 * 2 ^ k < n) : n + 2 ≤ 4 * 2 ^ k ↔ OffPowers n := by
  have hfour : 2 ^ (k + 2) = 4 * 2 ^ k := by rw [Nat.pow_add, Nat.mul_comm]
  constructor
  · intro hroom j hj
    -- a power of two is at most half of the capacity, or at least the whole of it
    rcases Nat.lt_or_ge j (k + 2) with hlt | hge
    · have hhalf : 2 ^ j ≤ 2 ^ (k + 1) := Nat.pow_le_pow_right (by decide) (Nat.le_of_lt_succ hlt)
      have hfirst : 2 ^ 2 ≤ 2 ^ j := Nat.pow_le_pow_right (by decide) hj
      rw [Nat.pow_succ] at hhalf
      rcases hleast with rfl | hleast
      · omega
      · omega
    · have hwhole : 2 ^ (k + 2) ≤ 2 ^ j := Nat.pow_le_pow_right (by decide) hge
      omega
  · intro hoff
    have hnot := hoff (k + 2) (Nat.le_add_left 2 k)
    omega

theorem ihtCreate_filled (hkey : key.Lawful) (target : Target) {minSize : Nat}
    (hmin : minSize ≤ 2 ^ 31) :
    ∃ t₀, Returns (fun fuel => ihtCreate (ihtOps key target) fuel minSize) t₀ ∧
      minSize ≤ ihtSize t₀ ∧ (minSize + 2 ≤ ihtSize t₀ ↔ OffPowers minSize) ∧
      ihtSize t₀ ≤ 2 ^ 32 ∧ Filled key (ihtSize t₀) [] t₀ := by
  obtain ⟨size, hsize⟩ := forever_double_returns (w := 64) (a := 3)
    (fun s => s * LF_FACTOR / LF_DIVISOR < minSize) (fun _ => rfl) (show 3 ≤ 32 by decide) (by decide)
    (by simp only [LF_FACTOR, LF_DIVISOR]; omega)
  obtain ⟨fuel, hfuel⟩ := hsize.exists_some
  have hfuel' : forever (ihtCreateBody minSize) fuel GROUP_SIZE = some size := hfuel
  obtain ⟨k, hk, rfl, hle, hleast⟩ := ihtCreate_least hfuel'
  have hprobe := ihtAllocBin_probeable target key hk
  have hrefilled := ihtAllocBin_refilled hkey target hk
  have hels := ihtAllocBin_elsSize (ihtOps key target) k
  have hcapacity : ihtSize ⟨0, ihtAllocBin (ihtOps key target) (8 * 2 ^ k)⟩ = 4 * 2 ^ k := by
    rw [ihtSize_eq hprobe, hels]
  refine ⟨_, hsize.map _, by rwa [hcapacity], ?_, ?_, ?_⟩
  · rw [hcapacity]
    exact add_two_le_iff_offPowers hle hleast
  · rw [hcapacity]
    rcases hleast with rfl | hleast
    · decide
    · omega
  · exact ⟨hprobe, hrefilled.exact (Nat.zero_le _), hrefilled.clear, by rw [hcapacity, hels],
      hrefilled.live (Nat.zero_le _)⟩

/-! ## Runs of FINDs and INSERTs -/

/-- FINDs and INSERTs, of which the latter insert at most `n` different elements. -/
structure InsertsUpTo (key : Key El) (n : Nat) (calls : List (Call El)) : Prop where
  ok : ∀ c ∈ calls, c.Ok key
  keep : ∀ c ∈ calls, c.action ≠ .delete
  few : ∃ xs : List El, xs.length ≤ n ∧
    ∀ c ∈ calls, c.action = .insert → ∃ x ∈ xs, key.eq x c.el = true

/-- At every point of the run the calls have returned, each position handed out holds an
    element equal to the one it was handed out for, and the next call does not rebuild. -/
def Steady (key : Key El) (target : Target) (t₀ : Iht El (List Group)) (calls : List (Call El)) :
    Prop :=
  ∀ pre post, calls = pre ++ post → ∃ rs t,
    Returns (fun fuel => ihtRun (ihtOps key target) key fuel t₀ pre) (rs, t) ∧
    HandedOut key pre rs t ∧ ∀ c, post.head? = some c → ¬ (c.action = .insert ∧ ihtFull t = true)

section Calls

variable {n : Nat} {calls pre : List (Call El)}

theorem InsertsUpTo.initial (h : InsertsUpTo key n calls) (hpre : pre <+: calls) :
    InsertsUpTo key n pre := by
  obtain ⟨xs, hlen, hxs⟩ := h.few
  exact ⟨fun c hc => h.ok c (hpre.subset hc), fun c hc => h.keep c (hpre.subset hc), xs, hlen,
    fun c hc => hxs c (hpre.subset hc)⟩

/-- Every element of the reference has been inserted. -/
theorem refRun_covered (hkey : key.Lawful) {xs : List El} (hok : ∀ c ∈ calls, c.Ok key)
    (hxs : ∀ c ∈ calls, c.action = .insert → ∃ x ∈ xs, key.eq x c.el = true) :
    ∀ y ∈ (refRun key.eq [] calls).2, ∃ x ∈ xs, key.eq x y = true := by
  induction calls using List.reverseRecOn with
  | nil =>
    intro y hy
    cases hy
  | append_singleton calls c ih =>
    obtain ⟨hok, hc⟩ := List.forall_mem_append.mp hok
    obtain ⟨hxs, hxc⟩ := List.forall_mem_append.mp hxs
    intro y hy
    rw [refRun_concat] at hy
    rcases mem_refStep_cases hkey (hc c (List.mem_singleton_self c)) hy with
      ⟨z, hz, hzy⟩ | ⟨hins, hcy⟩
    · obtain ⟨x, hx, hxz⟩ := ih hok hxs z hz
      exact ⟨x, hx, hkey.trans _ _ _ hxz hzy⟩
    · obtain ⟨x, hx, hxc⟩ := hxc c (List.mem_singleton_self c) hins
      exact ⟨x, hx, hkey.trans _ _ _ hxc hcy⟩

theorem InsertsUpTo.length_le (hkey : key.Lawful) (h : InsertsUpTo key n calls) :
    (refRun key.eq [] calls).2.length ≤ n := by
  obtain ⟨xs, hlen, hxs⟩ := h.few
  have hapart := refRun_apart hkey h.ok (List.Pairwise.nil : Apart key.eq [])
  exact Nat.le_trans (hapart.length_le hkey.equivalence (refRun_covered hkey h.ok hxs)) hlen

theorem InsertsUpTo.steady (hkey : key.Lawful) (target : Target) {size : Nat}
    {t₀ : Iht El (List Group)} (h₀ : Filled key size [] t₀) (hsize : size ≤ 2 ^ 32)
    (hroom : n + 2 ≤ size) (h : InsertsUpTo key n calls) : Steady key target t₀ calls := by
  rintro pre post rfl
  have hpre := h.initial (List.prefix_append pre post)
  obtain ⟨rs, t, hrun, hfilled, hout⟩ := h₀.run hkey target hsize hpre.ok hpre.keep (by
    intro pre' c hpre'
    have hle := (hpre.initial ((List.prefix_append pre' [c]).trans hpre')).length_le hkey
    omega)
  refine ⟨rs, t, hrun, hout, ?_⟩
  rintro c - ⟨-, hfull⟩
  have hle := hpre.length_le hkey
  rw [hfilled.full_iff] at hfull
  omega

def insertCalls (xs : List El) : List (Call El) := plainCalls (xs.map fun x => (Action.insert, x))

theorem insertCalls_eq_map (xs : List El) : insertCalls xs = xs.map (Call.plain .insert) :=
  List.map_map

theorem length_insertCalls (xs : List El) : (insertCalls xs).length = xs.length := by
  rw [insertCalls_eq_map, List.length_map]

theorem insertCalls_append (xs ys : List El) :
    insertCalls (xs ++ ys) = insertCalls xs ++ insertCalls ys := by
  simp only [insertCalls_eq_map, List.map_append]

/-- Insertions of different elements into an empty map. -/
theorem refRun_insertCalls {xs : List El} (h : Apart key.eq xs) :
    refRun key.eq [] (insertCalls xs) = (List.replicate xs.length (false, none), xs) :=
  refRun_inserts h

theorem mem_insertCalls {xs : List El} {c : Call El} (hc : c ∈ insertCalls xs) :
    ∃ x ∈ xs, c = Call.plain .insert x := by
  rw [insertCalls_eq_map] at hc
  obtain ⟨x, hx, rfl⟩ := List.mem_map.mp hc
  exact ⟨x, hx, rfl⟩

theorem insertCalls_upTo (hkey : key.Lawful) (xs : List El) {ys : List El} (hsub : ys ⊆ xs) :
    InsertsUpTo key xs.length (insertCalls ys) := by
  refine ⟨plainCalls_ok hkey _, fun c hc => ?_, xs, Nat.le_refl _, fun c hc _ => ?_⟩
  · obtain ⟨y, -, rfl⟩ := mem_insertCalls hc
    rintro ⟨⟩
  · obtain ⟨y, hy, rfl⟩ := mem_insertCalls hc
    exact ⟨y, hsub hy, hkey.refl y⟩

/-- Where all positions but one are used, an INSERT rebuilds, of whatever element. -/
theorem Filled.not_steady (hkey : key.Lawful) (target : Target) {size : Nat}
    {t₀ : Iht El (List Group)} (h₀ : Filled key size [] t₀) (hsize : size ≤ 2 ^ 32) {xs : List El}
    (hxs : Apart key.eq xs) (hlen : xs.length + 1 = size) (x : El) :
    ¬ Steady key target t₀ (insertCalls (xs ++ [x])) := by
  intro hsteady
  obtain ⟨rs, t, hrun, -, hquiet⟩ := hsteady _ _ (insertCalls_append xs [x])
  have hupTo := insertCalls_upTo hkey xs (List.Subset.refl xs)
  obtain ⟨rs', t', hrun', hfilled, -⟩ := h₀.run hkey target hsize hupTo.ok hupTo.keep (by
    intro pre c hpre
    have hle : (refRun key.eq [] pre).2.length ≤ pre.length :=
      refRun_initial_length_le (List.prefix_refl pre)
    have hpre' := hpre.length_le
    simp only [List.length_append, length_insertCalls, List.length_cons, List.length_nil] at hpre'
    omega)
  obtain ⟨rfl, rfl⟩ := Prod.mk.inj (hrun.unique hrun')
  refine hquiet _ rfl ⟨rfl, ?_⟩
  rw [hfilled.full_iff, refRun_insertCalls hxs]
  exact Nat.le_of_eq hlen.symm

end Calls

/-- Let `t₀` be what `iht_create` makes for `min_size` elements.  If `min_size` is neither
    a power of two from 4 on nor one less, no FINDs and INSERTs of at most `min_size`
    different elements rebuild it, and what they have handed out stays where it is.
    Otherwise some do, where there are `min_size` different elements at all. -/
theorem iht_reserves_iff (hkey : key.Lawful) (target : Target) :
    ∀ minSize ≤ 2 ^ 31, ∃ t₀,
      Returns (fun fuel => ihtCreate (ihtOps key target) fuel minSize) t₀ ∧
      minSize ≤ ihtSize t₀ ∧
      (OffPowers minSize → ∀ calls, InsertsUpTo key minSize calls → Steady key target t₀ calls) ∧
      ((∃ xs, Apart key.eq xs ∧ xs.length = minSize) →
        (∀ calls, InsertsUpTo key minSize calls → Steady key target t₀ calls) →
        OffPowers minSize) := by
  intro minSize hmin
  obtain ⟨t₀, hcreate, hle, hiff, hsize, h₀⟩ := ihtCreate_filled hkey target hmin
  rw [← hiff]
  refine ⟨t₀, hcreate, hle, fun hroom calls hcalls => hcalls.steady hkey target h₀ hsize hroom, ?_⟩
  rintro ⟨xs, hxs, rfl⟩ hsteady
  by_contra hroom
  have hpos : 4 ≤ ihtSize t₀ := by
    rw [← h₀.size, Hbin.elsSize]
    have : 0 < t₀.bin.numGroups := Nat.succ_pos _
    omega
  -- all positions but one, and some element once more
  obtain ⟨x, hx⟩ : ∃ x, x ∈ xs := List.exists_mem_of_length_pos (by omega)
  have hsub : xs.take (ihtSize t₀ - 1) ++ [x] ⊆ xs :=
    List.append_subset.mpr ⟨List.take_subset _ _, List.cons_subset.mpr ⟨hx, List.nil_subset xs⟩⟩
  refine h₀.not_steady hkey target hsize (hxs.sublist (List.take_sublist (ihtSize t₀ - 1) xs)) ?_ x
    (hsteady _ (insertCalls_upTo hkey xs hsub))
  rw [List.length_take]
  omega

theorem offPowers_six : OffPowers 6 := by
  intro k hk
  rcases Nat.lt_or_ge k 3 with hlt | hge
  · obtain rfl : k = 2 := by omega
    decide
  · have hle : 2 ^ 3 ≤ 2 ^ k := Nat.pow_le_pow_right (by decide) hge
    omega

/-- A table for six takes six elements, and the first of them once more; a table for seven
    does not stay as it is under all INSERTs of seven elements. -/
theorem iht_reserves_six :
    (∃ t₀, Returns (fun fuel => ihtCreate (ihtOps identityKey .swar) fuel 6) t₀ ∧ ihtSize t₀ = 8 ∧
      Steady identityKey .swar t₀ (insertCalls [1, 2, 3, 4, 5, 6, 1])) ∧
    ∃ t₀, Returns (fun fuel => ihtCreate (ihtOps identityKey .swar) fuel 7) t₀ ∧
      ¬ ∀ calls, InsertsUpTo identityKey 7 calls → Steady identityKey .swar t₀ calls := by
  constructor
  · obtain ⟨t₀, hcreate, -, hsteady, -⟩ :=
      iht_reserves_iff identityKey_lawful .swar 6 (show 6 ≤ 2 ^ 31 by decide)
    have hsize : ihtSize t₀ = 8 := by
      rw [hcreate.unique ((ihtCreate_mono _ _).returns (n := 2) rfl)]
      rfl
    refine ⟨t₀, hcreate, hsize, hsteady offPowers_six _ ?_⟩
    exact insertCalls_upTo identityKey_lawful [1, 2, 3, 4, 5, 6] (by simp)
  · obtain ⟨t₀, hcreate, -, -, honly⟩ :=
      iht_reserves_iff identityKey_lawful .swar 7 (show 7 ≤ 2 ^ 31 by decide)
    refine ⟨t₀, hcreate, fun hsteady => ?_⟩
    have hapart : Apart identityKey.eq [1, 2, 3, 4, 5, 6, 7] := by
      unfold Apart
      decide
    have hoff := honly ⟨_, hapart, rfl⟩ hsteady
    exact (hoff 3 (by decide)).2 rfl

/-- A table for eight elements, the default of the C++ constructor: the INSERT of the
    eighth rebuilds it. -/
theorem iht_reserves_not_eight :
    ∃ t₀ rs t rs' t', Returns (fun fuel => ihtCreate (ihtOps identityKey .swar) fuel 8) t₀ ∧
      ihtSize t₀ = 8 ∧ InsertsUpTo identityKey 8 (insertCalls [1, 2, 3, 4, 5, 6, 7, 8]) ∧
      Returns (fun fuel => ihtRun (ihtOps identityKey .swar) identityKey fuel t₀
        (insertCalls [1, 2, 3, 4, 5, 6, 7])) (rs, t) ∧ ihtFull t = true ∧ ihtSize t = 8 ∧
      Returns (fun fuel => ihtRun (ihtOps identityKey .swar) identityKey fuel t₀
        (insertCalls [1, 2, 3, 4, 5, 6, 7, 8])) (rs', t') ∧ ihtSize t' = 16 := by
  have hcreate : Returns (fun fuel => ihtCreate (ihtOps identityKey .swar) fuel 8)
      ⟨0, ihtAllocBin (ihtOps identityKey .swar) 16⟩ := (ihtCreate_mono _ _).returns (n := 2) rfl
  have hmono : ∀ t calls, Mono fun fuel =>
      ihtRun (ihtOps identityKey .swar) identityKey fuel t calls :=
    runCalls_mono (ihtStep_mono (ihtOps_mono identityKey .swar))
  have hseven : (ihtRun (ihtOps identityKey .swar) identityKey 2
      ⟨0, ihtAllocBin (ihtOps identityKey .swar) 16⟩ (insertCalls [1, 2, 3, 4, 5, 6, 7])).map
      (fun s => (ihtFull s.2, ihtSize s.2)) = some (true, 8) := by
    decide +kernel
  have height : (ihtRun (ihtOps identityKey .swar) identityKey 4
      ⟨0, ihtAllocBin (ihtOps identityKey .swar) 16⟩ (insertCalls [1, 2, 3, 4, 5, 6, 7, 8])).map
      (fun s => ihtSize s.2) = some 16 := by
    decide +kernel
  obtain ⟨⟨rs, t⟩, hrun, heq⟩ := Option.map_eq_some_iff.mp hseven
  obtain ⟨⟨rs', t'⟩, hrun', heq'⟩ := Option.map_eq_some_iff.mp height
  obtain ⟨hfull, hsize⟩ := Prod.mk.inj heq
  exact ⟨_, rs, t, rs', t', hcreate, rfl,
    insertCalls_upTo identityKey_lawful [1, 2, 3, 4, 5, 6, 7, 8] (List.Subset.refl _),
    (hmono _ _).returns hrun, hfull, hsize, (hmono _ _).returns hrun', heq'⟩

end IndexedHash
