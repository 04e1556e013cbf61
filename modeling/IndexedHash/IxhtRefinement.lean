import Mathlib.Tactic.Common
import Mathlib.Tactic.IntervalCases
import IndexedHash.Filling
import IndexedHash.SplitElements

/-!
# `ixhtab.h` as a map

As long as the directory leads every hash to its bin, a table is its reference map: a
call acts on one bin, and no other bin has an element equal to the one it is about.
So `ixhtab.h` refines a map over every session whose splits keep the directory in order
and lose nothing (`ixht_refines_clean`), that is, splits of bins of depth `max_depth` or
`max_depth - 1` whose elements the first bit separates.

Other splits happen, with the constants of the source and a few calls after a bin is
full (`ixht_forgets`).
-/

namespace IndexedHash

open Loop KeyedList

variable {El G : Type} {key : Key El} {maxPower : Nat}

/-! ## The iterator -/

section Iterate

variable {t : Ixht El G}

def Ixht.contentsFrom (t : Ixht El G) (b i : Nat) : List El :=
  match t.bins.drop b with
  | [] => []
  | e :: rest => e.bin.liveFrom i ++ rest.flatMap fun e => e.bin.live

theorem Ixht.contentsFrom_eq {b : Nat} {e : Ebin El G} (hb : t.bins[b]? = some e) (i : Nat) :
    t.contentsFrom b i = e.bin.liveFrom i ++ t.contentsFrom (b + 1) 0 := by
  obtain ⟨hlt, rfl⟩ := List.getElem?_eq_some_iff.mp hb
  have hrest : (t.bins.drop (b + 1)).flatMap (fun e => e.bin.live) = t.contentsFrom (b + 1) 0 := by
    unfold contentsFrom
    cases t.bins.drop (b + 1) with
    | nil => rfl
    | cons e rest => simp only [List.flatMap_cons, Hbin.liveFrom_zero]
  rw [← hrest, contentsFrom, List.drop_eq_getElem_cons hlt]

theorem Ixht.contentsFrom_of_le {b : Nat} (hb : t.bins.length ≤ b) (i : Nat) :
    t.contentsFrom b i = [] := by
  rw [contentsFrom, List.drop_eq_nil_of_le hb]

theorem Ixht.contentsFrom_zero (t : Ixht El G) : t.contentsFrom 0 0 = t.contents := by
  rw [contentsFrom, List.drop_zero, Ixht.contents]
  cases t.bins with
  | nil => rfl
  | cons e rest => simp only [List.flatMap_cons, Hbin.liveFrom_zero]

def Browsable (key : Key El) (t : Ixht El G) : Prop :=
  ∀ e ∈ t.bins, Readable key e.bin ∧ e.elsStart = 0 ∧ e.bin.elsBound + 1 < 2 ^ 32

theorem Browsable.elements (h : Browsable key t) (b i : Nat) :
    (t.positionsFrom b i).filterMap t.elAt = t.contentsFrom b i := by
  -- on the number of bins that are left
  induction hk : t.bins.length - b generalizing b i with
  | zero => rw [Ixht.positionsFrom_of_le (by omega), Ixht.contentsFrom_of_le (by omega),
      List.filterMap_nil]
  | succ k ih =>
    have hb : b < t.bins.length := by omega
    have he : t.bins[b]? = some t.bins[b] := List.getElem?_eq_getElem hb
    have hbin : (t.binPositions b i).filterMap t.elAt = t.bins[b].bin.liveFrom i := by
      rw [Ixht.binPositions_eq he, List.filterMap_map, ← Hbin.positionsFrom_elements]
      congr 1
      funext j
      rw [Function.comp_apply, Ixht.elAt, he, Option.bind_some]
    -- a next bin is read from position 0
    have hnext : t.contentsFrom (b + 1) (t.startAt (b + 1)) = t.contentsFrom (b + 1) 0 := by
      unfold Ixht.startAt
      cases hnext : t.bins[b + 1]? with
      | some next => rw [Option.elim_some, (h next (List.mem_of_getElem? hnext)).2.1]
      | none => rw [Option.elim_none]
    rw [Ixht.positionsFrom_next, List.filterMap_append, hbin, ih _ _ (by omega), hnext,
      Ixht.contentsFrom_eq he]

/-- The iterator visits the contents, bin by bin. -/
theorem ixhtElements_returns (h : Browsable key t) :
    Returns (fun fuel => ixhtElements fuel t) t.contents := by
  have hstart : t.contentsFrom 0 (t.startAt 0) = t.contentsFrom 0 0 := by
    unfold Ixht.startAt
    cases hfirst : t.bins[0]? with
    | some e => rw [Option.elim_some, (h e (List.mem_of_getElem? hfirst)).2.1]
    | none => rw [Option.elim_none]
  rw [← t.contentsFrom_zero, ← hstart, ← h.elements]
  refine ixhtElements_positions fun e he => ?_
  obtain ⟨hread, -, hsmall⟩ := h e he
  exact hread.scannable (show e.bin.elsBound < 2 ^ 32 by omega)

end Iterate

/-! ## A call on a table in order -/

/-- If the call splits a bin, it is of depth `max_depth` or `max_depth - 1`, and the first
    bit separates its elements. -/
def SplitsClean (maxPower : Nat) (key : Key El) (t : Ixht El G) (c : Call El) : Prop :=
  ∀ b e, c.action = .insert → t.binOf (key.nonzero.hash c.el) = some b → t.bins[b]? = some e →
    ixhtFull e = true → ixhtSplits maxPower t e = true →
    t.maxDepth ≤ e.depth + 1 ∧ Mixed key e.depth e.bin.live

theorem IxSim.splitsClean_iff {Slots : G → Nat → Nat → List Entry → Prop} {t : Ixht El G}
    {a : IdealIxht El} (h : IxSim Slots t a) {c : Call El} :
    SplitsClean maxPower key t c ↔ SplitsClean maxPower key a c := by
  constructor
  · intro hclean b e' hins hbin hb hfull hsplits
    obtain ⟨e, he, hee⟩ := Forall₂.exists_of_right h.bins hb
    have := hclean b e hins (h.binOf _ ▸ hbin) he (hee.full.trans hfull) ((h.splits hee).trans hsplits)
    rwa [h.maxDepth, hee.depth, ← hee.bin.live] at this
  · intro hclean b e hins hbin hb hfull hsplits
    obtain ⟨e', he', hee⟩ := Forall₂.exists_of_left h.bins hb
    have := hclean b e' hins (h.binOf _ ▸ hbin) he' (hee.full.symm.trans hfull)
      ((h.splits hee).symm.trans hsplits)
    rwa [← h.maxDepth, ← hee.depth, hee.bin.live] at this

section Step

variable {a a' p : IdealIxht El} {c : Call El} {i : Nat} {l : List El}

structure Mirrors (key : Key El) (a : IdealIxht El) (l : List El) : Prop where
  dir : Dir key a
  contents : a.contents.Perm l
  count : a.elsNum = l.length

/-- Up to the last line of `ixht_perform` the elements stay, and the directory leads to
    the bin that has been chosen. -/
theorem Prepared.mirrors {hash : BitVec 64} {action : Action}
    (hprep : Prepared maxPower key a hash action p i) (h : IxOk maxPower key a)
    (hl : Mirrors key a l)
    (hclean : ∀ b e, action = .insert → a.binOf hash = some b → a.bins[b]? = some e →
      ixhtFull e = true → ixhtSplits maxPower a e = true →
      a.maxDepth ≤ e.depth + 1 ∧ Mixed key e.depth e.bin.live) :
    Mirrors key p l ∧ p.binOf hash = some i := by
  have hnum := (hprep.ok h).2.1
  suffices hp : Dir key p ∧ p.contents.Perm a.contents ∧ p.binOf hash = some i from
    ⟨⟨hp.1, hp.2.1.trans hl.contents, hnum.trans hl.count⟩, hp.2.2⟩
  cases hprep with
  | keep hbin hi hroom => exact ⟨hl.dir, List.Perm.refl _, hbin⟩
  | @rebuild _ j e e' haction hbin hi hhalf hone hsize hroom =>
    refine ⟨hl.dir.set_bin hi e' hhalf.depth hhalf.mask ?_ a.elsNum, ?_, hbin⟩
    · rw [hhalf.live]
      exact hl.dir.placed e (List.mem_of_getElem? hi)
    · obtain ⟨l₁, l₂, hcontents, hset, -⟩ := contents_set hi
      rw [Ixht.contents, hset, hhalf.live, ← hcontents]
  | @split b k _ e t haction hbin hb hfull hsplits hdone hi =>
    obtain ⟨hdepth, hmix⟩ := hclean b e haction hbin hb hfull hsplits
    obtain rfl := hdone.eq_zero hmix
    obtain ⟨x, y, -, hx, hy⟩ := hdone.bins_eq (List.getElem?_eq_some_iff.mp hb).1
    obtain ⟨mx, my, xs, ys, hhx, hhy, -, -, hperm, -⟩ :=
      hdone.halves (h.shape.bins e (List.mem_of_getElem? hb)).2 hx hy
    refine ⟨hdone.keeps_dir h.shape hb hl.dir hdepth, hdone.contents_perm hb hx hy ?_, hi⟩
    rw [hhx.live, hhy.live]
    exact hperm

/-- The elements of the other bins are not equal to the one that a call is about. -/
theorem Dir.eq_false (hkey : key.Lawful) (h : Dir key a) {el x : El}
    (hbin : a.binOf (key.nonzero.hash el) = some i) {j : Nat} {f : Ebin El (List Entry)}
    (hji : j ≠ i) (hf : a.bins[j]? = some f) (hx : x ∈ f.bin.live) : key.eq x el = false := by
  by_contra hne
  have heq : key.eq x el = true := by simpa using hne
  have hplaced := h.placed f (List.mem_of_getElem? hf) x hx
  rw [hkey.nonzero.hash_eq x el heq, ← h.binOf_iff hf, hbin] at hplaced
  exact hji (Option.some.inj hplaced).symm

/-- `ixht_do_1` and the caller's write on the bin of the element. -/
theorem Mirrors.stepped (hkey : key.Lawful) (hl : Mirrors key p l) (hapart : Apart key.eq l)
    (hc : c.Ok key) (hbin : p.binOf (key.nonzero.hash c.el) = some i) {e : Ebin El (List Entry)}
    (he : p.bins[i]? = some e) {o : Outcome El (List Entry)} {bin : IdealBin El}
    (hstep : Stepped ixhtWidths key.nonzero e.bin c p.elsNum o bin) :
    (o.found, o.value) = (refStep key.eq l c).1 ∧
      Mirrors key { p with elsNum := o.elsNum, bins := p.bins.set i { e with bin := bin } }
        (refStep key.eq l c).2 := by
  obtain ⟨l₁, l₂, hcontents, hset, hothers⟩ := contents_set he
  have hfalse : ∀ x, x ∈ l₁ ∨ x ∈ l₂ → key.eq x c.el = false := by
    intro x hx
    obtain ⟨j, f, hji, hf, hxf⟩ := hothers x hx
    exact hl.dir.eq_false hkey hbin hji hf hxf
  have hlive : bin.live = (refStep key.eq e.bin.live c).2 := hstep.live
  have hseen : (o.found, o.value) = (refStep key.eq e.bin.live c).1 := hstep.seen
  obtain ⟨hreply, hperm⟩ := refStep_part (l := e.bin.live) (fun x hx => hfalse x (Or.inl hx))
    fun x hx => hfalse x (Or.inr hx)
  rw [← hcontents] at hreply hperm
  have hcontentsApart : Apart key.eq p.contents :=
    hl.contents.symm.pairwise hapart fun {x y} => (eq_false_symm hkey.equivalence).symm x y
  obtain ⟨hreply', hperm'⟩ := refStep_perm (c := c) hkey hcontentsApart hl.contents
  have hnew : Ixht.contents { p with
      elsNum := o.elsNum, bins := p.bins.set i { e with bin := bin } } = l₁ ++ bin.live ++ l₂ :=
    hset { e with bin := bin }
  have hall := hperm.trans hperm'
  rw [← hlive, ← hnew] at hall
  refine ⟨hseen.trans (hreply.symm.trans hreply'.symm), ?_, hall, ?_⟩
  · refine hl.dir.set_bin he { e with bin := bin } rfl rfl (fun x hx => ?_) o.elsNum
    rw [hlive] at hx
    rcases mem_refStep hc hx with hx | hx
    · exact hl.dir.placed e (List.mem_of_getElem? he) x hx
    · rw [hkey.nonzero.hash_eq x c.el hx]
      exact (hl.dir.binOf_iff he _).mp hbin
  · have hlen := hall.length_eq
    have hold := hl.contents.length_eq
    have hcount := hstep.count
    have hnum := hl.count
    rw [hnew] at hlen
    rw [hcontents] at hold
    simp only [List.length_append] at hlen hold
    show o.elsNum = _
    omega

/-- A call is a step of the map. -/
theorem Mirrors.step (hkey : key.Lawful) (hpower : PowerOk maxPower) (h : IxOk maxPower key a)
    (hl : Mirrors key a l) (hapart : Apart key.eq l) (hnum : l.length < 2 ^ 31) (hc : c.Ok key)
    (hclean : SplitsClean maxPower key a c) {fuel : Nat} {r : Reply (Nat × Nat) El}
    (hstep : ixhtStep maxPower (idealIxhtOps key) key fuel a c = some (r, a')) :
    r.seen = (refStep key.eq l c).1 ∧ Mirrors key a' (refStep key.eq l c).2 := by
  have hnum : a.elsNum < 2 ^ 31 := hl.count ▸ hnum
  obtain ⟨p, i, e, o, bin, hprep, he, hstepped, rfl, rfl⟩ := step_cases hkey hpower h hnum hc hstep
  obtain ⟨hp, hbin⟩ := hprep.mirrors h hl hclean
  exact hp.stepped hkey hapart hc hbin he hstepped

end Step

/-! ## Sessions whose splits are clean -/

section Session

variable {limit : Nat} {ops : BinOps El G} {Slots : G → Nat → Nat → List Entry → Prop}
  {t t₀ : Ixht El G} {a a₀ : IdealIxht El} {calls : List (Call El)}

/-- A session on `t₀` with fewer than `2 ^ 31` elements in the map, in which every split
    is clean. -/
structure CleanSession (maxPower : Nat) (ops : BinOps El G) (key : Key El) (t₀ : Ixht El G)
    (calls : List (Call El)) : Prop where
  calls_ok : ∀ c ∈ calls, c.Ok key
  bound : ∀ pre, pre <+: calls → (refRun key.eq [] pre).2.length < 2 ^ 31
  clean : ∀ pre c, pre ++ [c] <+: calls → ∀ rs t,
    Returns (fun fuel => ixhtRun maxPower ops key fuel t₀ pre) (rs, t) →
    SplitsClean maxPower key t c

theorem CleanSession.of_concat {c : Call El}
    (h : CleanSession maxPower ops key t₀ (calls ++ [c])) :
    CleanSession maxPower ops key t₀ calls where
  calls_ok d hd := h.calls_ok d (List.mem_append_left _ hd)
  bound pre hpre := h.bound pre (hpre.trans (List.prefix_append calls [c]))
  clean pre d hpre := h.clean pre d (hpre.trans (List.prefix_append calls [c]))

theorem CleanSession.mirrors (hlaw : ops.Lawful ixhtWidths key.nonzero limit Slots)
    (hkey : key.Lawful) (hpower : PowerOk maxPower) (hlimit : 2 ^ maxPower ≤ limit)
    (h₀ : Follows maxPower key Slots t₀ a₀) (hl₀ : Mirrors key a₀ [])
    (h : CleanSession maxPower ops key t₀ calls) {rs : List (Reply (Nat × Nat) El)}
    (hrun : Returns (fun fuel => ixhtRun maxPower ops key fuel t₀ calls) (rs, t)) :
    ∃ a, Follows maxPower key Slots t a ∧ Mirrors key a (refRun key.eq [] calls).2 ∧
      rs.map Reply.seen = (refRun key.eq [] calls).1 := by
  induction calls using List.reverseRecOn generalizing rs t with
  | nil =>
    obtain ⟨rfl, rfl⟩ := Prod.mk.inj (hrun.unique (Returns.const ([], t₀)))
    exact ⟨a₀, h₀, hl₀, rfl⟩
  | append_singleton cs c ih =>
    obtain ⟨rs', r, s, hcs, hlast, rfl⟩ := Returns.of_concat (ixhtStep_mono hlaw.mono) hrun
    obtain ⟨a, hsa, hl, hseen⟩ := ih h.of_concat hcs
    have hc := h.calls_ok c (List.mem_append_right _ (List.mem_singleton_self c))
    have hnum := h.bound cs (List.prefix_append cs [c])
    have hclean := hsa.sim.splitsClean_iff.mp (h.clean cs c (List.prefix_refl _) rs' s hcs)
    -- the call on the ideal table
    obtain ⟨⟨r', a'⟩, hlast', heq, hta⟩ := Returns.of_rel_left
      (ixhtStep_mono (idealOps_lawful ixhtWidths key.nonzero 0).mono a c)
      (fun fuel hfuel => hsa.step hlaw hkey hpower hlimit (hl.count ▸ hnum) hc hfuel) hlast
    have heq : r = r' := heq
    subst heq
    obtain ⟨fuel, hfuel⟩ := hlast'.exists_some
    have hapart := refRun_apart hkey h.of_concat.calls_ok (l := []) List.Pairwise.nil
    obtain ⟨hseen', hl'⟩ := hl.step hkey hpower hsa.ok hapart hnum hc hclean hfuel
    rw [refRun_concat, List.map_append, hseen]
    exact ⟨a', hta, hl', by simp only [List.map_cons, List.map_nil, hseen']⟩

theorem Follows.browsable (hpower : PowerOk maxPower) (h : Follows maxPower key Slots t a) :
    Browsable key.nonzero t := by
  intro e he
  obtain ⟨i, hi⟩ := List.mem_iff_getElem?.mp he
  obtain ⟨e', he', hee⟩ := Forall₂.exists_of_left h.sim.bins hi
  have hok := h.ok.bins e' (List.mem_of_getElem? he')
  have hcap := hok.capacity_lt hpower
  have hpow := hpower.two_pow_le
  have hbound : e'.bin.elsBound ≤ 4 * e'.bin.numGroups := hok.dense.bound
  refine ⟨(hee.bin.upTo 0).readable hok.dense.readable, hee.elsStart.trans hok.start, ?_⟩
  rw [← hee.bin.elsBound]
  omega

end Session

/-- `ixhtab.h` refines a map over every session in which each split is of a bin of depth
    `max_depth` or `max_depth - 1` whose live elements differ in the first bit: every
    call returns what the map says, `ixht_els_count` is its size, and the iterator
    enumerates its elements once each. -/
theorem ixht_refines_clean (hkey : key.Lawful) (target : Target) (hpower : PowerOk maxPower)
    {minSize : Nat} (hmin : minSize ≤ 2 ^ 31) :
    ∃ t₀, Returns (fun fuel => ixhtCreate maxPower (ixhtOps key target) fuel minSize) t₀ ∧
      ∀ calls rs t, CleanSession maxPower (ixhtOps key target) key t₀ calls →
        Returns (fun fuel => ixhtRun maxPower (ixhtOps key target) key fuel t₀ calls) (rs, t) →
        rs.map Reply.seen = (refRun key.eq [] calls).1 ∧
        ixhtElsCount t = (refRun key.eq [] calls).2.length ∧
        ∃ l, Returns (fun fuel => ixhtElements fuel t) l ∧ l.Perm (refRun key.eq [] calls).2 := by
  have hlaw := ixhtOps_lawful hkey target
  obtain ⟨t₀, a₀, ht₀, ha₀, h₀, hzero, hempty⟩ := ixhtCreate_follows hlaw hkey hpower hmin
  obtain ⟨fuel, hfuel⟩ := ha₀.exists_some
  have hl₀ : Mirrors key a₀ [] := ⟨ixhtCreate_dir hkey hpower hfuel, hempty ▸ List.Perm.refl _,
    hzero⟩
  refine ⟨t₀, ht₀, fun calls rs t h hrun => ?_⟩
  obtain ⟨a, hta, hl, hseen⟩ := h.mirrors hlaw hkey hpower
    (Nat.le_trans hpower.two_pow_le (by decide)) h₀ hl₀ hrun
  refine ⟨hseen, hta.sim.elsNum.trans hl.count, t.contents,
    ixhtElements_returns (hta.browsable hpower), ?_⟩
  rw [hta.sim.contents]
  exact hl.contents

def nineCalls : List (Call (BitVec 64)) :=
  plainCalls ([1, 2, 3, 4, 5, 6, 7, 8, 9].map fun x => (Action.insert, x))

/-- With bins of at most eight elements the last of them splits the bin, and the first bit
    separates its elements. -/
theorem nineCalls_clean : CleanSession 4 (ixhtOps identityKey .swar) identityKey
    (sampleIxht (ixhtOps identityKey .swar)) nineCalls := by
  have h₀ := sampleIxht_follows powerOk_four
  have hideal := idealOps_lawful ixhtWidths identityKey.nonzero 0
  have hok : ∀ c ∈ nineCalls, c.Ok identityKey := plainCalls_ok identityKey_lawful _
  refine ⟨hok, fun pre hpre => ?_, fun pre c hpre rs t hrun => ?_⟩
  · have hle : (refRun identityKey.eq [] pre).2.length ≤ 9 := refRun_initial_length_le hpre
    omega
  · have hlen := hpre.length_le
    have htake := List.prefix_iff_eq_take.mp ((List.prefix_append pre [c]).trans hpre)
    rw [List.length_append, List.length_singleton, show nineCalls.length = 9 from rfl] at hlen
    -- the ideal table before the call
    have hstate : ∀ k ≤ 8, ∃ rs, ixhtRun 4 (idealIxhtOps identityKey) identityKey 1
        (sampleIxht (idealIxhtOps identityKey)) (nineCalls.take k) =
          some (rs, oneBin k (smallBin ([1, 2, 3, 4, 5, 6, 7, 8].take k))) := by
      intro k hk
      interval_cases k <;> exact ⟨_, rfl⟩
    obtain ⟨rs', hrun'⟩ := hstate pre.length (by omega)
    rw [← htake] at hrun'
    obtain ⟨t', ht', hta⟩ := h₀.run_of_ideal (ixhtOps_lawful identityKey_lawful .swar)
      identityKey_lawful powerOk_four (by decide) (fun d hd => hok d (hpre.subset (by simp [hd])))
      (show 0 + pre.length ≤ 2 ^ 31 by omega)
      ((runCalls_mono (ixhtStep_mono hideal.mono) _ pre).returns hrun')
    obtain ⟨-, rfl⟩ := Prod.mk.inj (hrun.unique ht')
    intro b e hins hbin hb hfull hsplits
    obtain ⟨f, hf, hee⟩ := Forall₂.exists_of_left hta.sim.bins hb
    have hf' : f = ⟨0, 0, 0, smallBin ([1, 2, 3, 4, 5, 6, 7, 8].take pre.length)⟩ :=
      List.mem_singleton.mp (List.mem_of_getElem? hf)
    subst hf'
    have hhalf : ∀ xs, Hbin.halfIndexes (smallBin xs) = 8 := by
      intro xs
      rw [Hbin.halfIndexes, Hbin.indexesSize, smallBin, refill_groupsMask]
      decide
    have hsize : pre.length = 8 := by
      rw [hee.full, ixhtFull, decide_eq_true_eq, hhalf, smallBin, refill_elsBound, List.length_take]
        at hfull
      exact Nat.le_antisymm (by omega) (hfull ▸ Nat.min_le_left _ _)
    have hdepth : e.depth = 0 := hee.depth
    have hmax : t.maxDepth = 0 := hta.sim.maxDepth
    refine ⟨by omega, ?_⟩
    rw [hdepth, ← hee.bin.live, hsize, mixed_iff]
    decide

theorem ixht_refines_clean_nine :
    ∃ t₀ rs t, CleanSession 4 (ixhtOps identityKey .swar) identityKey t₀ nineCalls ∧
      Returns (fun fuel => ixhtRun 4 (ixhtOps identityKey .swar) identityKey fuel t₀ nineCalls)
        (rs, t) ∧
      ixhtElsCount t = 9 ∧
      ∃ l, Returns (fun fuel => ixhtElements fuel t) l ∧ l.Perm [1, 2, 3, 4, 5, 6, 7, 8, 9] := by
  have hideal := idealOps_lawful ixhtWidths identityKey.nonzero 0
  obtain ⟨t₀, ht₀, hrefines⟩ := ixht_refines_clean identityKey_lawful .swar powerOk_four
    (show 4 ≤ 2 ^ 31 by decide)
  obtain rfl := ht₀.unique (sampleIxht_created powerOk_four _)
  have hclean := nineCalls_clean
  obtain ⟨⟨rs, a⟩, hrun⟩ := Option.isSome_iff_exists.mp (show (ixhtRun 4 (idealIxhtOps identityKey)
    identityKey 32 (sampleIxht (idealIxhtOps identityKey)) nineCalls).isSome from by decide +kernel)
  obtain ⟨t, ht, -⟩ := (sampleIxht_follows powerOk_four).run_of_ideal
    (ixhtOps_lawful identityKey_lawful .swar) identityKey_lawful powerOk_four (by decide)
    hclean.calls_ok (show 0 + nineCalls.length ≤ 2 ^ 31 by decide) ((runCalls_mono (ixhtStep_mono hideal.mono) _ nineCalls).returns hrun)
  obtain ⟨-, hcount, hels⟩ := hrefines nineCalls rs t hclean ht
  exact ⟨_, rs, t, hclean, ht, hcount, hels⟩

/-! ## A split that forgets an element -/

section Split

variable {a : IdealIxht El} {c : Call El} {b : Nat} {e : Ebin El (List Entry)}

/-- An INSERT that splits a bin, if some pass finds elements for both sides. -/
theorem split_step (hkey : key.Lawful) (hpower : PowerOk maxPower) (h : IxOk maxPower key a)
    (hnum : a.elsNum < 2 ^ 31) (hc : c.Ok key) (hins : c.action = .insert)
    (hbin : a.binOf (key.nonzero.hash c.el) = some b) (hb : a.bins[b]? = some e)
    (hfull : ixhtFull e = true) (hsplits : ixhtSplits maxPower a e = true)
    (hmix : ∃ k, e.depth + k ≤ 30 ∧ Mixed key (e.depth + k) (e.pass key k).els) :
    ∃ k p i f o bin, SplitDone key e.bin.numGroups a b e k p ∧ IxOk maxPower key p ∧
      p.bins[i]? = some f ∧ Stepped ixhtWidths key.nonzero f.bin c p.elsNum o bin ∧
      Returns (fun fuel => ixhtStep maxPower (idealIxhtOps key) key fuel a c)
        (⟨o.found, o.res.map fun pos => (i, pos), o.value⟩,
          { p with elsNum := o.elsNum, bins := p.bins.set i { f with bin := bin } }) := by
  have hle := hpower.le
  have hmem := List.mem_of_getElem? hb
  have hok := h.bins e hmem
  obtain ⟨p, hp⟩ := splitBin_returns hkey hok (show maxPower - 3 ≤ 28 by omega) h.shape hb hmix
    (show 31 < 32 by decide)
  obtain ⟨k, hdone⟩ := splitBin_done hkey hok (by omega) h.shape hb hp
  have hokp := hdone.ok h hb
  obtain ⟨i, -, hi, -⟩ := hokp.shape.binOf_some (key.nonzero.hash c.el)
  obtain ⟨f, _, _, _, hf, -, -, hfroom⟩ := hdone.room hok (h.shape.bins e hmem).2 hb
    (hdone.binOf_cases h.shape hbin hi)
  have hprep : ixhtPrepare maxPower (idealIxhtOps key) key 32 a (key.nonzero.hash c.el) c.action =
      some (p, i) := by
    simp only [ixhtPrepare, hbin, hb, Option.bind_some, if_pos (And.intro hins hfull), if_pos hsplits,
      hp, hi, Option.map_some]
  obtain ⟨o, bin, hstepped, hstep⟩ := step_of_prepare hkey hokp (hdone.elsNum ▸ hnum) hf
    (fun _ => hfroom) hc hprep
  exact ⟨k, p, i, f, o, bin, hdone, hokp, hf, hstepped,
    (ixhtStep_mono (idealOps_lawful ixhtWidths key.nonzero 0).mono a c).returns hstep⟩

/-- The elements after a split: what the last pass has found, and the other bins. -/
theorem SplitDone.mem_contents {n k : Nat} {p : IdealIxht El} (h : IxOk maxPower key a)
    (hdone : SplitDone key n a b e k p) (hb : a.bins[b]? = some e) {x : El} (hx : x ∈ p.contents) :
    x ∈ (e.pass key k).els ∨ ∃ j f, j ≠ b ∧ a.bins[j]? = some f ∧ x ∈ f.bin.live := by
  obtain ⟨u, v, hbins, hu, hv⟩ := hdone.bins_eq (List.getElem?_eq_some_iff.mp hb).1
  obtain ⟨mu, mv, us, vs, hhu, hhv, -, -, hperm, -⟩ :=
    hdone.halves (h.shape.bins e (List.mem_of_getElem? hb)).2 hu hv
  obtain ⟨l₁, l₂, -, hset, hothers⟩ := contents_set hb
  rw [Ixht.contents, hbins, List.flatMap_append, hset, List.flatMap_cons, List.flatMap_nil,
    List.append_nil, hhu.live, hhv.live] at hx
  simp only [List.mem_append] at hx
  have hsides : x ∈ us ∨ x ∈ vs → x ∈ (e.pass key k).els := fun hx =>
    hperm.mem_iff.mp (List.mem_append.mpr hx)
  rcases hx with ((hx | hx) | hx) | hx
  · exact Or.inr (hothers x (Or.inl hx))
  · exact Or.inl (hsides (Or.inl hx))
  · exact Or.inr (hothers x (Or.inr hx))
  · exact Or.inl (hsides (Or.inr hx))

/-- The elements after `ixht_do_1` and the caller's write. -/
theorem mem_contents_stepped {p : IdealIxht El} {i m : Nat} {f : Ebin El (List Entry)}
    (hc : c.Ok key) (hf : p.bins[i]? = some f) {o : Outcome El (List Entry)} {bin : IdealBin El}
    (hstep : Stepped ixhtWidths key.nonzero f.bin c m o bin) {x : El}
    (hx : x ∈ Ixht.contents
      { p with elsNum := o.elsNum, bins := p.bins.set i { f with bin := bin } }) :
    x ∈ p.contents ∨ key.eq x c.el = true := by
  obtain ⟨g, hg, hxg⟩ := IndexedHash.mem_contents.mp hx
  rcases List.mem_or_eq_of_mem_set hg with hg | rfl
  · exact Or.inl (IndexedHash.mem_contents.mpr ⟨g, hg, hxg⟩)
  · have hlive : bin.live = (refStep key.eq f.bin.live c).2 := hstep.live
    have hxg : x ∈ bin.live := hxg
    rw [hlive] at hxg
    rcases mem_refStep hc hxg with hxf | heq
    · exact Or.inl (IndexedHash.mem_contents.mpr ⟨f, List.mem_of_getElem? hf, hxf⟩)
    · exact Or.inr heq

/-- The second pass reads the bin through the bitmap again if the first one has moved
    nothing. -/
theorem Ebin.pass_one_of_stay {e : Ebin El G} (hstay : ∀ x ∈ e.bin.live, goesNew key e.depth x = false)
    {x : El} (hx : x ∈ e.bin.live) : ¬ Mixed key e.depth e.bin.live ∧
      (e.pass key 1).els = e.bin.deleted.thin e.bin.live := by
  have hnot : ¬ Mixed key e.depth e.bin.live := by
    rintro ⟨-, y, hy, hgo⟩
    rw [hstay y hy] at hgo
    cases hgo
  have hnext : (e.pass key 1).els = if true ^^ goesNew key e.depth x then
      e.bin.deleted.thin e.bin.live else e.bin.live := (Pass.next_eq hnot hx e.bin.deleted).2
  rw [hstay x hx] at hnext
  exact ⟨hnot, hnext⟩

end Split

section Forget

/-- The list `8`, `12`, …, `2 ^ 16`, as far as it matters here. -/
structure FourFold (ms : List (BitVec 64)) : Prop where
  length : (4 :: ms).length = 2 ^ 14
  apart : Apart identityKey.eq (4 :: ms)
  hash : ∀ x ∈ 4 :: ms, identityKey.nonzero.hash x = x ∧ x.toNat % 4 = 0
  first : ms[0]? = some 8
  second : ms[1]? = some 12
  third : ms[2]? = some 16

theorem progression_fourFold : FourFold (progression (2 ^ 14 - 1) 4 8) where
  length := by
    rw [List.length_cons, length_progression]
    decide
  apart := by
    refine List.pairwise_cons.mpr ⟨fun x hx => ?_, progression_apart (by decide) (by decide)⟩
    obtain ⟨j, hj, hxj⟩ := (mem_progression (by decide)).mp hx
    show (4#64 == x) = false
    rw [beq_eq_false_iff_ne]
    rintro rfl
    have : (4#64).toNat = 4 := rfl
    omega
  hash := by
    intro x hx
    rcases List.mem_cons.mp hx with rfl | hx
    · exact ⟨by decide, by decide⟩
    · obtain ⟨j, hj, hxj⟩ := (mem_progression (by decide)).mp hx
      exact ⟨identityKey_nonzero (by omega), by omega⟩
  first := progression_getElem? (by decide)
  second := progression_getElem? (by decide)
  third := progression_getElem? (by decide)

def markedBin (ms : List (BitVec 64)) : IdealBin (BitVec 64) :=
  ((largeBin identityKey).refill identityKey.nonzero.hash (4 :: ms)).drop
    ⟨0, identityKey.nonzero.hash 4⟩

def markedTable (ms : List (BitVec 64)) : IdealIxht (BitVec 64) :=
  { twoBins identityKey with
    elsNum := 2 ^ 14
    bins := [⟨1, 0, 0, markedBin ms⟩,
      ⟨1, 1, 0, (largeBin identityKey).refill identityKey.nonzero.hash [3]⟩] }

/-- Fill bin `0`, delete its first element, and let the count reach `2 ^ 14` again. -/
def markCalls (ms : List (BitVec 64)) : List (Call (BitVec 64)) :=
  plainCalls ((4 :: ms).map fun x => (Action.insert, x)) ++
    [Call.plain .delete 4, Call.plain .insert 3]

/-- The INSERT of `2` splits the bin; the FIND is about an element that stays. -/
def forgetCalls (ms : List (BitVec 64)) : List (Call (BitVec 64)) :=
  markCalls ms ++ [Call.plain .insert 2] ++ [Call.plain .find 8]

variable {ms : List (BitVec 64)}

theorem forgetCalls_ok : ∀ c ∈ forgetCalls ms, c.Ok identityKey := by
  intro c hc
  simp only [forgetCalls, markCalls, List.mem_append, List.mem_cons, List.not_mem_nil, or_false] at hc
  rcases hc with ((hc | rfl | rfl) | rfl) | rfl
  · exact plainCalls_ok identityKey_lawful _ c hc
  all_goals exact Call.plain_ok identityKey_lawful _ _

theorem FourFold.length_markCalls (h : FourFold ms) : (markCalls ms).length = 2 ^ 14 + 2 := by
  rw [markCalls, List.length_append, plainCalls, List.length_map, List.length_map, h.length]
  rfl

/-- In the reference `8` is there. -/
theorem FourFold.reference (h : FourFold ms) :
    (refRun identityKey.eq [] (forgetCalls ms)).1.getLast? = some (true, some 8) := by
  have hok : ∀ c ∈ markCalls ms ++ [Call.plain .insert 2], c.Ok identityKey := fun c hc =>
    forgetCalls_ok c (List.mem_append_left _ hc)
  have hapart := refRun_apart identityKey_lawful hok (l := []) List.Pairwise.nil
  have hfilled : (8 : BitVec 64) ∈ (refRun identityKey.eq []
      (plainCalls ((4 :: ms).map fun x => (Action.insert, x)))).2 := by
    rw [refRun_inserts h.apart, List.nil_append]
    exact List.mem_cons_of_mem _ (List.mem_of_getElem? h.first)
  have hmark : ∀ l, (8 : BitVec 64) ∈ l →
      8 ∈ (refRun identityKey.eq l [Call.plain .delete 4, Call.plain .insert 3]).2 := fun l hl =>
    mem_refStep_of_ne (mem_refStep_of_ne hl (by decide)) (by decide)
  have hmem : (8 : BitVec 64) ∈
      (refRun identityKey.eq [] (markCalls ms ++ [Call.plain .insert 2])).2 := by
    rw [refRun_concat, markCalls, refRun_append]
    exact mem_refStep_of_ne (hmark _ hfilled) (by decide)
  have hfind := lookup_eq_some identityKey_lawful.equivalence hapart hmem (identityKey_lawful.refl 8)
  rw [forgetCalls, refRun_concat, List.getLast?_concat, refStep_find hfind]

theorem largeBin_bits : 0 < 8 * (largeBin identityKey).deleted.length := by
  rw [(largeBin_sized identityKey).bytes]
  decide

theorem FourFold.mark_run (h : FourFold ms)
    (h₀ : IxOk IXHT_MAX_BIN_SIZE_POWER identityKey (twoBins identityKey)) :
    (∃ rs, Returns (fun fuel => ixhtRun IXHT_MAX_BIN_SIZE_POWER (idealIxhtOps identityKey)
        identityKey fuel (twoBins identityKey) (markCalls ms)) (rs, markedTable ms)) ∧
      (markedBin ms).live = ms := by
  obtain ⟨rs, hfill⟩ := fill_largeBin IXHT_MAX_BIN_SIZE_POWER (a := twoBins identityKey)
    (i := 0) rfl (Nat.le_of_eq h.length) h.apart (by
      intro x hx
      obtain ⟨hhash, hmod⟩ := h.hash x hx
      rw [twoBins_binOf rfl rfl, hhash, show x.toNat % 2 = 0 by omega]) (by
      rw [h.length]
      decide)
  have hok := (idealRun_ok identityKey_lawful powerOk_source h₀ (plainCalls_ok identityKey_lawful _)
    (by rw [plainCalls, List.length_map, List.length_map, h.length]; decide) hfill).1
  rw [h.length, show (twoBins identityKey).elsNum + 2 ^ 14 = 2 ^ 14 from Nat.zero_add _] at hfill
  have hdelete := delete_first_step IXHT_MAX_BIN_SIZE_POWER identityKey_lawful (i := 0)
    (a := { twoBins identityKey with
      elsNum := 2 ^ 14
      bins := [⟨1, 0, 0, (largeBin identityKey).refill identityKey.nonzero.hash (4 :: ms)⟩,
        ⟨1, 1, 0, largeBin identityKey⟩] }) rfl largeBin_bits
    ((twoBins_binOf rfl rfl _).trans (by decide))
  simp only [show ixhtWidths.decr (2 ^ 14) = 2 ^ 14 - 1 by decide] at hdelete
  let a : IdealIxht (BitVec 64) := { twoBins identityKey with
    elsNum := 2 ^ 14 - 1
    bins := [⟨1, 0, 0, markedBin ms⟩, ⟨1, 1, 0, largeBin identityKey⟩] }
  have hsecond : a.bins[1]? = some ⟨1, 1, 0,
      (largeBin identityKey).refill identityKey.nonzero.hash []⟩ := by
    rw [largeBin_refill_nil]
    rfl
  have hinsert := insert_step IXHT_MAX_BIN_SIZE_POWER hsecond (largeBin_sized identityKey) (x := 3)
    (by decide) (by decide) (fun y hy => absurd hy List.not_mem_nil)
    ((twoBins_binOf rfl rfl _).trans (by decide))
  have hincr : ixhtWidths.incr a.elsNum = 2 ^ 14 :=
    show ixhtWidths.incr (2 ^ 14 - 1) = 2 ^ 14 by decide
  simp only [hincr] at hinsert
  refine ⟨⟨_, Returns.append hfill (Returns.cons ⟨0, fun fuel _ => hdelete fuel⟩
    (Returns.cons ⟨0, fun fuel _ => hinsert fuel⟩ (Returns.const ([], markedTable ms))))⟩, ?_⟩
  have hdense := (hok.bins _ (List.mem_of_getElem? (i := 0) rfl)).dense
  have hlive := (hdense.drop identityKey_lawful.nonzero
    (idealLookup_refill_cons identityKey_lawful _ ms 4)).2
  rw [largeBin_live] at hlive
  exact hlive.trans (remove_head identityKey_lawful.equivalence h.apart)

theorem markedBin_test (ms : List (BitVec 64)) (i : Nat) :
    (markedBin ms).deleted.test i = decide (i = 0) := by
  have hmark : (markedBin ms).deleted = (largeBin identityKey).deleted.mark 0 := rfl
  have hzeros : (largeBin identityKey).deleted.test i = false := Bitmap.test_zeros _ i
  rw [hmark, Bitmap.test_mark largeBin_bits, hzeros, Bool.or_false]

/-- The first pass of the split finds no element for the new bin, and the second one
    misses the first of the elements. -/
theorem FourFold.pass (h : FourFold ms) (hlive : (markedBin ms).live = ms) :
    ¬ Mixed identityKey 1 ms ∧
      (Ebin.pass identityKey ⟨1, 0, 0, markedBin ms⟩ 1).els = (markedBin ms).deleted.thin ms := by
  have hstay : ∀ x ∈ ms, goesNew identityKey 1 x = false := by
    intro x hx
    obtain ⟨hhash, hmod⟩ := h.hash x (List.mem_cons_of_mem _ hx)
    rw [goesNew, hhash, Nat.testBit_eq_decide_div_mod_eq, decide_eq_false_iff_not]
    omega
  have hpass := Ebin.pass_one_of_stay (e := ⟨1, 0, 0, markedBin ms⟩) (by rw [hlive]; exact hstay)
    (by rw [hlive]; exact List.mem_of_getElem? h.first)
  rwa [hlive] at hpass

/-- What the second pass finds: not `8`, and elements for both sides. -/
theorem FourFold.second_pass (h : FourFold ms) :
    8 ∉ (markedBin ms).deleted.thin ms ∧ Mixed identityKey 2 ((markedBin ms).deleted.thin ms) := by
  refine ⟨fun hmem => ?_, ⟨16, Bitmap.mem_thin.mpr ⟨2, ?_, h.third⟩, by decide⟩,
    12, Bitmap.mem_thin.mpr ⟨1, ?_, h.second⟩, by decide⟩
  · obtain ⟨i, htest, hi⟩ := Bitmap.mem_thin.mp hmem
    -- the element is there once, at the position that is marked
    have hnodup := (List.nodup_cons.mp (h.apart.nodup identityKey_lawful.equivalence)).2
    have hlt := (List.getElem?_eq_some_iff.mp hi).1
    have hzero : i = 0 := by
      by_contra hne
      exact List.nodup_iff_getElem?_ne_getElem?.mp hnodup 0 i (Nat.pos_of_ne_zero hne) hlt
        (h.first.trans hi.symm)
    rw [markedBin_test, hzero] at htest
    exact absurd htest (by decide)
  · rw [markedBin_test]
    decide
  · rw [markedBin_test]
    decide

/-- The ideal table does not find it. -/
theorem FourFold.forget_run (h : FourFold ms)
    (h₀ : IxOk IXHT_MAX_BIN_SIZE_POWER identityKey (twoBins identityKey)) :
    ∃ rs r a, Returns (fun fuel => ixhtRun IXHT_MAX_BIN_SIZE_POWER (idealIxhtOps identityKey)
        identityKey fuel (twoBins identityKey) (forgetCalls ms)) (rs ++ [r], a) ∧
      r.seen = (false, none) := by
  obtain ⟨⟨rs, hrun⟩, hlive⟩ := h.mark_run h₀
  obtain ⟨hnot, hpass⟩ := h.pass hlive
  obtain ⟨hgone, hmix⟩ := h.second_pass
  have hok := (idealRun_ok identityKey_lawful powerOk_source h₀
    (fun c hc => forgetCalls_ok c (List.mem_append_left _ (List.mem_append_left _ hc)))
    (by rw [h.length_markCalls]; decide) hrun).1
  have hsize : (markedBin ms).indexesSize ixhtWidths = 2 ^ 15 := by
    have hmask : (markedBin ms).groupsMask = (largeBin identityKey).groupsMask := rfl
    rw [Hbin.indexesSize, hmask]
    decide
  have hbound : (markedBin ms).elsBound = 2 ^ 14 := h.length
  obtain ⟨k, p, i, f, o, bin, hdone, hokp, hf, hstepped, hinsert⟩ := split_step identityKey_lawful
    powerOk_source hok (show 2 ^ 14 < 2 ^ 31 by decide) (Call.plain_ok identityKey_lawful .insert 2) rfl
    ((twoBins_binOf rfl rfl _).trans (show some _ = some 0 by decide)) (e := ⟨1, 0, 0, markedBin ms⟩) rfl
    (by rw [ixhtFull, decide_eq_true_eq, Hbin.halfIndexes, hsize, hbound]; decide)
    (by
      rw [ixhtSplits, ixhtGrow, Hbin.halfIndexes, hsize, show (markedTable ms).elsNum = 2 ^ 14 from rfl]
      decide)
    ⟨1, show 1 + 1 ≤ 30 by decide, hpass ▸ hmix⟩
  -- the split is not done before the second pass, so that it has lost the element
  have hk : 1 ≤ k := by
    by_contra hk
    obtain rfl : k = 0 := by omega
    have hfirst : Mixed identityKey 1 (markedBin ms).live := hdone.mixed
    exact hnot (hlive ▸ hfirst)
  have hlost : 8 ∉ p.contents := by
    intro hmem
    rcases hdone.mem_contents hok rfl hmem with hmem | ⟨j, g, hj, hg, hmem⟩
    · exact hgone (hpass ▸ (Ebin.pass_sublist_of_le _ _ hk).subset hmem)
    · -- the other bin holds `3` alone
      obtain rfl : j = 1 := by
        have hlt : j < 2 := (List.getElem?_eq_some_iff.mp hg).1
        omega
      obtain rfl := Option.some.inj hg
      rw [largeBin_live] at hmem
      exact absurd hmem (by decide)
  have hok' := hokp.stepped hf hstepped
  have hmissing : ∀ x ∈ Ixht.contents
      { p with elsNum := o.elsNum, bins := p.bins.set i { f with bin := bin } },
      identityKey.eq x 8 = false := by
    intro x hx
    by_contra hne
    have hx8 : x = 8 := by simpa [identityKey] using hne
    rw [hx8] at hx
    rcases mem_contents_stepped (Call.plain_ok identityKey_lawful .insert 2) hf hstepped hx with hx | hx
    · exact hlost hx
    · exact absurd hx (by decide)
  obtain ⟨j, g, hj, hg⟩ := hok'.shape.binOf_some (identityKey.nonzero.hash 8)
  have hnum : o.elsNum < 2 ^ 31 := by
    have hcount := hstepped.count
    have hlive' := congrArg List.length hstepped.live
    have hle : (refStep identityKey.nonzero.eq f.bin.live (Call.plain .insert 2)).2.length ≤
        f.bin.live.length + 1 := refStep_length_le _ _
    have hp : p.elsNum = 2 ^ 14 := hdone.elsNum
    omega
  obtain ⟨o', bin', hstepped', hfind, -⟩ := quiet_step identityKey_lawful powerOk_source hok' hnum
    (Call.plain_ok identityKey_lawful .find 8) hj hg (fun hins => by cases hins)
  refine ⟨_, _, _, Returns.concat (Returns.concat hrun hinsert) hfind, ?_⟩
  have hnone : lookup identityKey.eq g.bin.live 8 = none := lookup_eq_none fun x hx =>
    hmissing x (mem_contents.mpr ⟨g, List.mem_of_getElem? hg, hx⟩)
  exact hstepped'.seen.trans (refStep_find_none hnone)

end Forget

/-- Bin `0` is filled with multiples of four, and the first of them is deleted.  The INSERT
    of `2` splits the bin: the first pass finds no element with the bit and compacts the
    bin, the second one skips its first position, so that `8` is lost and the FIND returns
    false. -/
theorem ixht_forgets :
    ∃ t₀ calls rs t,
      Returns (fun fuel => ixhtCreate IXHT_MAX_BIN_SIZE_POWER (ixhtOps identityKey .swar) fuel
        (2 ^ 15)) t₀ ∧
      (∀ c ∈ calls, c.Ok identityKey) ∧
      (∀ pre, pre <+: calls → (refRun identityKey.eq [] pre).2.length < 2 ^ 31) ∧
      Returns (fun fuel => ixhtRun IXHT_MAX_BIN_SIZE_POWER (ixhtOps identityKey .swar) identityKey
        fuel t₀ calls) (rs, t) ∧
      (rs.map Reply.seen).getLast? = some (false, none) ∧
      (refRun identityKey.eq [] calls).1.getLast? = some (true, some 8) := by
  obtain ⟨ms, h⟩ : ∃ ms, FourFold ms := ⟨_, progression_fourFold⟩
  obtain ⟨t₀, ht₀, h₀⟩ := twoBins_follows identityKey_lawful .swar
  obtain ⟨rs, r, a, hrun, hseen⟩ := h.forget_run h₀.ok
  have hlen : (forgetCalls ms).length = 2 ^ 14 + 4 := by
    rw [forgetCalls, List.length_append, List.length_append, h.length_markCalls]
    rfl
  obtain ⟨t, ht, -⟩ := h₀.run_of_ideal (ixhtOps_lawful identityKey_lawful .swar)
    identityKey_lawful powerOk_source (by decide) forgetCalls_ok
    (show 0 + (forgetCalls ms).length ≤ 2 ^ 31 by omega) hrun
  refine ⟨t₀, forgetCalls ms, rs ++ [r], t, ht₀, forgetCalls_ok, fun pre hpre => ?_, ht, ?_, h.reference⟩
  · have hle : (refRun identityKey.eq [] pre).2.length ≤ _ := refRun_initial_length_le hpre
    omega
  · rw [List.map_append, List.map_cons, List.map_nil, List.getLast?_concat, hseen]

end IndexedHash
