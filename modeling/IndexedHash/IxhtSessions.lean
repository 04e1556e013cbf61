import Mathlib.Tactic.Common
import IndexedHash.IxhtSimulation
import IndexedHash.Representation

/-!
# Sessions of `ixhtab.h`

A session is a sequence of calls on a new table in which every call returns.  Through
the ideal table every state of a session satisfies the representation invariant bin by
bin (`ixht_bin_invariant`), and `ixhtab.h` and `ixhtab-v0.h` go through it together
(`ixht_v0_lock_step`).  Neither result says that the directory leads to the right bin.
-/

namespace IndexedHash

open Loop KeyedList

variable {El G : Type} {key : Key El} {maxPower : Nat}

/-- A session on the table `t₀`: the caller keeps its part, and `els_num` stays small. -/
structure IxhtSession (maxPower : Nat) (ops : BinOps El G) (key : Key El) (t₀ : Ixht El G)
    (calls : List (Call El)) : Prop where
  calls_ok : ∀ c ∈ calls, c.Ok key
  bound : ∀ pre, pre <+: calls → ∀ rs t,
    Returns (fun fuel => ixhtRun maxPower ops key fuel t₀ pre) (rs, t) → t.elsNum < 2 ^ 31

/-! ## Along the ideal table -/

section Follow

variable {limit : Nat} {ops : BinOps El G} {Slots : G → Nat → Nat → List Entry → Prop}
  {t t₀ : Ixht El G} {a a₀ : IdealIxht El} {calls : List (Call El)}

structure Follows (maxPower : Nat) (key : Key El) (Slots : G → Nat → Nat → List Entry → Prop)
    (t : Ixht El G) (a : IdealIxht El) : Prop where
  sim : IxSim Slots t a
  ok : IxOk maxPower key a

theorem Follows.step (hlaw : ops.Lawful ixhtWidths key.nonzero limit Slots) (hkey : key.Lawful)
    (hpower : PowerOk maxPower) (hlimit : 2 ^ maxPower ≤ limit)
    (h : Follows maxPower key Slots t a) (hnum : a.elsNum < 2 ^ 31) {c : Call El} (hc : c.Ok key)
    {fuel : Nat} (hfuel : 2 ^ maxPower ≤ fuel) :
    Option.Rel (fun s s' => s.1 = s'.1 ∧ Follows maxPower key Slots s.2 s'.2)
      (ixhtStep maxPower ops key fuel t c) (ixhtStep maxPower (idealIxhtOps key) key fuel a c) := by
  have hrel := Rel.and_right (P := fun s' => IxOk maxPower key s'.2)
    (ixhtStep_sim hlaw hkey hpower hlimit h.sim h.ok hnum c hfuel)
    fun s' hs' => h.ok.step hkey hpower hnum hc hs'
  exact Rel.imp hrel fun s s' h => ⟨h.1.1, h.1.2, h.2⟩

/-- Creation returns, on either index, for every `min_size` that the size can reach. -/
theorem ixhtCreate_follows (hlaw : ops.Lawful ixhtWidths key.nonzero limit Slots)
    (hkey : key.Lawful) (hpower : PowerOk maxPower) {minSize : Nat} (hmin : minSize ≤ 2 ^ 31) :
    ∃ t₀ a₀, Returns (fun fuel => ixhtCreate maxPower ops fuel minSize) t₀ ∧
      Returns (fun fuel => ixhtCreate maxPower (idealIxhtOps key) fuel minSize) a₀ ∧
      Follows maxPower key Slots t₀ a₀ ∧ a₀.elsNum = 0 ∧ a₀.contents = [] := by
  have hge := hpower.ge
  obtain ⟨a₀, ha₀⟩ := ixhtCreate_returns (show 1 ≤ maxPower by omega) (idealIxhtOps key) hmin
  obtain ⟨t₀, ht₀, hsim⟩ := Returns.of_rel (ixhtCreate_mono maxPower ops minSize)
    (fun fuel (_ : fuel ≥ 0) => ixhtCreate_sim hlaw hpower fuel minSize) ha₀
  obtain ⟨n, hn⟩ := ha₀.exists_some
  obtain ⟨hok, hempty⟩ := ixhtCreate_ok hkey hpower hn
  obtain ⟨size, -, hrest⟩ := Option.bind_eq_some_iff.mp hn
  obtain ⟨p, -, rfl⟩ := Option.map_eq_some_iff.mp hrest
  exact ⟨t₀, _, ht₀, ha₀, ⟨hsim, hok⟩, rfl, hempty⟩

/-- A session that returns is a session of the ideal table, with the same replies. -/
theorem IxhtSession.follows (hlaw : ops.Lawful ixhtWidths key.nonzero limit Slots)
    (hkey : key.Lawful) (hpower : PowerOk maxPower) (hlimit : 2 ^ maxPower ≤ limit)
    (h₀ : Follows maxPower key Slots t₀ a₀) (h : IxhtSession maxPower ops key t₀ calls)
    {rs : List (Reply (Nat × Nat) El)}
    (hrun : Returns (fun fuel => ixhtRun maxPower ops key fuel t₀ calls) (rs, t)) :
    ∃ a, Returns (fun fuel => ixhtRun maxPower (idealIxhtOps key) key fuel a₀ calls) (rs, a) ∧
      Follows maxPower key Slots t a := by
  refine Returns.run_rel (ixhtStep_mono hlaw.mono)
    (ixhtStep_mono (idealOps_lawful ixhtWidths key.nonzero 0).mono) _ h₀ ?_ hrun
  intro pre c hpre rs t a ht _ hta
  have hsub := (List.prefix_append pre [c]).trans hpre
  have hnum : a.elsNum < 2 ^ 31 := hta.sim.elsNum ▸ h.bound pre hsub rs t ht
  have hc := h.calls_ok c (hpre.subset (by simp))
  exact ⟨2 ^ maxPower, fun fuel hfuel => hta.step hlaw hkey hpower hlimit hnum hc hfuel⟩

/-- The invariant over a whole run of the ideal table, which counts at most one more
    element with every call. -/
theorem idealRun_ok (hkey : key.Lawful) (hpower : PowerOk maxPower) (h₀ : IxOk maxPower key a₀)
    (hcalls : ∀ c ∈ calls, c.Ok key) (hlen : a₀.elsNum + calls.length ≤ 2 ^ 31)
    {rs : List (Reply (Nat × Nat) El)}
    (hrun : Returns (fun fuel => ixhtRun maxPower (idealIxhtOps key) key fuel a₀ calls) (rs, a)) :
    IxOk maxPower key a ∧ a.elsNum ≤ a₀.elsNum + calls.length := by
  induction calls using List.reverseRecOn generalizing rs a with
  | nil =>
    obtain ⟨-, rfl⟩ := Prod.mk.inj (hrun.unique (Returns.const ([], a₀)))
    exact ⟨h₀, Nat.le_refl _⟩
  | append_singleton cs c ih =>
    rw [List.length_append, List.length_singleton] at hlen ⊢
    obtain ⟨rs', r, s, hcs, hlast, rfl⟩ :=
      Returns.of_concat (ixhtStep_mono (idealOps_lawful ixhtWidths key.nonzero 0).mono) hrun
    obtain ⟨hs, hle⟩ := ih (fun d hd => hcalls d (List.mem_append_left _ hd)) (by omega) hcs
    have hc := hcalls c (List.mem_append_right _ (List.mem_singleton_self c))
    obtain ⟨fuel, hstep⟩ := hlast.exists_some
    have hnum : s.elsNum < 2 ^ 31 := by omega
    have hmore := hs.step_elsNum_le hkey hpower hnum hc hstep
    exact ⟨hs.step hkey hpower hnum hc hstep, by omega⟩

/-- A short sequence of calls is a session. -/
theorem IxhtSession.of_length (hlaw : ops.Lawful ixhtWidths key.nonzero limit Slots)
    (hkey : key.Lawful) (hpower : PowerOk maxPower) (hlimit : 2 ^ maxPower ≤ limit)
    (h₀ : Follows maxPower key Slots t₀ a₀) (hcalls : ∀ c ∈ calls, c.Ok key)
    (hlen : a₀.elsNum + calls.length < 2 ^ 31) : IxhtSession maxPower ops key t₀ calls := by
  refine ⟨hcalls, fun pre hpre rs t hrun => ?_⟩
  have hok : ∀ c ∈ pre, c.Ok key := fun c hc => hcalls c (hpre.subset hc)
  have hle := hpre.length_le
  obtain ⟨a, ha, hta⟩ : ∃ a, Returns (fun fuel => ixhtRun maxPower (idealIxhtOps key) key fuel a₀ pre)
      (rs, a) ∧ Follows maxPower key Slots t a := by
    refine Returns.run_rel (ixhtStep_mono hlaw.mono)
      (ixhtStep_mono (idealOps_lawful ixhtWidths key.nonzero 0).mono) _ h₀ ?_ hrun
    intro p c hp rs t a _ ha hta
    have hsub := (List.prefix_append p [c]).trans hp
    have hshort := hsub.length_le
    have hnum := (idealRun_ok hkey hpower h₀.ok (fun d hd => hok d (hsub.subset hd)) (by omega) ha).2
    have hc := hok c (hp.subset (by simp))
    exact ⟨2 ^ maxPower, fun fuel hfuel =>
      hta.step hlaw hkey hpower hlimit (by omega) hc hfuel⟩
  have hnum := (idealRun_ok hkey hpower h₀.ok hok (by omega) ha).2
  rw [hta.sim.elsNum]
  omega

/-- A run of the ideal table is a run of the real one. -/
theorem Follows.run_of_ideal (hlaw : ops.Lawful ixhtWidths key.nonzero limit Slots)
    (hkey : key.Lawful) (hpower : PowerOk maxPower) (hlimit : 2 ^ maxPower ≤ limit)
    (h₀ : Follows maxPower key Slots t₀ a₀) (hcalls : ∀ c ∈ calls, c.Ok key)
    (hlen : a₀.elsNum + calls.length ≤ 2 ^ 31) {rs : List (Reply (Nat × Nat) El)}
    (hrun : Returns (fun fuel => ixhtRun maxPower (idealIxhtOps key) key fuel a₀ calls) (rs, a)) :
    ∃ t, Returns (fun fuel => ixhtRun maxPower ops key fuel t₀ calls) (rs, t) ∧
      Follows maxPower key Slots t a := by
  refine Returns.run_rel (ixhtStep_mono (idealOps_lawful ixhtWidths key.nonzero 0).mono)
    (ixhtStep_mono hlaw.mono) (fun a t => Follows maxPower key Slots t a) h₀ ?_ hrun
  intro pre c hpre rs a t ha _ hta
  have hsub := (List.prefix_append pre [c]).trans hpre
  have hshort := hpre.length_le
  rw [List.length_append, List.length_singleton] at hshort
  have hnum := (idealRun_ok hkey hpower h₀.ok (fun d hd => hcalls d (hsub.subset hd)) (by omega)
    ha).2
  have hc := hcalls c (hpre.subset (by simp))
  refine ⟨2 ^ maxPower, fun fuel hfuel => ?_⟩
  exact Rel.imp (Rel.swap (hta.step hlaw hkey hpower hlimit (by omega) hc hfuel)) fun s s' hs =>
    ⟨hs.1.symm, hs.2⟩

end Follow

/-! ## The bins -/

theorem ixhtOps_lawful (hkey : key.Lawful) (target : Target) :
    (ixhtOps key target).Lawful ixhtWidths key.nonzero (2 ^ 16) SlotsOk :=
  groupOps_lawful (by decide) hkey.nonzero target.lawful

theorem v0IxhtOps_lawful (hkey : key.Lawful) (target : Target) :
    (v0IxhtOps key target).Lawful ixhtWidths key.nonzero (2 ^ 16 - 1) (V0SlotsOk (2 ^ 16 - 1)) :=
  v0Ops_lawful (by decide) hkey.nonzero target.v0Ixht_lawful

theorem PowerOk.two_pow_le (hpower : PowerOk maxPower) : 2 ^ maxPower ≤ 2 ^ 15 :=
  Nat.pow_le_pow_right (by decide) hpower.le

/-- The invariant of the bins of `ixhtab.h`, whatever the directory says. -/
structure IxhtRep (maxPower : Nat) (key : Key El) (t : Ixht El (List Group)) : Prop where
  bin : ∀ e ∈ t.bins, BinRep ixhtWidths key.nonzero e.bin
  start : ∀ e ∈ t.bins, e.elsStart = 0
  capacity : ∀ e ∈ t.bins, ∃ j, 3 ≤ j ∧ j < maxPower ∧ e.bin.elsSize = 2 ^ j
  count : t.contents.length ≤ t.elsNum

/-- `ixht_do_1` on a bin, and the caller's write, as a step of the reference on the
    live elements of the bin. -/
def Do1Exact (key : Key El) (target : Target) (n : Nat) (b : Hbin El (List Group)) (c : Call El) :
    Prop :=
  ∃ o b', Returns (fun fuel => (ixhtOps key target).do1 fuel n b (key.nonzero.hash c.el) c.el
      c.action) o ∧ o.written c = some b' ∧
    (o.found, o.value) = (refStep key.eq b.live c).1 ∧ b'.live = (refStep key.eq b.live c).2 ∧
    o.elsNum + b.live.length = n + b'.live.length

section Rep

variable {t : Ixht El (List Group)} {a : IdealIxht El}

theorem IxSim.contents {Slots : G → Nat → Nat → List Entry → Prop} {t : Ixht El G}
    (h : IxSim Slots t a) : t.contents = a.contents := by
  have hlive : ∀ {l : List (Ebin El G)} {l' : List (Ebin El (List Entry))},
      List.Forall₂ (EbinSim Slots) l l' →
      (l.flatMap fun e => e.bin.live) = l'.flatMap fun e => e.bin.live := by
    intro l l' hll
    induction hll with
    | nil => rfl
    | cons hee _ ih => rw [List.flatMap_cons, List.flatMap_cons, ih, hee.bin.live]
  exact hlive h.bins

theorem Follows.rep (hpower : PowerOk maxPower) (h : Follows maxPower key SlotsOk t a) :
    IxhtRep maxPower key t := by
  have hge := hpower.ge
  -- each bin with the ideal one behind it
  have hbin : ∀ e ∈ t.bins, ∃ e', EbinSim SlotsOk e e' ∧ EbinOk key (maxPower - 3) e' := by
    intro e he
    obtain ⟨i, hi⟩ := List.mem_iff_getElem?.mp he
    obtain ⟨e', he', hee⟩ := Forall₂.exists_of_left h.sim.bins hi
    exact ⟨e', hee, h.ok.bins e' (List.mem_of_getElem? he')⟩
  refine ⟨?_, ?_, ?_, ?_⟩
  · intro e he
    obtain ⟨e', hee, hok⟩ := hbin e he
    exact BinRep.of_sim hee.bin hok.dense
  · intro e he
    obtain ⟨e', hee, hok⟩ := hbin e he
    rw [hee.elsStart, hok.start]
  · intro e he
    obtain ⟨e', hee, hok⟩ := hbin e he
    obtain ⟨j, hj, hle, hn⟩ := hok.size
    refine ⟨j + 2, by omega, by omega, ?_⟩
    rw [Hbin.elsSize, ← hee.bin.numGroups, hn, Nat.pow_add]
    omega
  · rw [h.sim.contents, h.sim.elsNum]
    exact h.ok.count

/-- Any bin that satisfies the invariant may be given to `ixht_do_1`. -/
theorem IxhtRep.do1_exact (hkey : key.Lawful) (target : Target) (hpower : PowerOk maxPower)
    (h : IxhtRep maxPower key t) (hnum : t.elsNum < 2 ^ 31) {e : Ebin El (List Group)}
    (he : e ∈ t.bins) {c : Call El} (hc : c.Ok key)
    (hroom : c.action = .insert → e.bin.elsBound < e.bin.elsSize) :
    Do1Exact key target t.elsNum e.bin c := by
  have hrep := h.bin e he
  have hsim := hrep.sim
  obtain ⟨i, hi⟩ := List.mem_iff_getElem?.mp he
  have hlive := Nat.le_trans (length_live_le_contents hi) h.count
  obtain ⟨j, -, hj, hsize⟩ := h.capacity e he
  have hcap : e.bin.elsSize ≤ 2 ^ 15 := by
    rw [hsize]
    exact Nat.pow_le_pow_right (by decide) (by have := hpower.le; omega)
  have hbound := hrep.bound
  have hgroups : e.bin.elsSize = 4 * (e.bin.groupsMask + 1) := rfl
  obtain ⟨o', b', hdo', hstep⟩ := hrep.denseOk.step hkey.nonzero (c := c) ⟨hc.fresh, hc.update⟩
    (fun haction _ => hroom haction) (n := t.elsNum) (by rw [hsim.live]; exact hlive) (by show t.elsNum + 1 < 2 ^ 32; omega)
  have hlaw := ixhtOps_lawful hkey target
  obtain ⟨o, ho, hoo⟩ := Returns.of_rel (hlaw.mono t.elsNum e.bin (key.nonzero.hash c.el) c.el
      c.action)
    (fun fuel (hfuel : fuel ≥ 2 ^ 15) => hlaw.do1 hsim hrep.denseOk.index (by omega)
      (by rw [Hbin.numGroups]; omega) c.el c.action fuel (by omega) t.elsNum)
    ⟨0, fun _ _ => hdo'⟩
  have hwritten := hoo.written c
  rw [hstep.written] at hwritten
  generalize hw : o.written c = x at hwritten
  cases hwritten with
  | @some b _ hb =>
    have hsame : b.live = b'.live := by
      rw [hb.same]
      rfl
    refine ⟨o, b, ho, hw, ?_, ?_, ?_⟩
    · rw [hoo.found, hoo.value, hstep.seen, hsim.live]
      rfl
    · rw [hsame, hstep.live, hsim.live]
      rfl
    · rw [hoo.elsNum, hsame, ← hsim.live]
      exact hstep.count

/-- `ixht_perform` up to its last line: the invariant holds, and an INSERT has room. -/
theorem Follows.prepared {limit : Nat} {ops : BinOps El G}
    {Slots : G → Nat → Nat → List Entry → Prop}
    (hlaw : ops.Lawful ixhtWidths key.nonzero limit Slots) (hkey : key.Lawful)
    (hpower : PowerOk maxPower) (hlimit : 2 ^ maxPower ≤ limit) {t p : Ixht El G}
    (h : Follows maxPower key Slots t a) (hnum : a.elsNum < 2 ^ 31) {hash : BitVec 64}
    {action : Action} {i : Nat}
    (hp : Returns (fun fuel => ixhtPrepare maxPower ops key fuel t hash action) (p, i)) :
    ∃ p', Follows maxPower key Slots p p' ∧ p'.elsNum = a.elsNum ∧
      ∃ e, p.bins[i]? = some e ∧ (action = .insert → e.bin.elsBound < e.bin.elsSize) := by
  obtain ⟨⟨p', i'⟩, hp', hsim, heq⟩ := Returns.of_rel_left
    (ixhtPrepare_mono (idealOps_lawful ixhtWidths key.nonzero 0).mono a hash action)
    (fun fuel hfuel => prepare_sim hlaw hkey hpower hlimit h.sim h.ok hash action hfuel) hp
  have heq : i = i' := heq
  subst heq
  obtain ⟨fuel, hprep⟩ := hp'.exists_some
  obtain ⟨hok, hnum', e', he', hroom⟩ := (prepare_cases hkey hpower h.ok hnum hprep).ok h.ok
  obtain ⟨e, he, hee⟩ := Forall₂.exists_of_right hsim.bins he'
  refine ⟨p', ⟨hsim, hok⟩, hnum', e, he, fun haction => ?_⟩
  rw [Hbin.elsSize, ← hee.bin.elsBound, ← hee.bin.numGroups]
  exact hroom haction

end Rep

/-- The invariant of the bins holds in every state that a session can reach.  So
    `ixht_perform` comes to its last line with the invariant and, for an INSERT, with
    room in the bin it has chosen, and there `ixht_do_1` is exact on every bin. -/
theorem ixht_bin_invariant (hkey : key.Lawful) (hpower : PowerOk maxPower) (target : Target)
    {minSize : Nat} (hmin : minSize ≤ 2 ^ 31) :
    ∃ t₀, Returns (fun fuel => ixhtCreate maxPower (ixhtOps key target) fuel minSize) t₀ ∧
      ∀ calls, IxhtSession maxPower (ixhtOps key target) key t₀ calls → ∀ rs t,
        Returns (fun fuel => ixhtRun maxPower (ixhtOps key target) key fuel t₀ calls) (rs, t) →
        IxhtRep maxPower key t ∧
        ∀ c, c.Ok key → ∀ p i, Returns (fun fuel => ixhtPrepare maxPower (ixhtOps key target) key fuel
            t (key.nonzero.hash c.el) c.action) (p, i) →
          IxhtRep maxPower key p ∧
          (∃ e, p.bins[i]? = some e ∧ (c.action = .insert → e.bin.elsBound < e.bin.elsSize)) ∧
          ∀ e ∈ p.bins, (c.action = .insert → e.bin.elsBound < e.bin.elsSize) →
            Do1Exact key target p.elsNum e.bin c := by
  have hlaw := ixhtOps_lawful hkey target
  have hlimit : 2 ^ maxPower ≤ 2 ^ 16 := Nat.le_trans hpower.two_pow_le (by decide)
  obtain ⟨t₀, a₀, ht₀, -, h₀, -⟩ := ixhtCreate_follows hlaw hkey hpower hmin
  refine ⟨t₀, ht₀, fun calls h rs t hrun => ?_⟩
  obtain ⟨a, -, hta⟩ := h.follows hlaw hkey hpower hlimit h₀ hrun
  have hnum : a.elsNum < 2 ^ 31 := hta.sim.elsNum ▸ h.bound calls (List.prefix_refl _) rs t hrun
  refine ⟨hta.rep hpower, fun c hc p i hp => ?_⟩
  obtain ⟨p', hpp', hnum', e, he, hroom⟩ := hta.prepared hlaw hkey hpower hlimit hnum hp
  refine ⟨hpp'.rep hpower, ⟨e, he, hroom⟩, fun f hf hfroom => ?_⟩
  exact (hpp'.rep hpower).do1_exact hkey target hpower (by rw [hpp'.sim.elsNum]; omega) hf hc hfroom

theorem powerOk_source : PowerOk IXHT_MAX_BIN_SIZE_POWER := ⟨by decide, by decide⟩

/-- The table `ixht_create (t, 4)` makes. -/
def sampleIxht (ops : BinOps (BitVec 64) G) : Ixht (BitVec 64) G := ixhtOfParams ops ⟨1, 0, 4⟩

theorem sampleIxht_created (hpower : PowerOk maxPower) (ops : BinOps (BitVec 64) G) :
    Returns (fun fuel => ixhtCreate maxPower ops fuel 4) (sampleIxht ops) := by
  have hge := hpower.ge
  obtain ⟨t, ht⟩ := ixhtCreate_returns (show 1 ≤ maxPower by omega) ops (show 4 ≤ 2 ^ 31 by decide)
  obtain ⟨n, hn⟩ := ht.exists_some
  obtain ⟨a, j, ha, rfl, -, henough, hleast, rfl⟩ := ixhtCreate_params hpower hn
  obtain rfl : a = 2 := by
    have hlow : 1 < a := (Nat.pow_lt_pow_iff_right (by decide)).mp (show 2 ^ 1 < 2 ^ a by omega)
    have hhigh : a < 3 := (Nat.pow_lt_pow_iff_right (by decide)).mp (show 2 ^ a < 2 ^ 3 by omega)
    omega
  rwa [show 2 + 1 - maxPower = 0 by omega] at ht

theorem sampleIxht_follows (hpower : PowerOk maxPower) : Follows maxPower identityKey SlotsOk
    (sampleIxht (ixhtOps identityKey .swar)) (sampleIxht (idealIxhtOps identityKey)) := by
  obtain ⟨t₀, a₀, ht₀, ha₀, h₀, -⟩ := ixhtCreate_follows (ixhtOps_lawful identityKey_lawful .swar)
    identityKey_lawful hpower (show 4 ≤ 2 ^ 31 by decide)
  rwa [ht₀.unique (sampleIxht_created hpower _), ha₀.unique (sampleIxht_created hpower _)] at h₀

theorem powerOk_four : PowerOk 4 := ⟨by decide, by decide⟩

/-- The session that initial calls of `sampleCalls` are on that table, and what it leads to.
    With bins of at most eight elements, `9` rebuilds the bin in place and `11` splits it. -/
theorem sampleIxht_session {pre : List (Call (BitVec 64))} (hpre : pre <+: sampleCalls) :
    IxhtSession 4 (ixhtOps identityKey .swar) identityKey (sampleIxht (ixhtOps identityKey .swar)) pre ∧
      ∃ rs t, Returns (fun fuel => ixhtRun 4 (ixhtOps identityKey .swar) identityKey fuel
        (sampleIxht (ixhtOps identityKey .swar)) pre) (rs, t) := by
  have hlaw := ixhtOps_lawful identityKey_lawful .swar
  have hruns : sampleCalls.inits.all (fun pre => (ixhtRun 4 (ixhtOps identityKey .swar) identityKey 16
      (sampleIxht (ixhtOps identityKey .swar)) pre).isSome) = true := by decide +kernel
  obtain ⟨⟨rs, t⟩, hrun⟩ := Option.isSome_iff_exists.mp
    (List.all_eq_true.mp hruns pre ((List.mem_inits pre sampleCalls).mpr hpre))
  refine ⟨?_, rs, t, (runCalls_mono (ixhtStep_mono hlaw.mono) _ pre).returns hrun⟩
  refine IxhtSession.of_length hlaw identityKey_lawful powerOk_four (by decide)
    (sampleIxht_follows powerOk_four) (fun c hc => sampleCalls_ok c (hpre.subset hc)) ?_
  exact Nat.lt_of_le_of_lt (Nat.add_le_add_left hpre.length_le _) (by decide)

/-- The INSERT of `11` after the other calls, for which the bin is split. -/
theorem ixht_bin_invariant_sample :
    ∃ rs t p i e, Returns (fun fuel => ixhtRun 4 (ixhtOps identityKey .swar) identityKey fuel
        (sampleIxht (ixhtOps identityKey .swar)) (sampleCalls.take 14)) (rs, t) ∧
      IxhtRep 4 identityKey t ∧ t.bins.length = 1 ∧
      Returns (fun fuel => ixhtPrepare 4 (ixhtOps identityKey .swar) identityKey fuel t 11#64 .insert)
        (p, i) ∧
      IxhtRep 4 identityKey p ∧ p.bins.length = 2 ∧ p.bins[i]? = some e ∧
      Do1Exact identityKey .swar p.elsNum e.bin (Call.plain .insert 11) := by
  obtain ⟨t₀, ht₀, hrep⟩ := ixht_bin_invariant identityKey_lawful powerOk_four .swar
    (show 4 ≤ 2 ^ 31 by decide)
  rw [ht₀.unique (sampleIxht_created powerOk_four _)] at hrep
  obtain ⟨hsession, rs, t, hrun⟩ := sampleIxht_session (List.take_prefix 14 sampleCalls)
  have hlaw := ixhtOps_lawful identityKey_lawful .swar
  have hsplit : ((ixhtRun 4 (ixhtOps identityKey .swar) identityKey 16
      (sampleIxht (ixhtOps identityKey .swar)) (sampleCalls.take 14)).bind fun s =>
        (ixhtPrepare 4 (ixhtOps identityKey .swar) identityKey 16 s.2 11#64 .insert).map fun p =>
          (s.2.bins.length, p.1.bins.length)) = some (1, 2) := by decide +kernel
  obtain ⟨⟨rs', t'⟩, hrun', hprepare⟩ := Option.bind_eq_some_iff.mp hsplit
  obtain ⟨⟨p, i⟩, hp, hlengths⟩ := Option.map_eq_some_iff.mp hprepare
  obtain ⟨hone, htwo⟩ := Prod.mk.inj hlengths
  obtain ⟨rfl, rfl⟩ := Prod.mk.inj
    (hrun.unique ((runCalls_mono (ixhtStep_mono hlaw.mono) _ _).returns hrun'))
  have hp : Returns (fun fuel => ixhtPrepare 4 (ixhtOps identityKey .swar) identityKey fuel t 11#64
      .insert) (p, i) := (ixhtPrepare_mono hlaw.mono t 11#64 .insert).returns hp
  obtain ⟨ht, hcall⟩ := hrep _ hsession rs t hrun
  obtain ⟨hrep', ⟨e, he, hroom⟩, hexact⟩ :=
    hcall (Call.plain .insert 11) (Call.plain_ok identityKey_lawful _ _) p i hp
  exact ⟨rs, t, p, i, e, hrun, ht, hone, hp, hrep', htwo, he,
    hexact e (List.mem_of_getElem? he) hroom⟩

/-! ## The two headers -/

structure SameEbin {G' : Type} (b : Ebin El G) (b' : Ebin El G') : Prop where
  depth : b.depth = b'.depth
  mask : b.mask = b'.mask
  elsStart : b.elsStart = b'.elsStart
  elsBound : b.bin.elsBound = b'.bin.elsBound
  groupsMask : b.bin.groupsMask = b'.bin.groupsMask
  deleted : b.bin.deleted = b'.bin.deleted
  els : b.bin.els = b'.bin.els

structure SameIxht {G' : Type} (t : Ixht El G) (t' : Ixht El G') : Prop where
  elsNum : t.elsNum = t'.elsNum
  maxDepth : t.maxDepth = t'.maxDepth
  binMask : t.binMask = t'.binMask
  dir : t.dir = t'.dir
  bins : List.Forall₂ SameEbin t.bins t'.bins

section Headers

variable {G' : Type} {Slots : G → Nat → Nat → List Entry → Prop}
  {Slots' : G' → Nat → Nat → List Entry → Prop}

theorem EbinSim.same {b : Ebin El G} {b' : Ebin El G'} {e : Ebin El (List Entry)}
    (h : EbinSim Slots b e) (h' : EbinSim Slots' b' e) : SameEbin b b' where
  depth := h.depth.trans h'.depth.symm
  mask := h.mask.trans h'.mask.symm
  elsStart := h.elsStart.trans h'.elsStart.symm
  elsBound := h.bin.elsBound.symm.trans h'.bin.elsBound
  groupsMask := h.bin.groupsMask.symm.trans h'.bin.groupsMask
  deleted := h.bin.deleted.symm.trans h'.bin.deleted
  els := h.bin.els.symm.trans h'.bin.els

theorem IxSim.same {t : Ixht El G} {v : Ixht El G'} {a : IdealIxht El} (h : IxSim Slots t a)
    (h' : IxSim Slots' v a) : SameIxht t v := by
  refine ⟨h.elsNum.trans h'.elsNum.symm, h.maxDepth.trans h'.maxDepth.symm,
    h.binMask.trans h'.binMask.symm, h.dir.trans h'.dir.symm, ?_⟩
  refine List.forall₂_iff_get.mpr ⟨h.bins.length_eq.trans h'.bins.length_eq.symm, ?_⟩
  intro i hi hi'
  exact ((List.forall₂_iff_get.mp h.bins).2 i hi (h.bins.length_eq ▸ hi)).same
    ((List.forall₂_iff_get.mp h'.bins).2 i hi' (h'.bins.length_eq ▸ hi'))

end Headers

/-- `ixhtab.h` and `ixhtab-v0.h` go through every session in lock step: a sequence of
    calls returns on both or on neither, and then with the same replies, `*res`
    included, and with the same table up to the indices. -/
theorem ixht_v0_lock_step (hkey : key.Lawful) (hpower : PowerOk maxPower)
    (target v0Target : Target) {minSize : Nat} (hmin : minSize ≤ 2 ^ 31) :
    ∃ t₀ v₀, Returns (fun fuel => ixhtCreate maxPower (ixhtOps key target) fuel minSize) t₀ ∧
      Returns (fun fuel => ixhtCreate maxPower (v0IxhtOps key v0Target) fuel minSize) v₀ ∧
      ∀ calls, IxhtSession maxPower (ixhtOps key target) key t₀ calls →
        ((∃ s, Returns (fun fuel => ixhtRun maxPower (ixhtOps key target) key fuel t₀ calls) s) ↔
          ∃ s, Returns (fun fuel => ixhtRun maxPower (v0IxhtOps key v0Target) key fuel v₀ calls) s) ∧
        ∀ rs t rs' v,
          Returns (fun fuel => ixhtRun maxPower (ixhtOps key target) key fuel t₀ calls) (rs, t) →
          Returns (fun fuel => ixhtRun maxPower (v0IxhtOps key v0Target) key fuel v₀ calls)
            (rs', v) → rs = rs' ∧ SameIxht t v := by
  have hlaw := ixhtOps_lawful hkey target
  have hlaw0 := v0IxhtOps_lawful hkey v0Target
  have hpow := hpower.two_pow_le
  obtain ⟨t₀, a₀, ht₀, ha₀, h₀, -⟩ := ixhtCreate_follows hlaw hkey hpower hmin
  obtain ⟨v₀, b₀, hv₀, hb₀, hv, -⟩ := ixhtCreate_follows hlaw0 hkey hpower hmin
  rw [hb₀.unique ha₀] at hv
  refine ⟨t₀, v₀, ht₀, hv₀, fun calls h => ?_⟩
  -- the two tables are related through the ideal one, before and after every call
  have hstep : ∀ pre c, pre ++ [c] <+: calls → ∀ rs t v,
      Returns (fun fuel => ixhtRun maxPower (ixhtOps key target) key fuel t₀ pre) (rs, t) →
      (∃ a, Follows maxPower key SlotsOk t a ∧ Follows maxPower key (V0SlotsOk (2 ^ 16 - 1)) v a) →
      ∀ fuel ≥ 2 ^ maxPower, Option.Rel (fun s s' => s.1 = s'.1 ∧
          ∃ a, Follows maxPower key SlotsOk s.2 a ∧ Follows maxPower key (V0SlotsOk (2 ^ 16 - 1)) s'.2 a)
        (ixhtStep maxPower (ixhtOps key target) key fuel t c)
        (ixhtStep maxPower (v0IxhtOps key v0Target) key fuel v c) := by
    rintro pre c hpre rs t v ht ⟨a, hta, hva⟩ fuel hfuel
    have hsub := (List.prefix_append pre [c]).trans hpre
    have hnum : a.elsNum < 2 ^ 31 := hta.sim.elsNum ▸ h.bound pre hsub rs t ht
    have hc := h.calls_ok c (hpre.subset (by simp))
    have hrel := hta.step hlaw hkey hpower (by omega) hnum hc hfuel
    have hrel0 := hva.step hlaw0 hkey hpower (by omega) hnum hc hfuel
    refine Rel.imp (Rel.meet hrel hrel0) ?_
    rintro s s' ⟨s'', ⟨hs, hs'⟩, hs0, hs0'⟩
    exact ⟨hs.trans hs0.symm, s''.2, hs', hs0'⟩
  have hforth : ∀ rs t, Returns (fun fuel => ixhtRun maxPower (ixhtOps key target) key fuel t₀ calls)
      (rs, t) → ∃ v, Returns (fun fuel => ixhtRun maxPower (v0IxhtOps key v0Target) key fuel v₀ calls)
        (rs, v) ∧ ∃ a, Follows maxPower key SlotsOk t a ∧
          Follows maxPower key (V0SlotsOk (2 ^ 16 - 1)) v a := by
    intro rs t hrun
    refine Returns.run_rel (ixhtStep_mono hlaw.mono) (ixhtStep_mono hlaw0.mono)
      (fun t v => ∃ a, Follows maxPower key SlotsOk t a ∧
        Follows maxPower key (V0SlotsOk (2 ^ 16 - 1)) v a) ⟨a₀, h₀, hv⟩ ?_ hrun
    intro pre c hpre rs t v ht _ htv
    exact ⟨2 ^ maxPower, hstep pre c hpre rs t v ht htv⟩
  have hback : ∀ rs v, Returns (fun fuel => ixhtRun maxPower (v0IxhtOps key v0Target) key fuel v₀
      calls) (rs, v) → ∃ t, Returns (fun fuel => ixhtRun maxPower (ixhtOps key target) key fuel t₀
        calls) (rs, t) ∧ ∃ a, Follows maxPower key SlotsOk t a ∧
          Follows maxPower key (V0SlotsOk (2 ^ 16 - 1)) v a := by
    intro rs v hrun
    refine Returns.run_rel (ixhtStep_mono hlaw0.mono) (ixhtStep_mono hlaw.mono)
      (fun v t => ∃ a, Follows maxPower key SlotsOk t a ∧
        Follows maxPower key (V0SlotsOk (2 ^ 16 - 1)) v a) ⟨a₀, h₀, hv⟩ ?_ hrun
    intro pre c hpre rs v t _ ht htv
    refine ⟨2 ^ maxPower, fun fuel hfuel => ?_⟩
    exact Rel.imp (Rel.swap (hstep pre c hpre rs t v ht htv fuel hfuel)) fun s s' hs =>
      ⟨hs.1.symm, hs.2⟩
  refine ⟨⟨?_, ?_⟩, ?_⟩
  · rintro ⟨⟨rs, t⟩, hrun⟩
    obtain ⟨v, hv, -⟩ := hforth rs t hrun
    exact ⟨(rs, v), hv⟩
  · rintro ⟨⟨rs, v⟩, hrun⟩
    obtain ⟨t, ht, -⟩ := hback rs v hrun
    exact ⟨(rs, t), ht⟩
  · intro rs t rs' v hrun hrun0
    obtain ⟨v', hv', a, hta, hva⟩ := hforth rs t hrun
    obtain ⟨rfl, rfl⟩ := Prod.mk.inj (hrun0.unique hv')
    exact ⟨rfl, hta.sim.same hva.sim⟩

theorem ixht_v0_lock_step_sample :
    ∃ rs t v, Returns (fun fuel => ixhtRun 4 (ixhtOps identityKey .swar) identityKey fuel
        (sampleIxht (ixhtOps identityKey .swar)) sampleCalls) (rs, t) ∧
      Returns (fun fuel => ixhtRun 4 (v0IxhtOps identityKey .neon) identityKey fuel
        (sampleIxht (v0IxhtOps identityKey .neon)) sampleCalls) (rs, v) ∧ SameIxht t v := by
  obtain ⟨t₀, v₀, ht₀, hv₀, hlock⟩ := ixht_v0_lock_step identityKey_lawful powerOk_four .swar .neon
    (show 4 ≤ 2 ^ 31 by decide)
  rw [ht₀.unique (sampleIxht_created powerOk_four _), hv₀.unique (sampleIxht_created powerOk_four _)]
    at hlock
  obtain ⟨hsession, rs, t, hrun⟩ := sampleIxht_session (List.prefix_refl sampleCalls)
  obtain ⟨hiff, hsame⟩ := hlock sampleCalls hsession
  obtain ⟨⟨rs', v⟩, hrun0⟩ := hiff.mp ⟨(rs, t), hrun⟩
  obtain ⟨rfl, htv⟩ := hsame rs t rs' v hrun hrun0
  exact ⟨rs, t, v, hrun, hrun0, htv⟩

end IndexedHash
