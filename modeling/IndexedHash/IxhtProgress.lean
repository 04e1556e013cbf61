import IndexedHash.BinRebuild
import IndexedHash.IxhtRefinement
import IndexedHash.SplitReturns

/-!
# When a session of `ixhtab.h` returns

Of the loops that a call runs through, only that of `ixht_split_bin` may go on for ever: the
probes end at an empty slot, and an in-place rebuild reads every position once.  So a call
returns unless it splits a bin that no bit separates, and `ixht_session_returns_iff` says this
for whole sessions, in terms of the states before the calls that split.
-/

namespace IndexedHash

open Loop

variable {El : Type} {key : Key El} {target : Target} {maxPower : Nat}

def SplitsSeparable {G : Type} (maxPower : Nat) (key : Key El) (t : Ixht El G) (c : Call El) : Prop :=
  ∀ b e, c.action = .insert → t.binOf (key.nonzero.hash c.el) = some b → t.bins[b]? = some e →
    ixhtFull e = true → ixhtSplits maxPower t e = true → Separable key e

section Step

variable {t : Ixht El (List Group)} {a : IdealIxht El} {c : Call El}

/-- Up to its last line `ixht_perform` returns. -/
theorem prepare_returns (hkey : key.Lawful) (hpower : PowerOk maxPower)
    (hta : Follows maxPower key SlotsOk t a) (hsep : SplitsSeparable maxPower key t c) :
    ∃ p i, Returns (fun fuel => ixhtPrepare maxPower (ixhtOps key target) key fuel t
      (key.nonzero.hash c.el) c.action) (p, i) := by
  have hwell := hta.wellFormed hpower
  obtain ⟨b, e, hbin, hb⟩ := hwell.shape.binOf_some (key.nonzero.hash c.el)
  by_cases hfull : c.action = .insert ∧ ixhtFull e
  case neg =>
    refine ⟨t, b, 0, fun fuel _ => ?_⟩
    simp only [ixhtPrepare, hbin, hb, Option.bind_some, if_neg hfull]
  case pos =>
    obtain ⟨hins, hfull⟩ := hfull
    rw [hins]
    cases hsplits : ixhtSplits maxPower t e with
    | false =>
      obtain ⟨e', hprep, -⟩ := (hwell.bins e (List.mem_of_getElem? hb)).prepare_rebuild hkey hpower.le
        target hbin hb hfull hsplits
      exact ⟨_, b, hprep⟩
    | true =>
      have hmixed := exists_mixed_iff_separable.mpr (hsep b e hins hbin hb hfull hsplits)
      obtain ⟨t', ht'⟩ := (hwell.split_returns_iff hkey target hb).mpr hmixed
      obtain ⟨i, f, hi, -⟩ := hwell.after_split hkey target hbin hb ht'
      refine ⟨t', i, ?_⟩
      simp only [ixhtPrepare, hbin, hb, Option.bind_some, hfull, hsplits, and_self, if_true]
      refine Returns.bind ht' ?_
      simp only [hi, Option.map_some]
      exact Returns.const (t', i)

/-- A call on a table in order returns, unless it splits a bin that no bit separates. -/
theorem step_returns_iff (hkey : key.Lawful) (hpower : PowerOk maxPower)
    (hta : Follows maxPower key SlotsOk t a) (hnum : t.elsNum < 2 ^ 31) (hc : c.Ok key) :
    (∃ s, Returns (fun fuel => ixhtStep maxPower (ixhtOps key target) key fuel t c) s) ↔
      SplitsSeparable maxPower key t c := by
  have hlaw := ixhtOps_lawful hkey target
  constructor
  · rintro ⟨s, hs⟩ b e hins hbin hb hfull hsplits
    rw [← (hta.wellFormed hpower).insert_returns_iff hkey target hbin hb hfull hsplits]
    obtain ⟨fuel, hstep⟩ := hs.exists_some
    obtain ⟨r, hr, -⟩ := Option.bind_eq_some_iff.mp hstep
    rw [hins] at hr
    exact ⟨r, (ixhtPerform_mono hlaw.mono t c.el .insert).returns hr⟩
  · intro hsep
    obtain ⟨p, i, hp⟩ := prepare_returns hkey hpower hta hsep
    rw [hta.sim.elsNum] at hnum
    obtain ⟨p', hpp', hnum', e, he, hroom⟩ := hta.prepared hlaw hkey hpower
      (Nat.le_trans hpower.two_pow_le (by decide)) hnum hp
    obtain ⟨o, bin, hdo, hwritten, -⟩ := (hpp'.rep hpower).do1_exact hkey target hpower
      (by rw [hpp'.sim.elsNum]; omega) (List.mem_of_getElem? he) hc hroom
    have hperform : Returns (fun fuel => ixhtPerform maxPower (ixhtOps key target) key fuel t c.el
        c.action) (i, o, p.setBin i o.elsNum o.bin) := by
      refine Returns.bind hp ?_
      simp only [he, Option.bind_some]
      exact Returns.map hdo _
    refine ⟨(⟨o.found, o.res.map fun pos => (i, pos), o.value⟩,
      (p.setBin i o.elsNum o.bin).setBin i o.elsNum bin), Returns.bind hperform ?_⟩
    simp only [hwritten, Option.map_some]
    exact Returns.const _

end Step

/-! ## Sessions -/

section Session

variable {t₀ : Ixht El (List Group)} {a₀ : IdealIxht El} {calls : List (Call El)}

def SeparableSession (maxPower : Nat) (key : Key El) (target : Target) (t₀ : Ixht El (List Group))
    (calls : List (Call El)) : Prop :=
  ∀ pre c, pre ++ [c] <+: calls → ∀ rs t,
    Returns (fun fuel => ixhtRun maxPower (ixhtOps key target) key fuel t₀ pre) (rs, t) →
    SplitsSeparable maxPower key t c

theorem run_returns_iff (hkey : key.Lawful) (hpower : PowerOk maxPower)
    (h₀ : Follows maxPower key SlotsOk t₀ a₀) (hzero : a₀.elsNum = 0)
    (hcalls : ∀ c ∈ calls, c.Ok key) (hlen : calls.length < 2 ^ 31) :
    (∃ s, Returns (fun fuel => ixhtRun maxPower (ixhtOps key target) key fuel t₀ calls) s) ↔
      SeparableSession maxPower key target t₀ calls := by
  have hlaw := ixhtOps_lawful hkey target
  have hlimit : 2 ^ maxPower ≤ 2 ^ 16 := Nat.le_trans hpower.two_pow_le (by decide)
  induction calls using List.reverseRecOn with
  | nil =>
    refine ⟨fun _ pre c hpre => ?_, fun _ => ⟨_, Returns.const ([], t₀)⟩⟩
    have := hpre.length_le
    simp at this
  | append_singleton cs c ih =>
    have hcs : ∀ d ∈ cs, d.Ok key := fun d hd => hcalls d (List.mem_append_left _ hd)
    have hc := hcalls c (List.mem_append_right _ (List.mem_singleton_self c))
    rw [List.length_append, List.length_singleton] at hlen
    have ih := ih hcs (by omega)
    -- the state before the last call
    have hsession := IxhtSession.of_length hlaw hkey hpower hlimit h₀ hcs (by omega)
    have hlast : ∀ rs t, Returns (fun fuel => ixhtRun maxPower (ixhtOps key target) key fuel t₀ cs)
        (rs, t) →
        ((∃ s, Returns (fun fuel => ixhtStep maxPower (ixhtOps key target) key fuel t c) s) ↔
          SplitsSeparable maxPower key t c) := by
      intro rs t hrun
      obtain ⟨a, -, hta⟩ := hsession.follows hlaw hkey hpower hlimit h₀ hrun
      exact step_returns_iff hkey hpower hta (hsession.bound cs (List.prefix_refl cs) rs t hrun) hc
    constructor
    · rintro ⟨⟨rs, t⟩, hrun⟩ pre d hpre
      obtain ⟨rs', r, t', hrun', hstep, -⟩ := Returns.of_concat (ixhtStep_mono hlaw.mono) hrun
      rcases List.prefix_concat_iff.mp hpre with heq | hpre
      · obtain ⟨rfl, rfl⟩ := List.append_singleton_inj.mp heq
        intro rs₁ t₁ hrun₁
        obtain ⟨rfl, rfl⟩ := Prod.mk.inj (hrun₁.unique hrun')
        exact (hlast rs₁ t₁ hrun').mp ⟨_, hstep⟩
      · exact ih.mp ⟨_, hrun'⟩ pre d hpre
    · intro hsep
      obtain ⟨⟨rs, t⟩, hrun⟩ := ih.mpr fun pre d hpre =>
        hsep pre d (hpre.trans (List.prefix_append cs [c]))
      obtain ⟨⟨r, t'⟩, hstep⟩ := (hlast rs t hrun).mpr (hsep cs c (List.prefix_refl _) rs t hrun)
      exact ⟨_, Returns.concat hrun hstep⟩

/-- Clean splits return, as long as an insertion finds a directory with room for one more bit. -/
theorem CleanSession.separable (hkey : key.Lawful) (hpower : PowerOk maxPower)
    (h₀ : Follows maxPower key SlotsOk t₀ a₀) (hzero : a₀.elsNum = 0) (hlen : calls.length < 2 ^ 31)
    (h : CleanSession maxPower (ixhtOps key target) key t₀ calls)
    (hdepth : ∀ pre c, pre ++ [c] <+: calls → c.action = .insert → ∀ rs t,
      Returns (fun fuel => ixhtRun maxPower (ixhtOps key target) key fuel t₀ pre) (rs, t) →
      t.maxDepth ≤ 30) :
    SeparableSession maxPower key target t₀ calls := by
  have hlaw := ixhtOps_lawful hkey target
  have hlimit : 2 ^ maxPower ≤ 2 ^ 16 := Nat.le_trans hpower.two_pow_le (by decide)
  intro pre c hpre rs t hrun b e hins hbin hb hfull hsplits
  obtain ⟨-, hmix⟩ := h.clean pre c hpre rs t hrun b e hins hbin hb hfull hsplits
  have hsub := (List.prefix_append pre [c]).trans hpre
  have hshort := hsub.length_le
  have hsession := IxhtSession.of_length hlaw hkey hpower hlimit h₀
    (fun d hd => h.calls_ok d (hsub.subset hd)) (by omega)
  obtain ⟨a, -, hta⟩ := hsession.follows hlaw hkey hpower hlimit h₀ hrun
  obtain ⟨hle, -⟩ := (hta.wellFormed hpower).shape.bins e (List.mem_of_getElem? hb)
  exact exists_mixed_iff_separable.mp ⟨0, Nat.le_trans hle (hdepth pre c hpre hins rs t hrun), hmix⟩

end Session

/-- A session of `ixhtab.h` returns if and only if every call of it that splits a bin splits
    one whose elements some bit separates. -/
theorem ixht_session_returns_iff (hkey : key.Lawful) (hpower : PowerOk maxPower) (target : Target)
    {minSize : Nat} (hmin : minSize ≤ 2 ^ 31) :
    ∃ t₀, Returns (fun fuel => ixhtCreate maxPower (ixhtOps key target) fuel minSize) t₀ ∧
      ∀ calls, (∀ c ∈ calls, c.Ok key) → calls.length < 2 ^ 31 →
        ((∃ s, Returns (fun fuel => ixhtRun maxPower (ixhtOps key target) key fuel t₀ calls) s) ↔
          SeparableSession maxPower key target t₀ calls) := by
  obtain ⟨t₀, a₀, ht₀, -, h₀, hzero, -⟩ :=
    ixhtCreate_follows (ixhtOps_lawful hkey target) hkey hpower hmin
  exact ⟨t₀, ht₀, fun calls hcalls hlen => run_returns_iff hkey hpower h₀ hzero hcalls hlen⟩

/-- The ninth insertion splits the bin. -/
theorem ixht_session_returns_nine :
    ∃ t₀, Returns (fun fuel => ixhtCreate 4 (ixhtOps identityKey .sse2) fuel 4) t₀ ∧
      (∃ s, Returns (fun fuel => ixhtRun 4 (ixhtOps identityKey .sse2) identityKey fuel t₀ nineCalls)
        s) ∧
      SeparableSession 4 identityKey .sse2 t₀ nineCalls := by
  have hmono := (ixhtOps_lawful identityKey_lawful .sse2).mono
  obtain ⟨t₀, ht₀, hiff⟩ := ixht_session_returns_iff identityKey_lawful
    powerOk_four .sse2 (show 4 ≤ 2 ^ 31 by decide)
  obtain rfl := ht₀.unique (sampleIxht_created powerOk_four _)
  obtain ⟨s, hrun⟩ := Option.isSome_iff_exists.mp (show (ixhtRun 4 (ixhtOps identityKey .sse2)
    identityKey 16 (sampleIxht (ixhtOps identityKey .sse2)) nineCalls).isSome from by decide +kernel)
  have hreturns := (runCalls_mono (ixhtStep_mono hmono) _ nineCalls).returns hrun
  exact ⟨_, ht₀, ⟨s, hreturns⟩, (hiff nineCalls (plainCalls_ok identityKey_lawful _) (by decide)).mp ⟨s, hreturns⟩⟩

end IndexedHash
