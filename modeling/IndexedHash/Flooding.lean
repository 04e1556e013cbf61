import IndexedHash.Reserving
import IndexedHash.SmallTables

/-!
# Elements of one hash

`ixht_split_bin` looks for a bit in which the hashes of a bin differ, and does not end if there
is none.  Elements that all have the same hash go to one bin, which grows up to the largest
size; the insertion that finds this bin full splits it and does not return.  So of
different elements of one hash a table takes as many as the largest bin has positions, and no
more (`ixht_flood_iff`).  `ihtab.h`, whose tables are rebuilt and not split, takes any number.
-/

namespace IndexedHash

open Loop KeyedList

variable {El : Type} {key : Key El} {maxPower minSize : Nat}

def OneHash (key : Key El) (xs : List El) : Prop := ∀ x ∈ xs, ∀ y ∈ xs, key.hash x = key.hash y

theorem OneHash.not_separable {G : Type} {xs : List El} (h : OneHash key xs) {e : Ebin El G}
    (he : e.bin.live ⊆ xs) : ¬ Separable key e := by
  rintro ⟨k, x, y, -, hx, hy, hne⟩
  have hlive : ∀ {z}, z ∈ e.bin.deleted.survivors (staleReads (key.nonzero.hash x).toNat e.depth k)
      e.bin.live → z ∈ xs :=
    fun hz => he ((e.bin.deleted.survivors_sublist e.bin.live (Nat.zero_le _)).subset hz)
  have hhash : key.nonzero.hash x = key.nonzero.hash y := by
    unfold Key.nonzero
    simp only [h x (hlive hx) y (hlive hy)]
  apply hne
  rw [goesNew, goesNew, hhash]

/-- A bin with as many elements as the largest bin has positions is full, and an insertion would
    split it. -/
theorem InOrder.saturated (hpower : PowerOk maxPower) {a : IdealIxht El} {l : List El}
    (h : IxOk maxPower key a) (hl : InOrder a l) (hlength : 2 * l.length = 2 ^ maxPower) :
    ∃ e, a.bins = [e] ∧ ixhtFull e = true ∧ ixhtSplits maxPower a e = true := by
  obtain ⟨e, he, hlive⟩ := hl.bin
  have hlimit := hpower.two_pow_le
  have hlog : maxPower - 3 ≤ 28 := Nat.le_trans (Nat.sub_le _ _) (Nat.le_trans hpower.le (by decide))
  have hok := h.bins e (by rw [he]; exact List.mem_singleton_self e)
  have hcapacity := hok.capacity_lt hpower
  have hbound : e.bin.elsBound ≤ 4 * e.bin.numGroups := hok.dense.bound
  have hfewer := e.bin.length_live_le
  rw [hlive] at hfewer
  refine ⟨e, he, ?_, ?_⟩
  · rw [ixhtFull, decide_eq_true_eq, hok.halfIndexes hlog, Hbin.elsSize]
    omega
  · rw [ixhtSplits, Bool.and_eq_true, ixhtGrow, decide_eq_true_eq, decide_eq_true_eq,
      hok.indexesSize hlog, hok.halfIndexes hlog, Hbin.elsSize, hl.count]
    constructor
    · omega
    · omega

/-- The insertion that finds the bin full splits it, and no bit separates its elements. -/
theorem InOrder.not_splitsSeparable (hpower : PowerOk maxPower) {t : Ixht El (List Group)}
    {a : IdealIxht El} {l : List El} (hta : Follows maxPower key SlotsOk t a) (hl : InOrder a l)
    (hlength : 2 * l.length = 2 ^ maxPower) (hone : OneHash key l) {c : Call El}
    (hc : c.action = .insert) : ¬ SplitsSeparable maxPower key t c := by
  intro hsep
  obtain ⟨e', he', hfull, hsplits⟩ := hl.saturated hpower hta.ok hlength
  obtain ⟨b, f, hbin, hf⟩ := hta.ok.shape.binOf_some (key.nonzero.hash c.el)
  obtain ⟨e, he, hee⟩ := Forall₂.exists_of_right hta.sim.bins hf
  have hmem := List.mem_of_getElem? hf
  rw [he', List.mem_singleton] at hmem
  subst hmem
  have hlive : e.bin.live ⊆ l := by
    intro x hx
    rw [← hl.contents, ← hta.sim.contents]
    exact List.mem_flatMap_of_mem (List.mem_of_getElem? he) hx
  apply hone.not_separable hlive
  exact hsep b e hc ((hta.sim.binOf _).trans hbin) he (hee.full.trans hfull)
    ((hta.sim.splits hee).trans hsplits)

theorem insertCalls_ok (hkey : key.Lawful) (xs : List El) : ∀ c ∈ insertCalls xs, c.Ok key :=
  plainCalls_ok hkey _

/-- A session is a run of the created table. -/
theorem separable_of_session (hkey : key.Lawful) (hpower : PowerOk maxPower) {target : Target}
    {t₀ : Ixht El (List Group)} {a₀ : IdealIxht El} {calls : List (Call El)}
    (ht₀ : Returns (fun fuel => ixhtCreate maxPower (ixhtOps key target) fuel minSize) t₀)
    (h₀ : Follows maxPower key SlotsOk t₀ a₀) (hzero : a₀.elsNum = 0)
    (hcalls : ∀ c ∈ calls, c.Ok key) (hlength : calls.length < 2 ^ 31)
    {s : List (Reply (Nat × Nat) El) × Ixht El (List Group)}
    (hs : Returns (fun fuel => ixhtSession maxPower (ixhtOps key target) key fuel minSize calls) s) :
    SeparableSession maxPower key target t₀ calls := by
  obtain ⟨fuel, hfuel⟩ := hs.exists_some
  obtain ⟨t₁, hcreate, hrun⟩ := Option.bind_eq_some_iff.mp hfuel
  obtain rfl := ((ixhtCreate_mono maxPower (ixhtOps key target) minSize).returns hcreate).unique ht₀
  have hmono := (ixhtOps_lawful hkey target).mono
  apply (run_returns_iff hkey hpower h₀ hzero hcalls hlength).mp
  exact ⟨s, (runCalls_mono (ixhtStep_mono hmono) t₁ calls).returns hrun⟩

/-- More elements of one hash than the largest bin has positions cannot be inserted. -/
theorem OneHash.not_returns (hkey : key.Lawful) (hpower : PowerOk maxPower) (target : Target)
    (hmin : 2 * minSize ≤ 2 ^ maxPower) {xs : List El} (h : OneHash key xs) (hapart : Apart key.eq xs)
    (hmany : 2 ^ maxPower < 2 * xs.length) (hlength : xs.length < 2 ^ 31) :
    ¬ ∃ s, Returns (fun fuel => ixhtSession maxPower (ixhtOps key target) key fuel minSize
      (insertCalls xs)) s := by
  rintro ⟨s, hs⟩
  obtain ⟨t₀, a₀, ht₀, h₀, hl₀, horder, -⟩ := ixhtCreate_inOrder hkey hpower target hmin
  have hsep := separable_of_session hkey hpower ht₀ h₀ hl₀.count (insertCalls_ok hkey xs)
    (by rwa [length_insertCalls]) hs
  have hge := hpower.ge
  obtain ⟨k, rfl⟩ : ∃ k, maxPower = k + 1 := ⟨maxPower - 1, by omega⟩
  rw [Nat.pow_succ] at hmany
  -- the elements that fill the bin, and the next one
  obtain ⟨ys, z, zs, rfl, hys⟩ : ∃ ys z zs, xs = ys ++ z :: zs ∧ ys.length = 2 ^ k := by
    have hlt : 2 ^ k < xs.length := by omega
    refine ⟨xs.take (2 ^ k), xs[2 ^ k], xs.drop (2 ^ k + 1), ?_, ?_⟩
    · rw [← List.drop_eq_getElem_cons hlt, List.take_append_drop]
    · rw [List.length_take]
      omega
  have hpre : insertCalls ys ++ [Call.plain .insert z] <+: insertCalls (ys ++ z :: zs) := by
    rw [insertCalls_append]
    exact (List.prefix_append_right_inj _).mpr (List.prefix_append [_] (insertCalls zs))
  have hfew : (insertCalls ys).length < 2 ^ 31 := by
    rw [List.length_append, List.length_cons] at hlength
    rw [length_insertCalls]
    omega
  have hsmall : SmallSession (k + 1) key (insertCalls ys) := by
    apply SmallSession.of_length (insertCalls_ok hkey ys)
    rw [length_insertCalls, hys, Nat.pow_succ]
    omega
  obtain ⟨rs, t, a, hrun, hta, -, hl⟩ := hsmall.inOrder hkey hpower h₀ hl₀ horder hfew
  rw [refRun_insertCalls (hapart.sublist (List.sublist_append_left _ _))] at hl
  have hone : OneHash key ys := fun x hx y hy =>
    h x (List.mem_append_left _ hx) y (List.mem_append_left _ hy)
  apply hl.not_splitsSeparable hpower hta (by rw [hys, Nat.pow_succ]; omega) hone (c := Call.plain .insert z) rfl
  exact hsep _ _ hpre rs t hrun

/-- `ihtab.h` takes any different elements. -/
theorem ihtSession_inserts (hkey : key.Lawful) (target : Target) (hmin : minSize ≤ 2 ^ 62) {xs : List El}
    (hapart : Apart key.eq xs) (hlength : xs.length ≤ 2 ^ 32) :
    ∃ rs t, Returns (fun fuel => ihtSession (ihtOps key target) key fuel minSize (insertCalls xs))
      (rs, t) ∧ Returns (fun fuel => ihtElements fuel t) xs := by
  obtain ⟨rs, t, hrun, -, -, hall⟩ := ihtSession_list hkey target hmin (insertCalls_ok hkey xs)
    (by rwa [length_insertCalls])
  rw [refRun_insertCalls hapart] at hall
  exact ⟨rs, t, hrun, hall⟩

/-- Different elements of one hash: `ixhtab.h` takes as many as its largest bin has positions and
    no more, and `ihtab.h` takes them all. -/
theorem ixht_flood_iff (hkey : key.Lawful) (hpower : PowerOk maxPower) (target target' : Target)
    (hmin : 2 * minSize ≤ 2 ^ maxPower) {xs : List El} (hone : OneHash key xs)
    (hapart : Apart key.eq xs) (hlength : xs.length < 2 ^ 31) :
    ((∃ s, Returns (fun fuel => ixhtSession maxPower (ixhtOps key target) key fuel minSize
        (insertCalls xs)) s) ↔ 2 * xs.length ≤ 2 ^ maxPower) ∧
      ∃ rs t, Returns (fun fuel => ihtSession (ihtOps key target') key fuel minSize (insertCalls xs))
          (rs, t) ∧ Returns (fun fuel => ihtElements fuel t) xs := by
  have hcalls := length_insertCalls xs
  have hlimit := hpower.two_pow_le
  constructor
  · constructor
    · intro hreturns
      by_contra hmany
      exact hone.not_returns hkey hpower target hmin hapart (Nat.not_le.mp hmany) hlength hreturns
    · intro hfew
      have hs : SmallSession maxPower key (insertCalls xs) :=
        .of_length (insertCalls_ok hkey xs) (by rwa [hcalls])
      obtain ⟨rs, t, hrun, -⟩ := hs.list hkey hpower target hmin (by rwa [hcalls])
      exact ⟨_, hrun⟩
  · apply ihtSession_inserts hkey target' (Nat.le_trans (by omega : minSize ≤ 2 ^ 15) (by decide)) hapart
    omega

def constantKey : Key Nat := ⟨fun _ => 7, (· == ·)⟩

theorem constantKey_lawful : constantKey.Lawful where
  refl a := beq_self_eq_true a
  symm _ _ h := beq_iff_eq.mpr (beq_iff_eq.mp h).symm
  trans _ _ _ hab hbc := beq_iff_eq.mpr ((beq_iff_eq.mp hab).trans (beq_iff_eq.mp hbc))
  hash_eq _ _ _ := rfl

/-- Where the largest bin has eight positions, the ninth number is one too many. -/
theorem ixht_flood_nine :
    (¬ ∃ s, Returns (fun fuel => ixhtSession 4 (ixhtOps constantKey .sse2) constantKey fuel 8
        (insertCalls (List.range 9))) s) ∧
      ∃ rs t, Returns (fun fuel => ihtSession (ihtOps constantKey .neon) constantKey fuel 8
          (insertCalls (List.range 9))) (rs, t) ∧
        Returns (fun fuel => ihtElements fuel t) (List.range 9) := by
  have hapart : Apart constantKey.eq (List.range 9) := by
    unfold Apart
    decide
  obtain ⟨hiff, hiht⟩ := ixht_flood_iff constantKey_lawful
    (show PowerOk 4 from ⟨by decide, by decide⟩) .sse2 .neon (show 2 * 8 ≤ 2 ^ 4 by decide)
    (show OneHash constantKey (List.range 9) from fun _ _ _ _ => rfl) hapart (by decide)
  refine ⟨fun hreturns => ?_, hiht⟩
  have hfew := hiff.mp hreturns
  rw [List.length_range] at hfew
  exact absurd hfew (by decide)

end IndexedHash
