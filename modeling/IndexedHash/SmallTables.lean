import IndexedHash.Capacity
import IndexedHash.Memory

/-!
# Small tables of `ixhtab.h`

A bin is split only if the table holds at least as many elements as a bin of the largest
size has positions.  A caller that makes no call on that many elements, whatever it
inserts and deletes, meets none of the faults of `ixht_split_bin`: in memory, `ixhtab.h` is
then a map without any condition on the hash (`ixht_small_refines`).

Unless it was created with more bins, such a table has one bin, in which the elements stand in
the order of their insertion.  It gives the replies and the iteration of `ihtab.h`
(`small_tables_agree`).
-/

namespace IndexedHash

open Loop KeyedList

variable {El : Type} {key : Key El} {target : Target} {order : ByteOrder} {maxPower minSize : Nat}
  {calls : List (Call El)}

/-- No call finds as many elements in the map as the largest bin has positions. -/
structure SmallSession (maxPower : Nat) (key : Key El) (calls : List (Call El)) : Prop where
  calls_ok : ∀ c ∈ calls, c.Ok key
  small : ∀ pre c, pre ++ [c] <+: calls → 2 * (refRun key.eq [] pre).2.length < 2 ^ maxPower

theorem SmallSession.initial (h : SmallSession maxPower key calls) {pre : List (Call El)}
    (hpre : pre <+: calls) : SmallSession maxPower key pre where
  calls_ok c hc := h.calls_ok c (hpre.subset hc)
  small pre' c hpre' := h.small pre' c (hpre'.trans hpre)

/-- A session of few calls is small. -/
theorem SmallSession.of_length (hcalls : ∀ c ∈ calls, c.Ok key)
    (hlength : 2 * calls.length ≤ 2 ^ maxPower) : SmallSession maxPower key calls := by
  refine ⟨hcalls, fun pre c hpre => ?_⟩
  have hshort := hpre.length_le
  rw [List.length_append, List.length_singleton] at hshort
  have hle : (refRun key.eq [] pre).2.length ≤ pre.length :=
    refRun_initial_length_le (List.prefix_refl pre)
  omega

/-- A call adds one element at most. -/
theorem SmallSession.bound (hpower : PowerOk maxPower) (h : SmallSession maxPower key calls)
    {pre : List (Call El)} (hpre : pre <+: calls) : (refRun key.eq [] pre).2.length < 2 ^ 31 := by
  have hlimit := hpower.two_pow_le
  rcases List.eq_nil_or_concat pre with rfl | ⟨pre, c, rfl⟩
  · exact Nat.two_pow_pos 31
  · have hsmall := h.small pre c (by rwa [List.concat_eq_append] at hpre)
    have hone : (refRun key.eq (refRun key.eq [] pre).2 [c]).2.length ≤
        (refRun key.eq [] pre).2.length + 1 := refRun_length_le _ [c]
    rw [List.concat_eq_append, refRun_append]
    exact Nat.lt_of_le_of_lt hone (by omega)

section Splits

variable {t₀ t : Ixht El (List Group)} {a₀ a : IdealIxht El}

/-- After calls that leave few elements, no bin would be split. -/
theorem CleanSession.not_splits (hkey : key.Lawful) (hpower : PowerOk maxPower)
    (h₀ : Follows maxPower key SlotsOk t₀ a₀) (hl₀ : Mirrors key a₀ [])
    (h : CleanSession maxPower (ixhtOps key target) key t₀ calls)
    (hsmall : 2 * (refRun key.eq [] calls).2.length < 2 ^ maxPower)
    {rs : List (Reply (Nat × Nat) El)}
    (hrun : Returns (fun fuel => ixhtRun maxPower (ixhtOps key target) key fuel t₀ calls) (rs, t))
    (e : Ebin El (List Group)) : ixhtSplits maxPower t e = false := by
  obtain ⟨a, hta, hl, -⟩ := h.mirrors (ixhtOps_lawful hkey target) hkey hpower
    (Nat.le_trans hpower.two_pow_le (by decide)) h₀ hl₀ hrun
  apply ixhtSplits_eq_false
  rw [hta.sim.elsNum, hl.count]
  exact hsmall

/-- The splits of a small session are clean, as there are none. -/
theorem SmallSession.clean (hkey : key.Lawful) (hpower : PowerOk maxPower) (target : Target)
    (h₀ : Follows maxPower key SlotsOk t₀ a₀) (hl₀ : Mirrors key a₀ [])
    (h : SmallSession maxPower key calls) :
    CleanSession maxPower (ixhtOps key target) key t₀ calls := by
  have hbound : ∀ pre, pre <+: calls → (refRun key.eq [] pre).2.length < 2 ^ 31 :=
    fun pre hpre => h.bound hpower hpre
  induction calls using List.reverseRecOn with
  | nil =>
    refine ⟨h.calls_ok, hbound, fun pre c hpre => ?_⟩
    have := hpre.length_le
    simp at this
  | append_singleton cs c ih =>
    have hcs := List.prefix_append cs [c]
    have ih := ih (h.initial hcs) fun pre hpre => hbound pre (hpre.trans hcs)
    refine ⟨h.calls_ok, hbound, fun pre d hpre => ?_⟩
    rcases List.prefix_concat_iff.mp hpre with heq | hpre
    · obtain ⟨rfl, rfl⟩ := List.append_singleton_inj.mp heq
      intro rs t hrun b e _ _ _ _ hsplits
      rw [ih.not_splits hkey hpower h₀ hl₀ (h.small _ _ (List.prefix_refl _)) hrun] at hsplits
      cases hsplits
    · exact ih.clean pre d hpre

theorem SmallSession.separable (hkey : key.Lawful) (hpower : PowerOk maxPower)
    (h₀ : Follows maxPower key SlotsOk t₀ a₀) (hl₀ : Mirrors key a₀ [])
    (h : SmallSession maxPower key calls) : SeparableSession maxPower key target t₀ calls := by
  intro pre c hpre rs t hrun b e _ _ _ _ hsplits
  have hclean := (h.initial ((List.prefix_append pre [c]).trans hpre)).clean hkey hpower target h₀ hl₀
  rw [hclean.not_splits hkey hpower h₀ hl₀ (h.small pre c hpre) hrun] at hsplits
  cases hsplits

end Splits

/-- In memory `ixhtab.h` refines a map over every session without a call on
    `2 ^ (maxPower - 1)` elements. -/
theorem ixht_small_refines (hkey : key.Lawful) (hhost : HostOk order target)
    (hpower : PowerOk maxPower) (hmin : minSize ≤ 2 ^ 31) (hs : SmallSession maxPower key calls)
    (hlength : calls.length < 2 ^ 30) (h : Heap (Block El Buffer)) :
    ∃ n, ∀ fuel ≥ n, ∃ rs h',
      ixhtHeapSession maxPower (ixhtByteOps key order target) key fuel minSize calls h =
          some (rs, h') ∧
        rs.map (fun r => r.2.seen) = (refRun key.eq [] calls).1 ∧ h'.blocks = h.blocks := by
  obtain ⟨t₀, a₀, ht₀, -, h₀, hl₀⟩ := ixhtCreate_mirrors hkey hpower target hmin
  exact (hs.clean hkey hpower target h₀ hl₀).in_memory hkey hhost hpower ht₀ h₀ hl₀
    (hs.separable hkey hpower h₀ hl₀) hlength h

/-- The constants of the source, and a table of `2 ^ 17` bins. -/
theorem ixht_small_refines_sample :
    ∃ n, ∀ fuel ≥ n, ∃ rs h',
      ixhtHeapSession IXHT_MAX_BIN_SIZE_POWER (ixhtByteOps identityKey .big .neon) identityKey fuel
          (2 ^ 31) sampleCalls [some (.dir [none]), none] = some (rs, h') ∧
        rs.map (fun r => r.2.seen) = sampleReplies ∧ h'.blocks = {(0, .dir [none])} := by
  have hs : SmallSession IXHT_MAX_BIN_SIZE_POWER identityKey sampleCalls :=
    .of_length sampleCalls_ok (by decide)
  have hhost : HostOk .big .neon := fun hswar => by cases hswar
  exact ixht_small_refines identityKey_lawful hhost powerOk_source (Nat.le_refl _) hs (by decide) _

/-! ## One bin -/

section Order

variable {a a' p : IdealIxht El} {l : List El} {c : Call El}

structure InOrder (a : IdealIxht El) (l : List El) : Prop where
  bin : ∃ e, a.bins = [e] ∧ e.bin.live = l
  count : a.elsNum = l.length

theorem InOrder.contents (h : InOrder a l) : a.contents = l := by
  obtain ⟨e, he, rfl⟩ := h.bin
  rw [Ixht.contents, he, List.flatMap_singleton]

theorem InOrder.set {i : Nat} {e : Ebin El (List Entry)} (h : InOrder a l)
    (hi : a.bins[i]? = some e) (e' : Ebin El (List Entry)) : e.bin.live = l ∧ a.bins.set i e' = [e'] := by
  obtain ⟨f, hf, rfl⟩ := h.bin
  obtain ⟨hlt, -⟩ := List.getElem?_eq_some_iff.mp hi
  have hzero : i = 0 := by
    rw [hf, List.length_singleton] at hlt
    omega
  subst hzero
  rw [hf, List.getElem?_cons_zero, Option.some.injEq] at hi
  rw [hf, hi]
  exact ⟨rfl, rfl⟩

/-- Up to its last line `ixht_perform` keeps the order, if it does not split. -/
theorem Prepared.inOrder {hash : BitVec 64} {action : Action} {i : Nat}
    (hprep : Prepared maxPower key a hash action p i) (hl : InOrder a l)
    (hsplits : ∀ e, ixhtSplits maxPower a e = false) : InOrder p l := by
  cases hprep with
  | keep => exact hl
  | @rebuild _ j e e' haction hbin hi hhalf =>
    obtain ⟨hlive, hset⟩ := hl.set hi e'
    exact ⟨⟨e', hset, hhalf.live.trans hlive⟩, hl.count⟩
  | split haction hbin hb hfull hyes =>
    rw [hsplits] at hyes
    cases hyes

/-- A call is a step of the list. -/
theorem InOrder.step (hkey : key.Lawful) (hpower : PowerOk maxPower) (h : IxOk maxPower key a)
    (hl : InOrder a l) (hsmall : 2 * l.length < 2 ^ maxPower) (hc : c.Ok key) {fuel : Nat}
    {r : Reply (Nat × Nat) El}
    (hstep : ixhtStep maxPower (idealIxhtOps key) key fuel a c = some (r, a')) :
    r.seen = (refStep key.eq l c).1 ∧ InOrder a' (refStep key.eq l c).2 := by
  have hlimit := hpower.two_pow_le
  rw [← hl.count] at hsmall
  obtain ⟨p, i, e, o, bin, hprep, he, hstepped, rfl, rfl⟩ :=
    step_cases hkey hpower h (by omega) hc hstep
  have hp := hprep.inOrder hl (ixhtSplits_eq_false hsmall)
  obtain ⟨rfl, hset⟩ := hp.set he { e with bin := bin }
  have hlive : bin.live = (refStep key.eq e.bin.live c).2 := hstepped.live
  refine ⟨hstepped.seen, ⟨_, hset, hlive⟩, ?_⟩
  have hnew := hstepped.count
  have hold := hp.count
  rw [← hlive]
  show o.elsNum = bin.live.length
  omega

/-- A run is a run of the list. -/
theorem InOrder.run (hkey : key.Lawful) (hpower : PowerOk maxPower) (h : IxOk maxPower key a)
    (hl : InOrder a l) (hcalls : ∀ c ∈ calls, c.Ok key)
    (hsmall : ∀ pre c, pre ++ [c] <+: calls → 2 * (refRun key.eq l pre).2.length < 2 ^ maxPower)
    {fuel : Nat} {rs : List (Reply (Nat × Nat) El)}
    (hrun : ixhtRun maxPower (idealIxhtOps key) key fuel a calls = some (rs, a')) :
    rs.map Reply.seen = (refRun key.eq l calls).1 ∧ InOrder a' (refRun key.eq l calls).2 := by
  induction calls generalizing a l rs with
  | nil =>
    obtain ⟨rfl, rfl⟩ := Prod.mk.inj (Option.some.inj hrun)
    exact ⟨rfl, hl⟩
  | cons c cs ih =>
    obtain ⟨⟨r, a₁⟩, hstep, hrest⟩ := Option.bind_eq_some_iff.mp hrun
    obtain ⟨⟨rs', a₂⟩, hcs, heq⟩ := Option.map_eq_some_iff.mp hrest
    rw [Prod.mk.injEq] at heq
    obtain ⟨rfl, rfl⟩ := heq
    have hfirst : 2 * l.length < 2 ^ maxPower :=
      hsmall [] c (List.cons_prefix_cons.mpr ⟨rfl, List.nil_prefix⟩)
    have hc := hcalls c List.mem_cons_self
    have hlimit := hpower.two_pow_le
    have hnum : a.elsNum < 2 ^ 31 := by
      rw [hl.count]
      omega
    obtain ⟨hseen, hl₁⟩ := hl.step hkey hpower h hfirst hc hstep
    obtain ⟨hseens, hl₂⟩ := ih (h.step hkey hpower hnum hc hstep) hl₁
      (fun d hd => hcalls d (List.mem_cons_of_mem c hd))
      (fun pre d hpre => hsmall (c :: pre) d (List.cons_prefix_cons.mpr ⟨rfl, hpre⟩)) hcs
    refine ⟨?_, hl₂⟩
    rw [List.map_cons, hseen, hseens]
    rfl

end Order

/-! ### Creation -/

theorem ihtCreate_returns {G : Type} (ops : BinOps El G) (hmin : minSize ≤ 2 ^ 62) :
    ∃ t, Returns (fun fuel => ihtCreate ops fuel minSize) t := by
  have hbig : ¬ 2 ^ 63 * LF_FACTOR / LF_DIVISOR < minSize := by
    simp only [LF_FACTOR, LF_DIVISOR]
    omega
  obtain ⟨size, hsize⟩ : ∃ size, Returns (fun fuel => forever (ihtCreateBody minSize) fuel (2 ^ 3))
      size :=
    forever_double_returns (b := 63) (fun s => s * LF_FACTOR / LF_DIVISOR < minSize) (fun _ => rfl)
      (by decide) (by decide) hbig
  exact ⟨_, Returns.map hsize _⟩

/-- A table for few elements is created with one bin, none of whose positions is used. -/
theorem ixhtCreate_bin (hpower : PowerOk maxPower) {G : Type} {ops : BinOps El G} {fuel : Nat}
    {t : Ixht El G} (hmin : 2 * minSize ≤ 2 ^ maxPower)
    (h : ixhtCreate maxPower ops fuel minSize = some t) :
    ∃ e, t.bins = [e] ∧ e.bin.elsBound = 0 ∧ t.maxDepth = 0 := by
  have hge := hpower.ge
  obtain ⟨s, j, -, hj, -, -, hleast, rfl⟩ := ixhtCreate_params hpower h
  obtain rfl : j = 0 := by
    rcases hleast with rfl | hleast
    · omega
    · have hlt : s < maxPower :=
        (Nat.pow_lt_pow_iff_right (by decide)).mp (Nat.lt_of_lt_of_le hleast hmin)
      omega
  exact ⟨_, rfl, rfl, rfl⟩

/-- A table for few elements is created with its one bin in order. -/
theorem ixhtCreate_inOrder (hkey : key.Lawful) (hpower : PowerOk maxPower) (target : Target)
    (hmin : 2 * minSize ≤ 2 ^ maxPower) :
    ∃ t₀ a₀, Returns (fun fuel => ixhtCreate maxPower (ixhtOps key target) fuel minSize) t₀ ∧
      Follows maxPower key SlotsOk t₀ a₀ ∧ Mirrors key a₀ [] ∧ InOrder a₀ [] ∧
      (∀ e ∈ a₀.bins, e.bin.elsBound = 0) ∧ a₀.maxDepth = 0 := by
  have hlimit := hpower.two_pow_le
  obtain ⟨t₀, a₀, ht₀, ha₀, h₀, hl₀⟩ := ixhtCreate_mirrors hkey hpower target
    (Nat.le_trans (by omega : minSize ≤ 2 ^ 15) (by decide))
  obtain ⟨m, hm⟩ := ha₀.exists_some
  obtain ⟨e, he, hbound, hdepth⟩ := ixhtCreate_bin hpower hmin hm
  have hempty := hl₀.contents.eq_nil
  rw [Ixht.contents, he, List.flatMap_singleton] at hempty
  refine ⟨t₀, a₀, ht₀, h₀, hl₀, ⟨⟨e, he, hempty⟩, hl₀.count⟩, fun f hf => ?_, hdepth⟩
  rw [he, List.mem_singleton] at hf
  rw [hf, hbound]

/-- `ihtab.h` goes through any calls as the list does. -/
theorem ihtSession_list (hkey : key.Lawful) (target : Target) (hmin : minSize ≤ 2 ^ 62)
    (hcalls : ∀ c ∈ calls, c.Ok key) (hlength : calls.length ≤ 2 ^ 32) :
    ∃ rs t, Returns (fun fuel => ihtSession (ihtOps key target) key fuel minSize calls) (rs, t) ∧
      rs.map Reply.seen = (refRun key.eq [] calls).1 ∧
      ihtElsCount t = (refRun key.eq [] calls).2.length ∧
      Returns (fun fuel => ihtElements fuel t) (refRun key.eq [] calls).2 := by
  have hlaw := ihtOps_lawful hkey target
  obtain ⟨t₀, ht₀⟩ := ihtCreate_returns (ihtOps key target) hmin
  have hsession := IhtSession.of_length hlaw hkey (Nat.le_refl _) ht₀ hcalls hlength
  obtain ⟨a₀, rs, t, a, -, hrun, -, hsim, hle, hok, hseen, hlive⟩ :=
    (hsession.mono (2 ^ 32) hlength).spec hlaw hkey (Nat.le_refl _)
  refine ⟨rs, t, Returns.bind ht₀ hrun, hseen, ?_, ?_⟩
  · rw [ihtElsCount, hsim.elsNum, hok.count, hlive]
  · rw [← hlive]
    exact hsim.elements hok (Nat.lt_of_le_of_lt hle (by decide))

/-- The table after a small session. -/
theorem SmallSession.inOrder (hkey : key.Lawful) (hpower : PowerOk maxPower)
    {t₀ : Ixht El (List Group)} {a₀ : IdealIxht El} (h₀ : Follows maxPower key SlotsOk t₀ a₀)
    (hl₀ : Mirrors key a₀ []) (horder : InOrder a₀ []) (hs : SmallSession maxPower key calls)
    (hlength : calls.length < 2 ^ 31) :
    ∃ rs t a, Returns (fun fuel => ixhtRun maxPower (ixhtOps key target) key fuel t₀ calls) (rs, t) ∧
      Follows maxPower key SlotsOk t a ∧ rs.map Reply.seen = (refRun key.eq [] calls).1 ∧
      InOrder a (refRun key.eq [] calls).2 := by
  have hlaw := ixhtOps_lawful hkey target
  have hlimit : 2 ^ maxPower ≤ 2 ^ 16 := Nat.le_trans hpower.two_pow_le (by decide)
  obtain ⟨⟨rs, t⟩, hrun⟩ := (run_returns_iff hkey hpower h₀ hl₀.count hs.calls_ok hlength).mpr
    (hs.separable hkey hpower h₀ hl₀)
  have hsession := IxhtSession.of_length hlaw hkey hpower hlimit h₀ hs.calls_ok
    (by rw [hl₀.count, List.length_nil]; omega)
  obtain ⟨a, hideal, hta⟩ := hsession.follows hlaw hkey hpower hlimit h₀ hrun
  obtain ⟨fuel, hfuel⟩ := hideal.exists_some
  obtain ⟨hseen, hl⟩ := horder.run hkey hpower h₀.ok hs.calls_ok hs.small hfuel
  exact ⟨rs, t, a, hrun, hta, hseen, hl⟩

/-- So does `ixhtab.h`, as long as the list is short. -/
theorem SmallSession.list (hkey : key.Lawful) (hpower : PowerOk maxPower) (target : Target)
    (hmin : 2 * minSize ≤ 2 ^ maxPower) (hs : SmallSession maxPower key calls)
    (hlength : calls.length < 2 ^ 31) :
    ∃ rs t, Returns (fun fuel => ixhtSession maxPower (ixhtOps key target) key fuel minSize calls)
        (rs, t) ∧
      rs.map Reply.seen = (refRun key.eq [] calls).1 ∧
      ixhtElsCount t = (refRun key.eq [] calls).2.length ∧
      Returns (fun fuel => ixhtElements fuel t) (refRun key.eq [] calls).2 := by
  obtain ⟨t₀, a₀, ht₀, h₀, hl₀, horder, -⟩ := ixhtCreate_inOrder hkey hpower target hmin
  obtain ⟨rs, t, a, hrun, hta, hseen, hl⟩ := hs.inOrder hkey hpower h₀ hl₀ horder hlength
  refine ⟨rs, t, Returns.bind ht₀ hrun, hseen, hta.sim.elsNum.trans hl.count, ?_⟩
  rw [← hl.contents, ← hta.sim.contents]
  exact ixhtElements_returns (hta.browsable hpower)

/-- Without a call on `2 ^ (maxPower - 1)` elements, `ihtab.h` and `ixhtab.h` give the same
    replies, count the same elements and enumerate them in the same order. -/
theorem small_tables_agree (hkey : key.Lawful) (hpower : PowerOk maxPower) (target target' : Target)
    (hmin : 2 * minSize ≤ 2 ^ maxPower) (hs : SmallSession maxPower key calls)
    (hlength : calls.length < 2 ^ 31) :
    ∃ rs t rs' t', Returns (fun fuel => ihtSession (ihtOps key target) key fuel minSize calls) (rs, t) ∧
      Returns (fun fuel => ixhtSession maxPower (ixhtOps key target') key fuel minSize calls)
        (rs', t') ∧
      rs.map Reply.seen = rs'.map Reply.seen ∧ ihtElsCount t = ixhtElsCount t' ∧
      ∃ l, Returns (fun fuel => ihtElements fuel t) l ∧ Returns (fun fuel => ixhtElements fuel t') l := by
  have hlimit := hpower.two_pow_le
  have hfew : minSize ≤ 2 ^ 62 := Nat.le_trans (by omega : minSize ≤ 2 ^ 15) (by decide)
  obtain ⟨rs, t, hrun, hseen, hcount, hall⟩ := ihtSession_list hkey target hfew hs.calls_ok
    (Nat.le_trans (Nat.le_of_lt hlength) (by decide))
  obtain ⟨rs', t', hrun', hseen', hcount', hall'⟩ := hs.list hkey hpower target' hmin hlength
  exact ⟨rs, t, rs', t', hrun, hrun', hseen.trans hseen'.symm, hcount.trans hcount'.symm,
    _, hall, hall'⟩

/-- Eleven insertions, which rebuild both tables twice, and two deletions. -/
theorem small_tables_agree_churn :
    ∃ rs t rs' t',
      Returns (fun fuel => ihtSession (ihtOps identityKey .sse2) identityKey fuel 4 sampleCalls)
        (rs, t) ∧
      Returns (fun fuel => ixhtSession IXHT_MAX_BIN_SIZE_POWER (ixhtOps identityKey .swar) identityKey
        fuel 4 sampleCalls) (rs', t') ∧
      rs.map Reply.seen = rs'.map Reply.seen ∧ ihtElsCount t = ixhtElsCount t' ∧
      ∃ l, Returns (fun fuel => ihtElements fuel t) l ∧ Returns (fun fuel => ixhtElements fuel t') l := by
  have hs : SmallSession IXHT_MAX_BIN_SIZE_POWER identityKey sampleCalls :=
    .of_length sampleCalls_ok (by decide)
  exact small_tables_agree identityKey_lawful powerOk_source .sse2 .swar (by decide) hs (by decide)

end IndexedHash
