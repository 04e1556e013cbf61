import Mathlib.Data.Int.CardIntervalMod
import IndexedHash.Flooding

/-!
# Tables of any size

A split of `ixht_split_bin` is sound if the bin is of the greatest depth, or one below it, and if the
first bit separates its elements.  Both hold for as long as the hash spreads the elements over
the classes of hashes with the same low bits, such that every class has from three quarters to
four thirds of the average.  A bin of depth `d` holds one such class.  When it is split, it has as
many elements as the largest bin has positions, and the table at most four thirds of `2 ^ d` times
as many; for a bin of depth `d + 1` to be split before, it would have had to have three halves.

So with elements that spread (`SpreadSession`) a table grows to any size, and answers as a map does.
After the first DELETE positions are lost, and a bin may be split with few elements in it; from
then on no new element may be inserted (`ixht_spread_refines`).
-/

namespace IndexedHash

open Loop KeyedList

variable {El : Type} {key : Key El} {maxPower : Nat}

def classSize (key : Key El) (d r : Nat) (l : List El) : Nat :=
  l.countP fun x => (key.nonzero.hash x).toNat % 2 ^ d = r

/-- Where the classes have a quarter of the positions of the largest bin on average, each has from
    three quarters to four thirds of the average. -/
def Spread (maxPower : Nat) (key : Key El) (l : List El) : Prop :=
  ∀ d r, 2 ^ maxPower * 2 ^ d ≤ 8 * l.length → r < 2 ^ d →
    3 * l.length ≤ 4 * (classSize key d r l * 2 ^ d) ∧ 3 * (classSize key d r l * 2 ^ d) ≤ 4 * l.length

structure SpreadSession (maxPower : Nat) (key : Key El) (calls : List (Call El)) : Prop where
  calls_ok : ∀ c ∈ calls, c.Ok key
  keep : ∀ c ∈ calls, c.action ≠ .delete
  spread : ∀ pre, pre <+: calls → Spread maxPower key (refRun key.eq [] pre).2

theorem SpreadSession.initial {pre calls : List (Call El)} (h : SpreadSession maxPower key calls)
    (hpre : pre <+: calls) : SpreadSession maxPower key pre where
  calls_ok c hc := h.calls_ok c (hpre.subset hc)
  keep c hc := h.keep c (hpre.subset hc)
  spread pre' hpre' := h.spread pre' (hpre'.trans hpre)

/-! ## Classes and bins -/

section Classes

variable {a : IdealIxht El} {l : List El} {b : Nat} {e : Ebin El (List Entry)}

/-- The elements of the other bins are of other classes. -/
theorem Mirrors.parts (hl : Mirrors key a l) (hb : a.bins[b]? = some e) :
    ∃ l₁ l₂, a.contents = l₁ ++ e.bin.live ++ l₂ ∧
      ∀ x, x ∈ l₁ ∨ x ∈ l₂ → (key.nonzero.hash x).toNat % 2 ^ e.depth ≠ e.mask := by
  obtain ⟨l₁, l₂, hcontents, -, hothers⟩ := contents_set hb
  refine ⟨l₁, l₂, hcontents, fun x hx hclass => ?_⟩
  obtain ⟨j, f, hji, hf, hxf⟩ := hothers x hx
  have hplaced := hl.dir.placed f (List.mem_of_getElem? hf) x hxf
  rw [← hl.dir.binOf_iff hf, (hl.dir.binOf_iff hb _).mpr hclass] at hplaced
  exact hji (Option.some.inj hplaced).symm

/-- The elements of a class are in the bin of the class. -/
theorem Mirrors.mem_live (hl : Mirrors key a l) (hb : a.bins[b]? = some e) {x : El} (hx : x ∈ l)
    (hclass : (key.nonzero.hash x).toNat % 2 ^ e.depth = e.mask) : x ∈ e.bin.live := by
  have hmem := hl.contents.mem_iff.mpr hx
  obtain ⟨l₁, l₂, hcontents, hothers⟩ := hl.parts hb
  rw [hcontents, List.append_assoc, List.mem_append, List.mem_append] at hmem
  rcases hmem with hmem | hmem | hmem
  · exact absurd hclass (hothers x (.inl hmem))
  · exact hmem
  · exact absurd hclass (hothers x (.inr hmem))

/-- A bin holds its class. -/
theorem Mirrors.length_live (hl : Mirrors key a l) (hb : a.bins[b]? = some e) :
    e.bin.live.length = classSize key e.depth e.mask l := by
  obtain ⟨l₁, l₂, hcontents, hothers⟩ := hl.parts hb
  have hnone : ∀ l', (∀ x ∈ l', (key.nonzero.hash x).toNat % 2 ^ e.depth ≠ e.mask) →
      classSize key e.depth e.mask l' = 0 := by
    intro l' hl'
    apply List.countP_eq_zero.mpr
    intro x hx
    simpa using hl' x hx
  have hlive : classSize key e.depth e.mask e.bin.live = e.bin.live.length := by
    apply List.countP_eq_length.mpr
    intro x hx
    simpa using hl.dir.placed e (List.mem_of_getElem? hb) x hx
  have hfirst := hnone l₁ fun x hx => hothers x (.inl hx)
  have hlast := hnone l₂ fun x hx => hothers x (.inr hx)
  have hsum : classSize key e.depth e.mask a.contents = e.bin.live.length := by
    unfold classSize at hlive hfirst hlast ⊢
    rw [hcontents, List.countP_append, List.countP_append, hfirst, hlast, hlive, Nat.zero_add, Nat.add_zero]
  rw [← hsum]
  exact hl.contents.countP_eq _

/-- A class that is not empty. -/
theorem exists_of_classSize {d r : Nat} (h : classSize key d r l ≠ 0) :
    ∃ x ∈ l, (key.nonzero.hash x).toNat % 2 ^ d = r := by
  obtain ⟨x, hx, hclass⟩ := List.countP_pos_iff.mp (Nat.pos_of_ne_zero h)
  exact ⟨x, hx, of_decide_eq_true hclass⟩

end Classes

/-! ## A table that only grows -/

/-- A table with the elements of the list, from which none has been deleted: every position that is
    used holds an element, and for every depth below the greatest some class of that depth has
    filled a bin. -/
structure Growing (maxPower : Nat) (key : Key El) (a : IdealIxht El) (l : List El) : Prop where
  ok : IxOk maxPower key a
  mirrors : Mirrors key a l
  packed : ∀ e ∈ a.bins, e.bin.live.length = e.bin.elsBound
  grown : ∀ d < a.maxDepth, 3 * (2 ^ maxPower * 2 ^ d) ≤ 8 * l.length

section Growing

variable {a p : IdealIxht El} {l : List El} {b i : Nat} {e : Ebin El (List Entry)} {c : Call El}

/-- A bin that is to be split holds a class of the size of the largest bin. -/
theorem Growing.full (hpower : PowerOk maxPower) (h : Growing maxPower key a l)
    (hb : a.bins[b]? = some e) (hfull : ixhtFull e = true) (hsplits : ixhtSplits maxPower a e = true) :
    2 * classSize key e.depth e.mask l = 2 ^ maxPower := by
  have hmem := List.mem_of_getElem? hb
  have hok := h.ok.bins e hmem
  have hlog : maxPower - 3 ≤ 28 := Nat.le_trans (Nat.sub_le _ _) (Nat.le_trans hpower.le (by decide))
  have hcapacity := hok.capacity_lt hpower
  have hlimit := hpower.two_pow_le
  rw [ixhtFull, decide_eq_true_eq, hok.halfIndexes hlog, Hbin.elsSize] at hfull
  rw [ixhtSplits, Bool.and_eq_true, decide_eq_true_eq, hok.halfIndexes hlog, Hbin.elsSize] at hsplits
  rw [← h.mirrors.length_live hb, h.packed e hmem]
  omega

/-- The classes of its depth have enough elements for the bound on their sizes. -/
theorem Growing.enough (h : Growing maxPower key a l) (hb : a.bins[b]? = some e)
    (hclass : 2 * classSize key e.depth e.mask l = 2 ^ maxPower) :
    2 ^ maxPower * 2 ^ e.depth ≤ 8 * l.length := by
  obtain ⟨hdepth, -⟩ := h.ok.shape.bins e (List.mem_of_getElem? hb)
  cases hd : e.depth with
  | zero =>
    have hle : classSize key e.depth e.mask l ≤ l.length := List.countP_le_length
    rw [Nat.pow_zero, Nat.mul_one]
    omega
  | succ d =>
    have hgrown := h.grown d (by omega)
    rw [Nat.pow_succ, ← Nat.mul_assoc]
    omega

/-- So there are about as many elements as all bins of its depth together would have. -/
theorem Growing.bounds (hpower : PowerOk maxPower) (h : Growing maxPower key a l)
    (hspread : Spread maxPower key l) (hb : a.bins[b]? = some e) (hfull : ixhtFull e = true)
    (hsplits : ixhtSplits maxPower a e = true) :
    3 * (2 ^ maxPower * 2 ^ e.depth) ≤ 8 * l.length ∧
      3 * l.length ≤ 2 * (2 ^ maxPower * 2 ^ e.depth) := by
  have hclass := h.full hpower hb hfull hsplits
  obtain ⟨-, hmask⟩ := h.ok.shape.bins e (List.mem_of_getElem? hb)
  obtain ⟨hlow, hhigh⟩ := hspread e.depth e.mask (h.enough hb hclass) hmask
  have hprod : 2 * (classSize key e.depth e.mask l * 2 ^ e.depth) = 2 ^ maxPower * 2 ^ e.depth := by
    rw [← Nat.mul_assoc, hclass]
  constructor
  · omega
  · omega

/-- The splits of a table with elements that spread are clean. -/
theorem Growing.splitsClean (hpower : PowerOk maxPower) (h : Growing maxPower key a l)
    (hspread : Spread maxPower key l) (c : Call El) : SplitsClean maxPower key a c := by
  intro b e _ _ hb hfull hsplits
  obtain ⟨hmany, hfew⟩ := h.bounds hpower hspread hb hfull hsplits
  obtain ⟨-, hmask⟩ := h.ok.shape.bins e (List.mem_of_getElem? hb)
  have hpos : 0 < 2 ^ maxPower * 2 ^ e.depth := Nat.mul_pos (Nat.two_pow_pos _) (Nat.two_pow_pos _)
  have hdouble : 2 ^ maxPower * 2 ^ (e.depth + 1) = 2 * (2 ^ maxPower * 2 ^ e.depth) := by
    rw [Nat.pow_succ, ← Nat.mul_assoc, Nat.mul_comm]
  constructor
  · by_contra hdeep
    have hgrown := h.grown (e.depth + 1) (by omega)
    omega
  · -- neither half of the class is empty
    have hside : ∀ r, r < 2 ^ (e.depth + 1) → classSize key (e.depth + 1) r l ≠ 0 := by
      intro r hr hzero
      have hcount := (hspread (e.depth + 1) r (by omega) hr).1
      rw [hzero, Nat.zero_mul] at hcount
      omega
    have hlt : e.mask < 2 ^ (e.depth + 1) :=
      Nat.lt_trans hmask (Nat.pow_lt_pow_right (by decide) (Nat.lt_succ_self _))
    have hor := Nat.or_lt_two_pow hlt (Nat.pow_lt_pow_right (by decide) (Nat.lt_succ_self e.depth))
    obtain ⟨x, hx, hxclass⟩ := exists_of_classSize (hside e.mask hlt)
    obtain ⟨y, hy, hyclass⟩ := exists_of_classSize (hside _ hor)
    obtain ⟨hxlow, hxbit⟩ := (mod_two_pow_succ_iff hmask _).1.mp hxclass
    obtain ⟨hylow, hybit⟩ := (mod_two_pow_succ_iff hmask _).2.mp hyclass
    exact ⟨⟨x, h.mirrors.mem_live hb hx hxlow, hxbit⟩, y, h.mirrors.mem_live hb hy hylow, hybit⟩

/-- Up to the last line of `ixht_perform` no position is lost. -/
theorem Prepared.packed {hash : BitVec 64} {action : Action}
    (hprep : Prepared maxPower key a hash action p i) (h : IxOk maxPower key a)
    (hpacked : ∀ e ∈ a.bins, e.bin.live.length = e.bin.elsBound) :
    ∀ e ∈ p.bins, e.bin.live.length = e.bin.elsBound := by
  cases hprep with
  | keep => exact hpacked
  | @rebuild _ j e e' _ _ _ hhalf =>
    intro f hf
    rcases List.mem_or_eq_of_mem_set hf with hf | rfl
    · exact hpacked f hf
    · rw [hhalf.live, hhalf.bound]
  | @split b k _ e t _ _ hb _ _ hdone =>
    obtain ⟨x, y, hbins, hx, hy⟩ := hdone.bins_eq (List.getElem?_eq_some_iff.mp hb).1
    obtain ⟨mx, my, xs, ys, hhx, hhy, -⟩ :=
      hdone.halves (h.shape.bins e (List.mem_of_getElem? hb)).2 hx hy
    intro f hf
    rw [hbins, List.mem_append, List.mem_singleton] at hf
    rcases hf with hf | rfl
    · rcases List.mem_or_eq_of_mem_set hf with hf | rfl
      · exact hpacked f hf
      · rw [hhx.live, hhx.bound]
    · rw [hhy.live, hhy.bound]

/-- The directory is deepened for a class that has filled a bin. -/
theorem Growing.prepared (hpower : PowerOk maxPower) (h : Growing maxPower key a l)
    (hspread : Spread maxPower key l)
    (hprep : Prepared maxPower key a (key.nonzero.hash c.el) c.action p i) :
    ∀ d < p.maxDepth, 3 * (2 ^ maxPower * 2 ^ d) ≤ 8 * l.length := by
  have hclean := h.splitsClean hpower hspread c
  generalize hhash : key.nonzero.hash c.el = hash at hprep
  generalize hc : c.action = action at hprep
  cases hprep with
  | keep => exact h.grown
  | rebuild => exact h.grown
  | @split b k _ e t haction hbin hb hfull hsplits hdone =>
    obtain ⟨-, hmix⟩ := hclean b e (hc.trans haction) (hhash ▸ hbin) hb hfull hsplits
    obtain rfl := hdone.eq_zero hmix
    intro d hd
    rw [hdone.dir.maxDepth] at hd
    rcases Nat.lt_or_ge d a.maxDepth with hlt | hge
    · exact h.grown d hlt
    · obtain ⟨hdepth, -⟩ := h.ok.shape.bins e (List.mem_of_getElem? hb)
      obtain rfl : d = e.depth := by omega
      exact (h.bounds hpower hspread hb hfull hsplits).1

/-- A call other than DELETE uses a position only for a new element. -/
theorem Stepped.packed {w : Widths} {bin bin' : IdealBin El} {n : Nat} {o : Outcome El (List Entry)}
    (h : Stepped w key bin c n o bin') (hkeep : c.action ≠ .delete)
    (hpacked : bin.live.length = bin.elsBound) : bin'.live.length = bin'.elsBound := by
  have hle := bin'.length_live_le
  have hge : bin.live.length ≤ (refStep key.eq bin.live c).2.length := refStep_length_ge _ hkeep
  rw [h.live] at hle ⊢
  rcases h.bound with hsame | ⟨⟨hins, hnew⟩, hnext⟩
  · omega
  · rw [refStep_length_new hins hnew]
    omega

/-- A call other than DELETE. -/
theorem Growing.step (hkey : key.Lawful) (hpower : PowerOk maxPower) (h : Growing maxPower key a l)
    (hspread : Spread maxPower key l) (hnum : l.length < 2 ^ 31) (hapart : Apart key.eq l)
    (hc : c.Ok key) (hkeep : c.action ≠ .delete) {fuel : Nat} {r : Reply (Nat × Nat) El}
    {a' : IdealIxht El}
    (hstep : ixhtStep maxPower (idealIxhtOps key) key fuel a c = some (r, a')) :
    Growing maxPower key a' (refStep key.eq l c).2 := by
  have hclean := h.splitsClean hpower hspread c
  have hless : a.elsNum < 2 ^ 31 := h.mirrors.count ▸ hnum
  obtain ⟨-, hmirrors⟩ := h.mirrors.step hkey hpower h.ok hapart hnum hc hclean hstep
  have hok := h.ok.step hkey hpower hless hc hstep
  obtain ⟨p, i, e, o, bin, hprep, he, hstepped, -, rfl⟩ := step_cases hkey hpower h.ok hless hc hstep
  refine ⟨hok, hmirrors, ?_, ?_⟩
  · have hpacked := hprep.packed h.ok h.packed
    intro f hf
    rcases List.mem_or_eq_of_mem_set hf with hf | rfl
    · exact hpacked f hf
    · exact hstepped.packed hkeep (hpacked e (List.mem_of_getElem? he))
  · intro d hd
    have hgrown := h.prepared hpower hspread hprep d hd
    have hmore : l.length ≤ (refStep key.eq l c).2.length := refStep_length_ge l hkeep
    omega

/-- A table with fewer than `2 ^ 31` elements has a directory of at most `2 ^ 30` entries. -/
theorem Growing.maxDepth_le (hpower : PowerOk maxPower) (h : Growing maxPower key a l)
    (hnum : l.length < 2 ^ 31) : a.maxDepth ≤ 30 := by
  by_contra hdeep
  have hgrown := h.grown 30 (by omega)
  have hsixteen : 2 ^ 4 ≤ 2 ^ maxPower := Nat.pow_le_pow_right (by decide) hpower.ge
  omega

end Growing

/-! ## Sessions -/

section Sessions

variable {t₀ t : Ixht El (List Group)} {a₀ : IdealIxht El} {target : Target} {order : ByteOrder}
  {minSize : Nat} {calls pre later : List (Call El)} {c : Call El}

/-- A session with elements that spread. -/
theorem SpreadSession.growing (hkey : key.Lawful) (hpower : PowerOk maxPower)
    (h₀ : Follows maxPower key SlotsOk t₀ a₀) (hempty : Growing maxPower key a₀ [])
    (h : SpreadSession maxPower key calls) (hlength : calls.length < 2 ^ 31)
    {rs : List (Reply (Nat × Nat) El)}
    (hrun : Returns (fun fuel => ixhtRun maxPower (ixhtOps key target) key fuel t₀ calls) (rs, t)) :
    ∃ a, Follows maxPower key SlotsOk t a ∧ Growing maxPower key a (refRun key.eq [] calls).2 := by
  have hlaw := ixhtOps_lawful hkey target
  induction calls using List.reverseRecOn generalizing rs t with
  | nil =>
    obtain ⟨rfl, rfl⟩ := Prod.mk.inj (hrun.unique (Returns.const ([], t₀)))
    exact ⟨a₀, h₀, hempty⟩
  | append_singleton cs c ih =>
    have hcs := List.prefix_append cs [c]
    have hshort := Nat.lt_of_le_of_lt hcs.length_le hlength
    obtain ⟨rs', r, s, hrun', hlast, rfl⟩ := Returns.of_concat (ixhtStep_mono hlaw.mono) hrun
    obtain ⟨a, hsa, hgrowing⟩ := ih (h.initial hcs) hshort hrun'
    have hmem : c ∈ cs ++ [c] := List.mem_append_right _ (List.mem_singleton_self c)
    have hc := h.calls_ok c hmem
    have hnum : (refRun key.eq [] cs).2.length < 2 ^ 31 :=
      Nat.lt_of_le_of_lt (refRun_initial_length_le hcs) hlength
    have hapart := refRun_apart hkey (h.initial hcs).calls_ok (l := []) List.Pairwise.nil
    -- the call on the ideal table
    obtain ⟨⟨r', a'⟩, hlast', -, hta⟩ := Returns.of_rel_left
      (ixhtStep_mono (idealOps_lawful ixhtWidths key.nonzero 0).mono a c)
      (fun fuel hfuel => hsa.step hlaw hkey hpower (Nat.le_trans hpower.two_pow_le (by decide))
        (hgrowing.mirrors.count ▸ hnum) hc hfuel) hlast
    obtain ⟨fuel, hfuel⟩ := hlast'.exists_some
    rw [refRun_concat]
    exact ⟨a', hta, hgrowing.step hkey hpower (h.spread cs hcs) hnum hapart hc (h.keep c hmem) hfuel⟩

/-- After the first part of a session, in which all INSERTs are, there is nothing to be split. -/
theorem insert_early (hlater : ∀ d ∈ later, d.action ≠ .insert) (hc : c.action = .insert)
    (hpre : pre ++ [c] <+: calls ++ later) : pre <+: calls := by
  rcases List.prefix_or_prefix_of_prefix ((List.prefix_append pre [c]).trans hpre)
    (List.prefix_append calls later) with hshort | ⟨rest, rfl⟩
  · exact hshort
  · rw [List.append_assoc, List.prefix_append_right_inj] at hpre
    have hmem := hpre.subset (List.mem_append_right rest (List.mem_singleton_self c))
    exact absurd hc (hlater c hmem)

theorem SpreadSession.splitsClean (hkey : key.Lawful) (hpower : PowerOk maxPower)
    (h₀ : Follows maxPower key SlotsOk t₀ a₀) (hempty : Growing maxPower key a₀ [])
    (h : SpreadSession maxPower key calls) (hlength : calls.length < 2 ^ 31) (hpre : pre <+: calls)
    {rs : List (Reply (Nat × Nat) El)}
    (hrun : Returns (fun fuel => ixhtRun maxPower (ixhtOps key target) key fuel t₀ pre) (rs, t))
    (c : Call El) : SplitsClean maxPower key t c ∧ t.maxDepth ≤ 30 := by
  have hshort := Nat.lt_of_le_of_lt hpre.length_le hlength
  obtain ⟨a, hta, hgrowing⟩ := (h.initial hpre).growing hkey hpower h₀ hempty hshort hrun
  constructor
  · exact hta.sim.splitsClean_iff.mpr (hgrowing.splitsClean hpower (h.spread pre hpre) c)
  · rw [hta.sim.maxDepth]
    apply hgrowing.maxDepth_le hpower
    exact Nat.lt_of_le_of_lt (refRun_initial_length_le hpre) hlength

end Sessions

/-- `ixhtab.h` in memory refines a map over every session that goes through FINDs and INSERTs, with
    elements that spread, and then through FINDs and DELETEs. -/
theorem ixht_spread_refines (hkey : key.Lawful) {target : Target} {order : ByteOrder}
    (hhost : HostOk order target) (hpower : PowerOk maxPower) {minSize : Nat}
    (hmin : 2 * minSize ≤ 2 ^ maxPower) {calls later : List (Call El)}
    (hcalls : SpreadSession maxPower key calls)
    (hlater : ∀ c ∈ later, c.Ok key ∧ c.action ≠ .insert)
    (hlength : calls.length + later.length < 2 ^ 30) (h : Heap (Block El Buffer)) :
    ∃ n, ∀ fuel ≥ n, ∃ rs h',
      ixhtHeapSession maxPower (ixhtByteOps key order target) key fuel minSize (calls ++ later) h =
          some (rs, h') ∧
        rs.map (fun r => r.2.seen) = (refRun key.eq [] (calls ++ later)).1 ∧
        h'.blocks = h.blocks := by
  obtain ⟨t₀, a₀, ht₀, h₀, hl₀, -, hbound, hdepth⟩ := ixhtCreate_inOrder hkey hpower target hmin
  have hempty : Growing maxPower key a₀ [] := by
    refine ⟨h₀.ok, hl₀, fun e he => ?_, fun d hd => ?_⟩
    · have hle := e.bin.length_live_le
      have hzero := hbound e he
      omega
    · omega
  rw [← List.length_append] at hlength
  have hsplits : ∀ pre c, pre ++ [c] <+: calls ++ later → c.action = .insert → ∀ rs t,
      Returns (fun fuel => ixhtRun maxPower (ixhtOps key target) key fuel t₀ pre) (rs, t) →
      SplitsClean maxPower key t c ∧ t.maxDepth ≤ 30 := by
    intro pre c hpre hc rs t hrun
    have hshort := (List.prefix_append calls later).length_le
    exact hcalls.splitsClean hkey hpower h₀ hempty (by omega)
      (insert_early (fun d hd => (hlater d hd).2) hc hpre) hrun c
  have hclean : CleanSession maxPower (ixhtOps key target) key t₀ (calls ++ later) := by
    refine ⟨fun c hc => ?_, fun pre hpre => ?_, fun pre c hpre rs t hrun b e hc => ?_⟩
    · rcases List.mem_append.mp hc with hc | hc
      · exact hcalls.calls_ok c hc
      · exact (hlater c hc).1
    · have hle : (refRun key.eq [] pre).2.length ≤ _ := refRun_initial_length_le hpre
      omega
    · exact (hsplits pre c hpre hc rs t hrun).1 b e hc
  have hsep := hclean.separable hkey hpower h₀ hl₀.count (by omega)
    fun pre c hpre hc rs t hrun => (hsplits pre c hpre hc rs t hrun).2
  exact hclean.in_memory hkey hhost hpower ht₀ h₀ hl₀ hsep hlength h

/-! ## Consecutive numbers -/

section Consecutive

variable {n d r : Nat}

/-- How many of the numbers `1`, …, `n` end in the `d` bits of `r`. -/
theorem classSize_progression (hn : n < 2 ^ 63) (hr : r < 2 ^ d) :
    classSize identityKey d r (progression n 1 1) + (if 0 = r then 1 else 0) =
      (n + 1) / 2 ^ d + if r < (n + 1) % 2 ^ d then 1 else 0 := by
  have hcount := Nat.count_modEq_card (n + 1) (Nat.two_pow_pos d) r
  rw [Nat.count_succ', Nat.mod_eq_of_lt hr] at hcount
  simp only [Nat.ModEq, Nat.mod_eq_of_lt hr, Nat.zero_mod] at hcount
  rw [← hcount, classSize, progression, List.countP_map, Nat.count]
  congr 1
  apply List.countP_congr
  intro j hj
  have hj := List.mem_range.mp hj
  have hlt : j + 1 < 2 ^ 64 := by omega
  have htoNat : (BitVec.ofNat 64 (1 * j + 1)).toNat = j + 1 := by
    rw [BitVec.toNat_ofNat, Nat.one_mul, Nat.mod_eq_of_lt hlt]
  rw [Function.comp_apply, identityKey_nonzero (by omega), htoNat]

/-- They spread, if the largest bin has 32 positions or more. -/
theorem spread_progression (hn : n < 2 ^ 63) (hpower : 6 ≤ maxPower) :
    Spread maxPower identityKey (progression n 1 1) := by
  intro d r henough hr
  have hclass := classSize_progression hn hr
  have hdiv := Nat.div_add_mod (n + 1) (2 ^ d)
  have hmod := Nat.mod_lt (n + 1) (Nat.two_pow_pos d)
  have hlarge : 2 ^ 6 * 2 ^ d ≤ 2 ^ maxPower * 2 ^ d :=
    Nat.mul_le_mul_right _ (Nat.pow_le_pow_right (by decide) hpower)
  rw [length_progression] at henough ⊢
  constructor
  · have hmore : (n + 1) / 2 ^ d ≤ classSize identityKey d r (progression n 1 1) + 1 := by
      split_ifs at hclass
      all_goals omega
    have hprod := Nat.mul_le_mul_right (2 ^ d) hmore
    rw [Nat.succ_mul, Nat.mul_comm] at hprod
    omega
  · have hfewer : classSize identityKey d r (progression n 1 1) ≤ (n + 1) / 2 ^ d + 1 := by
      split_ifs at hclass
      all_goals omega
    have hprod := Nat.mul_le_mul_right (2 ^ d) hfewer
    rw [Nat.succ_mul, Nat.mul_comm (_ / _)] at hprod
    omega

/-- The INSERTs of consecutive numbers. -/
theorem spreadSession_progression (hn : n < 2 ^ 63) (hpower : 6 ≤ maxPower) :
    SpreadSession maxPower identityKey (insertCalls (progression n 1 1)) := by
  have hapart : Apart identityKey.eq (progression n 1 1) := progression_apart (by decide) (by omega)
  refine ⟨insertCalls_ok identityKey_lawful _, fun c hc => ?_, fun pre hpre => ?_⟩
  · obtain ⟨x, -, rfl⟩ := mem_insertCalls hc
    rintro ⟨⟩
  · rw [insertCalls_eq_map] at hpre
    obtain ⟨ys, hys, rfl⟩ := List.prefix_map_iff.mp hpre
    rw [← insertCalls_eq_map, refRun_insertCalls (hapart.sublist hys.sublist)]
    obtain ⟨js, hjs, rfl⟩ := List.prefix_map_iff.mp hys
    rw [List.prefix_iff_eq_take, List.take_range] at hjs
    rw [hjs]
    exact spread_progression (Nat.lt_of_le_of_lt (Nat.min_le_right _ _) hn) hpower

end Consecutive

/-- With the constants of the source, sixty times as many numbers as the largest bin has positions. -/
theorem ixht_spread_refines_million :
    ∃ n, ∀ fuel ≥ n, ∃ rs h',
      ixhtHeapSession IXHT_MAX_BIN_SIZE_POWER (ixhtByteOps identityKey .little .sse2) identityKey fuel 100
          (insertCalls (progression 1000000 1 1) ++
            plainCalls [(.find, 1000000), (.find, 1000001), (.delete, 7)])
          [some (.dir [none]), none] = some (rs, h') ∧
        rs.map (fun r => r.2.seen) = List.replicate 1000000 (false, none) ++
          [(true, some 1000000), (false, none), (true, none)] ∧
        h'.blocks = {(0, .dir [none])} := by
  have hapart : Apart identityKey.eq (progression 1000000 1 1) := progression_apart (by decide) (by decide)
  have hlength : (progression 1000000 1 1).length = 1000000 := length_progression
  have hmem : ∀ {x : BitVec 64}, x ∈ progression 1000000 1 1 ↔ ∃ j < 1000000, x.toNat = 1 * j + 1 :=
    mem_progression (by decide)
  have hfound : ∀ x, x ∈ progression 1000000 1 1 →
      lookup identityKey.eq (progression 1000000 1 1) x = some x := fun x hx =>
    lookup_eq_some identityKey_lawful.equivalence hapart hx (identityKey_lawful.refl x)
  have hlast := hfound 1000000 (hmem.mpr ⟨999999, by decide, by decide⟩)
  have hseven := hfound 7 (hmem.mpr ⟨6, by decide, by decide⟩)
  have hnone : lookup identityKey.eq (progression 1000000 1 1) 1000001 = none := by
    apply lookup_eq_none
    intro x hx
    obtain ⟨j, hj, hxj⟩ := hmem.mp hx
    apply beq_eq_false_iff_ne.mpr
    rintro rfl
    have hj' : 1000001 = 1 * j + 1 := hxj
    omega
  have hreplies : ∀ xs, Apart identityKey.eq xs → lookup identityKey.eq xs 1000000 = some 1000000 →
      lookup identityKey.eq xs 1000001 = none → lookup identityKey.eq xs 7 = some 7 →
      (refRun identityKey.eq [] (insertCalls xs ++
        plainCalls [(.find, 1000000), (.find, 1000001), (.delete, 7)])).1 =
        List.replicate xs.length (false, none) ++
          [(true, some 1000000), (false, none), (true, none)] := by
    intro xs hapart hlast hnone hseven
    rw [refRun_append, refRun_insertCalls hapart]
    simp only [plainCalls, List.map_cons, List.map_nil, refRun, refStep, Call.plain, hlast, hnone,
      hseven, reduceCtorEq, if_false, if_true]
  have hcalls : ∀ c ∈ plainCalls [(.find, 1000000), (.find, 1000001), (.delete, 7)],
      c.Ok identityKey ∧ c.action ≠ .insert := by
    intro c hc
    refine ⟨plainCalls_ok identityKey_lawful _ c hc, ?_⟩
    obtain ⟨p, hp, rfl⟩ := List.mem_map.mp hc
    exact (show ∀ p ∈ [(Action.find, (1000000 : BitVec 64)), (.find, 1000001), (.delete, 7)],
      p.1 ≠ .insert by decide) p hp
  have hshort : (insertCalls (progression 1000000 1 1)).length +
      (plainCalls [(Action.find, (1000000 : BitVec 64)), (.find, 1000001), (.delete, 7)]).length <
      2 ^ 30 := by
    simp only [length_insertCalls, hlength, plainCalls, List.length_map, List.length_cons,
      List.length_nil]
    omega
  have h := ixht_spread_refines identityKey_lawful (show HostOk .little .sse2 from fun _ => rfl)
    powerOk_source (show 2 * 100 ≤ 2 ^ IXHT_MAX_BIN_SIZE_POWER by decide)
    (spreadSession_progression (by decide) (by decide)) hcalls hshort [some (.dir [none]), none]
  rw [hreplies _ hapart hlast hnone hseven, hlength] at h
  exact h

end IndexedHash
