import IndexedHash.RebuildCost
import IndexedHash.SmallTables

/-!
# What a steady turnover costs in `ixhtab.h`

`ixht_perform` rebuilds a bin whose positions are all used, and makes it larger only if the
table has as many elements as the bin has positions.  So a bin with one deleted element
among its positions is rebuilt at its old size, gains one free position, and is full again
after the next insertion.  A caller that keeps a table of `2 ^ k` elements by deleting one for
each that it inserts pays for a rebuild of the whole bin with every insertion
(`ixht_turnover_cost`).  `iht_rebuild` doubles the table from half of its capacity on, and
has no such runs (`iht_rebuild_cost`).  As there, the passes of the rebuild's own loops are
counted (`EbinRel.rebuildCounted`), and not what each `ixht_do_1` does.
-/

namespace IndexedHash

open Loop KeyedList

variable {El G : Type} {key : Key El} {maxPower : Nat}

def ixhtRebuildWork (e : Ebin El G) (indexesSize : Nat) : Nat :=
  e.bin.elsBound - e.elsStart + indexesSize / GROUP_SIZE

/-- The `else` branch of `ixht_perform` on bytes, with the number of passes of its two loops. -/
def ixhtRebuildBinCounted (gops : GroupOps) (order : ByteOrder) (key : Key El) (fuel : Nat)
    (e : Ebin El Buffer) (indexesSize elsSize : Nat) : Option (Ebin El Buffer × Nat) :=
  let ops := byteOps ixhtWidths gops order key.eq
  (emptyTagsCounted ixhtWidths (indexesSize / GROUP_SIZE) e.bin.groups).bind fun groups =>
    ((List.range' e.elsStart (e.bin.elsBound - e.elsStart)).foldlM
      (counted (ixhtReinsert ops key fuel e.bin.deleted))
      ((0, { ixhtRealloc ops e.bin indexesSize elsSize with groups := groups.1 }), groups.2)).map
        fun s => ({ e with elsStart := 0, bin := s.1.2 }, s.2)

theorem EbinRel.rebuildCounted (gops : GroupOps) {order : ByteOrder} {e : Ebin El Buffer}
    {e' : Ebin El (List Group)} (h : EbinRel (Lays ixhtWidths order) e e')
    (fuel indexesSize elsSize : Nat) :
    ixhtRebuildBinCounted gops order key fuel e indexesSize elsSize =
      (ixhtRebuildBin (byteOps ixhtWidths gops order key.eq) key fuel e indexesSize elsSize).map
        fun f => (f, ixhtRebuildWork e' indexesSize) := by
  have hwork : ixhtRebuildWork e' indexesSize =
      indexesSize / GROUP_SIZE + (e.bin.elsBound - e.elsStart) := by
    rw [ixhtRebuildWork, h.bin.elsBound, h.elsStart, Nat.add_comm]
  rw [ixhtRebuildBinCounted, emptyTagsCounted_eq, Option.bind_some, foldlM_counted, Option.map_map,
    List.length_range', ← hwork, ixhtRebuildBin, Option.map_map]
  rfl

def ixhtStepWork (maxPower : Nat) (key : Key El) (t : Ixht El G) (c : Call El) : Nat :=
  (((t.binOf (key.nonzero.hash c.el)).bind fun b => t.bins[b]?).map fun e =>
    if c.action = .insert ∧ ixhtFull e ∧ ixhtSplits maxPower t e = false then
      ixhtRebuildWork e (e.bin.indexesSize ixhtWidths * ixhtFactor t e % 2 ^ 32)
    else 0).getD 0

/-- The calls lead from one table to another and spend `w` on rebuilding. -/
inductive Spends (maxPower : Nat) (ops : BinOps El G) (key : Key El) :
    Ixht El G → List (Call El) → Nat → Ixht El G → Prop where
  | nil (t : Ixht El G) : Spends maxPower ops key t [] 0 t
  | cons {t t₁ t₂ : Ixht El G} {c : Call El} {cs : List (Call El)} {r : Reply (Nat × Nat) El} {w : Nat}
      (hstep : Returns (fun fuel => ixhtStep maxPower ops key fuel t c) (r, t₁))
      (hrest : Spends maxPower ops key t₁ cs w t₂) :
      Spends maxPower ops key t (c :: cs) (ixhtStepWork maxPower key t c + w) t₂

theorem Spends.append {ops : BinOps El G} {t t₁ t₂ : Ixht El G} {cs ds : List (Call El)} {w w' : Nat}
    (h : Spends maxPower ops key t cs w t₁) (h' : Spends maxPower ops key t₁ ds w' t₂) :
    Spends maxPower ops key t (cs ++ ds) (w + w') t₂ := by
  induction h with
  | nil t => rwa [Nat.zero_add]
  | cons hstep _ ih =>
    rw [Nat.add_assoc]
    exact .cons hstep (ih h')

/-! ## The table behind -/

section Follow

variable {ops : BinOps El G} {limit : Nat} {Slots : G → Nat → Nat → List Entry → Prop}
  {t : Ixht El G} {a a' : IdealIxht El}

theorem IxSim.stepWork (h : IxSim Slots t a) (c : Call El) :
    ixhtStepWork maxPower key t c = ixhtStepWork maxPower key a c := by
  unfold ixhtStepWork
  rw [h.binOf]
  cases a.binOf (key.nonzero.hash c.el) with
  | none => rfl
  | some b =>
    rw [Option.bind_some, Option.bind_some]
    have hrel := Forall₂.getElem?_rel h.bins b
    generalize t.bins[b]? = x at hrel
    generalize a.bins[b]? = y at hrel
    cases hrel with
    | none => rfl
    | some hee =>
      simp only [Option.map_some, Option.getD_some, hee.full, h.splits hee, h.factor hee,
        ixhtRebuildWork, Hbin.indexesSize, ← hee.bin.elsBound, hee.elsStart, hee.bin.groupsMask]

/-- What the ideal table spends, the real one spends. -/
theorem Spends.of_ideal (hlaw : ops.Lawful ixhtWidths key.nonzero limit Slots) (hkey : key.Lawful)
    (hpower : PowerOk maxPower) (hlimit : 2 ^ maxPower ≤ limit) {cs : List (Call El)} {w : Nat}
    (hs : Spends maxPower (idealIxhtOps key) key a cs w a') (hcs : ∀ c ∈ cs, c.Ok key)
    (hnum : a.elsNum + cs.length ≤ 2 ^ 31) (h : Follows maxPower key Slots t a) :
    ∃ t', Spends maxPower ops key t cs w t' ∧ Follows maxPower key Slots t' a' := by
  induction hs generalizing t with
  | nil a => exact ⟨t, .nil t, h⟩
  | @cons a a₁ a₂ c cs r w hstep _ ih =>
    rw [List.length_cons] at hnum
    have hc := hcs c List.mem_cons_self
    have hless : a.elsNum < 2 ^ 31 := by omega
    obtain ⟨⟨r', t₁⟩, hreal, -, h₁⟩ := Returns.of_rel (ixhtStep_mono hlaw.mono t c)
      (fun fuel hfuel => h.step hlaw hkey hpower hlimit hless hc hfuel) hstep
    obtain ⟨fuel, hfuel⟩ := hstep.exists_some
    have hmore := h.ok.step_elsNum_le hkey hpower hless hc hfuel
    obtain ⟨t', hrest, h'⟩ := ih (fun d hd => hcs d (List.mem_cons_of_mem c hd)) (by omega) h₁
    refine ⟨t', ?_, h'⟩
    rw [← h.sim.stepWork]
    exact .cons hreal hrest

end Follow

/-! ## One bin -/

structure Sole (maxPower : Nat) (key : Key El) (size : Nat) (a : IdealIxht El) (l : List El)
    (used : Nat) : Prop where
  ok : IxOk maxPower key a
  count : a.elsNum = l.length
  bin : ∃ e, a.bins = [e] ∧ e.bin.live = l ∧ e.bin.elsBound = used ∧ e.bin.elsSize = size

section Sole

variable {size used : Nat} {a p : IdealIxht El} {l : List El}

theorem Sole.binOf (h : Sole maxPower key size a l used) (hash : BitVec 64) :
    a.binOf hash = some 0 := by
  obtain ⟨e, he, -⟩ := h.bin
  obtain ⟨b, f, hb, hf⟩ := h.ok.shape.binOf_some hash
  obtain ⟨hlt, -⟩ := List.getElem?_eq_some_iff.mp hf
  rw [he, List.length_singleton, Nat.lt_one_iff] at hlt
  rw [hb, hlt]

theorem Sole.size_le (hpower : PowerOk maxPower) (h : Sole maxPower key size a l used) :
    2 * size ≤ 2 ^ maxPower ∧ used ≤ size ∧ l.length ≤ used := by
  obtain ⟨e, he, rfl, rfl, rfl⟩ := h.bin
  have hok := h.ok.bins e (by rw [he]; exact List.mem_singleton_self e)
  have hcap := hok.capacity_lt hpower
  refine ⟨?_, ?_, e.bin.length_live_le⟩
  · rw [Hbin.elsSize]
    omega
  · exact hok.dense.bound

/-- Once `ixht_perform` has come to its last line. -/
theorem Sole.call (hkey : key.Lawful) (hpower : PowerOk maxPower) (hp : Sole maxPower key size p l used)
    {c : Call El} (hc : c.Ok key) (hroom : c.action = .insert → used < size)
    (hprep : ∀ fuel, ixhtPrepare maxPower (idealIxhtOps key) key fuel a (key.nonzero.hash c.el)
      c.action = some (p, 0)) :
    ∃ r a' used', Returns (fun fuel => ixhtStep maxPower (idealIxhtOps key) key fuel a c) (r, a') ∧
      Sole maxPower key size a' (refStep key.eq l c).2 used' ∧
      (used' = used ∨ c.action = .insert ∧ used' = used + 1) := by
  have hlimit := hpower.two_pow_le
  have hle := hp.size_le hpower
  have hcount := hp.count
  obtain ⟨e, he, rfl, rfl, rfl⟩ := hp.bin
  have hi : p.bins[0]? = some e := by rw [he, List.getElem?_cons_zero]
  obtain ⟨o, bin, hstepped, hstep⟩ := step_of_prepare hkey hp.ok (by omega) hi hroom hc (hprep 0)
  have hlive : bin.live = (refStep key.eq e.bin.live c).2 := hstepped.live
  have hnum := hstepped.count
  refine ⟨_, _, bin.elsBound,
    (ixhtStep_mono (idealOps_lawful ixhtWidths key.nonzero 0).mono a c).returns hstep, ⟨?_, ?_, ?_⟩,
    hstepped.bound.imp_right fun h => ⟨h.1.1, h.2⟩⟩
  · exact hp.ok.stepped hi hstepped
  · rw [← hlive]
    show o.elsNum = bin.live.length
    omega
  · refine ⟨{ e with bin := bin }, ?_, hlive, rfl, ?_⟩
    · rw [he, List.set_cons_zero]
    · rw [Hbin.elsSize, Hbin.elsSize, Hbin.numGroups, Hbin.numGroups, hstepped.mask]

/-- Whether the bin is full, and whether it would be split or grow. -/
theorem Sole.tests (hpower : PowerOk maxPower) (h : Sole maxPower key size a l used)
    {e : Ebin El (List Entry)} (he : a.bins = [e]) :
    EbinOk key (maxPower - 3) e ∧ (ixhtFull e = true ↔ used = size) ∧
      (l.length < size → ixhtSplits maxPower a e = false ∧ ixhtFactor a e = 1) := by
  have hlog : maxPower - 3 ≤ 28 := Nat.le_trans (Nat.sub_le _ _) (Nat.le_trans hpower.le (by decide))
  have hsize := h.size_le hpower
  have hlimit := hpower.two_pow_le
  obtain ⟨f, hf, rfl, rfl, rfl⟩ := h.bin
  obtain rfl : e = f := List.singleton_inj.mp (he.symm.trans hf)
  have hok := h.ok.bins e (by rw [he]; exact List.mem_singleton_self e)
  refine ⟨hok, ?_, fun hlt => ?_⟩
  · rw [ixhtFull, decide_eq_true_eq, hok.halfIndexes hlog]
  · have hgrow : ixhtGrow a e = false := by
      rw [ixhtGrow, decide_eq_false_iff_not, hok.indexesSize hlog, h.count]
      rw [Hbin.elsSize] at hlt hsize
      omega
    rw [ixhtSplits, ixhtFactor, hgrow]
    exact ⟨rfl, rfl⟩

/-- A call that does not insert into a full bin. -/
theorem Sole.quiet (hpower : PowerOk maxPower) (h : Sole maxPower key size a l used) {c : Call El}
    (hc : ¬ (c.action = .insert ∧ used = size)) :
    (∀ fuel, ixhtPrepare maxPower (idealIxhtOps key) key fuel a (key.nonzero.hash c.el) c.action =
      some (a, 0)) ∧ ixhtStepWork maxPower key a c = 0 := by
  obtain ⟨e, he, -⟩ := h.bin
  obtain ⟨-, hfull, -⟩ := h.tests hpower he
  have hnot : ¬ (c.action = .insert ∧ ixhtFull e = true) := by rwa [hfull]
  have hi : a.bins[0]? = some e := by rw [he, List.getElem?_cons_zero]
  constructor
  · intro fuel
    simp only [ixhtPrepare, h.binOf, hi, Option.bind_some, if_neg hnot]
  · have hskip : ¬ (c.action = .insert ∧ ixhtFull e = true ∧ ixhtSplits maxPower a e = false) :=
      fun hall => hnot ⟨hall.1, hall.2.1⟩
    simp only [ixhtStepWork, h.binOf, hi, Option.bind_some, Option.map_some, Option.getD_some,
      if_neg hskip]

/-- An insertion into a full bin with a deleted element: the bin is rebuilt at its size. -/
theorem Sole.rebuild (hkey : key.Lawful) (hpower : PowerOk maxPower)
    (h : Sole maxPower key size a l size) (hlt : l.length < size) (c : Call El)
    (hc : c.action = .insert) :
    ∃ p, (∀ fuel, ixhtPrepare maxPower (idealIxhtOps key) key fuel a (key.nonzero.hash c.el) c.action =
      some (p, 0)) ∧ Sole maxPower key size p l l.length ∧
      ixhtStepWork maxPower key a c = size + size / 4 := by
  have hsize := h.size_le hpower
  have hlimit := hpower.two_pow_le
  have hlog : maxPower - 3 ≤ 28 := Nat.le_trans (Nat.sub_le _ _) (Nat.le_trans hpower.le (by decide))
  have hbin := h.binOf (key.nonzero.hash c.el)
  obtain ⟨e, he, rfl, hbound, rfl⟩ := h.bin
  obtain ⟨hok, hfull, htests⟩ := h.tests hpower he
  obtain ⟨hsplits, hfactor⟩ := htests hlt
  have hfull := hfull.mpr rfl
  have hi : a.bins[0]? = some e := by rw [he, List.getElem?_cons_zero]
  obtain ⟨j, hone, hj, hn⟩ := hok.size
  rw [Hbin.elsSize, hn] at hsize hlt
  obtain ⟨e', he', hhalf⟩ := rebuildBin_ideal hkey hok (Nat.le_of_eq hn) ⟨j, Nat.le_trans hj hlog, rfl⟩
  have hsizes : e.bin.indexesSize ixhtWidths * 1 % 2 ^ 32 = 8 * 2 ^ j ∧
      e.bin.halfIndexes * 1 % 2 ^ 32 = 4 * 2 ^ j := by
    rw [hok.indexesSize hlog, hok.halfIndexes hlog, Hbin.elsSize, hn]
    omega
  have hprepared : Prepared maxPower key a (key.nonzero.hash c.el) c.action
      { a with bins := a.bins.set 0 e' } 0 := .rebuild hc hbin hi hhalf hone hj hlt
  refine ⟨{ a with bins := a.bins.set 0 e' }, fun fuel => ?_, ⟨(hprepared.ok h.ok).1, h.count, ?_⟩, ?_⟩
  · simp only [ixhtPrepare, hbin, hi, Option.bind_some, hc, hfull, hsplits, and_self, if_true,
      Bool.false_eq_true, if_false, hfactor, hsizes, he', Option.map_some]
  · refine ⟨e', ?_, hhalf.live, hhalf.bound, ?_⟩
    · rw [he, List.set_cons_zero]
    · rw [Hbin.elsSize, Hbin.elsSize, hhalf.groups, hn]
  · simp only [ixhtStepWork, hbin, hi, Option.bind_some, Option.map_some, Option.getD_some, hc, hfull,
      hsplits, and_self, if_true, hfactor, hsizes, ixhtRebuildWork, hbound, hok.start, Hbin.elsSize,
      GROUP_SIZE]
    omega

/-- A new element goes to the next position. -/
theorem Sole.insert (hkey : key.Lawful) (hpower : PowerOk maxPower)
    (hp : Sole maxPower key size p l l.length) (hlt : l.length < size) {y : El}
    (hy : lookup key.eq l y = none)
    (hprep : ∀ fuel, ixhtPrepare maxPower (idealIxhtOps key) key fuel a (key.nonzero.hash y)
      .insert = some (p, 0)) :
    ∃ r a', Returns (fun fuel => ixhtStep maxPower (idealIxhtOps key) key fuel a (Call.plain .insert y))
        (r, a') ∧ Sole maxPower key size a' (l ++ [y]) (l ++ [y]).length := by
  obtain ⟨r, a', used, hstep, ha', hused⟩ := hp.call hkey hpower (Call.plain_ok hkey .insert y)
    (fun _ => hlt) hprep
  rw [refStep_insert hy] at ha'
  -- the used positions are as many as the elements, at least
  have hle := (ha'.size_le hpower).2.2
  have heq : used = (l ++ [y]).length := by
    rw [List.length_append, List.length_singleton] at hle ⊢
    omega
  exact ⟨r, a', hstep, heq ▸ ha'⟩

/-- Filling the bin costs nothing. -/
theorem Sole.fill (hkey : key.Lawful) (hpower : PowerOk maxPower) {ys : List El}
    (h : Sole maxPower key size a l l.length) (hle : (l ++ ys).length ≤ size)
    (hapart : Apart key.eq (l ++ ys)) :
    ∃ a', Spends maxPower (idealIxhtOps key) key a (plainCalls (ys.map fun y => (Action.insert, y))) 0
        a' ∧ Sole maxPower key size a' (l ++ ys) (l ++ ys).length := by
  induction ys generalizing a l with
  | nil =>
    rw [List.append_nil]
    exact ⟨a, .nil a, h⟩
  | cons y ys ih =>
    rw [List.append_cons] at hle hapart ⊢
    have hlt : l.length < size := by
      rw [List.length_append, List.length_append, List.length_singleton] at hle
      omega
    have hfresh : lookup key.eq l y = none := lookup_eq_none fun z hz =>
      (List.pairwise_append.mp (List.pairwise_append.mp hapart).1).2.2 z hz y (List.mem_singleton_self y)
    obtain ⟨hprep, hwork⟩ := h.quiet (c := Call.plain .insert y) hpower fun hc => by
      have := hc.2
      omega
    obtain ⟨r, a₁, hstep, h₁⟩ := h.insert hkey hpower hlt hfresh hprep
    obtain ⟨a', hrest, h'⟩ := ih h₁ hle hapart
    have hall := Spends.cons hstep hrest
    rw [hwork] at hall
    exact ⟨a', hall, h'⟩

/-- One round on a full bin: an element is deleted and a new one inserted. -/
theorem Sole.round (hkey : key.Lawful) (hpower : PowerOk maxPower) (h : Sole maxPower key size a l size)
    (hfull : l.length = size) {x y z : El} (hx : lookup key.eq l x = some z)
    (hy : lookup key.eq (remove key.eq l x) y = none) :
    ∃ a', Spends maxPower (idealIxhtOps key) key a (plainCalls [(.delete, x), (.insert, y)])
        (size + size / 4) a' ∧ Sole maxPower key size a' (remove key.eq l x ++ [y]) size ∧
      (remove key.eq l x ++ [y]).length = size := by
  have hapart : Apart key.eq l := by
    obtain ⟨e, he, rfl, -⟩ := h.bin
    exact (h.tests hpower he).1.dense.apart
  have hremoved := length_remove hkey.equivalence hapart hx
  have hlength : (remove key.eq l x ++ [y]).length = size := by
    rw [List.length_append, List.length_singleton]
    omega
  -- the deletion leaves all positions used
  obtain ⟨hprep, hwork⟩ := h.quiet (c := Call.plain .delete x) hpower fun hc => by cases hc.1
  obtain ⟨r, a₁, used, hstep, h₁, hused⟩ := h.call hkey hpower (Call.plain_ok hkey .delete x)
    (fun hins => by cases hins) hprep
  have hlist : (refStep key.eq l (Call.plain .delete x)).2 = remove key.eq l x := by
    simp only [refStep, Call.plain, hx, if_true]
  rw [hlist] at h₁
  obtain rfl : used = size := by
    rcases hused with hused | ⟨hins, -⟩
    · exact hused
    · cases hins
  -- so that the insertion rebuilds
  obtain ⟨p, hprep', hp, hwork'⟩ := h₁.rebuild hkey hpower (by omega) (Call.plain .insert y) rfl
  obtain ⟨r', a₂, hstep', h₂⟩ := hp.insert hkey hpower (by omega) hy hprep'
  have hall := Spends.cons hstep (.cons hstep' (.nil a₂))
  rw [hwork, hwork', Nat.zero_add, Nat.add_zero] at hall
  rw [hlength] at h₂
  exact ⟨a₂, hall, h₂, hlength⟩

end Sole

/-! ## Turnover -/

/-- Each round deletes an element that is there and inserts one that is not. -/
def Turnover (key : Key El) : List El → List (El × El) → Prop
  | _, [] => True
  | l, (x, y) :: rounds =>
      (lookup key.eq l x).isSome ∧ (lookup key.eq (remove key.eq l x) y).isNone ∧
        Turnover key (remove key.eq l x ++ [y]) rounds

def turnoverCalls (rounds : List (El × El)) : List (Call El) :=
  rounds.flatMap fun r => plainCalls [(.delete, r.1), (.insert, r.2)]

theorem length_turnoverCalls (rounds : List (El × El)) :
    (turnoverCalls rounds).length = rounds.length * 2 := by
  rw [turnoverCalls, List.length_flatMap]
  simp only [plainCalls, List.length_map, List.length_cons, List.length_nil, List.map_const',
    List.sum_replicate_nat]

theorem Sole.turnover (hkey : key.Lawful) (hpower : PowerOk maxPower) {size : Nat} {a : IdealIxht El}
    {l : List El} (h : Sole maxPower key size a l size) (hfull : l.length = size)
    {rounds : List (El × El)} (hrounds : Turnover key l rounds) :
    ∃ a', Spends maxPower (idealIxhtOps key) key a (turnoverCalls rounds)
      (rounds.length * (size + size / 4)) a' := by
  induction rounds generalizing a l with
  | nil =>
    rw [List.length_nil, Nat.zero_mul]
    exact ⟨a, .nil a⟩
  | cons r rounds ih =>
    obtain ⟨hx, hy, hrest⟩ := hrounds
    obtain ⟨z, hz⟩ := Option.isSome_iff_exists.mp hx
    obtain ⟨a₁, hround, h₁, hfull₁⟩ := h.round hkey hpower hfull hz (Option.isNone_iff_eq_none.mp hy)
    obtain ⟨a', hall⟩ := ih h₁ hfull₁ hrest
    have hboth := hround.append hall
    rw [List.length_cons, Nat.add_mul, Nat.one_mul, Nat.add_comm (rounds.length * _)]
    exact ⟨a', hboth⟩

/-- A table for `2 ^ k` elements is created with one bin of that size. -/
theorem ixhtCreate_pow (hpower : PowerOk maxPower) (ops : BinOps El G) {k : Nat} (hpos : 1 ≤ k)
    (hlt : k < maxPower) :
    Returns (fun fuel => ixhtCreate maxPower ops fuel (2 ^ k)) (ixhtOfParams ops ⟨1, 0, 2 ^ k⟩) := by
  have hle := hpower.le
  obtain ⟨t, ht⟩ := ixhtCreate_returns (Nat.le_trans hpos (Nat.le_of_lt hlt)) ops
    (Nat.pow_le_pow_right (by decide) (show k ≤ 31 by omega))
  obtain ⟨n, hn⟩ := ht.exists_some
  obtain ⟨a, j, -, hj, -, henough, hleast, rfl⟩ := ixhtCreate_params hpower hn
  have hka : k ≤ a := (Nat.pow_le_pow_iff_right (by decide)).mp henough
  have hak : a ≤ k := by
    rcases hleast with rfl | hleast
    · exact hpos
    · rw [← Nat.pow_succ', Nat.pow_lt_pow_iff_right (by decide)] at hleast
      exact Nat.le_of_lt_succ hleast
  obtain rfl := Nat.le_antisymm hka hak
  obtain rfl : j = 0 := by omega
  exact ht

/-- A table for `2 ^ k` elements that is filled and then kept at that number, by deleting an
    element for each that is inserted, is rebuilt with every insertion, at the cost of reading
    its `2 ^ k` positions and clearing its groups. -/
theorem ixht_turnover_cost (hkey : key.Lawful) (hpower : PowerOk maxPower) (target : Target) {k : Nat}
    (hlow : 3 ≤ k) (hhigh : k < maxPower) {xs : List El} (hlen : xs.length = 2 ^ k)
    (hapart : Apart key.eq xs) {rounds : List (El × El)} (hrounds : Turnover key xs rounds)
    (hfew : rounds.length < 2 ^ 29) :
    ∃ t₀ t, Returns (fun fuel => ixhtCreate maxPower (ixhtOps key target) fuel (2 ^ k)) t₀ ∧
      Spends maxPower (ixhtOps key target) key t₀
        (plainCalls (xs.map fun x => (Action.insert, x)) ++ turnoverCalls rounds)
        (rounds.length * (2 ^ k + 2 ^ k / 4)) t := by
  have hlaw := ixhtOps_lawful hkey target
  have hlimit := hpower.two_pow_le
  have hpow : 2 ^ k ≤ 2 ^ maxPower := Nat.pow_le_pow_right (by decide) (Nat.le_of_lt hhigh)
  obtain ⟨t₀, a₀, ht₀, ha₀, h₀, hzero, hempty⟩ := ixhtCreate_follows hlaw hkey hpower
    (Nat.le_trans hpow (Nat.le_trans hlimit (by decide)))
  obtain rfl := ha₀.unique (ixhtCreate_pow hpower (idealIxhtOps key) (by omega) hhigh)
  -- the empty table, with its bin
  have hsole : Sole maxPower key (2 ^ k)
      (ixhtOfParams (idealIxhtOps key) ⟨1, 0, 2 ^ k⟩) [] 0 := by
    obtain ⟨j, rfl⟩ : ∃ j, k = 2 + j := ⟨k - 2, by omega⟩
    refine ⟨h₀.ok, hzero, _, rfl, ?_, rfl, ?_⟩
    · rwa [Ixht.contents, ixhtOfParams, List.range_one, List.map_singleton, List.flatMap_singleton]
        at hempty
    · have htwo : 2 ^ 1 ≤ 2 ^ j := Nat.pow_le_pow_right (by decide) (by omega)
      rw [Nat.pow_add] at hpow ⊢
      have hsized := ixhtCreateBin_sized (idealIxhtOps key) (n := 2 ^ j) htwo (by omega)
      exact congrArg (4 * ·) hsized.groups
  have hfits : ([] ++ xs).length ≤ 2 ^ k := Nat.le_of_eq hlen
  obtain ⟨a₁, hfill, h₁⟩ := hsole.fill hkey hpower hfits hapart
  rw [List.nil_append, hlen] at h₁
  obtain ⟨a₂, hturn⟩ := h₁.turnover hkey hpower hlen hrounds
  have hall := hfill.append hturn
  rw [Nat.zero_add] at hall
  have hcalls : ∀ c ∈ plainCalls (xs.map fun x => (Action.insert, x)) ++ turnoverCalls rounds,
      c.Ok key := by
    intro c hc
    rcases List.mem_append.mp hc with hc | hc
    · exact plainCalls_ok hkey _ c hc
    · obtain ⟨r, -, hr⟩ := List.mem_flatMap.mp hc
      exact plainCalls_ok hkey _ c hr
  have hnum : (ixhtOfParams (idealIxhtOps key) ⟨1, 0, 2 ^ k⟩).elsNum +
      (plainCalls (xs.map fun x => (Action.insert, x)) ++ turnoverCalls rounds).length ≤ 2 ^ 31 := by
    rw [hzero, List.length_append, length_turnoverCalls, plainCalls, List.length_map, List.length_map,
      hlen]
    omega
  obtain ⟨t, hspends, -⟩ := hall.of_ideal hlaw hkey hpower (Nat.le_trans hlimit (by decide)) hcalls
    hnum h₀
  exact ⟨t₀, t, ht₀, hspends⟩

/-- Eight elements, and a window that moves on by three. -/
theorem ixht_turnover_cost_window :
    ∃ t₀ t, Returns (fun fuel => ixhtCreate IXHT_MAX_BIN_SIZE_POWER (ixhtOps identityKey .neon) fuel 8)
        t₀ ∧
      Spends IXHT_MAX_BIN_SIZE_POWER (ixhtOps identityKey .neon) identityKey t₀
        (plainCalls ([1, 2, 3, 4, 5, 6, 7, 8].map fun x => (Action.insert, x)) ++
          turnoverCalls [(1, 9), (2, 10), (3, 11)]) 30 t := by
  have hapart : Apart identityKey.eq [1, 2, 3, 4, 5, 6, 7, 8] := by
    unfold Apart
    decide
  have hrounds : Turnover identityKey [1, 2, 3, 4, 5, 6, 7, 8] [(1, 9), (2, 10), (3, 11)] :=
    ⟨rfl, rfl, rfl, rfl, rfl, rfl, trivial⟩
  exact ixht_turnover_cost identityKey_lawful powerOk_source .neon (Nat.le_refl 3) (by decide) rfl hapart
    hrounds (by decide)

end IndexedHash
