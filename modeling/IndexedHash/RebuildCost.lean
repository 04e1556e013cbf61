import IndexedHash.ByteGroups
import IndexedHash.RebuildSpacing

/-!
# What the rebuilds of a run cost together

`iht_rebuild` reads every used position of the old bin and clears every group of the new one,
so a single INSERT may take as long as the table is large.  Over a run this evens out.  The
potential of a table is how far the used positions are past half of the capacity, and one of
two things happens in a call: an insertion of a new element adds two to it, or a rebuild
finds it at one less than the capacity and leaves nothing of it.  So the rebuilds of a run
pay for themselves with at most four steps for each new element (`iht_rebuild_cost`), for
every interleaving with deletions, lookups and insertions of elements that are present.

What is counted are the passes of the two loops of `iht_rebuild` itself
(`IhtRel.rebuildCounted`), and not the probing and the comparisons of the `iht_do_1` that
each pass calls.
-/

namespace IndexedHash

open Loop

variable {El : Type} {key : Key El} {target : Target}

/-! ## The loops -/

/-- The passes of the loop of `iht_rebuild`, and the groups it clears before. -/
def rebuildWork {G : Type} (t : Iht El G) : Nat := t.bin.elsBound + ihtRebuildSize t / GROUP_SIZE

def emptyTagsCounted (w : Widths) (numGroups : Nat) (bytes : Buffer) : Option (Buffer × Nat) :=
  (List.range numGroups).foldlM
    (counted fun bytes i => bytes.memset? (groupBase w i) EMPTY_H7 GROUP_SIZE)
    (bytes.realloc (numGroups * w.groupBytes), 0)

theorem emptyTagsCounted_eq (w : Widths) (numGroups : Nat) (bytes : Buffer) :
    emptyTagsCounted w numGroups bytes =
      some ((emptyTags w numGroups (bytes.realloc (numGroups * w.groupBytes))).getD [], numGroups) := by
  obtain ⟨bytes', hempty, -⟩ := emptyTags_realloc w numGroups bytes
  rw [emptyTagsCounted, foldlM_counted, ← emptyTags, hempty, Option.map_some, Option.getD_some,
    List.length_range, Nat.zero_add]

/-- `iht_rebuild` on bytes, with the number of passes of its two loops. -/
def ihtRebuildCounted (gops : GroupOps) (order : ByteOrder) (key : Key El) (fuel : Nat)
    (t : Iht El Buffer) : Option (Iht El Buffer × Nat) :=
  let ops := byteOps ihtWidths gops order key.eq
  (emptyTagsCounted ihtWidths (ihtRebuildSize t / GROUP_SIZE) []).bind fun groups =>
    ((List.range t.bin.elsBound).foldlM (counted (ihtReinsert ops key fuel t.bin))
      ((t.elsNum, { ihtAllocBin ops (ihtRebuildSize t) with groups := groups.1 }), groups.2)).map
        fun s => ({ elsNum := t.elsNum, bin := s.1.2 }, s.2)

/-- On bytes that hold the groups of a table, `iht_rebuild` does what it does without the
    counter, and takes the passes that the formula has for the table. -/
theorem IhtRel.rebuildCounted (gops : GroupOps) {order : ByteOrder} {t : Iht El Buffer}
    {t' : Iht El (List Group)} (h : IhtRel (Lays ihtWidths order) t t') (fuel : Nat) :
    ihtRebuildCounted gops order key fuel t =
      (ihtRebuild (byteOps ihtWidths gops order key.eq) key fuel t).map
        fun s => (s, rebuildWork t') := by
  have hwork : rebuildWork t' = ihtRebuildSize t / GROUP_SIZE + t.bin.elsBound := by
    simp only [rebuildWork, ihtRebuildSize, h.bin.elsBound, h.bin.indexesSize, h.elsNum, Nat.add_comm]
  rw [ihtRebuildCounted, emptyTagsCounted_eq, Option.bind_some, foldlM_counted, Option.map_map,
    List.length_range, ← hwork, ihtRebuild, Option.map_map]
  rfl

/-! ## A call -/

def stepWork {G : Type} (t : Iht El G) (c : Call El) : Nat :=
  if c.action = .insert ∧ ihtFull t then rebuildWork t else 0

/-- Used positions beyond half of the capacity, twice. -/
def pressure {G : Type} (t : Iht El G) : Nat := 2 * t.bin.elsBound + 1 - t.bin.elsSize

section Step

variable {t t' : Iht El (List Group)} {c : Call El} {fuel : Nat} {r : Reply Nat El}

/-- A full table has as much pressure as its rebuild has passes. -/
theorem rebuildWork_le (h : Counted key t) (hprobe : Probeable ihtWidths t.bin) (hfits : t.Fits)
    (hfull : ihtFull t = true) : rebuildWork t ≤ 2 * pressure t := by
  have hroom := h.room
  have hindexes := Hbin.indexesSize_eq hprobe.small
  have hpos : 0 < t.bin.numGroups := Nat.succ_pos _
  rw [ihtFull_eq hprobe.small, decide_eq_true_iff] at hfull
  unfold Iht.Fits IHT_GROUP_BYTES at hfits
  have hsize : ihtRebuildSize t ≤ 2 * (8 * t.bin.numGroups) := by
    simp only [ihtRebuildSize, hindexes]
    split
    · exact Nat.le_trans (Nat.mod_le _ _) (by omega)
    · omega
  unfold rebuildWork pressure GROUP_SIZE
  unfold Hbin.elsSize at hroom hfull ⊢
  omega

theorem Roomy.pressure_eq {p : Iht El (List Group)} (h : Roomy key p) : pressure p = 0 := by
  have hroom := h.room
  unfold pressure
  unfold Hbin.elsSize at hroom ⊢
  omega

/-- A call pays for its rebuild out of the pressure. -/
theorem stepWork_add_pressure_le (hkey : key.Lawful)
    (h : IhtStates (ihtOps key target) key Iht.InRange t)
    (hstep : ihtStep (ihtOps key target) key fuel t c = some (r, t')) :
    stepWork t c + 2 * pressure t' ≤ 2 * pressure t + 4 * insertions c.action r.found := by
  have hprobe := (h.imp fun _ hr => hr.1).reachable.probeable.1
  have hcounted := h.counted hkey
  obtain ⟨p, o, hp, hdo, hwritten, -, rfl⟩ := ihtStep_inv hstep
  have hprobe' := (hcounted.prepare hkey hprobe h.holds hp).1
  obtain ⟨-, hmask, hbound⟩ := (hprobe'.do1_effect target.lawful hdo).written hprobe' hwritten
  -- `iht_do_1` adds at most one position to the bin it works on
  have hadd : pressure t' ≤ pressure p + 2 * insertions c.action o.found := by
    have hsize : t'.bin.elsSize = p.bin.elsSize := by
      rw [Hbin.elsSize, Hbin.elsSize, Hbin.numGroups, Hbin.numGroups, hmask]
    unfold pressure
    rw [hsize, hbound]
    omega
  by_cases hrebuild : c.action = .insert ∧ ihtFull t = true
  · rw [ihtPrepare, if_pos hrebuild] at hp
    have hwork := rebuildWork_le hcounted hprobe h.holds.1 hrebuild.2
    have hzero := (hcounted.rebuild hkey hprobe h.holds hp).pressure_eq
    rw [stepWork, if_pos hrebuild]
    show _ ≤ _ + 4 * insertions c.action o.found
    omega
  · rw [ihtPrepare_same hrebuild, Option.some.injEq] at hp
    subst hp
    rw [stepWork, if_neg hrebuild]
    show _ ≤ _ + 4 * insertions c.action o.found
    omega

end Step

/-! ## A run -/

def runWork {G : Type} (ops : BinOps El G) (key : Key El) (fuel : Nat) :
    Iht El G → List (Call El) → Nat
  | _, [] => 0
  | t, c :: cs =>
      stepWork t c + ((ihtStep ops key fuel t c).map fun s => runWork ops key fuel s.2 cs).getD 0

def newElements : List (Call El) → List (Reply Nat El) → Nat
  | c :: cs, r :: rs => insertions c.action r.found + newElements cs rs
  | _, _ => 0

theorem runWork_add_pressure_le (hkey : key.Lawful) {fuel : Nat} {calls : List (Call El)}
    {t t' : Iht El (List Group)} {rs : List (Reply Nat El)}
    (h : IhtStates (ihtOps key target) key Iht.InRange t) (hcalls : ∀ c ∈ calls, c.Ok key)
    (hrun : ihtRun (ihtOps key target) key fuel t calls = some (rs, t'))
    (hrange : ∀ n s, ihtRun (ihtOps key target) key fuel t (calls.take n) = some s → s.2.InRange) :
    runWork (ihtOps key target) key fuel t calls + 2 * pressure t' ≤
      2 * pressure t + 4 * newElements calls rs := by
  induction calls generalizing t rs with
  | nil =>
    cases hrun
    exact Nat.le_of_eq (Nat.zero_add _)
  | cons c cs ih =>
    obtain ⟨⟨r, t₁⟩, hstep, hrest⟩ := Option.bind_eq_some_iff.mp hrun
    obtain ⟨⟨rs', t₂⟩, hrun', heq⟩ := Option.map_eq_some_iff.mp hrest
    rw [Prod.mk.injEq] at heq
    obtain ⟨rfl, rfl⟩ := heq
    have hone : ∀ cs', ihtRun (ihtOps key target) key fuel t (c :: cs') =
        (ihtRun (ihtOps key target) key fuel t₁ cs').map fun rest => (r :: rest.1, rest.2) := by
      intro cs'
      rw [ihtRun, runCalls, hstep]
      rfl
    have hin₁ : t₁.InRange := hrange 1 ([r], t₁) (hone [])
    have hle := stepWork_add_pressure_le hkey h hstep
    have hrest := ih (h.call (hcalls c List.mem_cons_self) hstep hin₁)
      (fun d hd => hcalls d (List.mem_cons_of_mem c hd)) hrun' fun n s hs => by
        have hcons := hone (cs.take n)
        rw [hs] at hcons
        exact hrange (n + 1) (r :: s.1, s.2) hcons
    rw [runWork, hstep, newElements, Option.map_some, Option.getD_some]
    dsimp only at hrest ⊢
    omega

/-- All rebuilds of a run together read at most as many positions and clear at most as many
    groups as four times the number of new elements that the run inserted. -/
theorem iht_rebuild_cost (hkey : key.Lawful) (target : Target) {fuel minSize : Nat}
    {calls : List (Call El)} (hcalls : ∀ c ∈ calls, c.Ok key) {t₀ t : Iht El (List Group)}
    {rs : List (Reply Nat El)} (hcreate : ihtCreate (ihtOps key target) fuel minSize = some t₀)
    (hrun : ihtRun (ihtOps key target) key fuel t₀ calls = some (rs, t))
    (hrange : ∀ n s, ihtRun (ihtOps key target) key fuel t₀ (calls.take n) = some s → s.2.InRange) :
    runWork (ihtOps key target) key fuel t₀ calls ≤ 4 * newElements calls rs := by
  have h₀ : IhtStates (ihtOps key target) key Iht.InRange t₀ :=
    IhtStates.create hcreate (hrange 0 ([], t₀) rfl)
  have hzero : pressure t₀ = 0 := by
    obtain ⟨size, hsize, rfl⟩ := Option.map_eq_some_iff.mp hcreate
    have hpos : 0 < Hbin.numGroups (ihtAllocBin (ihtOps key target) size) := Nat.succ_pos _
    show 2 * 0 + 1 - 4 * Hbin.numGroups (ihtAllocBin (ihtOps key target) size) = 0
    omega
  have hle := runWork_add_pressure_le hkey h₀ hcalls hrun hrange
  omega

def sixCalls : List (Call (BitVec 64)) :=
  plainCalls (([5, 6, 7, 8, 9].map fun x => (Action.insert, x)) ++ [(Action.delete, 6)])

theorem iht_rebuild_cost_six :
    ∃ t₀ rs t, ihtCreate (ihtOps identityKey .sse2) 8 4 = some t₀ ∧
      ihtRun (ihtOps identityKey .sse2) identityKey 8 t₀ sixCalls = some (rs, t) ∧
      newElements sixCalls rs = 5 ∧
      0 < runWork (ihtOps identityKey .sse2) identityKey 8 t₀ sixCalls ∧
      runWork (ihtOps identityKey .sse2) identityKey 8 t₀ sixCalls ≤ 4 * 5 := by
  have hnew : (ihtRun (ihtOps identityKey .sse2) identityKey 8 (sampleTable (ihtOps identityKey .sse2))
      sixCalls).map (fun s => newElements sixCalls s.1) = some 5 := by decide +kernel
  obtain ⟨⟨rs, t⟩, hrun, hfive⟩ := Option.map_eq_some_iff.mp hnew
  have hranges : sixCalls.inits.all (fun pre => (ihtRun (ihtOps identityKey .sse2) identityKey 8
      (sampleTable (ihtOps identityKey .sse2)) pre).all fun s =>
        s.2.bin.numGroups * IHT_GROUP_BYTES < 2 ^ 64 ∧ s.2.bin.elsBound ≤ 2 ^ 32) = true := by
    decide +kernel
  have hcreate : ihtCreate (ihtOps identityKey .sse2) 8 4 =
    some (sampleTable (ihtOps identityKey .sse2)) := rfl
  have hok : ∀ c ∈ sixCalls, c.Ok identityKey := plainCalls_ok identityKey_lawful _
  have hcost := iht_rebuild_cost identityKey_lawful .sse2 hok hcreate hrun fun n s hs => by
    have hall := List.all_eq_true.mp hranges _
      ((List.mem_inits _ sixCalls).mpr (List.take_prefix n sixCalls))
    rw [hs] at hall
    rwa [Option.all_some, decide_eq_true_iff] at hall
  rw [show newElements sixCalls rs = 5 from hfive] at hcost
  exact ⟨_, rs, t, hcreate, hrun, hfive, by decide +kernel, hcost⟩

end IndexedHash
