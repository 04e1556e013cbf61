import Mathlib.Tactic.Common
import IndexedHash.Scanning
import IndexedHash.Directory

/-!
# The forward iterators of `ihtab.hpp` and `ixhtab.hpp`

Besides the C iterators, which carry a pointer that is null at the end, the C++ classes
have a `struct iterator` for range-for loops.  It carries positions only, and a loop over it
ends when it compares equal to `end ()`.  Its `advance` has no pointer to reset, so after
the last element it has to come to exactly the numbers that `end ()` has: `els_bound`
in `ihtab.hpp`, and bin `bins_num` with `el_idx` 0 in `ixhtab.hpp`.

The loops here collect each position they dereference with the element there.
-/

namespace IndexedHash

open Loop Cursor

variable {El G : Type}

/-! ## `ihtab.hpp` -/

/-- `iht::ihtab::iterator`, without the pointer to the table -/
structure IhtForward where
  elIdx : Nat
deriving DecidableEq

/-- `iterator::advance` -/
def ihtForwardAdvance (fuel : Nat) (t : Iht El G) (elIdx : Nat) : Option IhtForward :=
  (t.bin.advance ihtWidths fuel elIdx).map fun s => ⟨s.1⟩

/-- `begin ()` -/
def ihtForwardBegin (fuel : Nat) (t : Iht El G) : Option IhtForward := ihtForwardAdvance fuel t 0

/-- `end ()` -/
def ihtForwardEnd (t : Iht El G) : IhtForward := ⟨t.bin.elsBound⟩

/-- `operator++` -/
def ihtForwardNext (fuel : Nat) (t : Iht El G) (it : IhtForward) : Option IhtForward :=
  ihtForwardAdvance fuel t (ihtWidths.incr it.elIdx)

/-- One pass of `for (it = begin (); it != end (); ++it)`, collecting `*it`. -/
def ihtForwardVisit (fuel : Nat) (t : Iht El G) (s : IhtForward × List (Nat × El)) :
    Option (Step (IhtForward × List (Nat × El)) (List (Nat × El))) :=
  if s.1 = ihtForwardEnd t then some (.leave s.2)
  else
    (t.bin.elAt s.1.elIdx).bind fun x =>
      (ihtForwardNext fuel t s.1).map fun it => .again (it, s.2 ++ [(s.1.elIdx, x)])

def ihtForwardElements (fuel : Nat) (t : Iht El G) : Option (List (Nat × El)) :=
  (ihtForwardBegin fuel t).bind fun it => forever (ihtForwardVisit fuel t) fuel (it, [])

section Iht

variable {t : Iht El G}

theorem ihtForwardVisit_mono (t : Iht El G) (s : IhtForward × List (Nat × El)) :
    Mono fun fuel => ihtForwardVisit fuel t s := by
  refine Mono.ite (Mono.const _) (Mono.bind (Mono.const _) fun _ => Mono.map ?_ _)
  exact Mono.map (t.bin.advance_mono ihtWidths _) _

def IhtForward.Stands (t : Iht El G) (it : IhtForward) (ps : List Nat) : Prop :=
  it = ihtForwardEnd t ∧ ps = [] ∨
    it.elIdx < t.bin.elsBound ∧ t.bin.deleted.test it.elIdx = false ∧
      ps = it.elIdx :: t.bin.positionsFrom (it.elIdx + 1)

theorem ihtForwardAdvance_stands (h : t.bin.Scannable ihtWidths) {i : Nat}
    (hi : i ≤ t.bin.elsBound) :
    ∃ it, Returns (fun fuel => ihtForwardAdvance fuel t i) it ∧
      it.Stands t (t.bin.positionsFrom i) := by
  obtain ⟨j, p, hreturns, hscan, hcase⟩ := h.advance_scan i
  refine ⟨⟨j⟩, hreturns.map fun s => IhtForward.mk s.1, ?_⟩
  rcases hcase with ⟨rfl, rfl⟩ | rfl
  · refine Or.inl ⟨?_, hscan.positions_nil⟩
    rw [Nat.max_eq_right hi]
    rfl
  · refine Or.inr ?_
    rw [hscan.positions_cons]
    cases hscan with
    | stop _ hj hlive _ => exact ⟨hj, hlive, rfl⟩

theorem ihtForwardElements_positions (h : t.bin.Scannable ihtWidths) :
    Returns (fun fuel => ihtForwardElements fuel t)
      ((t.bin.positionsFrom 0).filterMap fun j => (t.bin.elAt j).map fun x => (j, x)) := by
  obtain ⟨it, hit, hstands⟩ := ihtForwardAdvance_stands h (Nat.zero_le _)
  refine Returns.bind hit ?_
  refine walk_returns (ihtForwardVisit_mono t) (fun it acc hstands => ?_)
    (fun it p ps acc hstands => ?_) hstands []
  · rcases hstands with ⟨rfl, -⟩ | ⟨-, -, hnil⟩
    · simp only [ihtForwardVisit, if_true]
      exact Returns.const _
    · cases hnil
  · rcases hstands with ⟨-, hnil⟩ | ⟨hlt, hlive, hcons⟩
    · cases hnil
    · obtain ⟨rfl, rfl⟩ := List.cons.inj hcons
      obtain ⟨x, hx⟩ := h.init _ hlt hlive
      obtain ⟨next, hnext, hstands⟩ := ihtForwardAdvance_stands h (show it.elIdx + 1 ≤ _ from hlt)
      refine ⟨(it.elIdx, x), next, by rw [hx, Option.map_some], hstands, ?_⟩
      have hne : it ≠ ihtForwardEnd t := by
        rintro rfl
        exact Nat.lt_irrefl _ hlt
      have hcounter : t.bin.elsBound < 2 ^ ihtWidths.size := h.counter
      have hincr : ihtWidths.incr it.elIdx = it.elIdx + 1 := Widths.incr_eq (by omega)
      simp only [ihtForwardVisit, if_neg hne, hx, Option.bind_some, ihtForwardNext, hincr]
      exact hnext.map _

end Iht

/-! ## `ixhtab.hpp` -/

/-- `ixht::ixhtab::iterator`, without the pointer to the table -/
structure IxhtForward where
  binIdx : Nat
  elIdx : Nat
deriving DecidableEq

/-- One pass of `while (bin_idx < tab->bins_num)` of `iterator::advance`. -/
def ixhtForwardAdvanceBody (fuel : Nat) (t : Ixht El G) (it : IxhtForward) :
    Option (Step IxhtForward IxhtForward) :=
  if it.binIdx < t.bins.length then
    t.bins[it.binIdx]?.bind fun b =>
      (b.bin.advance ixhtWidths fuel it.elIdx).map fun
        | (elIdx, some _) => .leave ⟨it.binIdx, elIdx⟩
        | (_, none) => .again ⟨it.binIdx + 1, t.startAt (it.binIdx + 1)⟩
  else some (.leave it)

/-- `iterator::advance` -/
def ixhtForwardAdvance (fuel : Nat) (t : Ixht El G) (it : IxhtForward) : Option IxhtForward :=
  forever (ixhtForwardAdvanceBody fuel t) fuel it

/-- `begin ()` -/
def ixhtForwardBegin (fuel : Nat) (t : Ixht El G) : Option IxhtForward :=
  ixhtForwardAdvance fuel t ⟨0, t.startAt 0⟩

/-- `end ()` -/
def ixhtForwardEnd (t : Ixht El G) : IxhtForward := ⟨t.bins.length, 0⟩

/-- `operator++` -/
def ixhtForwardNext (fuel : Nat) (t : Ixht El G) (it : IxhtForward) : Option IxhtForward :=
  ixhtForwardAdvance fuel t ⟨it.binIdx, ixhtWidths.incr it.elIdx⟩

/-- One pass of `for (it = begin (); it != end (); ++it)`, collecting `*it`. -/
def ixhtForwardVisit (fuel : Nat) (t : Ixht El G) (s : IxhtForward × List ((Nat × Nat) × El)) :
    Option (Step (IxhtForward × List ((Nat × Nat) × El)) (List ((Nat × Nat) × El))) :=
  if s.1 = ixhtForwardEnd t then some (.leave s.2)
  else
    (t.elAt (s.1.binIdx, s.1.elIdx)).bind fun x =>
      (ixhtForwardNext fuel t s.1).map fun it =>
        .again (it, s.2 ++ [((s.1.binIdx, s.1.elIdx), x)])

def ixhtForwardElements (fuel : Nat) (t : Ixht El G) : Option (List ((Nat × Nat) × El)) :=
  (ixhtForwardBegin fuel t).bind fun it => forever (ixhtForwardVisit fuel t) fuel (it, [])

section Ixht

variable {t : Ixht El G}

theorem ixhtForwardAdvanceBody_mono (t : Ixht El G) (it : IxhtForward) :
    Mono fun fuel => ixhtForwardAdvanceBody fuel t it :=
  Mono.ite (Mono.bind (Mono.const _) fun b => Mono.map (b.bin.advance_mono ixhtWidths it.elIdx) _)
    (Mono.const _)

theorem ixhtForwardVisit_mono (t : Ixht El G) (s : IxhtForward × List ((Nat × Nat) × El)) :
    Mono fun fuel => ixhtForwardVisit fuel t s := by
  refine Mono.ite (Mono.const _) (Mono.bind (Mono.const _) fun _ => Mono.map ?_ _)
  exact Mono.forever (ixhtForwardAdvanceBody_mono t) _

/-- The scan that finds nothing ends at `end ()`, unless it starts beyond it. -/
theorem ixhtForwardAdvance_scan (h : ∀ e ∈ t.bins, e.bin.Scannable ixhtWidths) {k i : Nat}
    (hk : k < t.bins.length ∨ k = t.bins.length ∧ i = 0) :
    ∃ it p, Returns (fun fuel => ixhtForwardAdvance fuel t ⟨k, i⟩) it ∧ t.Scan k i p ∧
      (p = none ∧ it = ixhtForwardEnd t ∨ p = some (it.binIdx, it.elIdx)) := by
  -- on the number of bins that are left
  induction hn : t.bins.length - k generalizing k i with
  | zero =>
    obtain ⟨rfl, rfl⟩ : k = t.bins.length ∧ i = 0 := by
      rcases hk with hk | hk
      · omega
      · exact hk
    refine ⟨_, none, Returns.leave ?_, .past (Nat.le_refl _), Or.inl ⟨rfl, rfl⟩⟩
    simp only [ixhtForwardAdvanceBody, if_neg (Nat.lt_irrefl _)]
    exact Returns.const _
  | succ n ih =>
    have hk : k < t.bins.length := by omega
    have he : t.bins[k]? = some t.bins[k] := List.getElem?_eq_getElem hk
    obtain ⟨j, p, hreturns, hscan, hcase⟩ := (h t.bins[k] (List.getElem_mem hk)).advance_scan i
    rcases hcase with ⟨rfl, -⟩ | rfl
    · have hnext : k + 1 < t.bins.length ∨ k + 1 = t.bins.length ∧ t.startAt (k + 1) = 0 := by
        rcases Nat.lt_or_eq_of_le (show k + 1 ≤ t.bins.length from hk) with hlt | heq
        · exact Or.inl hlt
        · refine Or.inr ⟨heq, ?_⟩
          rw [Ixht.startAt, List.getElem?_eq_none (by omega), Option.elim_none]
      obtain ⟨it, p, hit, hrest, hend⟩ := ih hnext (by omega)
      have hstart : ∀ e', t.bins[k + 1]? = some e' → t.startAt (k + 1) = e'.elsStart := by
        intro e' he'
        rw [Ixht.startAt, he', Option.elim_some]
      refine ⟨it, p, Returns.again (ixhtForwardAdvanceBody_mono t) ⟨k + 1, t.startAt (k + 1)⟩ ?_ hit,
        .skip he hscan hstart hrest, hend⟩
      simp only [ixhtForwardAdvanceBody, if_pos hk, he, Option.bind_some]
      exact hreturns.map _
    · refine ⟨⟨k, j⟩, _, Returns.leave ?_, .stop he hscan, Or.inr rfl⟩
      simp only [ixhtForwardAdvanceBody, if_pos hk, he, Option.bind_some]
      exact hreturns.map _

def IxhtForward.Stands (t : Ixht El G) (it : IxhtForward) (ps : List (Nat × Nat)) : Prop :=
  it = ixhtForwardEnd t ∧ ps = [] ∨
    (∃ e, t.bins[it.binIdx]? = some e ∧ it.elIdx < e.bin.elsBound ∧
      e.bin.deleted.test it.elIdx = false) ∧
      ps = (it.binIdx, it.elIdx) :: t.positionsFrom it.binIdx (it.elIdx + 1)

theorem ixhtForwardAdvance_stands (h : ∀ e ∈ t.bins, e.bin.Scannable ixhtWidths) {k i : Nat}
    (hk : k < t.bins.length ∨ k = t.bins.length ∧ i = 0) :
    ∃ it, Returns (fun fuel => ixhtForwardAdvance fuel t ⟨k, i⟩) it ∧
      it.Stands t (t.positionsFrom k i) := by
  obtain ⟨it, p, hreturns, hscan, hcase⟩ := ixhtForwardAdvance_scan h hk
  refine ⟨it, hreturns, ?_⟩
  rcases hcase with ⟨rfl, hend⟩ | rfl
  · exact Or.inl ⟨hend, hscan.positions_nil⟩
  · exact Or.inr hscan.positions_cons

theorem ixhtForwardElements_positions (h : ∀ e ∈ t.bins, e.bin.Scannable ixhtWidths) :
    Returns (fun fuel => ixhtForwardElements fuel t)
      ((t.positionsFrom 0 (t.startAt 0)).filterMap fun p => (t.elAt p).map fun x => (p, x)) := by
  have hfirst : 0 < t.bins.length ∨ 0 = t.bins.length ∧ t.startAt 0 = 0 := by
    rcases Nat.eq_zero_or_pos t.bins.length with hzero | hpos
    · refine Or.inr ⟨hzero.symm, ?_⟩
      rw [Ixht.startAt, List.getElem?_eq_none (by omega), Option.elim_none]
    · exact Or.inl hpos
  obtain ⟨it, hit, hstands⟩ := ixhtForwardAdvance_stands h hfirst
  refine Returns.bind hit ?_
  refine walk_returns (ixhtForwardVisit_mono t) (fun it acc hstands => ?_)
    (fun it p ps acc hstands => ?_) hstands []
  · rcases hstands with ⟨rfl, -⟩ | ⟨-, hnil⟩
    · simp only [ixhtForwardVisit, if_true]
      exact Returns.const _
    · cases hnil
  · rcases hstands with ⟨-, hnil⟩ | ⟨⟨e, he, hlt, hlive⟩, hcons⟩
    · cases hnil
    · obtain ⟨rfl, rfl⟩ := List.cons.inj hcons
      have hok := h e (List.mem_of_getElem? he)
      obtain ⟨x, hx⟩ := hok.init _ hlt hlive
      have helAt : t.elAt (it.binIdx, it.elIdx) = some x := by
        rw [Ixht.elAt, he, Option.bind_some, hx]
      have hbin : it.binIdx < t.bins.length := (List.getElem?_eq_some_iff.mp he).1
      obtain ⟨next, hnext, hstands⟩ := ixhtForwardAdvance_stands h (i := it.elIdx + 1) (Or.inl hbin)
      refine ⟨((it.binIdx, it.elIdx), x), next, by rw [helAt, Option.map_some], hstands, ?_⟩
      have hne : it ≠ ixhtForwardEnd t := by
        rintro rfl
        exact Nat.lt_irrefl _ hbin
      have hcounter : e.bin.elsBound < 2 ^ ixhtWidths.size := hok.counter
      have hincr : ixhtWidths.incr it.elIdx = it.elIdx + 1 := Widths.incr_eq (by omega)
      simp only [ixhtForwardVisit, if_neg hne, helAt, Option.bind_some, ixhtForwardNext, hincr]
      exact hnext.map _

end Ixht

/-! ## Both iterators see the same -/

theorem BinRep.scannable {w : Widths} {key : Key El} {b : Hbin El (List Group)} (h : BinRep w key b)
    (hcounter : b.elsBound < 2 ^ w.size) : b.Scannable w := by
  refine ⟨?_, hcounter, fun i hi hlive => h.initialised i ⟨hi, hlive⟩⟩
  have hbound := h.bound
  rw [h.deleted_length]
  omega

def IxLivePos (t : Ixht El (List Group)) (p : Nat × Nat) : Prop :=
  ∃ e, t.bins[p.1]? = some e ∧ LivePos e.bin p.2

/-- A range-for loop ends, dereferences live positions only and meets the elements that
    the C iterator meets, in every state in which the bins are in order. -/
theorem forward_iterators_agree (key : Key El) :
    (∀ t : Iht El (List Group), BinRep ihtWidths key t.bin → t.bin.elsBound < 2 ^ 64 →
      ∃ seen, Returns (fun fuel => ihtForwardElements fuel t) seen ∧
        (∀ q ∈ seen, LivePos t.bin q.1) ∧
        Returns (fun fuel => ihtElements fuel t) (seen.map Prod.snd)) ∧
    ∀ t : Ixht El (List Group),
      (∀ e ∈ t.bins, BinRep ixhtWidths key.nonzero e.bin ∧ e.bin.elsBound < 2 ^ 32) →
      ∃ seen, Returns (fun fuel => ixhtForwardElements fuel t) seen ∧
        (∀ q ∈ seen, IxLivePos t q.1) ∧
        Returns (fun fuel => ixhtElements fuel t) (seen.map Prod.snd) := by
  -- the elements of the pairs that a loop collects
  have hsnd : ∀ {π : Type} (f : π → Option El) (ps : List π),
      (ps.filterMap fun p => (f p).map fun x => (p, x)).map Prod.snd = ps.filterMap f := by
    intro π f ps
    rw [List.map_filterMap]
    congr 1
    funext p
    cases f p <;> rfl
  constructor
  · intro t hrep hcounter
    have hscan := hrep.scannable (show t.bin.elsBound < 2 ^ ihtWidths.size from hcounter)
    refine ⟨_, ihtForwardElements_positions hscan, fun q hq => ?_, ?_⟩
    · obtain ⟨p, hp, hpq⟩ := List.mem_filterMap.mp hq
      obtain ⟨x, -, rfl⟩ := Option.map_eq_some_iff.mp hpq
      exact (Hbin.mem_positionsFrom.mp hp).2
    · rw [hsnd]
      exact ihtElements_positions hscan
  · intro t hbins
    have hscan : ∀ e ∈ t.bins, e.bin.Scannable ixhtWidths := fun e he =>
      (hbins e he).1.scannable (show e.bin.elsBound < 2 ^ ixhtWidths.size from (hbins e he).2)
    refine ⟨_, ixhtForwardElements_positions hscan, fun q hq => ?_, ?_⟩
    · obtain ⟨p, hp, hpq⟩ := List.mem_filterMap.mp hq
      obtain ⟨x, -, rfl⟩ := Option.map_eq_some_iff.mp hpq
      exact Ixht.live_of_mem hp
    · rw [hsnd]
      exact ixhtElements_positions hscan

/-- A bin whose only element is deleted, and one that holds `2` after a deleted `1`. -/
theorem forward_iterators_agree_churn :
    ∃ (t : Iht (BitVec 64) (List Group)) (t' : Ixht (BitVec 64) (List Group)),
      (∃ seen, Returns (fun fuel => ihtForwardElements fuel t) seen ∧
        (∀ q ∈ seen, LivePos t.bin q.1) ∧
        Returns (fun fuel => ihtElements fuel t) (seen.map Prod.snd)) ∧
      ∃ seen, Returns (fun fuel => ixhtForwardElements fuel t') seen ∧
        (∀ q ∈ seen, IxLivePos t' q.1) ∧
        Returns (fun fuel => ixhtElements fuel t') (seen.map Prod.snd) := by
  obtain ⟨hiht, hixht⟩ := forward_iterators_agree identityKey
  have hsession := (sampleSession .swar).mono (2 ^ 32) (by decide)
  obtain ⟨a₀, rs, t, a, -, hrun, -, hsim, hle, -⟩ :=
    hsession.spec (ihtOps_lawful identityKey_lawful .swar) identityKey_lawful (Nat.le_refl _)
  have hrep := hsession.rep identityKey_lawful .swar hrun
  have hbound := hsim.bin.elsBound
  obtain ⟨t', e₀, hwf, -⟩ := exists_oneBin (n := 1)
    (plainCalls_ok identityKey_lawful [(.insert, 1), (.insert, 2), (.delete, 1)]) (by decide)
    (show ixhtRun _ _ _ 1 _ _ = some (_, oneBin 1 _) from rfl)
  refine ⟨t, t', hiht t hrep.bin (by omega), hixht t' fun e he => ⟨(hwf.bins e he).bin, ?_⟩⟩
  obtain ⟨j, -, hj, hsize⟩ := (hwf.bins e he).capacity
  have hpow : 2 ^ j ≤ 2 ^ 16 := Nat.pow_le_pow_right (by decide) hj
  have hbound := (hwf.bins e he).bin.bound
  omega

end IndexedHash
