import Mathlib.Tactic.Common
import IndexedHash.Cursor
import IndexedHash.Iht
import IndexedHash.Ixht

/-!
# How the iterators scan

Every iterator skips deleted positions until it comes to one that is not deleted or to
the end; those of `ixhtab.h` then go on in the next bin.  `Hbin.Scan` and `Ixht.Scan` say
where such a scan ends, without its loop, and `advance_scan` and `ixhtIterAdvance_scan` show
that the loops of the headers return and end there.

The rest of the module turns that into lists.  `positionsFrom` are the live positions that
are ahead of an iterator; the elements there are what its loop collects
(`ihtElements_positions`, `ixhtElements_positions`).
-/

namespace IndexedHash

open Loop Cursor

variable {El G : Type}

/-! ## One bin -/

structure Shrinks (b b' : Hbin El G) : Prop where
  elsBound : b'.elsBound = b.elsBound
  groupsMask : b'.groupsMask = b.groupsMask
  deleted : ∀ i, b.deleted.test i = true → b'.deleted.test i = true

theorem Shrinks.refl (b : Hbin El G) : Shrinks b b := ⟨rfl, rfl, fun _ h => h⟩

theorem Shrinks.trans {b b' b'' : Hbin El G} (h : Shrinks b b') (h' : Shrinks b' b'') :
    Shrinks b b'' :=
  ⟨h'.elsBound.trans h.elsBound, h'.groupsMask.trans h.groupsMask,
    fun i hi => h'.deleted i (h.deleted i hi)⟩

def Hbin.positionsFrom (b : Hbin El G) (i : Nat) : List Nat :=
  (List.range' i (b.elsBound - i)).filter fun j => !b.deleted.test j

theorem Hbin.mem_positionsFrom {b : Hbin El G} {i j : Nat} :
    j ∈ b.positionsFrom i ↔ i ≤ j ∧ j < b.elsBound ∧ b.deleted.test j = false := by
  rw [positionsFrom, List.mem_filter, List.mem_range'_1, Bool.not_eq_true', ← and_assoc]
  exact and_congr_left fun _ => by omega

theorem Hbin.positionsFrom_append (b : Hbin El G) {i j : Nat} (hij : i ≤ j) (hj : j ≤ b.elsBound) :
    b.positionsFrom i =
      ((List.range' i (j - i)).filter fun k => !b.deleted.test k) ++ b.positionsFrom j := by
  unfold positionsFrom
  rw [← List.filter_append]
  congr 1
  have hrange := List.range'_append_1 (s := i) (m := j - i) (n := b.elsBound - j)
  rw [show i + (j - i) = j by omega, show j - i + (b.elsBound - j) = b.elsBound - i by omega] at hrange
  exact hrange.symm

theorem Hbin.positionsFrom_eq (b : Hbin El G) {i : Nat} (hi : i < b.elsBound)
    (hdel : b.deleted.test i = false) : b.positionsFrom i = i :: b.positionsFrom (i + 1) := by
  unfold positionsFrom
  rw [show b.elsBound - i = b.elsBound - (i + 1) + 1 by omega, List.range'_succ,
    List.filter_cons_of_pos (by rw [hdel]; rfl)]

theorem Hbin.positionsFrom_elements (b : Hbin El G) (i : Nat) :
    (b.positionsFrom i).filterMap b.elAt = b.liveFrom i := by
  rw [positionsFrom, List.filterMap_filter]
  unfold liveFrom
  congr 1
  funext j
  cases b.deleted.test j <;> rfl

inductive Hbin.Scan (b : Hbin El G) (i : Nat) : Option Nat → Prop where
  | past : (∀ k, i ≤ k → k < b.elsBound → b.deleted.test k = true) → b.Scan i none
  | stop {j} : i ≤ j → j < b.elsBound → b.deleted.test j = false →
      (∀ k, i ≤ k → k < j → b.deleted.test k = true) → b.Scan i (some j)

theorem Hbin.Scan.skip {b : Hbin El G} {i : Nat} {p : Option Nat} (hdel : b.deleted.test i = true)
    (h : b.Scan (i + 1) p) : b.Scan i p := by
  have hnext : ∀ k, i ≤ k → (i + 1 ≤ k → b.deleted.test k = true) → b.deleted.test k = true := by
    intro k hik hk
    rcases Nat.eq_or_lt_of_le hik with rfl | hlt
    · exact hdel
    · exact hk hlt
  cases h with
  | past hall => exact .past fun k hik hk => hnext k hik fun hlt => hall k hlt hk
  | stop hij hj hlive hall =>
    exact .stop (Nat.le_of_succ_le hij) hj hlive fun k hik hk => hnext k hik fun hlt => hall k hlt hk

structure Hbin.Scannable (w : Widths) (b : Hbin El G) : Prop where
  bits : b.elsBound ≤ 8 * b.deleted.length
  counter : b.elsBound < 2 ^ w.size
  init : ∀ i < b.elsBound, b.deleted.test i = false → ∃ x, b.elAt i = some x

theorem Readable.scannable {w : Widths} {key : Key El} {b : Hbin El G} (h : Readable key b)
    (hw : b.elsBound < 2 ^ w.size) : b.Scannable w :=
  ⟨h.bits, hw, h.init⟩

theorem Hbin.Scannable.advance_scan {w : Widths} {b : Hbin El G} (h : b.Scannable w) (i : Nat) :
    ∃ j p, Returns (fun fuel => b.advance w fuel i) (j, p) ∧ b.Scan i p ∧
      (p = none ∧ j = max i b.elsBound ∨ p = some j) := by
  -- on the number of positions that are left
  induction hk : b.elsBound - i generalizing i with
  | zero =>
    have hi : ¬ i < b.elsBound := by omega
    refine ⟨i, none, Returns.leave ?_, .past fun k _ _ => by omega, Or.inl ⟨rfl, by omega⟩⟩
    simp only [Hbin.advanceBody, if_neg hi]
    exact Returns.const _
  | succ n ih =>
    have hi : i < b.elsBound := by omega
    have htest := Bitmap.test?_eq_some (Nat.lt_of_lt_of_le hi h.bits)
    cases hdel : b.deleted.test i with
    | false =>
      refine ⟨i, some i, Returns.leave ?_, .stop (Nat.le_refl i) hi hdel fun k _ _ => by omega,
        Or.inr rfl⟩
      simp only [Hbin.advanceBody, if_pos hi, htest, hdel]
      exact Returns.const _
    | true =>
      obtain ⟨j, p, hreturns, hscan, hcase⟩ := ih (i + 1) (by omega)
      refine ⟨j, p, Returns.again (fun _ => Mono.const _) (i + 1) ?_ hreturns, hscan.skip hdel, ?_⟩
      · have hcounter := h.counter
        simp only [Hbin.advanceBody, if_pos hi, htest, hdel, Option.map_some, if_true]
        rw [Widths.incr_eq (by omega)]
        exact Returns.const _
      · rw [show max i b.elsBound = max (i + 1) b.elsBound by omega]
        exact hcase

section Split

variable {b₀ b : Hbin El G} {i j : Nat}

/-- A scan that meets nothing passes deleted positions only. -/
theorem Hbin.Scan.dead (hs : Shrinks b₀ b) (h : b.Scan i none) :
    ∀ k ∈ b₀.positionsFrom i, b.deleted.test k = true := by
  cases h with
  | past hall =>
    intro k hk
    obtain ⟨hik, hlt, -⟩ := Hbin.mem_positionsFrom.mp hk
    exact hall k hik (hs.elsBound ▸ hlt)

/-- A scan comes to the first of the positions that were live in `b₀` and still are. -/
theorem Hbin.Scan.first (hs : Shrinks b₀ b) (h : b.Scan i (some j)) :
    ∃ pre, b₀.positionsFrom i = pre ++ j :: b₀.positionsFrom (j + 1) ∧
      ∀ k ∈ pre, b.deleted.test k = true := by
  cases h with
  | stop hij hj hlive hall =>
    have hlive₀ : b₀.deleted.test j = false := by
      by_contra hne
      rw [hs.deleted j (by simpa using hne)] at hlive
      cases hlive
    have hj₀ : j < b₀.elsBound := hs.elsBound ▸ hj
    have hsplit := b₀.positionsFrom_append hij (Nat.le_of_lt hj₀)
    rw [b₀.positionsFrom_eq hj₀ hlive₀] at hsplit
    refine ⟨_, hsplit, fun k hk => ?_⟩
    obtain ⟨hik, hkj⟩ := List.mem_range'_1.mp (List.mem_of_mem_filter hk)
    exact hall k hik (by omega)

theorem Hbin.Scan.positions_nil (h : b.Scan i none) : b.positionsFrom i = [] := by
  refine List.eq_nil_iff_forall_not_mem.mpr fun k hk => ?_
  obtain ⟨-, -, hlive⟩ := Hbin.mem_positionsFrom.mp hk
  rw [h.dead (Shrinks.refl b) k hk] at hlive
  cases hlive

theorem Hbin.Scan.positions_cons (h : b.Scan i (some j)) :
    b.positionsFrom i = j :: b.positionsFrom (j + 1) := by
  obtain ⟨pre, hpre, hdead⟩ := h.first (Shrinks.refl b)
  have hnil : pre = [] := by
    refine List.eq_nil_iff_forall_not_mem.mpr fun k hk => ?_
    have hmem : k ∈ b.positionsFrom i := hpre ▸ List.mem_append_left _ hk
    obtain ⟨-, -, hlive⟩ := Hbin.mem_positionsFrom.mp hmem
    rw [hdead k hk] at hlive
    cases hlive
  rw [hpre, hnil, List.nil_append]

end Split

/-! ## All bins -/

def Ixht.startAt (t : Ixht El G) (k : Nat) : Nat := t.bins[k]?.elim 0 Ebin.elsStart

def Ixht.binPositions (t : Ixht El G) (k i : Nat) : List (Nat × Nat) :=
  (t.bins[k]?.elim [] fun e => e.bin.positionsFrom i).map fun j => (k, j)

def Ixht.positionsFrom (t : Ixht El G) (k i : Nat) : List (Nat × Nat) :=
  t.binPositions k i ++
    (List.range' (k + 1) (t.bins.length - (k + 1))).flatMap fun k => t.binPositions k (t.startAt k)

section Positions

variable {t : Ixht El G} {k : Nat}

theorem Ixht.binPositions_eq {e : Ebin El G} (he : t.bins[k]? = some e) (i : Nat) :
    t.binPositions k i = (e.bin.positionsFrom i).map fun j => (k, j) := by
  rw [binPositions, he, Option.elim_some]

theorem Ixht.binPositions_of_le (hk : t.bins.length ≤ k) (i : Nat) : t.binPositions k i = [] := by
  rw [binPositions, List.getElem?_eq_none hk, Option.elim_none, List.map_nil]

theorem Ixht.positionsFrom_of_le (hk : t.bins.length ≤ k) (i : Nat) : t.positionsFrom k i = [] := by
  rw [positionsFrom, binPositions_of_le hk, Nat.sub_eq_zero_of_le (by omega)]
  rfl

theorem Ixht.positionsFrom_start (t : Ixht El G) (k : Nat) :
    t.positionsFrom k (t.startAt k) =
      (List.range' k (t.bins.length - k)).flatMap fun k => t.binPositions k (t.startAt k) := by
  by_cases hk : k < t.bins.length
  · rw [show t.bins.length - k = t.bins.length - (k + 1) + 1 by omega, List.range'_succ,
      List.flatMap_cons, positionsFrom]
  · rw [positionsFrom_of_le (by omega), Nat.sub_eq_zero_of_le (by omega)]
    rfl

theorem Ixht.positionsFrom_next (t : Ixht El G) (k i : Nat) :
    t.positionsFrom k i = t.binPositions k i ++ t.positionsFrom (k + 1) (t.startAt (k + 1)) := by
  rw [positionsFrom_start, positionsFrom]

end Positions

structure IxShrinks (t t' : Ixht El G) : Prop where
  length : t'.bins.length = t.bins.length
  bins : ∀ {k : Nat} {e e' : Ebin El G}, t.bins[k]? = some e → t'.bins[k]? = some e' →
    Shrinks e.bin e'.bin ∧ e'.elsStart = e.elsStart

theorem IxShrinks.refl (t : Ixht El G) : IxShrinks t t :=
  ⟨rfl, fun he he' => by
    rw [he, Option.some.injEq] at he'
    exact he' ▸ ⟨Shrinks.refl _, rfl⟩⟩

theorem IxShrinks.trans {t t' t'' : Ixht El G} (h : IxShrinks t t') (h' : IxShrinks t' t'') :
    IxShrinks t t'' := by
  refine ⟨h'.length.trans h.length, fun {k e e''} he he'' => ?_⟩
  have hk : k < t'.bins.length := by
    rw [h.length]
    exact (List.getElem?_eq_some_iff.mp he).1
  obtain ⟨hs, hstart⟩ := h.bins he (List.getElem?_eq_getElem hk)
  obtain ⟨hs', hstart'⟩ := h'.bins (List.getElem?_eq_getElem hk) he''
  exact ⟨hs.trans hs', hstart'.trans hstart⟩

inductive Ixht.Scan (t : Ixht El G) : Nat → Nat → Option (Nat × Nat) → Prop where
  | past {k i} : t.bins.length ≤ k → t.Scan k i none
  | stop {k i e j} : t.bins[k]? = some e → e.bin.Scan i (some j) → t.Scan k i (some (k, j))
  | skip {k i e i' p} : t.bins[k]? = some e → e.bin.Scan i none →
      (∀ e', t.bins[k + 1]? = some e' → i' = e'.elsStart) → t.Scan (k + 1) i' p → t.Scan k i p

theorem ixhtIterAdvance_scan {t : Ixht El G} (h : ∀ e ∈ t.bins, e.bin.Scannable ixhtWidths)
    (k i : Nat) :
    ∃ it, Returns (fun fuel => ixhtIterAdvance fuel t k i) it ∧ t.Scan k i it.ptr ∧
      ∀ p, it.ptr = some p → p = (it.binIdx, it.elIdx) := by
  -- on the number of bins that are left
  induction hn : t.bins.length - k generalizing k i with
  | zero =>
    have hk : ¬ k < t.bins.length := by omega
    refine ⟨⟨k, i, none⟩, Returns.leave ?_, .past (by omega), fun _ hp => ?_⟩
    · simp only [ixhtIterAdvanceBody, if_neg hk]
      exact Returns.const _
    · cases hp
  | succ n ih =>
    have hk : k < t.bins.length := by omega
    have he : t.bins[k]? = some t.bins[k] := List.getElem?_eq_getElem hk
    obtain ⟨j, p, hreturns, hscan, hcase⟩ := (h t.bins[k] (List.getElem_mem hk)).advance_scan i
    rcases hcase with ⟨rfl, -⟩ | rfl
    · -- a next bin is read from its start; after the last one `el_idx` stays as it is
      have hstart : ∀ e', t.bins[k + 1]? = some e' →
          t.bins[k + 1]?.elim j Ebin.elsStart = e'.elsStart := by
        intro e' he'
        rw [he', Option.elim_some]
      obtain ⟨it, hit, hrest, hptr⟩ := ih (k + 1) (t.bins[k + 1]?.elim j Ebin.elsStart) (by omega)
      refine ⟨it, Returns.again (ixhtIterAdvanceBody_mono t) (k + 1, _) ?_ hit,
        .skip he hscan hstart hrest, hptr⟩
      simp only [ixhtIterAdvanceBody, if_pos hk, he, Option.bind_some]
      cases t.bins[k + 1]? with
      | some next => exact hreturns.map _
      | none => exact hreturns.map _
    · refine ⟨⟨k, j, some (k, j)⟩, Returns.leave ?_, .stop he hscan, fun p hp => ?_⟩
      · simp only [ixhtIterAdvanceBody, if_pos hk, he, Option.bind_some]
        exact hreturns.map _
      · exact (Option.some.inj hp).symm

section Split

variable {t₀ t : Ixht El G} {k i : Nat}

def Ixht.DeletedAt (t : Ixht El G) (p : Nat × Nat) : Prop :=
  ∃ e, t.bins[p.1]? = some e ∧ e.bin.deleted.test p.2 = true

theorem IxShrinks.positionsFrom_skip (hs : IxShrinks t₀ t) {m : Nat}
    (hstart : ∀ e, t.bins[k]? = some e → m = e.elsStart) :
    t₀.positionsFrom k m = t₀.positionsFrom k (t₀.startAt k) := by
  by_cases hk : k < t₀.bins.length
  · have hk' : k < t.bins.length := hs.length ▸ hk
    have he := List.getElem?_eq_getElem hk'
    have he₀ := List.getElem?_eq_getElem hk
    rw [hstart _ he, (hs.bins he₀ he).2, Ixht.startAt, he₀, Option.elim_some]
  · rw [Ixht.positionsFrom_of_le (by omega), Ixht.positionsFrom_of_le (by omega)]

/-- What a scan of `t` makes of the positions that were live in `t₀`. -/
theorem Ixht.Scan.split (hs : IxShrinks t₀ t) {p : Option (Nat × Nat)} (h : t.Scan k i p) :
    (p = none → ∀ q ∈ t₀.positionsFrom k i, t.DeletedAt q) ∧
    ∀ b j, p = some (b, j) →
      (∃ e, t.bins[b]? = some e ∧ j < e.bin.elsBound ∧ e.bin.deleted.test j = false) ∧
      ∃ pre, t₀.positionsFrom k i = pre ++ (b, j) :: t₀.positionsFrom b (j + 1) ∧
        ∀ q ∈ pre, t.DeletedAt q := by
  induction h with
  | past hk =>
    refine ⟨fun _ q hq => ?_, fun _ _ hp => nomatch hp⟩
    rw [Ixht.positionsFrom_of_le (hs.length ▸ hk)] at hq
    cases hq
  | @stop k i e j he hscan =>
    refine ⟨(fun hp => nomatch hp), fun b j' hp => ?_⟩
    obtain ⟨rfl, rfl⟩ := Prod.mk.inj (Option.some.inj hp)
    have he₀ := List.getElem?_eq_getElem (hs.length ▸ (List.getElem?_eq_some_iff.mp he).1)
    obtain ⟨pre, hpre, hdead⟩ := hscan.first (hs.bins he₀ he).1
    refine ⟨?_, pre.map fun j => (k, j), ?_, fun q hq => ?_⟩
    · cases hscan with
      | stop _ hj hlive _ => exact ⟨e, he, hj, hlive⟩
    · rw [Ixht.positionsFrom_next, Ixht.binPositions_eq he₀, hpre, Ixht.positionsFrom_next t₀ k (j + 1),
        Ixht.binPositions_eq he₀, List.map_append, List.map_cons, List.append_assoc, List.cons_append]
    · obtain ⟨j', hj', rfl⟩ := List.mem_map.mp hq
      exact ⟨e, he, hdead j' hj'⟩
  | @skip k i e m p he hscan hstart _ ih =>
    have he₀ := List.getElem?_eq_getElem (hs.length ▸ (List.getElem?_eq_some_iff.mp he).1)
    have hpass : ∀ q ∈ t₀.binPositions k i, t.DeletedAt q := by
      intro q hq
      rw [Ixht.binPositions_eq he₀] at hq
      obtain ⟨j', hj', rfl⟩ := List.mem_map.mp hq
      exact ⟨e, he, hscan.dead (hs.bins he₀ he).1 j' hj'⟩
    rw [Ixht.positionsFrom_next, ← hs.positionsFrom_skip hstart]
    refine ⟨fun hp q hq => ?_, fun b j hp => ?_⟩
    · rcases List.mem_append.mp hq with hq | hq
      · exact hpass q hq
      · exact ih.1 hp q hq
    · obtain ⟨hlive, pre, hpre, hdead⟩ := ih.2 b j hp
      refine ⟨hlive, t₀.binPositions k i ++ pre, ?_, fun q hq => ?_⟩
      · rw [hpre, List.append_assoc]
      · rcases List.mem_append.mp hq with hq | hq
        · exact hpass q hq
        · exact hdead q hq

theorem Ixht.live_of_mem {q : Nat × Nat} (hq : q ∈ t.positionsFrom k i) :
    ∃ e, t.bins[q.1]? = some e ∧ q.2 < e.bin.elsBound ∧ e.bin.deleted.test q.2 = false := by
  have hbin : ∀ k i, q ∈ t.binPositions k i →
      ∃ e, t.bins[q.1]? = some e ∧ q.2 < e.bin.elsBound ∧ e.bin.deleted.test q.2 = false := by
    intro k i hq
    obtain ⟨j, hj, rfl⟩ := List.mem_map.mp hq
    cases he : t.bins[k]? with
    | none =>
      rw [he] at hj
      cases hj
    | some e =>
      rw [he, Option.elim_some] at hj
      obtain ⟨-, hlt, hlive⟩ := Hbin.mem_positionsFrom.mp hj
      exact ⟨e, rfl, hlt, hlive⟩
  rcases List.mem_append.mp hq with hq | hq
  · exact hbin k i hq
  · obtain ⟨k', -, hq⟩ := List.mem_flatMap.mp hq
    exact hbin k' _ hq

theorem Ixht.not_deletedAt {q : Nat × Nat} (hq : q ∈ t.positionsFrom k i) : ¬ t.DeletedAt q := by
  rintro ⟨e, he, hdel⟩
  obtain ⟨e', he', -, hlive⟩ := Ixht.live_of_mem hq
  rw [he, Option.some.injEq] at he'
  rw [← he', hdel] at hlive
  cases hlive

theorem Ixht.Scan.positions_nil (h : t.Scan k i none) : t.positionsFrom k i = [] :=
  List.eq_nil_iff_forall_not_mem.mpr fun q hq =>
    Ixht.not_deletedAt hq ((h.split (IxShrinks.refl t)).1 rfl q hq)

theorem Ixht.Scan.positions_cons {b j : Nat} (h : t.Scan k i (some (b, j))) :
    (∃ e, t.bins[b]? = some e ∧ j < e.bin.elsBound ∧ e.bin.deleted.test j = false) ∧
      t.positionsFrom k i = (b, j) :: t.positionsFrom b (j + 1) := by
  obtain ⟨hlive, pre, hpre, hdead⟩ := (h.split (IxShrinks.refl t)).2 b j rfl
  have hnil : pre = [] := by
    refine List.eq_nil_iff_forall_not_mem.mpr fun q hq => ?_
    exact Ixht.not_deletedAt (hpre ▸ List.mem_append_left _ hq) (hdead q hq)
  rw [hnil, List.nil_append] at hpre
  exact ⟨hlive, hpre⟩

end Split

/-! ## The loops over an iterator -/

section Iht

variable {t : Iht El G}

def IhtIter.Stands (t : Iht El G) (it : IhtIter) (ps : List Nat) : Prop :=
  match it.ptr with
  | none => ps = []
  | some j => j = it.elIdx ∧ j < t.bin.elsBound ∧ t.bin.deleted.test j = false ∧
      ps = j :: t.bin.positionsFrom (j + 1)

theorem ihtIterAdvance_stands (h : t.bin.Scannable ihtWidths) (i : Nat) :
    ∃ it, Returns (fun fuel => ihtIterAdvance fuel t i) it ∧ it.Stands t (t.bin.positionsFrom i) := by
  obtain ⟨j, p, hreturns, hscan, hcase⟩ := h.advance_scan i
  refine ⟨⟨j, p⟩, hreturns.map fun s => IhtIter.mk s.1 s.2, ?_⟩
  rcases hcase with ⟨rfl, -⟩ | rfl
  · exact hscan.positions_nil
  · refine ⟨rfl, ?_⟩
    rw [hscan.positions_cons]
    cases hscan with
    | stop _ hj hlive _ => exact ⟨hj, hlive, rfl⟩

/-- The iterator collects the elements at the live positions, in order. -/
theorem ihtElements_positions (h : t.bin.Scannable ihtWidths) :
    Returns (fun fuel => ihtElements fuel t) ((t.bin.positionsFrom 0).filterMap t.bin.elAt) := by
  obtain ⟨it, hit, hstands⟩ := ihtIterAdvance_stands h 0
  refine Returns.bind hit ?_
  refine walk_returns (ihtVisit_mono t) (fun it acc hstands => ?_)
    (fun it p ps acc hstands => ?_) hstands []
  · unfold IhtIter.Stands at hstands
    cases hptr : it.ptr with
    | none =>
      simp only [ihtVisit, ihtIterValid, hptr]
      exact Returns.const _
    | some j =>
      rw [hptr] at hstands
      cases hstands.2.2.2
  · unfold IhtIter.Stands at hstands
    cases hptr : it.ptr with
    | none =>
      rw [hptr] at hstands
      cases hstands
    | some j =>
      rw [hptr] at hstands
      obtain ⟨rfl, hj, hlive, hcons⟩ := hstands
      obtain ⟨rfl, rfl⟩ := List.cons.inj hcons
      obtain ⟨x, hx⟩ := h.init _ hj hlive
      obtain ⟨next, hnext, hstands⟩ := ihtIterAdvance_stands h (it.elIdx + 1)
      refine ⟨x, next, hx, hstands, ?_⟩
      have hcounter : t.bin.elsBound < 2 ^ ihtWidths.size := h.counter
      have hincr : ihtWidths.incr it.elIdx = it.elIdx + 1 := Widths.incr_eq (by omega)
      simp only [ihtVisit, ihtIterValid, ihtIterNext, hptr, Option.isSome_some, if_true,
        Option.bind_some, hx, hincr]
      exact hnext.map _

end Iht

section Ixht

variable {t : Ixht El G}

def IxhtIter.Stands (t : Ixht El G) (it : IxhtIter) (ps : List (Nat × Nat)) : Prop :=
  match it.ptr with
  | none => ps = []
  | some p => p = (it.binIdx, it.elIdx) ∧
      (∃ e, t.bins[it.binIdx]? = some e ∧ it.elIdx < e.bin.elsBound ∧
        e.bin.deleted.test it.elIdx = false) ∧
      ps = p :: t.positionsFrom it.binIdx (it.elIdx + 1)

theorem ixhtIterAdvance_stands (h : ∀ e ∈ t.bins, e.bin.Scannable ixhtWidths) (k i : Nat) :
    ∃ it, Returns (fun fuel => ixhtIterAdvance fuel t k i) it ∧ it.Stands t (t.positionsFrom k i) := by
  obtain ⟨it, hreturns, hscan, hptr⟩ := ixhtIterAdvance_scan h k i
  refine ⟨it, hreturns, ?_⟩
  unfold IxhtIter.Stands
  cases hp : it.ptr with
  | none => exact (hp ▸ hscan).positions_nil
  | some p =>
    obtain rfl := hptr p hp
    obtain ⟨hlive, hcons⟩ := (hp ▸ hscan).positions_cons
    exact ⟨rfl, hlive, hcons⟩

theorem ixhtIterBegin_eq (fuel : Nat) (t : Ixht El G) :
    ixhtIterBegin fuel t = ixhtIterAdvance fuel t 0 (t.startAt 0) := by
  unfold ixhtIterBegin Ixht.startAt
  cases t.bins[0]? with
  | none => rfl
  | some e => rfl

theorem ixhtElements_positions (h : ∀ e ∈ t.bins, e.bin.Scannable ixhtWidths) :
    Returns (fun fuel => ixhtElements fuel t)
      ((t.positionsFrom 0 (t.startAt 0)).filterMap t.elAt) := by
  obtain ⟨it, hit, hstands⟩ := ixhtIterAdvance_stands h 0 (t.startAt 0)
  simp only [ixhtElements, ixhtIterBegin_eq]
  refine Returns.bind hit ?_
  refine walk_returns (ixhtVisit_mono t) (fun it acc hstands => ?_)
    (fun it p ps acc hstands => ?_) hstands []
  · unfold IxhtIter.Stands at hstands
    cases hptr : it.ptr with
    | none =>
      simp only [ixhtVisit, ixhtIterValid, hptr]
      exact Returns.const _
    | some p =>
      rw [hptr] at hstands
      cases hstands.2.2
  · unfold IxhtIter.Stands at hstands
    cases hptr : it.ptr with
    | none =>
      rw [hptr] at hstands
      cases hstands
    | some p' =>
      rw [hptr] at hstands
      obtain ⟨rfl, ⟨e, he, hj, hlive⟩, hcons⟩ := hstands
      obtain ⟨rfl, rfl⟩ := List.cons.inj hcons
      have hok := h e (List.mem_of_getElem? he)
      obtain ⟨x, hx⟩ := hok.init _ hj hlive
      have helAt : t.elAt (it.binIdx, it.elIdx) = some x := by
        rw [Ixht.elAt, he, Option.bind_some, hx]
      obtain ⟨next, hnext, hstands⟩ := ixhtIterAdvance_stands h it.binIdx (it.elIdx + 1)
      refine ⟨x, next, helAt, hstands, ?_⟩
      have hcounter : e.bin.elsBound < 2 ^ ixhtWidths.size := hok.counter
      have hincr : ixhtWidths.incr it.elIdx = it.elIdx + 1 := Widths.incr_eq (by omega)
      simp only [ixhtVisit, ixhtIterValid, ixhtIterNext, hptr, Option.isSome_some, if_true,
        Option.bind_some, helAt, hincr]
      exact hnext.map _

end Ixht

end IndexedHash
