import Mathlib.Data.List.Perm.Basic
import Mathlib.Tactic.Common
import IndexedHash.Splitting

/-!
# The invariant of `ixhtab.h`

`IxOk` is what holds of the table between two calls, on the ideal index, and whatever
the directory says: the bins are in order, of a capacity that 16-bit indices can
address, and they hold no more live elements than `els_num` counts.

`prepare_cases` says once what `ixht_perform` may do before its last `ixht_do_1`:
nothing, an in-place rebuild, or a split.  In each case the bin it chooses for an
INSERT has room, and each time for a different reason.  `step_cases` adds the last
`ixht_do_1` and the caller's write.
-/

namespace IndexedHash

open Loop KeyedList

variable {El G : Type} {key : Key El} {maxPower : Nat}

def Ixht.contents (t : Ixht El G) : List El := t.bins.flatMap fun e => e.bin.live

/-- What the code expects of `IXHT_MAX_BIN_SIZE_POWER`; `ixhtab.hpp` asserts the upper
    bound. -/
structure PowerOk (maxPower : Nat) : Prop where
  ge : 4 ≤ maxPower
  le : maxPower ≤ 15

structure IxOk (maxPower : Nat) (key : Key El) (a : IdealIxht El) : Prop where
  bins : ∀ e ∈ a.bins, EbinOk key (maxPower - 3) e
  shape : DirShape a
  count : a.contents.length ≤ a.elsNum

/-! ## Creation -/

/-- The size that `ixht_create` settles on: the first power of two that is enough. -/
theorem ixhtCreate_size {minSize fuel size : Nat}
    (h : forever (ixhtCreateBody minSize) fuel 2 = some size) :
    ∃ a, 1 ≤ a ∧ a < 32 ∧ size = 2 ^ a ∧ minSize ≤ 2 ^ a ∧ (a = 1 ∨ 2 ^ a < 2 * minSize) := by
  obtain ⟨a, ha, hlt, hsize, hbig, hbelow⟩ :=
    forever_double (a := 1) (· < minSize) (fun _ => rfl) (fun h => by omega) (by decide) h
  refine ⟨a, ha, hlt, hsize, Nat.le_of_not_lt hbig, ?_⟩
  rcases Nat.eq_or_lt_of_le ha with rfl | hone
  · exact Or.inl rfl
  · have hprev : 2 ^ (a - 1) < minSize := hbelow (a - 1) (by omega) (by omega)
    rw [show a = a - 1 + 1 by omega, Nat.pow_succ]
    exact Or.inr (by omega)

/-- Bins of `2 ^ (a - j)` elements, `2 ^ j` of them. -/
theorem ixhtGetParams_eq (hpower : 1 ≤ maxPower) {a : Nat} (ha : a < 32) :
    ∃ j, j = a + 1 - maxPower ∧
      ∀ fuel, 32 ≤ fuel → ixhtGetParams maxPower fuel (2 ^ a) = some ⟨2 ^ j, j, 2 ^ (a - j)⟩ := by
  refine ⟨a + 1 - maxPower, rfl, fun fuel hfuel => ?_⟩
  refine forever_of_path (fun j => (⟨2 ^ j, j, 2 ^ (a - j)⟩ : IxhtParams)) (a + 1 - maxPower) ?_ ?_
    (by omega)
  · intro j hj
    have hle : 2 ^ maxPower ≤ 2 ^ (a - j) := Nat.pow_le_pow_right (by decide) (by omega)
    have hpow : 2 ^ (j + 1) ≤ 2 ^ 32 := Nat.pow_le_pow_right (by decide) (by omega)
    have hhalf : 2 ^ (a - j) / 2 = 2 ^ (a - (j + 1)) := by
      rw [show a - j = a - (j + 1) + 1 by omega, Nat.pow_succ]
      omega
    simp only [ixhtGetParamsBody, if_pos hle, hhalf]
    rw [← Nat.pow_succ, Nat.mod_eq_of_lt (by omega)]
  · have hlt : ¬ 2 ^ maxPower ≤ 2 ^ (a - (a + 1 - maxPower)) := by
      rw [Nat.pow_le_pow_iff_right (by decide)]
      omega
    simp only [ixhtGetParamsBody, if_neg hlt]

theorem ixhtGetParams_some (hpower : 1 ≤ maxPower) {a fuel : Nat} (ha : a < 32) {p : IxhtParams}
    (h : ixhtGetParams maxPower fuel (2 ^ a) = some p) :
    ∃ j, j = a + 1 - maxPower ∧ p = ⟨2 ^ j, j, 2 ^ (a - j)⟩ := by
  have hbody : ∀ p, Mono fun _ : Nat => ixhtGetParamsBody maxPower p := fun _ => Mono.const _
  have hmono : Mono fun fuel => ixhtGetParams maxPower fuel (2 ^ a) := Mono.forever hbody _
  obtain ⟨j, hj, hparams⟩ := ixhtGetParams_eq hpower ha
  exact ⟨j, hj, (hmono.returns h).unique ⟨32, hparams⟩⟩

/-- A created table has `2 ^ j` bins of `2 ^ (a - j)` elements, together the first power of
    two that is enough. -/
theorem ixhtCreate_params (hpower : PowerOk maxPower) {ops : BinOps El G} {fuel minSize : Nat}
    {t : Ixht El G} (h : ixhtCreate maxPower ops fuel minSize = some t) :
    ∃ a j, a < 32 ∧ j = a + 1 - maxPower ∧ j % 2 ^ 16 = j ∧ minSize ≤ 2 ^ a ∧
      (a = 1 ∨ 2 ^ a < 2 * minSize) ∧ t = ixhtOfParams ops ⟨2 ^ j, j, 2 ^ (a - j)⟩ := by
  have hge := hpower.ge
  obtain ⟨size, hsize, hrest⟩ := Option.bind_eq_some_iff.mp h
  obtain ⟨p, hparams, rfl⟩ := Option.map_eq_some_iff.mp hrest
  obtain ⟨a, -, ha, rfl, henough, hleast⟩ := ixhtCreate_size hsize
  obtain ⟨j, hj, rfl⟩ := ixhtGetParams_some (by omega) ha hparams
  exact ⟨a, j, ha, hj, Nat.mod_eq_of_lt (by omega), henough, hleast, rfl⟩

theorem ixhtCreate_returns (hpower : 1 ≤ maxPower) (ops : BinOps El G) {minSize : Nat}
    (hmin : minSize ≤ 2 ^ 31) :
    ∃ t, Returns (fun fuel => ixhtCreate maxPower ops fuel minSize) t := by
  obtain ⟨size, hsize⟩ : ∃ size, Returns (fun fuel => forever (ixhtCreateBody minSize) fuel (2 ^ 1))
      size :=
    forever_double_returns (b := 31) (· < minSize) (fun _ => rfl) (by decide) (by decide) (by omega)
  obtain ⟨n, hn⟩ := hsize.exists_some
  obtain ⟨s, -, hs, rfl, -⟩ := ixhtCreate_size hn
  obtain ⟨j, hj, hparams⟩ := ixhtGetParams_eq hpower hs
  exact ⟨_, Returns.bind hsize (Returns.map ⟨32, hparams⟩ _)⟩

/-- The bins that `ixht_create` makes: a capacity below eight is rounded up. -/
theorem ixhtCreateBin_pow (ops : BinOps El G) (i : Nat) :
    ixhtCreateBin ops (2 ^ i) = ixhtCreateBin ops (4 * 2 ^ max 1 (i - 2)) := by
  by_cases h3 : i < 3
  · have hlt : 2 ^ i < GROUP_SIZE := by
      have : 2 ^ i ≤ 2 ^ 2 := Nat.pow_le_pow_right (by decide) (by omega)
      simp only [GROUP_SIZE]
      omega
    rw [show max 1 (i - 2) = 1 by omega]
    simp only [ixhtCreateBin, if_pos hlt]
    rfl
  · have hsplit : 2 ^ i = 4 * 2 ^ (i - 2) := by
      rw [show i = i - 2 + 2 by omega, Nat.pow_add]
      simp only [Nat.add_sub_cancel]
      omega
    rw [show max 1 (i - 2) = i - 2 by omega, ← hsplit]

theorem EbinOk.created (hkey : key.Lawful) {i maxLog : Nat} (hi : i ≤ 28) (hone : 1 ≤ maxLog)
    (hlog : i - 2 ≤ maxLog) (depth mask : Nat) :
    EbinOk key maxLog { ixhtCreateBin (idealIxhtOps key) (2 ^ i) with depth := depth, mask := mask } ∧
      (ixhtCreateBin (idealIxhtOps key) (2 ^ i)).bin.live = [] := by
  rw [ixhtCreateBin_pow]
  obtain ⟨j, hj⟩ : ∃ j, j = max 1 (i - 2) := ⟨_, rfl⟩
  rw [← hj]
  have hlow : 2 ^ 1 ≤ 2 ^ j := Nat.pow_le_pow_right (by decide) (by omega)
  have hhigh : 2 ^ j ≤ 2 ^ 26 := Nat.pow_le_pow_right (by decide) (by omega)
  have hsized := ixhtCreateBin_sized (idealIxhtOps key) (n := 2 ^ j) (by omega) (by omega)
  have hcap : (ixhtCreateBin (idealIxhtOps key) (4 * 2 ^ j)).bin.elsSize = 4 * 2 ^ j := by
    rw [Hbin.elsSize, hsized.groups]
  have hj32 : j ≤ ixhtWidths.size := by
    show j ≤ 32
    omega
  obtain ⟨hdense, hlive⟩ := DenseOk.refill hkey.nonzero ⟨j, hj32, hsized.groups⟩
    (by rw [hcap]; exact hsized.els) (by rw [hcap]; exact hsized.bytes)
    (fun i => Bitmap.test_zeros _ i) (List.Pairwise.nil : Apart key.nonzero.eq []) (Nat.zero_le _)
  exact ⟨⟨hdense, rfl, j, by omega, by omega, hsized.groups⟩, hlive⟩

theorem ixhtCreate_ok (hkey : key.Lawful) (hpower : PowerOk maxPower) {fuel minSize : Nat}
    {a : IdealIxht El} (h : ixhtCreate maxPower (idealIxhtOps key) fuel minSize = some a) :
    IxOk maxPower key a ∧ a.contents = [] := by
  have hge := hpower.ge
  have hle := hpower.le
  obtain ⟨s, j, hs31, hj, hj16, -, -, rfl⟩ := ixhtCreate_params hpower h
  have hbin : ∀ i, EbinOk key (maxPower - 3) { ixhtCreateBin (idealIxhtOps key) (2 ^ (s - j)) with
        depth := j % 2 ^ 16, mask := i } ∧
      (ixhtCreateBin (idealIxhtOps key) (2 ^ (s - j))).bin.live = [] := fun i =>
    EbinOk.created hkey (by omega) (by omega) (by omega) (j % 2 ^ 16) i
  have hcontents : (ixhtOfParams (idealIxhtOps key) ⟨2 ^ j, j, 2 ^ (s - j)⟩).contents = [] := by
    rw [Ixht.contents, List.flatMap_eq_nil_iff]
    intro e he
    obtain ⟨i, -, rfl⟩ := List.mem_map.mp he
    exact (hbin i).2
  refine ⟨⟨?_, ⟨?_, ?_, ?_, ?_, ?_⟩, ?_⟩, hcontents⟩
  · intro e he
    obtain ⟨i, -, rfl⟩ := List.mem_map.mp he
    exact (hbin i).1
  · simp only [ixhtOfParams, List.length_range, hj16]
  · simp only [ixhtOfParams, hj16]
  · simp only [ixhtOfParams, hj16]
    omega
  · intro e he
    obtain ⟨i, hi, rfl⟩ := List.mem_map.mp he
    simp only [ixhtOfParams, hj16]
    exact ⟨Nat.le_refl j, List.mem_range.mp hi⟩
  · intro i hi
    simp only [ixhtOfParams, List.length_map, List.length_range]
    exact List.mem_range.mp hi
  · rw [hcontents]
    exact Nat.zero_le _

/-! ## Rebuilding a bin in place -/

section Rebuild

variable {maxLog n : Nat} {e : Ebin El (List Entry)}

theorem ixhtRealloc_sized (ops : BinOps El G) (b : Hbin El G) (hpos : 0 < n) :
    Sized n (ixhtRealloc ops b (8 * n) (4 * n)) := by
  refine ⟨?_, ?_, Bitmap.length_zeros _⟩
  · simp only [ixhtRealloc, Hbin.numGroups, GROUP_SIZE]
    omega
  · simp only [ixhtRealloc, List.length_append, List.length_take, List.length_replicate]
    omega

theorem ixhtRealloc_elAt (key : Key El) {b : IdealBin El} (hlen : b.els.length ≤ 4 * n) (i : Nat) :
    (ixhtRealloc (idealIxhtOps key) b (8 * n) (4 * n)).elAt i = b.elAt i := by
  simp only [ixhtRealloc, Hbin.elAt, List.take_of_length_le hlen]
  by_cases hi : i < b.els.length
  · rw [List.getElem?_append_left hi]
  · rw [List.getElem?_append_right (by omega), List.getElem?_eq_none (Nat.le_of_not_lt hi),
      List.getElem?_replicate]
    split <;> rfl

/-- The pass over position `i` reinserts the next live element, if it is one. -/
theorem ixhtReinsert_ideal {b r : IdealBin El} (h : Readable key.nonzero b)
    (hels : b.elsBound ≤ r.els.length) (hat : ∀ i, r.elAt i = b.elAt i) {i : Nat}
    (hi : i < b.elsBound) (m fuel : Nat) :
    ∃ m', ixhtReinsert (idealIxhtOps key) key fuel b.deleted
        (m, r.refill key.nonzero.hash (b.liveUpTo i)) i =
      some (m', r.refill key.nonzero.hash (b.liveUpTo (i + 1))) := by
  have hlen := b.length_liveUpTo_le i
  have hread : (r.refill key.nonzero.hash (b.liveUpTo i)).elAt i = b.elAt i := by
    rw [refill_elAt_ge hlen, hat]
  unfold ixhtReinsert
  rcases h.next hi with ⟨hdel, hlive⟩ | ⟨hdel, x, hx, hlive, hfresh⟩
  · exact ⟨m, by simp only [hdel, Option.bind_some, if_true, hlive]⟩
  · refine ⟨ixhtWidths.incr m, ?_⟩
    simp only [hdel, Option.bind_some, hread, hx, hlive]
    exact reinsert_refill (by omega) hfresh fuel m

/-- The in-place rebuild leaves the live elements from position `0` on. -/
theorem rebuildBin_ideal (hkey : key.Lawful) (h : EbinOk key maxLog e)
    (hle : e.bin.numGroups ≤ n) (hpow : ∃ j ≤ 28, n = 2 ^ j) :
    ∃ e', (∀ fuel, ixhtRebuildBin (idealIxhtOps key) key fuel e (8 * n) (4 * n) = some e') ∧
      Half key n e.depth e.mask e.bin.live e' := by
  have hpos : 0 < n := Nat.lt_of_lt_of_le (Nat.succ_pos _) hle
  have hsized := ixhtRealloc_sized (idealIxhtOps key) e.bin hpos
  have hels : e.bin.els.length ≤ 4 * n := by
    rw [h.sized.els]
    omega
  have hat := ixhtRealloc_elAt key hels
  have hbound : e.bin.elsBound ≤ 4 * n := by
    have := h.dense.bound
    have := h.sized.els
    have := h.dense.capacity
    omega
  have hcap : (ixhtRealloc (idealIxhtOps key) e.bin (8 * n) (4 * n)).elsSize = 4 * n := by
    rw [Hbin.elsSize, hsized.groups]
  have hlen : e.bin.live.length ≤ 4 * n :=
    Nat.le_trans e.bin.length_live_le hbound
  obtain ⟨j, hj, hn⟩ := hpow
  have hj32 : j ≤ ixhtWidths.size := by
    show j ≤ 32
    omega
  obtain ⟨hdense, hlive⟩ := DenseOk.refill hkey.nonzero ⟨j, hj32, hsized.groups.trans hn⟩
    (by rw [hcap]; exact hsized.els) (by rw [hcap]; exact hsized.bytes)
    (fun i => Bitmap.test_zeros _ i) h.dense.apart (by rw [hcap]; exact hlen)
  refine ⟨⟨e.depth, e.mask, 0, (ixhtRealloc (idealIxhtOps key) e.bin (8 * n) (4 * n)).refill
      key.nonzero.hash e.bin.live⟩, fun fuel => ?_, rfl, rfl, rfl, hsized.groups, hdense, hlive,
    rfl, fun i => Bitmap.test_zeros _ i⟩
  obtain ⟨⟨m, b⟩, hloop, rfl⟩ := foldlM_range_spec
    (f := ixhtReinsert (idealIxhtOps key) key fuel e.bin.deleted)
    (fun i s => s.2 = (ixhtRealloc (idealIxhtOps key) e.bin (8 * n) (4 * n)).refill
      key.nonzero.hash (e.bin.liveUpTo i)) e.bin.elsBound
    (s := (0, ixhtRealloc (idealIxhtOps key) e.bin (8 * n) (4 * n)))
    (refill_nil_of_vacant rfl rfl _).symm (by
      rintro i hi ⟨m, b⟩ rfl
      obtain ⟨m', hm'⟩ := ixhtReinsert_ideal h.dense.readable (by rw [hsized.els]; exact hbound)
        hat hi m fuel
      exact ⟨_, hm', rfl⟩)
  simp only [ixhtRebuildBin, h.start, Nat.sub_zero, ← List.range_eq_range', hloop, Option.map_some]
  rfl

end Rebuild

/-! ## The contents of a table -/

/-- Changing one bin changes one stretch of the contents. -/
theorem contents_set {t : Ixht El G} {i : Nat} {e : Ebin El G} (h : t.bins[i]? = some e) :
    ∃ l₁ l₂, t.contents = l₁ ++ e.bin.live ++ l₂ ∧
      (∀ e', (t.bins.set i e').flatMap (fun e => e.bin.live) = l₁ ++ e'.bin.live ++ l₂) ∧
      ∀ x, x ∈ l₁ ∨ x ∈ l₂ → ∃ j f, j ≠ i ∧ t.bins[j]? = some f ∧ x ∈ f.bin.live := by
  obtain ⟨hi, he⟩ := List.getElem?_eq_some_iff.mp h
  obtain ⟨l₁, l₂, hsplit, hlen, -⟩ : ∃ l₁ l₂, t.bins = l₁ ++ t.bins[i] :: l₂ ∧ l₁.length = i ∧
    t.bins.set i e = l₁ ++ e :: l₂ := List.exists_of_set hi
  rw [he] at hsplit
  refine ⟨l₁.flatMap fun e => e.bin.live, l₂.flatMap fun e => e.bin.live, ?_, fun e' => ?_, ?_⟩
  · have := congrArg (List.flatMap fun e => e.bin.live) hsplit
    rw [Ixht.contents, this, List.flatMap_append, List.flatMap_cons, List.append_assoc]
  · have hset : t.bins.set i e' = l₁ ++ e' :: l₂ := by
      rw [hsplit, ← hlen, List.set_append_right _ _ (Nat.le_refl _), Nat.sub_self,
        List.set_cons_zero]
    rw [hset, List.flatMap_append, List.flatMap_cons, List.append_assoc]
  · rintro x (hx | hx)
    · obtain ⟨f, hf, hxf⟩ := List.mem_flatMap.mp hx
      obtain ⟨j, hj⟩ := List.mem_iff_getElem?.mp hf
      have hlt := (List.getElem?_eq_some_iff.mp hj).1
      exact ⟨j, f, by omega, by rw [hsplit, List.getElem?_append_left hlt, hj], hxf⟩
    · obtain ⟨f, hf, hxf⟩ := List.mem_flatMap.mp hx
      obtain ⟨j, hj⟩ := List.mem_iff_getElem?.mp hf
      refine ⟨i + (j + 1), f, by omega, ?_, hxf⟩
      rw [hsplit, List.getElem?_append_right (by omega), hlen, Nat.add_sub_cancel_left,
        List.getElem?_cons_succ, hj]

theorem mem_contents {t : Ixht El G} {x : El} : x ∈ t.contents ↔ ∃ e ∈ t.bins, x ∈ e.bin.live :=
  List.mem_flatMap

theorem length_live_le_contents {t : Ixht El G} {i : Nat} {e : Ebin El G}
    (h : t.bins[i]? = some e) : e.bin.live.length ≤ t.contents.length := by
  obtain ⟨l₁, l₂, hcontents, -⟩ := contents_set h
  rw [hcontents, List.length_append, List.length_append]
  omega

theorem staying_append_going (key : Key El) (d : Nat) (xs : List El) :
    (staying key d xs ++ going key d xs).Perm xs :=
  List.perm_append_comm.trans (List.filter_append_perm (goesNew key d) xs)

section Done

variable {n b₀ k : Nat} {t₀ t : IdealIxht El} {e₀ : Ebin El (List Entry)}

/-- The bins after a split: one replaced, one appended. -/
theorem SplitDone.bins_eq (h : SplitDone key n t₀ b₀ e₀ k t) (hb₀ : b₀ < t₀.bins.length) :
    ∃ x y, t.bins = t₀.bins.set b₀ x ++ [y] ∧ t.bins[b₀]? = some x ∧
      t.bins[t₀.bins.length]? = some y := by
  have hlen := h.bins_length
  obtain ⟨x, hx⟩ : ∃ x, t.bins[b₀]? = some x := ⟨_, List.getElem?_eq_getElem (by omega)⟩
  obtain ⟨y, hy⟩ : ∃ y, t.bins[t₀.bins.length]? = some y :=
    ⟨_, List.getElem?_eq_getElem (by omega)⟩
  refine ⟨x, y, List.ext_getElem? fun i => ?_, hx, hy⟩
  by_cases hi : i = t₀.bins.length
  · rw [hi, hy, List.getElem?_append_right (by rw [List.length_set]), List.length_set, Nat.sub_self]
    rfl
  · by_cases hib : i = b₀
    · rw [hib, hx, List.getElem?_append_left (by rw [List.length_set]; exact hb₀),
        List.getElem?_set_self hb₀]
    · rw [h.others i hib hi]
      by_cases hlt : i < t₀.bins.length
      · rw [List.getElem?_append_left (by rw [List.length_set]; exact hlt),
          List.getElem?_set_ne (Ne.symm hib)]
      · rw [List.getElem?_eq_none (by omega), List.getElem?_eq_none]
        rw [List.length_append, List.length_set, List.length_singleton]
        omega

/-- The bin whose elements stay and the one whose elements go, in either order. -/
theorem SplitDone.sides (h : SplitDone key n t₀ b₀ e₀ k t) :
    ∃ e e', Half key n (e₀.depth + k + 1) (e₀.pass key k).mask
        (staying key (e₀.depth + k) (e₀.pass key k).els) e ∧
      Half key n (e₀.depth + k + 1) ((e₀.pass key k).mask ||| 2 ^ (e₀.depth + k))
        (going key (e₀.depth + k) (e₀.pass key k).els) e' ∧
      (t.bins[b₀]? = some e ∧ t.bins[t₀.bins.length]? = some e' ∨
        t.bins[b₀]? = some e' ∧ t.bins[t₀.bins.length]? = some e) := by
  obtain ⟨e, hbin, he⟩ := h.stays
  obtain ⟨e', hnew, he'⟩ := h.goes
  refine ⟨e, e', he, he', ?_⟩
  cases hown : (e₀.pass key k).own with
  | true =>
    rw [hown] at hbin hnew
    exact Or.inl ⟨hbin, hnew⟩
  | false =>
    rw [hown] at hbin hnew
    exact Or.inr ⟨hnew, hbin⟩

theorem Mixed.sides_ne_nil {d : Nat} {xs : List El} (h : Mixed key d xs) :
    staying key d xs ≠ [] ∧ going key d xs ≠ [] := by
  obtain ⟨⟨x, hx, hxb⟩, y, hy, hyb⟩ := h
  exact ⟨List.ne_nil_of_mem (List.mem_filter.mpr ⟨hx, by simp [hxb]⟩),
    List.ne_nil_of_mem (List.mem_filter.mpr ⟨hy, hyb⟩)⟩

/-- The two bins hold what the last pass has read. -/
theorem SplitDone.halves (h : SplitDone key n t₀ b₀ e₀ k t) (hmask : e₀.mask < 2 ^ e₀.depth)
    {x y : Ebin El (List Entry)} (hx : t.bins[b₀]? = some x)
    (hy : t.bins[t₀.bins.length]? = some y) :
    ∃ mx my xs ys, Half key n (e₀.depth + k + 1) mx xs x ∧ Half key n (e₀.depth + k + 1) my ys y ∧
      mx < 2 ^ (e₀.depth + k + 1) ∧ my < 2 ^ (e₀.depth + k + 1) ∧
      (xs ++ ys).Perm (e₀.pass key k).els ∧ xs ≠ [] ∧ ys ≠ [] := by
  obtain ⟨e, e', he, he', hcases⟩ := h.sides
  have hpow : 2 ^ (e₀.depth + k) < 2 ^ (e₀.depth + k + 1) :=
    Nat.pow_lt_pow_right (by decide) (by omega)
  have hm := Nat.lt_trans (Ebin.pass_mask_lt key hmask k) hpow
  have hm' := Nat.or_lt_two_pow hm hpow
  obtain ⟨hstay, hgo⟩ := h.mixed.sides_ne_nil
  have hperm := staying_append_going key (e₀.depth + k) (e₀.pass key k).els
  rw [hx, hy, Option.some.injEq, Option.some.injEq, Option.some.injEq, Option.some.injEq] at hcases
  rcases hcases with ⟨rfl, rfl⟩ | ⟨rfl, rfl⟩
  · exact ⟨_, _, _, _, he, he', hm, hm', hperm, hstay, hgo⟩
  · exact ⟨_, _, _, _, he', he, hm', hm, List.perm_append_comm.trans hperm, hgo, hstay⟩

end Done

/-! ## Before the last `ixht_do_1` -/

/-- The index of the directory that a hash leads to. -/
theorem DirShape.binOf_eq {t : Ixht El G} (h : DirShape t) (hash : BitVec 64) :
    t.binOf hash = t.dir[hash.toNat % t.dir.length]? := by
  rw [Ixht.binOf, h.mask, h.length, Nat.and_two_pow_sub_one_eq_mod]

theorem DirShape.binOf_some {t : Ixht El G} (h : DirShape t) (hash : BitVec 64) :
    ∃ i e, t.binOf hash = some i ∧ t.bins[i]? = some e := by
  have hpos : 0 < t.dir.length := by
    rw [h.length]
    exact Nat.two_pow_pos _
  have hlt := Nat.mod_lt hash.toNat hpos
  have hentry := h.entries _ (List.getElem_mem hlt)
  exact ⟨_, _, (h.binOf_eq hash).trans (List.getElem?_eq_getElem hlt), List.getElem?_eq_getElem hentry⟩

/-- What `ixht_perform` may have done to table `a` when it comes to its last line, and
    the bin it has chosen. -/
inductive Prepared (maxPower : Nat) (key : Key El) (a : IdealIxht El) (hash : BitVec 64)
    (action : Action) : IdealIxht El → Nat → Prop where
  | keep {i : Nat} {e : Ebin El (List Entry)} (hbin : a.binOf hash = some i)
      (hi : a.bins[i]? = some e) (hroom : action = .insert → e.bin.elsBound < e.bin.elsSize) :
      Prepared maxPower key a hash action a i
  | rebuild {i j : Nat} {e e' : Ebin El (List Entry)} (haction : action = .insert)
      (hbin : a.binOf hash = some i) (hi : a.bins[i]? = some e)
      (hhalf : Half key (2 ^ j) e.depth e.mask e.bin.live e') (hone : 1 ≤ j)
      (hsize : j ≤ maxPower - 3) (hroom : e.bin.live.length < 4 * 2 ^ j) :
      Prepared maxPower key a hash action { a with bins := a.bins.set i e' } i
  | split {b k i : Nat} {e : Ebin El (List Entry)} {t : IdealIxht El} (haction : action = .insert)
      (hbin : a.binOf hash = some b) (hb : a.bins[b]? = some e) (hfull : ixhtFull e = true)
      (hsplits : ixhtSplits maxPower a e = true)
      (hdone : SplitDone key e.bin.numGroups a b e k t) (hi : t.binOf hash = some i) :
      Prepared maxPower key a hash action t i

section Prepare

variable {a p : IdealIxht El} {hash : BitVec 64} {action : Action} {i fuel : Nat}

theorem prepare_cases (hkey : key.Lawful) (hpower : PowerOk maxPower) (h : IxOk maxPower key a)
    (hnum : a.elsNum < 2 ^ 31)
    (hp : ixhtPrepare maxPower (idealIxhtOps key) key fuel a hash action = some (p, i)) :
    Prepared maxPower key a hash action p i := by
  have hge := hpower.ge
  have hle := hpower.le
  obtain ⟨b, hbin, hp⟩ := Option.bind_eq_some_iff.mp hp
  obtain ⟨e, he, hp⟩ := Option.bind_eq_some_iff.mp hp
  have hok := h.bins e (List.mem_of_getElem? he)
  obtain ⟨j, hj, hjle, hn⟩ := hok.size
  have hindexes := hok.indexesSize (show maxPower - 3 ≤ 28 by omega)
  have hhalf := hok.halfIndexes (show maxPower - 3 ≤ 28 by omega)
  have hcap : e.bin.elsSize = 4 * e.bin.numGroups := rfl
  have hpos : 0 < 2 ^ j := Nat.two_pow_pos j
  have hpow : 2 ^ j ≤ 2 ^ 12 := Nat.pow_le_pow_right (by decide) (by omega)
  have hwrap : 2 * a.elsNum % 2 ^ 32 = 2 * a.elsNum := Nat.mod_eq_of_lt (by omega)
  by_cases hfull : action = .insert ∧ ixhtFull e
  · rw [if_pos hfull] at hp
    by_cases hsplits : ixhtSplits maxPower a e
    · rw [if_pos hsplits] at hp
      obtain ⟨t, ht, hp⟩ := Option.bind_eq_some_iff.mp hp
      obtain ⟨c, hc, hp⟩ := Option.map_eq_some_iff.mp hp
      obtain ⟨rfl, rfl⟩ := Prod.mk.inj hp
      obtain ⟨k, hdone⟩ := splitBin_done hkey hok (by omega) h.shape he ht
      exact Prepared.split hfull.1 hbin he hfull.2 hsplits hdone hc
    · rw [if_neg hsplits] at hp
      obtain ⟨e', he', hp⟩ := Option.map_eq_some_iff.mp hp
      obtain ⟨rfl, rfl⟩ := Prod.mk.inj hp
      have hlive := e.bin.length_live_le
      have hbound := hok.dense.bound
      by_cases hgrow : ixhtGrow a e
      · -- doubled, and still below the limit
        have hlim : 8 * 2 ^ j < 2 ^ maxPower := by
          simp only [ixhtSplits, hgrow, Bool.true_and, decide_eq_true_eq, hhalf, hcap, hn] at hsplits
          omega
        have hlog : j + 1 ≤ maxPower - 3 := by
          have : 2 ^ (j + 3) < 2 ^ maxPower := by
            rw [Nat.pow_add]
            omega
          have := (Nat.pow_lt_pow_iff_right (by decide)).mp this
          omega
        obtain ⟨f, hf, hhalf'⟩ := rebuildBin_ideal hkey hok (n := 2 ^ (j + 1))
          (by rw [hn]; exact Nat.pow_le_pow_right (by decide) (by omega)) ⟨j + 1, by omega, rfl⟩
        have hsizes : e.bin.indexesSize ixhtWidths * 2 % 2 ^ 32 = 8 * 2 ^ (j + 1) ∧
            e.bin.halfIndexes * 2 % 2 ^ 32 = 4 * 2 ^ (j + 1) := by
          rw [hindexes, hhalf, hcap, hn, Nat.pow_succ]
          omega
        rw [ixhtFactor, if_pos hgrow, hsizes.1, hsizes.2, hf, Option.some.injEq] at he'
        subst he'
        refine Prepared.rebuild hfull.1 hbin he hhalf' (by omega) hlog ?_
        rw [Nat.pow_succ]
        omega
      · -- the whole table counts fewer elements than the bin has positions
        have hfew : 2 * a.elsNum < 8 * 2 ^ j := by
          simp only [ixhtGrow, decide_eq_true_eq, hindexes, hn, hwrap] at hgrow
          omega
        obtain ⟨f, hf, hhalf'⟩ := rebuildBin_ideal hkey hok (n := 2 ^ j) (Nat.le_of_eq hn)
          ⟨j, by omega, rfl⟩
        have hsizes : e.bin.indexesSize ixhtWidths * 1 % 2 ^ 32 = 8 * 2 ^ j ∧
            e.bin.halfIndexes * 1 % 2 ^ 32 = 4 * 2 ^ j := by
          rw [hindexes, hhalf, hcap, hn]
          omega
        rw [ixhtFactor, if_neg hgrow, hsizes.1, hsizes.2, hf, Option.some.injEq] at he'
        subst he'
        refine Prepared.rebuild hfull.1 hbin he hhalf' hj hjle ?_
        have := length_live_le_contents he
        have := h.count
        omega
  · rw [if_neg hfull, Option.some.injEq] at hp
    obtain ⟨rfl, rfl⟩ := Prod.mk.inj hp
    refine Prepared.keep hbin he fun haction => ?_
    have hne : e.bin.elsBound ≠ e.bin.elsSize := by
      intro heq
      exact hfull ⟨haction, by rw [ixhtFull, hhalf, heq]; simp⟩
    have := hok.dense.bound
    omega

/-- After a split the directory leads to one of the two bins. -/
theorem SplitDone.binOf_cases {n b k : Nat} {t : IdealIxht El} {e : Ebin El (List Entry)}
    (hdone : SplitDone key n a b e k t) (hshape : DirShape a) (hbin : a.binOf hash = some b)
    (hi : t.binOf hash = some i) : i = b ∨ i = a.bins.length := by
  have hmask : t.binOf hash = t.dir[hash.toNat % t.dir.length]? := by
    rw [Ixht.binOf, hdone.dir.mask, hdone.dir.length, Nat.and_two_pow_sub_one_eq_mod]
  have hlt : hash.toNat % t.dir.length < t.dir.length := by
    apply Nat.mod_lt
    rw [hdone.dir.length]
    exact Nat.two_pow_pos _
  have hdvd : a.dir.length ∣ t.dir.length := by
    rw [hshape.length, hdone.dir.length, hdone.dir.maxDepth]
    exact Nat.pow_dvd_pow 2 (Nat.le_max_left _ _)
  rw [hmask] at hi
  rcases hdone.dir.entry _ hlt with hold | hnew | hnew
  · rw [hi, Nat.mod_mod_of_dvd _ hdvd, ← hshape.binOf_eq, hbin, Option.some.injEq] at hold
    exact Or.inl hold
  · rw [hi, Option.some.injEq] at hnew
    exact Or.inl hnew
  · rw [hi, Option.some.injEq] at hnew
    exact Or.inr hnew

theorem EbinOk.of_half {maxLog n depth mask j : Nat} {xs : List El} {e : Ebin El (List Entry)}
    (h : Half key n depth mask xs e) (hn : n = 2 ^ j) (hone : 1 ≤ j) (hle : j ≤ maxLog) :
    EbinOk key maxLog e :=
  ⟨h.dense, h.start, j, hone, hle, h.groups.trans hn⟩

theorem Half.room {n depth mask : Nat} {xs : List El} {e : Ebin El (List Entry)}
    (h : Half key n depth mask xs e) (hlen : xs.length < 4 * n) :
    e.bin.elsBound < e.bin.elsSize := by
  rw [h.bound, Hbin.elsSize, h.groups]
  exact hlen

/-- A split leaves room in both bins, since neither gets all the elements. -/
theorem SplitDone.room {b k maxLog : Nat} {t : IdealIxht El} {e : Ebin El (List Entry)}
    (hdone : SplitDone key e.bin.numGroups a b e k t) (hok : EbinOk key maxLog e)
    (hmask : e.mask < 2 ^ e.depth) (hb : a.bins[b]? = some e) (hi : i = b ∨ i = a.bins.length) :
    ∃ f depth mask xs, t.bins[i]? = some f ∧ Half key e.bin.numGroups depth mask xs f ∧
      (∀ x ∈ xs, x ∈ e.bin.live) ∧ f.bin.elsBound < f.bin.elsSize := by
  obtain ⟨x, y, -, hx, hy⟩ := hdone.bins_eq (List.getElem?_eq_some_iff.mp hb).1
  obtain ⟨mx, my, xs, ys, hhx, hhy, -, -, hperm, hxs, hys⟩ := hdone.halves hmask hx hy
  have hlen := hperm.length_eq
  rw [List.length_append] at hlen
  have hxpos := List.length_pos_of_ne_nil hxs
  have hypos := List.length_pos_of_ne_nil hys
  have hsub := e.pass_sublist key k
  have hpass := hsub.length_le
  have hlive := e.bin.length_live_le
  have hbound : e.bin.elsBound ≤ 4 * e.bin.numGroups := hok.dense.bound
  rcases hi with rfl | rfl
  · exact ⟨x, _, mx, xs, hx, hhx,
      fun z hz => hsub.subset (hperm.subset (List.mem_append_left ys hz)), hhx.room (by omega)⟩
  · exact ⟨y, _, my, ys, hy, hhy,
      fun z hz => hsub.subset (hperm.subset (List.mem_append_right xs hz)), hhy.room (by omega)⟩

/-- A split keeps the invariant. -/
theorem SplitDone.ok {b k : Nat} {t : IdealIxht El} {e : Ebin El (List Entry)}
    (hdone : SplitDone key e.bin.numGroups a b e k t) (h : IxOk maxPower key a)
    (hb : a.bins[b]? = some e) : IxOk maxPower key t := by
  have hmem := List.mem_of_getElem? hb
  have hok := h.bins e hmem
  obtain ⟨j, hj, hjle, hn⟩ := hok.size
  have hlt := (List.getElem?_eq_some_iff.mp hb).1
  obtain ⟨hdepth, hmask⟩ := h.shape.bins e hmem
  obtain ⟨x, y, hbins, hx, hy⟩ := hdone.bins_eq hlt
  obtain ⟨mx, my, xs, ys, hhx, hhy, hmx, hmy, hperm, -, -⟩ := hdone.halves hmask hx hy
  have hlen := hperm.length_eq
  rw [List.length_append] at hlen
  have hsub := (e.pass_sublist key k).length_le
  have hmax := hdone.dir.maxDepth
  have hd := hdone.depth
  have hmax31 := h.shape.maxDepth
  -- a bin of the new table is an old one or one of the two halves
  have hcases : ∀ f ∈ t.bins, f ∈ a.bins ∨ f = x ∨ f = y := by
    intro f hf
    rw [hbins] at hf
    rcases List.mem_append.mp hf with hf | hf
    · rcases List.mem_or_eq_of_mem_set hf with hf | hf
      · exact Or.inl hf
      · exact Or.inr (Or.inl hf)
    · exact Or.inr (Or.inr (List.mem_singleton.mp hf))
  refine ⟨?_, ⟨hdone.dir.length, hdone.dir.mask, by omega, ?_, ?_⟩, ?_⟩
  · intro f hf
    rcases hcases f hf with hf | rfl | rfl
    · exact h.bins f hf
    · exact EbinOk.of_half hhx hn hj hjle
    · exact EbinOk.of_half hhy hn hj hjle
  · intro f hf
    rcases hcases f hf with hf | rfl | rfl
    · obtain ⟨hfd, hfm⟩ := h.shape.bins f hf
      exact ⟨by omega, hfm⟩
    · rw [hhx.depth, hhx.mask]
      exact ⟨by omega, hmx⟩
    · rw [hhy.depth, hhy.mask]
      exact ⟨by omega, hmy⟩
  · intro c hc
    obtain ⟨m, hm, hmc⟩ := List.mem_iff_getElem.mp hc
    have hentry := hdone.dir.entry m hm
    rw [hdone.bins_length]
    rw [List.getElem?_eq_getElem hm, hmc] at hentry
    rcases hentry with hentry | hentry | hentry
    · have := h.shape.entries c (List.mem_of_getElem? hentry.symm)
      omega
    · rw [Option.some.injEq] at hentry
      omega
    · rw [Option.some.injEq] at hentry
      omega
  · obtain ⟨l₁, l₂, hcontents, hset, -⟩ := contents_set hb
    have hcount := h.count
    rw [hcontents] at hcount
    rw [Ixht.contents, hbins, List.flatMap_append, hset, hdone.elsNum]
    simp only [List.flatMap_cons, List.flatMap_nil, List.length_append, List.length_nil, hhx.live,
      hhy.live] at hcount ⊢
    omega

/-- Whatever `ixht_perform` has done, the invariant holds, and the bin it has chosen
    for an INSERT has room. -/
theorem Prepared.ok (hprep : Prepared maxPower key a hash action p i) (h : IxOk maxPower key a) :
    IxOk maxPower key p ∧ p.elsNum = a.elsNum ∧
      ∃ e, p.bins[i]? = some e ∧ (action = .insert → e.bin.elsBound < e.bin.elsSize) := by
  cases hprep with
  | keep hbin hi hroom => exact ⟨h, rfl, _, hi, hroom⟩
  | @rebuild _ j e e' haction hbin hi hhalf hone hsize hroom =>
    have hlt := (List.getElem?_eq_some_iff.mp hi).1
    have hmem := List.mem_of_getElem? hi
    refine ⟨⟨?_, ⟨h.shape.length, h.shape.mask, h.shape.maxDepth, ?_, ?_⟩, ?_⟩, rfl, e', ?_, ?_⟩
    · intro f hf
      rcases List.mem_or_eq_of_mem_set hf with hf | rfl
      · exact h.bins f hf
      · exact EbinOk.of_half hhalf rfl hone hsize
    · intro f hf
      rcases List.mem_or_eq_of_mem_set hf with hf | rfl
      · exact h.shape.bins f hf
      · rw [hhalf.depth, hhalf.mask]
        exact h.shape.bins e hmem
    · intro c hc
      rw [List.length_set]
      exact h.shape.entries c hc
    · obtain ⟨l₁, l₂, hcontents, hset, -⟩ := contents_set hi
      rw [Ixht.contents, hset, hhalf.live, ← hcontents]
      exact h.count
    · exact List.getElem?_set_self hlt
    · exact fun _ => hhalf.room hroom
  | @split b k _ e t haction hbin hb hfull hsplits hdone hi =>
    have hmem := List.mem_of_getElem? hb
    obtain ⟨f, _, _, _, hf, -, -, hroom⟩ := hdone.room (h.bins e hmem) (h.shape.bins e hmem).2 hb
      (hdone.binOf_cases h.shape hbin hi)
    exact ⟨hdone.ok h hb, hdone.elsNum, f, hf, fun _ => hroom⟩

end Prepare

/-! ## A call -/

section Step

variable {a a' p : IdealIxht El} {c : Call El} {i fuel : Nat} {r : Reply (Nat × Nat) El}

/-- What follows the choice of a bin. -/
theorem step_of_prepare (hkey : key.Lawful) (hp : IxOk maxPower key p) (hnum : p.elsNum < 2 ^ 31)
    {e : Ebin El (List Entry)} (he : p.bins[i]? = some e)
    (hroom : c.action = .insert → e.bin.elsBound < e.bin.elsSize) (hc : c.Ok key)
    (hprep : ixhtPrepare maxPower (idealIxhtOps key) key fuel a (key.nonzero.hash c.el) c.action =
      some (p, i)) :
    ∃ o bin, Stepped ixhtWidths key.nonzero e.bin c p.elsNum o bin ∧
      ixhtStep maxPower (idealIxhtOps key) key fuel a c =
        some (⟨o.found, o.res.map fun pos => (i, pos), o.value⟩,
          { p with elsNum := o.elsNum, bins := p.bins.set i { e with bin := bin } }) := by
  have hok := hp.bins e (List.mem_of_getElem? he)
  have hlive := Nat.le_trans (length_live_le_contents he) hp.count
  obtain ⟨o, bin, hdo, hstep⟩ := hok.dense.step hkey.nonzero ⟨hc.fresh, hc.update⟩
    (fun haction _ => hroom haction) hlive
    (by show p.elsNum + 1 < 2 ^ 32; omega)
  refine ⟨o, bin, hstep, ?_⟩
  have hdo' : (idealIxhtOps key).do1 fuel p.elsNum e.bin (key.nonzero.hash c.el) c.el c.action =
      some o := hdo
  simp only [ixhtStep, ixhtPerform, hprep, Option.bind_some, he, hdo', Option.map_some,
    hstep.written]
  rw [Ixht.setBin_setBin he]
  rfl

/-- What a call does that returns: `ixht_perform` prepares a bin with room, and
    `ixht_do_1` and the caller's write are a step of the reference on its elements. -/
theorem step_cases (hkey : key.Lawful) (hpower : PowerOk maxPower) (h : IxOk maxPower key a)
    (hnum : a.elsNum < 2 ^ 31) (hc : c.Ok key)
    (hstep : ixhtStep maxPower (idealIxhtOps key) key fuel a c = some (r, a')) :
    ∃ p i e o bin, Prepared maxPower key a (key.nonzero.hash c.el) c.action p i ∧
      p.bins[i]? = some e ∧ Stepped ixhtWidths key.nonzero e.bin c p.elsNum o bin ∧
      r = ⟨o.found, o.res.map fun pos => (i, pos), o.value⟩ ∧
      a' = { p with elsNum := o.elsNum, bins := p.bins.set i { e with bin := bin } } := by
  obtain ⟨q, hq, -⟩ := Option.bind_eq_some_iff.mp hstep
  obtain ⟨⟨p, i⟩, hprep, -⟩ := Option.bind_eq_some_iff.mp hq
  have hcases := prepare_cases hkey hpower h hnum hprep
  obtain ⟨hok, hnum', e, he, hroom⟩ := hcases.ok h
  obtain ⟨o, bin, hstepped, heq⟩ := step_of_prepare hkey hok (hnum' ▸ hnum) he hroom hc hprep
  rw [hstep, Option.some.injEq] at heq
  obtain ⟨hr, ha'⟩ := Prod.mk.inj heq
  exact ⟨p, i, e, o, bin, hcases, he, hstepped, hr, ha'⟩

/-- The last `ixht_do_1` and the caller's write keep the invariant. -/
theorem IxOk.stepped (hp : IxOk maxPower key p) {e : Ebin El (List Entry)}
    (he : p.bins[i]? = some e) {o : Outcome El (List Entry)} {bin : IdealBin El}
    (hstep : Stepped ixhtWidths key.nonzero e.bin c p.elsNum o bin) :
    IxOk maxPower key
      { p with elsNum := o.elsNum, bins := p.bins.set i { e with bin := bin } } := by
  have hmem := List.mem_of_getElem? he
  have hok := hp.bins e hmem
  refine ⟨?_, ⟨hp.shape.length, hp.shape.mask, hp.shape.maxDepth, ?_, ?_⟩, ?_⟩
  · intro f hf
    rcases List.mem_or_eq_of_mem_set hf with hf | rfl
    · exact hp.bins f hf
    · obtain ⟨j, hj, hle, hn⟩ := hok.size
      refine ⟨hstep.ok, hok.start, j, hj, hle, ?_⟩
      show bin.groupsMask + 1 = 2 ^ j
      rw [hstep.mask]
      exact hn
  · intro f hf
    rcases List.mem_or_eq_of_mem_set hf with hf | rfl
    · exact hp.shape.bins f hf
    · exact hp.shape.bins e hmem
  · intro d hd
    rw [List.length_set]
    exact hp.shape.entries d hd
  · obtain ⟨l₁, l₂, hcontents, hset, -⟩ := contents_set he
    have hcount := hp.count
    have hstepcount := hstep.count
    rw [hcontents] at hcount
    rw [Ixht.contents, hset]
    simp only [List.length_append] at hcount ⊢
    omega

theorem IxOk.step (hkey : key.Lawful) (hpower : PowerOk maxPower) (h : IxOk maxPower key a)
    (hnum : a.elsNum < 2 ^ 31) (hc : c.Ok key)
    (hstep : ixhtStep maxPower (idealIxhtOps key) key fuel a c = some (r, a')) :
    IxOk maxPower key a' := by
  obtain ⟨p, i, e, o, bin, hprep, he, hstepped, -, rfl⟩ := step_cases hkey hpower h hnum hc hstep
  exact (hprep.ok h).1.stepped he hstepped

theorem IxOk.step_elsNum_le (hkey : key.Lawful) (hpower : PowerOk maxPower)
    (h : IxOk maxPower key a) (hnum : a.elsNum < 2 ^ 31) (hc : c.Ok key)
    (hstep : ixhtStep maxPower (idealIxhtOps key) key fuel a c = some (r, a')) :
    a'.elsNum ≤ a.elsNum + 1 := by
  obtain ⟨p, i, e, o, bin, hprep, -, hstepped, -, rfl⟩ := step_cases hkey hpower h hnum hc hstep
  have hcount := hstepped.count
  have hlen : (refStep key.eq e.bin.live c).2.length ≤ e.bin.live.length + 1 :=
    refStep_length_le e.bin.live c
  have hlive : bin.live.length = (refStep key.eq e.bin.live c).2.length :=
    congrArg List.length hstepped.live
  rw [(hprep.ok h).2.1] at hcount
  show o.elsNum ≤ a.elsNum + 1
  omega

end Step

end IndexedHash
