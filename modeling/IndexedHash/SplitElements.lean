import Mathlib.Data.Nat.Bitwise
import Mathlib.Tactic.Common
import IndexedHash.Directory

/-!
# The elements of a split

What a split does with the live elements of the bin, in closed form.  As long as no
pass separates them, each pass moves all elements to the other bin if their bit is set
and leaves them where they are if not.  Whenever they have been compacted in the bin
that is split, the next pass reads them through the bitmap from before the split, which
no longer speaks of these positions, and drops one element for each position that was
deleted (`Pass.next_eq`).

So a split loses elements as soon as one is separated late and the elements pass
through the original bin in between (`ixht_split_keeps_iff`), and it comes to an end only if
the elements that are left at some bit differ in it (`ixht_insert_returns_iff`).
-/

namespace IndexedHash

open Loop KeyedList

variable {El G : Type} {key : Key El}

/-! ## Passes that do not separate the elements -/

section Passes

variable {d k : Nat} {x : El}

/-- Elements that are not separated all have the bit that one of them has. -/
theorem goesNew_eq_of_not_mixed {xs : List El} (h : ¬ Mixed key d xs) (hx : x ∈ xs) {y : El}
    (hy : y ∈ xs) : goesNew key d y = goesNew key d x := by
  cases hxb : goesNew key d x with
  | false =>
    by_contra hyb
    exact h ⟨⟨x, hx, hxb⟩, y, hy, by simpa using hyb⟩
  | true =>
    by_contra hyb
    exact h ⟨⟨y, hy, by simpa using hyb⟩, x, hx, hxb⟩

/-- A pass that does not separate the elements, in terms of one of them. -/
theorem Pass.next_eq {p : Pass El} (h : ¬ Mixed key d p.els) (hx : x ∈ p.els) (map : Bitmap) :
    (p.next key map d).own = (p.own ^^ goesNew key d x) ∧
      (p.next key map d).els = if p.own ^^ goesNew key d x then map.thin p.els else p.els := by
  have hany : p.els.any (!goesNew key d ·) = !goesNew key d x := by
    cases hxb : goesNew key d x with
    | false => exact List.any_eq_true.mpr ⟨x, hx, by simp [hxb]⟩
    | true =>
      refine List.any_eq_false.mpr fun y hy => ?_
      simp [goesNew_eq_of_not_mixed h hx hy, hxb]
  have hown : (p.next key map d).own = (p.own ^^ goesNew key d x) := by
    simp only [Pass.next, hany]
    cases goesNew key d x <;> cases p.own <;> rfl
  refine ⟨hown, ?_⟩
  rw [← hown]
  rfl

theorem Ebin.pass_sublist_of_le (key : Key El) (e : Ebin El G) {i : Nat} (hik : i ≤ k) :
    (e.pass key k).els.Sublist (e.pass key i).els := by
  induction k with
  | zero =>
    have hi : i = 0 := by omega
    subst hi
    exact List.Sublist.refl _
  | succ k ih =>
    by_cases hi : i = k + 1
    · subst hi
      exact List.Sublist.refl _
    · exact (Pass.next_sublist key _ _ _).trans (ih (by omega))

end Passes

/-! ## Which splits lose elements -/

section Loss

variable {e : Ebin El G} {k : Nat}

/-- The first bit separates the elements, or it sends all of them to the new bin and
    they stay there up to the bit that separates them. -/
def LeavesAtOnce (key : Key El) (d : Nat) (xs : List El) : Prop :=
  ∃ k, Mixed key (d + k) xs ∧ ∀ x ∈ xs, (key.nonzero.hash x).toNat >>> d % 2 ^ k = 1 % 2 ^ k

theorem shiftRight_mod_eq_one_iff (h d k : Nat) :
    h >>> d % 2 ^ k = 1 % 2 ^ k ↔ ∀ i < k, h.testBit (d + i) = decide (i = 0) := by
  have hone : ∀ i, (1 : Nat).testBit i = decide (i = 0) := by
    intro i
    cases i with
    | zero => rfl
    | succ i => simp [Nat.testBit_succ]
  constructor
  · intro heq i hi
    have := congrArg (Nat.testBit · i) heq
    simpa [Nat.testBit_mod_two_pow, hi, Nat.testBit_shiftRight, hone] using this
  · intro hbits
    apply Nat.eq_of_testBit_eq
    intro i
    rw [Nat.testBit_mod_two_pow, Nat.testBit_mod_two_pow, Nat.testBit_shiftRight, hone]
    by_cases hi : i < k
    · rw [hbits i hi]
    · simp [hi]

/-- Elements that leave at once are read in the new bin, and all of them. -/
theorem Ebin.pass_of_leaves {m : Nat} (hmix : Mixed key (e.depth + m) e.bin.live)
    (hbits : ∀ x ∈ e.bin.live, (key.nonzero.hash x).toNat >>> e.depth % 2 ^ m = 1 % 2 ^ m)
    (hk : k ≤ m) : (e.pass key k).els = e.bin.live ∧ (e.pass key k).own = decide (k = 0) := by
  induction k with
  | zero => exact ⟨rfl, rfl⟩
  | succ k ih =>
    obtain ⟨hels, hown⟩ := ih (by omega)
    obtain ⟨⟨x, hx, -⟩, -⟩ := hmix
    have hbit : ∀ y ∈ e.bin.live, goesNew key (e.depth + k) y = decide (k = 0) := fun y hy =>
      (shiftRight_mod_eq_one_iff _ _ _).mp (hbits y hy) k (by omega)
    have hnot : ¬ Mixed key (e.depth + k) (e.pass key k).els := by
      rw [hels]
      rintro ⟨⟨y, hy, hyb⟩, z, hz, hzb⟩
      rw [hbit y hy] at hyb
      rw [hbit z hz, hyb] at hzb
      cases hzb
    obtain ⟨hown', hels'⟩ := Pass.next_eq hnot (hels ▸ hx) e.bin.deleted
    have hfalse : ((e.pass key k).own ^^ goesNew key (e.depth + k) x) = false := by
      rw [hown, hbit x hx, Bool.xor_self]
    rw [hfalse] at hown' hels'
    refine ⟨hels'.trans hels, hown'.trans ?_⟩
    simp

/-- The last pass finds all elements in exactly two cases: no position that the
    elements are compacted to was deleted, or they leave the bin at once. -/
theorem Ebin.pass_els_eq_iff (hmix : Mixed key (e.depth + k) (e.pass key k).els)
    (hearlier : ∀ j < k, ¬ Mixed key (e.depth + j) (e.pass key j).els) :
    (e.pass key k).els = e.bin.live ↔ (∀ i < e.bin.live.length, e.bin.deleted.test i = false) ∨
      LeavesAtOnce key e.depth e.bin.live := by
  constructor
  · intro heq
    refine Classical.or_iff_not_imp_left.mpr fun hdead => ⟨k, heq ▸ hmix, fun x hx => ?_⟩
    have hall : ∀ i ≤ k, (e.pass key i).els = e.bin.live := by
      intro i hi
      have hle := (e.pass_sublist_of_le key hi).length_le
      rw [heq] at hle
      exact (e.pass_sublist key i).eq_of_length_le hle
    -- no pass reads the bin again, or it would miss elements
    have hown : ∀ i ≤ k, (e.pass key i).own = decide (i = 0) := by
      intro i hi
      cases i with
      | zero => rfl
      | succ i =>
        have hels : (e.pass key (i + 1)).els = if (e.pass key (i + 1)).own then
            e.bin.deleted.thin (e.pass key i).els else (e.pass key i).els := rfl
        rw [hall _ hi, hall i (by omega)] at hels
        cases hcase : (e.pass key (i + 1)).own with
        | false => simp
        | true =>
          rw [hcase, if_pos rfl] at hels
          exact absurd (Bitmap.thin_eq_self_iff.mp hels.symm) hdead
    refine (shiftRight_mod_eq_one_iff _ _ _).mpr fun i hi => ?_
    have hnext := (Pass.next_eq (hearlier i hi) (hall i (by omega) ▸ hx) e.bin.deleted).1
    have hnext : (e.pass key (i + 1)).own = ((e.pass key i).own ^^ goesNew key (e.depth + i) x) :=
      hnext
    rw [hown i (by omega), hown (i + 1) (by omega)] at hnext
    show goesNew key (e.depth + i) x = decide (i = 0)
    cases hbit : goesNew key (e.depth + i) x <;> simp_all
  · rintro (hclear | ⟨m, hmixm, hbits⟩)
    · have hall : ∀ i, (e.pass key i).els = e.bin.live := by
        intro i
        induction i with
        | zero => rfl
        | succ i ih =>
          show (if (e.pass key (i + 1)).own then e.bin.deleted.thin (e.pass key i).els
            else (e.pass key i).els) = _
          rw [ih, Bitmap.thin_eq_self hclear, ite_self]
      exact hall k
    · -- the loop does not go on after the bit that separates them
      have hkm : k ≤ m := by
        by_contra hgt
        refine hearlier m (by omega) ?_
        rw [(Ebin.pass_of_leaves hmixm hbits (Nat.le_refl m)).1]
        exact hmixm
      exact (Ebin.pass_of_leaves hmixm hbits hkm).1

end Loss

/-! ## The other bins -/

section Others

variable {ops : BinOps El G} {fuel : Nat}

theorem Ixht.deepen_bins {t t' : Ixht El G} {d : Nat} (h : t.deepen d = some t') :
    t'.bins = t.bins := by
  unfold Ixht.deepen at h
  split at h
  · split at h
    · rw [← Option.some.inj h]
    · cases h
  · rw [← Option.some.inj h]

theorem Ixht.redirect_bins {t t' : Ixht El G} {mask ind : Nat} (h : t.redirect mask ind = some t') :
    t'.bins = t.bins := by
  unfold Ixht.redirect at h
  split at h
  · rw [← Option.some.inj h]
  · cases h

/-- What a pass has done when it goes round or leaves with `s'`: the bins of `s'` are
    those of the table after it, and it may have exchanged the two indices. -/
structure PassTaken (ops : BinOps El G) (key : Key El) (fuel : Nat) (s s' : Splitting El G)
    (bin newBin : Ebin El G) (t : Ixht El G) (h : Halves El G) : Prop where
  at_new : s.table.bins[s.newInd]? = some newBin
  at_bin : s.table.bins[s.binInd]? = some bin
  directory : ((s.table.deepen (bin.depth + 1)).bind fun t =>
    t.redirect (bin.mask ||| 2 ^ bin.depth) s.newInd) = some t
  halves : ∃ groups, ops.clear bin.bin.numGroups bin.bin.groups = some groups ∧
    (List.range' bin.elsStart (bin.bin.elsBound - bin.elsStart)).foldlM
      (ixhtDistribute ops key fuel (2 ^ bin.depth))
      ⟨t.elsNum, bin.bin.emptied groups, newBin.bin, false, false⟩ = some h
  table : s'.table = (s.close t bin newBin h).table
  indices : s'.binInd = s.binInd ∧ s'.newInd = s.newInd ∨
    s'.binInd = s.newInd ∧ s'.newInd = s.binInd

theorem splitPass_taken {s : Splitting El G} {r : Step (Splitting El G) (Splitting El G)}
    (h : ixhtSplitPass ops key fuel s = some r) :
    ∃ s' bin newBin t halves, PassTaken ops key fuel s s' bin newBin t halves ∧
      (r = .again s' ∨ r = .leave s') := by
  obtain ⟨newBin, hnew, h⟩ := Option.bind_eq_some_iff.mp h
  obtain ⟨bin, hbin, h⟩ := Option.bind_eq_some_iff.mp h
  obtain ⟨groups, hgroups, h⟩ := Option.bind_eq_some_iff.mp h
  split at h
  · cases h
  obtain ⟨t₁, hdeepen, h⟩ := Option.bind_eq_some_iff.mp h
  obtain ⟨t₂, hredirect, h⟩ := Option.bind_eq_some_iff.mp h
  obtain ⟨halves, hloop, h⟩ := Option.map_eq_some_iff.mp h
  have hdir : ((s.table.deepen (bin.depth + 1)).bind fun t =>
      t.redirect (bin.mask ||| 2 ^ bin.depth) s.newInd) = some t₂ := by
    rw [hdeepen]
    exact hredirect
  have hstay : PassTaken ops key fuel s (s.close t₂ bin newBin halves) bin newBin t₂ halves :=
    ⟨hnew, hbin, hdir, ⟨groups, hgroups, hloop⟩, rfl, Or.inl ⟨rfl, rfl⟩⟩
  dsimp only at h
  split at h
  · refine ⟨_, bin, newBin, t₂, halves, ?_, Or.inl h.symm⟩
    exact ⟨hnew, hbin, hdir, hstay.halves, rfl, Or.inr ⟨rfl, rfl⟩⟩
  · split at h
    · exact ⟨_, bin, newBin, t₂, halves, hstay, Or.inr h.symm⟩
    · exact ⟨_, bin, newBin, t₂, halves, hstay, Or.inl h.symm⟩

/-- An invariant of the passes holds when the loop of the split is left. -/
theorem splitLoop_invariant (I : Splitting El G → Prop)
    (hpass : ∀ s s' bin newBin t h, I s → PassTaken ops key fuel s s' bin newBin t h → I s')
    {n : Nat} {s s' : Splitting El G} (hs : I s)
    (hloop : forever (ixhtSplitPass ops key fuel) n s = some s') : I s' := by
  refine forever_invariant I I ?_ ?_ hs hloop
  · intro s s' hs hstep
    obtain ⟨s'', bin, newBin, t, h, htaken, hr⟩ := splitPass_taken hstep
    rcases hr with hr | hr
    · rw [Step.again.injEq] at hr
      exact hr ▸ hpass _ _ _ _ _ _ hs htaken
    · cases hr
  · intro s s' hs hstep
    obtain ⟨s'', bin, newBin, t, h, htaken, hr⟩ := splitPass_taken hstep
    rcases hr with hr | hr
    · cases hr
    · rw [Step.leave.injEq] at hr
      exact hr ▸ hpass _ _ _ _ _ _ hs htaken

section Taken

variable {s s' : Splitting El G} {bin newBin : Ebin El G} {t : Ixht El G} {h : Halves El G}

/-- What a pass does to the directory leaves the bins alone. -/
theorem PassTaken.bins (htaken : PassTaken ops key fuel s s' bin newBin t h) :
    t.bins = s.table.bins := by
  obtain ⟨t₁, hdeepen, hredirect⟩ := Option.bind_eq_some_iff.mp htaken.directory
  rw [Ixht.redirect_bins hredirect, Ixht.deepen_bins hdeepen]

theorem PassTaken.length_bins (htaken : PassTaken ops key fuel s s' bin newBin t h) :
    s'.table.bins.length = s.table.bins.length := by
  rw [htaken.table]
  simp only [Splitting.close, List.length_set, htaken.bins]

theorem PassTaken.others (htaken : PassTaken ops key fuel s s' bin newBin t h) {i : Nat}
    (hi : s.binInd ≠ i) (hi' : s.newInd ≠ i) :
    s'.binInd ≠ i ∧ s'.newInd ≠ i ∧ s'.table.bins[i]? = s.table.bins[i]? := by
  have hbins : s'.table.bins[i]? = s.table.bins[i]? := by
    rw [htaken.table]
    simp only [Splitting.close]
    rw [List.getElem?_set_ne hi', List.getElem?_set_ne hi, htaken.bins]
  rcases htaken.indices with ⟨hb, hn⟩ | ⟨hb, hn⟩
  · rw [hb, hn]
    exact ⟨hi, hi', hbins⟩
  · rw [hb, hn]
    exact ⟨hi', hi, hbins⟩

end Taken

/-- A split touches the bin and the one created for it only. -/
theorem splitBin_others {b : Nat} {t t' : Ixht El G} (h : ixhtSplitBin ops key fuel t b = some t')
    {i : Nat} (hib : i ≠ b) (hin : i ≠ t.bins.length) : t'.bins[i]? = t.bins[i]? := by
  obtain ⟨e, -, h⟩ := Option.bind_eq_some_iff.mp h
  obtain ⟨s, hloop, hfinish⟩ := Option.bind_eq_some_iff.mp h
  have hinv : s.binInd ≠ i ∧ s.newInd ≠ i ∧ s.table.bins[i]? = t.bins[i]? := by
    refine splitLoop_invariant
      (fun s => s.binInd ≠ i ∧ s.newInd ≠ i ∧ s.table.bins[i]? = t.bins[i]?) ?_
      ⟨Ne.symm hib, Ne.symm hin, ?_⟩ hloop
    · rintro s s' bin newBin t' h ⟨hb, hn, hbins⟩ htaken
      obtain ⟨hb', hn', hbins'⟩ := htaken.others hb hn
      exact ⟨hb', hn', hbins'.trans hbins⟩
    · by_cases hlt : i < t.bins.length
      · exact List.getElem?_append_left hlt
      · have hlen : (t.bins ++ [ixhtCreateBin ops e.bin.halfIndexes]).length ≤ i := by
          rw [List.length_append, List.length_singleton]
          omega
        exact (List.getElem?_eq_none hlen).trans (List.getElem?_eq_none (by omega)).symm
  obtain ⟨ob, -, h⟩ := Option.bind_eq_some_iff.mp hfinish
  obtain ⟨ob', -, h⟩ := Option.bind_eq_some_iff.mp h
  obtain ⟨nb, -, h⟩ := Option.bind_eq_some_iff.mp h
  obtain ⟨nb', -, rfl⟩ := Option.map_eq_some_iff.mp h
  show ((s.table.bins.set s.binInd ob').set s.newInd nb')[i]? = _
  rw [List.getElem?_set_ne hinv.2.1, List.getElem?_set_ne hinv.1]
  exact hinv.2.2

end Others

/-! ## What a split should do -/

/-- A bin after a split: its elements agree with its mask in the last bit, no bit of
    the bitmap is set, and there is room. -/
structure SplitHalf (key : Key El) (e : Ebin El G) : Prop where
  bit : ∀ x ∈ e.bin.live, goesNew key (e.depth - 1) x = e.mask.testBit (e.depth - 1)
  clear : ∀ i, e.bin.deleted.test i = false
  room : e.bin.elsBound < e.bin.elsSize

structure SplitKeeps (key : Key El) (t : Ixht El G) (b : Nat) (e : Ebin El G) (t' : Ixht El G) :
    Prop where
  halves : ∃ x y, t'.bins[b]? = some x ∧ t'.bins[t.bins.length]? = some y ∧ SplitHalf key x ∧
    SplitHalf key y ∧ x.depth = y.depth ∧
    x.mask.testBit (x.depth - 1) ≠ y.mask.testBit (x.depth - 1) ∧
    (x.bin.live ++ y.bin.live).Perm e.bin.live
  others : ∀ i, i ≠ b → i ≠ t.bins.length → t'.bins[i]? = t.bins[i]?
  bins_length : t'.bins.length = t.bins.length + 1
  elsNum : t'.elsNum = t.elsNum
  count : t.elsNum = t.contents.length → t'.elsNum = t'.contents.length

theorem SplitHalf.of_sim {Slots : G → Nat → Nat → List Entry → Prop} {e : Ebin El G}
    {e' : Ebin El (List Entry)} (h : SplitHalf key e') (hsim : EbinSim Slots e e') :
    SplitHalf key e := by
  refine ⟨?_, ?_, ?_⟩
  · rw [hsim.depth, hsim.mask, ← hsim.bin.live]
    exact h.bit
  · rw [← hsim.bin.deleted]
    exact h.clear
  · rw [Hbin.elsSize, ← hsim.bin.elsBound, ← hsim.bin.numGroups]
    exact h.room

section Ideal

variable {n b₀ k : Nat} {t₀ t : IdealIxht El} {e₀ : Ebin El (List Entry)}

theorem Half.splitHalf {d mask : Nat} {xs : List El} {e : Ebin El (List Entry)}
    (h : Half key n (d + 1) mask xs e) (hbit : ∀ x ∈ xs, goesNew key d x = mask.testBit d)
    (hlen : xs.length < 4 * n) : SplitHalf key e := by
  refine ⟨?_, h.clear, h.room hlen⟩
  rw [h.live, h.depth, h.mask]
  exact hbit

/-- The two bins that the ideal split leaves. -/
theorem SplitDone.split_halves {maxLog : Nat} (hok : EbinOk key maxLog e₀)
    (hdone : SplitDone key e₀.bin.numGroups t₀ b₀ e₀ k t) (hmask : e₀.mask < 2 ^ e₀.depth) :
    ∃ x y, t.bins[b₀]? = some x ∧ t.bins[t₀.bins.length]? = some y ∧ SplitHalf key x ∧
      SplitHalf key y ∧ x.depth = y.depth ∧
      x.mask.testBit (x.depth - 1) ≠ y.mask.testBit (x.depth - 1) ∧
      (x.bin.live ++ y.bin.live).Perm (e₀.pass key k).els := by
  obtain ⟨e, e', he, he', hcases⟩ := hdone.sides
  have hperm := staying_append_going key (e₀.depth + k) (e₀.pass key k).els
  -- neither side has all the elements
  obtain ⟨hstay, hgo⟩ := hdone.mixed.sides_ne_nil
  have hspos := List.length_pos_of_ne_nil hstay
  have hgpos := List.length_pos_of_ne_nil hgo
  have hlen := hperm.length_eq
  rw [List.length_append] at hlen
  have hsub := (e₀.pass_sublist key k).length_le
  have hlive := e₀.bin.length_live_le
  have hbound : e₀.bin.elsBound ≤ 4 * e₀.bin.numGroups := hok.dense.bound
  -- the mask of the side that goes has the bit
  have hlow : (e₀.pass key k).mask.testBit (e₀.depth + k) = false :=
    Nat.testBit_lt_two_pow (Ebin.pass_mask_lt key hmask k)
  have hhigh : ((e₀.pass key k).mask ||| 2 ^ (e₀.depth + k)).testBit (e₀.depth + k) = true := by
    rw [Nat.testBit_or, Nat.testBit_two_pow_self, Bool.or_true]
  have hh : SplitHalf key e := he.splitHalf (by
    intro x hx
    have := (List.mem_filter.mp hx).2
    rw [hlow]
    simpa using this) (by omega)
  have hh' : SplitHalf key e' := he'.splitHalf (by
    intro x hx
    rw [hhigh]
    exact (List.mem_filter.mp hx).2) (by omega)
  have hd : e.depth - 1 = e₀.depth + k := by rw [he.depth]; rfl
  have hd' : e'.depth - 1 = e₀.depth + k := by rw [he'.depth]; rfl
  rcases hcases with ⟨hx, hy⟩ | ⟨hx, hy⟩
  · refine ⟨e, e', hx, hy, hh, hh', he.depth.trans he'.depth.symm, ?_, ?_⟩
    · rw [hd, he.mask, he'.mask, hlow, hhigh]
      decide
    · rw [he.live, he'.live]
      exact hperm
  · refine ⟨e', e, hx, hy, hh', hh, he'.depth.trans he.depth.symm, ?_, ?_⟩
    · rw [hd', he.mask, he'.mask, hlow, hhigh]
      decide
    · rw [he.live, he'.live]
      exact List.perm_append_comm.trans hperm

/-- The other bins contribute to the contents what they did before. -/
theorem SplitDone.contents_perm (hdone : SplitDone key n t₀ b₀ e₀ k t)
    (hb₀ : t₀.bins[b₀]? = some e₀) {x y : Ebin El (List Entry)} (hx : t.bins[b₀]? = some x)
    (hy : t.bins[t₀.bins.length]? = some y)
    (hperm : (x.bin.live ++ y.bin.live).Perm e₀.bin.live) : t.contents.Perm t₀.contents := by
  obtain ⟨x', y', hbins, hx', hy'⟩ := hdone.bins_eq (List.getElem?_eq_some_iff.mp hb₀).1
  have hxx : x' = x := Option.some.inj (hx'.symm.trans hx)
  have hyy : y' = y := Option.some.inj (hy'.symm.trans hy)
  obtain ⟨l₁, l₂, hcontents, hset, -⟩ := contents_set hb₀
  have hnew : t.contents = l₁ ++ x.bin.live ++ l₂ ++ y.bin.live := by
    rw [Ixht.contents, hbins, List.flatMap_append, hset, hxx, hyy, List.flatMap_cons,
      List.flatMap_nil, List.append_nil]
  rw [hnew, hcontents]
  have hmove : (l₂ ++ y.bin.live).Perm (y.bin.live ++ l₂) := List.perm_append_comm
  have hjoin := (hmove.append_left x.bin.live).append_left l₁
  have hswap := (hperm.append_right l₂).append_left l₁
  simp only [List.append_assoc] at hjoin hswap ⊢
  exact hjoin.trans hswap

end Ideal

section Real

variable {t t' : Ixht El (List Group)} {b : Nat} {e : Ebin El (List Group)}

theorem WellFormed.splitKeeps_iff (hkey : key.Lawful) (target : Target) (h : WellFormed key t)
    (hb : t.bins[b]? = some e)
    (hsplit : Returns (fun fuel => ixhtSplitBin (ixhtOps key target) key fuel t b) t') :
    SplitKeeps key t b e t' ↔ (∀ i < e.bin.live.length, e.bin.deleted.test i = false) ∨
      LeavesAtOnce key e.depth e.bin.live := by
  have hmem := List.mem_of_getElem? hb
  obtain ⟨a, k, hsim, hdone⟩ := h.split_done hkey target hb hsplit
  have hb' : (idealIxht key t).bins[b]? = some (idealEbin key e) := idealIxht_getElem? hb
  obtain ⟨x', y', hx', hy', hhx, hhy, hdepth, hmask, hperm⟩ :=
    hdone.split_halves (h.bins e hmem).ideal (h.shape.bins e hmem).2
  obtain ⟨x, hx, hxx⟩ := Forall₂.exists_of_right hsim.bins hx'
  obtain ⟨y, hy, hyy⟩ := Forall₂.exists_of_right hsim.bins hy'
  have hlen : (idealIxht key t).bins.length = t.bins.length := List.length_map _
  rw [hlen] at hy
  have hall : (idealEbin key e).bin.live = e.bin.live := rfl
  rw [hxx.bin.live, hyy.bin.live] at hperm
  have hiff := Ebin.pass_els_eq_iff hdone.mixed hdone.earlier
  rw [hall] at hiff
  refine Iff.trans ⟨fun hkeeps => ?_, fun heq => ?_⟩ hiff
  · obtain ⟨u, v, hu, hv, -, -, -, -, huv⟩ := hkeeps.halves
    have hux : u = x := Option.some.inj (hu.symm.trans hx)
    have hvy : v = y := Option.some.inj (hv.symm.trans hy)
    rw [hux, hvy] at huv
    exact ((idealEbin key e).pass_sublist key k).eq_of_length (hperm.symm.trans huv).length_eq
  · rw [heq] at hperm
    obtain ⟨fuel, hfuel⟩ := hsplit.exists_some
    refine ⟨⟨x, y, hx, hy, hhx.of_sim hxx, hhy.of_sim hyy, ?_, ?_, hperm⟩,
      fun i hib hin => splitBin_others hfuel hib hin, ?_, ?_, ?_⟩
    · rw [hxx.depth, hyy.depth, hdepth]
    · rw [hxx.depth, hxx.mask, hyy.mask]
      exact hmask
    · rw [hsim.bins.length_eq, hdone.bins_length, hlen]
    · rw [hsim.elsNum, hdone.elsNum]
      rfl
    · intro hcount
      have hcontents := hdone.contents_perm hb' hx' hy' (by rw [hxx.bin.live, hyy.bin.live]; exact hperm)
      rw [hsim.elsNum, hdone.elsNum, hsim.contents, hcontents.length_eq, ← h.sim.contents]
      exact hcount

end Real

/-- A split loses and duplicates nothing in exactly two cases: no position that the live
    elements are compacted to was deleted, or no pass but the first reads them in the
    bin that is split. -/
theorem ixht_split_keeps_iff (hkey : key.Lawful) (target : Target) :
    ∀ t, WellFormed key t → ∀ b e t', t.bins[b]? = some e →
      Returns (fun fuel => ixhtSplitBin (ixhtOps key target) key fuel t b) t' →
      (SplitKeeps key t b e t' ↔ (∀ i < e.bin.live.length, e.bin.deleted.test i = false) ∨
        LeavesAtOnce key e.depth e.bin.live) :=
  fun _ h _ _ _ hb hsplit => h.splitKeeps_iff hkey target hb hsplit

theorem ixht_split_keeps_even :
    ∃ t e t', WellFormed identityKey t ∧ t.bins[0]? = some e ∧
      Returns (fun fuel => ixhtSplitBin (ixhtOps identityKey .swar) identityKey fuel t 0) t' ∧
      SplitKeeps identityKey t 0 e t' := by
  obtain ⟨t, e, t', hwf, -, -, hb, hd, hmix, ht'⟩ := exists_even_split
  refine ⟨t, e, t', hwf, hb, ht', ?_⟩
  refine (ixht_split_keeps_iff identityKey_lawful .swar t hwf 0 e t' hb ht').mpr
    (Or.inr ⟨0, ?_, fun x _ => ?_⟩)
  · rw [hd]
    exact hmix
  · rw [Nat.pow_zero, Nat.mod_one, Nat.mod_one]

/-- Elements `8`, `2`, `4` and `6` are inserted and `8` is deleted.  The first pass of a
    split leaves `2`, `4` and `6` in place and compacts them; the second pass skips the
    first position, and `2` is lost. -/
theorem ixht_split_loses :
    ∃ t e t', WellFormed identityKey t ∧ Dir identityKey t ∧ t.bins[0]? = some e ∧
      e.bin.live = [2, 4, 6] ∧
      Returns (fun fuel => ixhtSplitBin (ixhtOps identityKey .swar) identityKey fuel t 0) t' ∧
      ¬ SplitKeeps identityKey t 0 e t' := by
  obtain ⟨t, e, hwf, hdir, -, hb, hee⟩ := exists_oneBin (n := 3) (plainCalls_ok identityKey_lawful
      [(.insert, 8), (.insert, 2), (.insert, 4), (.insert, 6), (.delete, 8)]) (by decide)
    (show ixhtRun _ _ _ 1 _ _ = some (_, oneBin 3 { smallBin [8, 2, 4, 6] with
      deleted := [1], groups := [⟨1, 2⟩, ⟨2, 4⟩, ⟨3, 6⟩] }) from rfl)
  have hd : e.depth = 0 := hee.depth
  have hlive : e.bin.live = [2, 4, 6] := hee.bin.live.symm
  have hdeleted : e.bin.deleted = [1] := hee.bin.deleted.symm
  have hsecond : Mixed identityKey 1 (e.pass identityKey 1).els := by
    rw [hee.pass, mixed_iff]
    decide
  obtain ⟨t', ht'⟩ := (hwf.split_returns_iff identityKey_lawful .swar hb).mpr
    ⟨1, by omega, by rw [hd]; exact hsecond⟩
  refine ⟨t, e, t', hwf, hdir, hb, hlive, ht', fun hkeeps => ?_⟩
  rcases (hwf.splitKeeps_iff identityKey_lawful .swar hb ht').mp hkeeps with hclear | ⟨k, hmix, hbits⟩
  · have := hclear 0 (by rw [hlive]; decide)
    rw [hdeleted] at this
    exact absurd this (by decide)
  · -- no element has the first bit, so no bit may come before the one that separates them
    rw [hd, hlive] at hmix hbits
    cases k with
    | zero => exact absurd (mixed_iff.mp hmix) (by decide)
    | succ k =>
      have := (shiftRight_mod_eq_one_iff _ _ _).mp (hbits 2 (by decide)) 0 (Nat.succ_pos k)
      exact absurd this (by decide)

end IndexedHash
