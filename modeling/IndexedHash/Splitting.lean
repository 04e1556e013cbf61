import Mathlib.Data.Nat.Bitwise
import Mathlib.Tactic.Common
import IndexedHash.Ixht

/-!
# `ixht_split_bin` on the ideal index

A pass of the split reads the live elements of one bin and distributes them, by one
bit of their hashes, over that bin and an empty one; the elements that stay are
compacted in place.  `distribute_ideal` and `splitPass_ideal` say what a pass leaves.

The bitmap of a bin is cleared after the last pass only.  So a pass that reads a bin
which an earlier pass has compacted skips the positions that were deleted before the
split, whatever is there now: it reads `map.thin xs` where `xs` was written.  `Pass`
is the abstract state of the split between two passes, and `Pass.next` what a pass
does to it when all elements go to one side.
-/

namespace IndexedHash

open Loop KeyedList

variable {El : Type} {key : Key El}

theorem Key.Lawful.nonzero (hkey : key.Lawful) : key.nonzero.Lawful where
  refl := hkey.refl
  symm := hkey.symm
  trans := hkey.trans
  hash_eq x y h := by simp only [Key.nonzero, hkey.hash_eq x y h]

abbrev IdealIxht (El : Type) := Ixht El (List Entry)

abbrev idealIxhtOps (key : Key El) : BinOps El (List Entry) := idealOps ixhtWidths key.eq

/-- Bit `d` of the hash is set: at depth `d` the element goes to the new bin. -/
def goesNew (key : Key El) (d : Nat) (x : El) : Bool := (key.nonzero.hash x).toNat.testBit d

theorem and_splitMask_eq_zero {key : Key El} {d : Nat} {x : El} :
    (key.nonzero.hash x).toNat &&& 2 ^ d = 0 ↔ goesNew key d x = false := by
  rw [Nat.and_two_pow, goesNew]
  cases (key.nonzero.hash x).toNat.testBit d
  · simp
  · simp

def staying (key : Key El) (d : Nat) (xs : List El) : List El := xs.filter (!goesNew key d ·)
def going (key : Key El) (d : Nat) (xs : List El) : List El := xs.filter (goesNew key d)

def Mixed (key : Key El) (d : Nat) (xs : List El) : Prop :=
  (∃ x ∈ xs, goesNew key d x = false) ∧ ∃ x ∈ xs, goesNew key d x = true

theorem mixed_iff {d : Nat} {xs : List El} :
    Mixed key d xs ↔ xs.any (!goesNew key d ·) = true ∧ xs.any (goesNew key d) = true := by
  simp [Mixed]

/-- Elements that are not mixed go to the side of any of them. -/
theorem sides_of_not_mixed {d : Nat} {xs : List El} (h : ¬ Mixed key d xs) :
    (xs.any (!goesNew key d ·) = true → staying key d xs = xs ∧ going key d xs = []) ∧
      (xs.any (!goesNew key d ·) = false → staying key d xs = [] ∧ going key d xs = xs) := by
  constructor
  · intro hstay
    have hnone : ∀ x ∈ xs, goesNew key d x = false := by
      intro x hx
      by_contra hgo
      exact h (mixed_iff.mpr ⟨hstay, List.any_eq_true.mpr ⟨x, hx, by simpa using hgo⟩⟩)
    exact ⟨List.filter_eq_self.mpr fun x hx => by simp [hnone x hx],
      List.filter_eq_nil_iff.mpr fun x hx => by simp [hnone x hx]⟩
  · intro hstay
    have hall : ∀ x ∈ xs, goesNew key d x = true := by
      intro x hx
      simpa using List.any_eq_false.mp hstay x hx
    exact ⟨List.filter_eq_nil_iff.mpr fun x hx => by simp [hall x hx],
      List.filter_eq_self.mpr hall⟩

/-! ## The inner loop -/

section Distribute

variable {bin newBin : IdealBin El} {d : Nat}

def Halves.after (key : Key El) (d : Nat) (bin newBin : IdealBin El) (n : Nat) (xs : List El) :
    Halves El (List Entry) where
  elsNum := n
  bin := bin.refill key.nonzero.hash (staying key d xs)
  newBin := newBin.refill key.nonzero.hash (going key d xs)
  oldAdded := xs.any (!goesNew key d ·)
  newAdded := xs.any (goesNew key d)

theorem staying_concat_of_false {x : El} (h : goesNew key d x = false) (xs : List El) :
    staying key d (xs ++ [x]) = staying key d xs ++ [x] ∧
      going key d (xs ++ [x]) = going key d xs := by
  simp [staying, going, List.filter_append, h]

theorem staying_concat_of_true {x : El} (h : goesNew key d x = true) (xs : List El) :
    staying key d (xs ++ [x]) = staying key d xs ∧
      going key d (xs ++ [x]) = going key d xs ++ [x] := by
  simp [staying, going, List.filter_append, h]

/-- The pass over position `i` distributes the next live element, if it is one. -/
theorem distribute_ideal (h : Readable key.nonzero bin) (hbin : bin.elsBound ≤ bin.els.length)
    (hnew : bin.elsBound ≤ newBin.els.length) {i : Nat} (hi : i < bin.elsBound) (n fuel : Nat) :
    ∃ n', ixhtDistribute (idealIxhtOps key) key fuel (2 ^ d)
        (Halves.after key d bin newBin n (bin.liveUpTo i)) i =
      some (Halves.after key d bin newBin n' (bin.liveUpTo (i + 1))) := by
  have hlen := bin.length_liveUpTo_le i
  have hstay : (staying key d (bin.liveUpTo i)).length ≤ i :=
    Nat.le_trans (List.length_filter_le _ _) hlen
  have hgo : (going key d (bin.liveUpTo i)).length ≤ i :=
    Nat.le_trans (List.length_filter_le _ _) hlen
  unfold ixhtDistribute
  -- the compaction has not reached position `i`
  have hread : (Halves.after key d bin newBin n (bin.liveUpTo i)).bin.elAt i = bin.elAt i :=
    refill_elAt_ge hstay
  have hmap : (Halves.after key d bin newBin n (bin.liveUpTo i)).bin.deleted = bin.deleted := rfl
  rw [hread, hmap]
  rcases h.next hi with ⟨hdel, hlive⟩ | ⟨hdel, x, hx, hlive, hfresh⟩
  · exact ⟨n, by simp only [hdel, Option.bind_some, if_true, hlive]⟩
  · refine ⟨ixhtWidths.incr n, ?_⟩
    simp only [hdel, Option.bind_some, hx, hlive, and_splitMask_eq_zero]
    have hre : ∀ (b : IdealBin El) (ys : List El), ys.length < b.els.length →
        (∀ y ∈ ys, y ∈ bin.liveUpTo i) →
        reinsert (idealIxhtOps key) fuel n (b.refill key.nonzero.hash ys) (key.nonzero.hash x) x =
          some (ixhtWidths.incr n, b.refill key.nonzero.hash (ys ++ [x])) :=
      fun b ys hlen hsub => reinsert_refill hlen (fun y hy => hfresh y (hsub y hy)) fuel n
    cases hbit : goesNew key d x with
    | false =>
      obtain ⟨hs, hg⟩ := staying_concat_of_false hbit (bin.liveUpTo i)
      have hr := hre bin (staying key d (bin.liveUpTo i)) (by omega)
        fun y hy => List.mem_of_mem_filter hy
      simp only [Halves.after, hs, hg, hr, List.any_append, List.any_cons, List.any_nil, hbit,
        if_true, Bool.false_eq_true, if_false, Option.map_some, Bool.not_false, Bool.or_false,
        Bool.or_true]
    | true =>
      obtain ⟨hs, hg⟩ := staying_concat_of_true hbit (bin.liveUpTo i)
      have hr := hre newBin (going key d (bin.liveUpTo i)) (by omega)
        fun y hy => List.mem_of_mem_filter hy
      simp only [Halves.after, hs, hg, hr, List.any_append, List.any_cons, List.any_nil, hbit,
        Bool.true_eq_false, Bool.false_eq_true, if_false, Option.map_some, Bool.not_true,
        Bool.or_false, Bool.or_true]

theorem distributeAll_ideal (h : Readable key.nonzero bin) (hbin : bin.elsBound ≤ bin.els.length)
    (hnew : bin.elsBound ≤ newBin.els.length) (n fuel : Nat) :
    ∃ n', (List.range bin.elsBound).foldlM (ixhtDistribute (idealIxhtOps key) key fuel (2 ^ d))
        (Halves.after key d bin newBin n []) = some (Halves.after key d bin newBin n' bin.live) := by
  obtain ⟨s, hs, n', rfl⟩ := foldlM_range_spec
    (f := ixhtDistribute (idealIxhtOps key) key fuel (2 ^ d))
    (fun i s => ∃ n', s = Halves.after key d bin newBin n' (bin.liveUpTo i)) bin.elsBound
    (s := Halves.after key d bin newBin n []) ⟨n, rfl⟩ (by
      rintro i hi _ ⟨n, rfl⟩
      obtain ⟨n', hn'⟩ := distribute_ideal (d := d) h hbin hnew hi n fuel
      exact ⟨_, hn', n', rfl⟩)
  exact ⟨n', hs⟩

/-- One pass of the split: the live elements of `bin` are distributed over it and the
    empty `newBin`. -/
theorem splitPass_ideal {s : Splitting El (List Entry)} {e e' : Ebin El (List Entry)}
    {t t' : IdealIxht El} (hbin : s.table.bins[s.binInd]? = some e)
    (hnew : s.table.bins[s.newInd]? = some e') (hstart : e.elsStart = 0)
    (hread : Readable key.nonzero e.bin) (hvacant : e'.bin.elsBound = 0 ∧ e'.bin.groups = [])
    (hels : e.bin.elsBound ≤ e.bin.els.length) (hels' : e.bin.elsBound ≤ e'.bin.els.length)
    (hdepth : e.depth < 64) (hdeepen : s.table.deepen (e.depth + 1) = some t)
    (hredirect : t.redirect (e.mask ||| 2 ^ e.depth) s.newInd = some t') (fuel : Nat) :
    ixhtSplitPass (idealIxhtOps key) key fuel s =
      let next := s.close t' e e' (Halves.after key e.depth e.bin e'.bin 0 e.bin.live)
      some (if e.bin.live.any (!goesNew key e.depth ·) then
          if e.bin.live.any (goesNew key e.depth) then .leave next else .again next
        else .again { next with binInd := s.newInd, newInd := s.binInd }) := by
  have hempty := refill_nil_of_vacant hvacant.1 hvacant.2 key.nonzero.hash
  obtain ⟨n, hloop⟩ := distributeAll_ideal (d := e.depth) hread hels hels' t'.elsNum fuel
  have hinit : Halves.after key e.depth e.bin e'.bin t'.elsNum [] =
      ⟨t'.elsNum, e.bin.emptied [], e'.bin, false, false⟩ := by
    simp only [Halves.after, staying, going, List.filter_nil, hempty, List.any_nil]
    rfl
  rw [hinit] at hloop
  have hlt : ¬ 64 ≤ e.depth := by omega
  simp only [ixhtSplitPass, hbin, hnew, Option.bind_some, if_neg hlt, hdeepen, hredirect, hstart,
    Nat.sub_zero, ← List.range_eq_range', idealOps] at hloop ⊢
  rw [hloop, Option.map_some]
  by_cases hold : (e.bin.live.any fun x => !goesNew key e.depth x) = true
  · simp only [Halves.after, hold, Bool.not_true, Bool.false_eq_true, if_false, if_true]
    rfl
  · simp only [Halves.after, Bool.eq_false_iff.mpr hold, Bool.not_false, Bool.false_eq_true,
      if_false, if_true]
    rfl

end Distribute

/-! ## Passes -/

/-- The split between two passes, as far as the elements go: whether the next pass
    reads the bin that is split or the one created for it, the mask of that bin, and
    the elements that the pass finds there. -/
structure Pass (El : Type) where
  own : Bool
  mask : Nat
  els : List El

/-- The state after a pass at depth `d` that sends all elements to one side.  The bin
    that is split has the bitmap `map`, the other one an empty bitmap. -/
def Pass.next (key : Key El) (map : Bitmap) (d : Nat) (p : Pass El) : Pass El :=
  let stays := p.els.any (!goesNew key d ·)
  let own := if stays then p.own else !p.own
  { own := own
    mask := if stays then p.mask else p.mask ||| 2 ^ d
    els := if own then map.thin p.els else p.els }

def Ebin.pass {G : Type} (key : Key El) (e : Ebin El G) : Nat → Pass El
  | 0 => ⟨true, e.mask, e.bin.live⟩
  | k + 1 => (e.pass key k).next key e.bin.deleted (e.depth + k)

/-- The bin a pass at depth `d` has read, and the one it has filled, with the elements
    they have got in the storage of `b`. -/
def Pass.stayBin (key : Key El) (d : Nat) (p : Pass El) (b : IdealBin El) : Ebin El (List Entry) :=
  ⟨d + 1, p.mask, 0, b.refill key.nonzero.hash (staying key d p.els)⟩

def Pass.goBin (key : Key El) (d : Nat) (p : Pass El) (b : IdealBin El) : Ebin El (List Entry) :=
  ⟨d + 1, p.mask ||| 2 ^ d, 0, b.refill key.nonzero.hash (going key d p.els)⟩

theorem Pass.next_sublist (key : Key El) (map : Bitmap) (d : Nat) (p : Pass El) :
    (p.next key map d).els.Sublist p.els := by
  show (if (p.next key map d).own then map.thin p.els else p.els).Sublist p.els
  split
  · exact map.thin_sublist p.els
  · exact List.Sublist.refl p.els

theorem Ebin.pass_sublist {G : Type} (key : Key El) (e : Ebin El G) (k : Nat) :
    (e.pass key k).els.Sublist e.bin.live := by
  induction k with
  | zero => exact List.Sublist.refl _
  | succ k ih => exact (Pass.next_sublist key _ _ _).trans ih

theorem Ebin.pass_mask_lt {G : Type} (key : Key El) {e : Ebin El G} (h : e.mask < 2 ^ e.depth)
    (k : Nat) : (e.pass key k).mask < 2 ^ (e.depth + k) := by
  induction k with
  | zero => exact h
  | succ k ih =>
    have hle : 2 ^ (e.depth + k) ≤ 2 ^ (e.depth + (k + 1)) :=
      Nat.pow_le_pow_right (by decide) (by omega)
    have hlt : 2 ^ (e.depth + k) < 2 ^ (e.depth + (k + 1)) :=
      Nat.pow_lt_pow_right (by decide) (by omega)
    simp only [Ebin.pass, Pass.next]
    split
    · omega
    · exact Nat.or_lt_two_pow (by omega) hlt

/-! ## The directory during a split -/

structure DirShape {G : Type} (t : Ixht El G) : Prop where
  length : t.dir.length = 2 ^ t.maxDepth
  mask : t.binMask = 2 ^ t.maxDepth - 1
  maxDepth : t.maxDepth ≤ 31
  bins : ∀ e ∈ t.bins, e.depth ≤ t.maxDepth ∧ e.mask < 2 ^ e.depth
  entries : ∀ i ∈ t.dir, i < t.bins.length

def Ixht.deepened {G : Type} (t : Ixht El G) (depth : Nat) : Ixht El G :=
  { t with
    maxDepth := max t.maxDepth depth
    binMask := 2 ^ max t.maxDepth depth - 1
    dir := if t.maxDepth < depth then t.dir ++ t.dir else t.dir }

theorem Ixht.deepen_eq {G : Type} {t : Ixht El G} {d : Nat} (hlen : t.dir.length = 2 ^ t.maxDepth)
    (hmask : t.binMask = 2 ^ t.maxDepth - 1) (hle : d ≤ t.maxDepth) (hmax : t.maxDepth ≤ 31) :
    t.deepen (d + 1) = if d ≤ 30 then some (t.deepened (d + 1)) else none := by
  unfold Ixht.deepen Ixht.deepened
  by_cases hlt : t.maxDepth < d + 1
  · have hd : t.maxDepth = d := by omega
    rw [if_pos hlt, hlen, hd]
    by_cases hd30 : d ≤ 30
    · have hpow : 2 ^ d ≤ 2 ^ 30 := Nat.pow_le_pow_right (by decide) hd30
      have hok : d + 1 < 64 ∧ 2 * 2 ^ d < 2 ^ 32 := ⟨by omega, by omega⟩
      have hmaxd : max d (d + 1) = d + 1 := by omega
      rw [if_pos hok, if_pos hd30, hmaxd, if_pos (Nat.lt_succ_self d)]
    · have hd31 : d = 31 := by omega
      subst hd31
      rfl
  · have hmaxd : max t.maxDepth (d + 1) = t.maxDepth := by omega
    have hd30 : d ≤ 30 := by omega
    rw [if_neg hlt, if_pos hd30, hmaxd, if_neg hlt, ← hmask]

structure DirInv {G : Type} (t₀ : Ixht El G) (b₀ depth : Nat) (t : Ixht El G) : Prop where
  maxDepth : t.maxDepth = max t₀.maxDepth depth
  length : t.dir.length = 2 ^ t.maxDepth
  mask : t.binMask = 2 ^ t.maxDepth - 1
  entry : ∀ i < t.dir.length, t.dir[i]? = t₀.dir[i % t₀.dir.length]? ∨ t.dir[i]? = some b₀ ∨
    t.dir[i]? = some t₀.bins.length

theorem getElem?_double {α : Type} {l : List α} {i : Nat} (hi : i < (l ++ l).length) :
    (l ++ l)[i]? = l[i % l.length]? := by
  rw [List.length_append] at hi
  by_cases h : i < l.length
  · rw [List.getElem?_append_left h, Nat.mod_eq_of_lt h]
  · rw [List.getElem?_append_right (by omega), Nat.mod_eq_sub_mod (by omega),
      Nat.mod_eq_of_lt (by omega)]

theorem DirInv.deepened {G : Type} {t₀ t : Ixht El G} {b₀ d : Nat} (h : DirInv t₀ b₀ d t)
    (hlen₀ : t₀.dir.length = 2 ^ t₀.maxDepth) : DirInv t₀ b₀ (d + 1) (t.deepened (d + 1)) := by
  have hmaxd : (t.deepened (d + 1)).maxDepth = max t.maxDepth (d + 1) := rfl
  refine ⟨?_, ?_, rfl, ?_⟩
  · rw [hmaxd, h.maxDepth]
    omega
  · rw [hmaxd]
    simp only [Ixht.deepened]
    split
    · next hlt =>
        have hd : max t.maxDepth (d + 1) = t.maxDepth + 1 := by
          have := h.maxDepth
          omega
        rw [List.length_append, h.length, hd, Nat.pow_succ]
        omega
    · next hge => rw [h.length, Nat.max_eq_left (by omega)]
  · -- the old length divides the current one
    have hdvd : t₀.dir.length ∣ t.dir.length := by
      rw [hlen₀, h.length, h.maxDepth]
      exact Nat.pow_dvd_pow 2 (Nat.le_max_left _ _)
    intro i hi
    simp only [Ixht.deepened] at hi ⊢
    split at hi
    · next hlt =>
        rw [if_pos hlt, getElem?_double hi]
        have hpos : 0 < t.dir.length := by
          rw [h.length]
          exact Nat.two_pow_pos _
        have hentry := h.entry (i % t.dir.length) (Nat.mod_lt i hpos)
        rwa [Nat.mod_mod_of_dvd i hdvd] at hentry
    · next hge =>
        rw [if_neg hge]
        exact h.entry i hi

theorem DirInv.redirect {G : Type} {t₀ t : Ixht El G} {b₀ d : Nat} (h : DirInv t₀ b₀ d t)
    (mask ind : Nat) (hind : ind = b₀ ∨ ind = t₀.bins.length) :
    DirInv t₀ b₀ d { t with dir := t.dir.set mask ind } := by
  refine ⟨h.maxDepth, by rw [List.length_set]; exact h.length, h.mask, ?_⟩
  intro i hi
  rw [List.length_set] at hi
  show (t.dir.set mask ind)[i]? = _ ∨ (t.dir.set mask ind)[i]? = _ ∨ (t.dir.set mask ind)[i]? = _
  by_cases hm : mask = i
  · subst hm
    rw [List.getElem?_set_self hi]
    rcases hind with rfl | rfl
    · exact Or.inr (Or.inl rfl)
    · exact Or.inr (Or.inr rfl)
  · rw [List.getElem?_set_ne hm]
    exact h.entry i hi

/-! ## The whole split -/

structure Sized {G : Type} (n : Nat) (b : Hbin El G) : Prop where
  groups : b.numGroups = n
  els : b.els.length = 4 * n
  bytes : b.deleted.length = (4 * n + 7) / 8

theorem Sized.refill {n : Nat} {b : IdealBin El} (h : Sized n b) {xs : List El}
    (hlen : xs.length ≤ 4 * n) (hash : El → BitVec 64) : Sized n (b.refill hash xs) :=
  ⟨h.groups, by rw [refill_els_length (by rw [h.els]; exact hlen)]; exact h.els, h.bytes⟩

structure Reading (key : Key El) (n : Nat) (map : Bitmap) (depth mask : Nat) (xs : List El)
    (e : Ebin El (List Entry)) : Prop where
  depth : e.depth = depth
  mask : e.mask = mask
  start : e.elsStart = 0
  sized : Sized n e.bin
  map : e.bin.deleted = map
  bound : e.bin.elsBound ≤ 4 * n
  readable : Readable key.nonzero e.bin
  live : e.bin.live = xs

structure Vacant (n : Nat) (map : Bitmap) (e : Ebin El (List Entry)) : Prop where
  start : e.elsStart = 0
  sized : Sized n e.bin
  map : e.bin.deleted = map
  bound : e.bin.elsBound = 0
  groups : e.bin.groups = []

section Split

variable {t₀ : IdealIxht El} {b₀ : Nat} {e₀ : Ebin El (List Entry)} {n k : Nat}
  {s : Splitting El (List Entry)}

def splitMap (e₀ : Ebin El (List Entry)) (own : Bool) : Bitmap :=
  if own then e₀.bin.deleted else Bitmap.zeros e₀.bin.deleted.length

def splitInd (t₀ : IdealIxht El) (b₀ : Nat) (own : Bool) : Nat :=
  if own then b₀ else t₀.bins.length

/-- The loop of `ixht_split_bin` before pass `k`. -/
structure SplitInv (key : Key El) (n : Nat) (t₀ : IdealIxht El) (b₀ : Nat)
    (e₀ : Ebin El (List Entry)) (k : Nat) (s : Splitting El (List Entry)) : Prop where
  binInd : s.binInd = splitInd t₀ b₀ (e₀.pass key k).own
  newInd : s.newInd = splitInd t₀ b₀ (!(e₀.pass key k).own)
  bin : ∃ e, s.table.bins[s.binInd]? = some e ∧ Reading key n (splitMap e₀ (e₀.pass key k).own)
    (e₀.depth + k) (e₀.pass key k).mask (e₀.pass key k).els e
  newBin : ∃ e, s.table.bins[s.newInd]? = some e ∧
    Vacant n (splitMap e₀ (!(e₀.pass key k).own)) e
  others : ∀ i, i ≠ b₀ → i ≠ t₀.bins.length → s.table.bins[i]? = t₀.bins[i]?
  bins_length : s.table.bins.length = t₀.bins.length + 1
  elsNum : s.table.elsNum = t₀.elsNum
  dir : DirInv t₀ b₀ (e₀.depth + k) s.table
  first : k = 0 → s.table.dir = t₀.dir ∧ s.table.maxDepth = t₀.maxDepth
  depth : e₀.depth + k ≤ 31
  earlier : ∀ j < k, ¬ Mixed key (e₀.depth + j) (e₀.pass key j).els

structure Half (key : Key El) (n depth mask : Nat) (xs : List El) (e : Ebin El (List Entry)) :
    Prop where
  depth : e.depth = depth
  mask : e.mask = mask
  start : e.elsStart = 0
  groups : e.bin.numGroups = n
  dense : DenseOk ixhtWidths key.nonzero e.bin
  live : e.bin.live = xs
  bound : e.bin.elsBound = xs.length
  clear : ∀ i, e.bin.deleted.test i = false

structure SplitDone (key : Key El) (n : Nat) (t₀ : IdealIxht El) (b₀ : Nat)
    (e₀ : Ebin El (List Entry)) (k : Nat) (t : IdealIxht El) : Prop where
  depth : e₀.depth + k ≤ 30
  mixed : Mixed key (e₀.depth + k) (e₀.pass key k).els
  earlier : ∀ j < k, ¬ Mixed key (e₀.depth + j) (e₀.pass key j).els
  stays : ∃ e, t.bins[splitInd t₀ b₀ (e₀.pass key k).own]? = some e ∧
    Half key n (e₀.depth + k + 1) (e₀.pass key k).mask
      (staying key (e₀.depth + k) (e₀.pass key k).els) e
  goes : ∃ e, t.bins[splitInd t₀ b₀ (!(e₀.pass key k).own)]? = some e ∧
    Half key n (e₀.depth + k + 1) ((e₀.pass key k).mask ||| 2 ^ (e₀.depth + k))
      (going key (e₀.depth + k) (e₀.pass key k).els) e
  others : ∀ i, i ≠ b₀ → i ≠ t₀.bins.length → t.bins[i]? = t₀.bins[i]?
  bins_length : t.bins.length = t₀.bins.length + 1
  elsNum : t.elsNum = t₀.elsNum
  dir : DirInv t₀ b₀ (e₀.depth + k + 1) t
  first : k = 0 →
    t.dir = (t₀.deepened (e₀.depth + 1)).dir.set (e₀.mask ||| 2 ^ e₀.depth) t₀.bins.length

theorem splitInd_ne (hb₀ : b₀ < t₀.bins.length) (own : Bool) :
    splitInd t₀ b₀ own ≠ splitInd t₀ b₀ (!own) := by
  cases own <;> simp [splitInd] <;> omega

theorem splitInd_cases (t₀ : IdealIxht El) (b₀ : Nat) (own : Bool) :
    splitInd t₀ b₀ own = b₀ ∨ splitInd t₀ b₀ own = t₀.bins.length := by
  cases own
  · exact Or.inr rfl
  · exact Or.inl rfl

theorem splitMap_thin (e₀ : Ebin El (List Entry)) (own : Bool) (xs : List El) :
    (splitMap e₀ own).thin xs = if own then e₀.bin.deleted.thin xs else xs := by
  cases own with
  | false => exact Bitmap.thin_eq_self fun i _ => Bitmap.test_zeros _ i
  | true => rfl

/-- What is in the two places of two writes, and elsewhere. -/
theorem getElem?_set_set {α : Type} {l : List α} {i j : Nat} (hij : i ≠ j) (hi : i < l.length)
    (hj : j < l.length) (x y : α) :
    ((l.set i x).set j y)[i]? = some x ∧ ((l.set i x).set j y)[j]? = some y ∧
      ∀ m, m ≠ i → m ≠ j → ((l.set i x).set j y)[m]? = l[m]? := by
  refine ⟨?_, ?_, fun m hmi hmj => ?_⟩
  · rw [List.getElem?_set_ne (Ne.symm hij), List.getElem?_set_self hi]
  · rw [List.getElem?_set_self (by rw [List.length_set]; exact hj)]
  · rw [List.getElem?_set_ne (Ne.symm hmj), List.getElem?_set_ne (Ne.symm hmi)]

theorem Reading.length_le {map : Bitmap} {depth mask : Nat} {xs : List El}
    {e : Ebin El (List Entry)} (h : Reading key n map depth mask xs e) : xs.length ≤ 4 * n := by
  have hlen := e.bin.length_live_le
  rw [h.live] at hlen
  exact Nat.le_trans hlen h.bound

/-- The variables of the loop at the end of the body of pass `k`, before the bins
    change their roles. -/
structure Distributed (key : Key El) (n : Nat) (t₀ : IdealIxht El) (b₀ : Nat)
    (e₀ : Ebin El (List Entry)) (k : Nat) (s : Splitting El (List Entry)) : Prop where
  binInd : s.binInd = splitInd t₀ b₀ (e₀.pass key k).own
  newInd : s.newInd = splitInd t₀ b₀ (!(e₀.pass key k).own)
  bin : ∃ b, Sized n b ∧ b.deleted = splitMap e₀ (e₀.pass key k).own ∧
    s.table.bins[s.binInd]? = some ((e₀.pass key k).stayBin key (e₀.depth + k) b)
  newBin : ∃ b, Sized n b ∧ b.deleted = splitMap e₀ (!(e₀.pass key k).own) ∧
    s.table.bins[s.newInd]? = some ((e₀.pass key k).goBin key (e₀.depth + k) b)
  others : ∀ i, i ≠ b₀ → i ≠ t₀.bins.length → s.table.bins[i]? = t₀.bins[i]?
  bins_length : s.table.bins.length = t₀.bins.length + 1
  elsNum : s.table.elsNum = t₀.elsNum
  dir : DirInv t₀ b₀ (e₀.depth + k + 1) s.table
  first : k = 0 →
    s.table.dir = (t₀.deepened (e₀.depth + 1)).dir.set (e₀.mask ||| 2 ^ e₀.depth) t₀.bins.length

/-- The directory of a pass that can still grow it. -/
theorem SplitInv.directory (h : SplitInv key n t₀ b₀ e₀ k s) (hshape : DirShape t₀)
    (hb₀ : t₀.bins[b₀]? = some e₀) (hd : e₀.depth + k ≤ 30) :
    ∃ t t', s.table.deepen (e₀.depth + k + 1) = some t ∧
      t.redirect ((e₀.pass key k).mask ||| 2 ^ (e₀.depth + k)) s.newInd = some t' ∧
      t'.bins = s.table.bins ∧ t'.elsNum = t₀.elsNum ∧ DirInv t₀ b₀ (e₀.depth + k + 1) t' ∧
      (k = 0 → t'.dir = (t₀.deepened (e₀.depth + 1)).dir.set (e₀.mask ||| 2 ^ e₀.depth)
        t₀.bins.length) := by
  have hmax := h.dir.maxDepth
  have hmax31 := hshape.maxDepth
  have hdeepen : s.table.deepen (e₀.depth + k + 1) =
      some (s.table.deepened (e₀.depth + k + 1)) := by
    rw [Ixht.deepen_eq h.dir.length h.dir.mask (by omega) (by omega), if_pos hd]
  have hdir := h.dir.deepened hshape.length
  have hlt := Ebin.pass_mask_lt key (hshape.bins e₀ (List.mem_of_getElem? hb₀)).2 k
  have hpow : 2 ^ (e₀.depth + k) < 2 ^ (e₀.depth + k + 1) :=
    Nat.pow_lt_pow_right (by decide) (by omega)
  have hmask := Nat.or_lt_two_pow (Nat.lt_trans hlt hpow) hpow
  have hin : (e₀.pass key k).mask ||| 2 ^ (e₀.depth + k) <
      (s.table.deepened (e₀.depth + k + 1)).dir.length := by
    rw [hdir.length, hdir.maxDepth]
    exact Nat.lt_of_lt_of_le hmask (Nat.pow_le_pow_right (by decide) (Nat.le_max_right _ _))
  refine ⟨_, _, hdeepen, if_pos hin, rfl, h.elsNum, hdir.redirect _ _ ?_, fun hk => ?_⟩
  · rw [h.newInd]
    exact splitInd_cases t₀ b₀ _
  · obtain ⟨hdir0, hmax0⟩ := h.first hk
    subst hk
    have hown : s.newInd = t₀.bins.length := h.newInd
    simp only [Ixht.deepened, hdir0, hmax0, hown, Nat.add_zero]
    rfl

/-- A pass gets through when the directory can still grow. -/
theorem SplitInv.pass (h : SplitInv key n t₀ b₀ e₀ k s) (hshape : DirShape t₀)
    (hb₀ : t₀.bins[b₀]? = some e₀) (hd : e₀.depth + k ≤ 30) :
    ∃ next, Distributed key n t₀ b₀ e₀ k next ∧
      ∀ fuel, ixhtSplitPass (idealIxhtOps key) key fuel s =
        some (if (e₀.pass key k).els.any (!goesNew key (e₀.depth + k) ·) then
            if (e₀.pass key k).els.any (goesNew key (e₀.depth + k)) then .leave next
            else .again next
          else .again { next with binInd := next.newInd, newInd := next.binInd }) := by
  obtain ⟨e, hbin, he⟩ := h.bin
  obtain ⟨e', hnew, he'⟩ := h.newBin
  obtain ⟨t, t', hdeepen, hredirect, hbins, hnum, hdir, hfirst⟩ := h.directory hshape hb₀ hd
  rw [← he.depth] at hdeepen
  rw [← he.depth, ← he.mask] at hredirect
  have hpass := splitPass_ideal hbin hnew he.start he.readable ⟨he'.bound, he'.groups⟩
    (by rw [he.sized.els]; exact he.bound) (by rw [he'.sized.els]; exact he.bound)
    (by rw [he.depth]; omega) hdeepen hredirect
  rw [he.live, he.depth] at hpass
  have hne : s.binInd ≠ s.newInd := by
    rw [h.binInd, h.newInd]
    exact splitInd_ne (List.getElem?_eq_some_iff.mp hb₀).1 _
  obtain ⟨hold, hnew', hrest⟩ := getElem?_set_set hne (l := t'.bins)
    (by rw [hbins]; exact (List.getElem?_eq_some_iff.mp hbin).1)
    (by rw [hbins]; exact (List.getElem?_eq_some_iff.mp hnew).1)
    ((e₀.pass key k).stayBin key (e₀.depth + k) e.bin)
    ((e₀.pass key k).goBin key (e₀.depth + k) e'.bin)
  have hclose : (s.close t' e e' (Halves.after key (e₀.depth + k) e.bin e'.bin 0
      (e₀.pass key k).els)).table.bins =
        (t'.bins.set s.binInd ((e₀.pass key k).stayBin key (e₀.depth + k) e.bin)).set s.newInd
          ((e₀.pass key k).goBin key (e₀.depth + k) e'.bin) := by
    simp only [Splitting.close, Halves.after, Pass.stayBin, Pass.goBin, he.depth, he.mask,
      he'.start]
  refine ⟨s.close t' e e' (Halves.after key (e₀.depth + k) e.bin e'.bin 0 (e₀.pass key k).els),
    ⟨h.binInd, h.newInd, ⟨e.bin, he.sized, he.map, ?_⟩, ⟨e'.bin, he'.sized, he'.map, ?_⟩,
      ?_, ?_, hnum, ⟨hdir.maxDepth, hdir.length, hdir.mask, hdir.entry⟩, hfirst⟩, hpass⟩
  · rw [hclose]
    exact hold
  · rw [hclose]
    exact hnew'
  · intro i hi hi'
    rw [hclose, hrest i ?_ ?_, hbins]
    · exact h.others i hi hi'
    · rw [h.binInd]
      rcases splitInd_cases t₀ b₀ (e₀.pass key k).own with heq | heq <;> rw [heq] <;> assumption
    · rw [h.newInd]
      rcases splitInd_cases t₀ b₀ (!(e₀.pass key k).own) with heq | heq <;> rw [heq] <;> assumption
  · rw [hclose, List.length_set, List.length_set, hbins]
    exact h.bins_length

/-- A refilled bin as the next pass reads it. -/
theorem Reading.of_refill {b : IdealBin El} {map : Bitmap} {xs : List El} (hsized : Sized n b)
    (hmap : b.deleted = map) (hlen : xs.length ≤ 4 * n) (hxs : Apart key.eq xs)
    (depth mask : Nat) :
    Reading key n map depth mask (map.thin xs)
      ⟨depth, mask, 0, b.refill key.nonzero.hash xs⟩ := by
  have hbits : xs.length ≤ 8 * b.deleted.length := by
    rw [hsized.bytes]
    omega
  refine ⟨rfl, rfl, rfl, hsized.refill hlen _, hmap, hlen, Readable.refill hxs hbits, ?_⟩
  rw [live_refill, hmap]

theorem Vacant.of_refill {b : IdealBin El} {map : Bitmap} (hsized : Sized n b)
    (hmap : b.deleted = map) (depth mask : Nat) (hash : El → BitVec 64) :
    Vacant n map ⟨depth, mask, 0, b.refill hash []⟩ :=
  ⟨rfl, hsized.refill (Nat.zero_le _) _, hmap, rfl, rfl⟩

/-- A pass that sends all elements to one side goes round again. -/
theorem SplitInv.again (h : SplitInv key n t₀ b₀ e₀ k s) (hshape : DirShape t₀)
    (hb₀ : t₀.bins[b₀]? = some e₀) (hd : e₀.depth + k ≤ 30)
    (hmix : ¬ Mixed key (e₀.depth + k) (e₀.pass key k).els) :
    ∃ s', (∀ fuel, ixhtSplitPass (idealIxhtOps key) key fuel s = some (.again s')) ∧
      SplitInv key n t₀ b₀ e₀ (k + 1) s' := by
  obtain ⟨next, hnext, hpass⟩ := h.pass hshape hb₀ hd
  obtain ⟨e, -, he⟩ := h.bin
  have hlen := he.length_le
  have hapart : Apart key.eq (e₀.pass key k).els := he.live ▸ he.readable.apart
  obtain ⟨b, hb, hmap, hbin⟩ := hnext.bin
  obtain ⟨b', hb', hmap', hnew⟩ := hnext.newBin
  have hearlier : ∀ j < k + 1, ¬ Mixed key (e₀.depth + j) (e₀.pass key j).els := by
    intro j hj
    by_cases hjk : j = k
    · rw [hjk]
      exact hmix
    · exact h.earlier j (by omega)
  obtain ⟨hside, hside'⟩ := sides_of_not_mixed hmix
  cases hstay : (e₀.pass key k).els.any (!goesNew key (e₀.depth + k) ·) with
  | true =>
    -- the same bin is read again
    obtain ⟨hs, hg⟩ := hside hstay
    have hgo : (e₀.pass key k).els.any (goesNew key (e₀.depth + k)) = false := by
      by_contra hgo
      exact hmix (mixed_iff.mpr ⟨hstay, by simpa using hgo⟩)
    have hown : (e₀.pass key (k + 1)).own = (e₀.pass key k).own := by
      simp only [Ebin.pass, Pass.next, hstay, if_true]
    have hmask : (e₀.pass key (k + 1)).mask = (e₀.pass key k).mask := by
      simp only [Ebin.pass, Pass.next, hstay, if_true]
    have hels : (e₀.pass key (k + 1)).els =
        (splitMap e₀ (e₀.pass key k).own).thin (e₀.pass key k).els := by
      rw [splitMap_thin]
      simp only [Ebin.pass, Pass.next, hstay, if_true]
    refine ⟨next, fun fuel => by simp [hpass fuel, hstay, hgo], ?_⟩
    refine ⟨by rw [hown]; exact hnext.binInd, by rw [hown]; exact hnext.newInd, ⟨_, hbin, ?_⟩,
      ⟨_, hnew, ?_⟩, hnext.others, hnext.bins_length, hnext.elsNum, hnext.dir, fun hk => by omega,
      by omega, hearlier⟩
    · rw [hown, hmask, hels, Pass.stayBin, hs]
      exact Reading.of_refill hb hmap hlen hapart _ _
    · rw [hown, Pass.goBin, hg]
      exact Vacant.of_refill hb' hmap' _ _ _
  | false =>
    -- the bins change their roles
    obtain ⟨hs, hg⟩ := hside' hstay
    have hown : (e₀.pass key (k + 1)).own = !(e₀.pass key k).own := by
      simp only [Ebin.pass, Pass.next, hstay, Bool.false_eq_true, if_false]
    have hmask : (e₀.pass key (k + 1)).mask = (e₀.pass key k).mask ||| 2 ^ (e₀.depth + k) := by
      simp only [Ebin.pass, Pass.next, hstay, Bool.false_eq_true, if_false]
    have hels : (e₀.pass key (k + 1)).els =
        (splitMap e₀ (!(e₀.pass key k).own)).thin (e₀.pass key k).els := by
      rw [splitMap_thin]
      simp only [Ebin.pass, Pass.next, hstay, Bool.false_eq_true, if_false]
    refine ⟨{ next with binInd := next.newInd, newInd := next.binInd },
      fun fuel => by simp [hpass fuel, hstay], ?_⟩
    refine ⟨by rw [hown]; exact hnext.newInd, by rw [hown, Bool.not_not]; exact hnext.binInd,
      ⟨_, hnew, ?_⟩, ⟨_, hbin, ?_⟩, hnext.others, hnext.bins_length, hnext.elsNum, hnext.dir,
      fun hk => by omega, by omega, hearlier⟩
    · rw [hown, hmask, hels, Pass.goBin, hg]
      exact Reading.of_refill hb' hmap' hlen hapart _ _
    · rw [hown, Bool.not_not, Pass.stayBin, hs]
      exact Vacant.of_refill hb hmap _ _ _

/-- A pass at depth 31 would need a directory of `2 ^ 32` entries. -/
theorem SplitInv.stuck (h : SplitInv key n t₀ b₀ e₀ k s) (hshape : DirShape t₀)
    (hd : 30 < e₀.depth + k) (fuel : Nat) : ixhtSplitPass (idealIxhtOps key) key fuel s = none := by
  obtain ⟨e, hbin, he⟩ := h.bin
  obtain ⟨e', hnew, -⟩ := h.newBin
  have hmax := h.dir.maxDepth
  have hmax31 := hshape.maxDepth
  have hdepth := h.depth
  have hd64 : ¬ 64 ≤ e₀.depth + k := by omega
  have hdeepen : s.table.deepen (e₀.depth + k + 1) = none := by
    rw [Ixht.deepen_eq h.dir.length h.dir.mask (by omega) (by omega), if_neg (by omega)]
  simp only [ixhtSplitPass, hbin, hnew, Option.bind_some, idealOps, he.depth, if_neg hd64, hdeepen,
    Option.bind_none]

theorem Ebin.resetDeleted_eq {e : Ebin El (List Entry)} (h : Sized n e.bin) (hn : 8 * n < 2 ^ 32) :
    e.resetDeleted =
      some { e with bin := { e.bin with deleted := Bitmap.zeros ((4 * n + 7) / 8) } } := by
  have hhalf : e.bin.halfIndexes = 4 * n := by
    have hsize : e.bin.indexesSize ixhtWidths = 8 * n := by
      rw [← h.groups]
      exact Hbin.indexesSize_eq (by rw [h.groups]; exact hn)
    rw [Hbin.halfIndexes, hsize]
    omega
  have hdrop : e.bin.deleted.drop ((4 * n + 7) / 8) = [] :=
    List.drop_eq_nil_of_le (Nat.le_of_eq h.bytes)
  simp only [Ebin.resetDeleted, hhalf, h.bytes, Nat.le_refl, if_true, hdrop, List.append_nil]

/-- A refilled bin whose bitmap is cleared after the last pass. -/
theorem Half.of_reset (hkey : key.Lawful) {b : IdealBin El} {xs : List El} (hsized : Sized n b)
    (hpow : ∃ j ≤ 28, n = 2 ^ j) (hlen : xs.length ≤ 4 * n) (hxs : Apart key.eq xs)
    (depth mask : Nat) :
    ∃ e, Ebin.resetDeleted ⟨depth, mask, 0, b.refill key.nonzero.hash xs⟩ = some e ∧
      Half key n depth mask xs e := by
  obtain ⟨j, hj, hn⟩ := hpow
  have hpow28 : 2 ^ j ≤ 2 ^ 28 := Nat.pow_le_pow_right (by decide) hj
  refine ⟨_, Ebin.resetDeleted_eq (hsized.refill hlen _) (by omega), ?_⟩
  have hcap : ({ b with deleted := Bitmap.zeros ((4 * n + 7) / 8) } : IdealBin El).elsSize =
      4 * n := by
    rw [← hsized.groups]
    rfl
  have hj32 : j ≤ ixhtWidths.size := by
    show j ≤ 32
    omega
  obtain ⟨hdense, hlive⟩ := DenseOk.refill (w := ixhtWidths) (b := { b with
      deleted := Bitmap.zeros ((4 * n + 7) / 8) }) hkey.nonzero ⟨j, hj32, hsized.groups.trans hn⟩
    (by rw [hcap]; exact hsized.els) (by rw [hcap]; exact Bitmap.length_zeros _)
    (fun i => Bitmap.test_zeros _ i) hxs (by rw [hcap]; exact hlen)
  exact ⟨rfl, rfl, rfl, hsized.groups, hdense, hlive, rfl, fun i => Bitmap.test_zeros _ i⟩

/-- A pass that sends elements to both sides is the last one. -/
theorem SplitInv.leave (hkey : key.Lawful) (h : SplitInv key n t₀ b₀ e₀ k s) (hshape : DirShape t₀)
    (hb₀ : t₀.bins[b₀]? = some e₀) (hpow : ∃ j ≤ 28, n = 2 ^ j) (hd : e₀.depth + k ≤ 30)
    (hmix : Mixed key (e₀.depth + k) (e₀.pass key k).els) :
    ∃ s' t, (∀ fuel, ixhtSplitPass (idealIxhtOps key) key fuel s = some (.leave s')) ∧
      s'.finish = some t ∧ SplitDone key n t₀ b₀ e₀ k t := by
  obtain ⟨next, hnext, hpass⟩ := h.pass hshape hb₀ hd
  obtain ⟨hstay, hgo⟩ := mixed_iff.mp hmix
  obtain ⟨e, -, he⟩ := h.bin
  have hlen := he.length_le
  have hapart : Apart key.eq (e₀.pass key k).els := he.live ▸ he.readable.apart
  have hstays : (staying key (e₀.depth + k) (e₀.pass key k).els).length ≤ 4 * n :=
    Nat.le_trans (List.length_filter_le _ _) hlen
  have hgoes : (going key (e₀.depth + k) (e₀.pass key k).els).length ≤ 4 * n :=
    Nat.le_trans (List.length_filter_le _ _) hlen
  obtain ⟨b, hb, -, hbin⟩ := hnext.bin
  obtain ⟨b', hb', -, hnew⟩ := hnext.newBin
  obtain ⟨f, hreset, hhalf⟩ := Half.of_reset hkey hb hpow hstays
    (hapart.sublist List.filter_sublist) (e₀.depth + k + 1) (e₀.pass key k).mask
  obtain ⟨f', hreset', hhalf'⟩ := Half.of_reset hkey hb' hpow hgoes
    (hapart.sublist List.filter_sublist) (e₀.depth + k + 1)
    ((e₀.pass key k).mask ||| 2 ^ (e₀.depth + k))
  have hne : next.binInd ≠ next.newInd := by
    rw [hnext.binInd, hnext.newInd]
    exact splitInd_ne (List.getElem?_eq_some_iff.mp hb₀).1 _
  have hfinish : next.finish = some { next.table with
      bins := (next.table.bins.set next.binInd f).set next.newInd f' } := by
    simp only [Splitting.finish, hbin, hnew, Option.bind_some, Pass.stayBin, Pass.goBin, hreset,
      hreset', Option.map_some]
  obtain ⟨hold, hnew', hrest⟩ := getElem?_set_set hne (List.getElem?_eq_some_iff.mp hbin).1
    (List.getElem?_eq_some_iff.mp hnew).1 f f'
  refine ⟨next, _, fun fuel => by simp [hpass fuel, hstay, hgo], hfinish, hd, hmix, h.earlier,
    ⟨f, hnext.binInd ▸ hold, hhalf⟩, ⟨f', hnext.newInd ▸ hnew', hhalf'⟩, ?_, ?_, hnext.elsNum,
    ⟨hnext.dir.maxDepth, hnext.dir.length, hnext.dir.mask, hnext.dir.entry⟩, hnext.first⟩
  · intro i hi hi'
    refine (hrest i ?_ ?_).trans (hnext.others i hi hi')
    · rw [hnext.binInd]
      rcases splitInd_cases t₀ b₀ (e₀.pass key k).own with heq | heq <;> rw [heq] <;> assumption
    · rw [hnext.newInd]
      rcases splitInd_cases t₀ b₀ (!(e₀.pass key k).own) with heq | heq <;> rw [heq] <;> assumption
  · show ((next.table.bins.set next.binInd _).set next.newInd _).length = _
    rw [List.length_set, List.length_set]
    exact hnext.bins_length

end Split

/-! ## Bins in order -/

structure EbinOk (key : Key El) (maxLog : Nat) (e : Ebin El (List Entry)) : Prop where
  dense : DenseOk ixhtWidths key.nonzero e.bin
  start : e.elsStart = 0
  size : ∃ j, 1 ≤ j ∧ j ≤ maxLog ∧ e.bin.numGroups = 2 ^ j

section Ok

variable {maxLog : Nat} {e : Ebin El (List Entry)}

theorem EbinOk.numGroups_le (h : EbinOk key maxLog e) :
    2 ≤ e.bin.numGroups ∧ e.bin.numGroups ≤ 2 ^ maxLog := by
  obtain ⟨j, hj, hle, hn⟩ := h.size
  have hlow : 2 ^ 1 ≤ 2 ^ j := Nat.pow_le_pow_right (by decide) hj
  have hhigh : 2 ^ j ≤ 2 ^ maxLog := Nat.pow_le_pow_right (by decide) hle
  omega

theorem EbinOk.indexesSize (h : EbinOk key maxLog e) (hlog : maxLog ≤ 28) :
    e.bin.indexesSize ixhtWidths = 8 * e.bin.numGroups := by
  have hle := h.numGroups_le.2
  have hpow : 2 ^ maxLog ≤ 2 ^ 28 := Nat.pow_le_pow_right (by decide) hlog
  apply Hbin.indexesSize_eq
  show 8 * e.bin.numGroups < 2 ^ 32
  omega

theorem EbinOk.halfIndexes (h : EbinOk key maxLog e) (hlog : maxLog ≤ 28) :
    e.bin.halfIndexes = e.bin.elsSize := by
  rw [Hbin.halfIndexes, h.indexesSize hlog, Hbin.elsSize]
  omega

theorem EbinOk.sized (h : EbinOk key maxLog e) : Sized e.bin.numGroups e.bin :=
  ⟨rfl, h.dense.capacity, h.dense.bytes⟩

end Ok

/-- A created bin, of any capacity from 8 on. -/
theorem ixhtCreateBin_sized {G : Type} (ops : BinOps El G) {n : Nat} (hn : 2 ≤ n)
    (hsmall : 8 * n < 2 ^ 32) : Sized n (ixhtCreateBin ops (4 * n)).bin := by
  have hge : ¬ 4 * n < GROUP_SIZE := by
    simp only [GROUP_SIZE]
    omega
  have hgroups : 2 * (4 * n) % 2 ^ 32 / GROUP_SIZE = n := by
    simp only [GROUP_SIZE]
    omega
  refine ⟨?_, ?_, ?_⟩
  · simp only [ixhtCreateBin, if_neg hge, hgroups, Hbin.numGroups]
    omega
  · simp only [ixhtCreateBin, if_neg hge, List.length_replicate]
  · simp only [ixhtCreateBin, if_neg hge, Bitmap.length_zeros]

section Split

variable {t₀ : IdealIxht El} {b₀ maxLog : Nat} {e₀ : Ebin El (List Entry)} {k : Nat}

def splitStart {G : Type} (ops : BinOps El G) (t : Ixht El G) (b : Nat) (e : Ebin El G) :
    Splitting El G where
  table := { t with bins := t.bins ++ [ixhtCreateBin ops e.bin.halfIndexes] }
  binInd := b
  newInd := t.bins.length

theorem SplitInv.init (hok : EbinOk key maxLog e₀) (hlog : maxLog ≤ 28) (hshape : DirShape t₀)
    (hb₀ : t₀.bins[b₀]? = some e₀) :
    SplitInv key e₀.bin.numGroups t₀ b₀ e₀ 0 (splitStart (idealIxhtOps key) t₀ b₀ e₀) := by
  have hlt := (List.getElem?_eq_some_iff.mp hb₀).1
  obtain ⟨hdepth, -⟩ := hshape.bins e₀ (List.mem_of_getElem? hb₀)
  obtain ⟨hge, hle⟩ := hok.numGroups_le
  have hpow : 2 ^ maxLog ≤ 2 ^ 28 := Nat.pow_le_pow_right (by decide) hlog
  have hmax := hshape.maxDepth
  have hnew : Sized e₀.bin.numGroups (ixhtCreateBin (idealIxhtOps key) e₀.bin.halfIndexes).bin := by
    rw [hok.halfIndexes hlog]
    exact ixhtCreateBin_sized _ hge (by omega)
  refine ⟨rfl, rfl, ⟨e₀, ?_, rfl, rfl, hok.start, hok.sized, rfl, hok.dense.bound,
      hok.dense.readable, rfl⟩, ⟨_, ?_, rfl, hnew, ?_, rfl, rfl⟩, ?_, ?_, rfl, ?_, fun _ => ⟨rfl, rfl⟩,
    by omega, fun j hj => absurd hj (Nat.not_lt_zero j)⟩
  · show (t₀.bins ++ _)[b₀]? = _
    rw [List.getElem?_append_left hlt, hb₀]
  · exact List.getElem?_concat_length
  · show Bitmap.zeros _ = Bitmap.zeros _
    congr 1
    have := hnew.bytes
    rw [hok.sized.bytes]
    rwa [show (ixhtCreateBin (idealIxhtOps key) e₀.bin.halfIndexes).bin.deleted =
      Bitmap.zeros _ from rfl, Bitmap.length_zeros] at this
  · intro i hi hi'
    show (t₀.bins ++ _)[i]? = _
    by_cases hlt' : i < t₀.bins.length
    · exact List.getElem?_append_left hlt'
    · have hlen : (t₀.bins ++ [ixhtCreateBin (idealIxhtOps key) e₀.bin.halfIndexes]).length ≤ i := by
        rw [List.length_append, List.length_singleton]
        omega
      exact (List.getElem?_eq_none hlen).trans (List.getElem?_eq_none (by omega)).symm
  · show (t₀.bins ++ _).length = _
    rw [List.length_append, List.length_singleton]
  · refine ⟨?_, hshape.length, hshape.mask, fun i hi => Or.inl ?_⟩
    · show t₀.maxDepth = max t₀.maxDepth (e₀.depth + 0)
      omega
    · have hi : i < t₀.dir.length := hi
      rw [Nat.mod_eq_of_lt hi]
      rfl

/-- The three ways a pass of the split can end. -/
theorem SplitInv.cases (hkey : key.Lawful) {n : Nat} {s : Splitting El (List Entry)}
    (h : SplitInv key n t₀ b₀ e₀ k s) (hshape : DirShape t₀) (hb₀ : t₀.bins[b₀]? = some e₀)
    (hpow : ∃ j ≤ 28, n = 2 ^ j) :
    (∃ s', (∀ fuel, ixhtSplitPass (idealIxhtOps key) key fuel s = some (.again s')) ∧
      SplitInv key n t₀ b₀ e₀ (k + 1) s') ∨
    (∃ s' t, (∀ fuel, ixhtSplitPass (idealIxhtOps key) key fuel s = some (.leave s')) ∧
      s'.finish = some t ∧ SplitDone key n t₀ b₀ e₀ k t) ∨
    ∀ fuel, ixhtSplitPass (idealIxhtOps key) key fuel s = none := by
  by_cases hd : e₀.depth + k ≤ 30
  · by_cases hmix : Mixed key (e₀.depth + k) (e₀.pass key k).els
    · exact Or.inr (Or.inl (h.leave hkey hshape hb₀ hpow hd hmix))
    · exact Or.inl (h.again hshape hb₀ hd hmix)
  · exact Or.inr (Or.inr (h.stuck hshape (by omega)))

/-- A split that returns has left its loop in a pass that sent elements to both sides. -/
theorem splitBin_done (hkey : key.Lawful) (hok : EbinOk key maxLog e₀) (hlog : maxLog ≤ 28)
    (hshape : DirShape t₀) (hb₀ : t₀.bins[b₀]? = some e₀) {fuel : Nat} {t : IdealIxht El}
    (h : ixhtSplitBin (idealIxhtOps key) key fuel t₀ b₀ = some t) :
    ∃ k, SplitDone key e₀.bin.numGroups t₀ b₀ e₀ k t := by
  obtain ⟨j, -, hle, hn⟩ := hok.size
  have hpow : ∃ j ≤ 28, e₀.bin.numGroups = 2 ^ j := ⟨j, by omega, hn⟩
  simp only [ixhtSplitBin, hb₀, Option.bind_some] at h
  obtain ⟨s, hloop, hfinish⟩ := Option.bind_eq_some_iff.mp h
  obtain ⟨t', k, hfinish', hdone⟩ := forever_invariant
    (fun s => ∃ k, SplitInv key e₀.bin.numGroups t₀ b₀ e₀ k s)
    (fun s => ∃ t k, s.finish = some t ∧ SplitDone key e₀.bin.numGroups t₀ b₀ e₀ k t) (by
      rintro s s' ⟨k, hs⟩ hpass
      rcases hs.cases hkey hshape hb₀ hpow with ⟨r, hr, hr'⟩ | ⟨r, t, hr, -⟩ | hr
      · rw [hr fuel, Option.some.injEq, Step.again.injEq] at hpass
        exact ⟨k + 1, hpass ▸ hr'⟩
      · rw [hr fuel] at hpass
        cases hpass
      · rw [hr fuel] at hpass
        cases hpass) (by
      rintro s s' ⟨k, hs⟩ hpass
      rcases hs.cases hkey hshape hb₀ hpow with ⟨r, hr, -⟩ | ⟨r, t, hr, hfin, hdone⟩ | hr
      · rw [hr fuel] at hpass
        cases hpass
      · rw [hr fuel, Option.some.injEq, Step.leave.injEq] at hpass
        exact ⟨t, k, hpass ▸ hfin, hdone⟩
      · rw [hr fuel] at hpass
        cases hpass) ⟨0, SplitInv.init hok hlog hshape hb₀⟩ hloop
  rw [hfinish, Option.some.injEq] at hfinish'
  exact ⟨k, hfinish' ▸ hdone⟩

/-- A split with a mixed pass that the directory admits returns. -/
theorem splitBin_returns (hkey : key.Lawful) (hok : EbinOk key maxLog e₀) (hlog : maxLog ≤ 28)
    (hshape : DirShape t₀) (hb₀ : t₀.bins[b₀]? = some e₀)
    (hmix : ∃ k, e₀.depth + k ≤ 30 ∧ Mixed key (e₀.depth + k) (e₀.pass key k).els) {fuel : Nat}
    (hfuel : 31 < fuel) : ∃ t, ixhtSplitBin (idealIxhtOps key) key fuel t₀ b₀ = some t := by
  classical
  obtain ⟨j, hj, hle, hn⟩ := hok.size
  -- the loop goes round up to the first mixed pass
  obtain ⟨k, ⟨hd, hk⟩, hfirst⟩ : ∃ k, (e₀.depth + k ≤ 30 ∧
      Mixed key (e₀.depth + k) (e₀.pass key k).els) ∧
      ∀ i < k, ¬ (e₀.depth + i ≤ 30 ∧ Mixed key (e₀.depth + i) (e₀.pass key i).els) :=
    ⟨Nat.find hmix, Nat.find_spec hmix, fun i hi => Nat.find_min hmix hi⟩
  obtain ⟨s, hloop, t, hfinish⟩ := forever_of_steps (ixhtSplitPass (idealIxhtOps key) key fuel)
    (SplitInv key e₀.bin.numGroups t₀ b₀ e₀) (fun s => ∃ t, s.finish = some t) k (by
      intro i hi s hs
      obtain ⟨s', hagain, hs'⟩ := hs.again hshape hb₀ (by omega) fun hmix =>
        hfirst i hi ⟨by omega, hmix⟩
      exact ⟨s', hagain fuel, hs'⟩) (by
      intro s hs
      obtain ⟨s', t, hleave, hfin, -⟩ := hs.leave hkey hshape hb₀ ⟨j, by omega, hn⟩ hd hk
      exact ⟨s', hleave fuel, t, hfin⟩) (show k < fuel by omega)
    (SplitInv.init hok hlog hshape hb₀)
  refine ⟨t, ?_⟩
  simp only [ixhtSplitBin, hb₀, Option.bind_some]
  exact Option.bind_eq_some_iff.mpr ⟨s, hloop, hfinish⟩

end Split

end IndexedHash
