import Mathlib.Data.List.Pairwise
import Mathlib.Tactic.Common
import IndexedHash.IdealIndex
import IndexedHash.Calls

/-!
# Bins as maps

`DenseOk` is the invariant of a bin between two calls: the entries of the index are
the positions that are not deleted, in order.  On such a bin `do_1` followed by the
caller's write is one step of the reference list (`DenseOk.step`), whatever the
table around it looks like.

`Hbin.refill` is the bin a rebuild leaves: given elements at the positions from `0`
on.  Every rebuild of the headers reinserts elements one at a time into such a bin
(`reinsert_refill`), whether into a fresh one or in place.
-/

namespace IndexedHash

open KeyedList

variable {El G : Type} {w : Widths} {key : Key El} {b : IdealBin El}

/-! ## Live elements -/

def Hbin.liveUpTo (b : Hbin El G) (n : Nat) : List El :=
  (List.range n).filterMap fun i => if b.deleted.test i then none else b.elAt i

theorem Hbin.live_eq_liveUpTo (b : Hbin El G) : b.live = b.liveUpTo b.elsBound := rfl

theorem Hbin.liveUpTo_succ (b : Hbin El G) (n : Nat) :
    b.liveUpTo (n + 1) =
      b.liveUpTo n ++ (if b.deleted.test n then none else b.elAt n).toList := by
  simp only [liveUpTo, List.range_succ, List.filterMap_append, List.filterMap_cons,
    List.filterMap_nil]
  cases (if b.deleted.test n then none else b.elAt n) <;> rfl

theorem Hbin.length_liveUpTo_le (b : Hbin El G) (n : Nat) : (b.liveUpTo n).length ≤ n := by
  calc (b.liveUpTo n).length ≤ (List.range n).length := List.length_filterMap_le _ _
    _ = n := List.length_range

theorem Hbin.length_live_le (b : Hbin El G) : b.live.length ≤ b.elsBound :=
  b.length_liveUpTo_le b.elsBound

/-- If nothing below `els_bound` is deleted, the dense array begins with the live
    elements. -/
theorem Hbin.take_els {b : Hbin El G} (hclear : ∀ i, b.deleted.test i = false)
    (hinit : ∀ i < b.elsBound, ∃ x, b.elAt i = some x) :
    b.els.take b.elsBound = b.live.map some := by
  suffices h : ∀ n ≤ b.elsBound, b.els.take n = (b.liveUpTo n).map some from
    h b.elsBound (Nat.le_refl _)
  intro n
  induction n with
  | zero => intro _; rfl
  | succ n ih =>
    intro hn
    obtain ⟨x, hx⟩ := hinit n hn
    have hget : b.els[n]? = some (some x) := Option.join_eq_some_iff.mp hx
    rw [List.take_add_one, ih (by omega), Hbin.liveUpTo_succ, hclear n, hget]
    simp [hx]

structure DenseOk (w : Widths) (key : Key El) (b : IdealBin El) : Prop where
  index : IndexOk w key b
  positions : b.groups.map Entry.pos = (List.range b.elsBound).filter fun i => !b.deleted.test i
  capacity : b.els.length = b.elsSize
  bytes : b.deleted.length = (b.elsSize + 7) / 8
  clear : ∀ i, b.elsBound ≤ i → b.deleted.test i = false
  bound : b.elsBound ≤ b.elsSize

theorem DenseOk.live_eq (h : DenseOk w key b) :
    b.live = b.groups.filterMap fun e => b.elAt e.pos := by
  have hmap : (b.groups.map Entry.pos).filterMap b.elAt =
      b.groups.filterMap fun e => b.elAt e.pos := List.filterMap_map
  rw [← hmap, h.positions, List.filterMap_filter]
  unfold Hbin.live
  congr 1
  funext i
  cases b.deleted.test i <;> rfl

theorem DenseOk.length_live (h : DenseOk w key b) : b.live.length = b.groups.length := by
  rw [h.live_eq, List.filterMap_length_eq_length]
  intro e he
  obtain ⟨-, x, hx, -⟩ := h.index.entry e he
  rw [hx]
  rfl

theorem DenseOk.apart (h : DenseOk w key b) : Apart key.eq b.live := by
  rw [h.live_eq, Apart, List.pairwise_filterMap]
  have hne : b.groups.Pairwise fun e f => e.pos ≠ f.pos := List.pairwise_map.mp h.index.nodup
  refine hne.imp_of_mem ?_
  intro e f he hf hef x hx y hy
  by_contra hxy
  exact hef (h.index.apart e he f hf x y hx hy (by simpa using hxy))

theorem DenseOk.lookup_eq (h : DenseOk w key b) (el : El) :
    lookup key.eq b.live el = (idealLookup key.eq b el).bind fun e => b.elAt e.pos := by
  rw [h.live_eq, lookup, List.find?_filterMap]
  rfl

theorem DenseOk.room (h : DenseOk w key b) (hroom : b.elsBound < b.elsSize) :
    b.elsBound < b.els.length ∧ b.elsBound < 8 * b.deleted.length := by
  rw [h.capacity, h.bytes]
  exact ⟨hroom, by omega⟩

/-! ## Reading a bin from the front -/

structure Readable (key : Key El) (b : Hbin El G) : Prop where
  init : ∀ i < b.elsBound, b.deleted.test i = false → ∃ x, b.elAt i = some x
  apart : Apart key.eq b.live
  bits : b.elsBound ≤ 8 * b.deleted.length

theorem DenseOk.readable (h : DenseOk w key b) : Readable key b where
  init i hi hdel := by
    have hmem : i ∈ b.groups.map Entry.pos := by
      rw [h.positions, List.mem_filter, hdel]
      exact ⟨List.mem_range.mpr hi, rfl⟩
    obtain ⟨e, he, rfl⟩ := List.mem_map.mp hmem
    obtain ⟨-, x, hx, -⟩ := h.index.entry e he
    exact ⟨x, hx⟩
  apart := h.apart
  bits := h.index.bitmap

theorem BinSimUpTo.readable {limit : Nat} {Slots : G → Nat → Nat → List Entry → Prop}
    {c : Hbin El G} (hsim : BinSimUpTo limit Slots c b) (h : Readable key b) : Readable key c := by
  rw [hsim.same] at h
  exact ⟨h.init, h.apart, h.bits⟩

theorem Hbin.liveUpTo_sublist (b : Hbin El G) {n m : Nat} (h : n ≤ m) :
    (b.liveUpTo n).Sublist (b.liveUpTo m) := by
  unfold liveUpTo
  exact List.Sublist.filterMap _ (List.range_sublist.mpr h)

/-- A rebuild reads position `i`: deleted, or the next live element, which is not
    equal to any before it. -/
theorem Readable.next {b : Hbin El G} (h : Readable key b) {i : Nat} (hi : i < b.elsBound) :
    b.deleted.test? i = some true ∧ b.liveUpTo (i + 1) = b.liveUpTo i ∨
      b.deleted.test? i = some false ∧ ∃ x, b.elAt i = some x ∧
        b.liveUpTo (i + 1) = b.liveUpTo i ++ [x] ∧ ∀ y ∈ b.liveUpTo i, key.eq y x = false := by
  rw [Bitmap.test?_eq_some (Nat.lt_of_lt_of_le hi h.bits), Hbin.liveUpTo_succ]
  cases hdel : b.deleted.test i with
  | true => simp
  | false =>
    obtain ⟨x, hx⟩ := h.init i hi hdel
    have hsucc : b.liveUpTo (i + 1) = b.liveUpTo i ++ [x] := by
      rw [Hbin.liveUpTo_succ, hdel, hx]
      rfl
    have hapart : Apart key.eq (b.liveUpTo i ++ [x]) := by
      rw [← hsucc]
      exact h.apart.sublist (b.liveUpTo_sublist hi)
    refine Or.inr ⟨rfl, x, hx, by simp [hx], fun y hy => ?_⟩
    exact (List.pairwise_append.mp hapart).2.2 y hy x (List.mem_singleton_self x)

def Hbin.liveFrom (b : Hbin El G) (i : Nat) : List El :=
  (List.range' i (b.elsBound - i)).filterMap fun i => if b.deleted.test i then none else b.elAt i

theorem Hbin.liveFrom_zero (b : Hbin El G) : b.liveFrom 0 = b.live := by
  unfold liveFrom live
  rw [Nat.sub_zero, List.range_eq_range']

theorem Hbin.advance_mono (w : Widths) (b : Hbin El G) (i : Nat) :
    Loop.Mono fun fuel => b.advance w fuel i := by
  have h : ∀ i, Loop.Mono fun _ : Nat => b.advanceBody w i := fun _ => Loop.Mono.const _
  exact Loop.Mono.forever h i

/-! ## The three updates -/

theorem DenseOk.drop (h : DenseOk w key b) (hkey : key.Lawful) {e : Entry} {el : El}
    (hfind : idealLookup key.eq b el = some e) :
    DenseOk w key (b.drop e) ∧ (b.drop e).live = remove key.eq b.live el := by
  obtain ⟨he, x, hx, hxe⟩ := idealLookup_some hfind
  have hlt := (h.index.entry e he).1
  have hbits : e.pos < 8 * b.deleted.length := Nat.lt_of_lt_of_le hlt h.index.bitmap
  have htest : ∀ i, (b.drop e).deleted.test i = (decide (i = e.pos) || b.deleted.test i) :=
    fun i => Bitmap.test_mark hbits i
  have hok : DenseOk w key (b.drop e) := by
    refine ⟨h.index.drop e, ?_, h.capacity, ?_, ?_, h.bound⟩
    · have hpos : (b.drop e).groups.map Entry.pos =
          (b.groups.map Entry.pos).filter fun i => decide (i ≠ e.pos) := by
        rw [List.filter_map]
        rfl
      rw [hpos, h.positions, List.filter_filter]
      apply List.filter_congr
      intro i _
      rw [htest]
      by_cases hi : i = e.pos <;> simp [hi]
    · simpa [Hbin.drop, Hbin.elsSize, Hbin.numGroups] using h.bytes
    · intro i hi
      have hi : b.elsBound ≤ i := hi
      have hne : i ≠ e.pos := by omega
      rw [htest, h.clear i hi]
      simp [hne]
  refine ⟨hok, ?_⟩
  rw [hok.live_eq, h.live_eq, remove, List.filter_filterMap]
  simp only [Hbin.drop]
  rw [List.filterMap_filter]
  apply List.filterMap_congr
  intro f hf
  obtain ⟨-, y, hy, -⟩ := h.index.entry f hf
  have hyel : key.eq y el = true ↔ f.pos = e.pos := by
    constructor
    · intro hyel
      rw [h.index.lookup_unique hkey hfind hf hy hyel]
    · intro hpos
      rw [hpos, hx, Option.some.injEq] at hy
      rwa [← hy]
  show (if decide (f.pos ≠ e.pos) = true then b.elAt f.pos else none) = _
  rw [hy]
  by_cases hpos : f.pos = e.pos
  · simp [hpos, hyel.mpr hpos, Option.filter_some]
  · have hyf : key.eq y el = false := by
      by_contra hyf
      exact hpos (hyel.mp (by simpa using hyf))
    simp [hpos, hyf, Option.filter_some]

theorem DenseOk.push (h : DenseOk w key b) (hkey : key.Lawful) (hroom : b.elsBound < b.elsSize)
    {x : El} (hfresh : ∀ y ∈ b.live, key.eq y x = false) :
    DenseOk w key (b.push (key.hash x) x) ∧
      (b.push (key.hash x) x).live = b.live ++ [x] := by
  obtain ⟨hels, hbits⟩ := h.room hroom
  have hnew : ∀ e ∈ b.groups, ∀ y, b.elAt e.pos = some y → key.eq y x = false := by
    intro e he y hy
    apply hfresh
    rw [h.live_eq]
    exact List.mem_filterMap.mpr ⟨e, he, hy⟩
  have hok : DenseOk w key (b.push (key.hash x) x) := by
    refine ⟨h.index.push hels hbits hnew hkey rfl, ?_, ?_, h.bytes, ?_, hroom⟩
    · simp only [Hbin.push, List.map_append, List.map_cons, List.map_nil, h.positions,
        List.range_succ, List.filter_append, List.filter_cons, List.filter_nil,
        h.clear b.elsBound (Nat.le_refl _)]
      rfl
    · show (b.els.set b.elsBound (some x)).length = b.elsSize
      rw [List.length_set]
      exact h.capacity
    · intro i hi
      have hi : b.elsBound + 1 ≤ i := hi
      exact h.clear i (by omega)
  refine ⟨hok, ?_⟩
  have hold : (b.groups.filterMap fun e => (b.push (key.hash x) x).elAt e.pos) = b.live := by
    rw [h.live_eq]
    apply List.filterMap_congr
    intro e he
    rw [elAt_push hels, if_neg (Nat.ne_of_lt (h.index.entry e he).1)]
  have hlast : (b.push (key.hash x) x).elAt b.elsBound = some x := by
    rw [elAt_push hels, if_pos rfl]
  rw [hok.live_eq]
  show (b.groups ++ [(⟨b.elsBound, key.hash x⟩ : Entry)]).filterMap _ = _
  rw [List.filterMap_append, hold, List.filterMap_cons, hlast, List.filterMap_nil]

theorem DenseOk.store (h : DenseOk w key b) (hkey : key.Lawful) {e : Entry} {el y : El}
    (hfind : idealLookup key.eq b el = some e) (hy : key.eq y el = true) :
    ∃ b', b.store? e.pos y = some b' ∧ DenseOk w key b' ∧
      b'.live = replace key.eq b.live el y ∧ b'.groupsMask = b.groupsMask ∧
      b'.elsBound = b.elsBound := by
  obtain ⟨he, x, hx, hxe⟩ := idealLookup_some hfind
  have hlt : e.pos < b.els.length := by
    have := (h.index.entry e he).1
    have := h.bound
    have := h.capacity
    omega
  have hstore : b.store? e.pos y = some { b with els := b.els.set e.pos (some y) } := if_pos hlt
  have hyx : key.eq y x = true := hkey.trans _ _ _ hy (hkey.symm _ _ hxe)
  have hok : DenseOk w key { b with els := b.els.set e.pos (some y) } := by
    refine ⟨h.index.store hkey hx hyx hstore, h.positions, ?_, h.bytes, h.clear, h.bound⟩
    rw [List.length_set]
    exact h.capacity
  refine ⟨_, hstore, hok, ?_, rfl, rfl⟩
  rw [hok.live_eq, h.live_eq, replace, List.map_filterMap]
  apply List.filterMap_congr
  intro f hf
  obtain ⟨-, z, hz, -⟩ := h.index.entry f hf
  rw [hz, Option.map_some]
  by_cases hpos : e.pos = f.pos
  · have hzel : key.eq z el = true := by
      rw [← hpos, hx, Option.some.injEq] at hz
      rwa [← hz]
    simp only [Hbin.elAt, ← hpos, List.getElem?_set_self hlt, Option.join_some, hzel, if_true]
  · have hzel : key.eq z el = false := by
      by_contra hzel
      apply hpos
      rw [h.index.lookup_unique hkey hfind hf hz (by simpa using hzel)]
    simp only [Hbin.elAt, List.getElem?_set_ne hpos, hzel]
    exact hz

/-! ## A call is a step of the reference -/

/-- What `do_1` on bin `b` and the caller's write amount to; `n` is the element
    counter before. -/
structure Stepped (w : Widths) (key : Key El) (b : IdealBin El) (c : Call El) (n : Nat)
    (r : Outcome El (List Entry)) (b' : IdealBin El) : Prop where
  written : r.written c = some b'
  ok : DenseOk w key b'
  live : b'.live = (refStep key.eq b.live c).2
  seen : (r.found, r.value) = (refStep key.eq b.live c).1
  count : r.elsNum + b.live.length = n + b'.live.length
  mask : b'.groupsMask = b.groupsMask
  bound : b'.elsBound = b.elsBound ∨
    (c.action = .insert ∧ lookup key.eq b.live c.el = none) ∧ b'.elsBound = b.elsBound + 1

theorem DenseOk.step (h : DenseOk w key b) (hkey : key.Lawful) {c : Call El} (hc : c.Ok key)
    (hroom : c.action = .insert → lookup key.eq b.live c.el = none → b.elsBound < b.elsSize) {n : Nat}
    (hlive : b.live.length ≤ n) (hn : n + 1 < 2 ^ w.size) :
    ∃ r b', idealDo1 w key.eq n b (key.hash c.el) c.el c.action = some r ∧
      Stepped w key b c n r b' := by
  have hlookup := h.lookup_eq c.el
  unfold idealDo1
  cases hfind : idealLookup key.eq b c.el with
  | some e =>
    obtain ⟨he, x, hx, hxe⟩ := idealLookup_some hfind
    rw [hfind, Option.bind_some, hx] at hlookup
    by_cases hdel : c.action = .delete
    · simp only [if_pos hdel, h.index.mark?_eq he, Option.map_some]
      obtain ⟨hok, hlive'⟩ := h.drop hkey hfind
      have hstep : refStep key.eq b.live c = ((true, none), remove key.eq b.live c.el) := by
        simp [refStep, hlookup, hdel]
      refine ⟨_, b.drop e, rfl, rfl, hok, by rw [hstep, hlive'], by rw [hstep]; rfl, ?_, rfl,
        Or.inl rfl⟩
      have hlen := length_remove hkey.equivalence h.apart hlookup
      show w.decr n + _ = _
      rw [Widths.decr_eq (by omega) (by omega), hlive']
      omega
    · simp only [if_neg hdel]
      cases hu : c.update with
      | none =>
        have hstep : refStep key.eq b.live c = ((true, some x), b.live) := by
          simp [refStep, hlookup, hdel, hu]
        refine ⟨_, b, rfl, ?_, h, by rw [hstep], ?_, rfl, rfl, Or.inl rfl⟩
        · simp [Outcome.written, hu]
        · rw [hstep]
          simp [Outcome.value, hx]
      | some y =>
        obtain ⟨b', hstore, hok, hlive', hmask, hbound⟩ := h.store hkey hfind (hc.update y hu)
        have hstep : refStep key.eq b.live c =
            ((true, some x), replace key.eq b.live c.el y) := by
          simp [refStep, hlookup, hdel, hu]
        refine ⟨_, b', rfl, ?_, hok, by rw [hstep, hlive'], ?_, ?_, hmask, Or.inl hbound⟩
        · simp [Outcome.written, hu, hstore]
        · rw [hstep]
          simp [Outcome.value, hx]
        · rw [hlive']
          simp [replace]
  | none =>
    rw [hfind, Option.bind_none] at hlookup
    by_cases hins : c.action = .insert
    · simp only [if_pos hins]
      have hstep : refStep key.eq b.live c = ((false, none), b.live ++ [c.fresh]) := by
        simp [refStep, hlookup, hins]
      have hfresh : ∀ y ∈ b.live, key.eq y c.fresh = false := by
        intro y hy
        by_contra hyf
        have hye := hkey.trans _ _ _ (by simpa using hyf) hc.fresh
        rw [lookup_none hlookup hy] at hye
        cases hye
      have hroom := hroom hins hlookup
      obtain ⟨hok, hlive'⟩ := h.push hkey hroom hfresh
      refine ⟨_, b.push (key.hash c.fresh) c.fresh, rfl, ?_, hok, by rw [hstep, hlive'],
        by rw [hstep]; rfl, ?_, rfl, Or.inr ⟨⟨hins, hlookup⟩, rfl⟩⟩
      · have hels := (h.room hroom).1
        simp [Outcome.written, Hbin.store?, hels, Hbin.push, hkey.hash_eq _ _ hc.fresh]
      · show w.incr n + _ = _
        rw [Widths.incr_eq hn, hlive', List.length_append, List.length_singleton]
        omega
    · simp only [if_neg hins]
      have hstep : refStep key.eq b.live c = ((false, none), b.live) := by
        simp [refStep, hlookup, hins]
      exact ⟨_, b, rfl, rfl, h, by rw [hstep], by rw [hstep]; rfl, rfl, rfl, Or.inl rfl⟩

section Outcome

variable {limit : Nat} {Slots : G → Nat → Nat → List Entry → Prop} {r : Outcome El G}
  {r' : Outcome El (List Entry)}

theorem OutcomeSim.value (h : OutcomeSim limit Slots r r') : r.value = r'.value := by
  unfold Outcome.value
  rw [← h.found, ← h.res]
  have hat : r'.bin.elAt = r.bin.elAt := funext h.bin.elAt
  rw [hat]

theorem OutcomeSim.written (h : OutcomeSim limit Slots r r') (c : Call El) :
    Option.Rel (BinSimUpTo limit Slots) (r.written c) (r'.written c) := by
  unfold Outcome.written
  rw [← h.found, ← h.res]
  cases r.res with
  | none => exact Option.Rel.some h.bin
  | some p =>
    cases (if r.found then c.update else some c.fresh) with
    | none => exact Option.Rel.some h.bin
    | some y => exact h.bin.store? p y

theorem Outcome.written_elsBound {c : Call El} {b : Hbin El G} (h : r.written c = some b) :
    b.elsBound = r.bin.elsBound := by
  unfold Outcome.written at h
  split at h
  · exact Hbin.store?_elsBound h
  · rw [← Option.some.inj h]

end Outcome

/-! ## Refilling -/

/-- The bin with the given elements at the positions from `0` on.  The bitmap stays. -/
def Hbin.refill (hash : El → BitVec 64) (b : IdealBin El) (xs : List El) : IdealBin El :=
  { b with els := xs.map some ++ b.els.drop xs.length, elsBound := xs.length,
           groups := xs.mapIdx fun i x => ⟨i, hash x⟩ }

def Bitmap.thin (map : Bitmap) (xs : List El) : List El :=
  (List.range xs.length).filterMap fun i => if map.test i then none else xs[i]?

theorem Bitmap.thin_eq_self {map : Bitmap} {xs : List El}
    (h : ∀ i < xs.length, map.test i = false) : map.thin xs = xs := by
  have htake : ∀ n ≤ xs.length,
      ((List.range n).filterMap fun i => if map.test i then none else xs[i]?) = xs.take n := by
    intro n
    induction n with
    | zero => intro _; rfl
    | succ n ih =>
      intro hn
      rw [List.range_succ, List.filterMap_append, ih (by omega), List.take_add_one]
      simp [h n (by omega), List.getElem?_eq_getElem (show n < xs.length by omega)]
  rw [thin, htake _ (Nat.le_refl _), List.take_length]

theorem Bitmap.thin_eq_self_iff {map : Bitmap} {xs : List El} :
    map.thin xs = xs ↔ ∀ i < xs.length, map.test i = false := by
  refine ⟨fun h i hi => ?_, thin_eq_self⟩
  by_contra hset
  have hlt : (map.thin xs).length < (List.range xs.length).length :=
    List.length_filterMap_lt_length_iff_exists.mpr
      ⟨i, List.mem_range.mpr hi, by simp [Bool.eq_true_of_not_eq_false hset]⟩
  rw [h, List.length_range] at hlt
  exact Nat.lt_irrefl _ hlt

theorem Bitmap.mem_thin {map : Bitmap} {xs : List El} {x : El} :
    x ∈ map.thin xs ↔ ∃ i, map.test i = false ∧ xs[i]? = some x := by
  simp only [thin, List.mem_filterMap, List.mem_range]
  constructor
  · rintro ⟨i, -, hi⟩
    cases htest : map.test i with
    | true => simp [htest] at hi
    | false => exact ⟨i, htest, by simpa [htest] using hi⟩
  · rintro ⟨i, htest, hi⟩
    exact ⟨i, (List.getElem?_eq_some_iff.mp hi).1, by simp [htest, hi]⟩

theorem Bitmap.thin_sublist (map : Bitmap) (xs : List El) : (map.thin xs).Sublist xs := by
  have htake : ∀ n, ((List.range n).filterMap fun i => if map.test i then none else xs[i]?).Sublist
      (xs.take n) := by
    intro n
    induction n with
    | zero => exact List.Sublist.slnil
    | succ n ih =>
      rw [List.range_succ, List.filterMap_append, List.take_add_one]
      refine ih.append ?_
      rw [List.filterMap_cons, List.filterMap_nil]
      cases hn : xs[n]? with
      | none => cases map.test n <;> simp
      | some x => cases map.test n <;> simp
  have h := htake xs.length
  rwa [List.take_length] at h

section Refill

variable {xs : List El} {hash : El → BitVec 64}

@[simp] theorem refill_elsBound : (b.refill hash xs).elsBound = xs.length := rfl
@[simp] theorem refill_deleted : (b.refill hash xs).deleted = b.deleted := rfl
@[simp] theorem refill_groupsMask : (b.refill hash xs).groupsMask = b.groupsMask := rfl
@[simp] theorem refill_numGroups : (b.refill hash xs).numGroups = b.numGroups := rfl
@[simp] theorem refill_elsSize : (b.refill hash xs).elsSize = b.elsSize := rfl

theorem refill_nil_of_vacant (hbound : b.elsBound = 0) (hgroups : b.groups = [])
    (hash : El → BitVec 64) : b.refill hash [] = b := by
  cases b
  simp_all [Hbin.refill]

theorem refill_els_length (hlen : xs.length ≤ b.els.length) :
    (b.refill hash xs).els.length = b.els.length := by
  simp only [Hbin.refill, List.length_append, List.length_map, List.length_drop]
  omega

theorem refill_elAt_lt {i : Nat} (hi : i < xs.length) : (b.refill hash xs).elAt i = xs[i]? := by
  unfold Hbin.elAt Hbin.refill
  rw [List.getElem?_append_left (by simpa using hi), List.getElem?_map,
    List.getElem?_eq_getElem hi]
  rfl

theorem refill_elAt_ge {i : Nat} (hi : xs.length ≤ i) :
    (b.refill hash xs).elAt i = b.elAt i := by
  unfold Hbin.elAt Hbin.refill
  rw [List.getElem?_append_right (by simpa using hi), List.getElem?_drop, List.length_map]
  congr 2
  omega

/-- The bitmap of a bin speaks of the positions after the refill, too. -/
theorem live_refill : (b.refill hash xs).live = b.deleted.thin xs := by
  unfold Hbin.live Bitmap.thin
  rw [refill_elsBound, refill_deleted]
  apply List.filterMap_congr
  intro i hi
  rw [refill_elAt_lt (List.mem_range.mp hi)]

/-- A refilled bin can be read, whatever its bitmap says. -/
theorem Readable.refill (hxs : Apart key.eq xs) (hbits : xs.length ≤ 8 * b.deleted.length) :
    Readable key (b.refill hash xs) where
  init i hi _ := by
    rw [refill_elAt_lt hi]
    exact ⟨_, List.getElem?_eq_getElem hi⟩
  apart := by
    rw [live_refill]
    exact hxs.sublist (b.deleted.thin_sublist xs)
  bits := hbits

theorem mem_refill_groups {e : Entry} :
    e ∈ (b.refill hash xs).groups ↔ ∃ x, xs[e.pos]? = some x ∧ e.hash = hash x := by
  simp only [Hbin.refill, List.mem_mapIdx]
  constructor
  · rintro ⟨i, hi, rfl⟩
    exact ⟨xs[i], List.getElem?_eq_getElem hi, rfl⟩
  · rintro ⟨x, hx, hh⟩
    obtain ⟨hi, hx⟩ := List.getElem?_eq_some_iff.mp hx
    refine ⟨e.pos, hi, ?_⟩
    rw [hx, ← hh]

theorem refill_positions :
    (b.refill hash xs).groups.map Entry.pos = List.range xs.length := by
  apply List.ext_getElem?
  intro i
  simp only [Hbin.refill, List.getElem?_map, List.getElem?_mapIdx]
  by_cases hi : i < xs.length
  · simp [hi]
  · simp [hi]

theorem refill_push {x : El} (hlen : xs.length < b.els.length) :
    (b.refill hash xs).push (hash x) x = b.refill hash (xs ++ [x]) := by
  have hdrop : b.els.drop xs.length = b.els[xs.length] :: b.els.drop (xs.length + 1) :=
    List.drop_eq_getElem_cons hlen
  unfold Hbin.push Hbin.refill
  simp only [List.length_append, List.length_singleton, List.map_append, List.map_cons,
    List.map_nil, List.mapIdx_concat, hdrop]
  congr 1
  rw [List.set_append_right _ _ (by simp), List.length_map, Nat.sub_self, List.set_cons_zero,
    List.append_assoc]
  rfl

theorem IndexOk.refill {hash : El → BitVec 64} (hhash : hash = key.hash)
    (hpow : ∃ k ≤ w.size, b.numGroups = 2 ^ k) (hxs : Apart key.eq xs) (hkey : key.Lawful)
    (hbits : xs.length ≤ 8 * b.deleted.length) : IndexOk w key (b.refill hash xs) := by
  subst hhash
  have hat : ∀ e ∈ (b.refill key.hash xs).groups, e.pos < xs.length ∧
      ∃ x, (b.refill key.hash xs).elAt e.pos = some x ∧ x ∈ xs ∧ xs[e.pos]? = some x ∧
        key.hash x = e.hash := by
    intro e he
    obtain ⟨x, hx, hh⟩ := mem_refill_groups.mp he
    have hlt := (List.getElem?_eq_some_iff.mp hx).1
    exact ⟨hlt, x, by rw [refill_elAt_lt hlt, hx], List.mem_of_getElem? hx, hx, hh.symm⟩
  refine ⟨hpow, ?_, ?_, ?_, hbits⟩
  · rw [refill_positions]
    exact List.nodup_range
  · intro e he
    obtain ⟨hlt, x, hx, -, -, hh⟩ := hat e he
    exact ⟨hlt, x, hx, hh⟩
  · intro e he f hf x y hx hy hxy
    obtain ⟨hlt, x', hx', hxmem, hxi, -⟩ := hat e he
    obtain ⟨-, y', hy', hymem, hyi, -⟩ := hat f hf
    rw [hx, Option.some.injEq] at hx'
    rw [hy, Option.some.injEq] at hy'
    subst hx' hy'
    have heq := hxs.eq_of_eq hkey.equivalence hxmem hymem hxy
    subst heq
    have hnodup := hxs.nodup hkey.equivalence
    exact (List.getElem?_inj hlt hnodup).mp (by rw [hxi, hyi])

/-- Reinserting an element that is not there yet into a refilled bin. -/
theorem reinsert_refill {x : El} (hlen : xs.length < b.els.length)
    (hx : ∀ y ∈ xs, key.eq y x = false) (fuel n : Nat) :
    reinsert (idealOps w key.eq) fuel n (b.refill key.hash xs) (key.hash x) x =
      some (w.incr n, b.refill key.hash (xs ++ [x])) := by
  rw [← refill_push hlen]
  refine reinsert_ideal ?_ ?_ fuel n (key.hash x)
  · rw [refill_els_length (Nat.le_of_lt hlen)]
    exact hlen
  · intro e he y hy
    obtain ⟨z, hz, -⟩ := mem_refill_groups.mp he
    rw [refill_elAt_lt (List.getElem?_eq_some_iff.mp hz).1, hz, Option.some.injEq] at hy
    exact hx y (hy ▸ List.mem_of_getElem? hz)

/-- A refilled bin without deleted positions is in order. -/
theorem DenseOk.refill (hkey : key.Lawful) (hpow : ∃ k ≤ w.size, b.numGroups = 2 ^ k)
    (hcap : b.els.length = b.elsSize) (hbytes : b.deleted.length = (b.elsSize + 7) / 8)
    (hclear : ∀ i, b.deleted.test i = false) (hxs : Apart key.eq xs)
    (hlen : xs.length ≤ b.elsSize) :
    DenseOk w key (b.refill key.hash xs) ∧ (b.refill key.hash xs).live = xs := by
  have hbits : xs.length ≤ 8 * b.deleted.length := by omega
  constructor
  · refine ⟨IndexOk.refill rfl hpow hxs hkey hbits, ?_, ?_, hbytes, fun i _ => hclear i, hlen⟩
    · rw [refill_positions]
      simp [hclear]
    · rw [refill_els_length (by omega)]
      exact hcap
  · rw [live_refill, Bitmap.thin_eq_self fun i _ => hclear i]

end Refill

end IndexedHash
