import Mathlib.Tactic.Common
import IndexedHash.Directory

/-!
# Runs that leave the directory alone

Calls that find room in their bin neither rebuild nor split: `quiet_step` says what
such a call does.  So a bin is filled by insertions (`fill_run`), and emptied by
deletions that leave its positions used (`drain_run`).  Both are about the ideal table.
-/

namespace IndexedHash

open Loop KeyedList

variable {El : Type} {key : Key El} {maxPower : Nat} {a : IdealIxht El} {i : Nat}

/-- A call on a bin that has room. -/
theorem quiet_step (hkey : key.Lawful) (hpower : PowerOk maxPower) (h : IxOk maxPower key a)
    (hnum : a.elsNum < 2 ^ 31) {c : Call El} (hc : c.Ok key) {e : Ebin El (List Entry)}
    (hbin : a.binOf (key.nonzero.hash c.el) = some i) (hi : a.bins[i]? = some e)
    (hroom : c.action = .insert → e.bin.elsBound < e.bin.elsSize) :
    ∃ o bin, Stepped ixhtWidths key.nonzero e.bin c a.elsNum o bin ∧
      Returns (fun fuel => ixhtStep maxPower (idealIxhtOps key) key fuel a c)
        (⟨o.found, o.res.map fun pos => (i, pos), o.value⟩,
          { a with elsNum := o.elsNum, bins := a.bins.set i { e with bin := bin } }) ∧
      IxOk maxPower key { a with elsNum := o.elsNum, bins := a.bins.set i { e with bin := bin } } := by
  have hle := hpower.le
  have hok := h.bins e (List.mem_of_getElem? hi)
  have hnot : ¬ (c.action = .insert ∧ ixhtFull e = true) := by
    rintro ⟨hins, hfull⟩
    rw [ixhtFull, decide_eq_true_eq, hok.halfIndexes (by omega)] at hfull
    have := hroom hins
    omega
  have hprep : ixhtPrepare maxPower (idealIxhtOps key) key 0 a (key.nonzero.hash c.el) c.action =
      some (a, i) := by
    simp only [ixhtPrepare, hbin, hi, Option.bind_some, if_neg hnot]
  obtain ⟨o, bin, hstepped, hstep⟩ := step_of_prepare hkey h hnum hi hroom hc hprep
  exact ⟨o, bin, hstepped,
    (ixhtStep_mono (idealOps_lawful ixhtWidths key.nonzero 0).mono a c).returns hstep,
    h.stepped hi hstepped⟩

/-! ## Emptying a bin -/

/-- Deleting all elements of a bin, in their order. -/
theorem drain_run (hkey : key.Lawful) (hpower : PowerOk maxPower) (h : IxOk maxPower key a)
    (hnum : a.elsNum < 2 ^ 31) {e : Ebin El (List Entry)} {ys : List El}
    (hi : a.bins[i]? = some e) (hlive : e.bin.live = ys)
    (hroute : ∀ y ∈ ys, a.binOf (key.nonzero.hash y) = some i) :
    ∃ rs bin, Returns (fun fuel => ixhtRun maxPower (idealIxhtOps key) key fuel a
        (plainCalls (ys.map fun y => (Action.delete, y))))
        (rs, { a with elsNum := a.elsNum - ys.length, bins := a.bins.set i { e with bin := bin } }) ∧
      bin.live = [] ∧ bin.elsBound = e.bin.elsBound ∧ bin.groupsMask = e.bin.groupsMask := by
  have hset : ∀ {b : IdealIxht El} {f : Ebin El (List Entry)}, b.bins[i]? = some f →
      b.bins.set i f = b.bins := by
    intro b f hf
    obtain ⟨hlt, rfl⟩ := List.getElem?_eq_some_iff.mp hf
    exact List.set_getElem_self hlt
  induction ys generalizing a e with
  | nil =>
    refine ⟨[], e.bin, ?_, hlive, rfl, rfl⟩
    simp only [List.length_nil, Nat.sub_zero, hset hi]
    exact Returns.const ([], a)
  | cons y ys ih =>
    have hok := h.bins e (List.mem_of_getElem? hi)
    have hlt := (List.getElem?_eq_some_iff.mp hi).1
    obtain ⟨o, bin, hstepped, hstep, hok'⟩ := quiet_step hkey hpower h hnum
      (Call.plain_ok hkey .delete y) (hroute y (List.mem_cons_self ..)) hi (fun hins => nomatch hins)
    have happart : Apart key.eq (y :: ys) := hlive ▸ hok.dense.apart
    have hfind : lookup key.eq (y :: ys) y = some y :=
      lookup_eq_some hkey.equivalence happart (List.mem_cons_self ..) (hkey.refl y)
    have hlive' : bin.live = ys := by
      have hrem := remove_head hkey.equivalence happart
      have := hstepped.live
      rw [hlive] at this
      simpa [refStep, Call.plain, Key.nonzero, hfind, hrem] using this
    have hbound : bin.elsBound = e.bin.elsBound := by
      rcases hstepped.bound with hb | ⟨⟨hins, -⟩, -⟩
      · exact hb
      · cases hins
    have hcount := hstepped.count
    rw [hlive, hlive', List.length_cons] at hcount
    -- the rest of the list is deleted from the bin that this leaves
    obtain ⟨rs, bin', hrun, hnil, hbound', hmask'⟩ := ih (e := { e with bin := bin }) hok'
      (show o.elsNum < 2 ^ 31 by omega) (List.getElem?_set_self hlt) hlive'
      fun z hz => hroute z (List.mem_cons_of_mem _ hz)
    have hnum' : o.elsNum - ys.length = a.elsNum - (ys.length + 1) := by omega
    have hrun' := Returns.cons hstep hrun
    simp only [List.set_set, hnum'] at hrun'
    exact ⟨_, bin', hrun', hnil, hbound'.trans hbound, hmask'.trans hstepped.mask⟩

/-! ## Filling a bin -/

section Fill

variable {d m s n : Nat} {B : IdealBin El} {xs : List El}

/-- Inserting a new element into a bin that holds `xs` from position `0` on. -/
theorem insert_step (maxPower : Nat) (hi : a.bins[i]? = some ⟨d, m, s, B.refill key.nonzero.hash xs⟩)
    (hsized : Sized n B) (hsmall : 8 * n < 2 ^ 32) (hlen : xs.length < 4 * n) {x : El}
    (hfresh : ∀ y ∈ xs, key.eq y x = false) (hbin : a.binOf (key.nonzero.hash x) = some i)
    (fuel : Nat) :
    ixhtStep maxPower (idealIxhtOps key) key fuel a (Call.plain .insert x) =
      some (⟨false, some (i, xs.length), none⟩,
        { a with
          elsNum := ixhtWidths.incr a.elsNum
          bins := a.bins.set i ⟨d, m, s, B.refill key.nonzero.hash (xs ++ [x])⟩ }) := by
  have hhalf : (B.refill key.nonzero.hash xs).halfIndexes = 4 * n := by
    have : B.indexesSize ixhtWidths = 8 * B.numGroups :=
      Hbin.indexesSize_eq (by rw [hsized.groups]; exact hsmall)
    have heq : (B.refill key.nonzero.hash xs).halfIndexes = B.indexesSize ixhtWidths / 2 := rfl
    rw [heq, this, hsized.groups]
    omega
  have hnot : ¬ ixhtFull (⟨d, m, s, B.refill key.nonzero.hash xs⟩ : Ebin El (List Entry)) = true := by
    rw [ixhtFull, decide_eq_true_eq, hhalf, refill_elsBound]
    omega
  have hprep : ixhtPrepare maxPower (idealIxhtOps key) key fuel a (key.nonzero.hash x) .insert =
      some (a, i) := by
    simp only [ixhtPrepare, hbin, hi, Option.bind_some, if_neg (fun h => hnot (And.right h))]
  -- `do_1` and the write are what a rebuild does for each element
  have hfresh : ∀ y ∈ xs, key.nonzero.eq y x = false := hfresh
  have hre : reinsert (idealIxhtOps key) fuel a.elsNum (B.refill key.nonzero.hash xs)
      (key.nonzero.hash x) x =
        some (ixhtWidths.incr a.elsNum, B.refill key.nonzero.hash (xs ++ [x])) :=
    reinsert_refill (by rw [hsized.els]; exact hlen) hfresh fuel a.elsNum
  have hnone : idealLookup key.eq (B.refill key.nonzero.hash xs) x = none := by
    refine idealLookup_eq_none fun e he y hy => ?_
    obtain ⟨z, hz, -⟩ := mem_refill_groups.mp he
    rw [refill_elAt_lt (List.getElem?_eq_some_iff.mp hz).1, hz, Option.some.injEq] at hy
    exact hfresh y (hy ▸ List.mem_of_getElem? hz)
  have hdo := idealDo1_insert_new (w := ixhtWidths) hnone a.elsNum (key.nonzero.hash x)
  have hops : ∀ b, (idealIxhtOps key).do1 fuel a.elsNum b (key.nonzero.hash x) x .insert =
      idealDo1 ixhtWidths key.eq a.elsNum b (key.nonzero.hash x) x .insert := fun _ => rfl
  simp only [reinsert, hops, hdo, Option.bind_some] at hre
  obtain ⟨b, hstore, hb⟩ := Option.map_eq_some_iff.mp hre
  obtain ⟨-, rfl⟩ := Prod.mk.inj hb
  simp only [ixhtStep, ixhtPerform, Call.plain, hprep, Option.bind_some, hi, hops, hdo,
    Option.map_some, Outcome.written, Bool.false_eq_true, if_false, hstore, Outcome.value]
  rw [Ixht.setBin_setBin hi]
  rfl

theorem idealLookup_refill_cons (hkey : key.Lawful) (B : IdealBin El) (xs : List El) (x : El) :
    idealLookup key.eq (B.refill key.nonzero.hash (x :: xs)) x = some ⟨0, key.nonzero.hash x⟩ := by
  have hfirst : (B.refill key.nonzero.hash (x :: xs)).elAt 0 = some x := rfl
  simp only [idealLookup, Hbin.refill, List.mapIdx_cons]
  refine List.find?_cons_of_pos ?_
  show (((B.refill key.nonzero.hash (x :: xs)).elAt 0).any (key.eq · x)) = true
  rw [hfirst]
  exact hkey.refl x

/-- Deleting the first element of such a bin. -/
theorem delete_first_step (maxPower : Nat) {x : El} (hkey : key.Lawful)
    (hi : a.bins[i]? = some ⟨d, m, s, B.refill key.nonzero.hash (x :: xs)⟩)
    (hbits : 0 < 8 * B.deleted.length) (hbin : a.binOf (key.nonzero.hash x) = some i) (fuel : Nat) :
    ixhtStep maxPower (idealIxhtOps key) key fuel a (Call.plain .delete x) =
      some (⟨true, none, none⟩,
        { a with
          elsNum := ixhtWidths.decr a.elsNum
          bins := a.bins.set i
            ⟨d, m, s, (B.refill key.nonzero.hash (x :: xs)).drop ⟨0, key.nonzero.hash x⟩⟩ }) := by
  have hprep : ixhtPrepare maxPower (idealIxhtOps key) key fuel a (key.nonzero.hash x) .delete =
      some (a, i) := by
    simp only [ixhtPrepare, hbin, hi, Option.bind_some, reduceCtorEq, false_and, if_false]
  have hfind := idealLookup_refill_cons hkey B xs x
  have hdo : (idealIxhtOps key).do1 fuel a.elsNum (B.refill key.nonzero.hash (x :: xs))
      (key.nonzero.hash x) x .delete = some
        { found := true, res := none, elsNum := ixhtWidths.decr a.elsNum
          bin := (B.refill key.nonzero.hash (x :: xs)).drop ⟨0, key.nonzero.hash x⟩ } := by
    show idealDo1 ixhtWidths key.eq a.elsNum _ _ x .delete = _
    simp only [idealDo1, hfind, if_true, refill_deleted, Bitmap.mark?_eq_some hbits, Option.map_some]
    rfl
  simp only [ixhtStep, ixhtPerform, Call.plain, hprep, Option.bind_some, hi, hdo,
    Option.map_some, Outcome.written, Outcome.value, Option.map_none, Option.bind_none, if_true]
  rw [Ixht.setBin_setBin hi]
  rfl

theorem fill_run {ys : List El} (hi : a.bins[i]? = some ⟨d, m, s, B.refill key.nonzero.hash xs⟩)
    (hsized : Sized n B) (hsmall : 8 * n < 2 ^ 32) (hlen : (xs ++ ys).length ≤ 4 * n)
    (hapart : Apart key.eq (xs ++ ys))
    (hroute : ∀ y ∈ ys, a.binOf (key.nonzero.hash y) = some i)
    (hnum : a.elsNum + ys.length < 2 ^ 32) :
    ∃ rs, Returns (fun fuel => ixhtRun maxPower (idealIxhtOps key) key fuel a
        (plainCalls (ys.map fun y => (Action.insert, y))))
        (rs, { a with
          elsNum := a.elsNum + ys.length
          bins := a.bins.set i ⟨d, m, s, B.refill key.nonzero.hash (xs ++ ys)⟩ }) := by
  have hlt := (List.getElem?_eq_some_iff.mp hi).1
  induction ys generalizing a xs with
  | nil =>
    refine ⟨[], ?_⟩
    have hset : a.bins.set i ⟨d, m, s, B.refill key.nonzero.hash xs⟩ = a.bins := by
      obtain ⟨hlt, hget⟩ := List.getElem?_eq_some_iff.mp hi
      rw [← hget]
      exact List.set_getElem_self hlt
    simp only [List.length_nil, Nat.add_zero, List.append_nil, hset]
    exact Returns.const ([], a)
  | cons y ys ih =>
    rw [List.length_append, List.length_cons] at hlen
    rw [List.length_cons] at hnum
    rw [List.append_cons] at hapart
    have hfresh : ∀ z ∈ xs, key.eq z y = false := fun z hz =>
      (List.pairwise_append.mp (List.pairwise_append.mp hapart).1).2.2 z hz y
        (List.mem_singleton_self y)
    have hstep := insert_step maxPower hi hsized hsmall (by omega) hfresh
      (hroute y (List.mem_cons_self ..))
    have hincr : ixhtWidths.incr a.elsNum = a.elsNum + 1 :=
      Widths.incr_eq (by show a.elsNum + 1 < 2 ^ 32; omega)
    rw [hincr] at hstep
    obtain ⟨rs, hrun⟩ := ih (a := { a with
        elsNum := a.elsNum + 1
        bins := a.bins.set i ⟨d, m, s, B.refill key.nonzero.hash (xs ++ [y])⟩ })
      (List.getElem?_set_self hlt)
      (by rw [List.length_append, List.length_append, List.length_singleton]; omega)
      hapart (fun z hz => hroute z (List.mem_cons_of_mem _ hz))
      (show a.elsNum + 1 + ys.length < 2 ^ 32 by omega)
      (by rw [List.length_set]; exact hlt)
    have hrun' := Returns.cons (c := Call.plain .insert y) ⟨0, fun fuel _ => hstep fuel⟩ hrun
    simp only [List.set_set, Nat.add_assoc, Nat.add_comm 1, List.append_assoc,
      List.singleton_append] at hrun'
    exact ⟨_, hrun'⟩

end Fill

/-! ## Two bins -/

/-- A bin of the table that `ixht_create (t, 2 ^ 15)` makes, without its mask. -/
def largeBin (key : Key El) : IdealBin El := (ixhtCreateBin (idealIxhtOps key) (2 ^ 14)).bin

/-- The table that `ixht_create (t, 2 ^ 15)` makes: two bins of `2 ^ 14` elements. -/
def twoBins (key : Key El) : IdealIxht El :=
  ⟨0, 1, 1, [0, 1], [⟨1, 0, 0, largeBin key⟩, ⟨1, 1, 0, largeBin key⟩]⟩

theorem twoBins_created (key : Key El) :
    Returns (fun fuel => ixhtCreate IXHT_MAX_BIN_SIZE_POWER (idealIxhtOps key) fuel (2 ^ 15))
      (twoBins key) :=
  (ixhtCreate_mono IXHT_MAX_BIN_SIZE_POWER (idealIxhtOps key) (2 ^ 15)).returns (n := 16) rfl

theorem largeBin_sized (key : Key El) : Sized (2 ^ 12) (largeBin key) :=
  ixhtCreateBin_sized (idealIxhtOps key) (by decide) (by decide)

theorem largeBin_refill_nil (key : Key El) :
    (largeBin key).refill key.nonzero.hash [] = largeBin key :=
  refill_nil_of_vacant rfl rfl _

theorem largeBin_live (key : Key El) (xs : List El) :
    ((largeBin key).refill key.nonzero.hash xs).live = xs := by
  rw [live_refill]
  exact Bitmap.thin_eq_self fun i _ => Bitmap.test_zeros _ i

theorem fill_largeBin (maxPower : Nat) {d m s : Nat} {ys : List El}
    (hi : a.bins[i]? = some ⟨d, m, s, largeBin key⟩) (hlen : ys.length ≤ 2 ^ 14)
    (hapart : Apart key.eq ys) (hroute : ∀ y ∈ ys, a.binOf (key.nonzero.hash y) = some i)
    (hnum : a.elsNum + ys.length < 2 ^ 32) :
    ∃ rs, Returns (fun fuel => ixhtRun maxPower (idealIxhtOps key) key fuel a
        (plainCalls (ys.map fun y => (Action.insert, y))))
        (rs, { a with
          elsNum := a.elsNum + ys.length
          bins := a.bins.set i ⟨d, m, s, (largeBin key).refill key.nonzero.hash ys⟩ }) := by
  rw [← largeBin_refill_nil] at hi
  exact fill_run hi (largeBin_sized key) (by decide) (by rw [List.nil_append]; omega)
    (by rw [List.nil_append]; exact hapart) hroute hnum

/-- The lowest bit of the hash leads to the bin. -/
theorem twoBins_binOf {a : IdealIxht El} (hdir : a.dir = [0, 1]) (hmask : a.binMask = 1)
    (hash : BitVec 64) : a.binOf hash = some (hash.toNat % 2) := by
  rw [Ixht.binOf, hdir, hmask, show hash.toNat &&& 1 = hash.toNat % 2 from Nat.and_one_is_mod _]
  rcases Nat.mod_two_eq_zero_or_one hash.toNat with h | h
  · rw [h]
    rfl
  · rw [h]
    rfl

/-- The real table behind it. -/
theorem twoBins_follows (hkey : key.Lawful) (target : Target) :
    ∃ t₀, Returns (fun fuel => ixhtCreate IXHT_MAX_BIN_SIZE_POWER (ixhtOps key target) fuel
        (2 ^ 15)) t₀ ∧ Follows IXHT_MAX_BIN_SIZE_POWER key SlotsOk t₀ (twoBins key) := by
  obtain ⟨t₀, a₀, ht₀, ha₀, hfollows, -, -⟩ := ixhtCreate_follows
    (ixhtOps_lawful hkey target) hkey powerOk_source (show 2 ^ 15 ≤ 2 ^ 31 by decide)
  rw [ha₀.unique (twoBins_created key)] at hfollows
  exact ⟨t₀, ht₀, hfollows⟩

theorem twoBins_dir (hkey : key.Lawful) {B₀ B₁ : IdealBin El}
    (h₀ : ∀ x ∈ B₀.live, (key.nonzero.hash x).toNat % 2 = 0)
    (h₁ : ∀ x ∈ B₁.live, (key.nonzero.hash x).toNat % 2 = 1) (n : Nat) :
    Dir key { twoBins key with elsNum := n, bins := [⟨1, 0, 0, B₀⟩, ⟨1, 1, 0, B₁⟩] } := by
  obtain ⟨fuel, hfuel⟩ := (twoBins_created key).exists_some
  have hdir := ixhtCreate_dir hkey powerOk_source hfuel
  have hdir₀ : Dir key
      { twoBins key with bins := [⟨1, 0, 0, B₀⟩, ⟨1, 1, 0, largeBin key⟩] } :=
    hdir.set_bin (i := 0) rfl ⟨1, 0, 0, B₀⟩ rfl rfl h₀ _
  exact hdir₀.set_bin (i := 1) rfl ⟨1, 1, 0, B₁⟩ rfl rfl h₁ n

def progression (n m k : Nat) : List (BitVec 64) :=
  (List.range n).map fun j => BitVec.ofNat 64 (m * j + k)

section Progression

variable {n m k : Nat}

theorem length_progression : (progression n m k).length = n := by
  rw [progression, List.length_map, List.length_range]

theorem mem_progression (hbound : m * n + k < 2 ^ 64) {x : BitVec 64} :
    x ∈ progression n m k ↔ ∃ j < n, x.toNat = m * j + k := by
  have hlt : ∀ j < n, m * j + k < 2 ^ 64 := by
    intro j hj
    have := Nat.mul_le_mul_left m (Nat.le_of_lt hj)
    omega
  simp only [progression, List.mem_map, List.mem_range]
  constructor
  · rintro ⟨j, hj, rfl⟩
    exact ⟨j, hj, by rw [BitVec.toNat_ofNat, Nat.mod_eq_of_lt (hlt j hj)]⟩
  · rintro ⟨j, hj, hx⟩
    exact ⟨j, hj, BitVec.eq_of_toNat_eq (by rw [BitVec.toNat_ofNat, Nat.mod_eq_of_lt (hlt j hj), hx])⟩

theorem progression_getElem? {i : Nat} (hi : i < n) :
    (progression n m k)[i]? = some (BitVec.ofNat 64 (m * i + k)) := by
  rw [progression, List.getElem?_map, List.getElem?_range hi, Option.map_some]

theorem progression_apart (hm : 0 < m) (hbound : m * n + k < 2 ^ 64) :
    Apart identityKey.eq (progression n m k) := by
  unfold Apart progression
  rw [List.pairwise_map]
  refine List.Pairwise.imp_of_mem ?_ (List.nodup_range (n := n))
  intro i j hi hj hij
  rw [List.mem_range] at hi hj
  have hlt : ∀ j < n, m * j + k < 2 ^ 64 := by
    intro j hj
    have := Nat.mul_le_mul_left m (Nat.le_of_lt hj)
    omega
  show (BitVec.ofNat 64 (m * i + k) == BitVec.ofNat 64 (m * j + k)) = false
  rw [beq_eq_false_iff_ne]
  intro heq
  have := congrArg BitVec.toNat heq
  rw [BitVec.toNat_ofNat, BitVec.toNat_ofNat, Nat.mod_eq_of_lt (hlt i hi),
    Nat.mod_eq_of_lt (hlt j hj)] at this
  exact hij (Nat.eq_of_mul_eq_mul_left hm (by omega))

end Progression

theorem identityKey_nonzero {x : BitVec 64} (hx : x.toNat ≠ 0) : identityKey.nonzero.hash x = x := by
  have hne : x ≠ 0#64 := fun h => hx (by rw [h]; rfl)
  simp [Key.nonzero, identityKey, hne]

end IndexedHash
