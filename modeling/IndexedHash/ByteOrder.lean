import Mathlib.Tactic.Common
import IndexedHash.BinCalls

/-!
# The SWAR helpers and the byte order of the host

The SWAR `iht_group_load` reads the eight tags of a group as one `uint64_t`, and
`iht_do_1` takes `ctz (mask) / 8` for the array position of a flagged byte.  That is the
number of the byte in the word, counted from the least significant one, and so the
array position on a little-endian host only.  On a big-endian host byte `j` of the word
is tag `7 - j` of the group, and since 7 is odd no flagged byte is where `iht_do_1`
looks for it.

`swar_order_iff` says of each thing that the helpers are for that it holds on the
little-endian hosts and on no others.
-/

namespace IndexedHash

open Loop KeyedList ByteWord

/-! ## The load -/

def swarOps (order : ByteOrder) : GroupOps := { Target.swar.ops with groupLoad := order.load }

/-- `ihtab.h` with the SWAR helpers. -/
def orderOps {El : Type} (key : Key El) (order : ByteOrder) : BinOps El (List Group) :=
  groupOps ihtWidths (swarOps order) key.eq

def ByteOrder.position : ByteOrder → Nat → Nat
  | .little, j => j
  | .big, j => 7 - j

def ByteOrder.arrange : ByteOrder → Tags → Tags
  | .little, tags => tags
  | .big, tags => tags.reverse

theorem ByteOrder.load_eq (order : ByteOrder) (tags : Tags) :
    order.load tags.toList = loadLE (order.arrange tags).toList := by
  cases order with
  | little => rfl
  | big => rw [load, arrange, Vector.toList_reverse]

theorem ByteOrder.getElem?_arrange (order : ByteOrder) (tags : Tags) {j : Nat} (hj : j < 8) :
    (order.arrange tags)[j]? = tags[order.position j]? := by
  cases order with
  | little => rfl
  | big => rw [arrange, position, Vector.getElem?_reverse hj]

/-- The bytes that the match mask flags, by the array positions of the tags in them. -/
theorem swar_order_matches (order : ByteOrder) (tags : Tags) (h7 : BitVec 8) :
    ∃ p : Nat → Bool,
      (swarOps order).flagged (ihtMatchMask .swar (order.load tags.toList) h7) = (List.range 8).filter p ∧
      (∀ j < 8, tags[order.position j]? = some h7 → p j = true) ∧
      ∀ j < 8, p j = true →
        tags[order.position j]? = some h7 ∨ tags[order.position j]? = some (h7 ^^^ 1#8) := by
  obtain ⟨p, hflags, hall, honly⟩ := Target.swar.matches_h7 (order.arrange tags) h7
  rw [← order.load_eq] at hflags
  refine ⟨p, hflags, fun j hj hmatch => hall j ?_, fun j hj hp => ?_⟩
  · rw [order.getElem?_arrange tags hj, hmatch]
  · rw [← order.getElem?_arrange tags hj]
    exact honly j hj hp

/-! ## What the helpers are for -/

/-- `iht_do_1` behaves as on a little-endian host. -/
def DoesAlike (order : ByteOrder) : Prop :=
  ∀ (El : Type) (key : Key El), key.Lawful → ∀ t : Iht El (List Group), IhtRep key t →
    ∀ fuel el action,
      (orderOps key order).do1 fuel t.elsNum t.bin (key.hash el) el action =
        (orderOps key .little).do1 fuel t.elsNum t.bin (key.hash el) el action

/-- A FIND after an INSERT of the same key finds an element, where the positions fit into
    stored indices. -/
def FindsInserted (order : ByteOrder) : Prop :=
  ∀ (El : Type) (key : Key El), key.Lawful → ∀ t : Iht El (List Group), IhtRep key t →
    t.bin.elsBound < 2 ^ 32 → ∀ c : Call El, c.Ok key → c.action = .insert →
    ∃ o b' o',
      Returns (fun fuel =>
        (orderOps key order).do1 fuel t.elsNum t.bin (key.hash c.el) c.el .insert) o ∧
      o.written c = some b' ∧
      Returns (fun fuel => (orderOps key order).do1 fuel o.elsNum b' (key.hash c.el) c.el .find) o' ∧
      o'.found = true

theorem refStep_insert_mem {El : Type} {key : Key El} {c : Call El} (hc : c.Ok key)
    (hins : c.action = .insert) (l : List El) :
    ∃ x ∈ (refStep key.eq l c).2, key.eq x c.el = true := by
  unfold refStep
  cases hlookup : lookup key.eq l c.el with
  | none => exact ⟨c.fresh, by simp [hins], hc.fresh⟩
  | some x =>
    obtain ⟨hx, heq⟩ := lookup_some hlookup
    simp only [hins, if_neg (show ¬ Action.insert = .delete by decide)]
    cases hup : c.update with
    | none => exact ⟨x, hx, heq⟩
    | some y => exact ⟨y, List.mem_map.mpr ⟨x, hx, if_pos heq⟩, hc.update y hup⟩

theorem findsInserted_little : FindsInserted .little := by
  intro El key hkey t ht hlt c hc hins
  have hroom : t.bin.elsBound < t.bin.elsSize := by
    have hroom := ht.room
    have hpos : 0 < t.bin.numGroups := Nat.succ_pos _
    unfold Hbin.elsSize at hroom ⊢
    omega
  obtain ⟨o, b', ho, hb'⟩ := ht.bin.perform hkey .swar (Nat.le_of_lt hlt) hc hroom t.elsNum
  obtain ⟨fuel, hfuel⟩ := ho.exists_some
  have hstepped := ht.bin.step hkey (Nat.le_of_lt hlt) hc hfuel hb'
  have hle : b'.elsBound ≤ 2 ^ 32 := Nat.le_trans hstepped.bound hlt
  obtain ⟨x, hx, heq⟩ := refStep_insert_mem hc hins t.bin.live
  rw [← hstepped.live] at hx
  obtain ⟨o', ho', hfound⟩ := (hstepped.rep hle).find_of_mem hkey .swar hle hx heq o.elsNum
  rw [hins] at ho
  exact ⟨o, b', o', ho, hb', ho', hfound⟩

/-! ## A big-endian host -/

def groupMates : List (Call (BitVec 64)) :=
  (List.range 8).map fun i => Call.plain .insert (BitVec.ofNat 64 i <<< 57)

def answer (order : ByteOrder) (t : Iht (BitVec 64) (List Group)) : Option (Bool × Option Nat) :=
  ((orderOps identityKey order).do1 2 t.elsNum t.bin (identityKey.hash (1#64 <<< 57)) (1#64 <<< 57)
    .find).map fun o => (o.found, o.res)

/-- A table whose first group is full.  On a big-endian host the index of another slot is
    read for the second of its words, and a FIND goes on to the next group. -/
theorem exists_full_group :
    ∃ t, IhtRep identityKey t ∧ answer .little t = some (true, some 1) ∧
      answer .big t = some (false, none) := by
  have hcreate : Returns (fun fuel => ihtCreate (ihtOps identityKey .swar) fuel 16)
      ⟨0, ihtAllocBin (ihtOps identityKey .swar) 32⟩ :=
    (ihtCreate_mono _ _).returns (n := 3) rfl
  have hcalls : ∀ c ∈ groupMates, c.Ok identityKey := by
    intro c hc
    obtain ⟨i, -, rfl⟩ := List.mem_map.mp hc
    exact Call.plain_ok identityKey_lawful _ _
  have hsession := IhtSession.of_length (ihtOps_lawful identityKey_lawful .swar) identityKey_lawful
    (Nat.le_refl _) hcreate hcalls (by decide)
  have hrun : (ihtRun (ihtOps identityKey .swar) identityKey 1
      ⟨0, ihtAllocBin (ihtOps identityKey .swar) 32⟩ groupMates).map
        (fun s => (answer .little s.2, answer .big s.2)) =
      some (some (true, some 1), some (false, none)) := by
    decide +kernel
  obtain ⟨⟨rs, t⟩, hrun, heq⟩ := Option.map_eq_some_iff.mp hrun
  obtain ⟨hlittle, hbig⟩ := Prod.mk.inj heq
  have hmono : (ihtOps identityKey .swar).Mono := (ihtOps_lawful identityKey_lawful .swar).mono
  exact ⟨t, (hsession.mono (2 ^ 32) (by decide)).rep identityKey_lawful .swar
    ((runCalls_mono (ihtStep_mono hmono) _ _).returns hrun), hlittle, hbig⟩

theorem not_lawful_big : ¬ (swarOps .big).Lawful ValidTag EMPTY_H7 := by
  intro h
  -- one tag, at array position 0
  obtain ⟨p, hflags, hall, -⟩ := h.matches_h7 #v[5, 0xc0, 0xc0, 0xc0, 0xc0, 0xc0, 0xc0, 0xc0] 5#8
    (by decide)
  obtain ⟨q, hflags', -, honly⟩ := swar_order_matches .big #v[5, 0xc0, 0xc0, 0xc0, 0xc0, 0xc0, 0xc0, 0xc0]
    5#8
  have hzero : 0 ∈ (List.range 8).filter q := by
    rw [← hflags']
    exact hflags ▸ List.mem_filter.mpr ⟨by decide, hall 0 rfl⟩
  rcases honly 0 (by decide) (List.mem_filter.mp hzero).2 with hbad | hbad
  · exact absurd hbad (by decide)
  · exact absurd hbad (by decide)

theorem not_doesAlike_big : ¬ DoesAlike .big := by
  intro h
  obtain ⟨t, ht, hlittle, hbig⟩ := exists_full_group
  have hsame : answer .big t = answer .little t :=
    congrArg (Option.map _) (h _ _ identityKey_lawful t ht 2 _ .find)
  rw [hsame, hlittle] at hbig
  exact absurd hbig (by decide)

/-- A pass of the probe loop that is stuck ends every probe that starts with it. -/
theorem groupDo1_of_stuck {El : Type} {w : Widths} {gops : GroupOps} {eq : El → El → Bool}
    {b : Hbin El (List Group)} {hash : BitVec 64} {el : El}
    (h : probeGroup gops eq b (h7Val hash) el (homeGroup w hash b.groupsMask) = none)
    (fuel n : Nat) (action : Action) : groupDo1 w gops eq fuel n b hash el action = none := by
  have hprobe : probe w gops eq fuel b hash el = none := by
    unfold probe
    cases fuel with
    | zero => rfl
    | succ fuel => rw [forever, h]
  rw [groupDo1, hprobe, Option.bind_none]

/-- In a new table an INSERT takes slot 0, and the FIND after it reads the index of slot 7,
    which has never been written. -/
theorem inserted_stuck_big :
    ∃ o b', (orderOps identityKey .big).do1 1 0 (sampleTable (ihtOps identityKey .swar)).bin
        (identityKey.hash 5#64) 5#64 .insert = some o ∧
      o.written (Call.plain .insert 5#64) = some b' ∧
      ∀ fuel n, (orderOps identityKey .big).do1 fuel n b' (identityKey.hash 5#64) 5#64 .find = none := by
  have hrun : (((orderOps identityKey .big).do1 1 0 (sampleTable (ihtOps identityKey .swar)).bin
      (identityKey.hash 5#64) 5#64 .insert).bind fun o =>
        (o.written (Call.plain .insert 5#64)).map fun b' =>
          (probeGroup (swarOps .big) identityKey.eq b' (h7Val (identityKey.hash 5#64)) 5#64
            (homeGroup ihtWidths (identityKey.hash 5#64) b'.groupsMask)).isNone) = some true := by
    decide +kernel
  obtain ⟨o, ho, hmap⟩ := Option.bind_eq_some_iff.mp hrun
  obtain ⟨b', hb', hstuck⟩ := Option.map_eq_some_iff.mp hmap
  exact ⟨o, b', ho, hb', fun fuel n => groupDo1_of_stuck (Option.isNone_iff_eq_none.mp hstuck) fuel n .find⟩

theorem sampleTable_rep : IhtRep identityKey (sampleTable (ihtOps identityKey .swar)) :=
  (((sampleSession .swar).mono (2 ^ 32) (by decide)).initial (List.take_prefix 0 _)).rep
    identityKey_lawful .swar (Returns.const ([], _))

theorem not_findsInserted_big : ¬ FindsInserted .big := by
  intro h
  obtain ⟨o₁, b₁, ho₁, hb₁, hnone⟩ := inserted_stuck_big
  obtain ⟨o, b', o', ho, hb', hfind, -⟩ := h _ _ identityKey_lawful _ sampleTable_rep (by decide)
    (Call.plain .insert 5#64) (Call.plain_ok identityKey_lawful _ _) rfl
  have hmono : (orderOps identityKey .big).Mono := groupDo1_mono ihtWidths (swarOps .big) identityKey.eq
  obtain rfl := ho.unique ((hmono _ _ _ _ _).returns ho₁)
  obtain rfl := Option.some.inj (hb'.symm.trans hb₁)
  obtain ⟨fuel, hfuel⟩ := hfind.exists_some
  have hstuck := hnone fuel o.elsNum
  exact absurd (hstuck.symm.trans hfuel) (fun heq => nomatch heq)

theorem ByteOrder.iff_little {P : ByteOrder → Prop} (hlittle : P .little) (hbig : ¬ P .big)
    (order : ByteOrder) : P order ↔ order = .little := by
  cases order with
  | little => exact iff_of_true hlittle rfl
  | big => exact iff_of_false hbig (fun h => nomatch h)

/-- The flagged bytes are at the array positions of the tags they flag, `iht_do_1` behaves
    as on a little-endian host, and a FIND after an INSERT of the same key finds it: each
    of these holds on a host if and only if it is little-endian. -/
theorem swar_order_iff (order : ByteOrder) :
    ((swarOps order).Lawful ValidTag EMPTY_H7 ↔ order = .little) ∧
    (DoesAlike order ↔ order = .little) ∧
    (FindsInserted order ↔ order = .little) := by
  refine ⟨?_, ?_, ?_⟩
  · exact ByteOrder.iff_little (P := fun order => (swarOps order).Lawful ValidTag EMPTY_H7)
      Target.swar.lawful not_lawful_big order
  · exact ByteOrder.iff_little (fun _ _ _ _ _ _ _ _ => rfl) not_doesAlike_big order
  · exact ByteOrder.iff_little findsInserted_little not_findsInserted_big order

/-- In the table whose first group is full, a FIND of a word that is there fails on a
    big-endian host.  In a new one an INSERT is followed by a FIND that does not return. -/
theorem swar_big_misses :
    (∃ t, IhtRep identityKey t ∧ answer .little t = some (true, some 1) ∧
      answer .big t = some (false, none)) ∧
    ¬ FindsInserted .big :=
  ⟨exists_full_group, not_findsInserted_big⟩

end IndexedHash
