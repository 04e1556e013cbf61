import Mathlib.Data.List.Nodup
import Mathlib.Tactic.Common
import IndexedHash.Bin
import IndexedHash.Probing

/-!
# The ideal index

The abstract model of what the tags and stored indices of a bin are for: a list of
entries, one for each live position, with the hash under which the position was
entered.  Looking up an element is a search of that list.  The ideal bin has the
same dense array, bitmap and counters as the real one, so an implementation that
follows it step by step (`BinOps.Lawful`) has the same observable behaviour.

`IndexOk` is what a lookup needs to be meaningful: every entry leads to an
initialised element of the entry's hash, and no two entries to equal elements.
-/

namespace IndexedHash

structure Entry where
  pos : Nat
  hash : BitVec 64
deriving DecidableEq, Repr

abbrev IdealBin (El : Type) := Hbin El (List Entry)

variable {El G : Type}

def idealLookup (eq : El → El → Bool) (b : IdealBin El) (el : El) : Option Entry :=
  b.groups.find? fun e => (b.elAt e.pos).any (eq · el)

def idealDo1 (w : Widths) (eq : El → El → Bool) (elsNum : Nat) (b : IdealBin El)
    (hash : BitVec 64) (el : El) (action : Action) : Option (Outcome El (List Entry)) :=
  match idealLookup eq b el with
  | some e =>
      if action = .delete then
        (b.deleted.mark? e.pos).map fun deleted =>
          { found := true, res := none, elsNum := w.decr elsNum,
            bin := { b with deleted := deleted, groups := b.groups.filter (·.pos ≠ e.pos) } }
      else some { found := true, res := some e.pos, elsNum := elsNum, bin := b }
  | none =>
      if action = .insert then
        some { found := false, res := some b.elsBound, elsNum := w.incr elsNum,
               bin := { b with groups := b.groups ++ [⟨b.elsBound, hash⟩],
                               elsBound := b.elsBound + 1 } }
      else some { found := false, res := none, elsNum := elsNum, bin := b }

def idealOps (w : Widths) (eq : El → El → Bool) : BinOps El (List Entry) where
  alloc _ := []
  clear _ _ := some []
  regrow _ _ := []
  do1 _ elsNum b hash el action := idealDo1 w eq elsNum b hash el action

/-! ## Well-formed ideal bins -/

structure IndexOk (w : Widths) (key : Key El) (b : IdealBin El) : Prop where
  pow2 : ∃ k ≤ w.size, b.numGroups = 2 ^ k
  nodup : (b.groups.map Entry.pos).Nodup
  entry : ∀ e ∈ b.groups, e.pos < b.elsBound ∧ ∃ x, b.elAt e.pos = some x ∧ key.hash x = e.hash
  apart : ∀ e ∈ b.groups, ∀ f ∈ b.groups, ∀ x y, b.elAt e.pos = some x → b.elAt f.pos = some y →
    key.eq x y = true → e.pos = f.pos
  bitmap : b.elsBound ≤ 8 * b.deleted.length

section Lookup

variable {w : Widths} {key : Key El} {b : IdealBin El} {el : El} {e : Entry}

theorem idealLookup_some (h : idealLookup key.eq b el = some e) :
    e ∈ b.groups ∧ ∃ x, b.elAt e.pos = some x ∧ key.eq x el = true := by
  refine ⟨List.mem_of_find?_eq_some h, ?_⟩
  have hany := List.find?_some h
  rw [Option.any_eq_true] at hany
  exact hany

theorem idealLookup_none (h : idealLookup key.eq b el = none) {x : El} (he : e ∈ b.groups)
    (hx : b.elAt e.pos = some x) : key.eq x el = false := by
  have hany := List.find?_eq_none.mp h e he
  simpa [hx] using hany

theorem idealLookup_eq_none (h : ∀ e ∈ b.groups, ∀ x, b.elAt e.pos = some x → key.eq x el = false) :
    idealLookup key.eq b el = none := by
  apply List.find?_eq_none.mpr
  intro e he
  cases hx : b.elAt e.pos with
  | none => simp
  | some x => simp [h e he x hx]

/-- Equal entries of one position. -/
theorem IndexOk.eq_of_pos (hok : IndexOk w key b) {f : Entry} (he : e ∈ b.groups)
    (hf : f ∈ b.groups) (h : e.pos = f.pos) : e = f :=
  List.inj_on_of_nodup_map hok.nodup he hf h

/-- There is at most one entry of an element equal to `el`. -/
theorem IndexOk.lookup_unique (hkey : key.Lawful) (hok : IndexOk w key b)
    (h : idealLookup key.eq b el = some e) {f : Entry} {y : El} (hf : f ∈ b.groups)
    (hy : b.elAt f.pos = some y) (heq : key.eq y el = true) : f = e := by
  obtain ⟨he, x, hx, hxe⟩ := idealLookup_some h
  apply hok.eq_of_pos hf he
  exact hok.apart f hf e he y x hy hx (hkey.trans _ _ _ heq (hkey.symm _ _ hxe))

/-- A found element has the hash it is looked up under. -/
theorem IndexOk.lookup_hash (hkey : key.Lawful) (hok : IndexOk w key b)
    (h : idealLookup key.eq b el = some e) : e.hash = key.hash el := by
  obtain ⟨he, x, hx, hxe⟩ := idealLookup_some h
  obtain ⟨_, y, hy, hhash⟩ := hok.entry e he
  rw [hx, Option.some.injEq] at hy
  subst hy
  rw [← hhash, hkey.hash_eq _ _ hxe]

theorem IndexOk.mark?_eq (hok : IndexOk w key b) (he : e ∈ b.groups) :
    b.deleted.mark? e.pos = some (b.deleted.mark e.pos) := by
  have hlt := (hok.entry e he).1
  exact Bitmap.mark?_eq_some (Nat.lt_of_lt_of_le hlt hok.bitmap)

/-- The start of the probe and its steps, as a walk modulo the number of groups. -/
theorem Hbin.walk {w : Widths} {b : Hbin El G} (hpow : ∃ k ≤ w.size, b.numGroups = 2 ^ k)
    (hash : BitVec 64) :
    homeGroup w hash b.groupsMask = (hash.toNat / 8 + 0) % b.numGroups ∧
      ∀ k, ((hash.toNat / 8 + k) % b.numGroups + 1) &&& b.groupsMask =
        (hash.toNat / 8 + (k + 1)) % b.numGroups := by
  obtain ⟨m, hm, hn⟩ := hpow
  have hmask : b.groupsMask = b.numGroups - 1 := rfl
  rw [hmask]
  exact ⟨Probing.mod_and_mask hn hm _, Probing.next_step hn _⟩

end Lookup

/-! ## Adding and removing an entry -/

theorem length_filter_pos_ne {es : List Entry} (hnodup : (es.map Entry.pos).Nodup) {e : Entry}
    (he : e ∈ es) : (es.filter (·.pos ≠ e.pos)).length + 1 = es.length := by
  have herase : es.filter (·.pos ≠ e.pos) = es.erase e := by
    rw [(List.Nodup.of_map _ hnodup).erase_eq_filter]
    apply List.filter_congr
    intro f hf
    have hiff : f.pos = e.pos ↔ f = e :=
      ⟨fun h => List.inj_on_of_nodup_map hnodup hf he h, fun h => by rw [h]⟩
    simp [hiff, bne, beq_eq_decide]
  rw [herase, List.length_erase_of_mem he]
  have := List.length_pos_of_mem he
  omega

def Hbin.push (b : IdealBin El) (hash : BitVec 64) (x : El) : IdealBin El :=
  { b with els := b.els.set b.elsBound (some x), groups := b.groups ++ [⟨b.elsBound, hash⟩],
           elsBound := b.elsBound + 1 }

def Hbin.drop (b : IdealBin El) (e : Entry) : IdealBin El :=
  { b with deleted := b.deleted.mark e.pos, groups := b.groups.filter (·.pos ≠ e.pos) }

section Update

variable {w : Widths} {key : Key El} {b : IdealBin El} {el : El} {e : Entry}

theorem elAt_push (hroom : b.elsBound < b.els.length) (hash : BitVec 64) (x : El) (i : Nat) :
    (b.push hash x).elAt i = if i = b.elsBound then some x else b.elAt i := by
  unfold Hbin.push Hbin.elAt
  by_cases h : i = b.elsBound
  · subst h
    simp [hroom]
  · rw [if_neg h]
    simp only [List.getElem?_set_ne (Ne.symm h)]

theorem IndexOk.push (hok : IndexOk w key b) (hroom : b.elsBound < b.els.length)
    (hbits : b.elsBound < 8 * b.deleted.length)
    (hfresh : ∀ e ∈ b.groups, ∀ x, b.elAt e.pos = some x → key.eq x el = false)
    (hkey : key.Lawful) {hash : BitVec 64} (hhash : hash = key.hash el) :
    IndexOk w key (b.push hash el) := by
  have hold : ∀ e ∈ b.groups, (b.push hash el).elAt e.pos = b.elAt e.pos := by
    intro e he
    have hne : e.pos ≠ b.elsBound := Nat.ne_of_lt (hok.entry e he).1
    rw [elAt_push hroom, if_neg hne]
  have hnew : (b.push hash el).elAt b.elsBound = some el := by
    rw [elAt_push hroom, if_pos rfl]
  refine ⟨hok.pow2, ?_, ?_, ?_, hbits⟩
  · have hnot : b.elsBound ∉ b.groups.map Entry.pos := by
      intro hmem
      obtain ⟨e, he, hpos⟩ := List.mem_map.mp hmem
      exact absurd hpos (Nat.ne_of_lt (hok.entry e he).1)
    simp only [Hbin.push, List.map_append, List.map_cons, List.map_nil]
    exact List.nodup_append.mpr ⟨hok.nodup, List.nodup_singleton _, by
      intro p hp q hq hpq
      rw [List.mem_singleton] at hq
      exact hnot (hq ▸ hpq ▸ hp)⟩
  · intro e he
    rcases List.mem_append.mp he with he | he
    · obtain ⟨hlt, x, hx, hxh⟩ := hok.entry e he
      exact ⟨Nat.lt_succ_of_lt hlt, x, by rw [hold e he, hx], hxh⟩
    · rw [List.mem_singleton] at he
      subst he
      exact ⟨Nat.lt_succ_self _, el, hnew, hhash.symm⟩
  · intro e he f hf x y hx hy hxy
    rcases List.mem_append.mp he with he | he <;> rcases List.mem_append.mp hf with hf | hf
    · rw [hold e he] at hx
      rw [hold f hf] at hy
      exact hok.apart e he f hf x y hx hy hxy
    · rw [List.mem_singleton] at hf
      subst hf
      rw [hold e he] at hx
      rw [hnew, Option.some.injEq] at hy
      subst hy
      rw [hfresh e he x hx] at hxy
      cases hxy
    · rw [List.mem_singleton] at he
      subst he
      rw [hold f hf] at hy
      rw [hnew, Option.some.injEq] at hx
      subst hx
      have := hkey.symm _ _ hxy
      rw [hfresh f hf y hy] at this
      cases this
    · rw [List.mem_singleton] at he hf
      rw [he, hf]

theorem IndexOk.drop (hok : IndexOk w key b) (e : Entry) : IndexOk w key (b.drop e) := by
  have hsub : ∀ f ∈ (b.drop e).groups, f ∈ b.groups := fun f hf => List.mem_of_mem_filter hf
  refine ⟨hok.pow2, ?_, fun f hf => hok.entry f (hsub f hf), ?_, ?_⟩
  · exact hok.nodup.sublist (List.Sublist.map _ List.filter_sublist)
  · intro f hf g hg x y
    exact hok.apart f (hsub f hf) g (hsub g hg) x y
  · simpa [Hbin.drop] using hok.bitmap

/-- Overwriting the element of an entry by an equal one. -/
theorem IndexOk.store (hok : IndexOk w key b) (hkey : key.Lawful) {x y : El} {b' : IdealBin El}
    (hx : b.elAt e.pos = some x) (heq : key.eq y x = true)
    (hb' : b.store? e.pos y = some b') : IndexOk w key b' := by
  unfold Hbin.store? at hb'
  split at hb'
  case isFalse => cases hb'
  case isTrue hlt =>
    rw [Option.some.injEq] at hb'
    subst hb'
    -- every entry still leads to an element equal to the one before
    have hget : ∀ i z, (b.els.set e.pos (some y))[i]?.join = some z →
        ∃ z', b.elAt i = some z' ∧ key.eq z z' = true := by
      intro i z hz
      by_cases hi : e.pos = i
      · subst hi
        rw [List.getElem?_set_self hlt, Option.join_some, Option.some.injEq] at hz
        subst hz
        exact ⟨x, hx, heq⟩
      · rw [List.getElem?_set_ne hi] at hz
        exact ⟨z, hz, hkey.refl z⟩
    refine ⟨hok.pow2, hok.nodup, ?_, ?_, hok.bitmap⟩
    · intro f hf
      obtain ⟨hpos, z, hz, hzh⟩ := hok.entry f hf
      refine ⟨hpos, ?_⟩
      by_cases hi : e.pos = f.pos
      · refine ⟨y, ?_, ?_⟩
        · simp only [Hbin.elAt, ← hi, List.getElem?_set_self hlt, Option.join_some]
        · rw [← hi, hx, Option.some.injEq] at hz
          subst hz
          rw [hkey.hash_eq _ _ heq, hzh]
      · refine ⟨z, ?_, hzh⟩
        simp only [Hbin.elAt, List.getElem?_set_ne hi]
        exact hz
    · intro f hf g hg u v hu hv huv
      obtain ⟨u', hu', huu⟩ := hget f.pos u hu
      obtain ⟨v', hv', hvv⟩ := hget g.pos v hv
      exact hok.apart f hf g hg u' v' hu' hv'
        (hkey.trans _ _ _ (hkey.symm _ _ huu) (hkey.trans _ _ _ huv hvv))

theorem idealDo1_insert_new (h : idealLookup key.eq b el = none) (elsNum : Nat) (hash : BitVec 64) :
    idealDo1 w key.eq elsNum b hash el .insert =
      some { found := false, res := some b.elsBound, elsNum := w.incr elsNum,
             bin := { b with groups := b.groups ++ [⟨b.elsBound, hash⟩],
                             elsBound := b.elsBound + 1 } } := by
  simp [idealDo1, h]

/-- Reinserting an element that has no equal in the bin appends it. -/
theorem reinsert_ideal (hroom : b.elsBound < b.els.length)
    (hfresh : ∀ e ∈ b.groups, ∀ x, b.elAt e.pos = some x → key.eq x el = false)
    (fuel elsNum : Nat) (hash : BitVec 64) :
    reinsert (idealOps w key.eq) fuel elsNum b hash el =
      some (w.incr elsNum, b.push hash el) := by
  have hdo := idealDo1_insert_new (w := w) (idealLookup_eq_none hfresh) elsNum hash
  simp [reinsert, idealOps, hdo, Hbin.store?, hroom, Hbin.push]

end Update

/-! ## Implementations of the ideal index -/

/-- A real bin and an ideal one agree on everything but the index, and the real
    index stands for the ideal one. -/
structure BinSim (Slots : G → Nat → Nat → List Entry → Prop) (b : Hbin El G)
    (a : IdealBin El) : Prop where
  same : a = b.withGroups a.groups
  slots : Slots b.groups b.numGroups b.elsBound a.groups

structure BinSimUpTo (limit : Nat) (Slots : G → Nat → Nat → List Entry → Prop) (b : Hbin El G)
    (a : IdealBin El) : Prop where
  same : a = b.withGroups a.groups
  slots : b.elsBound ≤ limit → Slots b.groups b.numGroups b.elsBound a.groups

structure OutcomeSim (limit : Nat) (Slots : G → Nat → Nat → List Entry → Prop) (r : Outcome El G)
    (r' : Outcome El (List Entry)) : Prop where
  found : r.found = r'.found
  res : r.res = r'.res
  elsNum : r.elsNum = r'.elsNum
  bin : BinSimUpTo limit Slots r.bin r'.bin

/-- An implementation of the index.  `Slots g n bound es` says that the index `g`,
    of `n` groups, stands for the entries `es` of a bin of which `bound` positions
    are used.  Stored indices are exact below `limit`. -/
structure BinOps.Lawful (w : Widths) (key : Key El) (limit : Nat) (ops : BinOps El G)
    (Slots : G → Nat → Nat → List Entry → Prop) : Prop where
  alloc : ∀ n, Slots (ops.alloc n) n 0 []
  clear : ∀ {g n bound es}, Slots g n bound es → ∃ g', ops.clear n g = some g' ∧ Slots g' n 0 []
  regrow : ∀ n g, Slots (ops.regrow n g) n 0 []
  do1 : ∀ {b : Hbin El G} {a : IdealBin El}, BinSim Slots b a → IndexOk w key a →
    b.elsBound ≤ limit → b.elsBound < 8 * b.numGroups → ∀ (el : El) (action : Action) (fuel : Nat),
    b.groupsMask < fuel → ∀ elsNum,
    Option.Rel (OutcomeSim limit Slots) (ops.do1 fuel elsNum b (key.hash el) el action)
      (idealDo1 w key.eq elsNum a (key.hash el) el action)
  mono : ∀ elsNum b hash el action, Loop.Mono fun fuel => ops.do1 fuel elsNum b hash el action

section Simulation

variable {Slots : G → Nat → Nat → List Entry → Prop} {b : Hbin El G} {a : IdealBin El}

theorem BinSim.elsBound (h : BinSim Slots b a) : a.elsBound = b.elsBound := by rw [h.same]; rfl
theorem BinSim.els (h : BinSim Slots b a) : a.els = b.els := by rw [h.same]; rfl
theorem BinSim.deleted (h : BinSim Slots b a) : a.deleted = b.deleted := by rw [h.same]; rfl
theorem BinSim.groupsMask (h : BinSim Slots b a) : a.groupsMask = b.groupsMask := by
  rw [h.same]; rfl
theorem BinSim.numGroups (h : BinSim Slots b a) : a.numGroups = b.numGroups := by
  rw [h.same]; rfl
theorem BinSim.elAt (h : BinSim Slots b a) (i : Nat) : a.elAt i = b.elAt i := by rw [h.same]; rfl
theorem BinSim.live (h : BinSim Slots b a) : a.live = b.live := by rw [h.same]; rfl

theorem BinSim.upTo (h : BinSim Slots b a) (limit : Nat) : BinSimUpTo limit Slots b a :=
  ⟨h.same, fun _ => h.slots⟩

theorem BinSimUpTo.elsBound {limit : Nat} (h : BinSimUpTo limit Slots b a) :
    a.elsBound = b.elsBound := by rw [h.same]; rfl

theorem BinSimUpTo.sim {limit : Nat} (h : BinSimUpTo limit Slots b a) (hb : a.elsBound ≤ limit) :
    BinSim Slots b a :=
  ⟨h.same, h.slots (h.elsBound ▸ hb)⟩

theorem BinSimUpTo.elAt {limit : Nat} (h : BinSimUpTo limit Slots b a) (i : Nat) :
    a.elAt i = b.elAt i := by rw [h.same]; rfl

/-- The caller's write goes to the same place of both. -/
theorem BinSimUpTo.store? {limit : Nat} (h : BinSimUpTo limit Slots b a) (i : Nat) (x : El) :
    Option.Rel (BinSimUpTo limit Slots) (b.store? i x) (a.store? i x) := by
  obtain ⟨hsame, hslots⟩ := h
  generalize a.groups = es at hsame hslots
  subst hsame
  unfold Hbin.store?
  by_cases hi : i < b.els.length
  · rw [if_pos hi, if_pos (show i < (b.withGroups es).els.length from hi)]
    exact Option.Rel.some ⟨rfl, hslots⟩
  · rw [if_neg hi, if_neg (show ¬ i < (b.withGroups es).els.length from hi)]
    exact Option.Rel.none

theorem idealDo1_elsBound_le {w : Widths} {eq : El → El → Bool} {elsNum : Nat} {hash : BitVec 64}
    {el : El} {action : Action} {r : Outcome El (List Entry)}
    (h : idealDo1 w eq elsNum a hash el action = some r) : r.bin.elsBound ≤ a.elsBound + 1 := by
  unfold idealDo1 at h
  split at h
  · split at h
    · obtain ⟨map, -, rfl⟩ := Option.map_eq_some_iff.mp h
      exact Nat.le_succ _
    · rw [Option.some.injEq] at h
      exact h ▸ Nat.le_succ _
  · split at h
    · rw [Option.some.injEq] at h
      exact h ▸ Nat.le_refl _
    · rw [Option.some.injEq] at h
      exact h ▸ Nat.le_succ _

/-- The ideal index implements itself. -/
theorem idealOps_lawful (w : Widths) (key : Key El) (limit : Nat) :
    (idealOps w key.eq).Lawful w key limit fun g _ _ es => g = es where
  alloc _ := rfl
  clear _ := ⟨[], rfl, rfl⟩
  regrow _ _ := rfl
  do1 := by
    intro b a hsim _ _ _ el action fuel _ elsNum
    have heq : a = b := by rw [hsim.same, ← hsim.slots]; rfl
    subst heq
    show Option.Rel _ (idealDo1 w key.eq elsNum a (key.hash el) el action) _
    cases idealDo1 w key.eq elsNum a (key.hash el) el action with
    | none => exact Option.Rel.none
    | some r => exact Option.Rel.some ⟨rfl, rfl, rfl, rfl, fun _ => rfl⟩
  mono _ _ _ _ _ := Loop.Mono.const _

/-- Reinsertion into a real bin follows reinsertion into the ideal one. -/
theorem BinOps.Lawful.reinsert {w : Widths} {key : Key El} {limit : Nat} {ops : BinOps El G}
    (hlaw : ops.Lawful w key limit Slots) (hsim : BinSim Slots b a) (hok : IndexOk w key a)
    (hslot : b.elsBound < 8 * b.numGroups) (hlimit : b.elsBound < limit) (el : El) {fuel : Nat}
    (hfuel : b.groupsMask < fuel) (elsNum : Nat) :
    Option.Rel (fun p p' => p.1 = p'.1 ∧ BinSim Slots p.2 p'.2)
      (IndexedHash.reinsert ops fuel elsNum b (key.hash el) el)
      (IndexedHash.reinsert (idealOps w key.eq) fuel elsNum a (key.hash el) el) := by
  have hdo := hlaw.do1 hsim hok (Nat.le_of_lt hlimit) hslot el .insert fuel hfuel elsNum
  have hdo' := Loop.Rel.and_right (P := fun r' => r'.bin.elsBound ≤ limit) hdo (by
    intro r' hr'
    have := idealDo1_elsBound_le hr'
    rw [hsim.elsBound] at this
    omega)
  refine Loop.bind_rel hdo' ?_
  rintro r r' ⟨hr, hbound⟩
  rw [← hr.res, ← hr.elsNum]
  cases r.res with
  | none => exact Option.Rel.none
  | some p =>
    have hstore := Loop.Rel.and_right (P := fun b' => b'.elsBound ≤ limit) (hr.bin.store? p el)
      fun b' hb' => Hbin.store?_elsBound hb' ▸ hbound
    exact Loop.map_rel hstore fun _ _ h => ⟨rfl, h.1.sim h.2⟩

end Simulation

end IndexedHash
