import Mathlib.Tactic.Common
import IndexedHash.Representation

/-!
# Calls on a bin in order

What one call of `iht_do_1` and the caller's write do to a bin that satisfies its
invariant: a step of the reference (`BinRep.step`), whatever `els_num` is.  The call
returns if there is room (`BinRep.perform`), and the bin is in order afterwards as long
as its positions fit into stored indices.
-/

namespace IndexedHash

open Loop KeyedList

variable {El : Type} {key : Key El} {target : Target}

/-- `do_1` only counts in `els_num`. -/
theorem groupDo1_elsNum {w : Widths} {gops : GroupOps} {eq : El → El → Bool} {fuel n : Nat}
    {b : Hbin El (List Group)} {hash : BitVec 64} {el : El} {action : Action}
    {o : Outcome El (List Group)} (h : groupDo1 w gops eq fuel n b hash el action = some o)
    (m : Nat) :
    ∃ m', groupDo1 w gops eq fuel m b hash el action = some { o with elsNum := m' } := by
  unfold groupDo1 at h ⊢
  obtain ⟨p, hp, h⟩ := Option.bind_eq_some_iff.mp h
  rw [hp, Option.bind_some]
  cases p with
  | hit g bit i =>
    by_cases haction : action = .delete
    · simp only [if_pos haction] at h ⊢
      obtain ⟨deleted, hmark, rfl⟩ := Option.map_eq_some_iff.mp h
      exact ⟨w.decr m, by simp only [hmark, Option.map_some]⟩
    · simp only [if_neg haction, Option.some.injEq] at h ⊢
      exact ⟨m, by rw [← h]⟩
  | vacant g bit =>
    by_cases haction : action = .insert
    · simp only [if_pos haction, Option.some.injEq] at h ⊢
      exact ⟨w.incr m, by rw [← h]⟩
    · simp only [if_neg haction, Option.some.injEq] at h ⊢
      exact ⟨m, by rw [← h]⟩

structure BinStepped (key : Key El) (b : Hbin El (List Group)) (c : Call El) (n : Nat)
    (o : Outcome El (List Group)) (b' : Hbin El (List Group)) : Prop where
  seen : (o.found, o.value) = (refStep key.eq b.live c).1
  live : b'.live = (refStep key.eq b.live c).2
  rep : b'.elsBound ≤ 2 ^ 32 → BinRep ihtWidths key b'
  count : n = b.live.length → o.elsNum = b'.live.length
  bound : b'.elsBound ≤ b.elsBound + 1

section Step

variable {b b' : Hbin El (List Group)} {c : Call El} {fuel n : Nat} {o : Outcome El (List Group)}

theorem BinRep.elsBound_lt {w : Widths} (h : BinRep w key b) : b.elsBound < 8 * b.numGroups := by
  have hbound : b.elsBound ≤ 4 * b.numGroups := h.bound
  have hpos : 0 < b.numGroups := Nat.succ_pos _
  omega

/-- The caller writes to a new position only if there is room. -/
theorem BinRep.room_of_written {limit m : Nat} {Slots : List Group → Nat → Nat → List Entry → Prop}
    {r : Outcome El (List Entry)} (h : BinRep ihtWidths key b) (hins : c.action = .insert)
    (hnone : lookup key.eq (idealOf key b).live c.el = none)
    (hideal : idealDo1 ihtWidths key.eq n (idealOf key b) (key.hash c.el) c.el c.action = some r)
    (hsim : OutcomeSim limit Slots { o with elsNum := m } r) (hwritten : o.written c = some b') :
    (idealOf key b).elsBound < (idealOf key b).elsSize := by
  have hlookup := h.denseOk.lookup_eq c.el
  cases hfind : idealLookup key.eq (idealOf key b) c.el with
  | some e =>
    obtain ⟨-, y, hy, -⟩ := idealLookup_some hfind
    rw [hfind, Option.bind_some, hy, hnone] at hlookup
    cases hlookup
  | none =>
    simp only [idealDo1, hfind, hins, if_true, Option.some.injEq] at hideal
    have hfound := hsim.found
    have hres := hsim.res
    rw [← hideal] at hfound hres
    dsimp only at hfound hres
    simp only [Outcome.written, hfound, hres, Bool.false_eq_true, if_false] at hwritten
    obtain ⟨hlt, -⟩ := Hbin.store?_eq_some_iff.mp hwritten
    have hbin := hsim.bin.same
    rw [← hideal] at hbin
    have hels : (idealOf key b).els = o.bin.els := congrArg Hbin.els hbin
    rw [← hels, h.denseOk.capacity] at hlt
    exact hlt

/-- A call on a bin in order is a step of the reference. -/
theorem BinRep.step (hkey : key.Lawful) (h : BinRep ihtWidths key b) (hle : b.elsBound ≤ 2 ^ 32)
    (hc : c.Ok key)
    (hdo : (ihtOps key target).do1 fuel n b (key.hash c.el) c.el c.action = some o)
    (hwritten : o.written c = some b') : BinStepped key b c n o b' := by
  have hlaw := ihtOps_lawful hkey target
  have hdense := h.denseOk
  have hlive := b.length_live_le
  -- with enough fuel, and `els_num` as the reference has it
  have hdo' := hlaw.mono n b (key.hash c.el) c.el c.action (Nat.le_max_left fuel (b.groupsMask + 1))
    hdo
  obtain ⟨m, ho⟩ := groupDo1_elsNum hdo' b.live.length
  have hrel := hlaw.do1 h.sim hdense.index hle h.elsBound_lt c.el c.action
    (max fuel (b.groupsMask + 1)) (by omega) b.live.length
  have ho' : (ihtOps key target).do1 (max fuel (b.groupsMask + 1)) b.live.length b (key.hash c.el)
    c.el c.action = some { o with elsNum := m } := ho
  rw [ho'] at hrel
  generalize hideal : idealDo1 ihtWidths key.eq b.live.length (idealOf key b) (key.hash c.el) c.el
    c.action = x at hrel
  cases hrel with
  | @some _ r hsim =>
    have hfit := fun hins hnone => h.room_of_written hins hnone hideal hsim hwritten
    obtain ⟨r', b'', hr', hstep⟩ := hdense.step hkey hc hfit (n := b.live.length)
      (by rw [h.sim.live]) (by show b.live.length + 1 < 2 ^ 64; omega)
    rw [hideal, Option.some.injEq] at hr'
    subst hr'
    have hvalue := hsim.value
    have hrel := hsim.written c
    have hwritten' : ({ o with elsNum := m } : Outcome El (List Group)).written c = some b' := hwritten
    rw [hstep.written, hwritten'] at hrel
    cases hrel with
    | some hb =>
      have hlive'' : b''.live = b'.live := by
        rw [hb.same]
        rfl
      refine ⟨?_, ?_, fun hle' => ?_, fun hn => ?_, ?_⟩
      · rw [← h.sim.live, ← hstep.seen, ← hsim.found, ← hvalue]
        rfl
      · rw [← hlive'', hstep.live, h.sim.live]
      · exact BinRep.of_sim (hb.sim (by rw [hb.elsBound]; exact hle')) hstep.ok
      · rw [← hn] at ho'
        have hsame : o = { o with elsNum := m } := Option.some.inj (hdo'.symm.trans ho')
        have hnum : o.elsNum = r.elsNum := by
          rw [hsame]
          exact hsim.elsNum
        have hcount := hstep.count
        rw [h.sim.live, hlive''] at hcount
        omega
      · have hbound := hstep.bound
        rw [hb.elsBound, h.sim.elsBound] at hbound
        omega

/-- With room for one more element a call returns. -/
theorem BinRep.perform (hkey : key.Lawful) (target : Target) (h : BinRep ihtWidths key b)
    (hle : b.elsBound ≤ 2 ^ 32) (hc : c.Ok key) (hroom : b.elsBound < b.elsSize) (n : Nat) :
    ∃ o b', Returns (fun fuel => (ihtOps key target).do1 fuel n b (key.hash c.el) c.el c.action) o ∧
      o.written c = some b' := by
  have hlaw := ihtOps_lawful hkey target
  have hlive := b.length_live_le
  obtain ⟨r, b'', hr, hstep⟩ := h.denseOk.step hkey hc (fun _ _ => hroom) (n := b.live.length)
    (by rw [h.sim.live]) (by show b.live.length + 1 < 2 ^ 64; omega)
  have hrel := hlaw.do1 h.sim h.denseOk.index hle h.elsBound_lt c.el c.action (b.groupsMask + 1)
    (Nat.lt_succ_self _) b.live.length
  generalize ho : (ihtOps key target).do1 (b.groupsMask + 1) b.live.length b (key.hash c.el) c.el
    c.action = out at hrel
  rw [hr] at hrel
  cases hrel with
  | @some o _ hsim =>
    have hwritten := hsim.written c
    rw [hstep.written] at hwritten
    generalize hb : o.written c = x at hwritten
    cases hwritten with
    | @some b' _ _ =>
      obtain ⟨m, ho'⟩ := groupDo1_elsNum ho n
      exact ⟨{ o with elsNum := m }, b', (hlaw.mono n b _ _ _).returns ho', hb⟩

/-- A FIND of an element at a live position returns that position. -/
theorem BinRep.find (hkey : key.Lawful) (target : Target) (h : BinRep ihtWidths key b)
    (hle : b.elsBound ≤ 2 ^ 32) {i : Nat} {x el : El} (hi : LivePos b i) (hx : b.elAt i = some x)
    (heq : key.eq x el = true) (n : Nat) :
    ∃ o, Returns (fun fuel => (ihtOps key target).do1 fuel n b (key.hash el) el .find) o ∧
      o.found = true ∧ o.res = some i ∧ o.value = some x := by
  have hlaw := ihtOps_lawful hkey target
  have hmem : x ∈ b.live := by
    refine List.mem_filterMap.mpr ⟨i, List.mem_range.mpr hi.1, ?_⟩
    rw [hi.2, hx]
    rfl
  have hlookup := h.denseOk.lookup_eq el
  rw [h.sim.live] at hlookup
  cases hfind : idealLookup key.eq (idealOf key b) el with
  | none =>
    rw [hfind] at hlookup
    rw [lookup_none hlookup hmem] at heq
    cases heq
  | some e =>
    obtain ⟨he, y, hy, hye⟩ := idealLookup_some hfind
    obtain ⟨hlive, -⟩ := (mem_idealOf h).mp he
    rw [h.sim.elAt] at hy
    -- no other live position holds an equal element
    have hpos : e.pos = i := by
      by_contra hne
      have hapart := h.apart e.pos i y x hlive hi hy hx hne
      rw [hkey.trans _ _ _ hye (hkey.symm _ _ heq)] at hapart
      cases hapart
    have hrel := hlaw.do1 h.sim h.denseOk.index hle h.elsBound_lt el .find (b.groupsMask + 1)
      (Nat.lt_succ_self _) n
    generalize ho : (ihtOps key target).do1 (b.groupsMask + 1) n b (key.hash el) el .find = out at hrel
    simp only [idealDo1, hfind] at hrel
    cases hrel with
    | @some o _ hsim =>
      refine ⟨o, (hlaw.mono n b (key.hash el) el .find).returns ho, hsim.found, ?_, ?_⟩
      · rw [hsim.res, ← hpos]
      · rw [hsim.value]
        simp only [Outcome.value, Option.bind_some, hpos, h.sim.elAt, hx, if_true]

/-- The same for an element of the live ones. -/
theorem BinRep.find_of_mem (hkey : key.Lawful) (target : Target) (h : BinRep ihtWidths key b)
    (hle : b.elsBound ≤ 2 ^ 32) {x el : El} (hx : x ∈ b.live) (heq : key.eq x el = true) (n : Nat) :
    ∃ o, Returns (fun fuel => (ihtOps key target).do1 fuel n b (key.hash el) el .find) o ∧
      o.found = true := by
  obtain ⟨i, hi, hel⟩ := List.mem_filterMap.mp hx
  by_cases hdel : b.deleted.test i = true
  · rw [if_pos hdel] at hel
    cases hel
  · rw [if_neg hdel] at hel
    obtain ⟨o, ho, hfound, -⟩ := h.find hkey target hle
      ⟨List.mem_range.mp hi, Bool.eq_false_iff.mpr hdel⟩ hel heq n
    exact ⟨o, ho, hfound⟩

end Step

end IndexedHash
