import Mathlib.Data.List.Induction
import Mathlib.Tactic.Common
import IndexedHash.Bin
import IndexedHash.KeyedList

/-!
# Callers and the reference map

A caller passes an element and an action, and writes through `*res` afterwards:
always after an INSERT that returned false, which leaves uninitialised storage
there, and at will after a FIND or INSERT that returned true.  A `Call` says all
of that in advance, so a sequence of calls is a whole session; since the theorems
are about every sequence, a caller may choose its writes by what it sees.

The reference is a list of elements, in the order of their latest insertion.
-/

namespace IndexedHash

open KeyedList

variable {El G Loc : Type}

structure Call (El : Type) where
  el : El
  action : Action
  /-- stored through `*res` after an INSERT that returns false -/
  fresh : El
  /-- stored through `*res` after a FIND or INSERT that returns true, if anything -/
  update : Option El

/-- What the headers expect of the caller's writes. -/
structure Call.Ok (key : Key El) (c : Call El) : Prop where
  fresh : key.eq c.fresh c.el = true
  update : ∀ y, c.update = some y → key.eq y c.el = true

/-- A call after which the caller writes nothing but the element it has asked for. -/
def Call.plain (action : Action) (x : El) : Call El := ⟨x, action, x, none⟩

theorem Call.plain_ok {key : Key El} (hkey : key.Lawful) (action : Action) (x : El) :
    (Call.plain action x).Ok key :=
  ⟨hkey.refl x, fun _ h => nomatch h⟩

def plainCalls (l : List (Action × El)) : List (Call El) := l.map fun p => Call.plain p.1 p.2

theorem plainCalls_ok {key : Key El} (hkey : key.Lawful) (l : List (Action × El)) :
    ∀ c ∈ plainCalls l, c.Ok key := by
  intro c hc
  obtain ⟨p, -, rfl⟩ := List.mem_map.mp hc
  exact Call.plain_ok hkey p.1 p.2

/-- What the caller sees: the return value, where `*res` points, and the value
    found there before the caller's write. -/
structure Reply (Loc El : Type) where
  found : Bool
  res : Option Loc
  value : Option El
deriving DecidableEq, Repr

def Reply.seen (r : Reply Loc El) : Bool × Option El := (r.found, r.value)

def Outcome.value (r : Outcome El G) : Option El := if r.found then r.res.bind r.bin.elAt else none

def Outcome.written (r : Outcome El G) (c : Call El) : Option (Hbin El G) :=
  match r.res, if r.found then c.update else some c.fresh with
  | some p, some y => r.bin.store? p y
  | _, _ => some r.bin

def runCalls {τ ρ : Type} (step : τ → Call El → Option (ρ × τ)) :
    τ → List (Call El) → Option (List ρ × τ)
  | t, [] => some ([], t)
  | t, c :: cs =>
      (step t c).bind fun s => (runCalls step s.2 cs).map fun rest => (s.1 :: rest.1, rest.2)

/-! ## The reference -/

def refStep (eq : El → El → Bool) (l : List El) (c : Call El) : (Bool × Option El) × List El :=
  match lookup eq l c.el with
  | some x =>
      if c.action = .delete then ((true, none), remove eq l c.el)
      else ((true, some x),
        match c.update with
        | some y => replace eq l c.el y
        | none => l)
  | none => ((false, none), if c.action = .insert then l ++ [c.fresh] else l)

def refRun (eq : El → El → Bool) : List El → List (Call El) → List (Bool × Option El) × List El
  | l, [] => ([], l)
  | l, c :: cs =>
      let next := refStep eq l c
      let rest := refRun eq next.2 cs
      (next.1 :: rest.1, rest.2)

/-! ## Runs of calls -/

section Runs

open Loop

variable {τ ρ : Type} {step : Nat → τ → Call El → Option (ρ × τ)}

theorem runCalls_mono (hstep : ∀ t c, Mono fun fuel => step fuel t c) (t : τ)
    (cs : List (Call El)) : Mono fun fuel => runCalls (step fuel) t cs := by
  induction cs generalizing t with
  | nil => exact Mono.const _
  | cons c cs ih =>
    exact Mono.bind (hstep t c) fun s => (ih s.2).map fun rest => (s.1 :: rest.1, rest.2)

/-- An invariant of the steps taken from states in which `P` holds. -/
theorem runCalls_invariant {step : τ → Call El → Option (ρ × τ)} (I P : τ → Prop)
    (hstep : ∀ t c r t', I t → P t → step t c = some (r, t') → I t') {t t' : τ}
    {cs : List (Call El)} {rs : List ρ} (ht : I t) (hrun : runCalls step t cs = some (rs, t'))
    (hP : ∀ pre s, pre <+: cs → runCalls step t pre = some s → P s.2) : I t' := by
  induction cs generalizing t rs with
  | nil =>
    obtain ⟨-, rfl⟩ := Prod.mk.inj (Option.some.inj hrun)
    exact ht
  | cons c cs ih =>
    obtain ⟨⟨r, t₁⟩, hc, hmap⟩ := Option.bind_eq_some_iff.mp hrun
    obtain ⟨⟨rs₂, t₂⟩, hrest, heq⟩ := Option.map_eq_some_iff.mp hmap
    obtain ⟨-, rfl⟩ := Prod.mk.inj heq
    refine ih (hstep t c r t₁ ht (hP [] ([], t) (List.nil_prefix) rfl) hc) hrest fun pre s hpre hs => ?_
    refine hP (c :: pre) (r :: s.1, s.2) ((List.prefix_cons_inj c).mpr hpre) ?_
    simp only [runCalls, hc, Option.bind_some]
    exact congrArg (Option.map _) hs

theorem runCalls_append (step : τ → Call El → Option (ρ × τ)) (t : τ) (cs ds : List (Call El)) :
    runCalls step t (cs ++ ds) = (runCalls step t cs).bind fun s =>
      (runCalls step s.2 ds).map fun rest => (s.1 ++ rest.1, rest.2) := by
  induction cs generalizing t with
  | nil =>
    simp only [List.nil_append, runCalls, Option.bind_some]
    cases runCalls step t ds <;> rfl
  | cons d cs ih =>
    simp only [List.cons_append, runCalls, ih]
    cases step t d with
    | none => rfl
    | some s =>
      simp only [Option.bind_some]
      cases runCalls step s.2 cs with
      | none => rfl
      | some rest =>
        simp only [Option.bind_some, Option.map_some]
        cases runCalls step rest.2 ds <;> rfl

theorem runCalls_concat (step : τ → Call El → Option (ρ × τ)) (t : τ) (cs : List (Call El))
    (c : Call El) :
    runCalls step t (cs ++ [c]) = (runCalls step t cs).bind fun s =>
      (step s.2 c).map fun last => (s.1 ++ [last.1], last.2) := by
  rw [runCalls_append]
  congr 1
  funext s
  simp only [runCalls, Option.map_some]
  cases step s.2 c <;> rfl

theorem Returns.append {t t' t'' : τ} {cs ds : List (Call El)} {rs rs' : List ρ}
    (hrun : Returns (fun fuel => runCalls (step fuel) t cs) (rs, t'))
    (hrun' : Returns (fun fuel => runCalls (step fuel) t' ds) (rs', t'')) :
    Returns (fun fuel => runCalls (step fuel) t (cs ++ ds)) (rs ++ rs', t'') := by
  simp only [runCalls_append]
  exact Returns.bind hrun (hrun'.map fun rest => (rs ++ rest.1, rest.2))

theorem Returns.cons {t t' t'' : τ} {c : Call El} {cs : List (Call El)} {r : ρ} {rs : List ρ}
    (hstep : Returns (fun fuel => step fuel t c) (r, t'))
    (hrun : Returns (fun fuel => runCalls (step fuel) t' cs) (rs, t'')) :
    Returns (fun fuel => runCalls (step fuel) t (c :: cs)) (r :: rs, t'') :=
  Returns.bind hstep (hrun.map fun rest => (r :: rest.1, rest.2))

theorem Returns.concat {t t' t'' : τ} {cs : List (Call El)} {c : Call El} {rs : List ρ} {r : ρ}
    (hrun : Returns (fun fuel => runCalls (step fuel) t cs) (rs, t'))
    (hstep : Returns (fun fuel => step fuel t' c) (r, t'')) :
    Returns (fun fuel => runCalls (step fuel) t (cs ++ [c])) (rs ++ [r], t'') := by
  simp only [runCalls_concat]
  exact Returns.bind hrun (hstep.map fun last => (rs ++ [last.1], last.2))

/-- A run that returns, and its last step, from the run without it. -/
theorem Returns.of_concat (hmono : ∀ t c, Mono fun fuel => step fuel t c) {t t'' : τ}
    {cs : List (Call El)} {c : Call El} {rs : List ρ}
    (h : Returns (fun fuel => runCalls (step fuel) t (cs ++ [c])) (rs, t'')) :
    ∃ rs' r t', Returns (fun fuel => runCalls (step fuel) t cs) (rs', t') ∧
      Returns (fun fuel => step fuel t' c) (r, t'') ∧ rs = rs' ++ [r] := by
  obtain ⟨n, hn⟩ := h.exists_some
  simp only [runCalls_concat] at hn
  obtain ⟨⟨rs', t'⟩, hrun, hlast⟩ := Option.bind_eq_some_iff.mp hn
  obtain ⟨⟨r, t₂⟩, hstep, heq⟩ := Option.map_eq_some_iff.mp hlast
  obtain ⟨rfl, rfl⟩ := Prod.mk.inj heq
  exact ⟨rs', r, t', (runCalls_mono hmono t cs).returns hrun, (hmono t' c).returns hstep, rfl⟩

/-- Calls that return and keep an invariant, one after the other. -/
theorem Returns.run_invariant (step : Nat → τ → Call El → Option (ρ × τ)) (good : τ → Prop)
    {ok : Call El → Prop}
    (hstep : ∀ t c, good t → ok c → ∃ r t', Returns (fun fuel => step fuel t c) (r, t') ∧ good t')
    {t : τ} (ht : good t) {cs : List (Call El)} (hcs : ∀ c ∈ cs, ok c) :
    ∃ rs t', Returns (fun fuel => runCalls (step fuel) t cs) (rs, t') ∧ good t' := by
  induction cs generalizing t with
  | nil => exact ⟨[], t, Returns.const _, ht⟩
  | cons c cs ih =>
    obtain ⟨hc, hcs⟩ := List.forall_mem_cons.mp hcs
    obtain ⟨r, t', hr, ht'⟩ := hstep t c ht hc
    obtain ⟨rs, t'', hrs, ht''⟩ := ih ht' hcs
    exact ⟨r :: rs, t'', Returns.cons hr hrs, ht''⟩

/-- Two systems that stay related call by call: a run that returns in the first returns
    in the second, with the same replies. -/
theorem Returns.run_rel {τ' : Type} {step' : Nat → τ' → Call El → Option (ρ × τ')}
    (hmono : ∀ t c, Mono fun fuel => step fuel t c)
    (hmono' : ∀ t c, Mono fun fuel => step' fuel t c) (R : τ → τ' → Prop) {t₀ : τ} {t₀' : τ'}
    (h₀ : R t₀ t₀') {calls : List (Call El)}
    (hstep : ∀ pre c, pre ++ [c] <+: calls → ∀ rs t t',
      Returns (fun fuel => runCalls (step fuel) t₀ pre) (rs, t) →
      Returns (fun fuel => runCalls (step' fuel) t₀' pre) (rs, t') → R t t' →
      ∃ N, ∀ fuel ≥ N, Option.Rel (fun s s' => s.1 = s'.1 ∧ R s.2 s'.2) (step fuel t c)
        (step' fuel t' c))
    {rs : List ρ} {t : τ} (hrun : Returns (fun fuel => runCalls (step fuel) t₀ calls) (rs, t)) :
    ∃ t', Returns (fun fuel => runCalls (step' fuel) t₀' calls) (rs, t') ∧ R t t' := by
  induction calls using List.reverseRecOn generalizing rs t with
  | nil =>
    obtain ⟨rfl, rfl⟩ := Prod.mk.inj (hrun.unique (Returns.const ([], t₀)))
    exact ⟨t₀', Returns.const _, h₀⟩
  | append_singleton cs c ih =>
    obtain ⟨rs', r, s, hcs, hlast, rfl⟩ := Returns.of_concat hmono hrun
    obtain ⟨s', hcs', hs⟩ := ih
      (fun pre d hpre => hstep pre d (hpre.trans (List.prefix_append cs [c]))) hcs
    obtain ⟨N, hN⟩ := hstep cs c (List.prefix_refl _) rs' s s' hcs hcs' hs
    obtain ⟨⟨r', t'⟩, hlast', heq, ht⟩ := Returns.of_rel_left (hmono' s' c) hN hlast
    have heq : r = r' := heq
    subst heq
    exact ⟨t', Returns.concat hcs' hlast', ht⟩

end Runs

theorem refRun_append (eq : El → El → Bool) (l : List El) (cs ds : List (Call El)) :
    refRun eq l (cs ++ ds) =
      ((refRun eq l cs).1 ++ (refRun eq (refRun eq l cs).2 ds).1,
        (refRun eq (refRun eq l cs).2 ds).2) := by
  induction cs generalizing l with
  | nil => rfl
  | cons d cs ih => simp only [List.cons_append, refRun, ih]

theorem refRun_concat (eq : El → El → Bool) (l : List El) (cs : List (Call El)) (c : Call El) :
    refRun eq l (cs ++ [c]) =
      ((refRun eq l cs).1 ++ [(refStep eq (refRun eq l cs).2 c).1],
        (refStep eq (refRun eq l cs).2 c).2) :=
  refRun_append eq l cs [c]

theorem Key.Lawful.equivalence {key : Key El} (hkey : key.Lawful) :
    Equivalence fun x y => key.eq x y = true :=
  ⟨hkey.refl, fun {x y} => hkey.symm x y, fun {x y z} => hkey.trans x y z⟩

section Reference

variable {key : Key El} {l l' : List El} {c : Call El}

theorem refStep_apart (hkey : key.Lawful) (hc : c.Ok key) (h : Apart key.eq l) :
    Apart key.eq (refStep key.eq l c).2 := by
  unfold refStep
  split
  · next x hx =>
      split
      · exact h.remove c.el
      · cases hu : c.update with
        | none => exact h
        | some y => exact h.replace hkey.equivalence (hc.update y hu)
  · next hx =>
      split
      · refine h.append fun x hxl => ?_
        by_contra hxf
        have hxe := hkey.trans _ _ _ (by simpa using hxf) hc.fresh
        rw [lookup_none hx hxl] at hxe
        cases hxe
      · exact h

theorem refStep_length_le (l : List El) (c : Call El) :
    (refStep key.eq l c).2.length ≤ l.length + 1 := by
  unfold refStep
  split
  · split
    · exact Nat.le_succ_of_le (List.length_filter_le _ _)
    · split
      · exact Nat.le_succ_of_le (Nat.le_of_eq (List.length_map _))
      · exact Nat.le_succ _
  · split
    · exact Nat.le_of_eq List.length_append
    · exact Nat.le_succ _

/-- Only a DELETE takes an element away. -/
theorem refStep_length_ge (l : List El) {c : Call El} (hkeep : c.action ≠ .delete) :
    l.length ≤ (refStep key.eq l c).2.length := by
  unfold refStep
  split
  · rw [if_neg hkeep]
    split
    · exact Nat.le_of_eq (List.length_map _).symm
    · exact Nat.le_refl _
  · split
    · exact (List.sublist_append_left _ _).length_le
    · exact Nat.le_refl _

theorem refStep_length_new {l : List El} {c : Call El} (hins : c.action = .insert)
    (hnew : lookup key.eq l c.el = none) : (refStep key.eq l c).2.length = l.length + 1 := by
  simp [refStep, hnew, hins]

theorem refRun_apart (hkey : key.Lawful) {cs : List (Call El)} (hcs : ∀ c ∈ cs, c.Ok key)
    (h : Apart key.eq l) : Apart key.eq (refRun key.eq l cs).2 := by
  induction cs generalizing l with
  | nil => exact h
  | cons c cs ih =>
    obtain ⟨hc, hcs⟩ := List.forall_mem_cons.mp hcs
    exact ih hcs (refStep_apart hkey hc h)

theorem refRun_length_le (l : List El) (cs : List (Call El)) :
    (refRun key.eq l cs).2.length ≤ l.length + cs.length := by
  induction cs generalizing l with
  | nil => exact Nat.le_refl _
  | cons c cs ih =>
    have hstep : (refStep key.eq l c).2.length ≤ l.length + 1 := refStep_length_le l c
    have hrest := ih (refStep key.eq l c).2
    rw [List.length_cons]
    show (refRun key.eq (refStep key.eq l c).2 cs).2.length ≤ _
    omega

/-- At no time are there more elements than calls. -/
theorem refRun_initial_length_le {pre cs : List (Call El)} (h : pre <+: cs) :
    (refRun key.eq [] pre).2.length ≤ cs.length := by
  have hle : (refRun key.eq [] pre).2.length ≤ 0 + pre.length := refRun_length_le [] pre
  rw [Nat.zero_add] at hle
  exact Nat.le_trans hle h.length_le

theorem refStep_insert {x : El} (h : lookup key.eq l x = none) :
    refStep key.eq l (Call.plain .insert x) = ((false, none), l ++ [x]) := by
  simp [refStep, Call.plain, h]

/-- Insertions of new elements. -/
theorem refRun_inserts {ys : List El} (h : Apart key.eq (l ++ ys)) :
    refRun key.eq l (plainCalls (ys.map fun y => (Action.insert, y))) =
      (List.replicate ys.length (false, none), l ++ ys) := by
  induction ys generalizing l with
  | nil => rw [List.append_nil]; rfl
  | cons y ys ih =>
    have hnone : lookup key.eq l y = none := lookup_eq_none fun x hx =>
      (List.pairwise_append.mp h).2.2 x hx y (List.mem_cons_self ..)
    rw [List.append_cons] at h ⊢
    have ih := ih h
    rw [plainCalls] at ih
    simp only [plainCalls, List.map_cons, refRun, refStep_insert hnone, ih, List.length_cons,
      List.replicate_succ]

theorem refStep_find {x y : El} (h : lookup key.eq l x = some y) :
    (refStep key.eq l (Call.plain .find x)).1 = (true, some y) := by
  simp [refStep, Call.plain, h]

theorem refStep_find_none {x : El} (h : lookup key.eq l x = none) :
    (refStep key.eq l (Call.plain .find x)).1 = (false, none) := by
  simp [refStep, Call.plain, h]

/-- As a map the reference does not depend on the order of its list. -/
theorem refStep_perm (hkey : key.Lawful) (h : Apart key.eq l) (hp : l.Perm l') :
    (refStep key.eq l' c).1 = (refStep key.eq l c).1 ∧
      (refStep key.eq l c).2.Perm (refStep key.eq l' c).2 := by
  unfold refStep
  rw [lookup_perm hkey.equivalence h hp]
  cases hx : lookup key.eq l c.el with
  | some x =>
    by_cases hdel : c.action = .delete
    · simp only [if_pos hdel]
      exact ⟨trivial, remove_perm hp c.el⟩
    · simp only [if_neg hdel]
      refine ⟨trivial, ?_⟩
      cases c.update with
      | none => exact hp
      | some y => exact replace_perm hp c.el y
  | none =>
    refine ⟨rfl, ?_⟩
    by_cases hins : c.action = .insert
    · simp only [if_pos hins]
      exact hp.append_right [c.fresh]
    · simp only [if_neg hins]
      exact hp

/-- What an element of the list is after a call. -/
theorem mem_refStep (hc : c.Ok key) {x : El}
    (hx : x ∈ (refStep key.eq l c).2) : x ∈ l ∨ key.eq x c.el = true := by
  unfold refStep at hx
  split at hx
  · split at hx
    · exact Or.inl (List.mem_of_mem_filter hx)
    · cases hu : c.update with
      | none =>
        rw [hu] at hx
        exact Or.inl hx
      | some y =>
        rw [hu] at hx
        obtain ⟨z, hz, hzx⟩ := List.mem_map.mp hx
        split at hzx
        · exact Or.inr (hzx ▸ hc.update y hu)
        · exact Or.inl (hzx ▸ hz)
  · split at hx
    · rcases List.mem_append.mp hx with hx | hx
      · exact Or.inl hx
      · exact Or.inr (List.mem_singleton.mp hx ▸ hc.fresh)
    · exact Or.inl hx

/-- Only an INSERT brings in a new key. -/
theorem mem_refStep_cases (hkey : key.Lawful) (hc : c.Ok key) {x : El}
    (hx : x ∈ (refStep key.eq l c).2) :
    (∃ z ∈ l, key.eq z x = true) ∨ c.action = .insert ∧ key.eq c.el x = true := by
  unfold refStep at hx
  split at hx
  · next y hy =>
      split at hx
      · exact Or.inl ⟨x, List.mem_of_mem_filter hx, hkey.refl x⟩
      · cases hu : c.update with
        | none =>
          rw [hu] at hx
          exact Or.inl ⟨x, hx, hkey.refl x⟩
        | some u =>
          rw [hu] at hx
          obtain ⟨z, hz, hzx⟩ := List.mem_map.mp hx
          refine Or.inl ⟨z, hz, ?_⟩
          split at hzx
          · next hze => exact hkey.trans _ _ _ hze (hkey.symm _ _ (hzx ▸ hc.update u hu))
          · exact hzx ▸ hkey.refl z
  · split at hx
    · next hins =>
        rcases List.mem_append.mp hx with hx | hx
        · exact Or.inl ⟨x, hx, hkey.refl x⟩
        · exact Or.inr ⟨hins, hkey.symm _ _ (List.mem_singleton.mp hx ▸ hc.fresh)⟩
    · exact Or.inl ⟨x, hx, hkey.refl x⟩

/-- A call about another element. -/
theorem mem_refStep_of_ne {x : El} (hx : x ∈ l) (hne : key.eq x c.el = false) :
    x ∈ (refStep key.eq l c).2 := by
  unfold refStep
  split
  · split
    · exact List.mem_filter.mpr ⟨hx, by simp [hne]⟩
    · cases c.update with
      | none => exact hx
      | some y => exact List.mem_map.mpr ⟨x, hx, by simp [hne]⟩
  · split
    · exact List.mem_append_left _ hx
    · exact hx

/-- A call about an element that only a part of the list can have acts on that part. -/
theorem refStep_part {l₁ l₂ : List El} (h₁ : ∀ x ∈ l₁, key.eq x c.el = false)
    (h₂ : ∀ x ∈ l₂, key.eq x c.el = false) :
    (refStep key.eq (l₁ ++ l ++ l₂) c).1 = (refStep key.eq l c).1 ∧
      (l₁ ++ (refStep key.eq l c).2 ++ l₂).Perm (refStep key.eq (l₁ ++ l ++ l₂) c).2 := by
  unfold refStep
  rw [lookup_part h₁ h₂]
  cases lookup key.eq l c.el with
  | some x =>
    by_cases hdel : c.action = .delete
    · simp only [if_pos hdel, remove_part h₁ h₂]
      exact ⟨trivial, List.Perm.refl _⟩
    · simp only [if_neg hdel]
      refine ⟨trivial, ?_⟩
      cases c.update with
      | none => exact List.Perm.refl _
      | some y => exact List.Perm.of_eq (replace_part h₁ h₂ y).symm
  | none =>
    refine ⟨rfl, ?_⟩
    by_cases hins : c.action = .insert
    · -- the element goes behind the part or behind the whole list
      simp only [if_pos hins, List.append_assoc]
      exact (List.perm_append_comm.append_left l).append_left l₁
    · simp only [if_neg hins]
      exact List.Perm.refl _

end Reference

end IndexedHash
