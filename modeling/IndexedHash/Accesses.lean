import Mathlib.Tactic.Common

/-!
# Programs by their accesses

A `Prog` is a computation that asks for the contents of memory, one query at a time, and
goes on with the answers.  Run on a memory it gives its result together with the queries
it asked, in order; it is stuck where the memory has no answer, and where a loop has used
up its fuel.

* A run depends on the answers to its own queries only (`Prog.run_of_agree`).
* `Moves J lo hi x P` is total correctness with a journey: `x` returns a value that
  satisfies `P`, and its queries lead from `lo` to `hi`.  What it means for queries to
  lead from one place to another is a parameter, with an empty journey and the
  composition of journeys; the rules follow a program along them, through counted loops
  (`Moves.iterate`) and `while` loops (`Moves.whileLoop`).
-/

namespace IndexedHash.Accesses

variable {Q : Type} {R : Q → Type} {α β σ : Type}

/-- A computation with queries in `Q`, each of which has answers of its own type. -/
inductive Prog (R : Q → Type) (α : Type) where
  | ret (a : α)
  | ask (q : Q) (k : R q → Prog R α)
  | stuck

namespace Prog

def bind : Prog R α → (α → Prog R β) → Prog R β
  | .ret a, f => f a
  | .ask q k, f => .ask q fun r => (k r).bind f
  | .stuck, _ => .stuck

instance : Monad (Prog R) where
  pure := ret
  bind := bind

def query (q : Q) : Prog R (R q) := .ask q .ret

def iterate (body : σ → Prog R σ) : Nat → σ → Prog R σ
  | 0, s => .ret s
  | n + 1, s => body s >>= iterate body n

/-- `while (c (s)) s = body (s)`, for at most `fuel` tests of the condition -/
def whileLoop (c : σ → Bool) (body : σ → Prog R σ) : Nat → σ → Prog R σ
  | 0, _ => .stuck
  | fuel + 1, s => if c s then body s >>= whileLoop c body fuel else .ret s

def run (mem : (q : Q) → Option (R q)) : Prog R α → Option (α × List Q)
  | .ret a => some (a, [])
  | .ask q k => (mem q).bind fun r => ((k r).run mem).map fun p => (p.1, q :: p.2)
  | .stuck => none

variable {mem mem' : (q : Q) → Option (R q)}

theorem run_ask_iff {q : Q} {k : R q → Prog R α} {a : α} {qs : List Q} :
    (Prog.ask q k).run mem = some (a, qs) ↔
      ∃ r qs', mem q = some r ∧ (k r).run mem = some (a, qs') ∧ qs = q :: qs' := by
  simp only [run, Option.bind_eq_some_iff, Option.map_eq_some_iff, Prod.mk.injEq]
  constructor
  · rintro ⟨r, hr, ⟨_, qs'⟩, hk, rfl, rfl⟩
    exact ⟨r, qs', hr, hk, rfl⟩
  · rintro ⟨r, qs', hr, hk, rfl⟩
    exact ⟨r, hr, (a, qs'), hk, rfl, rfl⟩

theorem run_bind {x : Prog R α} {f : α → Prog R β} {a : α} {b : β} {qs qs' : List Q}
    (hx : x.run mem = some (a, qs)) (hf : (f a).run mem = some (b, qs')) :
    (x >>= f).run mem = some (b, qs ++ qs') := by
  induction x generalizing qs with
  | ret a' =>
    rw [run, Option.some.injEq, Prod.mk.injEq] at hx
    obtain ⟨rfl, rfl⟩ := hx
    exact hf
  | ask q k ih =>
    obtain ⟨r, qs₁, hr, hk, rfl⟩ := run_ask_iff.mp hx
    exact run_ask_iff.mpr ⟨r, qs₁ ++ qs', hr, ih r hk, rfl⟩
  | stuck => cases hx

/-- A run depends on the answers to its own queries only. -/
theorem run_of_agree {x : Prog R α} {a : α} {qs : List Q} (hx : x.run mem = some (a, qs))
    (hmem : ∀ q ∈ qs, mem' q = mem q) : x.run mem' = some (a, qs) := by
  induction x generalizing qs with
  | ret a' => exact hx
  | ask q k ih =>
    obtain ⟨r, qs', hr, hk, rfl⟩ := run_ask_iff.mp hx
    have hk' := ih r hk fun q' hq' => hmem q' (List.mem_cons_of_mem _ hq')
    exact run_ask_iff.mpr ⟨r, qs', (hmem q List.mem_cons_self).trans hr, hk', rfl⟩
  | stuck => cases hx

end Prog

/-! ## Journeys -/

structure Journey (Q Pos : Type) where
  leads : Pos → Pos → List Q → Prop
  nil : ∀ lo, leads lo lo []
  append : ∀ {lo mid hi qs qs'}, leads lo mid qs → leads mid hi qs' → leads lo hi (qs ++ qs')

variable {Pos : Type} {J : Journey Q Pos} {mem : (q : Q) → Option (R q)}

/-- `x` returns a value that satisfies `P`, by queries that lead from `lo` to `hi`. -/
def Moves (J : Journey Q Pos) (mem : (q : Q) → Option (R q)) (lo hi : Pos) (x : Prog R α)
    (P : α → Prop) : Prop :=
  ∃ a qs, x.run mem = some (a, qs) ∧ P a ∧ J.leads lo hi qs

namespace Moves

variable {lo mid hi : Pos}

theorem ret {a : α} {P : α → Prop} (h : P a) : Moves J mem lo lo (.ret a) P :=
  ⟨a, [], rfl, h, J.nil lo⟩

theorem conseq {lo' hi' : Pos} {x : Prog R α} {P P' : α → Prop} (h : Moves J mem lo hi x P)
    (hlo : lo = lo') (hhi : hi = hi') (hP : ∀ a, P a → P' a) : Moves J mem lo' hi' x P' := by
  subst hlo hhi
  obtain ⟨a, qs, hrun, ha, hlead⟩ := h
  exact ⟨a, qs, hrun, hP a ha, hlead⟩

theorem bind {x : Prog R α} {f : α → Prog R β} {P : α → Prop} {P' : β → Prop}
    (hx : Moves J mem lo mid x P) (hf : ∀ a, P a → Moves J mem mid hi (f a) P') :
    Moves J mem lo hi (x >>= f) P' := by
  obtain ⟨a, qs, hrun, ha, hlead⟩ := hx
  obtain ⟨b, qs', hrun', hb, hlead'⟩ := hf a ha
  exact ⟨b, qs ++ qs', Prog.run_bind hrun hrun', hb, J.append hlead hlead'⟩

theorem query {q : Q} {r : R q} {P : R q → Prop} (hmem : mem q = some r) (hr : P r)
    (hlead : J.leads lo hi [q]) : Moves J mem lo hi (Prog.query q) P :=
  ⟨r, [q], Prog.run_ask_iff.mpr ⟨r, [], hmem, rfl, rfl⟩, hr, hlead⟩

/-- A counted loop: each pass moves on from its place to the next. -/
theorem iterate {body : σ → Prog R σ} (I : Nat → σ → Prop) (place : Nat → Pos) {n : Nat} {s : σ}
    (hs : I 0 s)
    (hbody : ∀ k < n, ∀ s, I k s → Moves J mem (place k) (place (k + 1)) (body s) (I (k + 1))) :
    Moves J mem (place 0) (place n) (Prog.iterate body n s) (I n) := by
  induction n generalizing I place s with
  | zero => exact ret hs
  | succ n ih =>
    refine bind (hbody 0 (Nat.succ_pos n) s hs) fun s' hs' => ?_
    exact ih (fun k => I (k + 1)) (fun k => place (k + 1)) hs'
      fun k hk => hbody (k + 1) (Nat.succ_lt_succ hk)

/-- A `while` loop that makes `n` passes. -/
theorem whileLoop {c : σ → Bool} {body : σ → Prog R σ} (I : Nat → σ → Prop) (place : Nat → Pos)
    {n fuel : Nat} {s : σ} (hs : I 0 s) (hfuel : n < fuel)
    (hbody : ∀ k < n, ∀ s, I k s →
      c s = true ∧ Moves J mem (place k) (place (k + 1)) (body s) (I (k + 1)))
    (hexit : ∀ s, I n s → c s = false) :
    Moves J mem (place 0) (place n) (Prog.whileLoop c body fuel s) (I n) := by
  induction n generalizing I place fuel s with
  | zero =>
    obtain ⟨m, rfl⟩ : ∃ m, fuel = m + 1 := ⟨fuel - 1, by omega⟩
    rw [Prog.whileLoop, if_neg (by rw [hexit s hs]; decide)]
    exact ret hs
  | succ n ih =>
    obtain ⟨m, rfl⟩ : ∃ m, fuel = m + 1 := ⟨fuel - 1, by omega⟩
    obtain ⟨hc, hmoves⟩ := hbody 0 (Nat.succ_pos n) s hs
    rw [Prog.whileLoop, if_pos hc]
    refine bind hmoves fun s' hs' => ?_
    exact ih (fun k => I (k + 1)) (fun k => place (k + 1)) hs' (by omega)
      (fun k hk => hbody (k + 1) (Nat.succ_lt_succ hk)) hexit

end Moves

/-! ## Two programs side by side -/

inductive Alike (S : α → β → Prop) : Prog R α → Prog R β → Prop where
  | ret {a : α} {b : β} : S a b → Alike S (.ret a) (.ret b)
  | ask {q : Q} {k : R q → Prog R α} {k' : R q → Prog R β} :
      (∀ r, Alike S (k r) (k' r)) → Alike S (.ask q k) (.ask q k')
  | stuck : Alike S .stuck .stuck

namespace Alike

variable {γ δ τ : Type} {S : α → β → Prop}

theorem eq {x y : Prog R α} (h : Alike Eq x y) : x = y := by
  induction h with
  | ret hab => rw [hab]
  | ask _ ih => rw [funext ih]
  | stuck => rfl

theorem refl (x : Prog R α) : Alike Eq x x := by
  induction x with
  | ret a => exact Alike.ret rfl
  | ask q k ih => exact Alike.ask ih
  | stuck => exact Alike.stuck

theorem imp {T : α → β → Prop} {x : Prog R α} {y : Prog R β} (h : Alike S x y)
    (hST : ∀ a b, S a b → T a b) : Alike T x y := by
  induction h with
  | ret hab => exact Alike.ret (hST _ _ hab)
  | ask _ ih => exact Alike.ask ih
  | stuck => exact Alike.stuck

theorem bind {x : Prog R α} {y : Prog R β} {f : α → Prog R γ} {g : β → Prog R δ} {T : γ → δ → Prop}
    (h : Alike S x y) (hfg : ∀ a b, S a b → Alike T (f a) (g b)) : Alike T (x >>= f) (y >>= g) := by
  induction h with
  | ret hab => exact hfg _ _ hab
  | ask _ ih => exact Alike.ask ih
  | stuck => exact Alike.stuck

theorem iterate {body : σ → Prog R σ} {body' : τ → Prog R τ} {I : σ → τ → Prop}
    (hbody : ∀ s t, I s t → Alike I (body s) (body' t)) (n : Nat) {s : σ} {t : τ} (h : I s t) :
    Alike I (Prog.iterate body n s) (Prog.iterate body' n t) := by
  induction n generalizing s t with
  | zero => exact Alike.ret h
  | succ n ih => exact (hbody s t h).bind fun s' t' h' => ih h'

/-- Loops whose conditions agree end together, where the condition fails. -/
theorem whileLoop {c : σ → Bool} {c' : τ → Bool} {body : σ → Prog R σ} {body' : τ → Prog R τ}
    {I : σ → τ → Prop} (hc : ∀ s t, I s t → c s = c' t)
    (hbody : ∀ s t, I s t → Alike I (body s) (body' t)) (fuel : Nat) {s : σ} {t : τ} (h : I s t) :
    Alike (fun s t => I s t ∧ c s = false) (Prog.whileLoop c body fuel s)
      (Prog.whileLoop c' body' fuel t) := by
  induction fuel generalizing s t with
  | zero => exact Alike.stuck
  | succ fuel ih =>
    rw [Prog.whileLoop, Prog.whileLoop, ← hc s t h]
    cases hs : c s with
    | true => exact (hbody s t h).bind fun s' t' h' => ih h'
    | false => exact Alike.ret ⟨h, hs⟩

end Alike

end IndexedHash.Accesses
