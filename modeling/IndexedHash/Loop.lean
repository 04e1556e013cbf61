import Mathlib.Algebra.Group.Nat.Defs
import Mathlib.Data.Option.Basic
import Mathlib.Data.List.Basic
import Mathlib.Tactic.Common

/-!
# Fuelled loops

A `for (;;)` whose only exits are `return` and `break` is a body that either
goes round again or leaves.  `forever` runs such a body under a fuel bound:
`none` means that the loop has not left within its fuel, or that the body got
stuck (a read of uninitialised or unallocated storage).

Three rules carry the proofs of the later modules.

* `forever_of_steps` follows a loop to its exit, under an invariant or along a given
  sequence of states (`forever_of_path`).
* `forever_rel` runs two loops side by side under a relation on their states.
* `Mono` says that more fuel never changes a result, so "returns for some fuel"
  and "returns from some fuel on" are the same thing (`Mono.eq_of_some`).

The `foldlM_range_*` rules do the same for loops with a counter.
-/

namespace IndexedHash.Loop

variable {σ τ ρ α β : Type*}

inductive Step (σ ρ : Type*) where
  | again (s : σ)
  | leave (r : ρ)

/-- Run `body` until it leaves, at most `fuel` times. -/
def forever (body : σ → Option (Step σ ρ)) : Nat → σ → Option ρ
  | 0, _ => none
  | fuel + 1, s =>
      match body s with
      | none => none
      | some (.again s') => forever body fuel s'
      | some (.leave r) => some r

theorem forever_again {body : σ → Option (Step σ ρ)} {s s' : σ}
    (h : body s = some (.again s')) (fuel : Nat) :
    forever body (fuel + 1) s = forever body fuel s' := by
  simp only [forever, h]

theorem forever_leave {body : σ → Option (Step σ ρ)} {s : σ} {r : ρ}
    (h : body s = some (.leave r)) (fuel : Nat) :
    forever body (fuel + 1) s = some r := by
  simp only [forever, h]

/-- Total correctness: `k` passes go round under an invariant that follows their
    number, and the next one leaves. -/
theorem forever_of_steps (body : σ → Option (Step σ ρ)) (I : Nat → σ → Prop) (Q : ρ → Prop)
    (k : Nat) (hagain : ∀ j < k, ∀ s, I j s → ∃ s', body s = some (.again s') ∧ I (j + 1) s')
    (hleave : ∀ s, I k s → ∃ r, body s = some (.leave r) ∧ Q r) {fuel : Nat} (hfuel : k < fuel)
    {s : σ} (hs : I 0 s) : ∃ r, forever body fuel s = some r ∧ Q r := by
  induction k generalizing I fuel s with
  | zero =>
    obtain ⟨n, rfl⟩ : ∃ n, fuel = n + 1 := ⟨fuel - 1, by omega⟩
    obtain ⟨r, hr, hQ⟩ := hleave s hs
    exact ⟨r, forever_leave hr n, hQ⟩
  | succ k ih =>
    obtain ⟨n, rfl⟩ : ∃ n, fuel = n + 1 := ⟨fuel - 1, by omega⟩
    obtain ⟨s', hs', hI⟩ := hagain 0 (Nat.succ_pos k) s hs
    rw [forever_again hs']
    exact ih (fun j => I (j + 1)) (fun j hj => hagain (j + 1) (by omega)) hleave (by omega) hI

/-- A loop that goes round along `path 0, path 1, …` and leaves at `path k`
    returns what it leaves with, on any fuel above `k`. -/
theorem forever_of_path {body : σ → Option (Step σ ρ)} (path : Nat → σ) (k : Nat) {r : ρ}
    (hagain : ∀ j < k, body (path j) = some (.again (path (j + 1))))
    (hleave : body (path k) = some (.leave r)) {fuel : Nat} (hfuel : k < fuel) :
    forever body fuel (path 0) = some r := by
  obtain ⟨r', hr', rfl⟩ := forever_of_steps body (fun j s => s = path j) (fun r' => r' = r) k
    (fun j hj s hs => ⟨path (j + 1), hs ▸ hagain j hj, rfl⟩)
    (fun s hs => ⟨r, hs ▸ hleave, rfl⟩) hfuel rfl
  exact hr'

/-- Partial correctness: an invariant that every pass keeps, and that gives `Q`
    on leaving, gives `Q` of whatever the loop returns. -/
theorem forever_invariant {body : σ → Option (Step σ ρ)} (I : σ → Prop) (Q : ρ → Prop)
    (hagain : ∀ s s', I s → body s = some (.again s') → I s')
    (hleave : ∀ s r, I s → body s = some (.leave r) → Q r)
    {fuel : Nat} {s : σ} {r : ρ} (hs : I s) (h : forever body fuel s = some r) : Q r := by
  induction fuel generalizing s with
  | zero => simp [forever] at h
  | succ n ih =>
    cases hb : body s with
    | none => simp [forever, hb] at h
    | some step =>
      cases step with
      | again s' =>
        rw [forever_again hb] at h
        exact ih (hagain s s' hs hb) h
      | leave r' =>
        rw [forever_leave hb, Option.some.injEq] at h
        exact h ▸ hleave s r' hs hb

/-! ## Two loops side by side -/

inductive Step.Rel (R : σ → τ → Prop) (Q : α → β → Prop) : Step σ α → Step τ β → Prop where
  | again {s t} : R s t → Step.Rel R Q (.again s) (.again t)
  | leave {a b} : Q a b → Step.Rel R Q (.leave a) (.leave b)

theorem forever_rel {body : σ → Option (Step σ α)} {body' : τ → Option (Step τ β)}
    (R : σ → τ → Prop) (Q : α → β → Prop)
    (hstep : ∀ s t, R s t → Option.Rel (Step.Rel R Q) (body s) (body' t))
    (fuel : Nat) {s : σ} {t : τ} (hst : R s t) :
    Option.Rel Q (forever body fuel s) (forever body' fuel t) := by
  induction fuel generalizing s t with
  | zero => exact Option.Rel.none
  | succ n ih =>
    have h := hstep s t hst
    simp only [forever]
    revert h
    generalize body s = x
    generalize body' t = y
    intro h
    cases h with
    | none => exact Option.Rel.none
    | some h =>
      cases h with
      | again h => exact ih h
      | leave h => exact Option.Rel.some h

/-- Two bodies that agree on every state an invariant admits run alike. -/
theorem forever_congr {body body' : σ → Option (Step σ ρ)} (I : σ → Prop)
    (heq : ∀ s, I s → body s = body' s)
    (hagain : ∀ s s', I s → body s = some (.again s') → I s')
    (fuel : Nat) {s : σ} (hs : I s) : forever body fuel s = forever body' fuel s := by
  induction fuel generalizing s with
  | zero => rfl
  | succ n ih =>
    simp only [forever, ← heq s hs]
    cases hb : body s with
    | none => rfl
    | some step =>
      cases step with
      | again s' => exact ih (hagain s s' hs hb)
      | leave r => rfl

/-! ## Fuel monotonicity -/

def Mono (f : Nat → Option α) : Prop :=
  ∀ ⦃n m : Nat⦄ ⦃a : α⦄, n ≤ m → f n = some a → f m = some a

theorem Mono.const (x : Option α) : Mono fun _ => x := fun _ _ _ _ h => h

theorem Mono.bind {f : Nat → Option α} {g : Nat → α → Option β} (hf : Mono f)
    (hg : ∀ a, Mono fun n => g n a) : Mono fun n => (f n).bind (g n) := by
  intro n m b hnm h
  obtain ⟨a, ha, hb⟩ := Option.bind_eq_some_iff.mp h
  exact Option.bind_eq_some_iff.mpr ⟨a, hf hnm ha, hg a hnm hb⟩

theorem Mono.map {f : Nat → Option α} (hf : Mono f) (g : α → β) : Mono fun n => (f n).map g := by
  intro n m b hnm h
  obtain ⟨a, ha, hb⟩ := Option.map_eq_some_iff.mp h
  exact Option.map_eq_some_iff.mpr ⟨a, hf hnm ha, hb⟩

theorem Mono.ite {p : Prop} [Decidable p] {f g : Nat → Option α} (hf : Mono f) (hg : Mono g) :
    Mono fun n => if p then f n else g n := by
  by_cases hp : p
  · simpa only [hp, if_true] using hf
  · simpa only [hp, if_false] using hg

theorem Mono.foldlM {f : Nat → σ → α → Option σ} (hf : ∀ s a, Mono fun n => f n s a)
    (l : List α) (s : σ) : Mono fun n => l.foldlM (f n) s := by
  induction l generalizing s with
  | nil => exact Mono.const (some s)
  | cons a l ih =>
    simp only [List.foldlM_cons]
    exact Mono.bind (hf s a) ih

/-- The fuel of the body and the number of passes may be raised separately. -/
theorem forever_raise {body : Nat → σ → Option (Step σ ρ)} (hb : ∀ s, Mono fun n => body n s)
    {k l n m : Nat} (hnm : n ≤ m) (hkl : k ≤ l) {s : σ} {r : ρ}
    (h : forever (body n) k s = some r) : forever (body m) l s = some r := by
  induction k generalizing l s with
  | zero => simp [forever] at h
  | succ k ih =>
    obtain ⟨l, rfl⟩ : ∃ l', l = l' + 1 := ⟨l - 1, by omega⟩
    cases hs : body n s with
    | none => simp [forever, hs] at h
    | some step =>
      have hs' := hb s hnm hs
      cases step with
      | again s' =>
        rw [forever_again hs] at h
        rw [forever_again hs']
        exact ih (by omega) h
      | leave r' =>
        rw [forever_leave hs] at h
        rw [forever_leave hs']
        exact h

theorem Mono.forever {body : Nat → σ → Option (Step σ ρ)} (hb : ∀ s, Mono fun n => body n s)
    (s : σ) : Mono fun n => Loop.forever (body n) n s :=
  fun _ _ _ hnm h => forever_raise hb hnm hnm h

/-- Two results of one monotone computation are the same result. -/
theorem Mono.eq_of_some {f : Nat → Option α} (hf : Mono f) {n m : Nat} {a b : α}
    (ha : f n = some a) (hb : f m = some b) : a = b := by
  have h := hf (Nat.le_max_left n m) ha
  rw [hf (Nat.le_max_right n m) hb] at h
  exact (Option.some.inj h).symm

/-! ## Returning -/

/-- The computation returns `a`, on all fuel from some point on. -/
def Returns (f : Nat → Option α) (a : α) : Prop := ∃ N, ∀ n ≥ N, f n = some a

theorem Returns.const (a : α) : Returns (fun _ => some a) a := ⟨0, fun _ _ => rfl⟩

theorem Mono.returns {f : Nat → Option α} (hf : Mono f) {n : Nat} {a : α} (h : f n = some a) :
    Returns f a := ⟨n, fun _ hm => hf hm h⟩

theorem Returns.exists_some {f : Nat → Option α} {a : α} (h : Returns f a) : ∃ n, f n = some a := by
  obtain ⟨N, hN⟩ := h
  exact ⟨N, hN N (Nat.le_refl N)⟩

theorem Returns.unique {f : Nat → Option α} {a b : α} (ha : Returns f a) (hb : Returns f b) :
    a = b := by
  obtain ⟨N, hN⟩ := ha
  obtain ⟨M, hM⟩ := hb
  have h := hN (max N M) (Nat.le_max_left N M)
  rw [hM (max N M) (Nat.le_max_right N M)] at h
  exact (Option.some.inj h).symm

theorem Returns.bind {f : Nat → Option α} {g : Nat → α → Option β} {a : α} {b : β}
    (hf : Returns f a) (hg : Returns (fun n => g n a) b) :
    Returns (fun n => (f n).bind (g n)) b := by
  obtain ⟨N, hN⟩ := hf
  obtain ⟨M, hM⟩ := hg
  refine ⟨max N M, fun n hn => ?_⟩
  simp only [hN n (by omega), Option.bind_some]
  exact hM n (by omega)

theorem Returns.map {f : Nat → Option α} {a : α} (hf : Returns f a) (g : α → β) :
    Returns (fun n => (f n).map g) (g a) := by
  obtain ⟨N, hN⟩ := hf
  exact ⟨N, fun n hn => by simp only [hN n hn, Option.map_some]⟩

section Passes

variable {body : Nat → σ → Option (Step σ ρ)} {s : σ} {r : ρ}

theorem Returns.again (hb : ∀ s, Mono fun n => body n s) (s' : σ)
    (h : Returns (fun n => body n s) (.again s')) (h' : Returns (fun n => forever (body n) n s') r) :
    Returns (fun n => forever (body n) n s) r := by
  obtain ⟨N, hN⟩ := h
  obtain ⟨M, hM⟩ := h'
  refine ⟨max N M + 1, fun n hn => ?_⟩
  obtain ⟨k, rfl⟩ : ∃ k, n = k + 1 := ⟨n - 1, by omega⟩
  have hbody : body (k + 1) s = some (.again s') := hN (k + 1) (by omega)
  show forever (body (k + 1)) (k + 1) s = some r
  rw [forever_again hbody]
  exact forever_raise hb (Nat.le_succ k) (Nat.le_refl k) (hM k (by omega))

theorem Returns.leave (h : Returns (fun n => body n s) (.leave r)) :
    Returns (fun n => forever (body n) n s) r := by
  obtain ⟨N, hN⟩ := h
  refine ⟨N + 1, fun n hn => ?_⟩
  obtain ⟨k, rfl⟩ : ∃ k, n = k + 1 := ⟨n - 1, by omega⟩
  exact forever_leave (hN (k + 1) (by omega)) k

end Passes

/-- Two computations that run side by side from some fuel on return together. -/
theorem Returns.of_rel {f : Nat → Option α} {g : Nat → Option β} {R : α → β → Prop} {N : Nat}
    (hf : Mono f) (hrel : ∀ n ≥ N, Option.Rel R (f n) (g n)) {b : β} (hg : Returns g b) :
    ∃ a, Returns f a ∧ R a b := by
  obtain ⟨M, hM⟩ := hg
  have hgn := hM (max N M) (Nat.le_max_right N M)
  have hrn := hrel (max N M) (Nat.le_max_left N M)
  rw [hgn] at hrn
  generalize hfn : f (max N M) = x at hrn
  cases hrn with
  | some h => exact ⟨_, hf.returns hfn, h⟩

theorem Returns.of_rel_left {f : Nat → Option α} {g : Nat → Option β} {R : α → β → Prop} {N : Nat}
    (hg : Mono g) (hrel : ∀ n ≥ N, Option.Rel R (f n) (g n)) {a : α} (hf : Returns f a) :
    ∃ b, Returns g b ∧ R a b := by
  obtain ⟨M, hM⟩ := hf
  have hfn := hM (max N M) (Nat.le_max_right N M)
  have hrn := hrel (max N M) (Nat.le_max_left N M)
  rw [hfn] at hrn
  generalize hgn : g (max N M) = y at hrn
  cases hrn with
  | some h => exact ⟨_, hg.returns hgn, h⟩

/-! ## Doubling -/

section Double

variable {body : Nat → Option (Step Nat Nat)} (small : Nat → Prop) [DecidablePred small] {w a : Nat}

/-- `for (s = 2^a; small (s); s *= 2);` in `w` bits.  The doubling may wrap to zero; if
    zero is then still too small the loop does not return, so what it returns is the first
    power of two that is not too small. -/
theorem forever_double (hbody : ∀ s, body s = some (if small s then .again (s * 2 % 2 ^ w)
    else .leave s)) (hzero : small (2 ^ (w - 1)) → small 0) (ha : a < w) {fuel size : Nat}
    (h : forever body fuel (2 ^ a) = some size) :
    ∃ b, a ≤ b ∧ b < w ∧ size = 2 ^ b ∧ ¬ small (2 ^ b) ∧ ∀ c, a ≤ c → c < b → small (2 ^ c) := by
  refine forever_invariant
    (fun s => (s = 0 ∧ small 0) ∨
      ∃ b, a ≤ b ∧ b < w ∧ s = 2 ^ b ∧ ∀ c, a ≤ c → c < b → small (2 ^ c))
    (fun size => ∃ b, a ≤ b ∧ b < w ∧ size = 2 ^ b ∧ ¬ small (2 ^ b) ∧
      ∀ c, a ≤ c → c < b → small (2 ^ c)) ?_ ?_ (Or.inr ⟨a, Nat.le_refl a, ha, rfl, ?_⟩) h
  · intro s s' hs hagain
    rw [hbody, Option.some.injEq] at hagain
    split at hagain
    · next hsmall =>
        rw [Step.again.injEq] at hagain
        rcases hs with ⟨rfl, hz⟩ | ⟨b, hab, hbw, rfl, hbelow⟩
        · exact Or.inl ⟨by rw [← hagain, Nat.zero_mul, Nat.zero_mod], hz⟩
        · rw [← Nat.pow_succ] at hagain
          by_cases hlast : b + 1 = w
          · have hb : b = w - 1 := by omega
            refine Or.inl ⟨?_, hzero (hb ▸ hsmall)⟩
            rw [← hagain, Nat.succ_eq_add_one, hlast, Nat.mod_self]
          · refine Or.inr ⟨b + 1, by omega, by omega, ?_, fun c hac hcb => ?_⟩
            · rw [← hagain]
              exact Nat.mod_eq_of_lt (Nat.pow_lt_pow_right (by decide) (by omega))
            · rcases Nat.lt_succ_iff_lt_or_eq.mp hcb with hlt | rfl
              · exact hbelow c hac hlt
              · exact hsmall
    · cases hagain
  · intro s r hs hleave
    rw [hbody, Option.some.injEq] at hleave
    split at hleave
    · cases hleave
    · next hbig =>
        rw [Step.leave.injEq] at hleave
        subst hleave
        rcases hs with ⟨rfl, hz⟩ | ⟨b, hab, hbw, rfl, hbelow⟩
        · exact absurd hz hbig
        · exact ⟨b, hab, hbw, rfl, hbig, hbelow⟩
  · intro c hac hca
    omega

/-- The loop returns when some power of two below `2 ^ w` is large enough. -/
theorem forever_double_returns (hbody : ∀ s, body s = some (if small s then
    .again (s * 2 % 2 ^ w) else .leave s)) {b : Nat} (hab : a ≤ b) (hbw : b < w)
    (hbig : ¬ small (2 ^ b)) : ∃ size, Returns (fun fuel => forever body fuel (2 ^ a)) size := by
  induction hk : b - a generalizing a with
  | zero =>
    have hb : a = b := by omega
    have hleave : body (2 ^ a) = some (.leave (2 ^ a)) := by rw [hbody, hb, if_neg hbig]
    exact ⟨2 ^ a, Returns.leave ⟨0, fun _ _ => hleave⟩⟩
  | succ k ih =>
    by_cases hsmall : small (2 ^ a)
    · obtain ⟨size, hsize⟩ := ih (a := a + 1) (by omega) (by omega)
      have hagain : body (2 ^ a) = some (.again (2 ^ (a + 1))) := by
        rw [hbody, if_pos hsmall, ← Nat.pow_succ,
          Nat.mod_eq_of_lt (Nat.pow_lt_pow_right (by decide) (by omega))]
      exact ⟨size, Returns.again (fun _ => Mono.const _) _ ⟨0, fun _ _ => hagain⟩ hsize⟩
    · have hleave : body (2 ^ a) = some (.leave (2 ^ a)) := by rw [hbody, if_neg hsmall]
      exact ⟨2 ^ a, Returns.leave ⟨0, fun _ _ => hleave⟩⟩

end Double

/-! ## Loops with a counter -/

/-- Total correctness of `for (i = 0; i < n; i++)`. -/
theorem foldlM_range_spec {f : σ → Nat → Option σ} (I : Nat → σ → Prop) (n : Nat) {s : σ}
    (h0 : I 0 s)
    (hstep : ∀ i < n, ∀ s, I i s → ∃ s', f s i = some s' ∧ I (i + 1) s') :
    ∃ s', (List.range n).foldlM f s = some s' ∧ I n s' := by
  induction n with
  | zero => exact ⟨s, rfl, h0⟩
  | succ n ih =>
    obtain ⟨s', hs', hI⟩ := ih (fun i hi => hstep i (by omega))
    obtain ⟨s'', hs'', hI'⟩ := hstep n (by omega) s' hI
    refine ⟨s'', ?_, hI'⟩
    rw [List.range_succ, List.foldlM_append, hs']
    simpa using hs''

def counted (f : σ → α → Option σ) (s : σ × Nat) (a : α) : Option (σ × Nat) :=
  (f s.1 a).map fun s' => (s', s.2 + 1)

/-- Counting does not change what a loop does, and it counts the elements of the list. -/
theorem foldlM_counted (f : σ → α → Option σ) (l : List α) (s : σ) (n : Nat) :
    l.foldlM (counted f) (s, n) = (l.foldlM f s).map fun s' => (s', n + l.length) := by
  induction l generalizing s n with
  | nil => rfl
  | cons a l ih =>
    rw [List.foldlM_cons, List.foldlM_cons, counted]
    cases f s a with
    | none => rfl
    | some s₁ =>
      show l.foldlM (counted f) (s₁, n + 1) = (l.foldlM f s₁).map _
      rw [ih, List.length_cons, Nat.add_assoc, Nat.add_comm 1]

/-- Partial correctness of a loop over a list. -/
theorem foldlM_invariant {f : σ → α → Option σ} (I : σ → Prop)
    (hstep : ∀ s a s', I s → f s a = some s' → I s') {l : List α} {s s' : σ} (hs : I s)
    (h : l.foldlM f s = some s') : I s' := by
  induction l generalizing s with
  | nil =>
    obtain rfl := Option.some.inj h
    exact hs
  | cons a l ih =>
    rw [List.foldlM_cons] at h
    obtain ⟨s₁, hs₁, hrest⟩ := Option.bind_eq_some_iff.mp h
    exact ih (hstep s a s₁ hs hs₁) hrest

/-- Two counted loops side by side, under a relation that may follow the counter. -/
theorem foldlM_range_rel {f : σ → Nat → Option σ} {g : τ → Nat → Option τ}
    (R : Nat → σ → τ → Prop) (n : Nat) {s : σ} {t : τ} (h0 : R 0 s t)
    (hstep : ∀ i < n, ∀ s t, R i s t → Option.Rel (R (i + 1)) (f s i) (g t i)) :
    Option.Rel (R n) ((List.range n).foldlM f s) ((List.range n).foldlM g t) := by
  induction n with
  | zero => exact Option.Rel.some h0
  | succ n ih =>
    have hih := ih (fun i hi => hstep i (by omega))
    rw [List.range_succ, List.foldlM_append, List.foldlM_append]
    revert hih
    generalize (List.range n).foldlM f s = x
    generalize (List.range n).foldlM g t = y
    intro hih
    cases hih with
    | none => exact Option.Rel.none
    | some h => simpa using hstep n (by omega) _ _ h

/-- Two loops over a list side by side. -/
theorem foldlM_rel {f : σ → α → Option σ} {g : τ → α → Option τ} {R : σ → τ → Prop}
    (hstep : ∀ a s t, R s t → Option.Rel R (f s a) (g t a)) (l : List α) {s : σ} {t : τ}
    (h : R s t) : Option.Rel R (l.foldlM f s) (l.foldlM g t) := by
  induction l generalizing s t with
  | nil => exact Option.Rel.some h
  | cons a l ih =>
    rw [List.foldlM_cons, List.foldlM_cons]
    have hrel := hstep a s t h
    revert hrel
    generalize f s a = x
    generalize g t a = y
    intro hrel
    cases hrel with
    | none => exact Option.Rel.none
    | some h' => exact ih h'

/-- Sequencing of two computations that run side by side. -/
theorem bind_rel {x : Option α} {y : Option β} {f : α → Option σ} {g : β → Option τ}
    {R : α → β → Prop} {Q : σ → τ → Prop} (h : Option.Rel R x y)
    (hfg : ∀ a b, R a b → Option.Rel Q (f a) (g b)) : Option.Rel Q (x.bind f) (y.bind g) := by
  cases h with
  | none => exact Option.Rel.none
  | some h => exact hfg _ _ h

theorem map_rel {x : Option α} {y : Option β} {f : α → σ} {g : β → τ} {R : α → β → Prop}
    {Q : σ → τ → Prop} (h : Option.Rel R x y) (hfg : ∀ a b, R a b → Q (f a) (g b)) :
    Option.Rel Q (x.map f) (y.map g) := by
  cases h with
  | none => exact Option.Rel.none
  | some h => exact Option.Rel.some (hfg _ _ h)

theorem Rel.swap {x : Option α} {y : Option β} {R : α → β → Prop} (h : Option.Rel R x y) :
    Option.Rel (fun b a => R a b) y x := by
  cases h with
  | none => exact Option.Rel.none
  | some h => exact Option.Rel.some h

/-- Two computations that follow a third follow each other. -/
theorem Rel.meet {x : Option α} {y : Option β} {z : Option σ} {R : α → σ → Prop} {Q : β → σ → Prop}
    (hxz : Option.Rel R x z) (hyz : Option.Rel Q y z) :
    Option.Rel (fun a b => ∃ c, R a c ∧ Q b c) x y := by
  cases hxz with
  | none =>
    cases hyz with
    | none => exact Option.Rel.none
  | some hac =>
    cases hyz with
    | some hbc => exact Option.Rel.some ⟨_, hac, hbc⟩

theorem Rel.imp {x : Option α} {y : Option β} {R Q : α → β → Prop} (h : Option.Rel R x y)
    (hRQ : ∀ a b, R a b → Q a b) : Option.Rel Q x y := by
  cases h with
  | none => exact Option.Rel.none
  | some h => exact Option.Rel.some (hRQ _ _ h)

/-- What is known of the right result may be added to the relation. -/
theorem Rel.of_some {x : Option α} {b : β} {R : α → β → Prop} (h : Option.Rel R x (some b)) :
    ∃ a, x = some a ∧ R a b := by
  cases h with
  | some hab => exact ⟨_, rfl, hab⟩

theorem Rel.and_right {x : Option α} {y : Option β} {R : α → β → Prop} {P : β → Prop}
    (h : Option.Rel R x y) (hP : ∀ b, y = some b → P b) :
    Option.Rel (fun a b => R a b ∧ P b) x y := by
  cases h with
  | none => exact Option.Rel.none
  | some h => exact Option.Rel.some ⟨h, hP _ rfl⟩

end IndexedHash.Loop
