import Mathlib.Data.List.Basic
import Mathlib.Tactic.Common
import IndexedHash.Loop

/-!
# A cursor over a collection that changes

A cursor goes through a fixed list of positions.  Between its steps the collection may
change: `view t p` is what position `p` holds in state `t`, if anything.  `interleaved`
is the loop of a caller who looks at the element under the cursor, does something to the
collection and moves the cursor on, until it has run out of positions.

`sweep` says what such a loop should see: each position in turn, and of these the ones
that hold something in the state in which the cursor reaches them.  `interleaved_eq`
shows that the loop sees exactly that, given what one step of the cursor does
(`Landed`), for any positions, states and operations.
-/

namespace IndexedHash.Cursor

open Loop

variable {τ ι β π α : Type}

/-! ## The loop -/

def interleaved (ptr : ι → Option π) (elAt : τ → π → Option α) (run : τ → β → Option τ)
    (next : τ → ι → Option ι) : τ → ι → List β → Option (List (π × α) × ι)
  | t, it, [] =>
      match ptr it with
      | none => some ([], it)
      | some p => (elAt t p).map fun x => ([(p, x)], it)
  | t, it, op :: ops =>
      match ptr it with
      | none => some ([], it)
      | some p =>
          (elAt t p).bind fun x => (run t op).bind fun t' => (next t' it).bind fun it' =>
            (interleaved ptr elAt run next t' it' ops).map fun r => ((p, x) :: r.1, r.2)

def states (run : τ → β → Option τ) : τ → List β → Option (List τ)
  | t, [] => some [t]
  | t, op :: ops => (run t op).bind fun t' => (states run t' ops).map (t :: ·)

/-! ## What it should see -/

/-- `t` is the state in which the cursor reaches the next position.  If something is
    there, the cursor stays until the next state. -/
def sweep (view : τ → π → Option α) : List π → List τ → List (π × α)
  | [], _ => []
  | _ :: _, [] => []
  | p :: ps, t :: ts =>
      match view t p with
      | some x => (p, x) :: sweep view ps ts
      | none => sweep view ps (t :: ts)

def settle (view : π → Option α) : List π → Option (π × α × List π)
  | [] => none
  | p :: ps =>
      match view p with
      | some x => some (p, x, ps)
      | none => settle view ps

theorem settle_append_of_none {view : π → Option α} {l l' : List π} (h : ∀ p ∈ l, view p = none) :
    settle view (l ++ l') = settle view l' := by
  induction l with
  | nil => rfl
  | cons p l ih =>
    simp only [List.cons_append, settle, h p List.mem_cons_self]
    exact ih fun q hq => h q (List.mem_cons_of_mem p hq)

theorem settle_eq_none {view : π → Option α} {l : List π} (h : ∀ p ∈ l, view p = none) :
    settle view l = none := by
  rw [← List.append_nil l, settle_append_of_none h]
  rfl

theorem settle_of_split {view : π → Option α} {l l' : List π} {p : π} {x : α}
    (h : ∀ p ∈ l, view p = none) (hp : view p = some x) :
    settle view (l ++ p :: l') = some (p, x, l') := by
  rw [settle_append_of_none h]
  simp only [settle, hp]

theorem settle_length {view : π → Option α} {l rest : List π} {p : π} {x : α}
    (h : settle view l = some (p, x, rest)) : rest.length < l.length := by
  induction l with
  | nil => cases h
  | cons q l ih =>
    simp only [settle] at h
    split at h
    · obtain ⟨-, -, rfl⟩ := h
      exact Nat.lt_succ_self _
    · exact Nat.lt_succ_of_lt (ih h)

/-- One step of the sweep. -/
theorem sweep_cons (view : τ → π → Option α) (ps : List π) (t : τ) (ts : List τ) :
    sweep view ps (t :: ts) =
      match settle (view t) ps with
      | none => []
      | some (p, x, rest) => (p, x) :: sweep view rest ts := by
  induction ps with
  | nil => rfl
  | cons p ps ih =>
    simp only [sweep, settle]
    cases view t p with
    | none => exact ih
    | some x => rfl

theorem sweep_sublist (view : τ → π → Option α) (ps : List π) (ts : List τ) :
    ((sweep view ps ts).map Prod.fst).Sublist ps := by
  induction ps generalizing ts with
  | nil => exact List.Sublist.refl _
  | cons p ps ih =>
    cases ts with
    | nil => exact List.nil_sublist _
    | cons t ts =>
      simp only [sweep]
      cases view t p with
      | none => exact (ih (t :: ts)).cons p
      | some x => exact (ih ts).cons_cons p

/-- A position that holds something all along is seen, if there are steps enough. -/
theorem mem_sweep {view : τ → π → Option α} {ps : List π} {ts : List τ} {p : π} (hp : p ∈ ps)
    (hview : ∀ t ∈ ts, view t p ≠ none) (hlen : ps.length ≤ ts.length) :
    p ∈ (sweep view ps ts).map Prod.fst := by
  induction ps generalizing ts with
  | nil => cases hp
  | cons q ps ih =>
    cases ts with
    | nil => cases hlen
    | cons t ts =>
      simp only [List.length_cons] at hlen
      simp only [sweep]
      rcases List.mem_cons.mp hp with rfl | hp
      · cases hpt : view t p with
        | none => exact absurd hpt (hview t List.mem_cons_self)
        | some x => exact List.mem_cons_self
      · cases view t q with
        | none =>
          exact ih hp hview (by simp only [List.length_cons]; omega)
        | some x =>
          refine List.mem_cons_of_mem q (ih hp (fun s hs => hview s ?_) (by omega))
          exact List.mem_cons_of_mem t hs

structure Sweeps (view : τ → π → Option α) (ps : List π) (ts : List τ) (seen : List (π × α)) :
    Prop where
  /-- each position, if it holds something when the cursor reaches it -/
  eq : seen = sweep view ps ts
  /-- in the order of the positions, and each of them once -/
  order : (seen.map Prod.fst).Sublist ps
  /-- nothing that stays is passed over -/
  complete : ∀ p ∈ ps, ps.length ≤ ts.length → (∀ t ∈ ts, view t p ≠ none) → p ∈ seen.map Prod.fst

theorem sweeps_sweep (view : τ → π → Option α) (ps : List π) (ts : List τ) :
    Sweeps view ps ts (sweep view ps ts) :=
  ⟨rfl, sweep_sublist view ps ts, fun _ hp hlen hview => mem_sweep hp hview hlen⟩

/-! ## The loop sees the sweep -/

/-- The cursor has moved on to what `settle` finds among `ps`, and `ready` relates it to
    the positions that are then still ahead. -/
def Landed (ptr : ι → Option π) (elAt : τ → π → Option α) (view : τ → π → Option α)
    (ready : ι → List π → Prop) (t : τ) (it : ι) (ps : List π) : Prop :=
  match settle (view t) ps with
  | none => ptr it = none
  | some (p, x, rest) => ptr it = some p ∧ elAt t p = some x ∧ ready it rest

section Interleaved

variable {ptr : ι → Option π} {elAt : τ → π → Option α} {run : Nat → τ → β → Option τ}
  {next : Nat → τ → ι → Option ι} {view : τ → π → Option α} {ready : ι → List π → Prop}

theorem states_returns {good : τ → Prop} {ok : β → Prop}
    (hrun : ∀ t op, good t → ok op → ∃ t', Returns (fun fuel => run fuel t op) t' ∧ good t')
    {t : τ} (ht : good t) {ops : List β} (hops : ∀ op ∈ ops, ok op) :
    ∃ ts, Returns (fun fuel => states (run fuel) t ops) (t :: ts) ∧ ts.length = ops.length := by
  induction ops generalizing t with
  | nil => exact ⟨[], Returns.const _, rfl⟩
  | cons op ops ih =>
    obtain ⟨t', ht', hgood⟩ := hrun t op ht (hops op List.mem_cons_self)
    obtain ⟨ts, hts, hlen⟩ := ih hgood fun q hq => hops q (List.mem_cons_of_mem op hq)
    refine ⟨t' :: ts, ?_, by rw [List.length_cons, List.length_cons, hlen]⟩
    exact Returns.bind ht' (Returns.map hts (t :: ·))

/-- The loop sees what the sweep says, and after as many steps as there are positions the
    cursor has run out. -/
theorem interleaved_eq {good : τ → Prop} {ok : β → Prop}
    (hrun : ∀ t op, good t → ok op → ∃ t', Returns (fun fuel => run fuel t op) t' ∧ good t')
    (hnext : ∀ t it rest, good t → ready it rest →
      ∃ it', Returns (fun fuel => next fuel t it) it' ∧ Landed ptr elAt view ready t it' rest)
    {t : τ} {it : ι} {ps : List π} (ht : good t) (hit : Landed ptr elAt view ready t it ps)
    {ops : List β} (hops : ∀ op ∈ ops, ok op) {ts : List τ}
    (hts : Returns (fun fuel => states (run fuel) t ops) ts) :
    ∃ it', Returns (fun fuel => interleaved ptr elAt (run fuel) (next fuel) t it ops)
        (sweep view ps ts, it') ∧ (ps.length ≤ ops.length → ptr it' = none) := by
  induction ops generalizing t it ps ts with
  | nil =>
    obtain rfl := hts.unique (Returns.const [t])
    rw [sweep_cons]
    unfold Landed at hit
    cases hsettle : settle (view t) ps with
    | none =>
      rw [hsettle] at hit
      refine ⟨it, ?_, fun _ => hit⟩
      simp only [interleaved, hit]
      exact Returns.const _
    | some found =>
      obtain ⟨p, x, rest⟩ := found
      rw [hsettle] at hit
      have hlen := settle_length hsettle
      refine ⟨it, ?_, fun hle => absurd hle (by rw [List.length_nil]; omega)⟩
      have hnil : sweep view rest ([] : List τ) = [] := by cases rest <;> rfl
      simp only [interleaved, hit.1, hit.2.1, Option.map_some, hnil]
      exact Returns.const _
  | cons op ops ih =>
    obtain ⟨t', ht', hgood⟩ := hrun t op ht (hops op List.mem_cons_self)
    have hops' : ∀ op' ∈ ops, ok op' := fun q hq => hops q (List.mem_cons_of_mem op hq)
    obtain ⟨ts', hts', -⟩ := states_returns hrun hgood hops'
    obtain rfl := hts.unique (Returns.bind ht' (Returns.map hts' (t :: ·)))
    rw [sweep_cons]
    unfold Landed at hit
    cases hsettle : settle (view t) ps with
    | none =>
      rw [hsettle] at hit
      refine ⟨it, ?_, fun _ => hit⟩
      simp only [interleaved, hit]
      exact Returns.const _
    | some found =>
      obtain ⟨p, x, rest⟩ := found
      rw [hsettle] at hit
      obtain ⟨hptr, hx, hready⟩ := hit
      have hlen := settle_length hsettle
      obtain ⟨it', hit', hlanded⟩ := hnext t' it rest hgood hready
      obtain ⟨last, hlast, hend⟩ := ih hgood hlanded hops' hts'
      refine ⟨last, ?_, fun hle => hend (by rw [List.length_cons] at hle; omega)⟩
      simp only [interleaved, hptr, hx, Option.bind_some]
      exact Returns.bind ht' (Returns.bind hit' (Returns.map hlast fun r => ((p, x) :: r.1, r.2)))

end Interleaved

/-! ## A loop over a collection that does not change -/

/-- `stands it ps` says that the cursor is before the positions `ps`.  A loop that leaves
    before none and otherwise takes what is at the first returns all of them. -/
theorem walk_returns {body : Nat → ι × List β → Option (Step (ι × List β) (List β))}
    (hmono : ∀ s, Mono fun fuel => body fuel s) {stands : ι → List π → Prop} {out : π → Option β}
    (hnil : ∀ it acc, stands it [] → Returns (fun fuel => body fuel (it, acc)) (.leave acc))
    (hcons : ∀ it p ps acc, stands it (p :: ps) → ∃ y it', out p = some y ∧ stands it' ps ∧
      Returns (fun fuel => body fuel (it, acc)) (.again (it', acc ++ [y])))
    {it : ι} {ps : List π} (h : stands it ps) (acc : List β) :
    Returns (fun fuel => forever (body fuel) fuel (it, acc)) (acc ++ ps.filterMap out) := by
  induction ps generalizing it acc with
  | nil =>
    rw [List.filterMap_nil, List.append_nil]
    exact Returns.leave (hnil it acc h)
  | cons p ps ih =>
    obtain ⟨y, it', hy, hit', hbody⟩ := hcons it p ps acc h
    rw [List.filterMap_cons_some hy, List.append_cons]
    exact Returns.again hmono (it', acc ++ [y]) hbody (ih hit' (acc ++ [y]))

end IndexedHash.Cursor
