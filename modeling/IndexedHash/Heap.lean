import Mathlib.Algebra.Order.Group.Multiset
import Mathlib.Tactic.Common
import IndexedHash.Loop

/-!
# Programs that allocate

A heap is a row of blocks; an address is a place in the row, and a block that has been freed
leaves its place empty for good.  `malloc` appends, `free`, `load` and `store` are stuck at an
address that is not allocated, so use after free and double free are stuck.  A block that is
reallocated always moves: a pointer that a program keeps across `realloc` is then a pointer
to a freed block.

`Sim P m x Q` compares an allocating program `m` with a computation `x` that has no heap.
Started where the allocated blocks are exactly `P`, they are stuck together or return
together, with results and remaining blocks in `Q`.  `Q` sees all the blocks, so a leak, or a
write to a block of somebody else, shows in it.  The rules step through `m`: `Sim.malloc`,
`Sim.load`, `Sim.store` and `Sim.free` for the steps that `x` does not take, `Sim.bind`,
`Sim.foldlM` and `Sim.forever` for what the two do together.
-/

namespace IndexedHash

open Loop

variable {V α β γ δ σ τ ρ ρ' : Type}

/-! ## Heaps -/

abbrev Heap (V : Type) := List (Option V)

namespace Heap

/-- `*a` -/
def load (h : Heap V) (a : Nat) : Option V := h[a]?.join

def blocksFrom : Nat → Heap V → List (Nat × V)
  | _, [] => []
  | k, none :: h => blocksFrom (k + 1) h
  | k, some v :: h => (k, v) :: blocksFrom (k + 1) h

def blocks (h : Heap V) : Multiset (Nat × V) := blocksFrom 0 h

theorem blocksFrom_append (k : Nat) (h h' : Heap V) :
    blocksFrom k (h ++ h') = blocksFrom k h ++ blocksFrom (k + h.length) h' := by
  induction h generalizing k with
  | nil => rfl
  | cons x h ih =>
    have hk : k + 1 + h.length = k + (h.length + 1) := by omega
    cases x with
    | none => rw [List.cons_append, blocksFrom, blocksFrom, ih, List.length_cons, hk]
    | some v =>
      rw [List.cons_append, blocksFrom, blocksFrom, ih, List.length_cons, hk, List.cons_append]

theorem blocks_append_some (h : Heap V) (v : V) :
    blocks (h ++ [some v]) = {(h.length, v)} + h.blocks := by
  unfold blocks
  rw [blocksFrom_append, Nat.zero_add, ← Multiset.coe_add, add_comm]
  rfl

theorem le_of_mem_blocksFrom {k a : Nat} {v : V} {h : Heap V} (hmem : (a, v) ∈ blocksFrom k h) :
    k ≤ a := by
  induction h generalizing k with
  | nil => cases hmem
  | cons x h ih =>
    cases x with
    | none => exact Nat.le_of_succ_le (ih hmem)
    | some w =>
      rcases List.mem_cons.mp hmem with heq | hmem
      · cases heq
        exact Nat.le_refl a
      · exact Nat.le_of_succ_le (ih hmem)

theorem mem_blocksFrom {k a : Nat} {v : V} {h : Heap V} :
    (k + a, v) ∈ blocksFrom k h ↔ h.load a = some v := by
  induction h generalizing k a with
  | nil => simp [blocksFrom, load]
  | cons x h ih =>
    cases a with
    | zero =>
      have hnot : (k, v) ∉ blocksFrom (k + 1) h :=
        fun hmem => Nat.lt_irrefl k (le_of_mem_blocksFrom hmem)
      cases x with
      | none => simpa [blocksFrom, load] using hnot
      | some w => simp [blocksFrom, load, hnot, eq_comm]
    | succ a =>
      have hshift : k + (a + 1) = k + 1 + a := by omega
      cases x with
      | none =>
        rw [blocksFrom, hshift, ih]
        rfl
      | some w =>
        have hne : k + 1 + a ≠ k := by omega
        rw [blocksFrom, hshift, List.mem_cons, ih]
        simp [hne, load]

theorem mem_blocks {a : Nat} {v : V} {h : Heap V} : (a, v) ∈ h.blocks ↔ h.load a = some v := by
  rw [blocks, Multiset.mem_coe, ← mem_blocksFrom (k := 0), Nat.zero_add]

private theorem blocksFrom_set {k a : Nat} {v : V} {h : Heap V} (hload : h.load a = some v)
    (x : Option V) :
    (blocksFrom k (h.set a x) : Multiset (Nat × V)) =
      (x.map fun w => (k + a, w)).toList + blocksFrom k (h.set a none) := by
  induction h generalizing k a with
  | nil => simp [load] at hload
  | cons y h ih =>
    cases a with
    | zero =>
      cases x with
      | none => simp [blocksFrom]
      | some w => simp [blocksFrom]
    | succ a =>
      have hshift : k + (a + 1) = k + 1 + a := by omega
      have htail := ih (k := k + 1) hload
      rw [List.set_cons_succ, List.set_cons_succ, hshift]
      cases y with
      | none => exact htail
      | some w =>
        rw [blocksFrom, blocksFrom, ← Multiset.cons_coe, ← Multiset.cons_coe, htail,
          Multiset.add_cons]

theorem blocks_set_some {a : Nat} {v : V} {h : Heap V} (hload : h.load a = some v) (w : V) :
    blocks (h.set a (some w)) = {(a, w)} + blocks (h.set a none) := by
  have hset := blocksFrom_set (k := 0) hload (some w)
  rwa [Nat.zero_add] at hset

theorem blocks_eq_add {a : Nat} {v : V} {h : Heap V} (hload : h.load a = some v) :
    h.blocks = {(a, v)} + blocks (h.set a none) := by
  have hself : h.set a (some v) = h := by
    obtain ⟨hlt, hget⟩ := List.getElem?_eq_some_iff.mp (Option.join_eq_some_iff.mp hload)
    rw [← hget, List.set_getElem_self]
  rw [← blocks_set_some hload v, hself]

end Heap

/-! ## Programs -/

/-- A program over a heap; `none` is stuck. -/
abbrev HeapM (V : Type) := StateT (Heap V) Option

namespace HeapM

def malloc (v : V) : HeapM V Nat := fun h => some (h.length, h ++ [some v])

def loadAs (get : V → Option α) (a : Nat) : HeapM V α := fun h =>
  ((h.load a).bind get).map fun u => (u, h)

def store (a : Nat) (v : V) : HeapM V Unit := fun h =>
  (h.load a).map fun _ => ((), h.set a (some v))

def free (a : Nat) : HeapM V Unit := fun h => (h.load a).map fun _ => ((), h.set a none)

def lift (x : Option α) : HeapM V α := fun h => x.map fun a => (a, h)

@[simp] theorem lift_some_bind (a : α) (f : α → HeapM V β) : (lift (some a) >>= f) = f a := rfl

@[simp] theorem lift_none_bind (f : α → HeapM V β) : (lift none >>= f) = lift none := rfl

theorem bind_eq_some {m : HeapM V α} {f : α → HeapM V β} {h : Heap V} {r : β × Heap V}
    (hr : (m >>= f) h = some r) : ∃ a h₁, m h = some (a, h₁) ∧ f a h₁ = some r := by
  obtain ⟨⟨a, h₁⟩, hm, hf⟩ := Option.bind_eq_some_iff.mp hr
  exact ⟨a, h₁, hm, hf⟩

/-- `forever` over a heap. -/
def forever (body : σ → HeapM V (Step σ ρ)) : Nat → σ → HeapM V ρ
  | 0, _ => lift none
  | fuel + 1, s => do
      match ← body s with
      | .again s => forever body fuel s
      | .leave r => pure r

def replies (step : σ → γ → HeapM V (ρ × σ)) : σ → List γ → HeapM V (List ρ × σ)
  | s, [] => pure ([], s)
  | s, c :: cs => do
      let (r, s) ← step s c
      let (rs, s) ← replies step s cs
      return (r :: rs, s)

end HeapM

/-! ## Side by side with a computation that has no heap -/

/-- From the blocks `P` the two return together, with results and remaining blocks in `Q`,
    or are stuck together. -/
def Sim (P : Multiset (Nat × V)) (m : HeapM V α) (x : Option β)
    (Q : α → β → Multiset (Nat × V) → Prop) : Prop :=
  ∀ h : Heap V, h.blocks = P → Option.Rel (fun r b => Q r.1 b r.2.blocks) (m h) x

namespace Sim

variable {P P' F : Multiset (Nat × V)} {m : HeapM V α} {x : Option β}
  {Q Q' : α → β → Multiset (Nat × V) → Prop} {R : γ → δ → Multiset (Nat × V) → Prop}

theorem pure {a : α} {b : β} (h : Q a b P) : Sim P (pure a) (some b) Q := by
  intro heap hP
  subst hP
  exact Option.Rel.some h

/-- What the computation returns may be used afterwards. -/
theorem remember (h : Sim P m x Q) : Sim P m x fun a b P' => Q a b P' ∧ x = some b := by
  cases x with
  | none =>
    intro heap hP
    have hrel := h heap hP
    revert hrel
    generalize m heap = y
    intro hrel
    cases hrel with
    | none => exact Option.Rel.none
  | some b =>
    intro heap hP
    have hrel := h heap hP
    revert hrel
    generalize m heap = y
    intro hrel
    cases hrel with
    | some hab => exact Option.Rel.some ⟨hab, rfl⟩

/-- Where the program returns, so does the computation. -/
theorem of_run (h : Sim P m x Q) {heap heap' : Heap V} {a : α} (hP : heap.blocks = P)
    (hm : m heap = some (a, heap')) : ∃ b, x = some b ∧ Q a b heap'.blocks := by
  have hrel := h heap hP
  rw [hm] at hrel
  cases hrel with
  | some hab => exact ⟨_, rfl, hab⟩

/-- Where the computation returns, so does the program. -/
theorem run (h : Sim P m x Q) {heap : Heap V} {b : β} (hP : heap.blocks = P) (hx : x = some b) :
    ∃ a heap', m heap = some (a, heap') ∧ Q a b heap'.blocks := by
  obtain ⟨⟨a, heap'⟩, hm, hab⟩ := Rel.of_some (hx ▸ h heap hP)
  exact ⟨a, heap', hm, hab⟩

theorem bind {f : α → HeapM V γ} {g : β → Option δ} (h : Sim P m x Q)
    (hfg : ∀ a b P', Q a b P' → Sim P' (f a) (g b) R) : Sim P (m >>= f) (x.bind g) R := by
  intro heap hP
  have hrel := h heap hP
  show Option.Rel _ ((m heap).bind fun r => f r.1 r.2) _
  revert hrel
  generalize m heap = y
  intro hrel
  cases hrel with
  | none => exact Option.Rel.none
  | some hab => exact hfg _ _ _ hab _ rfl

/-- The program goes on where the computation has its result. -/
theorem andThen {f : α → HeapM V γ} {R : γ → β → Multiset (Nat × V) → Prop} (h : Sim P m x Q)
    (hf : ∀ a b P', Q a b P' → Sim P' (f a) (some b) R) : Sim P (m >>= f) x R := by
  have hbind := h.bind hf
  rwa [Option.bind_fun_some] at hbind

/-- The program takes steps that the computation does not take. -/
theorem silent {f : α → HeapM V γ} {y : Option δ} {Q : α → Multiset (Nat × V) → Prop}
    (h : Sim P m (some ()) fun a _ P' => Q a P') (hf : ∀ a P', Q a P' → Sim P' (f a) y R) :
    Sim P (m >>= f) y R :=
  h.bind (g := fun _ => y) fun a _ P' ha => hf a P' ha

theorem yields {b : β} {S : α → Multiset (Nat × V) → Prop} (h : Sim P m (some ()) fun a _ P' => S a P')
    (hS : ∀ a P', S a P' → Q a b P') : Sim P m (some b) Q := by
  have hpure := h.silent (f := Pure.pure) fun a P' ha => Sim.pure (hS a P' ha)
  rwa [bind_pure] at hpure

/-- The rest of the program does nothing but arrange its result. -/
theorem map {f : α → γ} {g : β → δ} (h : Sim P m x Q)
    (hfg : ∀ a b P', Q a b P' → R (f a) (g b) P') :
    Sim P (m >>= fun a => Pure.pure (f a)) (x.map g) R := by
  rw [Option.map_eq_bind]
  exact h.bind fun a b P' hab => Sim.pure (hfg a b P' hab)

theorem lift {y : Option α} {x : Option β} (h : Option.Rel (fun a b => Q a b P) y x) :
    Sim P (HeapM.lift y) x Q := by
  intro heap hP
  subst hP
  cases h with
  | none => exact Option.Rel.none
  | some h => exact Option.Rel.some h

theorem stuck : Sim P (HeapM.lift none : HeapM V α) (none : Option β) Q :=
  Sim.lift Option.Rel.none

/-- The same step on both sides. -/
theorem both {y : Option α} {f : α → HeapM V γ} {g : α → Option δ}
    (hfg : ∀ a, y = some a → Sim P (f a) (g a) R) :
    Sim P (HeapM.lift y >>= f) (y.bind g) R := by
  cases y with
  | none => exact Sim.bind (Q := fun _ _ _ => False) Sim.stuck fun _ _ _ h => h.elim
  | some a =>
    intro heap hP
    exact hfg a rfl heap hP

/-- The last step of the computation. -/
theorem last {y : Option α} {f : α → HeapM V γ} {R : γ → α → Multiset (Nat × V) → Prop}
    (hf : ∀ a, y = some a → Sim P (f a) (some a) R) : Sim P (HeapM.lift y >>= f) y R := by
  have hboth := Sim.both hf
  rwa [Option.bind_fun_some] at hboth

section Silent

variable {a : Nat} {v w : V} {y : Option δ}

theorem malloc {f : Nat → HeapM V γ} (h : ∀ a, Sim ({(a, v)} + P) (f a) y R) :
    Sim P (HeapM.malloc v >>= f) y R := by
  intro heap hP
  subst hP
  exact h heap.length (heap ++ [some v]) (Heap.blocks_append_some heap v)

theorem load {get : V → Option α} {u : α} {f : α → HeapM V γ} (hmem : (a, v) ∈ P)
    (hget : get v = some u) (h : Sim P (f u) y R) : Sim P (HeapM.loadAs get a >>= f) y R := by
  intro heap hP
  subst hP
  have hload := Heap.mem_blocks.mp hmem
  show Option.Rel _ ((((heap.load a).bind get).map fun u => (u, heap)).bind fun r => f r.1 r.2) _
  rw [hload, Option.bind_some, hget]
  exact h heap rfl

/-- The block at an address, taken out of the heap. -/
private theorem step {f : Unit → HeapM V γ} {act : Heap V → Heap V} (hP : P = {(a, v)} + F)
    (hact : ∀ heap : Heap V, heap.load a = some v →
      (act heap).blocks = P' + Heap.blocks (heap.set a none))
    (h : Sim (P' + F) (f ()) y R) :
    Sim P ((fun heap => (heap.load a).map fun _ => ((), act heap) : HeapM V Unit) >>= f) y R := by
  intro heap hblocks
  rw [hP] at hblocks
  have hload : heap.load a = some v := Heap.mem_blocks.mp (hblocks ▸ by simp)
  have hrest : Heap.blocks (heap.set a none) = F :=
    add_left_cancel ((Heap.blocks_eq_add hload).symm.trans hblocks)
  show Option.Rel _ (((heap.load a).map fun _ => ((), act heap)).bind fun r => f r.1 r.2) _
  rw [hload]
  exact h (act heap) (by rw [hact heap hload, hrest])

theorem store (v : V) {f : Unit → HeapM V γ} (F : Multiset (Nat × V)) (hP : P = {(a, v)} + F)
    (h : Sim ({(a, w)} + F) (f ()) y R) : Sim P (HeapM.store a w >>= f) y R :=
  step hP (fun _ hload => Heap.blocks_set_some hload w) h

theorem free (v : V) {f : Unit → HeapM V γ} (F : Multiset (Nat × V)) (hP : P = {(a, v)} + F)
    (h : Sim F (f ()) y R) : Sim P (HeapM.free a >>= f) y R :=
  step hP (fun _ _ => (zero_add _).symm) (by rwa [zero_add])

end Silent

/-! ## Loops -/

theorem foldlM {f : σ → γ → HeapM V σ} {g : τ → γ → Option τ}
    {I : σ → τ → Multiset (Nat × V) → Prop} {l : List γ}
    (hstep : ∀ c ∈ l, ∀ s t P, I s t P → Sim P (f s c) (g t c) I) {s : σ} {t : τ} (h : I s t P) :
    Sim P (l.foldlM f s) (l.foldlM g t) I := by
  induction l generalizing s t P with
  | nil => exact Sim.pure h
  | cons c l ih =>
    rw [List.foldlM_cons, List.foldlM_cons]
    refine Sim.bind (hstep c List.mem_cons_self s t P h) fun s' t' P' h' => ?_
    exact ih (fun c hc => hstep c (List.mem_cons_of_mem _ hc)) h'

theorem foldlM_range {f : σ → Nat → HeapM V σ} {g : τ → Nat → Option τ}
    (I : Nat → σ → τ → Multiset (Nat × V) → Prop) (n : Nat)
    (hstep : ∀ i < n, ∀ s t P, I i s t P → Sim P (f s i) (g t i) (I (i + 1))) {s : σ} {t : τ}
    (h : I 0 s t P) : Sim P ((List.range n).foldlM f s) ((List.range n).foldlM g t) (I n) := by
  induction n with
  | zero => exact Sim.pure h
  | succ n ih =>
    have hn := ih fun i hi => hstep i (Nat.lt_succ_of_lt hi)
    simp only [List.range_succ, List.foldlM_append, List.foldlM_cons, List.foldlM_nil, bind_pure]
    exact Sim.bind hn fun s' t' P' h' => hstep n (Nat.lt_succ_self n) s' t' P' h'

/-- A loop that the computation does not have. -/
theorem foldlM_silent {f : σ → Nat → HeapM V σ} (I : Nat → σ → Multiset (Nat × V) → Prop) (n : Nat)
    (hstep : ∀ i < n, ∀ s P, I i s P → Sim P (f s i) (some ()) fun s' _ P' => I (i + 1) s' P')
    {s : σ} (h : I 0 s P) :
    Sim P ((List.range n).foldlM f s) (some ()) fun s' _ P' => I n s' P' := by
  have hrange := Sim.foldlM_range (g := fun t (_ : Nat) => some t)
    (fun i s (_ : Unit) P => I i s P) n (fun i hi s _ P hs => hstep i hi s P hs) (t := ()) h
  have hnone : (List.range n).foldlM (fun t (_ : Nat) => some t) () = some () := by
    generalize List.range n = l
    induction l with
    | nil => rfl
    | cons i l ih => exact ih
  rwa [hnone] at hrange

theorem forever {body : σ → HeapM V (Step σ ρ)} {body' : τ → Option (Step τ ρ')}
    {I : σ → τ → Multiset (Nat × V) → Prop} {L : ρ → ρ' → Multiset (Nat × V) → Prop}
    (hstep : ∀ s t P, I s t P →
      Sim P (body s) (body' t) fun u u' P' =>
        Step.Rel (fun s t => I s t P') (fun r r' => L r r' P') u u')
    (fuel : Nat) {s : σ} {t : τ} (h : I s t P) :
    Sim P (HeapM.forever body fuel s) (Loop.forever body' fuel t) L := by
  induction fuel generalizing s t P with
  | zero => exact Sim.stuck
  | succ fuel ih =>
    intro heap hP
    have hrel := hstep s t P h heap hP
    rw [Loop.forever]
    show Option.Rel _ ((body s heap).bind _) _
    revert hrel
    generalize body s heap = y
    generalize body' t = y'
    intro hrel
    cases hrel with
    | none => exact Option.Rel.none
    | @some r u hu =>
      obtain ⟨u', heap'⟩ := r
      cases hu with
      | again hs => exact ih hs heap' rfl
      | leave hr => exact Option.Rel.some hr

end Sim

/-! ## Addresses -/

def Heap.Freed (h : Heap V) (a : Nat) : Prop := h[a]? = some none

theorem Heap.Freed.load {h : Heap V} {a : Nat} (hfreed : h.Freed a) : h.load a = none := by
  rw [Heap.load, hfreed]
  rfl

theorem Heap.Freed.set {h : Heap V} {a b : Nat} {v : V} (hfreed : h.Freed a)
    (hload : h.load b = some v) (x : Option V) : Heap.Freed (h.set b x) a := by
  have hne : b ≠ a := by
    rintro rfl
    rw [hfreed.load] at hload
    cases hload
  exact (List.getElem?_set_ne hne).trans hfreed

def Post (I : Heap V → Prop) (m : HeapM V α) (Q : α → Heap V → Prop) : Prop :=
  ∀ h, I h → ∀ r h', m h = some (r, h') → Q r h'

namespace Post

variable {I : Heap V → Prop} {m : HeapM V α} {Q : α → Heap V → Prop} {R : β → Heap V → Prop}

theorem pure {a : α} (h : ∀ heap, I heap → Q a heap) : Post I (Pure.pure a) Q := by
  intro heap hI r heap' heq
  cases heq
  exact h heap hI

theorem bind {f : α → HeapM V β} (h : Post I m Q) (hf : ∀ a, Post (Q a) (f a) R) :
    Post I (m >>= f) R := by
  intro heap hI r heap' heq
  obtain ⟨a, heap₁, hm, hfa⟩ := HeapM.bind_eq_some heq
  exact hf a heap₁ (h heap hI a heap₁ hm) r heap' hfa

theorem any : Post I m fun _ _ => True := fun _ _ _ _ _ => trivial

theorem lift {x : Option α} (h : ∀ a heap, I heap → Q a heap) : Post I (HeapM.lift x) Q := by
  intro heap hI r heap' heq
  obtain ⟨a, -, hra⟩ := Option.map_eq_some_iff.mp heq
  cases hra
  exact h r heap hI

theorem foldlM {f : σ → γ → HeapM V σ} {J : σ → Heap V → Prop} {l : List γ}
    (h : ∀ s, ∀ c ∈ l, Post (J s) (f s c) J) (s : σ) : Post (J s) (l.foldlM f s) J := by
  induction l generalizing s with
  | nil => exact Post.pure fun _ hJ => hJ
  | cons c l ih =>
    rw [List.foldlM_cons]
    exact (h s c List.mem_cons_self).bind
      fun s' => ih (fun s c hc => h s c (List.mem_cons_of_mem _ hc)) s'

abbrev KeepsFreed (a : Nat) (m : HeapM V α) : Prop := Post (·.Freed a) m fun _ h => h.Freed a

section Freed

variable {a : Nat}

/-- An address is handed out once. -/
theorem malloc_freed (v : V) : KeepsFreed a (HeapM.malloc v) := by
  intro heap hfreed r heap' heq
  cases heq
  have hlt := (List.getElem?_eq_some_iff.mp hfreed).1
  exact (List.getElem?_append_left hlt).trans hfreed

theorem loadAs_freed (get : V → Option α) (b : Nat) : KeepsFreed a (HeapM.loadAs get b) := by
  intro heap hfreed r heap' heq
  obtain ⟨u, -, hu⟩ := Option.map_eq_some_iff.mp heq
  cases hu
  exact hfreed

theorem store_freed (b : Nat) (v : V) : KeepsFreed a (HeapM.store b v) := by
  intro heap hfreed r heap' heq
  obtain ⟨w, hload, hw⟩ := Option.map_eq_some_iff.mp heq
  cases hw
  exact hfreed.set hload _

theorem free_freed (b : Nat) : KeepsFreed a (HeapM.free (V := V) b) := by
  intro heap hfreed r heap' heq
  obtain ⟨w, hload, hw⟩ := Option.map_eq_some_iff.mp heq
  cases hw
  exact hfreed.set hload _

theorem free_self : Post (fun _ : Heap V => True) (HeapM.free a) fun _ h => h.Freed a := by
  intro heap _ r heap' heq
  obtain ⟨w, hload, hw⟩ := Option.map_eq_some_iff.mp heq
  cases hw
  have hlt := (List.getElem?_eq_some_iff.mp (Option.join_eq_some_iff.mp hload)).1
  exact List.getElem?_set_self hlt

end Freed

end Post

end IndexedHash
