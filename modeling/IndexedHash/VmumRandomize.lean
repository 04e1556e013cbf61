import IndexedHash.Vmum

/-!
# `vmum_hash_randomize`

The factors may be replaced by random ones.  `_vmum_next_factor` makes a factor of the low
bytes of eight values of `rand`, the first of them highest, and `vmum_hash_randomize` replaces
every factor in turn.  The generator of the C library is a parameter here: a state, what
`srand` makes of its argument, and what `rand` returns and does to the state.

Whatever the factors were before, afterwards they are the bytes that `rand` gave, in their order
and each of them once (`vmum_hash_randomize_bytes`).  Only two factors that nothing reads use up
bytes as well.  The seed has 64 bits, of which `srand` takes 32.
-/

namespace IndexedHash

open ByteWord

/-- The generator of the C library; the values of `rand` are not negative. -/
structure Rand where
  State : Type
  srand : BitVec 32 → State
  rand : State → Nat × State

variable (R : Rand)

/-- `start = (start << 8) | rand () % 256;` -/
def shiftRand (p : BitVec 64 × R.State) : BitVec 64 × R.State :=
  ((p.1 <<< 8) ||| BitVec.ofNat 64 ((R.rand p.2).1 % 256), (R.rand p.2).2)

/-- `_vmum_next_factor` -/
def vmumNextFactor (s : R.State) : BitVec 64 × R.State :=
  (List.range 8).foldl (fun p _ => shiftRand R p) (0, s)

/-- `v[i] = _vmum_next_factor ();` -/
def setFactor {n : Nat} (p : Vector (BitVec 64) n × R.State) (i : Nat) : Vector (BitVec 64) n × R.State :=
  (p.1.setIfInBounds i (vmumNextFactor R p.2).1, (vmumNextFactor R p.2).2)

/-- `for (i = 0; i < n; i++) v[i] = _vmum_next_factor ();` -/
def fillFactors {n : Nat} (v : Vector (BitVec 64) n) (s : R.State) : Vector (BitVec 64) n × R.State :=
  (List.range n).foldl (setFactor R) (v, s)

/-- `vmum_hash_randomize`, on the factors that are read.  `finish1` and `finish2` go to
    `_vmum_finish_factor1` and `_vmum_finish_factor2`. -/
def vmumHashRandomize (seed : BitVec 64) (fs : VmumFactors) : VmumFactors :=
  let s := R.srand (seed.setWidth 32)
  let (hashStep, s) := vmumNextFactor R s
  let (keyStep, s) := vmumNextFactor R s
  let (_finish1, s) := vmumNextFactor R s
  let (_finish2, s) := vmumNextFactor R s
  let (blockStart, s) := vmumNextFactor R s
  let (tail, s) := vmumNextFactor R s
  let (unroll, s) := fillFactors R fs.unroll s
  let (factors, _) := fillFactors R fs.factors s
  { hashStep := hashStep, keyStep := keyStep, blockStart := blockStart, tail := tail,
    unroll := unroll, factors := factors }

/-! ## The bytes of the generator -/

def Rand.tape : Nat → R.State → List (BitVec 8) × R.State
  | 0, s => ([], s)
  | n + 1, s => (BitVec.ofNat 8 (R.rand s).1 :: (Rand.tape n (R.rand s).2).1, (Rand.tape n (R.rand s).2).2)

variable {R}

theorem Rand.tape_add (m n : Nat) (s : R.State) :
    R.tape (m + n) s = ((R.tape m s).1 ++ (R.tape n (R.tape m s).2).1, (R.tape n (R.tape m s).2).2) := by
  induction m generalizing s with
  | zero => rw [Nat.zero_add]; rfl
  | succ m ih => rw [Nat.succ_add, Rand.tape, ih]; rfl

theorem Rand.tape_bytes (m n : Nat) (s : R.State) :
    (R.tape (m + n) s).1 = (R.tape m s).1 ++ (R.tape n (R.tape m s).2).1 := by
  rw [Rand.tape_add]

theorem Rand.tape_state (m n : Nat) (s : R.State) :
    (R.tape n (R.tape m s).2).2 = (R.tape (m + n) s).2 := by
  rw [Rand.tape_add]

theorem Rand.length_tape (n : Nat) (s : R.State) : (R.tape n s).1.length = n := by
  induction n generalizing s with
  | zero => rfl
  | succ n ih => exact congrArg (· + 1) (ih _)

/-- `n` rounds of the loop of `_vmum_next_factor` shift `n` bytes in from the right. -/
theorem shiftRand_rounds (n : Nat) (bs : List (BitVec 8)) (s : R.State) :
    (List.range n).foldl (fun p _ => shiftRand R p) (loadLE bs.reverse, s)
      = (loadLE (bs ++ (R.tape n s).1).reverse, (R.tape n s).2) := by
  induction n with
  | zero => rw [Rand.tape, List.append_nil]; rfl
  | succ n ih =>
    have hbyte : (BitVec.ofNat 8 (R.rand (R.tape n s).2).1).setWidth 64
        = BitVec.ofNat 64 ((R.rand (R.tape n s).2).1 % 256) := by
      apply BitVec.eq_of_toNat_eq
      simp
    rw [List.range_succ, List.foldl_append, ih, Rand.tape_add, List.foldl_cons, List.foldl_nil,
      shiftRand, ← hbyte, ← loadLE_cons, ← List.append_assoc, @List.reverse_append _ (bs ++ _)]
    rfl

theorem vmumNextFactor_eq (s : R.State) :
    vmumNextFactor R s = (loadLE (R.tape 8 s).1.reverse, (R.tape 8 s).2) :=
  shiftRand_rounds 8 [] s

/-- The factor is the next eight bytes of the generator. -/
theorem bigEndianBytes_vmumNextFactor (s : R.State) :
    bigEndianBytes (vmumNextFactor R s).1 = (R.tape 8 s).1 := by
  rw [vmumNextFactor_eq]
  exact bigEndianBytes_loadLE (Rand.length_tape 8 s)

/-- After `k` rounds the first `k` factors are the next `8 * k` bytes. -/
theorem setFactor_rounds {n : Nat} (v : Vector (BitVec 64) n) (s : R.State) {k : Nat} (hk : k ≤ n) :
    (((List.range k).foldl (setFactor R) (v, s)).1.toList.take k).flatMap bigEndianBytes
        = (R.tape (8 * k) s).1
      ∧ ((List.range k).foldl (setFactor R) (v, s)).2 = (R.tape (8 * k) s).2 := by
  induction k with
  | zero => exact ⟨rfl, rfl⟩
  | succ k ih =>
    rcases ih (Nat.le_of_succ_le hk) with ⟨hbytes, hstate⟩
    rw [List.range_succ, List.foldl_append, List.foldl_cons, List.foldl_nil, Nat.mul_succ, Rand.tape_add,
      setFactor]
    constructor
    · rw [Vector.toList_setIfInBounds, List.take_add_one, List.take_set_of_le (Nat.le_refl k),
        List.getElem?_set_self (by rw [Vector.length_toList]; exact hk), List.flatMap_append, hbytes,
        Option.toList_some, List.flatMap_singleton, bigEndianBytes_vmumNextFactor, hstate]
    · rw [hstate, vmumNextFactor_eq]

theorem fillFactors_bytes {n : Nat} (v : Vector (BitVec 64) n) (s : R.State) :
    (fillFactors R v s).1.toList.flatMap bigEndianBytes = (R.tape (8 * n) s).1 := by
  have h := (setFactor_rounds v s (Nat.le_refl n)).1
  rwa [List.take_of_length_le (Nat.le_of_eq (Vector.length_toList))] at h

theorem fillFactors_state {n : Nat} (v : Vector (BitVec 64) n) (s : R.State) :
    (fillFactors R v s).2 = (R.tape (8 * n) s).2 :=
  (setFactor_rounds v s (Nat.le_refl n)).2

def VmumFactors.toList (fs : VmumFactors) : List (BitVec 64) :=
  [fs.hashStep, fs.keyStep, fs.blockStart, fs.tail] ++ fs.unroll.toList ++ fs.factors.toList

theorem VmumFactors.toList_injective : Function.Injective VmumFactors.toList := by
  intro fs fs' h
  rcases List.append_inj' h (by simp) with ⟨h', hfactors⟩
  rcases List.append_inj' h' (by simp) with ⟨hfour, hunroll⟩
  cases fs
  cases fs'
  simp_all [Vector.toList_inj]

theorem vmumHashRandomize_bytes (seed : BitVec 64) (fs : VmumFactors) :
    (vmumHashRandomize R seed fs).toList.flatMap bigEndianBytes
      = (R.tape 16 (R.srand (seed.setWidth 32))).1
          ++ (R.tape 688 (R.tape 32 (R.srand (seed.setWidth 32))).2).1 := by
  have hstate (s : R.State) : (vmumNextFactor R s).2 = (R.tape 8 s).2 := by rw [vmumNextFactor_eq]
  rw [Rand.tape_bytes 8 8, Rand.tape_bytes 8 680, Rand.tape_bytes 8 672, Rand.tape_bytes 32 640]
  simp only [vmumHashRandomize, VmumFactors.toList, List.flatMap_append, List.flatMap_cons,
    List.flatMap_nil, bigEndianBytes_vmumNextFactor, fillFactors_bytes, fillFactors_state, hstate,
    Rand.tape_state, List.append_assoc, List.append_nil, Nat.reduceMul, Nat.reduceAdd]

/-- The factors become the bytes of the generator: sixteen for the first two, sixteen that are lost
    to the finish factors, and the next 688 for the others.  So neither the factors before the call
    nor the upper half of the seed are left in them. -/
theorem vmum_hash_randomize_bytes (R : Rand) (seed : BitVec 64) (fs fs' : VmumFactors) :
    (vmumHashRandomize R seed fs).toList.flatMap bigEndianBytes
        = (R.tape 16 (R.srand (seed.setWidth 32))).1
            ++ (R.tape 688 (R.tape 32 (R.srand (seed.setWidth 32))).2).1
      ∧ vmumHashRandomize R seed fs = vmumHashRandomize R ((seed.setWidth 32).setWidth 64) fs' := by
  constructor
  · exact vmumHashRandomize_bytes seed fs
  · apply VmumFactors.toList_injective
    apply flatMap_bigEndianBytes_injective
    have hseed : ((seed.setWidth 32).setWidth 64).setWidth 32 = seed.setWidth 32 := by
      rw [BitVec.setWidth_setWidth_of_le _ (by decide), BitVec.setWidth_eq]
    rw [vmumHashRandomize_bytes, vmumHashRandomize_bytes, hseed]

end IndexedHash
