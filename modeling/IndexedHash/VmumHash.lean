import Mathlib.Tactic.IntervalCases
import IndexedHash.Accesses
import IndexedHash.VmumBlock

/-!
# `_vmum_hash_aligned`

The function as a program of accesses: the bytes of the key, by their offsets, and the
entries of `_vmum_factors`, by their indices.  A pass of the block loop takes 512 bytes, a
pass of the word loop 128 and one of the pair loop 16; what is left is at most 15 bytes,
which the `switch` takes.  The loops over words move `i` and leave `str` where it is, so
that the place they have reached is `str + 8 * i`.

`vmum_hash_aligned_reads`: on a key of any length every byte of it is read once, nothing
else is read, and every index into `_vmum_factors` is below 80.
-/

namespace IndexedHash

open Accesses

/-! ## Accesses -/

inductive Access where
  /-- the byte of the key at an offset -/
  | key (o : Nat)
  /-- `_vmum_factors[i]` -/
  | factor (i : Nat)
deriving DecidableEq, Repr

def Access.Answer : Access → Type
  | .key _ => BitVec 8
  | .factor _ => BitVec 64

abbrev Code := Prog Access.Answer

def memory (fs : VmumFactors) (bytes : Nat → Option (BitVec 8)) :
    (q : Access) → Option q.Answer
  | .key o => bytes o
  | .factor i => fs.factors[i]?

def byte (o : Nat) : Code (BitVec 8) := Prog.query (Access.key o)

def factor (i : Nat) : Code (BitVec 64) := Prog.query (Access.factor i)

def readBytes : Nat → Nat → Code (List (BitVec 8))
  | 0, _ => pure []
  | n + 1, o => do
      let b ← byte o
      let bs ← readBytes n (o + 1)
      pure (b :: bs)

/-! ## The code -/

section Code

variable (cfg : VmumConfig) (fs : VmumFactors) (ops : BlockOps)

def load (n o : Nat) : Code (BitVec 64) := do
  let bytes ← readBytes n o
  pure (cfg.byteOrder.load bytes)

/-- `_vmum_le (*(uint64_t *) p)` -/
def loadLe (o : Nat) : Code (BitVec 64) := do
  let v ← load cfg 8 o
  pure (vmumLe cfg v)

/-- `_vmum_le32 (*(uint32_t *) p)` -/
def loadLe32 (o : Nat) : Code (BitVec 64) := do
  let v ← load cfg 4 o
  pure ((vmumLe32 cfg (v.setWidth 32)).setWidth 64)

/-- `_vmum_le16 (*(uint16_t *) p)` -/
def loadLe16 (o : Nat) : Code (BitVec 64) := do
  let v ← load cfg 2 o
  pure (vmumLe16 cfg (v.setWidth 16))

/-- `(uint64_t) *p` -/
def loadByte (o : Nat) : Code (BitVec 64) := do
  let b ← byte o
  pure (b.setWidth 64)

/-! ### The block loop -/

def keyBlock (o : Nat) : Code ops.Block := do
  let w0 ← load cfg 8 o
  let w1 ← load cfg 8 (o + 8)
  let w2 ← load cfg 8 (o + 16)
  let w3 ← load cfg 8 (o + 24)
  pure (ops.ofWords #v[w0, w1, w2, w3])

/-- `((_vmum_block_t *) _vmum_factors)[i]` -/
def factorsBlock (i : Nat) : Code ops.Block := do
  let p0 ← factor (4 * i)
  let p1 ← factor (4 * i + 1)
  let p2 ← factor (4 * i + 2)
  let p3 ← factor (4 * i + 3)
  pure (ops.ofWords #v[p0, p1, p2, p3])

structure BlockLoop (ops : BlockOps) where
  blockState : ops.Block
  str : Nat
  i : Nat
  len : Nat

/-- The body of the `for` loop, and `i += 2`. -/
def blockUpdate (l : BlockLoop ops) : Code (BlockLoop ops) := do
  let v ← keyBlock cfg ops (l.str + 32 * l.i)
  let v2 ← keyBlock cfg ops (l.str + 32 * (l.i + 1))
  let p ← factorsBlock ops l.i
  let p2 ← factorsBlock ops (l.i + 1)
  pure { l with blockState := ops.updateBlock l.blockState v v2 p p2, i := l.i + 2 }

/-- The number of passes of `for (j = 0; j < n; j += 2)`. -/
def passes (n : Nat) : Nat := (n + 1) / 2

/-- The body of the `do` loop; 512 is `_VMUM_UNROLL_BLOCK_FACTOR * sizeof (_vmum_block_t)`. -/
def blockPass (l : BlockLoop ops) : Code (BlockLoop ops) := do
  let l ← Prog.iterate (blockUpdate cfg ops) (passes 16) { l with i := 0 }
  pure { l with
    len := l.len - 512, str := l.str + 512,
    blockState := ops.factorBlock l.blockState (ops.ofWords fs.unroll) }

structure WordLoop where
  state : BitVec 64
  str : Nat
  i : Nat
  len : Nat

def blockLoop (state : BitVec 64) (len : Nat) : Code WordLoop :=
  if 512 ≤ len then do
    let l ← blockPass cfg fs ops ⟨ops.zeroBlock, 0, 0, len⟩
    let l ← Prog.whileLoop (fun l => 512 ≤ l.len) (blockPass cfg fs ops) len l
    pure ⟨state + ops.foldBlock l.blockState, l.str, 0, l.len⟩
  else pure ⟨state, 0, 0, len⟩

/-! ### The loops over words -/

/-- A pair of words of the key; `combine` is `_vmum_xor` or `_vmum_plus`. -/
def wordPair (combine : BitVec 64 → BitVec 64 → BitVec 64) (l : WordLoop) : Code WordLoop := do
  let v ← loadLe cfg (l.str + 8 * l.i)
  let p ← factor l.i
  let v2 ← loadLe cfg (l.str + 8 * (l.i + 1))
  let p2 ← factor (l.i + 1)
  pure { l with state := l.state ^^^ vmum cfg (combine v p) (combine v2 p2), i := l.i + 2 }

/-- The body of the `while` loop; 128 is `_VMUM_UNROLL_FACTOR * sizeof (uint64_t)`. -/
def wordPass (l : WordLoop) : Code WordLoop := do
  let l ← Prog.iterate (wordPair cfg (vmumXor cfg)) (passes 16) l
  pure { l with len := l.len - 128 }

/-- `len / sizeof (uint64_t) & ~(size_t) 1` -/
def pairCount (len : Nat) : Nat :=
  (BitVec.ofNat cfg.sizeBits (len / 8) &&& ~~~ BitVec.ofNat cfg.sizeBits 1).toNat

def wordLoops (l : WordLoop) : Code WordLoop := do
  let l ← Prog.whileLoop (fun l => 128 ≤ l.len) (wordPass cfg) (l.len + 1) l
  let n := pairCount cfg l.len
  let l ← Prog.iterate (wordPair cfg (vmumPlus cfg)) (passes n) l
  pure { l with len := l.len - n * 8, str := l.str + l.i * 8 }

/-! ### The switch -/

/-- `u64` of a tail of one to seven bytes at `p`, from the factor `f`. -/
def tailBytes (r : Nat) (f : BitVec 64) (p : Nat) : Code (BitVec 64) :=
  match r with
  | 7 => do
      let a ← loadLe32 cfg p
      let b ← loadLe16 cfg (p + 4)
      let c ← loadByte (p + 6)
      pure (f + a + ((b <<< 32) + (c <<< 48)))
  | 6 => do
      let a ← loadLe32 cfg p
      let b ← loadLe16 cfg (p + 4)
      pure (f + a + (b <<< 32))
  | 5 => do
      let a ← loadLe32 cfg p
      let c ← loadByte (p + 4)
      pure (f + a + (c <<< 32))
  | 4 => do
      let a ← loadLe32 cfg p
      pure (f + a)
  | 3 => do
      let b ← loadLe16 cfg p
      let c ← loadByte (p + 2)
      pure (f + b + (c <<< 16))
  | 2 => do
      let b ← loadLe16 cfg p
      pure (f + b)
  | 1 => do
      let c ← loadByte p
      pure (f + c)
  | _ => pure f

def tailLong (r k : Nat) (l : WordLoop) : Code (BitVec 64) := do
  let v ← loadLe cfg l.str
  let p ← factor l.i
  let f ← factor (l.i + k)
  let u64 ← tailBytes cfg r f (l.str + 8)
  pure (l.state ^^^ vmum cfg (u64 ^^^ fs.tail) (vmumPlus cfg v p))

def tailShort (r k : Nat) (l : WordLoop) : Code (BitVec 64) := do
  let f ← factor (l.i + k)
  let u64 ← tailBytes cfg r f l.str
  pure (l.state ^^^ vmum cfg u64 fs.tail)

/-- `switch (len)` -/
def switchLen (l : WordLoop) : Code (BitVec 64) :=
  match l.len with
  | 15 => tailLong cfg fs 7 1 l
  | 14 => tailLong cfg fs 6 2 l
  | 13 => tailLong cfg fs 5 3 l
  | 12 => tailLong cfg fs 4 4 l
  | 11 => tailLong cfg fs 3 5 l
  | 10 => tailLong cfg fs 2 6 l
  | 9 => tailLong cfg fs 1 7 l
  | 8 => do
      let v ← loadLe cfg l.str
      let p ← factor l.i
      let p' ← factor l.i
      pure (l.state ^^^ vmum cfg (v + p) p')
  | 7 => tailShort cfg fs 7 1 l
  | 6 => tailShort cfg fs 6 2 l
  | 5 => tailShort cfg fs 5 3 l
  | 4 => tailShort cfg fs 4 4 l
  | 3 => tailShort cfg fs 3 5 l
  | 2 => tailShort cfg fs 2 6 l
  | 1 => tailShort cfg fs 1 7 l
  | _ => pure l.state

/-- The part of `_vmum_hash_aligned` before the `switch`. -/
def hashLoops (start : BitVec 64) (len : Nat) : Code WordLoop := do
  let l ← blockLoop cfg fs ops (vmum cfg start fs.blockStart) len
  wordLoops cfg l

/-- `_vmum_hash_aligned`, by its accesses -/
def hashAligned (start : BitVec 64) (len : Nat) : Code (BitVec 64) := do
  let l ← hashLoops cfg fs ops start len
  switchLen cfg fs l

/-- `_vmum_hash_aligned` on a key in memory -/
def vmumHashAligned (start : BitVec 64) (bytes : Nat → Option (BitVec 8)) (len : Nat) :
    Option (BitVec 64) :=
  ((hashAligned cfg fs ops start len).run (memory fs bytes)).map Prod.fst

end Code

/-! ## What the code reads -/

/-- The bytes from `lo` up to `hi` are read once each, no other is, and the indices are
    within `_vmum_factors`. -/
def coverage : Journey Access Nat where
  leads lo hi qs :=
    lo ≤ hi ∧ (∀ o, qs.count (.key o) = if lo ≤ o ∧ o < hi then 1 else 0) ∧
      ∀ i, Access.factor i ∈ qs → i < 80
  nil lo := by
    refine ⟨Nat.le_refl lo, fun o => ?_, fun i hi => ?_⟩
    · rw [if_neg (by omega)]
      rfl
    · cases hi
  append := by
    rintro lo mid hi qs qs' ⟨hle, hcount, hfactor⟩ ⟨hle', hcount', hfactor'⟩
    refine ⟨Nat.le_trans hle hle', fun o => ?_, fun i hi => ?_⟩
    · rw [List.count_append, hcount, hcount']
      split <;> split <;> split <;> omega
    · rcases List.mem_append.mp hi with h | h
      · exact hfactor i h
      · exact hfactor' i h

/-- `x & ~1` is `x` rounded down to an even number. -/
theorem toNat_and_not_one {w : Nat} (x : BitVec w) :
    (x &&& ~~~ BitVec.ofNat w 1).toNat = 2 * (x.toNat / 2) := by
  have hshift : 2 * (x.toNat / 2) = x.toNat >>> 1 <<< 1 := by
    rw [Nat.shiftLeft_eq, Nat.shiftRight_eq_div_pow, Nat.mul_comm]
  rw [hshift]
  apply Nat.eq_of_testBit_eq
  intro j
  rw [BitVec.testBit_toNat, BitVec.getLsbD_and, BitVec.getLsbD_not, BitVec.getLsbD_one,
    Nat.testBit_shiftLeft, Nat.testBit_shiftRight, BitVec.testBit_toNat]
  cases j with
  | zero => simp
  | succ j =>
    rw [Nat.add_sub_cancel, Nat.add_comm 1 j]
    rcases Nat.lt_or_ge (j + 1) w with hj | hj
    · simp [hj]
    · simp [BitVec.getLsbD_of_ge x (j + 1) hj]

theorem pairCount_eq (cfg : VmumConfig) {len : Nat} (hlen : len < 128) :
    pairCount cfg len = 2 * (len / 16) := by
  have hlt : len / 8 < 2 ^ cfg.sizeBits :=
    Nat.lt_of_lt_of_le (by omega : len / 8 < 2 ^ 16)
      (Nat.pow_le_pow_right (by decide) cfg.sizeBits_ge)
  rw [pairCount, toNat_and_not_one, BitVec.toNat_ofNat, Nat.mod_eq_of_lt hlt]
  omega

/-! ## What the code mixes into the state -/

def keyWord (cfg : VmumConfig) (key : Nat → BitVec 8) (n o : Nat) : BitVec 64 :=
  cfg.byteOrder.load ((List.range' o n).map key)

def factorAt (fs : VmumFactors) (i : Nat) : BitVec 64 := fs.factors[i]?.getD 0

/-- A property of the state that survives what the loops over words and the `switch` mix
    into it. -/
structure Kept (cfg : VmumConfig) (fs : VmumFactors) (key : Nat → BitVec 8)
    (S : BitVec 64 → Prop) : Prop where
  pair : ∀ combine, combine = vmumXor cfg ∨ combine = vmumPlus cfg → ∀ s o o' i i', S s →
    S (s ^^^ vmum cfg (combine (vmumLe cfg (keyWord cfg key 8 o)) (factorAt fs i))
      (combine (vmumLe cfg (keyWord cfg key 8 o')) (factorAt fs i')))
  long : ∀ s o i u, S s →
    S (s ^^^ vmum cfg u (vmumPlus cfg (vmumLe cfg (keyWord cfg key 8 o)) (factorAt fs i)))
  eight : ∀ s i u, S s → S (s ^^^ vmum cfg u (factorAt fs i))
  short : ∀ s u, S s → S (s ^^^ vmum cfg u fs.tail)

/-- The bytes of a key that is there. -/
theorem eq_some_getD {bytes : Nat → Option (BitVec 8)} {size : Nat}
    (h : ∀ o < size, ∃ b, bytes o = some b) :
    ∀ o < size, bytes o = some ((bytes o).getD 0) := by
  intro o ho
  obtain ⟨b, hb⟩ := h o ho
  rw [hb, Option.getD_some]

theorem kept_true (cfg : VmumConfig) (fs : VmumFactors) (key : Nat → BitVec 8) :
    Kept cfg fs key fun _ => True :=
  ⟨fun _ _ _ _ _ _ _ _ => trivial, fun _ _ _ _ _ => trivial, fun _ _ _ _ => trivial,
    fun _ _ _ => trivial⟩

/-- The state of a block is the product of a pass with `_vmum_unroll_factors`. -/
def BlockLoop.Factored {ops : BlockOps} (fs : VmumFactors) (l : BlockLoop ops) : Prop :=
  ∃ b, l.blockState = ops.factorBlock b (ops.ofWords fs.unroll)

section Reads

variable {cfg : VmumConfig} {fs : VmumFactors} {ops : BlockOps}
  {bytes : Nat → Option (BitVec 8)} {key : Nat → BitVec 8} {size : Nat}

abbrev Reads {α : Type} (fs : VmumFactors) (bytes : Nat → Option (BitVec 8)) (lo hi : Nat)
    (x : Code α) (P : α → Prop) : Prop :=
  Moves coverage (memory fs bytes) lo hi x P

theorem factor_reads {lo i : Nat} (hi : i < 80) :
    Reads fs bytes lo lo (factor i) fun p => p = factorAt fs i := by
  have hmem : memory fs bytes (.factor i) = some fs.factors[i] := Vector.getElem?_eq_getElem hi
  have hfactor : fs.factors[i] = factorAt fs i := by
    rw [factorAt, Vector.getElem?_eq_getElem hi]
    rfl
  refine Moves.query hmem hfactor ⟨Nat.le_refl lo, fun o => ?_, fun i' hi' => ?_⟩
  · rw [if_neg (by omega)]
    rfl
  · rcases List.mem_singleton.mp hi' with ⟨⟩
    exact hi

variable (hbytes : ∀ o < size, bytes o = some (key o))

include hbytes

theorem byte_reads {o : Nat} (ho : o + 1 ≤ size) :
    Reads fs bytes o (o + 1) (byte o) fun b => b = key o := by
  have hmem : memory fs bytes (.key o) = some (key o) := hbytes o ho
  refine Moves.query hmem rfl ⟨Nat.le_succ o, fun o' => ?_, fun i hi => ?_⟩
  · rw [List.count_singleton]
    rcases eq_or_ne o o' with rfl | hne
    · rw [if_pos (by simp), if_pos (by omega)]
    · rw [if_neg (by simpa using hne), if_neg (by omega)]
  · cases List.mem_singleton.mp hi

theorem readBytes_reads (n : Nat) {o : Nat} (ho : o + n ≤ size) :
    Reads fs bytes o (o + n) (readBytes n o) fun bs => bs = (List.range' o n).map key := by
  induction n generalizing o with
  | zero => exact Moves.ret rfl
  | succ n ih =>
    refine Moves.bind (byte_reads hbytes (by omega)) fun b hb => ?_
    rw [show o + (n + 1) = o + 1 + n by omega]
    refine Moves.bind (ih (by omega)) fun bs hbs => Moves.ret ?_
    rw [hb, hbs, List.range'_succ, List.map_cons]

theorem load_reads (n : Nat) {o : Nat} (ho : o + n ≤ size) :
    Reads fs bytes o (o + n) (load cfg n o) fun v => v = keyWord cfg key n o :=
  Moves.bind (readBytes_reads hbytes n ho) fun _ hbs => Moves.ret (congrArg _ hbs)

theorem loadLe_reads {o : Nat} (ho : o + 8 ≤ size) :
    Reads fs bytes o (o + 8) (loadLe cfg o) fun v => v = vmumLe cfg (keyWord cfg key 8 o) :=
  Moves.bind (load_reads hbytes 8 ho) fun _ hv => Moves.ret (congrArg _ hv)

theorem loadLe32_reads {o : Nat} (ho : o + 4 ≤ size) :
    Reads fs bytes o (o + 4) (loadLe32 cfg o) fun _ => True :=
  Moves.bind (load_reads hbytes 4 ho) fun _ _ => Moves.ret trivial

theorem loadLe16_reads {o : Nat} (ho : o + 2 ≤ size) :
    Reads fs bytes o (o + 2) (loadLe16 cfg o) fun _ => True :=
  Moves.bind (load_reads hbytes 2 ho) fun _ _ => Moves.ret trivial

theorem loadByte_reads {o : Nat} (ho : o + 1 ≤ size) :
    Reads fs bytes o (o + 1) (loadByte o) fun _ => True :=
  Moves.bind (byte_reads hbytes ho) fun _ _ => Moves.ret trivial

/-! ### The block loop -/

theorem keyBlock_reads {o : Nat} (ho : o + 32 ≤ size) :
    Reads fs bytes o (o + 32) (keyBlock cfg ops o) fun _ => True := by
  refine Moves.bind (load_reads hbytes 8 (by omega)) fun _ _ => ?_
  refine Moves.bind (load_reads hbytes 8 (by omega)) fun _ _ => ?_
  refine Moves.bind (load_reads hbytes 8 (by omega)) fun _ _ => ?_
  exact Moves.bind (load_reads hbytes 8 (by omega)) fun _ _ => Moves.ret trivial

omit hbytes in
theorem factorsBlock_reads {lo i : Nat} (hi : i < 20) :
    Reads fs bytes lo lo (factorsBlock ops i) fun _ => True := by
  refine Moves.bind (factor_reads (by omega)) fun _ _ => ?_
  refine Moves.bind (factor_reads (by omega)) fun _ _ => ?_
  refine Moves.bind (factor_reads (by omega)) fun _ _ => ?_
  exact Moves.bind (factor_reads (by omega)) fun _ _ => Moves.ret trivial

theorem blockUpdate_reads {l : BlockLoop ops} (hl : l.str + 32 * (l.i + 2) ≤ size) (hi : l.i < 16) :
    Reads fs bytes (l.str + 32 * l.i) (l.str + 32 * (l.i + 2)) (blockUpdate cfg ops l) fun l' =>
      l'.str = l.str ∧ l'.i = l.i + 2 ∧ l'.len = l.len := by
  refine Moves.bind (keyBlock_reads hbytes (by omega)) fun _ _ => ?_
  refine Moves.bind (keyBlock_reads hbytes (by omega)) fun _ _ => ?_
  refine Moves.bind (factorsBlock_reads (by omega)) fun _ _ => ?_
  refine Moves.bind (factorsBlock_reads (by omega)) fun _ _ => ?_
  exact Moves.ret ⟨rfl, rfl, rfl⟩

theorem blockPass_reads {l : BlockLoop ops} (hl : l.str + 512 ≤ size) :
    Reads fs bytes l.str (l.str + 512) (blockPass cfg fs ops l) fun l' =>
      l'.str = l.str + 512 ∧ l'.len = l.len - 512 ∧ l'.Factored fs := by
  have hfor : Reads fs bytes l.str (l.str + 512)
      (Prog.iterate (blockUpdate cfg ops) (passes 16) { l with i := 0 })
      fun l' => l'.str = l.str ∧ l'.i = 16 ∧ l'.len = l.len := by
    refine Moves.iterate
      (fun k (l' : BlockLoop ops) => l'.str = l.str ∧ l'.i = 2 * k ∧ l'.len = l.len)
      (fun k => l.str + 64 * k) ⟨rfl, rfl, rfl⟩ ?_
    rintro k hk l' ⟨hstr, hi, hlen⟩
    have hk8 : k < 8 := hk
    apply (blockUpdate_reads hbytes (l := l') (by omega) (by omega)).conseq
    · omega
    · omega
    · rintro l'' ⟨hstr', hi', hlen'⟩
      omega
  refine Moves.bind hfor fun l' hl' => Moves.ret ?_
  exact ⟨congrArg (· + 512) hl'.1, congrArg (· - 512) hl'.2.2, l'.blockState, rfl⟩

/-- The passes after the first: pass `k` of the `while` is pass `k + 1` of the code. -/
theorem blockPasses_reads {l : BlockLoop ops} (hsize : 512 ≤ size)
    (hl : l.str = 512 ∧ l.len = size - 512 ∧ l.Factored fs) :
    Reads fs bytes 512 (512 * (size / 512))
      (Prog.whileLoop (fun l => 512 ≤ l.len) (blockPass cfg fs ops) size l) fun l' =>
        l'.str = 512 * (size / 512) ∧ l'.len = size % 512 ∧ l'.Factored fs := by
  refine (Moves.whileLoop (fun k (l' : BlockLoop ops) =>
      l'.str = 512 * (k + 1) ∧ l'.len = size - 512 * (k + 1) ∧ l'.Factored fs)
    (fun k => 512 * (k + 1)) hl (by omega : size / 512 - 1 < size) ?_ ?_).conseq ?_ ?_ ?_
  · rintro k hk l' ⟨hstr, hlen, -⟩
    refine ⟨decide_eq_true (by omega), ?_⟩
    apply (blockPass_reads hbytes (l := l') (by omega)).conseq
    · exact hstr
    · omega
    · rintro l'' ⟨hstr', hlen', hb⟩
      refine ⟨hstr'.trans ?_, hlen'.trans ?_, hb⟩ <;> omega
  · rintro l' ⟨-, hlen, -⟩
    exact decide_eq_false (by omega)
  · rfl
  · omega
  · rintro l' ⟨hstr, hlen, hb⟩
    exact ⟨by omega, by omega, hb⟩

theorem blockLoop_reads {S : BitVec 64 → Prop} {state : BitVec 64} (hstate : S state)
    (hfold : ∀ b, S (state + ops.foldBlock (ops.factorBlock b (ops.ofWords fs.unroll)))) :
    Reads fs bytes 0 (512 * (size / 512)) (blockLoop cfg fs ops state size) fun l =>
      S l.state ∧ l.i = 0 ∧ l.str = 512 * (size / 512) ∧ l.len = size % 512 := by
  rw [blockLoop]
  split
  · rename_i hsize
    have hfirst : Reads fs bytes 0 512 (blockPass cfg fs ops ⟨ops.zeroBlock, 0, 0, size⟩)
        fun l => l.str = 512 ∧ l.len = size - 512 ∧ l.Factored fs := by
      apply (blockPass_reads hbytes (l := ⟨ops.zeroBlock, 0, 0, size⟩) _).conseq
      · rfl
      · rfl
      · exact fun l hl => hl
      · exact (Nat.zero_add 512).symm ▸ hsize
    refine Moves.bind hfirst fun l hl => ?_
    refine Moves.bind (blockPasses_reads hbytes hsize hl) fun l' hl' => Moves.ret ?_
    obtain ⟨hstr, hlen, b, hb⟩ := hl'
    refine ⟨?_, rfl, hstr, hlen⟩
    rw [hb]
    exact hfold b
  · rename_i hsize
    have hzero : size / 512 = 0 := by omega
    rw [hzero]
    exact Moves.ret ⟨hstate, rfl, rfl, (by omega : size = size % 512)⟩

/-! ### The loops over words -/

variable {S : BitVec 64 → Prop} (hkept : Kept cfg fs key S)

include hkept

theorem wordPair_reads {combine : BitVec 64 → BitVec 64 → BitVec 64}
    (hcombine : combine = vmumXor cfg ∨ combine = vmumPlus cfg) {l : WordLoop} (hstate : S l.state)
    (hl : l.str + 8 * (l.i + 2) ≤ size) (hi : l.i + 1 < 80) :
    Reads fs bytes (l.str + 8 * l.i) (l.str + 8 * (l.i + 2)) (wordPair cfg combine l) fun l' =>
      S l'.state ∧ l'.str = l.str ∧ l'.i = l.i + 2 ∧ l'.len = l.len := by
  refine Moves.bind (loadLe_reads hbytes (by omega)) fun v hv => ?_
  refine Moves.bind (factor_reads (by omega)) fun p hp => ?_
  refine Moves.bind (loadLe_reads hbytes (by omega)) fun v2 hv2 => ?_
  refine Moves.bind (factor_reads (by omega)) fun p2 hp2 => Moves.ret ⟨?_, rfl, rfl, rfl⟩
  rw [hv, hp, hv2, hp2]
  exact hkept.pair combine hcombine _ _ _ _ _ hstate

/-- A `for` loop over `n` pairs. -/
theorem wordPairs_reads {combine : BitVec 64 → BitVec 64 → BitVec 64}
    (hcombine : combine = vmumXor cfg ∨ combine = vmumPlus cfg) {l : WordLoop} (hstate : S l.state)
    {n : Nat} (hl : l.str + 8 * (l.i + 2 * n) ≤ size) (hi : l.i + 2 * n ≤ 80) :
    Reads fs bytes (l.str + 8 * l.i) (l.str + 8 * (l.i + 2 * n))
      (Prog.iterate (wordPair cfg combine) n l) fun l' =>
        S l'.state ∧ l'.str = l.str ∧ l'.i = l.i + 2 * n ∧ l'.len = l.len := by
  refine Moves.iterate (J := coverage)
    (fun k (l' : WordLoop) =>
      S l'.state ∧ l'.str = l.str ∧ l'.i = l.i + 2 * k ∧ l'.len = l.len)
    (fun k => l.str + 8 * (l.i + 2 * k)) ⟨hstate, rfl, rfl, rfl⟩ ?_
  rintro k hk l' ⟨hstate', hstr, hi', hlen⟩
  apply (wordPair_reads hbytes hkept hcombine hstate' (by omega) (by omega)).conseq
  · omega
  · omega
  · rintro l'' ⟨hstate'', hstr', hi'', hlen'⟩
    exact ⟨hstate'', by omega⟩

theorem wordPass_reads {l : WordLoop} (hstate : S l.state) (hl : l.str + 8 * (l.i + 16) ≤ size)
    (hi : l.i + 16 ≤ 80) :
    Reads fs bytes (l.str + 8 * l.i) (l.str + 8 * (l.i + 16)) (wordPass cfg l) fun l' =>
      S l'.state ∧ l'.str = l.str ∧ l'.i = l.i + 16 ∧ l'.len = l.len - 128 := by
  refine Moves.bind (wordPairs_reads hbytes hkept (.inl rfl) hstate (n := 8) hl hi) fun l' hl' => ?_
  obtain ⟨hstate', hstr, hi', hlen⟩ := hl'
  exact Moves.ret ⟨hstate', hstr, hi', congrArg (· - 128) hlen⟩

theorem wordPasses_reads {l : WordLoop} (hstate : S l.state) (hi : l.i = 0)
    (hstr : l.str + l.len = size) (hlen : l.len < 512) :
    Reads fs bytes l.str (l.str + 128 * (l.len / 128))
      (Prog.whileLoop (fun l => 128 ≤ l.len) (wordPass cfg) (l.len + 1) l) fun l' =>
        S l'.state ∧ l'.str = l.str ∧ l'.i = 16 * (l.len / 128) ∧
          l'.len = l.len - 128 * (l.len / 128) := by
  refine Moves.whileLoop (fun k (l' : WordLoop) =>
      S l'.state ∧ l'.str = l.str ∧ l'.i = 16 * k ∧ l'.len = l.len - 128 * k)
    (fun k => l.str + 128 * k) ⟨hstate, rfl, hi, rfl⟩ (by omega) ?_ ?_
  · rintro k hk l' ⟨hstate', hstr', hi', hlen'⟩
    refine ⟨decide_eq_true (by omega), ?_⟩
    apply (wordPass_reads hbytes hkept hstate' (by omega) (by omega)).conseq
    · omega
    · omega
    · rintro l'' ⟨hstate'', hstr'', hi'', hlen''⟩
      exact ⟨hstate'', by omega⟩
  · rintro l' ⟨-, -, -, hlen'⟩
    exact decide_eq_false (by omega)

/-- The loops over words take what the block loop has left, less at most 15 bytes, and
    there are seven factors beyond the last one they use. -/
theorem wordLoops_reads {l : WordLoop} (hstate : S l.state) (hi : l.i = 0)
    (hstr : l.str + l.len = size) (hlen : l.len < 512) :
    Reads fs bytes l.str (l.str + 16 * (l.len / 16)) (wordLoops cfg l) fun l' =>
      S l'.state ∧ l'.str = l.str + 16 * (l.len / 16) ∧ l'.len = l.len % 16 ∧ l'.i + 7 < 80 := by
  refine Moves.bind (wordPasses_reads hbytes hkept hstate hi hstr hlen) fun l' hl' => ?_
  obtain ⟨hstate', hstr', hi', hlen'⟩ := hl'
  have hcount : pairCount cfg l'.len = 2 * (l'.len / 16) := pairCount_eq cfg (by omega)
  have hpasses : passes (pairCount cfg l'.len) = l'.len / 16 := by
    rw [hcount, passes]
    omega
  have hpairs : Reads fs bytes (l.str + 128 * (l.len / 128)) (l.str + 16 * (l.len / 16))
      (Prog.iterate (wordPair cfg (vmumPlus cfg)) (passes (pairCount cfg l'.len)) l')
      fun l'' => S l''.state ∧ l''.str = l'.str ∧ l''.i = l'.i + 2 * (l'.len / 16) ∧
        l''.len = l'.len := by
    rw [hpasses]
    apply (wordPairs_reads hbytes hkept (.inr rfl) hstate' (by omega) (by omega)).conseq
    · omega
    · omega
    · exact fun l'' hl'' => hl''
  refine Moves.bind hpairs fun l'' hl'' => Moves.ret ?_
  obtain ⟨hstate'', hstr'', hi'', hlen''⟩ := hl''
  refine ⟨hstate'', ?_, ?_, ?_⟩
  · change l''.str + l''.i * 8 = _
    omega
  · change l''.len - pairCount cfg l'.len * 8 = _
    omega
  · change l''.i + 7 < 80
    omega

/-! ### The switch -/

omit hkept in
theorem tailBytes_reads {r : Nat} (hr : r < 8) (f : BitVec 64) {p : Nat} (hp : p + r ≤ size) :
    Reads fs bytes p (p + r) (tailBytes cfg r f p) fun _ => True := by
  rcases r with _ | _ | _ | _ | _ | _ | _ | _ | r
  · exact Moves.ret trivial
  · exact Moves.bind (loadByte_reads hbytes (by omega)) fun _ _ => Moves.ret trivial
  · exact Moves.bind (loadLe16_reads hbytes (by omega)) fun _ _ => Moves.ret trivial
  · refine Moves.bind (loadLe16_reads hbytes (by omega)) fun _ _ => ?_
    exact Moves.bind (loadByte_reads hbytes (by omega)) fun _ _ => Moves.ret trivial
  · exact Moves.bind (loadLe32_reads hbytes (by omega)) fun _ _ => Moves.ret trivial
  · refine Moves.bind (loadLe32_reads hbytes (by omega)) fun _ _ => ?_
    exact Moves.bind (loadByte_reads hbytes (by omega)) fun _ _ => Moves.ret trivial
  · refine Moves.bind (loadLe32_reads hbytes (by omega)) fun _ _ => ?_
    exact Moves.bind (loadLe16_reads hbytes (by omega)) fun _ _ => Moves.ret trivial
  · refine Moves.bind (loadLe32_reads hbytes (by omega)) fun _ _ => ?_
    refine Moves.bind (loadLe16_reads hbytes (by omega)) fun _ _ => ?_
    exact Moves.bind (loadByte_reads hbytes (by omega)) fun _ _ => Moves.ret trivial
  · omega

theorem tailLong_reads {r k : Nat} (hr : r < 8) (hk : k < 8) {l : WordLoop} (hstate : S l.state)
    (hl : l.str + 8 + r = size) (hi : l.i + 7 < 80) :
    Reads fs bytes l.str size (tailLong cfg fs r k l) S := by
  refine Moves.bind (loadLe_reads hbytes (by omega)) fun v hv => ?_
  refine Moves.bind (factor_reads (by omega)) fun p hp => ?_
  refine Moves.bind (factor_reads (by omega)) fun f _ => ?_
  have htail : Reads fs bytes (l.str + 8) size (tailBytes cfg r f (l.str + 8)) fun _ => True :=
    (tailBytes_reads hbytes hr f (by omega)).conseq rfl hl fun _ _ => trivial
  refine Moves.bind htail fun u64 _ => Moves.ret ?_
  rw [hv, hp]
  exact hkept.long _ _ _ _ hstate

theorem tailShort_reads {r k : Nat} (hr : r < 8) (hk : k < 8) {l : WordLoop} (hstate : S l.state)
    (hl : l.str + r = size) (hi : l.i + 7 < 80) :
    Reads fs bytes l.str size (tailShort cfg fs r k l) S := by
  refine Moves.bind (factor_reads (by omega)) fun f _ => ?_
  have htail : Reads fs bytes l.str size (tailBytes cfg r f l.str) fun _ => True :=
    (tailBytes_reads hbytes hr f (by omega)).conseq rfl hl fun _ _ => trivial
  exact Moves.bind htail fun u64 _ => Moves.ret (hkept.short _ _ hstate)

theorem switchLen_reads {l : WordLoop} (hstate : S l.state) (hlen : l.len ≤ 15)
    (hl : l.str + l.len = size) (hi : l.i + 7 < 80) :
    Reads fs bytes l.str size (switchLen cfg fs l) S := by
  obtain ⟨state, str, i, len⟩ := l
  have hlong := fun (r k : Nat) (hr : r < 8) (hk : k < 8) (h : str + 8 + r = size) =>
    tailLong_reads hbytes hkept hr hk (l := ⟨state, str, i, len⟩) hstate h hi
  have hshort := fun (r k : Nat) (hr : r < 8) (hk : k < 8) (h : str + r = size) =>
    tailShort_reads hbytes hkept hr hk (l := ⟨state, str, i, len⟩) hstate h hi
  simp only at hlen hl hi
  interval_cases len
  · subst hl
    exact Moves.ret hstate
  · exact hshort 1 7 (by decide) (by decide) (by omega)
  · exact hshort 2 6 (by decide) (by decide) (by omega)
  · exact hshort 3 5 (by decide) (by decide) (by omega)
  · exact hshort 4 4 (by decide) (by decide) (by omega)
  · exact hshort 5 3 (by decide) (by decide) (by omega)
  · exact hshort 6 2 (by decide) (by decide) (by omega)
  · exact hshort 7 1 (by decide) (by decide) (by omega)
  · have hload : Reads fs bytes str size (loadLe cfg str) fun _ => True :=
      (loadLe_reads hbytes (by omega)).conseq rfl hl fun _ _ => trivial
    have hi' : i < 80 := by omega
    refine Moves.bind hload fun v _ => Moves.bind (factor_reads hi') fun p _ => ?_
    refine Moves.bind (factor_reads hi') fun p' hp' => Moves.ret ?_
    rw [hp']
    exact hkept.eight _ _ _ hstate
  · exact hlong 1 7 (by decide) (by decide) (by omega)
  · exact hlong 2 6 (by decide) (by decide) (by omega)
  · exact hlong 3 5 (by decide) (by decide) (by omega)
  · exact hlong 4 4 (by decide) (by decide) (by omega)
  · exact hlong 5 3 (by decide) (by decide) (by omega)
  · exact hlong 6 2 (by decide) (by decide) (by omega)
  · exact hlong 7 1 (by decide) (by decide) (by omega)

/-! ## The whole function -/

theorem hashLoops_reads {start : BitVec 64} (hstart : S (vmum cfg start fs.blockStart))
    (hfold : ∀ b, S (vmum cfg start fs.blockStart +
      ops.foldBlock (ops.factorBlock b (ops.ofWords fs.unroll)))) :
    Reads fs bytes 0 (16 * (size / 16)) (hashLoops cfg fs ops start size) fun l =>
      S l.state ∧ l.str = 16 * (size / 16) ∧ l.len = size % 16 ∧ l.i + 7 < 80 := by
  refine Moves.bind (blockLoop_reads hbytes hstart hfold) fun l hl => ?_
  obtain ⟨hstate, hi, hstr, hlen⟩ := hl
  apply (wordLoops_reads hbytes hkept hstate hi (by omega) (by omega)).conseq
  · exact hstr
  · omega
  · rintro l' ⟨hstate', hstr', hlen', hi'⟩
    exact ⟨hstate', by omega, by omega, hi'⟩

theorem hashAligned_reads {start : BitVec 64} (hstart : S (vmum cfg start fs.blockStart))
    (hfold : ∀ b, S (vmum cfg start fs.blockStart +
      ops.foldBlock (ops.factorBlock b (ops.ofWords fs.unroll)))) :
    Reads fs bytes 0 size (hashAligned cfg fs ops start size) S := by
  refine Moves.bind (hashLoops_reads hbytes hkept hstart hfold) fun l hl => ?_
  obtain ⟨hstate, hstr, hlen, hi⟩ := hl
  rw [← hstr]
  exact switchLen_reads hbytes hkept hstate (by omega) (by omega) hi

end Reads

/-- On a key of any length, whatever lies behind it: the function returns, it comes to the
    `switch` with at most 15 bytes left, it reads each byte of the key once and no other,
    and its indices into `_vmum_factors` are below 80. -/
theorem vmum_hash_aligned_reads (cfg : VmumConfig) (fs : VmumFactors) (ops : BlockOps)
    (start : BitVec 64) (bytes : Nat → Option (BitVec 8)) (len : Nat)
    (hbytes : ∀ o < len, ∃ b, bytes o = some b) :
    ∃ l h loops switch,
      (hashLoops cfg fs ops start len).run (memory fs bytes) = some (l, loops) ∧ l.len ≤ 15 ∧
      (switchLen cfg fs l).run (memory fs bytes) = some (h, switch) ∧
      (hashAligned cfg fs ops start len).run (memory fs bytes) = some (h, loops ++ switch) ∧
      (∀ o, (loops ++ switch).count (.key o) = if o < len then 1 else 0) ∧
      ∀ i, Access.factor i ∈ loops ++ switch → i < 80 := by
  have hkey := eq_some_getD hbytes
  have hkept := kept_true cfg fs fun o => (bytes o).getD 0
  have hreads : Reads fs bytes 0 (16 * (len / 16)) (hashLoops cfg fs ops start len) fun l =>
      True ∧ l.str = 16 * (len / 16) ∧ l.len = len % 16 ∧ l.i + 7 < 80 :=
    hashLoops_reads hkey hkept trivial fun _ => trivial
  obtain ⟨l, loops, hloops, ⟨-, hstr, hlen, hi⟩, hlead⟩ := hreads
  obtain ⟨h, switch, hswitch, -, hlead'⟩ :=
    switchLen_reads hkey hkept (l := l) trivial (by omega) (by omega) hi
  rw [hstr] at hlead'
  obtain ⟨-, hcount, hfactor⟩ := coverage.append hlead hlead'
  refine ⟨l, h, loops, switch, hloops, by omega, hswitch, Prog.run_bind hloops hswitch, ?_, hfactor⟩
  intro o
  rw [hcount, if_congr (and_iff_right (Nat.zero_le o)) rfl rfl]

theorem vmum_hash_aligned_reads_ones :
    ∃ h qs, (hashAligned defaultConfig vmumFactors (scalarOps defaultConfig) 0 653).run
        (memory vmumFactors fun o => if o < 653 then some 1 else none) = some (h, qs) ∧
      qs.count (.key 652) = 1 ∧ qs.count (.key 653) = 0 := by
  obtain ⟨l, h, loops, switch, -, -, -, hrun, hcount, -⟩ :=
    vmum_hash_aligned_reads defaultConfig vmumFactors (scalarOps defaultConfig) 0
      (fun o => if o < 653 then some 1 else none) 653 fun o ho => ⟨1, if_pos ho⟩
  exact ⟨h, loops ++ switch, hrun, hcount 652, hcount 653⟩

end IndexedHash
