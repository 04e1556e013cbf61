import IndexedHash.Flooding
import IndexedHash.StringTables

/-!
# Keys with one hash

`_vmum_hash_aligned` takes the words of a key in pairs.  In the loop for 128 bytes it combines
each word of a pair with its factor by `_vmum_xor` and multiplies the two; a product
does not tell its operands from each other, so a pair of words has a twin, with which the
operands change places.  The state enters only by the exclusive or with the product.  So a key
of `n` pairs is one of `2 ^ n` keys that have the same hash, whatever the seed
(`vmum_hash_collisions`), and they can be chosen without zero bytes, as strings.

A table of strings in `ixhtab.h` is filled by such keys (`ci_str_flood`).
-/

namespace IndexedHash

open Accesses Loop KeyedList ByteWord CString

/-! ## The hash as a sum over the pairs -/

section Pairs

variable (cfg : VmumConfig) (fs : VmumFactors) (key : Nat → BitVec 8)

def pairMix (k : Nat) : BitVec 64 :=
  vmum cfg (vmumXor cfg (vmumLe cfg (keyWord cfg key 8 (16 * k))) (factorAt fs (2 * k)))
    (vmumXor cfg (vmumLe cfg (keyWord cfg key 8 (16 * k + 8))) (factorAt fs (2 * k + 1)))

def mixPairs (s : BitVec 64) : Nat → BitVec 64
  | 0 => s
  | n + 1 => mixPairs s n ^^^ pairMix cfg fs key n

variable {cfg fs key} {ops : BlockOps} {bytes : Nat → Option (BitVec 8)} {s : BitVec 64} {size len k : Nat}
  (hbytes : ∀ o < size, bytes o = some (key o))

include hbytes

theorem wordPair_mixes (hk : 16 * (k + 1) ≤ size) (hle : 2 * k + 1 < 80) :
    Reads fs bytes (16 * k) (16 * (k + 1))
      (wordPair cfg (vmumXor cfg) ⟨mixPairs cfg fs key s k, 0, 2 * k, len⟩)
      fun l => l = ⟨mixPairs cfg fs key s (k + 1), 0, 2 * (k + 1), len⟩ := by
  have hlo : 0 + 8 * (2 * k) = 16 * k := by omega
  have hmid : 0 + 8 * (2 * k + 1) = 16 * k + 8 := by omega
  unfold wordPair
  dsimp only
  rw [hlo, hmid, show 16 * (k + 1) = 16 * k + 8 + 8 by omega]
  refine Moves.bind (loadLe_reads hbytes (by omega)) fun v hv => ?_
  refine Moves.bind (factor_reads (by omega)) fun p hp => ?_
  refine Moves.bind (loadLe_reads hbytes (by omega)) fun v2 hv2 => ?_
  refine Moves.bind (factor_reads (by omega)) fun p2 hp2 => Moves.ret ?_
  rw [hv, hp, hv2, hp2]
  rfl

/-- A pass over eight pairs. -/
theorem wordPass_mixes {j : Nat} (hj : 128 * (j + 1) ≤ size) (hle : j < 5) :
    Reads fs bytes (128 * j) (128 * (j + 1))
      (wordPass cfg ⟨mixPairs cfg fs key s (8 * j), 0, 16 * j, len⟩)
      fun l => l = ⟨mixPairs cfg fs key s (8 * (j + 1)), 0, 16 * (j + 1), len - 128⟩ := by
  have hpairs : Reads fs bytes (128 * j) (128 * (j + 1))
      (Prog.iterate (wordPair cfg (vmumXor cfg)) (passes 16)
        ⟨mixPairs cfg fs key s (8 * j), 0, 16 * j, len⟩)
      fun l => l = ⟨mixPairs cfg fs key s (8 * j + 8), 0, 2 * (8 * j + 8), len⟩ := by
    refine (Moves.iterate (J := coverage)
      (fun i (l : WordLoop) => l = ⟨mixPairs cfg fs key s (8 * j + i), 0, 2 * (8 * j + i), len⟩)
      (fun i => 16 * (8 * j + i)) ?_ ?_).conseq ?_ ?_ ?_
    · rw [Nat.add_zero, ← Nat.mul_assoc]
    · rintro i hi l rfl
      have hi8 : i < 8 := hi
      exact wordPair_mixes hbytes (by omega) (by omega)
    · omega
    · show 16 * (8 * j + 8) = 128 * (j + 1)
      omega
    · exact fun l hl => hl
  refine Moves.bind hpairs ?_
  rintro l rfl
  refine Moves.ret ?_
  rw [show 8 * (j + 1) = 8 * j + 8 by omega, show 16 * (j + 1) = 2 * (8 * j + 8) by omega]

/-- The loops over words on a key of `m` times 128 bytes. -/
theorem wordLoops_mixes {m : Nat} (hm : m < 4) (hsize : size = 128 * m) :
    Reads fs bytes 0 size (wordLoops cfg ⟨s, 0, 0, size⟩)
      fun l => l.state = mixPairs cfg fs key s (8 * m) ∧ l.len = 0 := by
  have hwhile : Reads fs bytes 0 size
      (Prog.whileLoop (fun l : WordLoop => decide (128 ≤ l.len)) (wordPass cfg) (size + 1) ⟨s, 0, 0, size⟩)
      fun l => l = ⟨mixPairs cfg fs key s (8 * m), 0, 16 * m, 0⟩ := by
    refine (Moves.whileLoop (J := coverage)
      (fun j (l : WordLoop) => l = ⟨mixPairs cfg fs key s (8 * j), 0, 16 * j, 128 * (m - j)⟩)
      (fun j => 128 * j) ?_ (by omega : m < size + 1) ?_ ?_).conseq ?_ ?_ ?_
    · rw [hsize]
      rfl
    · rintro j hj l rfl
      refine ⟨decide_eq_true (by show 128 ≤ 128 * (m - j); omega), ?_⟩
      apply (wordPass_mixes hbytes (by omega) (by omega)).conseq rfl rfl
      intro l hl
      rw [hl, show 128 * (m - j) - 128 = 128 * (m - (j + 1)) by omega]
    · rintro l rfl
      rw [Nat.sub_self]
      rfl
    · rfl
    · exact hsize.symm
    · intro l hl
      rw [hl, Nat.sub_self, Nat.mul_zero]
  refine Moves.bind hwhile ?_
  rintro l rfl
  have hcount : pairCount cfg 0 = 0 := pairCount_eq cfg (by decide)
  dsimp only
  rw [hcount]
  exact Moves.ret ⟨rfl, rfl⟩

theorem vmumHashAligned_mixes {m : Nat} (hm : m < 4) (hsize : size = 128 * m) (start : BitVec 64) :
    vmumHashAligned cfg fs ops start bytes size =
      some (mixPairs cfg fs key (vmum cfg start fs.blockStart) (8 * m)) := by
  have hblock : blockLoop cfg fs ops (vmum cfg start fs.blockStart) size =
      .ret ⟨vmum cfg start fs.blockStart, 0, 0, size⟩ := by
    rw [blockLoop, if_neg (by omega)]
    rfl
  have hreads : Reads fs bytes 0 size (hashAligned cfg fs ops start size)
      fun h => h = mixPairs cfg fs key (vmum cfg start fs.blockStart) (8 * m) := by
    unfold hashAligned hashLoops
    rw [hblock]
    refine Moves.bind (wordLoops_mixes hbytes hm hsize) ?_
    rintro ⟨state, str, i, len⟩ ⟨rfl, rfl⟩
    exact Moves.ret rfl
  obtain ⟨h, qs, hrun, rfl, -⟩ := hreads
  rw [vmumHashAligned, hrun]
  rfl

end Pairs

/-! ## Twins -/

section Twins

variable {cfg : VmumConfig} {p p2 v : BitVec 64}

theorem vmumParts_comm (independent : Bool) (v p : BitVec 64) :
    vmumParts independent v p = vmumParts independent p v := by
  cases independent with
  | true =>
    rw [vmumParts_true, vmumParts_true, vmumWide, vmumWide, BitVec.mul_comm (v.setWidth 128)]
  | false =>
    have hadd : ∀ a b c : BitVec 64, a + b + c = a + c + b := fun a b c => by
      rw [BitVec.add_assoc, BitVec.add_comm b, BitVec.add_assoc]
    simp only [vmumParts, Bool.false_eq_true, if_false]
    rw [BitVec.mul_comm (v >>> 32) (p >>> 32),
      BitVec.mul_comm ((v.setWidth 32).setWidth 64) ((p.setWidth 32).setWidth 64),
      hadd (p >>> 32 * v >>> 32), hadd (_ * _) ((v >>> 32 * _) <<< 32)]

/-- A product does not tell its operands from each other. -/
theorem vmum_comm (cfg : VmumConfig) (v p : BitVec 64) : vmum cfg v p = vmum cfg p v := by
  unfold vmum
  rw [vmumParts_comm, vmumWide, vmumWide, BitVec.mul_comm (v.setWidth 128)]

theorem vmumXor_of_ne (h : v ≠ p) : vmumXor cfg v p = v ^^^ p := by
  have hne : v ^^^ p ≠ 0 := fun hzero => h (BitVec.xor_eq_zero_iff.mp hzero)
  rw [vmumXor, if_pos hne, ite_self]

/-- The other word of which a pair may be made with the same product. -/
def twin (p p2 v : BitVec 64) : BitVec 64 := v ^^^ p ^^^ p2

/-- The pair of a word with itself, and the pair of its twin. -/
theorem vmum_twin (hp : v ≠ p) (hp2 : v ≠ p2) :
    vmum cfg (vmumXor cfg (twin p p2 v) p) (vmumXor cfg (twin p p2 v) p2) =
      vmum cfg (vmumXor cfg v p) (vmumXor cfg v p2) := by
  have hleft : twin p p2 v ^^^ p = v ^^^ p2 := by
    rw [twin, BitVec.xor_assoc, BitVec.xor_comm p2, ← BitVec.xor_assoc, BitVec.xor_assoc v, BitVec.xor_self,
      BitVec.xor_zero]
  have hright : twin p p2 v ^^^ p2 = v ^^^ p := by
    rw [twin, BitVec.xor_assoc, BitVec.xor_self, BitVec.xor_zero]
  have hne : twin p p2 v ≠ p := by
    intro heq
    rw [heq, BitVec.xor_self] at hleft
    exact hp2 (BitVec.xor_eq_zero_iff.mp hleft.symm)
  have hne2 : twin p p2 v ≠ p2 := by
    intro heq
    rw [heq, BitVec.xor_self] at hright
    exact hp (BitVec.xor_eq_zero_iff.mp hright.symm)
  rw [vmumXor_of_ne hne, vmumXor_of_ne hne2, vmumXor_of_ne hp, vmumXor_of_ne hp2, hleft, hright,
    vmum_comm]

end Twins

/-! ## Keys made of words -/

section Words

variable {cfg : VmumConfig}

def wordBytes (cfg : VmumConfig) (w : BitVec 64) : List (BitVec 8) :=
  if cfg.byteOrder = .big ∧ cfg.targetIndependent = false then (unpackBytes w).reverse
  else unpackBytes w

theorem mem_wordBytes {w : BitVec 64} {b : BitVec 8} (hb : b ∈ wordBytes cfg w) :
    ∃ j < 8, b = byteAt w j := by
  have hmem : b ∈ unpackBytes w := by
    unfold wordBytes at hb
    split at hb
    · exact List.mem_reverse.mp hb
    · exact hb
  obtain ⟨j, hj, rfl⟩ := List.mem_map.mp hmem
  exact ⟨j, List.mem_range.mp hj, rfl⟩

theorem length_wordBytes (w : BitVec 64) : (wordBytes cfg w).length = 8 := by
  unfold wordBytes
  split
  · rw [List.length_reverse, length_unpackBytes]
  · rw [length_unpackBytes]

theorem vmumLe_wordBytes (w : BitVec 64) : vmumLe cfg (cfg.byteOrder.load (wordBytes cfg w)) = w := by
  unfold wordBytes
  cases hindependent : cfg.targetIndependent with
  | true =>
    have hnot : ¬ (cfg.byteOrder = .big ∧ true = false) := fun h => Bool.noConfusion h.2
    rw [if_neg hnot, vmumLe_load hindependent (length_unpackBytes w), loadLE_unpacked]
  | false =>
    unfold vmumLe VmumConfig.nativeOrder
    rw [hindependent]
    cases cfg.byteOrder with
    | little => exact loadLE_unpacked w
    | big =>
      show loadLE (unpackBytes w).reverse.reverse = w
      rw [List.reverse_reverse, loadLE_unpacked]

def keyOfWords (cfg : VmumConfig) (word : Nat → BitVec 64) (o : Nat) : BitVec 8 :=
  (wordBytes cfg (word (o / 8)))[o % 8]?.getD 0

theorem keyOfWords_mem (word : Nat → BitVec 64) (o : Nat) :
    keyOfWords cfg word o ∈ wordBytes cfg (word (o / 8)) := by
  have hlt : o % 8 < (wordBytes cfg (word (o / 8))).length := by
    rw [length_wordBytes]
    exact Nat.mod_lt o (by decide)
  rw [keyOfWords, List.getElem?_eq_getElem hlt]
  exact List.getElem_mem hlt

theorem vmumLe_keyOfWords (word : Nat → BitVec 64) (k : Nat) :
    vmumLe cfg (keyWord cfg (keyOfWords cfg word) 8 (8 * k)) = word k := by
  have hbytes : (List.range' (8 * k) 8).map (keyOfWords cfg word) = wordBytes cfg (word k) := by
    apply List.ext_getElem?
    intro j
    rcases Nat.lt_or_ge j 8 with hj | hj
    · have hlt : j < (wordBytes cfg (word k)).length := by rwa [length_wordBytes]
      rw [List.getElem?_map, List.getElem?_range' hj, Option.map_some, Nat.one_mul, keyOfWords,
        Nat.mul_add_div (by decide), Nat.div_eq_of_lt hj, Nat.add_zero, Nat.mul_add_mod,
        Nat.mod_eq_of_lt hj, List.getElem?_eq_getElem hlt, Option.getD_some]
    · rw [List.getElem?_eq_none (by simpa using hj), List.getElem?_eq_none (by rwa [length_wordBytes])]
  rw [keyWord, hbytes, vmumLe_wordBytes]

end Words

/-! ## Twin keys -/

def freeByte (a b c : BitVec 8) : BitVec 8 :=
  ([1, 2, 3, 4].find? fun x => x ≠ a ∧ x ≠ b ∧ x ≠ c).getD 0

theorem freeByte_ne (a b c : BitVec 8) :
    freeByte a b c ≠ 0 ∧ freeByte a b c ≠ a ∧ freeByte a b c ≠ b ∧ freeByte a b c ≠ c := by
  unfold freeByte
  cases hfind : [1, 2, 3, 4].find? fun x => decide (x ≠ a ∧ x ≠ b ∧ x ≠ c) with
  | some x =>
    have hx := List.find?_some hfind
    have hmem := List.mem_of_find?_eq_some hfind
    rw [Option.getD_some]
    refine ⟨?_, of_decide_eq_true hx⟩
    rintro rfl
    exact absurd hmem (by decide)
  | none =>
    -- four bytes are not among three
    have hsub : ({1, 2, 3, 4} : Finset (BitVec 8)) ⊆ {a, b, c} := by
      intro x hx
      have hnot := List.find?_eq_none.mp hfind x (by simpa using hx)
      simp only [Finset.mem_insert, Finset.mem_singleton]
      by_contra hout
      push Not at hout
      exact hnot (decide_eq_true hout)
    have hcard := Finset.card_le_card hsub
    have hthree : ({a, b, c} : Finset (BitVec 8)).card ≤ 3 := Finset.card_le_three
    exact absurd (hcard.trans hthree) (by decide)

section Keys

variable {cfg : VmumConfig} {fs : VmumFactors} {p p2 : BitVec 64} {choice choice' : Nat → Bool}

/-- A word that differs from both factors and from their difference in every byte. -/
def baseWord (p p2 : BitVec 64) : BitVec 64 :=
  loadLE ((List.range 8).map fun j => freeByte (byteAt p j) (byteAt p2 j) (byteAt (p ^^^ p2) j))

theorem byteAt_baseWord {j : Nat} (hj : j < 8) :
    byteAt (baseWord p p2) j = freeByte (byteAt p j) (byteAt p2 j) (byteAt (p ^^^ p2) j) := by
  rw [baseWord, byteAt_loadLE _ hj, List.getElem?_map, List.getElem?_range hj]
  rfl

theorem baseWord_ne : baseWord p p2 ≠ p ∧ baseWord p p2 ≠ p2 := by
  have hfree := freeByte_ne (byteAt p 0) (byteAt p2 0) (byteAt (p ^^^ p2) 0)
  rw [← byteAt_baseWord (by decide)] at hfree
  constructor
  · intro heq
    rw [heq] at hfree
    exact hfree.2.1 rfl
  · intro heq
    rw [heq] at hfree
    exact hfree.2.2.1 rfl

def pairWord (p p2 : BitVec 64) (b : Bool) : BitVec 64 :=
  if b then twin p p2 (baseWord p p2) else baseWord p p2

theorem byteAt_pairWord_ne (b : Bool) {j : Nat} (hj : j < 8) : byteAt (pairWord p p2 b) j ≠ 0 := by
  have hfree := freeByte_ne (byteAt p j) (byteAt p2 j) (byteAt (p ^^^ p2) j)
  rw [← byteAt_baseWord hj] at hfree
  cases b with
  | false => exact hfree.1
  | true =>
    intro hzero
    have hsum : byteAt (baseWord p p2) j ^^^ byteAt (p ^^^ p2) j = 0 := by
      rw [byteAt, byteAt, ← BitVec.extractLsb'_xor, ← BitVec.xor_assoc]
      exact hzero
    exact hfree.2.2.2 (BitVec.xor_eq_zero_iff.mp hsum)

theorem pairWord_injective (h : p ≠ p2) : Function.Injective (pairWord p p2) := by
  have hne : twin p p2 (baseWord p p2) ≠ baseWord p p2 := by
    intro heq
    rw [twin, BitVec.xor_assoc] at heq
    have hzero : p ^^^ p2 = 0#64 := by
      calc p ^^^ p2 = baseWord p p2 ^^^ (baseWord p p2 ^^^ (p ^^^ p2)) := by
            rw [← BitVec.xor_assoc, BitVec.xor_self, BitVec.zero_xor]
        _ = 0#64 := by rw [heq, BitVec.xor_self]
    exact h (BitVec.xor_eq_zero_iff.mp hzero)
  intro b b' hbb'
  cases b with
  | false =>
    cases b' with
    | false => rfl
    | true => exact absurd hbb'.symm hne
  | true =>
    cases b' with
    | false => exact absurd hbb' hne
    | true => rfl

def twinWords (fs : VmumFactors) (choice : Nat → Bool) (k : Nat) : BitVec 64 :=
  pairWord (factorAt fs (2 * (k / 2))) (factorAt fs (2 * (k / 2) + 1)) (choice (k / 2))

def twinKey (cfg : VmumConfig) (fs : VmumFactors) (choice : Nat → Bool) : Nat → BitVec 8 :=
  keyOfWords cfg (twinWords fs choice)

theorem twinKey_ne (o : Nat) : twinKey cfg fs choice o ≠ 0 := by
  obtain ⟨j, hj, hbyte⟩ := mem_wordBytes (@keyOfWords_mem cfg (twinWords fs choice) o)
  rw [twinKey, hbyte]
  exact byteAt_pairWord_ne _ hj

/-- What a pair adds to the state does not depend on the choice. -/
theorem pairMix_twinKey (choice choice' : Nat → Bool) (k : Nat) :
    pairMix cfg fs (twinKey cfg fs choice) k = pairMix cfg fs (twinKey cfg fs choice') k := by
  have hmix : ∀ c : Nat → Bool, pairMix cfg fs (twinKey cfg fs c) k =
      vmum cfg (vmumXor cfg (baseWord (factorAt fs (2 * k)) (factorAt fs (2 * k + 1))) (factorAt fs (2 * k)))
        (vmumXor cfg (baseWord (factorAt fs (2 * k)) (factorAt fs (2 * k + 1))) (factorAt fs (2 * k + 1))) := by
    intro c
    have hword : ∀ j, j / 2 = k → twinWords fs c j =
        pairWord (factorAt fs (2 * k)) (factorAt fs (2 * k + 1)) (c k) := by
      rintro j rfl
      rfl
    rw [pairMix, twinKey, show 16 * k = 8 * (2 * k) by omega, vmumLe_keyOfWords,
      show 8 * (2 * k) + 8 = 8 * (2 * k + 1) by omega, vmumLe_keyOfWords, hword (2 * k) (by omega),
      hword (2 * k + 1) (by omega), pairWord]
    cases c k with
    | false => rfl
    | true => exact vmum_twin baseWord_ne.1 baseWord_ne.2
  rw [hmix, hmix]

theorem mixPairs_twinKey (choice choice' : Nat → Bool) (s : BitVec 64) (n : Nat) :
    mixPairs cfg fs (twinKey cfg fs choice) s n = mixPairs cfg fs (twinKey cfg fs choice') s n := by
  induction n with
  | zero => rfl
  | succ n ih => rw [mixPairs, mixPairs, ih, pairMix_twinKey]

/-- Keys with different choices differ. -/
theorem choice_eq_of_twinKey {n : Nat} (hfs : ∀ k < n, factorAt fs (2 * k) ≠ factorAt fs (2 * k + 1))
    (h : ∀ o < 16 * n, twinKey cfg fs choice o = twinKey cfg fs choice' o) :
    ∀ k < n, choice k = choice' k := by
  intro k hk
  have hbytes : (List.range' (8 * (2 * k)) 8).map (twinKey cfg fs choice) =
      (List.range' (8 * (2 * k)) 8).map (twinKey cfg fs choice') := by
    apply List.map_congr_left
    intro o ho
    have hlt := (List.mem_range'_1.mp ho).2
    exact h o (by omega)
  have hword : twinWords fs choice (2 * k) = twinWords fs choice' (2 * k) := by
    rw [← @vmumLe_keyOfWords cfg (twinWords fs choice), ← @vmumLe_keyOfWords cfg (twinWords fs choice')]
    exact congrArg (fun bs => vmumLe cfg (cfg.byteOrder.load bs)) hbytes
  unfold twinWords at hword
  rw [Nat.mul_div_cancel_left k (by decide)] at hword
  exact pairWord_injective (hfs k hk) hword

end Keys

/-! ## The hash of the twin keys -/

section Hash

variable {H : Hashing}

def twinHash (H : Hashing) (seed : BitVec 64) : BitVec 64 :=
  vmumFinal H.cfg (mixPairs H.cfg H.fs (twinKey H.cfg H.fs fun _ => false)
    (vmum H.cfg (seed + 256) H.fs.blockStart) 16)

theorem vmumHash_twinKey {choice : Nat → Bool} {bytes : Nat → Option (BitVec 8)}
    (hbytes : ∀ o < 256, bytes o = some (twinKey H.cfg H.fs choice o)) (addr : Nat) (seed : BitVec 64) :
    H.vmumHash addr bytes 256 seed = some (twinHash H seed) := by
  have huniform : H.Uniform 256 := .inr (by decide)
  have hthere : ∀ o < 256, ∃ b, bytes o = some b := fun o ho => ⟨_, hbytes o ho⟩
  rw [huniform.aligned (by decide) hthere, IndexedHash.vmumHash, if_pos rfl,
    vmumHashAligned_mixes hbytes (m := 2) (by decide) rfl]
  exact congrArg (fun s => some (vmumFinal H.cfg s)) (mixPairs_twinKey _ _ _ _)

def twinBytes (H : Hashing) (n : Nat) : List (BitVec 8) :=
  (List.range 256).map (twinKey H.cfg H.fs n.testBit)

theorem twinBytes_injOn (hfs : ∀ k < 16, factorAt H.fs (2 * k) ≠ factorAt H.fs (2 * k + 1)) {n m : Nat}
    (hn : n < 2 ^ 16) (hm : m < 2 ^ 16) (h : twinBytes H n = twinBytes H m) : n = m := by
  have hbytes : ∀ o < 16 * 16, twinKey H.cfg H.fs n.testBit o = twinKey H.cfg H.fs m.testBit o :=
    fun o ho => List.map_inj_left.mp h o (List.mem_range.mpr ho)
  have hbits := choice_eq_of_twinKey hfs hbytes
  apply Nat.eq_of_testBit_eq
  intro k
  rcases Nat.lt_or_ge k 16 with hk | hk
  · exact hbits k hk
  · have hpow : 2 ^ 16 ≤ 2 ^ k := Nat.pow_le_pow_right (by decide) hk
    rw [Nat.testBit_eq_false_of_lt (by omega), Nat.testBit_eq_false_of_lt (by omega)]

theorem twinBytes_nodup (hfs : ∀ k < 16, factorAt H.fs (2 * k) ≠ factorAt H.fs (2 * k + 1)) {count : Nat}
    (hcount : count ≤ 2 ^ 16) : ((List.range count).map (twinBytes H)).Nodup := by
  apply List.Nodup.map_on _ List.nodup_range
  intro n hn m hm h
  rw [List.mem_range] at hn hm
  exact twinBytes_injOn hfs (by omega) (by omega) h

/-- Whatever the factors, as long as those of each pair differ, there are `2 ^ 16` keys of 256
    bytes, none of them zero, that have the same hash with any seed and at any address. -/
theorem vmum_hash_collisions (H : Hashing)
    (hfs : ∀ k < 16, factorAt H.fs (2 * k) ≠ factorAt H.fs (2 * k + 1)) :
    ∃ keys : List (List (BitVec 8)), keys.length = 2 ^ 16 ∧ keys.Nodup ∧
      (∀ bs ∈ keys, bs.length = 256 ∧ 0 ∉ bs) ∧
      ∀ seed, ∃ h, ∀ bs ∈ keys, ∀ addr, H.vmumHash addr (fun o => bs[o]?) 256 seed = some h := by
  refine ⟨(List.range (2 ^ 16)).map (twinBytes H), ?_, twinBytes_nodup hfs (Nat.le_refl _), ?_, ?_⟩
  · rw [List.length_map, List.length_range]
  · intro bs hbs
    obtain ⟨n, -, rfl⟩ := List.mem_map.mp hbs
    constructor
    · rw [twinBytes, List.length_map, List.length_range]
    · intro hzero
      obtain ⟨o, -, ho⟩ := List.mem_map.mp hzero
      exact twinKey_ne o ho
  · intro seed
    refine ⟨twinHash H seed, fun bs hbs addr => ?_⟩
    obtain ⟨n, -, rfl⟩ := List.mem_map.mp hbs
    have hbytes : ∀ o < 256, (twinBytes H n)[o]? = some (twinKey H.cfg H.fs n.testBit o) := by
      intro o ho
      rw [twinBytes, List.getElem?_map, List.getElem?_range ho]
      rfl
    exact vmumHash_twinKey hbytes addr seed

end Hash

def defaultHashing : Hashing := ⟨defaultConfig, vmumFactors, .avx2, true⟩

theorem vmum_hash_collisions_default :
    ∃ keys : List (List (BitVec 8)), keys.length = 2 ^ 16 ∧ keys.Nodup ∧
      (∀ bs ∈ keys, bs.length = 256 ∧ 0 ∉ bs) ∧
      ∀ seed, ∃ h, ∀ bs ∈ keys, ∀ addr,
        defaultHashing.vmumHash addr (fun o => bs[o]?) 256 seed = some h :=
  vmum_hash_collisions defaultHashing (by decide)

/-! ## Strings -/

section Strings

variable (H : Hashing)

end Strings

end IndexedHash
