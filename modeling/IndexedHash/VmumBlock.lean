import IndexedHash.Lanes
import IndexedHash.Vmum

/-!
# The block update of `vmum.h`

Keys of 512 bytes and more go through blocks of four words.  The header has the code for
a block four times: for AVX2, for NEON, for AltiVec, and in scalar form.  `BlockOps` is
what each of them gives, and `BlockMeaning` says what it does to the four words of the
block.  They all form the same products; they differ in `mix`, which combines a word of
the key with its factor.

Without `VMUM_V1` the scalar code keeps a zero out of a product by putting the factor in
its place, and the vector code by putting all ones there.  The two agree on a word unless
it equals its factor (`fillZero_eq_vmumXor_iff`), and so do whole runs of rounds over
words that do not (`vector_rounds_agree`).
-/

namespace IndexedHash

open Lanes

/-! ## Blocks -/

abbrev BlockWords := Vector (BitVec 64) 4

/-- `_vmum_block_t` and its functions.  `updateBlock` gets `v[0]`, `v[1]`, `p[0]` and
    `p[1]` for its pointers. -/
structure BlockOps where
  Block : Type
  /-- the block that lies in memory as these words -/
  ofWords : BlockWords → Block
  zeroBlock : Block
  updateBlock : (s v v2 p p2 : Block) → Block
  factorBlock : (s p : Block) → Block
  foldBlock : Block → BitVec 64

/-! ### Scalar -/

/-- `_vmum_val` -/
def vmumVal (v p : BitVec 64) : BitVec 64 :=
  let lv := (v.setWidth 32).setWidth 64
  let lp := (p.setWidth 32).setWidth 64
  let hv := v >>> 32
  let hp := p >>> 32
  lv * lp + hv * hp

/-- `_vmum_update_block` -/
def scalarUpdateBlock (cfg : VmumConfig) (s v v2 p p2 : BlockWords) : BlockWords :=
  #v[s[0] ^^^ vmumVal (vmumXor cfg (vmumLe cfg v[0]) p[0]) (vmumXor cfg (vmumLe cfg v2[0]) p2[0]),
     s[1] ^^^ vmumVal (vmumXor cfg (vmumLe cfg v[1]) p[1]) (vmumXor cfg (vmumLe cfg v2[1]) p2[1]),
     s[2] ^^^ vmumVal (vmumXor cfg (vmumLe cfg v[2]) p[2]) (vmumXor cfg (vmumLe cfg v2[2]) p2[2]),
     s[3] ^^^ vmumVal (vmumXor cfg (vmumLe cfg v[3]) p[3]) (vmumXor cfg (vmumLe cfg v2[3]) p2[3])]

/-- `_vmum_factor_block` -/
def scalarFactorBlock (s p : BlockWords) : BlockWords :=
  #v[vmumVal s[0] p[0], vmumVal s[1] p[1], vmumVal s[2] p[2], vmumVal s[3] p[3]]

def scalarOps (cfg : VmumConfig) : BlockOps where
  Block := BlockWords
  ofWords := id
  zeroBlock := #v[0, 0, 0, 0]
  updateBlock := scalarUpdateBlock cfg
  factorBlock := scalarFactorBlock
  foldBlock b := b[0] ^^^ b[1] ^^^ b[2] ^^^ b[3]

/-! ### AVX2 -/

def xorLanes {n : Nat} (v p : Vector (BitVec 64) n) : Vector (BitVec 64) n :=
  lanewise (· ^^^ ·) v p

/-- `_vmum_block`; the lanes are signed, so that `>>` is arithmetic -/
def avx2Block (v p : BlockWords) : BlockWords :=
  let hv := eachLane (·.sshiftRight 32) v
  let hp := eachLane (·.sshiftRight 32) p
  lanewise (· + ·) (pmuludq256 (lanes32 .little v) (lanes32 .little p))
    (pmuludq256 (lanes32 .little hv) (lanes32 .little hp))

/-- `_vmum_nonzero` -/
def avx2Nonzero (v : BlockWords) : BlockWords :=
  let r := pcmpeqq256 v #v[0, 0, 0, 0]
  lanewise (· ||| ·) v r

/-- `_vmum_update_block` -/
def avx2UpdateBlock (cfg : VmumConfig) (s v v2 p p2 : BlockWords) : BlockWords :=
  if cfg.v1 then xorLanes s (avx2Block (xorLanes v p) (xorLanes v2 p2))
  else xorLanes s (avx2Block (avx2Nonzero (xorLanes v p)) (avx2Nonzero (xorLanes v2 p2)))

def avx2Ops (cfg : VmumConfig) : BlockOps where
  Block := BlockWords
  ofWords := id
  zeroBlock := #v[0, 0, 0, 0]
  updateBlock := avx2UpdateBlock cfg
  factorBlock := avx2Block
  foldBlock b := b[0] ^^^ b[1] ^^^ b[2] ^^^ b[3]

/-! ### NEON and AltiVec

A block is two registers.  The two targets have their own `_vmum_val` and
`_vmum_nonzero`; the rest of their code is the same text. -/

abbrev Register := Vector (BitVec 64) 2

/-- NEON `_vmum_val` -/
def neonVal (order : ByteOrder) (v p : Register) : Register :=
  let v32 := lanes32 order v
  let p32 := lanes32 order p
  let r := vmullU32 (vgetLowU32 v32) (vgetLowU32 p32)
  let r2 := vmullHighU32 v32 p32
  vpaddqU64 r r2

/-- NEON `_vmum_nonzero` -/
def neonNonzero (v : Register) : Register :=
  let r := vceqzqU64 v
  lanewise (· ||| ·) r v

/-- AltiVec `_vmum_val` -/
def altivecVal (order : ByteOrder) (v p : Register) : Register :=
  lanewise (· + ·) (vecMule (lanes32 order v) (lanes32 order p))
    (vecMulo (lanes32 order v) (lanes32 order p))

/-- AltiVec `_vmum_nonzero` -/
def altivecNonzero (v : Register) : Register :=
  let mask := vecCmpne v #v[0, 0]
  vecSel #v[0xffffffffffffffff, 0xffffffffffffffff] v mask

abbrev PairBlock := Vector Register 2

section Pair

variable (cfg : VmumConfig) (val : Register → Register → Register) (nonzero : Register → Register)

/-- `_vmum_update_block` over a target's `_vmum_val` and `_vmum_nonzero` -/
def pairUpdateBlock (s v v2 p p2 : PairBlock) : PairBlock :=
  if cfg.v1 then
    #v[xorLanes s[0] (val (xorLanes v[0] p[0]) (xorLanes v2[0] p2[0])),
       xorLanes s[1] (val (xorLanes v[1] p[1]) (xorLanes v2[1] p2[1]))]
  else
    #v[xorLanes s[0] (val (nonzero (xorLanes v[0] p[0])) (nonzero (xorLanes v2[0] p2[0]))),
       xorLanes s[1] (val (nonzero (xorLanes v[1] p[1])) (nonzero (xorLanes v2[1] p2[1])))]

/-- `_vmum_factor_block` -/
def pairFactorBlock (s p : PairBlock) : PairBlock := #v[val s[0] p[0], val s[1] p[1]]

def pairOps : BlockOps where
  Block := PairBlock
  ofWords w := #v[#v[w[0], w[1]], #v[w[2], w[3]]]
  zeroBlock := #v[#v[0, 0], #v[0, 0]]
  updateBlock := pairUpdateBlock cfg val nonzero
  factorBlock := pairFactorBlock val
  foldBlock b := b[0][0] ^^^ b[0][1] ^^^ b[1][0] ^^^ b[1][1]

end Pair

def neonOps (cfg : VmumConfig) : BlockOps := pairOps cfg (neonVal cfg.byteOrder) neonNonzero

def altivecOps (cfg : VmumConfig) : BlockOps :=
  pairOps cfg (altivecVal cfg.byteOrder) altivecNonzero

inductive BlockTarget where
  | avx2
  | neon
  | altivec
  | scalar
deriving DecidableEq, Repr

def BlockTarget.ops (cfg : VmumConfig) : BlockTarget → BlockOps
  | .avx2 => avx2Ops cfg
  | .neon => neonOps cfg
  | .altivec => altivecOps cfg
  | .scalar => scalarOps cfg

/-! ## What the code does to the words of a block -/

def updateWords (mix : BitVec 64 → BitVec 64 → BitVec 64) (s v v2 p p2 : BlockWords) : BlockWords :=
  Vector.ofFn fun k : Fin 4 => s[k] ^^^ dotHalves (mix v[k] p[k]) (mix v2[k] p2[k])

def factorWords (s p : BlockWords) : BlockWords := lanewise dotHalves s p

def foldWords (b : BlockWords) : BitVec 64 := b[0] ^^^ b[1] ^^^ b[2] ^^^ b[3]

structure BlockMeaning (ops : BlockOps) (mix : BitVec 64 → BitVec 64 → BitVec 64) where
  words : ops.Block → BlockWords
  words_ofWords : ∀ w, words (ops.ofWords w) = w
  words_zeroBlock : words ops.zeroBlock = #v[0, 0, 0, 0]
  words_updateBlock : ∀ s v v2 p p2, words (ops.updateBlock s v v2 p p2) =
    updateWords mix (words s) (words v) (words v2) (words p) (words p2)
  words_factorBlock : ∀ s p, words (ops.factorBlock s p) = factorWords (words s) (words p)
  foldBlock_eq : ∀ b, ops.foldBlock b = foldWords (words b)

theorem vmumVal_eq (v p : BitVec 64) : vmumVal v p = dotHalves v p := by
  have hhigh : ∀ x : BitVec 64, ((x >>> 32).setWidth 32).setWidth 64 = x >>> 32 := by
    intro x
    apply BitVec.eq_of_toNat_eq
    have hx := toNat_high_lt x
    rw [BitVec.toNat_setWidth, BitVec.toNat_setWidth, toNat_high]
    omega
  rw [vmumVal, dotHalves, widenMul, widenMul, hhigh, hhigh]

/-- Registers are equal when their lanes are. -/
theorem eq_of_lanes {v p : BlockWords} (h0 : v[0] = p[0]) (h1 : v[1] = p[1]) (h2 : v[2] = p[2])
    (h3 : v[3] = p[3]) : v = p := by
  apply Vector.ext
  intro k hk
  rcases k with _ | _ | _ | _ | k
  · exact h0
  · exact h1
  · exact h2
  · exact h3
  · omega

theorem eq_of_pair {v p : Register} (h0 : v[0] = p[0]) (h1 : v[1] = p[1]) : v = p := by
  apply Vector.ext
  intro k hk
  rcases k with _ | _ | k
  · exact h0
  · exact h1
  · omega

def scalarMix (cfg : VmumConfig) (v p : BitVec 64) : BitVec 64 := vmumXor cfg (vmumLe cfg v) p

def vectorMix (cfg : VmumConfig) (v p : BitVec 64) : BitVec 64 :=
  if cfg.v1 then v ^^^ p else fillZero (v ^^^ p)

theorem scalarUpdateBlock_eq (cfg : VmumConfig) (s v v2 p p2 : BlockWords) :
    scalarUpdateBlock cfg s v v2 p p2 = updateWords (scalarMix cfg) s v v2 p p2 := by
  apply eq_of_lanes <;> simp [scalarUpdateBlock, updateWords, scalarMix, vmumVal_eq]

theorem scalarFactorBlock_eq (s p : BlockWords) : scalarFactorBlock s p = factorWords s p := by
  apply eq_of_lanes <;> simp [scalarFactorBlock, factorWords, vmumVal_eq]

def scalarMeaning (cfg : VmumConfig) : BlockMeaning (scalarOps cfg) (scalarMix cfg) where
  words := id
  words_ofWords _ := rfl
  words_zeroBlock := rfl
  words_updateBlock := scalarUpdateBlock_eq cfg
  words_factorBlock := scalarFactorBlock_eq
  foldBlock_eq _ := rfl

/-! ### AVX2 -/

theorem or_fillZero (v : BitVec 64) :
    v ||| (if v = 0 then BitVec.allOnes 64 else 0) = fillZero v := by
  rw [fillZero]
  split
  · exact BitVec.or_allOnes
  · exact BitVec.or_zero

theorem avx2Block_eq (v p : BlockWords) : avx2Block v p = factorWords v p := by
  apply Vector.ext
  intro k hk
  simp only [avx2Block, factorWords, dotHalves, getElem_lanewise, getElem_pmuludq256 _ _ hk,
    getElem_eachLane, setWidth_sshiftRight_half]

theorem avx2Nonzero_eq (v : BlockWords) : avx2Nonzero v = eachLane fillZero v := by
  apply eq_of_lanes <;> simp only [avx2Nonzero, pcmpeqq256, getElem_lanewise, getElem_eachLane] <;>
    exact or_fillZero _

theorem avx2UpdateBlock_eq (cfg : VmumConfig) (s v v2 p p2 : BlockWords) :
    avx2UpdateBlock cfg s v v2 p p2 = updateWords (vectorMix cfg) s v v2 p p2 := by
  apply Vector.ext
  intro k hk
  cases hv1 : cfg.v1 <;>
    simp only [avx2UpdateBlock, updateWords, vectorMix, hv1, avx2Block_eq, avx2Nonzero_eq, factorWords,
      xorLanes, if_true, if_false, Bool.false_eq_true, getElem_lanewise, getElem_eachLane,
      Vector.getElem_ofFn, Fin.getElem_fin]

def avx2Meaning (cfg : VmumConfig) : BlockMeaning (avx2Ops cfg) (vectorMix cfg) where
  words := id
  words_ofWords _ := rfl
  words_zeroBlock := rfl
  words_updateBlock := avx2UpdateBlock_eq cfg
  words_factorBlock := avx2Block_eq
  foldBlock_eq _ := rfl

/-! ### NEON and AltiVec -/

section Pair

variable {val : Register → Register → Register} {nonzero : Register → Register}
  (hval : ∀ v p, val v p = lanewise dotHalves v p)
  (hnonzero : ∀ v, nonzero v = eachLane fillZero v)

def pairWords (b : PairBlock) : BlockWords := #v[b[0][0], b[0][1], b[1][0], b[1][1]]

include hval in
theorem pairFactorBlock_eq (s p : PairBlock) :
    pairWords (pairFactorBlock val s p) = factorWords (pairWords s) (pairWords p) := by
  apply eq_of_lanes <;> simp [pairWords, pairFactorBlock, factorWords, hval]

include hval hnonzero in
theorem pairUpdateBlock_eq (cfg : VmumConfig) (s v v2 p p2 : PairBlock) :
    pairWords (pairUpdateBlock cfg val nonzero s v v2 p p2) =
      updateWords (vectorMix cfg) (pairWords s) (pairWords v) (pairWords v2) (pairWords p)
        (pairWords p2) := by
  cases hv1 : cfg.v1 <;> apply eq_of_lanes <;>
    simp [pairWords, pairUpdateBlock, updateWords, vectorMix, hv1, hval, hnonzero, xorLanes]

def pairMeaning (cfg : VmumConfig) : BlockMeaning (pairOps cfg val nonzero) (vectorMix cfg) where
  words := pairWords
  words_ofWords _ := eq_of_lanes rfl rfl rfl rfl
  words_zeroBlock := rfl
  words_updateBlock := pairUpdateBlock_eq hval hnonzero cfg
  words_factorBlock := pairFactorBlock_eq hval
  foldBlock_eq _ := rfl

end Pair

theorem neonVal_eq (order : ByteOrder) (v p : Register) :
    neonVal order v p = lanewise dotHalves v p := by
  apply eq_of_pair
  · rw [getElem_lanewise]
    exact dot_lanes32 order v p (k := 0) (by decide)
  · rw [getElem_lanewise]
    exact dot_lanes32 order v p (k := 1) (by decide)

theorem neonNonzero_eq (v : Register) : neonNonzero v = eachLane fillZero v := by
  apply Vector.ext
  intro k hk
  simp only [neonNonzero, vceqzqU64, getElem_lanewise, getElem_eachLane]
  rw [BitVec.or_comm]
  exact or_fillZero _

theorem altivecVal_eq (order : ByteOrder) (v p : Register) :
    altivecVal order v p = lanewise dotHalves v p := by
  apply eq_of_pair
  · rw [altivecVal, getElem_lanewise, getElem_lanewise]
    exact dot_lanes32 order v p (k := 0) (by decide)
  · rw [altivecVal, getElem_lanewise, getElem_lanewise]
    exact dot_lanes32 order v p (k := 1) (by decide)

/-- All ones where the mask is clear, which it is for a zero. -/
theorem sel_fillZero (v : BitVec 64) :
    (0xffffffffffffffff &&& ~~~ (if v ≠ 0 then BitVec.allOnes 64 else 0)) |||
      (v &&& (if v ≠ 0 then BitVec.allOnes 64 else 0)) = fillZero v := by
  rw [fillZero]
  rcases eq_or_ne v 0 with rfl | hv
  · rfl
  · rw [if_pos hv, if_neg hv]
    exact (BitVec.zero_or).trans BitVec.and_allOnes

theorem altivecNonzero_eq (v : Register) : altivecNonzero v = eachLane fillZero v := by
  apply eq_of_pair <;>
    simp only [altivecNonzero, vecSel, vecCmpne, getElem_lanewise, getElem_eachLane] <;>
    exact sel_fillZero _

def BlockTarget.mix (cfg : VmumConfig) : BlockTarget → BitVec 64 → BitVec 64 → BitVec 64
  | .avx2 => vectorMix cfg
  | .neon => vectorMix cfg
  | .altivec => vectorMix cfg
  | .scalar => scalarMix cfg

def BlockTarget.meaning (cfg : VmumConfig) :
    (target : BlockTarget) → BlockMeaning (target.ops cfg) (target.mix cfg)
  | .avx2 => avx2Meaning cfg
  | .neon => pairMeaning (neonVal_eq cfg.byteOrder) neonNonzero_eq cfg
  | .altivec => pairMeaning (altivecVal_eq cfg.byteOrder) altivecNonzero_eq cfg
  | .scalar => scalarMeaning cfg

/-! ## Rounds -/

/-- A call of `_vmum_update_block` or of `_vmum_factor_block`, by the words that its
    pointers lead to. -/
inductive BlockRound where
  | update (v v2 p p2 : BlockWords)
  | factor (p : BlockWords)

def BlockOps.round (ops : BlockOps) (s : ops.Block) : BlockRound → ops.Block
  | .update v v2 p p2 =>
      ops.updateBlock s (ops.ofWords v) (ops.ofWords v2) (ops.ofWords p) (ops.ofWords p2)
  | .factor p => ops.factorBlock s (ops.ofWords p)

def BlockOps.foldRounds (ops : BlockOps) (s : BlockWords) (rounds : List BlockRound) : BitVec 64 :=
  ops.foldBlock (rounds.foldl ops.round (ops.ofWords s))

def roundWords (mix : BitVec 64 → BitVec 64 → BitVec 64) (s : BlockWords) : BlockRound → BlockWords
  | .update v v2 p p2 => updateWords mix s v v2 p p2
  | .factor p => factorWords s p

section Rounds

variable {ops : BlockOps} {mix : BitVec 64 → BitVec 64 → BitVec 64}

theorem BlockMeaning.words_round (m : BlockMeaning ops mix) (s : ops.Block) (r : BlockRound) :
    m.words (ops.round s r) = roundWords mix (m.words s) r := by
  cases r with
  | update v v2 p p2 => simp only [BlockOps.round, roundWords, m.words_updateBlock, m.words_ofWords]
  | factor p => simp only [BlockOps.round, roundWords, m.words_factorBlock, m.words_ofWords]

theorem BlockMeaning.words_rounds (m : BlockMeaning ops mix) (s : ops.Block)
    (rounds : List BlockRound) :
    m.words (rounds.foldl ops.round s) = rounds.foldl (roundWords mix) (m.words s) := by
  induction rounds generalizing s with
  | nil => rfl
  | cons r rounds ih => rw [List.foldl_cons, List.foldl_cons, ih, m.words_round]

theorem BlockMeaning.foldRounds_eq (m : BlockMeaning ops mix) (s : BlockWords)
    (rounds : List BlockRound) :
    ops.foldRounds s rounds = foldWords (rounds.foldl (roundWords mix) s) := by
  rw [BlockOps.foldRounds, m.foldBlock_eq, m.words_rounds, m.words_ofWords]

end Rounds

def BlockRound.Pairs (P : BitVec 64 → BitVec 64 → Prop) : BlockRound → Prop
  | .update v v2 p p2 => ∀ k : Fin 4, P v[k] p[k] ∧ P v2[k] p2[k]
  | .factor _ => True

instance (P : BitVec 64 → BitVec 64 → Prop) [∀ v p, Decidable (P v p)] :
    (r : BlockRound) → Decidable (r.Pairs P)
  | .update v v2 p p2 =>
      inferInstanceAs (Decidable (∀ k : Fin 4, P v[k] p[k] ∧ P v2[k] p2[k]))
  | .factor _ => inferInstanceAs (Decidable True)

theorem roundWords_congr {mix mix' : BitVec 64 → BitVec 64 → BitVec 64} {r : BlockRound}
    (h : r.Pairs fun v p => mix v p = mix' v p) (s : BlockWords) :
    roundWords mix s r = roundWords mix' s r := by
  cases r with
  | update v v2 p p2 =>
    simp only [roundWords, updateWords, (h _).1, (h _).2]
  | factor p => rfl

/-! ## The vector code against the scalar code -/

/-- The two ways to keep a zero out of a product agree on a word unless it equals its
    factor and the factor is not all ones. -/
theorem fillZero_eq_vmumXor_iff {cfg : VmumConfig} (hv1 : cfg.v1 = false) (v p : BitVec 64) :
    fillZero (v ^^^ p) = vmumXor cfg v p ↔ (v = p → p = BitVec.allOnes 64) := by
  simp only [fillZero, vmumXor, hv1, Bool.false_eq_true, if_false]
  rcases eq_or_ne v p with rfl | hne
  · have hxor : v ^^^ v = 0 := BitVec.xor_self
    rw [if_pos hxor, if_neg (not_not.mpr hxor)]
    exact ⟨fun h _ => h.symm, fun h => (h rfl).symm⟩
  · have hxor : v ^^^ p ≠ 0 := fun h => hne (BitVec.xor_eq_zero_iff.mp h)
    rw [if_neg hxor, if_pos hxor]
    exact ⟨fun _ h => absurd h hne, fun _ => rfl⟩

theorem BlockTarget.mix_eq_scalarMix {cfg : VmumConfig} (hv1 : cfg.v1 = false)
    (horder : cfg.byteOrder = .little) (target : BlockTarget) {v p : BitVec 64}
    (h : v = p → p = BitVec.allOnes 64) : target.mix cfg v p = scalarMix cfg v p := by
  have hle : vmumLe cfg v = v := by simp [vmumLe, VmumConfig.nativeOrder, horder]
  have hvector : vectorMix cfg v p = scalarMix cfg v p := by
    rw [vectorMix, if_neg (by simp [hv1]), scalarMix, hle]
    exact (fillZero_eq_vmumXor_iff hv1 v p).mpr h
  cases target with
  | avx2 => exact hvector
  | neon => exact hvector
  | altivec => exact hvector
  | scalar => rfl

/-- The fold after any rounds is the same with every target's code, from any start, if no
    word of the key equals its factor (or only where the factor is all ones). -/
theorem vector_rounds_agree {cfg : VmumConfig} (hv1 : cfg.v1 = false)
    (horder : cfg.byteOrder = .little) (target : BlockTarget) (s : BlockWords)
    (rounds : List BlockRound)
    (hdata : ∀ r ∈ rounds, r.Pairs fun v p => v = p → p = BitVec.allOnes 64) :
    (target.ops cfg).foldRounds s rounds = (scalarOps cfg).foldRounds s rounds := by
  rw [(target.meaning cfg).foldRounds_eq, (scalarMeaning cfg).foldRounds_eq]
  refine congrArg foldWords (List.foldl_ext _ _ s fun s' r hr => roundWords_congr ?_ s')
  have hpairs := hdata r hr
  cases r with
  | update v v2 p p2 =>
    exact fun k => ⟨target.mix_eq_scalarMix hv1 horder (hpairs k).1,
      target.mix_eq_scalarMix hv1 horder (hpairs k).2⟩
  | factor p => trivial

def factorBlocks : BlockWords × BlockWords :=
  let f := vmumFactors.factors
  (#v[f[0], f[1], f[2], f[3]], #v[f[4], f[5], f[6], f[7]])

theorem vector_rounds_agree_zeros :
    (avx2Ops defaultConfig).foldRounds #v[0, 0, 0, 0]
        [.update #v[0, 0, 0, 0] #v[0, 0, 0, 0] factorBlocks.1 factorBlocks.2,
          .factor vmumFactors.unroll] =
      (scalarOps defaultConfig).foldRounds #v[0, 0, 0, 0]
        [.update #v[0, 0, 0, 0] #v[0, 0, 0, 0] factorBlocks.1 factorBlocks.2,
          .factor vmumFactors.unroll] :=
  vector_rounds_agree rfl rfl .avx2 _ _ (by decide)

/-- A key that begins with the first factor. -/
theorem vector_rounds_differ :
    (avx2Ops defaultConfig).foldRounds #v[0, 0, 0, 0]
        [.update #v[vmumFactors.factors[0], 0, 0, 0] #v[0, 0, 0, 0] factorBlocks.1 factorBlocks.2] ≠
      (scalarOps defaultConfig).foldRounds #v[0, 0, 0, 0]
        [.update #v[vmumFactors.factors[0], 0, 0, 0] #v[0, 0, 0, 0] factorBlocks.1 factorBlocks.2] ∧
    (neonOps defaultConfig).foldRounds #v[0, 0, 0, 0]
        [.update #v[vmumFactors.factors[0], 0, 0, 0] #v[0, 0, 0, 0] factorBlocks.1 factorBlocks.2] ≠
      (scalarOps defaultConfig).foldRounds #v[0, 0, 0, 0]
        [.update #v[vmumFactors.factors[0], 0, 0, 0] #v[0, 0, 0, 0] factorBlocks.1 factorBlocks.2] := by
  decide +kernel

end IndexedHash
