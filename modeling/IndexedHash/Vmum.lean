import Mathlib.Tactic.Common
import IndexedHash.ByteWord
import IndexedHash.WideProduct

/-!
# `vmum.h`: multiply and mix

`_vmum` multiplies two 64-bit words and adds the two words of the product.  Where the
compiler has 128-bit integers it uses them; elsewhere it multiplies the halves, and then
`VMUM_TARGET_INDEPENDENT_HASH` decides whether the carries of the low word reach the
high one.  With them the halves give the exact product (`vmum_parts_exact`).  Without
them the high word is too small by the number of carries, so that the two bodies agree
on the operands whose low word needs none (`vmum_default`), and `vmum_hash64`,
which promises the same hash on any target, agrees when none of its three
multiplications needs one (`vmum_hash64_bodies_agree`).

The factors are variables of the header, which `vmum_hash_randomize` sets; the theorems
are about any factors, and `vmumFactors` are the initial ones.
-/

namespace IndexedHash

open ByteWord WideProduct

/-! ## Configurations -/

/-- The macros and the properties of the target that select the code of the header. -/
structure VmumConfig where
  /-- `_VMUM_USE_INT128` -/
  useInt128 : Bool
  /-- `VMUM_TARGET_INDEPENDENT_HASH` is defined -/
  targetIndependent : Bool
  /-- `VMUM_V1` is defined -/
  v1 : Bool
  byteOrder : ByteOrder
  /-- the number of bits of `size_t` -/
  sizeBits : Nat
  sizeBits_ge : 16 ≤ sizeBits

/-- The variables `_vmum_hash_step_factor`, `_vmum_key_step_factor`,
    `_vmum_block_start_factor`, `_vmum_tail_factor`, `_vmum_unroll_factors` and
    `_vmum_factors`. -/
structure VmumFactors where
  hashStep : BitVec 64
  keyStep : BitVec 64
  blockStart : BitVec 64
  tail : BitVec 64
  unroll : Vector (BitVec 64) 4
  factors : Vector (BitVec 64) 80

def vmumFactors : VmumFactors where
  hashStep := 0x7fc65e8a22c2f74b#64
  keyStep := 0x9b307d68270e94e5#64
  blockStart := 0x6608b54dafbc797c#64
  tail := 0xc6f58747253b0e84#64
  unroll := #v[0x191fb5fc4a9bf2de#64, 0xd9a09a0a2c4eb3eb#64, 0x90f15ee96deb1eec#64,
    0x1a970df0a79d09ba#64]
  factors := #v[
    0x0c3ec9639d3a203f#64, 0x898368b5fb060422#64, 0xfe3c08767c1e5068#64, 0x4535ac3cb182d3ca#64,
    0xba6ba8dcc8a2d978#64, 0x9f1221df37b27ca1#64, 0x57b1b40817cde05e#64, 0xadb5c6075e5dd1c3#64,
    0x0f91abf611686bc3#64, 0x72fc850fbe9023f4#64, 0x4922ec730400d7e1#64, 0x7452d927d9970eb2#64,
    0x607ad8c0dbe89ff9#64, 0x463bf8a99a222448#64, 0x6a0c8e5c2171d499#64, 0x88a9af1a70175e0f#64,
    0x50c07b9351011316#64, 0xce26a1f4e66e3d1f#64, 0x396d79c90c86b1ed#64, 0x3739b72e11fc4684#64,
    0x7fe4adc8400af08e#64, 0xfa2e47475b11a3ce#64, 0xd519635f1d7b9242#64, 0x866d04bd866130fc#64,
    0x6132e913fd0ae2c9#64, 0xaeacc8d99a02880d#64, 0xf196fbab2ef62dbb#64, 0x62a6a4ae6d3f5fdd#64,
    0x3147dbedb6618cf4#64, 0x18dc2a4e6e46b7f5#64, 0x98ce62d3e346f804#64, 0x3e507b6626b9c9c6#64,
    0x08d2d6aba49b53a7#64, 0x64f897cf54cc0984#64, 0xe6568e3081d4dc31#64, 0x936eff54d90e79bd#64,
    0x45ecee4cb55e5529#64, 0xe7729fe4b83bd1f0#64, 0x8ced03855b3a62ae#64, 0xc29ee17b601d5ea6#64,
    0xfadd87cd819b8b23#64, 0x5ff6b6787a02da34#64, 0xcc0f997728759ba9#64, 0x06a51956916c45ff#64,
    0xd31923282290a41f#64, 0x9e2fcda93feb36aa#64, 0xfdc11827f9bb4b63#64, 0xe11b2c099cf17325#64,
    0xd4efd1919316bb4e#64, 0x7749918c7756d897#64, 0x32eff42dc1c4f41e#64, 0x4171f5e422bdf4fa#64,
    0xdd5c7f50a7977e65#64, 0xc52dc937487cc197#64, 0xbff445a1c9b19184#64, 0xb2fd8206a0325cb9#64,
    0xbf32bb70e354a83c#64, 0x587313d37681ffc2#64, 0x687c0b98ef7ad731#64, 0x2c09a37608248f89#64,
    0x20c8d9b1b6e28faa#64, 0x747008703cbc9483#64, 0x0bdcacce877cb231#64, 0xf740c0ac1dc79a0c#64,
    0x8e843baef228089d#64, 0xc379d4c3b6e28c1b#64, 0xb5d44eee257f1206#64, 0xb5dfee44ef6b05ad#64,
    0xaab0edc0f566f359#64, 0x21883ede514d45dd#64, 0xcdaeea0482c73a46#64, 0xb3751631e5645c4f#64,
    0xd22ac81254aad1ac#64, 0x59c0f8f5c93121df#64, 0x3b343a848e3097c3#64, 0x87c65a3a866ed9ed#64,
    0xf112c880c63ddafd#64, 0xff98b9575bfce057#64, 0xd6e8f6ad6f4da8ae#64, 0xba0379ba20645a51#64]

/-! ## `_vmum` -/

/-- `hi` and `lo` of the body with `__uint128_t` -/
def vmumWide (v p : BitVec 64) : BitVec 64 × BitVec 64 :=
  let r : BitVec 128 := v.setWidth 128 * p.setWidth 128
  ((r >>> 64).setWidth 64, r.setWidth 64)

/-- `hi` and `lo` of the body with four multiplications; `independent` is
    `VMUM_TARGET_INDEPENDENT_HASH` -/
def vmumParts (independent : Bool) (v p : BitVec 64) : BitVec 64 × BitVec 64 :=
  let hv := v >>> 32
  let hp := p >>> 32
  let lv := (v.setWidth 32).setWidth 64
  let lp := (p.setWidth 32).setWidth 64
  let rh := hv * hp
  let rm0 := hv * lp
  let rm1 := hp * lv
  let rl := lv * lp
  let t := rl + (rm0 <<< 32)
  let carry : BitVec 64 := if independent then (if t < rl then 1 else 0) else 0
  let lo := t + (rm1 <<< 32)
  let carry := if independent then carry + (if lo < t then 1 else 0) else carry
  (rh + (rm0 >>> 32) + (rm1 >>> 32) + carry, lo)

/-- `_vmum` -/
def vmum (cfg : VmumConfig) (v p : BitVec 64) : BitVec 64 :=
  let r := if cfg.useInt128 then vmumWide v p else vmumParts cfg.targetIndependent v p
  r.1 + r.2

/-! ## Words of the key -/

/-- `_vmum_bswap64` and `_vmum_bswap32`, on the low `n` bytes of a word -/
def bswap (n : Nat) (v : BitVec 64) : BitVec 64 := loadLE ((unpackBytes v).take n).reverse

def VmumConfig.nativeOrder (cfg : VmumConfig) : Bool :=
  cfg.byteOrder == .little || !cfg.targetIndependent

/-- `_vmum_le` -/
def vmumLe (cfg : VmumConfig) (v : BitVec 64) : BitVec 64 :=
  if cfg.nativeOrder then v else bswap 8 v

/-- `_vmum_le32` -/
def vmumLe32 (cfg : VmumConfig) (v : BitVec 32) : BitVec 32 :=
  if cfg.nativeOrder then v else (bswap 4 (v.setWidth 64)).setWidth 32

/-- `_vmum_le16`, which returns a 64-bit word -/
def vmumLe16 (cfg : VmumConfig) (v : BitVec 16) : BitVec 64 :=
  if cfg.nativeOrder then v.setWidth 64 else ((v >>> 8) ||| ((v &&& 0xff) <<< 8)).setWidth 64

/-- `_vmum_xor` -/
def vmumXor (cfg : VmumConfig) (a b : BitVec 64) : BitVec 64 :=
  if cfg.v1 then a ^^^ b else if a ^^^ b ≠ 0 then a ^^^ b else b

/-- `_vmum_plus` -/
def vmumPlus (cfg : VmumConfig) (a b : BitVec 64) : BitVec 64 :=
  if cfg.v1 then a + b else if a + b ≠ 0 then a + b else b

/-! ## The two bodies -/

section Bodies

variable (v p : BitVec 64)

/-- The low word of `v * p` is the sum of its parts without a carry. -/
def LowFits : Prop := lowSum (2 ^ 32) v.toNat p.toNat < 2 ^ 64

instance : Decidable (LowFits v p) := inferInstanceAs (Decidable (_ < _))

theorem vmumWide_words :
    (vmumWide v p).1.toNat * 2 ^ 64 + (vmumWide v p).2.toNat = v.toNat * p.toNat := by
  have hlt : v.toNat * p.toNat < 2 ^ 64 * 2 ^ 64 := Nat.mul_lt_mul'' v.isLt p.isLt
  have hr : (v.setWidth 128 * p.setWidth 128).toNat = v.toNat * p.toNat := by
    have hv : v.toNat < 2 ^ 128 := Nat.lt_trans v.isLt (by decide)
    have hp : p.toNat < 2 ^ 128 := Nat.lt_trans p.isLt (by decide)
    rw [BitVec.toNat_mul, BitVec.toNat_setWidth, BitVec.toNat_setWidth, Nat.mod_eq_of_lt hv,
      Nat.mod_eq_of_lt hp, Nat.mod_eq_of_lt (Nat.lt_of_lt_of_le hlt (by decide))]
  have hhi : v.toNat * p.toNat / 2 ^ 64 < 2 ^ 64 := Nat.div_lt_of_lt_mul hlt
  simp only [vmumWide, BitVec.toNat_setWidth, BitVec.toNat_ushiftRight, hr, Nat.shiftRight_eq_div_pow,
    Nat.mod_eq_of_lt hhi]
  exact Nat.div_add_mod' _ _

/-- The halves and their products, as numbers. -/
theorem toNat_low : ((v.setWidth 32).setWidth 64).toNat = v.toNat % 2 ^ 32 := by
  rw [BitVec.toNat_setWidth, BitVec.toNat_setWidth]
  exact Nat.mod_eq_of_lt (Nat.lt_trans (Nat.mod_lt _ (by decide)) (by decide))

theorem toNat_high : (v >>> 32).toNat = v.toNat / 2 ^ 32 := by
  rw [BitVec.toNat_ushiftRight, Nat.shiftRight_eq_div_pow]

theorem toNat_high_lt : v.toNat / 2 ^ 32 < 2 ^ 32 :=
  Nat.div_lt_of_lt_mul (Nat.lt_of_lt_of_le v.isLt (by decide))

variable {v p} in
theorem toNat_mul_halves (hv : v.toNat < 2 ^ 32) (hp : p.toNat < 2 ^ 32) :
    (v * p).toNat = v.toNat * p.toNat := by
  rw [BitVec.toNat_mul]
  exact Nat.mod_eq_of_lt (Nat.lt_of_lt_of_le (Nat.mul_lt_mul'' hv hp) (by decide))

theorem toNat_shiftLeft_half : (v <<< 32).toNat = v.toNat % 2 ^ 32 * 2 ^ 32 := by
  rw [BitVec.toNat_shiftLeft, Nat.shiftLeft_eq]
  have h64 : 2 ^ 64 = 2 ^ 32 * 2 ^ 32 := by decide
  rw [h64, Nat.mul_mod_mul_right]

/-- What the four multiplications give, with the carries and without: the same low word,
    and a high word that is too small by the carries that are left out. -/
theorem vmumParts_words :
    ∃ c ≤ 2, (vmumParts false v p).2 = (vmumParts true v p).2 ∧
      (vmumParts true v p).2.toNat + 2 ^ 64 * c = lowSum (2 ^ 32) v.toNat p.toNat ∧
      (vmumParts true v p).1.toNat * 2 ^ 64 + (vmumParts true v p).2.toNat = v.toNat * p.toNat ∧
      (vmumParts true v p).1 = (vmumParts false v p).1 + BitVec.ofNat 64 c := by
  have hlv := toNat_low v
  have hlp := toNat_low p
  have hhv := toNat_high v
  have hhp := toNat_high p
  have hhv' := toNat_high_lt v
  have hhp' := toNat_high_lt p
  have hlv' : v.toNat % 2 ^ 32 < 2 ^ 32 := Nat.mod_lt _ (by decide)
  have hlp' : p.toNat % 2 ^ 32 < 2 ^ 32 := Nat.mod_lt _ (by decide)
  simp only [vmumParts, if_true, Bool.false_eq_true, if_false]
  generalize (v.setWidth 32).setWidth 64 = lv at hlv ⊢
  generalize (p.setWidth 32).setWidth 64 = lp at hlp ⊢
  generalize v >>> 32 = hv at hhv ⊢
  generalize p >>> 32 = hp at hhp ⊢
  -- the four products are exact
  have hrh : (hv * hp).toNat = v.toNat / 2 ^ 32 * (p.toNat / 2 ^ 32) := by
    rw [toNat_mul_halves (by omega) (by omega), hhv, hhp]
  have hrm0 : (hv * lp).toNat = v.toNat / 2 ^ 32 * (p.toNat % 2 ^ 32) := by
    rw [toNat_mul_halves (by omega) (by omega), hhv, hlp]
  have hrm1 : (hp * lv).toNat = p.toNat / 2 ^ 32 * (v.toNat % 2 ^ 32) := by
    rw [toNat_mul_halves (by omega) (by omega), hhp, hlv]
  have hrl : (lv * lp).toNat = v.toNat % 2 ^ 32 * (p.toNat % 2 ^ 32) := by
    rw [toNat_mul_halves (by omega) (by omega), hlv, hlp]
  obtain ⟨c, hc, hlow, hcarry⟩ := add_add_carries (lv * lp) ((hv * lp) <<< 32) ((hp * lv) <<< 32)
  rw [toNat_shiftLeft_half, toNat_shiftLeft_half, hrl, hrm0, hrm1] at hlow
  have hwords := words_of_halves (B := 2 ^ 32) hlow
  rw [hcarry]
  refine ⟨c, hc, trivial, hlow, ?_, by simp only [BitVec.ofNat_eq_ofNat, BitVec.add_zero]⟩
  -- the sum for the high word is the high word of the product, and so does not wrap
  have hlt : v.toNat * p.toNat < 2 ^ 64 * 2 ^ 64 := Nat.mul_lt_mul'' v.isLt p.isLt
  rw [← hwords] at hlt
  have hfits := Nat.lt_of_mul_lt_mul_right (Nat.lt_of_le_of_lt (Nat.le_add_right _ _) hlt)
  have hhi : (hv * hp + (hv * lp) >>> 32 + (hp * lv) >>> 32 + BitVec.ofNat 64 c).toNat =
      v.toNat / 2 ^ 32 * (p.toNat / 2 ^ 32) + v.toNat / 2 ^ 32 * (p.toNat % 2 ^ 32) / 2 ^ 32 +
        p.toNat / 2 ^ 32 * (v.toNat % 2 ^ 32) / 2 ^ 32 + c := by
    simp only [BitVec.toNat_add, BitVec.toNat_ofNat, toNat_high, hrm0, hrm1, hrh, Nat.mod_add_mod,
      Nat.add_mod_mod]
    exact Nat.mod_eq_of_lt hfits
  rw [hhi]
  exact hwords

/-- With the carries, the four multiplications give the two words of the exact product,
    and so the same as the 128-bit multiplication. -/
theorem vmum_parts_exact :
    (vmumParts true v p).1.toNat * 2 ^ 64 + (vmumParts true v p).2.toNat = v.toNat * p.toNat ∧
    vmumParts true v p = vmumWide v p ∧
    ∀ cfg : VmumConfig, vmum { cfg with useInt128 := false, targetIndependent := true } v p =
      vmum { cfg with useInt128 := true, targetIndependent := true } v p := by
  obtain ⟨c, -, -, -, hwords, -⟩ := vmumParts_words v p
  have hsame : vmumParts true v p = vmumWide v p := by
    obtain ⟨hhi, hlo⟩ := words_unique (vmumParts true v p).2.isLt (vmumWide v p).2.isLt
      (hwords.trans (vmumWide_words v p).symm)
    exact Prod.ext (BitVec.eq_of_toNat_eq hhi) (BitVec.eq_of_toNat_eq hlo)
  refine ⟨hwords, hsame, fun cfg => ?_⟩
  simp only [vmum, Bool.false_eq_true, if_false, if_true, hsame]

/-- Without the carries the result is too small by their number. -/
theorem vmum_default (cfg : VmumConfig) :
    ∃ c ≤ 2, (LowFits v p ↔ c = 0) ∧
      vmum { cfg with useInt128 := true, targetIndependent := false } v p =
        vmum { cfg with useInt128 := false, targetIndependent := false } v p + BitVec.ofNat 64 c := by
  obtain ⟨c, hc, hlow, hsum, hwords, hhi⟩ := vmumParts_words v p
  obtain ⟨hhi', hlo'⟩ := words_unique (vmumParts true v p).2.isLt (vmumWide v p).2.isLt
    (hwords.trans (vmumWide_words v p).symm)
  refine ⟨c, hc, ?_, ?_⟩
  · have hlt := (vmumParts true v p).2.isLt
    rw [LowFits, ← hsum]
    omega
  · simp only [vmum, Bool.false_eq_true, if_false, if_true]
    rw [← BitVec.eq_of_toNat_eq hhi', ← BitVec.eq_of_toNat_eq hlo', hhi, hlow, BitVec.add_assoc,
      BitVec.add_assoc, BitVec.add_comm (BitVec.ofNat 64 c)]

end Bodies

/-! ## `vmum_hash64` -/

/-- `_vmum_final` -/
def vmumFinal (cfg : VmumConfig) (h : BitVec 64) : BitVec 64 := vmum cfg h h

/-- `vmum_hash_init` -/
def vmumHashInit (seed : BitVec 64) : BitVec 64 := seed

/-- `vmum_hash_step` -/
def vmumHashStep (cfg : VmumConfig) (fs : VmumFactors) (h key : BitVec 64) : BitVec 64 :=
  vmum cfg h fs.hashStep ^^^ vmum cfg key fs.keyStep

/-- `vmum_hash_finish` -/
def vmumHashFinish (cfg : VmumConfig) (h : BitVec 64) : BitVec 64 := vmumFinal cfg h

/-- `vmum_hash64`, which returns a `size_t` -/
def vmumHash64 (cfg : VmumConfig) (fs : VmumFactors) (key seed : BitVec 64) : BitVec cfg.sizeBits :=
  (vmumHashFinish cfg (vmumHashStep cfg fs (vmumHashInit (seed + 8)) key)).setWidth cfg.sizeBits

/-- Up to two do not show in a `size_t` if and only if they are none. -/
theorem setWidth_add_iff {w c : Nat} (hw : 16 ≤ w) (hc : c ≤ 2) (x : BitVec 64) :
    x.setWidth w = (x + BitVec.ofNat 64 c).setWidth w ↔ c = 0 := by
  have hlow : ∀ y : BitVec 64, (y.setWidth w).toNat % 2 ^ 16 = y.toNat % 2 ^ 16 := by
    intro y
    rw [BitVec.toNat_setWidth]
    exact Nat.mod_mod_of_dvd _ (Nat.pow_dvd_pow 2 hw)
  constructor
  · intro h
    have hmod := congrArg (fun y => y.toNat % 2 ^ 16) h
    simp only [hlow, BitVec.toNat_add, BitVec.toNat_ofNat] at hmod
    omega
  · rintro rfl
    rw [BitVec.add_zero]

section Hash64

variable (cfg : VmumConfig) (fs : VmumFactors)

/-- Where the low word needs no carries the two bodies agree. -/
theorem vmum_of_lowFits {v p : BitVec 64} (h : LowFits v p) :
    vmum { cfg with useInt128 := false, targetIndependent := false } v p =
      vmum { cfg with useInt128 := true, targetIndependent := false } v p := by
  obtain ⟨c, -, hc, heq⟩ := vmum_default v p cfg
  rw [heq, hc.mp h, BitVec.add_zero]

theorem vmumHashStep_of_lowFits {h key : BitVec 64} (hstate : LowFits h fs.hashStep)
    (hkey : LowFits key fs.keyStep) :
    vmumHashStep { cfg with useInt128 := false, targetIndependent := false } fs h key =
      vmumHashStep { cfg with useInt128 := true, targetIndependent := false } fs h key := by
  rw [vmumHashStep, vmumHashStep, vmum_of_lowFits cfg hstate, vmum_of_lowFits cfg hkey]

/-- From one state the last multiplication gives the same `size_t` only without carries. -/
theorem vmumHashFinish_iff (h : BitVec 64) :
    (vmumHashFinish { cfg with useInt128 := false, targetIndependent := false } h).setWidth
        cfg.sizeBits =
      (vmumHashFinish { cfg with useInt128 := true, targetIndependent := false } h).setWidth
        cfg.sizeBits ↔ LowFits h h := by
  obtain ⟨c, hc, hfits, heq⟩ := vmum_default h h cfg
  rw [vmumHashFinish, vmumHashFinish, vmumFinal, vmumFinal, heq, hfits]
  exact setWidth_add_iff cfg.sizeBits_ge hc _

/-- Where the two multiplications of the step need no carries, the two bodies give the same
    hash if and only if the last multiplication needs none. -/
theorem vmumHash64_last_iff {key seed : BitVec 64} (hseed : LowFits (seed + 8) fs.hashStep)
    (hkey : LowFits key fs.keyStep) :
    vmumHash64 { cfg with useInt128 := false, targetIndependent := false } fs key seed =
        vmumHash64 { cfg with useInt128 := true, targetIndependent := false } fs key seed ↔
      LowFits
        (vmumHashStep { cfg with useInt128 := true, targetIndependent := false } fs
          (vmumHashInit (seed + 8)) key)
        (vmumHashStep { cfg with useInt128 := true, targetIndependent := false } fs
          (vmumHashInit (seed + 8)) key) := by
  have hstep := vmumHashStep_of_lowFits cfg fs (h := vmumHashInit (seed + 8)) hseed hkey
  rw [← vmumHashFinish_iff cfg, vmumHash64, vmumHash64, hstep]

end Hash64

/-- The 128-bit body and, in the default configuration, the body with four
    multiplications: where none of the three multiplications of a hash needs a carry, the
    two give the same hash. -/
theorem vmum_hash64_bodies_agree (cfg : VmumConfig) (fs : VmumFactors) (key seed : BitVec 64)
    (hseed : LowFits (seed + 8) fs.hashStep) (hkey : LowFits key fs.keyStep)
    (hstate : LowFits
      (vmumHashStep { cfg with useInt128 := true, targetIndependent := false } fs
        (vmumHashInit (seed + 8)) key)
      (vmumHashStep { cfg with useInt128 := true, targetIndependent := false } fs
        (vmumHashInit (seed + 8)) key)) :
    vmumHash64 { cfg with useInt128 := false, targetIndependent := false } fs key seed =
      vmumHash64 { cfg with useInt128 := true, targetIndependent := false } fs key seed :=
  (vmumHash64_last_iff cfg fs hseed hkey).mpr hstate

def defaultConfig : VmumConfig where
  useInt128 := true
  targetIndependent := false
  v1 := false
  byteOrder := .little
  sizeBits := 64
  sizeBits_ge := by decide

theorem vmum_hash64_bodies_four :
    vmumHash64 { defaultConfig with useInt128 := false } vmumFactors 4 0 =
      vmumHash64 defaultConfig vmumFactors 4 0 :=
  vmum_hash64_bodies_agree defaultConfig vmumFactors 4 0 (by decide) (by decide) (by decide)

/-- The carries of the two multiplications of the step may cancel in its exclusive or, so
    the condition is enough and not necessary. -/
theorem vmumHash64_agree_with_carries :
    ¬ LowFits (0xed2f89d94a2f20aa#64 + 8) vmumFactors.hashStep ∧
    ¬ LowFits 0x6a8ac4ba05805975#64 vmumFactors.keyStep ∧
    vmumHash64 { defaultConfig with useInt128 := false } vmumFactors 0x6a8ac4ba05805975#64
        0xed2f89d94a2f20aa#64 =
      vmumHash64 defaultConfig vmumFactors 0x6a8ac4ba05805975#64 0xed2f89d94a2f20aa#64 := by
  decide

/-- The key `1`: the two bodies differ, also where `size_t` has 32 bits. -/
theorem vmum_hash64_bodies_differ :
    vmumHash64 { defaultConfig with useInt128 := false } vmumFactors 1 0 ≠
      vmumHash64 defaultConfig vmumFactors 1 0 ∧
    (vmumHash64 { defaultConfig with useInt128 := false } vmumFactors 1 0).setWidth 32 ≠
      (vmumHash64 defaultConfig vmumFactors 1 0).setWidth 32 := by
  decide

end IndexedHash
