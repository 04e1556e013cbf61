import Mathlib.Data.List.Basic
import Mathlib.Tactic.Common
import IndexedHash.ByteWord

/-!
# Tags, and the matching of one group of eight of them

The "SIMD / SWAR platform selection" part of `ihtab.h` and `ixhtab.h`.  A group
is eight tag bytes.  A tag is the top seven bits of a hash, or one of two marks
with the top bit set.  Three targets implement the two queries on a group, "which
tags equal `h7_val`" and "which slots are empty", each as a mask:

* SSE2 and NEON flag byte `j` by bit `j` of the mask;
* the SWAR fallback flags byte `j` by bit `8 * j + 7` (`IHT_MASK_SCALE` is 1).

The two headers have the same text here up to the prefix of the names.  The `v0`
headers differ in the empty tag, `0x80`, and in the second query.

`GroupOps.Lawful` is all that the probe loops rely on.  The SWAR match mask is
not exact: it may also flag a byte equal to `h7_val ^ 1` (`swar_matches`).
-/

namespace IndexedHash

open ByteWord

def EMPTY_H7 : BitVec 8 := 0xc0#8
def DELETED_H7 : BitVec 8 := 0x80#8

def V0_EMPTY_H7 : BitVec 8 := 0x80#8

/-- `(hash >> (sizeof (size_t) * 8 - 7)) & 0x7f` -/
def h7Val (hash : BitVec 64) : BitVec 8 := (hash >>> 57).setWidth 8 &&& 0x7f#8

abbrev Tags := Vector (BitVec 8) 8

/-- The bytes a tag of the current headers may hold. -/
def ValidTag (tag : BitVec 8) : Prop := tag < 0x80#8 ∨ tag = DELETED_H7 ∨ tag = EMPTY_H7

def V0ValidTag (tag : BitVec 8) : Prop := tag < 0x80#8 ∨ tag = V0_EMPTY_H7

theorem h7Val_lt (hash : BitVec 64) : h7Val hash < 0x80#8 := by
  rw [BitVec.lt_def]
  unfold h7Val
  rw [BitVec.toNat_and]
  have h : ((hash >>> 57).setWidth 8).toNat &&& (0x7f#8).toNat ≤ (0x7f#8).toNat :=
    Nat.and_le_right
  have h1 : (0x7f#8).toNat = 127 := rfl
  have h2 : (0x80#8).toNat = 128 := rfl
  omega

/-! ## Lane-wise intrinsics -/

/-- `__m128i`, as its sixteen byte lanes. -/
abbrev M128i := List (BitVec 8)

def mmCvtsi64Si128 (x : BitVec 64) : M128i := unpackBytes x ++ List.replicate 8 0#8

def mmSet1Epi8 (c : BitVec 8) : M128i := List.replicate 16 c

def mmCmpeqEpi8 (a b : M128i) : M128i :=
  List.zipWith (fun x y => if x = y then 0xff#8 else 0#8) a b

def mmAndSi128 (a b : M128i) : M128i := List.zipWith (· &&& ·) a b

def mmSlliEpi64 (a : M128i) (n : Nat) : M128i :=
  unpackBytes (loadLE (a.take 8) <<< n) ++ unpackBytes (loadLE (a.drop 8) <<< n)

def mmMovemaskEpi8 (a : M128i) : BitVec 64 :=
  BitVec.ofNat 64 (packBits (a.map fun lane => lane.getLsbD 7))

/-- `uint8x8_t`, as its eight byte lanes. -/
abbrev Uint8x8 := List (BitVec 8)

def vcreateU8 (x : BitVec 64) : Uint8x8 := unpackBytes x

def vdupNU8 (c : BitVec 8) : Uint8x8 := List.replicate 8 c

def vceqU8 (a b : Uint8x8) : Uint8x8 :=
  List.zipWith (fun x y => if x = y then 0xff#8 else 0#8) a b

def vandU8 (a b : Uint8x8) : Uint8x8 := List.zipWith (· &&& ·) a b

def vaddvU8 (a : Uint8x8) : BitVec 8 := a.foldl (· + ·) 0#8

/-! ## The three targets -/

/-- The branches of the platform selection, all on a little-endian host. -/
inductive Target where
  | sse2
  | neon
  | swar
deriving DecidableEq, Repr

structure GroupOps where
  groupLoad : List (BitVec 8) → BitVec 64
  maskScale : Bool
  matchMask : BitVec 64 → BitVec 8 → BitVec 64
  matchEmpty : BitVec 64 → BitVec 64

def IHT_SWAR_LSB : BitVec 64 := 0x0101010101010101#64
def IHT_SWAR_MSB : BitVec 64 := 0x8080808080808080#64

/-- `iht_match_mask`, `ixht_match_mask` (the same in the `v0` headers) -/
def ihtMatchMask : Target → BitVec 64 → BitVec 8 → BitVec 64
  | .sse2, g, h7Val =>
      mmMovemaskEpi8 (mmCmpeqEpi8 (mmCvtsi64Si128 g) (mmSet1Epi8 h7Val)) &&& 0xff#64
  | .neon, g, h7Val =>
      let matchEq := vceqU8 (vcreateU8 g) (vdupNU8 h7Val)
      let bitMask : Uint8x8 := [1, 2, 4, 8, 16, 32, 64, 128]
      (vaddvU8 (vandU8 matchEq bitMask)).setWidth 64
  | .swar, g, h7Val =>
      let cmp := g ^^^ (IHT_SWAR_LSB * h7Val.setWidth 64)
      (cmp - IHT_SWAR_LSB) &&& ~~~cmp &&& IHT_SWAR_MSB

/-- `iht_match_empty`, `ixht_match_empty` -/
def ihtMatchEmpty : Target → BitVec 64 → BitVec 64
  | .sse2, g =>
      let v := mmCvtsi64Si128 g
      mmMovemaskEpi8 (mmAndSi128 v (mmSlliEpi64 v 1)) &&& 0xff#64
  | .neon, g => ihtMatchMask .neon g EMPTY_H7
  | .swar, g => (g &&& IHT_SWAR_MSB) &&& (g <<< 1)

/-- `iht_match_empty` of `ihtab-v0.h` -/
def v0IhtMatchEmpty : Target → BitVec 64 → BitVec 64
  | .sse2, g =>
      let mask := mmSet1Epi8 0x80#8
      mmMovemaskEpi8 (mmAndSi128 (mmCvtsi64Si128 g) mask) &&& 0xff#64
  | .neon, g => ihtMatchMask .neon g V0_EMPTY_H7
  | .swar, g => g &&& IHT_SWAR_MSB

/-- `ixht_match_empty` of `ixhtab-v0.h`, whose SSE2 branch needs no mask -/
def v0IxhtMatchEmpty : Target → BitVec 64 → BitVec 64
  | .sse2, g => mmMovemaskEpi8 (mmCvtsi64Si128 g) &&& 0xff#64
  | .neon, g => ihtMatchMask .neon g V0_EMPTY_H7
  | .swar, g => g &&& IHT_SWAR_MSB

/-- `IHT_MASK_SCALE` -/
def Target.maskScale : Target → Bool
  | .sse2 => false
  | .neon => false
  | .swar => true

def Target.ops (target : Target) : GroupOps where
  groupLoad := loadLE
  maskScale := target.maskScale
  matchMask := ihtMatchMask target
  matchEmpty := ihtMatchEmpty target

def Target.v0IhtOps (target : Target) : GroupOps :=
  { target.ops with matchEmpty := v0IhtMatchEmpty target }

def Target.v0IxhtOps (target : Target) : GroupOps :=
  { target.ops with matchEmpty := v0IxhtMatchEmpty target }

/-! ## What the probe loops rely on -/

namespace GroupOps

/-- `if (IHT_MASK_SCALE) bit /= 8;` -/
def bit (ops : GroupOps) (i : Nat) : Nat := if ops.maskScale then i / 8 else i

/-- The bytes a mask flags, in the order in which a `while (mask)` loop meets them. -/
def flagged (ops : GroupOps) (mask : BitVec 64) : List Nat := (setBits mask).map ops.bit

def firstFlagged (ops : GroupOps) (mask : BitVec 64) : Option Nat :=
  if mask = 0#64 then none else some (ops.bit (ctz mask))

theorem firstFlagged_eq_head? (ops : GroupOps) (mask : BitVec 64) :
    ops.firstFlagged mask = (ops.flagged mask).head? := by
  unfold firstFlagged flagged
  by_cases h : mask = 0#64
  · simp [h, setBits_zero]
  · rw [if_neg h, setBits_eq_cons h]
    rfl

/-- The match mask flags every tag equal to `h7`, and besides these at most tags
    equal to `h7 ^ 1`; the empty mask is exact. -/
structure Lawful (ops : GroupOps) (valid : BitVec 8 → Prop) (empty : BitVec 8) : Prop where
  matches_h7 : ∀ (tags : Tags) (h7 : BitVec 8), h7 < 0x80#8 →
    ∃ p : Nat → Bool,
      ops.flagged (ops.matchMask (ops.groupLoad tags.toList) h7) = (List.range 8).filter p ∧
      (∀ j, tags[j]? = some h7 → p j = true) ∧
      ∀ j < 8, p j = true → tags[j]? = some h7 ∨ tags[j]? = some (h7 ^^^ 1#8)
  matches_empty : ∀ tags : Tags, (∀ t ∈ tags, valid t) →
    ops.flagged (ops.matchEmpty (ops.groupLoad tags.toList)) =
      (List.range 8).filter fun j => tags[j]? = some empty

theorem Lawful.firstFlagged_empty {ops : GroupOps} {valid : BitVec 8 → Prop} {empty : BitVec 8}
    (hops : ops.Lawful valid empty) {tags : Tags} (hvalid : ∀ t ∈ tags, valid t) :
    ops.firstFlagged (ops.matchEmpty (ops.groupLoad tags.toList)) =
      (List.range 8).find? fun j => tags[j]? = some empty := by
  rw [firstFlagged_eq_head?, hops.matches_empty tags hvalid, List.head?_filter]

end GroupOps

theorem xor_one_lt {h7 : BitVec 8} (h : h7 < 0x80#8) : h7 ^^^ 1#8 < 0x80#8 := by
  revert h7
  decide

theorem xor_one_ne (h7 : BitVec 8) : h7 ^^^ 1#8 ≠ h7 := by
  revert h7
  decide

/-! ## The three targets are lawful -/

private theorem getLsbD_and_ff (x : BitVec 64) (i : Nat) :
    (x &&& 0xff#64).getLsbD i = (x.getLsbD i && decide (i < 8)) := by
  rw [BitVec.getLsbD_and]
  congr 1
  by_cases hi : i < 64
  · have hall : ∀ i < 64, (0xff#64).getLsbD i = decide (i < 8) := by decide
    exact hall i hi
  · rw [BitVec.getLsbD_of_ge _ _ (by omega)]
    have : ¬ i < 8 := by omega
    simp [this]

private theorem getLsbD_movemask_and_ff (a : M128i) (i : Nat) :
    (mmMovemaskEpi8 a &&& 0xff#64).getLsbD i =
      (decide (i < 8) && (a[i]?.getD 0#8).getLsbD 7) := by
  rw [getLsbD_and_ff, mmMovemaskEpi8, BitVec.getLsbD_ofNat, testBit_packBits, List.getElem?_map]
  by_cases hi : i < 8
  · have h64 : i < 64 := by omega
    simp only [hi, h64, decide_true, Bool.true_and, Bool.and_true]
    cases a[i]? with
    | none => simp
    | some lane => simp
  · simp [hi]

/-- Lane `j < 8` of a loaded group is its tag `j`. -/
private theorem getElem?_cvtsi64 (w : BitVec 64) {j : Nat} (hj : j < 8) :
    (mmCvtsi64Si128 w)[j]? = some (byteAt w j) := by
  rw [mmCvtsi64Si128, List.getElem?_append_left (by simpa using hj), getElem?_unpackBytes w hj]

private theorem byteAt_groupLoad (tags : Tags) {j : Nat} (hj : j < 8) :
    tags[j]? = some (byteAt (loadLE tags.toList) j) := by
  rw [byteAt_loadLE _ hj, Vector.getElem?_toList, Vector.getElem?_eq_getElem hj]
  rfl

/-- A mask with one bit for each byte. -/
private theorem flagged_of_low {ops : GroupOps} (hscale : ops.maskScale = false)
    {mask : BitVec 64} {p : Nat → Bool} (h : ∀ i, mask.getLsbD i = (decide (i < 8) && p i)) :
    ops.flagged mask = (List.range 8).filter p := by
  have hlow : ∀ i, mask.getLsbD i = true → i < 8 := by
    intro i hi
    rw [h i] at hi
    simp only [Bool.and_eq_true, decide_eq_true_eq] at hi
    exact hi.1
  have hbit : ops.bit = id := by
    funext i
    simp [GroupOps.bit, hscale]
  rw [GroupOps.flagged, hbit, List.map_id, setBits_of_low hlow]
  apply List.filter_congr
  intro i hi
  have hi8 : i < 8 := List.mem_range.mp hi
  simp [h i, hi8]

/-- A mask with the top bit of each flagged byte. -/
private theorem flagged_of_high (ops : GroupOps) (hscale : ops.maskScale = true)
    {mask : BitVec 64} (h : ∀ i, mask.getLsbD i = true → i % 8 = 7) :
    ops.flagged mask = (List.range 8).filter fun j => mask.getLsbD (8 * j + 7) := by
  have hbit : ops.bit = (· / 8) := by
    funext i
    simp [GroupOps.bit, hscale]
  rw [GroupOps.flagged, hbit, setBits_of_high h]

private theorem sse2_getLsbD_matchMask (w : BitVec 64) (h7 : BitVec 8) (i : Nat) :
    (ihtMatchMask .sse2 w h7).getLsbD i = (decide (i < 8) && decide (byteAt w i = h7)) := by
  rw [ihtMatchMask, getLsbD_movemask_and_ff]
  by_cases hi : i < 8
  · have h16 : i < 16 := by omega
    have hset : (mmSet1Epi8 h7)[i]? = some h7 := by
      rw [mmSet1Epi8, List.getElem?_replicate, if_pos h16]
    simp only [mmCmpeqEpi8, List.getElem?_zipWith, getElem?_cvtsi64 w hi, hset, Option.getD_some]
    by_cases heq : byteAt w i = h7
    · simp [heq]
    · simp [heq]
  · simp [hi]

private theorem vaddv_bits (b0 b1 b2 b3 b4 b5 b6 b7 : Bool) :
    vaddvU8 (vandU8 ([b0, b1, b2, b3, b4, b5, b6, b7].map fun b => if b then 0xff#8 else 0#8)
        [1, 2, 4, 8, 16, 32, 64, 128])
      = BitVec.ofNat 8 (packBits [b0, b1, b2, b3, b4, b5, b6, b7]) := by
  revert b0 b1 b2 b3 b4 b5 b6 b7
  decide

private theorem neon_getLsbD_matchMask (w : BitVec 64) (h7 : BitVec 8) (i : Nat) :
    (ihtMatchMask .neon w h7).getLsbD i = (decide (i < 8) && decide (byteAt w i = h7)) := by
  -- the lanes of the comparison, as booleans
  have hceq : vceqU8 (vcreateU8 w) (vdupNU8 h7)
      = ((List.range 8).map fun j => decide (byteAt w j = h7)).map
          fun b => if b then 0xff#8 else 0#8 := by
    simp [vceqU8, vcreateU8, vdupNU8, unpackBytes, List.range_succ]
  have hsum := vaddv_bits (decide (byteAt w 0 = h7)) (decide (byteAt w 1 = h7))
    (decide (byteAt w 2 = h7)) (decide (byteAt w 3 = h7)) (decide (byteAt w 4 = h7))
    (decide (byteAt w 5 = h7)) (decide (byteAt w 6 = h7)) (decide (byteAt w 7 = h7))
  have hlist : (List.range 8).map (fun j => decide (byteAt w j = h7))
      = [decide (byteAt w 0 = h7), decide (byteAt w 1 = h7), decide (byteAt w 2 = h7),
         decide (byteAt w 3 = h7), decide (byteAt w 4 = h7), decide (byteAt w 5 = h7),
         decide (byteAt w 6 = h7), decide (byteAt w 7 = h7)] := by
    simp [List.range_succ]
  simp only [ihtMatchMask]
  rw [hceq, hlist, hsum, ← hlist, BitVec.getLsbD_setWidth, BitVec.getLsbD_ofNat, testBit_packBits]
  by_cases hi : i < 8
  · have h64 : i < 64 := by omega
    simp [hi, h64]
  · simp [hi]

/-- The exact match masks of SSE2 and NEON. -/
private theorem exact_matches (ops : GroupOps) (hload : ops.groupLoad = loadLE)
    (hscale : ops.maskScale = false)
    (hmask : ∀ w h7 i,
      (ops.matchMask w h7).getLsbD i = (decide (i < 8) && decide (byteAt w i = h7)))
    (tags : Tags) (h7 : BitVec 8) :
    ops.flagged (ops.matchMask (ops.groupLoad tags.toList) h7) =
      (List.range 8).filter fun j => tags[j]? = some h7 := by
  rw [flagged_of_low hscale (hmask _ h7)]
  apply List.filter_congr
  intro j hj
  rw [byteAt_groupLoad tags (List.mem_range.mp hj), hload]
  simp

/-- The bytes of the SWAR comparison word are the tags with `h7` taken out. -/
private theorem swar_cmp (tags : Tags) (h7 : BitVec 8) :
    loadLE tags.toList ^^^ (IHT_SWAR_LSB * h7.setWidth 64) =
      loadLE (tags.toList.map (· ^^^ h7)) := by
  have hsplat : ∀ h7 : BitVec 8,
      IHT_SWAR_LSB * h7.setWidth 64 = loadLE (List.replicate 8 h7) := by decide
  apply eq_of_byte_bits
  intro j hj i hi
  rw [BitVec.getLsbD_xor, hsplat, getLsbD_loadLE _ hj hi, getLsbD_loadLE _ hj hi,
    getLsbD_loadLE _ hj hi]
  rw [List.getElem?_replicate, if_pos hj, List.getElem?_map]
  simp [hj]

/-- The SWAR match mask, read byte by byte: byte `j` is flagged exactly when the
    subtraction of ones borrows out of byte `j` of the comparison word. -/
theorem swar_matches (tags : Tags) (h7 : BitVec 8) :
    Target.swar.ops.flagged (ihtMatchMask .swar (loadLE tags.toList) h7) =
      (List.range 8).filter fun j => borrowInto (tags.toList.map (· ^^^ h7)) false (j + 1) := by
  have hmask : ihtMatchMask .swar (loadLE tags.toList) h7
      = zeroBytes (loadLE (tags.toList.map (· ^^^ h7))) := by
    simp only [ihtMatchMask, swar_cmp]
    rfl
  rw [hmask, flagged_of_high _ rfl (fun i hi => mod_of_getLsbD_zeroBytes hi)]
  apply List.filter_congr
  intro j hj
  rw [getLsbD_zeroBytes (by simp) (List.mem_range.mp hj)]

private theorem cmp_byte (tags : Tags) (h7 : BitVec 8) {j : Nat} (hj : j < 8) :
    ∃ t, tags[j]? = some t ∧ (tags.toList.map (· ^^^ h7))[j]?.getD 0#8 = t ^^^ h7 := by
  refine ⟨tags[j], Vector.getElem?_eq_getElem hj, ?_⟩
  simp [hj]

theorem swar_flag_of_match {tags : Tags} {h7 : BitVec 8} {j : Nat} (h : tags[j]? = some h7) :
    borrowInto (tags.toList.map (· ^^^ h7)) false (j + 1) = true := by
  have hj : j < 8 := by
    by_contra hge
    rw [Vector.getElem?_eq_none (by omega)] at h
    cases h
  obtain ⟨t, ht, hcmp⟩ := cmp_byte tags h7 hj
  rw [h, Option.some.injEq] at ht
  subst ht
  exact borrowInto_succ_of_zero (by simpa using hj) (by rw [hcmp, BitVec.xor_self])

/-- A flagged byte matches, or it equals `h7 ^ 1` and the byte below it is flagged. -/
theorem swar_flag_cases {tags : Tags} {h7 : BitVec 8} {j : Nat} (hj : j < 8)
    (h : borrowInto (tags.toList.map (· ^^^ h7)) false (j + 1) = true) :
    tags[j]? = some h7 ∨
      (tags[j]? = some (h7 ^^^ 1#8) ∧
        ∃ i, j = i + 1 ∧ borrowInto (tags.toList.map (· ^^^ h7)) false (i + 1) = true) := by
  obtain ⟨t, ht, hcmp⟩ := cmp_byte tags h7 hj
  have hxor : ∀ c : BitVec 8, t ^^^ h7 = c → t = h7 ^^^ c := by
    intro c hc
    rw [← hc, ← BitVec.xor_assoc, BitVec.xor_comm h7 t, BitVec.xor_assoc, BitVec.xor_self,
      BitVec.xor_zero]
  rcases borrowInto_succ_cases (by simpa using hj) h with h0 | ⟨h1, hbelow⟩
  · left
    rw [ht, hxor 0#8 (hcmp ▸ h0), BitVec.xor_zero]
  · right
    exact ⟨by rw [ht, hxor 1#8 (hcmp ▸ h1)], hbelow⟩

/-- The lowest byte the SWAR mask flags matches. -/
theorem swar_first_match {tags : Tags} {h7 : BitVec 8} {j : Nat}
    (h : (Target.swar.ops.flagged (ihtMatchMask .swar (loadLE tags.toList) h7)).head? = some j) :
    tags[j]? = some h7 := by
  rw [swar_matches, List.head?_filter, List.find?_range_eq_some] at h
  obtain ⟨hflag, hj, hfirst⟩ := h
  rcases swar_flag_cases (List.mem_range.mp hj) hflag with hmatch | ⟨-, i, rfl, hbelow⟩
  · exact hmatch
  · -- the byte below is flagged, so this one is not the lowest
    have := hfirst i (Nat.lt_succ_self i)
    rw [hbelow] at this
    cases this

/-- The SSE2 and NEON match masks are exact. -/
theorem Target.matches_exact {target : Target} (htarget : target ≠ .swar) (tags : Tags)
    (h7 : BitVec 8) :
    target.ops.flagged (ihtMatchMask target (loadLE tags.toList) h7) =
      (List.range 8).filter fun j => tags[j]? = some h7 := by
  cases target with
  | sse2 => exact exact_matches Target.sse2.ops rfl rfl sse2_getLsbD_matchMask tags h7
  | neon => exact exact_matches Target.neon.ops rfl rfl neon_getLsbD_matchMask tags h7
  | swar => exact absurd rfl htarget

theorem Target.matches_h7 (target : Target) (tags : Tags) (h7 : BitVec 8) :
    ∃ p : Nat → Bool,
      target.ops.flagged (ihtMatchMask target (loadLE tags.toList) h7) =
        (List.range 8).filter p ∧
      (∀ j, tags[j]? = some h7 → p j = true) ∧
      ∀ j < 8, p j = true → tags[j]? = some h7 ∨ tags[j]? = some (h7 ^^^ 1#8) := by
  by_cases htarget : target = .swar
  · subst htarget
    refine ⟨_, swar_matches tags h7, fun j hj => swar_flag_of_match hj, fun j hj hp => ?_⟩
    rcases swar_flag_cases hj hp with h | ⟨h, _⟩
    · exact Or.inl h
    · exact Or.inr h
  · exact ⟨_, Target.matches_exact htarget tags h7, fun j hj => by simp [hj],
      fun j _ hj => Or.inl (by simpa using hj)⟩

/-- A mask that flags byte `j` by a test `q` of it finds the empty tags when `q`
    singles out the empty tag among the valid ones. -/
private theorem empties_of_test {valid : BitVec 8 → Prop} {empty : BitVec 8} {tags : Tags}
    {q : BitVec 8 → Bool} (hvalid : ∀ t ∈ tags, valid t)
    (hq : ∀ t, valid t → q t = decide (t = empty)) :
    ((List.range 8).filter fun j => q (byteAt (loadLE tags.toList) j)) =
      (List.range 8).filter fun j => tags[j]? = some empty := by
  apply List.filter_congr
  intro j hj
  have hget := byteAt_groupLoad tags (List.mem_range.mp hj)
  rw [hget, hq _ (hvalid _ (Vector.mem_of_getElem? hget))]
  simp

private theorem getLsbD_byteAt_seven (w : BitVec 64) (j : Nat) :
    w.getLsbD (8 * j + 7) = (byteAt w j).getLsbD 7 := (getLsbD_byteAt w j (by decide)).symm

private theorem getLsbD_shl_one (w : BitVec 64) {j : Nat} (hj : j < 8) :
    (w <<< 1).getLsbD (8 * j + 7) = (byteAt w j).getLsbD 6 := by
  have hlt : 8 * j + 7 < 64 := by omega
  rw [BitVec.getLsbD_shiftLeft, getLsbD_byteAt w j (by decide)]
  simp [hlt]

private theorem getElem?_slli (w : BitVec 64) {j : Nat} (hj : j < 8) :
    (mmSlliEpi64 (mmCvtsi64Si128 w) 1)[j]? = some (byteAt (w <<< 1) j) := by
  have htake : (mmCvtsi64Si128 w).take 8 = unpackBytes w := by
    rw [mmCvtsi64Si128, List.take_append_of_le_length (by simp), List.take_of_length_le (by simp)]
  rw [mmSlliEpi64, htake, loadLE_unpacked, List.getElem?_append_left (by simpa using hj),
    getElem?_unpackBytes _ hj]

private theorem sse2_getLsbD_and (w : BitVec 64) (v : M128i) (q : Nat → BitVec 8)
    (hv : ∀ j < 8, v[j]? = some (q j)) (i : Nat) :
    (mmMovemaskEpi8 (mmAndSi128 (mmCvtsi64Si128 w) v) &&& 0xff#64).getLsbD i =
      (decide (i < 8) && ((byteAt w i).getLsbD 7 && (q i).getLsbD 7)) := by
  rw [getLsbD_movemask_and_ff]
  by_cases hi : i < 8
  · simp only [mmAndSi128, List.getElem?_zipWith, getElem?_cvtsi64 w hi, hv i hi, Option.getD_some,
      BitVec.getLsbD_and]
  · simp [hi]

theorem Target.lawful (target : Target) : target.ops.Lawful ValidTag EMPTY_H7 where
  matches_h7 tags h7 _ := target.matches_h7 tags h7
  matches_empty tags hvalid := by
    have hq : ∀ t : BitVec 8, ValidTag t →
        (t.getLsbD 7 && t.getLsbD 6) = decide (t = EMPTY_H7) := by
      unfold ValidTag
      decide
    rw [← empties_of_test hvalid hq]
    cases target with
    | sse2 =>
      apply flagged_of_low rfl
      intro i
      refine (sse2_getLsbD_and (loadLE tags.toList) _ (byteAt (loadLE tags.toList <<< 1))
        (fun j hj => getElem?_slli _ hj) i).trans ?_
      by_cases hi : i < 8
      · rw [← getLsbD_byteAt_seven (loadLE tags.toList <<< 1), getLsbD_shl_one _ hi]
      · simp [hi]
    | neon =>
      refine (exact_matches Target.neon.ops rfl rfl neon_getLsbD_matchMask tags EMPTY_H7).trans ?_
      exact (empties_of_test hvalid hq).symm
    | swar =>
      have hmod : ∀ i, (ihtMatchEmpty .swar (loadLE tags.toList)).getLsbD i = true →
          i % 8 = 7 := by
        intro i hi
        rw [ihtMatchEmpty, BitVec.getLsbD_and, IHT_SWAR_MSB, getLsbD_and_msb] at hi
        simp only [Bool.and_eq_true, decide_eq_true_eq] at hi
        exact hi.1.2.2
      refine (flagged_of_high Target.swar.ops rfl hmod).trans ?_
      apply List.filter_congr
      intro j hj
      have hj8 := List.mem_range.mp hj
      have hlt : 8 * j + 7 < 64 := by omega
      have hseven : (8 * j + 7) % 8 = 7 := by omega
      rw [ihtMatchEmpty, BitVec.getLsbD_and, IHT_SWAR_MSB, getLsbD_and_msb, getLsbD_shl_one _ hj8,
        getLsbD_byteAt_seven]
      simp [hlt, hseven]

/-! ### The `v0` headers -/

private theorem v0_top_bit (t : BitVec 8) (ht : V0ValidTag t) :
    t.getLsbD 7 = decide (t = V0_EMPTY_H7) := by
  revert t
  unfold V0ValidTag
  decide

private theorem v0_swar_matches_empty (ops : GroupOps) (hscale : ops.maskScale = true)
    (tags : Tags) :
    ops.flagged (loadLE tags.toList &&& IHT_SWAR_MSB) =
      (List.range 8).filter fun j => (byteAt (loadLE tags.toList) j).getLsbD 7 := by
  have hmod : ∀ i, (loadLE tags.toList &&& IHT_SWAR_MSB).getLsbD i = true → i % 8 = 7 := by
    intro i hi
    rw [IHT_SWAR_MSB, getLsbD_and_msb] at hi
    simp only [Bool.and_eq_true, decide_eq_true_eq] at hi
    exact hi.2.2
  rw [flagged_of_high ops hscale hmod]
  apply List.filter_congr
  intro j hj
  have hlt : 8 * j + 7 < 64 := by
    have := List.mem_range.mp hj
    omega
  have hseven : (8 * j + 7) % 8 = 7 := by omega
  rw [IHT_SWAR_MSB, getLsbD_and_msb, getLsbD_byteAt_seven]
  simp [hlt, hseven]

theorem Target.v0Iht_lawful (target : Target) : target.v0IhtOps.Lawful V0ValidTag V0_EMPTY_H7 where
  matches_h7 tags h7 _ := target.matches_h7 tags h7
  matches_empty tags hvalid := by
    cases target with
    | sse2 =>
      rw [← empties_of_test hvalid v0_top_bit]
      apply flagged_of_low rfl
      intro i
      refine (sse2_getLsbD_and (loadLE tags.toList) _ (fun _ => 0x80#8) (fun j hj => ?_) i).trans ?_
      · have h16 : j < 16 := by omega
        rw [mmSet1Epi8, List.getElem?_replicate, if_pos h16]
      · simp
    | neon => exact exact_matches Target.neon.v0IhtOps rfl rfl neon_getLsbD_matchMask tags _
    | swar =>
      rw [← empties_of_test hvalid v0_top_bit]
      exact v0_swar_matches_empty Target.swar.v0IhtOps rfl tags

theorem Target.v0Ixht_lawful (target : Target) :
    target.v0IxhtOps.Lawful V0ValidTag V0_EMPTY_H7 where
  matches_h7 tags h7 _ := target.matches_h7 tags h7
  matches_empty tags hvalid := by
    cases target with
    | sse2 =>
      rw [← empties_of_test hvalid v0_top_bit]
      apply flagged_of_low rfl
      intro i
      refine (getLsbD_movemask_and_ff (mmCvtsi64Si128 (loadLE tags.toList)) i).trans ?_
      by_cases hi : i < 8
      · rw [getElem?_cvtsi64 _ hi, Option.getD_some]
      · simp [hi]
    | neon => exact exact_matches Target.neon.v0IxhtOps rfl rfl neon_getLsbD_matchMask tags _
    | swar =>
      rw [← empties_of_test hvalid v0_top_bit]
      exact v0_swar_matches_empty Target.swar.v0IxhtOps rfl tags

end IndexedHash
