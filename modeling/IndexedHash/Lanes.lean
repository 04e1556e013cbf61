import IndexedHash.ByteWord

/-!
# Vector registers

A register is a vector of lanes.  The builtins below have the meaning that the manuals
of their targets give them: a comparison fills its lanes with ones or with zeros, a
multiplication is of 32-bit lanes to 64-bit products.  `lanes32` is the cast of a
register of 64-bit lanes to one of 32-bit lanes.

What they are used for here is told by two functions of 64-bit lanes: `dotHalves` adds
the products of the halves, and `fillZero` replaces a zero by all ones.
-/

namespace IndexedHash.Lanes

variable {n : Nat}

/-! ## Lanes -/

def eachLane (f : BitVec 64 → BitVec 64) (v : Vector (BitVec 64) n) : Vector (BitVec 64) n :=
  Vector.ofFn fun k => f v[k]

def lanewise (f : BitVec 64 → BitVec 64 → BitVec 64) (v p : Vector (BitVec 64) n) :
    Vector (BitVec 64) n :=
  Vector.ofFn fun k => f v[k] p[k]

@[simp] theorem getElem_eachLane (f : BitVec 64 → BitVec 64) (v : Vector (BitVec 64) n) {k : Nat}
    (hk : k < n) : (eachLane f v)[k] = f v[k] := by
  simp [eachLane]

@[simp] theorem getElem_lanewise (f : BitVec 64 → BitVec 64 → BitVec 64)
    (v p : Vector (BitVec 64) n) {k : Nat} (hk : k < n) : (lanewise f v p)[k] = f v[k] p[k] := by
  simp [lanewise]

def half (order : ByteOrder) (j : Nat) (v : BitVec 64) : BitVec 32 :=
  if j = 0 ↔ order = .little then v.setWidth 32 else (v >>> 32).setWidth 32

def lanes32 (order : ByteOrder) (v : Vector (BitVec 64) n) : Vector (BitVec 32) (2 * n) :=
  Vector.ofFn fun i => half order (i % 2) (v.get ⟨i / 2, by omega⟩)

def widenMul (a b : BitVec 32) : BitVec 64 := a.setWidth 64 * b.setWidth 64

def dotHalves (v p : BitVec 64) : BitVec 64 :=
  widenMul (v.setWidth 32) (p.setWidth 32) +
    widenMul ((v >>> 32).setWidth 32) ((p >>> 32).setWidth 32)

def fillZero (v : BitVec 64) : BitVec 64 := if v = 0 then BitVec.allOnes 64 else v

theorem getElem_lanes32 (order : ByteOrder) (v : Vector (BitVec 64) n) {k : Nat} (hk : k < n) :
    (lanes32 order v)[2 * k] = half order 0 v[k] ∧
      (lanes32 order v)[2 * k + 1] = half order 1 v[k] := by
  have hdiv : 2 * k / 2 = k ∧ (2 * k + 1) / 2 = k := by omega
  have hmod : 2 * k % 2 = 0 ∧ (2 * k + 1) % 2 = 1 := by omega
  constructor
  · simp only [lanes32, Vector.getElem_ofFn, hdiv.1, hmod.1]
    rfl
  · simp only [lanes32, Vector.getElem_ofFn, hdiv.2, hmod.2]
    rfl

/-- The products of neighbours, added: the order of the halves does not matter. -/
theorem dot_lanes32 (order : ByteOrder) (v p : Vector (BitVec 64) n) {k : Nat} (hk : k < n) :
    widenMul (lanes32 order v)[2 * k] (lanes32 order p)[2 * k] +
      widenMul (lanes32 order v)[2 * k + 1] (lanes32 order p)[2 * k + 1] = dotHalves v[k] p[k] := by
  rw [(getElem_lanes32 order v hk).1, (getElem_lanes32 order v hk).2, (getElem_lanes32 order p hk).1,
    (getElem_lanes32 order p hk).2]
  cases order with
  | little => rfl
  | big => exact BitVec.add_comm _ _

/-- An arithmetic shift by half a lane leaves the same low half as a logical one. -/
theorem setWidth_sshiftRight_half (v : BitVec 64) :
    (v.sshiftRight 32).setWidth 32 = (v >>> 32).setWidth 32 := by
  apply BitVec.eq_of_getLsbD_eq
  intro i hi
  have hlt : 32 + i < 64 := by omega
  have hi' : ¬ 64 ≤ i := by omega
  simp [BitVec.getLsbD_sshiftRight, hi, hlt, hi']

/-! ## AVX2 -/

/-- `__builtin_ia32_pmuludq256` multiplies the even lanes. -/
def pmuludq256 (a b : Vector (BitVec 32) 8) : Vector (BitVec 64) 4 :=
  #v[widenMul (a.get 0) (b.get 0), widenMul (a.get 2) (b.get 2), widenMul (a.get 4) (b.get 4),
     widenMul (a.get 6) (b.get 6)]

/-- `__builtin_ia32_pcmpeqq256` -/
def pcmpeqq256 (a b : Vector (BitVec 64) 4) : Vector (BitVec 64) 4 :=
  lanewise (fun x y => if x = y then BitVec.allOnes 64 else 0) a b

theorem getElem_pmuludq256 (v p : Vector (BitVec 64) 4) {k : Nat} (hk : k < 4) :
    (pmuludq256 (lanes32 .little v) (lanes32 .little p))[k] =
      widenMul (v[k].setWidth 32) (p[k].setWidth 32) := by
  have heven : ∀ u : Vector (BitVec 64) 4, (lanes32 .little u)[2 * k] = u[k].setWidth 32 :=
    fun u => (getElem_lanes32 .little u hk).1
  rw [← heven v, ← heven p]
  rcases k with _ | _ | _ | _ | k
  · rfl
  · rfl
  · rfl
  · rfl
  · omega

/-! ## NEON -/

def vgetLowU32 (v : Vector (BitVec 32) 4) : Vector (BitVec 32) 2 := #v[v.get 0, v.get 1]

def vmullU32 (a b : Vector (BitVec 32) 2) : Vector (BitVec 64) 2 :=
  #v[widenMul (a.get 0) (b.get 0), widenMul (a.get 1) (b.get 1)]

def vmullHighU32 (a b : Vector (BitVec 32) 4) : Vector (BitVec 64) 2 :=
  #v[widenMul (a.get 2) (b.get 2), widenMul (a.get 3) (b.get 3)]

/-- `vpaddq_u64` adds neighbours: those of the first register, then those of the second. -/
def vpaddqU64 (a b : Vector (BitVec 64) 2) : Vector (BitVec 64) 2 :=
  #v[a.get 0 + a.get 1, b.get 0 + b.get 1]

/-- `vceqzq_u64` -/
def vceqzqU64 (v : Vector (BitVec 64) 2) : Vector (BitVec 64) 2 :=
  eachLane (fun x => if x = 0 then BitVec.allOnes 64 else 0) v

/-! ## AltiVec -/

/-- `vec_mule` multiplies the even lanes. -/
def vecMule (a b : Vector (BitVec 32) 4) : Vector (BitVec 64) 2 :=
  #v[widenMul (a.get 0) (b.get 0), widenMul (a.get 2) (b.get 2)]

/-- `vec_mulo` multiplies the odd lanes. -/
def vecMulo (a b : Vector (BitVec 32) 4) : Vector (BitVec 64) 2 :=
  #v[widenMul (a.get 1) (b.get 1), widenMul (a.get 3) (b.get 3)]

def vecCmpne (a b : Vector (BitVec 64) 2) : Vector (BitVec 64) 2 :=
  lanewise (fun x y => if x ≠ y then BitVec.allOnes 64 else 0) a b

/-- `vec_sel` takes the bits of the second register where the mask is set. -/
def vecSel (a b mask : Vector (BitVec 64) 2) : Vector (BitVec 64) 2 :=
  lanewise (· ||| ·) (lanewise (fun x m => x &&& ~~~ m) a mask) (lanewise (· &&& ·) b mask)

end IndexedHash.Lanes
