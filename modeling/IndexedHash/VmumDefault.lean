import IndexedHash.VmumHash

/-!
# `vmum_hash` and the address of its key

Where the target cannot load a word from any address, `_vmum_hash_default` looks at the
address of the key.  An aligned key goes to `_vmum_hash_aligned` in one call.  Any other
is copied in blocks of 1024 bytes, with one call for each block that starts from the
result of the call before it.  The calls are the same for a key of one block.  They are
not for the empty key, which the copying loop does not hash at all, nor for a key of two
blocks and more, each of which starts with a multiplication of its own
(`vmum_hash_address_iff`).
-/

namespace IndexedHash

open Accesses Loop ByteWord

section Code

variable (cfg : VmumConfig) (fs : VmumFactors) (ops : BlockOps)

/-- `memmove (buf, str, n)` -/
def memmove (buf str : Nat → Option (BitVec 8)) (n : Nat) : Nat → Option (BitVec 8) :=
  fun o => if o < n then str o else buf o

structure CopyLoop where
  result : BitVec 64
  /-- the offset of `str` from the key -/
  str : Nat
  len : Nat
  buf : Nat → Option (BitVec 8)

/-- One test of `len != 0`, and the body; 1024 is `_VMUM_BLOCK_LEN`. -/
def copyPass (key : Nat → Option (BitVec 8)) (l : CopyLoop) : Option (Step CopyLoop (BitVec 64)) :=
  if l.len ≠ 0 then do
    let blockLen := if l.len < 1024 then l.len else 1024
    let buf := memmove l.buf (fun o => key (l.str + o)) blockLen
    let result ← vmumHashAligned cfg fs ops l.result buf blockLen
    pure (.again ⟨result, l.str + blockLen, l.len - blockLen, buf⟩)
  else some (.leave l.result)

/-- `_vmum_hash_default` of the bytes that lie at the address `addr` -/
def vmumHashDefault (addr : Nat) (key : Nat → Option (BitVec 8)) (len : Nat) (seed : BitVec 64) :
    Option (BitVec 64) := do
  let result := seed + BitVec.ofNat 64 len
  let result ←
    if addr &&& 7 = 0 then vmumHashAligned cfg fs ops result key len
    else forever (copyPass cfg fs ops key) (len + 1) ⟨result, 0, len, fun _ => none⟩
  pure (vmumFinal cfg result)

/-- `vmum_hash`; `unalignedAccess` is `_VMUM_UNALIGNED_ACCESS` -/
def vmumHash (unalignedAccess : Bool) (addr : Nat) (key : Nat → Option (BitVec 8)) (len : Nat)
    (seed : BitVec 64) : Option (BitVec 64) :=
  if unalignedAccess then
    (vmumHashAligned cfg fs ops (seed + BitVec.ofNat 64 len) key len).map (vmumFinal cfg)
  else vmumHashDefault cfg fs ops addr key len seed

end Code

/-- Keys of this length are hashed by their bytes: there is a hash, and it is the same at
    every address. -/
def AddressFree (cfg : VmumConfig) (ops : BlockOps) (unalignedAccess : Bool) (len : Nat) : Prop :=
  ∀ (fs : VmumFactors) (seed : BitVec 64) (key : Nat → Option (BitVec 8)),
    (∀ o < len, ∃ b, key o = some b) →
    ∃ h, ∀ addr, vmumHash cfg fs ops unalignedAccess addr key len seed = some h

/-! ## Keys of one block -/

section Aligned

variable (cfg : VmumConfig) (fs : VmumFactors) (ops : BlockOps)

/-- `_vmum_hash_aligned` returns, and what it returns depends on the bytes of the key only. -/
theorem vmumHashAligned_congr {key : Nat → Option (BitVec 8)} {len : Nat}
    (hkey : ∀ o < len, ∃ b, key o = some b) (start : BitVec 64) :
    ∃ h, ∀ key', (∀ o < len, key' o = key o) →
      vmumHashAligned cfg fs ops start key' len = some h := by
  have hreads : Reads fs key 0 len (hashAligned cfg fs ops start len) fun _ => True :=
    hashAligned_reads (eq_some_getD hkey) (kept_true cfg fs _) trivial fun _ => trivial
  obtain ⟨h, qs, hrun, -, -, hcount, -⟩ := hreads
  refine ⟨h, fun key' hkey' => ?_⟩
  have hagree : ∀ q ∈ qs, memory fs key' q = memory fs key q := by
    intro q hq
    cases q with
    | factor i => rfl
    | key o =>
      -- a byte that is read is counted, and so lies within the key
      have hpos := List.count_pos_iff.mpr hq
      have ho : 0 ≤ o ∧ o < len := by
        by_contra hout
        rw [hcount o, if_neg hout] at hpos
        exact Nat.lt_irrefl 0 hpos
      exact hkey' o ho.2
  rw [vmumHashAligned, Prog.run_of_agree hrun hagree]
  rfl

theorem addressFree_of_unalignedAccess (len : Nat) : AddressFree cfg ops true len := by
  intro fs seed key hkey
  obtain ⟨h, hh⟩ := vmumHashAligned_congr cfg fs ops hkey
    (seed + BitVec.ofNat 64 len)
  refine ⟨vmumFinal cfg h, fun addr => ?_⟩
  rw [vmumHash, if_pos rfl, hh key fun _ _ => rfl]
  rfl

theorem addressFree_of_block {len : Nat} (hpos : 0 < len) (hblock : len ≤ 1024) :
    AddressFree cfg ops false len := by
  intro fs seed key hkey
  obtain ⟨h, hh⟩ := vmumHashAligned_congr cfg fs ops hkey
    (seed + BitVec.ofNat 64 len)
  refine ⟨vmumFinal cfg h, fun addr => ?_⟩
  have hlen : (if len < 1024 then len else 1024) = len := by
    split <;> omega
  -- the loop makes one pass, over the whole key
  have hcopy : forever (copyPass cfg fs ops key) (len + 1)
      ⟨seed + BitVec.ofNat 64 len, 0, len, fun _ => none⟩ = some h := by
    obtain ⟨n, rfl⟩ : ∃ n, len = n + 1 := ⟨len - 1, by omega⟩
    have hbuf := hh (memmove (fun _ => none) (fun o => key (0 + o)) (n + 1)) fun o ho => by
      rw [memmove, if_pos ho, Nat.zero_add]
    have hpass : copyPass cfg fs ops key ⟨seed + BitVec.ofNat 64 (n + 1), 0, n + 1, fun _ => none⟩ =
        some (.again ⟨h, 0 + (n + 1), n + 1 - (n + 1),
          memmove (fun _ => none) (fun o => key (0 + o)) (n + 1)⟩) := by
      rw [copyPass, if_pos (Nat.succ_ne_zero n)]
      simp only [hlen, hbuf]
      rfl
    rw [forever_again hpass]
    apply forever_leave
    rw [copyPass, if_neg (by simp)]
  rw [vmumHash, if_neg (by decide), vmumHashDefault]
  split
  · rw [hh key fun _ _ => rfl]
    rfl
  · rw [hcopy]
    rfl

end Aligned

/-! ## Other keys

Over these factors nothing but the multiplication by `_vmum_block_start_factor` is left
of the hash of a key of zeros.  It takes `chainStart` to `chainNext`, and that to 0. -/

def chainFactors : VmumFactors where
  hashStep := 0
  keyStep := 0
  blockStart := 31
  tail := 0
  unroll := Vector.replicate 4 0
  factors := Vector.replicate 80 0

def chainStart : BitVec 64 := 0xd73e1194e95b5f19

def chainNext : BitVec 64 := 0x1084210842108421

section Chain

variable (cfg : VmumConfig)

/-- A product on which the bodies of `_vmum` agree. -/
theorem vmum_of_bodies {v p r : BitVec 64} (hwide : (vmumWide v p).1 + (vmumWide v p).2 = r)
    (hparts : ∀ t, (vmumParts t v p).1 + (vmumParts t v p).2 = r) : vmum cfg v p = r := by
  rw [vmum]
  cases cfg.useInt128 with
  | true => exact hwide
  | false => exact hparts _

theorem vmum_zero_left (p : BitVec 64) : vmum cfg 0 p = 0 := by
  apply vmum_of_bodies
  · simp [vmumWide]
  · intro t
    simp [vmumParts]

theorem vmum_zero_right (v : BitVec 64) : vmum cfg v 0 = 0 := by
  apply vmum_of_bodies
  · simp [vmumWide]
  · intro t
    simp [vmumParts]

theorem vmumLe_zero : vmumLe cfg 0 = 0 := by
  rw [vmumLe]
  split
  · rfl
  · decide

theorem keyWord_zero (o : Nat) : keyWord cfg (fun _ => 0) 8 o = 0 := by
  rw [keyWord, List.map_const', List.length_range']
  cases cfg.byteOrder with
  | little => decide
  | big => decide

theorem combine_zero {combine : BitVec 64 → BitVec 64 → BitVec 64}
    (hcombine : combine = vmumXor cfg ∨ combine = vmumPlus cfg) : combine 0 0 = 0 := by
  rcases hcombine with rfl | rfl
  · simp [vmumXor]
  · simp [vmumPlus]

theorem factorAt_chainFactors (i : Nat) : factorAt chainFactors i = 0 := by
  rw [factorAt, chainFactors, Vector.getElem?_replicate]
  split <;> rfl

/-- Whatever is mixed into the state is zero. -/
theorem kept_chainFactors (S : BitVec 64 → Prop) : Kept cfg chainFactors (fun _ => 0) S := by
  have hxor : ∀ s : BitVec 64, s ^^^ 0 = s := fun s => BitVec.xor_zero
  refine ⟨fun combine hcombine s o o' i i' hs => ?_, fun s o i u hs => ?_, fun s i u hs => ?_,
    fun s u hs => ?_⟩
  · rwa [keyWord_zero, vmumLe_zero, factorAt_chainFactors, combine_zero cfg hcombine, vmum_zero_left,
      hxor]
  · rwa [keyWord_zero, vmumLe_zero, factorAt_chainFactors, combine_zero cfg (.inr rfl),
      vmum_zero_right, hxor]
  · rwa [factorAt_chainFactors, vmum_zero_right, hxor]
  · rwa [chainFactors, vmum_zero_right, hxor]

theorem foldBlock_chainFactors (target : BlockTarget) (b : (target.ops cfg).Block) :
    (target.ops cfg).foldBlock ((target.ops cfg).factorBlock b
      ((target.ops cfg).ofWords chainFactors.unroll)) = 0 := by
  have hzero : ∀ w, Lanes.dotHalves w 0#64 = 0#64 := by
    intro w
    simp [Lanes.dotHalves, Lanes.widenMul]
  have m := target.meaning cfg
  rw [m.foldBlock_eq, m.words_factorBlock, m.words_ofWords]
  simp [foldWords, factorWords, chainFactors, hzero]

theorem vmumHashAligned_zeros (target : BlockTarget) {key : Nat → Option (BitVec 8)} {len : Nat}
    (hkey : ∀ o < len, key o = some 0) (start : BitVec 64) :
    vmumHashAligned cfg chainFactors (target.ops cfg) start key len = some (vmum cfg start 31) := by
  have hfold : ∀ b, vmum cfg start 31 + (target.ops cfg).foldBlock ((target.ops cfg).factorBlock b
      ((target.ops cfg).ofWords chainFactors.unroll)) = vmum cfg start 31 := by
    intro b
    rw [foldBlock_chainFactors]
    exact BitVec.add_zero _
  obtain ⟨h, qs, hrun, rfl, -⟩ :=
    hashAligned_reads hkey (kept_chainFactors cfg fun s => s = vmum cfg start 31) rfl hfold
  rw [vmumHashAligned, hrun]
  rfl

theorem vmum_chainStart : vmum cfg chainStart 31 = chainNext :=
  vmum_of_bodies cfg (by decide) (by decide)

theorem vmum_chainNext : vmum cfg chainNext 31 = 0 :=
  vmum_of_bodies cfg (by decide) (by decide)

theorem vmumFinal_chainStart : vmumFinal cfg chainStart = 0x8c140b34e667300b :=
  vmum_of_bodies cfg (by decide) (by decide)

theorem vmumFinal_chainNext : vmumFinal cfg chainNext = chainStart :=
  vmum_of_bodies cfg (by decide) (by decide)

theorem copyPass_zeros (target : BlockTarget) {l : CopyLoop} (hlen : l.len ≠ 0) :
    ∃ buf, copyPass cfg chainFactors (target.ops cfg) (fun _ => some 0) l =
      some (.again ⟨vmum cfg l.result 31, l.str + min l.len 1024, l.len - min l.len 1024, buf⟩) := by
  have hmin : (if l.len < 1024 then l.len else 1024) = min l.len 1024 := by
    split <;> omega
  have hhash : vmumHashAligned cfg chainFactors (target.ops cfg) l.result
      (memmove l.buf (fun _ => some 0) (min l.len 1024)) (min l.len 1024) =
        some (vmum cfg l.result 31) :=
    vmumHashAligned_zeros cfg target (fun o ho => if_pos ho) l.result
  refine ⟨memmove l.buf (fun _ => some 0) (min l.len 1024), ?_⟩
  rw [copyPass, if_pos hlen]
  simp only [hmin, hhash]
  rfl

/-- The copying loop over two blocks and more ends with 0. -/
theorem copyLoop_zeros (target : BlockTarget) {len : Nat} (hlen : 1024 < len) {fuel : Nat}
    {h : BitVec 64}
    (hrun : forever (copyPass cfg chainFactors (target.ops cfg) fun _ => some 0) fuel
      ⟨chainStart, 0, len, fun _ => none⟩ = some h) : h = 0 := by
  -- one block takes the result to `chainNext`, the second one to 0, where it stays
  refine forever_invariant
    (fun l => l.result = chainStart ∧ l.len = len ∨ l.result = chainNext ∧ l.len = len - 1024 ∨
      l.result = 0) (· = 0) ?_ ?_ (.inl ⟨rfl, rfl⟩) hrun
  · intro l l' hl hpass
    have hne : l.len ≠ 0 := by
      intro hzero
      rw [copyPass, if_neg (not_not.mpr hzero)] at hpass
      cases hpass
    obtain ⟨buf, hpass'⟩ := copyPass_zeros cfg target hne
    rw [hpass', Option.some.injEq, Step.again.injEq] at hpass
    subst hpass
    rcases hl with ⟨hresult, hl⟩ | ⟨hresult, -⟩ | hresult
    · refine .inr (.inl ⟨?_, ?_⟩)
      · rw [hresult, vmum_chainStart]
      · change l.len - min l.len 1024 = len - 1024
        omega
    · refine .inr (.inr ?_)
      rw [hresult, vmum_chainNext]
    · refine .inr (.inr ?_)
      rw [hresult, vmum_zero_left]
  · intro l r hl hpass
    have hzero : l.len = 0 := by
      by_contra hne
      obtain ⟨buf, hpass'⟩ := copyPass_zeros cfg target hne
      rw [hpass'] at hpass
      cases hpass
    rw [copyPass, if_neg (not_not.mpr hzero), Option.some.injEq, Step.leave.injEq] at hpass
    subst hpass
    rcases hl with ⟨-, hl⟩ | ⟨-, hl⟩ | hresult
    · omega
    · omega
    · exact hresult

/-- With the seed that starts the chain, the two paths tell the addresses apart. -/
theorem not_addressFree (target : BlockTarget) {len : Nat} (hlen : len = 0 ∨ 1024 < len) :
    ¬ AddressFree cfg (target.ops cfg) false len := by
  intro hfree
  obtain ⟨h, hh⟩ := hfree chainFactors (chainStart - BitVec.ofNat 64 len) (fun _ => some 0)
    fun _ _ => ⟨0, rfl⟩
  have hseed : chainStart - BitVec.ofNat 64 len + BitVec.ofNat 64 len = chainStart :=
    BitVec.sub_add_cancel _ _
  have haligned := hh 0
  have hcopied := hh 1
  rw [vmumHash, if_neg (by decide), vmumHashDefault, hseed, if_pos (by decide),
    vmumHashAligned_zeros cfg target fun _ _ => rfl, vmum_chainStart] at haligned
  rw [vmumHash, if_neg (by decide), vmumHashDefault, hseed, if_neg (by decide)] at hcopied
  have hh' : h = chainStart := by
    rw [← vmumFinal_chainNext cfg]
    exact (Option.some.inj haligned).symm
  rcases hlen with rfl | hlen
  · have hfinal : vmumFinal cfg chainStart = h := Option.some.inj hcopied
    rw [vmumFinal_chainStart, hh'] at hfinal
    exact absurd hfinal (by decide)
  · obtain ⟨r, hr, hfinal⟩ := Option.bind_eq_some_iff.mp hcopied
    rw [copyLoop_zeros cfg target hlen hr] at hfinal
    have hzero : vmumFinal cfg 0 = h := Option.some.inj hfinal
    rw [vmumFinal, vmum_zero_left, hh'] at hzero
    exact absurd hzero (by decide)

end Chain

/-- The hash of keys of a length does not depend on their address if and only if the
    target loads words from any address, or the length is between 1 and 1024. -/
theorem vmum_hash_address_iff (cfg : VmumConfig) (target : BlockTarget) (unalignedAccess : Bool)
    (len : Nat) :
    AddressFree cfg (target.ops cfg) unalignedAccess len ↔
      unalignedAccess = true ∨ 0 < len ∧ len ≤ 1024 := by
  constructor
  · intro hfree
    cases unalignedAccess with
    | true => exact .inl rfl
    | false =>
      refine .inr ?_
      by_contra hlen
      exact not_addressFree cfg target (by omega) hfree
  · rintro (rfl | ⟨hpos, hblock⟩)
    · exact addressFree_of_unalignedAccess cfg _ len
    · cases unalignedAccess with
      | true => exact addressFree_of_unalignedAccess cfg _ len
      | false => exact addressFree_of_block cfg _ hpos hblock

/-- The initial factors: the empty key, with the seed 1, and 1025 zeros. -/
theorem vmum_hash_default_addresses :
    vmumHashDefault defaultConfig vmumFactors (scalarOps defaultConfig) 0 (fun _ => none) 0 1 ≠
      vmumHashDefault defaultConfig vmumFactors (scalarOps defaultConfig) 1 (fun _ => none) 0 1 ∧
    vmumHashDefault defaultConfig vmumFactors (scalarOps defaultConfig) 0 (fun _ => some 0) 1025 0 ≠
      vmumHashDefault defaultConfig vmumFactors (scalarOps defaultConfig) 1 (fun _ => some 0) 1025 0 := by
  decide +kernel

end IndexedHash
