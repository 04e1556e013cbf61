import IndexedHash.VmumDefault

/-!
# `VMUM_TARGET_INDEPENDENT_HASH`

With this macro the header promises one hash for a key on all targets.  The targets differ in
the order of the bytes of a word, in the body of `_vmum`, in the width of `size_t`, in
whether they load words from any address, and in the block functions.  `Alike` follows the
code for two configurations: both read the same bytes of the key in the same order and come
to the same state.  The vector block functions of a big-endian target do not swap the bytes
of the key, and those of all targets treat a zero as `_vmum_xor` does not, so the promise is
kept for keys with a block of 512 bytes only among scalar targets (`vmum_hash_targets`).
-/

namespace IndexedHash

open Accesses Loop ByteWord

structure Independent (cfg cfg' : VmumConfig) : Prop where
  left : cfg.targetIndependent = true
  right : cfg'.targetIndependent = true
  v1 : cfg.v1 = cfg'.v1

/-! ## Words -/

section Words

variable {cfg cfg' : VmumConfig}

theorem vmumParts_true (v p : BitVec 64) : vmumParts true v p = vmumWide v p := by
  obtain ⟨c, -, -, -, hwords, -⟩ := vmumParts_words v p
  have hwide := vmumWide_words v p
  have hunique := WideProduct.words_unique (vmumParts true v p).2.isLt (vmumWide v p).2.isLt
    (hwords.trans hwide.symm)
  exact Prod.ext (BitVec.eq_of_toNat_eq hunique.1) (BitVec.eq_of_toNat_eq hunique.2)

theorem vmum_eq_wide (h : cfg.targetIndependent = true) (v p : BitVec 64) :
    vmum cfg v p = (vmumWide v p).1 + (vmumWide v p).2 := by
  unfold vmum
  rw [h, vmumParts_true, ite_self]

theorem Independent.vmum (h : Independent cfg cfg') : vmum cfg = vmum cfg' := by
  funext v p
  rw [vmum_eq_wide h.left, vmum_eq_wide h.right]

theorem Independent.vmumXor (h : Independent cfg cfg') : vmumXor cfg = vmumXor cfg' := by
  funext a b
  rw [IndexedHash.vmumXor, IndexedHash.vmumXor, h.v1]

theorem Independent.vmumPlus (h : Independent cfg cfg') : vmumPlus cfg = vmumPlus cfg' := by
  funext a b
  rw [IndexedHash.vmumPlus, IndexedHash.vmumPlus, h.v1]

theorem bswap_loadLE {n : Nat} {bytes : List (BitVec 8)} (hn : bytes.length = n) (hle : n ≤ 8) :
    bswap n (loadLE bytes.reverse) = loadLE bytes := by
  have htake : (unpackBytes (loadLE bytes.reverse)).take bytes.reverse.length = bytes.reverse :=
    take_unpackBytes_loadLE (by rw [List.length_reverse]; omega)
  rw [List.length_reverse, hn] at htake
  rw [bswap, htake, List.reverse_reverse]

/-- `_vmum_le` of a word of the key is the word of a little-endian target. -/
theorem vmumLe_load (h : cfg.targetIndependent = true) {bytes : List (BitVec 8)}
    (hlen : bytes.length = 8) : vmumLe cfg (cfg.byteOrder.load bytes) = loadLE bytes := by
  unfold vmumLe VmumConfig.nativeOrder
  cases horder : cfg.byteOrder with
  | little => rfl
  | big =>
    rw [h]
    exact bswap_loadLE hlen (Nat.le_refl 8)

/-- A word of few bytes is its own low half. -/
theorem setWidth_loadLE {w : Nat} {bytes : List (BitVec 8)} (h : 8 * bytes.length ≤ w) (hw : w ≤ 64) :
    ((loadLE bytes).setWidth w).setWidth 64 = loadLE bytes := by
  apply BitVec.eq_of_toNat_eq
  have hlt : packBytes bytes < 2 ^ w :=
    Nat.lt_of_lt_of_le (packBytes_lt bytes) (Nat.pow_le_pow_right (by decide) h)
  have hlt' : packBytes bytes < 2 ^ 64 :=
    Nat.lt_of_lt_of_le hlt (Nat.pow_le_pow_right (by decide) hw)
  simp only [loadLE, BitVec.toNat_setWidth, BitVec.toNat_ofNat, Nat.mod_eq_of_lt hlt,
    Nat.mod_eq_of_lt hlt']

theorem vmumLe32_load (h : cfg.targetIndependent = true) {bytes : List (BitVec 8)}
    (hlen : bytes.length = 4) :
    (vmumLe32 cfg ((cfg.byteOrder.load bytes).setWidth 32)).setWidth 64 = loadLE bytes := by
  unfold vmumLe32 VmumConfig.nativeOrder
  cases horder : cfg.byteOrder with
  | little => exact setWidth_loadLE (by omega) (by decide)
  | big =>
    have hreverse : ((loadLE bytes.reverse).setWidth 32).setWidth 64 = loadLE bytes.reverse :=
      setWidth_loadLE (by rw [List.length_reverse]; omega) (by decide)
    rw [h]
    show ((bswap 4 (((loadLE bytes.reverse).setWidth 32).setWidth 64)).setWidth 32).setWidth 64 = _
    rw [hreverse, bswap_loadLE hlen (by decide), setWidth_loadLE (by omega) (by decide)]

theorem vmumLe16_load (h : cfg.targetIndependent = true) {bytes : List (BitVec 8)}
    (hlen : bytes.length = 2) :
    vmumLe16 cfg ((cfg.byteOrder.load bytes).setWidth 16) = loadLE bytes := by
  unfold vmumLe16 VmumConfig.nativeOrder
  cases horder : cfg.byteOrder with
  | little => exact setWidth_loadLE (by omega) (by decide)
  | big =>
    obtain ⟨b, c, rfl⟩ := List.length_eq_two.mp hlen
    have hb := b.isLt
    have hc := c.isLt
    rw [h]
    show (((loadLE [c, b]).setWidth 16 >>> 8) |||
      (((loadLE [c, b]).setWidth 16 &&& 0xff) <<< 8)).setWidth 64 = loadLE [b, c]
    have hword : ((loadLE [c, b]).setWidth 16).toNat = b.toNat * 256 + c.toNat := by
      simp only [loadLE, packBytes, BitVec.toNat_setWidth, BitVec.toNat_ofNat]
      omega
    apply BitVec.eq_of_toNat_eq
    have hlow : (b.toNat * 256 + c.toNat) &&& 255 = c.toNat := by
      rw [show (255 : Nat) = 2 ^ 8 - 1 by rfl, Nat.and_two_pow_sub_one_eq_mod]
      omega
    have hhigh : (b.toNat * 256 + c.toNat) >>> 8 = b.toNat := by
      rw [Nat.shiftRight_eq_div_pow]
      omega
    have hor : b.toNat ||| (c.toNat <<< 8) = c.toNat * 256 + b.toNat := by
      rw [Nat.or_comm, ← Nat.shiftLeft_add_eq_or_of_lt hb, Nat.shiftLeft_eq]
    have hshift : c.toNat <<< 8 < 2 ^ 16 := by
      rw [Nat.shiftLeft_eq]
      omega
    simp only [BitVec.toNat_setWidth, BitVec.toNat_or, BitVec.toNat_ushiftRight, BitVec.toNat_and,
      BitVec.toNat_shiftLeft, hword, hhigh]
    show (b.toNat ||| ((b.toNat * 256 + c.toNat) &&& 255) <<< 8 % 2 ^ 16) % 2 ^ 64 = _
    rw [hlow, Nat.mod_eq_of_lt hshift, hor]
    simp only [loadLE, packBytes, BitVec.toNat_ofNat]
    omega

end Words

/-! ## The code on two targets -/

section Alike

variable {cfg cfg' : VmumConfig}

theorem readBytes_alike (n o : Nat) :
    Alike (fun bs bs' => bs = bs' ∧ bs.length = n) (readBytes n o) (readBytes n o) := by
  induction n generalizing o with
  | zero => exact Alike.ret ⟨rfl, rfl⟩
  | succ n ih =>
    refine Alike.bind (Alike.refl (byte o)) ?_
    rintro b _ rfl
    refine Alike.bind (ih (o + 1)) ?_
    rintro bs _ ⟨rfl, hlen⟩
    exact Alike.ret ⟨rfl, congrArg (· + 1) hlen⟩

/-- A load reads the same bytes, and gives the word that the target makes of them. -/
theorem load_alike (cfg cfg' : VmumConfig) (n o : Nat) :
    Alike (fun w w' => ∃ bs : List (BitVec 8), bs.length = n ∧ w = cfg.byteOrder.load bs ∧
      w' = cfg'.byteOrder.load bs) (load cfg n o) (load cfg' n o) := by
  refine Alike.bind (readBytes_alike n o) ?_
  rintro bs _ ⟨rfl, hlen⟩
  exact Alike.ret ⟨bs, hlen, rfl, rfl⟩

theorem Independent.loadLe (h : Independent cfg cfg') : loadLe cfg = loadLe cfg' := by
  funext o
  apply Alike.eq
  refine Alike.bind (load_alike cfg cfg' 8 o) ?_
  rintro _ _ ⟨bs, hlen, rfl, rfl⟩
  exact Alike.ret ((vmumLe_load h.left hlen).trans (vmumLe_load h.right hlen).symm)

theorem Independent.loadLe32 (h : Independent cfg cfg') : loadLe32 cfg = loadLe32 cfg' := by
  funext o
  apply Alike.eq
  refine Alike.bind (load_alike cfg cfg' 4 o) ?_
  rintro _ _ ⟨bs, hlen, rfl, rfl⟩
  exact Alike.ret ((vmumLe32_load h.left hlen).trans (vmumLe32_load h.right hlen).symm)

theorem Independent.loadLe16 (h : Independent cfg cfg') : loadLe16 cfg = loadLe16 cfg' := by
  funext o
  apply Alike.eq
  refine Alike.bind (load_alike cfg cfg' 2 o) ?_
  rintro _ _ ⟨bs, hlen, rfl, rfl⟩
  exact Alike.ret ((vmumLe16_load h.left hlen).trans (vmumLe16_load h.right hlen).symm)

/-! ### Blocks -/

def SameKey (cfg cfg' : VmumConfig) (v v' : BlockWords) : Prop :=
  ∀ (k : Nat) (hk : k < 4), vmumLe cfg v[k] = vmumLe cfg' v'[k]

theorem keyBlock_alike (h : Independent cfg cfg') (o : Nat) :
    Alike (SameKey cfg cfg') (keyBlock cfg (scalarOps cfg) o) (keyBlock cfg' (scalarOps cfg') o) := by
  have hload : ∀ o, Alike (fun w w' => vmumLe cfg w = vmumLe cfg' w') (load cfg 8 o)
      (load cfg' 8 o) := by
    intro o
    refine (load_alike cfg cfg' 8 o).imp ?_
    rintro _ _ ⟨bs, hlen, rfl, rfl⟩
    exact (vmumLe_load h.left hlen).trans (vmumLe_load h.right hlen).symm
  refine Alike.bind (hload o) fun w0 w0' h0 => ?_
  refine Alike.bind (hload (o + 8)) fun w1 w1' h1 => ?_
  refine Alike.bind (hload (o + 16)) fun w2 w2' h2 => ?_
  refine Alike.bind (hload (o + 24)) fun w3 w3' h3 => Alike.ret ?_
  intro k hk
  interval_cases k
  · exact h0
  · exact h1
  · exact h2
  · exact h3

theorem factorsBlock_alike (i : Nat) :
    Alike (fun p p' : BlockWords => p = p') (factorsBlock (scalarOps cfg) i)
      (factorsBlock (scalarOps cfg') i) := by
  refine Alike.bind (Alike.refl (factor _)) ?_
  rintro p0 _ rfl
  refine Alike.bind (Alike.refl (factor _)) ?_
  rintro p1 _ rfl
  refine Alike.bind (Alike.refl (factor _)) ?_
  rintro p2 _ rfl
  refine Alike.bind (Alike.refl (factor _)) ?_
  rintro p3 _ rfl
  exact Alike.ret rfl

theorem scalarUpdateBlock_same (h : Independent cfg cfg') {v v' v2 v2' : BlockWords}
    (hv : SameKey cfg cfg' v v') (hv2 : SameKey cfg cfg' v2 v2') (s p p2 : BlockWords) :
    scalarUpdateBlock cfg s v v2 p p2 = scalarUpdateBlock cfg' s v' v2' p p2 := by
  rw [scalarUpdateBlock_eq, scalarUpdateBlock_eq]
  unfold updateWords scalarMix
  congr 1
  funext k
  simp only [Fin.getElem_fin, hv k k.isLt, hv2 k k.isLt, h.vmumXor]

structure BlockLoop.Same (l : BlockLoop (scalarOps cfg)) (l' : BlockLoop (scalarOps cfg')) : Prop where
  blockState : (show BlockWords from l.blockState) = l'.blockState
  str : l.str = l'.str
  i : l.i = l'.i
  len : l.len = l'.len

theorem blockUpdate_alike (h : Independent cfg cfg') {l : BlockLoop (scalarOps cfg)}
    {l' : BlockLoop (scalarOps cfg')} (hl : l.Same l') :
    Alike BlockLoop.Same (blockUpdate cfg (scalarOps cfg) l) (blockUpdate cfg' (scalarOps cfg') l') := by
  unfold blockUpdate
  rw [hl.str, hl.i]
  refine Alike.bind (keyBlock_alike h _) fun v v' hv => ?_
  refine Alike.bind (keyBlock_alike h _) fun v2 v2' hv2 => ?_
  refine Alike.bind (factorsBlock_alike _) ?_
  rintro p _ rfl
  refine Alike.bind (factorsBlock_alike _) ?_
  rintro p2 _ rfl
  refine Alike.ret ⟨?_, rfl, rfl, hl.len⟩
  show scalarUpdateBlock cfg l.blockState v v2 p p2 = scalarUpdateBlock cfg' l'.blockState v' v2' p p2
  rw [← hl.blockState]
  exact scalarUpdateBlock_same h hv hv2 l.blockState p p2

theorem blockPass_alike (h : Independent cfg cfg') (fs : VmumFactors) {l : BlockLoop (scalarOps cfg)}
    {l' : BlockLoop (scalarOps cfg')} (hl : l.Same l') :
    Alike BlockLoop.Same (blockPass cfg fs (scalarOps cfg) l) (blockPass cfg' fs (scalarOps cfg') l') := by
  refine Alike.bind (Alike.iterate (fun _ _ => blockUpdate_alike h) (passes 16)
    ⟨hl.blockState, hl.str, rfl, hl.len⟩) fun m m' hm => Alike.ret ?_
  refine ⟨?_, congrArg (· + 512) hm.str, hm.i, congrArg (· - 512) hm.len⟩
  exact congrArg (scalarFactorBlock · fs.unroll) hm.blockState

def SameBlocks (target target' : BlockTarget) (len : Nat) : Prop :=
  len < 512 ∨ target = .scalar ∧ target' = .scalar

theorem blockLoop_alike (h : Independent cfg cfg') (fs : VmumFactors) {target target' : BlockTarget}
    (state : BitVec 64) {len : Nat} (hblocks : SameBlocks target target' len) :
    Alike Eq (blockLoop cfg fs (target.ops cfg) state len)
      (blockLoop cfg' fs (target'.ops cfg') state len) := by
  unfold blockLoop
  by_cases hlen : 512 ≤ len
  · obtain ⟨rfl, rfl⟩ := hblocks.resolve_left (Nat.not_lt.mpr hlen)
    rw [if_pos hlen, if_pos hlen]
    refine Alike.bind (blockPass_alike h fs ⟨rfl, rfl, rfl, rfl⟩) fun l l' hl => ?_
    refine Alike.bind (Alike.whileLoop (fun m m' hm => by rw [hm.len])
      (fun _ _ => blockPass_alike h fs) len hl) ?_
    rintro m m' ⟨hm, -⟩
    refine Alike.ret ?_
    rw [hm.str, hm.len]
    exact congrArg (fun b => (⟨state + (scalarOps cfg).foldBlock b, m'.str, 0, m'.len⟩ : WordLoop))
      hm.blockState
  · rw [if_neg hlen, if_neg hlen]
    exact Alike.ret rfl

/-! ### Words and the tail -/

theorem Independent.wordPair (h : Independent cfg cfg') : wordPair cfg = wordPair cfg' := by
  unfold IndexedHash.wordPair
  rw [h.loadLe, h.vmum]

theorem Independent.wordPass (h : Independent cfg cfg') : wordPass cfg = wordPass cfg' := by
  unfold IndexedHash.wordPass
  rw [h.wordPair, h.vmumXor]

theorem Independent.wordLoops (h : Independent cfg cfg') : wordLoops cfg = wordLoops cfg' := by
  funext l
  apply Alike.eq
  unfold IndexedHash.wordLoops
  rw [h.wordPass, h.wordPair, h.vmumPlus]
  refine Alike.bind (Alike.whileLoop (I := Eq) ?_ ?_ _ rfl) ?_
  · rintro m _ rfl
    rfl
  · rintro m _ rfl
    exact Alike.refl _
  · -- fewer than 128 bytes are left, a number that every `size_t` has
    rintro m _ ⟨rfl, hshort⟩
    have hlt : m.len < 128 := by simpa using hshort
    simp only [pairCount_eq cfg hlt, pairCount_eq cfg' hlt]
    exact Alike.refl _

theorem Independent.tailBytes (h : Independent cfg cfg') : tailBytes cfg = tailBytes cfg' := by
  funext r f p
  unfold IndexedHash.tailBytes
  rw [h.loadLe32, h.loadLe16]

theorem Independent.switchLen (h : Independent cfg cfg') (fs : VmumFactors) :
    switchLen cfg fs = switchLen cfg' fs := by
  funext l
  unfold IndexedHash.switchLen tailLong tailShort
  rw [h.loadLe, h.tailBytes, h.vmum, h.vmumPlus]

/-- `_vmum_hash_aligned` on two targets. -/
theorem Independent.vmumHashAligned (h : Independent cfg cfg') (fs : VmumFactors)
    {target target' : BlockTarget} {len : Nat} (hblocks : SameBlocks target target' len)
    (start : BitVec 64) (bytes : Nat → Option (BitVec 8)) :
    vmumHashAligned cfg fs (target.ops cfg) start bytes len =
      vmumHashAligned cfg' fs (target'.ops cfg') start bytes len := by
  have hloop := (blockLoop_alike h fs (IndexedHash.vmum cfg start fs.blockStart) hblocks).eq
  unfold IndexedHash.vmumHashAligned hashAligned hashLoops
  rw [hloop, h.vmum, h.wordLoops, h.switchLen]

end Alike

/-! ## `vmum_hash` on two targets -/

section Hash

variable {cfg cfg' : VmumConfig} {fs : VmumFactors} {key : Nat → Option (BitVec 8)} {len : Nat}

/-- The copying loop comes to the end of a key that is there. -/
theorem copyLoop_returns (ops : BlockOps) {l : CopyLoop} {fuel : Nat} (hfuel : l.len < fuel)
    (hkey : ∀ o < l.len, ∃ b, key (l.str + o) = some b) :
    ∃ r, forever (copyPass cfg fs ops key) fuel l = some r := by
  induction fuel generalizing l with
  | zero => exact absurd hfuel (Nat.not_lt_zero _)
  | succ fuel ih =>
    by_cases hlen : l.len = 0
    · exact ⟨l.result, forever_leave (by rw [copyPass, if_neg (not_not.mpr hlen)]) fuel⟩
    · obtain ⟨n, hn⟩ : ∃ n, n = if l.len < 1024 then l.len else 1024 := ⟨_, rfl⟩
      have hpos : 0 < n ∧ n ≤ l.len := by
        rw [hn]
        split <;> omega
      have hbuf : ∀ o < n, ∃ b, memmove l.buf (fun o => key (l.str + o)) n o = some b := by
        intro o ho
        rw [memmove, if_pos ho]
        exact hkey o (by omega)
      obtain ⟨r, hr⟩ := vmumHashAligned_congr cfg fs ops hbuf l.result
      have hpass : copyPass cfg fs ops key l = some (.again ⟨r, l.str + n, l.len - n,
          memmove l.buf (fun o => key (l.str + o)) n⟩) := by
        rw [copyPass, if_pos hlen, ← hn]
        simp only [hr _ fun _ _ => rfl]
        rfl
      rw [forever_again hpass]
      apply ih
      · show l.len - n < fuel
        omega
      · intro o ho
        rw [Nat.add_assoc]
        exact hkey (n + o) (Nat.add_lt_of_lt_sub' ho)

theorem vmumHashDefault_eq (cfg : VmumConfig) (fs : VmumFactors) (ops : BlockOps) (addr : Nat)
    (key : Nat → Option (BitVec 8)) (len : Nat) (seed : BitVec 64) :
    vmumHashDefault cfg fs ops addr key len seed =
      (if addr &&& 7 = 0 then vmumHashAligned cfg fs ops (seed + BitVec.ofNat 64 len) key len
        else forever (copyPass cfg fs ops key) (len + 1)
          ⟨seed + BitVec.ofNat 64 len, 0, len, fun _ => none⟩).map (vmumFinal cfg) := by
  unfold vmumHashDefault
  split
  · exact Option.map_eq_bind.symm
  · exact Option.map_eq_bind.symm

/-- `vmum_hash` returns. -/
theorem vmumHash_returns (ops : BlockOps) (unalignedAccess : Bool) (addr : Nat) (seed : BitVec 64)
    (hkey : ∀ o < len, ∃ b, key o = some b) :
    ∃ v, vmumHash cfg fs ops unalignedAccess addr key len seed = some v := by
  obtain ⟨r, hr⟩ := vmumHashAligned_congr cfg fs ops hkey (seed + BitVec.ofNat 64 len)
  have hwhole := hr key fun _ _ => rfl
  have hstart : ∀ o < len, ∃ b, key (0 + o) = some b := by simpa using hkey
  obtain ⟨r', hr'⟩ := copyLoop_returns (l := ⟨seed + BitVec.ofNat 64 len, 0, len, fun _ => none⟩) ops
    (Nat.lt_succ_self len) hstart
  rw [vmumHash, vmumHashDefault_eq, hwhole]
  split
  · exact ⟨_, rfl⟩
  · split
    · exact ⟨_, rfl⟩
    · exact ⟨_, congrArg (Option.map (vmumFinal cfg)) hr'⟩

theorem Independent.vmumHash (h : Independent cfg cfg') {target target' : BlockTarget}
    (hblocks : SameBlocks target target' len) (unalignedAccess : Bool) (addr : Nat)
    (seed : BitVec 64) :
    vmumHash cfg fs (target.ops cfg) unalignedAccess addr key len seed =
      vmumHash cfg' fs (target'.ops cfg') unalignedAccess addr key len seed := by
  have hfinal : vmumFinal cfg = vmumFinal cfg' := by
    funext x
    rw [vmumFinal, vmumFinal, h.vmum]
  have hcopy : ∀ result, forever (copyPass cfg fs (target.ops cfg) key) (len + 1)
      ⟨result, 0, len, fun _ => none⟩ =
      forever (copyPass cfg' fs (target'.ops cfg') key) (len + 1) ⟨result, 0, len, fun _ => none⟩ := by
    intro result
    refine forever_congr (fun l => l.len ≤ len) ?_ ?_ _ (Nat.le_refl len)
    · intro l hl
      have hless : SameBlocks target target' (if l.len < 1024 then l.len else 1024) :=
        hblocks.imp_left fun hlt => by split <;> omega
      unfold copyPass
      simp only [h.vmumHashAligned fs hless]
    · intro l l' hl hpass
      unfold copyPass at hpass
      split at hpass
      · obtain ⟨r, -, heq⟩ := Option.bind_eq_some_iff.mp hpass
        cases heq
        exact Nat.le_trans (Nat.sub_le _ _) hl
      · cases hpass
  unfold IndexedHash.vmumHash
  rw [vmumHashDefault_eq, vmumHashDefault_eq, h.vmumHashAligned fs hblocks, hcopy, hfinal]

/-- Keys of one block: where the key stands and how it is loaded does not matter. -/
theorem vmumHash_placed (ops : BlockOps) {ua ua' : Bool} {addr addr' : Nat} {seed : BitVec 64}
    (hkey : ∀ o < len, ∃ b, key o = some b)
    (hplace : ua = ua' ∧ addr = addr' ∨ 0 < len ∧ len ≤ 1024) :
    vmumHash cfg fs ops ua addr key len seed = vmumHash cfg fs ops ua' addr' key len seed := by
  rcases hplace with ⟨rfl, rfl⟩ | ⟨hpos, hblock⟩
  · rfl
  · -- both are the hash of an aligned key
    have haligned : ∀ ua addr, vmumHash cfg fs ops ua addr key len seed =
        vmumHash cfg fs ops true 0 key len seed := by
      intro ua addr
      cases ua with
      | true => rfl
      | false =>
        obtain ⟨v, hv⟩ := addressFree_of_block cfg ops hpos hblock fs seed key hkey
        rw [hv addr, ← hv 0, vmumHash, vmumHash, if_pos rfl, if_neg Bool.false_ne_true,
          vmumHashDefault_eq, if_pos (Nat.zero_and 7)]
    rw [haligned ua addr, haligned ua' addr']

end Hash

/-- The same key has the same hash on two targets, when both use the scalar block functions
    or the key has no whole block of them, and the key stands at the same address and is
    loaded in the same way or has no more than 1024 bytes. -/
theorem vmum_hash_targets {cfg cfg' : VmumConfig} (h : Independent cfg cfg') (fs : VmumFactors)
    {target target' : BlockTarget} {len : Nat} (hblocks : SameBlocks target target' len)
    {key : Nat → Option (BitVec 8)} (hkey : ∀ o < len, ∃ b, key o = some b) (seed : BitVec 64)
    {ua ua' : Bool} {addr addr' : Nat}
    (hplace : ua = ua' ∧ addr = addr' ∨ 0 < len ∧ len ≤ 1024) :
    ∃ v, vmumHash cfg fs (target.ops cfg) ua addr key len seed = some v ∧
      vmumHash cfg' fs (target'.ops cfg') ua' addr' key len seed = some v := by
  obtain ⟨v, hv⟩ : ∃ v, vmumHash cfg fs (target.ops cfg) ua addr key len seed = some v :=
    vmumHash_returns (target.ops cfg) ua addr seed hkey
  refine ⟨v, hv, ?_⟩
  rw [← vmumHash_placed (target'.ops cfg') hkey hplace, ← h.vmumHash hblocks ua addr seed]
  exact hv

def littleTarget : VmumConfig :=
  { defaultConfig with targetIndependent := true }

def bigTarget : VmumConfig where
  useInt128 := false
  targetIndependent := true
  v1 := false
  byteOrder := .big
  sizeBits := 32
  sizeBits_ge := by decide

/-- Twenty bytes, at the address 3 with AVX2 and at the address 8 with AltiVec. -/
theorem vmum_hash_targets_twenty :
    ∃ v, vmumHash littleTarget vmumFactors (BlockTarget.avx2.ops littleTarget) true 3
        (fun o => some (BitVec.ofNat 8 o)) 20 7 = some v ∧
      vmumHash bigTarget vmumFactors (BlockTarget.altivec.ops bigTarget) false 8
        (fun o => some (BitVec.ofNat 8 o)) 20 7 = some v := by
  have hblocks : SameBlocks .avx2 .altivec 20 := .inl (by decide)
  have hconfigs : Independent littleTarget bigTarget := ⟨rfl, rfl, rfl⟩
  apply vmum_hash_targets hconfigs vmumFactors hblocks
  · intro o _
    exact ⟨_, rfl⟩
  · exact .inr (by decide)

end IndexedHash
