import IndexedHash.CString
import IndexedHash.SmallTables
import IndexedHash.VmumTargets

/-!
# Tables of strings

`benchmarks/bench_c.c` instantiates the tables with elements that point to strings, with
`vmum_hash` of the string as `Hash` and `strcmp` as `Eq`.  Such a table is about the contents
of the strings: the same contents may lie at several addresses.  `vmum_hash` of the contents
depends on the address on targets that cannot load words from any address, for strings of more
than 1024 bytes.  Without those the tables are association lists from contents to values
(`ci_str_tables`).
-/

namespace IndexedHash

open Loop KeyedList CString

/-! ## The hash of a string -/

/-- What `vmum_hash` is compiled with and the factors it reads. -/
structure Hashing where
  cfg : VmumConfig
  fs : VmumFactors
  target : BlockTarget
  unalignedAccess : Bool

def Hashing.vmumHash (H : Hashing) (addr : Nat) (key : Nat → Option (BitVec 8)) (len : Nat)
    (seed : BitVec 64) : Option (BitVec 64) :=
  IndexedHash.vmumHash H.cfg H.fs (H.target.ops H.cfg) H.unalignedAccess addr key len seed

/-- Strings of this length are hashed alike at all addresses. -/
def Hashing.Uniform (H : Hashing) (len : Nat) : Prop := H.unalignedAccess = true ∨ len ≤ 1024

theorem wordLoops_empty (cfg : VmumConfig) (state : BitVec 64) :
    wordLoops cfg ⟨state, 0, 0, 0⟩ = .ret ⟨state, 0, 0, 0⟩ := by
  have hpairs : pairCount cfg 0 = 0 := pairCount_eq cfg (by decide)
  have hloops : wordLoops cfg ⟨state, 0, 0, 0⟩ =
      (Accesses.Prog.iterate (wordPair cfg (vmumPlus cfg)) (passes (pairCount cfg 0))
        ⟨state, 0, 0, 0⟩).bind fun l =>
          .ret { l with len := l.len - pairCount cfg 0 * 8, str := l.str + l.i * 8 } := rfl
  rw [hloops, hpairs]
  rfl

/-- With the seed 0, the empty key has the same hash at every address. -/
theorem vmumHash_empty (cfg : VmumConfig) (fs : VmumFactors) (ops : BlockOps) (ua : Bool) (addr : Nat)
    (key : Nat → Option (BitVec 8)) :
    vmumHash cfg fs ops ua addr key 0 0 = some (vmumFinal cfg 0) := by
  have haligned : vmumHashAligned cfg fs ops 0 key 0 = some 0 := by
    have hcode : hashAligned cfg fs ops 0 0 =
        (wordLoops cfg ⟨vmum cfg 0 fs.blockStart, 0, 0, 0⟩).bind (switchLen cfg fs) := rfl
    rw [vmumHashAligned, hcode, wordLoops_empty, vmum_zero_left]
    rfl
  rw [vmumHash, vmumHashDefault_eq]
  split
  · exact congrArg (Option.map (vmumFinal cfg)) haligned
  · split
    · exact congrArg (Option.map (vmumFinal cfg)) haligned
    · rfl

/-- `vmum_hash` of a key that is not empty is its hash as an aligned key. -/
theorem Hashing.Uniform.aligned {H : Hashing} {len : Nat} (h : H.Uniform len) (hpos : 0 < len)
    {key : Nat → Option (BitVec 8)} (hkey : ∀ o < len, ∃ b, key o = some b) (addr : Nat)
    (seed : BitVec 64) :
    H.vmumHash addr key len seed =
      IndexedHash.vmumHash H.cfg H.fs (H.target.ops H.cfg) true 0 key len seed := by
  unfold Hashing.vmumHash
  rcases h with hua | hle
  · rw [hua]
    rfl
  · exact vmumHash_placed _ hkey (.inr ⟨hpos, hle⟩)

/-- `vmum_hash` with the seed 0 depends on the bytes, and not on where they stand. -/
theorem Hashing.Uniform.hash_eq {H : Hashing} {len : Nat} (h : H.Uniform len)
    {key key' : Nat → Option (BitVec 8)} (hkey : ∀ o < len, ∃ b, key o = some b)
    (hsame : ∀ o < len, key' o = key o) (addr addr' : Nat) :
    H.vmumHash addr' key' len 0 = H.vmumHash addr key len 0 := by
  rcases Nat.eq_zero_or_pos len with rfl | hpos
  · unfold Hashing.vmumHash
    rw [vmumHash_empty, vmumHash_empty]
  · have hkey' : ∀ o < len, ∃ b, key' o = some b := by
      intro o ho
      rw [hsame o ho]
      exact hkey o ho
    obtain ⟨r, hr⟩ := vmumHashAligned_congr H.cfg H.fs (H.target.ops H.cfg) hkey
      (0 + BitVec.ofNat 64 len)
    rw [h.aligned hpos hkey', h.aligned hpos hkey, IndexedHash.vmumHash, IndexedHash.vmumHash, hr key' hsame,
      hr key fun _ _ => rfl, if_pos rfl, if_pos rfl]

/-! ## The elements -/

section Elements

variable {mem : Nat → BitVec 8} {H : Hashing}

/-- `ci_str`: a pointer to a string of a length that is hashed alike everywhere, and a
    value. -/
structure CiStr (mem : Nat → BitVec 8) (H : Hashing) where
  key : Nat
  value : Int
  ends : Ends mem key
  uniform : H.Uniform (strlen ends)

def ciStrH (e : CiStr mem H) : BitVec 64 :=
  (H.vmumHash e.key (fun o => some (mem (e.key + o))) (strlen e.ends) 0).getD 0

def ciStrE (a b : CiStr mem H) : Bool := strcmpZero mem (strlen a.ends + 1) a.key b.key

def ciStrKey (mem : Nat → BitVec 8) (H : Hashing) : Key (CiStr mem H) := ⟨ciStrH, ciStrE⟩

def CiStr.entry (e : CiStr mem H) : List (BitVec 8) × Int := (contents e.ends, e.value)

theorem ciStrE_iff (a b : CiStr mem H) : ciStrE a b = true ↔ contents a.ends = contents b.ends :=
  strcmpZero_iff a.ends b.ends (Nat.lt_succ_self _)

theorem ciStrH_eq {a b : CiStr mem H} (h : contents a.ends = contents b.ends) : ciStrH a = ciStrH b := by
  have hlen : strlen a.ends = strlen b.ends := by
    rw [← length_contents, h, length_contents]
  have hbytes : ∀ o < strlen b.ends, some (mem (a.key + o)) = some (mem (b.key + o)) := by
    intro o ho
    have hget := congrArg (·[o]?) h
    simpa [contents, hlen, ho] using hget
  unfold ciStrH
  rw [hlen, b.uniform.hash_eq (fun o _ => ⟨_, rfl⟩) hbytes]

theorem ciStrKey_lawful : (ciStrKey mem H).Lawful where
  refl a := (ciStrE_iff a a).mpr rfl
  symm a b h := (ciStrE_iff b a).mpr ((ciStrE_iff a b).mp h).symm
  trans a b c hab hbc := (ciStrE_iff a c).mpr (((ciStrE_iff a b).mp hab).trans ((ciStrE_iff b c).mp hbc))
  hash_eq a b h := ciStrH_eq ((ciStrE_iff a b).mp h)

end Elements

/-! ## The reference on entries -/

section Entries

variable {α β : Type} {eq : α → α → Bool} {eq' : β → β → Bool} {f : α → β}

def Call.map (f : α → β) (c : Call α) : Call β := ⟨f c.el, c.action, f c.fresh, c.update.map f⟩

theorem lookup_map (hf : ∀ x y, eq' (f x) (f y) = eq x y) (l : List α) (x : α) :
    lookup eq' (l.map f) (f x) = (lookup eq l x).map f := by
  rw [lookup, lookup, List.find?_map]
  simp only [Function.comp_def, hf]

/-- The reference does not notice more of the elements than `eq` does. -/
theorem refStep_map (hf : ∀ x y, eq' (f x) (f y) = eq x y) (l : List α) (c : Call α) :
    refStep eq' (l.map f) (c.map f) =
      ((refStep eq l c).1.map id (Option.map f), (refStep eq l c).2.map f) := by
  have hremove : remove eq' (l.map f) (f c.el) = (remove eq l c.el).map f := by
    rw [remove, remove, List.filter_map]
    simp only [Function.comp_def, hf]
  have hreplace : ∀ y, replace eq' (l.map f) (f c.el) (f y) = (replace eq l c.el y).map f := by
    intro y
    rw [replace, replace, List.map_map, List.map_map]
    apply List.map_congr_left
    intro x _
    rw [Function.comp_apply, Function.comp_apply, hf, apply_ite f]
  unfold refStep Call.map
  dsimp only
  rw [lookup_map hf]
  cases lookup eq l c.el with
  | some x =>
    by_cases hdel : c.action = .delete
    · simp only [Option.map_some, if_pos hdel, hremove]
      rfl
    · simp only [Option.map_some, if_neg hdel]
      cases c.update with
      | none => rfl
      | some y =>
        simp only [Option.map_some, hreplace]
        rfl
  | none =>
    by_cases hins : c.action = .insert
    · simp only [Option.map_none, if_pos hins, List.map_append, List.map_singleton]
      rfl
    · simp only [Option.map_none, if_neg hins]
      rfl

theorem refRun_map (hf : ∀ x y, eq' (f x) (f y) = eq x y) (l : List α) (cs : List (Call α)) :
    refRun eq' (l.map f) (cs.map (Call.map f)) =
      ((refRun eq l cs).1.map (Prod.map id (Option.map f)), (refRun eq l cs).2.map f) := by
  induction cs generalizing l with
  | nil => rfl
  | cons c cs ih =>
    simp only [List.map_cons, refRun, refStep_map hf, ih]

end Entries

/-! ## The tables -/

section Tables

variable {mem : Nat → BitVec 8} {H : Hashing} {calls : List (Call (CiStr mem H))}

def sameContents (a b : List (BitVec 8) × Int) : Bool := a.1 == b.1

/-- What the calls come to on an association list from contents to values. -/
def contentsRun (calls : List (Call (CiStr mem H))) :
    List (Bool × Option (List (BitVec 8) × Int)) × List (List (BitVec 8) × Int) :=
  refRun sameContents [] (calls.map (Call.map CiStr.entry))

theorem contentsRun_eq (calls : List (Call (CiStr mem H))) :
    contentsRun calls = ((refRun (ciStrKey mem H).eq [] calls).1.map (Prod.map id (Option.map CiStr.entry)),
      (refRun (ciStrKey mem H).eq [] calls).2.map CiStr.entry) := by
  have heq : ∀ a b : CiStr mem H, sameContents a.entry b.entry = (ciStrKey mem H).eq a b := by
    intro a b
    rw [Bool.eq_iff_iff, sameContents, beq_iff_eq]
    exact (ciStrE_iff a b).symm
  exact refRun_map heq [] calls

/-- A session of the tables on strings answers as the association list from contents to
    values, and iterates over its entries in their order.  `ixhtab.h` does so as long as
    few elements are kept. -/
theorem ci_str_tables (target target' : Target) {minSize : Nat} (hmin : minSize ≤ 2 ^ 62)
    (hcalls : ∀ c ∈ calls, c.Ok (ciStrKey mem H)) (hlength : calls.length ≤ 2 ^ 32) :
    (∃ rs t l, Returns (fun fuel => ihtSession (ihtOps (ciStrKey mem H) target) (ciStrKey mem H) fuel
          minSize calls) (rs, t) ∧
      rs.map (fun r => (r.found, r.value.map CiStr.entry)) = (contentsRun calls).1 ∧
      Returns (fun fuel => ihtElements fuel t) l ∧ l.map CiStr.entry = (contentsRun calls).2) ∧
    ∀ maxPower, PowerOk maxPower → 2 * minSize ≤ 2 ^ maxPower → calls.length < 2 ^ 31 →
      SmallSession maxPower (ciStrKey mem H) calls →
      ∃ rs t l, Returns (fun fuel => ixhtSession maxPower (ixhtOps (ciStrKey mem H) target')
          (ciStrKey mem H) fuel minSize calls) (rs, t) ∧
        rs.map (fun r => (r.found, r.value.map CiStr.entry)) = (contentsRun calls).1 ∧
        Returns (fun fuel => ixhtElements fuel t) l ∧ l.map CiStr.entry = (contentsRun calls).2 := by
  have hspec := contentsRun_eq calls
  constructor
  · obtain ⟨rs, t, hrun, hseen, -, hall⟩ :=
      ihtSession_list ciStrKey_lawful target hmin hcalls hlength
    refine ⟨rs, t, _, hrun, ?_, hall, ?_⟩
    · rw [hspec, ← hseen, List.map_map]
      rfl
    · rw [hspec]
  · intro maxPower hpower hsize hfew hs
    obtain ⟨rs, t, hrun, hseen, -, hall⟩ := hs.list ciStrKey_lawful hpower target' hsize hfew
    refine ⟨rs, t, _, hrun, ?_, hall, ?_⟩
    · rw [hspec, ← hseen, List.map_map]
      rfl
    · rw [hspec]

end Tables

def abMemory (p : Nat) : BitVec 8 := if p = 3 ∨ p = 16 then 97 else if p = 4 ∨ p = 17 then 98 else 0

def alignedHashing : Hashing := ⟨littleTarget, vmumFactors, .scalar, false⟩

def abElement (p : Nat) (value : Int) (hp : abMemory (p + 2) = 0) : CiStr abMemory alignedHashing where
  key := p
  value := value
  ends := ⟨2, hp⟩
  uniform := .inr (Nat.le_trans (Nat.find_min' _ hp) (by decide))

def abCalls : List (Call (CiStr abMemory alignedHashing)) :=
  plainCalls [(.insert, abElement 16 7 rfl), (.find, abElement 3 0 rfl)]

theorem ci_str_tables_ab :
    SmallSession IXHT_MAX_BIN_SIZE_POWER (ciStrKey abMemory alignedHashing) abCalls ∧
    (∃ rs t l, Returns (fun fuel => ihtSession (ihtOps (ciStrKey abMemory alignedHashing) .swar)
          (ciStrKey abMemory alignedHashing) fuel 8 abCalls) (rs, t) ∧
      rs.map (fun r => (r.found, r.value.map CiStr.entry)) = (contentsRun abCalls).1 ∧
      Returns (fun fuel => ihtElements fuel t) l ∧ l.map CiStr.entry = (contentsRun abCalls).2) ∧
    ∃ rs t l, Returns (fun fuel => ixhtSession IXHT_MAX_BIN_SIZE_POWER
          (ixhtOps (ciStrKey abMemory alignedHashing) .neon) (ciStrKey abMemory alignedHashing) fuel 8
          abCalls) (rs, t) ∧
      rs.map (fun r => (r.found, r.value.map CiStr.entry)) = (contentsRun abCalls).1 ∧
      Returns (fun fuel => ixhtElements fuel t) l ∧ l.map CiStr.entry = (contentsRun abCalls).2 := by
  have hcalls : ∀ c ∈ abCalls, c.Ok (ciStrKey abMemory alignedHashing) := plainCalls_ok ciStrKey_lawful _
  have hs : SmallSession IXHT_MAX_BIN_SIZE_POWER (ciStrKey abMemory alignedHashing) abCalls :=
    .of_length hcalls (show 2 * 2 ≤ 2 ^ 15 by decide)
  obtain ⟨hiht, hixht⟩ := ci_str_tables .swar .neon (show 8 ≤ 2 ^ 62 by decide) hcalls
    (show 2 ≤ 2 ^ 32 by decide)
  have hfew : abCalls.length < 2 ^ 31 := by decide
  exact ⟨hs, hiht, hixht _ powerOk_source (by decide) hfew hs⟩

end IndexedHash
