import Mathlib.Tactic.Common
import IndexedHash.ByteBuffer
import IndexedHash.ByteOrder
import IndexedHash.GroupIndex
import IndexedHash.IndexRelation

/-!
# Groups as bytes

`ihtab.h` and `ixhtab.h` keep a bin's groups in one allocation of bytes.  Group `g` starts
at byte `g * GROUP_BYTES`; its eight tags come first and its eight stored indices, of
`sizeof (iht_ind_t)` bytes each, right after them.  `GroupIndex.lean` sees a list of groups
with two fields.  Here the index is the allocation, and `do_1` finds its way in it by the
address arithmetic of the source.

`Lays` relates the two: every tag byte and every stored index reads as the field it is.
`byteOps_related` shows that allocation, the two resets and `do_1` keep it.  So an access
outside the allocation, a read of a byte that nothing has written, or a write that spills
into a neighbouring field would show as a difference between the two tables, and there is
none in any run.
-/

namespace IndexedHash

open Loop ByteWord Probing

variable {El : Type}

/-! ## The code -/

/-- `sizeof (iht_ind_t)`, `sizeof (ixht_ind_t)` -/
def Widths.indBytes (w : Widths) : Nat := w.ind / 8

/-- `IHT_GROUP_BYTES`, `IXHT_GROUP_BYTES` -/
def Widths.groupBytes (w : Widths) : Nat := GROUP_SIZE * (1 + w.indBytes)

/-- `group_base` -/
def groupBase (w : Widths) (groupInd : Nat) : Nat := groupInd * w.groupBytes

/-- `&group_indexes[bit]` -/
def indexAt (w : Widths) (base bit : Nat) : Nat := base + GROUP_SIZE + bit * w.indBytes

/-- One pass of `while (mmask)`. -/
def byteProbeSlot (w : Widths) (order : ByteOrder) (eq : El → El → Bool) (b : Hbin El Buffer)
    (base : Nat) (el : El) (bit : Nat) : Option (Step Unit (Nat × Nat)) :=
  (b.groups.readNum order (indexAt w base bit) w.indBytes).bind fun elInd =>
    (b.elAt elInd).map fun x => if eq x el then .leave (bit, elInd) else .again ()

/-- One pass of `for (;;)`. -/
def byteProbeGroup (w : Widths) (gops : GroupOps) (order : ByteOrder) (eq : El → El → Bool)
    (b : Hbin El Buffer) (h7 : BitVec 8) (el : El) (g : Nat) : Option (Step Nat Probe) :=
  (b.groups.readBytes (groupBase w g) GROUP_SIZE).bind fun tags =>
    let word := gops.groupLoad tags
    (whileMask (fun _ i => byteProbeSlot w order eq b (groupBase w g) el (gops.bit i)) 64 ()
      (gops.matchMask word h7)).map fun
      | .leave (bit, elInd) => .leave (.hit g bit elInd)
      | .again _ =>
          match gops.firstFlagged (gops.matchEmpty word) with
          | some bit => .leave (.vacant g bit)
          | none => .again ((g + 1) &&& b.groupsMask)

def byteProbe (w : Widths) (gops : GroupOps) (order : ByteOrder) (eq : El → El → Bool) (fuel : Nat)
    (b : Hbin El Buffer) (hash : BitVec 64) (el : El) : Option Probe :=
  forever (byteProbeGroup w gops order eq b (h7Val hash) el) fuel (homeGroup w hash b.groupsMask)

/-- `iht_do_1`, `ixht_do_1` -/
def byteDo1 (w : Widths) (gops : GroupOps) (order : ByteOrder) (eq : El → El → Bool)
    (fuel elsNum : Nat) (b : Hbin El Buffer) (hash : BitVec 64) (el : El) (action : Action) :
    Option (Outcome El Buffer) :=
  (byteProbe w gops order eq fuel b hash el).bind fun
    | .hit g bit elInd =>
        if action = .delete then
          (b.deleted.mark? elInd).bind fun deleted =>
            (b.groups.write? (groupBase w g + bit) DELETED_H7).map fun groups =>
              { found := true, res := none, elsNum := w.decr elsNum,
                bin := { b with deleted := deleted, groups := groups } }
        else some { found := true, res := some elInd, elsNum := elsNum, bin := b }
    | .vacant g bit =>
        if action = .insert then
          (b.groups.write? (groupBase w g + bit) (h7Val hash)).bind fun groups =>
            -- the conversion to `iht_ind_t` is the encoding in `indBytes` bytes
            (groups.writeNum? order (indexAt w (groupBase w g) bit) w.indBytes b.elsBound).map
              fun groups =>
                { found := false, res := some b.elsBound, elsNum := w.incr elsNum,
                  bin := { b with groups := groups, elsBound := w.incr b.elsBound } }
        else some { found := false, res := none, elsNum := elsNum, bin := b }

/-- `for (i = 0; i < num_groups; i++) memset (groups + i * GROUP_BYTES, EMPTY_H7, GROUP_SIZE);` -/
def emptyTags (w : Widths) (numGroups : Nat) (bytes : Buffer) : Option Buffer :=
  (List.range numGroups).foldlM (fun bytes i => bytes.memset? (groupBase w i) EMPTY_H7 GROUP_SIZE) bytes

/-- The index of the current headers on bytes.  A new allocation has room for the groups,
    so that there the resets succeed (`emptyTags_realloc`). -/
def byteOps (w : Widths) (gops : GroupOps) (order : ByteOrder) (eq : El → El → Bool) :
    BinOps El Buffer where
  alloc n := (emptyTags w n (Buffer.realloc [] (n * w.groupBytes))).getD []
  clear n bytes := emptyTags w n bytes
  regrow n bytes := (emptyTags w n (bytes.realloc (n * w.groupBytes))).getD []
  do1 := byteDo1 w gops order eq

/-! ## Masks stay inside the group -/

structure GroupOps.InGroup (gops : GroupOps) : Prop where
  matchMask : ∀ word h7, ∀ j ∈ gops.flagged (gops.matchMask word h7), j < 8
  matchEmpty : ∀ word, ∀ j ∈ gops.flagged (gops.matchEmpty word), j < 8

private theorem lt_of_mem_flagged_scaled {gops : GroupOps} (h : gops.maskScale = true)
    (mask : BitVec 64) : ∀ j ∈ gops.flagged mask, j < 8 := by
  intro j hj
  obtain ⟨i, hi, rfl⟩ := List.mem_map.mp hj
  have hlt : i < 64 := List.mem_range.mp (List.mem_of_mem_filter hi)
  rw [GroupOps.bit, if_pos h]
  omega

private theorem lt_of_mem_flagged_low {gops : GroupOps} (h : gops.maskScale = false)
    {mask : BitVec 64} (hlow : ∀ i < 64, mask.getLsbD i = true → i < 8) :
    ∀ j ∈ gops.flagged mask, j < 8 := by
  intro j hj
  obtain ⟨i, hi, rfl⟩ := List.mem_map.mp hj
  obtain ⟨hrange, hset⟩ := List.mem_filter.mp hi
  simp only [GroupOps.bit, h, Bool.false_eq_true, if_false]
  exact hlow i (List.mem_range.mp hrange) hset

private theorem low_of_and_ff (x : BitVec 64) (i : Nat) (hi : i < 64)
    (h : (x &&& 0xff#64).getLsbD i = true) : i < 8 := by
  rw [BitVec.getLsbD_and, Bool.and_eq_true] at h
  have hall : ∀ i < 64, (0xff#64).getLsbD i = true → i < 8 := by decide
  exact hall i hi h.2

private theorem low_of_setWidth (x : BitVec 8) (i : Nat) (_ : i < 64)
    (h : (x.setWidth 64).getLsbD i = true) : i < 8 := by
  by_contra hi
  rw [BitVec.getLsbD_setWidth, BitVec.getLsbD_of_ge x i (Nat.le_of_not_lt hi)] at h
  simp at h

theorem Target.inGroup (target : Target) : target.ops.InGroup := by
  cases target with
  | sse2 =>
    constructor
    · intro word h7
      exact lt_of_mem_flagged_low rfl (low_of_and_ff _)
    · intro word
      exact lt_of_mem_flagged_low rfl (low_of_and_ff _)
  | neon =>
    constructor
    · intro word h7
      exact lt_of_mem_flagged_low rfl (low_of_setWidth _)
    · intro word
      exact lt_of_mem_flagged_low rfl (low_of_setWidth _)
  | swar =>
    constructor
    · intro word h7
      exact lt_of_mem_flagged_scaled rfl _
    · intro word
      exact lt_of_mem_flagged_scaled rfl _

theorem swarOps_inGroup (order : ByteOrder) : (swarOps order).InGroup where
  matchMask _ _ := lt_of_mem_flagged_scaled rfl _
  matchEmpty _ := lt_of_mem_flagged_scaled rfl _

/-! ## The layout -/

structure Widths.Bytewise (w : Widths) : Prop where
  ind : 8 * w.indBytes = w.ind
  pos : 0 < w.indBytes

theorem ihtWidths_bytewise : ihtWidths.Bytewise := ⟨by decide, by decide⟩

theorem ixhtWidths_bytewise : ixhtWidths.Bytewise := ⟨by decide, by decide⟩

section Offsets

variable {w : Widths} {g g' bit j : Nat}

theorem tag_offset_lt (w : Widths) (hj : j < 8) : j < w.groupBytes := by
  unfold Widths.groupBytes GROUP_SIZE
  omega

theorem index_offset_lt (w : Widths) (hj : j < 8) {i : Nat} (hi : i < w.indBytes) :
    GROUP_SIZE + j * w.indBytes + i < w.groupBytes := by
  have h := record_lt hj hi
  unfold Widths.groupBytes GROUP_SIZE
  omega

theorem indexAt_eq (w : Widths) (g j i : Nat) :
    indexAt w (groupBase w g) j + i = g * w.groupBytes + (GROUP_SIZE + j * w.indBytes + i) := by
  unfold indexAt groupBase
  omega

theorem tag_addr_inj (hj : j < 8) (hbit : bit < 8) :
    groupBase w g' + j = groupBase w g + bit ↔ 8 * g' + j = 8 * g + bit := by
  rw [groupBase, groupBase, record_inj (tag_offset_lt w hj) (tag_offset_lt w hbit)]
  omega

/-- A byte of a stored index is no tag. -/
theorem index_addr_ne_tag (hj : j < 8) (hbit : bit < 8) {i : Nat} (hi : i < w.indBytes) :
    indexAt w (groupBase w g') j + i ≠ groupBase w g + bit := by
  rw [indexAt_eq, groupBase, Ne, record_inj (index_offset_lt w hj hi) (tag_offset_lt w hbit)]
  unfold GROUP_SIZE
  omega

/-- Two stored indices share no byte. -/
theorem index_addr_inj (hj : j < 8) (hbit : bit < 8) {i i' : Nat} (hi : i < w.indBytes)
    (hi' : i' < w.indBytes)
    (h : indexAt w (groupBase w g') j + i = indexAt w (groupBase w g) bit + i') :
    8 * g' + j = 8 * g + bit := by
  rw [indexAt_eq, indexAt_eq, record_inj (index_offset_lt w hj hi) (index_offset_lt w hbit hi')] at h
  obtain ⟨hgroup, hoffset⟩ := h
  have hinner : j * w.indBytes + i = bit * w.indBytes + i' := by omega
  have hslot := ((record_inj hi hi').mp hinner).1
  omega

end Offsets

structure Lays (w : Widths) (order : ByteOrder) (bytes : Buffer) (groups : List Group) : Prop where
  length : bytes.length = groups.length * w.groupBytes
  tag : ∀ g, ∀ j < 8, bytes.read (groupBase w g + j) = slotTag groups (8 * g + j)
  index : ∀ g, ∀ j < 8,
    bytes.readNum order (indexAt w (groupBase w g) j) w.indBytes = slotInd groups (8 * g + j)

namespace Lays

variable {w : Widths} {order : ByteOrder} {bytes bytes' : Buffer} {groups : List Group} {g bit : Nat}

/-- `group_load` reads the tags of the group. -/
theorem readBytes (h : Lays w order bytes groups) (g : Nat) :
    bytes.readBytes (groupBase w g) GROUP_SIZE = groups[g]?.map fun group => group.tags.toList := by
  cases hgroup : groups[g]? with
  | none =>
    apply Buffer.readBytes_eq_none (by decide)
    have hread := h.tag g 0 (by decide)
    have hdiv : (8 * g + 0) / 8 = g := by omega
    rwa [slotTag, hdiv, hgroup] at hread
  | some group =>
    have hlen : group.tags.toList.length = GROUP_SIZE := group.tags.length_toList
    rw [← hlen]
    apply Buffer.readBytes_eq_some
    intro i hi
    rw [hlen] at hi
    rw [h.tag g i hi, slotTag_of_group hgroup hi, Vector.getElem?_toList]

theorem tag_addr_lt (h : Lays w order bytes groups) (hg : g < groups.length) (hbit : bit < 8) :
    groupBase w g + bit < bytes.length := by
  rw [h.length]
  exact record_lt hg (tag_offset_lt w hbit)

theorem index_addr_le (h : Lays w order bytes groups) (hw : w.Bytewise) (hg : g < groups.length)
    (hbit : bit < 8) : indexAt w (groupBase w g) bit + w.indBytes ≤ bytes.length := by
  have hlast : w.indBytes - 1 < w.indBytes := Nat.sub_lt hw.pos Nat.one_pos
  have hlt := record_lt hg (index_offset_lt w hbit hlast)
  rw [← indexAt_eq, ← h.length] at hlt
  omega

/-- `group_base[bit] = tag` -/
theorem setTag (h : Lays w order bytes groups) (hg : g < groups.length) (hbit : bit < 8)
    {tag : BitVec 8} (hwrite : bytes.write? (groupBase w g + bit) tag = some bytes') :
    Lays w order bytes' (IndexedHash.setTag groups g bit tag) where
  length := by rw [Buffer.length_write? hwrite, h.length, length_setTag]
  tag g' j hj := by
    rw [Buffer.read_write? hwrite, slotTag_setTag hg hbit, h.tag g' j hj]
    exact if_congr (tag_addr_inj hj hbit) rfl rfl
  index g' j hj := by
    rw [slotInd_setTag, ← h.index g' j hj]
    apply Buffer.readNum_congr
    intro i hi
    rw [Buffer.read_write? hwrite, if_neg (index_addr_ne_tag hj hbit hi)]

/-- `group_indexes[bit] = (iht_ind_t) n` -/
theorem setIndex (h : Lays w order bytes groups) (hw : w.Bytewise) (hg : g < groups.length)
    (hbit : bit < 8) {n : Nat}
    (hwrite : bytes.writeNum? order (indexAt w (groupBase w g) bit) w.indBytes n = some bytes') :
    Lays w order bytes' (IndexedHash.setIndex groups g bit (n % 2 ^ w.ind)) where
  length := by rw [Buffer.length_writeBytes? hwrite, h.length, length_setIndex]
  tag g' j hj := by
    rw [slotTag_setIndex, ← h.tag g' j hj]
    apply Buffer.read_writeNum? hwrite
    by_contra hin
    obtain ⟨i, hi⟩ := Nat.exists_eq_add_of_le (Nat.le_of_not_lt (not_or.mp hin).1)
    have hlt : i < w.indBytes := by omega
    exact index_addr_ne_tag hbit hj hlt hi.symm
  index g' j hj := by
    rw [slotInd_setIndex hg hbit]
    by_cases hslot : 8 * g' + j = 8 * g + bit
    · have hgroup : g' = g := by omega
      have hplace : j = bit := by omega
      subst hgroup hplace
      rw [if_pos rfl, Buffer.readNum_writeNum? hwrite, hw.ind]
    · rw [if_neg hslot, ← h.index g' j hj]
      apply Buffer.readNum_congr
      intro i hi
      apply Buffer.read_writeNum? hwrite
      by_contra hin
      obtain ⟨i', hi'⟩ := Nat.exists_eq_add_of_le (Nat.le_of_not_lt (not_or.mp hin).1)
      have hlt : i' < w.indBytes := by omega
      exact hslot (index_addr_inj hj hbit hi hlt hi')

end Lays

/-! ## The resets -/

section Resets

variable {w : Widths} {bytes : Buffer} {n g : Nat}

/-- The bytes that the pass for group `n` sets are the tags of that group. -/
theorem mem_tags_iff {o : Nat} (ho : o < w.groupBytes) :
    groupBase w n ≤ groupBase w g + o ∧ groupBase w g + o < groupBase w n + GROUP_SIZE ↔
      g = n ∧ o < 8 := by
  constructor
  · rintro ⟨hle, hlt⟩
    obtain ⟨i, hi⟩ := Nat.exists_eq_add_of_le hle
    have hi8 : i < 8 := by
      unfold GROUP_SIZE at hlt
      omega
    obtain ⟨hgroup, hoffset⟩ := (record_inj ho (tag_offset_lt w hi8)).mp hi
    exact ⟨hgroup, hoffset ▸ hi8⟩
  · rintro ⟨rfl, ho8⟩
    exact ⟨Nat.le_add_right _ _, Nat.add_lt_add_left ho8 _⟩

structure TagsReset (w : Widths) (n : Nat) (bytes bytes' : Buffer) : Prop where
  length : bytes'.length = bytes.length
  read : ∀ g, ∀ o < w.groupBytes, bytes'.read (groupBase w g + o) =
    if g < n ∧ o < 8 then some EMPTY_H7 else bytes.read (groupBase w g + o)

theorem emptyTags_succ (w : Widths) (n : Nat) (bytes : Buffer) :
    emptyTags w (n + 1) bytes =
      (emptyTags w n bytes).bind fun bytes => bytes.memset? (groupBase w n) EMPTY_H7 GROUP_SIZE := by
  rw [emptyTags, List.range_succ, List.foldlM_append, emptyTags]
  simp only [List.foldlM_cons, List.foldlM_nil, bind_pure]
  rfl

theorem emptyTags_of_le (h : n * w.groupBytes ≤ bytes.length) :
    ∃ bytes', emptyTags w n bytes = some bytes' ∧ TagsReset w n bytes bytes' := by
  induction n with
  | zero =>
    refine ⟨bytes, rfl, rfl, fun g o ho => ?_⟩
    rw [if_neg fun hg => Nat.not_lt_zero g hg.1]
  | succ n ih =>
    rw [Nat.succ_mul] at h
    obtain ⟨bytes₁, hreset, hlength, hread⟩ := ih (Nat.le_trans (Nat.le_add_right _ _) h)
    have hroom : groupBase w n + GROUP_SIZE ≤ bytes₁.length := by
      have hsize : GROUP_SIZE ≤ w.groupBytes := Nat.le_mul_of_pos_right GROUP_SIZE (Nat.le_add_right 1 _)
      rw [hlength, groupBase]
      omega
    obtain ⟨bytes₂, hset⟩ := Buffer.memset?_of_le hroom EMPTY_H7
    refine ⟨bytes₂, ?_, (Buffer.length_memset? hset).trans hlength, fun g o ho => ?_⟩
    · rw [emptyTags_succ, hreset, Option.bind_some, hset]
    · rw [Buffer.read_memset? hset, hread g o ho]
      simp only [mem_tags_iff ho]
      by_cases hgn : g = n
      · subst hgn
        simp
      · have hiff : g < n + 1 ↔ g < n := by omega
        simp [hgn, hiff]

theorem emptyTags_realloc (w : Widths) (n : Nat) (bytes : Buffer) :
    ∃ bytes', emptyTags w n (bytes.realloc (n * w.groupBytes)) = some bytes' ∧
      TagsReset w n (bytes.realloc (n * w.groupBytes)) bytes' :=
  emptyTags_of_le (Nat.le_of_eq (Buffer.length_realloc bytes _).symm)

/-- A reset of more groups than there are leaves the allocation. -/
theorem emptyTags_eq_none {m : Nat} (hlength : bytes.length = m * w.groupBytes) (h : m < n) :
    emptyTags w n bytes = none := by
  induction n with
  | zero => exact absurd h (Nat.not_lt_zero m)
  | succ n ih =>
    rw [emptyTags_succ]
    rcases Nat.lt_succ_iff_lt_or_eq.mp h with hlt | rfl
    · rw [ih hlt, Option.bind_none]
    · obtain ⟨bytes', hreset, htags⟩ := emptyTags_of_le (Nat.le_of_eq hlength.symm)
      rw [hreset, Option.bind_some, Buffer.memset?, if_neg]
      rw [htags.length, hlength, groupBase, GROUP_SIZE]
      omega

/-- The stored indices survive the resets. -/
theorem TagsReset.readNum {bytes' : Buffer} (h : TagsReset w n bytes bytes') (order : ByteOrder)
    (g : Nat) {j : Nat} (hj : j < 8) :
    bytes'.readNum order (indexAt w (groupBase w g) j) w.indBytes =
      bytes.readNum order (indexAt w (groupBase w g) j) w.indBytes := by
  apply Buffer.readNum_congr
  intro i hi
  have hoff := index_offset_lt w hj hi
  have htag : ¬ GROUP_SIZE + j * w.indBytes + i < 8 := by unfold GROUP_SIZE; omega
  rw [indexAt_eq]
  exact (h.read g _ hoff).trans (if_neg fun hc => htag hc.2)

theorem getElem?_cleared (groups : List Group) (n g : Nat) :
    ((groups.take n).map Group.clear ++ groups.drop n)[g]? =
      groups[g]?.map fun group => if g < n then group.clear else group := by
  by_cases hg : g < n
  · simp only [hg, if_true]
    by_cases hlen : g < groups.length
    · rw [List.getElem?_append_left (by simp [hg, hlen]), List.getElem?_map,
        List.getElem?_take_of_lt hg]
    · have hnone : groups[g]? = none := List.getElem?_eq_none (Nat.le_of_not_lt hlen)
      rw [hnone, List.getElem?_eq_none (by simp; omega)]
      rfl
  · simp only [hg, if_false, Option.map_id']
    by_cases hlen : n ≤ groups.length
    · rw [List.getElem?_append_right (by simp; omega), List.getElem?_drop]
      congr 1
      simp only [List.length_map, List.length_take]
      omega
    · have hnone : groups[g]? = none := List.getElem?_eq_none (by omega)
      rw [hnone, List.getElem?_eq_none (by simp; omega)]

theorem getElem?_regrown (groups : List Group) (n g : Nat) :
    ((groups.take n).map Group.clear ++ List.replicate (n - groups.length) Group.fresh)[g]? =
      if g < n then some ((groups[g]?.map Group.clear).getD Group.fresh) else none := by
  by_cases hg : g < n
  · rw [if_pos hg]
    by_cases hlen : g < groups.length
    · rw [List.getElem?_append_left (by simp [hg, hlen]), List.getElem?_map,
        List.getElem?_take_of_lt hg, List.getElem?_eq_getElem hlen]
      rfl
    · have hnone : groups[g]? = none := List.getElem?_eq_none (Nat.le_of_not_lt hlen)
      rw [List.getElem?_append_right (by simp; omega), List.getElem?_replicate, hnone,
        if_pos (by simp; omega)]
      rfl
  · rw [if_neg hg, List.getElem?_eq_none (by simp; omega)]

end Resets

namespace Lays

variable {w : Widths} {order : ByteOrder} {bytes : Buffer} {groups : List Group}

private theorem slot_div (g : Nat) {j : Nat} (hj : j < 8) : (8 * g + j) / 8 = g := by omega
private theorem slot_mod (g : Nat) {j : Nat} (hj : j < 8) : (8 * g + j) % 8 = j := by omega

private theorem getElem?_empty {j : Nat} (hj : j < 8) :
    (Vector.replicate 8 EMPTY_H7)[j]? = some EMPTY_H7 := by
  rw [Vector.getElem?_eq_getElem hj, Vector.getElem_replicate]

theorem clear (h : Lays w order bytes groups) {n : Nat} (hn : n ≤ groups.length) {bytes' : Buffer}
    (hreset : TagsReset w n bytes bytes') :
    Lays w order bytes' ((groups.take n).map Group.clear ++ groups.drop n) where
  length := by
    rw [hreset.length, h.length]
    congr 1
    simp
    omega
  tag g j hj := by
    rw [hreset.read g j (tag_offset_lt w hj), h.tag g j hj, slotTag, slotTag, getElem?_cleared,
      slot_div g hj, slot_mod g hj]
    by_cases hg : g < n
    · rw [if_pos ⟨hg, hj⟩, List.getElem?_eq_getElem (Nat.lt_of_lt_of_le hg hn), Option.map_some,
        Option.bind_some, if_pos hg, Group.clear, getElem?_empty hj]
    · rw [if_neg fun hc => hg hc.1]
      simp only [if_neg hg, Option.map_id']
  index g j hj := by
    rw [hreset.readNum order g hj, h.index g j hj, slotInd, slotInd, getElem?_cleared, slot_div g hj]
    cases groups[g]? with
    | none => rfl
    | some group =>
      rw [Option.map_some, Option.bind_some, Option.bind_some]
      split
      · rfl
      · rfl

theorem regrow (h : Lays w order bytes groups) (hw : w.Bytewise) {n : Nat} {bytes' : Buffer}
    (hreset : TagsReset w n (bytes.realloc (n * w.groupBytes)) bytes') :
    Lays w order bytes'
      ((groups.take n).map Group.clear ++ List.replicate (n - groups.length) Group.fresh) where
  length := by
    rw [hreset.length, Buffer.length_realloc]
    congr 1
    simp
    omega
  tag g j hj := by
    rw [hreset.read g j (tag_offset_lt w hj), slotTag, getElem?_regrown, slot_div g hj,
      slot_mod g hj]
    by_cases hg : g < n
    · rw [if_pos ⟨hg, hj⟩, if_pos hg, Option.bind_some]
      cases groups[g]? with
      | none => exact (getElem?_empty hj).symm
      | some group => exact (getElem?_empty hj).symm
    · have hout : (bytes.realloc (n * w.groupBytes)).length ≤ groupBase w g + j := by
        have : n * w.groupBytes ≤ g * w.groupBytes := Nat.mul_le_mul_right _ (Nat.le_of_not_lt hg)
        rw [Buffer.length_realloc, groupBase]
        omega
      rw [if_neg fun hc => hg hc.1, if_neg hg, Buffer.read_eq_none hout]
      rfl
  index g j hj := by
    rw [hreset.readNum order g hj, slotInd, getElem?_regrown, slot_div g hj, slot_mod g hj]
    by_cases hg : g < n
    · -- the bytes of a group that was there before are copied; the others have no value
      have hcopy : (bytes.realloc (n * w.groupBytes)).readNum order (indexAt w (groupBase w g) j)
          w.indBytes = bytes.readNum order (indexAt w (groupBase w g) j) w.indBytes := by
        apply Buffer.readNum_congr
        intro i hi
        apply Buffer.read_realloc
        rw [indexAt_eq]
        exact record_lt hg (index_offset_lt w hj hi)
      rw [hcopy, h.index g j hj, if_pos hg, Option.bind_some, slotInd, slot_div g hj, slot_mod g hj]
      cases groups[g]? with
      | none =>
        show none = (Vector.replicate 8 none)[j]?.join
        rw [Vector.getElem?_eq_getElem hj, Vector.getElem_replicate]
        rfl
      | some group => rfl
    · have hout : (bytes.realloc (n * w.groupBytes)).length ≤ indexAt w (groupBase w g) j := by
        have : n * w.groupBytes ≤ g * w.groupBytes := Nat.mul_le_mul_right _ (Nat.le_of_not_lt hg)
        rw [Buffer.length_realloc, indexAt, groupBase]
        omega
      rw [Buffer.readNum_eq_none hw.pos (Buffer.read_eq_none hout), if_neg hg]
      rfl

theorem nil (w : Widths) (hw : w.Bytewise) (order : ByteOrder) : Lays w order [] [] where
  length := by simp
  tag g j hj := by
    rw [Buffer.read_eq_none (Nat.zero_le _)]
    rfl
  index g j hj := by
    rw [Buffer.readNum_eq_none hw.pos (Buffer.read_eq_none (Nat.zero_le _))]
    rfl

end Lays

/-! ## Probing -/

section Probing

variable {w : Widths} {gops : GroupOps} {order : ByteOrder} {eq : El → El → Bool}
  {b : Hbin El Buffer} {b' : Hbin El (List Group)}

theorem byteProbeSlot_eq (hb : BinRel (Lays w order) b b') {g bit : Nat} {group : Group}
    (hgroup : b'.groups[g]? = some group) (hbit : bit < 8) (el : El) :
    byteProbeSlot w order eq b (groupBase w g) el bit = probeSlot eq b' group el bit := by
  have hat : b'.elAt = b.elAt := funext hb.elAt
  rw [byteProbeSlot, probeSlot, hb.groups.index g bit hbit, slotInd_of_group hgroup hbit, hat]

theorem byteProbeGroup_eq (hops : gops.InGroup) (hb : BinRel (Lays w order) b b') (h7 : BitVec 8)
    (el : El) (g : Nat) :
    byteProbeGroup w gops order eq b h7 el g = probeGroup gops eq b' h7 el g := by
  unfold byteProbeGroup probeGroup
  rw [hb.groups.readBytes]
  cases hgroup : b'.groups[g]? with
  | none => rfl
  | some group =>
    have hscan : ∀ mask, (∀ j ∈ gops.flagged mask, j < 8) →
        whileMask (fun _ i => byteProbeSlot w order eq b (groupBase w g) el (gops.bit i)) 64 () mask =
          whileMask (fun _ i => probeSlot eq b' group el (gops.bit i)) 64 () mask := by
      intro mask hmask
      rw [whileMask_eq, whileMask_eq]
      apply scan_congr
      intro i hi _
      exact byteProbeSlot_eq hb hgroup (hmask _ (List.mem_map_of_mem hi)) el
    rw [hb.groupsMask]
    exact congrArg (Option.map _) (hscan _ (hops.matchMask _ _))

theorem byteProbe_eq (hops : gops.InGroup) (hb : BinRel (Lays w order) b b') (fuel : Nat)
    (hash : BitVec 64) (el : El) :
    byteProbe w gops order eq fuel b hash el = probe w gops eq fuel b' hash el := by
  rw [byteProbe, probe, hb.groupsMask]
  congr 1
  funext g
  exact byteProbeGroup_eq hops hb (h7Val hash) el g

def Probe.Within (n : Nat) : Probe → Prop
  | .hit g bit _ => g < n ∧ bit < 8
  | .vacant g bit => g < n ∧ bit < 8

theorem probeGroup_within (hops : gops.InGroup) {h7 : BitVec 8} {el : El} {g : Nat} {r : Probe}
    (h : probeGroup gops eq b' h7 el g = some (.leave r)) : r.Within b'.groups.length := by
  obtain ⟨group, hgroup, h⟩ := Option.bind_eq_some_iff.mp h
  have hg : g < b'.groups.length := (List.getElem?_eq_some_iff.mp hgroup).1
  obtain ⟨step, hwhile, h⟩ := Option.map_eq_some_iff.mp h
  cases step with
  | leave place =>
    obtain ⟨bit, elInd⟩ := place
    rw [whileMask_eq] at hwhile
    obtain ⟨i, hi, -, hslot⟩ := exists_of_scan_leave hwhile
    obtain ⟨elInd', -, hslot⟩ := Option.bind_eq_some_iff.mp hslot
    obtain ⟨x, -, hslot⟩ := Option.map_eq_some_iff.mp hslot
    have hbit : gops.bit i = bit := by
      split at hslot
      · simp only [Step.leave.injEq, Prod.mk.injEq] at hslot
        exact hslot.1
      · cases hslot
    cases h
    exact ⟨hg, hbit ▸ hops.matchMask _ _ _ (List.mem_map_of_mem hi)⟩
  | again s =>
    simp only at h
    split at h
    · rename_i bit hfirst
      cases h
      rw [GroupOps.firstFlagged_eq_head?] at hfirst
      exact ⟨hg, hops.matchEmpty _ _ (List.mem_of_head? hfirst)⟩
    · cases h

theorem probe_within (hops : gops.InGroup) {fuel : Nat} {hash : BitVec 64} {el : El} {r : Probe}
    (h : probe w gops eq fuel b' hash el = some r) : r.Within b'.groups.length :=
  forever_invariant (fun _ => True) _ (fun _ _ _ _ => trivial)
    (fun _ _ _ hleave => probeGroup_within hops hleave) trivial h

/-- Storage that is laid out as the groups are is left so, with the same outcome. -/
theorem byteDo1_rel (hw : w.Bytewise) (hops : gops.InGroup) (hb : BinRel (Lays w order) b b')
    (fuel elsNum : Nat) (hash : BitVec 64) (el : El) (action : Action) :
    Option.Rel (OutcomeRel (Lays w order)) (byteDo1 w gops order eq fuel elsNum b hash el action)
      (groupDo1 w gops eq fuel elsNum b' hash el action) := by
  unfold byteDo1 groupDo1
  rw [byteProbe_eq hops hb]
  cases hprobe : probe w gops eq fuel b' hash el with
  | none => exact Option.Rel.none
  | some r =>
    have hwithin := probe_within hops hprobe
    have hsame := hb.same
    rw [Option.bind_some, Option.bind_some]
    cases r with
    | hit g bit elInd =>
      obtain ⟨hg, hbit⟩ := hwithin
      simp only
      split
      · obtain ⟨bytes, hbytes⟩ := Buffer.write?_of_lt (hb.groups.tag_addr_lt hg hbit) DELETED_H7
        rw [hb.deleted, hbytes]
        cases b.deleted.mark? elInd with
        | none => exact Option.Rel.none
        | some deleted =>
          refine Option.Rel.some ⟨rfl, rfl, rfl, ?_, hb.groups.setTag hg hbit hbytes⟩
          rw [hsame]
          rfl
      · exact Option.Rel.some ⟨rfl, rfl, rfl, hb⟩
    | vacant g bit =>
      obtain ⟨hg, hbit⟩ := hwithin
      simp only
      split
      · obtain ⟨bytes, hbytes⟩ := Buffer.write?_of_lt (hb.groups.tag_addr_lt hg hbit) (h7Val hash)
        have htag := hb.groups.setTag hg hbit hbytes
        have hg' : g < (setTag b'.groups g bit (h7Val hash)).length := by rwa [length_setTag]
        have hle := htag.index_addr_le hw hg' hbit
        rw [← order.length_encode w.indBytes b.elsBound] at hle
        obtain ⟨bytes', hbytes'⟩ := Buffer.writeBytes?_of_le hle
        have hindex := htag.setIndex hw hg' hbit hbytes'
        rw [hbytes, Option.bind_some, Buffer.writeNum?, hbytes', hb.elsBound]
        refine Option.Rel.some ⟨rfl, rfl, rfl, ?_, hindex⟩
        rw [hsame]
        rfl
      · exact Option.Rel.some ⟨rfl, rfl, rfl, hb⟩

end Probing

theorem byteOps_related {w : Widths} (hw : w.Bytewise) {gops : GroupOps} (hops : gops.InGroup)
    (order : ByteOrder) (eq : El → El → Bool) :
    (byteOps w gops order eq).Related (Lays w order) (groupOps w gops eq) where
  alloc n := by
    obtain ⟨bytes, hempty, hreset⟩ := emptyTags_realloc w n []
    have h := (Lays.nil w hw order).regrow hw hreset
    rw [List.take_nil, List.map_nil, List.nil_append, List.length_nil, Nat.sub_zero] at h
    show Lays w order ((emptyTags w n _).getD []) _
    rwa [hempty, Option.getD_some]
  clear n bytes groups h := by
    show Option.Rel _ (emptyTags w n bytes) (if n ≤ groups.length then _ else none)
    split
    · next hn =>
        have hroom : n * w.groupBytes ≤ bytes.length := h.length ▸ Nat.mul_le_mul_right _ hn
        obtain ⟨bytes', hempty, hreset⟩ := emptyTags_of_le hroom
        rw [hempty]
        exact Option.Rel.some (h.clear hn hreset)
    · next hn =>
        rw [emptyTags_eq_none h.length (Nat.lt_of_not_le hn)]
        exact Option.Rel.none
  regrow n bytes _ h := by
    obtain ⟨bytes', hempty, hreset⟩ := emptyTags_realloc w n bytes
    show Lays w order ((emptyTags w n _).getD []) _
    rw [hempty, Option.getD_some]
    exact h.regrow hw hreset
  do1 hb fuel elsNum hash el action := byteDo1_rel hw hops hb fuel elsNum hash el action

/-! ## Tables on bytes -/

def hostOps (order : ByteOrder) : Target → GroupOps
  | .sse2 => Target.sse2.ops
  | .neon => Target.neon.ops
  | .swar => swarOps order

theorem hostOps_inGroup (order : ByteOrder) (target : Target) : (hostOps order target).InGroup := by
  cases target with
  | sse2 => exact Target.sse2.inGroup
  | neon => exact Target.neon.inGroup
  | swar => exact swarOps_inGroup order

/-- `ihtab.h` on an allocation of bytes does what it does on groups, call by call, for every
    `Hash` and `Eq` and every history: the replies are the same, the two are stuck at the same
    points, and after every call the bytes hold the groups. -/
theorem iht_bytes_refine (key : Key El) (target : Target) (order : ByteOrder) (fuel minSize : Nat)
    (calls : List (Call El)) :
    Option.Rel (fun s s' => s.1 = s'.1 ∧ IhtRel (Lays ihtWidths order) s.2 s'.2)
      (ihtSession (byteOps ihtWidths (hostOps order target) order key.eq) key fuel minSize calls)
      (ihtSession (groupOps ihtWidths (hostOps order target) key.eq) key fuel minSize calls) :=
  ihtSession_rel (byteOps_related ihtWidths_bytewise (hostOps_inGroup order target) order key.eq)
    fuel minSize calls

/-- The same for `ixhtab.h`, with its in-place rebuilds and its splits. -/
theorem ixht_bytes_refine (key : Key El) (target : Target) (order : ByteOrder)
    (maxPower fuel minSize : Nat) (calls : List (Call El)) :
    Option.Rel (fun s s' => s.1 = s'.1 ∧ IxRel (Lays ixhtWidths order) s.2 s'.2)
      (ixhtSession maxPower (byteOps ixhtWidths (hostOps order target) order key.eq) key fuel minSize
        calls)
      (ixhtSession maxPower (groupOps ixhtWidths (hostOps order target) key.eq) key fuel minSize
        calls) :=
  ixhtSession_rel (byteOps_related ixhtWidths_bytewise (hostOps_inGroup order target) order key.eq)
    maxPower fuel minSize calls

end IndexedHash
