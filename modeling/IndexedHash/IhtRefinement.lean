import Mathlib.Tactic.Common
import Mathlib.Tactic.Ring
import IndexedHash.Scanning

/-!
# `ihtab.h` refines a list

The invariant of the table between two calls (`IhtOk`), on the ideal index, and the
simulation of the ideal table by a real one (`IhtSim`).  A call on the ideal table
is a step of the reference list (`ihtStep_ideal`), and a call on the real table
follows it (`ihtStep_sim`); `ihtRun_spec` puts the two together over any session.

`iht_refines` and `iht_v0_lock_step` read that result for the two headers: both
follow the same ideal table, so they refine the same list and agree with one
another on everything but the index.
-/

namespace IndexedHash

open Loop KeyedList

variable {El G : Type} {key : Key El}

abbrev IdealIht (El : Type) := Iht El (List Entry)

abbrev idealIhtOps (key : Key El) : BinOps El (List Entry) := idealOps ihtWidths key.eq

/-! ## The ideal table -/

structure IhtOk (key : Key El) (a : IdealIht El) : Prop where
  dense : DenseOk ihtWidths key a.bin
  count : a.elsNum = a.bin.live.length
  size : ∃ k ≤ 60, a.bin.numGroups = 2 ^ k
  room : a.bin.elsBound < a.bin.elsSize

theorem two_pow_le_60 {k : Nat} (hk : k ≤ 60) : 2 ^ k ≤ 2 ^ 60 :=
  Nat.pow_le_pow_right (by decide) hk

section Alloc

variable {k : Nat}

theorem ihtAllocBin_numGroups (ops : BinOps El G) (k : Nat) :
    (ihtAllocBin ops (8 * 2 ^ k)).numGroups = 2 ^ k := by
  have hpos : 0 < 2 ^ k := Nat.two_pow_pos k
  simp only [ihtAllocBin, Hbin.numGroups, GROUP_SIZE]
  omega

theorem ihtAllocBin_elsSize (ops : BinOps El G) (k : Nat) :
    (ihtAllocBin ops (8 * 2 ^ k)).elsSize = 4 * 2 ^ k := by
  rw [Hbin.elsSize, ihtAllocBin_numGroups]

theorem ihtAllocBin_els_length (ops : BinOps El G) (k : Nat) :
    (ihtAllocBin ops (8 * 2 ^ k)).els.length = 4 * 2 ^ k := by
  simp only [ihtAllocBin, List.length_replicate, LF_FACTOR, LF_DIVISOR]
  omega

/-- An allocated bin, refilled. -/
theorem ihtAllocBin_refill (hkey : key.Lawful) {k : Nat} (hk : k ≤ 60) {xs : List El}
    (hxs : Apart key.eq xs) (hlen : xs.length ≤ 4 * 2 ^ k) :
    DenseOk ihtWidths key ((ihtAllocBin (idealIhtOps key) (8 * 2 ^ k)).refill key.hash xs) ∧
      ((ihtAllocBin (idealIhtOps key) (8 * 2 ^ k)).refill key.hash xs).live = xs := by
  have hels := ihtAllocBin_els_length (idealIhtOps key) k
  have hsize := ihtAllocBin_elsSize (idealIhtOps key) k
  refine DenseOk.refill hkey ⟨k, ?_, ihtAllocBin_numGroups _ k⟩ (by rw [hels, hsize]) ?_ ?_ hxs
    (by rw [hsize]; exact hlen)
  · show k ≤ 64
    omega
  · rw [hsize]
    simp only [ihtAllocBin, Bitmap.length_zeros, LF_FACTOR, LF_DIVISOR]
    omega
  · intro i
    exact Bitmap.test_zeros _ i

end Alloc

/-- Where `iht_create` returns, it allocates the first power of two of groups that has
    places for `min_size` elements. -/
theorem ihtCreate_least {minSize fuel size : Nat}
    (h : forever (ihtCreateBody minSize) fuel GROUP_SIZE = some size) :
    ∃ k ≤ 60, size = 8 * 2 ^ k ∧ minSize ≤ 4 * 2 ^ k ∧ (k = 0 ∨ 2 * 2 ^ k < minSize) := by
  obtain ⟨a, ha, hlt, rfl, hbig, hbelow⟩ := forever_double (w := 64) (a := 3)
    (fun s => s * LF_FACTOR / LF_DIVISOR < minSize) (fun _ => rfl)
    (fun h => by simp only [LF_FACTOR, LF_DIVISOR] at h ⊢; omega) (by decide) h
  obtain ⟨k, rfl⟩ := Nat.exists_eq_add_of_le ha
  simp only [LF_FACTOR, LF_DIVISOR, Nat.pow_add] at hbig
  refine ⟨k, by omega, by rw [Nat.pow_add], by omega, ?_⟩
  cases k with
  | zero => exact Or.inl rfl
  | succ k =>
    have hprev := hbelow (3 + k) (Nat.le_add_right 3 k) (by omega)
    simp only [LF_FACTOR, LF_DIVISOR, Nat.pow_add] at hprev
    rw [Nat.pow_succ]
    exact Or.inr (by omega)

theorem ihtCreate_size {minSize fuel size : Nat}
    (h : forever (ihtCreateBody minSize) fuel GROUP_SIZE = some size) :
    ∃ k ≤ 60, size = 8 * 2 ^ k := by
  obtain ⟨k, hk, hsize, -⟩ := ihtCreate_least h
  exact ⟨k, hk, hsize⟩

theorem ihtCreate_ideal (hkey : key.Lawful) {fuel minSize : Nat} {a : IdealIht El}
    (h : ihtCreate (idealIhtOps key) fuel minSize = some a) : IhtOk key a ∧ a.bin.live = [] := by
  obtain ⟨size, hsize, rfl⟩ := Option.map_eq_some_iff.mp h
  obtain ⟨k, hk, rfl⟩ := ihtCreate_size hsize
  have hpos : 0 < 2 ^ k := Nat.two_pow_pos k
  obtain ⟨hdense, hlive⟩ := ihtAllocBin_refill hkey hk (List.Pairwise.nil : Apart key.eq [])
    (Nat.zero_le _)
  refine ⟨⟨hdense, ?_, ⟨k, hk, ihtAllocBin_numGroups _ k⟩, ?_⟩, hlive⟩
  · exact (congrArg List.length hlive).symm
  · show 0 < (ihtAllocBin (idealIhtOps key) (8 * 2 ^ k)).elsSize
    rw [ihtAllocBin_elsSize]
    omega

/-! ## Rebuilding -/

section Rebuild

variable {a : IdealIht El}

theorem IhtOk.indexesSize (h : IhtOk key a) :
    a.bin.indexesSize ihtWidths = 8 * a.bin.numGroups := by
  obtain ⟨k, hk, hn⟩ := h.size
  have := two_pow_le_60 hk
  apply Hbin.indexesSize_eq
  show 8 * a.bin.numGroups < 2 ^ 64
  omega

/-- The rebuilt bin has room for the live elements and two more. -/
theorem ihtRebuildSize_eq (h : IhtOk key a) (hb : a.bin.elsBound ≤ 2 ^ 32) :
    ∃ k ≤ 60, ihtRebuildSize a = 8 * 2 ^ k ∧ a.elsNum + 1 < 4 * 2 ^ k ∧
      a.bin.numGroups ≤ 2 ^ k ∧ 2 ^ k ≤ 2 * a.bin.numGroups := by
  obtain ⟨k, hk, hn⟩ := h.size
  have hk60 := two_pow_le_60 hk
  have hpos : 0 < 2 ^ k := Nat.two_pow_pos k
  have hcount : a.elsNum ≤ a.bin.elsBound := by
    rw [h.count]
    exact a.bin.length_live_le
  have hroom := h.room
  rw [Hbin.elsSize, hn] at hroom
  have hmod : 2 * LF_DIVISOR * a.elsNum % 2 ^ 64 = 4 * a.elsNum :=
    Nat.mod_eq_of_lt (by simp only [LF_DIVISOR]; omega)
  unfold ihtRebuildSize
  simp only [h.indexesSize, hmod, LF_FACTOR, hn]
  split
  · next hge =>
      have hk31 : 2 ^ k ≤ 2 ^ 31 := by omega
      have hk31 : k ≤ 31 := (Nat.pow_le_pow_iff_right (by decide)).mp hk31
      have hsucc : 2 ^ (k + 1) = 2 ^ k * 2 := Nat.pow_succ 2 k
      exact ⟨k + 1, by omega, by omega, by omega, by omega, by omega⟩
  · next hlt => exact ⟨k, hk, rfl, by omega, Nat.le_refl _, by omega⟩

/-- One pass of the rebuild loop reinserts the next live element. -/
theorem ihtReinsert_ideal {b fresh : IdealBin El} (hb : Readable key b)
    (hfresh : b.elsBound ≤ fresh.els.length) {i : Nat} (hi : i < b.elsBound) (n fuel : Nat) :
    ∃ n', ihtReinsert (idealIhtOps key) key fuel b (n, fresh.refill key.hash (b.liveUpTo i)) i =
      some (n', fresh.refill key.hash (b.liveUpTo (i + 1))) := by
  unfold ihtReinsert
  rcases hb.next hi with ⟨hdel, hlive⟩ | ⟨hdel, x, hx, hlive, hnew⟩
  · exact ⟨n, by simp only [hdel, Option.bind_some, if_true, hlive]⟩
  · have hlen := b.length_liveUpTo_le i
    refine ⟨ihtWidths.incr n, ?_⟩
    simp only [hdel, Option.bind_some, hx, hlive]
    exact reinsert_refill (by omega) hnew fuel n

/-- The ideal rebuild leaves the live elements, from position `0` on. -/
theorem ihtRebuild_ideal (h : IhtOk key a) (hb : a.bin.elsBound ≤ 2 ^ 32) (fuel : Nat) :
    ihtRebuild (idealIhtOps key) key fuel a =
      some ⟨a.elsNum, (ihtAllocBin (idealIhtOps key) (ihtRebuildSize a)).refill key.hash
        a.bin.live⟩ := by
  obtain ⟨k, hk, hsize, hroom, hle, -⟩ := ihtRebuildSize_eq h hb
  have hfresh : a.bin.elsBound ≤
      (ihtAllocBin (idealIhtOps key) (ihtRebuildSize a)).els.length := by
    have := h.room
    rw [Hbin.elsSize] at this
    rw [hsize, ihtAllocBin_els_length]
    omega
  obtain ⟨⟨n, b⟩, hloop, rfl⟩ := foldlM_range_spec
    (f := ihtReinsert (idealIhtOps key) key fuel a.bin)
    (fun i s => s.2 = (ihtAllocBin (idealIhtOps key) (ihtRebuildSize a)).refill key.hash
      (a.bin.liveUpTo i)) a.bin.elsBound
    (s := (a.elsNum, ihtAllocBin (idealIhtOps key) (ihtRebuildSize a))) rfl (by
      rintro i hi ⟨n, b⟩ rfl
      obtain ⟨n', hn'⟩ := ihtReinsert_ideal h.dense.readable hfresh hi n fuel
      exact ⟨_, hn', rfl⟩)
  simp only [ihtRebuild, hloop, Option.map_some, Hbin.live_eq_liveUpTo]

/-- After a rebuild the table is in order, and an insertion does not fill it. -/
theorem IhtOk.rebuilt (hkey : key.Lawful) (h : IhtOk key a) (hb : a.bin.elsBound ≤ 2 ^ 32) :
    ∃ a', (∀ fuel, ihtRebuild (idealIhtOps key) key fuel a = some a') ∧ IhtOk key a' ∧
      a'.bin.live = a.bin.live ∧ a'.bin.elsBound + 1 < a'.bin.elsSize ∧
      a'.bin.elsBound ≤ a.bin.elsBound ∧ a'.bin.numGroups ≤ 2 * a.bin.numGroups := by
  obtain ⟨k, hk, hsize, hroom, -, hgrow⟩ := ihtRebuildSize_eq h hb
  have hlen : a.bin.live.length + 1 < 4 * 2 ^ k := by
    rw [← h.count]
    exact hroom
  obtain ⟨hdense, hlive⟩ := ihtAllocBin_refill hkey hk h.dense.apart (by omega)
  have hrebuild : ∀ fuel, ihtRebuild (idealIhtOps key) key fuel a = some ⟨a.elsNum,
      (ihtAllocBin (idealIhtOps key) (8 * 2 ^ k)).refill key.hash a.bin.live⟩ := by
    intro fuel
    rw [ihtRebuild_ideal h hb fuel, hsize]
  have hn := ihtAllocBin_numGroups (idealIhtOps key) k
  have hbound := a.bin.length_live_le
  have hcap : ((ihtAllocBin (idealIhtOps key) (8 * 2 ^ k)).refill key.hash
      a.bin.live).elsSize = 4 * 2 ^ k := ihtAllocBin_elsSize (idealIhtOps key) k
  refine ⟨_, hrebuild, ⟨hdense, by rw [hlive]; exact h.count, ⟨k, hk, hn⟩, ?_⟩, hlive, ?_, hbound,
    by rw [refill_numGroups, hn]; exact hgrow⟩
  · rw [hcap, refill_elsBound]
    omega
  · rw [hcap, refill_elsBound]
    exact hlen

theorem ihtFull_eq {t : Iht El G} (hsmall : 8 * t.bin.numGroups < 2 ^ 64) :
    ihtFull t = decide (t.bin.elsSize ≤ t.bin.elsBound + 1) := by
  have hpos : 0 < t.bin.numGroups := Nat.succ_pos _
  have hhalf : 8 * t.bin.numGroups * LF_FACTOR / LF_DIVISOR = t.bin.elsSize := by
    simp only [LF_FACTOR, LF_DIVISOR, Hbin.elsSize]
    omega
  have hdecr : ihtWidths.decr t.bin.elsSize = t.bin.elsSize - 1 :=
    Widths.decr_eq (by rw [Hbin.elsSize]; omega) (by show t.bin.elsSize < 2 ^ 64; rw [Hbin.elsSize]; omega)
  unfold ihtFull
  rw [Hbin.indexesSize_eq (show 8 * t.bin.numGroups < 2 ^ ihtWidths.size from hsmall), hhalf, hdecr]
  apply decide_eq_decide.mpr
  omega

theorem IhtOk.full_iff (h : IhtOk key a) :
    ihtFull a = decide (a.bin.elsSize ≤ a.bin.elsBound + 1) := by
  obtain ⟨k, hk, hn⟩ := h.size
  have hk60 := two_pow_le_60 hk
  exact ihtFull_eq (by omega)

/-- What `iht_perform` leaves for `iht_do_1`. -/
theorem IhtOk.prepared (hkey : key.Lawful) (h : IhtOk key a) (hb : a.bin.elsBound ≤ 2 ^ 32)
    (action : Action) :
    ∃ p, (∀ fuel, (if action = .insert ∧ ihtFull a then ihtRebuild (idealIhtOps key) key fuel a
        else some a) = some p) ∧ IhtOk key p ∧ p.bin.live = a.bin.live ∧
      p.bin.elsBound ≤ a.bin.elsBound ∧ p.bin.numGroups ≤ 2 * a.bin.numGroups ∧
      (action = .insert → p.bin.elsBound + 1 < p.bin.elsSize) := by
  by_cases hfull : action = .insert ∧ ihtFull a
  · obtain ⟨p, hp, hok, hlive, hroom, hle, hgroups⟩ := h.rebuilt hkey hb
    exact ⟨p, fun fuel => by rw [if_pos hfull, hp fuel], hok, hlive, hle, hgroups, fun _ => hroom⟩
  · refine ⟨a, fun fuel => if_neg hfull, h, rfl, Nat.le_refl _, by omega, fun haction => ?_⟩
    rw [h.full_iff] at hfull
    simp only [haction, decide_eq_true_eq, true_and] at hfull
    omega

end Rebuild

/-- A call on the ideal table is a step of the reference list. -/
theorem ihtStep_ideal (hkey : key.Lawful) {a : IdealIht El} (h : IhtOk key a)
    (hb : a.bin.elsBound ≤ 2 ^ 32) {c : Call El} (hc : c.Ok key) :
    ∃ r a', (∀ fuel, ihtStep (idealIhtOps key) key fuel a c = some (r, a')) ∧ IhtOk key a' ∧
      a'.bin.live = (refStep key.eq a.bin.live c).2 ∧
      r.seen = (refStep key.eq a.bin.live c).1 ∧ a'.bin.elsBound ≤ a.bin.elsBound + 1 := by
  obtain ⟨p, hp, hok, hlive, hle, -, hroom⟩ := h.prepared hkey hb c.action
  obtain ⟨k, hk, hn⟩ := hok.size
  have hcount : p.elsNum ≤ p.bin.elsBound := by
    rw [hok.count]
    exact p.bin.length_live_le
  obtain ⟨r, b', hdo, hstep⟩ := hok.dense.step hkey hc (n := p.elsNum)
    (fun haction _ => by have := hroom haction; omega) (Nat.le_of_eq hok.count.symm)
    (by show p.elsNum + 1 < 2 ^ 64; omega)
  refine ⟨⟨r.found, r.res, r.value⟩, ⟨r.elsNum, b'⟩, fun fuel => ?_, ?_, ?_, ?_, ?_⟩
  · have hdo' : (idealIhtOps key).do1 fuel p.elsNum p.bin (key.hash c.el) c.el c.action = some r :=
      hdo
    simp only [ihtStep, ihtPerform, hp fuel, Option.bind_some, hdo', hstep.written,
      Option.map_some]
  · have hsize : b'.elsSize = p.bin.elsSize := by
      simp only [Hbin.elsSize, Hbin.numGroups, hstep.mask]
    refine ⟨hstep.ok, ?_, ⟨k, hk, by rw [← hn, Hbin.numGroups, hstep.mask]; rfl⟩, ?_⟩
    · have := hstep.count
      have := hok.count
      show r.elsNum = b'.live.length
      omega
    · show b'.elsBound < b'.elsSize
      rw [hsize]
      have := hok.room
      rcases hstep.bound with hbound | ⟨⟨haction, -⟩, hbound⟩
      · omega
      · have := hroom haction
        omega
  · rw [← hlive]
    exact hstep.live
  · rw [← hlive]
    exact hstep.seen
  · rcases hstep.bound with hbound | ⟨-, hbound⟩
    · exact Nat.le_succ_of_le (hbound ▸ hle)
    · show b'.elsBound ≤ _
      omega

/-! ## A real table follows the ideal one -/

structure IhtSim (limit : Nat) (Slots : G → Nat → Nat → List Entry → Prop) (t : Iht El G)
    (a : IdealIht El) : Prop where
  elsNum : t.elsNum = a.elsNum
  bin : BinSimUpTo limit Slots t.bin a.bin

section Simulation

variable {limit : Nat} {ops : BinOps El G} {Slots : G → Nat → Nat → List Entry → Prop}
  {t : Iht El G} {a : IdealIht El}

theorem ihtAllocBin_sim (hlaw : ops.Lawful ihtWidths key limit Slots) (k : Nat) :
    BinSim Slots (ihtAllocBin ops (8 * 2 ^ k)) (ihtAllocBin (idealIhtOps key) (8 * 2 ^ k)) := by
  refine ⟨rfl, ?_⟩
  rw [ihtAllocBin_numGroups]
  have hgroups : 8 * 2 ^ k / GROUP_SIZE = 2 ^ k := by
    simp only [GROUP_SIZE]
    omega
  simp only [ihtAllocBin, hgroups]
  exact hlaw.alloc (2 ^ k)

theorem ihtCreate_sim (hlaw : ops.Lawful ihtWidths key limit Slots) (fuel minSize : Nat) :
    Option.Rel (IhtSim limit Slots) (ihtCreate ops fuel minSize)
      (ihtCreate (idealIhtOps key) fuel minSize) := by
  unfold ihtCreate
  cases hsize : forever (ihtCreateBody minSize) fuel GROUP_SIZE with
  | none => exact Option.Rel.none
  | some size =>
    obtain ⟨k, -, rfl⟩ := ihtCreate_size hsize
    exact Option.Rel.some ⟨rfl, (ihtAllocBin_sim hlaw k).upTo limit⟩

/-- Whether `iht_create` returns does not depend on the index. -/
theorem ihtCreate_returns_iff (hlaw : ops.Lawful ihtWidths key limit Slots) (minSize : Nat) :
    (∃ t, Returns (fun fuel => ihtCreate ops fuel minSize) t) ↔
      ∃ a, Returns (fun fuel => ihtCreate (idealIhtOps key) fuel minSize) a := by
  constructor
  · rintro ⟨t, ht⟩
    obtain ⟨a, ha, -⟩ := Returns.of_rel_left (ihtCreate_mono (idealIhtOps key) minSize)
      (fun fuel (_ : fuel ≥ 0) => ihtCreate_sim hlaw fuel minSize) ht
    exact ⟨a, ha⟩
  · rintro ⟨a, ha⟩
    obtain ⟨t, ht, -⟩ := Returns.of_rel (ihtCreate_mono ops minSize)
      (fun fuel (_ : fuel ≥ 0) => ihtCreate_sim hlaw fuel minSize) ha
    exact ⟨t, ht⟩

theorem IhtSim.rebuildSize (h : IhtSim limit Slots t a) : ihtRebuildSize t = ihtRebuildSize a := by
  have hmask : a.bin.groupsMask = t.bin.groupsMask := by rw [h.bin.same]; rfl
  simp only [ihtRebuildSize, Hbin.indexesSize, h.elsNum, hmask]

theorem IhtSim.full (h : IhtSim limit Slots t a) : ihtFull t = ihtFull a := by
  have hmask : a.bin.groupsMask = t.bin.groupsMask := by rw [h.bin.same]; rfl
  unfold ihtFull Hbin.indexesSize
  rw [hmask, h.bin.elsBound]

theorem ihtRebuild_sim (hlaw : ops.Lawful ihtWidths key limit Slots) (hkey : key.Lawful)
    (hsim : IhtSim limit Slots t a) (h : IhtOk key a) (hb : a.bin.elsBound ≤ 2 ^ 32)
    (hlimit : a.bin.elsBound ≤ limit) {fuel : Nat} (hfuel : 2 * a.bin.numGroups ≤ fuel) :
    Option.Rel (IhtSim limit Slots) (ihtRebuild ops key fuel t)
      (ihtRebuild (idealIhtOps key) key fuel a) := by
  obtain ⟨k, hk, hsize, hroom, hle, hgrow⟩ := ihtRebuildSize_eq h hb
  have hbin := hsim.bin.sim hlimit
  have hread := h.dense.readable
  have hcap := h.room
  rw [Hbin.elsSize] at hcap
  have hels := ihtAllocBin_els_length (idealIhtOps key) k
  unfold ihtRebuild
  rw [hsim.rebuildSize, hsize, ← hbin.elsBound, hsim.elsNum]
  -- both loops run over the positions of the old bin, the ideal one along known bins
  refine map_rel (foldlM_range_rel (fun i s s' => s.1 = s'.1 ∧ BinSim Slots s.2 s'.2 ∧
      s'.2 = (ihtAllocBin (idealIhtOps key) (8 * 2 ^ k)).refill key.hash (a.bin.liveUpTo i))
    a.bin.elsBound ⟨rfl, ihtAllocBin_sim hlaw k, rfl⟩ ?_) ?_
  · rintro i hi ⟨n, b⟩ ⟨n', b'⟩ ⟨rfl, hs, rfl⟩
    obtain ⟨m, hideal⟩ := ihtReinsert_ideal hread
      (show a.bin.elsBound ≤ (ihtAllocBin (idealIhtOps key) (8 * 2 ^ k)).els.length by omega)
      hi n fuel
    have hlen := a.bin.length_liveUpTo_le i
    have hok : IndexOk ihtWidths key ((ihtAllocBin (idealIhtOps key) (8 * 2 ^ k)).refill key.hash
        (a.bin.liveUpTo i)) := by
      refine IndexOk.refill rfl ⟨k, ?_, ihtAllocBin_numGroups _ k⟩
        (hread.apart.sublist (a.bin.liveUpTo_sublist (Nat.le_of_lt hi))) hkey ?_
      · show k ≤ 64
        omega
      · simp only [ihtAllocBin, Bitmap.length_zeros, LF_FACTOR, LF_DIVISOR]
        omega
    have hbound : b.elsBound = (a.bin.liveUpTo i).length := hs.elsBound.symm
    have hn : b.numGroups = 2 ^ k := by
      rw [← hs.numGroups, refill_numGroups]
      exact ihtAllocBin_numGroups (idealIhtOps key) k
    have hmask : b.groupsMask < fuel := by
      have : b.numGroups = b.groupsMask + 1 := rfl
      omega
    have hslot : b.elsBound < 8 * b.numGroups := by omega
    have hexact : b.elsBound < limit := by omega
    have hrel : Option.Rel (fun p p' => p.1 = p'.1 ∧ BinSim Slots p.2 p'.2)
        (ihtReinsert ops key fuel t.bin (n, b) i)
        (ihtReinsert (idealIhtOps key) key fuel a.bin
          (n, (ihtAllocBin (idealIhtOps key) (8 * 2 ^ k)).refill key.hash (a.bin.liveUpTo i)) i) := by
      unfold ihtReinsert
      rw [← hbin.deleted, ← hbin.elAt]
      rcases hread.next hi with ⟨hdel, -⟩ | ⟨hdel, x, hx, -, -⟩
      · simp only [hdel, Option.bind_some, if_true]
        exact Option.Rel.some ⟨rfl, hs⟩
      · simp only [hdel, Option.bind_some, hx]
        exact hlaw.reinsert hs hok hslot hexact x hmask n
    have hnext : ∀ p', ihtReinsert (idealIhtOps key) key fuel a.bin
        (n, (ihtAllocBin (idealIhtOps key) (8 * 2 ^ k)).refill key.hash (a.bin.liveUpTo i)) i =
          some p' → p'.2 = (ihtAllocBin (idealIhtOps key) (8 * 2 ^ k)).refill key.hash
            (a.bin.liveUpTo (i + 1)) := by
      intro p' hp'
      rw [hideal, Option.some.injEq] at hp'
      rw [← hp']
    exact Rel.imp (Rel.and_right hrel hnext) fun p p' hpp => ⟨hpp.1.1, hpp.1.2, hpp.2⟩
  · rintro s s' ⟨-, hs, -⟩
    exact ⟨rfl, hs.upTo limit⟩

/-- A call on the real table follows the call on the ideal one. -/
theorem ihtStep_sim (hlaw : ops.Lawful ihtWidths key limit Slots) (hkey : key.Lawful)
    (hsim : IhtSim limit Slots t a) (h : IhtOk key a) (hb : a.bin.elsBound ≤ 2 ^ 32)
    (hlimit : a.bin.elsBound ≤ limit) (c : Call El) {fuel : Nat}
    (hfuel : 2 * a.bin.numGroups ≤ fuel) :
    Option.Rel (fun s s' => s.1 = s'.1 ∧ IhtSim limit Slots s.2 s'.2)
      (ihtStep ops key fuel t c) (ihtStep (idealIhtOps key) key fuel a c) := by
  obtain ⟨p, hp, hok, -, hle, hgroups, -⟩ := h.prepared hkey hb c.action
  have hprep : Option.Rel (IhtSim limit Slots)
      (if c.action = .insert ∧ ihtFull t then ihtRebuild ops key fuel t else some t)
      (if c.action = .insert ∧ ihtFull a then ihtRebuild (idealIhtOps key) key fuel a
        else some a) := by
    rw [hsim.full]
    split
    · exact ihtRebuild_sim hlaw hkey hsim h hb hlimit hfuel
    · exact Option.Rel.some hsim
  rw [hp fuel] at hprep
  unfold ihtStep ihtPerform
  rw [hp fuel]
  generalize (if c.action = .insert ∧ ihtFull t then ihtRebuild ops key fuel t else some t) = x
    at hprep ⊢
  cases hprep with
  | @some q _ hq =>
    simp only [Option.bind_some]
    have hqb := hq.bin.sim (Nat.le_trans hle hlimit)
    have hn := hqb.numGroups
    have hmask : q.bin.numGroups = q.bin.groupsMask + 1 := rfl
    have hbound := hqb.elsBound
    have hroom := hok.room
    rw [Hbin.elsSize] at hroom
    have hdo := hlaw.do1 hqb hok.dense.index (by omega) (by omega) c.el c.action fuel (by omega)
      p.elsNum
    rw [hq.elsNum]
    refine bind_rel hdo ?_
    intro r r' hr
    refine map_rel (hr.written c) fun b b' hb' => ⟨?_, hr.elsNum, hb'⟩
    rw [hr.found, hr.res, hr.value]

end Simulation

/-! ## Whole sessions -/

/-- A session on a new table: the caller keeps its part, and the used positions stay
    within `limit`. -/
structure IhtSession (ops : BinOps El G) (key : Key El) (limit minSize : Nat) (t₀ : Iht El G)
    (calls : List (Call El)) : Prop where
  create : Returns (fun fuel => ihtCreate ops fuel minSize) t₀
  calls_ok : ∀ c ∈ calls, c.Ok key
  bound : ∀ pre, pre <+: calls → ∀ rs t,
    Returns (fun fuel => ihtRun ops key fuel t₀ pre) (rs, t) → t.bin.elsBound ≤ limit

section Session

variable {limit : Nat} {ops : BinOps El G} {Slots : G → Nat → Nat → List Entry → Prop}

/-- A real table and the ideal one go through a session together, and the ideal one
    goes through it as the reference does.  The bound on the used positions may be
    taken from either table. -/
theorem ihtRun_spec (hlaw : ops.Lawful ihtWidths key limit Slots) (hkey : key.Lawful)
    (hlimit : limit ≤ 2 ^ 32) {t₀ : Iht El G} {a₀ : IdealIht El}
    (hsim : IhtSim limit Slots t₀ a₀) (hok : IhtOk key a₀) {calls : List (Call El)}
    (hcalls : ∀ c ∈ calls, c.Ok key)
    (hbound : ∀ pre, pre <+: calls → pre.length < calls.length → ∀ rs t a,
      Returns (fun fuel => ihtRun ops key fuel t₀ pre) (rs, t) →
      Returns (fun fuel => ihtRun (idealIhtOps key) key fuel a₀ pre) (rs, a) →
      a.bin.elsBound = t.bin.elsBound → a.bin.elsBound ≤ limit) :
    ∃ rs t a, Returns (fun fuel => ihtRun ops key fuel t₀ calls) (rs, t) ∧
      Returns (fun fuel => ihtRun (idealIhtOps key) key fuel a₀ calls) (rs, a) ∧
      IhtSim limit Slots t a ∧ IhtOk key a ∧
      rs.map Reply.seen = (refRun key.eq a₀.bin.live calls).1 ∧
      a.bin.live = (refRun key.eq a₀.bin.live calls).2 ∧
      a.bin.elsBound ≤ a₀.bin.elsBound + calls.length := by
  induction calls using List.reverseRecOn with
  | nil =>
    exact ⟨[], t₀, a₀, Returns.const _, Returns.const _, hsim, hok, rfl, rfl, Nat.le_refl _⟩
  | append_singleton cs c ih =>
    have hshort : cs.length < (cs ++ [c]).length := by simp
    obtain ⟨rs, t, a, hrun, hrun', hs, ho, hseen, hlive, hgrow⟩ := ih
      (fun d hd => hcalls d (List.mem_append_left _ hd))
      (fun pre hpre hlt => hbound pre (hpre.trans (List.prefix_append cs [c]))
        (Nat.lt_trans hlt hshort))
    have hle := hbound cs (List.prefix_append cs [c]) hshort rs t a hrun hrun' hs.bin.elsBound
    obtain ⟨r, a', hideal, ho', hlive', hseen', hgrow'⟩ := ihtStep_ideal hkey ho
      (Nat.le_trans hle hlimit) (hcalls c (List.mem_append_right _ (List.mem_singleton_self c)))
    obtain ⟨⟨r', t'⟩, hstep, heq, hs'⟩ := Returns.of_rel (ihtStep_mono hlaw.mono t c)
      (fun fuel hfuel => ihtStep_sim hlaw hkey hs ho (Nat.le_trans hle hlimit) hle c hfuel)
      ⟨0, fun fuel _ => hideal fuel⟩
    have heq : r' = r := heq
    subst heq
    refine ⟨rs ++ [r'], t', a', Returns.concat hrun hstep,
      Returns.concat hrun' ⟨0, fun fuel _ => hideal fuel⟩, hs', ho', ?_, ?_, ?_⟩
    · rw [refRun_concat, List.map_append, hseen, ← hlive]
      simp [hseen']
    · rw [refRun_concat, ← hlive]
      exact hlive'
    · rw [List.length_append, List.length_singleton]
      omega

/-- What a session gives, from the creation of the table on. -/
theorem IhtSession.spec (hlaw : ops.Lawful ihtWidths key limit Slots) (hkey : key.Lawful)
    (hlimit : limit ≤ 2 ^ 32) {minSize : Nat} {t₀ : Iht El G} {calls : List (Call El)}
    (h : IhtSession ops key limit minSize t₀ calls) :
    ∃ a₀ rs t a, Returns (fun fuel => ihtCreate (idealIhtOps key) fuel minSize) a₀ ∧
      Returns (fun fuel => ihtRun ops key fuel t₀ calls) (rs, t) ∧
      Returns (fun fuel => ihtRun (idealIhtOps key) key fuel a₀ calls) (rs, a) ∧
      IhtSim limit Slots t a ∧ a.bin.elsBound ≤ limit ∧ IhtOk key a ∧
      rs.map Reply.seen = (refRun key.eq [] calls).1 ∧
      a.bin.live = (refRun key.eq [] calls).2 := by
  obtain ⟨a₀, hcreate, hsim⟩ := Returns.of_rel_left (ihtCreate_mono (idealIhtOps key) minSize)
    (fun fuel (_ : fuel ≥ 0) => ihtCreate_sim hlaw fuel minSize) h.create
  obtain ⟨n, hn⟩ := hcreate.exists_some
  obtain ⟨hok, hempty⟩ := ihtCreate_ideal hkey hn
  obtain ⟨rs, t, a, hrun, hrun', hs, ho, hseen, hlive, -⟩ := ihtRun_spec hlaw hkey hlimit hsim hok
    h.calls_ok fun pre hpre _ rs t a ht _ heq => heq ▸ h.bound pre hpre rs t ht
  rw [hempty] at hseen hlive
  have hle : a.bin.elsBound ≤ limit :=
    hs.bin.elsBound ▸ h.bound calls (List.prefix_refl calls) rs t hrun
  exact ⟨a₀, rs, t, a, hcreate, hrun, hrun', hs, hle, ho, hseen, hlive⟩

theorem IhtSession.mono {minSize : Nat} {t₀ : Iht El G} {calls : List (Call El)}
    (h : IhtSession ops key limit minSize t₀ calls) (limit' : Nat) (hle : limit ≤ limit') :
    IhtSession ops key limit' minSize t₀ calls :=
  ⟨h.create, h.calls_ok, fun pre hpre rs t ht => Nat.le_trans (h.bound pre hpre rs t ht) hle⟩

theorem IhtSession.initial {minSize : Nat} {t₀ : Iht El G} {calls pre : List (Call El)}
    (h : IhtSession ops key limit minSize t₀ calls) (hpre : pre <+: calls) :
    IhtSession ops key limit minSize t₀ pre :=
  ⟨h.create, fun c hc => h.calls_ok c (hpre.subset hc), fun p hp => h.bound p (hp.trans hpre)⟩

/-- A session of `n` calls uses at most `n` positions. -/
theorem IhtSession.of_length (hlaw : ops.Lawful ihtWidths key limit Slots) (hkey : key.Lawful)
    (hlimit : limit ≤ 2 ^ 32) {minSize : Nat} {t₀ : Iht El G} {calls : List (Call El)}
    (hcreate : Returns (fun fuel => ihtCreate ops fuel minSize) t₀)
    (hcalls : ∀ c ∈ calls, c.Ok key) (hlen : calls.length ≤ limit) :
    IhtSession ops key calls.length minSize t₀ calls := by
  obtain ⟨a₀, hcreate', hsim⟩ := Returns.of_rel_left (ihtCreate_mono (idealIhtOps key) minSize)
    (fun fuel (_ : fuel ≥ 0) => ihtCreate_sim hlaw fuel minSize) hcreate
  obtain ⟨n, hn⟩ := hcreate'.exists_some
  obtain ⟨hok, -⟩ := ihtCreate_ideal hkey hn
  have hzero : a₀.bin.elsBound = 0 := by
    obtain ⟨size, -, rfl⟩ := Option.map_eq_some_iff.mp hn
    rfl
  have hprefix : ∀ k pre, pre <+: calls → pre.length ≤ k → ∀ rs t,
      Returns (fun fuel => ihtRun ops key fuel t₀ pre) (rs, t) → t.bin.elsBound ≤ pre.length := by
    intro k
    induction k with
    | zero =>
      intro pre hpre hk rs t ht
      have hnil : pre = [] := List.eq_nil_of_length_eq_zero (Nat.le_zero.mp hk)
      subst hnil
      have heq : (rs, t) = ([], t₀) := ht.unique (Returns.const _)
      obtain ⟨rfl, rfl⟩ := Prod.mk.inj heq
      rw [← hsim.bin.elsBound, hzero]
      exact Nat.le_refl 0
    | succ k ih =>
      intro pre hpre hk rs t ht
      obtain ⟨rs', t', a, hrun, -, hs, -, -, -, hgrow⟩ := ihtRun_spec hlaw hkey hlimit hsim hok
        (fun c hc => hcalls c (hpre.subset hc)) (by
          intro p hp hlt rs t a ht _ heq
          have hle := ih p (hp.trans hpre) (by omega) rs t ht
          have := hpre.length_le
          omega)
      obtain ⟨-, rfl⟩ := Prod.mk.inj (ht.unique hrun)
      have := hs.bin.elsBound
      omega
  refine ⟨hcreate, hcalls, fun pre hpre rs t ht => ?_⟩
  have hle := hprefix pre.length pre hpre (Nat.le_refl _) rs t ht
  have := hpre.length_le
  omega

end Session

/-! ## The iterator -/

/-- The iterator visits the live elements of a bin, in order. -/
theorem ihtElements_returns {t : Iht El G} (h : Readable key t.bin) (hw : t.bin.elsBound < 2 ^ 63) :
    Returns (fun fuel => ihtElements fuel t) t.bin.live := by
  have hw64 : t.bin.elsBound < 2 ^ ihtWidths.size := by
    show t.bin.elsBound < 2 ^ 64
    omega
  rw [← t.bin.liveFrom_zero, ← t.bin.positionsFrom_elements]
  exact ihtElements_positions (h.scannable hw64)

theorem IhtSim.elements {limit : Nat} {Slots : G → Nat → Nat → List Entry → Prop} {t : Iht El G}
    {a : IdealIht El} (hsim : IhtSim limit Slots t a) (hok : IhtOk key a)
    (hb : a.bin.elsBound < 2 ^ 63) : Returns (fun fuel => ihtElements fuel t) a.bin.live := by
  have hlive : a.bin.live = t.bin.live := by rw [hsim.bin.same]; rfl
  rw [hlive]
  exact ihtElements_returns (hsim.bin.readable hok.dense.readable) (hsim.bin.elsBound ▸ hb)

/-! ## The two headers -/

theorem ihtOps_lawful (hkey : key.Lawful) (target : Target) :
    (ihtOps key target).Lawful ihtWidths key (2 ^ 32) SlotsOk :=
  groupOps_lawful (by decide) hkey target.lawful

theorem v0IhtOps_lawful (hkey : key.Lawful) (target : Target) :
    (v0IhtOps key target).Lawful ihtWidths key (2 ^ 32 - 1) (V0SlotsOk (2 ^ 32 - 1)) :=
  v0Ops_lawful (by decide) hkey target.v0Iht_lawful

/-- `ihtab.h` refines a list in the order of latest insertion.  Every call of a
    session returns what the list says, `iht_els_count` is the length of the list,
    and the iterator enumerates the list. -/
theorem iht_refines (hkey : key.Lawful) (target : Target) {minSize : Nat}
    {t₀ : Iht El (List Group)} {calls : List (Call El)}
    (h : IhtSession (ihtOps key target) key (2 ^ 32) minSize t₀ calls) :
    ∃ rs t, Returns (fun fuel => ihtRun (ihtOps key target) key fuel t₀ calls) (rs, t) ∧
      rs.map Reply.seen = (refRun key.eq [] calls).1 ∧
      ihtElsCount t = (refRun key.eq [] calls).2.length ∧
      Returns (fun fuel => ihtElements fuel t) (refRun key.eq [] calls).2 := by
  obtain ⟨a₀, rs, t, a, -, hrun, -, hsim, hle, hok, hseen, hlive⟩ :=
    h.spec (ihtOps_lawful hkey target) hkey (Nat.le_refl _)
  refine ⟨rs, t, hrun, hseen, ?_, ?_⟩
  · rw [ihtElsCount, hsim.elsNum, hok.count, hlive]
  · rw [← hlive]
    exact hsim.elements hok (by omega)

/-- INSERTs of eleven words with a FIND that updates and two DELETEs between them.  A table
    for four is rebuilt before `4` and before `9`. -/
def sampleCalls : List (Call (BitVec 64)) :=
  plainCalls [(.insert, 1), (.insert, 2), (.insert, 3), (.delete, 1)] ++
    [⟨2, .find, 2, some 2⟩] ++
    plainCalls [(.insert, 4), (.insert, 5), (.insert, 6), (.delete, 5), (.insert, 7), (.insert, 8),
      (.insert, 9), (.find, 5), (.insert, 10), (.insert, 11)]

def sampleReplies : List (Bool × Option (BitVec 64)) :=
  [(false, none), (false, none), (false, none), (true, none), (true, some 2), (false, none),
    (false, none), (false, none), (true, none), (false, none), (false, none), (false, none),
    (false, none), (false, none), (false, none)]

/-- The table `iht_create (t, 4)` makes. -/
def sampleTable (ops : BinOps (BitVec 64) G) : Iht (BitVec 64) G :=
  { elsNum := 0, bin := ihtAllocBin ops 8 }

theorem sampleCreate (ops : BinOps (BitVec 64) G) :
    Returns (fun fuel => ihtCreate ops fuel 4) (sampleTable ops) :=
  Returns.map (Returns.leave (Returns.const _)) _

theorem sampleCalls_ok : ∀ c ∈ sampleCalls, c.Ok identityKey := by
  have hupdate : ∀ c ∈ [(⟨2, .find, 2, some 2⟩ : Call (BitVec 64))], c.Ok identityKey := by
    intro c hc
    rw [List.mem_singleton] at hc
    subst hc
    exact ⟨rfl, fun y hy => by cases hy; rfl⟩
  refine List.forall_mem_append.mpr ⟨List.forall_mem_append.mpr ⟨?_, hupdate⟩, ?_⟩
  · exact plainCalls_ok identityKey_lawful _
  · exact plainCalls_ok identityKey_lawful _

theorem sampleSession (target : Target) :
    IhtSession (ihtOps identityKey target) identityKey 15 4
      (sampleTable (ihtOps identityKey target)) sampleCalls :=
  IhtSession.of_length (ihtOps_lawful identityKey_lawful target) identityKey_lawful
    (Nat.le_refl _) (sampleCreate _) sampleCalls_ok (by decide)

theorem iht_refines_sample :
    IhtSession (ihtOps identityKey .swar) identityKey (2 ^ 32) 4
        (sampleTable (ihtOps identityKey .swar)) sampleCalls ∧
      ∃ rs t, Returns (fun fuel => ihtRun (ihtOps identityKey .swar) identityKey fuel
          (sampleTable (ihtOps identityKey .swar)) sampleCalls) (rs, t) ∧
        rs.map Reply.seen = sampleReplies ∧ ihtElsCount t = 9 ∧
        Returns (fun fuel => ihtElements fuel t) [2, 3, 4, 6, 7, 8, 9, 10, 11] := by
  have h := (sampleSession .swar).mono (2 ^ 32) (by decide)
  exact ⟨h, iht_refines identityKey_lawful .swar h⟩

structure SameTable {G' : Type} (t : Iht El G) (t' : Iht El G') : Prop where
  elsNum : t.elsNum = t'.elsNum
  elsBound : t.bin.elsBound = t'.bin.elsBound
  groupsMask : t.bin.groupsMask = t'.bin.groupsMask
  deleted : t.bin.deleted = t'.bin.deleted
  els : t.bin.els = t'.bin.els

theorem IhtSim.same_table {G' : Type} {limit limit' : Nat}
    {Slots : G → Nat → Nat → List Entry → Prop} {Slots' : G' → Nat → Nat → List Entry → Prop}
    {t : Iht El G} {v : Iht El G'} {a : IdealIht El} (ht : IhtSim limit Slots t a)
    (hv : IhtSim limit' Slots' v a) : SameTable t v := by
  have hbin : t.bin.withGroups a.bin.groups = v.bin.withGroups a.bin.groups :=
    ht.bin.same.symm.trans hv.bin.same
  exact ⟨ht.elsNum.trans hv.elsNum.symm, congrArg Hbin.elsBound hbin,
    congrArg Hbin.groupsMask hbin, congrArg Hbin.deleted hbin, congrArg Hbin.els hbin⟩

/-- `ihtab.h` and `ihtab-v0.h` cannot be told apart.  A session below the last
    position that `ihtab-v0.h` can store gives the same replies on both, `*res`
    included, and leaves the same table up to the index; so the next INSERT rebuilds
    in both or in neither, and the iterators enumerate the same list. -/
theorem iht_v0_lock_step (hkey : key.Lawful) (target v0Target : Target) (minSize : Nat) :
    ((∃ t₀, Returns (fun fuel => ihtCreate (ihtOps key target) fuel minSize) t₀) ↔
      ∃ v₀, Returns (fun fuel => ihtCreate (v0IhtOps key v0Target) fuel minSize) v₀) ∧
    ∀ t₀ v₀ calls, IhtSession (ihtOps key target) key (2 ^ 32 - 2) minSize t₀ calls →
      Returns (fun fuel => ihtCreate (v0IhtOps key v0Target) fuel minSize) v₀ →
      ∃ rs t v, Returns (fun fuel => ihtRun (ihtOps key target) key fuel t₀ calls) (rs, t) ∧
        Returns (fun fuel => ihtRun (v0IhtOps key v0Target) key fuel v₀ calls) (rs, v) ∧
        SameTable t v ∧ ihtFull t = ihtFull v ∧
        ∃ l, Returns (fun fuel => ihtElements fuel t) l ∧
          Returns (fun fuel => ihtElements fuel v) l := by
  have hlaw := ihtOps_lawful hkey target
  have hlaw0 := v0IhtOps_lawful hkey v0Target
  refine ⟨(ihtCreate_returns_iff hlaw minSize).trans (ihtCreate_returns_iff hlaw0 minSize).symm, ?_⟩
  intro t₀ v₀ calls h hv₀
  have h32 := h.mono (2 ^ 32) (by decide)
  obtain ⟨a₀, rs, t, a, ha₀, hrun, hideal, hsim, hle, hok, -, -⟩ :=
    h32.spec hlaw hkey (Nat.le_refl _)
  obtain ⟨n, hn⟩ := ha₀.exists_some
  obtain ⟨b₀, hb₀, hsim₀⟩ := Returns.of_rel_left (ihtCreate_mono (idealIhtOps key) minSize)
    (fun fuel (_ : fuel ≥ 0) => ihtCreate_sim hlaw0 fuel minSize) hv₀
  have heq := hb₀.unique ha₀
  subst heq
  -- the used positions of the ideal table, hence of the v0 table, are those of the current one
  obtain ⟨rs', v, a', hrun0, hideal0, hsim0, -, -, -, -⟩ := ihtRun_spec hlaw0 hkey (by decide) hsim₀
    (ihtCreate_ideal hkey hn).1 h.calls_ok (by
      intro pre hpre _ rs v a _ ha _
      obtain ⟨c₀, rs', t', a', hc₀, hrun', ha', hsim', -⟩ :=
        (h32.initial hpre).spec hlaw hkey (Nat.le_refl _)
      rw [hc₀.unique ha₀] at ha'
      obtain ⟨rfl, rfl⟩ := Prod.mk.inj (ha.unique ha')
      have := h.bound pre hpre rs t' hrun'
      rw [hsim'.bin.elsBound]
      omega)
  obtain ⟨rfl, rfl⟩ := Prod.mk.inj (hideal.unique hideal0)
  exact ⟨rs, t, v, hrun, hrun0, hsim.same_table hsim0, hsim.full.trans hsim0.full.symm, a.bin.live,
    hsim.elements hok (by omega), hsim0.elements hok (by omega)⟩

theorem iht_v0_lock_step_sample :
    IhtSession (ihtOps identityKey .neon) identityKey (2 ^ 32 - 2) 4
        (sampleTable (ihtOps identityKey .neon)) sampleCalls ∧
      ∃ rs t v, Returns (fun fuel => ihtRun (ihtOps identityKey .neon) identityKey fuel
          (sampleTable (ihtOps identityKey .neon)) sampleCalls) (rs, t) ∧
        Returns (fun fuel => ihtRun (v0IhtOps identityKey .swar) identityKey fuel
          (sampleTable (v0IhtOps identityKey .swar)) sampleCalls) (rs, v) ∧ SameTable t v ∧
        ihtFull t = ihtFull v ∧ ∃ l, Returns (fun fuel => ihtElements fuel t) l ∧
          Returns (fun fuel => ihtElements fuel v) l := by
  have h := (sampleSession .neon).mono (2 ^ 32 - 2) (by decide)
  obtain ⟨-, hlock⟩ := iht_v0_lock_step identityKey_lawful .neon .swar 4
  exact ⟨h, hlock _ _ _ h (sampleCreate _)⟩

end IndexedHash
