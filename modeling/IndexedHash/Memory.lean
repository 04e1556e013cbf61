import IndexedHash.ByteGroups
import IndexedHash.IxhtHeapRuns
import IndexedHash.IxhtProgress

/-!
# The tables in memory

The code in memory differs from the model the refinement theorems are about in two ways: the
groups are bytes, and the arrays are blocks of a heap.  `iht_memory_refines` and
`ixht_memory_refines` put the layers together.  A whole session of either header, from
creation to destruction, on bytes in a heap that holds other blocks as well, gives the
replies of a list in the order of latest insertion and leaves the heap as it was.
-/

namespace IndexedHash

open Loop

variable {El : Type} {key : Key El} {target : Target} {order : ByteOrder}

/-- The SWAR helpers take the tags in the order of the bytes of a word, which is their order
    in memory on a little-endian host; the vector helpers have no such condition. -/
def HostOk (order : ByteOrder) (target : Target) : Prop := target = .swar → order = .little

theorem HostOk.ops_eq (h : HostOk order target) : hostOps order target = target.ops := by
  cases target with
  | sse2 => rfl
  | neon => rfl
  | swar =>
    rw [h rfl]
    rfl

/-- `ixhtab.h` on bytes. -/
def ixhtByteOps (key : Key El) (order : ByteOrder) (target : Target) : BinOps El Buffer :=
  byteOps ixhtWidths (hostOps order target) order key.eq

theorem ixhtByteSession_rel (maxPower : Nat) (key : Key El) (h : HostOk order target)
    (fuel minSize : Nat) (calls : List (Call El)) :
    Option.Rel (fun s s' => s.1 = s'.1 ∧ IxRel (Lays ixhtWidths order) s.2 s'.2)
      (ixhtSession maxPower (ixhtByteOps key order target) key fuel minSize calls)
      (ixhtSession maxPower (ixhtOps key target) key fuel minSize calls) := by
  have hrelated := byteOps_related ixhtWidths_bytewise (hostOps_inGroup order target) order key.eq
  rw [ixhtOps, ← h.ops_eq]
  exact ixhtSession_rel hrelated maxPower fuel minSize calls

section Refines

variable {fuel minSize maxPower : Nat} {calls : List (Call El)}

theorem ixhtSession_in_memory (hhost : HostOk order target) (hpower : PowerOk maxPower)
    (hcalls : calls.length < 2 ^ 30) {rs : List (Reply (Nat × Nat) El)} {t : Ixht El (List Group)}
    (hs : ixhtSession maxPower (ixhtOps key target) key fuel minSize calls = some (rs, t))
    (h : Heap (Block El Buffer)) :
    ∃ rs' h', ixhtHeapSession maxPower (ixhtByteOps key order target) key fuel minSize calls h =
        some (rs', h') ∧
      rs'.map (fun r => r.2.seen) = rs.map Reply.seen ∧ h'.blocks = h.blocks := by
  have hbytes := ixhtByteSession_rel maxPower key hhost fuel minSize calls
  rw [hs] at hbytes
  obtain ⟨⟨rs₁, t₁⟩, hrun, hreplies, -⟩ := Rel.of_some hbytes
  obtain ⟨rs', h', hheap, hpositions, hblocks⟩ :=
    (ixhtHeapSession_sim _ key hpower fuel minSize hcalls h.blocks).run rfl hrun
  refine ⟨rs', h', hheap, ?_, hblocks⟩
  calc rs'.map (fun r => r.2.seen)
      = (rs'.map binReply).map Reply.seen := by rw [List.map_map]; rfl
    _ = rs.map Reply.seen := by rw [hpositions, hreplies]

/-- A created table mirrors the empty list. -/
theorem ixhtCreate_mirrors (hkey : key.Lawful) (hpower : PowerOk maxPower) (target : Target)
    (hmin : minSize ≤ 2 ^ 31) :
    ∃ t₀ a₀, Returns (fun fuel => ixhtCreate maxPower (ixhtOps key target) fuel minSize) t₀ ∧
      Returns (fun fuel => ixhtCreate maxPower (idealIxhtOps key) fuel minSize) a₀ ∧
      Follows maxPower key SlotsOk t₀ a₀ ∧ Mirrors key a₀ [] := by
  obtain ⟨t₀, a₀, ht₀, ha₀, h₀, hzero, hempty⟩ :=
    ixhtCreate_follows (ixhtOps_lawful hkey target) hkey hpower hmin
  obtain ⟨m, hm⟩ := ha₀.exists_some
  exact ⟨t₀, a₀, ht₀, ha₀, h₀, ixhtCreate_dir hkey hpower hm, hempty ▸ List.Perm.refl _, hzero⟩

/-- A session with clean splits, all of which end, in memory. -/
theorem CleanSession.in_memory (hkey : key.Lawful) (hhost : HostOk order target)
    (hpower : PowerOk maxPower) {t₀ : Ixht El (List Group)} {a₀ : IdealIxht El}
    (hcreate : Returns (fun fuel => ixhtCreate maxPower (ixhtOps key target) fuel minSize) t₀)
    (h₀ : Follows maxPower key SlotsOk t₀ a₀) (hl₀ : Mirrors key a₀ [])
    (hclean : CleanSession maxPower (ixhtOps key target) key t₀ calls)
    (hsep : SeparableSession maxPower key target t₀ calls) (hlength : calls.length < 2 ^ 30)
    (h : Heap (Block El Buffer)) :
    ∃ n, ∀ fuel ≥ n, ∃ rs h',
      ixhtHeapSession maxPower (ixhtByteOps key order target) key fuel minSize calls h =
          some (rs, h') ∧
        rs.map (fun r => r.2.seen) = (refRun key.eq [] calls).1 ∧ h'.blocks = h.blocks := by
  -- the session returns, and what it returns is what the map says
  obtain ⟨⟨rs, t⟩, hrun⟩ := (run_returns_iff hkey hpower h₀ hl₀.count hclean.calls_ok
    (Nat.lt_trans hlength (by decide))).mpr hsep
  obtain ⟨a, -, -, hseen⟩ := hclean.mirrors (ixhtOps_lawful hkey target) hkey hpower
    (Nat.le_trans hpower.two_pow_le (by decide)) h₀ hl₀ hrun
  obtain ⟨n, hn⟩ := Returns.bind
    (g := fun fuel t => ixhtRun maxPower (ixhtOps key target) key fuel t calls) hcreate hrun
  refine ⟨n, fun fuel hfuel => ?_⟩
  obtain ⟨rs', h', hheap, hsame, hblocks⟩ :=
    ixhtSession_in_memory hhost hpower hlength (hn fuel hfuel) h
  exact ⟨rs', h', hheap, hsame.trans hseen, hblocks⟩

/-- `ixhtab.h` in memory refines a map over every session all of whose splits are clean and
    find a directory of at most `2 ^ 30` entries. -/
theorem ixht_memory_refines (hkey : key.Lawful) (hhost : HostOk order target)
    (hpower : PowerOk maxPower) (hmin : minSize ≤ 2 ^ 31) :
    ∃ t₀, Returns (fun fuel => ixhtCreate maxPower (ixhtOps key target) fuel minSize) t₀ ∧
      ∀ calls, CleanSession maxPower (ixhtOps key target) key t₀ calls → calls.length < 2 ^ 30 →
        (∀ pre, pre <+: calls → ∀ rs t,
          Returns (fun fuel => ixhtRun maxPower (ixhtOps key target) key fuel t₀ pre) (rs, t) →
          t.maxDepth ≤ 30) →
        ∀ h : Heap (Block El Buffer), ∃ n, ∀ fuel ≥ n, ∃ rs h',
          ixhtHeapSession maxPower (ixhtByteOps key order target) key fuel minSize calls h =
              some (rs, h') ∧
            rs.map (fun r => r.2.seen) = (refRun key.eq [] calls).1 ∧ h'.blocks = h.blocks := by
  obtain ⟨t₀, a₀, ht₀, -, h₀, hl₀⟩ := ixhtCreate_mirrors hkey hpower target hmin
  refine ⟨t₀, ht₀, fun calls hclean hlength hdepth h => ?_⟩
  have hsep := hclean.separable hkey hpower h₀ hl₀.count (Nat.lt_trans hlength (by decide))
    fun pre c hpre _ => hdepth pre ((List.prefix_append pre [c]).trans hpre)
  exact hclean.in_memory hkey hhost hpower ht₀ h₀ hl₀ hsep hlength h

/-- The ninth call splits the bin. -/
theorem ixht_memory_refines_nine :
    ∃ n, ∀ fuel ≥ n, ∃ rs h',
      ixhtHeapSession 4 (ixhtByteOps identityKey .little .swar) identityKey fuel 4 nineCalls [] =
          some (rs, h') ∧
        rs.map (fun r => r.2.seen) = List.replicate 9 (false, none) ∧ h'.blocks = 0 := by
  have hlaw := ixhtOps_lawful identityKey_lawful .swar
  obtain ⟨t₀, ht₀, hrefines⟩ := ixht_memory_refines identityKey_lawful
    (show HostOk .little .swar from fun _ => rfl) powerOk_four (show 4 ≤ 2 ^ 31 by decide)
  obtain rfl := ht₀.unique (sampleIxht_created powerOk_four _)
  refine hrefines nineCalls nineCalls_clean (by decide) ?_ []
  intro pre hpre rs t hrun
  have hall : nineCalls.inits.all (fun pre => (ixhtRun 4 (ixhtOps identityKey .swar) identityKey 16
    (sampleIxht (ixhtOps identityKey .swar)) pre).any fun s => s.2.maxDepth ≤ 30) = true := by
      decide +kernel
  have hany := List.all_eq_true.mp hall pre ((List.mem_inits pre nineCalls).mpr hpre)
  rw [Option.any_eq_true] at hany
  obtain ⟨s, hs, hdepth⟩ := hany
  obtain rfl := hrun.unique ((runCalls_mono (ixhtStep_mono hlaw.mono) _ pre).returns hs)
  exact of_decide_eq_true hdepth

end Refines

end IndexedHash
