import PageTables.PhysMem.HoleListMerge
import PageTables.PhysMem.BitmapInvariant

/-!
# The hole list against the bitmap

Both managers of physical memory hand out runs of pages.  `PhysMemManager.bitmap`
maps a state of the hole list to the bitmap state with the same pages free.
Construction and releases commute with it.  Allocations commute with it whenever
the hole list is sorted by first page: the first fit is then the lowest free run,
which the bitmap scan returns.  Whatever the order, both find a run or neither
does, since the holes of a run of requests for at least one page are the maximal
free runs.

The hole list is sorted after construction and after every release, but
`splitHole` appends what is left of a hole at the tail, and after an allocation
from a hole other than the last the first fit in list order can lie above the
lowest free run.
-/

namespace PageTables.HoleList

open PhysMemManager

namespace PhysMemManager

/-- The bitmap state with the same pages free: a page below `nPages` is allocated
exactly when no hole holds it. -/
def bitmap (m : PhysMemManager) : Bitmap.PhysMemManager :=
  ⟨m.baseAddress, m.pageSize, m.nPages, m.nAllocatedPages, m.maxAllocatedPages,
    (List.range m.nPages).map fun p => decide (coverage m.holes p = 0)⟩

def runOps : List MemOp → PhysMemManager → List (Option Nat)
  | [], _ => []
  | .allocatePages count :: ops, m =>
    match m.allocatePages count with
    | some (addr, m') => some addr :: runOps ops m'
    | none => none :: runOps ops m
  | .releasePages addr count :: ops, m => runOps ops (m.releasePages addr count)

theorem getD_bitmap (m : PhysMemManager) (p : Nat) :
    m.bitmap.allocated.getD p false =
      (decide (p < m.nPages) && decide (coverage m.holes p = 0)) := by
  by_cases hp : p < m.nPages
  · simp [bitmap, List.getD_eq_getElem?_getD, List.getElem?_range hp, hp]
  · have : ((List.range m.nPages).map fun p => decide (coverage m.holes p = 0))[p]? = none :=
      List.getElem?_eq_none_iff.2 (by simpa using not_lt.1 hp)
    simp [bitmap, this, hp]

theorem new_bitmap (pageSize memorySize : Nat) :
    Bitmap.PhysMemManager.new pageSize memorySize =
      (PhysMemManager.new pageSize memorySize).map bitmap := by
  unfold Bitmap.PhysMemManager.new PhysMemManager.new
  split_ifs
  · rfl
  · simp only [Except.map, bitmap, Except.ok.injEq, Bitmap.PhysMemManager.mk.injEq, true_and]
    refine (List.eq_replicate_iff.2 ⟨by simp, fun b hb => ?_⟩).symm
    obtain ⟨p, hp, rfl⟩ := List.mem_map.1 hb
    simp [coverage, Hole.covers, List.mem_range.1 hp]

theorem releasePages_bitmap (m : PhysMemManager) {addr count : Nat}
    (hw : sub64 addr m.baseAddress / m.pageSize + count < 2 ^ 64) :
    (m.releasePages addr count).bitmap = m.bitmap.releasePages addr count := by
  simp only [bitmap, releasePages, Bitmap.PhysMemManager.releasePages, Bitmap.markPages,
    Bitmap.PhysMemManager.mk.injEq, true_and, add64_of_lt hw]
  refine List.ext_getElem (by simp) fun p h1 h2 => ?_
  simp only [List.getElem_map, List.getElem_mapIdx, List.getElem_range, coverage_mergeHoles,
    addHole, coverage_append, coverage_cons, coverage_nil, Hole.covers, decide_eq_true_eq]
  split_ifs <;> simp_all

end PhysMemManager

section Sep

variable {m : PhysMemManager} {live : List (Nat × Nat)}

theorem Inv.nPages_lt (hi : Inv m live) : m.nPages < 2 ^ 64 :=
  lt_of_le_of_lt hi.nPages_le (by unfold maxMemorySize; decide)

theorem Inv.count_lt {count addr : Nat} {m' : PhysMemManager} (hi : Inv m live)
    (h : m.allocatePages count = some (addr, m')) : count < 2 ^ 64 := by
  obtain ⟨pre, hole, post, hholes, hcount, -⟩ := allocatePages_eq_some h
  have := hi.bound hole (List.mem_append_left _ (by rw [hholes]; simp))
  have := hi.nPages_lt
  omega

theorem Inv.coverage_holes_le (hi : Inv m live) (p : Nat) : coverage m.holes p ≤ 1 := by
  have := hi.cover p
  rw [coverage_append] at this
  split_ifs at this <;> omega

theorem freeRun_bitmap_iff {count s : Nat} :
    Bitmap.freeRun m.bitmap.allocated m.nPages count s = true ↔
      s + count ≤ m.nPages ∧ ∀ i, s ≤ i → i < s + count → 0 < coverage m.holes i := by
  rw [Bitmap.freeRun_iff]
  refine and_congr_right fun hs => forall_congr' fun i => imp_congr_right fun h1 =>
    imp_congr_right fun h2 => ?_
  simp only [getD_bitmap, Bool.and_eq_false_iff, decide_eq_false_iff_not, not_lt]
  omega

theorem freeRun_of_hole (hi : Inv m live) {h : Hole} (hh : h ∈ m.holes) {count : Nat}
    (hc : count ≤ h.count) : Bitmap.freeRun m.bitmap.allocated m.nPages count h.startPage := by
  have hb := hi.bound h (List.mem_append_left _ hh)
  refine freeRun_bitmap_iff.2 ⟨by omega, fun i h1 h2 => List.countP_pos_iff.2 ⟨h, hh, ?_⟩⟩
  simp only [Hole.covers, decide_eq_true_eq]
  omega

/-- Separated holes are maximal: a run of pages that holes hold lies in one hole. -/
theorem covering_hole (hs : SepInv m live) {s : Nat} :
    ∀ k, (∀ i, s ≤ i → i ≤ s + k → 0 < coverage m.holes i) →
      ∃ h ∈ m.holes, h.startPage ≤ s ∧ s + k < h.startPage + h.count
  | 0, hcov => by
    obtain ⟨h, hh, hcv⟩ := List.countP_pos_iff.1 (hcov s le_rfl (by omega))
    simp only [Hole.covers, decide_eq_true_eq] at hcv
    exact ⟨h, hh, hcv.1, by omega⟩
  | k + 1, hcov => by
    obtain ⟨h, hh, hstart, hend⟩ := covering_hole hs k fun i h1 h2 => hcov i h1 (by omega)
    by_cases hk : s + (k + 1) < h.startPage + h.count
    · exact ⟨h, hh, hstart, hk⟩
    obtain ⟨h', hh', hcv⟩ := List.countP_pos_iff.1 (hcov (s + (k + 1)) (by omega) le_rfl)
    simp only [Hole.covers, decide_eq_true_eq] at hcv
    have hne : h ≠ h' := by
      rintro rfl
      omega
    have := hs.separated.forall Hole.separated_symm hh hh' hne
    unfold Hole.Separated at this
    omega

theorem hole_of_freeRun (hs : SepInv m live) {count s : Nat} (hc : 0 < count)
    (hrun : Bitmap.freeRun m.bitmap.allocated m.nPages count s) :
    ∃ h ∈ m.holes, h.startPage ≤ s ∧ s + count ≤ h.startPage + h.count := by
  obtain ⟨-, hcov⟩ := freeRun_bitmap_iff.1 hrun
  obtain ⟨h, hh, h1, h2⟩ := covering_hole hs (count - 1) fun i hi1 hi2 => hcov i hi1 (by omega)
  exact ⟨h, hh, h1, by omega⟩

theorem findFit_isSome_iff {count : Nat} {holes : List Hole} :
    (findFit count holes).isSome ↔ ∃ h ∈ holes, count ≤ h.count := by
  induction holes with
  | nil => simp [findFit]
  | cons a holes ih =>
    by_cases ha : a.count ≥ count
    · simp [findFit, ha]
    · simp [findFit, ha, ih]

theorem lowestFreeRun_isSome_iff (hs : SepInv m live) {count : Nat} (hc : 0 < count) :
    (Bitmap.lowestFreeRun m.bitmap.allocated m.nPages count).isSome ↔
      ∃ h ∈ m.holes, count ≤ h.count := by
  rw [Bitmap.lowestFreeRun, List.find?_isSome]
  constructor
  · rintro ⟨s, -, hrun⟩
    obtain ⟨h, hh, h1, h2⟩ := hole_of_freeRun hs hc hrun
    exact ⟨h, hh, by omega⟩
  · rintro ⟨h, hh, hch⟩
    have hrun := freeRun_of_hole hs.inv hh hch
    have := (freeRun_bitmap_iff.1 hrun).1
    exact ⟨h.startPage, List.mem_range.2 (by omega), hrun⟩

theorem find?_range_eq_some {p : Nat → Bool} {n s : Nat} (hs : s < n) (hp : p s)
    (hlt : ∀ t < s, p t = false) : (List.range n).find? p = some s := by
  rw [List.range_eq_range', Bitmap.find?_range'_skip (Nat.zero_le s) (by omega)
    fun t _ ht => hlt t ht, show 0 + n - s = (n - s - 1) + 1 by omega]
  simp [List.range', hp]

/-- On a sorted hole list the first fit is the lowest free run. -/
theorem lowestFreeRun_of_sorted (hs : SepInv m live) (hsort : m.holes.Sorted startOrder)
    {count : Nat} (hc : 0 < count) {pre post : List Hole} {hole : Hole}
    (hholes : m.holes = pre ++ hole :: post) (hcount : count ≤ hole.count)
    (hpre : ∀ x ∈ pre, x.count < count) :
    Bitmap.lowestFreeRun m.bitmap.allocated m.nPages count = some hole.startPage := by
  have hmem : hole ∈ m.holes := by simp [hholes]
  have hrun := freeRun_of_hole hs.inv hmem hcount
  refine find?_range_eq_some (by have := (freeRun_bitmap_iff.1 hrun).1; omega) hrun
    fun t ht => Bool.eq_false_iff.2 fun hrun' => ?_
  obtain ⟨h, hh, h1, h2⟩ := hole_of_freeRun hs hc hrun'
  rw [hholes, List.mem_append, List.mem_cons] at hh
  rw [hholes, List.Sorted, List.pairwise_append, List.pairwise_cons] at hsort
  rcases hh with hh | rfl | hh
  · have := hpre h hh
    omega
  · omega
  · have := hsort.2.1.1 h hh
    simp only [startOrder] at this
    omega

end Sep

namespace PhysMemManager

variable {m : PhysMemManager} {live : List (Nat × Nat)}

theorem allocatePages_isSome_iff {count : Nat} :
    (m.allocatePages count).isSome ↔
      add64 m.nAllocatedPages count ≤ m.nPages ∧ (findFit count m.holes).isSome := by
  unfold allocatePages
  split_ifs with hcap
  · simp only [Option.isSome_none, Bool.false_eq_true, false_iff, not_and]
    omega
  · cases findFit count m.holes <;> simp [not_lt.1 hcap]

theorem allocatePages_isSome_bitmap (hs : SepInv m live) {count : Nat} (hc : 0 < count)
    (hc64 : count < 2 ^ 64) :
    (m.allocatePages count).isSome = (m.bitmap.allocatePages count).isSome := by
  rw [Bool.eq_iff_iff, allocatePages_isSome_iff, findFit_isSome_iff,
    ← lowestFreeRun_isSome_iff hs hc,
    Bitmap.PhysMemManager.allocatePages_eq _ hc hc64 hs.inv.nPages_lt]
  simp only [bitmap]
  split_ifs with hcap
  · simp only [Option.isSome_none, Bool.false_eq_true, iff_false, not_and]
    omega
  · simp [Option.isSome_map', not_lt.1 hcap]

theorem coverage_after_split (pre post : List Hole) {hole : Hole} {count : Nat}
    (hcount : count ≤ hole.count) (p : Nat) :
    coverage (pre ++ post ++
        if count < hole.count then [⟨hole.startPage + count, hole.count - count⟩] else []) p +
      (if hole.startPage ≤ p ∧ p < hole.startPage + count then 1 else 0) =
      coverage (pre ++ hole :: post) p := by
  have := coverage_split hcount p
  simp only [coverage_append, coverage_cons, coverage_nil, Hole.covers,
    decide_eq_true_eq] at this ⊢
  split_ifs at this ⊢ <;> omega

/-- On a sorted hole list an allocation commutes with the bitmap image. -/
theorem allocatePages_bitmap_of_sorted (hs : SepInv m live) (hsort : m.holes.Sorted startOrder)
    {count : Nat} (hc : 0 < count) (hc64 : count < 2 ^ 64) :
    m.bitmap.allocatePages count = (m.allocatePages count).map fun r => (r.1, r.2.bitmap) := by
  cases hm : m.allocatePages count with
  | none =>
    have := allocatePages_isSome_bitmap hs hc hc64
    rw [hm] at this
    exact Option.not_isSome_iff_eq_none.1 (by simpa using this.symm)
  | some r =>
    obtain ⟨addr, m'⟩ := r
    obtain ⟨pre, hole, post, hholes, hcount, hpre, hcap, rfl, rfl⟩ := allocatePages_eq_some hm
    have hlow := lowestFreeRun_of_sorted hs hsort hc hholes hcount hpre
    rw [Bitmap.PhysMemManager.allocatePages_eq _ hc hc64 hs.inv.nPages_lt]
    simp only [bitmap] at hlow ⊢
    rw [if_neg (by omega), hlow]
    simp only [Option.map_some', Option.some.injEq, Prod.mk.injEq, Bitmap.PhysMemManager.mk.injEq,
      true_and]
    symm
    refine List.ext_getElem (by simp [Bitmap.markPages]) fun p h1 h2 => ?_
    have hsplit := coverage_after_split pre post hcount p
    have hle := hs.inv.coverage_holes_le p
    rw [hholes] at hle
    simp only [Bitmap.markPages, List.getElem_mapIdx, List.getElem_map, List.getElem_range, hholes]
    split_ifs at hsplit ⊢ <;> simp only [decide_eq_true_eq, decide_eq_decide] <;> omega

end PhysMemManager

/-! ## Both managers on one sequence of calls -/

/-- Runs of both managers on the same calls from the same construction, while each
allocation asks for at least one page and is made at a hole list sorted by first
page, and each release names a live allocation.  A failed allocation changes
neither state and needs no step. -/
inductive Lockstep : PhysMemManager → Bitmap.PhysMemManager → List (Nat × Nat) → Prop
  | init {hm : PhysMemManager} {bm : Bitmap.PhysMemManager} (pageSize memorySize : Nat) :
      PhysMemManager.new pageSize memorySize = .ok hm →
      Bitmap.PhysMemManager.new pageSize memorySize = .ok bm → Lockstep hm bm []
  | allocate {hm hm' : PhysMemManager} {bm bm' : Bitmap.PhysMemManager}
      {live : List (Nat × Nat)} {count addr addr' : Nat} :
      Lockstep hm bm live → 1 ≤ count → hm.holes.Sorted startOrder →
      hm.allocatePages count = some (addr, hm') → bm.allocatePages count = some (addr', bm') →
      Lockstep hm' bm' ((addr, count) :: live)
  | release {hm : PhysMemManager} {bm : Bitmap.PhysMemManager} {pre post : List (Nat × Nat)}
      {a : Nat × Nat} :
      Lockstep hm bm (pre ++ a :: post) →
      Lockstep (hm.releasePages a.1 a.2) (bm.releasePages a.1 a.2) (pre ++ post)

/-- Along a lockstep run the bitmap state is the image of the hole list. -/
theorem Lockstep.eq_bitmap {hm : PhysMemManager} {bm : Bitmap.PhysMemManager}
    {live : List (Nat × Nat)} (h : Lockstep hm bm live) :
    Reachable 1 hm live ∧ bm = hm.bitmap := by
  induction h with
  | init ps ms hh hb =>
    refine ⟨.init ps ms hh, ?_⟩
    rw [new_bitmap, hh] at hb
    exact (Except.ok.inj hb).symm
  | allocate _ hc hsort hh hb ih =>
    obtain ⟨hr, rfl⟩ := ih
    rw [allocatePages_bitmap_of_sorted hr.sepInv hsort hc (hr.inv.count_lt hh), hh] at hb
    exact ⟨.allocate hr hc hh, (Prod.mk.inj (Option.some.inj hb)).2.symm⟩
  | @release hm bm pre post a _ ih =>
    obtain ⟨hr, rfl⟩ := ih
    have hb := hr.inv.bound (hm.allocation a) (List.mem_append_right _ (by simp))
    have := hr.inv.nPages_lt
    exact ⟨.release hr, (releasePages_bitmap _ (by simp only [allocation] at hb; omega)).symm⟩

/-- Along every run of both managers on the same calls, an allocation of at least
one page succeeds in both or in neither; when the hole list is sorted by first page
both return the same address, the lowest-addressed free run. -/
theorem hole_list_matches_bitmap_at_sorted_lists {hm : PhysMemManager}
    {bm : Bitmap.PhysMemManager} {live : List (Nat × Nat)} (h : Lockstep hm bm live)
    {count : Nat} (hc : 1 ≤ count) (hc64 : count < 2 ^ 64) :
    (hm.allocatePages count).isSome = (bm.allocatePages count).isSome ∧
      (hm.holes.Sorted startOrder →
        (hm.allocatePages count).map Prod.fst = (bm.allocatePages count).map Prod.fst ∧
        (bm.allocatePages count).map Prod.fst =
          if add64 bm.nAllocatedPages count > bm.nPages then none
          else (Bitmap.lowestFreeRun bm.allocated bm.nPages count).map fun s =>
            bm.baseAddress + s * bm.pageSize) := by
  obtain ⟨hr, rfl⟩ := h.eq_bitmap
  have hs := hr.sepInv
  refine ⟨allocatePages_isSome_bitmap hs hc hc64, fun hsort => ⟨?_, ?_⟩⟩
  · rw [allocatePages_bitmap_of_sorted hs hsort hc hc64, Option.map_map]
    rfl
  · rw [Bitmap.PhysMemManager.allocatePages_eq _ hc hc64 hs.inv.nPages_lt]
    split_ifs
    · rfl
    · rw [Option.map_map]
      rfl

/-- On 16 pages, both managers in lockstep: allocations of 3 and 5 pages from sorted
lists, then the first released.  The next request, of 2 pages, gets the same answer
from both. -/
theorem hole_list_matches_bitmap_after_release :
    ∃ hm bm, Lockstep hm bm [(physMemBase + 3 * 4096, 5)] ∧ hm.holes = [⟨0, 3⟩, ⟨8, 8⟩] ∧
      1 ≤ 2 ∧ 2 < 2 ^ 64 ∧
      (hm.allocatePages 2).isSome = (bm.allocatePages 2).isSome ∧
      (hm.holes.Sorted startOrder →
        (hm.allocatePages 2).map Prod.fst = (bm.allocatePages 2).map Prod.fst ∧
        (bm.allocatePages 2).map Prod.fst =
          if add64 bm.nAllocatedPages 2 > bm.nPages then none
          else (Bitmap.lowestFreeRun bm.allocated bm.nPages 2).map fun s =>
            bm.baseAddress + s * bm.pageSize) := by
  have h₁ : Lockstep _ _ [(physMemBase, 3)] :=
    .allocate (.init 4096 (16 * 4096) rfl rfl) (by decide) (by decide) rfl rfl
  have h₂ : Lockstep _ _ [(physMemBase + 3 * 4096, 5), (physMemBase, 3)] :=
    .allocate h₁ (by decide) (by decide) rfl rfl
  have h₃ := @Lockstep.release _ _ [(physMemBase + 3 * 4096, 5)] [] (physMemBase, 3) h₂
  exact ⟨_, _, h₃, by decide, by decide, by decide,
    hole_list_matches_bitmap_at_sorted_lists h₃ (by decide) (by decide)⟩

/-- On 32 pages: two allocations of 5 pages, the first released, 2 pages from the
front hole, whose remainder goes to the tail, and then 3 pages.  The hole list takes
the 3 pages from its first hole, at page 10; the bitmap finds the free run at
page 2. -/
theorem first_fit_in_list_order_differs :
    ∃ hm bm, PhysMemManager.new 4096 (32 * 4096) = .ok hm ∧
      Bitmap.PhysMemManager.new 4096 (32 * 4096) = .ok bm ∧
      hm.runOps [.allocatePages 5, .allocatePages 5, .releasePages physMemBase 5,
          .allocatePages 2, .allocatePages 3] =
        [some physMemBase, some (physMemBase + 5 * 4096), some physMemBase,
          some (physMemBase + 10 * 4096)] ∧
      bm.runOps [.allocatePages 5, .allocatePages 5, .releasePages physMemBase 5,
          .allocatePages 2, .allocatePages 3] =
        [some physMemBase, some (physMemBase + 5 * 4096), some physMemBase,
          some (physMemBase + 2 * 4096)] :=
  ⟨_, _, rfl, rfl, by decide, by decide⟩

/-! ## The high-water mark of both managers -/

/-- Both managers keep `maxAllocatedPages` as the high-water mark of
`nAllocatedPages`: over every run in which each release names a live allocation,
`getMaxAllocatedPages` is the largest count of the states so far, it never
decreases along the run, and it never exceeds `nPages`. -/
theorem max_allocated_pages_is_high_water_mark {hm : PhysMemManager}
    {hlive : List (Nat × Nat)} {hstates : List PhysMemManager} {bm : Bitmap.PhysMemManager}
    {blive : List (Nat × Nat)} {bstates : List Bitmap.PhysMemManager}
    (hh : Runs hm hlive hstates) (hb : Bitmap.Runs bm blive bstates) :
    (hm.getMaxAllocatedPages = (hstates.map (·.nAllocatedPages)).foldr max 0 ∧
      (hstates.map (·.getMaxAllocatedPages)).Sorted (· ≥ ·) ∧
      hm.getMaxAllocatedPages ≤ hm.nPages) ∧
    (bm.getMaxAllocatedPages = (bstates.map (·.nAllocatedPages)).foldr max 0 ∧
      (bstates.map (·.getMaxAllocatedPages)).Sorted (· ≥ ·) ∧
      bm.getMaxAllocatedPages ≤ bm.nPages) :=
  ⟨maxAllocatedPages_high_water hh, Bitmap.maxAllocatedPages_high_water hb⟩

/-- Both managers on 16 pages: 3 pages allocated, then released. -/
theorem max_allocated_pages_is_high_water_mark_after_release :
    let h0 : PhysMemManager := ⟨physMemBase, 4096, 16, 0, 0, [⟨0, 16⟩]⟩
    let h1 : PhysMemManager := ⟨physMemBase, 4096, 16, 3, 3, [⟨3, 13⟩]⟩
    let h2 : PhysMemManager := ⟨physMemBase, 4096, 16, 0, 3, [⟨0, 16⟩]⟩
    let b0 : Bitmap.PhysMemManager := ⟨physMemBase, 4096, 16, 0, 0, List.replicate 16 false⟩
    let b1 : Bitmap.PhysMemManager :=
      ⟨physMemBase, 4096, 16, 3, 3, List.replicate 3 true ++ List.replicate 13 false⟩
    let b2 : Bitmap.PhysMemManager := ⟨physMemBase, 4096, 16, 0, 3, List.replicate 16 false⟩
    (Runs h2 [] [h2, h1, h0] ∧ Bitmap.Runs b2 [] [b2, b1, b0]) ∧
      (h2.getMaxAllocatedPages = ([h2, h1, h0].map (·.nAllocatedPages)).foldr max 0 ∧
        ([h2, h1, h0].map (·.getMaxAllocatedPages)).Sorted (· ≥ ·) ∧
        h2.getMaxAllocatedPages ≤ h2.nPages) ∧
      (b2.getMaxAllocatedPages = ([b2, b1, b0].map (·.nAllocatedPages)).foldr max 0 ∧
        ([b2, b1, b0].map (·.getMaxAllocatedPages)).Sorted (· ≥ ·) ∧
        b2.getMaxAllocatedPages ≤ b2.nPages) :=
  have hh : Runs ⟨physMemBase, 4096, 16, 0, 3, [⟨0, 16⟩]⟩ [] _ :=
    @Run.release PhysMemManager _ _ _ ⟨physMemBase, 4096, 16, 3, 3, [⟨3, 13⟩]⟩ [] []
      (physMemBase, 3) _
      (.allocate (.init 4096 (16 * 4096) rfl) (by decide) rfl)
  have hb : Bitmap.Runs ⟨physMemBase, 4096, 16, 0, 3, List.replicate 16 false⟩ [] _ :=
    @Run.release Bitmap.PhysMemManager _ _ _
      ⟨physMemBase, 4096, 16, 3, 3, List.replicate 3 true ++ List.replicate 13 false⟩ [] []
      (physMemBase, 3) _ (.allocate (.init 4096 (16 * 4096) rfl) (by decide) rfl)
  ⟨⟨hh, hb⟩, max_allocated_pages_is_high_water_mark hh hb⟩

end PageTables.HoleList
