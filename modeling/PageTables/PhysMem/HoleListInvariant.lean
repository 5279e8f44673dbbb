import PageTables.PhysMem.HoleList
import PageTables.PhysMem.Run

/-!
# The holes and the live allocations partition the pages

Every page below `nPages` lies in exactly one hole or live allocation, and no
page above it lies in any.  This single counting statement survives each step
of the manager unchanged: a split hands a prefix of a hole to the caller, a
release moves an allocation back among the holes, the sort permutes them and a
merge replaces two touching holes by their union.
-/

namespace PageTables.HoleList

def Hole.covers (r : Hole) (p : Nat) : Bool :=
  decide (r.startPage ≤ p ∧ p < r.startPage + r.count)

def Hole.Disjoint (a b : Hole) : Prop := ∀ p, ¬ (a.covers p = true ∧ b.covers p = true)

def coverage (rs : List Hole) (p : Nat) : Nat := rs.countP (·.covers p)

@[simp] theorem coverage_nil (p : Nat) : coverage [] p = 0 := rfl

@[simp] theorem coverage_append (rs ss : List Hole) (p : Nat) :
    coverage (rs ++ ss) p = coverage rs p + coverage ss p :=
  List.countP_append _ _ _

@[simp] theorem coverage_cons (r : Hole) (rs : List Hole) (p : Nat) :
    coverage (r :: rs) p = coverage rs p + if r.covers p then 1 else 0 := by
  simp [coverage, List.countP_cons]

theorem coverage_perm {rs ss : List Hole} (h : rs.Perm ss) (p : Nat) :
    coverage rs p = coverage ss p :=
  h.countP_eq _

theorem coverage_union {a b : Hole} (h : a.startPage + a.count = b.startPage) (p : Nat) :
    coverage [⟨a.startPage, a.count + b.count⟩] p = coverage [a, b] p := by
  simp only [coverage_cons, coverage_nil, Hole.covers, decide_eq_true_eq]
  split_ifs <;> omega

theorem pairwise_disjoint_of_coverage {rs : List Hole} (h : ∀ p, coverage rs p ≤ 1) :
    rs.Pairwise Hole.Disjoint := by
  induction rs with
  | nil => exact .nil
  | cons r rs ih =>
      refine .cons (fun s hs p ⟨hr, hsp⟩ => ?_) (ih fun p => ?_)
      · have hpos : 0 < coverage rs p := List.countP_pos_iff.mpr ⟨s, hs, hsp⟩
        have := h p
        simp only [coverage_cons, hr, if_true] at this
        omega
      · have := h p
        simp only [coverage_cons] at this
        omega

/-! ## The merge loop -/

section Merge

variable {N : Nat}

theorem coverage_mergeFrom (a : Hole) (rest : List Hole) (p : Nat) :
    coverage (mergeFrom a rest) p = coverage (a :: rest) p := by
  induction rest generalizing a with
  | nil => rfl
  | cons b rest ih =>
      simp only [mergeFrom]
      split_ifs with h
      · rw [ih, coverage_cons, coverage_cons, coverage_cons]
        have := coverage_union h p
        simp only [coverage_cons, coverage_nil] at this
        omega
      · simp only [coverage_cons a, ih]

theorem sum_mergeFrom (a : Hole) (rest : List Hole) :
    ((mergeFrom a rest).map Hole.count).sum = a.count + (rest.map Hole.count).sum := by
  induction rest generalizing a with
  | nil => simp [mergeFrom]
  | cons b rest ih =>
      simp only [mergeFrom]
      split_ifs
      · simp only [ih, List.map_cons, List.sum_cons]
        omega
      · simp [ih]

theorem bound_mergeFrom (a : Hole) (rest : List Hole)
    (h : ∀ r ∈ a :: rest, r.startPage + r.count ≤ N) :
    ∀ r ∈ mergeFrom a rest, r.startPage + r.count ≤ N := by
  induction rest generalizing a with
  | nil => simpa [mergeFrom] using h
  | cons b rest ih =>
      simp only [mergeFrom]
      split_ifs with hab
      · refine ih _ fun r hr => ?_
        rcases List.mem_cons.mp hr with rfl | hr
        · have := h b (by simp)
          dsimp only
          omega
        · exact h r (by simp [hr])
      · intro r hr
        rcases List.mem_cons.mp hr with rfl | hr
        · exact h r (by simp)
        · exact ih b (fun r hr' => h r (List.mem_cons_of_mem _ hr')) r hr

theorem coverage_mergeHoles (holes : List Hole) (p : Nat) :
    coverage (mergeHoles holes) p = coverage holes p := by
  rw [← coverage_perm (List.perm_insertionSort startOrder holes) p]
  unfold mergeHoles
  cases holes.insertionSort startOrder with
  | nil => rfl
  | cons a rest => exact coverage_mergeFrom a rest p

theorem sum_mergeHoles (holes : List Hole) :
    ((mergeHoles holes).map Hole.count).sum = (holes.map Hole.count).sum := by
  rw [← ((List.perm_insertionSort startOrder holes).map Hole.count).sum_eq]
  unfold mergeHoles
  cases holes.insertionSort startOrder with
  | nil => rfl
  | cons a rest => simp [mergeAdjacent, sum_mergeFrom]

theorem bound_mergeHoles (holes : List Hole) (h : ∀ r ∈ holes, r.startPage + r.count ≤ N) :
    ∀ r ∈ mergeHoles holes, r.startPage + r.count ≤ N := by
  have hs : ∀ r ∈ holes.insertionSort startOrder,
      r.startPage + r.count ≤ N :=
    fun r hr => h r ((List.perm_insertionSort startOrder holes).mem_iff.mp hr)
  unfold mergeHoles
  cases hsort : holes.insertionSort startOrder with
  | nil => simp [mergeAdjacent]
  | cons a rest => exact bound_mergeFrom a rest (hsort ▸ hs)

end Merge

/-! ## One step of the manager -/

theorem findFit_eq_some {count i : Nat} {holes : List Hole} (h : findFit count holes = some i) :
    ∃ pre hole post, holes = pre ++ hole :: post ∧ pre.length = i ∧ count ≤ hole.count ∧
      ∀ x ∈ pre, x.count < count := by
  induction holes generalizing i with
  | nil => simp [findFit] at h
  | cons a holes ih =>
      simp only [findFit] at h
      split_ifs at h with ha
      · cases h
        exact ⟨[], a, holes, rfl, rfl, ha, by simp⟩
      · obtain ⟨j, hj, rfl⟩ := Option.map_eq_some'.mp h
        obtain ⟨pre, x, post, rfl, rfl, hx, hpre⟩ := ih hj
        refine ⟨a :: pre, x, post, rfl, rfl, hx, ?_⟩
        simp only [List.mem_cons, forall_eq_or_imp]
        exact ⟨by omega, hpre⟩

theorem splitHole_at (pre post : List Hole) (hole : Hole) (count : Nat) :
    splitHole (pre ++ hole :: post) pre.length hole.startPage count =
      pre ++ post ++
        if count < hole.count then [⟨hole.startPage + count, hole.count - count⟩] else [] := by
  simp only [splitHole, List.getD_eq_getElem?_getD, List.getElem?_append_right (le_refl _),
    Nat.sub_self, List.getElem?_cons_zero, Option.getD_some, gt_iff_lt, lt_irrefl, if_false,
    List.eraseIdx_append_of_length_le (le_refl _), List.eraseIdx_cons_zero, List.append_assoc,
    Nat.add_lt_add_iff_left]
  split_ifs <;> simp only [List.append_nil, Nat.add_sub_add_left]

theorem coverage_split {count : Nat} {hole : Hole} (h : count ≤ hole.count) (p : Nat) :
    coverage
        ((if count < hole.count then [⟨hole.startPage + count, hole.count - count⟩] else []) ++
          [⟨hole.startPage, count⟩]) p =
      coverage [hole] p := by
  split_ifs <;> simp only [coverage_append, coverage_cons, coverage_nil, Hole.covers,
    decide_eq_true_eq] <;> split_ifs <;> omega

namespace PhysMemManager

theorem allocatePages_eq_some {m m' : PhysMemManager} {count addr : Nat}
    (h : m.allocatePages count = some (addr, m')) :
    ∃ pre hole post, m.holes = pre ++ hole :: post ∧ count ≤ hole.count ∧
      (∀ x ∈ pre, x.count < count) ∧ add64 m.nAllocatedPages count ≤ m.nPages ∧
      addr = m.baseAddress + hole.startPage * m.pageSize ∧
      m' = { m with
        holes := pre ++ post ++
          if count < hole.count then [⟨hole.startPage + count, hole.count - count⟩] else [],
        nAllocatedPages := add64 m.nAllocatedPages count,
        maxAllocatedPages := max m.maxAllocatedPages (add64 m.nAllocatedPages count) } := by
  unfold allocatePages at h
  split_ifs at h with hcap
  split at h
  · cases h
  · rename_i i hfit
    obtain ⟨pre, hole, post, hholes, rfl, hcount, hpre⟩ := findFit_eq_some hfit
    have hget : m.holes.getD pre.length ⟨0, 0⟩ = hole := by
      rw [hholes, List.getD_eq_getElem?_getD, List.getElem?_append_right (le_refl _)]
      simp
    simp only [hget, Option.some.injEq, Prod.mk.injEq] at h
    obtain ⟨rfl, rfl⟩ := h
    refine ⟨pre, hole, post, hholes, hcount, hpre, not_lt.mp hcap, rfl, ?_⟩
    rw [hholes, splitHole_at]

theorem allocation_of_page (m : PhysMemManager) {s : Nat} (count : Nat)
    (hfit : m.baseAddress + s * m.pageSize < 2 ^ 64) (hs : m.pageSize = 0 → s = 0) :
    m.allocation (m.baseAddress + s * m.pageSize, count) = ⟨s, count⟩ := by
  simp only [allocation, Hole.mk.injEq, and_true]
  rw [sub64_of_le (Nat.le_add_right _ _) hfit, Nat.add_sub_cancel_left]
  rcases Nat.eq_zero_or_pos m.pageSize with h0 | hpos
  · simp [hs h0]
  · exact Nat.mul_div_cancel _ hpos

end PhysMemManager

open PhysMemManager

/-- What every reachable state satisfies: holes and live allocations cover each
page below `nPages` exactly once and nothing above it. -/
structure Inv (m : PhysMemManager) (live : List (Nat × Nat)) : Prop where
  base : m.baseAddress = physMemBase
  size : m.nPages * m.pageSize ≤ maxMemorySize
  pageSize_pos : m.pageSize = 0 → m.nPages = 0
  cover : ∀ p, coverage (m.holes ++ live.map m.allocation) p = if p < m.nPages then 1 else 0
  bound : ∀ r ∈ m.holes ++ live.map m.allocation, r.startPage + r.count ≤ m.nPages
  total : ((m.holes ++ live.map m.allocation).map Hole.count).sum = m.nPages
  allocated : m.nAllocatedPages = ((live.map m.allocation).map Hole.count).sum

namespace Inv

variable {m : PhysMemManager} {live : List (Nat × Nat)}

theorem nPages_le (hi : Inv m live) : m.nPages ≤ maxMemorySize :=
  nPages_le_maxMemorySize hi.size hi.pageSize_pos

theorem nAllocatedPages_le (hi : Inv m live) : m.nAllocatedPages ≤ m.nPages := by
  have := hi.total
  simp only [List.map_append, List.sum_append] at this
  rw [hi.allocated]
  omega

theorem init {pageSize memorySize : Nat} (h : PhysMemManager.new pageSize memorySize = .ok m) :
    Inv m [] := by
  unfold PhysMemManager.new at h
  split_ifs at h with hmax
  cases h
  refine ⟨rfl, le_trans (Nat.div_mul_le_self _ _) (not_lt.mp hmax), fun h0 => by simp_all,
    fun p => ?_, by simp, by simp, by simp⟩
  simp only [List.map_nil, List.append_nil, coverage_cons, coverage_nil, Hole.covers]
  split_ifs <;> simp_all

theorem page_addr_lt (hi : Inv m live) {s : Nat} (hs : s ≤ m.nPages) :
    m.baseAddress + s * m.pageSize < 2 ^ 64 :=
  hi.base ▸ region_page_addr_lt hi.size hs

theorem allocate {count addr : Nat} {m' : PhysMemManager} (hi : Inv m live)
    (h : m.allocatePages count = some (addr, m')) : Inv m' ((addr, count) :: live) := by
  obtain ⟨pre, hole, post, hholes, hcount, -, hcap, rfl, hm'⟩ := allocatePages_eq_some h
  have hal : m'.allocation = m.allocation := by subst hm'; rfl
  have hhole : hole.startPage + hole.count ≤ m.nPages := hi.bound hole (by simp [hholes])
  have hnew : m.allocation (m.baseAddress + hole.startPage * m.pageSize, count) =
      ⟨hole.startPage, count⟩ :=
    allocation_of_page m count (hi.page_addr_lt (by omega))
      (fun h0 => by have := hi.pageSize_pos h0; omega)
  have hsum : m.nAllocatedPages + count < 2 ^ 64 := by
    have := hi.nAllocatedPages_le
    have := hi.nPages_le
    unfold maxMemorySize at this
    omega
  have hb : ∀ r, r ∈ pre ∨ r = hole ∨ r ∈ post ∨ r ∈ live.map m.allocation →
      r.startPage + r.count ≤ m.nPages := fun r hr =>
    hi.bound r (by rw [hholes]; simp only [List.mem_append, List.mem_cons]; tauto)
  subst hm'
  refine ⟨hi.base, hi.size, hi.pageSize_pos, fun p => ?_, fun r hr => ?_, ?_, ?_⟩
  · have hs := coverage_split hcount p
    have hc := hi.cover p
    simp only [hal, List.map_cons, hnew, hholes, coverage_append, coverage_cons,
      coverage_nil] at hs hc ⊢
    omega
  · simp only [hal, List.map_cons, hnew, List.mem_append, List.mem_cons] at hr
    rcases hr with ((hr | hr) | hr) | hr | hr
    · exact hb r (.inl hr)
    · exact hb r (.inr (.inr (.inl hr)))
    · by_cases hlt : count < hole.count
      · simp only [hlt, if_true, List.mem_singleton] at hr
        subst hr
        dsimp only
        omega
      · simp [hlt] at hr
    · subst hr
      dsimp only
      omega
    · exact hb r (.inr (.inr (.inr hr)))
  · have ht := hi.total
    simp only [hal, List.map_cons, hnew, hholes, List.map_append, List.sum_append,
      List.sum_cons] at ht ⊢
    split_ifs <;> simp only [List.map_cons, List.map_nil, List.sum_cons, List.sum_nil] <;> omega
  · simp only [hal, List.map_cons, hnew, List.sum_cons]
    rw [add64_of_lt hsum, hi.allocated]
    omega

theorem nAllocatedPages_release {a : Nat × Nat} {pre post : List (Nat × Nat)}
    (hi : Inv m (pre ++ a :: post)) :
    (m.releasePages a.1 a.2).nAllocatedPages + a.2 = m.nAllocatedPages := by
  have hal := hi.allocated
  simp only [List.map_append, List.map_cons, List.sum_append, List.sum_cons,
    count_allocation] at hal
  have := hi.nAllocatedPages_le
  have := hi.nPages_le
  unfold maxMemorySize at this
  rw [releasePages_nAllocatedPages, sub64_of_le (by omega) (by omega)]
  omega

theorem release {a : Nat × Nat} {pre post : List (Nat × Nat)} (hi : Inv m (pre ++ a :: post)) :
    Inv (m.releasePages a.1 a.2) (pre ++ post) := by
  have hperm : ((pre ++ a :: post).map m.allocation).Perm
      (m.allocation a :: (pre ++ post).map m.allocation) := by
    simp only [List.map_append, List.map_cons]
    exact List.perm_middle
  have hcounts := (hperm.map Hole.count).sum_eq
  have hadd : addHole m.holes (sub64 a.1 m.baseAddress / m.pageSize) a.2 =
      m.holes ++ [m.allocation a] := rfl
  have hmem : m.allocation a ∈ m.holes ++ (pre ++ a :: post).map m.allocation :=
    List.mem_append_right _ (List.mem_map_of_mem _ (by simp))
  have hcount := hi.nAllocatedPages_release
  have hal := hi.allocated
  rw [hcounts] at hal
  simp only [List.map_cons, List.sum_cons, count_allocation] at hal
  refine ⟨hi.base, hi.size, hi.pageSize_pos, fun p => ?_, fun r hr => ?_, ?_, ?_⟩ <;>
    simp only [releasePages_holes, releasePages_allocation, releasePages_nPages,
      releasePages_nAllocatedPages, releasePages_baseAddress, releasePages_pageSize, hadd] at *
  · have hc := hi.cover p
    rw [coverage_append, coverage_perm hperm, coverage_cons] at hc
    rw [coverage_append, coverage_mergeHoles, coverage_append, coverage_cons, coverage_nil]
    omega
  · rcases List.mem_append.mp hr with hr | hr
    · refine bound_mergeHoles _ (fun r hr => hi.bound r ?_) r hr
      rcases List.mem_append.mp hr with hr | hr
      · exact List.mem_append_left _ hr
      · exact (List.mem_singleton.mp hr) ▸ hmem
    · refine hi.bound r (List.mem_append_right _ ?_)
      simp only [List.map_append, List.map_cons, List.mem_append, List.mem_cons] at hr ⊢
      tauto
  · have ht := hi.total
    simp only [List.map_append, List.sum_append, sum_mergeHoles, List.map_cons, List.map_nil,
      List.sum_cons, List.sum_nil, count_allocation] at ht ⊢
    omega
  · omega

end Inv

theorem Reachable.inv {minCount : Nat} {m : PhysMemManager} {live : List (Nat × Nat)}
    (h : Reachable minCount m live) : Inv m live := by
  induction h with
  | init _ _ h => exact Inv.init h
  | allocate _ _ h ih => exact ih.allocate h
  | release _ ih => exact ih.release

abbrev Runs := Run PhysMemManager.new PhysMemManager.allocatePages PhysMemManager.releasePages

theorem Runs.reachable {m : PhysMemManager} {live : List (Nat × Nat)}
    {states : List PhysMemManager} (h : Runs m live states) : Reachable 0 m live := by
  induction h with
  | init ps ms h => exact .init ps ms h
  | allocate _ _ h ih => exact .allocate ih (Nat.zero_le _) h
  | reject _ _ _ ih => exact ih
  | release _ ih => exact .release ih

/-- The hole-list manager's high-water law over every run. -/
theorem maxAllocatedPages_high_water {m : PhysMemManager} {live : List (Nat × Nat)}
    {states : List PhysMemManager} (h : Runs m live states) :
    m.getMaxAllocatedPages = (states.map (·.nAllocatedPages)).foldr max 0 ∧
      (states.map (·.getMaxAllocatedPages)).Sorted (· ≥ ·) ∧ m.getMaxAllocatedPages ≤ m.nPages :=
  Run.highWater (·.nPages) (·.nAllocatedPages) getMaxAllocatedPages
    (fun hm => by unfold PhysMemManager.new at hm; split_ifs at hm; cases hm; rfl)
    (fun hm => by obtain ⟨-, -, -, -, -, -, -, -, rfl⟩ := allocatePages_eq_some hm; exact ⟨rfl, rfl⟩)
    (fun hrun => ⟨rfl, rfl, Nat.le.intro (Runs.reachable hrun).inv.nAllocatedPages_release⟩)
    (fun hrun => (Runs.reachable hrun).inv.nAllocatedPages_le) h

/-- What the kernel relies on: holes and live allocations are disjoint runs of
pages below `nPages` adding up to `nPages`, `nAllocatedPages` counts the live
pages, and a successful `allocatePages` hands out a page-aligned run inside the
region that meets no live allocation. -/
structure Partitioned (m : PhysMemManager) (live : List (Nat × Nat)) : Prop where
  disjoint : (m.holes ++ live.map m.allocation).Pairwise Hole.Disjoint
  bounded : ∀ r ∈ m.holes ++ live.map m.allocation, r.startPage + r.count ≤ m.nPages
  total : ((m.holes ++ live.map m.allocation).map Hole.count).sum = m.nPages
  allocated : m.nAllocatedPages = ((live.map m.allocation).map Hole.count).sum
  fresh : ∀ count addr m', m.allocatePages count = some (addr, m') →
    ∃ s, addr = m.baseAddress + s * m.pageSize ∧ s + count ≤ m.nPages ∧
      m'.allocation (addr, count) = ⟨s, count⟩ ∧
      ∀ a ∈ live, Hole.Disjoint ⟨s, count⟩ (m.allocation a)

theorem Inv.partitioned {m : PhysMemManager} {live : List (Nat × Nat)} (hi : Inv m live) :
    Partitioned m live := by
  have hdisj : (m.holes ++ live.map m.allocation).Pairwise Hole.Disjoint :=
    pairwise_disjoint_of_coverage fun p => by rw [hi.cover p]; split_ifs <;> omega
  refine ⟨hdisj, hi.bound, hi.total, hi.allocated, fun count addr m' h => ?_⟩
  obtain ⟨pre, hole, post, hholes, hcount, -, -, rfl, hm'⟩ := allocatePages_eq_some h
  have hmem : hole ∈ m.holes := by simp [hholes]
  have hhole := hi.bound hole (List.mem_append_left _ hmem)
  refine ⟨hole.startPage, rfl, by omega, ?_, fun a ha p ⟨hp, hq⟩ => ?_⟩
  · have hal : m'.allocation = m.allocation := by subst hm'; rfl
    rw [hal]
    exact allocation_of_page m count (hi.page_addr_lt (by omega))
      (fun h0 => by have := hi.pageSize_pos h0; omega)
  · refine (List.pairwise_append.mp hdisj).2.2 hole hmem _ (List.mem_map_of_mem _ ha) p
      ⟨?_, hq⟩
    simp only [Hole.covers, decide_eq_true_eq] at hp ⊢
    omega

/-- Over every run of the hole-list manager, with any counts, zero included. -/
theorem holes_and_allocations_partition {m : PhysMemManager} {live : List (Nat × Nat)}
    (h : Reachable 0 m live) : Partitioned m live :=
  h.inv.partitioned

/-- On 16 pages: allocations of 3 and 5 pages, then the first released.  The hole
list is the three pages released and the eight never handed out. -/
theorem holes_and_allocations_partition_after_release :
    ∃ m, Reachable 0 m [(physMemBase + 3 * 4096, 5)] ∧ m.holes = [⟨0, 3⟩, ⟨8, 8⟩] ∧
      Partitioned m [(physMemBase + 3 * 4096, 5)] := by
  have h₁ : Reachable 0 _ [(physMemBase, 3)] :=
    .allocate (.init 4096 (16 * 4096) rfl) (by decide) rfl
  have h₂ : Reachable 0 _ [(physMemBase + 3 * 4096, 5), (physMemBase, 3)] :=
    .allocate h₁ (by decide) rfl
  have h₃ := @Reachable.release 0 _ [(physMemBase + 3 * 4096, 5)] [] (physMemBase, 3) h₂
  exact ⟨_, h₃, by decide, holes_and_allocations_partition h₃⟩

end PageTables.HoleList
