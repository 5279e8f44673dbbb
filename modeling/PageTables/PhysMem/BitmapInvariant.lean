import PageTables.PhysMem.Bitmap
import PageTables.PhysMem.Run

/-!
# What every run of the bitmap manager keeps

Over a run in which each release names a live allocation, every set flag of
`allocated` belongs to exactly one live allocation and every clear flag to none,
the allocations lie below `nPages`, and `nAllocatedPages` counts the set flags.
From this invariant, `allocatePages` of any count from `1` to `2 ^ 64 - 1` succeeds
exactly when a run of that many free pages exists, and then takes the lowest one.
-/

namespace PageTables.Bitmap

/-! ## Marking a range of flags -/

section Mark

variable {v : List Bool} {lo hi : Nat} {value : Bool}

@[simp] theorem length_markPages : (markPages v lo hi value).length = v.length :=
  List.length_mapIdx

theorem markPages_cons (a : Bool) (l : List Bool) (lo hi : Nat) (value : Bool) :
    markPages (a :: l) lo hi value =
      (if lo = 0 ∧ 0 < hi then value else a) :: markPages l (lo - 1) (hi - 1) value := by
  simp only [markPages, List.mapIdx_cons, Nat.le_zero]
  congr 2
  funext i b
  exact if_congr (by omega) rfl rfl

theorem getD_markPages : ∀ (v : List Bool) (lo hi p : Nat),
    (markPages v lo hi value).getD p false =
      if lo ≤ p ∧ p < hi ∧ p < v.length then value else v.getD p false
  | [], _, _, _ => by simp [markPages]
  | a :: l, lo, hi, 0 => by
    rw [markPages_cons, List.getD_cons_zero, List.getD_cons_zero]
    exact if_congr (by simp) rfl rfl
  | a :: l, lo, hi, p + 1 => by
    rw [markPages_cons, List.getD_cons_succ, List.getD_cons_succ, getD_markPages]
    exact if_congr (by simp only [List.length_cons]; omega) rfl rfl

theorem getD_markPages_of_le (hhi : hi ≤ v.length) (p : Nat) :
    (markPages v lo hi value).getD p false = if lo ≤ p ∧ p < hi then value else v.getD p false := by
  rw [getD_markPages]
  exact if_congr ⟨fun h => ⟨h.1, h.2.1⟩, fun h => ⟨h.1, h.2, by omega⟩⟩ rfl rfl

theorem count_markPages (value : Bool) : ∀ (v : List Bool) (lo n : Nat),
    lo + n ≤ v.length → (∀ i, lo ≤ i → i < lo + n → v.getD i false = !value) →
    (markPages v lo (lo + n) value).count value = v.count value + n ∧
      (markPages v lo (lo + n) value).count (!value) + n = v.count (!value)
  | [], lo, n, hn, _ => by
    obtain rfl : n = 0 := by simp at hn; omega
    simp [markPages]
  | a :: l, 0, 0, _, _ => by
    have ih := count_markPages value l 0 0 (by omega) fun i h1 h2 => absurd h2 (by omega)
    rw [markPages_cons, if_neg (by omega)]
    simp only [Nat.add_zero, Nat.zero_sub, List.count_cons] at ih ⊢
    omega
  | a :: l, 0, n + 1, hn, hv => by
    have ha : a = !value := hv 0 le_rfl (by omega)
    have ih := count_markPages value l 0 n (by simp at hn; omega) fun i h1 h2 =>
      hv (i + 1) (by omega) (by omega)
    subst ha
    rw [markPages_cons, if_pos ⟨rfl, by omega⟩, show 0 - 1 = 0 from rfl,
      show 0 + (n + 1) - 1 = 0 + n by omega]
    simp [List.count_cons] at ih ⊢
    omega
  | a :: l, lo + 1, n, hn, hv => by
    have ih := count_markPages value l lo n (by simp at hn; omega) fun i h1 h2 =>
      hv (i + 1) (by omega) (by omega)
    rw [markPages_cons, if_neg (by omega), show lo + 1 + n - 1 = lo + n by omega,
      Nat.add_sub_cancel, List.count_cons, List.count_cons, List.count_cons, List.count_cons]
    omega

end Mark

namespace PhysMemManager

def pageOf (m : PhysMemManager) (addr : Nat) : Nat := sub64 addr m.baseAddress / m.pageSize

def holds (m : PhysMemManager) (a : Nat × Nat) (p : Nat) : Bool :=
  decide (m.pageOf a.1 ≤ p ∧ p < m.pageOf a.1 + a.2)

theorem releasePages_eq (m : PhysMemManager) (addr count : Nat) :
    m.releasePages addr count =
      { m with allocated := markPages m.allocated (m.pageOf addr) (add64 (m.pageOf addr) count)
                 false,
               nAllocatedPages := sub64 m.nAllocatedPages count } := rfl

@[simp] theorem releasePages_pageOf (m : PhysMemManager) (addr count : Nat) :
    (m.releasePages addr count).pageOf = m.pageOf := rfl

@[simp] theorem releasePages_holds (m : PhysMemManager) (addr count : Nat) :
    (m.releasePages addr count).holds = m.holds := rfl

theorem pageOf_page (m : PhysMemManager) {s : Nat}
    (hfit : m.baseAddress + s * m.pageSize < 2 ^ 64) (hs : m.pageSize = 0 → s = 0) :
    m.pageOf (m.baseAddress + s * m.pageSize) = s := by
  unfold pageOf
  rw [sub64_of_le (Nat.le_add_right _ _) hfit, Nat.add_sub_cancel_left]
  rcases Nat.eq_zero_or_pos m.pageSize with h0 | hpos
  · simp [hs h0]
  · exact Nat.mul_div_cancel _ hpos

theorem allocatePages_eq_some {m m' : PhysMemManager} {count addr : Nat}
    (hc64 : count < 2 ^ 64) (hn : m.nPages < 2 ^ 64)
    (h : m.allocatePages count = some (addr, m')) :
    ∃ s, freeRun m.allocated m.nPages count s = true ∧
      add64 m.nAllocatedPages count ≤ m.nPages ∧ addr = m.baseAddress + s * m.pageSize ∧
      m' = { m with allocated := markPages m.allocated s (s + count) true,
                    nAllocatedPages := add64 m.nAllocatedPages count,
                    maxAllocatedPages := max m.maxAllocatedPages (add64 m.nAllocatedPages count) } := by
  unfold allocatePages at h
  split_ifs at h with hcap
  split at h
  · cases h
  · rename_i s hfind
    have hrun := findRun_some hc64 hn _ 0 s hfind
    have := (freeRun_iff.1 hrun).1
    cases h
    exact ⟨s, hrun, not_lt.1 hcap, rfl, by rw [add64_of_lt (show s + count < 2 ^ 64 by omega)]⟩

end PhysMemManager

open PhysMemManager

/-! ## The invariant -/

/-- What every state of a run satisfies: each set flag belongs to exactly one live
allocation and each clear flag to none, the live allocations lie below `nPages`,
and `nAllocatedPages` counts the set flags. -/
structure Inv (m : PhysMemManager) (live : List (Nat × Nat)) : Prop where
  base : m.baseAddress = physMemBase
  size : m.nPages * m.pageSize ≤ maxMemorySize
  pageSize_pos : m.pageSize = 0 → m.nPages = 0
  length : m.allocated.length = m.nPages
  cover : ∀ p, live.countP (m.holds · p) = if m.allocated.getD p false then 1 else 0
  bound : ∀ a ∈ live, m.pageOf a.1 + a.2 ≤ m.nPages
  setCount : m.nAllocatedPages = m.allocated.count true

namespace Inv

variable {m : PhysMemManager} {live : List (Nat × Nat)}

theorem nPages_le (hi : Inv m live) : m.nPages ≤ maxMemorySize :=
  nPages_le_maxMemorySize hi.size hi.pageSize_pos

theorem nPages_lt (hi : Inv m live) : m.nPages < 2 ^ 64 :=
  lt_of_le_of_lt hi.nPages_le (by unfold maxMemorySize; decide)

theorem nAllocatedPages_le (hi : Inv m live) : m.nAllocatedPages ≤ m.nPages := by
  rw [hi.setCount, ← hi.length]
  exact List.count_le_length _ _

theorem nAllocatedPages_add_lt (hi : Inv m live) {count : Nat} (hc : count ≤ m.nPages) :
    m.nAllocatedPages + count < 2 ^ 64 := by
  have h1 := hi.nAllocatedPages_le
  have h2 := hi.nPages_le
  unfold maxMemorySize at h2
  omega

theorem add_le_of_freeRun (hi : Inv m live) {count s : Nat}
    (h : freeRun m.allocated m.nPages count s = true) :
    m.nAllocatedPages + count ≤ m.nPages := by
  obtain ⟨hs, hfree⟩ := freeRun_iff.1 h
  have hmark := (count_markPages true m.allocated s count (hi.length ▸ hs) fun i h1 h2 =>
    hfree i h1 h2).1
  have hle := List.count_le_length true (markPages m.allocated s (s + count) true)
  rw [length_markPages, hi.length] at hle
  rw [hi.setCount]
  omega

theorem init {pageSize memorySize : Nat} (h : PhysMemManager.new pageSize memorySize = .ok m) :
    Inv m [] := by
  unfold PhysMemManager.new at h
  split_ifs at h with hmax
  cases h
  refine ⟨rfl, le_trans (Nat.div_mul_le_self _ _) (not_lt.mp hmax), fun h0 => by simp_all,
    List.length_replicate _ _, fun p => ?_, by simp, by simp [List.count_replicate]⟩
  simp only [List.countP_nil, List.getD_eq_getElem?_getD, List.getElem?_replicate]
  split_ifs <;> simp_all

theorem page_addr_lt (hi : Inv m live) {s : Nat} (hs : s ≤ m.nPages) :
    m.baseAddress + s * m.pageSize < 2 ^ 64 :=
  hi.base ▸ region_page_addr_lt hi.size hs

theorem allocate {count addr : Nat} {m' : PhysMemManager} (hi : Inv m live)
    (hc64 : count < 2 ^ 64) (h : m.allocatePages count = some (addr, m')) :
    Inv m' ((addr, count) :: live) := by
  obtain ⟨s, hrun, hcap, rfl, rfl⟩ := allocatePages_eq_some hc64 hi.nPages_lt h
  obtain ⟨hs, hfree⟩ := freeRun_iff.1 hrun
  have hroom := hi.add_le_of_freeRun hrun
  have hpage : m.pageOf (m.baseAddress + s * m.pageSize) = s :=
    m.pageOf_page (hi.page_addr_lt (by omega)) fun h0 => by have := hi.pageSize_pos h0; omega
  have hmark := (count_markPages true m.allocated s count (hi.length ▸ hs) fun i h1 h2 =>
    hfree i h1 h2).1
  refine ⟨hi.base, hi.size, hi.pageSize_pos, by simp [hi.length], fun p => ?_, fun a ha => ?_, ?_⟩
  · show List.countP (m.holds · p) (_ :: live) = _
    rw [List.countP_cons, hi.cover p, getD_markPages_of_le (hi.length ▸ hs)]
    by_cases hp : s ≤ p ∧ p < s + count
    · rw [hfree p hp.1 hp.2]
      simp [holds, hpage, hp]
    · simp [holds, hpage, hp]
  · rcases List.mem_cons.1 ha with rfl | ha
    · exact hpage.symm ▸ hs
    · exact hi.bound a ha
  · show add64 m.nAllocatedPages count = _
    rw [add64_of_lt (hi.nAllocatedPages_add_lt (by omega)), hi.setCount, hmark]

theorem getD_of_live (hi : Inv m live) {a : Nat × Nat} (ha : a ∈ live) {i : Nat}
    (h1 : m.pageOf a.1 ≤ i) (h2 : i < m.pageOf a.1 + a.2) : m.allocated.getD i false = true := by
  have hc := hi.cover i
  have hpos : 0 < live.countP (m.holds · i) := List.countP_pos_iff.2 ⟨a, ha, decide_eq_true ⟨h1, h2⟩⟩
  by_contra hne
  rw [if_neg hne] at hc
  omega

theorem count_release (hi : Inv m live) {a : Nat × Nat} (ha : a ∈ live) :
    (markPages m.allocated (m.pageOf a.1) (m.pageOf a.1 + a.2) false).count true + a.2 =
      m.allocated.count true :=
  (count_markPages false m.allocated _ a.2 (hi.length ▸ hi.bound a ha) fun _ h1 h2 =>
    hi.getD_of_live ha h1 h2).2

theorem nAllocatedPages_release {a : Nat × Nat} {pre post : List (Nat × Nat)}
    (hi : Inv m (pre ++ a :: post)) :
    (m.releasePages a.1 a.2).nAllocatedPages + a.2 = m.nAllocatedPages := by
  have := hi.count_release (a := a) (by simp)
  show sub64 m.nAllocatedPages a.2 + a.2 = _
  rw [sub64_of_le (by rw [hi.setCount]; omega) (lt_of_le_of_lt hi.nAllocatedPages_le hi.nPages_lt)]
  rw [hi.setCount]
  omega

theorem nAllocatedPages_allocate (hi : Inv m live) {count addr : Nat} {m' : PhysMemManager}
    (hc64 : count < 2 ^ 64) (h : m.allocatePages count = some (addr, m')) :
    m'.nAllocatedPages = m.nAllocatedPages + count := by
  obtain ⟨s, hrun, -, -, rfl⟩ := allocatePages_eq_some hc64 hi.nPages_lt h
  exact add64_of_lt (hi.nAllocatedPages_add_lt (by have := (freeRun_iff.1 hrun).1; omega))

theorem release {a : Nat × Nat} {pre post : List (Nat × Nat)} (hi : Inv m (pre ++ a :: post)) :
    Inv (m.releasePages a.1 a.2) (pre ++ post) := by
  have hb := hi.bound a (by simp)
  have hsplit : ∀ p, (pre ++ a :: post).countP (m.holds · p) =
      (pre ++ post).countP (m.holds · p) + if m.holds a p then 1 else 0 := fun p => by
    simp only [List.countP_append, List.countP_cons]
    omega
  have hend : add64 (m.pageOf a.1) a.2 = m.pageOf a.1 + a.2 :=
    add64_of_lt (lt_of_le_of_lt hb hi.nPages_lt)
  have hcount : sub64 m.nAllocatedPages a.2 + a.2 = m.nAllocatedPages := hi.nAllocatedPages_release
  have hmark := hi.count_release (a := a) (by simp)
  rw [releasePages_eq, hend]
  refine ⟨hi.base, hi.size, hi.pageSize_pos, by simp [hi.length], fun p => ?_,
    fun b hb => hi.bound b (by simp at hb ⊢; tauto), ?_⟩
  · show List.countP (m.holds · p) (pre ++ post) = _
    have hc := hi.cover p
    rw [hsplit p] at hc
    rw [getD_markPages_of_le (hi.length ▸ hb)]
    by_cases hp : m.pageOf a.1 ≤ p ∧ p < m.pageOf a.1 + a.2
    · rw [hi.getD_of_live (by simp) hp.1 hp.2, show m.holds a p = true from decide_eq_true hp] at hc
      rw [if_pos hp]
      simp only [if_true, Bool.false_eq_true, if_false] at hc ⊢
      omega
    · rw [if_neg hp, show m.holds a p = false from decide_eq_false hp] at *
      simp only [Bool.false_eq_true, if_false, Nat.add_zero] at hc
      exact hc
  · show sub64 m.nAllocatedPages a.2 =
      (markPages m.allocated (m.pageOf a.1) (m.pageOf a.1 + a.2) false).count true
    have := hi.setCount
    omega

end Inv

abbrev Runs := Run PhysMemManager.new PhysMemManager.allocatePages PhysMemManager.releasePages

theorem Inv.of_run {m : PhysMemManager} {live : List (Nat × Nat)} {states : List PhysMemManager}
    (h : Runs m live states) : Inv m live := by
  induction h with
  | init _ _ h => exact Inv.init h
  | allocate _ hc h ih => exact ih.allocate hc h
  | reject _ _ _ ih => exact ih
  | release _ ih => exact ih.release

/-! ## Each page handed out once -/

/-- Pages held at most once make the allocations pairwise disjoint. -/
theorem pairwise_disjoint_of_cover {m : PhysMemManager} {live : List (Nat × Nat)}
    (h : ∀ p, live.countP (m.holds · p) ≤ 1) :
    live.Pairwise fun a b => ∀ p, ¬(m.holds a p = true ∧ m.holds b p = true) := by
  induction live with
  | nil => exact .nil
  | cons a live ih =>
    refine .cons (fun b hb p ⟨ha, hbp⟩ => ?_) (ih fun p => ?_)
    · have hpos : 0 < live.countP (m.holds · p) := List.countP_pos_iff.2 ⟨b, hb, hbp⟩
      have := h p
      simp only [List.countP_cons, ha, if_true] at this
      omega
    · have := h p
      simp only [List.countP_cons] at this
      omega

theorem nAllocatedPages_eq_sum {m : PhysMemManager} {live : List (Nat × Nat)}
    {states : List PhysMemManager} (h : Runs m live states) :
    m.nAllocatedPages = (live.map Prod.snd).sum := by
  induction h with
  | init _ _ h => unfold PhysMemManager.new at h; split_ifs at h; cases h; rfl
  | allocate hrun hc h ih =>
    rw [(Inv.of_run hrun).nAllocatedPages_allocate hc h, ih, List.map_cons, List.sum_cons,
      Nat.add_comm]
  | reject _ _ _ ih => exact ih
  | release hrun ih =>
    have := (Inv.of_run hrun).nAllocatedPages_release
    simp only [List.map_append, List.map_cons, List.sum_append, List.sum_cons] at ih ⊢
    omega

/-- Over every run of the bitmap manager no page belongs to two live allocations,
each live allocation lies below `nPages`, and `nAllocatedPages` is the sum of their
counts: an allocation never hands out a page that is still held. -/
theorem bitmap_hands_out_each_page_once {m : PhysMemManager} {live : List (Nat × Nat)}
    {states : List PhysMemManager} (h : Runs m live states) :
    live.Pairwise (fun a b => ∀ p, ¬(m.holds a p = true ∧ m.holds b p = true)) ∧
      (∀ a ∈ live, m.pageOf a.1 + a.2 ≤ m.nPages) ∧
      m.nAllocatedPages = (live.map Prod.snd).sum :=
  have hi := Inv.of_run h
  ⟨pairwise_disjoint_of_cover fun p => by rw [hi.cover p]; split <;> omega, hi.bound,
    nAllocatedPages_eq_sum h⟩

theorem bitmap_hands_out_each_page_once_after_two :
    let m : PhysMemManager :=
      ⟨physMemBase, 4096, 8, 5, 5, [true, true, true, true, true, false, false, false]⟩
    let live := [(physMemBase + 2 * 4096, 3), (physMemBase, 2)]
    Runs m live
        [m, ⟨physMemBase, 4096, 8, 2, 2, [true, true, false, false, false, false, false, false]⟩,
          ⟨physMemBase, 4096, 8, 0, 0, List.replicate 8 false⟩] ∧
      live.Pairwise (fun a b => ∀ p, ¬(m.holds a p = true ∧ m.holds b p = true)) ∧
      (∀ a ∈ live, m.pageOf a.1 + a.2 ≤ m.nPages) ∧
      m.nAllocatedPages = (live.map Prod.snd).sum :=
  have hrun : Runs ⟨physMemBase, 4096, 8, 5, 5, [true, true, true, true, true, false, false, false]⟩
      [(physMemBase + 2 * 4096, 3), (physMemBase, 2)] _ :=
    .allocate (.allocate (.init 4096 (8 * 4096) rfl) (by decide) rfl) (by decide) rfl
  ⟨hrun, bitmap_hands_out_each_page_once hrun⟩

/-- The bitmap manager's high-water law over every run. -/
theorem maxAllocatedPages_high_water {m : PhysMemManager} {live : List (Nat × Nat)}
    {states : List PhysMemManager} (h : Runs m live states) :
    m.getMaxAllocatedPages = (states.map (·.nAllocatedPages)).foldr max 0 ∧
      (states.map (·.getMaxAllocatedPages)).Sorted (· ≥ ·) ∧ m.getMaxAllocatedPages ≤ m.nPages :=
  Run.highWater (·.nPages) (·.nAllocatedPages) getMaxAllocatedPages
    (fun hm => by unfold PhysMemManager.new at hm; split_ifs at hm; cases hm; rfl)
    (fun hm => by
      unfold PhysMemManager.allocatePages at hm
      split_ifs at hm
      split at hm <;> cases hm
      exact ⟨rfl, rfl⟩)
    (fun hrun => ⟨rfl, rfl, Nat.le.intro (Inv.of_run hrun).nAllocatedPages_release⟩)
    (fun hrun => (Inv.of_run hrun).nAllocatedPages_le) h

namespace Inv

variable {m : PhysMemManager} {live : List (Nat × Nat)}

theorem allocatePages_isSome_iff (hi : Inv m live) {count : Nat} (hc : 0 < count)
    (hc64 : count < 2 ^ 64) :
    (m.allocatePages count).isSome ↔ ∃ s, freeRun m.allocated m.nPages count s = true := by
  rw [m.allocatePages_eq hc hc64 hi.nPages_lt]
  constructor
  · intro h
    split_ifs at h
    · cases h
    · rw [Option.isSome_map', lowestFreeRun, Option.isSome_iff_exists] at h
      obtain ⟨s, hs⟩ := h
      exact ⟨s, List.find?_some hs⟩
  · rintro ⟨s, hs⟩
    have hroom := hi.add_le_of_freeRun hs
    have hend := (freeRun_iff.1 hs).1
    rw [if_neg (by rw [add64_of_lt (hi.nAllocatedPages_add_lt (by omega))]; omega), Option.isSome_map',
      lowestFreeRun, List.find?_isSome]
    exact ⟨s, List.mem_range.2 (by omega), hs⟩

/-- A successful allocation of at least one page takes the lowest free run. -/
theorem allocatePages_eq_lowest (hi : Inv m live) {count addr : Nat} {m' : PhysMemManager}
    (hc : 0 < count) (hc64 : count < 2 ^ 64) (h : m.allocatePages count = some (addr, m')) :
    ∃ s, lowestFreeRun m.allocated m.nPages count = some s ∧
      addr = m.baseAddress + s * m.pageSize ∧
      m' = { m with allocated := markPages m.allocated s (s + count) true,
                    nAllocatedPages := add64 m.nAllocatedPages count,
                    maxAllocatedPages := max m.maxAllocatedPages (add64 m.nAllocatedPages count) } := by
  rw [m.allocatePages_eq hc hc64 hi.nPages_lt] at h
  split_ifs at h
  obtain ⟨s, hlow, hs⟩ := Option.map_eq_some'.1 h
  cases hs
  exact ⟨s, hlow, rfl, rfl⟩

end Inv

/-- Over every run of the bitmap manager, `nAllocatedPages` counts the set flags,
and an allocation of `1 ≤ count < 2 ^ 64` pages succeeds exactly when `count` free
pages start at some `s` with `s + count ≤ nPages`.  It then takes the lowest such
`s`, returns its address, sets exactly those flags and adds `count` to the counter.
A failed allocation returns `none`, and the manager stays the state it was called
on. -/
theorem allocatePages_takes_lowest_free_run {m : PhysMemManager} {live : List (Nat × Nat)}
    {states : List PhysMemManager} (h : Runs m live states) :
    m.nAllocatedPages = m.allocated.count true ∧
      ∀ count, 1 ≤ count → count < 2 ^ 64 →
        ((m.allocatePages count).isSome ↔ ∃ s, freeRun m.allocated m.nPages count s = true) ∧
        ∀ addr m', m.allocatePages count = some (addr, m') →
          ∃ s, freeRun m.allocated m.nPages count s = true ∧
            (∀ t < s, freeRun m.allocated m.nPages count t = false) ∧
            addr = m.baseAddress + s * m.pageSize ∧
            m'.allocated.length = m.allocated.length ∧
            (∀ i, m'.allocated.getD i false =
              if s ≤ i ∧ i < s + count then true else m.allocated.getD i false) ∧
            m'.nAllocatedPages = m.nAllocatedPages + count := by
  have hi := Inv.of_run h
  refine ⟨hi.setCount, fun count hc hc64 =>
    ⟨hi.allocatePages_isSome_iff hc hc64, fun addr m' ha => ?_⟩⟩
  obtain ⟨s, hlow, rfl, rfl⟩ := hi.allocatePages_eq_lowest hc hc64 ha
  obtain ⟨hrun, -, hmin⟩ := List.find?_range_eq_some.1 hlow
  have hend := (freeRun_iff.1 hrun).1
  refine ⟨s, hrun, fun t ht => by simpa using hmin t ht, rfl, length_markPages, fun i => ?_, ?_⟩
  · exact getD_markPages_of_le (hi.length ▸ hend) i
  · exact hi.nAllocatedPages_allocate hc64 ha

theorem allocatePages_takes_lowest_free_run_after_one :
    let m : PhysMemManager :=
      ⟨physMemBase, 4096, 8, 2, 2, [true, true, false, false, false, false, false, false]⟩
    Runs m [(physMemBase, 2)] [m, ⟨physMemBase, 4096, 8, 0, 0, List.replicate 8 false⟩] ∧
      m.nAllocatedPages = m.allocated.count true ∧
      ∀ count, 1 ≤ count → count < 2 ^ 64 →
        ((m.allocatePages count).isSome ↔ ∃ s, freeRun m.allocated m.nPages count s = true) ∧
        ∀ addr m', m.allocatePages count = some (addr, m') →
          ∃ s, freeRun m.allocated m.nPages count s = true ∧
            (∀ t < s, freeRun m.allocated m.nPages count t = false) ∧
            addr = m.baseAddress + s * m.pageSize ∧
            m'.allocated.length = m.allocated.length ∧
            (∀ i, m'.allocated.getD i false =
              if s ≤ i ∧ i < s + count then true else m.allocated.getD i false) ∧
            m'.nAllocatedPages = m.nAllocatedPages + count :=
  have hrun : Runs ⟨physMemBase, 4096, 8, 2, 2, [true, true, false, false, false, false, false, false]⟩
      [(physMemBase, 2)] _ := .allocate (.init 4096 (8 * 4096) rfl) (by decide) rfl
  ⟨hrun, allocatePages_takes_lowest_free_run hrun⟩

end PageTables.Bitmap
