import PageTables.PhysMem.Basic

/-!
# The bitmap physical memory manager

`PhysMemManager` of `os/physmemmanager.cc`: one flag per page in
`std::vector<bool> allocated`.  `allocatePages` scans the pages from the lowest;
at a free page it tests whether the next `count` pages are free, and after a failed
test it resumes behind the page that stopped it.  It therefore returns the
lowest-addressed run of `count` free pages, `lowestFreeRun`; `allocatePages_eq`
says so.

The sums `start + count` of the scan and `index + count` of the release are
`size_t` sums and wrap (`add64`); a count near `2 ^ 64` makes the test bound fall
below `start`, and the scan then never accepts a run.  A write past the end of the
vector (a release of pages that were never handed out) is dropped.
-/

namespace PageTables.Bitmap

structure PhysMemManager where
  baseAddress : Nat
  pageSize : Nat
  nPages : Nat
  nAllocatedPages : Nat
  maxAllocatedPages : Nat
  allocated : List Bool
deriving DecidableEq, Repr

/-- The pages `lo .. hi - 1` set to `value`, the loops of `allocatePages` and
`releasePages`. -/
def markPages (allocated : List Bool) (lo hi : Nat) (value : Bool) : List Bool :=
  allocated.mapIdx fun i b => if lo ≤ i ∧ i < hi then value else b

/-- The test loop of `allocatePages`, from `index`: the first allocated page before
both `start + count` (a `size_t` sum) and `nPages`, or the index where a bound stops
it. -/
def testRun (allocated : List Bool) (nPages start count : Nat) : Nat → Nat → Nat
  | 0, index => index
  | fuel + 1, index =>
    if index < add64 start count ∧ index < nPages then
      if allocated.getD index false = true then index
      else testRun allocated nPages start count fuel (index + 1)
    else index

/-- The outer loop of `allocatePages`, from `index`: the first page of the run it
finds. -/
def findRun (allocated : List Bool) (nPages count : Nat) : Nat → Nat → Option Nat
  | 0, _ => none
  | fuel + 1, index =>
    if index < nPages then
      if allocated.getD index false = false then
        let next := testRun allocated nPages index count count index
        if next = add64 index count then some index
        else findRun allocated nPages count fuel (next + 1)
      else findRun allocated nPages count fuel (index + 1)
    else none

namespace PhysMemManager

/-- The constructor: the circuit breaker, then every page free.  `mmap` with
`MAP_FIXED` places the region at `physMemBase`. -/
def new (pageSize memorySize : Nat) : Except String PhysMemManager :=
  if memorySize > maxMemorySize then
    .error "automatic protection: attempted to allocate more than 2 GiB of memory."
  else
    .ok { baseAddress := physMemBase, pageSize, nPages := memorySize / pageSize,
          nAllocatedPages := 0, maxAllocatedPages := 0,
          allocated := List.replicate (memorySize / pageSize) false }

/-- `allocatePages`: `none` where the code returns `false`, leaving the state as it
was; otherwise the address written to `addr` and the new state. -/
def allocatePages (m : PhysMemManager) (count : Nat) : Option (Nat × PhysMemManager) :=
  if add64 m.nAllocatedPages count > m.nPages then none
  else match findRun m.allocated m.nPages count (m.nPages + 1) 0 with
    | none => none
    | some start =>
      let nAllocatedPages := add64 m.nAllocatedPages count
      some (m.baseAddress + start * m.pageSize,
        { m with allocated := markPages m.allocated start (add64 start count) true,
                 nAllocatedPages,
                 maxAllocatedPages := max m.maxAllocatedPages nAllocatedPages })

def releasePages (m : PhysMemManager) (addr count : Nat) : PhysMemManager :=
  let index := sub64 addr m.baseAddress / m.pageSize
  { m with allocated := markPages m.allocated index (add64 index count) false,
           nAllocatedPages := sub64 m.nAllocatedPages count }

def allReleased (m : PhysMemManager) : Bool := m.nAllocatedPages = 0

def getMaxAllocatedPages (m : PhysMemManager) : Nat := m.maxAllocatedPages

def runOps : List MemOp → PhysMemManager → List (Option Nat)
  | [], _ => []
  | .allocatePages count :: ops, m =>
    match m.allocatePages count with
    | some (addr, m') => some addr :: runOps ops m'
    | none => none :: runOps ops m
  | .releasePages addr count :: ops, m => runOps ops (m.releasePages addr count)

end PhysMemManager

/-! ## The scan finds the lowest free run -/

def freeRun (allocated : List Bool) (nPages count s : Nat) : Bool :=
  decide (s + count ≤ nPages) && (List.range' s count).all fun i => !allocated.getD i false

/-- The lowest-addressed run of `count` free pages. -/
def lowestFreeRun (allocated : List Bool) (nPages count : Nat) : Option Nat :=
  (List.range nPages).find? (freeRun allocated nPages count)

section Scan

variable {allocated : List Bool} {nPages count : Nat}

theorem freeRun_iff {s : Nat} :
    freeRun allocated nPages count s = true ↔
      s + count ≤ nPages ∧
        ∀ i, s ≤ i → i < s + count → allocated.getD i false = false := by
  simp only [freeRun, Bool.and_eq_true, decide_eq_true_eq, List.all_eq_true, List.mem_range',
    Bool.not_eq_true']
  constructor
  · rintro ⟨h, hall⟩
    exact ⟨h, fun i hi hi' => hall i ⟨i - s, by omega, by simp; omega⟩⟩
  · rintro ⟨h, hall⟩
    exact ⟨h, fun i ⟨j, hj, hi⟩ => hall i (by simp at hi; omega) (by simp at hi; omega)⟩

theorem testRun_spec {start : Nat} (hw : start + count < 2 ^ 64) :
    ∀ fuel index, start ≤ index → index ≤ start + count → index ≤ nPages →
      start + count ≤ index + fuel →
      (∀ i, start ≤ i → i < index → allocated.getD i false = false) →
      let j := testRun allocated nPages start count fuel index
      index ≤ j ∧ (∀ i, start ≤ i → i < j → allocated.getD i false = false) ∧
        (j = start + count ∧ j ≤ nPages ∨
          j < start + count ∧ (nPages ≤ j ∨ j < nPages ∧ allocated.getD j false = true))
  | 0, index, _, hc, hn, hf, hfree => by
    simp only [testRun]
    exact ⟨le_rfl, hfree, .inl ⟨by omega, by omega⟩⟩
  | fuel + 1, index, hs, hc, hn, hf, hfree => by
    simp only [testRun, add64_of_lt hw]
    split_ifs with hb ha
    · exact ⟨le_rfl, hfree, .inr ⟨hb.1, .inr ⟨hb.2, ha⟩⟩⟩
    · have ha' : allocated.getD index false = false := by simpa using ha
      obtain ⟨hle, hj, hend⟩ := testRun_spec hw fuel (index + 1) (by omega) (by omega) (by omega)
        (by omega) fun i hi hi' => if h : i < index then hfree i hi h else by
          rwa [show i = index by omega]
      exact ⟨by omega, hj, hend⟩
    · refine ⟨le_rfl, hfree, ?_⟩
      by_cases hi : index = start + count
      · exact .inl ⟨hi, by omega⟩
      · exact .inr ⟨by omega, .inl (by omega)⟩

theorem find?_range'_skip {p : Nat → Bool} {a b n : Nat} (hab : a ≤ b) (hb : b ≤ a + n)
    (hskip : ∀ s, a ≤ s → s < b → p s = false) :
    (List.range' a n).find? p = (List.range' b (a + n - b)).find? p := by
  have hsplit := List.range'_append a (b - a) (a + n - b) 1
  rw [show a + 1 * (b - a) = b by omega, show a + n - b + (b - a) = n by omega] at hsplit
  rw [← hsplit, List.find?_append, List.find?_eq_none.2 fun s hs => ?_, Option.none_or]
  rw [List.mem_range'_1] at hs
  simp [hskip s hs.1 (by omega)]

theorem testRun_of_wrap {start : Nat} (hc : 0 < count) (hc64 : count < 2 ^ 64)
    (hs : start < 2 ^ 64) (hw : 2 ^ 64 ≤ start + count) :
    testRun allocated nPages start count count start = start ∧ start ≠ add64 start count := by
  have hwrap : add64 start count = start + count - 2 ^ 64 := by
    unfold add64
    rw [Nat.mod_eq_sub_mod hw, Nat.mod_eq_of_lt (by omega)]
  obtain ⟨c, rfl⟩ : ∃ c, count = c + 1 := ⟨count - 1, by omega⟩
  refine ⟨?_, by omega⟩
  simp only [testRun, hwrap]
  rw [if_neg (by omega)]

/-- The outer loop returns the lowest free run from `index` on. -/
theorem findRun_eq (hc : 0 < count) (hc64 : count < 2 ^ 64) (hn : nPages < 2 ^ 64) :
    ∀ fuel index, nPages - index < fuel →
      findRun allocated nPages count fuel index =
        (List.range' index (nPages - index)).find? (freeRun allocated nPages count)
  | 0, _, h => absurd h (Nat.not_lt_zero _)
  | fuel + 1, index, h => by
    simp only [findRun]
    by_cases hi : index < nPages
    · have hcons : List.range' index (nPages - index) =
          index :: List.range' (index + 1) (nPages - (index + 1)) := by
        rw [show nPages - index = nPages - (index + 1) + 1 by omega]
        rfl
      have hskip : freeRun allocated nPages count index = false →
          findRun allocated nPages count fuel (index + 1) =
            (List.range' index (nPages - index)).find? (freeRun allocated nPages count) := by
        intro hrun
        rw [findRun_eq hc hc64 hn fuel (index + 1) (by omega), hcons, List.find?_cons, hrun]
      rw [if_pos hi]
      by_cases ha : allocated.getD index false = false
      · rw [if_pos ha]
        by_cases hw : index + count < 2 ^ 64
        · obtain ⟨hle, hfree, hend⟩ := @testRun_spec allocated nPages count index hw count index
            le_rfl (by omega) hi.le (by omega) fun i h1 h2 => absurd h1 (by omega)
          set j := testRun allocated nPages index count count index
          rw [add64_of_lt hw]
          rcases hend with ⟨hj, hjn⟩ | ⟨hj, hstop⟩
          · have hrun : freeRun allocated nPages count index = true :=
              freeRun_iff.2 ⟨by omega, fun i h1 h2 => hfree i h1 (by omega)⟩
            simp only [hj, if_true, hcons, List.find?_cons, hrun]
          · rw [if_neg (by omega)]
            rcases hstop with hn' | hj'
            · have hnone : (List.range' index (nPages - index)).find?
                  (freeRun allocated nPages count) = none :=
                List.find?_eq_none.2 fun s hs hrun => by
                  rw [List.mem_range'_1] at hs
                  have := (freeRun_iff.1 hrun).1
                  omega
              rw [hnone]
              cases fuel with
              | zero => rfl
              | succ fuel => simp only [findRun]; rw [if_neg (by omega)]
            · obtain ⟨hjn, hj'⟩ := hj'
              have hskip := @find?_range'_skip (freeRun allocated nPages count) index (j + 1)
                (nPages - index) (by omega) (by omega) fun s (h1 : index ≤ s) (h2 : s < j + 1) => by
                  by_contra hrun
                  have := (freeRun_iff.1 (by simpa using hrun)).2 j (by omega) (by omega)
                  rw [hj'] at this
                  exact absurd this (by simp)
              rw [findRun_eq hc hc64 hn fuel (j + 1) (by omega), hskip,
                show index + (nPages - index) - (j + 1) = nPages - (j + 1) by omega]
        · obtain ⟨hnext, hne⟩ := @testRun_of_wrap allocated nPages count index hc hc64 (by omega)
            (by omega)
          rw [hnext, if_neg hne]
          exact hskip (by
            by_contra hrun
            have := (freeRun_iff.1 (by simpa using hrun)).1
            omega)
      · rw [if_neg ha]
        exact hskip (by
          by_contra hrun
          exact ha ((freeRun_iff.1 (by simpa using hrun)).2 index le_rfl (by omega)))
    · rw [if_neg hi, show nPages - index = 0 by omega]
      rfl

theorem findRun_some (hc64 : count < 2 ^ 64) (hn : nPages < 2 ^ 64) :
    ∀ fuel index s, findRun allocated nPages count fuel index = some s →
      freeRun allocated nPages count s = true
  | 0, _, _, h => by simp [findRun] at h
  | fuel + 1, index, s, h => by
    simp only [findRun] at h
    split_ifs at h with hi ha hnext
    · cases h
      by_cases hw : index + count < 2 ^ 64
      · obtain ⟨-, hfree, hend⟩ := @testRun_spec allocated nPages count index hw count index
          le_rfl (by omega) hi.le (by omega) fun i h1 h2 => absurd h1 (by omega)
        rw [add64_of_lt hw] at hnext
        rw [hnext] at hfree hend
        exact freeRun_iff.2 ⟨by omega, fun i h1 h2 => hfree i h1 h2⟩
      · have hwrap : add64 index count = index + count - 2 ^ 64 := by
          unfold add64
          rw [Nat.mod_eq_sub_mod (by omega), Nat.mod_eq_of_lt (by omega)]
        obtain ⟨c, rfl⟩ : ∃ c, count = c + 1 := ⟨count - 1, by omega⟩
        simp only [testRun, hwrap] at hnext
        rw [if_neg (by omega)] at hnext
        omega
    · exact findRun_some hc64 hn fuel _ s h
    · exact findRun_some hc64 hn fuel _ s h

end Scan

namespace PhysMemManager

/-- `allocatePages` hands out the lowest-addressed free run. -/
theorem allocatePages_eq (m : PhysMemManager) {count : Nat} (hc : 0 < count)
    (hc64 : count < 2 ^ 64) (hn : m.nPages < 2 ^ 64) :
    m.allocatePages count =
      if add64 m.nAllocatedPages count > m.nPages then none
      else (lowestFreeRun m.allocated m.nPages count).map fun start =>
        (m.baseAddress + start * m.pageSize,
          { m with allocated := markPages m.allocated start (start + count) true,
                   nAllocatedPages := add64 m.nAllocatedPages count,
                   maxAllocatedPages :=
                     max m.maxAllocatedPages (add64 m.nAllocatedPages count) }) := by
  unfold allocatePages lowestFreeRun
  rw [findRun_eq hc hc64 hn _ 0 (by omega), List.range_eq_range', Nat.sub_zero]
  split_ifs
  · rfl
  · cases hfind : (List.range' 0 m.nPages).find? (freeRun m.allocated m.nPages count) with
    | none => rfl
    | some start =>
      have := (freeRun_iff.1 (List.find?_some hfind)).1
      simp only [Option.map_some', add64_of_lt (show start + count < 2 ^ 64 by omega)]

end PhysMemManager

end PageTables.Bitmap
