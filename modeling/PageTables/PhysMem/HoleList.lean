import PageTables.PhysMem.Basic

/-!
# The hole-list physical memory manager

`PhysMemManager` of `pagetables-base-2024/os/physmemmanager.cc`.  Free memory is
a `std::list` of holes, each a first page and a page count.  Allocation is first
fit in list order; `splitHole` erases the chosen hole and appends what is left of
it at the tail.  Release appends the returned range as a hole, sorts the list by
first page and merges holes that touch.
-/

namespace PageTables.HoleList

structure Hole where
  startPage : Nat
  count : Nat
deriving DecidableEq, Repr

structure PhysMemManager where
  baseAddress : Nat
  pageSize : Nat
  nPages : Nat
  nAllocatedPages : Nat
  maxAllocatedPages : Nat
  holes : List Hole
deriving DecidableEq, Repr

def findFit (count : Nat) : List Hole → Option Nat
  | [] => none
  | h :: holes => if h.count ≥ count then some 0 else (findFit count holes).map (· + 1)

/-- `splitHole`: erase the hole at position `i` and append what remains of it
on either side of the pages `startPage .. startPage + count - 1`. -/
def splitHole (holes : List Hole) (i startPage count : Nat) : List Hole :=
  let originalHole := holes.getD i ⟨0, 0⟩
  let holes := holes.eraseIdx i
  let holes := if startPage > originalHole.startPage then
      holes ++ [⟨originalHole.startPage, startPage - originalHole.startPage⟩] else holes
  let endPage := startPage + count
  let originalEndPage := originalHole.startPage + originalHole.count
  if endPage < originalEndPage then holes ++ [⟨endPage, originalEndPage - endPage⟩]
  else holes

def addHole (holes : List Hole) (startPage count : Nat) : List Hole :=
  holes ++ [⟨startPage, count⟩]

/-- The loop of `mergeHoles`, with the iterator at hole `a` and `rest` the holes
after it: the next hole is folded into `a` when `a` ends where it begins, and `a`
is then tested again. -/
def mergeFrom (a : Hole) : List Hole → List Hole
  | [] => [a]
  | b :: rest =>
      if a.startPage + a.count = b.startPage then
        mergeFrom ⟨a.startPage, a.count + b.count⟩ rest
      else a :: mergeFrom b rest

def mergeAdjacent : List Hole → List Hole
  | [] => []
  | a :: rest => mergeFrom a rest

def startOrder (a b : Hole) : Prop := a.startPage ≤ b.startPage

instance : DecidableRel startOrder := fun _ _ => inferInstanceAs (Decidable (_ ≤ _))

/-- `mergeHoles`: `std::list::sort` by first page, then the merge loop.  The list
sort is stable, and so is `List.insertionSort`: both give the one stable order. -/
def mergeHoles (holes : List Hole) : List Hole :=
  mergeAdjacent (holes.insertionSort startOrder)

namespace PhysMemManager

/-- The constructor: the circuit breaker, then one hole over every page.
`mmap` with `MAP_FIXED` places the region at `physMemBase`. -/
def new (pageSize memorySize : Nat) : Except String PhysMemManager :=
  if memorySize > maxMemorySize then
    .error "automatic protection: attempted to allocate more than 2 GiB of memory."
  else
    .ok { baseAddress := physMemBase, pageSize, nPages := memorySize / pageSize,
          nAllocatedPages := 0, maxAllocatedPages := 0,
          holes := [⟨0, memorySize / pageSize⟩] }

/-- `allocatePages`: `none` where the code returns `false`, leaving the state as
it was; otherwise the address written to `addr` and the new state. -/
def allocatePages (m : PhysMemManager) (count : Nat) : Option (Nat × PhysMemManager) :=
  if add64 m.nAllocatedPages count > m.nPages then none
  else match findFit count m.holes with
    | none => none
    | some i =>
        let startPage := (m.holes.getD i ⟨0, 0⟩).startPage
        let nAllocatedPages := add64 m.nAllocatedPages count
        some (m.baseAddress + startPage * m.pageSize,
          { m with holes := splitHole m.holes i startPage count, nAllocatedPages,
                   maxAllocatedPages := max m.maxAllocatedPages nAllocatedPages })

def releasePages (m : PhysMemManager) (addr count : Nat) : PhysMemManager :=
  let startPage := sub64 addr m.baseAddress / m.pageSize
  { m with holes := mergeHoles (addHole m.holes startPage count),
           nAllocatedPages := sub64 m.nAllocatedPages count }

@[simp] theorem releasePages_holes (m : PhysMemManager) (addr count : Nat) :
    (m.releasePages addr count).holes =
      mergeHoles (addHole m.holes (sub64 addr m.baseAddress / m.pageSize) count) := rfl

@[simp] theorem releasePages_nPages (m : PhysMemManager) (addr count : Nat) :
    (m.releasePages addr count).nPages = m.nPages := rfl

@[simp] theorem releasePages_baseAddress (m : PhysMemManager) (addr count : Nat) :
    (m.releasePages addr count).baseAddress = m.baseAddress := rfl

@[simp] theorem releasePages_pageSize (m : PhysMemManager) (addr count : Nat) :
    (m.releasePages addr count).pageSize = m.pageSize := rfl

@[simp] theorem releasePages_nAllocatedPages (m : PhysMemManager) (addr count : Nat) :
    (m.releasePages addr count).nAllocatedPages = sub64 m.nAllocatedPages count := rfl

def allReleased (m : PhysMemManager) : Bool := m.nAllocatedPages = 0

def getMaxAllocatedPages (m : PhysMemManager) : Nat := m.maxAllocatedPages

/-- The pages of an allocation `(addr, count)`, as `releasePages` computes them. -/
def allocation (m : PhysMemManager) (a : Nat × Nat) : Hole :=
  ⟨sub64 a.1 m.baseAddress / m.pageSize, a.2⟩

@[simp] theorem releasePages_allocation (m : PhysMemManager) (addr count : Nat) :
    (m.releasePages addr count).allocation = m.allocation := rfl

@[simp] theorem count_allocation (m : PhysMemManager) (a : Nat × Nat) :
    (m.allocation a).count = a.2 := rfl

end PhysMemManager

open PhysMemManager

/-- Runs of the manager from its construction, with the allocations handed out
and not yet released.  Each allocation asks for at least `minCount` pages and
each release names a live allocation.  A failed allocation leaves the state as
it was, so it needs no step of its own. -/
inductive Reachable (minCount : Nat) : PhysMemManager → List (Nat × Nat) → Prop
  | init {m : PhysMemManager} (pageSize memorySize : Nat) :
      PhysMemManager.new pageSize memorySize = .ok m → Reachable minCount m []
  | allocate {m m' : PhysMemManager} {live : List (Nat × Nat)} {count addr : Nat} :
      Reachable minCount m live → minCount ≤ count →
      m.allocatePages count = some (addr, m') → Reachable minCount m' ((addr, count) :: live)
  | release {m : PhysMemManager} {pre post : List (Nat × Nat)} {a : Nat × Nat} :
      Reachable minCount m (pre ++ a :: post) →
      Reachable minCount (m.releasePages a.1 a.2) (pre ++ post)

end PageTables.HoleList
