import PageTables.PhysMem.Basic

/-!
# The sorted hole list of `phys_mem_manager.h`

`PhysMemManager` of `phys_mem_manager.h` and `unnamed/part_002`: a `std::list` of
holes of bytes, first fit on allocation.  `release` inserts the returned range
before the first hole that starts above it and then merges.  The list iterator
`it` of the insertion loop still names the hole it named before the insertion, the
successor of the new hole, so `std::prev(it)` is the new hole itself and
`std::next(it)` the hole after the successor.  Positions stand for iterators,
`holes.length` for `end()`.

`release` returns `none` where the code has undefined behaviour: `std::next` of
`end()`, or `erase(end())`.
-/

namespace PageTables.SortedList

structure MemoryHole where
  start : Nat
  size : Nat
deriving DecidableEq, Repr

structure PhysMemManager where
  holes : List MemoryHole
deriving DecidableEq, Repr

/-- The loop of `allocate`: the first hole that is large enough gives its first
bytes, and goes when nothing is left of it. -/
def allocateFrom (size : Nat) : List MemoryHole → Option (Nat × List MemoryHole)
  | [] => none
  | h :: holes =>
    if h.size ≥ size then
      some (h.start,
        if h.size > size then ⟨add64 h.start size, h.size - size⟩ :: holes else holes)
    else (allocateFrom size holes).map fun r => (r.1, h :: r.2)

namespace PhysMemManager

def new : PhysMemManager := ⟨[⟨0, 2 ^ 40⟩]⟩

/-- `allocate`: the address, or the `std::bad_alloc` it throws. -/
def allocate (m : PhysMemManager) (size : Nat) : Except String (Nat × PhysMemManager) :=
  match allocateFrom size m.holes with
  | some (address, holes) => .ok (address, ⟨holes⟩)
  | none => .error "std::bad_alloc"

/-- The merge with `prev`: when it ends at `address`, it absorbs the released
size and the hole at `it` is erased. -/
def mergePrev (holes : List MemoryHole) (prevPos itPos address size : Nat) :
    Option (List MemoryHole × Nat) :=
  match holes[prevPos]? with
  | some prev =>
    if add64 prev.start prev.size = address then
      if itPos < holes.length then
        some ((holes.set prevPos { prev with size := add64 prev.size size }).eraseIdx itPos,
          prevPos)
      else none
    else some (holes, itPos)
  | none => some (holes, itPos)

/-- The merge with `next = std::next(it)`: when `it` ends where `next` starts, it
absorbs `next`. -/
def mergeNext (holes : List MemoryHole) (itPos : Nat) : Option (List MemoryHole) :=
  match holes[itPos]? with
  | none => none
  | some it =>
    match holes[itPos + 1]? with
    | some next =>
      if add64 it.start it.size = next.start then
        some ((holes.set itPos { it with size := add64 it.size next.size }).eraseIdx (itPos + 1))
      else some holes
    | none => some holes

def release (m : PhysMemManager) (address size : Nat) : Option PhysMemManager := do
  let pos := m.holes.findIdx fun h => decide (h.start > address)
  let holes := m.holes.insertIdx pos ⟨address, size⟩
  let itPos := pos + 1
  let prevPos := if itPos = 0 then itPos else itPos - 1
  let r ← mergePrev holes prevPos itPos address size
  let holes ← mergeNext r.1 r.2
  pure ⟨holes⟩

end PhysMemManager

/-- After `allocate(1)` at address 0, `release(0, 1)` inserts `{0, 1}` before
`{1, 2^40 - 1}` and merges neither with the other: the merge test with `prev` reads
the new hole itself, and the one with `next` compares `{1, 2^40 - 1}` with what
follows it.  Every allocation is released, and `allocate(2^40)` throws. -/
theorem release_leaves_touching_holes :
    ∃ m1 m2, PhysMemManager.new.allocate 1 = .ok (0, m1) ∧ m1.release 0 1 = some m2 ∧
      m2.holes = [⟨0, 1⟩, ⟨1, 2 ^ 40 - 1⟩] ∧
      m2.allocate (2 ^ 40) = .error "std::bad_alloc" :=
  ⟨_, _, rfl, rfl, rfl, rfl⟩

/-- Two releases of live allocations that the merge gets wrong.  After `allocate(2^40)`
takes the whole hole, `release(0, 2^40)` inserts the only hole and then steps
`std::next` past `end()`.  And a zero-size allocation at the start of a hole, once
released, passes the merge test with `prev` (it is `prev` itself, and ends where it
starts), so the hole after it is erased: `{5, 2^40 - 5}` is lost, and the holes sum
to 2 where the free bytes are `2^40 - 3`. -/
theorem release_erases_or_steps_past_end :
    PhysMemManager.new.allocate (2 ^ 40) = .ok (0, ⟨[]⟩) ∧
      (⟨[]⟩ : PhysMemManager).release 0 (2 ^ 40) = none ∧
      ∃ m1 m2 m3 m4, PhysMemManager.new.allocate 2 = .ok (0, m1) ∧
        m1.allocate 3 = .ok (2, m2) ∧ m2.release 0 2 = some m3 ∧
        m3.holes = [⟨0, 2⟩, ⟨5, 2 ^ 40 - 5⟩] ∧ m3.allocate 0 = .ok (0, m3) ∧
        m3.release 0 0 = some m4 ∧ m4.holes = [⟨0, 2⟩, ⟨0, 0⟩] :=
  ⟨rfl, rfl, _, _, _, _, rfl, rfl, rfl, rfl, rfl, rfl, rfl⟩

/-! ## The kernel of `hw/mmu.cc`

`OSKernel` of `os_kernel.h` records the physical pages of each process and takes
them from this manager, asking `allocate(1)` for each page: one byte. -/

/-- `OSKernel` of `os_kernel.h`: the pages of each process (`none` where the map
has no key) and the manager. -/
structure OSKernel where
  processPages : Nat → Option (List Nat)
  physMemManager : PhysMemManager

namespace OSKernel

def new : OSKernel := ⟨fun _ => none, PhysMemManager.new⟩

def pushPage (pages : Nat → Option (List Nat)) (processID address : Nat) :
    Nat → Option (List Nat) :=
  Function.update pages processID (some ((pages processID).getD [] ++ [address]))

/-- `OSKernel::allocatePage`: `allocate(1)`, the address recorded for the process;
the mapping at `virtualAddress` is not made. -/
def allocatePage (k : OSKernel) (processID _virtualAddress : Nat) : Except String OSKernel := do
  let r ← k.physMemManager.allocate 1
  pure ⟨pushPage k.processPages processID r.1, r.2⟩

/-- `OSKernel::terminateProcess`: `release(address, 1)` for each page of the
process in order, and the process erased; `none` where a release has undefined
behaviour. -/
def terminateProcess (k : OSKernel) (processID : Nat) : Option OSKernel :=
  match k.processPages processID with
  | none => some k
  | some pages => do
    let physMemManager ← pages.foldlM (fun m address => m.release address 1) k.physMemManager
    pure ⟨Function.update k.processPages processID none, physMemManager⟩

/-- The page lists after calls of `allocatePage` by the processes `pids`, the
`i`-th of which is handed the address `start + i`. -/
def bumpPages (pages : Nat → Option (List Nat)) (start : Nat) :
    List Nat → Nat → Option (List Nat)
  | [] => pages
  | pid :: pids => bumpPages (pushPage pages pid start) (start + 1) pids

theorem allocatePage_of_hole (k : OSKernel) {a : Nat}
    (hk : k.physMemManager.holes = [⟨a, 2 ^ 40 - a⟩]) (ha : a + 1 < 2 ^ 40)
    (processID virtualAddress : Nat) :
    k.allocatePage processID virtualAddress =
      .ok ⟨pushPage k.processPages processID a, ⟨[⟨a + 1, 2 ^ 40 - (a + 1)⟩]⟩⟩ := by
  have hsize : 2 ^ 40 - a > 1 := by omega
  have hstart : add64 a 1 = a + 1 := add64_of_lt (by omega)
  simp only [allocatePage, PhysMemManager.allocate, hk, allocateFrom, if_pos hsize.le,
    if_pos hsize, hstart, Nat.sub_sub]
  rfl

/-- Calls of `allocatePage` from a single hole `[a, 2^40)` hand out the bytes
`a, a + 1, ...` in order and leave the hole above them. -/
theorem allocatePage_run (calls : List (Nat × Nat)) :
    ∀ (k : OSKernel) (a : Nat), k.physMemManager.holes = [⟨a, 2 ^ 40 - a⟩] →
      a + calls.length < 2 ^ 40 →
      calls.foldlM (fun k c => k.allocatePage c.1 c.2) k =
        .ok ⟨bumpPages k.processPages a (calls.map Prod.fst) ,
          ⟨[⟨a + calls.length, 2 ^ 40 - (a + calls.length)⟩]⟩⟩ := by
  induction calls with
  | nil => exact fun ⟨_, ⟨_⟩⟩ _ hk _ => by subst hk; rfl
  | cons c calls ih =>
    intro k a hk ha
    rw [List.length_cons] at ha ⊢
    rw [List.foldlM_cons, allocatePage_of_hole k hk (by omega),
      show a + (calls.length + 1) = a + 1 + calls.length by omega]
    exact ih _ (a + 1) rfl (by omega)

end OSKernel

/-- From boot, each of fewer than `2^40` calls of `allocatePage` succeeds and hands
out one byte, the next one: the `i`-th call records the address `i` for its
process, so the pages of two calls overlap in all but one byte. -/
theorem allocatePage_hands_out_consecutive_bytes (calls : List (Nat × Nat))
    (h : calls.length < 2 ^ 40) :
    calls.foldlM (fun k c => k.allocatePage c.1 c.2) OSKernel.new =
      .ok ⟨OSKernel.bumpPages (fun _ => none) 0 (calls.map Prod.fst),
        ⟨[⟨calls.length, 2 ^ 40 - calls.length⟩]⟩⟩ := by
  simpa using OSKernel.allocatePage_run calls OSKernel.new 0 rfl (by simpa using h)

/-- Two processes, one page each: bytes 0 and 1. -/
theorem two_processes_share_a_page :
    [(1, 0), (2, 0)].length < 2 ^ 40 ∧
      [(1, 0), (2, 0)].foldlM (fun k c => k.allocatePage c.1 c.2) OSKernel.new =
        .ok ⟨OSKernel.bumpPages (fun _ => none) 0 [1, 2], ⟨[⟨2, 2 ^ 40 - 2⟩]⟩⟩ :=
  ⟨by decide, allocatePage_hands_out_consecutive_bytes _ (by decide)⟩

example : OSKernel.bumpPages (fun _ => none) 0 [1, 2] 1 = some [0] ∧
    OSKernel.bumpPages (fun _ => none) 0 [1, 2] 2 = some [1] := by
  decide

end PageTables.SortedList
