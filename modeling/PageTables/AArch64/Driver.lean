import PageTables.AArch64.Walk

/-!
# The AArch64 page-table driver

`AArch64MMUDriver` of `arch/aarch64/driver.cc`.  The driver keeps one four-level
tree per process: a 2-entry root and 2048-entry tables below it, each obtained
from the host kernel's `allocateMemory` and cleared with `memset`.  `setMapping`
walks the tree for an address, creating the tables that are missing, and fills
the leaf; `setPageValid` flips the valid bit of a leaf through the pointer
`setMapping` left in the physical page's `driverData`; `releasePageTable` hands
every table of a tree back to the kernel.

The kernel is an oracle: `next` lists the addresses its coming `allocateMemory`
calls return, and `live` records the blocks handed to the driver and not yet
taken back.  The kernel's contract, `OSKernel.Supplies`, is a hypothesis of the
runs, not a property of the model.

`DriverSpec` says what the driver is for: a map from virtual to physical page
numbers for each process, and for each physical page handle the mapping it was
last installed for.
-/

namespace PageTables.AArch64

/-- Modelled from the spec: the kernel's record of a physical page.  `driverData`
holds the address of the leaf entry `setMapping` filled for it, zero for none. -/
structure PhysPage where
  addr : Nat
  driverData : Nat
deriving DecidableEq, Repr

/-- Modelled from the spec: the host kernel as the driver sees it.  `live` holds
the blocks `allocateMemory` handed to the driver and `releaseMemory` has not taken
back, with their sizes; `next i` is the address the `i`-th coming `allocateMemory`
returns; `pages` are the kernel's physical page records. -/
structure OSKernel where
  live : List (Nat × Nat)
  next : Nat → Nat
  pages : Nat → PhysPage

namespace OSKernel

def allocateMemory (k : OSKernel) (size : Nat) : Nat × OSKernel :=
  (k.next 0, { k with live := (k.next 0, size) :: k.live, next := fun i => k.next (i + 1) })

def setPage (k : OSKernel) (page : Nat) (pPage : PhysPage) : OSKernel :=
  { k with pages := Function.update k.pages page pPage }

def releaseMemory (k : OSKernel) (address size : Nat) : OSKernel :=
  { k with live := k.live.erase (address, size) }

/-- The allocator contract of the spec, for the next `n` calls of `allocateMemory`:
each returns a non-null, 16 KiB-aligned block below `2 ^ 48`, apart from every
block the driver holds and from the earlier ones of the `n`. -/
def Supplies (k : OSKernel) (n : Nat) : Prop :=
  ∀ i < n, k.next i % pageTableAlign = 0 ∧ 0 < k.next i ∧ k.next i < 2 ^ 48 ∧
    (∀ b ∈ k.live, b.1 ≠ k.next i) ∧ ∀ j < i, k.next j ≠ k.next i

end OSKernel

/-- Two 16 KiB-aligned blocks of at most 16 KiB are disjoint exactly when they start
at different addresses: the reading of "disjoint" in `OSKernel.Supplies`. -/
theorem aligned_blocks_disjoint_iff {a b s s' : Nat} (ha : a % 16384 = 0) (hb : b % 16384 = 0)
    (hs : 0 < s ∧ s ≤ 16384) (hs' : 0 < s' ∧ s' ≤ 16384) :
    (a + s ≤ b ∨ b + s' ≤ a) ↔ a ≠ b := by
  omega

@[simp] theorem except_ok_bind {ε α β : Type} (a : α) (f : α → Except ε β) :
    (Except.ok a >>= f) = f a := rfl

/-- `AArch64MMUDriver`, with the memory its table pointers point into. -/
structure AArch64MMUDriver where
  pageTables : Nat → Option Nat
  bytesAllocated : Nat
  mem : Mem
  kernel : OSKernel

def numEntries (level : Nat) : Nat := if level = 0 then l0Entries else l1Entries

def tableSize (level : Nat) : Nat := numEntries level * entrySize

/-- The `releaseMemory` calls `releasePageTableLevel(table, level)` makes, in order:
the tables below each valid table descriptor, then the table itself. -/
def releasePageTableLevel (mem : Mem) (table level : Nat) : List (Nat × Nat) :=
  if table = 0 then [] else
  let children :=
    if h : level < 3 then
      (List.range (numEntries level)).flatMap fun i =>
        let entry := mem (entryAddr table i)
        if entry.valid && entry.type then releasePageTableLevel mem (getAddress entry) (level + 1)
        else []
    else []
  children ++ [(table, tableSize level)]
termination_by 3 - level

namespace AArch64MMUDriver

def new (mem : Mem) (kernel : OSKernel) : AArch64MMUDriver := ⟨fun _ => none, 0, mem, kernel⟩

def allocatePageTableLevel (d : AArch64MMUDriver) : Nat × AArch64MMUDriver :=
  let tableSize := l1Entries * entrySize
  let (table, kernel) := d.kernel.allocateMemory tableSize
  (table, { d with kernel, bytesAllocated := d.bytesAllocated + tableSize,
                   mem := memset d.mem table tableSize })

/-- `getOrCreateTable`: the table entry `index` of `parent` points to, created
when the entry is invalid. -/
def getOrCreateTable (d : AArch64MMUDriver) (parent index : Nat) :
    Except String (Nat × AArch64MMUDriver) :=
  let slot := entryAddr parent index
  if !(d.mem slot).valid then
    let (newTable, d) := d.allocatePageTableLevel
    .ok (newTable, { d with mem := Function.update d.mem slot (initTableEntry newTable true) })
  else if (d.mem slot).type then .ok (getAddress (d.mem slot), d)
  else .error "Invalid page table entry: expected table but found page"

/-- `allocatePageTable`: a cleared root for `pid`, replacing any root it had. -/
def allocatePageTable (d : AArch64MMUDriver) (pid : Nat) : AArch64MMUDriver :=
  let l0Size := l0Entries * entrySize
  let (l0Table, kernel) := d.kernel.allocateMemory l0Size
  { d with kernel, bytesAllocated := d.bytesAllocated + l0Size,
           mem := memset d.mem l0Table l0Size,
           pageTables := Function.update d.pageTables pid (some l0Table) }

def releasePageTable (d : AArch64MMUDriver) (pid : Nat) : AArch64MMUDriver :=
  match d.pageTables pid with
  | none => d
  | some root =>
    { d with kernel := (releasePageTableLevel d.mem root 0).foldl
                 (fun k b => k.releaseMemory b.1 b.2) d.kernel,
             pageTables := Function.update d.pageTables pid none }

def getPageTable (d : AArch64MMUDriver) (pid : Nat) : Nat := (d.pageTables pid).getD 0

/-- `setMapping`: map the page of `vAddr` to `pPage`, and return `pPage` with its
`driverData` pointing at the leaf. -/
def setMapping (d : AArch64MMUDriver) (pid vAddr : Nat) (pPage : PhysPage) :
    Except String (PhysPage × AArch64MMUDriver) := do
  let vAddr := vAddr &&& ((1 <<< addressSpaceBits) - 1)
  let l0Idx := l0Index vAddr
  let l1Idx := l1Index vAddr
  let l2Idx := l2Index vAddr
  let l3Idx := l3Index vAddr
  match d.pageTables pid with
  | none => .error "Page table not found for PID"
  | some l0Table =>
    let (l1Table, d) ← d.getOrCreateTable l0Table l0Idx
    let (l2Table, d) ← d.getOrCreateTable l1Table l1Idx
    let (l3Table, d) ← d.getOrCreateTable l2Table l2Idx
    let leaf := entryAddr l3Table l3Idx
    pure ({ pPage with driverData := leaf },
      { d with mem := Function.update d.mem leaf (initTableEntry pPage.addr false) })

def setPageValid (d : AArch64MMUDriver) (pPage : PhysPage) (setting : Bool) :
    Except String AArch64MMUDriver :=
  let entry := pPage.driverData
  if entry = 0 then .error "Invalid page table entry pointer"
  else if !(d.mem entry).valid && setting then .error "Cannot validate an invalid page table entry"
  else .ok { d with mem := Function.update d.mem entry { d.mem entry with valid := setting } }

def getBytesAllocated (d : AArch64MMUDriver) : Nat := d.bytesAllocated

end AArch64MMUDriver

/-! ## Runs of the driver and what they are for -/

/-- The driver operations a kernel issues.  A mapping names the kernel's physical
page record it installs and the physical address the kernel gave that page. -/
inductive DriverOp
  | allocatePageTable (pid : Nat)
  | setMapping (pid vAddr page addr : Nat)
  | setPageValid (page : Nat) (setting : Bool)
  | releasePageTable (pid : Nat)
deriving DecidableEq, Repr

open AArch64MMUDriver

def DriverOp.run (d : AArch64MMUDriver) : DriverOp → Except String AArch64MMUDriver
  | .allocatePageTable pid => .ok (d.allocatePageTable pid)
  | .setMapping pid vAddr page addr => do
    let (pPage, d) ← d.setMapping pid vAddr { d.kernel.pages page with addr }
    pure { d with kernel := d.kernel.setPage page pPage }
  | .setPageValid page setting => d.setPageValid (d.kernel.pages page) setting
  | .releasePageTable pid => .ok (d.releasePageTable pid)

/-- What the driver is for: for each process with a tree, its map from virtual to
physical page numbers; for each physical page record, the process and virtual
page of the mapping it was last installed for. -/
structure DriverSpec where
  tables : Nat → Option (Nat → Option Nat)
  handles : Nat → Option (Nat × Nat)

def DriverSpec.empty : DriverSpec := ⟨fun _ => none, fun _ => none⟩

/-- One operation on the spec.  Where the driver raises, the spec fails with the
driver's message. -/
def DriverOp.spec (s : DriverSpec) : DriverOp → Except String DriverSpec
  | .allocatePageTable pid =>
    .ok { s with tables := Function.update s.tables pid (some fun _ => none) }
  | .setMapping pid vAddr page addr =>
    match s.tables pid with
    | none => .error "Page table not found for PID"
    | some t =>
      let v := (vAddr % 2 ^ 48) >>> pageBits
      .ok { tables :=
              Function.update s.tables pid (some (Function.update t v (some (addr >>> pageBits)))),
            handles := Function.update s.handles page (some (pid, v)) }
  | .setPageValid page setting =>
    match s.handles page with
    | none => .error "Invalid page table entry pointer"
    | some (pid, v) =>
      match s.tables pid with
      | none => .ok s
      | some t =>
        if setting then
          if t v = none then .error "Cannot validate an invalid page table entry" else .ok s
        else .ok { s with tables := Function.update s.tables pid (some (Function.update t v none)) }
  | .releasePageTable pid =>
    .ok { tables := Function.update s.tables pid none,
          handles := fun page => (s.handles page).filter fun h => h.1 != pid }

/-- The callers' side of the contract: a root is allocated only for a process
without one, a mapping goes to a process with a tree and a physical page below
`2 ^ 48`, and a valid bit is set only through a record whose tree is still live. -/
def DriverOp.Allowed (s : DriverSpec) : DriverOp → Prop
  | .allocatePageTable pid => s.tables pid = none
  | .setMapping pid _ _ addr => (s.tables pid).isSome ∧ addr < 2 ^ 48
  | .setPageValid page _ => (s.handles page).isSome
  | .releasePageTable _ => True

def AArch64MMUDriver.withNext (d : AArch64MMUDriver) (next : Nat → Nat) : AArch64MMUDriver :=
  { d with kernel := { d.kernel with next } }

/-- Runs of the driver next to the spec, from an empty driver over any memory and
any kernel holding none of its blocks.  Before each operation the kernel picks its
next answers, within its contract; an operation that raises changes nothing and
needs no step. -/
inductive Reachable : AArch64MMUDriver → DriverSpec → Prop
  | init (mem : Mem) (kernel : OSKernel) :
      kernel.live = [] → Reachable (AArch64MMUDriver.new mem kernel) DriverSpec.empty
  | step {d d' : AArch64MMUDriver} {s s' : DriverSpec} {op : DriverOp} {next : Nat → Nat} :
      Reachable d s → op.Allowed s → (d.withNext next).kernel.Supplies 3 →
      op.run (d.withNext next) = .ok d' → op.spec s = .ok s' → Reachable d' s'

end PageTables.AArch64
