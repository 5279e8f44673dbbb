import PageTables.Mmu.Tlb
import PageTables.AArch64.Driver

/-!
# Translation through the TLB

`MMU::getTranslation`, `MMU::processMemAccess` and the TLB controls of the `MMU` of
`unnamed/part_004`, over the AArch64 walk `performTranslation`.  A translation asks
the TLB first; on a miss it walks the tables of the current root, which stamps the
referenced and dirty bits of the leaf, and records the page in the TLB.  A hit
neither walks nor stamps.

`Machine` is an `MMU` together with the TLB statics and the physical memory that
holds the page tables.
-/

namespace PageTables.Mmu

open PageTables.AArch64

/-- `MMU` of `unnamed/part_004`: the root, the TLB it owns and its ASID.  The page
fault handler is passed to `processMemAccess`. -/
structure MMU where
  root : Nat
  tlb : Option TLB
  currentASID : Nat

def MMU.new : MMU := ⟨0, none, 0⟩

structure Machine where
  mmu : MMU
  statics : TLBStatics
  mem : Mem

namespace Machine

def setPageTablePointer (m : Machine) (root : Nat) : Machine :=
  { m with mmu := { m.mmu with root } }

def setTLB (m : Machine) (tlb : TLB) : Machine := { m with mmu := { m.mmu with tlb := some tlb } }

/-- `MMU::setCurrentASID`: the member and the static `::currentASID`. -/
def setCurrentASID (m : Machine) (asid : Nat) : Machine :=
  { m with mmu := { m.mmu with currentASID := asid },
           statics := { m.statics with currentASID := asid } }

def withTLB (m : Machine) (r : TLB × TLBStatics) : Machine :=
  { m with mmu := { m.mmu with tlb := some r.1 }, statics := r.2 }

def flushTLB (m : Machine) : Machine :=
  match m.mmu.tlb with
  | some tlb => m.withTLB (tlb.flush m.statics)
  | none => m

def tlbLookup (m : Machine) (vPage : Nat) : Option Nat × Machine :=
  match m.mmu.tlb with
  | some tlb =>
    let r := tlb.lookup m.statics vPage
    (r.1, m.withTLB r.2)
  | none => (none, m)

def tlbAdd (m : Machine) (vPage pPage : Nat) : Machine :=
  match m.mmu.tlb with
  | some tlb => m.withTLB (tlb.add m.statics vPage pPage)
  | none => m

@[simp] theorem withTLB_tlb (m : Machine) (r : TLB × TLBStatics) :
    (m.withTLB r).mmu.tlb = some r.1 := rfl

@[simp] theorem withTLB_statics (m : Machine) (r : TLB × TLBStatics) :
    (m.withTLB r).statics = r.2 := rfl

@[simp] theorem withTLB_root (m : Machine) (r : TLB × TLBStatics) :
    (m.withTLB r).mmu.root = m.mmu.root := rfl

@[simp] theorem withTLB_mem (m : Machine) (r : TLB × TLBStatics) : (m.withTLB r).mem = m.mem := rfl

/-! A flush touches only the TLB object and the statics. -/

theorem flushTLB_of_attached {tlb : TLB} {m : Machine} (h : m.mmu.tlb = some tlb) :
    m.flushTLB = m.withTLB (tlb.flush m.statics) := by
  simp [flushTLB, h]

theorem flushTLB_of_detached {m : Machine} (h : m.mmu.tlb = none) : m.flushTLB = m := by
  simp [flushTLB, h]

@[simp] theorem flushTLB_root (m : Machine) : m.flushTLB.mmu.root = m.mmu.root := by
  unfold flushTLB
  split <;> rfl

@[simp] theorem flushTLB_mem (m : Machine) : m.flushTLB.mem = m.mem := by
  unfold flushTLB
  split <;> rfl

def getTLBStatistics (m : Machine) : Nat × Nat × Nat × Nat × Nat :=
  match m.mmu.tlb with
  | some tlb => tlb.getStatistics
  | none => (0, 0, 0, 0, 0)

/-- `MMU::getTranslation` of `unnamed/part_004`: the physical address, `none` on a
fault. -/
def getTranslation (m : Machine) (access : MemAccess) : Except String (Option Nat × Machine) :=
  let vAddr := access.addr &&& ((1 <<< addressSpaceBits) - 1)
  let vPage := vAddr >>> pageBits
  let r := m.tlbLookup vPage
  match r.1 with
  | some pPage => .ok (some (makePhysicalAddr access pPage), r.2)
  | none =>
    match performTranslation r.2.mem r.2.mmu.root vPage access.isWrite with
    | .error e => .error e
    | .ok none => .ok (none, r.2)
    | .ok (some (pPage, mem)) =>
      .ok (some (makePhysicalAddr access pPage), { r.2 with mem }.tlbAdd vPage pPage)

@[simp] theorem tlbAdd_root (m : Machine) (vPage pPage : Nat) :
    (m.tlbAdd vPage pPage).mmu.root = m.mmu.root := by
  unfold tlbAdd
  split <;> rfl

@[simp] theorem tlbAdd_mem (m : Machine) (vPage pPage : Nat) :
    (m.tlbAdd vPage pPage).mem = m.mem := by
  unfold tlbAdd
  split <;> rfl

end Machine

/-- Two processes map virtual page 0 to physical pages 100 and 200, through the
driver.  With ASID 1 for the first root and ASID 2 for the second, a load of address
0 under the first root fills the TLB, and the same load after the switch to the
second root hits that entry and returns page 100, where the walk of the second root
returns page 200. -/
theorem tlb_hit_crosses_address_spaces :
    ∃ d, [DriverOp.allocatePageTable 1, .allocatePageTable 2, .setMapping 1 0 0 (16384 * 100),
        .setMapping 2 0 1 (16384 * 200)].foldlM DriverOp.run
        (.new (fun _ => .zero) ⟨[], fun i => 16384 * (i + 1), fun _ => ⟨0, 0⟩⟩) = .ok d ∧
      ∃ m1 m2,
        ((((Machine.mk MMU.new TLBStatics.init d.mem).setTLB (TLB.new 2)).setPageTablePointer
          16384).setCurrentASID 1).getTranslation ⟨0, .load⟩ = .ok (some (16384 * 100), m1) ∧
        ((m1.setPageTablePointer 32768).setCurrentASID 2).getTranslation ⟨0, .load⟩ =
          .ok (some (16384 * 100), m2) ∧
        (getTranslation m1.mem 32768 ⟨0, .load⟩).map (Option.map Prod.fst) =
          .ok (some (16384 * 200)) :=
  ⟨_, rfl, _, _, rfl, rfl, rfl⟩

end PageTables.Mmu
