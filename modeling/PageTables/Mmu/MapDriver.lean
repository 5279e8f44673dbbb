import PageTables.AArch64.Walk

/-!
# The map-based driver of `unnamed/part_005`

`AArch64MMUDriver` of `aarch64_mmu.h` and `unnamed/part_005` keeps its mappings in
an `std::unordered_map` from virtual to physical page, with no page tables.  A
translation looks the page up and changes nothing, and the referenced and dirty
bits the driver reports say only whether the page is mapped.

`addMapping` and the bit readers shift the whole 64-bit address, where
`MMU::getTranslation` first strips the bits above 48: a mapping at an address at or
above `2 ^ 48` is reported mapped and is never used by a translation.
-/

namespace PageTables.MapDriver

open PageTables.AArch64

/-- `AArch64MMUDriver` of `aarch64_mmu.h`: its member `pageTable`. -/
structure AArch64MMUDriver where
  pageTable : Nat → Option Nat

namespace AArch64MMUDriver

def getPageBits : Nat := 14

def getAddressSpaceBits : Nat := 48

def new : AArch64MMUDriver := ⟨fun _ => none⟩

/-- `initialize` (a keyword of Lean): the handler goes to `MMU::initialize`, which
keeps it for `processMemAccess`; the map is cleared. -/
def init (_d : AArch64MMUDriver) : AArch64MMUDriver := ⟨fun _ => none⟩

def releasePageTable (_d : AArch64MMUDriver) : AArch64MMUDriver := ⟨fun _ => none⟩

def performTranslation (d : AArch64MMUDriver) (vPage : Nat) (_isWrite : Bool) : Option Nat :=
  d.pageTable vPage

/-- `MMU::getTranslation` of `hw/mmu.cc`, which calls this driver's
`performTranslation`; `makePhysicalAddr` reads the same 14 page bits. -/
def getTranslation (d : AArch64MMUDriver) (access : MemAccess) : Option Nat :=
  let vAddr := access.addr &&& ((1 <<< getAddressSpaceBits) - 1)
  let vPage := vAddr >>> getPageBits
  (d.performTranslation vPage access.isWrite).map (makePhysicalAddr access)

end AArch64MMUDriver

end PageTables.MapDriver
