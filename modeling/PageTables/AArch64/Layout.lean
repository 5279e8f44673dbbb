import Mathlib

/-!
# AArch64 page-table layout

The constants and index macros of `aarch64.h`, the `SimpleTableEntry` the driver
and the walker share, and physical memory as a function from the byte address of
an entry to the entry stored there.  Tables are arrays of 8-byte entries, so
entry `i` of the table at `table` lives at `table + 8 * i`.

A 48-bit virtual address splits into 1 + 11 + 11 + 11 index bits above the
14-bit page offset.  On page numbers below `2 ^ 34` the four indices are the
digits of the page number, which is what lets two walks meet only when they
translate the same page.
-/

namespace PageTables.AArch64

def addressSpaceBits : Nat := 48
def pageBits : Nat := 14
def pageSize : Nat := 1 <<< pageBits

def l0Bits : Nat := 1
def l1Bits : Nat := 11
def l2Bits : Nat := 11
def l3Bits : Nat := 11

def l0Entries : Nat := 1 <<< l0Bits
def l1Entries : Nat := 1 <<< l1Bits

def l0Index (vaddr : Nat) : Nat :=
  (vaddr >>> (l1Bits + l2Bits + l3Bits + pageBits)) &&& ((1 <<< l0Bits) - 1)

def l1Index (vaddr : Nat) : Nat :=
  (vaddr >>> (l2Bits + l3Bits + pageBits)) &&& ((1 <<< l1Bits) - 1)

def l2Index (vaddr : Nat) : Nat := (vaddr >>> (l3Bits + pageBits)) &&& ((1 <<< l2Bits) - 1)

def l3Index (vaddr : Nat) : Nat := (vaddr >>> pageBits) &&& ((1 <<< l3Bits) - 1)

def pageTableAlign : Nat := pageSize

@[simp] theorem pageBits_eq : pageBits = 14 := rfl
@[simp] theorem pageSize_eq : pageSize = 16384 := rfl
@[simp] theorem pageTableAlign_eq : pageTableAlign = 16384 := rfl
@[simp] theorem addressSpaceBits_eq : addressSpaceBits = 48 := rfl
@[simp] theorem l0Entries_eq : l0Entries = 2 := rfl
@[simp] theorem l1Entries_eq : l1Entries = 2048 := rfl

@[simp] theorem l0Index_eq (vaddr : Nat) : l0Index vaddr = vaddr / 2 ^ 47 % 2 := by
  simp only [l0Index, l0Bits, l1Bits, l2Bits, l3Bits, pageBits, Nat.shiftRight_eq_div_pow,
    Nat.shiftLeft_eq, one_mul]
  exact Nat.and_pow_two_sub_one_eq_mod _ 1

@[simp] theorem l1Index_eq (vaddr : Nat) : l1Index vaddr = vaddr / 2 ^ 36 % 2048 := by
  simp only [l1Index, l1Bits, l2Bits, l3Bits, pageBits, Nat.shiftRight_eq_div_pow,
    Nat.shiftLeft_eq, one_mul]
  exact Nat.and_pow_two_sub_one_eq_mod _ 11

@[simp] theorem l2Index_eq (vaddr : Nat) : l2Index vaddr = vaddr / 2 ^ 25 % 2048 := by
  simp only [l2Index, l2Bits, l3Bits, pageBits, Nat.shiftRight_eq_div_pow, Nat.shiftLeft_eq,
    one_mul]
  exact Nat.and_pow_two_sub_one_eq_mod _ 11

@[simp] theorem l3Index_eq (vaddr : Nat) : l3Index vaddr = vaddr / 2 ^ 14 % 2048 := by
  simp only [l3Index, l3Bits, pageBits, Nat.shiftRight_eq_div_pow, Nat.shiftLeft_eq, one_mul]
  exact Nat.and_pow_two_sub_one_eq_mod _ 11

/-- `SimpleTableEntry`, field by field.  The `reserved` and `padding` bits are
written only by `memset` and read by nothing, and are left out. -/
structure SimpleTableEntry where
  valid : Bool
  type : Bool
  physicalPageNum : BitVec 34
  referenced : Bool
  dirty : Bool
deriving DecidableEq, Repr

def SimpleTableEntry.zero : SimpleTableEntry := ⟨false, false, 0, false, false⟩

@[simp] theorem SimpleTableEntry.zero_valid : SimpleTableEntry.zero.valid = false := rfl

abbrev Mem := Nat → SimpleTableEntry

def entrySize : Nat := 8

def entryAddr (table index : Nat) : Nat := table + entrySize * index

def initTableEntry (address : Nat) (isTable : Bool) : SimpleTableEntry :=
  { valid := true, type := isTable, physicalPageNum := BitVec.ofNat 34 (address >>> pageBits),
    referenced := false, dirty := false }

def getAddress (entry : SimpleTableEntry) : Nat := entry.physicalPageNum.toNat <<< pageBits

def memset (mem : Mem) (table size : Nat) : Mem :=
  fun a => if table ≤ a ∧ a < table + size then SimpleTableEntry.zero else mem a

@[simp] theorem getAddress_initTableEntry {address : Nat} (isTable : Bool)
    (halign : address % 16384 = 0) (hlt : address < 2 ^ 48) :
    getAddress (initTableEntry address isTable) = address := by
  simp only [getAddress, initTableEntry, BitVec.toNat_ofNat, pageBits_eq,
    Nat.shiftRight_eq_div_pow, Nat.shiftLeft_eq]
  rw [Nat.mod_eq_of_lt (by omega)]
  omega

/-! ## Slots of aligned tables -/

theorem entryAddr_inj {t t' i i' : Nat} (ht : t % 16384 = 0) (ht' : t' % 16384 = 0)
    (hi : i < 2048) (hi' : i' < 2048) (h : entryAddr t i = entryAddr t' i') :
    t = t' ∧ i = i' := by
  unfold entryAddr entrySize at h
  omega

theorem entryAddr_not_mem {t b i size : Nat} (ht : t % 16384 = 0) (hb : b % 16384 = 0)
    (hi : i < 2048) (hsize : size ≤ 16384) (hne : t ≠ b) :
    ¬ (b ≤ entryAddr t i ∧ entryAddr t i < b + size) := by
  unfold entryAddr entrySize
  omega

theorem entryAddr_mem {t i n : Nat} (hi : i < n) :
    t ≤ entryAddr t i ∧ entryAddr t i < t + n * entrySize := by
  unfold entryAddr entrySize
  omega

theorem memset_slot_of_ne {mem : Mem} {t b i size : Nat} (ht : t % 16384 = 0)
    (hb : b % 16384 = 0) (hi : i < 2048) (hsize : size ≤ 16384) (hne : t ≠ b) :
    memset mem b size (entryAddr t i) = mem (entryAddr t i) :=
  if_neg (entryAddr_not_mem ht hb hi hsize hne)

theorem memset_slot_self {mem : Mem} {b i size : Nat} (hi : entrySize * i < size) :
    memset mem b size (entryAddr b i) = SimpleTableEntry.zero :=
  if_pos (by unfold entryAddr; omega)

/-! ## The digits of a virtual page -/

/-- The table indices `performTranslation` computes for virtual page `v`, above
the last. -/
def pathOf (v : Nat) : List Nat :=
  [l0Index (v <<< pageBits), l1Index (v <<< pageBits), l2Index (v <<< pageBits)]

def leafIndex (v : Nat) : Nat := l3Index (v <<< pageBits)

theorem leafIndex_lt (v : Nat) : leafIndex v < 2048 := by
  simp only [leafIndex, l3Index_eq]
  omega

theorem eq_of_pathOf_eq {v v' : Nat} (hv : v < 2 ^ 34) (hv' : v' < 2 ^ 34)
    (hp : pathOf v = pathOf v') (hl : leafIndex v = leafIndex v') : v = v' := by
  simp only [pathOf, leafIndex, l0Index_eq, l1Index_eq, l2Index_eq, l3Index_eq, pageBits_eq,
    Nat.shiftLeft_eq, List.cons.injEq, and_true] at hp hl
  omega

theorem pathOf_shiftRight (vaddr : Nat) :
    pathOf (vaddr >>> pageBits) = [l0Index vaddr, l1Index vaddr, l2Index vaddr] ∧
    leafIndex (vaddr >>> pageBits) = l3Index vaddr := by
  simp only [pathOf, leafIndex, l0Index_eq, l1Index_eq, l2Index_eq, l3Index_eq, pageBits_eq,
    Nat.shiftLeft_eq, Nat.shiftRight_eq_div_pow, List.cons.injEq, and_true]
  omega

end PageTables.AArch64
