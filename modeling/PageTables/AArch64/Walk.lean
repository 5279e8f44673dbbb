import PageTables.AArch64.Layout

/-!
# The AArch64 table walk

`AArch64MMU::performTranslation` and the TLB-less `MMU::getTranslation` of
`hw/mmu.cc`.  The walk from the root through the three interior levels is
`tableAt` along the indices of the page; the walker reads each interior entry,
follows it when it is a valid table descriptor, and at the last level returns the
physical page of a valid leaf after stamping its referenced and dirty bits.

`leafOf` is what the walk finds, read without stamping.  The frame lemma
`tableAt_congr` says that a walk depends only on the entries it reads.

Memory is a total function from addresses to entries, so the walk reads an entry
at every address: below a root of 0 it reads the entries at addresses 0 to
16 KiB, where the C++ would dereference a null pointer.  Results about the walk
from root 0 describe the model, not the program.
-/

namespace PageTables.AArch64

def nextTable (mem : Mem) (table index : Nat) : Option Nat :=
  let entry := mem (entryAddr table index)
  if !entry.valid || entry.type != true then none else some (getAddress entry)

def tableAt (mem : Mem) (table : Nat) : List Nat → Option Nat
  | [] => some table
  | index :: path => (nextTable mem table index).bind fun next => tableAt mem next path

theorem nextTable_eq_some {mem : Mem} {table index next : Nat} :
    nextTable mem table index = some next ↔
      (mem (entryAddr table index)).valid ∧ (mem (entryAddr table index)).type ∧
        getAddress (mem (entryAddr table index)) = next := by
  simp only [nextTable]
  by_cases hv : (mem (entryAddr table index)).valid <;>
    by_cases ht : (mem (entryAddr table index)).type <;> simp [hv, ht]

theorem nextTable_of_not_valid {mem : Mem} {table index : Nat}
    (h : (mem (entryAddr table index)).valid = false) : nextTable mem table index = none := by
  simp [nextTable, h]

theorem nextTable_bind {α : Type} (mem : Mem) (table index : Nat) (f : Nat → Option α) :
    (nextTable mem table index).bind f =
      if (mem (entryAddr table index)).valid ∧ (mem (entryAddr table index)).type then
        f (getAddress (mem (entryAddr table index)))
      else none := by
  simp only [nextTable]
  by_cases hv : (mem (entryAddr table index)).valid <;>
    by_cases ht : (mem (entryAddr table index)).type <;> simp [hv, ht]

@[simp] theorem tableAt_nil (mem : Mem) (table : Nat) : tableAt mem table [] = some table := rfl

@[simp] theorem tableAt_cons (mem : Mem) (table index : Nat) (path : List Nat) :
    tableAt mem table (index :: path) =
      (nextTable mem table index).bind fun next => tableAt mem next path := rfl

theorem tableAt_append (mem : Mem) (table : Nat) (p q : List Nat) :
    tableAt mem table (p ++ q) = (tableAt mem table p).bind fun t => tableAt mem t q := by
  induction p generalizing table with
  | nil => rfl
  | cons i p ih =>
    simp only [List.cons_append, tableAt_cons, ih]
    cases nextTable mem table i <;> rfl

theorem tableAt_append_single (mem : Mem) (table : Nat) (p : List Nat) (i : Nat) :
    tableAt mem table (p ++ [i]) = (tableAt mem table p).bind fun t => nextTable mem t i := by
  simp only [tableAt_append, tableAt_cons, tableAt_nil, Option.bind_some]

theorem tableAt_take {mem : Mem} {table t : Nat} {p : List Nat} (k : Nat)
    (h : tableAt mem table p = some t) : ∃ t', tableAt mem table (p.take k) = some t' := by
  rw [← List.take_append_drop k p, tableAt_append] at h
  cases hk : tableAt mem table (p.take k) with
  | none => simp [hk] at h
  | some t' => exact ⟨t', rfl⟩

/-- The frame lemma of the walk: two memories that agree on every entry the walk
along `path` reads in the first give the same walk. -/
theorem tableAt_congr {mem mem' : Mem} {table : Nat} {path : List Nat}
    (h : ∀ (p : List Nat) (i : Nat) (t : Nat), p ++ [i] <+: path →
      tableAt mem table p = some t → mem' (entryAddr t i) = mem (entryAddr t i)) :
    tableAt mem' table path = tableAt mem table path := by
  induction path generalizing table with
  | nil => rfl
  | cons i path ih =>
    have hstep : nextTable mem' table i = nextTable mem table i := by
      simp only [nextTable, h [] i table (by simp) rfl]
    simp only [tableAt_cons, hstep]
    cases hn : nextTable mem table i with
    | none => rfl
    | some next =>
      refine ih fun p j t hp ht => h (i :: p) j t ?_ ?_
      · simpa using hp
      · simpa [hn] using ht

/-- What the walk finds for virtual page `v` below the root `root`: the physical
page number of a valid leaf. -/
def leafOf (mem : Mem) (root v : Nat) : Option Nat :=
  (tableAt mem root (pathOf v)).bind fun t =>
    let entry := mem (entryAddr t (leafIndex v))
    if entry.valid then some entry.physicalPageNum.toNat else none

/-- `AArch64MMU::performTranslation`: the walk from `root` for virtual page `vPage`,
`.ok none` where the code returns `false`, and on success the physical page number
with the memory after the leaf's referenced bit, and for a write its dirty bit, is
set. -/
def performTranslation (mem : Mem) (root vPage : Nat) (isWrite : Bool) :
    Except String (Option (Nat × Mem)) :=
  if root &&& (pageTableAlign - 1) ≠ 0 then .error "Unaligned page table access" else
  let vAddr := (vPage <<< pageBits) % 2 ^ 64
  match tableAt mem root [l0Index vAddr, l1Index vAddr, l2Index vAddr] with
  | none => .ok none
  | some l3Table =>
    let leaf := entryAddr l3Table (l3Index vAddr)
    let entry := mem leaf
    if !entry.valid then .ok none
    else
      let entry := { entry with referenced := true }
      let entry := if isWrite then { entry with dirty := true } else entry
      .ok (some (entry.physicalPageNum.toNat, Function.update mem leaf entry))

/-- The alignment test of `performTranslation` is the remainder by 16 KiB. -/
theorem mask_pageTableAlign (root : Nat) : root &&& (pageTableAlign - 1) = root % 16384 := by
  rw [pageTableAlign_eq, show 16384 - 1 = 2 ^ 14 - 1 from rfl, Nat.and_pow_two_sub_one_eq_mod]

def stamp (entry : SimpleTableEntry) (isWrite : Bool) : SimpleTableEntry :=
  { entry with referenced := true, dirty := if isWrite then true else entry.dirty }

/-- The walk on a 16 KiB-aligned root for a page below `2 ^ 50` finds `leafOf`, and
stamps the leaf it read. -/
theorem performTranslation_eq {mem : Mem} {root v : Nat} (isWrite : Bool)
    (hroot : root % 16384 = 0) (hv : v < 2 ^ 50) :
    performTranslation mem root v isWrite =
      .ok ((tableAt mem root (pathOf v)).bind fun t =>
        if (mem (entryAddr t (leafIndex v))).valid then
          some ((mem (entryAddr t (leafIndex v))).physicalPageNum.toNat,
            Function.update mem (entryAddr t (leafIndex v))
              (stamp (mem (entryAddr t (leafIndex v))) isWrite))
        else none) := by
  have halign : root &&& (pageTableAlign - 1) = 0 := (mask_pageTableAlign root).trans hroot
  have hwrap : (v <<< pageBits) % 2 ^ 64 = v <<< pageBits := by
    rw [pageBits_eq, Nat.shiftLeft_eq]
    exact Nat.mod_eq_of_lt (by omega)
  simp only [performTranslation, halign, ne_eq, not_true_eq_false, ↓reduceIte, hwrap]
  rw [show [l0Index (v <<< pageBits), l1Index (v <<< pageBits), l2Index (v <<< pageBits)] =
    pathOf v from rfl, show l3Index (v <<< pageBits) = leafIndex v from rfl]
  cases tableAt mem root (pathOf v) with
  | none => rfl
  | some t =>
    by_cases hvalid : (mem (entryAddr t (leafIndex v))).valid <;> cases isWrite <;>
      simp [hvalid, stamp]

/-- The walk entry by entry: it succeeds exactly when the L0, L1 and L2 entries on
the page's index path are valid table descriptors and the L3 entry is valid; it then
returns that entry's page and a memory in which only that entry changed, its
referenced bit and, for a write, its dirty bit set.  When it fails it returns no
memory, so the caller's memory stays as it was. -/
theorem performTranslation_reads_path (mem : Mem) {root vPage : Nat} (isWrite : Bool)
    (hroot : root % 16384 = 0) (hv : vPage < 2 ^ 34) :
    let vAddr := vPage <<< pageBits
    let e0 := mem (entryAddr root (l0Index vAddr))
    let e1 := mem (entryAddr (getAddress e0) (l1Index vAddr))
    let e2 := mem (entryAddr (getAddress e1) (l2Index vAddr))
    let leaf := entryAddr (getAddress e2) (l3Index vAddr)
    performTranslation mem root vPage isWrite =
      if e0.valid ∧ e0.type ∧ e1.valid ∧ e1.type ∧ e2.valid ∧ e2.type ∧ (mem leaf).valid then
        .ok (some ((mem leaf).physicalPageNum.toNat,
          Function.update mem leaf
            { mem leaf with referenced := true,
                            dirty := if isWrite then true else (mem leaf).dirty }))
      else .ok none := by
  rw [performTranslation_eq isWrite hroot (by omega)]
  simp only [pathOf, leafIndex, tableAt_cons, tableAt_nil, Option.bind_assoc, Option.some_bind,
    nextTable_bind, stamp]
  split_ifs <;> simp_all

/-- A path from the root at 16 KiB through three tables to a leaf of page 100, for
the page whose four indices are 1, 3, 5 and 7: a store walks it, returns page 100
and stamps the leaf referenced and dirty, and the L2 entry it read stays as it was. -/
theorem performTranslation_reads_path_stamps_leaf :
    (16384 % 16384 = 0 ∧ 2 ^ 33 + 3 * 2 ^ 22 + 5 * 2 ^ 11 + 7 < 2 ^ 34) ∧
      ((performTranslation (fun a =>
          if a = entryAddr 16384 1 then initTableEntry 32768 true
          else if a = entryAddr 32768 3 then initTableEntry 49152 true
          else if a = entryAddr 49152 5 then initTableEntry 65536 true
          else if a = entryAddr 65536 7 then initTableEntry (16384 * 100) false
          else .zero) 16384 (2 ^ 33 + 3 * 2 ^ 22 + 5 * 2 ^ 11 + 7) true).map
        (Option.map fun r => (r.1, r.2 (entryAddr 65536 7), r.2 (entryAddr 49152 5)))).toOption =
        some (some (100, { initTableEntry (16384 * 100) false with referenced := true, dirty := true },
          initTableEntry 65536 true)) :=
  ⟨⟨rfl, by norm_num⟩, by rw [performTranslation_reads_path _ true rfl (by norm_num)]; decide⟩

theorem performTranslation_page {mem : Mem} {root v : Nat} (isWrite : Bool)
    (hroot : root % 16384 = 0) (hv : v < 2 ^ 50) :
    (performTranslation mem root v isWrite).map (Option.map Prod.fst) =
      .ok (leafOf mem root v) := by
  rw [performTranslation_eq isWrite hroot hv, leafOf]
  cases tableAt mem root (pathOf v) with
  | none => rfl
  | some t =>
    simp only [Option.some_bind]
    split <;> rfl

/-! ## The TLB-less MMU of `hw/mmu.cc` -/

/-- Modelled from the spec: the trace driver's access types (`mmu.h` is not part of
the sources). -/
inductive MemAccessType
  | load
  | store
  | modify
  | execute
deriving DecidableEq, Repr

/-- Modelled from the spec: a memory access of the trace, a 64-bit byte address
and its type. -/
structure MemAccess where
  addr : Nat
  type : MemAccessType
deriving DecidableEq, Repr

def MemAccess.isWrite (access : MemAccess) : Bool :=
  access.type == .store || access.type == .modify

def makePhysicalAddr (access : MemAccess) (pPage : Nat) : Nat :=
  ((pPage <<< pageBits) ||| (access.addr &&& (pageSize - 1))) % 2 ^ 64

/-- `MMU::getTranslation` of `hw/mmu.cc`: strip the sign-extension bits, walk, and
on success build the physical byte address. -/
def getTranslation (mem : Mem) (root : Nat) (access : MemAccess) :
    Except String (Option (Nat × Mem)) :=
  let vAddr := access.addr &&& ((1 <<< addressSpaceBits) - 1)
  let vPage := vAddr >>> pageBits
  (performTranslation mem root vPage access.isWrite).map
    (Option.map fun r => (makePhysicalAddr access r.1, r.2))

theorem makePhysicalAddr_eq (access : MemAccess) {p : Nat} (hp : p < 2 ^ 34) :
    makePhysicalAddr access p = p * 2 ^ 14 + access.addr % 2 ^ 14 := by
  unfold makePhysicalAddr
  rw [pageBits_eq, pageSize_eq, Nat.shiftLeft_eq, show 16384 - 1 = 2 ^ 14 - 1 from rfl,
    Nat.and_pow_two_sub_one_eq_mod, mul_comm,
    ← Nat.mul_add_lt_is_or (Nat.mod_lt _ (by norm_num))]
  exact Nat.mod_eq_of_lt (by omega)

theorem leafOf_lt {mem : Mem} {root v p : Nat} (h : leafOf mem root v = some p) : p < 2 ^ 34 := by
  simp only [leafOf, Option.bind_eq_some] at h
  obtain ⟨t, -, h⟩ := h
  split at h
  · cases h; exact BitVec.isLt _
  · cases h

theorem mask_addressSpaceBits (a : Nat) : a &&& ((1 <<< addressSpaceBits) - 1) = a % 2 ^ 48 := by
  rw [addressSpaceBits_eq, Nat.shiftLeft_eq, one_mul, Nat.and_pow_two_sub_one_eq_mod]

theorem getTranslation_vPage (a : Nat) :
    (a &&& ((1 <<< addressSpaceBits) - 1)) >>> pageBits = (a % 2 ^ 48) >>> pageBits := by
  rw [mask_addressSpaceBits]

theorem vPage_lt (a : Nat) : (a % 2 ^ 48) >>> pageBits < 2 ^ 34 := by
  rw [pageBits_eq, Nat.shiftRight_eq_div_pow]
  omega

theorem getTranslation_addr {mem : Mem} {root : Nat} (access : MemAccess)
    (hroot : root % 16384 = 0) :
    (getTranslation mem root access).map (Option.map Prod.fst) =
      .ok ((leafOf mem root ((access.addr % 2 ^ 48) >>> pageBits)).map
        (makePhysicalAddr access)) := by
  have hv : (access.addr % 2 ^ 48) >>> pageBits < 2 ^ 50 :=
    lt_trans (vPage_lt access.addr) (by decide)
  simp only [getTranslation, getTranslation_vPage, performTranslation_eq _ hroot hv, leafOf]
  cases tableAt mem root (pathOf ((access.addr % 2 ^ 48) >>> pageBits)) with
  | none => rfl
  | some t =>
    simp only [Option.some_bind]
    split <;> rfl

/-! ## What a walk reads -/

/-- The bits of an entry the walk reads: the referenced and dirty bits it writes are
not among them. -/
def SimpleTableEntry.walkBits (entry : SimpleTableEntry) : Bool × Bool × BitVec 34 :=
  (entry.valid, entry.type, entry.physicalPageNum)

def SameWalks (mem mem' : Mem) : Prop := ∀ a, (mem a).walkBits = (mem' a).walkBits

namespace SameWalks

variable {mem mem' mem'' : Mem}

theorem refl (mem : Mem) : SameWalks mem mem := fun _ => rfl

theorem symm (h : SameWalks mem mem') : SameWalks mem' mem := fun a => (h a).symm

theorem trans (h : SameWalks mem mem') (h' : SameWalks mem' mem'') : SameWalks mem mem'' :=
  fun a => (h a).trans (h' a)

theorem nextTable_eq (h : SameWalks mem mem') (table index : Nat) :
    nextTable mem' table index = nextTable mem table index := by
  have := h (entryAddr table index)
  simp only [SimpleTableEntry.walkBits, Prod.mk.injEq] at this
  simp only [nextTable, getAddress, this]

theorem tableAt_eq (h : SameWalks mem mem') (table : Nat) (path : List Nat) :
    tableAt mem' table path = tableAt mem table path := by
  induction path generalizing table with
  | nil => rfl
  | cons i path ih => simp only [tableAt_cons, h.nextTable_eq, ih]

theorem leafOf_eq (h : SameWalks mem mem') (root v : Nat) :
    leafOf mem' root v = leafOf mem root v := by
  simp only [leafOf, h.tableAt_eq]
  congr 1
  funext t
  have := h (entryAddr t (leafIndex v))
  simp only [SimpleTableEntry.walkBits, Prod.mk.injEq] at this
  simp only [this]

end SameWalks

theorem sameWalks_stamp (mem : Mem) (a : Nat) (isWrite : Bool) :
    SameWalks mem (Function.update mem a (stamp (mem a) isWrite)) := by
  intro b
  by_cases hb : b = a
  · subst hb
    simp [SimpleTableEntry.walkBits, stamp]
  · simp [Function.update_noteq hb]

/-- An aligned walk finds the page `leafOf` finds, and leaves a memory the walk cannot
tell from the old one. -/
theorem performTranslation_spec (mem : Mem) {root v : Nat} (isWrite : Bool)
    (hroot : root % 16384 = 0) (hv : v < 2 ^ 50) :
    ∃ r, performTranslation mem root v isWrite = .ok r ∧ r.map Prod.fst = leafOf mem root v ∧
      ∀ p mem', r = some (p, mem') → SameWalks mem mem' := by
  rw [performTranslation_eq isWrite hroot hv]
  refine ⟨_, rfl, ?_, fun p mem' h => ?_⟩
  · simp only [leafOf]
    cases tableAt mem root (pathOf v) with
    | none => rfl
    | some t =>
      simp only [Option.some_bind]
      split <;> rfl
  · cases ht : tableAt mem root (pathOf v) with
    | none => simp [ht] at h
    | some t =>
      simp only [ht, Option.some_bind] at h
      split_ifs at h
      cases h
      exact sameWalks_stamp _ _ _

theorem performTranslation_of_leafOf_none {mem : Mem} {root v : Nat} (isWrite : Bool)
    (hroot : root % 16384 = 0) (hv : v < 2 ^ 50) (h : leafOf mem root v = none) :
    performTranslation mem root v isWrite = .ok none := by
  obtain ⟨r, hr, hmap, -⟩ := performTranslation_spec mem isWrite hroot hv
  rw [h, Option.map_eq_none'] at hmap
  rw [hr, hmap]

theorem performTranslation_of_leafOf_some {mem : Mem} {root v p : Nat} (isWrite : Bool)
    (hroot : root % 16384 = 0) (hv : v < 2 ^ 50) (h : leafOf mem root v = some p) :
    ∃ mem', performTranslation mem root v isWrite = .ok (some (p, mem')) ∧ SameWalks mem mem' := by
  obtain ⟨r, hr, hmap, hsame⟩ := performTranslation_spec mem isWrite hroot hv
  rw [h] at hmap
  obtain ⟨⟨p', mem'⟩, rfl, rfl⟩ := Option.map_eq_some'.1 hmap
  exact ⟨mem', hr, hsame _ _ rfl⟩

end PageTables.AArch64
