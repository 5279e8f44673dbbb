import PageTables.Tlb.ListTlb

/-!
# The slot TLB of `hw/mmu.cc`

`TLB` of `mmu.h` with the methods of `unnamed/part_004`.  The state of the TLB is
not in the object but in the file statics `tlbEntries`, `lruOrder`, `lruMap` and
`tlbInitialized`; `TLBStatics` holds them, with the static `::currentASID` that
`MMU::setCurrentASID` writes.  An `lruOrder` node is a pair of a node identity and
a slot index, and an `lruMap` iterator is the identity of its node.

Inside the methods of `TLB` the name `currentASID` is the data member that the
constructor initialises to 0 (the mem-initializer `currentASID(0)` names a member),
not the static; no code writes the member afterwards.

The C++ indexes the vector without a bound check, and an index past its end is
undefined behaviour.  The model reads such a slot as the default entry and drops
such a write; `TLBOp.inBounds` says when a call stays inside the vector, so that
no result is read off the model past that point.
-/

namespace PageTables.Mmu

/-- `TLBEntry` of `hw/mmu.cc`; `default` is its default constructor. -/
structure TLBEntry where
  vPage : Nat
  pPage : Nat
  asid : Nat
  valid : Bool
deriving DecidableEq, Repr

instance : Inhabited TLBEntry := ⟨⟨0, 0, 0, false⟩⟩

structure TLBStatics where
  tlbEntries : List TLBEntry
  lruOrder : List (Nat × Nat)
  lruMap : Nat → Option Nat
  nextNode : Nat
  tlbInitialized : Bool
  currentASID : Nat

def TLBStatics.init : TLBStatics := ⟨[], [], fun _ => none, 0, false, 0⟩

/-- `TLB` of `mmu.h`: its capacity, the member `currentASID` and the statistics
counters.  The reference to the `MMU` is left out; no method reads it. -/
structure TLB where
  nEntries : Nat
  currentASID : Nat
  nLookups : Nat
  nHits : Nat
  nEvictions : Nat
  nFlush : Nat
  nFlushEvictions : Nat
deriving DecidableEq, Repr

def TLB.new (nEntries : Nat) : TLB := ⟨nEntries, 0, 0, 0, 0, 0, 0⟩

/-- `std::vector::resize`: the first `n` entries, completed with default entries. -/
def resize (v : List TLBEntry) (n : Nat) : List TLBEntry :=
  v.take n ++ List.replicate (n - v.length) default

/-- The slot `i` of the vector, the default entry past its end, where the C++
indexes out of bounds. -/
def slot (v : List TLBEntry) (i : Nat) : TLBEntry := v.getD i default

/-- The loops of `lookup` and `add`: the first of the first `n` slots that
satisfies `p`. -/
def firstSlot (p : TLBEntry → Bool) (v : List TLBEntry) (n : Nat) : Option Nat :=
  (List.range n).find? fun i => p (slot v i)

namespace TLBStatics

def initEntries (st : TLBStatics) (nEntries : Nat) : TLBStatics :=
  { st with tlbEntries := resize st.tlbEntries nEntries, tlbInitialized := true }

def pushFront (st : TLBStatics) (i : Nat) : TLBStatics :=
  { st with lruOrder := (st.nextNode, i) :: st.lruOrder,
            lruMap := Function.update st.lruMap i (some st.nextNode),
            nextNode := st.nextNode + 1 }

def unlink (st : TLBStatics) (i : Nat) : TLBStatics :=
  match st.lruMap i with
  | some node => { st with lruOrder := st.lruOrder.filter (·.1 != node) }
  | none => st

/-- The LRU replacement of `add`: the slot at the back of the order leaves it;
slot 0 when the order is empty. -/
def popBack (st : TLBStatics) : Nat × TLBStatics :=
  match st.lruOrder.getLast? with
  | some (_, i) =>
    (i, { st with lruOrder := st.lruOrder.dropLast, lruMap := Function.update st.lruMap i none })
  | none => (0, st)

end TLBStatics

namespace TLB

/-- `TLB::lookup`: the physical page of the first valid slot of the page under the
member `currentASID`, moved to the front of the LRU order. -/
def lookup (tlb : TLB) (st : TLBStatics) (vPage : Nat) : Option Nat × TLB × TLBStatics :=
  let tlb := { tlb with nLookups := tlb.nLookups + 1 }
  if !st.tlbInitialized then (none, tlb, st.initEntries tlb.nEntries)
  else
    match firstSlot (fun e => e.valid && e.vPage == vPage && e.asid == tlb.currentASID)
        st.tlbEntries tlb.nEntries with
    | none => (none, tlb, st)
    | some i =>
      (some (slot st.tlbEntries i).pPage, { tlb with nHits := tlb.nHits + 1 },
        (st.unlink i).pushFront i)

/-- The slot `add` replaces: the first invalid one, or else the least recently used
one, which counts as an eviction. -/
def replaceSlot (tlb : TLB) (st : TLBStatics) : Nat × TLB × TLBStatics :=
  match firstSlot (fun e => !e.valid) st.tlbEntries tlb.nEntries with
  | some i => (i, tlb, st)
  | none => (st.popBack.1, { tlb with nEvictions := tlb.nEvictions + 1 }, st.popBack.2)

/-- `TLB::add`: the replaced slot gets the entry, tagged with the member
`currentASID`. -/
def add (tlb : TLB) (st : TLBStatics) (vPage pPage : Nat) : TLB × TLBStatics :=
  let st := if !st.tlbInitialized then st.initEntries tlb.nEntries else st
  let r := tlb.replaceSlot st
  let st := r.2.2
  let st :=
    { st with tlbEntries := st.tlbEntries.set r.1 ⟨vPage, pPage, tlb.currentASID, true⟩ }
  (r.2.1, st.pushFront r.1)

def validCount (tlb : TLB) (st : TLBStatics) : Nat :=
  ((List.range tlb.nEntries).filter fun i => (slot st.tlbEntries i).valid).length

/-- `TLB::flush`: the first `nEntries` slots become invalid and the LRU order empty. -/
def flush (tlb : TLB) (st : TLBStatics) : TLB × TLBStatics :=
  let tlb := { tlb with nFlush := tlb.nFlush + 1 }
  if !st.tlbInitialized then (tlb, st)
  else
    ({ tlb with nFlushEvictions := tlb.nFlushEvictions + tlb.validCount st },
      { st with tlbEntries := st.tlbEntries.mapIdx fun i e =>
                  if i < tlb.nEntries then { e with valid := false } else e,
                lruOrder := [], lruMap := fun _ => none })

def clear (tlb : TLB) (st : TLBStatics) : TLB × TLBStatics :=
  let r := tlb.flush st
  ({ r.1 with nLookups := 0, nHits := 0, nEvictions := 0, nFlush := 0, nFlushEvictions := 0 },
    r.2)

def getStatistics (tlb : TLB) : Nat × Nat × Nat × Nat × Nat :=
  (tlb.nLookups, tlb.nHits, tlb.nEvictions, tlb.nFlush, tlb.nFlushEvictions)

end TLB

/-! ## The slots the calls leave -/

namespace TLBStatics

variable (st : TLBStatics) (i : Nat)

@[simp] theorem initEntries_tlbEntries (n : Nat) :
    (st.initEntries n).tlbEntries = resize st.tlbEntries n := rfl

@[simp] theorem initEntries_tlbInitialized (n : Nat) :
    (st.initEntries n).tlbInitialized = true := rfl

@[simp] theorem pushFront_tlbEntries : (st.pushFront i).tlbEntries = st.tlbEntries := rfl

@[simp] theorem pushFront_tlbInitialized :
    (st.pushFront i).tlbInitialized = st.tlbInitialized := rfl

@[simp] theorem unlink_tlbEntries : (st.unlink i).tlbEntries = st.tlbEntries := by
  unfold unlink
  split <;> rfl

@[simp] theorem unlink_tlbInitialized : (st.unlink i).tlbInitialized = st.tlbInitialized := by
  unfold unlink
  split <;> rfl

@[simp] theorem popBack_tlbEntries : st.popBack.2.tlbEntries = st.tlbEntries := by
  unfold popBack
  split <;> rfl

@[simp] theorem popBack_tlbInitialized : st.popBack.2.tlbInitialized = st.tlbInitialized := by
  unfold popBack
  split <;> rfl

end TLBStatics

theorem slot_resize {v : List TLBEntry} {n i : Nat} (h : i < n) :
    slot (resize v n) i = slot v i := by
  simp only [slot, resize, List.getD_eq_getElem?_getD]
  by_cases hv : i < v.length
  · rw [List.getElem?_append_left (by simp; omega), List.getElem?_take_of_lt h]
  · have hlen : (v.take n).length = v.length := by simp; omega
    rw [List.getElem?_append_right (by omega), hlen, List.getElem?_replicate, if_pos (by omega),
      List.getElem?_eq_none (by omega)]
    rfl

theorem slot_set (v : List TLBEntry) (j : Nat) (e : TLBEntry) (i : Nat) :
    slot (v.set j e) i = if i = j ∧ j < v.length then e else slot v i := by
  simp only [slot, List.getD_eq_getElem?_getD, List.getElem?_set]
  by_cases hij : i = j
  · subst hij
    by_cases hj : i < v.length
    · simp [hj]
    · simp [hj, List.getElem?_eq_none (not_lt.1 hj)]
  · simp [Ne.symm hij, hij]

namespace TLB

variable (tlb : TLB) (st : TLBStatics)

/-! The counters change, the capacity and the member `currentASID` stay. -/

@[simp] theorem lookup_nEntries (vPage : Nat) :
    (tlb.lookup st vPage).2.1.nEntries = tlb.nEntries := by
  unfold lookup
  dsimp only
  split_ifs
  · rfl
  · split <;> rfl

@[simp] theorem lookup_currentASID (vPage : Nat) :
    (tlb.lookup st vPage).2.1.currentASID = tlb.currentASID := by
  unfold lookup
  dsimp only
  split_ifs
  · rfl
  · split <;> rfl

@[simp] theorem replaceSlot_nEntries : (tlb.replaceSlot st).2.1.nEntries = tlb.nEntries := by
  unfold replaceSlot
  split <;> rfl

@[simp] theorem replaceSlot_currentASID :
    (tlb.replaceSlot st).2.1.currentASID = tlb.currentASID := by
  unfold replaceSlot
  split <;> rfl

@[simp] theorem replaceSlot_tlbEntries : (tlb.replaceSlot st).2.2.tlbEntries = st.tlbEntries := by
  unfold replaceSlot
  split <;> simp

@[simp] theorem replaceSlot_tlbInitialized :
    (tlb.replaceSlot st).2.2.tlbInitialized = st.tlbInitialized := by
  unfold replaceSlot
  split <;> simp

@[simp] theorem add_nEntries (vPage pPage : Nat) :
    (tlb.add st vPage pPage).1.nEntries = tlb.nEntries := by
  simp [add]

@[simp] theorem add_currentASID (vPage pPage : Nat) :
    (tlb.add st vPage pPage).1.currentASID = tlb.currentASID := by
  simp [add]

@[simp] theorem flush_nEntries : (tlb.flush st).1.nEntries = tlb.nEntries := by
  unfold flush
  split_ifs <;> rfl

@[simp] theorem flush_currentASID : (tlb.flush st).1.currentASID = tlb.currentASID := by
  unfold flush
  split_ifs <;> rfl

/-! The slots the calls leave -/

theorem lookup_initialized (vPage : Nat) : (tlb.lookup st vPage).2.2.tlbInitialized = true := by
  unfold lookup
  dsimp only
  split_ifs with h
  · rfl
  · split <;> simp_all

theorem lookup_slot (vPage : Nat) {i : Nat} (hi : i < tlb.nEntries) :
    slot (tlb.lookup st vPage).2.2.tlbEntries i = slot st.tlbEntries i := by
  unfold lookup
  dsimp only
  split_ifs
  · exact slot_resize hi
  · split <;> simp

variable {tlb st}

theorem lookup_hit {vPage pPage : Nat} (h : (tlb.lookup st vPage).1 = some pPage) :
    ∃ i < tlb.nEntries, (slot st.tlbEntries i).valid ∧ (slot st.tlbEntries i).vPage = vPage ∧
      (slot st.tlbEntries i).pPage = pPage := by
  unfold lookup at h
  dsimp only at h
  split_ifs at h
  split at h
  · cases h
  · rename_i i hfind
    have hmem := List.mem_of_find?_eq_some hfind
    have hp := List.find?_some hfind
    simp only [Bool.and_eq_true, beq_iff_eq] at hp
    cases h
    exact ⟨i, List.mem_range.1 hmem, hp.1.1, hp.1.2, rfl⟩

variable (tlb st)

theorem add_eq (vPage pPage : Nat) : ∃ st', st'.tlbInitialized = true ∧
    (∀ i < tlb.nEntries, slot st'.tlbEntries i = slot st.tlbEntries i) ∧
    tlb.add st vPage pPage =
      ((tlb.replaceSlot st').2.1,
        { (tlb.replaceSlot st').2.2 with
          tlbEntries := st'.tlbEntries.set (tlb.replaceSlot st').1
            ⟨vPage, pPage, tlb.currentASID, true⟩ }.pushFront (tlb.replaceSlot st').1) := by
  refine ⟨if !st.tlbInitialized then st.initEntries tlb.nEntries else st, ?_, fun i hi => ?_,
    by simp [add]⟩
  · split_ifs with h
    · rfl
    · simpa using h
  · split_ifs
    · exact slot_resize hi
    · rfl

theorem add_initialized (vPage pPage : Nat) : (tlb.add st vPage pPage).2.tlbInitialized = true := by
  obtain ⟨st', hinit, -, heq⟩ := tlb.add_eq st vPage pPage
  simp [heq, hinit]

theorem add_slot (vPage pPage : Nat) {i : Nat} (hi : i < tlb.nEntries) :
    slot (tlb.add st vPage pPage).2.tlbEntries i = ⟨vPage, pPage, tlb.currentASID, true⟩ ∨
      slot (tlb.add st vPage pPage).2.tlbEntries i = slot st.tlbEntries i := by
  obtain ⟨st', -, hslot, heq⟩ := tlb.add_eq st vPage pPage
  simp only [heq, TLBStatics.pushFront_tlbEntries, slot_set, ← hslot i hi]
  split_ifs <;> simp

theorem flush_slot {st : TLBStatics} (h : st.tlbInitialized = true) {i : Nat}
    (hi : i < tlb.nEntries) : (slot (tlb.flush st).2.tlbEntries i).valid = false := by
  simp only [flush, h, Bool.not_true, Bool.false_eq_true, if_false, slot,
    List.getD_eq_getElem?_getD, List.getElem?_mapIdx]
  cases st.tlbEntries[i]? with
  | none => rfl
  | some e => simp [hi]

theorem flush_of_not_initialized {st : TLBStatics} (h : st.tlbInitialized = false) :
    (tlb.flush st).2 = st := by
  simp [flush, h]

end TLB

inductive TLBOp
  | add (vPage pPage : Nat)
  | lookup (vPage : Nat)
  | flush
  | clear
  | setCurrentASID (asid : Nat)

def TLBOp.run : TLBOp → TLB → TLBStatics → Option Nat × TLB × TLBStatics
  | .add v p, tlb, st => (none, tlb.add st v p)
  | .lookup v, tlb, st => tlb.lookup st v
  | .flush, tlb, st => (none, tlb.flush st)
  | .clear, tlb, st => (none, tlb.clear st)
  | .setCurrentASID a, tlb, st => (none, tlb, { st with currentASID := a })

/-- Whether the call indexes only slots inside the vector.  The scan of `lookup`
reads the slots up to its hit, or all `nEntries` on a miss; the scan of `add` reads
up to the first invalid slot, which the model's default entries past the end also
are, and `add` then writes the slot it replaces; `flush` and `clear` read and write
all `nEntries`.  An uninitialised TLB only resizes the vector. -/
def TLBOp.inBounds : TLBOp → TLB → TLBStatics → Bool
  | .add _ _, tlb, st =>
    let st := if !st.tlbInitialized then st.initEntries tlb.nEntries else st
    (tlb.replaceSlot st).1 < st.tlbEntries.length
  | .lookup v, tlb, st =>
    !st.tlbInitialized || tlb.nEntries ≤ st.tlbEntries.length ||
      (firstSlot (fun e => e.valid && e.vPage == v && e.asid == tlb.currentASID)
        st.tlbEntries tlb.nEntries).isSome
  | .flush, tlb, st | .clear, tlb, st =>
    !st.tlbInitialized || tlb.nEntries ≤ st.tlbEntries.length
  | .setCurrentASID _, _, _ => true

def runOps : List TLBOp → TLB → TLBStatics → List (Option Nat) × TLB × TLBStatics
  | [], tlb, st => ([], tlb, st)
  | op :: ops, tlb, st =>
    let r := op.run tlb st
    let rs := runOps ops r.2.1 r.2.2
    (r.1 :: rs.1, rs.2)

/-- The ASID-tagged MRU list the TLB is meant to implement: `add` tags its entry with
the ASID of the last `setCurrentASID` and `lookup` looks under it. -/
def TLBOp.spec (nEntries : Nat) : TLBOp → Nat × List ListTlb.TLBEntry →
    Option Nat × (Nat × List ListTlb.TLBEntry)
  | .add v p, (asid, L) => (none, asid, ListTlb.MRU.addEntry nEntries L ⟨v, p, asid⟩)
  | .lookup v, (asid, L) =>
    let r := ListTlb.MRU.lookup L v asid
    (r.1, asid, r.2)
  | .flush, (asid, _) => (none, asid, [])
  | .clear, (asid, _) => (none, asid, [])
  | .setCurrentASID a, (_, L) => (none, a, L)

def specOps (nEntries : Nat) : List TLBOp → Nat × List ListTlb.TLBEntry →
    List (Option Nat) × (Nat × List ListTlb.TLBEntry)
  | [], s => ([], s)
  | op :: ops, s =>
    let r := op.spec nEntries s
    let rs := specOps nEntries ops r.2
    (r.1 :: rs.1, rs.2)

/-- On a TLB of two entries, re-adding a page leaves the first entry in the lower
slot, and the slot scan of `lookup` returns the superseded page 1 where the MRU list
returns page 2.  Adding under ASID 1 and looking up under ASID 2 hits as well, since
the TLB tags and compares with its member `currentASID`, always 0. -/
theorem tlb_readd_returns_superseded_page :
    (runOps [.add 5 1, .add 5 2, .lookup 5] (TLB.new 2) TLBStatics.init).1 =
        [none, none, some 1] ∧
      (specOps 2 [.add 5 1, .add 5 2, .lookup 5] (0, [])).1 = [none, none, some 2] ∧
      (runOps [.setCurrentASID 1, .add 5 1, .setCurrentASID 2, .lookup 5] (TLB.new 2)
        TLBStatics.init).1 = [none, none, none, some 1] ∧
      (specOps 2 [.setCurrentASID 1, .add 5 1, .setCurrentASID 2, .lookup 5] (0, [])).1 =
        [none, none, none, none] := by
  decide

end PageTables.Mmu
