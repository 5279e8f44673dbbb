import Mathlib

/-!
# The list TLB of `tlb.h`

`TLB` of `tlb.h` and `unnamed/part_000`: a `std::list` of entries, most recently
used first, and an `unordered_map` from a virtual address to the list iterator of
its entry.  A list node is a pair of a node identity and its entry, and an iterator
is the identity of the node it points to; `nextNode` is the identity of the node
the next `push_front` creates.  An operation returns `none` where the code has
undefined behaviour: it dereferences an iterator whose node is gone.

`MRU` is what the class is for: a list of entries, most recently used first, with
one entry per virtual address and at most `numEntries` of them.
-/

namespace PageTables.ListTlb

structure TLBEntry where
  virtualAddress : Nat
  physicalAddress : Nat
  asid : Nat
deriving DecidableEq, Repr

/-- `TLB` of `tlb.h`: the capacity, the list `entries` and the index `cache`. -/
structure TLB where
  numEntries : Nat
  entries : List (Nat × TLBEntry)
  cache : Nat → Option Nat
  nextNode : Nat

namespace TLB

def new (numEntries : Nat) : TLB := ⟨numEntries, [], fun _ => none, 0⟩

def deref (t : TLB) (node : Nat) : Option TLBEntry :=
  (t.entries.find? (·.1 == node)).map Prod.snd

/-- The first block of `addEntry`: the node the index names for the address leaves
the list (`entries.erase(it->second)`) and the address leaves the index. -/
def eraseAddress (t : TLB) (virtualAddress : Nat) : Option TLB :=
  match t.cache virtualAddress with
  | none => some t
  | some node =>
    if t.entries.any (·.1 == node) then
      some { t with entries := t.entries.filter (·.1 != node),
                    cache := Function.update t.cache virtualAddress none }
    else none

/-- The second block of `addEntry`: at capacity the back entry leaves the index and
the list. -/
def evictBack (t : TLB) : Option TLB :=
  if t.entries.length = t.numEntries then
    match t.entries.getLast? with
    | none => none
    | some (_, last) =>
      some { t with cache := Function.update t.cache last.virtualAddress none,
                    entries := t.entries.dropLast }
  else some t

def pushFront (t : TLB) (entry : TLBEntry) : TLB :=
  { t with entries := (t.nextNode, entry) :: t.entries,
           cache := Function.update t.cache entry.virtualAddress (some t.nextNode),
           nextNode := t.nextNode + 1 }

def addEntry (t : TLB) (virtualAddress physicalAddress asid : Nat) : Option TLB := do
  let t ← t.eraseAddress virtualAddress
  let t ← t.evictBack
  pure (t.pushFront ⟨virtualAddress, physicalAddress, asid⟩)

/-- `TLB::lookup`: the physical address on a hit, with its node spliced to the
front of the list. -/
def lookup (t : TLB) (virtualAddress asid : Nat) : Option (Option Nat × TLB) :=
  match t.cache virtualAddress with
  | none => some (none, t)
  | some node =>
    match t.deref node with
    | none => none
    | some entry =>
      if entry.asid = asid then
        some (some entry.physicalAddress,
          { t with entries := (node, entry) :: t.entries.filter (·.1 != node) })
      else some (none, t)

def flush (t : TLB) : TLB := { t with entries := [], cache := fun _ => none }

/-- The loop of `TLB::flushASID` from an iterator on: a node of `asid` leaves the
list and its address leaves the index. -/
def flushASIDFrom (asid : Nat) : List (Nat × TLBEntry) → (Nat → Option Nat) →
    List (Nat × TLBEntry) × (Nat → Option Nat)
  | [], cache => ([], cache)
  | (node, entry) :: rest, cache =>
    if entry.asid = asid then
      flushASIDFrom asid rest (Function.update cache entry.virtualAddress none)
    else
      let r := flushASIDFrom asid rest cache
      ((node, entry) :: r.1, r.2)

def flushASID (t : TLB) (asid : Nat) : TLB :=
  let r := flushASIDFrom asid t.entries t.cache
  { t with entries := r.1, cache := r.2 }

end TLB

inductive TLBOp
  | addEntry (virtualAddress physicalAddress asid : Nat)
  | lookup (virtualAddress asid : Nat)
  | flush
  | flushASID (asid : Nat)

def TLBOp.run : TLBOp → TLB → Option (Option Nat × TLB)
  | .addEntry v p a, t => (t.addEntry v p a).map fun t => (none, t)
  | .lookup v a, t => t.lookup v a
  | .flush, t => some (none, t.flush)
  | .flushASID a, t => some (none, t.flushASID a)

def runOps : List TLBOp → TLB → Option (List (Option Nat) × TLB)
  | [], t => some ([], t)
  | op :: ops, t =>
    (op.run t).bind fun r => (runOps ops r.2).map fun rs => (r.1 :: rs.1, rs.2)

namespace MRU

/-- Adding `entry`: any entry for its address goes, the list keeps its first
`numEntries - 1` entries, and `entry` comes first. -/
def addEntry (numEntries : Nat) (L : List TLBEntry) (entry : TLBEntry) : List TLBEntry :=
  entry :: (L.filter (·.virtualAddress != entry.virtualAddress)).take (numEntries - 1)

def lookup (L : List TLBEntry) (virtualAddress asid : Nat) : Option Nat × List TLBEntry :=
  match L.find? fun e => e.virtualAddress == virtualAddress && e.asid == asid with
  | none => (none, L)
  | some e => (some e.physicalAddress, e :: L.erase e)

def flushASID (L : List TLBEntry) (asid : Nat) : List TLBEntry := L.filter (·.asid != asid)

def run (numEntries : Nat) : TLBOp → List TLBEntry → Option Nat × List TLBEntry
  | .addEntry v p a, L => (none, addEntry numEntries L ⟨v, p, a⟩)
  | .lookup v a, L => lookup L v a
  | .flush, _ => (none, [])
  | .flushASID a, L => (none, flushASID L a)

def runOps (numEntries : Nat) : List TLBOp → List TLBEntry → List (Option Nat) × List TLBEntry
  | [], L => ([], L)
  | op :: ops, L =>
    let r := run numEntries op L
    let rs := runOps numEntries ops r.2
    (r.1 :: rs.1, rs.2)

end MRU

end PageTables.ListTlb
