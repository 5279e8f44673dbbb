import PageTables.Mmu.Tlb

/-!
# Runs of the slot TLB

Whole runs of the TLB of `unnamed/part_004`.

The slots, the LRU order and the flag `tlbInitialized` are file statics, so they
belong to no `TLB` object: a call leaves the same statics whichever object makes
it, as long as the capacity and the member `currentASID` agree, and the vector
keeps the size the first call gave it.  Calls on one object therefore change what
another finds, and an object of a larger capacity than the first caller's indexes
past the end of the vector.

For one object alone the statistics count its calls: after a `clear`, `nLookups`
and `nFlush` count the lookups and flushes, `nHits` the lookups that hit, and every
`add` is a valid slot, an eviction or an entry a flush invalidated.  The counters
are `int` in the source; these are their exact values.  And a hit answers with a
page added since the last flush.
-/

namespace PageTables.Mmu

/-! ## Several objects over the shared statics -/

/-- Calls on several TLB objects over the one set of statics, each call naming its
object: the answers in order, the objects and the statics. -/
def runObjects : List (Nat × TLBOp) → (Nat → TLB) → TLBStatics →
    List (Option Nat) × (Nat → TLB) × TLBStatics
  | [], tlbs, st => ([], tlbs, st)
  | (k, op) :: ops, tlbs, st =>
    let r := op.run (tlbs k) st
    let rs := runObjects ops (Function.update tlbs k r.2.1) r.2.2
    (r.1 :: rs.1, rs.2)

theorem runObjects_single (k : Nat) (ops : List TLBOp) :
    ∀ (tlbs : Nat → TLB) (st : TLBStatics),
      runObjects (ops.map fun op => (k, op)) tlbs st =
        ((runOps ops (tlbs k) st).1, Function.update tlbs k (runOps ops (tlbs k) st).2.1,
          (runOps ops (tlbs k) st).2.2) := by
  induction ops with
  | nil => intro tlbs st; simp [runObjects, runOps]
  | cons op ops ih =>
    intro tlbs st
    simp only [List.map_cons, runObjects, runOps, ih, Function.update_same,
      Function.update_idem]

/-- A call answers and leaves the statics the same whichever object makes it: only
the capacity and the member `currentASID` are read. -/
theorem TLBOp.run_eq_of_same_shape (op : TLBOp) (st : TLBStatics) {t t' : TLB}
    (hn : t.nEntries = t'.nEntries) (ha : t.currentASID = t'.currentASID) :
    (op.run t st).1 = (op.run t' st).1 ∧ (op.run t st).2.2 = (op.run t' st).2.2 := by
  obtain ⟨n, a, _⟩ := t
  obtain ⟨n', a', _⟩ := t'
  obtain rfl : n = n' := hn
  obtain rfl : a = a' := ha
  cases op with
  | lookup v =>
    simp only [TLBOp.run, TLB.lookup]
    split_ifs
    · exact ⟨rfl, rfl⟩
    · split <;> simp_all
  | add v p => simp only [TLBOp.run, TLB.add, TLB.replaceSlot]; split <;> simp_all
  | flush => simp only [TLBOp.run, TLB.flush]; split_ifs <;> simp
  | clear => simp only [TLBOp.run, TLB.clear, TLB.flush]; split_ifs <;> simp
  | setCurrentASID a => exact ⟨rfl, rfl⟩

theorem TLBOp.run_length (op : TLBOp) (tlb : TLB) {st : TLBStatics}
    (h : st.tlbInitialized = true) :
    (op.run tlb st).2.2.tlbEntries.length = st.tlbEntries.length ∧
      (op.run tlb st).2.2.tlbInitialized = true := by
  cases op with
  | lookup v =>
    simp only [TLBOp.run, TLB.lookup, h, Bool.not_true, Bool.false_eq_true, if_false]
    split <;> simp [h]
  | add v p => simp [TLBOp.run, TLB.add, h]
  | flush => simp [TLBOp.run, TLB.flush, h]
  | clear => simp [TLBOp.run, TLB.clear, TLB.flush, h]
  | setCurrentASID a => exact ⟨rfl, h⟩

/-- Along any calls of any objects, the vector keeps the size the first call gave
it, whatever the capacities of the later callers. -/
theorem runObjects_length (ops : List (Nat × TLBOp)) :
    ∀ (tlbs : Nat → TLB) {st : TLBStatics}, st.tlbInitialized = true →
      (runObjects ops tlbs st).2.2.tlbEntries.length = st.tlbEntries.length := by
  induction ops with
  | nil => intro tlbs st _; rfl
  | cons c ops ih =>
    intro tlbs st h
    obtain ⟨hlen, hinit⟩ := c.2.run_length (tlbs c.1) h
    simp only [runObjects]
    rw [ih _ hinit, hlen]

/-- Two objects of capacity 2: a flush of the second empties the slot the first
filled, so the first misses and counts no hit where, with the second's calls
deleted, it hits; and the second finds the entry the first added.  With capacities
1 and 4 the first call sizes the vector to one slot, so the first `add` of the
second object scans past its end. -/
theorem tlb_objects_share_slots :
    (runObjects [(1, .add 5 1), (2, .flush), (1, .lookup 5)] (fun _ => TLB.new 2)
        TLBStatics.init).1 = [none, none, none] ∧
      (runObjects ([(1, .add 5 1), (2, .flush), (1, .lookup 5)].filter fun c => c.1 != 2)
        (fun _ => TLB.new 2) TLBStatics.init).1 = [none, some 1] ∧
      ((runObjects [(1, .add 5 1), (2, .flush), (1, .lookup 5)] (fun _ => TLB.new 2)
        TLBStatics.init).2.1 1).nHits = 0 ∧
      ((runObjects ([(1, .add 5 1), (2, .flush), (1, .lookup 5)].filter fun c => c.1 != 2)
        (fun _ => TLB.new 2) TLBStatics.init).2.1 1).nHits = 1 ∧
      (runObjects [(1, .add 5 1), (2, .lookup 5)] (fun _ => TLB.new 2) TLBStatics.init).1 =
        [none, some 1] ∧
      (runObjects [(1, .add 5 1)] (fun k => TLB.new (if k = 1 then 1 else 4))
        TLBStatics.init).2.2.tlbEntries.length = 1 ∧
      (TLBOp.add 6 2).inBounds (TLB.new 4) (runObjects [(1, .add 5 1)]
        (fun k => TLB.new (if k = 1 then 1 else 4)) TLBStatics.init).2.2 = false := by
  decide

/-! ## The statistics of one object -/

def TLBOp.isLookup : TLBOp → Bool
  | .lookup _ => true
  | _ => false

def TLBOp.isFlush : TLBOp → Bool
  | .flush => true
  | _ => false

def TLBOp.isAdd : TLBOp → Bool
  | .add _ _ => true
  | _ => false

/-- `INT_MAX` of the 32-bit `int` that the counters have in `unnamed/part_005`. -/
def intMax : Nat := 2 ^ 31 - 1

/-- What one object alone keeps of the statics: before its first call the vector is
empty, after it the vector has one slot per entry. -/
def Sized (n : Nat) (st : TLBStatics) : Prop :=
  (st.tlbInitialized = true → st.tlbEntries.length = n) ∧
    (st.tlbInitialized = false → st.tlbEntries = [])

theorem sized_init (n : Nat) : Sized n TLBStatics.init := ⟨nofun, fun _ => rfl⟩

theorem countP_range_flip {p q : Nat → Bool} {j : Nat} (hp : p j = false) (hq : q j = true)
    (h : ∀ i, i ≠ j → q i = p i) :
    ∀ {n : Nat}, j < n → (List.range n).countP q = (List.range n).countP p + 1
  | 0, hj => absurd hj (Nat.not_lt_zero j)
  | n + 1, hj => by
    rw [List.range_succ, List.countP_append, List.countP_append]
    by_cases hjn : j = n
    · subst hjn
      have hbelow : (List.range j).countP q = (List.range j).countP p :=
        List.countP_congr fun i hi => by rw [h i (List.mem_range.1 hi).ne]
      simp [hbelow, hp, hq]
    · rw [countP_range_flip hp hq h (by omega : j < n)]
      simp only [List.countP_singleton, h n (Ne.symm hjn)]
      omega

theorem length_resize (v : List TLBEntry) (n : Nat) : (resize v n).length = n := by
  simp only [resize, List.length_append, List.length_take, List.length_replicate]
  omega

namespace TLB

theorem validCount_congr {tlb tlb' : TLB} {st st' : TLBStatics}
    (hn : tlb'.nEntries = tlb.nEntries)
    (h : ∀ i < tlb.nEntries, (slot st'.tlbEntries i).valid = (slot st.tlbEntries i).valid) :
    tlb'.validCount st' = tlb.validCount st := by
  unfold validCount
  rw [hn, List.filter_congr fun i hi => h i (List.mem_range.1 hi)]

theorem validCount_eq_zero {tlb : TLB} {st : TLBStatics}
    (h : ∀ i < tlb.nEntries, (slot st.tlbEntries i).valid = false) : tlb.validCount st = 0 := by
  unfold validCount
  rw [List.length_eq_zero, List.filter_eq_nil_iff]
  intro i hi
  simp [h i (List.mem_range.1 hi)]

theorem validCount_nil (tlb : TLB) {st : TLBStatics} (h : st.tlbEntries = []) :
    tlb.validCount st = 0 :=
  validCount_eq_zero fun i _ => by simp [h, slot]; rfl

theorem validCount_of_set {tlb : TLB} {st st' : TLBStatics} {j : Nat} {e : TLBEntry}
    (hst : st'.tlbEntries = st.tlbEntries.set j e) (hj : j < tlb.nEntries)
    (hlen : j < st.tlbEntries.length) (hold : (slot st.tlbEntries j).valid = false)
    (he : e.valid = true) : tlb.validCount st' = tlb.validCount st + 1 := by
  unfold validCount
  simp only [← List.countP_eq_length_filter]
  exact countP_range_flip hold (by simp [hst, slot_set, hlen, he])
    (fun i hi => by simp [hst, slot_set, hi]) hj

theorem validCount_initEntries (tlb : TLB) (st : TLBStatics) :
    tlb.validCount (st.initEntries tlb.nEntries) = tlb.validCount st :=
  validCount_congr rfl fun _ hi => by rw [TLBStatics.initEntries_tlbEntries, slot_resize hi]

theorem lookup_counters (tlb : TLB) (st : TLBStatics) (vPage : Nat) :
    (tlb.lookup st vPage).2.1 =
      { tlb with nLookups := tlb.nLookups + 1,
                 nHits := tlb.nHits + if (tlb.lookup st vPage).1.isSome then 1 else 0 } := by
  unfold lookup
  cases st.tlbInitialized
  · rfl
  · simp only [Bool.not_true, Bool.false_eq_true, if_false]
    split <;> simp_all

theorem add_of_not_initialized (tlb : TLB) {st : TLBStatics} (h : st.tlbInitialized = false)
    (vPage pPage : Nat) : tlb.add st vPage pPage = tlb.add (st.initEntries tlb.nEntries) vPage pPage := by
  simp [add, h]

theorem add_counts {tlb : TLB} {st : TLBStatics} (hinit : st.tlbInitialized = true)
    (hlen : st.tlbEntries.length = tlb.nEntries) (vPage pPage : Nat) :
    (tlb.add st vPage pPage).1 = { tlb with nEvictions := (tlb.add st vPage pPage).1.nEvictions } ∧
      (tlb.add st vPage pPage).1.validCount (tlb.add st vPage pPage).2 +
          (tlb.add st vPage pPage).1.nEvictions = tlb.validCount st + tlb.nEvictions + 1 := by
  simp only [add, hinit, Bool.not_true, Bool.false_eq_true, if_false]
  unfold replaceSlot
  split
  · rename_i i hfind
    have hi := List.mem_range.1 (List.mem_of_find?_eq_some hfind)
    have hfree : (slot st.tlbEntries i).valid = false := by simpa using List.find?_some hfind
    exact ⟨rfl, by rw [validCount_of_set rfl hi (by omega) hfree rfl]; exact Nat.add_right_comm _ _ _⟩
  · rename_i hnone
    have hall : ∀ i < tlb.nEntries, (slot st.tlbEntries i).valid = true := fun i hi => by
      simpa using List.find?_eq_none.1 hnone i (List.mem_range.2 hi)
    refine ⟨rfl, ?_⟩
    rw [validCount_congr rfl fun i hi => ?_]
    · rfl
    · simp only [TLBStatics.pushFront_tlbEntries, TLBStatics.popBack_tlbEntries, slot_set]
      split_ifs <;> simp [hall i hi]

theorem flush_counts (tlb : TLB) {st : TLBStatics} (hinit : st.tlbInitialized = true) :
    (tlb.flush st).1 =
        { tlb with nFlush := tlb.nFlush + 1,
                   nFlushEvictions := tlb.nFlushEvictions + tlb.validCount st } ∧
      (tlb.flush st).1.validCount (tlb.flush st).2 = 0 := by
  refine ⟨by simp [flush, hinit]; rfl, validCount_eq_zero fun i hi => ?_⟩
  exact tlb.flush_slot hinit (by simpa using hi)

theorem add_counts_of_sized {tlb : TLB} {st : TLBStatics} (hs : Sized tlb.nEntries st)
    (vPage pPage : Nat) :
    (tlb.add st vPage pPage).1 = { tlb with nEvictions := (tlb.add st vPage pPage).1.nEvictions } ∧
      (tlb.add st vPage pPage).1.validCount (tlb.add st vPage pPage).2 +
          (tlb.add st vPage pPage).1.nEvictions = tlb.validCount st + tlb.nEvictions + 1 := by
  cases hinit : st.tlbInitialized
  · rw [add_of_not_initialized tlb hinit, ← validCount_initEntries tlb st]
    exact add_counts (show (st.initEntries tlb.nEntries).tlbInitialized = true from rfl)
      (length_resize _ _) vPage pPage
  · exact add_counts hinit (hs.1 hinit) vPage pPage

theorem flush_of_not_initialized_eq (tlb : TLB) {st : TLBStatics}
    (h : st.tlbInitialized = false) : tlb.flush st = ({ tlb with nFlush := tlb.nFlush + 1 }, st) := by
  simp [flush, h]

end TLB

theorem TLBOp.run_nEntries (op : TLBOp) (tlb : TLB) (st : TLBStatics) :
    (op.run tlb st).2.1.nEntries = tlb.nEntries := by
  cases op <;> simp [TLBOp.run, TLB.clear]

theorem Sized.run {n : Nat} {st : TLBStatics} (hs : Sized n st) (op : TLBOp) {tlb : TLB}
    (hn : tlb.nEntries = n) : Sized n (op.run tlb st).2.2 := by
  cases hinit : st.tlbInitialized
  · cases op with
    | lookup v =>
      have hst : (tlb.lookup st v).2.2 = st.initEntries n := by simp [TLB.lookup, hinit, hn]
      exact ⟨fun _ => by simp [TLBOp.run, hst, length_resize], by simp [TLBOp.run, hst]⟩
    | add v p =>
      obtain ⟨hlen, hin⟩ := (TLBOp.add v p).run_length tlb
        (show (st.initEntries tlb.nEntries).tlbInitialized = true from rfl)
      simp only [TLBOp.run, TLB.add_of_not_initialized tlb hinit] at hlen hin ⊢
      exact ⟨fun _ => by rw [hlen, TLBStatics.initEntries_tlbEntries, length_resize, hn],
        by simp [hin]⟩
    | flush => simpa [TLBOp.run, TLB.flush_of_not_initialized_eq tlb hinit] using hs
    | clear => simpa [TLBOp.run, TLB.clear, TLB.flush_of_not_initialized_eq tlb hinit] using hs
    | setCurrentASID a => exact hs
  · obtain ⟨hlen, hin⟩ := op.run_length tlb hinit
    exact ⟨fun _ => hlen.trans (hs.1 hinit), by simp [hin]⟩

theorem TLBOp.run_counts (op : TLBOp) (hop : op ≠ .clear) (tlb : TLB) {st : TLBStatics}
    (hs : Sized tlb.nEntries st) :
    (op.run tlb st).2.1.nLookups = tlb.nLookups + (if op.isLookup then 1 else 0) ∧
      (op.run tlb st).2.1.nHits = tlb.nHits + (if (op.run tlb st).1.isSome then 1 else 0) ∧
      ((op.run tlb st).1.isSome → op.isLookup) ∧
      (op.run tlb st).2.1.nFlush = tlb.nFlush + (if op.isFlush then 1 else 0) ∧
      (op.run tlb st).2.1.validCount (op.run tlb st).2.2 + (op.run tlb st).2.1.nEvictions +
          (op.run tlb st).2.1.nFlushEvictions =
        tlb.validCount st + tlb.nEvictions + tlb.nFlushEvictions + (if op.isAdd then 1 else 0) := by
  cases op with
  | lookup v =>
    have hvalid : (tlb.lookup st v).2.1.validCount (tlb.lookup st v).2.2 = tlb.validCount st :=
      TLB.validCount_congr (by simp) fun i hi => by rw [tlb.lookup_slot st v hi]
    simp only [TLBOp.run, hvalid]
    rw [TLB.lookup_counters]
    simp [TLBOp.isLookup, TLBOp.isFlush, TLBOp.isAdd]
  | add v p =>
    obtain ⟨hc, hsum⟩ := TLB.add_counts_of_sized hs v p
    simp only [TLBOp.run, Option.isSome_none, Bool.false_eq_true, if_false, false_implies,
      TLBOp.isLookup, TLBOp.isFlush, TLBOp.isAdd, if_true]
    rw [hc] at hsum ⊢
    exact ⟨rfl, rfl, trivial, rfl, by dsimp only at hsum ⊢; omega⟩
  | flush =>
    cases hinit : st.tlbInitialized
    · simp [TLBOp.run, TLB.flush_of_not_initialized_eq tlb hinit, TLBOp.isLookup, TLBOp.isFlush,
        TLBOp.isAdd, TLB.validCount]
    · obtain ⟨hc, hzero⟩ := tlb.flush_counts hinit
      simp only [TLBOp.run, hzero]
      rw [hc]
      simp only [TLBOp.isLookup, TLBOp.isFlush, TLBOp.isAdd]
      simp
      omega
  | clear => exact absurd rfl hop
  | setCurrentASID a => simp [TLBOp.run, TLBOp.isLookup, TLBOp.isFlush, TLBOp.isAdd, TLB.validCount]

theorem Sized.runOps {n : Nat} (ops : List TLBOp) :
    ∀ {tlb : TLB} {st : TLBStatics}, tlb.nEntries = n → Sized n st →
      (runOps ops tlb st).2.1.nEntries = n ∧ Sized n (runOps ops tlb st).2.2 := by
  induction ops with
  | nil => exact fun hn hs => ⟨hn, hs⟩
  | cons op ops ih =>
    intro tlb st hn hs
    exact ih ((op.run_nEntries tlb st).trans hn) (hs.run op hn)

/-- Along calls of the object alone with no `clear`, each counter gains what it
counts, and the adds are the valid slots, evictions and flush evictions gained. -/
theorem runOps_counts (ops : List TLBOp) (hops : TLBOp.clear ∉ ops) :
    ∀ {tlb : TLB} {st : TLBStatics}, Sized tlb.nEntries st →
      (runOps ops tlb st).2.1.nLookups = tlb.nLookups + ops.countP TLBOp.isLookup ∧
      (runOps ops tlb st).2.1.nHits = tlb.nHits + (runOps ops tlb st).1.countP Option.isSome ∧
      (runOps ops tlb st).1.countP Option.isSome ≤ ops.countP TLBOp.isLookup ∧
      (runOps ops tlb st).2.1.nFlush = tlb.nFlush + ops.countP TLBOp.isFlush ∧
      (runOps ops tlb st).2.1.validCount (runOps ops tlb st).2.2 +
          (runOps ops tlb st).2.1.nEvictions + (runOps ops tlb st).2.1.nFlushEvictions =
        tlb.validCount st + tlb.nEvictions + tlb.nFlushEvictions + ops.countP TLBOp.isAdd := by
  induction ops with
  | nil => intro tlb st _; simp [runOps]
  | cons op ops ih =>
    intro tlb st hs
    rw [List.mem_cons, not_or] at hops
    obtain ⟨h1, h2, h3, h4, h5⟩ := op.run_counts (Ne.symm hops.1) tlb hs
    have hs' : Sized (op.run tlb st).2.1.nEntries (op.run tlb st).2.2 := by
      rw [op.run_nEntries]
      exact hs.run op rfl
    obtain ⟨i1, i2, i3, i4, i5⟩ := ih hops.2 hs'
    have hhit : (if (op.run tlb st).1.isSome then 1 else 0) ≤ if op.isLookup then 1 else 0 := by
      split_ifs <;> simp_all
    simp only [runOps, List.countP_cons]
    exact ⟨by omega, by omega, by omega, by omega, by omega⟩

theorem TLB.clear_counts (tlb : TLB) {st : TLBStatics} (hs : Sized tlb.nEntries st) :
    (tlb.clear st).1 = { tlb with nLookups := 0, nHits := 0, nEvictions := 0, nFlush := 0,
                                  nFlushEvictions := 0 } ∧
      (tlb.clear st).1.validCount (tlb.clear st).2 = 0 := by
  cases hinit : st.tlbInitialized
  · simp only [TLB.clear, tlb.flush_of_not_initialized_eq hinit]
    exact ⟨trivial, TLB.validCount_nil _ (hs.2 hinit)⟩
  · obtain ⟨hc, hzero⟩ := tlb.flush_counts hinit
    exact ⟨by simp only [TLB.clear, hc], hzero⟩

/-- The counts of a run of the object alone after a `clear`. -/
theorem counts_after_clear {tlb : TLB} {st : TLBStatics} (hs : Sized tlb.nEntries st)
    (ops : List TLBOp) (hops : TLBOp.clear ∉ ops) :
    (runOps ops (tlb.clear st).1 (tlb.clear st).2).2.1.nLookups = ops.countP TLBOp.isLookup ∧
      (runOps ops (tlb.clear st).1 (tlb.clear st).2).2.1.nHits =
        (runOps ops (tlb.clear st).1 (tlb.clear st).2).1.countP Option.isSome ∧
      (runOps ops (tlb.clear st).1 (tlb.clear st).2).1.countP Option.isSome ≤
        ops.countP TLBOp.isLookup ∧
      (runOps ops (tlb.clear st).1 (tlb.clear st).2).2.1.nFlush = ops.countP TLBOp.isFlush ∧
      ops.countP TLBOp.isAdd =
        (runOps ops (tlb.clear st).1 (tlb.clear st).2).2.1.validCount
            (runOps ops (tlb.clear st).1 (tlb.clear st).2).2.2 +
          (runOps ops (tlb.clear st).1 (tlb.clear st).2).2.1.nEvictions +
          (runOps ops (tlb.clear st).1 (tlb.clear st).2).2.1.nFlushEvictions := by
  obtain ⟨hc, hzero⟩ := tlb.clear_counts hs
  have hs' : Sized (tlb.clear st).1.nEntries (tlb.clear st).2 := by
    rw [hc]
    exact hs.run .clear rfl
  obtain ⟨h1, h2, h3, h4, h5⟩ := runOps_counts ops hops hs'
  have hz : (tlb.clear st).1.nLookups = 0 ∧ (tlb.clear st).1.nHits = 0 ∧
      (tlb.clear st).1.nFlush = 0 ∧ (tlb.clear st).1.nEvictions = 0 ∧
      (tlb.clear st).1.nFlushEvictions = 0 := by
    rw [hc]
    exact ⟨rfl, rfl, rfl, rfl, rfl⟩
  exact ⟨by omega, by omega, h3, by omega, by omega⟩

/-- For one TLB object of at least one entry, from its construction and any calls,
then a `clear`: along any calls with no further `clear`, `nLookups` is the number
of lookups, `nHits` the number of answers, at most `nLookups`, `nFlush` the number
of flushes, and the adds are the valid slots plus the evictions plus the flush
evictions.  (With no entry the first `add` writes slot 0 of the empty vector.) -/
theorem tlb_statistics_count_calls (n : Nat) (_hn : 0 < n) (pre ops : List TLBOp)
    (hops : TLBOp.clear ∉ ops) :
    let c := (runOps pre (TLB.new n) TLBStatics.init).2
    let r := runOps ops (c.1.clear c.2).1 (c.1.clear c.2).2
    r.2.1.nLookups = ops.countP TLBOp.isLookup ∧
      r.2.1.nHits = r.1.countP Option.isSome ∧ r.2.1.nHits ≤ r.2.1.nLookups ∧
      r.2.1.nFlush = ops.countP TLBOp.isFlush ∧
      ops.countP TLBOp.isAdd = r.2.1.validCount r.2.2 + r.2.1.nEvictions + r.2.1.nFlushEvictions := by
  intro c r
  obtain ⟨hN, hs⟩ := Sized.runOps pre (show (TLB.new n).nEntries = n from rfl) (sized_init n)
  obtain ⟨h1, h2, h3, h4, h5⟩ :=
    counts_after_clear (show Sized c.1.nEntries c.2 from hN ▸ hs) ops hops
  exact ⟨h1, h2, (h2.trans_le h3).trans_eq h1.symm, h4, h5⟩

theorem tlb_statistics_count_calls_after_add :
    0 < 2 ∧ TLBOp.clear ∉ [.add 5 1, .lookup 5, .add 6 2, .add 7 3, .flush] ∧
      let c := (runOps [.add 5 1] (TLB.new 2) TLBStatics.init).2
      let r := runOps [.add 5 1, .lookup 5, .add 6 2, .add 7 3, .flush] (c.1.clear c.2).1
        (c.1.clear c.2).2
      r.2.1.nLookups = [.add 5 1, .lookup 5, .add 6 2, .add 7 3, .flush].countP TLBOp.isLookup ∧
        r.2.1.nHits = r.1.countP Option.isSome ∧ r.2.1.nHits ≤ r.2.1.nLookups ∧
        r.2.1.nFlush = [.add 5 1, .lookup 5, .add 6 2, .add 7 3, .flush].countP TLBOp.isFlush ∧
        [.add 5 1, .lookup 5, .add 6 2, .add 7 3, .flush].countP TLBOp.isAdd =
          r.2.1.validCount r.2.2 + r.2.1.nEvictions + r.2.1.nFlushEvictions :=
  ⟨by decide, by simp, tlb_statistics_count_calls 2 (by decide) [.add 5 1] _ (by simp)⟩

/-- After a `clear`, `2 ^ 31` lookups take `nLookups` past `INT_MAX`: the `int`
counter of the source overflows on the last of them. -/
theorem lookups_overflow_int_counter :
    intMax < (runOps (List.replicate (2 ^ 31) (.lookup 0)) ((TLB.new 1).clear TLBStatics.init).1
      ((TLB.new 1).clear TLBStatics.init).2).2.1.nLookups := by
  have hops : TLBOp.clear ∉ List.replicate (2 ^ 31) (TLBOp.lookup 0) := by
    simp only [List.mem_replicate, ne_eq, reduceCtorEq, and_false, not_false_eq_true]
  have hs : Sized (TLB.new 1).nEntries TLBStatics.init := sized_init 1
  rw [(counts_after_clear hs _ hops).1, List.countP_replicate]
  simp only [TLBOp.isLookup, if_true, intMax]
  omega

/-! ## What a hit returns

A hit answers with the physical page of a valid slot, and a slot becomes valid only
through `add`; a `flush` or `clear` invalidates every slot of the object.  So along
the calls of one object, every hit returns a translation added since the last
`flush` or `clear`: the TLB never invents one, though it may return one that a later
`add` of the same page superseded. -/

/-- The translations a call leaves in the set of those added since the last flush:
an add puts its pair in, a `flush` or `clear` empties the set. -/
def TLBOp.adds : TLBOp → List (Nat × Nat) → List (Nat × Nat)
  | .add v p, A => (v, p) :: A
  | .flush, _ => []
  | .clear, _ => []
  | .lookup _, A => A
  | .setCurrentASID _, A => A

def addsSinceFlush (ops : List TLBOp) : List (Nat × Nat) :=
  ops.foldl (fun A op => op.adds A) []

def FromAdds (n : Nat) (A : List (Nat × Nat)) (st : TLBStatics) : Prop :=
  ∀ i < n, (slot st.tlbEntries i).valid = true →
    ((slot st.tlbEntries i).vPage, (slot st.tlbEntries i).pPage) ∈ A

theorem TLB.flush_invalidates {n : Nat} {tlb : TLB} {st : TLBStatics} (hs : Sized n st)
    (htlb : tlb.nEntries = n) {i : Nat} (hi : i < n) :
    (slot (tlb.flush st).2.tlbEntries i).valid = false := by
  cases hinit : st.tlbInitialized
  · rw [tlb.flush_of_not_initialized hinit, hs.2 hinit]
    rfl
  · exact tlb.flush_slot hinit (htlb ▸ hi)

theorem FromAdds.run {n : Nat} {A : List (Nat × Nat)} {st : TLBStatics} (h : FromAdds n A st)
    (hs : Sized n st) (op : TLBOp) {tlb : TLB} (htlb : tlb.nEntries = n) :
    FromAdds n (op.adds A) (op.run tlb st).2.2 := by
  intro i hi hv
  cases op with
  | add v p =>
    dsimp only [TLBOp.run, TLBOp.adds] at hv ⊢
    rcases tlb.add_slot st v p (htlb ▸ hi) with he | he
    · rw [he]
      exact List.mem_cons_self _ _
    · rw [he] at hv ⊢
      exact List.mem_cons_of_mem _ (h i hi hv)
  | lookup v =>
    dsimp only [TLBOp.run, TLBOp.adds] at hv ⊢
    rw [tlb.lookup_slot st v (htlb ▸ hi)] at hv ⊢
    exact h i hi hv
  | flush =>
    dsimp only [TLBOp.run] at hv
    rw [TLB.flush_invalidates hs htlb hi] at hv
    cases hv
  | clear =>
    dsimp only [TLBOp.run, TLB.clear] at hv
    rw [TLB.flush_invalidates hs htlb hi] at hv
    cases hv
  | setCurrentASID a => exact h i hi hv

theorem FromAdds.runOps {n : Nat} (ops : List TLBOp) :
    ∀ {tlb : TLB} {st : TLBStatics} {A : List (Nat × Nat)}, tlb.nEntries = n → Sized n st →
      FromAdds n A st → FromAdds n (ops.foldl (fun A op => op.adds A) A) (runOps ops tlb st).2.2 := by
  induction ops with
  | nil => exact fun _ _ h => h
  | cons op ops ih =>
    intro tlb st A htlb hs h
    exact ih ((op.run_nEntries tlb st).trans htlb) (hs.run op htlb) (h.run hs op htlb)

/-- For one TLB object, from its construction and along any calls `pre`, a lookup
that hits returns the physical page of a translation added for the same virtual
page since the last `flush` or `clear`. -/
theorem tlb_hit_was_added (n : Nat) (pre : List TLBOp) (vPage pPage : Nat)
    (h : ((runOps pre (TLB.new n) TLBStatics.init).2.1.lookup
      (runOps pre (TLB.new n) TLBStatics.init).2.2 vPage).1 = some pPage) :
    (vPage, pPage) ∈ addsSinceFlush pre := by
  obtain ⟨hn, hs⟩ := Sized.runOps pre (show (TLB.new n).nEntries = n from rfl) (sized_init n)
  have hfrom := FromAdds.runOps pre (show (TLB.new n).nEntries = n from rfl) (sized_init n)
    (A := []) fun i _ hv => by simp [TLBStatics.init, slot] at hv
  obtain ⟨i, hi, hv, hvp, hpp⟩ := TLB.lookup_hit h
  rw [← hvp, ← hpp]
  exact hfrom i (hn ▸ hi) hv

/-- Re-adding page 5 on a TLB of two entries: the lookup returns the superseded
page 1, a translation that was added. -/
theorem tlb_hit_was_added_superseded :
    ((runOps [.add 5 1, .add 5 2] (TLB.new 2) TLBStatics.init).2.1.lookup
      (runOps [.add 5 1, .add 5 2] (TLB.new 2) TLBStatics.init).2.2 5).1 = some 1 ∧
      (5, 1) ∈ addsSinceFlush [.add 5 1, .add 5 2] :=
  ⟨by decide, tlb_hit_was_added 2 _ 5 1 (by decide)⟩

end PageTables.Mmu
