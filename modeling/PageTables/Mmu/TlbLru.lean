import PageTables.Mmu.TlbRuns
import PageTables.Tlb.ListTlbRefinement

/-!
# The LRU order of the slot TLB

`TLB` of `unnamed/part_004` keeps its replacement order in two statics: the list
`lruOrder` of slots, most recently used first, and the map `lruMap` from a slot to
the iterator of its node.  A hit or a fill moves the slot to the front, through the
iterator `lruMap` holds for it; an `add` that finds no invalid slot takes the slot
at the back, the least recently used.

What the pair stands for is a plain list of slots under move-to-front
(`LruStatics`).  For one TLB object of at least one entry, every call keeps the
pair consistent (`Links`: each slot at most once, each node once and older than
`nextNode`, and `lruMap` naming exactly the listed nodes) and the listed slots
exactly the valid ones below the capacity (`LruInv`); and every call on the statics
is the same call on the plain list (`lru_order_is_move_to_front`).  In particular
the slot an `add` evicts is the last of the plain list.

The same invariant keeps every call of one object inside the vector
(`TLBOp.inBounds`), so the default entries and dropped writes the model gives past
the end of the vector are never reached by a single object.
-/

namespace PageTables.Mmu

/-! ## The plain list of slots -/

/-- The statics with the replacement order as a plain list of slots, most recently
used first. -/
structure LruStatics where
  tlbEntries : List TLBEntry
  order : List Nat
  tlbInitialized : Bool
  currentASID : Nat
deriving DecidableEq, Repr

/-- What the statics stand for: the slots of `lruOrder`, front to back. -/
def TLBStatics.view (st : TLBStatics) : LruStatics :=
  ⟨st.tlbEntries, st.lruOrder.map Prod.snd, st.tlbInitialized, st.currentASID⟩

namespace LruStatics

def initEntries (s : LruStatics) (nEntries : Nat) : LruStatics :=
  { s with tlbEntries := resize s.tlbEntries nEntries, tlbInitialized := true }

def touch (s : LruStatics) (i : Nat) : LruStatics :=
  { s with order := i :: s.order.erase i }

def lookup (nEntries asid : Nat) (s : LruStatics) (vPage : Nat) : Option Nat × LruStatics :=
  if !s.tlbInitialized then (none, s.initEntries nEntries)
  else
    match firstSlot (fun e => e.valid && e.vPage == vPage && e.asid == asid)
        s.tlbEntries nEntries with
    | none => (none, s)
    | some i => (some (slot s.tlbEntries i).pPage, s.touch i)

/-- The slot `add` fills: the first invalid one, or else the least recently used,
the last of the order. -/
def victim (nEntries : Nat) (s : LruStatics) : Nat :=
  (firstSlot (fun e => !e.valid) s.tlbEntries nEntries).getD (s.order.getLast?.getD 0)

def add (nEntries asid : Nat) (s : LruStatics) (vPage pPage : Nat) : LruStatics :=
  let s := if !s.tlbInitialized then s.initEntries nEntries else s
  let i := s.victim nEntries
  { s with tlbEntries := s.tlbEntries.set i ⟨vPage, pPage, asid, true⟩ }.touch i

def flush (nEntries : Nat) (s : LruStatics) : LruStatics :=
  if !s.tlbInitialized then s
  else
    { s with tlbEntries := s.tlbEntries.mapIdx fun i e =>
                if i < nEntries then { e with valid := false } else e,
             order := [] }

end LruStatics

def TLBOp.runLru (nEntries asid : Nat) : TLBOp → LruStatics → Option Nat × LruStatics
  | .add v p, s => (none, s.add nEntries asid v p)
  | .lookup v, s => s.lookup nEntries asid v
  | .flush, s => (none, s.flush nEntries)
  | .clear, s => (none, s.flush nEntries)
  | .setCurrentASID a, s => (none, { s with currentASID := a })

def runOpsLru (nEntries asid : Nat) : List TLBOp → LruStatics → List (Option Nat) × LruStatics
  | [], s => ([], s)
  | op :: ops, s =>
    let r := op.runLru nEntries asid s
    let rs := runOpsLru nEntries asid ops r.2
    (r.1 :: rs.1, rs.2)

/-! ## The links between `lruOrder` and `lruMap` -/

/-- `lruOrder` and `lruMap` agree: each slot at most once, each node once and older
than `nextNode`, and `lruMap` holding for a slot exactly the node that lists it. -/
structure Links (st : TLBStatics) : Prop where
  slots_nodup : (st.lruOrder.map Prod.snd).Nodup
  nodes_nodup : (st.lruOrder.map Prod.fst).Nodup
  fresh : ∀ x ∈ st.lruOrder, x.1 < st.nextNode
  lruMap_iff : ∀ i node, st.lruMap i = some node ↔ (node, i) ∈ st.lruOrder

theorem firstSlot_eq_some {p : TLBEntry → Bool} {v : List TLBEntry} {n i : Nat}
    (h : firstSlot p v n = some i) : i < n ∧ p (slot v i) = true := by
  unfold firstSlot at h
  have hp := List.find?_some h
  exact ⟨List.mem_range.1 (List.mem_of_find?_eq_some h), hp⟩

theorem firstSlot_eq_none {p : TLBEntry → Bool} {v : List TLBEntry} {n : Nat}
    (h : firstSlot p v n = none) {i : Nat} (hi : i < n) : p (slot v i) = false := by
  simpa using List.find?_eq_none.1 h i (List.mem_range.2 hi)

theorem map_snd_filter {l : List (Nat × Nat)} (hl : (l.map Prod.snd).Nodup) (i : Nat) :
    (l.filter (·.2 != i)).map Prod.snd = (l.map Prod.snd).erase i := by
  rw [hl.erase_eq_filter, List.filter_map]
  rfl

theorem dropLast_eq_filter {l : List (Nat × Nat)} (hl : (l.map Prod.snd).Nodup) {node i : Nat}
    (hlast : l.getLast? = some (node, i)) : l.dropLast = l.filter (·.2 != i) := by
  obtain ⟨L, rfl⟩ : ∃ L, l = L ++ [(node, i)] :=
    ⟨l.dropLast, (List.dropLast_append_getLast? _ hlast).symm⟩
  have hi : ∀ x ∈ L, x.2 ≠ i := fun x hx hxi => by
    simp only [List.map_append, List.map_cons, List.map_nil, List.nodup_append,
      List.disjoint_singleton] at hl
    exact hl.2.2 (hxi ▸ List.mem_map_of_mem _ hx)
  rw [List.dropLast_concat, List.filter_append, List.filter_eq_self.2 (by simpa using hi)]
  simp

theorem mem_cons_erase_iff {l : List Nat} {i j : Nat} : j ∈ i :: l.erase i ↔ j = i ∨ j ∈ l := by
  by_cases hj : j = i
  · simp [hj]
  · simp [hj, List.mem_erase_of_ne hj]

namespace Links

variable {st : TLBStatics}

theorem of_eq (h : Links st) {st' : TLBStatics} (ho : st'.lruOrder = st.lruOrder)
    (hm : st'.lruMap = st.lruMap) (hn : st'.nextNode = st.nextNode) : Links st' :=
  ⟨by rw [ho]; exact h.1, by rw [ho]; exact h.2, by rw [ho, hn]; exact h.3,
    by rw [ho, hm]; exact h.4⟩

theorem nil (ho : st.lruOrder = []) (hm : ∀ i, st.lruMap i = none) : Links st :=
  ⟨by simp [ho], by simp [ho], by simp [ho], fun _ _ => by simp [ho, hm]⟩

theorem unlink_eq (h : Links st) (i : Nat) :
    st.unlink i = { st with lruOrder := st.lruOrder.filter (·.2 != i) } := by
  unfold TLBStatics.unlink
  split
  · rename_i node hm
    rw [ListTlb.filter_key_congr h.nodes_nodup h.slots_nodup ((h.lruMap_iff i node).1 hm)]
  · rename_i hm
    rw [List.filter_eq_self.2 fun x hx => ?_]
    have : st.lruMap x.2 ≠ none := by rw [(h.lruMap_iff x.2 x.1).2 hx]; simp
    simp only [bne_iff_ne, ne_eq]
    rintro rfl
    exact this hm

theorem unlink_of_not_mem (h : Links st) {i : Nat} (hi : i ∉ st.view.order) :
    st.unlink i = st := by
  rw [h.unlink_eq, List.filter_eq_self.2]
  intro x hx
  simp only [bne_iff_ne, ne_eq]
  rintro rfl
  exact hi (List.mem_map_of_mem _ hx)

theorem touch (h : Links st) (i : Nat) : Links ((st.unlink i).pushFront i) := by
  rw [h.unlink_eq]
  refine ⟨?_, ?_, ?_, fun j node => ?_⟩
  · simp only [TLBStatics.pushFront, List.map_cons, map_snd_filter h.slots_nodup]
    exact List.nodup_cons.2 ⟨h.slots_nodup.not_mem_erase, h.slots_nodup.erase i⟩
  · refine List.nodup_cons.2 ⟨fun hm => ?_, ((List.filter_sublist _).map _).nodup h.nodes_nodup⟩
    obtain ⟨x, hx, hxn⟩ := List.mem_map.1 hm
    exact absurd (h.fresh x (List.mem_of_mem_filter hx)) (by simp [hxn])
  · intro x hx
    rcases List.mem_cons.1 hx with rfl | hx
    · exact Nat.lt_succ_self _
    · exact Nat.lt_succ_of_lt (h.fresh x (List.mem_of_mem_filter hx))
  · by_cases hj : j = i
    · subst hj
      simp [TLBStatics.pushFront, eq_comm]
    · simp [TLBStatics.pushFront, Function.update_noteq hj, hj, h.lruMap_iff]

theorem view_touch (h : Links st) (i : Nat) :
    ((st.unlink i).pushFront i).view = st.view.touch i := by
  rw [h.unlink_eq]
  simp only [TLBStatics.view, TLBStatics.pushFront, LruStatics.touch, List.map_cons,
    map_snd_filter h.slots_nodup]

end Links

@[simp] theorem view_tlbEntries (st : TLBStatics) : st.view.tlbEntries = st.tlbEntries := rfl

@[simp] theorem view_order (st : TLBStatics) : st.view.order = st.lruOrder.map Prod.snd := rfl

@[simp] theorem view_tlbInitialized (st : TLBStatics) :
    st.view.tlbInitialized = st.tlbInitialized := rfl

/-! ## The invariant of one object -/

/-- What the statics of one TLB object of `n` entries keep: consistent links, the
vector sized for the object, and the order listing exactly the valid slots below
`n`. -/
structure LruInv (n : Nat) (st : TLBStatics) : Prop where
  links : Links st
  sized : Sized n st
  mem_order : ∀ i, i ∈ st.view.order ↔ i < n ∧ (slot st.tlbEntries i).valid = true

theorem lruInv_init (n : Nat) : LruInv n TLBStatics.init :=
  ⟨Links.nil rfl fun _ => rfl, sized_init n, fun i => by simp [TLBStatics.init, slot]⟩

namespace LruInv

variable {n : Nat} {st : TLBStatics}

theorem initEntries (h : LruInv n st) (hinit : st.tlbInitialized = false) :
    LruInv n (st.initEntries n) := by
  have hnil := h.sized.2 hinit
  refine ⟨h.links.of_eq rfl rfl rfl, ⟨fun _ => length_resize _ _, nofun⟩, fun i => ?_⟩
  have hold : (slot st.tlbEntries i).valid = false := by rw [hnil]; rfl
  have hnew : (slot (resize st.tlbEntries n) i).valid = false := by
    rw [hnil]
    simp only [slot, resize, List.take_nil, List.nil_append, List.length_nil, Nat.sub_zero,
      List.getD_eq_getElem?_getD, List.getElem?_getD_replicate_default_eq]
    rfl
  rw [show (st.initEntries n).view.order = st.view.order from rfl, h.mem_order, hold]
  simp [hnew]

theorem touch (h : LruInv n st) (hinit : st.tlbInitialized = true) {v : List TLBEntry}
    {i : Nat} (hi : i < n) (hlen : v.length = n)
    (hv : ∀ j < n, (slot v j).valid = true ↔ j = i ∨ (slot st.tlbEntries j).valid = true) :
    LruInv n (({ st with tlbEntries := v }.unlink i).pushFront i) := by
  have hl : Links { st with tlbEntries := v } := h.links.of_eq rfl rfl rfl
  refine ⟨hl.touch i, ⟨fun _ => by simpa using hlen, fun h' => by simp [hinit] at h'⟩,
    fun j => ?_⟩
  rw [hl.view_touch]
  simp only [LruStatics.touch, mem_cons_erase_iff, TLBStatics.pushFront_tlbEntries,
    TLBStatics.unlink_tlbEntries]
  rw [show ({ st with tlbEntries := v } : TLBStatics).view.order = st.view.order from rfl,
    h.mem_order]
  by_cases hj : j < n
  · simp only [hj, true_and, hv j hj]
  · simp only [hj, false_and, or_false, iff_false]
    rintro rfl
    exact hj hi

theorem lookup (h : LruInv n st) {tlb : TLB} (htlb : tlb.nEntries = n) (vPage : Nat) :
    LruInv n (tlb.lookup st vPage).2.2 ∧
      st.view.lookup n tlb.currentASID vPage =
        ((tlb.lookup st vPage).1, (tlb.lookup st vPage).2.2.view) := by
  subst htlb
  cases hinit : st.tlbInitialized
  · simp only [TLB.lookup, LruStatics.lookup, hinit, view_tlbInitialized, Bool.not_false,
      if_true]
    exact ⟨h.initEntries hinit, rfl⟩
  · simp only [TLB.lookup, LruStatics.lookup, hinit, view_tlbInitialized, view_tlbEntries,
      Bool.not_true, Bool.false_eq_true, if_false]
    cases hf : firstSlot (fun e => e.valid && e.vPage == vPage && e.asid == tlb.currentASID)
        st.tlbEntries tlb.nEntries with
    | none => exact ⟨h, rfl⟩
    | some i =>
      obtain ⟨hi, hv⟩ := firstSlot_eq_some hf
      simp only [Bool.and_eq_true] at hv
      dsimp only
      exact ⟨h.touch hinit hi (h.sized.1 hinit) fun j _ => by
          by_cases hj : j = i <;> simp [hj, hv.1.1],
        by rw [h.links.view_touch]⟩

theorem replaceSlot (h : LruInv n st) (hn : 0 < n) {tlb : TLB} (htlb : tlb.nEntries = n) :
    (tlb.replaceSlot st).1 = st.view.victim n ∧ (tlb.replaceSlot st).1 < n ∧
      ∀ v : List TLBEntry,
        { (tlb.replaceSlot st).2.2 with tlbEntries := v }.pushFront (tlb.replaceSlot st).1 =
          ({ st with tlbEntries := v }.unlink (tlb.replaceSlot st).1).pushFront
            (tlb.replaceSlot st).1 := by
  subst htlb
  unfold TLB.replaceSlot LruStatics.victim
  simp only [view_tlbEntries]
  split
  · rename_i i hf
    obtain ⟨hi, hfree⟩ := firstSlot_eq_some hf
    have hnot : i ∉ st.view.order := fun hm => by
      simp [((h.mem_order i).1 hm).2] at hfree
    refine ⟨by rw [hf]; rfl, hi, fun v => ?_⟩
    have hl : Links { st with tlbEntries := v } := h.links.of_eq rfl rfl rfl
    rw [hl.unlink_of_not_mem hnot]
  · rename_i hf
    have h0 : 0 ∈ st.view.order :=
      (h.mem_order 0).2 ⟨hn, by simpa using firstSlot_eq_none hf hn⟩
    obtain ⟨⟨node, r⟩, hlast⟩ : ∃ x, st.lruOrder.getLast? = some x :=
      Option.isSome_iff_exists.1 (List.getLast?_isSome.2 fun he => by simp [he] at h0)
    have hpop : st.popBack =
        (r, { st with lruOrder := st.lruOrder.dropLast, lruMap := Function.update st.lruMap r none }) := by
      unfold TLBStatics.popBack
      rw [hlast]
    have hr : r ∈ st.view.order := List.mem_map_of_mem Prod.snd (List.mem_of_getLast?_eq_some hlast)
    refine ⟨by simp [hf, hpop, hlast], by rw [hpop]; exact ((h.mem_order r).1 hr).1, fun v => ?_⟩
    have hl : Links { st with tlbEntries := v } := h.links.of_eq rfl rfl rfl
    rw [hl.unlink_eq, hpop]
    simp only [TLBStatics.pushFront, Function.update_idem,
      dropLast_eq_filter h.links.slots_nodup hlast]

theorem add (h : LruInv n st) (hn : 0 < n) {tlb : TLB} (htlb : tlb.nEntries = n)
    (vPage pPage : Nat) :
    LruInv n (tlb.add st vPage pPage).2 ∧
      st.view.add n tlb.currentASID vPage pPage = (tlb.add st vPage pPage).2.view := by
  obtain ⟨st₁, h₁, hinit, hview, hadd⟩ : ∃ st₁, LruInv n st₁ ∧ st₁.tlbInitialized = true ∧
      (if !st.view.tlbInitialized then st.view.initEntries n else st.view) = st₁.view ∧
      tlb.add st vPage pPage = tlb.add st₁ vPage pPage := by
    cases hi : st.tlbInitialized
    · exact ⟨_, h.initEntries hi, rfl, by simp [hi]; rfl,
        htlb ▸ tlb.add_of_not_initialized hi vPage pPage⟩
    · exact ⟨st, h, hi, by simp [hi], rfl⟩
  obtain ⟨hvic, hlt, heq⟩ := h₁.replaceSlot hn htlb
  have hlen := h₁.sized.1 hinit
  rw [hadd]
  simp only [TLB.add, hinit, Bool.not_true, Bool.false_eq_true, if_false,
    TLB.replaceSlot_tlbEntries]
  rw [heq]
  refine ⟨h₁.touch hinit hlt (by simp [hlen]) fun j hj => ?_, ?_⟩
  · rw [slot_set]
    by_cases hji : j = (tlb.replaceSlot st₁).1 <;> simp [hji, hlen, hlt]
  · have hl : Links { st₁ with tlbEntries := (st₁.tlbEntries.set (tlb.replaceSlot st₁).1
        ⟨vPage, pPage, tlb.currentASID, true⟩) } := h₁.links.of_eq rfl rfl rfl
    rw [hl.view_touch]
    simp only [LruStatics.add, hview, hvic]
    rfl

theorem flush (h : LruInv n st) {tlb : TLB} (htlb : tlb.nEntries = n) :
    LruInv n (tlb.flush st).2 ∧ st.view.flush n = (tlb.flush st).2.view := by
  cases hinit : st.tlbInitialized
  · rw [tlb.flush_of_not_initialized hinit]
    exact ⟨h, by simp [LruStatics.flush, hinit]⟩
  · have ho : (tlb.flush st).2.lruOrder = [] := by simp [TLB.flush, hinit]
    have hm : ∀ i, (tlb.flush st).2.lruMap i = none := by simp [TLB.flush, hinit]
    refine ⟨⟨Links.nil ho hm, h.sized.run .flush htlb, fun i => ?_⟩, ?_⟩
    · simp only [view_order, ho, List.map_nil, List.not_mem_nil, false_iff, not_and,
        Bool.not_eq_true]
      exact fun hi => tlb.flush_slot hinit (htlb ▸ hi)
    · subst htlb
      simp [TLB.flush, LruStatics.flush, hinit, TLBStatics.view]

/-- Every call of the object keeps the invariant and is the same call on the plain
list. -/
theorem run (h : LruInv n st) (hn : 0 < n) (op : TLBOp) {tlb : TLB} (htlb : tlb.nEntries = n) :
    LruInv n (op.run tlb st).2.2 ∧
      op.runLru n tlb.currentASID st.view = ((op.run tlb st).1, (op.run tlb st).2.2.view) := by
  cases op with
  | add v p =>
    obtain ⟨h', e⟩ := h.add hn htlb v p
    exact ⟨h', congrArg (Prod.mk none) e⟩
  | lookup v => exact h.lookup htlb v
  | flush =>
    obtain ⟨h', e⟩ := h.flush htlb
    exact ⟨h', congrArg (Prod.mk none) e⟩
  | clear =>
    obtain ⟨h', e⟩ := h.flush htlb
    exact ⟨h', congrArg (Prod.mk none) e⟩
  | setCurrentASID a => exact ⟨⟨h.links.of_eq rfl rfl rfl, h.sized, h.mem_order⟩, rfl⟩

/-- Every call of an object of at least one entry indexes only slots inside the
vector: the scans stay below `nEntries`, the length of the vector, and the slot
`add` replaces is below the capacity. -/
theorem inBounds (h : LruInv n st) (hn : 0 < n) (op : TLBOp) {tlb : TLB}
    (htlb : tlb.nEntries = n) : op.inBounds tlb st = true := by
  have hlen : st.tlbInitialized = true → tlb.nEntries ≤ st.tlbEntries.length :=
    fun hi => (h.sized.1 hi).symm ▸ htlb.le
  cases op with
  | add v p =>
    obtain ⟨st₁, h₁, hinit, heq⟩ : ∃ st₁, LruInv n st₁ ∧ st₁.tlbInitialized = true ∧
        (if !st.tlbInitialized then st.initEntries tlb.nEntries else st) = st₁ := by
      cases hi : st.tlbInitialized
      · exact ⟨_, h.initEntries hi, rfl, by simp [htlb]⟩
      · exact ⟨st, h, hi, by simp⟩
    simp only [TLBOp.inBounds, heq, h₁.sized.1 hinit, decide_eq_true_eq]
    exact (h₁.replaceSlot hn htlb).2.1
  | lookup _ | flush | clear => cases hi : st.tlbInitialized <;> simp [TLBOp.inBounds, hi, hlen]
  | setCurrentASID a => rfl

end LruInv

theorem TLBOp.run_currentASID (op : TLBOp) (tlb : TLB) (st : TLBStatics) :
    (op.run tlb st).2.1.currentASID = tlb.currentASID := by
  cases op <;> simp [TLBOp.run, TLB.clear]

theorem runOps_lruInv {n : Nat} (hn : 0 < n) (ops : List TLBOp) :
    ∀ {tlb : TLB} {st : TLBStatics}, tlb.nEntries = n → LruInv n st →
      LruInv n (runOps ops tlb st).2.2 ∧
        runOpsLru n tlb.currentASID ops st.view =
          ((runOps ops tlb st).1, (runOps ops tlb st).2.2.view) := by
  induction ops with
  | nil => exact fun _ h => ⟨h, rfl⟩
  | cons op ops ih =>
    intro tlb st htlb h
    obtain ⟨h', e⟩ := h.run hn op htlb
    obtain ⟨h'', e'⟩ := ih ((op.run_nEntries tlb st).trans htlb) h'
    rw [op.run_currentASID] at e'
    refine ⟨h'', ?_⟩
    simp only [runOpsLru, runOps, e, e']

/-- For one TLB object of at least one entry, from its construction and along any
calls, `lruOrder` and `lruMap` stay consistent and list exactly the valid slots,
and every call answers and leaves the statics as the same call on a plain list of
slots under move-to-front: a hit or a fill moves its slot to the front, and an add
that finds no invalid slot evicts the last slot of the list. -/
theorem lru_order_is_move_to_front (n : Nat) (hn : 0 < n) (ops : List TLBOp) :
    LruInv n (runOps ops (TLB.new n) TLBStatics.init).2.2 ∧
      runOpsLru n 0 ops TLBStatics.init.view =
        ((runOps ops (TLB.new n) TLBStatics.init).1,
          (runOps ops (TLB.new n) TLBStatics.init).2.2.view) :=
  runOps_lruInv hn ops rfl (lruInv_init n)

/-- Two slots filled with pages 5 and 6, then a hit on 5: adding 7 evicts the
least recently used slot, that of 6, so 6 misses and 5 still hits.  The answers of
the slot TLB are computed on the plain list. -/
theorem lru_order_is_move_to_front_evicts_lru :
    0 < 2 ∧ (runOps [.add 5 1, .add 6 2, .lookup 5, .add 7 3, .lookup 6, .lookup 5] (TLB.new 2)
      TLBStatics.init).1 = [none, none, some 1, none, none, some 1] := by
  have h := (lru_order_is_move_to_front 2 (by decide)
    [.add 5 1, .add 6 2, .lookup 5, .add 7 3, .lookup 6, .lookup 5]).2
  rw [Prod.ext_iff] at h
  exact ⟨by decide, h.1.symm.trans (by decide)⟩

/-- One TLB object of at least one entry, from its construction: whatever calls it
has made, its next call indexes only slots inside the vector, so no call of the
object reaches past the end of the shared vector. -/
theorem one_tlb_stays_in_bounds (n : Nat) (hn : 0 < n) (pre : List TLBOp) (op : TLBOp) :
    op.inBounds (runOps pre (TLB.new n) TLBStatics.init).2.1
      (runOps pre (TLB.new n) TLBStatics.init).2.2 = true :=
  (runOps_lruInv hn pre rfl (lruInv_init n)).1.inBounds hn op
    (Sized.runOps pre (show (TLB.new n).nEntries = n from rfl) (sized_init n)).1

/-- Two slots full, the third page evicts: the `add` takes the LRU slot, inside the
vector. -/
theorem one_tlb_stays_in_bounds_on_eviction :
    0 < 2 ∧ (TLBOp.add 7 3).inBounds (runOps [.add 5 1, .add 6 2] (TLB.new 2)
      TLBStatics.init).2.1 (runOps [.add 5 1, .add 6 2] (TLB.new 2) TLBStatics.init).2.2 = true :=
  ⟨by decide, one_tlb_stays_in_bounds 2 (by decide) _ _⟩

end PageTables.Mmu
