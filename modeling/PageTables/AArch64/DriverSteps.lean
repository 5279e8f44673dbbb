import PageTables.AArch64.DriverInvariant

/-!
# The driver's operations, one lemma each

Each operation of the driver keeps `TreeInv`, and each says how it changes the
nodes and the mappings of the trees.  `getOrCreateTable` and the walk of
`setMapping` only add nodes and change no mapping (`Extends`); the write of a
leaf changes the mapping of its page and nothing else (`TreeInv.writeLeaf`);
`allocatePageTable` adds one empty tree.
-/

namespace PageTables.AArch64

open AArch64MMUDriver

/-- `d'` keeps the processes, the page records, the nodes and the mappings of `d`,
and its trees are strict again. -/
structure Extends (d d' : AArch64MMUDriver) : Prop where
  inv : TreeInv d'
  pageTables : d'.pageTables = d.pageTables
  pages : d'.kernel.pages = d.kernel.pages
  nodeAt : ∀ pid p t, d.nodeAt pid p = some t → d'.nodeAt pid p = some t
  leafAt : d'.leafAt = d.leafAt

theorem Extends.refl {d : AArch64MMUDriver} (h : TreeInv d) : Extends d d :=
  ⟨h, rfl, rfl, fun _ _ _ => id, rfl⟩

theorem Extends.trans {d₁ d₂ d₃ : AArch64MMUDriver} (h₁₂ : Extends d₁ d₂)
    (h₂₃ : Extends d₂ d₃) : Extends d₁ d₃ :=
  ⟨h₂₃.inv, h₂₃.pageTables.trans h₁₂.pageTables, h₂₃.pages.trans h₁₂.pages,
    fun pid p t ht => h₂₃.nodeAt pid p t (h₁₂.nodeAt pid p t ht),
    h₂₃.leafAt.trans h₁₂.leafAt⟩

@[simp] theorem tableSize_zero : tableSize 0 = l0Entries * entrySize := rfl

@[simp] theorem tableSize_succ (level : Nat) : tableSize (level + 1) = l1Entries * entrySize := rfl

namespace AArch64MMUDriver

theorem getOrCreateTable_of_valid {d : AArch64MMUDriver} {parent index : Nat}
    (hv : (d.mem (entryAddr parent index)).valid) (ht : (d.mem (entryAddr parent index)).type) :
    d.getOrCreateTable parent index = .ok (getAddress (d.mem (entryAddr parent index)), d) := by
  simp [getOrCreateTable, hv, ht]

theorem getOrCreateTable_of_not_valid {d : AArch64MMUDriver} {parent index : Nat}
    (hv : (d.mem (entryAddr parent index)).valid = false) :
    d.getOrCreateTable parent index = .ok (d.kernel.next 0,
      { d with kernel := (d.kernel.allocateMemory (l1Entries * entrySize)).2,
               bytesAllocated := d.bytesAllocated + l1Entries * entrySize,
               mem := Function.update (memset d.mem (d.kernel.next 0) (l1Entries * entrySize))
                 (entryAddr parent index) (initTableEntry (d.kernel.next 0) true) }) := by
  simp [getOrCreateTable, allocatePageTableLevel, hv, OSKernel.allocateMemory]

theorem nodeAt_snoc {d : AArch64MMUDriver} {pid t : Nat} {q : List Nat}
    (ht : d.nodeAt pid q = some t) (i : Nat) :
    d.nodeAt pid (q ++ [i]) =
      if i < numEntries q.length ∧ q.length < 3 then nextTable d.mem t i else none := by
  obtain ⟨root, hr⟩ := root_of_nodeAt ht
  rw [nodeAt_of_root hr] at ht ⊢
  split_ifs at ht with hq
  simp only [inRange_append, inRange_cons, inRange_nil, Bool.and_true, Bool.and_eq_true,
    decide_eq_true_eq, Nat.zero_add, List.length_append, List.length_singleton, hq.1, true_and,
    tableAt_append_single, ht, Option.some_bind, ← Nat.lt_iff_add_one_le]

end AArch64MMUDriver

namespace TreeInv

variable {d : AArch64MMUDriver} (h : TreeInv d)
include h

theorem congr {d' : AArch64MMUDriver} (hpt : d'.pageTables = d.pageTables)
    (hlive : d'.kernel.live = d.kernel.live)
    (hint : ∀ pid p t i, d.nodeAt pid p = some t → p.length < 3 → i < numEntries p.length →
      d'.mem (entryAddr t i) = d.mem (entryAddr t i)) :
    TreeInv d' := by
  have hnode := nodeAt_congr hpt hint
  refine ⟨⟨?_, ?_, fun pid p t i ht hl hi => ?_⟩, ?_, ?_⟩ <;> simp only [hnode, hlive] at *
  · exact h.aligned
  · exact h.inj
  · rw [hint pid p t i ht hl hi]; exact h.interior pid p t i ht hl hi
  · exact h.live_nodup
  · exact h.live_iff

theorem getOrCreateTable_fresh {n pid t i : Nat} {p : List Nat} (hk : d.kernel.Supplies (n + 1))
    (ht : d.nodeAt pid p = some t) (hl : p.length < 3) (hi : i < numEntries p.length)
    (hv : (d.mem (entryAddr t i)).valid = false) :
    ∃ c d', d.getOrCreateTable t i = .ok (c, d') ∧ Extends d d' ∧ d'.kernel.Supplies n ∧
      d'.nodeAt pid (p ++ [i]) = some c := by
  have hbelow : d.nodeAt pid (p ++ [i]) = nextTable d.mem t i := by
    rw [nodeAt_snoc ht, if_pos ⟨hi, hl⟩]
  obtain ⟨hbal, hbpos, hblt, hbfresh, -⟩ := hk 0 (by omega)
  have hnotb : ∀ pid' p', d.nodeAt pid' p' ≠ some (d.kernel.next 0) := fun _ _ => h.fresh hk
  have hta := (h.aligned pid p t ht).1
  have htb : t ≠ d.kernel.next 0 := fun e => hnotb pid p (e ▸ ht)
  set b := d.kernel.next 0
  obtain ⟨d', hd'⟩ : ∃ d' : AArch64MMUDriver, d' =
      { d with kernel := (d.kernel.allocateMemory (l1Entries * entrySize)).2,
               bytesAllocated := d.bytesAllocated + l1Entries * entrySize,
               mem := Function.update (memset d.mem b (l1Entries * entrySize))
                 (entryAddr t i) (initTableEntry b true) } := ⟨_, rfl⟩
  have hmem : d'.mem = Function.update (memset d.mem b (l1Entries * entrySize))
      (entryAddr t i) (initTableEntry b true) := by rw [hd']
  have hslot : ∀ pid' p' t' i', d.nodeAt pid' p' = some t' → i' < numEntries p'.length →
      entryAddr t' i' ≠ entryAddr t i → d'.mem (entryAddr t' i') = d.mem (entryAddr t' i') :=
    fun pid' p' t' i' ht' hi' hne => by
      rw [hmem, Function.update_noteq hne]
      exact memset_slot_of_ne (h.aligned _ _ _ ht').1 hbal
        (lt_of_lt_of_le hi' (numEntries_le _)) le_rfl fun e => hnotb pid' p' (e ▸ ht')
  have hx : d'.mem (entryAddr t i) = initTableEntry b true := by rw [hmem, Function.update_same]
  have hnext : nextTable d'.mem t i = some b :=
    nextTable_eq_some.2 ⟨by rw [hx]; rfl, by rw [hx]; rfl,
      by rw [hx, getAddress_initTableEntry _ hbal hblt]⟩
  have hclear : ∀ j < 2048, (d'.mem (entryAddr b j)).valid = false := fun j hj => by
    have hne : entryAddr b j ≠ entryAddr t i := fun e =>
      htb (entryAddr_inj hta hbal (lt_of_lt_of_le hi (numEntries_le _)) hj e.symm).1
    rw [hmem, Function.update_noteq hne, memset_slot_self (by simp [entrySize]; omega)]
    rfl
  have hnode : ∀ pid' p', d'.nodeAt pid' p' =
      if pid' = pid ∧ p' = p ++ [i] then some b else d.nodeAt pid' p' := fun _ _ =>
    h.toStrictTree.nodeAt_write (show d'.pageTables = d.pageTables by rw [hd']) ht hl hi hv
      hslot hnext hclear
  have hold : d.nodeAt pid (p ++ [i]) = none := by rw [hbelow, nextTable_of_not_valid hv]
  refine ⟨b, d', hd' ▸ getOrCreateTable_of_not_valid hv,
    ⟨?_, by rw [hd'], by rw [hd']; rfl, ?_, ?_⟩, hd' ▸ hk.allocate _, ?_⟩
  · refine h.addNode hnode
      (by rw [hd', List.length_append, List.length_singleton, tableSize_succ]; rfl)
      ⟨hbal, hbpos, hblt⟩ hbfresh
      hold (fun pid' p' t' i' ht' hl' hi' hv' => ?_)
      fun j hj => hclear j (lt_of_lt_of_le hj (numEntries_le _))
    by_cases heq : entryAddr t' i' = entryAddr t i
    · rw [heq, hx]; rfl
    · rw [hslot pid' p' t' i' ht' hi' heq] at hv' ⊢
      exact h.interior pid' p' t' i' ht' hl' hi' hv'
  · intro pid' p' t' ht'
    rw [hnode, if_neg]
    · exact ht'
    · rintro ⟨rfl, rfl⟩; rw [hold] at ht'; cases ht'
  · funext pid' v
    simp only [leafAt, hnode]
    split_ifs with hc
    · obtain ⟨rfl, hpv⟩ := hc
      simp [hpv, hold, hclear _ (leafIndex_lt v)]
    · cases ht3 : d.nodeAt pid' (pathOf v) with
      | none => rfl
      | some t3 =>
        have hli : leafIndex v < numEntries (pathOf v).length := by simpa using leafIndex_lt v
        simp only [Option.some_bind]
        rw [hslot pid' _ t3 _ ht3 hli fun e => ?_]
        obtain ⟨-, hp, -⟩ := h.slot_inj ht3 ht hli hi e
        have := congrArg List.length hp
        simp at this; omega
  · rw [hnode, if_pos ⟨rfl, rfl⟩]

/-- `getOrCreateTable` at an interior node: it never raises, returns the node below
the slot, creating it when the slot is invalid, and changes no mapping. -/
theorem getOrCreateTable {n pid t i : Nat} {p : List Nat} (hk : d.kernel.Supplies (n + 1))
    (ht : d.nodeAt pid p = some t) (hl : p.length < 3) (hi : i < numEntries p.length) :
    ∃ c d', d.getOrCreateTable t i = .ok (c, d') ∧ Extends d d' ∧ d'.kernel.Supplies n ∧
      d'.nodeAt pid (p ++ [i]) = some c := by
  cases hv : (d.mem (entryAddr t i)).valid with
  | true =>
    have htype := h.interior pid p t i ht hl hi hv
    refine ⟨_, d, getOrCreateTable_of_valid hv htype, Extends.refl h, hk.mono (by omega), ?_⟩
    rw [nodeAt_snoc ht, if_pos ⟨hi, hl⟩]
    exact nextTable_eq_some.2 ⟨hv, htype, rfl⟩
  | false => exact h.getOrCreateTable_fresh hk ht hl hi hv

theorem writeLeaf {d' : AArch64MMUDriver} {pid v t3 : Nat} {e : SimpleTableEntry}
    (ht3 : d.nodeAt pid (pathOf v) = some t3) (hpt : d'.pageTables = d.pageTables)
    (hlive : d'.kernel.live = d.kernel.live)
    (hmem : d'.mem = Function.update d.mem (entryAddr t3 (leafIndex v)) e) :
    TreeInv d' ∧ d'.nodeAt = d.nodeAt ∧ ∀ pid' v', v < 2 ^ 34 → v' < 2 ^ 34 →
      d'.leafAt pid' v' = if pid' = pid ∧ v' = v then
        (if e.valid then some e.physicalPageNum.toNat else none) else d.leafAt pid' v' := by
  have hli : ∀ v, leafIndex v < numEntries (pathOf v).length := fun v => by
    simpa using leafIndex_lt v
  have hint : ∀ pid' p' t' i', d.nodeAt pid' p' = some t' → p'.length < 3 →
      i' < numEntries p'.length → d'.mem (entryAddr t' i') = d.mem (entryAddr t' i') := by
    intro pid' p' t' i' ht' hl' hi'
    rw [hmem, Function.update_noteq]
    intro heq
    obtain ⟨-, rfl, -⟩ := h.slot_inj ht' ht3 hi' (hli v) heq
    simp at hl'
  have hnode := nodeAt_congr hpt hint
  refine ⟨h.congr hpt hlive hint, hnode, fun pid' v' hv hv' => ?_⟩
  simp only [leafAt, hnode]
  cases ht3' : d.nodeAt pid' (pathOf v') with
  | none =>
    have hc : ¬ (pid' = pid ∧ v' = v) := by rintro ⟨rfl, rfl⟩; rw [ht3] at ht3'; cases ht3'
    rw [if_neg hc]; rfl
  | some t3' =>
    simp only [Option.some_bind, hmem]
    by_cases hc : pid' = pid ∧ v' = v
    · obtain ⟨rfl, rfl⟩ := hc
      rw [ht3] at ht3'; cases ht3'
      simp
    · rw [if_neg hc, Function.update_noteq]
      intro heq
      obtain ⟨rfl, hp, hl⟩ := h.slot_inj ht3' ht3 (hli v') (hli v) heq
      exact hc ⟨rfl, eq_of_pathOf_eq hv' hv hp hl⟩

/-- `setMapping` on a process with a tree never raises: it maps the page of `vAddr`
to the physical page of `pPage`, points `pPage` at the leaf, keeps every node, and
changes no other mapping. -/
theorem setMapping {pid root : Nat} (vAddr : Nat) (pPage : PhysPage) (hk : d.kernel.Supplies 3)
    (hr : d.pageTables pid = some root) (haddr : pPage.addr < 2 ^ 48) :
    ∃ t3 d', d.setMapping pid vAddr pPage =
        .ok ({ pPage with
                driverData := entryAddr t3 (leafIndex ((vAddr % 2 ^ 48) >>> pageBits)) }, d') ∧
      TreeInv d' ∧ d'.pageTables = d.pageTables ∧ d'.kernel.pages = d.kernel.pages ∧
      (∀ pid p t, d.nodeAt pid p = some t → d'.nodeAt pid p = some t) ∧
      d'.nodeAt pid (pathOf ((vAddr % 2 ^ 48) >>> pageBits)) = some t3 ∧
      ∀ pid' v', v' < 2 ^ 34 → d'.leafAt pid' v' =
        if pid' = pid ∧ v' = (vAddr % 2 ^ 48) >>> pageBits then some (pPage.addr >>> pageBits)
        else d.leafAt pid' v' := by
  obtain ⟨hpath, hleaf⟩ := pathOf_shiftRight (vAddr % 2 ^ 48)
  have hi0 : l0Index (vAddr % 2 ^ 48) < numEntries ([] : List Nat).length := by simp; omega
  have hi1 : l1Index (vAddr % 2 ^ 48) < numEntries [l0Index (vAddr % 2 ^ 48)].length := by
    simp; omega
  have hi2 : l2Index (vAddr % 2 ^ 48) <
      numEntries [l0Index (vAddr % 2 ^ 48), l1Index (vAddr % 2 ^ 48)].length := by simp; omega
  obtain ⟨c1, d1, h1, he1, hk1, hn1⟩ := h.getOrCreateTable hk (nodeAt_nil hr) (by simp) hi0
  obtain ⟨c2, d2, h2, he2, hk2, hn2⟩ :=
    he1.inv.getOrCreateTable hk1 hn1 (by simp) hi1
  obtain ⟨c3, d3, h3, he3, -, hn3⟩ :=
    he2.inv.getOrCreateTable hk2 hn2 (by simp) hi2
  have he := he1.trans (he2.trans he3)
  simp only [List.nil_append, List.cons_append, List.singleton_append, ← hpath] at hn3
  set x := entryAddr c3 (leafIndex ((vAddr % 2 ^ 48) >>> pageBits))
  obtain ⟨d4, hd4⟩ : ∃ d4 : AArch64MMUDriver,
      d4 = { d3 with mem := Function.update d3.mem x (initTableEntry pPage.addr false) } :=
    ⟨_, rfl⟩
  obtain ⟨hinv, hnode, hleafAt⟩ := he.inv.writeLeaf hn3
    (show d4.pageTables = d3.pageTables by rw [hd4]) (by rw [hd4]) (by rw [hd4])
  refine ⟨c3, d4, ?_, hinv, by rw [hd4]; exact he.pageTables, by rw [hd4]; exact he.pages,
    fun pid p t ht => ?_, ?_, fun pid' v' hv' => ?_⟩
  · simp only [AArch64MMUDriver.setMapping, mask_addressSpaceBits, hr, h1, h2, h3, hleaf, hd4, x,
      except_ok_bind]
    rfl
  · rw [hnode]; exact he.nodeAt pid p t ht
  · rw [hnode]; exact hn3
  · rw [hleafAt pid' v' (vPage_lt vAddr) hv', he.leafAt]
    simp only [initTableEntry, if_true, BitVec.toNat_ofNat, pageBits_eq,
      Nat.shiftRight_eq_div_pow]
    rw [Nat.mod_eq_of_lt (show pPage.addr / 2 ^ 14 < 2 ^ 34 by omega)]

theorem setPageValid_eq {pid v t3 : Nat} {pPage : PhysPage} (setting : Bool)
    (ht3 : d.nodeAt pid (pathOf v) = some t3)
    (hdata : pPage.driverData = entryAddr t3 (leafIndex v)) :
    d.setPageValid pPage setting =
      if setting ∧ d.leafAt pid v = none then .error "Cannot validate an invalid page table entry"
      else .ok { d with
        mem := Function.update d.mem (entryAddr t3 (leafIndex v))
          { d.mem (entryAddr t3 (leafIndex v)) with valid := setting } } := by
  have hne : entryAddr t3 (leafIndex v) ≠ 0 := by
    have := (h.aligned _ _ _ ht3).2.1; unfold entryAddr; omega
  simp only [AArch64MMUDriver.setPageValid, hdata, hne, if_false, leafAt, ht3, Option.some_bind]
  cases setting <;> cases hv : (d.mem (entryAddr t3 (leafIndex v))).valid <;> simp [hv]

theorem setPageValid_ok {pid v t3 : Nat} {pPage : PhysPage} {setting : Bool}
    {d' : AArch64MMUDriver}
    (hv : v < 2 ^ 34) (ht3 : d.nodeAt pid (pathOf v) = some t3)
    (hdata : pPage.driverData = entryAddr t3 (leafIndex v))
    (hok : d.setPageValid pPage setting = .ok d') :
    TreeInv d' ∧ d'.pageTables = d.pageTables ∧ d'.kernel = d.kernel ∧
      d'.nodeAt = d.nodeAt ∧
      ∀ pid' v', v' < 2 ^ 34 → d'.leafAt pid' v' =
        if pid' = pid ∧ v' = v then (if setting then d.leafAt pid v else none)
        else d.leafAt pid' v' := by
  rw [h.setPageValid_eq setting ht3 hdata] at hok
  set x := entryAddr t3 (leafIndex v)
  split_ifs at hok with hc
  have hvalid : setting → (d.mem x).valid := by
    intro hs; by_contra hv
    exact hc ⟨hs, by simp [leafAt, ht3, x, hv]⟩
  have hd' : d' = { d with mem := Function.update d.mem x { d.mem x with valid := setting } } := by
    cases hok; rfl
  obtain ⟨hinv, hnode, hleaf⟩ := h.writeLeaf ht3 (show d'.pageTables = d.pageTables by rw [hd'])
    (by rw [hd']) (by rw [hd'])
  refine ⟨hinv, by rw [hd'], by rw [hd'], hnode, fun pid' v' hv' => ?_⟩
  rw [hleaf pid' v' hv hv']
  congr 1
  cases setting
  · rfl
  · simp [leafAt, ht3, hvalid rfl, x]

theorem allocatePageTable {pid : Nat} (hk : d.kernel.Supplies 1)
    (hpid : d.pageTables pid = none) :
    TreeInv (d.allocatePageTable pid) ∧
      (d.allocatePageTable pid).kernel.pages = d.kernel.pages ∧
      (∀ pid' p t, d.nodeAt pid' p = some t →
        (d.allocatePageTable pid).nodeAt pid' p = some t) ∧
      ∀ pid' v, (d.allocatePageTable pid).leafAt pid' v =
        if pid' = pid then none else d.leafAt pid' v := by
  obtain ⟨hbal, hbpos, hblt, hbfresh, -⟩ := hk 0 (by omega)
  have hnotb : ∀ pid' p', d.nodeAt pid' p' ≠ some (d.kernel.next 0) := fun _ _ =>
    h.fresh (hk.mono (le_refl 1))
  set b := d.kernel.next 0
  have hmem : (d.allocatePageTable pid).mem = memset d.mem b (l0Entries * entrySize) := rfl
  have hpt : (d.allocatePageTable pid).pageTables = Function.update d.pageTables pid (some b) := rfl
  have hslot : ∀ pid' p t i, d.nodeAt pid' p = some t → i < numEntries p.length →
      (d.allocatePageTable pid).mem (entryAddr t i) = d.mem (entryAddr t i) := by
    intro pid' p t i ht hi
    rw [hmem]
    exact memset_slot_of_ne (h.aligned _ _ _ ht).1 hbal (lt_of_lt_of_le hi (numEntries_le _))
      (by simp [entrySize]) fun e => hnotb pid' p (e ▸ ht)
  have hsame : ({ d with mem := (d.allocatePageTable pid).mem } : AArch64MMUDriver).nodeAt =
      d.nodeAt := nodeAt_congr rfl fun pid' p t i ht _ hi => hslot pid' p t i ht hi
  have hnode : ∀ pid' p, (d.allocatePageTable pid).nodeAt pid' p =
      if pid' = pid ∧ p = [] then some b else d.nodeAt pid' p := by
    intro pid' p
    by_cases hp : pid' = pid
    · subst hp
      rw [nodeAt_of_root (show _ = some b by rw [hpt, Function.update_same])]
      cases p with
      | nil => simp
      | cons j r =>
        simp only [List.cons_ne_nil, and_false, if_false, nodeAt, hpid, Option.none_bind]
        split_ifs with hc
        · simp only [inRange_cons, numEntries_zero, Bool.and_eq_true, decide_eq_true_eq] at hc
          rw [tableAt_cons, nextTable_of_not_valid, Option.none_bind]
          rw [hmem, memset_slot_self (by simp [entrySize]; omega)]; rfl
        · rfl
    · rw [if_neg fun hc => hp hc.1, ← congrFun (congrFun hsame pid') p]
      simp [nodeAt, hpt, hp]
  refine ⟨h.addNode hnode rfl ⟨hbal, hbpos, hblt⟩ hbfresh (by simp [nodeAt, hpid])
      (fun pid' p t i ht _ hi hv => ?_) (fun i hi => ?_), rfl, fun pid' p t ht => ?_,
      fun pid' v => ?_⟩
  · rw [hslot pid' p t i ht hi] at hv ⊢; exact h.interior pid' p t i ht (by omega) hi hv
  · rw [hmem, memset_slot_self (by simp [entrySize] at hi ⊢; omega)]; rfl
  · rw [hnode, if_neg]; · exact ht
    rintro ⟨rfl, rfl⟩; simp [nodeAt, hpid] at ht
  · simp only [leafAt, hnode, show pathOf v ≠ [] from List.cons_ne_nil _ _, and_false, if_false]
    split_ifs with hp
    · subst hp; simp [nodeAt, hpid]
    · cases ht3 : d.nodeAt pid' (pathOf v) with
      | none => rfl
      | some t3 =>
        simp only [Option.some_bind]
        rw [hslot pid' _ t3 _ ht3 (by simpa using leafIndex_lt v)]

end TreeInv

end PageTables.AArch64
