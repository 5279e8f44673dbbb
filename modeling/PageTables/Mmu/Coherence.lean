import PageTables.Mmu.Translate
import PageTables.Mmu.TlbRuns

/-!
# A TLB flushed on every switch is invisible

The TLB of `unnamed/part_004` ignores ASIDs (`tlb_hit_crosses_address_spaces`), so
it is sound only while its slots describe the current root.  `Coherent` says so:
every valid slot among the first `nEntries` holds the page that the walk of the
current root finds.  A translation keeps it, because the walk's stamps change no
bit the walk reads; a flush re-establishes it for any root and any page tables.

Along every run in which each change of root and each rewrite of the page tables
is followed by `flushTLB`, the MMU with its TLB returns at every `getTranslation`
what the MMU without a TLB returns, and that is the bare walk of `hw/mmu.cc`.

The TLB has at least one entry and its vector, once sized, has one slot per entry,
so no call indexes past its end.  Memory is a total function here: the walk reads
an entry at every address, also below a root of 0, where the C++ would dereference
a null pointer (`processMemAccess` refuses root 0; `getTranslation` does not).
-/

namespace PageTables.Mmu

open PageTables.AArch64

/-- The MMU calls of a run.  `switchRoot` is `setPageTablePointer` followed by
`flushTLB`; `remap` is the kernel rewriting the page tables, followed by
`flushTLB`. -/
inductive MmuOp
  | getTranslation (access : MemAccess)
  | setCurrentASID (asid : Nat)
  | flushTLB
  | switchRoot (root : Nat)
  | remap (mem : Mem)

def MmuOp.run : MmuOp → Machine → Except String (Option Nat × Machine)
  | .getTranslation access, m => m.getTranslation access
  | .setCurrentASID asid, m => .ok (none, m.setCurrentASID asid)
  | .flushTLB, m => .ok (none, m.flushTLB)
  | .switchRoot root, m => .ok (none, (m.setPageTablePointer root).flushTLB)
  | .remap mem, m => .ok (none, { m with mem }.flushTLB)

def Machine.runOps : List MmuOp → Machine → Except String (List (Option Nat) × Machine)
  | [], m => .ok ([], m)
  | op :: ops, m => do
    let r ← op.run m
    let rs ← Machine.runOps ops r.2
    pure (r.1 :: rs.1, rs.2)

/-- A TLB of `nEntries` slots, at least one, is attached, its vector is empty before
the first call and has `nEntries` slots after it, and its valid slots hold what the
walk of the current root finds. -/
structure Coherent (nEntries : Nat) (m : Machine) : Prop where
  attached : ∃ tlb, m.mmu.tlb = some tlb ∧ tlb.nEntries = nEntries
  pos : 0 < nEntries
  sized : Sized nEntries m.statics
  slots : ∀ i < nEntries, (slot m.statics.tlbEntries i).valid →
    leafOf m.mem m.mmu.root (slot m.statics.tlbEntries i).vPage =
      some (slot m.statics.tlbEntries i).pPage

/-- The machine `m` with the TLB and the machine `n` without one, on one run. -/
structure Shadow (nEntries : Nat) (m n : Machine) : Prop where
  coherent : Coherent nEntries m
  root : n.mmu.root = m.mmu.root
  detached : n.mmu.tlb = none
  walks : SameWalks m.mem n.mem
  aligned : m.mmu.root % 16384 = 0

theorem coherent_init (tlb : TLB) (mmu : MMU) (mem : Mem) (h : mmu.tlb = some tlb)
    (hn : 0 < tlb.nEntries) : Coherent tlb.nEntries ⟨mmu, TLBStatics.init, mem⟩ :=
  ⟨⟨tlb, h, rfl⟩, hn, sized_init _, fun _ _ hv => absurd hv Bool.false_ne_true⟩

namespace Coherent

variable {nEntries : Nat} {m : Machine}

theorem of_slots (h : Coherent nEntries m) (tlb : TLB) (st : TLBStatics) (root : Nat) (mem : Mem)
    (hN : tlb.nEntries = nEntries) (hs : Sized nEntries st)
    (hleaf : ∀ v, leafOf mem root v = leafOf m.mem m.mmu.root v)
    (hslots : ∀ i < nEntries, (slot st.tlbEntries i).valid →
      slot st.tlbEntries i = slot m.statics.tlbEntries i ∨
        leafOf m.mem m.mmu.root (slot st.tlbEntries i).vPage = some (slot st.tlbEntries i).pPage) :
    Coherent nEntries { mmu := { m.mmu with root, tlb := some tlb }, statics := st, mem } := by
  refine ⟨⟨tlb, rfl, hN⟩, h.pos, hs, fun i hi hv => ?_⟩
  dsimp only at hv ⊢
  rw [hleaf]
  rcases hslots i hi hv with hold | hnew
  · rw [hold] at hv ⊢
    exact h.slots i hi hv
  · exact hnew

theorem flush_slot (h : Coherent nEntries m) {tlb : TLB} (htlb : m.mmu.tlb = some tlb) {i : Nat}
    (hi : i < nEntries) : (slot (tlb.flush m.statics).2.tlbEntries i).valid = false := by
  obtain ⟨tlb', htlb', hN⟩ := h.attached
  cases htlb.symm.trans htlb'
  cases hinit : m.statics.tlbInitialized
  · rw [tlb.flush_of_not_initialized hinit, h.sized.2 hinit]
    rfl
  · exact tlb.flush_slot hinit (hN ▸ hi)

theorem flushTLB (h : Coherent nEntries m) (root : Nat) (mem : Mem) :
    Coherent nEntries { m with mmu := { m.mmu with root }, mem }.flushTLB := by
  obtain ⟨tlb, htlb, hN⟩ := h.attached
  rw [Machine.flushTLB_of_attached (m := { m with mmu := { m.mmu with root }, mem }) htlb]
  refine ⟨⟨_, rfl, by simpa using hN⟩, h.pos, h.sized.run .flush hN, fun i hi hv => absurd hv ?_⟩
  simp [h.flush_slot htlb hi]

end Coherent

namespace Shadow

variable {nEntries : Nat} {m n : Machine}

theorem vPage_lt (access : MemAccess) :
    (access.addr &&& ((1 <<< addressSpaceBits) - 1)) >>> pageBits < 2 ^ 50 := by
  rw [getTranslation_vPage]
  exact lt_trans (AArch64.vPage_lt access.addr) (by decide)

/-- A translation returns the same answer on both machines and keeps them related. -/
theorem getTranslation (h : Shadow nEntries m n) (access : MemAccess) :
    ∃ r m' n', m.getTranslation access = .ok (r, m') ∧ n.getTranslation access = .ok (r, n') ∧
      Shadow nEntries m' n' := by
  obtain ⟨hc, hroot, hdet, hwalks, hal⟩ := h
  obtain ⟨tlb, htlb, hN⟩ := hc.attached
  have hv := vPage_lt access
  simp only [Machine.getTranslation, Machine.tlbLookup, htlb, hdet]
  generalize (access.addr &&& ((1 <<< addressSpaceBits) - 1)) >>> pageBits = v at hv ⊢
  have halN : n.mmu.root % 16384 = 0 := hroot ▸ hal
  have hleafN : leafOf n.mem n.mmu.root v = leafOf m.mem m.mmu.root v := by
    rw [hroot, hwalks.leafOf_eq]
  have hslots := fun i (hi : i < nEntries) => tlb.lookup_slot m.statics v (hN ▸ hi)
  have hN' : (tlb.lookup m.statics v).2.1.nEntries = nEntries := by simpa using hN
  have hs : Sized nEntries (tlb.lookup m.statics v).2.2 := hc.sized.run (.lookup v) hN
  cases hl : (tlb.lookup m.statics v).1 with
  | some p =>
    -- a hit: the slot holds what the walk finds, and the machine without a TLB walks
    obtain ⟨i, hi, hvalid, hvp, hpp⟩ := TLB.lookup_hit hl
    have hleaf := hc.slots i (hN ▸ hi) hvalid
    rw [hvp, hpp] at hleaf
    obtain ⟨memN, hrn, hsame⟩ :=
      performTranslation_of_leafOf_some access.isWrite halN hv (hleafN.trans hleaf)
    refine ⟨some (makePhysicalAddr access p), _, { n with mem := memN }, rfl,
      by simp [hrn, Machine.tlbAdd, hdet],
      hc.of_slots _ _ _ _ hN' hs (fun _ => rfl) fun j hj _ => .inl (hslots j hj), hroot,
      hdet, hwalks.trans hsame, hal⟩
  | none =>
    cases hleaf : leafOf m.mem m.mmu.root v with
    | none =>
      refine ⟨none, m.withTLB (tlb.lookup m.statics v).2, n,
        by simp [performTranslation_of_leafOf_none access.isWrite hal hv hleaf],
        by simp [performTranslation_of_leafOf_none access.isWrite halN hv (hleafN.trans hleaf)],
        hc.of_slots _ _ _ _ hN' hs (fun _ => rfl) fun j hj _ => .inl (hslots j hj), hroot,
        hdet, hwalks, hal⟩
    | some p =>
      -- both walk; the TLB records the page in one slot
      obtain ⟨memM, hrm, hM⟩ := performTranslation_of_leafOf_some access.isWrite hal hv hleaf
      obtain ⟨memN, hrn, hsame⟩ :=
        performTranslation_of_leafOf_some access.isWrite halN hv (hleafN.trans hleaf)
      generalize (tlb.lookup m.statics v).2 = r at hslots hN' hs ⊢
      refine ⟨some (makePhysicalAddr access p),
        ({ m.withTLB r with mem := memM }).withTLB (r.1.add r.2 v p), { n with mem := memN },
        by simp [hrm, Machine.tlbAdd], by simp [hrn, Machine.tlbAdd, hdet],
        hc.of_slots _ _ _ _ (by simpa using hN')
          (show Sized nEntries (r.1.add r.2 v p).2 from hs.run (.add v p) hN') (hM.leafOf_eq _)
          fun j hj _ => ?_, hroot, hdet, (hM.symm.trans hwalks).trans hsame, hal⟩
      rcases r.1.add_slot r.2 v p (hN' ▸ hj) with hnew | hold
      · exact .inr (by simpa [hnew] using hleaf)
      · exact .inl (hold.trans (hslots j hj))

theorem setCurrentASID (h : Shadow nEntries m n) (asid : Nat) :
    Shadow nEntries (m.setCurrentASID asid) (n.setCurrentASID asid) :=
  ⟨⟨h.coherent.attached, h.coherent.pos, h.coherent.sized, h.coherent.slots⟩, h.root,
    h.detached, h.walks, h.aligned⟩

theorem flushTLB (h : Shadow nEntries m n) : Shadow nEntries m.flushTLB n.flushTLB := by
  rw [Machine.flushTLB_of_detached h.detached]
  exact ⟨h.coherent.flushTLB m.mmu.root m.mem, by simp [h.root], h.detached,
    by simpa using h.walks, by simpa using h.aligned⟩

theorem switchRoot (h : Shadow nEntries m n) {root : Nat} (hroot : root % 16384 = 0) :
    Shadow nEntries (m.setPageTablePointer root).flushTLB
      (n.setPageTablePointer root).flushTLB := by
  rw [Machine.flushTLB_of_detached (m := n.setPageTablePointer root) h.detached]
  exact ⟨h.coherent.flushTLB root m.mem, by simp [Machine.setPageTablePointer], h.detached,
    by simpa [Machine.setPageTablePointer] using h.walks, by simpa [Machine.setPageTablePointer]⟩

theorem remap (h : Shadow nEntries m n) (mem : Mem) :
    Shadow nEntries { m with mem }.flushTLB { n with mem }.flushTLB := by
  rw [Machine.flushTLB_of_detached (m := { n with mem }) h.detached]
  exact ⟨h.coherent.flushTLB m.mmu.root mem, by simp [h.root], h.detached,
    by simpa using SameWalks.refl mem, by simpa using h.aligned⟩

theorem run (h : Shadow nEntries m n) (op : MmuOp)
    (hop : ∀ root, op = .switchRoot root → root % 16384 = 0) :
    ∃ r m' n', op.run m = .ok (r, m') ∧ op.run n = .ok (r, n') ∧ Shadow nEntries m' n' := by
  cases op with
  | getTranslation access => exact h.getTranslation access
  | setCurrentASID asid => exact ⟨_, _, _, rfl, rfl, h.setCurrentASID asid⟩
  | flushTLB => exact ⟨_, _, _, rfl, rfl, h.flushTLB⟩
  | switchRoot root => exact ⟨_, _, _, rfl, rfl, h.switchRoot (hop root rfl)⟩
  | remap mem => exact ⟨_, _, _, rfl, rfl, h.remap mem⟩

theorem runOps (ops : List MmuOp)
    (hops : ∀ root, MmuOp.switchRoot root ∈ ops → root % 16384 = 0) :
    ∀ {m n : Machine}, Shadow nEntries m n →
      ∃ rs m' n', m.runOps ops = .ok (rs, m') ∧ n.runOps ops = .ok (rs, n') ∧
        Shadow nEntries m' n' := by
  induction ops with
  | nil => exact fun h => ⟨[], _, _, rfl, rfl, h⟩
  | cons op ops ih =>
    intro m n h
    obtain ⟨r, m1, n1, hm, hn, h1⟩ :=
      h.run op fun root hr => hops root (hr ▸ List.mem_cons_self _ _)
    obtain ⟨rs, m', n', hm', hn', h'⟩ :=
      ih (fun root hr => hops root (List.mem_cons_of_mem _ hr)) h1
    exact ⟨r :: rs, m', n', by simp [Machine.runOps, hm, hm'], by simp [Machine.runOps, hn, hn'],
      h'⟩

end Shadow

/-- Without a TLB, `getTranslation` of `unnamed/part_004` answers as that of
`hw/mmu.cc`. -/
theorem Machine.getTranslation_detached {m : Machine} (h : m.mmu.tlb = none)
    (access : MemAccess) :
    (m.getTranslation access).map Prod.fst =
      (AArch64.getTranslation m.mem m.mmu.root access).map (Option.map Prod.fst) := by
  simp only [Machine.getTranslation, Machine.tlbLookup, h, AArch64.getTranslation]
  rcases performTranslation m.mem m.mmu.root _ access.isWrite with _ | _ | ⟨_, _⟩ <;> rfl

/-- An MMU whose TLB holds only what its current tables map, on an aligned root:
along every run whose switches go to aligned roots, each flushed by the kernel as
are its rewrites of the page tables, it answers every call as the same MMU
without a TLB. -/
theorem tlb_invisible_when_flushed_on_switch {nEntries : Nat} {m : Machine}
    (hc : Coherent nEntries m)
    (hroot : m.mmu.root % 16384 = 0) (ops : List MmuOp)
    (hops : ∀ root, MmuOp.switchRoot root ∈ ops → root % 16384 = 0) :
    ∃ rs m' n', m.runOps ops = .ok (rs, m') ∧
      { m with mmu := { m.mmu with tlb := none } }.runOps ops = .ok (rs, n') := by
  obtain ⟨rs, m', n', hm, hn, -⟩ :=
    Shadow.runOps (n := { m with mmu := { m.mmu with tlb := none } }) ops hops
      ⟨hc, rfl, rfl, SameWalks.refl m.mem, hroot⟩
  exact ⟨rs, m', n', hm, hn⟩

/-- The two processes of `tlb_hit_crosses_address_spaces`, now with a flush on the
switch.  The second load of page 0 hits the TLB, the one hit of the run, and returns
page 100 as the walk does; after the switch the load misses and walks the second
root to page 200. -/
theorem tlb_invisible_across_flushed_switch :
    ∃ d, [DriverOp.allocatePageTable 1, .allocatePageTable 2, .setMapping 1 0 0 (16384 * 100),
        .setMapping 2 0 1 (16384 * 200)].foldlM DriverOp.run
        (.new (fun _ => .zero) ⟨[], fun i => 16384 * (i + 1), fun _ => ⟨0, 0⟩⟩) = .ok d ∧
      (∃ rs m' n',
        Machine.runOps [.getTranslation ⟨0, .load⟩, .getTranslation ⟨0, .load⟩,
            .switchRoot 32768, .getTranslation ⟨0, .load⟩]
          ⟨⟨16384, some (TLB.new 2), 0⟩, TLBStatics.init, d.mem⟩ = .ok (rs, m') ∧
        Machine.runOps [.getTranslation ⟨0, .load⟩, .getTranslation ⟨0, .load⟩,
            .switchRoot 32768, .getTranslation ⟨0, .load⟩]
          ⟨⟨16384, none, 0⟩, TLBStatics.init, d.mem⟩ = .ok (rs, n')) ∧
      (Machine.runOps [.getTranslation ⟨0, .load⟩, .getTranslation ⟨0, .load⟩,
          .switchRoot 32768, .getTranslation ⟨0, .load⟩]
        ⟨⟨16384, some (TLB.new 2), 0⟩, TLBStatics.init, d.mem⟩).map
          (fun r => (r.1, r.2.getTLBStatistics.2.1)) =
        .ok ([some (16384 * 100), some (16384 * 100), none, some (16384 * 200)], 1) :=
  ⟨_, rfl, tlb_invisible_when_flushed_on_switch (coherent_init _ _ _ rfl (by decide)) (by decide) _
    (by simp), rfl⟩

end PageTables.Mmu
