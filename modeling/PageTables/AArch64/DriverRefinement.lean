import PageTables.AArch64.DriverRelease

/-!
# The driver refines its spec

`Refines d s` relates the driver to the spec: the trees are strict and hold
exactly the blocks the driver has, the walker reads the spec's page maps off the
trees, and every physical page record the spec knows points at the leaf of its
mapping.  Every allowed operation, run against a kernel that keeps its contract,
takes both sides to related states or makes both raise the same error
(`Refines.run`); by induction, so does every run (`Reachable.refines`).
-/

namespace PageTables.AArch64

open AArch64MMUDriver

/-- The driver and the spec agree: strict trees holding exactly the driver's
blocks, the spec's maps as the walker reads them, and page records pointing at the
leaves of their mappings. -/
structure Refines (d : AArch64MMUDriver) (s : DriverSpec) : Prop where
  inv : TreeInv d
  tables : s.tables = d.absTables
  handles : ∀ page pid v, s.handles page = some (pid, v) → v < 2 ^ 34 ∧
    ∃ t3, d.nodeAt pid (pathOf v) = some t3 ∧
      (d.kernel.pages page).driverData = entryAddr t3 (leafIndex v)

namespace AArch64MMUDriver

theorem leafAt_congr {d d' : AArch64MMUDriver} {pid : Nat} (hmem : d'.mem = d.mem)
    (hnode : d'.nodeAt pid = d.nodeAt pid) : d'.leafAt pid = d.leafAt pid := by
  funext v; simp only [leafAt, hnode, hmem]

theorem absTables_of_root {d : AArch64MMUDriver} {pid root : Nat}
    (hr : d.pageTables pid = some root) :
    d.absTables pid = some fun v => if v < 2 ^ 34 then d.leafAt pid v else none := by
  simp [absTables, hr]

theorem absTables_of_none {d : AArch64MMUDriver} {pid : Nat} (hr : d.pageTables pid = none) :
    d.absTables pid = none := by
  simp [absTables, hr]

end AArch64MMUDriver

namespace Refines

variable {d : AArch64MMUDriver} {s : DriverSpec} (h : Refines d s)
include h

theorem table_eq {pid : Nat} {t : Nat → Option Nat} (ht : s.tables pid = some t) :
    ∃ root, d.pageTables pid = some root ∧
      t = fun v => if v < 2 ^ 34 then d.leafAt pid v else none := by
  cases hr : d.pageTables pid with
  | none => rw [h.tables, absTables_of_none hr] at ht; cases ht
  | some root =>
    rw [h.tables, absTables_of_root hr] at ht
    exact ⟨root, rfl, (Option.some.inj ht).symm⟩

theorem pageTables_none {pid : Nat} (ht : s.tables pid = none) : d.pageTables pid = none := by
  cases hr : d.pageTables pid with
  | none => rfl
  | some root => rw [h.tables, absTables_of_root hr] at ht; cases ht

theorem allocatePageTable {pid : Nat} (hpid : s.tables pid = none) (hk : d.kernel.Supplies 1) :
    Refines (d.allocatePageTable pid)
      { s with tables := Function.update s.tables pid (some fun _ => none) } := by
  obtain ⟨hinv, hpages, hnode, hleaf⟩ := h.inv.allocatePageTable hk (h.pageTables_none hpid)
  refine ⟨hinv, funext fun pid' => ?_, fun page pid0 v hpv => ?_⟩
  · dsimp only
    by_cases hp : pid' = pid
    · subst hp
      rw [Function.update_same, absTables_of_root (Function.update_same _ _ _)]
      simp [hleaf]
    · have hpt : (d.allocatePageTable pid).pageTables pid' = d.pageTables pid' :=
        Function.update_noteq hp _ _
      rw [Function.update_noteq hp, h.tables]
      simp only [absTables, hpt, hleaf, if_neg hp]
  · obtain ⟨hv, t3, ht3, hdata⟩ := h.handles page pid0 v hpv
    exact ⟨hv, t3, hnode _ _ _ ht3, by rw [hpages]; exact hdata⟩

theorem setMapping {pid vAddr page addr : Nat} (hpid : (s.tables pid).isSome)
    (haddr : addr < 2 ^ 48) (hk : d.kernel.Supplies 3) :
    ∃ d' s', (DriverOp.setMapping pid vAddr page addr).run d = .ok d' ∧
      (DriverOp.setMapping pid vAddr page addr).spec s = .ok s' ∧ Refines d' s' := by
  obtain ⟨t, ht⟩ := Option.isSome_iff_exists.1 hpid
  obtain ⟨root, hr, rfl⟩ := h.table_eq ht
  obtain ⟨t3, d1, hset, hinv, hpt, hpages, hnodes, ht3, hleaf⟩ :=
    h.inv.setMapping vAddr { d.kernel.pages page with addr } hk hr haddr
  refine ⟨{ d1 with kernel := d1.kernel.setPage page
                        ⟨addr, entryAddr t3 (leafIndex ((vAddr % 2 ^ 48) >>> pageBits))⟩ }, _,
    by simp only [DriverOp.run, hset, except_ok_bind]; rfl,
    by simp only [DriverOp.spec, ht]; rfl,
    ⟨hinv.congr rfl rfl fun _ _ _ _ _ _ _ => rfl, ?_, ?_⟩⟩
  · funext pid'
    show _ = d1.absTables pid'
    dsimp only
    by_cases hp : pid' = pid
    · subst hp
      rw [Function.update_same, absTables_of_root (hpt ▸ hr)]
      congr; funext v'
      by_cases hv' : v' = (vAddr % 2 ^ 48) >>> pageBits
      · subst hv'
        rw [Function.update_same, hleaf _ _ (vPage_lt vAddr), if_pos (vPage_lt vAddr),
          if_pos ⟨rfl, rfl⟩]
      · rw [Function.update_noteq hv']
        split_ifs with hlt
        · rw [hleaf _ _ hlt, if_neg fun c => hv' c.2]
        · rfl
    · rw [Function.update_noteq hp, h.tables]
      simp only [absTables, hpt]
      congr; funext _ v'
      split_ifs with hlt
      · rw [hleaf _ _ hlt, if_neg fun c => hp c.1]
      · rfl
  · intro page' pid0 v0 hpv
    dsimp only at hpv
    by_cases hpg : page' = page
    · subst hpg
      simp only [Function.update_same, Option.some.injEq, Prod.mk.injEq] at hpv
      obtain ⟨rfl, rfl⟩ := hpv
      exact ⟨vPage_lt vAddr, t3, ht3, by simp [OSKernel.setPage]⟩
    · rw [Function.update_noteq hpg] at hpv
      obtain ⟨hv, t3', ht3', hdata⟩ := h.handles page' pid0 v0 hpv
      exact ⟨hv, t3', hnodes _ _ _ ht3',
        by simp [OSKernel.setPage, Function.update_noteq hpg, hpages, hdata]⟩

theorem setPageValid {page : Nat} (setting : Bool) (hpage : (s.handles page).isSome) :
    (∃ d' s', (DriverOp.setPageValid page setting).run d = .ok d' ∧
      (DriverOp.setPageValid page setting).spec s = .ok s' ∧ Refines d' s') ∨
    ∃ e, (DriverOp.setPageValid page setting).run d = .error e ∧
      (DriverOp.setPageValid page setting).spec s = .error e := by
  obtain ⟨⟨pid, v⟩, hpv⟩ := Option.isSome_iff_exists.1 hpage
  obtain ⟨hv, t3, ht3, hdata⟩ := h.handles page pid v hpv
  obtain ⟨root, hr⟩ := root_of_nodeAt ht3
  have ht : s.tables pid = some fun v => if v < 2 ^ 34 then d.leafAt pid v else none := by
    rw [h.tables, absTables_of_root hr]
  have hrun := h.inv.setPageValid_eq setting ht3 hdata
  by_cases hc : setting ∧ d.leafAt pid v = none
  · right
    refine ⟨"Cannot validate an invalid page table entry",
      by simp only [DriverOp.run, hrun, if_pos hc], ?_⟩
    simp [DriverOp.spec, hpv, ht, hc.1, hc.2, hv]
  · left
    rw [if_neg hc] at hrun
    obtain ⟨d', hd'⟩ : ∃ d', d.setPageValid (d.kernel.pages page) setting = .ok d' :=
      ⟨_, hrun⟩
    obtain ⟨hinv, hpt, hker, hnode, hleaf⟩ := h.inv.setPageValid_ok hv ht3 hdata hd'
    have hrefines : ∀ s' : DriverSpec, s'.handles = s.handles →
        s'.tables = Function.update s.tables pid
          (some fun v' => if v' < 2 ^ 34 then
            (if v' = v then (if setting then d.leafAt pid v else none) else d.leafAt pid v')
            else none) → Refines d' s' := by
      intro s' hh htab
      refine ⟨hinv, ?_, fun page' pid0 v0 hpv' => ?_⟩
      · rw [htab]; funext pid'
        by_cases hp : pid' = pid
        · subst hp
          rw [Function.update_same, absTables_of_root (hpt ▸ hr)]
          congr; funext v'
          by_cases hlt : v' < 2 ^ 34
          · rw [if_pos hlt, if_pos hlt, hleaf _ _ hlt]
            by_cases hv' : v' = v <;> simp [hv']
          · rw [if_neg hlt, if_neg hlt]
        · rw [Function.update_noteq hp, h.tables]
          simp only [absTables, hpt]
          congr; funext _ v'
          split_ifs with hlt
          · rw [hleaf _ _ hlt, if_neg fun c => hp c.1]
          · rfl
      · rw [hh] at hpv'
        obtain ⟨hv0, t3', ht3', hdata'⟩ := h.handles page' pid0 v0 hpv'
        exact ⟨hv0, t3', by rw [hnode]; exact ht3', by rw [hker]; exact hdata'⟩
    cases setting with
    | true =>
      have hne : d.leafAt pid v ≠ none := fun e => hc ⟨rfl, e⟩
      refine ⟨d', s, hd', by simp [DriverOp.spec, hpv, ht, hne, show v < 17179869184 from hv],
        hrefines s rfl ?_⟩
      refine (Function.update_eq_self_iff.2 ?_).symm
      rw [ht]
      congr 1
      funext v'
      by_cases hv' : v' = v <;> simp [hv']
    | false =>
      refine ⟨d', { s with
          tables := Function.update s.tables pid
            (some (Function.update (fun v => if v < 2 ^ 34 then d.leafAt pid v else none) v
              none)) },
        hd', by simp only [DriverOp.spec, hpv, ht, Bool.false_eq_true, ↓reduceIte],
        hrefines _ rfl ?_⟩
      refine congrArg (fun t => Function.update s.tables pid (some t)) (funext fun v' => ?_)
      by_cases hv' : v' = v
      · subst hv'
        rw [Function.update_same, if_pos hv, if_pos rfl, if_neg Bool.false_ne_true]
      · rw [Function.update_noteq hv', if_neg hv']

theorem releasePageTable (pid : Nat) :
    Refines (d.releasePageTable pid)
      { tables := Function.update s.tables pid none,
        handles := fun page => (s.handles page).filter fun x => x.1 != pid } := by
  obtain ⟨hinv, hpages, hmem, hpt, hnode⟩ := h.inv.releasePageTable pid
  refine ⟨hinv, funext fun pid' => ?_, fun page pid0 v hpv => ?_⟩
  · dsimp only
    by_cases hp : pid' = pid
    · subst hp
      rw [Function.update_same, absTables_of_none (by rw [hpt, Function.update_same])]
    · have hleaf : (d.releasePageTable pid).leafAt pid' = d.leafAt pid' :=
        leafAt_congr hmem (funext fun p => by rw [hnode, if_neg hp])
      rw [Function.update_noteq hp, h.tables]
      simp only [absTables, hpt, Function.update_noteq hp, hleaf]
  · simp only [Option.filter_eq_some, Option.mem_def, bne_iff_ne, ne_eq] at hpv
    obtain ⟨hpv, hp⟩ := hpv
    obtain ⟨hv, t3, ht3, hdata⟩ := h.handles page pid0 v hpv
    exact ⟨hv, t3, by rw [hnode, if_neg hp]; exact ht3, by rw [hpages]; exact hdata⟩

/-- One allowed operation against a kernel keeping its contract: both sides take the
step and stay related, or both raise the same error. -/
theorem run {op : DriverOp} (hop : op.Allowed s) (hk : d.kernel.Supplies 3) :
    (∃ d' s', op.run d = .ok d' ∧ op.spec s = .ok s' ∧ Refines d' s') ∨
      ∃ e, op.run d = .error e ∧ op.spec s = .error e := by
  cases op with
  | allocatePageTable pid =>
    exact Or.inl ⟨_, _, rfl, rfl, h.allocatePageTable hop (hk.mono (by omega))⟩
  | setMapping pid vAddr page addr => exact Or.inl (h.setMapping hop.1 hop.2 hk)
  | setPageValid page setting => exact h.setPageValid setting hop
  | releasePageTable pid => exact Or.inl ⟨_, _, rfl, rfl, h.releasePageTable pid⟩

theorem withNext (next : Nat → Nat) : Refines (d.withNext next) s :=
  ⟨h.inv.congr rfl rfl fun _ _ _ _ _ _ _ => rfl, h.tables, h.handles⟩

end Refines

theorem Refines.init (mem : Mem) (kernel : OSKernel) (hk : kernel.live = []) :
    Refines (AArch64MMUDriver.new mem kernel) DriverSpec.empty := by
  have hnode : ∀ pid p, (AArch64MMUDriver.new mem kernel).nodeAt pid p = none := fun _ _ => rfl
  refine ⟨⟨⟨fun pid p t ht => ?_, fun pid p _ _ t ht => ?_, fun pid p t i ht => ?_⟩, ?_,
    fun b => ?_⟩,
    rfl, fun page pid v hpv => ?_⟩
  all_goals simp_all [DriverSpec.empty, AArch64MMUDriver.new]

/-- Every run keeps the driver related to the spec. -/
theorem Reachable.refines {d : AArch64MMUDriver} {s : DriverSpec} (h : Reachable d s) :
    Refines d s := by
  induction h with
  | init mem kernel hk => exact Refines.init mem kernel hk
  | step _ hop hk hrun hspec ih =>
    rcases (ih.withNext _).run hop hk with ⟨d', s', hrun', hspec', hr⟩ | ⟨e, hrun', -⟩
    · rw [hrun] at hrun'; rw [hspec] at hspec'
      cases hrun'; cases hspec'; exact hr
    · rw [hrun] at hrun'; cases hrun'

/-- A run of two steps: a tree for process 1, then a mapping of its page 0 to
physical page 100, with the kernel handing out the next free blocks.  The kernel
then holds four blocks, the root and the three tables below it on the path of
page 0. -/
theorem reachable_after_mapping :
    ∃ d s, Reachable d s ∧ (s.tables 1).map (fun t => t 0) = some (some 100) ∧
      d.kernel.live.length = 4 := by
  have r₁ := @Reachable.step _ _ _ _ (.allocatePageTable 1) (fun i => 16384 * (i + 1))
    (.init (fun _ => .zero) ⟨[], fun i => 16384 * (i + 1), fun _ => ⟨0, 0⟩⟩ rfl) rfl
    (by unfold OSKernel.Supplies; decide) rfl rfl
  have r₂ := @Reachable.step _ _ _ _ (.setMapping 1 0 0 (16384 * 100))
    (fun i => 16384 * (i + 2)) r₁ ⟨rfl, by decide⟩ (by unfold OSKernel.Supplies; decide) rfl rfl
  exact ⟨_, _, r₂, rfl, rfl⟩

/-! ## What the runs guarantee -/

/-- What a run of the driver guarantees its users: strict trees; for every process
of the spec and every 64-bit address, the walk from the process's root finds the
page of the spec's map, and the TLB-less `getTranslation` builds its physical
address from it; and the next allowed operation either succeeds on both sides or
raises the same error on both. -/
structure WalkRefinement (d : AArch64MMUDriver) (s : DriverSpec) : Prop where
  strict : StrictTree d
  walk : ∀ pid t, s.tables pid = some t → ∀ (a : Nat) (isWrite : Bool),
    (performTranslation d.mem (d.getPageTable pid) ((a % 2 ^ 48) >>> pageBits) isWrite).map
      (Option.map Prod.fst) = .ok (t ((a % 2 ^ 48) >>> pageBits))
  translate : ∀ pid t, s.tables pid = some t → ∀ access : MemAccess,
    (getTranslation d.mem (d.getPageTable pid) access).map (Option.map Prod.fst) =
      .ok ((t ((access.addr % 2 ^ 48) >>> pageBits)).map
        fun p => p * 2 ^ 14 + access.addr % 2 ^ 14)
  progress : ∀ (op : DriverOp) (next : Nat → Nat), op.Allowed s →
    (d.withNext next).kernel.Supplies 3 →
      (∃ d' s', op.run (d.withNext next) = .ok d' ∧ op.spec s = .ok s') ∨
        ∃ e, op.run (d.withNext next) = .error e ∧ op.spec s = .error e

theorem driver_runs_refine_walk {d : AArch64MMUDriver} {s : DriverSpec} (h : Reachable d s) :
    WalkRefinement d s := by
  have hr := h.refines
  have hroot : ∀ pid t, s.tables pid = some t → ∃ root, d.getPageTable pid = root ∧
      root % 16384 = 0 ∧ ∀ v, t v = if v < 2 ^ 34 then leafOf d.mem root v else none := by
    intro pid t ht
    obtain ⟨root, hpt, rfl⟩ := hr.table_eq ht
    refine ⟨root, by simp [getPageTable, hpt], (hr.inv.aligned _ _ _ (nodeAt_nil hpt)).1,
      fun v => ?_⟩
    simp only [leafAt_of_root hpt]
  refine ⟨hr.inv.toStrictTree, fun pid t ht a isWrite => ?_, fun pid t ht access => ?_,
    fun op next hop hk => ?_⟩
  · obtain ⟨root, rfl, hal, ht⟩ := hroot pid t ht
    rw [performTranslation_page isWrite hal (lt_trans (vPage_lt a) (by decide)), ht,
      if_pos (vPage_lt a)]
  · obtain ⟨root, rfl, hal, ht⟩ := hroot pid t ht
    rw [getTranslation_addr access hal, ht, if_pos (vPage_lt _)]
    exact congrArg _ (Option.map_congr fun p hp => makePhysicalAddr_eq access (leafOf_lt hp))
  · rcases (hr.withNext next).run hop hk with ⟨d', s', h1, h2, -⟩ | ⟨e, h1, h2⟩
    · exact Or.inl ⟨d', s', h1, h2⟩
    · exact Or.inr ⟨e, h1, h2⟩

theorem driver_runs_refine_walk_after_mapping :
    ∃ d s, Reachable d s ∧ (s.tables 1).map (fun t => t 0) = some (some 100) ∧
      WalkRefinement d s :=
  let ⟨d, s, hr, hs, _⟩ := reachable_after_mapping
  ⟨d, s, hr, hs, driver_runs_refine_walk hr⟩

/-- The kernel's ledger over a run: the blocks the driver holds, at distinct
addresses, are exactly the nodes of its trees with their sizes, and each node has
one path from one root; releasing a tree hands each of its nodes back once, with its
size; and with no tree left, no block is outstanding. -/
structure Ledger (d : AArch64MMUDriver) : Prop where
  nodup : (d.kernel.live.map Prod.fst).Nodup
  live_iff : ∀ b, b ∈ d.kernel.live ↔
    ∃ pid p, d.nodeAt pid p = some b.1 ∧ b.2 = tableSize p.length
  one_path : ∀ pid p pid' p' t, d.nodeAt pid p = some t → d.nodeAt pid' p' = some t →
    pid = pid' ∧ p = p'
  release_nodup : ∀ pid root, d.pageTables pid = some root →
    (releasePageTableLevel d.mem root 0).Nodup
  release_iff : ∀ pid root, d.pageTables pid = some root → ∀ b,
    b ∈ releasePageTableLevel d.mem root 0 ↔
      ∃ p, d.nodeAt pid p = some b.1 ∧ b.2 = tableSize p.length
  drained : (∀ pid, d.pageTables pid = none) → d.kernel.live = []

theorem driver_runs_keep_ledger {d : AArch64MMUDriver} {s : DriverSpec} (h : Reachable d s) :
    Ledger d := by
  have hi := h.refines.inv
  refine ⟨hi.live_nodup, hi.live_iff, hi.inj, fun pid root hr => ?_, fun pid root hr => ?_,
    fun hnone => ?_⟩
  · exact hi.toStrictTree.nodup_releasePageTableLevel 3 (q := []) rfl (nodeAt_nil hr)
  · exact hi.toStrictTree.mem_releasePageTableLevel 3 (q := []) rfl (nodeAt_nil hr)
  · refine List.eq_nil_iff_forall_not_mem.2 fun b hb => ?_
    obtain ⟨pid, p, hn, -⟩ := (hi.live_iff b).1 hb
    obtain ⟨root, hr⟩ := root_of_nodeAt hn
    rw [hnone pid] at hr; cases hr

theorem driver_runs_keep_ledger_after_mapping :
    ∃ d s, Reachable d s ∧ d.kernel.live.length = 4 ∧ Ledger d :=
  let ⟨d, s, hr, _, hl⟩ := reachable_after_mapping
  ⟨d, s, hr, hl, driver_runs_keep_ledger hr⟩

/-- `allocatePageTable` does not check that the process has no tree: allocating twice
for one process, with a kernel keeping its contract, and releasing the process
leaves the first root with the kernel while no process has a tree. -/
theorem allocate_twice_leaks_root :
    (⟨[], fun i => 16384 * (i + 1), fun _ => ⟨0, 0⟩⟩ : OSKernel).Supplies 3 ∧
      let d := (((AArch64MMUDriver.new (fun _ => .zero)
          ⟨[], fun i => 16384 * (i + 1), fun _ => ⟨0, 0⟩⟩).allocatePageTable 7)
            |>.allocatePageTable 7).releasePageTable 7
      (∀ pid, d.pageTables pid = none) ∧ d.kernel.live = [(16384, 16)] := by
  refine ⟨by unfold OSKernel.Supplies; decide, fun pid => ?_, ?_⟩
  · by_cases hp : pid = 7 <;>
      simp [AArch64MMUDriver.new, allocatePageTable, releasePageTable, OSKernel.allocateMemory, hp]
  · simp only [AArch64MMUDriver.new, allocatePageTable, releasePageTable, OSKernel.allocateMemory,
      Function.update_same]
    rw [releasePageTableLevel]
    simp [memset, entryAddr, entrySize, tableSize, numEntries, List.range_succ,
      OSKernel.releaseMemory]

/-- A page record's `driverData` outlives the tree it points into.  Process 1 maps its
page 0 through record 0 and is released, which hands all its tables back; the kernel
hands the same blocks out again, now for process 2, which maps its page 0 through
record 1 onto the same leaf.  `setPageValid` through the stale record 0 then clears
that leaf, and page 0 of process 2 no longer translates. -/
theorem stale_record_clears_other_process :
    ∃ d₂ d₅ d₆ : AArch64MMUDriver,
      [DriverOp.allocatePageTable 1, .setMapping 1 0 0 (16384 * 100)].foldlM DriverOp.run
          (.new (fun _ => .zero) ⟨[], fun i => 16384 * (i + 1), fun _ => ⟨0, 0⟩⟩) = .ok d₂ ∧
      (d₂.releasePageTable 1).kernel.live = [] ∧
      ((d₂.releasePageTable 1).withNext fun i => 16384 * (i + 1)).kernel.Supplies 4 ∧
      [DriverOp.allocatePageTable 2, .setMapping 2 0 1 (16384 * 200)].foldlM DriverOp.run
          ((d₂.releasePageTable 1).withNext fun i => 16384 * (i + 1)) = .ok d₅ ∧
      d₅.leafAt 2 0 = some 200 ∧ (d₅.kernel.pages 0).driverData = (d₅.kernel.pages 1).driverData ∧
      (DriverOp.setPageValid 0 false).run d₅ = .ok d₆ ∧ d₆.leafAt 2 0 = none := by
  -- the first two calls keep the invariant, and leave process 1 the only tree
  have key : ∀ d₂, [DriverOp.allocatePageTable 1, .setMapping 1 0 0 (16384 * 100)].foldlM
      DriverOp.run (.new (fun _ => .zero) ⟨[], fun i => 16384 * (i + 1), fun _ => ⟨0, 0⟩⟩) =
        .ok d₂ → TreeInv d₂ ∧ ∀ pid, pid ≠ 1 → d₂.pageTables pid = none := by
    intro d₂ h₂
    have hr₁ := @Refines.allocatePageTable _ _
      (Refines.init (fun _ => .zero) ⟨[], fun i => 16384 * (i + 1), fun _ => ⟨0, 0⟩⟩ rfl) 1 rfl
      (by unfold OSKernel.Supplies; decide)
    obtain ⟨d', s', hrun, hspec, hr⟩ := @Refines.setMapping _ _ hr₁ 1 0 0 (16384 * 100) rfl
      (by decide) (by unfold OSKernel.Supplies; decide)
    have h₁ : DriverOp.run (.new (fun _ => .zero) ⟨[], fun i => 16384 * (i + 1), fun _ => ⟨0, 0⟩⟩)
        (.allocatePageTable 1) = .ok ((AArch64MMUDriver.new (fun _ => .zero)
          ⟨[], fun i => 16384 * (i + 1), fun _ => ⟨0, 0⟩⟩).allocatePageTable 1) := rfl
    simp only [List.foldlM_cons, List.foldlM_nil, h₁, except_ok_bind, hrun] at h₂
    cases h₂
    cases hspec
    refine ⟨hr.inv, fun pid hpid => hr.pageTables_none ?_⟩
    simp [DriverOp.spec, hpid, DriverSpec.empty]
  apply Exists.intro
  apply Exists.intro
  apply Exists.intro
  refine ⟨rfl, ?_⟩
  rw [(key _ rfl).1.releasePageTable_of_only_tree (key _ rfl).2]
  exact ⟨rfl, by unfold OSKernel.Supplies; decide, rfl, by decide, by decide, rfl, by decide⟩

end PageTables.AArch64
