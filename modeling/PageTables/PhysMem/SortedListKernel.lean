import PageTables.PhysMem.SortedListRuns

/-!
# The pages of the kernel of `hw/mmu.cc`

`OSKernel` records for each process the addresses that `allocatePage` took from the
sorted hole list with `allocate(1)`, and `terminateProcess` hands them back with
`release(address, 1)`.  Each recorded address is a live one-byte allocation of the
manager, so the run invariant of the hole list carries over to the kernel: along
every run, the addresses recorded for all processes are distinct bytes below
`2^40`, and a byte below `2^40` is recorded exactly when no hole holds it.  Every
release is of one byte, so no byte is lost.
-/

namespace PageTables.SortedList

namespace OSKernel

def pagesOf (k : OSKernel) (pids : List Nat) : List Nat :=
  pids.flatMap fun p => (k.processPages p).getD []

def byteRanges (pages : List Nat) : List MemoryHole :=
  pages.map fun a => ⟨a, 1⟩

theorem holders_byteRanges (pages : List Nat) (b : Nat) :
    holders (byteRanges pages) b = pages.count b := by
  rw [holders, byteRanges, List.countP_map, List.count_eq_countP]
  refine List.countP_congr fun a _ => ?_
  simp only [Function.comp, MemoryHole.holds, decide_eq_true_eq, beq_iff_eq]
  omega

theorem pagesOf_congr {k k' : OSKernel} {pids : List Nat}
    (h : ∀ p ∈ pids, k'.processPages p = k.processPages p) : k'.pagesOf pids = k.pagesOf pids :=
  List.flatMap_congr fun p hp => by rw [h p hp]

theorem pagesOf_perm_erase {k : OSKernel} {pids : List Nat} (hk : ∀ p, p ∉ pids → k.processPages p = none)
    (pid : Nat) :
    (k.pagesOf pids).Perm ((k.processPages pid).getD [] ++ k.pagesOf (pids.erase pid)) := by
  by_cases hp : pid ∈ pids
  · simpa [pagesOf] using (List.perm_cons_erase hp).flatMap_right fun p => (k.processPages p).getD []
  · rw [hk pid hp, List.erase_of_not_mem hp]
    rfl

/-- What a run of the kernel keeps: the processes that have entries, each once, and
the run invariant of the manager with every recorded address a live one-byte
allocation and no byte lost. -/
structure KernelInv (k : OSKernel) (pids : List Nat) : Prop where
  nodup : pids.Nodup
  processPages_none : ∀ p, p ∉ pids → k.processPages p = none
  inv : Inv k.physMemManager (byteRanges (k.pagesOf pids)) []

theorem kernelInv_new : KernelInv OSKernel.new [] :=
  ⟨List.nodup_nil, fun _ _ => rfl, inv_new⟩

theorem Inv.releasePages : ∀ (pages : List Nat) {m m' : PhysMemManager} {rest : List MemoryHole},
    Inv m (byteRanges pages ++ rest) [] →
      pages.foldlM (fun m address => m.release address 1) m = some m' → Inv m' rest []
  | [], _, _, _, hi, h => by cases h; exact hi
  | a :: pages, m, _, rest, hi, h => by
    rw [List.foldlM_cons] at h
    obtain ⟨m₁, h₁, h₂⟩ := Option.bind_eq_some.1 h
    exact Inv.releasePages pages
      ((Inv.release (show Inv m ([] ++ ⟨a, 1⟩ :: (byteRanges pages ++ rest)) [] from hi)
        h₁).of_released_pos Nat.one_pos) h₂

namespace KernelInv

variable {k k' : OSKernel} {pids : List Nat}

theorem allocatePage (h : KernelInv k pids) {processID virtualAddress : Nat}
    (ha : k.allocatePage processID virtualAddress = .ok k') :
    KernelInv k' (processID :: pids.erase processID) := by
  unfold OSKernel.allocatePage at ha
  cases hm : k.physMemManager.allocate 1 with
  | error e => simp [hm] at ha
  | ok r =>
    obtain ⟨address, m'⟩ := r
    simp only [hm] at ha
    cases ha
    have hrest : ∀ p ∈ pids.erase processID, p ≠ processID := fun p hp =>
      (h.nodup.mem_erase_iff.1 hp).1
    refine ⟨List.nodup_cons.2 ⟨h.nodup.not_mem_erase, h.nodup.erase _⟩, fun p hp => ?_,
      (h.inv.allocate hm).perm ?_⟩
    · rw [List.mem_cons, not_or] at hp
      simp only [pushPage, Function.update_noteq hp.1]
      exact h.processPages_none p fun hmem => hp.2 (List.mem_erase_of_ne hp.1 |>.2 hmem)
    · have hcongr : pagesOf ⟨pushPage k.processPages processID address, m'⟩
          (pids.erase processID) = k.pagesOf (pids.erase processID) :=
        pagesOf_congr fun p hp => by simp only [pushPage, Function.update_noteq (hrest p hp)]
      have hpages : pagesOf ⟨pushPage k.processPages processID address, m'⟩
          (processID :: pids.erase processID) =
          (k.processPages processID).getD [] ++ address :: k.pagesOf (pids.erase processID) := by
        show (pushPage k.processPages processID address processID).getD [] ++
          pagesOf ⟨pushPage k.processPages processID address, m'⟩ (pids.erase processID) = _
        rw [hcongr]
        simp [pushPage]
      rw [hpages]
      exact (((pagesOf_perm_erase h.processPages_none processID).cons address).trans
        List.perm_middle.symm).map fun a => (⟨a, 1⟩ : MemoryHole)

/-- `terminateProcess` hands back the pages of the process and drops its entry. -/
theorem terminateProcess (h : KernelInv k pids) {processID : Nat}
    (ht : k.terminateProcess processID = some k') : KernelInv k' (pids.erase processID) := by
  have hperm := pagesOf_perm_erase h.processPages_none processID
  have hnone : ∀ p, p ∉ pids.erase processID → p ≠ processID → k.processPages p = none :=
    fun p hp hne => h.processPages_none p fun hmem => hp ((List.mem_erase_of_ne hne).2 hmem)
  unfold OSKernel.terminateProcess at ht
  split at ht
  · rename_i hpp
    cases ht
    refine ⟨h.nodup.erase _, fun p hp => ?_, h.inv.perm ?_⟩
    · by_cases hne : p = processID
      · rw [hne, hpp]
      · exact hnone p hp hne
    · rw [hpp] at hperm
      exact hperm.map _
  · rename_i pages hpp
    obtain ⟨m', hfold, hk⟩ := Option.bind_eq_some.1 ht
    cases hk
    have hrest : ∀ p ∈ pids.erase processID, p ≠ processID := fun p hp =>
      (h.nodup.mem_erase_iff.1 hp).1
    refine ⟨h.nodup.erase _, fun p hp => ?_, ?_⟩
    · by_cases hne : p = processID
      · rw [hne]
        exact Function.update_same _ _ _
      · exact (Function.update_noteq hne _ _).trans (hnone p hp hne)
    · rw [pagesOf_congr fun p hp => Function.update_noteq (hrest p hp) _ _]
      rw [hpp] at hperm
      refine Inv.releasePages pages (h.inv.perm ?_) hfold
      rw [byteRanges, byteRanges, byteRanges, ← List.map_append]
      exact hperm.map _

end KernelInv

/-- A run of the kernel from its constructor, in which every `terminateProcess` is
defined. -/
inductive KernelRuns : OSKernel → Prop
  | new : KernelRuns OSKernel.new
  | allocatePage {k k' : OSKernel} {processID virtualAddress : Nat} :
      KernelRuns k → k.allocatePage processID virtualAddress = .ok k' → KernelRuns k'
  | terminateProcess {k k' : OSKernel} {processID : Nat} :
      KernelRuns k → k.terminateProcess processID = some k' → KernelRuns k'

theorem KernelRuns.inv {k : OSKernel} (h : KernelRuns k) : ∃ pids, KernelInv k pids := by
  induction h with
  | new => exact ⟨[], kernelInv_new⟩
  | allocatePage _ ha ih =>
    obtain ⟨pids, hk⟩ := ih
    exact ⟨_, hk.allocatePage ha⟩
  | terminateProcess _ ht ih =>
    obtain ⟨pids, hk⟩ := ih
    exact ⟨_, hk.terminateProcess ht⟩

end OSKernel

open OSKernel in
/-- Along every run of the kernel, with `pids` the processes that have entries, the
addresses recorded for all of them are distinct bytes below `2^40`, and a byte
below `2^40` is recorded exactly when no hole holds it: the kernel's record and the
hole list together account for every byte once. -/
theorem kernel_records_each_byte_once {k : OSKernel} (h : KernelRuns k) :
    ∃ pids : List Nat, pids.Nodup ∧ (∀ p, p ∉ pids → k.processPages p = none) ∧
      (k.pagesOf pids).Nodup ∧ (∀ a ∈ k.pagesOf pids, a < 2 ^ 40) ∧
      ∀ b < 2 ^ 40, (b ∈ k.pagesOf pids ↔ holders k.physMemManager.holes b = 0) := by
  obtain ⟨pids, hk⟩ := h.inv
  have hle := hk.inv.holders_le
  have heq := hk.inv.holders_eq nofun
  simp only [holders_byteRanges] at hle heq
  refine ⟨pids, hk.nodup, hk.processPages_none, List.nodup_iff_count_le_one.2 fun b => ?_,
    fun a ha => ?_, fun b hb => ?_⟩
  · have := hle b
    omega
  · have := (bounded_append.1 hk.inv.bounded).2 ⟨a, 1⟩ (List.mem_map_of_mem _ ha)
    dsimp only at this
    omega
  · have := heq b hb
    rw [← List.count_pos_iff]
    omega

open OSKernel in
/-- Processes 1 and 2 take a page each, then process 1 ends: byte 0 goes back to the
holes and byte 1 stays recorded for process 2. -/
theorem kernel_records_each_byte_once_after_terminate :
    let k : OSKernel :=
      ⟨Function.update (OSKernel.pushPage (OSKernel.pushPage (fun _ => none) 1 0) 2 1) 1 none,
        ⟨[⟨0, 1⟩, ⟨2, 2 ^ 40 - 2⟩]⟩⟩
    KernelRuns k ∧
      ∃ pids : List Nat, pids.Nodup ∧ (∀ p, p ∉ pids → k.processPages p = none) ∧
        (k.pagesOf pids).Nodup ∧ (∀ a ∈ k.pagesOf pids, a < 2 ^ 40) ∧
        ∀ b < 2 ^ 40, (b ∈ k.pagesOf pids ↔ holders k.physMemManager.holes b = 0) := by
  intro k
  have hrun : KernelRuns k :=
    @KernelRuns.terminateProcess _ _ 1
      (@KernelRuns.allocatePage _ _ 2 0 (@KernelRuns.allocatePage _ _ 1 0 .new rfl) rfl) rfl
  exact ⟨hrun, kernel_records_each_byte_once hrun⟩

end PageTables.SortedList
