import PageTables.PhysMem.Basic

/-!
# Runs of a physical memory manager

Both managers have the one interface of `os/physmemmanager.h`: a constructor from
a page size and a memory size, `allocatePages` and `releasePages`.  A run starts
at a constructed manager and makes calls in which every count is a `size_t` and
every release names, by its address and count, an allocation handed out and not
yet released.  `Run` records every state of the run, newest first; a failed
allocation leaves the state as it was and records it again.

Each manager counts the pages it has handed out in `nAllocatedPages` and keeps
their high-water mark in `maxAllocatedPages`.  `Run.highWater` derives the
high-water law of a run from what one call does to the two counters, so that
each manager only supplies its own step facts.
-/

namespace PageTables

section Run

variable {M : Type} (new : Nat → Nat → Except String M)
  (allocatePages : M → Nat → Option (Nat × M)) (releasePages : M → Nat → Nat → M)

/-- A run of a manager: its current state, the live allocations and every state
so far, newest first. -/
inductive Run : M → List (Nat × Nat) → List M → Prop
  | init {m : M} (pageSize memorySize : Nat) :
      new pageSize memorySize = .ok m → Run m [] [m]
  | allocate {m m' : M} {live : List (Nat × Nat)} {states : List M} {count addr : Nat} :
      Run m live states → count < 2 ^ 64 → allocatePages m count = some (addr, m') →
      Run m' ((addr, count) :: live) (m' :: states)
  | reject {m : M} {live : List (Nat × Nat)} {states : List M} {count : Nat} :
      Run m live states → count < 2 ^ 64 → allocatePages m count = none →
      Run m live (m :: states)
  | release {m : M} {pre post : List (Nat × Nat)} {a : Nat × Nat} {states : List M} :
      Run m (pre ++ a :: post) states →
      Run (releasePages m a.1 a.2) (pre ++ post) (releasePages m a.1 a.2 :: states)

variable {new allocatePages releasePages}

theorem Run.head {m : M} {live : List (Nat × Nat)} {states : List M}
    (h : Run new allocatePages releasePages m live states) : ∃ rest, states = m :: rest := by
  cases h <;> exact ⟨_, rfl⟩

theorem le_foldr_max {f : M → Nat} {m : M} {rest : List M} :
    f m ≤ ((m :: rest).map f).foldr max 0 :=
  le_max_left _ _

theorem sorted_cons_of_le {x y : Nat} {l : List Nat} (h : (y :: l).Sorted (· ≥ ·))
    (hxy : y ≤ x) : (x :: y :: l).Sorted (· ≥ ·) :=
  List.sorted_cons.2 ⟨fun b hb => by
    rcases List.mem_cons.1 hb with rfl | hb
    · exact hxy
    · exact (List.rel_of_sorted_cons h b hb).trans hxy, h⟩

section HighWater

variable (nPages nAllocated maxAllocated : M → Nat)

/-- The high-water law: along a run, `maxAllocated` is the largest `nAllocated` of
the states so far, it never decreases, and it stays within `nPages`.  It needs
the constructor to start the mark at the count, an allocation to raise the mark
to the new count, and a release to keep the mark and not raise the count. -/
theorem Run.highWater
    (hnew : ∀ {pageSize memorySize m}, new pageSize memorySize = .ok m →
      maxAllocated m = nAllocated m)
    (hallocate : ∀ {m m' count addr}, allocatePages m count = some (addr, m') →
      nPages m' = nPages m ∧ maxAllocated m' = max (maxAllocated m) (nAllocated m'))
    (hrelease : ∀ {m pre post a states},
      Run new allocatePages releasePages m (pre ++ a :: post) states →
      nPages (releasePages m a.1 a.2) = nPages m ∧
        maxAllocated (releasePages m a.1 a.2) = maxAllocated m ∧
        nAllocated (releasePages m a.1 a.2) ≤ nAllocated m)
    (hbound : ∀ {m live states}, Run new allocatePages releasePages m live states →
      nAllocated m ≤ nPages m)
    {m : M} {live : List (Nat × Nat)} {states : List M}
    (h : Run new allocatePages releasePages m live states) :
    maxAllocated m = (states.map nAllocated).foldr max 0 ∧
      (states.map maxAllocated).Sorted (· ≥ ·) ∧ maxAllocated m ≤ nPages m := by
  induction h with
  | init _ _ hm =>
    rw [hnew hm]
    exact ⟨(max_eq_left (Nat.zero_le _)).symm, List.sorted_singleton _, hbound (.init _ _ hm)⟩
  | @allocate m m' _ states _ _ hrun hc hm ih =>
    obtain ⟨rest, rfl⟩ := hrun.head
    obtain ⟨hn, hmax⟩ := hallocate hm
    obtain ⟨ih₁, ih₂, ih₃⟩ := ih
    refine ⟨by rw [hmax, ih₁, max_comm]; rfl, sorted_cons_of_le ih₂ (hmax ▸ le_max_left _ _), ?_⟩
    rw [hmax, hn]
    exact max_le (hn ▸ ih₃) (hn ▸ hbound (.allocate hrun hc hm))
  | @reject m _ states _ hrun _ _ ih =>
    obtain ⟨rest, rfl⟩ := hrun.head
    obtain ⟨ih₁, ih₂, ih₃⟩ := ih
    refine ⟨?_, sorted_cons_of_le ih₂ le_rfl, ih₃⟩
    rw [List.map_cons, List.foldr_cons, ← ih₁, max_eq_right (ih₁ ▸ le_foldr_max)]
  | @release m _ _ _ states hrun ih =>
    obtain ⟨rest, rfl⟩ := hrun.head
    obtain ⟨hn, hmax, hcount⟩ := hrelease hrun
    obtain ⟨ih₁, ih₂, ih₃⟩ := ih
    refine ⟨?_, sorted_cons_of_le ih₂ hmax.ge, hn ▸ hmax ▸ ih₃⟩
    rw [hmax, List.map_cons, List.foldr_cons, ← ih₁,
      max_eq_right (hcount.trans (ih₁ ▸ le_foldr_max))]

end HighWater

end Run

end PageTables
