import PageTables.AArch64.DriverSteps

/-!
# Releasing a tree

`releasePageTableLevel` recurses into every valid table descriptor of a table,
just as the walk follows them, so on a strict tree the blocks it hands to the
kernel are the nodes at and below the table it starts from, each once and with
its level's size.  `releasePageTable` therefore takes exactly the tree of its
process out of the kernel's ledger.
-/

namespace PageTables.AArch64

open AArch64MMUDriver

namespace AArch64MMUDriver

variable {d : AArch64MMUDriver} {pid t : Nat} {q : List Nat}

theorem nodeAt_child (ht : d.nodeAt pid q = some t) {i : Nat} (hi : i < numEntries q.length)
    (hq : q.length < 3)
    (he : ((d.mem (entryAddr t i)).valid && (d.mem (entryAddr t i)).type) = true) :
    d.nodeAt pid (q ++ [i]) = some (getAddress (d.mem (entryAddr t i))) := by
  rw [Bool.and_eq_true] at he
  rw [nodeAt_snoc ht, if_pos ⟨hi, hq⟩]
  exact nextTable_eq_some.2 ⟨he.1, he.2, rfl⟩

theorem nodeAt_of_append {r : List Nat} {u : Nat} (h : d.nodeAt pid (q ++ r) = some u) :
    ∃ c, d.nodeAt pid q = some c := by
  obtain ⟨root, hr⟩ := root_of_nodeAt h
  rw [nodeAt_of_root hr] at h ⊢
  split_ifs at h with hc
  simp only [inRange_append, Bool.and_eq_true, List.length_append] at hc
  rw [if_pos ⟨hc.1.1, by omega⟩]
  rw [tableAt_append] at h
  cases hq : tableAt d.mem root q with
  | none => simp [hq] at h
  | some c => exact ⟨c, rfl⟩

end AArch64MMUDriver

namespace StrictTree

variable {d : AArch64MMUDriver} (h : StrictTree d)
include h

/-- The blocks `releasePageTableLevel` hands back from the node at `q` of the tree of
`pid` are the nodes at and below `q`, with their sizes. -/
theorem mem_releasePageTableLevel {pid : Nat} (n : Nat) :
    ∀ {q : List Nat} {t : Nat}, q.length + n = 3 → d.nodeAt pid q = some t →
      ∀ b, b ∈ releasePageTableLevel d.mem t q.length ↔
        ∃ r, d.nodeAt pid (q ++ r) = some b.1 ∧ b.2 = tableSize (q ++ r).length := by
  induction n with
  | zero =>
    intro q t hn ht b
    rw [releasePageTableLevel, if_neg (h.aligned _ _ _ ht).2.1.ne', dif_neg (by omega)]
    constructor
    · intro hb; simp only [List.nil_append, List.mem_singleton] at hb
      exact ⟨[], by simp [ht, hb]⟩
    · rintro ⟨r, hr, hs⟩
      cases r with
      | nil => simp only [List.append_nil, ht, Option.some.injEq] at hr; simp [hr, hs, Prod.ext_iff]
      | cons j r =>
        obtain ⟨c, hc⟩ := nodeAt_of_append (q := q ++ [j]) (by simpa using hr)
        rw [nodeAt_snoc ht, if_neg (by omega)] at hc; cases hc
  | succ n ih =>
    intro q t hn ht b
    rw [releasePageTableLevel, if_neg (h.aligned _ _ _ ht).2.1.ne', dif_pos (by omega),
      List.mem_append, List.mem_flatMap, List.mem_singleton]
    constructor
    · rintro (⟨i, hi, hb⟩ | rfl)
      · rw [List.mem_range] at hi
        dsimp only at hb
        split_ifs at hb with he
        · obtain ⟨r, hr, hs⟩ :=
            (ih (by simp; omega) (nodeAt_child ht hi (by omega) he) b).1 (by simpa using hb)
          exact ⟨i :: r, by simpa using hr, by simpa using hs⟩
        · simp at hb
      · exact ⟨[], by simp [ht]⟩
    · rintro ⟨r, hr, hs⟩
      cases r with
      | nil =>
        right
        simp only [List.append_nil, ht, Option.some.injEq] at hr
        simp [hr, hs, Prod.ext_iff]
      | cons i r =>
        left
        obtain ⟨c, hc⟩ := nodeAt_of_append (q := q ++ [i]) (by simpa using hr)
        rw [nodeAt_snoc ht] at hc
        split_ifs at hc with hi
        obtain ⟨hv, hty, rfl⟩ := nextTable_eq_some.1 hc
        refine ⟨i, List.mem_range.2 hi.1, ?_⟩
        rw [if_pos (by simp [hv, hty])]
        have := (ih (q := q ++ [i]) (by simp; omega) (by rw [nodeAt_snoc ht, if_pos hi]; exact hc)
          b).2 ⟨r, by simpa using hr, by simpa using hs⟩
        simpa using this

theorem nodup_releasePageTableLevel {pid : Nat} (n : Nat) :
    ∀ {q : List Nat} {t : Nat}, q.length + n = 3 → d.nodeAt pid q = some t →
      (releasePageTableLevel d.mem t q.length).Nodup := by
  induction n with
  | zero =>
    intro q t hn ht
    rw [releasePageTableLevel, if_neg (h.aligned _ _ _ ht).2.1.ne', dif_neg (by omega)]
    simp
  | succ n ih =>
    intro q t hn ht
    have hchild : ∀ i, i < numEntries q.length →
        ∀ b ∈ (let entry := d.mem (entryAddr t i)
          if entry.valid && entry.type then
            releasePageTableLevel d.mem (getAddress entry) (q.length + 1) else []),
        ∃ r, d.nodeAt pid (q ++ i :: r) = some b.1 := by
      intro i hi b hb
      dsimp only at hb
      split_ifs at hb with he
      · obtain ⟨r, hr, -⟩ := (h.mem_releasePageTableLevel n (by simp; omega)
          (nodeAt_child ht hi (by omega) he) b).1 (by simpa using hb)
        exact ⟨r, by simpa using hr⟩
      · simp at hb
    rw [releasePageTableLevel, if_neg (h.aligned _ _ _ ht).2.1.ne', dif_pos (by omega),
      List.nodup_append]
    refine ⟨List.nodup_flatMap.2 ⟨fun i hmem => ?_, ?_⟩, List.nodup_singleton _, ?_⟩
    · dsimp only
      split_ifs with he
      · simpa using
          ih (q := q ++ [i]) (by simp; omega)
            (nodeAt_child ht (List.mem_range.1 hmem) (by omega) he)
      · exact List.nodup_nil
    · refine (List.nodup_range _).pairwise_of_forall_ne fun i hi j hj hij b hbi hbj => ?_
      obtain ⟨r, hr⟩ := hchild i (List.mem_range.1 hi) b hbi
      obtain ⟨r', hr'⟩ := hchild j (List.mem_range.1 hj) b hbj
      have := (h.inj _ _ _ _ _ hr hr').2
      simp only [List.append_cancel_left_eq, List.cons.injEq] at this
      exact hij this.1
    · intro b hb hb'
      obtain ⟨i, hi, hbi⟩ := List.mem_flatMap.1 hb
      obtain ⟨r, hr⟩ := hchild i (List.mem_range.1 hi) b hbi
      rw [List.mem_singleton] at hb'
      have := congrArg List.length (h.inj _ _ _ _ _ hr (by rw [hb']; exact ht)).2
      simp at this

end StrictTree

/-! ## The kernel's ledger across a release -/

namespace OSKernel

theorem foldl_releaseMemory (bs : List (Nat × Nat)) (k : OSKernel) :
    (bs.foldl (fun k b => k.releaseMemory b.1 b.2) k).live = bs.foldl List.erase k.live ∧
      (bs.foldl (fun k b => k.releaseMemory b.1 b.2) k).pages = k.pages := by
  induction bs generalizing k with
  | nil => exact ⟨rfl, rfl⟩
  | cons b bs ih => exact ih (k.releaseMemory b.1 b.2)

theorem foldl_releaseMemory_eq (bs : List (Nat × Nat)) (k : OSKernel) :
    bs.foldl (fun k b => k.releaseMemory b.1 b.2) k =
      { k with live := (bs.foldl (fun k b => k.releaseMemory b.1 b.2) k).live } := by
  induction bs generalizing k with
  | nil => rfl
  | cons b bs ih => exact ih (k.releaseMemory b.1 b.2)

end OSKernel

theorem mem_foldl_erase {l : List (Nat × Nat)} (bs : List (Nat × Nat)) (hl : l.Nodup)
    (x : Nat × Nat) : x ∈ bs.foldl List.erase l ↔ x ∈ l ∧ x ∉ bs := by
  induction bs generalizing l with
  | nil => simp
  | cons b bs ih =>
    rw [List.foldl_cons, ih (hl.erase b), hl.mem_erase_iff, List.mem_cons]
    tauto

theorem foldl_erase_sublist {l : List (Nat × Nat)} (bs : List (Nat × Nat)) :
    (bs.foldl List.erase l).Sublist l := by
  induction bs generalizing l with
  | nil => exact List.Sublist.refl l
  | cons b bs ih => exact ih.trans (List.erase_sublist b l)

namespace TreeInv

variable {d : AArch64MMUDriver} (h : TreeInv d)
include h

/-- `releasePageTable` forgets the tree of `pid`, takes its nodes out of the ledger,
and leaves every other tree as it was. -/
theorem releasePageTable (pid : Nat) :
    TreeInv (d.releasePageTable pid) ∧ (d.releasePageTable pid).kernel.pages = d.kernel.pages ∧
      (d.releasePageTable pid).mem = d.mem ∧
      (d.releasePageTable pid).pageTables = Function.update d.pageTables pid none ∧
      ∀ pid' p, (d.releasePageTable pid).nodeAt pid' p =
        if pid' = pid then none else d.nodeAt pid' p := by
  cases hr : d.pageTables pid with
  | none =>
    have hpt : Function.update d.pageTables pid none = d.pageTables := by
      rw [← hr]; exact Function.update_eq_self pid d.pageTables
    simp only [AArch64MMUDriver.releasePageTable, hr, hpt]
    refine ⟨h, by simp, by simp, by simp, fun pid' p => ?_⟩
    split_ifs with hp
    · subst hp; simp [nodeAt, hr]
    · rfl
  | some root =>
    obtain ⟨hlive, hpages⟩ :=
      OSKernel.foldl_releaseMemory (releasePageTableLevel d.mem root 0) d.kernel
    set R := releasePageTableLevel d.mem root 0
    have hmemR : ∀ b, b ∈ R ↔ ∃ r, d.nodeAt pid r = some b.1 ∧ b.2 = tableSize r.length :=
      h.toStrictTree.mem_releasePageTableLevel 3 (q := []) rfl (nodeAt_nil hr)
    have hnode : ∀ pid' p, (d.releasePageTable pid).nodeAt pid' p =
        if pid' = pid then none else d.nodeAt pid' p := by
      intro pid' p
      split_ifs with hp
      · subst hp; simp [nodeAt, AArch64MMUDriver.releasePageTable, hr]
      · simp [nodeAt, AArch64MMUDriver.releasePageTable, hr, hp]
    have hnodup : d.kernel.live.Nodup := h.live_nodup.of_map _
    have hlive' : (d.releasePageTable pid).kernel.live = R.foldl List.erase d.kernel.live := by
      simp only [AArch64MMUDriver.releasePageTable, hr]; exact hlive
    refine ⟨⟨⟨fun pid' p t ht => ?_, fun pid₁ p₁ pid₂ p₂ t h₁ h₂ => ?_,
      fun pid' p t i ht => ?_⟩, ?_, fun b => ?_⟩,
      by simp only [AArch64MMUDriver.releasePageTable, hr]; exact hpages,
      by simp [AArch64MMUDriver.releasePageTable, hr],
      by simp [AArch64MMUDriver.releasePageTable, hr], hnode⟩
    · rw [hnode] at ht; split_ifs at ht; exact h.aligned pid' p t ht
    · rw [hnode] at h₁ h₂; split_ifs at h₁ h₂; exact h.inj _ _ _ _ _ h₁ h₂
    · rw [hnode] at ht; split_ifs at ht
      simp only [AArch64MMUDriver.releasePageTable, hr]
      exact h.interior pid' p t i ht
    · rw [hlive']
      exact h.live_nodup.sublist ((foldl_erase_sublist R).map _)
    · rw [hlive', mem_foldl_erase R hnodup, h.live_iff, hmemR]
      constructor
      · rintro ⟨⟨pid', p, hn, hs⟩, hnot⟩
        have hp : pid' ≠ pid := by rintro rfl; exact hnot ⟨p, hn, hs⟩
        exact ⟨pid', p, by rw [hnode, if_neg hp]; exact hn, hs⟩
      · rintro ⟨pid', p, hn, hs⟩
        rw [hnode] at hn
        split_ifs at hn with hp
        refine ⟨⟨pid', p, hn, hs⟩, fun ⟨r, hr', _⟩ => hp (h.inj _ _ _ _ _ hn hr').1⟩

theorem releasePageTable_of_only_tree {pid : Nat}
    (hpt : ∀ pid', pid' ≠ pid → d.pageTables pid' = none) :
    d.releasePageTable pid =
      { d with pageTables := fun _ => none, kernel := { d.kernel with live := [] } } := by
  obtain ⟨hinv, -, -, hpts, -⟩ := h.releasePageTable pid
  have hnone : ∀ p, (d.releasePageTable pid).pageTables p = none := fun p => by
    rw [hpts]
    by_cases hp : p = pid
    · subst hp; exact Function.update_same _ _ _
    · rw [Function.update_noteq hp, hpt p hp]
  have hlive : (d.releasePageTable pid).kernel.live = [] := by
    refine List.eq_nil_iff_forall_not_mem.2 fun b hb => ?_
    obtain ⟨p, q, hn, -⟩ := (hinv.live_iff b).1 hb
    obtain ⟨root, hroot⟩ := root_of_nodeAt hn
    rw [hnone p] at hroot
    cases hroot
  cases hr : d.pageTables pid with
  | none =>
    have hall : d.pageTables = fun _ => none := funext fun p => by
      by_cases hp : p = pid
      · subst hp; exact hr
      · exact hpt p hp
    simp only [AArch64MMUDriver.releasePageTable, hr] at hlive ⊢
    rw [← hlive, ← hall]
  | some root =>
    simp only [AArch64MMUDriver.releasePageTable, hr] at hlive hnone ⊢
    rw [OSKernel.foldl_releaseMemory_eq, hlive, funext hnone]

end TreeInv

end PageTables.AArch64
