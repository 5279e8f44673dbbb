import PageTables.AArch64.Driver

/-!
# The driver's trees

The nodes of the driver's trees are the tables `nodeAt` finds below a root along
at most three in-range indices.  `StrictTree` says that they are aligned tables,
that no node is reached from two slots or two processes, and that every valid
interior entry is a table descriptor; `TreeInv` adds the kernel's ledger: the
blocks the driver holds are exactly the nodes, each with its level's size.

A tree depends only on the entries of its interior nodes (`nodeAt_congr`).  A
write to one interior slot changes the node at that slot's path and at no other
(`nodeAt_write`), because the slots of distinct aligned tables are distinct and
every node has one path.
-/

namespace PageTables.AArch64

def inRange : Nat → List Nat → Bool
  | _, [] => true
  | level, i :: path => decide (i < numEntries level) && inRange (level + 1) path

@[simp] theorem inRange_nil (level : Nat) : inRange level [] = true := rfl

@[simp] theorem inRange_cons (level i : Nat) (path : List Nat) :
    inRange level (i :: path) = (decide (i < numEntries level) && inRange (level + 1) path) := rfl

theorem inRange_append (level : Nat) (p q : List Nat) :
    inRange level (p ++ q) = (inRange level p && inRange (level + p.length) q) := by
  induction p generalizing level with
  | nil => simp
  | cons i p ih => simp [ih, Bool.and_assoc, Nat.add_assoc, Nat.add_comm 1]

@[simp] theorem numEntries_zero : numEntries 0 = 2 := rfl

@[simp] theorem numEntries_succ (level : Nat) : numEntries (level + 1) = 2048 := rfl

theorem numEntries_le (level : Nat) : numEntries level ≤ 2048 := by
  unfold numEntries; split <;> simp

theorem tableSize_le (level : Nat) : tableSize level ≤ 16384 := by
  unfold tableSize entrySize; have := numEntries_le level; omega

theorem tableSize_pos (level : Nat) : 0 < tableSize level := by
  unfold tableSize numEntries entrySize; split <;> simp

theorem inRange_pathOf (v : Nat) : inRange 0 (pathOf v) = true := by
  simp only [pathOf, inRange_cons, inRange_nil, numEntries_zero, numEntries_succ, l0Index_eq,
    l1Index_eq, l2Index_eq, Bool.and_true, Bool.and_eq_true, decide_eq_true_eq]
  omega

@[simp] theorem length_pathOf (v : Nat) : (pathOf v).length = 3 := rfl

namespace AArch64MMUDriver

def nodeAt (d : AArch64MMUDriver) (pid : Nat) (path : List Nat) : Option Nat :=
  (d.pageTables pid).bind fun root =>
    if inRange 0 path ∧ path.length ≤ 3 then tableAt d.mem root path else none

def leafAt (d : AArch64MMUDriver) (pid v : Nat) : Option Nat :=
  (d.nodeAt pid (pathOf v)).bind fun t =>
    let entry := d.mem (entryAddr t (leafIndex v))
    if entry.valid then some entry.physicalPageNum.toNat else none

/-- The driver read as the spec: each process's tree as its map of pages. -/
def absTables (d : AArch64MMUDriver) (pid : Nat) : Option (Nat → Option Nat) :=
  (d.pageTables pid).map fun _ v => if v < 2 ^ 34 then d.leafAt pid v else none

theorem nodeAt_of_root {d : AArch64MMUDriver} {pid root : Nat} (h : d.pageTables pid = some root)
    (path : List Nat) :
    d.nodeAt pid path =
      if inRange 0 path ∧ path.length ≤ 3 then tableAt d.mem root path else none := by
  simp [nodeAt, h]

theorem nodeAt_nil {d : AArch64MMUDriver} {pid root : Nat} (h : d.pageTables pid = some root) :
    d.nodeAt pid [] = some root := by
  simp [nodeAt_of_root h]

theorem root_of_nodeAt {d : AArch64MMUDriver} {pid : Nat} {path : List Nat} {t : Nat}
    (h : d.nodeAt pid path = some t) : ∃ root, d.pageTables pid = some root := by
  cases hr : d.pageTables pid with
  | none => simp [nodeAt, hr] at h
  | some root => exact ⟨root, rfl⟩

theorem leafAt_of_root {d : AArch64MMUDriver} {pid root : Nat} (h : d.pageTables pid = some root)
    (v : Nat) : d.leafAt pid v = leafOf d.mem root v := by
  simp [leafAt, leafOf, nodeAt_of_root h, inRange_pathOf]

theorem nodeAt_of_prefix {d : AArch64MMUDriver} {pid root : Nat} {p q : List Nat} {i t : Nat}
    (hr : d.pageTables pid = some root) (hp : inRange 0 p ∧ p.length ≤ 3) (hq : q ++ [i] <+: p)
    (ht : tableAt d.mem root q = some t) :
    d.nodeAt pid q = some t ∧ q.length < 3 ∧ i < numEntries q.length := by
  obtain ⟨r, rfl⟩ := hq
  simp only [inRange_append, Bool.and_eq_true, inRange_cons, inRange_nil, decide_eq_true_eq,
    Nat.zero_add, List.length_append, List.length_singleton] at hp
  refine ⟨?_, by omega, hp.1.1.2.1⟩
  rw [nodeAt_of_root hr, if_pos ⟨hp.1.1.1, by omega⟩, ht]

theorem nodeAt_congr {d d' : AArch64MMUDriver} (hpt : d'.pageTables = d.pageTables)
    (h : ∀ pid p t i, d.nodeAt pid p = some t → p.length < 3 → i < numEntries p.length →
      d'.mem (entryAddr t i) = d.mem (entryAddr t i)) :
    d'.nodeAt = d.nodeAt := by
  funext pid p
  cases hr : d.pageTables pid with
  | none => simp [nodeAt, hr, hpt]
  | some root =>
    rw [nodeAt_of_root (hpt ▸ hr), nodeAt_of_root hr]
    split_ifs with hp
    · refine tableAt_congr fun q i t hq ht => ?_
      obtain ⟨hn, hl, hi⟩ := nodeAt_of_prefix hr hp hq ht
      exact h pid q t i hn hl hi
    · rfl

end AArch64MMUDriver

open AArch64MMUDriver

/-- The driver's trees are strict: their nodes are aligned tables below `2 ^ 48`,
none is reached from two slots or two processes, and every valid interior entry
is a table descriptor, pointing at the node below it. -/
structure StrictTree (d : AArch64MMUDriver) : Prop where
  aligned : ∀ pid p t, d.nodeAt pid p = some t → t % 16384 = 0 ∧ 0 < t ∧ t < 2 ^ 48
  inj : ∀ pid p pid' p' t, d.nodeAt pid p = some t → d.nodeAt pid' p' = some t →
    pid = pid' ∧ p = p'
  interior : ∀ pid p t i, d.nodeAt pid p = some t → p.length < 3 → i < numEntries p.length →
    (d.mem (entryAddr t i)).valid → (d.mem (entryAddr t i)).type

/-- The strict trees, and the kernel's ledger: the blocks the driver holds, at
distinct addresses, are exactly the nodes, each with its level's size. -/
structure TreeInv (d : AArch64MMUDriver) extends StrictTree d : Prop where
  live_nodup : (d.kernel.live.map Prod.fst).Nodup
  live_iff : ∀ b, b ∈ d.kernel.live ↔
    ∃ pid p, d.nodeAt pid p = some b.1 ∧ b.2 = tableSize p.length

namespace StrictTree

variable {d : AArch64MMUDriver} (h : StrictTree d)
include h

theorem slot_inj {pid t i pid' t' i' : Nat} {p p' : List Nat}
    (ht : d.nodeAt pid p = some t) (ht' : d.nodeAt pid' p' = some t')
    (hi : i < numEntries p.length) (hi' : i' < numEntries p'.length)
    (heq : entryAddr t i = entryAddr t' i') : pid = pid' ∧ p = p' ∧ i = i' := by
  obtain ⟨htt, hii⟩ := entryAddr_inj (h.aligned _ _ _ ht).1 (h.aligned _ _ _ ht').1
    (lt_of_lt_of_le hi (numEntries_le _)) (lt_of_lt_of_le hi' (numEntries_le _)) heq
  subst htt
  exact ⟨(h.inj _ _ _ _ _ ht ht').1, (h.inj _ _ _ _ _ ht ht').2, hii⟩

theorem tableAt_write {pid0 t0 i0 pid root : Nat} {p0 p : List Nat} {mem : Mem}
    (ht0 : d.nodeAt pid0 p0 = some t0) (hi0 : i0 < numEntries p0.length)
    (hmem : ∀ pid p t i, d.nodeAt pid p = some t → p.length < 3 → i < numEntries p.length →
      entryAddr t i ≠ entryAddr t0 i0 → mem (entryAddr t i) = d.mem (entryAddr t i))
    (hr : d.pageTables pid = some root) (hp : inRange 0 p ∧ p.length ≤ 3)
    (hnot : ¬ (pid = pid0 ∧ p0 ++ [i0] <+: p)) :
    tableAt mem root p = tableAt d.mem root p := by
  refine tableAt_congr fun q i t hq ht => ?_
  obtain ⟨hn, hl, hi⟩ := nodeAt_of_prefix hr hp hq ht
  refine hmem pid q t i hn hl hi fun heq => hnot ?_
  obtain ⟨rfl, rfl, rfl⟩ := h.slot_inj hn ht0 hi hi0 heq
  exact ⟨rfl, hq⟩

theorem nodeAt_write {pid0 t0 i0 b pid : Nat} {p0 p : List Nat} {d' : AArch64MMUDriver}
    (hpt : d'.pageTables = d.pageTables) (ht0 : d.nodeAt pid0 p0 = some t0)
    (hl0 : p0.length < 3) (hi0 : i0 < numEntries p0.length)
    (hinv : (d.mem (entryAddr t0 i0)).valid = false)
    (hmem : ∀ pid p t i, d.nodeAt pid p = some t → i < numEntries p.length →
      entryAddr t i ≠ entryAddr t0 i0 → d'.mem (entryAddr t i) = d.mem (entryAddr t i))
    (hnext : nextTable d'.mem t0 i0 = some b)
    (hclear : ∀ j < 2048, (d'.mem (entryAddr b j)).valid = false) :
    d'.nodeAt pid p = if pid = pid0 ∧ p = p0 ++ [i0] then some b else d.nodeAt pid p := by
  obtain ⟨root0, hr0⟩ := root_of_nodeAt ht0
  have hrange0 : inRange 0 p0 ∧ p0.length ≤ 3 := by
    rw [nodeAt_of_root hr0] at ht0; split_ifs at ht0 with hc; exact hc
  have hwalk0 : tableAt d.mem root0 p0 = some t0 := by
    rwa [nodeAt_of_root hr0, if_pos hrange0] at ht0
  have hmem' : ∀ pid p t i, d.nodeAt pid p = some t → p.length < 3 →
      i < numEntries p.length → entryAddr t i ≠ entryAddr t0 i0 →
      d'.mem (entryAddr t i) = d.mem (entryAddr t i) :=
    fun pid p t i ht _ hi hne => hmem pid p t i ht hi hne
  by_cases hpre : pid = pid0 ∧ p0 ++ [i0] <+: p
  · obtain ⟨rfl, r, rfl⟩ := hpre
    have hkeep : tableAt d'.mem root0 p0 = some t0 := by
      rw [← hwalk0]
      refine h.tableAt_write ht0 hi0 hmem' hr0 hrange0 fun ⟨_, hp⟩ => ?_
      have := hp.length_le; simp at this
    have hstop : nextTable d.mem t0 i0 = none := nextTable_of_not_valid hinv
    have hR : d.nodeAt pid (p0 ++ [i0] ++ r) = none := by
      rw [nodeAt_of_root hr0]
      split_ifs <;> simp [tableAt_append, tableAt_append_single, hwalk0, hstop]
    have hwalk : tableAt d'.mem root0 (p0 ++ [i0] ++ r) = tableAt d'.mem b r := by
      simp [tableAt_append, tableAt_append_single, hkeep, hnext]
    rw [hR, nodeAt_of_root (hpt ▸ hr0), hwalk]
    cases r with
    | nil =>
      have : inRange 0 (p0 ++ [i0]) = true ∧ (p0 ++ [i0]).length ≤ 3 := by
        simp [inRange_append, hrange0.1, hi0]; omega
      simp only [List.append_nil, and_self, if_true, tableAt_nil, if_pos this]
    | cons j r =>
      have hne : ¬ (pid = pid ∧ p0 ++ [i0] ++ j :: r = p0 ++ [i0]) := by simp
      rw [if_neg hne]
      split_ifs with hc
      · simp only [inRange_append, inRange_cons, Bool.and_eq_true, decide_eq_true_eq,
          List.length_append, List.length_singleton, Nat.zero_add] at hc
        have hj : j < 2048 := by simpa using hc.1.2.1
        simp [nextTable_of_not_valid (hclear j hj)]
      · rfl
  · have hne : ¬ (pid = pid0 ∧ p = p0 ++ [i0]) :=
      fun ⟨h1, h2⟩ => hpre ⟨h1, h2 ▸ List.prefix_refl _⟩
    rw [if_neg hne]
    cases hr : d.pageTables pid with
    | none => simp [nodeAt, hr, hpt]
    | some root =>
      rw [nodeAt_of_root (hpt ▸ hr), nodeAt_of_root hr]
      split_ifs with hc
      · exact h.tableAt_write ht0 hi0 hmem' hr hc hpre
      · rfl

end StrictTree

namespace OSKernel

theorem Supplies.mono {k : OSKernel} {m n : Nat} (h : k.Supplies n) (hmn : m ≤ n) :
    k.Supplies m :=
  fun i hi => h i (lt_of_lt_of_le hi hmn)

theorem Supplies.allocate {k : OSKernel} {n : Nat} (h : k.Supplies (n + 1)) (size : Nat) :
    (k.allocateMemory size).2.Supplies n := by
  intro i hi
  obtain ⟨h1, h2, h3, h4, h5⟩ := h (i + 1) (by omega)
  refine ⟨h1, h2, h3, ?_, fun j hj => h5 (j + 1) (by omega)⟩
  simp only [allocateMemory, List.mem_cons, forall_eq_or_imp]
  exact ⟨h5 0 (by omega), h4⟩

end OSKernel

namespace TreeInv

variable {d : AArch64MMUDriver} (h : TreeInv d)
include h

theorem fresh {n : Nat} (hk : d.kernel.Supplies (n + 1)) {pid : Nat} {p : List Nat} :
    d.nodeAt pid p ≠ some (d.kernel.next 0) := fun hn =>
  (hk 0 (by omega)).2.2.2.1 _
    ((h.live_iff (d.kernel.next 0, tableSize p.length)).2 ⟨pid, p, hn, rfl⟩) rfl

/-- Adding one fresh, cleared node at a path that had none keeps the invariant. -/
theorem addNode {d' : AArch64MMUDriver} {pid0 b : Nat} {q0 : List Nat}
    (hnode : ∀ pid p, d'.nodeAt pid p = if pid = pid0 ∧ p = q0 then some b else d.nodeAt pid p)
    (hlive : d'.kernel.live = (b, tableSize q0.length) :: d.kernel.live)
    (hb : b % 16384 = 0 ∧ 0 < b ∧ b < 2 ^ 48) (hfresh : ∀ x ∈ d.kernel.live, x.1 ≠ b)
    (hold : d.nodeAt pid0 q0 = none)
    (hint : ∀ pid p t i, d.nodeAt pid p = some t → p.length < 3 → i < numEntries p.length →
      (d'.mem (entryAddr t i)).valid → (d'.mem (entryAddr t i)).type)
    (hnew : ∀ i < numEntries q0.length, (d'.mem (entryAddr b i)).valid = false) :
    TreeInv d' := by
  have hnotb : ∀ pid p, d.nodeAt pid p ≠ some b := fun pid p hn =>
    hfresh _ ((h.live_iff (b, tableSize p.length)).2 ⟨pid, p, hn, rfl⟩) rfl
  refine ⟨⟨fun pid p t ht => ?_, fun pid p pid' p' t ht ht' => ?_,
    fun pid p t i ht hl hi hv => ?_⟩, ?_, fun x => ?_⟩
  · rw [hnode] at ht
    split_ifs at ht
    · exact (Option.some.inj ht) ▸ hb
    · exact h.aligned pid p t ht
  · rw [hnode] at ht ht'
    split_ifs at ht ht' with hc hc'
    · exact ⟨hc.1.trans hc'.1.symm, hc.2.trans hc'.2.symm⟩
    · exact absurd (Option.some.inj ht ▸ ht') (hnotb pid' p')
    · exact absurd (Option.some.inj ht' ▸ ht) (hnotb pid p)
    · exact h.inj pid p pid' p' t ht ht'
  · rw [hnode] at ht
    split_ifs at ht with hc
    · obtain ⟨rfl, rfl⟩ := hc
      cases Option.some.inj ht
      simp [hnew i hi] at hv
    · exact hint pid p t i ht hl hi hv
  · rw [hlive, List.map_cons, List.nodup_cons]
    refine ⟨fun hm => ?_, h.live_nodup⟩
    obtain ⟨x, hx, hxb⟩ := List.mem_map.1 hm
    exact hfresh x hx hxb
  · rw [hlive, List.mem_cons, h.live_iff]
    constructor
    · rintro (rfl | ⟨pid, p, hn, hs⟩)
      · exact ⟨pid0, q0, by simp [hnode], rfl⟩
      · refine ⟨pid, p, ?_, hs⟩
        rw [hnode, if_neg]; · exact hn
        rintro ⟨rfl, rfl⟩; simp [hold] at hn
    · rintro ⟨pid, p, hn, hs⟩
      rw [hnode] at hn
      split_ifs at hn with hc
      · obtain ⟨rfl, rfl⟩ := hc
        left; cases Option.some.inj hn; exact Prod.ext rfl hs
      · exact Or.inr ⟨pid, p, hn, hs⟩

end TreeInv

end PageTables.AArch64
