import PageTables.PhysMem.HoleListInvariant

/-!
# Merging keeps holes apart, unless a hole is empty

When every request asks for at least one page, no hole ends where another
begins: a split leaves a tail that starts inside the old hole, and after a
release the sort puts holes in page order and the merge loop joins each pair
that touches.  Everything released then means a single hole over all pages.

A request for zero pages breaks this.  `allocatePages 0` hands out the first
page of the first hole without taking it, and releasing that empty allocation
adds an empty hole which the stable sort puts after the hole starting at the same
page; the merge loop only compares neighbours in that order and keeps both.
-/

namespace PageTables.HoleList

open PhysMemManager

def Hole.Separated (a b : Hole) : Prop :=
  a.startPage + a.count < b.startPage ∨ b.startPage + b.count < a.startPage

theorem Hole.separated_symm : Symmetric Hole.Separated := fun _ _ h => h.symm

instance : IsTotal Hole startOrder := ⟨fun a b => Nat.le_total a.startPage b.startPage⟩

instance : IsTrans Hole startOrder := ⟨fun _ _ _ => Nat.le_trans⟩

/-! ## The merge loop on a sorted list -/

theorem chain_of_sorted {l : List Hole} (hs : l.Sorted startOrder)
    (hd : l.Pairwise Hole.Disjoint) (hn : ∀ x ∈ l, 0 < x.count) :
    l.Chain' fun a b => a.startPage + a.count ≤ b.startPage := by
  refine ((hs.and hd).imp_of_mem fun {a b} ha hb ⟨hab, hdis⟩ => ?_).chain'
  have hna := hn a ha
  have hnb := hn b hb
  by_contra hlt
  refine hdis b.startPage ⟨?_, ?_⟩ <;>
    simp only [Hole.covers, decide_eq_true_eq, startOrder] at hab ⊢ <;> omega

theorem mergeFrom_head (a : Hole) (rest : List Hole) :
    ∃ b t, mergeFrom a rest = b :: t ∧ b.startPage = a.startPage := by
  induction rest generalizing a with
  | nil => exact ⟨a, [], rfl, rfl⟩
  | cons b rest ih =>
      simp only [mergeFrom]
      split_ifs
      · obtain ⟨c, t, h, hc⟩ := ih ⟨a.startPage, a.count + b.count⟩
        exact ⟨c, t, h, hc⟩
      · exact ⟨a, _, rfl, rfl⟩

theorem chain_mergeFrom (a : Hole) (rest : List Hole)
    (h : (a :: rest).Chain' fun a b => a.startPage + a.count ≤ b.startPage) :
    (mergeFrom a rest).Chain' fun a b => a.startPage + a.count < b.startPage := by
  induction rest generalizing a with
  | nil => exact List.chain'_singleton a
  | cons b rest ih =>
      simp only [mergeFrom]
      rw [List.chain'_cons] at h
      split_ifs with hab
      · refine ih _ ?_
        cases rest with
        | nil => exact List.chain'_singleton _
        | cons c rest =>
            rw [List.chain'_cons] at h ⊢
            exact ⟨by dsimp only; omega, h.2.2⟩
      · obtain ⟨c, t, ht, hc⟩ := mergeFrom_head b rest
        rw [ht]
        refine List.Chain'.cons (by omega) ?_
        rw [← ht]
        exact ih b h.2

theorem count_pos_mergeFrom (a : Hole) (rest : List Hole) (h : ∀ x ∈ a :: rest, 0 < x.count) :
    ∀ x ∈ mergeFrom a rest, 0 < x.count := by
  induction rest generalizing a with
  | nil => simpa [mergeFrom] using h
  | cons b rest ih =>
      simp only [mergeFrom]
      split_ifs
      · refine ih _ fun x hx => ?_
        rcases List.mem_cons.mp hx with rfl | hx
        · have := h a (by simp)
          dsimp only
          omega
        · exact h x (by simp [hx])
      · intro x hx
        rcases List.mem_cons.mp hx with rfl | hx
        · exact h x (by simp)
        · exact ih b (fun y hy => h y (List.mem_cons_of_mem _ hy)) x hx

theorem separated_of_chain {l : List Hole}
    (h : l.Chain' fun a b => a.startPage + a.count < b.startPage) :
    l.Pairwise Hole.Separated := by
  have : IsTrans Hole fun a b => a.startPage + a.count < b.startPage :=
    ⟨fun _ _ _ h1 h2 => by omega⟩
  exact (List.chain'_iff_pairwise.mp h).imp Or.inl

/-- `mergeHoles` of disjoint non-empty holes gives pairwise separated non-empty
holes. -/
theorem mergeHoles_separated {holes : List Hole} (hd : holes.Pairwise Hole.Disjoint)
    (hn : ∀ x ∈ holes, 0 < x.count) :
    (mergeHoles holes).Pairwise Hole.Separated ∧ ∀ x ∈ mergeHoles holes, 0 < x.count := by
  have hperm := List.perm_insertionSort startOrder holes
  have hs := List.sorted_insertionSort startOrder holes
  have hd' := hperm.symm.pairwise hd fun h p hp => h p (And.symm hp)
  have hn' : ∀ x ∈ holes.insertionSort startOrder, 0 < x.count :=
    fun x hx => hn x (hperm.mem_iff.mp hx)
  have hc := chain_of_sorted hs hd' hn'
  unfold mergeHoles
  revert hn' hc
  cases holes.insertionSort startOrder with
  | nil => simp [mergeAdjacent]
  | cons a rest =>
      intro hn' hc
      exact ⟨separated_of_chain (chain_mergeFrom a rest hc), count_pos_mergeFrom a rest hn'⟩

/-! ## Runs whose requests all ask for pages -/

/-- The invariant of runs whose requests are all for at least one page. -/
structure SepInv (m : PhysMemManager) (live : List (Nat × Nat)) : Prop where
  inv : Inv m live
  separated : m.holes.Pairwise Hole.Separated
  nonempty : 0 < m.nPages → ∀ h ∈ m.holes, 0 < h.count
  empty : m.nPages = 0 → m.holes = [⟨0, 0⟩]
  live_pos : ∀ a ∈ live, 0 < a.2

namespace SepInv

variable {m : PhysMemManager} {live : List (Nat × Nat)}

theorem nPages_pos (hs : SepInv m live) {a : Nat × Nat} (ha : a ∈ live) : 0 < m.nPages := by
  have hb := hs.inv.bound (m.allocation a) (List.mem_append_right _ (List.mem_map_of_mem _ ha))
  have := hs.live_pos a ha
  simp only [count_allocation] at hb
  omega

theorem allocate {count addr : Nat} {m' : PhysMemManager} (hs : SepInv m live) (hc : 1 ≤ count)
    (h : m.allocatePages count = some (addr, m')) : SepInv m' ((addr, count) :: live) := by
  have hi' := hs.inv.allocate h
  obtain ⟨pre, hole, post, hholes, hcount, -, -, rfl, rfl⟩ := allocatePages_eq_some h
  have hhole := hs.inv.bound hole (by simp [hholes])
  have hpos : 0 < m.nPages := by omega
  have hsep := hs.separated
  rw [hholes, List.pairwise_append, List.pairwise_cons] at hsep
  have hrest : (pre ++ post).Pairwise Hole.Separated :=
    List.pairwise_append.mpr
      ⟨hsep.1, hsep.2.1.2, fun x hx y hy => hsep.2.2 x hx y (by simp [hy])⟩
  have hne := hs.nonempty hpos
  rw [hholes] at hne
  refine ⟨hi', ?_, fun _ x hx => ?_, fun h0 => absurd h0 (by dsimp only; omega), ?_⟩
  · dsimp only
    split_ifs with hlt
    · refine List.pairwise_append.mpr ⟨hrest, List.pairwise_singleton _ _, fun x hx y hy => ?_⟩
      rw [List.mem_singleton] at hy
      subst hy
      have hxh : Hole.Separated x hole := by
        rcases List.mem_append.mp hx with hx | hx
        · exact hsep.2.2 x hx hole (by simp)
        · exact Hole.separated_symm (hsep.2.1.1 x hx)
      unfold Hole.Separated at hxh ⊢
      dsimp only
      omega
    · simpa using hrest
  · simp only [List.mem_append] at hx
    rcases hx with (hx | hx) | hx
    · exact hne x (by simp [hx])
    · exact hne x (by simp [hx])
    · split_ifs at hx with hlt
      · rw [List.mem_singleton.mp hx]
        dsimp only
        omega
      · simp at hx
  · intro a ha
    rcases List.mem_cons.mp ha with rfl | ha
    · exact hc
    · exact hs.live_pos a ha

theorem release {a : Nat × Nat} {pre post : List (Nat × Nat)} (hs : SepInv m (pre ++ a :: post)) :
    SepInv (m.releasePages a.1 a.2) (pre ++ post) := by
  have hpos := hs.nPages_pos (List.mem_append_right pre (List.mem_cons_self a post))
  have hdisj := hs.inv.partitioned.disjoint
  have hsub : (m.holes ++ [m.allocation a]).Sublist
      (m.holes ++ (pre ++ a :: post).map m.allocation) :=
    (List.Sublist.refl _).append (List.singleton_sublist.mpr (List.mem_map_of_mem _ (by simp)))
  have hne : ∀ x ∈ m.holes ++ [m.allocation a], 0 < x.count := by
    intro x hx
    rcases List.mem_append.mp hx with hx | hx
    · exact hs.nonempty hpos x hx
    · rw [List.mem_singleton.mp hx, count_allocation]
      exact hs.live_pos a (by simp)
  obtain ⟨hsep, hne'⟩ := mergeHoles_separated (hdisj.sublist hsub) hne
  have hpos' : (m.releasePages a.1 a.2).nPages ≠ 0 := by
    rw [releasePages_nPages]
    omega
  refine ⟨hs.inv.release, hsep, fun _ => hne', fun h0 => absurd h0 hpos',
    fun b hb => hs.live_pos b ?_⟩
  simp only [List.mem_append, List.mem_cons] at hb ⊢
  tauto

theorem init {pageSize memorySize : Nat} (h : PhysMemManager.new pageSize memorySize = .ok m) :
    SepInv m [] := by
  have hi := Inv.init h
  unfold PhysMemManager.new at h
  split_ifs at h
  cases h
  refine ⟨hi, List.pairwise_singleton _ _, fun hpos x hx => ?_, fun h0 => ?_, by simp⟩
  · rw [List.mem_singleton.mp hx]
    exact hpos
  · simp only at h0 ⊢
    rw [h0]

theorem covering_hole_of_empty (hi : Inv m []) (p : Nat) (hp : p < m.nPages) :
    ∃ r ∈ m.holes, r.startPage ≤ p ∧ p < r.startPage + r.count := by
  have hc := hi.cover p
  simp only [List.map_nil, List.append_nil, if_pos hp] at hc
  obtain ⟨r, hr, hcov⟩ := List.countP_pos_iff.1 (show 0 < coverage m.holes p by omega)
  exact ⟨r, hr, by simpa [Hole.covers] using hcov⟩

/-- With every request for at least one page, everything released means one
hole over all pages. -/
theorem allReleased_iff (hs : SepInv m live) :
    m.allReleased = true ↔ m.holes = [⟨0, m.nPages⟩] := by
  have hi := hs.inv
  constructor
  · intro hrel
    have hlive : live = [] := by
      have hal := hi.allocated
      simp only [allReleased, decide_eq_true_eq] at hrel
      cases live with
      | nil => rfl
      | cons b t =>
          have := hs.live_pos b (by simp)
          simp only [List.map_cons, List.sum_cons, count_allocation] at hal
          omega
    subst hlive
    rcases Nat.eq_zero_or_pos m.nPages with h0 | hpos
    · rw [hs.empty h0, h0]
    have hbound : ∀ r ∈ m.holes, r.startPage + r.count ≤ m.nPages := by
      simpa using hi.bound
    have hne := hs.nonempty hpos
    have hsep := hs.separated.forall Hole.separated_symm
    obtain ⟨h0, h0mem, h0cov⟩ := covering_hole_of_empty hi 0 hpos
    have hb0 := hbound h0 h0mem
    -- the hole at page 0 reaches the last page
    have hend : h0.count = m.nPages := by
      by_contra hne0
      obtain ⟨h1, h1mem, h1cov⟩ := covering_hole_of_empty hi h0.count (by omega)
      have := hsep h0mem h1mem (by rintro rfl; omega)
      unfold Hole.Separated at this
      omega
    have hall : ∀ x ∈ m.holes, x = ⟨0, m.nPages⟩ := by
      intro x hx
      by_contra hx0
      have hxne := hne x hx
      have hxb := hbound x hx
      have := hsep h0mem hx (by rintro rfl; apply hx0; cases h0; simp_all)
      unfold Hole.Separated at this
      omega
    obtain ⟨n, hn⟩ : ∃ n, m.holes = List.replicate n ⟨0, m.nPages⟩ :=
      ⟨_, List.eq_replicate_iff.mpr ⟨rfl, hall⟩⟩
    have hn1 : n = 1 := by
      have h1 := hi.cover 0
      simp only [List.map_nil, List.append_nil] at h1
      rw [hn, if_pos hpos] at h1
      simpa [coverage, List.countP_replicate, Hole.covers, hpos] using h1
    rw [hn, hn1]
    rfl
  · intro hholes
    have ht := hi.total
    rw [hholes] at ht
    simp only [allReleased, decide_eq_true_eq, hi.allocated]
    simp only [List.map_append, List.sum_append, List.map_cons, List.map_nil, List.sum_cons,
      List.sum_nil] at ht
    omega

theorem allocate_all (hs : SepInv m live) (hrel : m.allReleased = true) :
    ∃ m', m.allocatePages m.nPages = some (m.baseAddress, m') := by
  have hholes := hs.allReleased_iff.mp hrel
  have hn := hs.inv.nPages_le
  simp only [allReleased, decide_eq_true_eq] at hrel
  unfold maxMemorySize at hn
  simp [allocatePages, hholes, hrel, findFit, add64_of_lt (by omega : 0 + m.nPages < 2 ^ 64)]

end SepInv

theorem Reachable.sepInv {m : PhysMemManager} {live : List (Nat × Nat)}
    (h : Reachable 1 m live) : SepInv m live := by
  induction h with
  | init _ _ h => exact SepInv.init h
  | allocate _ hc h ih => exact ih.allocate hc h
  | release _ ih => exact ih.release

/-- No hole ends where another begins; everything released is one hole over
all pages, which a single allocation can take whole. -/
structure HolesApart (m : PhysMemManager) : Prop where
  apart : m.holes.Pairwise fun a b =>
    a.startPage + a.count ≠ b.startPage ∧ b.startPage + b.count ≠ a.startPage
  released_iff : m.allReleased = true ↔ m.holes = [⟨0, m.nPages⟩]
  whole : m.allReleased = true → ∃ m', m.allocatePages m.nPages = some (m.baseAddress, m')

/-- Over every run in which each request asks for at least one page. -/
theorem holes_apart_of_positive_counts {m : PhysMemManager} {live : List (Nat × Nat)}
    (h : Reachable 1 m live) : HolesApart m := by
  have hs := h.sepInv
  exact ⟨hs.separated.imp fun hab => by unfold Hole.Separated at hab; omega,
    hs.allReleased_iff, hs.allocate_all⟩

/-- On 16 pages: allocations of 3 and 5 pages, then the first released; the two
holes left are apart. -/
theorem holes_apart_of_positive_counts_after_release :
    ∃ m, Reachable 1 m [(physMemBase + 3 * 4096, 5)] ∧ m.holes = [⟨0, 3⟩, ⟨8, 8⟩] ∧
      HolesApart m := by
  have h₁ : Reachable 1 _ [(physMemBase, 3)] :=
    .allocate (.init 4096 (16 * 4096) rfl) (by decide) rfl
  have h₂ : Reachable 1 _ [(physMemBase + 3 * 4096, 5), (physMemBase, 3)] :=
    .allocate h₁ (by decide) rfl
  have h₃ := @Reachable.release 1 _ [(physMemBase + 3 * 4096, 5)] [] (physMemBase, 3) h₂
  exact ⟨_, h₃, by decide, holes_apart_of_positive_counts h₃⟩

/-- The zero-page run: allocating zero pages and releasing them leaves the empty
hole `{0, 0}` after `{0, 16}`.  It ends where `{0, 16}` begins, everything is
released, and still the list is not the single hole over all sixteen pages. -/
theorem zero_page_release_leaves_touching_hole :
    Reachable 0 ⟨physMemBase, 4096, 16, 0, 0, [⟨0, 16⟩, ⟨0, 0⟩]⟩ [] ∧
      (⟨physMemBase, 4096, 16, 0, 0, [⟨0, 16⟩, ⟨0, 0⟩]⟩ : PhysMemManager).allReleased =
        true ∧
      [⟨0, 16⟩, ⟨0, 0⟩] ≠ [(⟨0, 16⟩ : Hole)] := by
  have h1 : Reachable 0 ⟨physMemBase, 4096, 16, 0, 0, [⟨0, 16⟩]⟩ [(physMemBase, 0)] :=
    .allocate (.init 4096 65536 rfl) le_rfl rfl
  exact ⟨@Reachable.release 0 _ [] [] _ h1, rfl, by decide⟩

end PageTables.HoleList
