import PageTables.Tlb.ListTlb

/-!
# The list TLB implements the MRU list

`Image t L` says that the list and the index of the list TLB `t` represent the MRU
list `L`.  Every call keeps the representation, performs on `L` the operation of
`MRU`, and never reaches undefined behaviour; from the empty TLB of a positive
capacity this holds along every sequence of calls.

All the list work is done once, in `Keys`: in a list whose elements have distinct
keys, dropping one element is filtering out its key, whatever the key.  The list
TLB has two keys, the node of an entry and its virtual address.
-/

namespace PageTables.ListTlb

section Keys

variable {α β γ : Type} [DecidableEq β] [DecidableEq γ] {f : α → β} {l : List α} {x : α}

theorem find?_eq_of_unique {p : α → Bool} (hx : x ∈ l) (hp : p x)
    (hu : ∀ y ∈ l, p y → y = x) : l.find? p = some x := by
  cases h : l.find? p with
  | none => exact absurd hp (List.find?_eq_none.1 h x hx)
  | some y => rw [hu y (List.mem_of_find?_eq_some h) (List.find?_some h)]

theorem mem_filter_key (hl : (l.map f).Nodup) (hx : x ∈ l) {y : α} :
    y ∈ l.filter (fun y => f y != f x) ↔ y ∈ l ∧ y ≠ x := by
  simp only [List.mem_filter, bne_iff_ne, ne_eq]
  exact ⟨fun ⟨hy, h⟩ => ⟨hy, fun e => h (e ▸ rfl)⟩,
    fun ⟨hy, h⟩ => ⟨hy, mt (List.inj_on_of_nodup_map hl hy hx) h⟩⟩

theorem erase_eq_filter_key [DecidableEq α] (hl : (l.map f).Nodup) (hx : x ∈ l) :
    l.erase x = l.filter fun y => f y != f x := by
  rw [(hl.of_map f).erase_eq_filter]
  exact List.filter_congr fun y hy => by
    by_cases h : y = x
    · simp [h]
    · rw [Bool.eq_iff_iff]
      simp only [bne_iff_ne, ne_eq, h, not_false_eq_true, true_iff]
      exact mt (List.inj_on_of_nodup_map hl hy hx) h

theorem perm_cons_filter_key [DecidableEq α] (hl : (l.map f).Nodup) (hx : x ∈ l) :
    l.Perm (x :: l.filter fun y => f y != f x) := by
  rw [← erase_eq_filter_key hl hx]
  exact List.perm_cons_erase hx

theorem filter_key_congr [DecidableEq α] {g : α → γ} (hf : (l.map f).Nodup)
    (hg : (l.map g).Nodup) (hx : x ∈ l) :
    (l.filter fun y => f y != f x) = l.filter fun y => g y != g x := by
  rw [← erase_eq_filter_key hf hx, erase_eq_filter_key hg hx]

end Keys

/-- The list and the index of `t` represent the MRU list `L`: the list holds the
entries of `L` in order, in distinct nodes, with distinct virtual addresses and at
most `numEntries` of them, and the index maps exactly the addresses of `L`, each to
the node of its entry. -/
structure Image (t : TLB) (L : List TLBEntry) : Prop where
  entries : t.entries.map Prod.snd = L
  nodes_nodup : (t.entries.map Prod.fst).Nodup
  addrs_nodup : (L.map TLBEntry.virtualAddress).Nodup
  length_le : L.length ≤ t.numEntries
  cache : ∀ v node,
    t.cache v = some node ↔ ∃ e, (node, e) ∈ t.entries ∧ e.virtualAddress = v
  fresh : ∀ p ∈ t.entries, p.1 < t.nextNode

namespace Image

variable {t : TLB} {L : List TLBEntry}

theorem keys (h : Image t L) : (t.entries.map (TLBEntry.virtualAddress ∘ Prod.snd)).Nodup := by
  rw [← List.map_map, h.entries]
  exact h.addrs_nodup

theorem eq_of_addr (h : Image t L) {y z : Nat × TLBEntry} (hy : y ∈ t.entries)
    (hz : z ∈ t.entries) (e : y.2.virtualAddress = z.2.virtualAddress) : y = z :=
  List.inj_on_of_nodup_map h.keys hy hz e

theorem mem_addrs (h : Image t L) {y : Nat × TLBEntry} (hy : y ∈ t.entries) :
    y.2.virtualAddress ∈ L.map TLBEntry.virtualAddress := by
  rw [← h.entries, List.map_map]
  exact List.mem_map_of_mem _ hy

theorem length_entries (h : Image t L) : t.entries.length ≤ t.numEntries := by
  simpa [← h.entries] using h.length_le

theorem restrict (h : Image t L) (P : Nat × TLBEntry → Prop) {l : List (Nat × TLBEntry)}
    {c : Nat → Option Nat} {L' : List TLBEntry} (hL : l.map Prod.snd = L')
    (hsub : l.Sublist t.entries) (hmem : ∀ y, y ∈ l ↔ y ∈ t.entries ∧ ¬ P y)
    (hdrop : ∀ y ∈ t.entries, P y → c y.2.virtualAddress = none)
    (hkeep : ∀ v, (∀ y ∈ t.entries, y.2.virtualAddress = v → ¬ P y) → c v = t.cache v) :
    Image { t with entries := l, cache := c } L' where
  entries := hL
  nodes_nodup := h.nodes_nodup.sublist (hsub.map _)
  addrs_nodup := by
    rw [← hL, List.map_map]
    exact h.keys.sublist (hsub.map _)
  length_le := by
    rw [← hL, List.length_map]
    exact hsub.length_le.trans h.length_entries
  cache v node := by
    dsimp only
    simp only [hmem]
    by_cases hv : ∃ y ∈ t.entries, y.2.virtualAddress = v ∧ P y
    · obtain ⟨y, hy, rfl, hP⟩ := hv
      rw [hdrop y hy hP]
      refine ⟨nofun, fun ⟨e, ⟨he, hne⟩, hev⟩ => (hne ?_).elim⟩
      rwa [h.eq_of_addr he hy hev]
    · push_neg at hv
      rw [hkeep v hv, h.cache]
      exact ⟨fun ⟨e, he, hev⟩ => ⟨e, ⟨he, hv _ he hev⟩, hev⟩,
        fun ⟨e, ⟨he, _⟩, hev⟩ => ⟨e, he, hev⟩⟩
  fresh p hp := h.fresh p (hsub.subset hp)

theorem perm (h : Image t L) {l : List (Nat × TLBEntry)} {L' : List TLBEntry}
    (hL : l.map Prod.snd = L') (hp : l.Perm t.entries) : Image { t with entries := l } L' where
  entries := hL
  nodes_nodup := (hp.map _).nodup_iff.2 h.nodes_nodup
  addrs_nodup := by
    rw [← hL, List.map_map]
    exact (hp.map _).nodup_iff.2 h.keys
  length_le := by
    rw [← hL, List.length_map, hp.length_eq]
    exact h.length_entries
  cache v node := by simp only [h.cache, hp.mem_iff]
  fresh p hp' := h.fresh p (hp.subset hp')

theorem remove (h : Image t L) {x : Nat × TLBEntry} (hx : x ∈ t.entries)
    {l : List (Nat × TLBEntry)} {L' : List TLBEntry} (hL : l.map Prod.snd = L')
    (hsub : l.Sublist t.entries) (hmem : ∀ y, y ∈ l ↔ y ∈ t.entries ∧ y ≠ x) :
    Image { t with entries := l,
                   cache := Function.update t.cache x.2.virtualAddress none } L' := by
  refine h.restrict (· = x) hL hsub hmem (fun _ _ hy => ?_) fun v hv => ?_
  · cases hy
    exact Function.update_same _ _ _
  · exact Function.update_noteq (fun e => hv x hx e.symm rfl) _ _

theorem flush (t : TLB) : Image t.flush [] where
  entries := rfl
  nodes_nodup := List.nodup_nil
  addrs_nodup := List.nodup_nil
  length_le := Nat.zero_le _
  cache v node := by simp [TLB.flush]
  fresh p hp := by simp [TLB.flush] at hp

theorem pushFront (h : Image t L) {e : TLBEntry} (hlen : L.length < t.numEntries)
    (hv : e.virtualAddress ∉ L.map TLBEntry.virtualAddress) :
    Image (t.pushFront e) (e :: L) where
  entries := by simp [TLB.pushFront, h.entries]
  nodes_nodup := by
    refine List.nodup_cons.2 ⟨fun hn => ?_, h.nodes_nodup⟩
    obtain ⟨p, hp, he⟩ := List.mem_map.1 hn
    exact (h.fresh p hp).ne he
  addrs_nodup := List.nodup_cons.2 ⟨hv, h.addrs_nodup⟩
  length_le := hlen
  cache v node := by
    simp only [TLB.pushFront, List.mem_cons, Prod.mk.injEq]
    by_cases hve : v = e.virtualAddress
    · subst hve
      simp only [Function.update_same, Option.some.injEq]
      refine ⟨fun hn => ⟨e, .inl ⟨hn.symm, rfl⟩, rfl⟩, ?_⟩
      rintro ⟨e', ⟨rfl, rfl⟩ | he', hev⟩
      · rfl
      · exact absurd (hev ▸ h.mem_addrs he') hv
    · rw [Function.update_noteq hve, h.cache]
      refine ⟨fun ⟨e', he', hev⟩ => ⟨e', .inr he', hev⟩, ?_⟩
      rintro ⟨e', ⟨rfl, rfl⟩ | he', hev⟩
      · exact absurd hev.symm hve
      · exact ⟨e', he', hev⟩
  fresh p hp := by
    rcases List.mem_cons.1 hp with rfl | hp
    · exact Nat.lt_succ_self _
    · exact Nat.lt_succ_of_lt (h.fresh p hp)

end Image

namespace MRU

variable {L : List TLBEntry}

theorem find_eq (hL : (L.map TLBEntry.virtualAddress).Nodup) {e : TLBEntry} (he : e ∈ L)
    (a : Nat) :
    L.find? (fun x => x.virtualAddress == e.virtualAddress && x.asid == a) =
      if e.asid = a then some e else none := by
  split_ifs with ha
  · refine find?_eq_of_unique he (by simp [ha]) fun y hy hp => ?_
    simp only [Bool.and_eq_true, beq_iff_eq] at hp
    exact List.inj_on_of_nodup_map hL hy he hp.1
  · refine List.find?_eq_none.2 fun y hy hp => ha ?_
    simp only [Bool.and_eq_true, beq_iff_eq] at hp
    rw [← List.inj_on_of_nodup_map hL hy he hp.1, hp.2]

theorem lookup_eq_some_iff (hL : (L.map TLBEntry.virtualAddress).Nodup) {v a pa : Nat} :
    (lookup L v a).1 = some pa ↔ ⟨v, pa, a⟩ ∈ L := by
  unfold lookup
  split
  · rename_i hn
    simpa using List.find?_eq_none.1 hn ⟨v, pa, a⟩
  · rename_i e he
    have hp := List.find?_some he
    simp only [Bool.and_eq_true, beq_iff_eq] at hp
    obtain ⟨va, pe, ae⟩ := e
    obtain ⟨rfl, rfl⟩ := hp
    refine ⟨fun h => ?_, fun h => ?_⟩
    · cases h
      exact List.mem_of_find?_eq_some he
    · have := List.inj_on_of_nodup_map hL h (List.mem_of_find?_eq_some he) rfl
      simp_all

end MRU

namespace Image

variable {t : TLB} {L : List TLBEntry}

theorem eraseAddress (h : Image t L) (v : Nat) :
    ∃ t', t.eraseAddress v = some t' ∧ Image t' (L.filter (·.virtualAddress != v)) ∧
      t'.numEntries = t.numEntries := by
  cases hc : t.cache v with
  | none =>
    refine ⟨t, by simp [TLB.eraseAddress, hc], ?_, rfl⟩
    rwa [List.filter_eq_self.2 fun e he => ?_]
    rw [← h.entries] at he
    obtain ⟨⟨node, e⟩, hp, rfl⟩ := List.mem_map.1 he
    rw [bne_iff_ne]
    intro hv
    simpa [hc] using (h.cache v node).2 ⟨e, hp, hv⟩
  | some node =>
    obtain ⟨e, he, rfl⟩ := (h.cache _ node).1 hc
    have hany : t.entries.any (·.1 == node) := List.any_eq_true.2 ⟨_, he, by simp⟩
    refine ⟨_, by simp only [TLB.eraseAddress, hc, hany, if_true], h.remove he ?_
      (List.filter_sublist _) fun y => mem_filter_key h.nodes_nodup he, rfl⟩
    rw [filter_key_congr h.nodes_nodup h.keys he, ← h.entries, List.filter_map]
    rfl

theorem evictBack (h : Image t L) (hN : 0 < t.numEntries) :
    ∃ t', t.evictBack = some t' ∧ Image t' (L.take (t.numEntries - 1)) ∧
      t'.numEntries = t.numEntries := by
  by_cases hlen : t.entries.length = t.numEntries
  · have hne : t.entries ≠ [] := List.ne_nil_of_length_pos (hlen ▸ hN)
    have hsplit := List.dropLast_append_getLast hne
    have hnd : (t.entries.dropLast ++ [t.entries.getLast hne]).Nodup := by
      rw [hsplit]
      exact h.nodes_nodup.of_map _
    refine ⟨_, by simp only [TLB.evictBack, hlen, List.getLast?_eq_getLast _ hne, if_true],
      h.remove (List.getLast_mem hne) ?_ (List.dropLast_sublist _) fun y => ?_, rfl⟩
    · rw [List.map_dropLast, h.entries, List.dropLast_eq_take, ← h.entries, List.length_map,
        hlen]
    · have hlast := (List.nodup_append.1 hnd).2.2
      have hmem : y ∈ t.entries.dropLast ++ [t.entries.getLast hne] ↔
          y ∈ t.entries.dropLast ∨ y = t.entries.getLast hne := by simp
      rw [hsplit] at hmem
      rw [hmem]
      exact ⟨fun hy => ⟨.inl hy, fun e => hlast hy (List.mem_singleton.2 e)⟩,
        fun ⟨hy, hne⟩ => hy.resolve_right hne⟩
  · refine ⟨t, by simp [TLB.evictBack, hlen], ?_, rfl⟩
    rw [List.take_of_length_le]
    · exact h
    · have := h.length_entries
      rw [← h.entries, List.length_map]
      omega

theorem addEntry (h : Image t L) (hN : 0 < t.numEntries) (v p a : Nat) :
    ∃ t', t.addEntry v p a = some t' ∧ Image t' (MRU.addEntry t.numEntries L ⟨v, p, a⟩) ∧
      t'.numEntries = t.numEntries := by
  obtain ⟨t1, h1, hi1, hn1⟩ := h.eraseAddress v
  obtain ⟨t2, h2, hi2, hn2⟩ := hi1.evictBack (hn1 ▸ hN)
  rw [hn1] at hi2 hn2
  refine ⟨t2.pushFront ⟨v, p, a⟩, by simp [TLB.addEntry, h1, h2], hi2.pushFront ?_ ?_, hn2⟩
  · rw [List.length_take, hn2]
    omega
  · intro hv
    obtain ⟨e, he, hev⟩ := List.mem_map.1 hv
    have := (List.mem_filter.1 (List.mem_of_mem_take he)).2
    simp [hev] at this

theorem lookup (h : Image t L) (v a : Nat) :
    ∃ t', t.lookup v a = some ((MRU.lookup L v a).1, t') ∧ Image t' (MRU.lookup L v a).2 ∧
      t'.numEntries = t.numEntries := by
  cases hc : t.cache v with
  | none =>
    have hmiss : L.find? (fun x => x.virtualAddress == v && x.asid == a) = none := by
      refine List.find?_eq_none.2 fun e he hp => ?_
      rw [← h.entries] at he
      obtain ⟨⟨node, e⟩, hp', rfl⟩ := List.mem_map.1 he
      simp only [Bool.and_eq_true, beq_iff_eq] at hp
      simpa [hc] using (h.cache v node).2 ⟨e, hp', hp.1⟩
    exact ⟨t, by simp [TLB.lookup, MRU.lookup, hc, hmiss], by simpa [MRU.lookup, hmiss], rfl⟩
  | some node =>
    obtain ⟨e, he, rfl⟩ := (h.cache _ node).1 hc
    have hd : t.deref node = some e := by
      have : t.entries.find? (·.1 == node) = some (node, e) := find?_eq_of_unique he (by simp)
        fun y hy hp => List.inj_on_of_nodup_map h.nodes_nodup hy he (by simpa using hp)
      simp [TLB.deref, this]
    have heL : e ∈ L := h.entries ▸ List.mem_map_of_mem _ he
    have hfind := MRU.find_eq h.addrs_nodup heL a
    by_cases ha : e.asid = a
    · refine ⟨{ t with entries := (node, e) :: t.entries.filter (·.1 != node) },
        by simp [TLB.lookup, MRU.lookup, hc, hd, ha, hfind], ?_, rfl⟩
      simp only [MRU.lookup, hfind, ha, if_true]
      refine h.perm ?_ (perm_cons_filter_key h.nodes_nodup he).symm
      rw [List.map_cons, erase_eq_filter_key h.addrs_nodup heL,
        filter_key_congr h.nodes_nodup h.keys he, ← h.entries, List.filter_map]
      rfl
    · exact ⟨t, by simp [TLB.lookup, MRU.lookup, hc, hd, ha, hfind],
        by simpa [MRU.lookup, hfind, ha], rfl⟩

theorem flushASIDFrom_fst (asid : Nat) (l : List (Nat × TLBEntry)) (c : Nat → Option Nat) :
    (TLB.flushASIDFrom asid l c).1 = l.filter (·.2.asid != asid) := by
  induction l generalizing c with
  | nil => rfl
  | cons y l ih =>
    by_cases hy : y.2.asid = asid <;> simp [TLB.flushASIDFrom, hy, ih]

theorem flushASIDFrom_snd (asid : Nat) (l : List (Nat × TLBEntry)) (c : Nat → Option Nat)
    (v : Nat) : (TLB.flushASIDFrom asid l c).2 v =
      if ∃ y ∈ l, y.2.virtualAddress = v ∧ y.2.asid = asid then none else c v := by
  induction l generalizing c with
  | nil => simp [TLB.flushASIDFrom]
  | cons y l ih =>
    obtain ⟨node, e⟩ := y
    simp only [List.exists_mem_cons_iff]
    by_cases hy : e.asid = asid
    · by_cases hv : e.virtualAddress = v
      · simp [TLB.flushASIDFrom, hy, ih, hv]
      · simp only [TLB.flushASIDFrom, hy, if_true, ih, Function.update_noteq (Ne.symm hv), hv,
          false_and, false_or]
    · simp only [TLB.flushASIDFrom, hy, if_false, ih, and_false, false_or]

theorem flushASID (h : Image t L) (a : Nat) : Image (t.flushASID a) (MRU.flushASID L a) := by
  refine h.restrict (·.2.asid = a) ?_ (by rw [flushASIDFrom_fst]; exact List.filter_sublist _)
    (fun y => ?_) (fun y hy hP => ?_) fun v hv => ?_
  · rw [flushASIDFrom_fst, MRU.flushASID, ← h.entries, List.filter_map]
    rfl
  · simp [flushASIDFrom_fst]
  · rw [flushASIDFrom_snd, if_pos ⟨y, hy, rfl, hP⟩]
  · rw [flushASIDFrom_snd, if_neg fun ⟨y, hy, hv', hP⟩ => hv y hy hv' hP]

theorem run (h : Image t L) (hN : 0 < t.numEntries) (op : TLBOp) :
    ∃ t', op.run t = some ((MRU.run t.numEntries op L).1, t') ∧
      Image t' (MRU.run t.numEntries op L).2 ∧ t'.numEntries = t.numEntries := by
  cases op with
  | addEntry v p a =>
    obtain ⟨t', ht, hi, hn⟩ := h.addEntry hN v p a
    exact ⟨t', by simp [TLBOp.run, ht, MRU.run], hi, hn⟩
  | lookup v a => exact h.lookup v a
  | flush => exact ⟨_, rfl, flush t, rfl⟩
  | flushASID a => exact ⟨_, rfl, h.flushASID a, rfl⟩

/-- A sequence of calls keeps the representation and acts as `MRU.runOps`. -/
theorem runOps (h : Image t L) (hN : 0 < t.numEntries) (ops : List TLBOp) :
    ∃ t', ListTlb.runOps ops t = some ((MRU.runOps t.numEntries ops L).1, t') ∧
      Image t' (MRU.runOps t.numEntries ops L).2 ∧ t'.numEntries = t.numEntries := by
  induction ops generalizing t L with
  | nil => exact ⟨t, rfl, h, rfl⟩
  | cons op ops ih =>
    obtain ⟨t1, h1, hi1, hn1⟩ := h.run hN op
    obtain ⟨t2, h2, hi2, hn2⟩ := ih hi1 (hn1 ▸ hN)
    rw [hn1] at h2 hi2 hn2
    exact ⟨t2, by simp [ListTlb.runOps, MRU.runOps, h1, h2], hi2, hn2⟩

/-- A lookup hits exactly the entries of the represented list. -/
theorem lookup_hit_iff (h : Image t L) {v a pa : Nat} :
    (∃ t', t.lookup v a = some (some pa, t')) ↔ ⟨v, pa, a⟩ ∈ L := by
  obtain ⟨t', ht, -⟩ := h.lookup v a
  simp [ht, ← MRU.lookup_eq_some_iff h.addrs_nodup]

end Image

theorem image_new (N : Nat) : Image (TLB.new N) [] where
  entries := rfl
  nodes_nodup := List.nodup_nil
  addrs_nodup := List.nodup_nil
  length_le := Nat.zero_le _
  cache v node := by simp [TLB.new]
  fresh p hp := by simp [TLB.new] at hp

/-- From the TLB of a positive capacity `N`, every sequence of calls runs without
undefined behaviour, returns the answers of the MRU list, and leaves the list and
the index representing the MRU list, on which a lookup hits exactly the entries. -/
theorem list_tlb_refines_mru {N : Nat} (hN : 0 < N) (ops : List TLBOp) :
    ∃ t, runOps ops (TLB.new N) = some ((MRU.runOps N ops []).1, t) ∧
      Image t (MRU.runOps N ops []).2 ∧ t.numEntries = N ∧
      ∀ v a pa, (∃ t', t.lookup v a = some (some pa, t')) ↔
        ⟨v, pa, a⟩ ∈ (MRU.runOps N ops []).2 := by
  obtain ⟨t, ht, hi, hn⟩ := (image_new N).runOps hN ops
  exact ⟨t, ht, hi, hn, fun _ _ _ => hi.lookup_hit_iff⟩

theorem list_tlb_refines_mru_readd :
    0 < 2 ∧ ∃ t, runOps [.addEntry 5 9 1, .addEntry 5 7 1, .lookup 5 1] (TLB.new 2) =
        some ((MRU.runOps 2 [.addEntry 5 9 1, .addEntry 5 7 1, .lookup 5 1] []).1, t) ∧
      Image t (MRU.runOps 2 [.addEntry 5 9 1, .addEntry 5 7 1, .lookup 5 1] []).2 ∧
      t.numEntries = 2 ∧ ∀ v a pa, (∃ t', t.lookup v a = some (some pa, t')) ↔
        ⟨v, pa, a⟩ ∈ (MRU.runOps 2 [.addEntry 5 9 1, .addEntry 5 7 1, .lookup 5 1] []).2 :=
  ⟨by decide, list_tlb_refines_mru (by decide) _⟩

/-- Re-adding an address replaces its entry: the lookup returns the second page. -/
example : ((runOps [.addEntry 5 9 1, .addEntry 5 7 1, .lookup 5 1] (TLB.new 2)).map
    Prod.fst) = some [none, none, some 7] := by decide

end PageTables.ListTlb
