import PageTables.PhysMem.SortedList

/-!
# Runs of the sorted hole list

Along a run of `PhysMemManager` of `unnamed/part_002` from its constructor, in
which every `release` hands back a live allocation and is defined, count for each
byte the holes and the live allocations that hold it (`holders`).  `allocate` moves
bytes from a hole to the new allocation, `release` moves them back into a new hole,
and the merge with `next` joins two holes that touch, so no count ever grows: every
byte lies in at most one hole or live allocation, and all of them lie below `2^40`.
So `allocate` never hands out a byte that is still held.

A count can drop.  The merge test with `prev` reads the new hole itself, which ends
where it starts only when it is empty; then the hole after it is erased.  With no
zero-size release, every byte below `2^40` stays in exactly one hole or live
allocation.  A release of positive size is defined exactly when some hole starts
above it; otherwise `std::next` steps past `end()`.
-/

namespace PageTables.SortedList

def MemoryHole.holds (h : MemoryHole) (b : Nat) : Bool :=
  decide (h.start ≤ b ∧ b < h.start + h.size)

def holders (l : List MemoryHole) (b : Nat) : Nat :=
  l.countP (·.holds b)

def Bounded (l : List MemoryHole) : Prop :=
  ∀ h ∈ l, h.start + h.size ≤ 2 ^ 40

/-! ## Counting holders -/

section Holders

variable {l : List MemoryHole} {b : Nat}

theorem holders_cons (x : MemoryHole) (l : List MemoryHole) (b : Nat) :
    holders (x :: l) b = holders [x] b + holders l b := by
  simp only [holders, List.countP_cons, List.countP_nil]
  omega

theorem holders_append (l l' : List MemoryHole) (b : Nat) :
    holders (l ++ l') b = holders l b + holders l' b :=
  List.countP_append _ _ _

theorem holders_empty (a b : Nat) : holders [⟨a, 0⟩] b = 0 := by
  simp [holders, MemoryHole.holds]

theorem holders_join (a s t b : Nat) :
    holders [⟨a, s⟩] b + holders [⟨a + s, t⟩] b = holders [⟨a, s + t⟩] b := by
  simp only [holders, List.countP_cons, List.countP_nil, MemoryHole.holds, decide_eq_true_eq]
  split_ifs <;> omega

theorem holders_set {i : Nat} {x : MemoryHole} (h : l[i]? = some x) (y : MemoryHole) :
    holders (l.set i y) b + holders [x] b = holders l b + holders [y] b := by
  obtain ⟨hi, rfl⟩ := List.getElem?_eq_some_iff.1 h
  have hle := List.boole_getElem_le_countP (fun h : MemoryHole => h.holds b) l i hi
  simp only [holders, List.countP_set _ _ _ _ hi, List.countP_cons, List.countP_nil] at hle ⊢
  omega

theorem holders_eraseIdx {i : Nat} {x : MemoryHole} (h : l[i]? = some x) :
    holders (l.eraseIdx i) b + holders [x] b = holders l b := by
  obtain ⟨hi, rfl⟩ := List.getElem?_eq_some_iff.1 h
  conv_rhs => rw [← List.take_append_drop i l, List.drop_eq_getElem_cons hi]
  rw [List.eraseIdx_eq_take_drop_succ, holders_append, holders_append,
    holders_cons l[i] (l.drop (i + 1))]
  omega

theorem holders_insertIdx {i : Nat} (h : i ≤ l.length) (x : MemoryHole) :
    holders (l.insertIdx i x) b = holders [x] b + holders l b := by
  rw [holders, (List.perm_insertIdx x l h).countP_eq, ← holders, holders_cons]

theorem Bounded.sublist {l' : List MemoryHole} (h : Bounded l) (hs : List.Sublist l' l) :
    Bounded l' :=
  fun x hx => h x (hs.subset hx)

theorem bounded_append {l' : List MemoryHole} : Bounded (l ++ l') ↔ Bounded l ∧ Bounded l' :=
  List.forall_mem_append

theorem Bounded.cons_of_mem {live : List MemoryHole} {a : MemoryHole} (h : Bounded (l ++ live))
    (ha : a ∈ live) : Bounded (a :: l) := fun x hx =>
  (List.mem_cons.1 hx).elim (· ▸ h a (List.mem_append_right _ ha))
    (fun hx => h x (List.mem_append_left _ hx))

end Holders

/-! ## One call -/

/-- First fit takes the first `size` bytes of a hole: the new allocation and what
is left of the holes hold what the holes held. -/
theorem allocateFrom_holders {size : Nat} : ∀ {l l' : List MemoryHole} {address : Nat},
    Bounded l → allocateFrom size l = some (address, l') →
    Bounded l' ∧ address + size ≤ 2 ^ 40 ∧
      ∀ b, holders l' b + holders [⟨address, size⟩] b = holders l b
  | [], _, _, _, h => nomatch h
  | ⟨s, n⟩ :: l, l', address, hb, h => by
    have hx : s + n ≤ 2 ^ 40 := hb _ (List.mem_cons_self _ l)
    have hl : Bounded l := hb.sublist (List.sublist_cons_self _ l)
    unfold allocateFrom at h
    dsimp only at h
    split_ifs at h with hge hgt
    · obtain ⟨rfl, rfl⟩ := Prod.mk.inj (Option.some.inj h)
      rw [add64_of_lt (by omega)]
      refine ⟨?_, by omega, fun b => ?_⟩
      · rintro y (_ | ⟨_, hy⟩)
        · dsimp only; omega
        · exact hl y hy
      · have hjoin := holders_join s size (n - size) b
        rw [Nat.add_sub_cancel' hge] at hjoin
        rw [holders_cons, holders_cons _ l b]
        omega
    · obtain ⟨rfl, rfl⟩ := Prod.mk.inj (Option.some.inj h)
      obtain rfl : size = n := by omega
      exact ⟨hl, hx, fun b => by rw [holders_cons _ l b]; omega⟩
    · obtain ⟨⟨a, l''⟩, hr, he⟩ := Option.map_eq_some'.1 h
      dsimp only at he
      obtain ⟨rfl, rfl⟩ := Prod.mk.inj he
      obtain ⟨hb', hend, hcount⟩ := allocateFrom_holders hl hr
      refine ⟨?_, hend, fun b => ?_⟩
      · rintro y (_ | ⟨_, hy⟩)
        · exact hx
        · exact hb' y hy
      · rw [holders_cons, holders_cons _ l b, ← hcount b]
        omega

namespace PhysMemManager

theorem mergeNext_holders {l l' : List MemoryHole} {i : Nat} (hb : Bounded l)
    (h : mergeNext l i = some l') : Bounded l' ∧ ∀ b, holders l' b = holders l b := by
  unfold mergeNext at h
  split at h
  · exact nomatch h
  rename_i it hit
  split at h
  · rename_i next hnext
    obtain ⟨s₁, n₁⟩ := it
    obtain ⟨s₂, n₂⟩ := next
    dsimp only at h
    split_ifs at h with ht
    · cases h
      have hi : s₁ + n₁ ≤ 2 ^ 40 := hb _ (List.getElem?_mem hit)
      have hn : s₂ + n₂ ≤ 2 ^ 40 := hb _ (List.getElem?_mem hnext)
      rw [add64_of_lt (by omega)] at ht
      rw [add64_of_lt (by omega)]
      have hnext' : (l.set i ⟨s₁, n₁ + n₂⟩)[i + 1]? = some ⟨s₂, n₂⟩ := by
        rw [List.getElem?_set_ne (by omega), hnext]
      refine ⟨fun y hy => ?_, fun b => ?_⟩
      · rcases List.mem_or_eq_of_mem_set ((List.eraseIdx_sublist _ _).subset hy) with hy | rfl
        · exact hb y hy
        · dsimp only; omega
      · have hjoin := holders_join s₁ n₁ n₂ b
        rw [ht] at hjoin
        have hset := holders_set (b := b) hit ⟨s₁, n₁ + n₂⟩
        have herase := holders_eraseIdx (b := b) hnext'
        omega
    · cases h
      exact ⟨hb, fun _ => rfl⟩
  · cases h
    exact ⟨hb, fun _ => rfl⟩

theorem mergePrev_holders {l : List MemoryHole} {i j address size : Nat}
    {r : List MemoryHole × Nat} (hb : Bounded l) (hi : l[i]? = some ⟨address, size⟩)
    (h : mergePrev l i j address size = some r) :
    Bounded r.1 ∧ (∀ b, holders r.1 b ≤ holders l b) ∧ (0 < size → r = (l, j)) := by
  have hend : address + size ≤ 2 ^ 40 := hb _ (List.getElem?_mem hi)
  unfold mergePrev at h
  rw [hi] at h
  dsimp only at h
  split_ifs at h with hfire hj
  · cases h
    rw [add64_of_lt (by omega)] at hfire
    obtain rfl : size = 0 := by omega
    rw [show add64 0 0 = 0 from rfl]
    dsimp only
    refine ⟨fun y hy => ?_, fun b => ?_, by omega⟩
    · rcases List.mem_or_eq_of_mem_set ((List.eraseIdx_sublist _ _).subset hy) with hy | rfl
      · exact hb y hy
      · exact hend
    · have hset := holders_set (b := b) hi ⟨address, 0⟩
      have herase : holders ((l.set i ⟨address, 0⟩).eraseIdx j) b ≤ holders (l.set i ⟨address, 0⟩) b :=
        (List.eraseIdx_sublist _ _).countP_le _
      omega
  · cases h
    exact ⟨hb, fun _ => le_rfl, fun _ => rfl⟩

theorem bounded_insertIdx {l : List MemoryHole} {a : MemoryHole} (hb : Bounded (a :: l))
    {pos : Nat} (hpos : pos ≤ l.length) :
    Bounded (l.insertIdx pos a) ∧ (l.insertIdx pos a)[pos]? = some ⟨a.start, a.size⟩ :=
  ⟨fun x hx => hb x ((List.perm_insertIdx a l hpos).subset hx), by
    rw [List.getElem?_eq_getElem (by rw [List.length_insertIdx _ _ hpos]; omega),
      List.getElem_insertIdx_self _ _ _ hpos]⟩

/-- `release` puts the range back as a hole: no byte gains a holder, and none loses
one unless the range is empty. -/
theorem release_holders {m m' : PhysMemManager} {a : MemoryHole} (hb : Bounded (a :: m.holes))
    (h : m.release a.start a.size = some m') :
    Bounded m'.holes ∧ ∀ b, holders m'.holes b ≤ holders [a] b + holders m.holes b ∧
      (0 < a.size → holders m'.holes b = holders [a] b + holders m.holes b) := by
  unfold release at h
  simp only [Option.bind_eq_bind, Option.bind_eq_some, Option.pure_def, Option.some.injEq,
    Nat.add_eq_zero, one_ne_zero, and_false, if_false, Nat.add_sub_cancel] at h
  obtain ⟨r, hr, l₂, hl₂, rfl⟩ := h
  have hpos := @List.findIdx_le_length _ (fun h : MemoryHole => decide (h.start > a.start))
    m.holes
  obtain ⟨hb₁, hget⟩ := bounded_insertIdx hb hpos
  obtain ⟨hbr, hle, heq⟩ := mergePrev_holders hb₁ hget hr
  obtain ⟨hb₂, hcount⟩ := mergeNext_holders hbr hl₂
  refine ⟨hb₂, fun b => ⟨?_, fun hsize => ?_⟩⟩
  · rw [hcount, ← holders_insertIdx hpos]
    exact hle b
  · rw [hcount, heq hsize, holders_insertIdx hpos]

theorem allocate_holders {m m' : PhysMemManager} {size address : Nat} (hb : Bounded m.holes)
    (h : m.allocate size = .ok (address, m')) :
    Bounded m'.holes ∧ address + size ≤ 2 ^ 40 ∧
      ∀ b, holders m'.holes b + holders [⟨address, size⟩] b = holders m.holes b := by
  unfold allocate at h
  split at h
  · rename_i address' holes hfrom
    cases h
    exact allocateFrom_holders hb hfrom
  · cases h

theorem mergePrev_of_pos {l : List MemoryHole} {i j address size : Nat} (hb : Bounded l)
    (hi : l[i]? = some ⟨address, size⟩) (hsize : 0 < size) :
    mergePrev l i j address size = some (l, j) := by
  have hend : address + size ≤ 2 ^ 40 := hb _ (List.getElem?_mem hi)
  unfold mergePrev
  rw [hi]
  dsimp only
  rw [if_neg (by rw [add64_of_lt (by omega)]; omega)]

theorem mergeNext_isSome (l : List MemoryHole) (i : Nat) :
    (mergeNext l i).isSome ↔ i < l.length := by
  unfold mergeNext
  split
  · rename_i h
    simpa using List.getElem?_eq_none_iff.1 h
  · rename_i it h
    have hi := (List.getElem?_eq_some_iff.1 h).1
    split
    · split_ifs <;> simpa using hi
    · simpa using hi

theorem release_isSome_iff {m : PhysMemManager} {a : MemoryHole} (hb : Bounded (a :: m.holes))
    (hsize : 0 < a.size) :
    (m.release a.start a.size).isSome ↔ ∃ h ∈ m.holes, a.start < h.start := by
  have hpos := @List.findIdx_le_length _ (fun h : MemoryHole => decide (h.start > a.start))
    m.holes
  obtain ⟨hb₁, hget⟩ := bounded_insertIdx hb hpos
  unfold release
  simp only [Option.bind_eq_bind, Nat.add_eq_zero, one_ne_zero, and_false, if_false,
    Nat.add_sub_cancel, mergePrev_of_pos hb₁ hget hsize, Option.some_bind]
  have hwrap : ∀ o : Option (List MemoryHole),
      (o.bind fun holes => pure ⟨holes⟩ : Option PhysMemManager).isSome = o.isSome := by
    intro o; cases o <;> rfl
  rw [hwrap, mergeNext_isSome, List.length_insertIdx _ _ hpos]
  simp

end PhysMemManager

/-! ## Runs -/

/-- A run of the manager from its constructor: its state, the live allocations and
the released ones, each newest first.  Every size is a `uint64_t`, and a release
hands back a live allocation and is defined. -/
inductive Runs : PhysMemManager → List MemoryHole → List MemoryHole → Prop
  | new : Runs PhysMemManager.new [] []
  | allocate {m m' : PhysMemManager} {live released : List MemoryHole} {size address : Nat} :
      Runs m live released → size < 2 ^ 64 → m.allocate size = .ok (address, m') →
      Runs m' (⟨address, size⟩ :: live) released
  | release {m m' : PhysMemManager} {pre post released : List MemoryHole} {a : MemoryHole} :
      Runs m (pre ++ a :: post) released → m.release a.start a.size = some m' →
      Runs m' (pre ++ post) (a :: released)

/-- What a run keeps: every hole and live allocation ends within `2^40`, no byte lies
in two of them, and with no empty range released every byte below `2^40` lies in
one. -/
structure Inv (m : PhysMemManager) (live released : List MemoryHole) : Prop where
  bounded : Bounded (m.holes ++ live)
  holders_le : ∀ b, holders m.holes b + holders live b ≤ 1
  holders_eq : (∀ a ∈ released, 0 < a.size) → ∀ b < 2 ^ 40, holders m.holes b + holders live b = 1

theorem inv_new : Inv PhysMemManager.new [] [] := by
  refine ⟨fun x hx => ?_, fun b => ?_, fun _ b hb => ?_⟩
  · simp only [PhysMemManager.new, List.append_nil, List.mem_singleton] at hx
    subst hx
    decide
  · simp only [PhysMemManager.new, holders, List.countP_cons, List.countP_nil]
    split_ifs <;> simp
  · simp [PhysMemManager.new, holders, MemoryHole.holds, List.countP_cons]
    omega

theorem Inv.allocate {m m' : PhysMemManager} {live released : List MemoryHole}
    {size address : Nat} (hi : Inv m live released) (h : m.allocate size = .ok (address, m')) :
    Inv m' (⟨address, size⟩ :: live) released := by
  obtain ⟨hbh, hbl⟩ := bounded_append.1 hi.bounded
  obtain ⟨hb, hend, hcount⟩ := PhysMemManager.allocate_holders hbh h
  refine ⟨bounded_append.2 ⟨hb, fun x hx => ?_⟩, fun b => ?_, fun hr b hlt => ?_⟩
  · rcases List.mem_cons.1 hx with rfl | hx
    · exact hend
    · exact hbl x hx
  · rw [holders_cons, ← Nat.add_assoc, hcount]
    exact hi.holders_le b
  · rw [holders_cons, ← Nat.add_assoc, hcount]
    exact hi.holders_eq hr b hlt

theorem Inv.release {m m' : PhysMemManager} {pre post released : List MemoryHole}
    {a : MemoryHole} (hi : Inv m (pre ++ a :: post) released)
    (h : m.release a.start a.size = some m') : Inv m' (pre ++ post) (a :: released) := by
  obtain ⟨hb, hcount⟩ := PhysMemManager.release_holders
    (hi.bounded.cons_of_mem (List.mem_append_right _ (List.mem_cons_self a post))) h
  have hbl := (bounded_append.1 hi.bounded).2
  have hlive : ∀ b, holders (pre ++ a :: post) b = holders [a] b + holders (pre ++ post) b :=
    fun b => by simp only [holders_append, holders_cons a post]; omega
  refine ⟨bounded_append.2 ⟨hb, hbl.sublist ((List.sublist_cons_self a post).append_left pre)⟩,
    fun b => ?_, fun hr b hlt => ?_⟩
  · have hle := hi.holders_le b
    rw [hlive] at hle
    have := (hcount b).1
    omega
  · have heq := hi.holders_eq (fun x hx => hr x (List.mem_cons_of_mem a hx)) b hlt
    rw [hlive] at heq
    have := (hcount b).2 (hr a (List.mem_cons_self a released))
    omega

theorem Inv.perm {m : PhysMemManager} {live live' released : List MemoryHole}
    (hi : Inv m live released) (hp : live.Perm live') : Inv m live' released := by
  have hc : ∀ b, holders live' b = holders live b := fun b => (hp.countP_eq _).symm
  obtain ⟨hbh, hbl⟩ := bounded_append.1 hi.bounded
  refine ⟨bounded_append.2 ⟨hbh, fun x hx => hbl x (hp.symm.subset hx)⟩, fun b => ?_,
    fun hr b hb => ?_⟩
  · rw [hc]; exact hi.holders_le b
  · rw [hc]; exact hi.holders_eq hr b hb

theorem Inv.of_released_pos {m : PhysMemManager} {live released : List MemoryHole}
    {a : MemoryHole} (hi : Inv m live (a :: released)) (ha : 0 < a.size) :
    Inv m live released :=
  ⟨hi.bounded, hi.holders_le, fun hr =>
    hi.holders_eq fun x hx => (List.mem_cons.1 hx).elim (· ▸ ha) (hr x)⟩

theorem Runs.inv {m : PhysMemManager} {live released : List MemoryHole}
    (h : Runs m live released) : Inv m live released := by
  induction h with
  | new => exact inv_new
  | allocate _ _ ha ih => exact ih.allocate ha
  | release _ hr ih => exact ih.release hr

/-- Along every run of the sorted hole list, every hole and live allocation ends
within `2^40` and no byte lies in two of them: no two live allocations share a byte,
and none shares one with a hole, so `allocate` never hands out a byte still held.
With no empty range released, every byte below `2^40` lies in exactly one of them.
And releasing a live allocation of positive size is defined exactly when some hole
starts above it. -/
theorem sorted_list_holds_each_byte_once {m : PhysMemManager} {live released : List MemoryHole}
    (h : Runs m live released) :
    (∀ x ∈ m.holes ++ live, x.start + x.size ≤ 2 ^ 40) ∧
      (∀ b, holders m.holes b + holders live b ≤ 1) ∧
      ((∀ a ∈ released, 0 < a.size) → ∀ b < 2 ^ 40, holders m.holes b + holders live b = 1) ∧
      ∀ a ∈ live, 0 < a.size →
        ((m.release a.start a.size).isSome ↔ ∃ x ∈ m.holes, a.start < x.start) := by
  have hi := h.inv
  exact ⟨hi.bounded, hi.holders_le, hi.holders_eq, fun a ha hs =>
    PhysMemManager.release_isSome_iff (hi.bounded.cons_of_mem ha) hs⟩

/-- `allocate(2)`, `allocate(3)`, then `release(0, 2)`: the new hole `{0, 2}` stays
apart from `{5, 2^40 - 5}`, and the live `{2, 3}` could be released. -/
theorem sorted_list_holds_each_byte_once_after_release :
    let m : PhysMemManager := ⟨[⟨0, 2⟩, ⟨5, 2 ^ 40 - 5⟩]⟩
    let live : List MemoryHole := [⟨2, 3⟩]
    Runs m live [⟨0, 2⟩] ∧
      ((∀ x ∈ m.holes ++ live, x.start + x.size ≤ 2 ^ 40) ∧
        (∀ b, holders m.holes b + holders live b ≤ 1) ∧
        ((∀ a ∈ [⟨0, 2⟩], 0 < MemoryHole.size a) →
          ∀ b < 2 ^ 40, holders m.holes b + holders live b = 1) ∧
        ∀ a ∈ live, 0 < a.size →
          ((m.release a.start a.size).isSome ↔ ∃ x ∈ m.holes, a.start < x.start)) := by
  intro m live
  have hrun : Runs m live [⟨0, 2⟩] :=
    @Runs.release _ _ [⟨2, 3⟩] [] [] ⟨0, 2⟩
      (.allocate (.allocate .new (by decide) rfl) (by decide) rfl) rfl
  exact ⟨hrun, sorted_list_holds_each_byte_once hrun⟩

end PageTables.SortedList
