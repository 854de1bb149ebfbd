/-
  OServer/BtreeMap.lean
  =====================
  **The tree of `btree.c` as a sorted map, and how deep it gets.**

  The users of the tree put keys in, look them up and walk over them in order.
  For them it is a list of entries in the order of the keys: balancing, rotations
  and threads do not show.  What the balancing is for shows in the depth.  A call
  of `btree_internal_insert` or of a traversal is at most as deep in itself as the
  tree has levels, and so is the number of rounds of the look-up loop; keys of
  sixteen bits leave room for 22 levels and no more.

    * `btree_sortedMap` — every run of insertions, threadings, look-ups and
                          in-order traversals shows what a sorted list would show;
    * `btree_levels`    — a tree of `n` nodes with `n + 1 < fib (h + 3)` needs `h`
                          levels, whatever was inserted and in which order.
-/
import OServer.BtreeRuns
import OServer.Lib.AvlMap

namespace OServer

open Avl (AvlTree insertSorted)

variable {σ : Type}

/-! ## 1. The sorted list -/

/-- Keys with the nodes they are in, in the order of the keys. -/
abbrev BtreeEntries := List (BtKey × Ptr)

/-- What an operation does to the entries, and what the caller sees of it. -/
def BtreeEntries.step (m : BtreeEntries) : BtreeOp → BtreeEntries × List BtreeObs
  | .insert p e =>
      (insertSorted e.key p m, [.inserted (if m.any fun e' => e'.1 = e.key then 0 else 1)])
  | .threading => (m, [])
  | .visit k => (m, [.visited ((m.find? fun e => e.1 = k).toList.map Prod.swap)])
  | .traverse _ => (m, [.visited (m.map Prod.swap)])

/-- Pre-order and post-order walks show how the nodes are linked. -/
def BtreeOp.isOrdered : BtreeOp → Bool
  | .traverse .pre | .traverse .post => false
  | _ => true

def BtreeEntries.Allowed (m : BtreeEntries) (op : BtreeOp) : Prop :=
  op.isOrdered ∧ match op with
    | .insert p _ => p ∉ m.map Prod.snd
    | _ => True

namespace BtreeView

def entries (v : BtreeView) : BtreeEntries := v.tree.entries v.key

theorem entries_fst (v : BtreeView) : v.entries.map Prod.fst = v.keys := by
  rw [entries, AvlTree.entries, List.map_map]
  rfl

theorem entries_snd (v : BtreeView) : v.entries.map Prod.snd = v.tree.toList := by
  rw [entries, AvlTree.entries, List.map_map]
  exact List.map_id' v.tree.toList

theorem entries_swap (v : BtreeView) :
    v.entries.map Prod.swap = v.tree.toList.map fun p => (p, v.key p) := by
  rw [entries, AvlTree.entries, List.map_map]
  rfl

theorem insert_entries (v : BtreeView) {p : Ptr} (hp : p ∉ v.tree.toList) (k : BtKey) :
    (v.insert p k hp).entries = insertSorted k p v.entries := by
  have hins := AvlTree.insert_entries (Function.update v.key p k) p (v.ordered_update hp k) v.balanced
  have hold : v.tree.entries (Function.update v.key p k) = v.entries := by
    apply List.map_congr_left
    intro q hq
    rw [Function.update_of_ne (ne_of_mem_of_not_mem hq hp)]
  rw [hold, Function.update_self] at hins
  exact hins

/-- **The balanced tree refines the sorted list.** -/
theorem step_entries (v : BtreeView) {op : BtreeOp} (hop : op.isOrdered) (hok : v.Allowed op) :
    (v.step op).1.entries = (v.entries.step op).1 ∧ (v.step op).2 = (v.entries.step op).2 := by
  cases op with
  | insert p e =>
    have hp : p ∉ v.tree.toList := hok
    have hkey : (v.entries.any fun e' => e'.1 = e.key) = true ↔ e.key ∈ v.keys := by
      simp [← v.entries_fst]
    simp only [step, dif_neg hp, BtreeEntries.step, hkey]
    exact ⟨v.insert_entries hp e.key, trivial⟩
  | threading => exact ⟨rfl, rfl⟩
  | visit k =>
    refine ⟨rfl, ?_⟩
    have hfind := AvlTree.find_entries v.key k v.ordered
    simp only [step, BtreeEntries.step, entries, hfind]
    cases AvlTree.find v.key k v.tree <;> rfl
  | traverse o =>
    cases o with
    | inner =>
      refine ⟨rfl, ?_⟩
      simp only [step, BtreeEntries.step, v.entries_swap, AvlTree.walk_inner]
    | pre => exact absurd hop Bool.false_ne_true
    | post => exact absurd hop Bool.false_ne_true

end BtreeView

/-- The memory holds a balanced tree of these entries. -/
def Btree.Entries (t : Btree) (m : BtreeEntries) : Prop := ∃ v, t.Represents v ∧ v.entries = m

theorem btreeOp_refines_entries :
    Run.Refines btreeStep (fun t op => op.isOrdered ∧ op.Allowed t) BtreeEntries.step
      BtreeEntries.Allowed Btree.Entries where
  allow_iff := by
    rintro t m op ⟨v, hv, rfl⟩
    refine and_congr_right fun _ => (btreeOp_refines.allow_iff op hv).trans ?_
    cases op with
    | insert p e =>
      simp only [BtreeView.Allowed, v.entries_snd]
    | _ => exact Iff.rfl
  step := by
    rintro t m op ⟨v, hv, rfl⟩ ⟨hop, hok⟩
    have hallow : v.Allowed op := by
      cases op with
      | insert p e =>
        rw [v.entries_snd] at hok
        exact hok
      | _ => trivial
    obtain ⟨t', hrun, hv'⟩ := btreeOp_refines.step op hv hallow
    obtain ⟨hnext, hobs⟩ := v.step_entries hop hallow
    rw [hobs] at hrun
    exact ⟨t', hrun, _, hv', hnext⟩

theorem Btree.Entries.mem_iff {t : Btree} {m : BtreeEntries} (h : t.Entries m) {k : BtKey} {p : Ptr} :
    (k, p) ∈ m ↔ t.Linked p ∧ (t.node p).key = k := by
  obtain ⟨v, hv, rfl⟩ := h
  rw [BtreeView.entries, AvlTree.mem_entries, hv.linked_iff, hv.key]

theorem Btree.Entries.sorted {t : Btree} {m : BtreeEntries} (h : t.Entries m) :
    m.Pairwise fun e e' => e.1 < e'.1 := by
  obtain ⟨v, -, rfl⟩ := h
  exact v.ordered.entries_pairwise

/-- **The tree is a sorted map.**  A run of insertions, threadings, look-ups and
    in-order traversals over any memory never breaks, and the caller sees at every
    step what a list kept in the order of the keys would show.  At the end the nodes
    in the tree are those of the list, under their keys. -/
theorem btree_sortedMap (t₀ : Btree) (ops : List BtreeOp)
    (hall : Run.Allowed btreeStep (fun t op => op.isOrdered ∧ op.Allowed t) ops (btreeInit t₀)) :
    ∃ t, Run.run btreeStep ops (btreeInit t₀) =
        some (t, (Run.runSpec BtreeEntries.step ops []).2) ∧
      (Run.runSpec BtreeEntries.step ops []).1.Pairwise (fun e e' => e.1 < e'.1) ∧
      ∀ k p, (k, p) ∈ (Run.runSpec BtreeEntries.step ops []).1 ↔
        t.Linked p ∧ (t.node p).key = k := by
  have hinit : (btreeInit t₀).Entries [] := ⟨_, Btree.represents_init t₀, rfl⟩
  obtain ⟨t, hrun, hm⟩ := btreeOp_refines_entries.run hinit hall
  exact ⟨t, hrun, hm.sorted, fun _ _ => hm.mem_iff⟩

/-- Two nodes, the second one smaller; the third key is taken. -/
theorem btree_sortedMap_three_nodes : ∃ t, Run.run btreeStep
    [.insert 0 { (default : BtNodeEntry) with key := 7 }, .threading,
      .insert 1 { (default : BtNodeEntry) with key := 3 },
      .insert 2 { (default : BtNodeEntry) with key := 7 }, .visit 7, .traverse .inner]
      (btreeInit noMemory) =
    some (t, [.inserted 1, .inserted 1, .inserted 0, .visited [(0, 7)], .visited [(1, 3), (0, 7)]]) := by
  have hinit : (btreeInit noMemory).Entries [] :=
    ⟨_, Btree.represents_init _, rfl⟩
  have hspec : Run.Allowed (fun m op => some (BtreeEntries.step m op)) BtreeEntries.Allowed
      [.insert 0 { (default : BtNodeEntry) with key := 7 }, .threading,
        .insert 1 { (default : BtNodeEntry) with key := 3 },
        .insert 2 { (default : BtNodeEntry) with key := 7 }, .visit 7, .traverse .inner] [] := by
    refine ⟨⟨rfl, by decide⟩, ?_⟩
    rintro _ ⟨⟩
    refine ⟨⟨rfl, trivial⟩, ?_⟩
    rintro _ ⟨⟩
    refine ⟨⟨rfl, by decide⟩, ?_⟩
    rintro _ ⟨⟩
    refine ⟨⟨rfl, by decide⟩, ?_⟩
    rintro _ ⟨⟩
    refine ⟨⟨rfl, trivial⟩, ?_⟩
    rintro _ ⟨⟩
    exact ⟨⟨rfl, trivial⟩, fun _ _ => trivial⟩
  obtain ⟨t, hrun, -⟩ := btree_sortedMap noMemory _
    ((btreeOp_refines_entries.allowed_iff hinit).mpr hspec)
  exact ⟨t, hrun⟩

/-! ## 2. Depth -/

/-- There are as many keys as `int16_t` has values. -/
theorem BtreeView.length_le (v : BtreeView) : v.tree.toList.length ≤ 65536 := by
  have hnodup : (v.keys.map fun k => k.toUInt16.toNat).Nodup := by
    rw [BtreeView.keys, List.map_map]
    refine List.Nodup.map_on ?_ v.ordered.nodup
    intro p hp q hq heq
    have hkey : v.key p = v.key q := congrArg Int16.ofUInt16 (UInt16.toNat_inj.mp heq)
    have hfind := (AvlTree.find_eq_some_iff v.key v.ordered (v.key p) p).mpr ⟨hp, rfl⟩
    exact Option.some.inj
      (hfind.symm.trans ((AvlTree.find_eq_some_iff v.key v.ordered (v.key p) q).mpr ⟨hq, hkey.symm⟩))
  have hsub : (v.keys.map fun k => k.toUInt16.toNat).Subperm (List.range 65536) := by
    refine hnodup.subperm fun n hn => ?_
    obtain ⟨k, -, rfl⟩ := List.mem_map.mp hn
    exact List.mem_range.mpr k.toUInt16.toNat_lt
  simpa [BtreeView.keys] using hsub.length_le

/-- The number of levels a tree of `n` nodes can need. -/
def EnoughLevels (n levels : Nat) : Prop := n + 1 < Nat.fib (levels + 3) ∨ 22 ≤ levels

theorem BtreeView.height_le (v : BtreeView) {levels : Nat}
    (h : EnoughLevels v.tree.toList.length levels) : v.tree.height ≤ levels := by
  rcases h with h | h
  · exact v.balanced.height_le h
  · have hlen : v.tree.toList.length + 1 < Nat.fib (22 + 3) := by
      have hfib : Nat.fib (22 + 3) = 75025 := by decide
      have hle := v.length_le
      omega
    exact (v.balanced.height_le hlen).trans h

/-- A visitor that stays within the tree for a traversal in this order: it leaves the
    shape alone or, after the subtrees, everything but the node. -/
def Visitor.Fits (visit : Visitor σ) (o : Avl.Order) : Prop :=
  visit.Gentle ∨ o = .post ∧ visit.Local

theorem btreeTraverseAt_fits {visit : Visitor σ} {o : Avl.Order} (hvisit : visit.Fits o) {t : Btree}
    {v : BtreeView} (hv : t.Represents v) (s : σ) {fuel : Nat} (hfuel : v.tree.height < fuel) :
    btreeTraverseAt o visit fuel .treeRoot t s = some (visitAll visit (v.tree.walk o) (t, s)) := by
  rcases hvisit with hg | ⟨rfl, hl⟩
  · exact btreeTraverseAt_visits o hg v.tree fuel .treeRoot t s hv.holds hfuel
  · exact btreeTraverseAt_post_local hl v.tree fuel .treeRoot t s hv.holds v.ordered.nodup hfuel

/-- More room for the recursion changes nothing once it has come to its end. -/
theorem btreeInternalInsert_mono {fuel fuel' : Nat} (hle : fuel ≤ fuel') {t : Btree} {root : LinkAddr}
    {node : Ptr} {r : Btree × InsertResult} (h : btreeInternalInsert fuel t root node = some r) :
    btreeInternalInsert fuel' t root node = some r := by
  induction fuel generalizing fuel' t root r with
  | zero => exact absurd h nofun
  | succ fuel ih =>
    obtain ⟨fuel', rfl⟩ := Nat.exists_eq_add_of_le' (Nat.le_trans (Nat.succ_le_succ fuel.zero_le) hle)
    have hle' : fuel ≤ fuel' := Nat.le_of_succ_le_succ hle
    simp only [btreeInternalInsert] at h ⊢
    cases hget : t.get root with
    | none =>
      rw [hget] at h
      exact h
    | some p =>
      simp only [hget] at h ⊢
      split_ifs at h ⊢
      · exact h
      · obtain ⟨u, hu, hr⟩ := Option.bind_eq_some_iff.mp h
        exact Option.bind_eq_some_iff.mpr ⟨u, ih hle' hu, hr⟩
      · obtain ⟨u, hu, hr⟩ := Option.bind_eq_some_iff.mp h
        exact Option.bind_eq_some_iff.mpr ⟨u, ih hle' hu, hr⟩

/-- The memory in which `btree_insert` calls `btree_internal_insert`. -/
def Btree.offered (t : Btree) (p : Ptr) (e : BtNodeEntry) : Btree :=
  (t.supply p e).modify p fun e =>
    { e with llink := none, rlink := none, balanceFactor := 0, rflag := false }

theorem Btree.Represents.internalInsert {t : Btree} {v : BtreeView} (h : t.Represents v) {p : Ptr}
    (hp : p ∉ v.tree.toList) (e : BtNodeEntry) {fuel : Nat} (hfuel : v.tree.height < fuel) :
    ∃ r, btreeInternalInsert fuel (t.offered p e) .treeRoot p = some r := by
  have hnode : (t.offered p e).node p =
      { e with llink := none, rlink := none, balanceFactor := 0, rflag := false } := by
    simp [offered, supply]
  have hne : ∀ q, q ≠ p → (t.offered p e).node q = t.node q := fun q hq => by
    simp [offered, supply, modify_node, hq]
  have hkey : ∀ q, ((t.offered p e).node q).key = Function.update v.key p e.key q := by
    intro q
    by_cases hq : q = p
    · subst hq
      rw [hnode, Function.update_self]
    · rw [hne q hq, h.key, Function.update_of_ne hq]
  have hholds : (t.offered p e).Holds ((t.offered p e).get .treeRoot) v.tree :=
    h.holds.congr fun q hq => hne q (ne_of_mem_of_not_mem hq hp)
  have hfresh : (t.offered p e).Fresh p := by simp [Btree.Fresh, hnode]
  obtain ⟨t', hrun, -⟩ := btreeInternalInsert_holds (Function.update v.key p e.key) p v.tree fuel
    (t.offered p e) .treeRoot hkey hholds v.balanced (v.ordered_update hp e.key) hp hfresh trivial hfuel
  exact ⟨_, hrun⟩

/-- **Nothing goes deeper than the tree is high.**  `h` levels are enough for every
    tree of `n` nodes with `n + 1 < fib (h + 3)`, and 22 levels for every tree there
    can be: within one more call or round than that the look-up, each traversal and
    each insertion have come to their end with the result they always have. -/
theorem btree_levels {t : Btree} (h : BtreeReachable t) {ps : List Ptr} (hn : ps.Nodup)
    (hps : ∀ p, p ∈ ps ↔ t.Linked p) {levels : Nat} (hlevels : EnoughLevels ps.length levels) :
    (∀ (σ : Type) (k : BtKey) (visit : Visitor σ) (s : σ), ∃ r,
      btreeVisitFrom k visit (levels + 1) t.root t s = some r ∧ btreeVisit t k visit s = some r) ∧
    (∀ (σ : Type) (o : Avl.Order) (visit : Visitor σ) (s : σ), visit.Fits o → ∃ r,
      btreeTraverseAt o visit (levels + 1) .treeRoot t s = some r ∧
        btreeTraverse o t visit s = some r) ∧
    ∀ (p : Ptr) (e : BtNodeEntry), ¬ t.Linked p → ∃ r,
      btreeInternalInsert (levels + 1) (t.offered p e) .treeRoot p = some r ∧
        btreeInsert (t.supply p e) p = some (r.1, if 0 < r.2.toInt then 1 else 0) := by
  obtain ⟨v, hv⟩ := h.represents
  have hlen : ps.length = v.tree.toList.length := by
    have hperm : ps.Perm v.tree.toList :=
      (List.perm_ext_iff_of_nodup hn v.ordered.nodup).mpr fun p => (hps p).trans hv.linked_iff
    exact hperm.length_eq
  rw [hlen] at hlevels
  have hheight : v.tree.height < levels + 1 := Nat.lt_succ_of_le (v.height_le hlevels)
  have hbrk : v.tree.height < t.brk + 1 := Nat.lt_succ_of_le hv.height_le
  refine ⟨?_, ?_, ?_⟩
  · intro σ k visit s
    exact ⟨_, btreeVisitFrom_holds k visit hv.key v.tree (levels + 1) t.root s hv.holds hheight,
      btreeVisitFrom_holds k visit hv.key v.tree (t.brk + 1) t.root s hv.holds hbrk⟩
  · intro σ o visit s hvisit
    rw [btreeTraverse_eq]
    exact ⟨_, btreeTraverseAt_fits hvisit hv s hheight, btreeTraverseAt_fits hvisit hv s hbrk⟩
  · intro p e hp
    have hp' : p ∉ v.tree.toList := mt hv.linked_iff.mpr hp
    obtain ⟨r, hr⟩ := hv.internalInsert hp' e (Nat.lt_succ_self v.tree.height)
    refine ⟨r, btreeInternalInsert_mono hheight hr, ?_⟩
    have hroom : v.tree.height < (t.offered p e).brk + 1 :=
      Nat.lt_succ_of_le (hv.height_le.trans (le_max_left t.brk (p + 1)))
    have hrun : btreeInternalInsert ((t.offered p e).brk + 1) (t.offered p e) .treeRoot p = some r :=
      btreeInternalInsert_mono hroom hr
    exact congrArg (fun u => u.bind fun r => some (r.1, if 0 < r.2.toInt then (1 : Int) else 0)) hrun

/-- Three levels are enough for them. -/
theorem btree_levels_five_nodes : ∃ t,
    Run.run btreeStep fiveInserts (btreeInit noMemory) = some (t, List.replicate 5 (.inserted 1)) ∧
      (∀ k visit (s : Unit), ∃ r, btreeVisitFrom k visit 4 t.root t s = some r ∧
        btreeVisit t k visit s = some r) ∧
      ∃ r, btreeInternalInsert 4 (t.offered 5 (keyed 26)) .treeRoot 5 = some r ∧
        btreeInsert (t.supply 5 (keyed 26)) 5 = some (r.1, if 0 < r.2.toInt then 1 else 0) := by
  obtain ⟨t, v, hrun, hreach, hv, htree, -⟩ := fiveInserts_run
  have hlevels : EnoughLevels v.tree.toList.length 3 := Or.inl (by rw [htree]; decide)
  have hfree : ¬t.Linked 5 := by
    rw [hv.linked_iff, htree]
    decide
  obtain ⟨hvisit, -, hinsert⟩ :=
    btree_levels hreach v.ordered.nodup (fun p => hv.linked_iff.symm) hlevels
  exact ⟨t, hrun, hvisit Unit, hinsert 5 (keyed 26) hfree⟩

end OServer
