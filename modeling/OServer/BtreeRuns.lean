/-
  OServer/BtreeRuns.lean
  ======================
  **Runs of the tree operations, and what they mean.**

  `BtreeView` says what the tree is for: a balanced search tree of nodes, each
  with a key.  `btreeOp_refines` connects the operations in memory to it; threading
  does not exist at that level.  The results are

    * `btree_avl`                       — order, balance, result codes and look-up;
    * `btreeThreadTraverse_inOrder`     — the stackless traversal is the in-order one;
    * `btree_threading_transparent`     — threading is not observable, and a post-order
                                          traversal may free the nodes.
-/
import OServer.BtreeThread
import OServer.Lib.Run
import Mathlib.Data.List.Nodup
import Mathlib.Data.List.Perm.Subperm

namespace OServer

open Avl (AvlTree)

variable {σ : Type}

/-! ## 1. Operations -/

/-- The caller fills in the memory of a node before it inserts it. -/
def Btree.supply (t : Btree) (p : Ptr) (e : BtNodeEntry) : Btree :=
  { t with node := Function.update t.node p e, brk := max t.brk (p + 1) }

inductive BtreeOp where
  | insert (p : Ptr) (e : BtNodeEntry)
  | threading
  | visit (key : BtKey)
  | traverse (o : Avl.Order)
deriving DecidableEq, Repr

/-- What the caller sees: return values, and the nodes its visitors get. -/
inductive BtreeObs where
  | inserted (ret : Int)
  | visited (nodes : List (Ptr × BtKey))
deriving DecidableEq, Repr

def record : Visitor (List (Ptr × BtKey)) :=
  Visitor.reading fun p e seen => seen ++ [(p, e.key)]

def btreeTraverse (o : Avl.Order) (t : Btree) (visit : Visitor σ) (data : σ) :
    Option (Btree × σ) :=
  match o with
  | .pre => btreePreOrderTraverse t visit data
  | .inner => btreeInOrderTraverse t visit data
  | .post => btreePostOrderTraverse t visit data

def btreeStep (t : Btree) : BtreeOp → Option (Btree × List BtreeObs)
  | .insert p e => do
      let r ← btreeInsert (t.supply p e) p
      some (r.1, [.inserted r.2])
  | .threading => do
      let t ← btreeBuildInOrderThreading t
      some (t, [])
  | .visit key => do
      let r ← btreeVisit t key record []
      some (r.1, [.visited r.2])
  | .traverse o => do
      let r ← btreeTraverse o t record []
      some (r.1, [.visited r.2])

/-- The node `p` hangs from `link` by real links; threads do not count. -/
inductive Btree.Reaches (t : Btree) : Option Ptr → Ptr → Prop where
  | here (p : Ptr) : t.Reaches (some p) p
  | left {p q : Ptr} (h : t.Reaches (t.node p).llink q) : t.Reaches (some p) q
  | right {p q : Ptr} (h : t.Reaches (t.rightChild p) q) : t.Reaches (some p) q

/-- The node `p` is in the tree. -/
def Btree.Linked (t : Btree) (p : Ptr) : Prop := t.Reaches t.root p

/-- The keys in the tree. -/
def Btree.keys (t : Btree) : Set BtKey := {k | ∃ p, t.Linked p ∧ (t.node p).key = k}

/-- The caller inserts only nodes that are not in the tree. -/
def BtreeOp.Allowed (t : Btree) : BtreeOp → Prop
  | .insert p _ => ¬ t.Linked p
  | _ => True

/-- Reached from `btree_init`, over any memory. -/
abbrev BtreeReachable : Btree → Prop :=
  Run.Reachable btreeStep BtreeOp.Allowed fun t => ∃ t₀, t = btreeInit t₀

/-! ## 2. The tree as its users see it -/

/-- Nodes with keys in a balanced search tree. -/
structure BtreeView where
  tree : AvlTree Ptr
  key : Ptr → BtKey
  ordered : tree.Ordered key
  balanced : tree.Balanced

namespace BtreeView

def empty (key : Ptr → BtKey) : BtreeView := ⟨.nil, key, trivial, trivial⟩

theorem ordered_update (v : BtreeView) {p : Ptr} (hp : p ∉ v.tree.toList) (k : BtKey) :
    v.tree.Ordered (Function.update v.key p k) :=
  v.ordered.congr fun _ hq => Function.update_of_ne (ne_of_mem_of_not_mem hq hp) ..

theorem ordered_insert (v : BtreeView) {p : Ptr} (hp : p ∉ v.tree.toList) (k : BtKey) :
    (AvlTree.insert (Function.update v.key p k) p v.tree).1.Ordered
      (Function.update v.key p k) := by
  have ho := v.ordered_update hp k
  by_cases hex : (AvlTree.insert (Function.update v.key p k) p v.tree).2 = .exist
  · rw [AvlTree.insert_exist_eq _ p v.balanced hex]
    exact ho
  · exact AvlTree.insert_ordered _ p ho hex

/-- Offer the node `p` with key `k` to the tree. -/
def insert (v : BtreeView) (p : Ptr) (k : BtKey) (hp : p ∉ v.tree.toList) : BtreeView where
  tree := (AvlTree.insert (Function.update v.key p k) p v.tree).1
  key := Function.update v.key p k
  ordered := v.ordered_insert hp k
  balanced := (AvlTree.insert_spec _ p v.balanced).1

/-- The keys stored, in order. -/
def keys (v : BtreeView) : List BtKey := v.tree.toList.map v.key

theorem insert_eq_exist_iff (v : BtreeView) {p : Ptr} (hp : p ∉ v.tree.toList) (k : BtKey) :
    (AvlTree.insert (Function.update v.key p k) p v.tree).2 = .exist ↔ k ∈ v.keys := by
  rw [AvlTree.insert_eq_exist_iff _ p (v.ordered_update hp k), keys, List.mem_map]
  refine exists_congr fun q => and_congr_right fun hq => ?_
  rw [Function.update_of_ne (ne_of_mem_of_not_mem hq hp), Function.update_self]

/-- An insertion that finds the key absent adds the node. -/
theorem mem_insert_iff (v : BtreeView) {p : Ptr} (hp : p ∉ v.tree.toList) {k : BtKey}
    (hk : k ∉ v.keys) {q : Ptr} :
    q ∈ (v.insert p k hp).tree.toList ↔ q = p ∨ q ∈ v.tree.toList := by
  have hperm := AvlTree.insert_perm _ p (v.ordered_update hp k)
    (mt (v.insert_eq_exist_iff hp k).mp hk)
  exact hperm.mem_iff.trans List.mem_cons

theorem mem_keys_insert (v : BtreeView) {p : Ptr} (hp : p ∉ v.tree.toList) {k : BtKey}
    (hk : k ∉ v.keys) {k' : BtKey} :
    k' ∈ (v.insert p k hp).keys ↔ k' = k ∨ k' ∈ v.keys := by
  have hold : ∀ q ∈ v.tree.toList, (v.insert p k hp).key q = v.key q := fun q hq =>
    Function.update_of_ne (ne_of_mem_of_not_mem hq hp) ..
  have hnew : (v.insert p k hp).key p = k := Function.update_self ..
  simp only [keys, List.mem_map, v.mem_insert_iff hp hk]
  constructor
  · rintro ⟨q, rfl | hq, rfl⟩
    · exact Or.inl hnew
    · exact Or.inr ⟨q, hq, (hold q hq).symm⟩
  · rintro (rfl | ⟨q, hq, rfl⟩)
    · exact ⟨p, Or.inl rfl, hnew⟩
    · exact ⟨q, Or.inr hq, hold q hq⟩

/-- What an operation does to the view, and what the caller sees of it. -/
def step (v : BtreeView) : BtreeOp → BtreeView × List BtreeObs
  | .insert p e =>
      if hp : p ∈ v.tree.toList then (v, [])
      else (v.insert p e.key hp, [.inserted (if e.key ∈ v.keys then 0 else 1)])
  | .threading => (v, [])
  | .visit k => (v, [.visited ((AvlTree.find v.key k v.tree).toList.map fun p => (p, v.key p))])
  | .traverse o => (v, [.visited ((v.tree.walk o).map fun p => (p, v.key p))])

def Allowed (v : BtreeView) : BtreeOp → Prop
  | .insert p _ => p ∉ v.tree.toList
  | _ => True

instance (v : BtreeView) : (op : BtreeOp) → Decidable (v.Allowed op)
  | .insert p _ => inferInstanceAs (Decidable (p ∉ v.tree.toList))
  | .threading => isTrue trivial
  | .visit _ => isTrue trivial
  | .traverse _ => isTrue trivial

end BtreeView

/-- The memory holds the tree of the view. -/
structure Btree.Represents (t : Btree) (v : BtreeView) : Prop where
  holds : t.Holds t.root v.tree
  key : ∀ p, (t.node p).key = v.key p
  bound : ∀ p ∈ v.tree.toList, p < t.brk

namespace Btree

theorem Represents.length_le {t : Btree} {v : BtreeView} (h : t.Represents v) :
    v.tree.toList.length ≤ t.brk := by
  have hsub : v.tree.toList.Subperm (List.range t.brk) :=
    v.ordered.nodup.subperm fun p hp => List.mem_range.mpr (h.bound p hp)
  simpa using hsub.length_le

theorem Represents.height_le {t : Btree} {v : BtreeView} (h : t.Represents v) :
    v.tree.height ≤ t.brk :=
  v.tree.height_le_length.trans h.length_le

theorem Represents.sameShape {t t' : Btree} {v : BtreeView} (h : t.Represents v)
    (hs : SameShape t t') : t'.Represents v := by
  refine ⟨?_, fun p => (hs.key p).trans (h.key p), fun p hp => ?_⟩
  · rw [hs.root]
    exact hs.holds h.holds
  · rw [hs.brk]
    exact h.bound p hp

/-- Being reached by real links is being in the tree. -/
theorem Holds.reaches_iff {t : Btree} {link : Option Ptr} {tr : AvlTree Ptr} {q : Ptr}
    (h : t.Holds link tr) : t.Reaches link q ↔ q ∈ tr.toList := by
  induction tr generalizing link with
  | nil =>
    obtain rfl : link = none := h
    simp only [AvlTree.toList_nil, List.not_mem_nil, iff_false]
    intro hr
    cases hr
  | node l p bf r ihl ihr =>
    rcases id h with ⟨rfl, -⟩
    rw [AvlTree.toList_node, List.mem_append, List.mem_cons, ← ihl h.llink, ← ihr h.rightChild]
    constructor
    · intro hr
      cases hr with
      | here => exact Or.inr (Or.inl rfl)
      | left hr => exact Or.inl hr
      | right hr => exact Or.inr (Or.inr hr)
    · rintro (hr | rfl | hr)
      · exact .left hr
      · exact .here q
      · exact .right hr

theorem Represents.linked_iff {t : Btree} {v : BtreeView} (h : t.Represents v) {q : Ptr} :
    t.Linked q ↔ q ∈ v.tree.toList := h.holds.reaches_iff

theorem Represents.mem_keys_iff {t : Btree} {v : BtreeView} (h : t.Represents v) {k : BtKey} :
    k ∈ t.keys ↔ k ∈ v.keys := by
  simp only [keys, BtreeView.keys, Set.mem_ofPred_eq, List.mem_map, h.linked_iff, h.key]

theorem represents_init (t : Btree) :
    (btreeInit t).Represents (.empty fun p => (t.node p).key) :=
  ⟨rfl, fun _ => rfl, fun _ hp => absurd hp (by simp [BtreeView.empty])⟩

theorem not_linked_init (t : Btree) (p : Ptr) : ¬ (btreeInit t).Linked p := by
  rw [(represents_init t).linked_iff]
  exact List.not_mem_nil

end Btree

/-! ## 3. Each operation does what the view says -/

/-- **`btree_insert` on a tree in memory.**  Where the key is present already, only
    the offered node itself is touched. -/
theorem btreeInsert_represents {t : Btree} {v : BtreeView} (h : t.Represents v) {p : Ptr}
    (e : BtNodeEntry) (hp : p ∉ v.tree.toList) :
    ∃ t', btreeInsert (t.supply p e) p = some (t', if e.key ∈ v.keys then 0 else 1) ∧
      t'.Represents (v.insert p e.key hp) ∧ t'.brk = max t.brk (p + 1) ∧
      (e.key ∈ v.keys → t'.root = t.root ∧ ∀ q, q ≠ p → t'.node q = t.node q) := by
  let t₁ := (t.supply p e).modify p fun e =>
    { e with llink := none, rlink := none, balanceFactor := 0, rflag := false }
  have hne : ∀ q, q ≠ p → t₁.node q = t.node q := fun q hq => by
    simp [t₁, Btree.supply, Btree.modify_node, hq]
  have hself : t₁.Fresh p := by simp [t₁, Btree.Fresh]
  have hkey : ∀ q, (t₁.node q).key = Function.update v.key p e.key q := by
    intro q
    by_cases hq : q = p
    · subst hq
      simp [t₁, Btree.supply]
    · rw [hne q hq, h.key, Function.update_of_ne hq]
  have hholds : t₁.Holds (t₁.get .treeRoot) v.tree :=
    h.holds.congr fun q hq => hne q (ne_of_mem_of_not_mem hq hp)
  have hbrk : t.brk ≤ t₁.brk := le_max_left ..
  have hpbrk : p < t₁.brk := Nat.lt_of_succ_le (le_max_right t.brk (p + 1))
  have hfuel : v.tree.height < t₁.brk + 1 := Nat.lt_succ_of_le (h.height_le.trans hbrk)
  obtain ⟨t', hrun, hh', hfr, hex⟩ := btreeInternalInsert_holds (Function.update v.key p e.key) p
    v.tree (t₁.brk + 1) t₁ .treeRoot hkey hholds v.balanced (v.ordered_update hp e.key) hp hself
    trivial hfuel
  refine ⟨t', ?_, ⟨hh', fun q => (hfr.key q).trans (hkey q), fun q hq => ?_⟩, hfr.brk, fun hk => ?_⟩
  · have hret : (if 0 < (InsertResult.ofGrowth
        (AvlTree.insert (Function.update v.key p e.key) p v.tree).2).toInt then (1 : Int) else 0) =
        if e.key ∈ v.keys then 0 else 1 := by
      have hiff := v.insert_eq_exist_iff hp e.key
      cases hg : (AvlTree.insert (Function.update v.key p e.key) p v.tree).2 <;>
        simp_all [InsertResult.ofGrowth, InsertResult.toInt]
    rw [← hret]
    exact congrArg
      (fun u => u.bind fun r => some (r.1, if 0 < r.2.toInt then (1 : Int) else 0)) hrun
  · rw [hfr.brk]
    rcases AvlTree.mem_insert _ p v.tree hq with rfl | hq
    · exact hpbrk
    · exact lt_of_lt_of_le (h.bound q hq) hbrk
  · obtain rfl := hex ((v.insert_eq_exist_iff hp e.key).mpr hk)
    exact ⟨rfl, hne⟩

theorem btreeVisit_represents {t : Btree} {v : BtreeView} (h : t.Represents v) (k : BtKey)
    (visit : Visitor σ) (s : σ) :
    btreeVisit t k visit s =
      some (match AvlTree.find v.key k v.tree with
        | none => (t, s)
        | some p => visit p t s) := by
  have hfuel := h.height_le
  exact btreeVisitFrom_holds k visit h.key v.tree (t.brk + 1) t.root s h.holds (by omega)

theorem btreeTraverse_eq (o : Avl.Order) (t : Btree) (visit : Visitor σ) (s : σ) :
    btreeTraverse o t visit s = btreeTraverseAt o visit (t.brk + 1) .treeRoot t s := by
  cases o <;> rfl

theorem foldl_concat_map {α β : Type} (f : α → β) (as : List α) (bs : List β) :
    as.foldl (fun bs a => bs ++ [f a]) bs = bs ++ as.map f := by
  induction as generalizing bs with
  | nil => simp
  | cons a as ih => rw [List.foldl_cons, ih, List.map_cons, List.append_assoc, List.singleton_append]

theorem btreeTraverse_record {t : Btree} {v : BtreeView} (h : t.Represents v) (o : Avl.Order) :
    btreeTraverse o t record [] = some (t, (v.tree.walk o).map fun p => (p, v.key p)) := by
  have hfuel := h.height_le
  have hholds : t.Holds (t.get .treeRoot) v.tree := h.holds
  have hrun := btreeTraverseAt_reading o (fun p e seen => seen ++ [(p, e.key)]) [] hholds
    (Nat.lt_succ_of_le hfuel)
  rw [btreeTraverse_eq, record, hrun]
  simp only [h.key, foldl_concat_map, List.nil_append]

theorem threading_represents {t : Btree} {v : BtreeView} (h : t.Represents v) :
    ∃ t', btreeBuildInOrderThreading t = some t' ∧ t'.Represents v ∧
      t'.ThreadsTo v.tree.toList := by
  obtain ⟨t', hrun, hshape, hthreads, -⟩ :=
    threading_threaded h.holds v.ordered.nodup h.height_le
  exact ⟨t', hrun, h.sameShape hshape, hthreads⟩

/-- **The operations on memory refine those on the view.** -/
theorem btreeOp_refines :
    Run.Refines btreeStep BtreeOp.Allowed BtreeView.step BtreeView.Allowed Btree.Represents where
  allow_iff op h := by
    cases op with
    | insert p e => exact not_congr h.linked_iff
    | threading => exact Iff.rfl
    | visit k => exact Iff.rfl
    | traverse o => exact Iff.rfl
  step {t v} op h hok := by
    cases op with
    | insert p e =>
      rcases btreeInsert_represents h e hok with ⟨t', hrun, hrep, -⟩
      refine ⟨t', ?_, ?_⟩
      · simp [btreeStep, BtreeView.step, hrun, dif_neg hok]
      · simpa [BtreeView.step, dif_neg hok] using hrep
    | threading =>
      rcases threading_represents h with ⟨t', hrun, hrep, -⟩
      exact ⟨t', by simp [btreeStep, BtreeView.step, hrun], hrep⟩
    | visit k =>
      refine ⟨t, ?_, h⟩
      simp only [btreeStep, btreeVisit_represents h, BtreeView.step]
      cases AvlTree.find v.key k v.tree <;> simp [record, Visitor.reading, h.key]
    | traverse o =>
      refine ⟨t, ?_, h⟩
      simp [btreeStep, btreeTraverse_record h, BtreeView.step]

theorem BtreeReachable.represents {t : Btree} (h : BtreeReachable t) :
    ∃ v, t.Represents v := by
  refine btreeOp_refines.reachable ?_ h
  rintro _ ⟨t₀, rfl⟩
  exact ⟨_, Btree.represents_init t₀⟩

/-! ## 4. Order, balance, result codes, look-up -/

/-- **AVL correctness.**  In every reachable tree keys are in order and the stored
    factors are the differences of height, in `{-1, 0, 1}`.  Insertion and threading
    never break, so no assertion fails; the result code of an insertion tells
    whether the key was absent.  A look-up calls its visitor on the one node with
    the key. -/
theorem btree_avl {t : Btree} (h : BtreeReachable t) :
    (∃ tr, t.Holds t.root tr ∧ tr.Ordered (fun p => (t.node p).key) ∧ tr.Balanced) ∧
    (∀ p e, ¬ t.Linked p → ∃ t' ret, btreeInsert (t.supply p e) p = some (t', ret) ∧
      (ret = 1 ∨ ret = 0) ∧ (ret = 1 ↔ e.key ∉ t.keys) ∧
      (ret = 1 → t'.keys = insert e.key t.keys ∧ ∀ q, t'.Linked q ↔ q = p ∨ t.Linked q) ∧
      (ret = 0 → t'.root = t.root ∧ ∀ q, t.Linked q → t'.node q = t.node q)) ∧
    (∃ t', btreeBuildInOrderThreading t = some t') ∧
    ∀ (σ : Type) (k : BtKey) (visit : Visitor σ) (s : σ),
      (k ∉ t.keys → btreeVisit t k visit s = some (t, s)) ∧
      ∀ p, t.Linked p → (t.node p).key = k → btreeVisit t k visit s = some (visit p t s) := by
  rcases h.represents with ⟨v, hv⟩
  refine ⟨⟨v.tree, hv.holds, v.ordered.congr fun p _ => hv.key p, v.balanced⟩, ?_, ?_, ?_⟩
  · intro p e hp
    have hp' : p ∉ v.tree.toList := mt hv.linked_iff.mpr hp
    rcases btreeInsert_represents hv e hp' with ⟨t', hrun, hrep, -, hsame⟩
    by_cases hk : e.key ∈ v.keys
    · rw [if_pos hk] at hrun
      rcases hsame hk with ⟨hroot, hnode⟩
      refine ⟨t', 0, hrun, Or.inr rfl, by simp [hv.mem_keys_iff, hk], by simp, ?_⟩
      intro _
      exact ⟨hroot, fun q hq => hnode q fun heq => hp (heq ▸ hq)⟩
    · rw [if_neg hk] at hrun
      refine ⟨t', 1, hrun, Or.inl rfl, by simp [hv.mem_keys_iff, hk], fun _ => ⟨?_, ?_⟩, by simp⟩
      · ext k
        rw [hrep.mem_keys_iff, Set.mem_insert_iff, hv.mem_keys_iff]
        exact v.mem_keys_insert hp' hk
      · intro q
        rw [hrep.linked_iff, hv.linked_iff]
        exact v.mem_insert_iff hp' hk
  · rcases threading_represents hv with ⟨t', hrun, -⟩
    exact ⟨t', hrun⟩
  · intro σ k visit s
    have hfind := AvlTree.find_eq_some_iff v.key v.ordered k
    rw [btreeVisit_represents hv k visit s]
    constructor
    · intro hk
      cases hf : AvlTree.find v.key k v.tree with
      | none => rfl
      | some p =>
        rcases (hfind p).mp hf with ⟨hp, hkey⟩
        exact absurd ⟨p, hv.linked_iff.mpr hp, (hv.key p).trans hkey⟩ hk
    · intro p hp hkey
      rw [(hfind p).mpr ⟨hv.linked_iff.mp hp, (hv.key p).symm.trans hkey⟩]

/-- A node as the caller fills it in. -/
def keyed (k : BtKey) : BtNodeEntry := { (default : BtNodeEntry) with key := k }

/-- Five insertions.  The third and the fifth go to where the threading before them has left a
    thread, and each of them ends in a double rotation. -/
def fiveInserts : List BtreeOp :=
  [.insert 0 (keyed 30), .insert 1 (keyed 10), .threading, .insert 2 (keyed 20),
    .insert 3 (keyed 25), .threading, .insert 4 (keyed 27)]

def noMemory : Btree := ⟨none, fun _ => default, 0⟩

/-- The tree they leave. -/
def fiveTree : AvlTree Ptr :=
  .node (.node .nil 1 0 .nil) 2 (-1) (.node (.node .nil 3 0 .nil) 4 0 (.node .nil 0 0 .nil))

theorem fiveInserts_allowed : Run.Allowed btreeStep BtreeOp.Allowed fiveInserts (btreeInit noMemory) := by
  refine (btreeOp_refines.allowed_iff (Btree.represents_init noMemory)).mpr ?_
  exact Run.allowed_cons (by decide) rfl (Run.allowed_cons (by decide) rfl
    (Run.allowed_cons (by decide) rfl (Run.allowed_cons (by decide) rfl
    (Run.allowed_cons (by decide) rfl (Run.allowed_cons (by decide) rfl
    (Run.allowed_cons (by decide) rfl trivial))))))

theorem fiveInserts_run : ∃ t v, Run.run btreeStep fiveInserts (btreeInit noMemory) =
      some (t, List.replicate 5 (.inserted 1)) ∧ BtreeReachable t ∧ t.Represents v ∧
      v.tree = fiveTree ∧ v.keys = [10, 20, 25, 27, 30] := by
  obtain ⟨t, hrun, hv⟩ := btreeOp_refines.run (Btree.represents_init noMemory) fiveInserts_allowed
  have hobs : (Run.runSpec BtreeView.step fiveInserts
      (.empty fun p => (noMemory.node p).key)).2 = List.replicate 5 (.inserted 1) := by decide
  rw [hobs] at hrun
  refine ⟨t, _, hrun, ?_, hv, by decide, by decide⟩
  exact (Run.Reachable.init ⟨noMemory, rfl⟩).run fiveInserts_allowed hrun

theorem btree_avl_five_nodes : ∃ t, Run.run btreeStep fiveInserts (btreeInit noMemory) =
      some (t, List.replicate 5 (.inserted 1)) ∧ t.Holds t.root fiveTree ∧
      (∃ tr, t.Holds t.root tr ∧ tr.Ordered (fun p => (t.node p).key) ∧ tr.Balanced) ∧
      (∃ t', btreeInsert (t.supply 5 (keyed 27)) 5 = some (t', 0)) ∧
      (∃ t', btreeInsert (t.supply 5 (keyed 26)) 5 = some (t', 1)) ∧
      ∃ t', btreeBuildInOrderThreading t = some t' := by
  obtain ⟨t, v, hrun, hreach, hv, htree, hkeys⟩ := fiveInserts_run
  obtain ⟨hbalanced, hinsert, hthreading, -⟩ := btree_avl hreach
  have hfree : ¬t.Linked 5 := by
    rw [hv.linked_iff, htree]
    decide
  have hmem : ∀ k, k ∈ t.keys ↔ k ∈ [10, 20, 25, 27, 30] := fun k => by
    rw [hv.mem_keys_iff, hkeys]
  refine ⟨t, hrun, htree ▸ hv.holds, hbalanced, ?_, ?_, hthreading⟩
  · obtain ⟨t', ret, hins, hret, hiff, -⟩ := hinsert 5 (keyed 27) hfree
    have h27 : ret ≠ 1 := fun h => hiff.mp h ((hmem _).mpr (by decide))
    rw [hret.resolve_left h27] at hins
    exact ⟨t', hins⟩
  · obtain ⟨t', ret, hins, -, hiff, -⟩ := hinsert 5 (keyed 26) hfree
    have h26 : ret = 1 := hiff.mpr (mt (hmem _).mp (by decide))
    rw [h26] at hins
    exact ⟨t', hins⟩

/-! ## 5. The stackless traversal -/

/-- **The stackless traversal is the in-order one.**  After threading, it visits
    the nodes of the tree in ascending key order, each once, then `NULL`; the
    recursive in-order traversal visits the same nodes in the same order. -/
theorem btreeThreadTraverse_inOrder {t : Btree} (h : BtreeReachable t) :
    ∃ t' ps, btreeBuildInOrderThreading t = some t' ∧
      (∀ p, p ∈ ps ↔ t.Linked p) ∧
      ps.Pairwise (fun p q => (t.node p).key < (t.node q).key) ∧
      btreeInOrderTraverse t' (Visitor.reading fun p _ seen => seen ++ [p]) [] = some (t', ps) ∧
      ∀ (σ : Type) (visit : StopVisitor σ) (s : σ),
        btreeThreadTraverse t' t'.root visit s = some (visitUntil visit ps s) := by
  rcases h.represents with ⟨v, hv⟩
  rcases threading_represents hv with ⟨t', hrun, hv', hthreads⟩
  have hfuel := hv'.height_le
  refine ⟨t', v.tree.toList, hrun, fun p => hv.linked_iff.symm, ?_, ?_, ?_⟩
  · have hpair := (AvlTree.ordered_iff_pairwise v.key v.tree).mp v.ordered
    simpa only [hv.key] using hpair
  · have hfold := foldl_concat_map (fun p : Ptr => p) v.tree.toList []
    rw [btreeInOrderTraverse, btreeTraverseAt_reading .inner _ [] hv'.holds (by omega),
      AvlTree.walk_inner, hfold, List.map_id', List.nil_append]
  · intro σ visit s
    exact btreeThreadTraverse_threaded hv'.holds hthreads hv'.length_le visit s

theorem btreeThreadTraverse_inOrder_five_nodes : ∃ t t',
    Run.run btreeStep fiveInserts (btreeInit noMemory) = some (t, List.replicate 5 (.inserted 1)) ∧
      btreeBuildInOrderThreading t = some t' ∧
      ∀ (σ : Type) (visit : StopVisitor σ) (s : σ),
        btreeThreadTraverse t' t'.root visit s = some (visitUntil visit [1, 2, 3, 4, 0] s) := by
  obtain ⟨t, v, hrun, hreach, hv, htree, -⟩ := fiveInserts_run
  obtain ⟨t', ps, hthreading, hps, hpair, -, hvisit⟩ := btreeThreadTraverse_inOrder hreach
  have hlist : ps = [1, 2, 3, 4, 0] := by
    have hordered := (AvlTree.ordered_iff_pairwise v.key v.tree).mp v.ordered
    simp only [htree, ← hv.key] at hordered
    have hperm : ps.Perm fiveTree.toList := by
      refine (List.perm_ext_iff_of_nodup ?_ (htree ▸ v.ordered.nodup)).mpr fun p => ?_
      · exact hpair.imp fun {p q} h (heq : p = q) => absurd h (heq ▸ lt_irrefl _)
      · rw [hps, hv.linked_iff, htree]
    exact hperm.eq_of_pairwise (fun p q _ _ h h' => absurd h (lt_asymm h')) hpair hordered
  exact ⟨t, t', hrun, hthreading, hlist ▸ hvisit⟩

/-! ## 6. Threading is not observable -/

/-- `q` hangs below `p` by real links. -/
def Btree.Below (t : Btree) (p q : Ptr) : Prop :=
  t.Reaches (t.node p).llink q ∨ t.Reaches (t.rightChild p) q

/-- The visitor may do anything to the node it gets, such as free it. -/
def Visitor.Local (visit : Visitor σ) : Prop :=
  ∀ p t s q, q ≠ p → (visit p t s).1.node q = t.node q

theorem Visitor.Local.visitAll {visit : Visitor σ} (hv : visit.Local) (ps : List Ptr)
    (u : Btree × σ) {q : Ptr} (hq : q ∉ ps) : (visitAll visit ps u).1.node q = u.1.node q := by
  induction ps generalizing u with
  | nil => rfl
  | cons p ps ih =>
    rw [List.mem_cons, not_or] at hq
    exact (ih _ hq.2).trans (hv p u.1 u.2 q hq.1)

/-- Freeing on the way is safe after the subtrees: no freed node is read again, and
    no thread is followed into one. -/
theorem btreeTraverseAt_post_local {visit : Visitor σ} (hv : visit.Local) (tr : AvlTree Ptr) :
    ∀ (fuel : Nat) (link : LinkAddr) (t : Btree) (s : σ), t.Holds (t.get link) tr →
      tr.toList.Nodup → tr.height < fuel →
      btreeTraverseAt .post visit fuel link t s = some (visitAll visit (tr.walk .post) (t, s)) := by
  induction tr with
  | nil =>
    intro fuel link t s h _ hfuel
    rcases Nat.exists_eq_succ_of_ne_zero (Nat.ne_of_gt hfuel) with ⟨fuel, rfl⟩
    have hnone : t.get link = none := h
    simp [btreeTraverseAt, hnone, AvlTree.walk]
  | node l p bf r ihl ihr =>
    intro fuel link t s h hn hfuel
    rcases Nat.exists_eq_succ_of_ne_zero (Nat.ne_of_gt (Nat.zero_lt_of_lt hfuel)) with ⟨fuel, rfl⟩
    simp only [AvlTree.height_node] at hfuel
    simp only [AvlTree.toList_node, List.nodup_append, List.nodup_cons, List.mem_cons] at hn
    rcases hn with ⟨hnl, ⟨hpr, hnr⟩, hlp⟩
    have hleft : (if (t.node p).llink.isSome then btreeTraverseAt .post visit fuel (.llink p) t s
        else some (t, s)) = some (visitAll visit (l.walk .post) (t, s)) := by
      by_cases hs : (t.node p).llink.isSome
      · rw [if_pos hs, ihl fuel (.llink p) t s h.llink hnl (by omega)]
      · have hl : l = .nil := h.llink.none_iff.mp (by simpa using hs)
        rw [if_neg hs, hl]
        rfl
    -- the left subtree may be gone by now; the node and its right subtree are not
    let u := visitAll visit (l.walk .post) (t, s)
    have hkeep : ∀ q, q ∉ l.toList → u.1.node q = t.node q := fun q hq =>
      hv.visitAll (l.walk .post) (t, s) (mt (AvlTree.mem_walk_iff .post).mp hq)
    have hp : u.1.node p = t.node p := hkeep p fun hm => hlp p hm p (Or.inl rfl) rfl
    have hrc : u.1.rightChild p = t.rightChild p := Btree.rightChild_congr hp
    have hh : u.1.Holds (u.1.rightChild p) r := by
      rw [hrc]
      exact h.rightChild.congr fun q hq => hkeep q fun hm => hlp q hm q (Or.inr hq) rfl
    have hright : (if (u.1.node p).rlink.isSome && !(u.1.node p).rflag then
        btreeTraverseAt .post visit fuel (.rlink p) u.1 u.2 else some u) =
        some (visitAll visit (r.walk .post) u) := by
      rw [Btree.rlink_isSome_iff]
      by_cases hs : (u.1.rightChild p).isSome
      · rcases Option.isSome_iff_exists.mp hs with ⟨c, hc⟩
        rcases Btree.rlink_of_rightChild hc with ⟨hflag, -⟩
        rw [Btree.rightChild_of_not_rflag hflag] at hh
        rw [if_pos hs, ihr fuel (.rlink p) u.1 u.2 hh hnr (by omega)]
      · have hr : r = .nil := hh.none_iff.mp (by simpa using hs)
        rw [if_neg hs, hr]
        rfl
    simp only [btreeTraverseAt, h.1, reduceCtorEq, if_false, hleft, Option.bind_eq_bind,
      Option.bind_some]
    rw [hright, Option.bind_some, AvlTree.walk]
    simp [visitAll_append, u]

/-- A node comes after everything below it. -/
theorem Btree.Holds.post_order {t : Btree} {tr : AvlTree Ptr} {link : Option Ptr} {p q : Ptr}
    (h : t.Holds link tr) (hp : p ∈ tr.toList) (hq : t.Below p q) :
    ∃ xs ys, tr.walk .post = xs ++ p :: ys ∧ q ∈ xs := by
  induction tr generalizing link with
  | nil => simp at hp
  | node l a bf r ihl ihr =>
    have hwalk : (AvlTree.node l a bf r).walk .post = l.walk .post ++ r.walk .post ++ [a] := by
      simp [AvlTree.walk]
    rw [hwalk]
    simp only [AvlTree.toList_node, List.mem_append, List.mem_cons] at hp
    rcases hp with hp | rfl | hp
    · rcases ihl h.llink hp with ⟨xs, ys, hl, hmem⟩
      exact ⟨xs, ys ++ r.walk .post ++ [a], by simp [hl], hmem⟩
    · refine ⟨l.walk .post ++ r.walk .post, [], rfl, ?_⟩
      rw [List.mem_append, AvlTree.mem_walk_iff, AvlTree.mem_walk_iff]
      exact hq.imp h.llink.reaches_iff.mp h.rightChild.reaches_iff.mp
    · rcases ihr h.rightChild hp with ⟨xs, ys, hr, hmem⟩
      exact ⟨l.walk .post ++ xs, ys ++ [a], by simp [hr], by simp [hmem]⟩

def BtreeOp.isThreading : BtreeOp → Bool
  | .threading => true
  | _ => false

theorem threading_silent : Run.Silent BtreeView.step BtreeOp.isThreading := by
  intro v op hop
  cases op with
  | threading => rfl
  | _ => exact absurd hop Bool.false_ne_true

/-- **Threading is transparent.**  Dropping the threading operations from a run
    changes no observation.  At its end a post-order traversal visits each node of
    the tree once, after all nodes below it, whatever the visitor does to the nodes
    it gets. -/
theorem btree_threading_transparent (t₀ : Btree) (ops : List BtreeOp)
    (hall : Run.Allowed btreeStep BtreeOp.Allowed (ops.filter fun op => !op.isThreading)
      (btreeInit t₀)) :
    ∃ t t' obs, Run.run btreeStep ops (btreeInit t₀) = some (t, obs) ∧
      Run.run btreeStep (ops.filter fun op => !op.isThreading) (btreeInit t₀) = some (t', obs) ∧
      ∃ ps : List Ptr, ps.Nodup ∧ (∀ p, p ∈ ps ↔ t.Linked p) ∧
        (∀ p q, t.Linked p → t.Below p q → ∃ xs ys, ps = xs ++ p :: ys ∧ q ∈ xs) ∧
        ∀ (σ : Type) (visit : Visitor σ) (s : σ), visit.Local →
          btreePostOrderTraverse t visit s = some (visitAll visit ps (t, s)) := by
  have hinit := Btree.represents_init t₀
  have hok : ∀ v op, BtreeOp.isThreading op → BtreeView.Allowed v op := by
    intro v op hop
    cases op with
    | insert p e => exact absurd hop Bool.false_ne_true
    | _ => trivial
  obtain ⟨t, t', obs, hrun, hrun'⟩ :=
    btreeOp_refines.run_filter_silent threading_silent hok hinit hall
  have hall' := btreeOp_refines.allowed_of_filter threading_silent hok hinit hinit hall
  rcases btreeOp_refines.run hinit hall' with ⟨t₁, hrun₁, hv⟩
  obtain rfl : t = t₁ := congrArg Prod.fst (Option.some.inj (hrun.symm.trans hrun₁))
  let v := (Run.runSpec BtreeView.step ops (.empty fun p => (t₀.node p).key)).1
  refine ⟨t, t', obs, hrun, hrun', v.tree.walk .post, ?_, ?_, ?_, ?_⟩
  · exact (v.tree.walk_perm_toList .post).nodup_iff.mpr v.ordered.nodup
  · intro p
    rw [hv.linked_iff, AvlTree.mem_walk_iff]
  · intro p q hp hq
    exact hv.holds.post_order (hv.linked_iff.mp hp) hq
  · intro σ visit s hlocal
    exact btreeTraverseAt_post_local hlocal _ (t.brk + 1) .treeRoot t s hv.holds
      v.ordered.nodup (Nat.lt_succ_of_le hv.height_le)

/-- What is asked of the tree afterwards. -/
def fiveLooks : List BtreeOp := [.visit 25, .traverse .inner, .traverse .post]

theorem btree_threading_transparent_five_nodes : ∃ t t' obs,
    Run.run btreeStep (fiveInserts ++ fiveLooks) (btreeInit noMemory) = some (t, obs) ∧
      Run.run btreeStep ((fiveInserts ++ fiveLooks).filter fun op => !op.isThreading)
        (btreeInit noMemory) = some (t', obs) ∧
      obs = List.replicate 5 (.inserted 1) ++ [.visited [(3, 25)],
        .visited [(1, 10), (2, 20), (3, 25), (4, 27), (0, 30)],
        .visited [(1, 10), (3, 25), (0, 30), (4, 27), (2, 20)]] := by
  have hall : Run.Allowed btreeStep BtreeOp.Allowed
      ((fiveInserts ++ fiveLooks).filter fun op => !op.isThreading) (btreeInit noMemory) := by
    refine (btreeOp_refines.allowed_iff (Btree.represents_init noMemory)).mpr ?_
    exact Run.allowed_cons (by decide) rfl (Run.allowed_cons (by decide) rfl
      (Run.allowed_cons (by decide) rfl (Run.allowed_cons (by decide) rfl
      (Run.allowed_cons (by decide) rfl (Run.allowed_cons trivial rfl
      (Run.allowed_cons trivial rfl (Run.allowed_cons trivial rfl trivial)))))))
  obtain ⟨t, t', obs, hrun, hrun', -⟩ := btree_threading_transparent noMemory
    (fiveInserts ++ fiveLooks) hall
  obtain ⟨t₁, hrun₁, -⟩ := btreeOp_refines.run (Btree.represents_init noMemory) hall
  have hobs := congrArg Prod.snd (Option.some.inj (hrun'.symm.trans hrun₁))
  have hspec : (Run.runSpec BtreeView.step ((fiveInserts ++ fiveLooks).filter fun op =>
      !op.isThreading) (.empty fun p => (noMemory.node p).key)).2 =
      List.replicate 5 (.inserted 1) ++ [.visited [(3, 25)],
        .visited [(1, 10), (2, 20), (3, 25), (4, 27), (0, 30)],
        .visited [(1, 10), (3, 25), (0, 30), (4, 27), (2, 20)]] := by
    decide
  exact ⟨t, t', obs, hrun, hrun', hobs.trans hspec⟩

end OServer
