/-
  OServer/Btree.lean
  ==================
  **The threaded AVL tree of `btree.c`.**

  Nodes live in memory and are named by their addresses.  `bt_node_entry_t **`
  arguments are modelled as they are used: `LinkAddr` says in which field a link
  is stored, so `btree_internal_insert(&(*root)->rlink, node)` gets the address
  of the field and writes through it.

  A node's right link is either a real child or, when `rflag` is set, a thread to
  the in-order successor.  `none` as the result of an operation stands for
  everything C would not survive: a dereferenced `NULL`, a failed `assert`, or a
  walk that is still going after as many levels as there are addresses in use
  (`brk`), which only a cyclic structure can cause.
-/
import OServer.Lib.Avl
import Mathlib.Logic.Function.Basic

namespace OServer

/-! ## 1. Nodes, links, memory -/

/-- The address of a node; `NULL` is `none : Option Ptr`. -/
abbrev Ptr := Nat

/-- `bt_key_t` is `int16_t`. -/
abbrev BtKey := Int16

instance btKeyLinearOrder : LinearOrder Int16 where
  le_refl := Int16.le_refl
  le_trans _ _ _ := Int16.le_trans
  le_antisymm _ _ := Int16.le_antisymm
  le_total := Int16.le_total
  lt_iff_le_not_ge a b := by grind
  toDecidableLE := inferInstance
  toDecidableEq := inferInstance
  toDecidableLT := inferInstance

structure BtNodeEntry where
  key : BtKey
  balanceFactor : Int
  rflag : Bool
  llink : Option Ptr
  rlink : Option Ptr
deriving DecidableEq, Repr, Inhabited

/-- Where a `bt_node_entry_t *` is stored: in the `root` of the tree or in one of
    the two links of a node. -/
inductive LinkAddr where
  | treeRoot
  | llink (p : Ptr)
  | rlink (p : Ptr)
deriving DecidableEq, Repr

/-- A `btree_t` with the memory its nodes are in.  All node addresses handed to
    the tree so far are below `brk`. -/
structure Btree where
  root : Option Ptr
  node : Ptr → BtNodeEntry
  brk : Ptr

namespace Btree

/-- Overwrite the node at `p`. -/
def modify (t : Btree) (p : Ptr) (f : BtNodeEntry → BtNodeEntry) : Btree :=
  { t with node := Function.update t.node p (f (t.node p)) }

/-- Read a link, `*link`. -/
def get (t : Btree) : LinkAddr → Option Ptr
  | .treeRoot => t.root
  | .llink p => (t.node p).llink
  | .rlink p => (t.node p).rlink

/-- Write a link, `*link = v`. -/
def put (t : Btree) (link : LinkAddr) (v : Option Ptr) : Btree :=
  match link with
  | .treeRoot => { t with root := v }
  | .llink p => t.modify p fun e => { e with llink := v }
  | .rlink p => t.modify p fun e => { e with rlink := v }

/-- The right subtree's link: a right link with `rflag` set is a thread. -/
def rightChild (t : Btree) (p : Ptr) : Option Ptr :=
  if (t.node p).rflag then none else (t.node p).rlink

@[simp] theorem modify_root (t : Btree) (p : Ptr) (f : BtNodeEntry → BtNodeEntry) :
    (t.modify p f).root = t.root := rfl
@[simp] theorem modify_brk (t : Btree) (p : Ptr) (f : BtNodeEntry → BtNodeEntry) :
    (t.modify p f).brk = t.brk := rfl
@[simp] theorem modify_node_self (t : Btree) (p : Ptr) (f : BtNodeEntry → BtNodeEntry) :
    (t.modify p f).node p = f (t.node p) := by simp [modify]
theorem modify_node_ne (t : Btree) {p q : Ptr} (f : BtNodeEntry → BtNodeEntry) (h : q ≠ p) :
    (t.modify p f).node q = t.node q := by simp [modify, h]
theorem modify_node (t : Btree) (p q : Ptr) (f : BtNodeEntry → BtNodeEntry) :
    (t.modify p f).node q = if q = p then f (t.node p) else t.node q := by
  by_cases h : q = p <;> simp [modify, h]

@[simp] theorem get_treeRoot (t : Btree) : t.get .treeRoot = t.root := rfl
@[simp] theorem get_llink (t : Btree) (p : Ptr) : t.get (.llink p) = (t.node p).llink := rfl
@[simp] theorem get_rlink (t : Btree) (p : Ptr) : t.get (.rlink p) = (t.node p).rlink := rfl
@[simp] theorem put_brk (t : Btree) (link : LinkAddr) (v : Option Ptr) :
    (t.put link v).brk = t.brk := by cases link <;> rfl
@[simp] theorem get_put (t : Btree) (link : LinkAddr) (v : Option Ptr) :
    (t.put link v).get link = v := by cases link <;> simp [put]

end Btree

/-! ## 2. Insertion -/

/-- `e_insert_result_t`. -/
inductive InsertResult where
  | exist | ok | left | right | balanced
deriving DecidableEq, Repr

def InsertResult.toInt : InsertResult → Int
  | exist => -1
  | ok => 1
  | left => 2
  | right => 3
  | balanced => 4

def btreeInit (t : Btree) : Btree := { t with root := none }

def btreeLeftRotate (t : Btree) (root : LinkAddr) : Option Btree := do
  let p ← t.get root
  let newRoot ← (t.node p).rlink
  let t := t.put (.rlink p) (t.node newRoot).llink
  let t := t.put (.llink newRoot) (some p)
  -- from here on `new_root->llink` is the old root
  let nb := (t.node newRoot).balanceFactor
  let t := t.modify p fun e =>
    { e with balanceFactor := e.balanceFactor + (if nb < 0 then 1 - nb else 1) }
  let pb := (t.node p).balanceFactor
  let t := t.modify newRoot fun e =>
    { e with balanceFactor := e.balanceFactor + (if 0 < pb then 1 + pb else 1) }
  some (t.put root (some newRoot))

def btreeRightRotate (t : Btree) (root : LinkAddr) : Option Btree := do
  let p ← t.get root
  let newRoot ← (t.node p).llink
  let t := t.put (.llink p) (if (t.node newRoot).rflag then none else (t.node newRoot).rlink)
  let t := t.modify newRoot fun e => { e with rflag := false }
  let t := t.put (.rlink newRoot) (some p)
  let t := t.put root (some newRoot)
  let nb := (t.node newRoot).balanceFactor
  let t := t.modify p fun e =>
    { e with balanceFactor := e.balanceFactor - (if 0 < nb then 1 + nb else 1) }
  let pb := (t.node p).balanceFactor
  some (t.modify newRoot fun e =>
    { e with balanceFactor := e.balanceFactor - (if pb < 0 then 1 - pb else 1) })

/-- `assert((*root)->balance_factor == 0)`. -/
def assertBalanced (t : Btree) (root : LinkAddr) : Option Btree := do
  let p ← t.get root
  if (t.node p).balanceFactor = 0 then some t else none

/-- What follows a factor of `-2`: the inner grandchild is rotated up first when
    the right subtree is left-heavy. -/
def rebalanceRight (t : Btree) (root : LinkAddr) (p : Ptr) (ret : InsertResult) :
    Option Btree := do
  let t ← (if ret = .left then btreeRightRotate t (.rlink p) else some t)
  let t ← btreeLeftRotate t root
  assertBalanced t root

/-- What follows a factor of `2`. -/
def rebalanceLeft (t : Btree) (root : LinkAddr) (p : Ptr) (ret : InsertResult) :
    Option Btree := do
  let t ← (if ret = .right then btreeLeftRotate t (.llink p) else some t)
  let t ← btreeRightRotate t root
  assertBalanced t root

/-- The code reported upwards is read off the factor of the new `*root`. -/
def reportGrowth (t : Btree) (root : LinkAddr) (side : InsertResult) :
    Option (Btree × InsertResult) := do
  let p ← t.get root
  some (t, if (t.node p).balanceFactor ≠ 0 then side else .balanced)

/-- The `switch(ret)` of `btree_internal_insert` after the call on the right link
    of the node `p` that `*root` points to. -/
def settleRight (t : Btree) (root : LinkAddr) (p : Ptr) (ret : InsertResult) :
    Option (Btree × InsertResult) :=
  match ret with
  | .exist | .balanced => some (t, ret)
  | .ok | .left | .right => do
      let t := t.modify p fun e => { e with balanceFactor := e.balanceFactor - 1 }
      let t ← (if (t.node p).balanceFactor = -2 then rebalanceRight t root p ret else some t)
      reportGrowth t root .right

/-- The `switch(ret)` after the call on the left link. -/
def settleLeft (t : Btree) (root : LinkAddr) (p : Ptr) (ret : InsertResult) :
    Option (Btree × InsertResult) :=
  match ret with
  | .exist | .balanced => some (t, ret)
  | .ok | .left | .right => do
      let t := t.modify p fun e => { e with balanceFactor := e.balanceFactor + 1 }
      let t ← (if (t.node p).balanceFactor = 2 then rebalanceLeft t root p ret else some t)
      reportGrowth t root .left

/-- A thread in the right link gives way before the insertion goes right. -/
def clearThread (t : Btree) (p : Ptr) : Btree :=
  if (t.node p).rflag then t.modify p fun e => { e with rflag := false, rlink := none } else t

/-- `btree_internal_insert`; the first argument bounds the recursion. -/
def btreeInternalInsert : Nat → Btree → LinkAddr → Ptr → Option (Btree × InsertResult)
  | 0, _, _, _ => none
  | fuel + 1, t, root, node =>
    match t.get root with
    | none => some (t.put root (some node), .ok)
    | some p =>
        if (t.node node).key = (t.node p).key then some (t, .exist)
        else if (t.node p).key < (t.node node).key then do
          let r ← btreeInternalInsert fuel (clearThread t p) (.rlink p) node
          settleRight r.1 root p r.2
        else do
          let r ← btreeInternalInsert fuel t (.llink p) node
          settleLeft r.1 root p r.2

/-- `btree_insert`: the links, factor and flag of the new node are reset first. -/
def btreeInsert (t : Btree) (node : Ptr) : Option (Btree × Int) := do
  let t := t.modify node fun e =>
    { e with llink := none, rlink := none, balanceFactor := 0, rflag := false }
  let r ← btreeInternalInsert (t.brk + 1) t .treeRoot node
  some (r.1, if 0 < r.2.toInt then 1 else 0)

/-! ## 3. Traversals and look-up -/

/-- A visitor gets the node and may change memory and its own data. -/
abbrev Visitor (σ : Type) := Ptr → Btree → σ → Btree × σ

/-- A visitor that reads nodes only. -/
def Visitor.reading {σ : Type} (f : Ptr → BtNodeEntry → σ → σ) : Visitor σ :=
  fun p t s => (t, f p (t.node p) s)

section Traverse
variable {σ : Type}

/-- The common shape of the three recursive traversals: `o` says where the root
    is visited.  A right link is followed only when it is no thread. -/
def btreeTraverseAt (o : Avl.Order) (visit : Visitor σ) :
    Nat → LinkAddr → Btree → σ → Option (Btree × σ)
  | 0, _, _, _ => none
  | fuel + 1, tree, t, s =>
    match t.get tree with
    | none => some (t, s)
    | some p => do
        let u := if o = .pre then visit p t s else (t, s)
        let u ← (if (u.1.node p).llink.isSome then
          btreeTraverseAt o visit fuel (.llink p) u.1 u.2 else some u)
        let u := if o = .inner then visit p u.1 u.2 else u
        let u ← (if (u.1.node p).rlink.isSome && !(u.1.node p).rflag then
          btreeTraverseAt o visit fuel (.rlink p) u.1 u.2 else some u)
        some (if o = .post then visit p u.1 u.2 else u)

def btreePreOrderTraverse (t : Btree) (visit : Visitor σ) (data : σ) : Option (Btree × σ) :=
  btreeTraverseAt .pre visit (t.brk + 1) .treeRoot t data

def btreeInOrderTraverse (t : Btree) (visit : Visitor σ) (data : σ) : Option (Btree × σ) :=
  btreeTraverseAt .inner visit (t.brk + 1) .treeRoot t data

def btreePostOrderTraverse (t : Btree) (visit : Visitor σ) (data : σ) : Option (Btree × σ) :=
  btreeTraverseAt .post visit (t.brk + 1) .treeRoot t data

/-- The loop of `btree_visit`; `next` is the node it is at. -/
def btreeVisitFrom (key : BtKey) (visit : Visitor σ) :
    Nat → Option Ptr → Btree → σ → Option (Btree × σ)
  | 0, _, _, _ => none
  | _ + 1, none, t, s => some (t, s)
  | fuel + 1, some next, t, s =>
      if (t.node next).key = key then some (visit next t s)
      else if (t.node next).key < key then
        if (t.node next).rflag then btreeVisitFrom key visit fuel none t s
        else btreeVisitFrom key visit fuel (t.node next).rlink t s
      else btreeVisitFrom key visit fuel (t.node next).llink t s

def btreeVisit (t : Btree) (key : BtKey) (visit : Visitor σ) (data : σ) :
    Option (Btree × σ) :=
  btreeVisitFrom key visit (t.brk + 1) t.root t data

/-! ## 4. Threading -/

/-- `btree_node_threading`; the data is the node visited before, `*pre`. -/
def btreeNodeThreading : Visitor (Option Ptr) := fun node t pre =>
  let t := clearThread t node
  let t :=
    match pre with
    | none => t
    | some q =>
        if (t.node q).rlink = none ∨ (t.node q).rflag then
          t.modify q fun e => { e with rlink := some node, rflag := true }
        else t
  (t, some node)

def btreeBuildInOrderThreading (t : Btree) : Option Btree := do
  let r ← btreeInOrderTraverse t btreeNodeThreading none
  some r.1

/-- `while(node->llink) node = node->llink;` -/
def leftmost (t : Btree) : Nat → Ptr → Option Ptr
  | 0, _ => none
  | fuel + 1, p =>
    match (t.node p).llink with
    | none => some p
    | some q => leftmost t fuel q

/-- A `visit_func2`: it may stop the traversal, and is called with `NULL` at the
    end.  The visitors of the program do not touch the links. -/
abbrev StopVisitor (σ : Type) := Option Ptr → σ → σ × Bool

/-- Where `btree_thread_traverse` is: at the test of its outer loop, or at the
    test of the inner loop that follows threads. -/
inductive ThreadState where
  | outer (node : Option Ptr)
  | inner (node : Ptr)
deriving DecidableEq, Repr

def threadLoop (t : Btree) (visit : StopVisitor σ) : Nat → ThreadState → σ → Option σ
  | 0, _, _ => none
  | _ + 1, .outer none, s => some (visit none s).1
  | fuel + 1, .outer (some p), s => do
      let p ← leftmost t (t.brk + 1) p
      let r := visit (some p) s
      if r.2 then some r.1 else threadLoop t visit fuel (.inner p) r.1
  | fuel + 1, .inner p, s =>
      if (t.node p).rflag then do
        let q ← (t.node p).rlink
        let r := visit (some q) s
        if r.2 then some r.1 else threadLoop t visit fuel (.inner q) r.1
      else threadLoop t visit fuel (.outer (t.node p).rlink) s

/-- `btree_thread_traverse`, started at the node `*tree`. -/
def btreeThreadTraverse (t : Btree) (tree : Option Ptr) (visit : StopVisitor σ) (data : σ) :
    Option σ :=
  threadLoop t visit (2 * t.brk + 2) (.outer tree) data

end Traverse

end OServer
