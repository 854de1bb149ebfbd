/-
  OServer/Heap.lean
  =================
  **Link words and the doubly linked list (`list.c`).**

  List nodes, pool objects and memory blocks begin with a link word.  An object that is
  in a list and later in a pool uses one word for both, so there is one map of these
  words for the whole memory.

    * `Heap.listInit_ring`, `Heap.listAppend_ring`, `Heap.listRemove_ring` — what the
      operations do to the nodes that the list leads to; the words of other nodes stay.
-/
import OServer.Lib.Linked
import OServer.Btree

namespace OServer

/-- `next` is the first word at an address, `prev` the second one; `none` is `NULL`. -/
@[ext]
structure Heap where
  next : Ptr → Option Ptr
  prev : Ptr → Option Ptr

namespace Heap

def setNext (m : Heap) (p : Ptr) (v : Option Ptr) : Heap :=
  { m with next := Function.update m.next p v }

def setPrev (m : Heap) (p : Ptr) (v : Option Ptr) : Heap :=
  { m with prev := Function.update m.prev p v }

@[simp] theorem setNext_next (m : Heap) (p : Ptr) (v : Option Ptr) :
    (m.setNext p v).next = Function.update m.next p v := rfl
@[simp] theorem setNext_prev (m : Heap) (p : Ptr) (v : Option Ptr) :
    (m.setNext p v).prev = m.prev := rfl
@[simp] theorem setPrev_next (m : Heap) (p : Ptr) (v : Option Ptr) :
    (m.setPrev p v).next = m.next := rfl
@[simp] theorem setPrev_prev (m : Heap) (p : Ptr) (v : Option Ptr) :
    (m.setPrev p v).prev = Function.update m.prev p v := rfl

/-! ## 1. `list.c` -/

/-- `list` is the address of `list->head`. -/
def listInit (m : Heap) (list : Ptr) : Heap :=
  (m.setNext list (some list)).setPrev list (some list)

/-- `none` where `NULL` is dereferenced. -/
def listAppend (m : Heap) (list node : Ptr) : Option Heap := do
  let m := m.setNext node (some list)
  let m := m.setPrev node (m.prev list)
  let last ← m.prev list
  let m := m.setNext last (some node)
  some (m.setPrev list (some node))

def listRemove (m : Heap) (node : Ptr) : Option Heap := do
  let before ← m.prev node
  let m := m.setNext before (m.next node)
  let behind ← m.next node
  some (m.setPrev behind (m.prev node))

/-! ## 2. What they do to the nodes of the list -/

/-- The list whose head is at `list` consists of `nodes`. -/
def IsList (m : Heap) (list : Ptr) (nodes : List Ptr) : Prop := DoublyLinked m.next m.prev list nodes

/-- The link words are the same outside `ps`. -/
def SameOutside (ps : List Ptr) (m m' : Heap) : Prop := ∀ p ∉ ps, m'.next p = m.next p

theorem SameOutside.linked {ps l : List Ptr} {m m' : Heap} {p q : Option Ptr}
    (h : SameOutside ps m m') (hl : Linked m.next p l q) (hdisj : ∀ x ∈ l, x ∉ ps) :
    Linked m'.next p l q :=
  hl.congr fun x hx => h x (hdisj x hx)

theorem SameOutside.setNext {ps : List Ptr} {m m' : Heap} {p : Ptr} {v : Option Ptr}
    (h : SameOutside ps m m') (hp : p ∈ ps) : SameOutside ps m (m'.setNext p v) := by
  intro q hq
  have hne : q ≠ p := fun heq => hq (heq ▸ hp)
  rw [setNext_next, Function.update_of_ne hne]
  exact h q hq

theorem SameOutside.refl (ps : List Ptr) (m : Heap) : SameOutside ps m m := fun _ _ => rfl

variable {m : Heap} {list node : Ptr} {nodes before behind : List Ptr}

theorem listInit_ring (m : Heap) (list : Ptr) : (m.listInit list).IsList list [] :=
  DoublyLinked.init m.next m.prev list

theorem listAppend_ring (h : m.IsList list nodes) (hnode : node ∉ list :: nodes) :
    ∃ m', m.listAppend list node = some m' ∧ m'.IsList list (nodes ++ [node]) ∧
      SameOutside (list :: node :: nodes) m m' := by
  have hne : list ≠ node := fun heq => hnode (heq ▸ List.mem_cons_self)
  obtain ⟨a, last, ha, hlast, -⟩ := h.exists_last
  have hmem : last ∈ list :: nodes := by
    rw [ha]
    exact List.mem_append_right _ List.mem_cons_self
  have hread : Function.update m.prev node (m.prev list) list = some last := by
    rw [Function.update_of_ne hne]
    exact hlast
  refine ⟨((((m.setNext node (some list)).setPrev node (m.prev list)).setNext last
    (some node)).setPrev list (some node)), ?_, h.append hnode hlast, ?_⟩
  · simp [listAppend, hread]
  · -- the words of the previous pointers are not among those that are compared
    have hfirst : SameOutside (list :: node :: nodes) m (m.setNext node (some list)) :=
      (SameOutside.refl _ m).setNext (List.mem_cons_of_mem _ List.mem_cons_self)
    apply hfirst.setNext
    rcases List.mem_cons.mp hmem with rfl | hmem
    · exact List.mem_cons_self
    · exact List.mem_cons_of_mem _ (List.mem_cons_of_mem _ hmem)

/-- The word of the node itself stays as it is. -/
theorem listRemove_ring (h : m.IsList list (before ++ node :: behind)) :
    ∃ m', m.listRemove node = some m' ∧ m'.IsList list (before ++ behind) ∧
      SameOutside (list :: before) m m' := by
  obtain ⟨⟨a, y, ha, hy⟩, b, z, hb, hz⟩ := h.exists_neighbours
  have hmem : y ∈ list :: before := by
    rw [ha]
    exact List.mem_append_right _ List.mem_cons_self
  have hne : node ≠ y := by
    rintro rfl
    have hnodup := h.nodup
    rw [← List.cons_append] at hnodup
    exact (List.nodup_append.mp hnodup).2.2 node hmem node List.mem_cons_self rfl
  refine ⟨(m.setNext y (m.next node)).setPrev z (m.prev node), ?_, h.remove hy hz, ?_⟩
  · simp [listRemove, hy, hz, Function.update_of_ne hne]
  · exact (SameOutside.refl _ m).setNext hmem

end Heap

end OServer
