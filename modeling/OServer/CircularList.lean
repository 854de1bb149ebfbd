/-
  OServer/CircularList.lean
  =========================
  **Lists and stacks (`list.c`, `stack.c`).**

  A list and a stack are the same ring of nodes around a head.  Nodes are appended at the
  back, taken from the front of a list and from the back of a stack, and taken out
  anywhere.  A traversal reads where it goes next before it calls its visitor, so that
  the visitor may take out the node it is called for.

    * `listStep_refines`      — the operations do to the ring what they do to the sequence
                                of its nodes;
    * `traverseLoop_visits`   — the nodes that a traversal visits;
    * `circularList_sequence` — both for every sequence of operations.
-/
import OServer.ObjectPool

namespace OServer

open Run

namespace Heap

/-! ## 1. The rest of `list.c`, and `stack.c` -/

def listEmpty (m : Heap) (list : Ptr) : Bool := decide (m.next list = some list)

/-- `none` where `NULL` is dereferenced; `NULL` is returned for an empty list. -/
def listRemoveFirst (m : Heap) (list : Ptr) : Option (Heap × Option Ptr) :=
  if m.listEmpty list then some (m, none)
  else do
    let node ← m.next list
    let m ← m.listRemove node
    some (m, some node)

def stackPop (m : Heap) (stack : Ptr) : Option (Heap × Option Ptr) :=
  if m.listEmpty stack then some (m, none)
  else do
    let node ← m.prev stack
    let before ← m.prev node
    let m := m.setNext before (some stack)
    some (m.setPrev stack (m.prev node), some node)

section Traverse
variable {σ : Type} (visit : Ptr → Heap × σ → Option ((Heap × σ) × Bool)) (list : Ptr)

/-- The loop of `list_traverse`, with the calls of `visit` and what they return; the first
    argument bounds the rounds left. -/
def traverseLoop : Nat → Option Ptr → Heap × σ → Option ((Heap × σ) × List (Ptr × Bool))
  | 0, _, _ => none
  | fuel + 1, node, s =>
      if node = some list then some (s, [])
      else do
        let node ← node
        let tmp := s.1.next node
        let r ← visit node s
        if !r.2 then some (r.1, [(node, false)])
        else
          let t ← traverseLoop fuel tmp r.1
          some (t.1, (node, true) :: t.2)

def listTraverse (fuel : Nat) (s : Heap × σ) : Option ((Heap × σ) × List (Ptr × Bool)) :=
  traverseLoop visit list fuel (s.1.next list) s

end Traverse

/-! ## 2. Operations on a ring -/

section Ring
variable {m : Heap} {list : Ptr} {nodes : List Ptr}

theorem listEmpty_eq (h : m.IsList list nodes) : m.listEmpty list = nodes.isEmpty := by
  have hnext := h.next_head
  have hhead := (List.nodup_cons.mp h.nodup).1
  cases nodes with
  | nil => exact decide_eq_true hnext
  | cons node rest =>
    apply decide_eq_false
    rw [hnext]
    intro heq
    exact hhead (Option.some.inj heq ▸ List.mem_cons_self)

theorem listRemoveFirst_ring (h : m.IsList list nodes) :
    ∃ m', m.listRemoveFirst list = some (m', nodes.head?) ∧ m'.IsList list nodes.tail := by
  have hempty := listEmpty_eq h
  cases nodes with
  | nil =>
    refine ⟨m, ?_, h⟩
    rw [listRemoveFirst, hempty]
    rfl
  | cons node rest =>
    have hfirst : m.IsList list ([] ++ node :: rest) := h
    obtain ⟨m', hremove, hring, -⟩ := listRemove_ring hfirst
    refine ⟨m', ?_, hring⟩
    have hnext : m.next list = some node := h.next_head
    simp [listRemoveFirst, hempty, hnext, hremove]

/-- The node before the head is taken out as any other one. -/
theorem stackPop_eq {before : List Ptr} {node : Ptr} (h : m.IsList list (before ++ [node])) :
    m.stackPop list = (m.listRemove node).map fun m => (m, some node) := by
  have hempty := listEmpty_eq h
  have hnonempty : (before ++ [node]).isEmpty = false := by simp
  rw [hnonempty] at hempty
  obtain ⟨a, last, ha, hlast, -⟩ := h.exists_last
  obtain rfl : node = last := List.singleton_inj.mp
    (List.append_inj_right' ((List.cons_append ..).trans ha) rfl)
  have hnext : m.next node = some list := DoublyLinked.next_eq (m := []) h
  obtain ⟨⟨b, y, hb, hy⟩, -⟩ := DoublyLinked.exists_neighbours (m := []) h
  have hne : node ≠ y := by
    rintro rfl
    have hnodup := h.nodup
    rw [← List.cons_append, hb, List.append_assoc] at hnodup
    exact (List.nodup_append.mp hnodup).2.1.notMem List.mem_cons_self
  simp [stackPop, listRemove, hempty, hlast, hy, hnext, Function.update_of_ne hne]

theorem stackPop_ring (h : m.IsList list nodes) :
    ∃ m', m.stackPop list = some (m', nodes.getLast?) ∧ m'.IsList list nodes.dropLast := by
  rcases List.eq_nil_or_concat nodes with rfl | ⟨before, node, rfl⟩
  · have hempty := listEmpty_eq h
    refine ⟨m, ?_, h⟩
    rw [stackPop, hempty]
    rfl
  · rw [List.concat_eq_append] at h ⊢
    have hlast : m.IsList list (before ++ node :: []) := h
    obtain ⟨m', hremove, hring, -⟩ := listRemove_ring hlast
    rw [List.append_nil] at hring
    refine ⟨m', ?_, ?_⟩
    · rw [stackPop_eq h, hremove, List.getLast?_concat]
      rfl
    · rw [List.dropLast_concat]
      exact hring

end Ring

/-- The node is in the list. -/
def OnList (m : Heap) (list node : Ptr) : Prop := ∃ nodes, m.IsList list nodes ∧ node ∈ nodes

theorem onList_iff {m : Heap} {list node : Ptr} {nodes : List Ptr} (h : m.IsList list nodes) :
    m.OnList list node ↔ node ∈ nodes := by
  constructor
  · rintro ⟨nodes', h', hmem⟩
    rwa [h.unique h']
  · intro hmem
    exact ⟨nodes, h, hmem⟩

end Heap

/-! ## 3. Sequences of operations -/

/-- A node is at one place of the list only. -/
theorem notMem_others {m : Heap} {list node : Ptr} {before behind : List Ptr}
    (h : m.IsList list (before ++ node :: behind)) : node ∉ list :: (before ++ behind) := by
  have hnodup : ((list :: before) ++ node :: behind).Nodup := h.nodup
  exact (List.nodup_cons.mp (List.nodup_middle.mp hnodup)).1

theorem erase_middle {m : Heap} {list node : Ptr} {before behind : List Ptr}
    (h : m.IsList list (before ++ node :: behind)) :
    (before ++ node :: behind).erase node = before ++ behind := by
  have hbefore : node ∉ before := fun hmem =>
    notMem_others h (List.mem_cons_of_mem _ (List.mem_append_left _ hmem))
  rw [List.erase_append_right _ hbefore, List.erase_cons_head]

inductive ListOp where
  | append (node : Ptr)
  | remove (node : Ptr)
  | removeFirst
  | pop
deriving DecidableEq, Repr

/-- The observation is the node that `list_remove_first` or `stack_pop` returns. -/
def listStep (list : Ptr) (m : Heap) : ListOp → Option (Heap × List (Option Ptr))
  | .append node => (m.listAppend list node).map fun m => (m, [])
  | .remove node => (m.listRemove node).map fun m => (m, [])
  | .removeFirst => (m.listRemoveFirst list).map fun r => (r.1, [r.2])
  | .pop => (m.stackPop list).map fun r => (r.1, [r.2])

/-- A node is appended while it is not in the list, and taken out while it is. -/
def listAllow (list : Ptr) (m : Heap) : ListOp → Prop
  | .append node => node ≠ list ∧ ¬m.OnList list node
  | .remove node => m.OnList list node
  | .removeFirst => True
  | .pop => True

/-- The operations on a sequence: a queue with two ends to take from. -/
def listSpec (nodes : List Ptr) : ListOp → List Ptr × List (Option Ptr)
  | .append node => (nodes ++ [node], [])
  | .remove node => (nodes.erase node, [])
  | .removeFirst => (nodes.tail, [nodes.head?])
  | .pop => (nodes.dropLast, [nodes.getLast?])

def listSpecAllow (list : Ptr) (nodes : List Ptr) : ListOp → Prop
  | .append node => node ∉ list :: nodes
  | .remove node => node ∈ nodes
  | .removeFirst => True
  | .pop => True

theorem listAllow_iff {m : Heap} {list : Ptr} {nodes : List Ptr} (op : ListOp)
    (h : m.IsList list nodes) : listAllow list m op ↔ listSpecAllow list nodes op := by
  cases op with
  | append node => simp only [listAllow, listSpecAllow, Heap.onList_iff h, List.mem_cons, not_or]
  | remove node => exact Heap.onList_iff h
  | removeFirst => exact Iff.rfl
  | pop => exact Iff.rfl

/-- **The ring holds the sequence**, whichever operation comes next. -/
theorem listStep_refines (list : Ptr) :
    Refines (listStep list) (listAllow list) listSpec (listSpecAllow list)
      fun m nodes => m.IsList list nodes where
  allow_iff := listAllow_iff
  step := by
    intro m nodes op h hok
    cases op with
    | append node =>
      obtain ⟨m', happend, hring, -⟩ := Heap.listAppend_ring h hok
      refine ⟨m', ?_, hring⟩
      rw [listStep, happend]
      rfl
    | remove node =>
      obtain ⟨before, behind, rfl⟩ := List.append_of_mem hok
      obtain ⟨m', hremove, hring, -⟩ := Heap.listRemove_ring h
      refine ⟨m', ?_, ?_⟩
      · rw [listStep, hremove]
        rfl
      · change m'.IsList list ((before ++ node :: behind).erase node)
        rwa [erase_middle h]
    | removeFirst =>
      obtain ⟨m', hremove, hring⟩ := Heap.listRemoveFirst_ring h
      refine ⟨m', ?_, hring⟩
      rw [listStep, hremove]
      rfl
    | pop =>
      obtain ⟨m', hpop, hring⟩ := Heap.stackPop_ring h
      refine ⟨m', ?_, hring⟩
      rw [listStep, hpop]
      rfl

/-! ## 4. Traversals -/

/-- `visit` is called for the nodes in turn, for each of them once, up to the first one for which
    it returns `0`. -/
structure VisitsInTurn (nodes : List Ptr) (calls : List (Ptr × Bool)) : Prop where
  inTurn : calls.map Prod.fst <+: nodes
  goesOn : ∀ call ∈ calls.dropLast, call.2 = true
  ends : calls.map Prod.fst = nodes ∨ ∃ node, calls.getLast? = some (node, false)

namespace VisitsInTurn

theorem nil : VisitsInTurn [] [] where
  inTurn := List.prefix_refl []
  goesOn := fun _ hcall => absurd hcall List.not_mem_nil
  ends := Or.inl rfl

/-- `break`. -/
theorem stop (node : Ptr) (nodes : List Ptr) : VisitsInTurn (node :: nodes) [(node, false)] where
  inTurn := ⟨nodes, rfl⟩
  goesOn := fun _ hcall => absurd hcall List.not_mem_nil
  ends := Or.inr ⟨node, rfl⟩

variable {node : Ptr} {nodes : List Ptr} {calls : List (Ptr × Bool)}

theorem cons (h : VisitsInTurn nodes calls) :
    VisitsInTurn (node :: nodes) ((node, true) :: calls) where
  inTurn := List.cons_prefix_cons.mpr ⟨rfl, h.inTurn⟩
  goesOn := by
    cases calls with
    | nil => exact fun _ hcall => absurd hcall List.not_mem_nil
    | cons call calls =>
      intro call' hcall'
      rw [List.dropLast_cons_cons] at hcall'
      rcases List.mem_cons.mp hcall' with rfl | hcall'
      · rfl
      · exact h.goesOn call' hcall'
  ends := by
    rcases h.ends with hall | ⟨last, hlast⟩
    · exact Or.inl (congrArg (node :: ·) hall)
    · refine Or.inr ⟨last, ?_⟩
      rw [List.getLast?_cons, hlast]
      rfl

end VisitsInTurn

section Traverse
variable {σ : Type}

/-- `visit` leaves the list as it is or takes out the node that it is called for; what it does to
    other memory does not matter. -/
def UnlinksOnly (visit : Ptr → Heap × σ → Option ((Heap × σ) × Bool)) (list : Ptr) : Prop :=
  ∀ m a node nodes, m.IsList list nodes → node ∈ nodes →
    ∃ r, visit node (m, a) = some r ∧
      (r.1.1.IsList list nodes ∨ r.1.1.IsList list (nodes.erase node))

variable {visit : Ptr → Heap × σ → Option ((Heap × σ) × Bool)} {list : Ptr}

theorem UnlinksOnly.left (hvisit : UnlinksOnly visit list) {m : Heap} {node : Ptr}
    {kept pending : List Ptr} (h : m.IsList list (kept ++ node :: pending)) (a : σ) :
    ∃ m' a' answer left, visit node (m, a) = some ((m', a'), answer) ∧ left.Sublist [node] ∧
      m'.IsList list (kept ++ (left ++ pending)) := by
  obtain ⟨⟨⟨m', a'⟩, answer⟩, hrun, hsame | hout⟩ :=
    hvisit m a node _ h (List.mem_append_right _ List.mem_cons_self)
  · exact ⟨m', a', answer, [node], hrun, List.Sublist.refl _, hsame⟩
  · rw [erase_middle h] at hout
    exact ⟨m', a', answer, [], hrun, List.nil_sublist _, hout⟩

/-- **The nodes still to be visited are visited**; those visited before that are still in the
    list are `kept`. -/
theorem traverseLoop_visits (hvisit : UnlinksOnly visit list) {kept pending : List Ptr} {m : Heap}
    (h : m.IsList list (kept ++ pending)) (a : σ) {fuel : Nat} (hfuel : pending.length < fuel) :
    ∃ s calls, Heap.traverseLoop visit list fuel (some (pending.headD list)) (m, a) =
        some (s, calls) ∧ VisitsInTurn pending calls ∧
      ∃ rest, rest.Sublist pending ∧ s.1.IsList list (kept ++ rest) := by
  induction pending generalizing kept m a fuel with
  | nil =>
    obtain ⟨fuel, rfl⟩ := Nat.exists_eq_add_one_of_ne_zero (Nat.ne_zero_of_lt hfuel)
    exact ⟨(m, a), [], if_pos rfl, .nil, [], List.Sublist.refl _, h⟩
  | cons node pending ih =>
    obtain ⟨fuel, rfl⟩ := Nat.exists_eq_add_one_of_ne_zero (Nat.ne_zero_of_lt hfuel)
    have hnode : some node ≠ some list := by
      intro heq
      apply (List.nodup_cons.mp h.nodup).1
      rw [← Option.some.inj heq]
      exact List.mem_append_right _ List.mem_cons_self
    -- where the loop goes next is read before the call, and stays in the list after it
    have htmp : m.next node = some (pending.headD list) := h.next_eq
    obtain ⟨m', a', answer, left, hrun, hleft, hring⟩ := hvisit.left h a
    rw [List.headD_cons, Heap.traverseLoop, if_neg hnode]
    cases answer with
    | false =>
      refine ⟨(m', a'), _, ?_, .stop node pending, left ++ pending,
        hleft.append (List.Sublist.refl pending), hring⟩
      simp [hrun]
    | true =>
      rw [← List.append_assoc] at hring
      obtain ⟨s, calls, hloop, hvisits, rest, hrest, hlast⟩ :=
        ih hring a' (Nat.lt_of_succ_lt_succ hfuel)
      rw [List.append_assoc] at hlast
      refine ⟨s, (node, true) :: calls, ?_, hvisits.cons, left ++ rest, hleft.append hrest, hlast⟩
      rw [← htmp] at hloop
      simp [hrun, hloop]

theorem listTraverse_visits (hvisit : UnlinksOnly visit list) {nodes : List Ptr} {m : Heap}
    (h : m.IsList list nodes) (a : σ) {fuel : Nat} (hfuel : nodes.length < fuel) :
    ∃ s calls, Heap.listTraverse visit list fuel (m, a) = some (s, calls) ∧
      VisitsInTurn nodes calls ∧ ∃ rest, rest.Sublist nodes ∧ s.1.IsList list rest := by
  have hfirst : m.next list = some (nodes.headD list) := h.next_head
  have hall : m.IsList list ([] ++ nodes) := h
  rw [Heap.listTraverse, hfirst]
  exact traverseLoop_visits hvisit hall a hfuel

/-- A visitor that never returns `0`. -/
theorem traverseLoop_true (hvisit : ∀ node s r, visit node s = some r → r.2 = true) {fuel : Nat}
    {p : Option Ptr} {s s' : Heap × σ} {calls : List (Ptr × Bool)}
    (h : Heap.traverseLoop visit list fuel p s = some (s', calls)) :
    ∀ call ∈ calls, call.2 = true := by
  induction fuel generalizing p s s' calls with
  | zero => cases h
  | succ fuel ih =>
    rw [Heap.traverseLoop] at h
    split_ifs at h with hend
    · cases h
      exact fun _ hcall => absurd hcall List.not_mem_nil
    · simp only [Option.bind_eq_bind, Option.bind_eq_some_iff] at h
      obtain ⟨node, -, r, hrun, hrest⟩ := h
      rw [hvisit node s r hrun] at hrest
      obtain ⟨⟨t, later⟩, hloop, hcalls⟩ := Option.bind_eq_some_iff.mp hrest
      cases hcalls
      intro call hcall
      rcases List.mem_cons.mp hcall with rfl | hcall
      · rfl
      · exact ih hloop call hcall

end Traverse

/-- `server_check_conn_in`, as far as the list and the pool are concerned: a connection whose
    socket is closed leaves the list and goes back to the pool. -/
def checkConnInVisit (socket : Ptr → Option Nat) (conn : Ptr) (s : Heap × ObjectPool) :
    Option ((Heap × ObjectPool) × Bool) :=
  match socket conn with
  | none => do
      let heap ← s.1.listRemove conn
      some (heap.objectPoolReturn s.2 conn, true)
  | some _ => some (s, true)

theorem objectPoolReturn_ring {m : Heap} {list ob : Ptr} {nodes : List Ptr} (op : ObjectPool)
    (h : m.IsList list nodes) (hob : ob ∉ list :: nodes) :
    (m.objectPoolReturn op ob).1.IsList list nodes := by
  have hother : ∀ v, (m.setNext ob v).IsList list nodes := by
    intro v
    refine h.congr ?_ fun _ _ => rfl
    intro node hnode
    apply Function.update_of_ne
    rintro rfl
    exact hob hnode
  unfold Heap.objectPoolReturn
  cases op.availableObjects with
  | none => exact hother none
  | some available => exact hother (some available)

/-- The connection may be given back in the middle of the traversal. -/
theorem checkConnInVisit_unlinksOnly (socket : Ptr → Option Nat) (list : Ptr) :
    UnlinksOnly (checkConnInVisit socket) list := by
  intro m op conn nodes h hconn
  unfold checkConnInVisit
  cases socket conn with
  | some fd => exact ⟨_, rfl, Or.inl h⟩
  | none =>
    obtain ⟨before, behind, rfl⟩ := List.append_of_mem hconn
    obtain ⟨m', hremove, hring, -⟩ := Heap.listRemove_ring h
    refine ⟨(m'.objectPoolReturn op conn, true), ?_, Or.inr ?_⟩
    · simp [hremove]
    · rw [erase_middle h]
      exact objectPoolReturn_ring op hring (notMem_others h)

/-- It always returns `1`. -/
theorem checkConnInVisit_true {socket : Ptr → Option Nat} {conn : Ptr} {s : Heap × ObjectPool}
    {r : (Heap × ObjectPool) × Bool} (h : checkConnInVisit socket conn s = some r) :
    r.2 = true := by
  unfold checkConnInVisit at h
  cases hsocket : socket conn with
  | some fd =>
    rw [hsocket] at h
    cases h
    rfl
  | none =>
    rw [hsocket] at h
    obtain ⟨heap, -, hr⟩ := Option.bind_eq_some_iff.mp h
    cases hr
    rfl

/-! ## 5. Every sequence -/

/-- From every node of the ring `next` leads to another one and `prev` back, and the other way
    round. -/
def MutuallyInverse (m : Heap) (list : Ptr) (nodes : List Ptr) : Prop :=
  ∀ p ∈ list :: nodes, (∃ q ∈ list :: nodes, m.next p = some q ∧ m.prev q = some p) ∧
    ∃ q ∈ list :: nodes, m.prev p = some q ∧ m.next q = some p

theorem VisitsInTurn.all {nodes : List Ptr} {calls : List (Ptr × Bool)}
    (h : VisitsInTurn nodes calls) (hall : ∀ call ∈ calls, call.2 = true) :
    calls.map Prod.fst = nodes := by
  rcases h.ends with heq | ⟨node, hlast⟩
  · exact heq
  · have hfalse := hall _ (List.mem_of_getLast? hlast)
    cases hfalse

/-- **The ring is the sequence.**  Whatever nodes are appended and taken out, the words of the
    ring are inverse to each other, the ring read from the head is the sequence that the
    operations make, and they return what they return on the sequence.  A traversal visits the
    nodes that are in the ring when it begins, each once and in order, up to the first one for
    which the visitor returns `0`. -/
theorem circularList_sequence (m : Heap) (list : Ptr) (ops : List ListOp)
    (h : Allowed (listStep list) (listAllow list) ops (m.listInit list)) :
    ∃ m' nodes returned, runSpec listSpec ops [] = (nodes, returned) ∧
      run (listStep list) ops (m.listInit list) = some (m', returned) ∧
      m'.IsList list nodes ∧ MutuallyInverse m' list nodes ∧
      ∀ (σ : Type) (visit : Ptr → Heap × σ → Option ((Heap × σ) × Bool)) (a : σ) (fuel : Nat),
        UnlinksOnly visit list → nodes.length < fuel →
        ∃ s calls, Heap.listTraverse visit list fuel (m', a) = some (s, calls) ∧
          nodes.Nodup ∧ VisitsInTurn nodes calls ∧
          ((∀ node s r, visit node s = some r → r.2 = true) → calls.map Prod.fst = nodes) ∧
          ∃ rest, rest.Sublist nodes ∧ s.1.IsList list rest := by
  obtain ⟨m', hrun, hring⟩ := (listStep_refines list).run (Heap.listInit_ring m list) h
  refine ⟨m', _, _, rfl, hrun, hring, ?_, ?_⟩
  · intro p hp
    exact ⟨hring.next_prev hp, hring.prev_next hp⟩
  · intro σ visit a fuel hvisit hfuel
    obtain ⟨s, calls, htraverse, hvisits, hrest⟩ := listTraverse_visits hvisit hring a hfuel
    refine ⟨s, calls, htraverse, (List.nodup_cons.mp hring.nodup).2, hvisits, ?_, hrest⟩
    intro htrue
    exact hvisits.all (traverseLoop_true htrue htraverse)

/-- Memory without links. -/
def noLinks : Heap := ⟨fun _ => none, fun _ => none⟩

/-- Five nodes, and one of them taken from the middle, the back and the front. -/
def fiveNodes : List ListOp :=
  [.append 1, .append 2, .append 3, .append 4, .append 5, .remove 2, .pop, .removeFirst]

/-- The first of the two connections that are left is closed. -/
theorem circularList_sequence_five :
    ∃ m s calls, run (listStep 0) fiveNodes (noLinks.listInit 0) = some (m, [some 5, some 1]) ∧
      m.IsList 0 [3, 4] ∧
      Heap.listTraverse (checkConnInVisit fun conn => if conn = 3 then none else some 9) 0 3
        (m, ⟨none, 16, none⟩) = some (s, calls) ∧
      calls.map Prod.fst = [3, 4] := by
  have hallow : Allowed (listStep 0) (listAllow 0) fiveNodes (noLinks.listInit 0) := by
    apply ((listStep_refines 0).allowed_iff (Heap.listInit_ring noLinks 0)).mpr
    simp [fiveNodes, Allowed, listSpecAllow, listSpec]
  obtain ⟨m, nodes, returned, hspec, hrun, hring, -, htraverse⟩ :=
    circularList_sequence noLinks 0 fiveNodes hallow
  obtain ⟨rfl, rfl⟩ := Prod.mk.inj hspec
  obtain ⟨s, calls, hcalls, -, -, hall, -⟩ := htraverse ObjectPool
    (checkConnInVisit fun conn => if conn = 3 then none else some 9) ⟨none, 16, none⟩ 3
    (checkConnInVisit_unlinksOnly _ 0) (by decide)
  exact ⟨m, s, calls, hrun, hring, hcalls, hall fun _ _ _ => checkConnInVisit_true⟩

/-- A visitor that returns `0` for the first of two nodes is not called for the second one. -/
theorem circularList_stops :
    ¬ ∀ (m : Heap) (list : Ptr) (ops : List ListOp),
      Allowed (listStep list) (listAllow list) ops (m.listInit list) →
      ∃ m' nodes returned, runSpec listSpec ops [] = (nodes, returned) ∧
        run (listStep list) ops (m.listInit list) = some (m', returned) ∧
        ∀ visit : Ptr → Heap × Unit → Option ((Heap × Unit) × Bool), UnlinksOnly visit list →
          ∃ fuel s calls, Heap.listTraverse visit list fuel (m', ()) = some (s, calls) ∧
            calls.map Prod.fst = nodes := by
  intro h
  have hallow : Allowed (listStep 0) (listAllow 0) [.append 1, .append 2] (noLinks.listInit 0) := by
    apply ((listStep_refines 0).allowed_iff (Heap.listInit_ring noLinks 0)).mpr
    simp [Allowed, listSpecAllow, listSpec]
  obtain ⟨m, nodes, returned, hspec, hrun, hvisit⟩ := h noLinks 0 _ hallow
  obtain ⟨rfl, rfl⟩ := Prod.mk.inj hspec
  obtain ⟨fuel, s, calls, htraverse, hcalls⟩ :=
    hvisit (fun _ s => some (s, false)) fun m a node nodes hring _ => ⟨_, rfl, Or.inl hring⟩
  have hfirst : m.next 0 = some 1 := by
    obtain rfl := (Prod.mk.inj (Option.some.inj hrun)).1
    rfl
  rw [Heap.listTraverse, hfirst] at htraverse
  cases fuel with
  | zero => cases htraverse
  | succ fuel =>
    cases htraverse
    exact absurd hcalls (by decide)

end OServer
