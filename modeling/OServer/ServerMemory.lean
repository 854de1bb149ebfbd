/-
  OServer/ServerMemory.lean
  =========================
  **The main loop on the memory of the connections.**

  A connection object begins with the two words of a list node, and the first of them is
  also the link of the pool's free list.  The main loop takes an object from the free
  list, appends it to `conn_list`, and, in the middle of a traversal of the list, takes it
  out again and gives it back, which overwrites the word that the traversal has just
  followed.

    * `serverMemoryStep`        — `serverLoopStep` on link words;
    * `serverMemory_agrees`     — the two do the same;
    * `serverMemory_conserved`  — so that every object is in the list or in the pool, once,
                                  in every run, and a traversal visits every connection
                                  and gives back the closed ones.
-/
import OServer.ObjectPool
import OServer.ServerLoop

namespace OServer

open Run

/-! ## 1. State and steps -/

/-- `LoopPoint` with the pointer to the next node for the nodes. -/
inductive MemoryPoint where
  | snapshot
  | select (snapshot : Finset Nat)
  | accept (rfds : Finset Nat)
  | traverse (rfds : Finset Nat) (node : Option Ptr)
  | dispatch (rfds : Finset Nat) (conn : Ptr) (tmp : Option Ptr)

structure ServerMemory extends ServerShared where
  heap : Heap
  connections : ObjectPool
  /-- the address of `conn_list.head` -/
  connList : Ptr
  point : MemoryPoint

namespace ServerMemory

/-- `list_traverse` begins at the node behind the head. -/
def traverse (s : ServerMemory) (rfds : Finset Nat) : ServerMemory :=
  { s with point := .traverse rfds (s.heap.next s.connList) }

def selected (s : ServerMemory) (rfds : Finset Nat) : ServerMemory :=
  if rfds = ∅ then { s with point := .snapshot }
  else if rfds = {s.readFd} then { s with point := .snapshot }
  else if s.listenFd ∈ rfds then { s with point := .accept rfds }
  else s.traverse rfds

/-- `none` where `NULL` is dereferenced. -/
def accepted (s : ServerMemory) (rfds : Finset Nat) (clientFd : Nat) : Option ServerMemory :=
  match s.heap.objectPoolAcquire s.connections with
  | (_, none) => some (traverse { s with toServerShared := s.watch clientFd } rfds)
  | (connections, some conn) => do
      let heap ← s.heap.listAppend s.connList conn
      some (traverse
        { s with
          toServerShared := (s.watch clientFd).setSocket conn (some clientFd)
          heap, connections } rfds)

/-- `server_check_conn_in` up to the test of `rfds`; the next node is read before. -/
def visited (s : ServerMemory) (rfds : Finset Nat) (conn : Ptr) :
    Option (ServerMemory × List LoopObs) :=
  let tmp := s.heap.next conn
  match s.socket conn with
  | none => do
      let heap ← s.heap.listRemove conn
      let r := heap.objectPoolReturn s.connections conn
      some ({ s with heap := r.1, connections := r.2, point := .traverse rfds tmp },
        [.visited conn none, .returned conn])
  | some fd =>
      some ({ s with point := if fd ∈ rfds then .dispatch rfds conn tmp else .traverse rfds tmp },
        [.visited conn (some fd)])

end ServerMemory

def serverMemoryStep (s : ServerMemory) (e : LoopEvent) : Option (ServerMemory × List LoopObs) :=
  match e, s.point with
  | .snapshot, .snapshot => some ({ s with point := .select s.fds }, [])
  | .select rfds, .select snapshot => if rfds ⊆ snapshot then some (s.selected rfds, []) else none
  | .accept none, .accept _ => some ({ s with point := .snapshot }, [])
  | .accept (some clientFd), .accept rfds =>
      if clientFd ∈ s.openFds then none else (s.accepted rfds clientFd).map fun s => (s, [])
  | .visit, .traverse rfds node =>
      if node = some s.connList then some ({ s with point := .snapshot }, [])
      else node.bind (s.visited rfds)
  | .dispatch, .dispatch rfds conn tmp =>
      some ({ s with toServerShared := s.dispatched conn, point := .traverse rfds tmp }, [])
  | e, _ => (s.workerStep e).map fun shared => ({ s with toServerShared := shared }, [])

/-- `sizeof(connection_info_t)` is not given by the source; it holds two link words at least. -/
structure ServerMemory.Created (size num : Nat) (mem : Ptr) (s : ServerMemory) : Prop where
  heap : ∃ m r, Heap.objectPoolCreate m size num mem = some r ∧ s.heap = r.1.listInit s.connList ∧
    s.connections = r.2
  connList : s.connList ∉ objectsFrom size num (mem + sizeofMemory)
  fds : s.fds = {s.listenFd, s.readFd}
  tasks : s.tasks = []
  openFds : s.fds ⊆ s.openFds
  point : s.point = .snapshot

/-! ## 2. The memory and the lists -/

/-- The pointer to the next node leads to the nodes that are still to be visited. -/
inductive PointRep (next : Ptr → Option Ptr) (list : Ptr) : MemoryPoint → LoopPoint → Prop where
  | snapshot : PointRep next list .snapshot .snapshot
  | select (snapshot : Finset Nat) : PointRep next list (.select snapshot) (.select snapshot)
  | accept (rfds : Finset Nat) : PointRep next list (.accept rfds) (.accept rfds)
  | traverse (rfds : Finset Nat) {p : Option Ptr} {node : List Ptr}
      (hnode : Linked next p node (some list)) :
      PointRep next list (.traverse rfds p) (.traverse rfds node)
  | dispatch (rfds : Finset Nat) (conn : Ptr) {p : Option Ptr} {node : List Ptr}
      (hnode : Linked next p node (some list)) :
      PointRep next list (.dispatch rfds conn p) (.dispatch rfds conn node)

/-- The link words of `c` make up the lists of `s`. -/
structure MemoryRep (objects : List Ptr) (c : ServerMemory) (s : ServerLoop) : Prop where
  shared : c.toServerShared = s.toServerShared
  list : c.heap.IsList c.connList s.connList
  free : Linked c.heap.next c.connections.availableObjects s.connections none
  head : c.connList ∉ objects
  lists : LoopLists objects s
  point : PointRep c.heap.next c.connList c.point s.point

/-- A traversal begins with the whole list. -/
theorem traverse_rep {objects : List Ptr} {c : ServerMemory} {s : ServerLoop}
    (hshared : c.toServerShared = s.toServerShared) (hlist : c.heap.IsList c.connList s.connList)
    (hfree : Linked c.heap.next c.connections.availableObjects s.connections none)
    (hhead : c.connList ∉ objects) (hperm : (s.connList ++ s.connections).Perm objects)
    (rfds : Finset Nat) :
    MemoryRep objects (c.traverse rfds) { s with point := .traverse rfds s.connList } :=
  ⟨hshared, hlist, hfree, hhead, ⟨hperm, List.suffix_refl _⟩, .traverse rfds hlist.linked⟩

section Rep
variable {objects : List Ptr} (hobjects : objects.Nodup) {c : ServerMemory} {s : ServerLoop}
  (h : MemoryRep objects c s)
include h

theorem MemoryRep.head_notMem {conn : Ptr} (hconn : conn ∈ s.connList ++ s.connections) :
    conn ≠ c.connList := by
  rintro rfl
  exact h.head (h.lists.perm.mem_iff.mp hconn)

/-- Another place of the main loop. -/
theorem MemoryRep.move {point : MemoryPoint} {point' : LoopPoint}
    (hpoint : PointRep c.heap.next c.connList point point') (hrest : point'.rest = []) :
    MemoryRep objects { c with point := point } { s with point := point' } := by
  refine ⟨h.shared, h.list, h.free, h.head, ⟨h.lists.perm, ?_⟩, hpoint⟩
  rw [hrest]
  exact List.nil_suffix

theorem memory_selected (rfds : Finset Nat) : MemoryRep objects (c.selected rfds) (s.selected rfds) := by
  have hread : c.readFd = s.readFd := congrArg ServerShared.readFd h.shared
  have hlisten : c.listenFd = s.listenFd := congrArg ServerShared.listenFd h.shared
  unfold ServerMemory.selected ServerLoop.selected
  rw [hread, hlisten]
  split
  · exact h.move .snapshot rfl
  split
  · exact h.move .snapshot rfl
  split
  · exact h.move (.accept rfds) rfl
  · exact traverse_rep h.shared h.list h.free h.head h.lists.perm rfds

include hobjects

theorem memory_accepted (rfds : Finset Nat) (clientFd : Nat) :
    ∃ c', c.accepted rfds clientFd = some c' ∧ MemoryRep objects c' (s.accepted rfds clientFd) := by
  have hfree := h.free
  cases hpool : s.connections with
  | nil =>
    rw [hpool] at hfree
    have hnone : c.connections.availableObjects = none := hfree
    rw [ServerLoop.accepted_nil hpool, ← h.shared]
    refine ⟨ServerMemory.traverse { c with toServerShared := c.watch clientFd } rfds, ?_, ?_⟩
    · simp only [ServerMemory.accepted, Heap.objectPoolAcquire, hnone]
    · exact traverse_rep (c := { c with toServerShared := c.watch clientFd })
        (s := { s with toServerShared := c.watch clientFd }) rfl h.list h.free h.head h.lists.perm rfds
  | cons conn available =>
    rw [hpool] at hfree
    obtain ⟨hsome, hrest⟩ := hfree
    have hnodup := h.lists.nodup hobjects
    rw [hpool] at hnodup
    obtain ⟨hlist, havailable, hdisj⟩ := List.nodup_append.mp hnodup
    have hmem : conn ∈ s.connList ++ s.connections := by
      rw [hpool]
      exact List.mem_append_right _ List.mem_cons_self
    have hnew : conn ∉ c.connList :: s.connList := by
      intro hin
      rcases List.mem_cons.mp hin with heq | hin
      · exact h.head_notMem hmem heq
      · exact hdisj conn hin conn List.mem_cons_self rfl
    obtain ⟨m', happend, hring, hsame⟩ := Heap.listAppend_ring h.list hnew
    -- the rest of the free list is not touched
    have hrest' : Linked m'.next (c.heap.next conn) available none := by
      apply hsame.linked hrest
      intro x hx hin
      rcases List.mem_cons.mp hin with rfl | hin
      · apply h.head_notMem _ rfl
        rw [hpool]
        exact List.mem_append_right _ (List.mem_cons_of_mem conn hx)
      rcases List.mem_cons.mp hin with rfl | hin
      · exact (List.nodup_cons.mp havailable).1 hx
      · exact hdisj x hin x (List.mem_cons_of_mem conn hx) rfl
    have hperm : ((s.connList ++ [conn]) ++ available).Perm objects := by
      have hperm := h.lists.perm
      rw [hpool] at hperm
      simpa using hperm
    rw [ServerLoop.accepted_cons hpool, ← h.shared]
    refine ⟨_, ?_, traverse_rep
      (c := { c with
        toServerShared := (c.watch clientFd).setSocket conn (some clientFd)
        heap := m'
        connections := { c.connections with availableObjects := c.heap.next conn } })
      (s := ⟨(c.watch clientFd).setSocket conn (some clientFd), available,
        listAppend s.connList conn, s.point⟩) rfl hring hrest' h.head hperm rfds⟩
    simp only [ServerMemory.accepted, Heap.objectPoolAcquire, hsome, happend]
    rfl

/-- The node that is visited is taken out of the ring and put on the free list; the pointer that
    was read before still leads to the nodes behind it. -/
theorem memory_returned {rfds : Finset Nat} {conn : Ptr} {node : List Ptr}
    (hpoint : s.point = .traverse rfds (conn :: node))
    (hnode : Linked c.heap.next (c.heap.next conn) node (some c.connList)) :
    ∃ m', c.heap.listRemove conn = some m' ∧
      (m'.setNext conn c.connections.availableObjects).IsList c.connList
        (listRemove s.connList conn) ∧
      Linked (m'.setNext conn c.connections.availableObjects).next (some conn)
        (objectPoolReturn s.connections conn) none ∧
      Linked (m'.setNext conn c.connections.availableObjects).next (c.heap.next conn) node
        (some c.connList) := by
  have hrest := h.lists.rest
  rw [hpoint] at hrest
  obtain ⟨before, hbefore⟩ := hrest
  rw [LoopPoint.rest] at hbefore
  have hring := h.list
  have hnodup := h.lists.nodup hobjects
  rw [← hbefore] at hring hnodup
  obtain ⟨hlist, -, hdisj⟩ := List.nodup_append.mp hnodup
  obtain ⟨-, hconn, hdisj'⟩ := List.nodup_append.mp hlist
  obtain ⟨hconn, -⟩ := List.nodup_cons.mp hconn
  obtain ⟨m', hremove, hring', hsame⟩ := Heap.listRemove_ring hring
  have hmem : conn ∈ before ++ conn :: node := List.mem_append_right _ List.mem_cons_self
  have hpool : conn ∉ s.connections := fun hin => hdisj conn hmem conn hin rfl
  have hhead : ∀ x, x ∈ s.connList ++ s.connections → x ≠ c.connList :=
    fun x hx => h.head_notMem hx
  rw [← hbefore] at hhead
  -- the words of the other nodes and of the free objects stay
  have hstay : ∀ x, x ∈ node ∨ x ∈ s.connections → x ∉ c.connList :: before := by
    rintro x hx hin
    rcases List.mem_cons.mp hin with heq | hin
    · refine hhead x ?_ heq
      rcases hx with hx | hx
      · exact List.mem_append_left _ (List.mem_append_right _ (List.mem_cons_of_mem conn hx))
      · exact List.mem_append_right _ hx
    · rcases hx with hx | hx
      · exact hdisj' x hin x (List.mem_cons_of_mem conn hx) rfl
      · exact hdisj x (List.mem_append_left _ hin) x hx rfl
  have hnode' : Linked m'.next (c.heap.next conn) node (some c.connList) :=
    hsame.linked hnode fun x hx => hstay x (.inl hx)
  have hfree' : Linked m'.next c.connections.availableObjects s.connections none :=
    hsame.linked h.free fun x hx => hstay x (.inr hx)
  refine ⟨m', hremove, ?_, hfree'.push hpool, hnode'.update hconn⟩
  rw [← hbefore, listRemove_mid hlist]
  refine hring'.congr ?_ fun _ _ => rfl
  intro x hx
  apply Function.update_of_ne
  rintro rfl
  rcases List.mem_cons.mp hx with heq | hx
  · exact hhead x (List.mem_append_left _ hmem) heq
  rcases List.mem_append.mp hx with hx | hx
  · exact hdisj' x hx x List.mem_cons_self rfl
  · exact hconn hx

theorem memory_visited {rfds : Finset Nat} {conn : Ptr} {node : List Ptr}
    (hpoint : s.point = .traverse rfds (conn :: node)) :
    ∃ c', c.visited rfds conn = some (c', (s.visited rfds conn node).2) ∧
      MemoryRep objects c' (s.visited rfds conn node).1 := by
  have hnode := h.point
  rw [hpoint] at hnode
  generalize c.point = cpoint at hnode
  cases hnode with
  | traverse _ hnode =>
    obtain ⟨-, hnode⟩ := hnode
    have hlists := visited_lists hobjects h.lists hpoint
    have hsocket' : c.socket = s.socket := congrArg ServerShared.socket h.shared
    cases hsocket : s.socket conn with
    | none =>
      obtain ⟨m', hremove, hring, hfree, hrest⟩ := memory_returned hobjects h hpoint hnode
      rw [ServerLoop.visited_none hsocket] at hlists ⊢
      refine ⟨{ c with
        heap := m'.setNext conn c.connections.availableObjects
        connections := { c.connections with availableObjects := some conn }
        point := .traverse rfds (c.heap.next conn) }, ?_, h.shared, hring, hfree, h.head, hlists,
        .traverse rfds hrest⟩
      simp [ServerMemory.visited, hsocket', hsocket, hremove, objectPoolReturn_eq]
    | some fd =>
      rw [ServerLoop.visited_some hsocket] at hlists ⊢
      by_cases hset : fd ∈ rfds
      · rw [if_pos hset] at hlists ⊢
        refine ⟨{ c with point := .dispatch rfds conn (c.heap.next conn) }, ?_, h.shared, h.list,
          h.free, h.head, hlists, .dispatch rfds conn hnode⟩
        simp only [ServerMemory.visited, hsocket', hsocket, if_pos hset]
      · rw [if_neg hset] at hlists ⊢
        refine ⟨{ c with point := .traverse rfds (c.heap.next conn) }, ?_, h.shared, h.list,
          h.free, h.head, hlists, .traverse rfds hnode⟩
        simp only [ServerMemory.visited, hsocket', hsocket, if_neg hset]

end Rep

section Agree
variable {objects : List Ptr} {c : ServerMemory} {s : ServerLoop} (h : MemoryRep objects c s)
include h

/-- What is possible on the memory is possible on the lists. -/
theorem memory_breaks {e : LoopEvent} (hstep : serverLoopStep s e = none) :
    serverMemoryStep c e = none := by
  have hpoint := h.point
  have hwork : c.workerStep e = s.workerStep e := by rw [h.shared]
  generalize hc : c.point = point at hpoint
  generalize hs : s.point = point' at hpoint
  cases e with
  | snapshot =>
    cases hpoint <;> simp_all [serverLoopStep, serverMemoryStep]
  | select rfds =>
    cases hpoint <;> simp_all [serverLoopStep, serverMemoryStep]
  | accept clientFd =>
    have hopen : c.openFds = s.openFds := congrArg ServerShared.openFds h.shared
    cases clientFd <;> cases hpoint <;> simp_all [serverLoopStep, serverMemoryStep]
  | visit =>
    cases hpoint with
    | @traverse _ _ node _ => cases node <;> simp [serverLoopStep, hs] at hstep
    | _ => simp_all [serverLoopStep, serverMemoryStep]
  | dispatch =>
    cases hpoint <;> simp_all [serverLoopStep, serverMemoryStep]
  | close conn => simp_all [serverLoopStep, serverMemoryStep]
  | mark conn => simp_all [serverLoopStep, serverMemoryStep]
  | rearm conn => simp_all [serverLoopStep, serverMemoryStep]

/-- A worker does not touch the memory of the lists. -/
theorem MemoryRep.work {e : LoopEvent} {shared : ServerShared}
    (hstep : serverMemoryStep c e =
      (c.workerStep e).map fun shared => ({ c with toServerShared := shared }, []))
    (hwork : c.workerStep e = some shared) :
    ∃ c', serverMemoryStep c e = some (c', []) ∧
      MemoryRep objects c' { s with toServerShared := shared } := by
  refine ⟨{ c with toServerShared := shared }, ?_, rfl, h.list, h.free, h.head,
    ⟨h.lists.perm, h.lists.rest⟩, h.point⟩
  rw [hstep, hwork]
  rfl

theorem memory_goes (hobjects : objects.Nodup) {e : LoopEvent} {r : ServerLoop × List LoopObs}
    (hstep : serverLoopStep s e = some r) :
    ∃ c', serverMemoryStep c e = some (c', r.2) ∧ MemoryRep objects c' r.1 := by
  have hpoint := h.point
  have htasks : c.tasks = s.tasks := congrArg ServerShared.tasks h.shared
  generalize hc : c.point = point at hpoint
  cases serverLoopStep_cases hstep with
  | snapshot hp =>
    rw [hp] at hpoint
    cases hpoint
    have hfds : c.fds = s.fds := congrArg ServerShared.fds h.shared
    refine ⟨{ c with point := .select c.fds }, by simp only [serverMemoryStep, hc], ?_⟩
    rw [hfds]
    exact h.move (.select s.fds) rfl
  | @select _ rfds hp hrfds =>
    rw [hp] at hpoint
    cases hpoint
    refine ⟨c.selected rfds, ?_, memory_selected h rfds⟩
    simp only [serverMemoryStep, hc, if_pos hrfds]
  | refused hp =>
    rw [hp] at hpoint
    cases hpoint
    exact ⟨{ c with point := .snapshot }, by simp only [serverMemoryStep, hc], h.move .snapshot rfl⟩
  | @accept rfds clientFd hp hnew =>
    rw [hp] at hpoint
    cases hpoint
    have hopen : clientFd ∉ c.openFds := by
      rw [show c.openFds = s.openFds from congrArg ServerShared.openFds h.shared]
      exact hnew
    obtain ⟨c', hc', hrep⟩ := memory_accepted hobjects h rfds clientFd
    exact ⟨c', by simp only [serverMemoryStep, hc, if_neg hopen, hc', Option.map_some], hrep⟩
  | finish hp =>
    rw [hp] at hpoint
    cases hpoint with
    | traverse _ hnode =>
      have hend := Linked.nil_iff.mp hnode
      exact ⟨{ c with point := .snapshot }, by simp only [serverMemoryStep, hc, if_pos hend],
        h.move .snapshot rfl⟩
  | @visit rfds conn node hp =>
    obtain ⟨c', hc', hrep⟩ := memory_visited hobjects h hp
    have hrest := h.lists.rest
    rw [hp] at hrest hpoint
    cases hpoint with
    | traverse _ hnode =>
      obtain ⟨rfl, -⟩ := hnode
      have hne : some conn ≠ some c.connList := by
        intro heq
        have hmem : conn ∈ s.connList := hrest.subset List.mem_cons_self
        exact h.head_notMem (List.mem_append_left _ hmem) (Option.some.inj heq)
      refine ⟨c', ?_, hrep⟩
      simp only [serverMemoryStep, hc, if_neg hne, Option.bind_some, hc']
  | @dispatch rfds conn node hp =>
    have hrest := h.lists.rest
    rw [hp] at hpoint hrest
    cases hpoint with
    | @dispatch _ _ tmp _ hnode =>
      rw [← h.shared]
      refine ⟨{ c with toServerShared := c.dispatched conn, point := .traverse rfds tmp }, ?_, rfl,
        h.list, h.free, h.head, ⟨h.lists.perm, hrest⟩, .traverse rfds hnode⟩
      simp only [serverMemoryStep, hc]
  | close htask =>
    rw [← htasks] at htask
    rw [← h.shared]
    exact h.work rfl (if_pos htask)
  | mark htask =>
    rw [← htasks] at htask
    rw [← h.shared]
    exact h.work rfl (if_pos htask)
  | rearm htask =>
    rw [← htasks] at htask
    rw [← h.shared]
    exact h.work rfl (if_pos htask)

end Agree

theorem serverMemory_agrees {objects : List Ptr} (hobjects : objects.Nodup) :
    Agrees serverMemoryStep serverLoopStep (MemoryRep objects) where
  breaks := fun _ h hstep => memory_breaks h hstep
  goes := fun _ h hstep => memory_goes h hobjects hstep

/-! ## 3. Every run -/

/-- A new pool and an empty list. -/
theorem ServerMemory.Created.rep {size num : Nat} {mem : Ptr} {c : ServerMemory}
    (h : c.Created size num mem) (hsize : 0 < size) (hnum : 1 ≤ num) :
    MemoryRep (objectsFrom size num (mem + sizeofMemory)) c
      { toServerShared := c.toServerShared
        connections := objectsFrom size num (mem + sizeofMemory)
        connList := []
        point := .snapshot } := by
  obtain ⟨m, r, hcreate, hheap, hpool⟩ := h.heap
  have hlen : size * num ≤ intMax := by
    by_contra hlen
    simp [Heap.objectPoolCreate, hlen] at hcreate
  obtain ⟨m', hcreate', hlinked⟩ := m.objectPoolCreate_linked hsize hnum hlen mem
  obtain rfl := Option.some.inj (hcreate.symm.trans hcreate')
  refine ⟨rfl, ?_, ?_, h.connList, ⟨?_, List.nil_suffix⟩, ?_⟩
  · rw [hheap]
    exact Heap.listInit_ring m' c.connList
  · rw [hheap, hpool]
    exact hlinked.update h.connList
  · exact .refl _
  · rw [h.point]
    exact .snapshot

/-- What holds after a traversal that found `conns` in the list and `free` in the pool. -/
structure Reaped (conns free : List Ptr) (obs : List LoopObs) (c : ServerMemory) : Prop where
  /-- every listed connection is visited once, in turn -/
  visits : visitedConns obs = conns
  /-- those that are closed, and no others, are given back -/
  returns : returnedConns obs = closedConns obs
  list : c.heap.IsList c.connList (conns.filter (· ∉ returnedConns obs))
  free : Linked c.heap.next c.connections.availableObjects ((returnedConns obs).reverse ++ free) none

theorem MemoryRep.reaped {objects : List Ptr} (hobjects : objects.Nodup) {c : ServerMemory}
    {s : ServerLoop} (h : MemoryRep objects c s) {rfds : Finset Nat}
    (hpoint : c.point = .traverse rfds (c.heap.next c.connList)) {es : List LoopEvent}
    (hes : .snapshot ∉ es) {r : ServerMemory × List LoopObs}
    (hrun : Run.run serverMemoryStep es c = some r) (hend : r.1.point = .snapshot) :
    Reaped s.connList s.connections r.2 r.1 := by
  obtain ⟨s', hrun', hrep⟩ := (serverMemory_agrees hobjects).run h hrun
  -- the pointer is that to the first node, so the whole list is to be visited
  have hrest : Traversing s.point s.connList := by
    have hhead : c.connList ∉ s.connList := fun hmem =>
      h.head_notMem (List.mem_append_left _ hmem) rfl
    have hnot : c.connList ∉ s.point.rest := fun hmem => hhead (h.lists.rest.subset hmem)
    have hp := h.point
    rw [hpoint] at hp
    generalize hs : s.point = point at hp hnot
    cases hp with
    | traverse _ hnode =>
      obtain rfl := hnode.unique h.list.linked (Linked.ends_some hnot) (Linked.ends_some hhead)
      exact .traverse ..
  obtain ⟨rest, hfinished, hdone⟩ := traversed_run hobjects h.lists hrest hes hrun'
  have hp := hrep.point
  rw [hend] at hp
  generalize s'.point = point at hp hfinished
  cases hp
  cases hfinished
  have hvisits := hdone.visits
  rw [List.append_nil] at hvisits
  refine ⟨hvisits, hdone.returns, ?_, ?_⟩
  · rw [← hdone.connList]
    exact hrep.list
  · rw [← hdone.connections]
    exact hrep.free

/-- **Every connection object is in the list or in the pool, once**, in every state of every run;
    a traversal visits every listed connection once and gives back those that it finds closed; and
    it never dereferences `NULL`. -/
theorem serverMemory_conserved {size num : Nat} {mem : Ptr} {c : ServerMemory}
    (hsize : 2 * sizeofObject ≤ size) (hnum : 1 ≤ num)
    (h : Reachable serverMemoryStep (fun _ _ => True) (ServerMemory.Created size num mem) c) :
    ∃ conns free,
      c.heap.IsList c.connList conns ∧
      Linked c.heap.next c.connections.availableObjects free none ∧
      (conns ++ free).Perm (objectsFrom size num (mem + sizeofMemory)) ∧
      (conns ++ free).Nodup ∧
      (∀ rfds es r, c.point = .traverse rfds (c.heap.next c.connList) → .snapshot ∉ es →
        Run.run serverMemoryStep es c = some r → r.1.point = .snapshot →
          Reaped conns free r.2 r.1) ∧
      ∀ rfds node, c.point = .traverse rfds node → ∃ r, serverMemoryStep c .visit = some r := by
  have hpos : 0 < size := lt_of_lt_of_le (by decide) hsize
  have hobjects : (objectsFrom size num (mem + sizeofMemory)).Nodup := nodup_objectsFrom hpos
  have hinit : ∀ c, ServerMemory.Created size num mem c → ∃ s : ServerLoop,
      (fun _ => True) s ∧ MemoryRep (objectsFrom size num (mem + sizeofMemory)) c s :=
    fun c hc => ⟨_, trivial, hc.rep hpos hnum⟩
  obtain ⟨s, -, hrep⟩ := (serverMemory_agrees hobjects).reachable hinit h
  refine ⟨s.connList, s.connections, hrep.list, hrep.free, hrep.lists.perm,
    hrep.lists.nodup hobjects, ?_, ?_⟩
  · intro rfds es r hpoint hes hrun hend
    exact hrep.reaped hobjects hpoint hes hrun hend
  · intro rfds node hpoint
    have hp := hrep.point
    rw [hpoint] at hp
    generalize hs : s.point = point at hp
    cases hp with
    | @traverse _ _ nodes _ =>
      cases nodes with
      | nil =>
        obtain ⟨c', hc', -⟩ := memory_goes hrep hobjects (LoopStep.finish hs).eq
        exact ⟨_, hc'⟩
      | cons conn nodes =>
        obtain ⟨c', hc', -⟩ := memory_goes hrep hobjects (LoopStep.visit hs).eq
        exact ⟨_, hc'⟩

/-- A server with two connection objects of 32 bytes, and the head of its list at 50. -/
def ServerMemory.two : ServerMemory :=
  let r := (Heap.objectPoolCreate ⟨fun _ => none, fun _ => none⟩ 32 2 1000).getD
    (⟨fun _ => none, fun _ => none⟩, ⟨none, 0, none⟩)
  { listenFd := 3
    readFd := 4
    socket := fun _ => none
    fds := {3, 4}
    openFds := {0, 1, 2, 3, 4}
    tasks := []
    heap := r.1.listInit 50
    connections := r.2
    connList := 50
    point := .snapshot }

/-- Both objects are connections; the first one is served and closed. -/
def closedEvents : List LoopEvent :=
  [.snapshot, .select {3}, .accept (some 5), .visit, .visit,
    .snapshot, .select {3}, .accept (some 6), .visit, .visit, .visit,
    .snapshot, .select {5}, .visit, .dispatch, .visit, .visit, .close 1008, .mark 1008,
    .snapshot, .select {6}]

/-- The next traversal gives the first object back while it stands on it, and goes on to the
    second one, which it hands to a worker. -/
theorem serverMemory_conserved_two :
    ∃ c r conns free, (∃ obs, Run.run serverMemoryStep closedEvents .two = some (c, obs)) ∧
      Run.run serverMemoryStep [.visit, .visit, .dispatch, .visit] c = some r ∧
      returnedConns r.2 = [1008] ∧ (conns ++ free).Perm [1008, 1040] ∧ Reaped conns free r.2 r.1 := by
  have hstart : Reachable serverMemoryStep (fun _ _ => True) (ServerMemory.Created 32 2 1000)
      ServerMemory.two :=
    .init ⟨⟨_, _, rfl, rfl, rfl⟩, by decide, rfl, rfl, by decide, rfl⟩
  have hrun : ∃ c, Run.run serverMemoryStep closedEvents ServerMemory.two = some c ∧
      c.1.point = .traverse {6} (c.1.heap.next c.1.connList) ∧
      ∃ r, Run.run serverMemoryStep [.visit, .visit, .dispatch, .visit] c.1 = some r ∧
        returnedConns r.2 = [1008] ∧ r.1.point = .snapshot := ⟨_, rfl, rfl, _, rfl, rfl, rfl⟩
  obtain ⟨⟨c, obs⟩, hc, hpoint, r, hr, hreturned, hend⟩ := hrun
  obtain ⟨conns, free, -, -, hperm, -, hreaped, -⟩ := serverMemory_conserved (by decide) (by decide)
    (hstart.run (allowed_true _ _) hc)
  exact ⟨c, r, conns, free, ⟨obs, hc⟩, hr, hreturned, hperm,
    hreaped {6} _ r hpoint (by decide) hr hend⟩

end OServer
