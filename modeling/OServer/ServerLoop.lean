/-
  OServer/ServerLoop.lean
  =======================
  **The main loop and the workers, step by step.**

  In `ServerEntry` a worker's activation is one step.  Here the steps are those that the
  main loop and the workers can interleave: the copy of the watched set is taken before
  `select` looks at it, a connection is tested before it is handed over, and a worker
  closes a socket before it says so in the connection.  Any connection that is queued or
  served may take its next step, so that there can be any number of workers.

    * `serverLoopStep`        — the steps;
    * `ServerEntry.loop_run`  — the steps of `ServerEntry` are runs of these;
    * `LoopLists`, `loop_lists` — what holds in every run, whatever the descriptors are;
    * `serverLoop_fits`       — the sets of descriptors are `fd_set`s while `accept` stays
                                below `FD_SETSIZE`, which is relied on everywhere.
-/
import OServer.ServerEntry

namespace OServer

open Run

/-! ## 1. State -/

/-- Where the main loop is: before it copies `fds`, in `select`, before `accept`, in
    `list_traverse`, and between the test of a connection and its handing over. -/
inductive LoopPoint where
  | snapshot
  | select (snapshot : Finset Nat)
  | accept (rfds : Finset Nat)
  | traverse (rfds : Finset Nat) (node : List Ptr)
  | dispatch (rfds : Finset Nat) (conn : Ptr) (node : List Ptr)
deriving DecidableEq

/-- How far a task is: queued or serving, or between `close(conn->socket)` and
    `conn->socket = -1`. -/
inductive TaskPhase where
  | serving
  | closed
deriving DecidableEq

/-- What the main loop and the workers share. -/
structure ServerShared where
  listenFd : Nat
  readFd : Nat
  /-- `conn->socket`; `none` is `-1` -/
  socket : Ptr → Option Nat
  fds : Finset Nat
  openFds : Finset Nat
  tasks : List (Ptr × TaskPhase)

structure ServerLoop extends ServerShared where
  /-- `connections.available_objects` -/
  connections : List Ptr
  connList : List Ptr
  point : LoopPoint

inductive LoopEvent where
  /-- `memcpy(&rfds, &srv->fds)` -/
  | snapshot
  /-- `select` returns and has set `rfds` -/
  | select (rfds : Finset Nat)
  /-- `accept` returns, `none` for `-1` -/
  | accept (clientFd : Option Nat)
  /-- `list_traverse` goes to its next node, or ends -/
  | visit
  /-- `FD_CLR` and `thread_pool_add_task` -/
  | dispatch
  /-- `close(conn->socket)` -/
  | close (conn : Ptr)
  /-- `conn->socket = -1` -/
  | mark (conn : Ptr)
  /-- `FD_SET(conn->socket, &conn->srv->fds)` -/
  | rearm (conn : Ptr)
deriving DecidableEq

/-- What a traversal does: it visits a node, and gives it back. -/
inductive LoopObs where
  | visited (conn : Ptr) (socket : Option Nat)
  | returned (conn : Ptr)
deriving DecidableEq

/-! ## 2. Steps -/

namespace ServerShared

/-- The new descriptor is watched. -/
def watch (s : ServerShared) (clientFd : Nat) : ServerShared :=
  { s with fds := insert clientFd s.fds, openFds := insert clientFd s.openFds }

def setSocket (s : ServerShared) (conn : Ptr) (fd : Option Nat) : ServerShared :=
  { s with socket := Function.update s.socket conn fd }

/-- The connection is a task from now on, and its socket is not watched.  For `-1` there is
    nothing to clear. -/
def dispatched (s : ServerShared) (conn : Ptr) : ServerShared :=
  { s with
    fds := match s.socket conn with
      | none => s.fds
      | some fd => s.fds.erase fd
    tasks := s.tasks ++ [(conn, .serving)] }

def closed (s : ServerShared) (conn : Ptr) : ServerShared :=
  { s with
    openFds := match s.socket conn with
      | none => s.openFds
      | some fd => s.openFds.erase fd
    tasks := s.tasks.erase (conn, .serving) ++ [(conn, .closed)] }

/-- The task ends with the mark. -/
def marked (s : ServerShared) (conn : Ptr) : ServerShared :=
  { s with
    socket := Function.update s.socket conn none
    tasks := s.tasks.erase (conn, .closed) }

/-- The task ends with the socket watched again. -/
def rearmed (s : ServerShared) (conn : Ptr) : ServerShared :=
  { s with
    fds := match s.socket conn with
      | none => s.fds
      | some fd => insert fd s.fds
    tasks := s.tasks.erase (conn, .serving) }

/-- A step of a worker; the main loop's events are none. -/
def workerStep (s : ServerShared) : LoopEvent → Option ServerShared
  | .close conn => if (conn, .serving) ∈ s.tasks then some (s.closed conn) else none
  | .mark conn => if (conn, .closed) ∈ s.tasks then some (s.marked conn) else none
  | .rearm conn => if (conn, .serving) ∈ s.tasks then some (s.rearmed conn) else none
  | _ => none

end ServerShared

namespace ServerLoop

/-- What follows `select`, as in `ServerEntry.selected`. -/
def selected (s : ServerLoop) (rfds : Finset Nat) : ServerLoop :=
  if rfds = ∅ then { s with point := .snapshot }
  else if rfds = {s.readFd} then { s with point := .snapshot }
  else if s.listenFd ∈ rfds then { s with point := .accept rfds }
  else { s with point := .traverse rfds s.connList }

def accepted (s : ServerLoop) (rfds : Finset Nat) (clientFd : Nat) : ServerLoop :=
  match objectPoolAcquire s.connections with
  | none => { s with toServerShared := s.watch clientFd, point := .traverse rfds s.connList }
  | some (conn, available) =>
      { toServerShared := (s.watch clientFd).setSocket conn (some clientFd)
        connections := available
        connList := listAppend s.connList conn
        point := .traverse rfds (listAppend s.connList conn) }

/-- `server_check_conn_in` up to the test of `rfds`. -/
def visited (s : ServerLoop) (rfds : Finset Nat) (conn : Ptr) (node : List Ptr) :
    ServerLoop × List LoopObs :=
  match s.socket conn with
  | none =>
      ({ s with
          connList := listRemove s.connList conn
          connections := objectPoolReturn s.connections conn
          point := .traverse rfds node },
        [.visited conn none, .returned conn])
  | some fd =>
      ({ s with point := if fd ∈ rfds then .dispatch rfds conn node else .traverse rfds node },
        [.visited conn (some fd)])

section
variable {s : ServerLoop} {rfds : Finset Nat} {conn : Ptr}

theorem accepted_nil {clientFd : Nat} (h : s.connections = []) :
    s.accepted rfds clientFd =
      { s with toServerShared := s.watch clientFd, point := .traverse rfds s.connList } := by
  simp [accepted, objectPoolAcquire, h]

theorem accepted_cons {clientFd : Nat} {available : List Ptr}
    (h : s.connections = conn :: available) :
    s.accepted rfds clientFd =
      { toServerShared := (s.watch clientFd).setSocket conn (some clientFd)
        connections := available
        connList := listAppend s.connList conn
        point := .traverse rfds (listAppend s.connList conn) } := by
  simp [accepted, objectPoolAcquire, h]

theorem visited_none {node : List Ptr} (h : s.socket conn = none) :
    s.visited rfds conn node =
      ({ s with
          connList := listRemove s.connList conn
          connections := objectPoolReturn s.connections conn
          point := .traverse rfds node },
        [.visited conn none, .returned conn]) := by
  simp [visited, h]

theorem visited_some {node : List Ptr} {fd : Nat} (h : s.socket conn = some fd) :
    s.visited rfds conn node =
      ({ s with point := if fd ∈ rfds then .dispatch rfds conn node else .traverse rfds node },
        [.visited conn (some fd)]) := by
  simp [visited, h]

end

end ServerLoop

/-- A descriptor that is open is not given out again, and what is set in `rfds` was watched.
    When `select` fails, the loop ends.  The sets have no bound here (`AcceptsBelow`). -/
def serverLoopStep (s : ServerLoop) (e : LoopEvent) : Option (ServerLoop × List LoopObs) :=
  match e, s.point with
  | .snapshot, .snapshot => some ({ s with point := .select s.fds }, [])
  | .select rfds, .select snapshot => if rfds ⊆ snapshot then some (s.selected rfds, []) else none
  | .accept none, .accept _ => some ({ s with point := .snapshot }, [])
  | .accept (some clientFd), .accept rfds =>
      if clientFd ∈ s.openFds then none else some (s.accepted rfds clientFd, [])
  | .visit, .traverse _ [] => some ({ s with point := .snapshot }, [])
  | .visit, .traverse rfds (conn :: node) => some (s.visited rfds conn node)
  | .dispatch, .dispatch rfds conn node =>
      some ({ s with toServerShared := s.dispatched conn, point := .traverse rfds node }, [])
  | e, _ => (s.workerStep e).map fun shared => ({ s with toServerShared := shared }, [])

/-- Before the loop: a pool of `num_max_connections` objects, and no connection. -/
structure ServerLoop.Started (s : ServerLoop) : Prop where
  connections : s.connections.Nodup
  connList : s.connList = []
  fds : s.fds = {s.listenFd, s.readFd}
  tasks : s.tasks = []
  openFds : s.fds ⊆ s.openFds
  point : s.point = .snapshot

/-- What one step can do. -/
inductive LoopStep (s : ServerLoop) : LoopEvent → ServerLoop × List LoopObs → Prop where
  | snapshot (hpoint : s.point = .snapshot) :
      LoopStep s .snapshot ({ s with point := .select s.fds }, [])
  | select {snapshot rfds : Finset Nat} (hpoint : s.point = .select snapshot)
      (hrfds : rfds ⊆ snapshot) : LoopStep s (.select rfds) (s.selected rfds, [])
  | refused {rfds : Finset Nat} (hpoint : s.point = .accept rfds) :
      LoopStep s (.accept none) ({ s with point := .snapshot }, [])
  | accept {rfds : Finset Nat} {clientFd : Nat} (hpoint : s.point = .accept rfds)
      (hnew : clientFd ∉ s.openFds) :
      LoopStep s (.accept (some clientFd)) (s.accepted rfds clientFd, [])
  | finish {rfds : Finset Nat} (hpoint : s.point = .traverse rfds []) :
      LoopStep s .visit ({ s with point := .snapshot }, [])
  | visit {rfds : Finset Nat} {conn : Ptr} {node : List Ptr}
      (hpoint : s.point = .traverse rfds (conn :: node)) :
      LoopStep s .visit (s.visited rfds conn node)
  | dispatch {rfds : Finset Nat} {conn : Ptr} {node : List Ptr}
      (hpoint : s.point = .dispatch rfds conn node) :
      LoopStep s .dispatch
        ({ s with toServerShared := s.dispatched conn, point := .traverse rfds node }, [])
  | close {conn : Ptr} (htask : (conn, .serving) ∈ s.tasks) :
      LoopStep s (.close conn) ({ s with toServerShared := s.closed conn }, [])
  | mark {conn : Ptr} (htask : (conn, .closed) ∈ s.tasks) :
      LoopStep s (.mark conn) ({ s with toServerShared := s.marked conn }, [])
  | rearm {conn : Ptr} (htask : (conn, .serving) ∈ s.tasks) :
      LoopStep s (.rearm conn) ({ s with toServerShared := s.rearmed conn }, [])

theorem serverLoopStep_cases {s : ServerLoop} {e : LoopEvent} {r : ServerLoop × List LoopObs}
    (h : serverLoopStep s e = some r) : LoopStep s e r := by
  cases e with
  | snapshot =>
    cases hpoint : s.point <;> simp [serverLoopStep, ServerShared.workerStep, hpoint] at h
    exact h ▸ .snapshot hpoint
  | select rfds =>
    cases hpoint : s.point <;> simp [serverLoopStep, ServerShared.workerStep, hpoint] at h
    exact h.2 ▸ .select hpoint h.1
  | accept clientFd =>
    cases clientFd <;> cases hpoint : s.point <;>
      simp [serverLoopStep, ServerShared.workerStep, hpoint] at h
    · exact h ▸ .refused hpoint
    · exact h.2 ▸ .accept hpoint h.1
  | visit =>
    cases hpoint : s.point with
    | traverse rfds node =>
      cases node <;> simp [serverLoopStep, hpoint] at h
      · exact h ▸ .finish hpoint
      · exact h ▸ .visit hpoint
    | _ => simp [serverLoopStep, ServerShared.workerStep, hpoint] at h
  | dispatch =>
    cases hpoint : s.point <;> simp [serverLoopStep, ServerShared.workerStep, hpoint] at h
    exact h ▸ .dispatch hpoint
  | close conn =>
    simp [serverLoopStep, ServerShared.workerStep] at h
    exact h.2 ▸ .close h.1
  | mark conn =>
    simp [serverLoopStep, ServerShared.workerStep] at h
    exact h.2 ▸ .mark h.1
  | rearm conn =>
    simp [serverLoopStep, ServerShared.workerStep] at h
    exact h.2 ▸ .rearm h.1

theorem LoopStep.eq {s : ServerLoop} {e : LoopEvent} {r : ServerLoop × List LoopObs}
    (h : LoopStep s e r) : serverLoopStep s e = some r := by
  cases h with
  | snapshot hpoint => simp [serverLoopStep, hpoint]
  | select hpoint hrfds => simp [serverLoopStep, hpoint, hrfds]
  | refused hpoint => simp [serverLoopStep, hpoint]
  | accept hpoint hnew => simp [serverLoopStep, hpoint, hnew]
  | finish hpoint => simp [serverLoopStep, hpoint]
  | visit hpoint => simp [serverLoopStep, hpoint]
  | dispatch hpoint => simp [serverLoopStep, hpoint]
  | close htask => simp [serverLoopStep, ServerShared.workerStep, htask]
  | mark htask => simp [serverLoopStep, ServerShared.workerStep, htask]
  | rearm htask => simp [serverLoopStep, ServerShared.workerStep, htask]

/-! ## 3. The list, the pool and a traversal -/

/-- The nodes that `list_traverse` has still to visit. -/
def LoopPoint.rest : LoopPoint → List Ptr
  | .traverse _ node | .dispatch _ _ node => node
  | _ => []

/-- Every object is in the list or in the pool, and what is to be visited is the end of the
    list. -/
structure LoopLists (objects : List Ptr) (s : ServerLoop) : Prop where
  perm : (s.connList ++ s.connections).Perm objects
  rest : s.point.rest <:+ s.connList

section Lists
variable {objects : List Ptr} {s : ServerLoop}

theorem LoopLists.nodup (h : LoopLists objects s) (hobjects : objects.Nodup) :
    (s.connList ++ s.connections).Nodup := h.perm.nodup_iff.mpr hobjects

theorem selected_lists (h : LoopLists objects s) (rfds : Finset Nat) :
    LoopLists objects (s.selected rfds) := by
  unfold ServerLoop.selected
  split
  · exact ⟨h.perm, List.nil_suffix⟩
  split
  · exact ⟨h.perm, List.nil_suffix⟩
  split
  · exact ⟨h.perm, List.nil_suffix⟩
  · exact ⟨h.perm, List.suffix_refl _⟩

theorem accepted_lists (h : LoopLists objects s) (rfds : Finset Nat) (clientFd : Nat) :
    LoopLists objects (s.accepted rfds clientFd) := by
  cases hpool : s.connections with
  | nil =>
    rw [ServerLoop.accepted_nil hpool]
    exact ⟨h.perm, List.suffix_refl _⟩
  | cons conn available =>
    have hperm := h.perm
    rw [hpool] at hperm
    rw [ServerLoop.accepted_cons hpool]
    refine ⟨?_, List.suffix_refl _⟩
    simpa [listAppend] using hperm

/-- Taking out the node that is visited leaves what was before it and what is behind it. -/
theorem listRemove_mid {before node : List Ptr} {conn : Ptr}
    (hnodup : (before ++ conn :: node).Nodup) :
    listRemove (before ++ conn :: node) conn = before ++ node := by
  have hnot : conn ∉ before := fun hmem =>
    (List.nodup_append.mp hnodup).2.2 conn hmem conn List.mem_cons_self rfl
  simp [listRemove, List.erase_append_right _ hnot]

theorem visited_lists (hobjects : objects.Nodup) (h : LoopLists objects s) {rfds : Finset Nat}
    {conn : Ptr} {node : List Ptr} (hpoint : s.point = .traverse rfds (conn :: node)) :
    LoopLists objects (s.visited rfds conn node).1 := by
  have hrest := h.rest
  rw [hpoint] at hrest
  obtain ⟨before, hbefore⟩ := hrest
  cases hsocket : s.socket conn with
  | none =>
    rw [ServerLoop.visited_none hsocket]
    have hnodup := (List.nodup_append.mp (h.nodup hobjects)).1
    have hperm := h.perm
    rw [← hbefore] at hnodup hperm
    have hlist : listRemove s.connList conn = before ++ node := by
      rw [← hbefore]
      exact listRemove_mid hnodup
    constructor
    · simp only [hlist, objectPoolReturn, List.append_assoc]
      refine List.Perm.trans ?_ hperm
      rw [LoopPoint.rest, List.append_assoc, List.cons_append]
      exact List.Perm.append_left before List.perm_middle
    · rw [hlist]
      exact List.suffix_append before node
  | some fd =>
    have hsuffix : node <:+ s.connList :=
      (List.suffix_cons conn node).trans ⟨before, hbefore⟩
    rw [ServerLoop.visited_some hsocket]
    refine ⟨h.perm, ?_⟩
    show LoopPoint.rest (if fd ∈ rfds then _ else _) <:+ s.connList
    split <;> exact hsuffix

theorem serverLoopStep_lists (hobjects : objects.Nodup) (h : LoopLists objects s) {e : LoopEvent}
    {r : ServerLoop × List LoopObs} (hstep : serverLoopStep s e = some r) :
    LoopLists objects r.1 := by
  cases serverLoopStep_cases hstep with
  | snapshot => exact ⟨h.perm, List.nil_suffix⟩
  | select => exact selected_lists h _
  | refused => exact ⟨h.perm, List.nil_suffix⟩
  | accept => exact accepted_lists h _ _
  | finish => exact ⟨h.perm, List.nil_suffix⟩
  | visit hpoint => exact visited_lists hobjects h hpoint
  | dispatch hpoint =>
    have hrest := h.rest
    rw [hpoint] at hrest
    exact ⟨h.perm, hrest⟩
  | close => exact ⟨h.perm, h.rest⟩
  | mark => exact ⟨h.perm, h.rest⟩
  | rearm => exact ⟨h.perm, h.rest⟩

/-- **Every object stays in the list or in the pool**, in every run. -/
theorem loop_lists (hobjects : objects.Nodup)
    (h : Reachable serverLoopStep (fun _ _ => True)
      (fun s => s.Started ∧ s.connections = objects) s) : LoopLists objects s := by
  apply h.invariant
  · rintro s ⟨hs, rfl⟩
    constructor
    · rw [hs.connList]
      exact .refl _
    · rw [hs.point]
      exact List.nil_suffix
  · intro s e r hinv _ hr
    exact serverLoopStep_lists hobjects hinv hr

end Lists

/-- The connections that are visited. -/
def visitedConns (obs : List LoopObs) : List Ptr :=
  obs.filterMap fun
    | .visited conn _ => some conn
    | .returned _ => none

/-- The connections that are found closed. -/
def closedConns (obs : List LoopObs) : List Ptr :=
  obs.filterMap fun
    | .visited conn none => some conn
    | _ => none

/-- The connections that are given back to the pool. -/
def returnedConns (obs : List LoopObs) : List Ptr :=
  obs.filterMap fun
    | .returned conn => some conn
    | .visited .. => none

@[simp] theorem visitedConns_append (obs obs' : List LoopObs) :
    visitedConns (obs ++ obs') = visitedConns obs ++ visitedConns obs' := List.filterMap_append

@[simp] theorem closedConns_append (obs obs' : List LoopObs) :
    closedConns (obs ++ obs') = closedConns obs ++ closedConns obs' := List.filterMap_append

@[simp] theorem returnedConns_append (obs obs' : List LoopObs) :
    returnedConns (obs ++ obs') = returnedConns obs ++ returnedConns obs' := List.filterMap_append

/-- `rest` is what a traversal has still to visit; at its end it is nothing. -/
inductive Traversing : LoopPoint → List Ptr → Prop where
  | traverse (rfds : Finset Nat) (node : List Ptr) : Traversing (.traverse rfds node) node
  | dispatch (rfds : Finset Nat) (conn : Ptr) (node : List Ptr) :
      Traversing (.dispatch rfds conn node) node
  | finished : Traversing .snapshot []

/-- What a part of a traversal does: it visits a part of the nodes, and what it finds closed
    goes from the list to the pool. -/
structure Traversed (rest : List Ptr) (s : ServerLoop) (obs : List LoopObs) (rest' : List Ptr)
    (s' : ServerLoop) : Prop where
  visits : visitedConns obs ++ rest' = rest
  returns : returnedConns obs = closedConns obs
  connections : s'.connections = (returnedConns obs).reverse ++ s.connections
  connList : s'.connList = s.connList.filter (· ∉ returnedConns obs)

section Traversal
variable {objects rest : List Ptr} {s : ServerLoop}

/-- Nothing is visited, and the list and the pool stay. -/
theorem Traversed.same {s' : ServerLoop} (rest : List Ptr) (hpool : s'.connections = s.connections)
    (hlist : s'.connList = s.connList) : Traversed rest s [] rest s' :=
  ⟨rfl, rfl, hpool, by simp [returnedConns, hlist]⟩

theorem Traversed.trans {rest' rest'' : List Ptr} {s' s'' : ServerLoop} {obs obs' : List LoopObs}
    (h : Traversed rest s obs rest' s') (h' : Traversed rest' s' obs' rest'' s'') :
    Traversed rest s (obs ++ obs') rest'' s'' where
  visits := by
    rw [visitedConns_append, List.append_assoc, h'.visits, h.visits]
  returns := by
    rw [returnedConns_append, closedConns_append, h.returns, h'.returns]
  connections := by
    rw [h'.connections, h.connections, returnedConns_append, List.reverse_append, List.append_assoc]
  connList := by
    rw [h'.connList, h.connList, List.filter_filter, returnedConns_append]
    congr 1
    funext conn
    simp [Bool.and_comm]

/-- One step of a traversal, or of a worker during it. -/
theorem traversed_step (hobjects : objects.Nodup) (h : LoopLists objects s)
    (hrest : Traversing s.point rest) {e : LoopEvent} (he : e ≠ .snapshot)
    {r : ServerLoop × List LoopObs} (hstep : serverLoopStep s e = some r) :
    ∃ rest', Traversing r.1.point rest' ∧ Traversed rest s r.2 rest' r.1 := by
  cases serverLoopStep_cases hstep with
  | snapshot => exact absurd rfl he
  | select hpoint => exact absurd hrest (by rw [hpoint]; nofun)
  | refused hpoint => exact absurd hrest (by rw [hpoint]; nofun)
  | accept hpoint => exact absurd hrest (by rw [hpoint]; nofun)
  | finish hpoint =>
    rw [hpoint] at hrest
    cases hrest
    exact ⟨[], .finished, .same [] rfl rfl⟩
  | @visit rfds conn node hpoint =>
    rw [hpoint] at hrest
    cases hrest
    cases hsocket : s.socket conn with
    | none =>
      rw [ServerLoop.visited_none hsocket]
      have hnodup := (List.nodup_append.mp (h.nodup hobjects)).1
      refine ⟨node, .traverse rfds node, rfl, rfl, rfl, ?_⟩
      rw [listRemove, hnodup.erase_eq_filter]
      apply List.filter_congr
      intro conn' _
      by_cases heq : conn' = conn <;> simp [returnedConns, heq]
    | some fd =>
      rw [ServerLoop.visited_some hsocket]
      refine ⟨node, ?_, rfl, rfl, rfl, by simp [returnedConns]⟩
      show Traversing (if fd ∈ rfds then _ else _) node
      split
      · exact .dispatch ..
      · exact .traverse ..
  | dispatch hpoint =>
    rw [hpoint] at hrest
    cases hrest
    exact ⟨_, .traverse .., .same _ rfl rfl⟩
  | close => exact ⟨rest, hrest, .same _ rfl rfl⟩
  | mark => exact ⟨rest, hrest, .same _ rfl rfl⟩
  | rearm => exact ⟨rest, hrest, .same _ rfl rfl⟩

/-- A whole traversal, or a part of it, and whatever the workers do meanwhile. -/
theorem traversed_run (hobjects : objects.Nodup) (h : LoopLists objects s)
    (hrest : Traversing s.point rest) {es : List LoopEvent} (hes : .snapshot ∉ es)
    {r : ServerLoop × List LoopObs} (hrun : Run.run serverLoopStep es s = some r) :
    ∃ rest', Traversing r.1.point rest' ∧ Traversed rest s r.2 rest' r.1 := by
  induction es generalizing s rest r with
  | nil =>
    cases hrun
    exact ⟨rest, hrest, .same _ rfl rfl⟩
  | cons e es ih =>
    obtain ⟨r₁, r₂, hstep, htail, rfl⟩ := run_cons.mp hrun
    have he : e ≠ .snapshot := fun heq => hes (heq ▸ List.mem_cons_self)
    obtain ⟨rest₁, hrest₁, hdone⟩ := traversed_step hobjects h hrest he hstep
    obtain ⟨rest₂, hrest₂, hdone'⟩ := ih (serverLoopStep_lists hobjects h hstep) hrest₁
      (fun hmem => hes (List.mem_cons_of_mem e hmem)) htail
    exact ⟨rest₂, hrest₂, hdone.trans hdone'⟩

end Traversal

/-! ## 4. Sets of descriptors -/

/-- The descriptors that the main loop has found set, or looks at. -/
def LoopPoint.fds : LoopPoint → Finset Nat
  | .snapshot => ∅
  | .select fds | .accept fds | .traverse fds _ | .dispatch fds _ _ => fds

/-- The connections that the main loop is going to look at, or has in its hands. -/
def LoopPoint.conns : LoopPoint → List Ptr
  | .traverse _ node => node
  | .dispatch _ conn node => conn :: node
  | _ => []

/-- `FD_SETSIZE`: an `fd_set` has a bit for each number below it. -/
def fdSetSize : Nat := 1024

/-- What is relied on for `FD_SET`, `FD_CLR` and `FD_ISSET`: `accept` gives out no number that an
    `fd_set` has no bit for, as it does under a limit of `FD_SETSIZE` open descriptors. -/
def AcceptsBelow (_ : ServerLoop) : LoopEvent → Prop
  | .accept (some clientFd) => clientFd < fdSetSize
  | _ => True

/-- The connections whose `socket` is looked at. -/
def ServerLoop.Knows (s : ServerLoop) (conn : Ptr) : Prop :=
  conn ∈ s.connList ∨ conn ∈ s.point.conns ∨ conn ∈ s.tasks.map Prod.fst

/-- Every number that is set, tested or cleared has its bit. -/
structure FitsFdSet (s : ServerLoop) : Prop where
  fds : ∀ fd ∈ s.fds, fd < fdSetSize
  point : ∀ fd ∈ s.point.fds, fd < fdSetSize
  socket : ∀ conn, s.Knows conn → ∀ fd, s.socket conn = some fd → fd < fdSetSize

section Sets
variable {s : ServerLoop} (h : FitsFdSet s)
include h

/-- Where no socket is changed and no connection comes in. -/
theorem FitsFdSet.keep {s' : ServerLoop} (hfds : s'.fds ⊆ s.fds) (hsocket : s'.socket = s.socket)
    (hpoint : ∀ fd ∈ s'.point.fds, fd < fdSetSize) (hknows : ∀ conn, s'.Knows conn → s.Knows conn) :
    FitsFdSet s' :=
  ⟨fun fd hmem => h.fds fd (hfds hmem), hpoint,
    fun conn hconn fd hfd => h.socket conn (hknows conn hconn) fd (hsocket ▸ hfd)⟩

theorem selected_fits {rfds : Finset Nat} (hrfds : ∀ fd ∈ rfds, fd < fdSetSize) :
    FitsFdSet (s.selected rfds) := by
  have hnone : ∀ fd ∈ (∅ : Finset Nat), fd < fdSetSize := fun fd hmem =>
    absurd hmem (Finset.notMem_empty fd)
  have hback : FitsFdSet { s with point := .snapshot } := by
    refine h.keep (Finset.Subset.refl _) rfl hnone ?_
    rintro conn (hmem | hmem | hmem)
    · exact .inl hmem
    · exact absurd hmem List.not_mem_nil
    · exact .inr (.inr hmem)
  unfold ServerLoop.selected
  split_ifs
  · exact hback
  · exact hback
  · refine h.keep (Finset.Subset.refl _) rfl hrfds ?_
    rintro conn (hmem | hmem | hmem)
    · exact .inl hmem
    · exact absurd hmem List.not_mem_nil
    · exact .inr (.inr hmem)
  · refine h.keep (Finset.Subset.refl _) rfl hrfds ?_
    rintro conn (hmem | hmem | hmem)
    · exact .inl hmem
    · exact .inl hmem
    · exact .inr (.inr hmem)

theorem accepted_fits {rfds : Finset Nat} (hpoint : s.point = .accept rfds) {clientFd : Nat}
    (hfd : clientFd < fdSetSize) : FitsFdSet (s.accepted rfds clientFd) := by
  have hrfds : ∀ fd ∈ rfds, fd < fdSetSize := by
    have hset := h.point
    rwa [hpoint] at hset
  have hwatched : ∀ fd ∈ insert clientFd s.fds, fd < fdSetSize := by
    intro fd hmem
    rcases Finset.mem_insert.mp hmem with rfl | hmem
    · exact hfd
    · exact h.fds fd hmem
  cases hpool : s.connections with
  | nil =>
    rw [ServerLoop.accepted_nil hpool]
    refine ⟨hwatched, hrfds, ?_⟩
    rintro conn (hmem | hmem | hmem)
    · exact h.socket conn (.inl hmem)
    · exact h.socket conn (.inl hmem)
    · exact h.socket conn (.inr (.inr hmem))
  | cons conn available =>
    rw [ServerLoop.accepted_cons hpool]
    refine ⟨hwatched, hrfds, ?_⟩
    intro conn' hknows fd hsocket
    rcases update_socket_cases hsocket with ⟨-, rfl⟩ | ⟨hne, hsocket⟩
    · exact hfd
    · have hlist : conn' ∈ listAppend s.connList conn → conn' ∈ s.connList := fun hmem =>
        (mem_listAppend.mp hmem).resolve_right hne
      refine h.socket conn' ?_ fd hsocket
      rcases hknows with hmem | hmem | hmem
      · exact .inl (hlist hmem)
      · exact .inl (hlist hmem)
      · exact .inr (.inr hmem)

theorem visited_fits {rfds : Finset Nat} {conn : Ptr} {node : List Ptr}
    (hpoint : s.point = .traverse rfds (conn :: node)) :
    FitsFdSet (s.visited rfds conn node).1 := by
  have hrfds := h.point
  rw [hpoint] at hrfds
  have hnode : ∀ conn' ∈ conn :: node, s.Knows conn' := by
    intro conn' hmem
    refine .inr (.inl ?_)
    rw [hpoint]
    exact hmem
  cases hsocket : s.socket conn with
  | none =>
    rw [ServerLoop.visited_none hsocket]
    refine h.keep (Finset.Subset.refl _) rfl hrfds ?_
    rintro conn' (hmem | hmem | hmem)
    · exact .inl (List.mem_of_mem_erase hmem)
    · exact hnode conn' (List.mem_cons_of_mem conn hmem)
    · exact .inr (.inr hmem)
  | some fd =>
    rw [ServerLoop.visited_some hsocket]
    dsimp only
    split_ifs
    · refine h.keep (Finset.Subset.refl _) rfl hrfds ?_
      rintro conn' (hmem | hmem | hmem)
      · exact .inl hmem
      · exact hnode conn' hmem
      · exact .inr (.inr hmem)
    · refine h.keep (Finset.Subset.refl _) rfl hrfds ?_
      rintro conn' (hmem | hmem | hmem)
      · exact .inl hmem
      · exact hnode conn' (List.mem_cons_of_mem conn hmem)
      · exact .inr (.inr hmem)

theorem serverLoopStep_fits {e : LoopEvent} (hbelow : AcceptsBelow s e)
    {r : ServerLoop × List LoopObs} (hstep : serverLoopStep s e = some r) : FitsFdSet r.1 := by
  have hnone : ∀ fd ∈ (∅ : Finset Nat), fd < fdSetSize := fun fd hmem =>
    absurd hmem (Finset.notMem_empty fd)
  -- outside of a traversal only the list and the tasks are known
  have hknows : ∀ conn, (conn ∈ s.connList ∨ conn ∈ ([] : List Ptr) ∨
      conn ∈ s.tasks.map Prod.fst) → s.Knows conn := by
    rintro conn (hmem | hmem | hmem)
    · exact .inl hmem
    · exact absurd hmem List.not_mem_nil
    · exact .inr (.inr hmem)
  have htask : ∀ {t : Ptr × TaskPhase}, t ∈ s.tasks → t.1 ∈ s.tasks.map Prod.fst :=
    List.mem_map_of_mem
  have herase : ∀ {conn t}, conn ∈ (s.tasks.erase t).map Prod.fst → conn ∈ s.tasks.map Prod.fst :=
    fun hmem => (List.erase_sublist.map Prod.fst).subset hmem
  have hset := h.point
  cases serverLoopStep_cases hstep with
  | snapshot => exact h.keep (Finset.Subset.refl _) rfl h.fds hknows
  | select hpoint hrfds =>
    rw [hpoint] at hset
    exact selected_fits h fun fd hmem => hset fd (hrfds hmem)
  | refused => exact h.keep (Finset.Subset.refl _) rfl hnone hknows
  | accept hpoint => exact accepted_fits h hpoint hbelow
  | finish => exact h.keep (Finset.Subset.refl _) rfl hnone hknows
  | visit hpoint => exact visited_fits h hpoint
  | @dispatch rfds conn node hpoint =>
    rw [hpoint] at hset
    refine h.keep ?_ rfl hset ?_
    · unfold ServerShared.dispatched
      dsimp only
      split
      · exact Finset.Subset.refl _
      · exact Finset.erase_subset _ _
    · have hpart : ∀ conn' ∈ conn :: node, s.Knows conn' := by
        intro conn' hmem
        refine .inr (.inl ?_)
        rw [hpoint]
        exact hmem
      rintro conn' (hmem | hmem | hmem)
      · exact .inl hmem
      · exact hpart conn' (List.mem_cons_of_mem conn hmem)
      · rw [ServerShared.dispatched, List.map_append, List.mem_append] at hmem
        rcases hmem with hmem | hmem
        · exact .inr (.inr hmem)
        · exact List.mem_singleton.mp hmem ▸ hpart conn List.mem_cons_self
  | @close conn hserving =>
    refine h.keep (Finset.Subset.refl _) rfl h.point ?_
    rintro conn' (hmem | hmem | hmem)
    · exact .inl hmem
    · exact .inr (.inl hmem)
    · refine .inr (.inr ?_)
      rw [ServerShared.closed, List.map_append, List.mem_append] at hmem
      rcases hmem with hmem | hmem
      · exact herase hmem
      · have hconn := htask hserving
        rw [List.mem_singleton.mp hmem]
        exact hconn
  | @mark conn =>
    refine ⟨h.fds, h.point, ?_⟩
    intro conn' hmem fd hsocket
    have hne : conn' ≠ conn := by
      rintro rfl
      exact absurd ((Function.update_self ..).symm.trans hsocket) nofun
    refine h.socket conn' ?_ fd ((Function.update_of_ne hne ..).symm.trans hsocket)
    exact hmem.imp_right (Or.imp_right herase)
  | @rearm conn hserving =>
    refine ⟨?_, h.point, fun conn' hmem =>
      h.socket conn' (hmem.imp_right (Or.imp_right herase))⟩
    intro fd hmem
    unfold ServerShared.rearmed at hmem
    dsimp only at hmem
    split at hmem
    next => exact h.fds fd hmem
    next fd' hsocket =>
      rcases Finset.mem_insert.mp hmem with rfl | hmem
      · exact h.socket conn (.inr (.inr (htask hserving))) fd hsocket
      · exact h.fds fd hmem

end Sets

/-- Before the loop, with two descriptors that have their bits. -/
def ServerLoop.StartsBelow (s : ServerLoop) : Prop :=
  s.Started ∧ s.listenFd < fdSetSize ∧ s.readFd < fdSetSize

/-- **The sets of the main loop are `fd_set`s**: while `accept` gives out numbers that have a bit,
    every number that is set, tested or cleared has one. -/
theorem serverLoop_fits {s : ServerLoop}
    (h : Reachable serverLoopStep AcceptsBelow ServerLoop.StartsBelow s) : FitsFdSet s := by
  refine Reachable.invariant (P := FitsFdSet) ?_
    (fun _ _ _ hinv hbelow hstep => serverLoopStep_fits hinv hbelow hstep) h
  rintro s ⟨hs, hlisten, hread⟩
  refine ⟨?_, ?_, ?_⟩
  · intro fd hmem
    rw [hs.fds, Finset.mem_insert, Finset.mem_singleton] at hmem
    rcases hmem with rfl | rfl
    · exact hlisten
    · exact hread
  · rw [hs.point]
    exact fun fd hmem => absurd hmem (Finset.notMem_empty fd)
  · rintro conn (hmem | hmem | hmem)
    · rw [hs.connList] at hmem
      exact absurd hmem List.not_mem_nil
    · rw [hs.point] at hmem
      exact absurd hmem List.not_mem_nil
    · rw [hs.tasks] at hmem
      exact absurd hmem List.not_mem_nil

/-! ## 5. The steps of `ServerEntry` -/

def EntryPoint.loop : EntryPoint → LoopPoint
  | .select => .snapshot
  | .accept rfds => .accept rfds
  | .traverse rfds node => .traverse rfds node

/-- A worker's activation is one step there, so that no task is closed. -/
def ServerEntry.loop (s : ServerEntry) : ServerLoop where
  listenFd := s.listenFd
  readFd := s.readFd
  socket := s.socket
  fds := s.fds
  openFds := s.openFds
  tasks := s.tasks.map fun conn => (conn, .serving)
  connections := s.connections
  connList := s.connList
  point := s.point.loop

section Entry
variable {s : ServerEntry}

theorem selected_loop (hpoint : s.point = .select) (snapshot rfds : Finset Nat) :
    ServerLoop.selected { s.loop with point := .select snapshot } rfds = (s.selected rfds).loop := by
  unfold ServerLoop.selected ServerEntry.selected
  by_cases hempty : rfds = ∅
  · simp [hempty, ServerEntry.loop, hpoint, EntryPoint.loop]
  by_cases hread : rfds = {s.readFd}
  · simp [hread, ServerEntry.loop, hpoint, EntryPoint.loop]
  by_cases hlisten : s.listenFd ∈ rfds <;>
    simp [hempty, hread, hlisten, ServerEntry.loop, EntryPoint.loop]

theorem accepted_loop (s : ServerEntry) (rfds : Finset Nat) (clientFd : Nat) :
    s.loop.accepted rfds clientFd = (s.accepted rfds clientFd).loop := by
  cases hpool : s.connections with
  | nil =>
    rw [ServerLoop.accepted_nil hpool, ServerEntry.accepted_nil hpool]
    rfl
  | cons conn available =>
    rw [ServerLoop.accepted_cons hpool, ServerEntry.accepted_cons hpool]
    rfl

/-- A visit, and the handing over that may follow it. -/
theorem checkConnIn_loop {rfds : Finset Nat} {conn : Ptr} {node : List Ptr}
    (hpoint : s.point = .traverse rfds (conn :: node)) :
    ∃ es obs, Run.run serverLoopStep es s.loop =
      some (ServerEntry.loop { s.checkConnIn rfds conn with point := .traverse rfds node }, obs) ∧
      ∀ clientFd, .accept (some clientFd) ∉ es := by
  have hpoint' : s.loop.point = .traverse rfds (conn :: node) := by
    simp [ServerEntry.loop, hpoint, EntryPoint.loop]
  have hvisit := (LoopStep.visit hpoint').eq
  cases hsocket : s.socket conn with
  | none =>
    have hsocket' : s.loop.socket conn = none := hsocket
    rw [ServerLoop.visited_none hsocket'] at hvisit
    refine ⟨[.visit], [.visited conn none, .returned conn],
      run_cons.mpr ⟨_, _, hvisit, rfl, ?_⟩, by simp⟩
    simp [ServerEntry.checkConnIn, hsocket, ServerEntry.reaped, ServerEntry.loop, EntryPoint.loop]
  | some fd =>
    have hsocket' : s.loop.socket conn = some fd := hsocket
    rw [ServerLoop.visited_some hsocket'] at hvisit
    by_cases hset : fd ∈ rfds
    · rw [if_pos hset] at hvisit
      have hdispatch := (LoopStep.dispatch (s := { s.loop with point := .dispatch rfds conn node }) rfl).eq
      refine ⟨[.visit, .dispatch], [.visited conn (some fd)],
        run_cons.mpr ⟨_, _, hvisit, run_cons.mpr ⟨_, _, hdispatch, rfl, rfl⟩, ?_⟩, by simp⟩
      simp [ServerEntry.checkConnIn, hset, hsocket, ServerEntry.dispatched, ServerShared.dispatched,
        ServerEntry.loop, EntryPoint.loop]
    · rw [if_neg hset] at hvisit
      refine ⟨[.visit], [.visited conn (some fd)], run_cons.mpr ⟨_, _, hvisit, rfl, ?_⟩, by simp⟩
      simp [ServerEntry.checkConnIn, hset, hsocket, ServerEntry.loop, EntryPoint.loop]

/-- A task of `ServerEntry`, among the tasks here. -/
theorem mem_loop_tasks {conn : Ptr} :
    (conn, TaskPhase.serving) ∈ s.loop.tasks ↔ conn ∈ s.tasks := by
  simp [ServerEntry.loop]

theorem erase_loop_tasks (tasks : List Ptr) (conn : Ptr) :
    (tasks.map fun conn => (conn, TaskPhase.serving)).erase (conn, .serving) =
      (tasks.erase conn).map fun conn => (conn, .serving) := by
  have hinj : Function.Injective fun conn : Ptr => (conn, TaskPhase.serving) :=
    fun _ _ heq => congrArg Prod.fst heq
  exact (List.map_erase hinj tasks).symm

theorem watchedAgain_loop {conn : Ptr} {fd : Nat} (hsocket : s.socket conn = some fd)
    (htask : conn ∈ s.tasks) (info : ConnectionInfo) :
    Run.run serverLoopStep [.rearm conn] s.loop = some ((s.watchedAgain conn fd info).loop, []) := by
  have htask' := mem_loop_tasks.mpr htask
  have hstep : serverLoopStep s.loop (.rearm conn) =
      some ({ s.loop with toServerShared := s.loop.rearmed conn }, []) := by
    simp [serverLoopStep, ServerShared.workerStep, htask']
  refine run_cons.mpr ⟨_, _, hstep, rfl, ?_⟩
  simp [ServerShared.rearmed, ServerEntry.loop, ServerEntry.watchedAgain, erase_loop_tasks, hsocket]

theorem closed_loop {conn : Ptr} {fd : Nat} (hsocket : s.socket conn = some fd)
    (htask : conn ∈ s.tasks) (info : ConnectionInfo) :
    Run.run serverLoopStep [.close conn, .mark conn] s.loop =
      some ((s.closed conn fd info).loop, []) := by
  have htask' := mem_loop_tasks.mpr htask
  have hclose : serverLoopStep s.loop (.close conn) =
      some ({ s.loop with toServerShared := s.loop.closed conn }, []) := by
    simp [serverLoopStep, ServerShared.workerStep, htask']
  have hmark : serverLoopStep { s.loop with toServerShared := s.loop.closed conn } (.mark conn) =
      some ({ s.loop with toServerShared := (s.loop.closed conn).marked conn }, []) := by
    simp [serverLoopStep, ServerShared.workerStep, ServerShared.closed]
  refine run_cons.mpr ⟨_, _, hclose, run_cons.mpr ⟨_, _, hmark, rfl, rfl⟩, ?_⟩
  have hnot : (conn, TaskPhase.closed) ∉
      (s.tasks.erase conn).map fun conn => (conn, TaskPhase.serving) := by simp
  simp [ServerShared.closed, ServerShared.marked, ServerEntry.loop, ServerEntry.closed,
    erase_loop_tasks, hsocket, List.erase_append_right _ hnot]

/-- **A step of `ServerEntry` is a run of the steps here**: the copy and `select`, the test and the
    handing over, or what a worker does at the end of its activation; `accept` returns what it
    returns there. -/
theorem ServerEntry.loop_run {root : List UInt8} {e : EntryEvent}
    {r : ServerEntry × List ServerObs} (h : serverEntryStep root s e = some r) :
    ∃ es obs, Run.run serverLoopStep es s.loop = some (r.1.loop, obs) ∧
      ∀ clientFd, .accept (some clientFd) ∈ es → e = .accept (some clientFd) := by
  have hloop : ∀ {point}, s.point = point → s.loop.point = point.loop := congrArg EntryPoint.loop
  cases serverEntryStep_cases h with
  | @select rfds hpoint hrfds =>
    have hsnapshot := (LoopStep.snapshot (hloop hpoint)).eq
    have hselect :=
      (LoopStep.select (s := { s.loop with point := .select s.loop.fds }) rfl hrfds).eq
    refine ⟨[.snapshot, .select rfds], [],
      run_cons.mpr ⟨_, _, hsnapshot, run_cons.mpr ⟨_, _, hselect, rfl, rfl⟩, ?_⟩, by simp⟩
    rw [selected_loop hpoint]
    rfl
  | refused hpoint =>
    exact ⟨[.accept none], [],
      run_cons.mpr ⟨_, _, (LoopStep.refused (hloop hpoint)).eq, rfl, rfl⟩, by simp⟩
  | @accept rfds clientFd hpoint hfresh =>
    have haccept := (LoopStep.accept (s := s.loop) (hloop hpoint) hfresh).eq
    rw [accepted_loop] at haccept
    refine ⟨[.accept (some clientFd)], [], run_cons.mpr ⟨_, _, haccept, rfl, rfl⟩, ?_⟩
    intro clientFd' hmem
    obtain rfl := Option.some.inj (LoopEvent.accept.inj (List.mem_singleton.mp hmem))
    rfl
  | finish hpoint =>
    exact ⟨[.visit], [], run_cons.mpr ⟨_, _, (LoopStep.finish (hloop hpoint)).eq, rfl, rfl⟩,
      by simp⟩
  | visit hpoint =>
    obtain ⟨es, obs, hrun, hnone⟩ := checkConnIn_loop hpoint
    exact ⟨es, obs, hrun, fun clientFd hmem => absurd hmem (hnone clientFd)⟩
  | @watchedAgain conn _ _ fd info _ hsocket _ htask =>
    exact ⟨[.rearm conn], [], watchedAgain_loop hsocket htask info, by simp⟩
  | @closed conn _ _ fd info _ hsocket _ htask =>
    exact ⟨[.close conn, .mark conn], [], closed_loop hsocket htask info, by simp⟩

/-- What is relied on in `ServerEntry`. -/
def EntryAcceptsBelow (_ : ServerEntry) : EntryEvent → Prop
  | .accept (some clientFd) => clientFd < fdSetSize
  | _ => True

/-- **The sets of `ServerEntry` are `fd_set`s**, under the same assumption. -/
theorem serverEntry_fits {root : List UInt8} {s : ServerEntry}
    (h : Reachable (serverEntryStep root) EntryAcceptsBelow
      (fun s => s.Started ∧ s.listenFd < fdSetSize ∧ s.readFd < fdSetSize) s) :
    FitsFdSet s.loop := by
  apply serverLoop_fits
  induction h with
  | @init s h =>
    obtain ⟨hs, hbelow⟩ := h
    refine .init ⟨⟨hs.connections, hs.connList, hs.fds, ?_, hs.openFds, ?_⟩, hbelow⟩
    · simp [ServerEntry.loop, hs.tasks]
    · simp [ServerEntry.loop, hs.point, EntryPoint.loop]
  | @step s e r _ hbelow hstep ih =>
    obtain ⟨es, obs, hrun, haccepts⟩ := ServerEntry.loop_run hstep
    refine ih.run ?_ hrun
    refine allowed_of_invariant (P := fun _ => True) ?_ (fun _ _ _ _ _ _ => trivial) trivial
    intro s' e' hmem _
    cases e' with
    | accept clientFd =>
      cases clientFd with
      | none => trivial
      | some clientFd =>
        rw [haccepts clientFd hmem] at hbelow
        exact hbelow
    | _ => trivial

end Entry

end OServer
