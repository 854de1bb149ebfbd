/-
  OServer/ServerEntry.lean
  ========================
  **The main loop (`server_entry`), the workers and the connection pool.**

  The main loop waits for the watched descriptors, accepts a connection, and goes
  through its connections: a closed one is given back to the pool, a readable one is
  handed to a worker and is not watched until the worker is done with it.

  A step is what the main loop does between two of its decisions, or a whole activation
  of a worker, which ends with the socket watched again or closed.

    * `EntryInv`            — which descriptors are watched, and who owns them;
    * `serverEntry_owned`   — every watched client descriptor has exactly one owner,
                              as long as no connection is accepted with an empty pool.
-/
import OServer.Server
import Mathlib.Data.Finset.Basic

namespace OServer

open Run

/-! ## 1. State -/

/-- Where the main loop is: before `select`, before `accept`, and in `list_traverse`
    with the nodes that are still to be visited. -/
inductive EntryPoint where
  | select
  | accept (rfds : Finset Nat)
  | traverse (rfds : Finset Nat) (node : List Ptr)
deriving DecidableEq

/-- `server_t`, the connections it points to, and the descriptors that are open. -/
structure ServerEntry where
  listenFd : Nat
  readFd : Nat
  /-- `connections.available_objects` -/
  connections : List Ptr
  connList : List Ptr
  /-- `conn->socket`; `none` is `-1` -/
  socket : Ptr → Option Nat
  conn : Ptr → ConnectionInfo
  fds : Finset Nat
  /-- the connections that a worker has been given, or will be -/
  tasks : List Ptr
  openFds : Finset Nat
  point : EntryPoint

inductive EntryEvent where
  /-- `select` returns and has set `rfds` -/
  | select (rfds : Finset Nat)
  /-- `accept` returns, `none` for `-1` -/
  | accept (clientFd : Option Nat)
  /-- `list_traverse` goes to its next node, or ends -/
  | visit
  /-- a whole activation of a worker, by what its calls are answered -/
  | activation (conn : Ptr) (stack : Buf UInt8 rbufSize) (answers : List ServerEvent)

/-! ## 2. Steps -/

def objectPoolAcquire : List Ptr → Option (Ptr × List Ptr)
  | [] => none
  | ob :: available => some (ob, available)

/-- Both branches of `object_pool_return`. -/
def objectPoolReturn (available : List Ptr) (ob : Ptr) : List Ptr := ob :: available

def listAppend (list : List Ptr) (node : Ptr) : List Ptr := list ++ [node]

theorem mem_listAppend {list : List Ptr} {node conn : Ptr} :
    conn ∈ listAppend list node ↔ conn ∈ list ∨ conn = node := by
  rw [listAppend, List.mem_append, List.mem_singleton]

theorem listAppend_nodup {list : List Ptr} {node : Ptr} (hlist : list.Nodup) (hnode : node ∉ list) :
    (listAppend list node).Nodup := by
  rw [listAppend, List.nodup_append]
  refine ⟨hlist, List.nodup_singleton node, ?_⟩
  intro conn hconn conn' hconn'
  rw [List.mem_singleton.mp hconn']
  exact ne_of_mem_of_not_mem hconn hnode

def listRemove (list : List Ptr) (node : Ptr) : List Ptr := list.erase node

/-- When one connection gets a socket, the others have what they had. -/
theorem update_socket_cases {socket : Ptr → Option Nat} {conn conn' : Ptr} {clientFd fd : Nat}
    (h : Function.update socket conn (some clientFd) conn' = some fd) :
    conn' = conn ∧ fd = clientFd ∨ conn' ≠ conn ∧ socket conn' = some fd := by
  by_cases heq : conn' = conn
  · subst heq
    rw [Function.update_self, Option.some.injEq] at h
    exact .inl ⟨rfl, h.symm⟩
  · rw [Function.update_of_ne heq] at h
    exact .inr ⟨heq, h⟩

namespace ServerEntry

/-- What follows `select`: nothing is ready; only the pipe is, which is emptied; a
    connection waits; or the connections are visited at once. -/
def selected (s : ServerEntry) (rfds : Finset Nat) : ServerEntry :=
  if rfds = ∅ then s
  else if rfds = {s.readFd} then s
  else if s.listenFd ∈ rfds then { s with point := .accept rfds }
  else { s with point := .traverse rfds s.connList }

/-- `accept` has returned a descriptor.  It is watched before a connection is there. -/
def accepted (s : ServerEntry) (rfds : Finset Nat) (clientFd : Nat) : ServerEntry :=
  let s := { s with fds := insert clientFd s.fds, openFds := insert clientFd s.openFds }
  match objectPoolAcquire s.connections with
  | none => { s with point := .traverse rfds s.connList }
  | some (conn, available) =>
      { s with
        connections := available
        connList := listAppend s.connList conn
        socket := Function.update s.socket conn (some clientFd)
        conn := Function.update s.conn conn (Connection.accepted (s.conn conn).dataBuffer).conn
        point := .traverse rfds (listAppend s.connList conn) }

theorem accepted_nil {s : ServerEntry} (h : s.connections = []) (rfds : Finset Nat)
    (clientFd : Nat) : s.accepted rfds clientFd =
      { s with
        fds := insert clientFd s.fds
        openFds := insert clientFd s.openFds
        point := .traverse rfds s.connList } := by
  simp only [accepted, h, objectPoolAcquire]

theorem accepted_cons {s : ServerEntry} {conn : Ptr} {available : List Ptr}
    (h : s.connections = conn :: available) (rfds : Finset Nat) (clientFd : Nat) :
    s.accepted rfds clientFd =
      { s with
        fds := insert clientFd s.fds
        openFds := insert clientFd s.openFds
        connections := available
        connList := listAppend s.connList conn
        socket := Function.update s.socket conn (some clientFd)
        conn := Function.update s.conn conn (Connection.accepted (s.conn conn).dataBuffer).conn
        point := .traverse rfds (listAppend s.connList conn) } := by
  simp only [accepted, h, objectPoolAcquire]

/-- The connection is closed: its object goes back to the pool. -/
def reaped (s : ServerEntry) (conn : Ptr) : ServerEntry :=
  { s with
    conn := Function.update s.conn conn
      { s.conn conn with
        request := httpRequestReset (s.conn conn).request
        response := httpResponseReset (s.conn conn).response .ok200 }
    connList := listRemove s.connList conn
    connections := objectPoolReturn s.connections conn }

/-- The socket is readable: a worker takes over. -/
def dispatched (s : ServerEntry) (conn : Ptr) (fd : Nat) : ServerEntry :=
  { s with fds := s.fds.erase fd, tasks := s.tasks ++ [conn] }

/-- `server_check_conn_in`. -/
def checkConnIn (s : ServerEntry) (rfds : Finset Nat) (conn : Ptr) : ServerEntry :=
  match s.socket conn with
  | none => s.reaped conn
  | some fd => if fd ∈ rfds then s.dispatched conn fd else s

/-- The worker keeps the connection. -/
def watchedAgain (s : ServerEntry) (conn : Ptr) (fd : Nat) (info : ConnectionInfo) : ServerEntry :=
  { s with
    conn := Function.update s.conn conn info
    fds := insert fd s.fds
    tasks := s.tasks.erase conn }

/-- The worker closes the connection. -/
def closed (s : ServerEntry) (conn : Ptr) (fd : Nat) (info : ConnectionInfo) : ServerEntry :=
  { s with
    conn := Function.update s.conn conn info
    socket := Function.update s.socket conn none
    openFds := s.openFds.erase fd
    tasks := s.tasks.erase conn }

end ServerEntry

/-- An event that another activation would begin with. -/
def ServerEvent.isActivate : ServerEvent → Bool
  | .activate _ => true
  | _ => false

/-- `server_serv_client` from the activation to its end. -/
def serverServClient (root : List UInt8) (info : ConnectionInfo) (stack : Buf UInt8 rbufSize)
    (answers : List ServerEvent) : Option (Connection × List ServerObs) :=
  if answers.any ServerEvent.isActivate then none
  else Run.run (serverStep root) (.activate stack :: answers) ⟨info, .waiting⟩

/-- A descriptor that is open is not given out again, and what is set in `rfds` is watched.
    When `select` fails, the loop ends. -/
def serverEntryStep (root : List UInt8) (s : ServerEntry) (e : EntryEvent) :
    Option (ServerEntry × List ServerObs) :=
  match e, s.point with
  | .select rfds, .select => if rfds ⊆ s.fds then some (s.selected rfds, []) else none
  | .accept none, .accept _ => some ({ s with point := .select }, [])
  | .accept (some clientFd), .accept rfds =>
      if clientFd ∈ s.openFds then none else some (s.accepted rfds clientFd, [])
  | .visit, .traverse _ [] => some ({ s with point := .select }, [])
  | .visit, .traverse rfds (conn :: node) =>
      some ({ s.checkConnIn rfds conn with point := .traverse rfds node }, [])
  | .activation conn stack answers, _ =>
      match s.socket conn, serverServClient root (s.conn conn) stack answers with
      | some fd, some (⟨info, .waiting⟩, obs) =>
          if conn ∈ s.tasks then some (s.watchedAgain conn fd info, obs) else none
      | some fd, some (⟨info, .closed⟩, obs) =>
          if conn ∈ s.tasks then some (s.closed conn fd info, obs) else none
      | _, _ => none
  | _, _ => none

/-- What a step can do. -/
inductive EntryStep (root : List UInt8) (s : ServerEntry) :
    EntryEvent → ServerEntry × List ServerObs → Prop where
  | select {rfds : Finset Nat} (hpoint : s.point = .select) (hrfds : rfds ⊆ s.fds) :
      EntryStep root s (.select rfds) (s.selected rfds, [])
  | refused {rfds : Finset Nat} (hpoint : s.point = .accept rfds) :
      EntryStep root s (.accept none) ({ s with point := .select }, [])
  | accept {rfds : Finset Nat} {clientFd : Nat} (hpoint : s.point = .accept rfds)
      (hfresh : clientFd ∉ s.openFds) :
      EntryStep root s (.accept (some clientFd)) (s.accepted rfds clientFd, [])
  | finish {rfds : Finset Nat} (hpoint : s.point = .traverse rfds []) :
      EntryStep root s .visit ({ s with point := .select }, [])
  | visit {rfds : Finset Nat} {conn : Ptr} {node : List Ptr}
      (hpoint : s.point = .traverse rfds (conn :: node)) :
      EntryStep root s .visit
        ({ s.checkConnIn rfds conn with point := .traverse rfds node }, [])
  | watchedAgain {conn : Ptr} {stack : Buf UInt8 rbufSize} {answers : List ServerEvent} {fd : Nat}
      {info : ConnectionInfo} {obs : List ServerObs} (hsocket : s.socket conn = some fd)
      (hserv : serverServClient root (s.conn conn) stack answers = some (⟨info, .waiting⟩, obs))
      (htask : conn ∈ s.tasks) :
      EntryStep root s (.activation conn stack answers) (s.watchedAgain conn fd info, obs)
  | closed {conn : Ptr} {stack : Buf UInt8 rbufSize} {answers : List ServerEvent} {fd : Nat}
      {info : ConnectionInfo} {obs : List ServerObs} (hsocket : s.socket conn = some fd)
      (hserv : serverServClient root (s.conn conn) stack answers = some (⟨info, .closed⟩, obs))
      (htask : conn ∈ s.tasks) :
      EntryStep root s (.activation conn stack answers) (s.closed conn fd info, obs)

theorem serverEntryStep_cases {root : List UInt8} {s : ServerEntry} {e : EntryEvent}
    {r : ServerEntry × List ServerObs} (h : serverEntryStep root s e = some r) :
    EntryStep root s e r := by
  cases e with
  | select rfds =>
    cases hpoint : s.point <;> simp [serverEntryStep, hpoint] at h
    exact h.2 ▸ .select hpoint h.1
  | accept clientFd =>
    cases clientFd <;> cases hpoint : s.point <;> simp [serverEntryStep, hpoint] at h
    · exact h ▸ .refused hpoint
    · exact h.2 ▸ .accept hpoint h.1
  | visit =>
    cases hpoint : s.point with
    | traverse rfds node =>
      cases node <;> simp [serverEntryStep, hpoint] at h
      · exact h ▸ .finish hpoint
      · exact h ▸ .visit hpoint
    | _ => simp [serverEntryStep, hpoint] at h
  | activation conn stack answers =>
    simp only [serverEntryStep] at h
    split at h
    next hsocket hserv =>
      split_ifs at h with htask
      obtain rfl := Option.some.inj h
      exact .watchedAgain hsocket hserv htask
    next hsocket hserv =>
      split_ifs at h with htask
      obtain rfl := Option.some.inj h
      exact .closed hsocket hserv htask
    next => cases h

/-- Before the loop: a pool of `num_max_connections` objects, and no connection. -/
structure ServerEntry.Started (s : ServerEntry) : Prop where
  connections : s.connections.Nodup
  connList : s.connList = []
  fds : s.fds = {s.listenFd, s.readFd}
  tasks : s.tasks = []
  openFds : s.fds ⊆ s.openFds
  point : s.point = .select

/-- A connection is accepted and the pool has no object for it. -/
def Exhausted (s : ServerEntry) (e : EntryEvent) : Prop :=
  (∃ clientFd, e = .accept (some clientFd)) ∧ s.connections = []

/-- Every watched descriptor but that of the listening socket and that of the pipe is the socket
    of exactly one connection. -/
def Owned (s : ServerEntry) : Prop :=
  ∀ fd ∈ s.fds, fd ≠ s.listenFd → fd ≠ s.readFd →
    ∃! conn, conn ∈ s.connList ∧ s.socket conn = some fd

/-! ## 3. Who owns what -/

/-- The nodes that `list_traverse` has still to visit are in the list, and a socket that a worker
    has been given is not set for them. -/
def EntryPoint.Sound (s : ServerEntry) : EntryPoint → Prop
  | .select => True
  | .accept rfds => ∀ conn ∈ s.tasks, ∀ fd, s.socket conn = some fd → fd ∉ rfds
  | .traverse rfds node => node.Nodup ∧ (∀ conn ∈ node, conn ∈ s.connList) ∧
      ∀ conn ∈ node, conn ∈ s.tasks → ∀ fd, s.socket conn = some fd → fd ∉ rfds

structure EntryInv (s : ServerEntry) : Prop where
  nodup : s.connList.Nodup
  available : s.connections.Nodup
  free : ∀ conn ∈ s.connections, conn ∉ s.connList
  opened : ∀ conn ∈ s.connList, ∀ fd, s.socket conn = some fd → fd ∈ s.openFds
  own : ∀ conn ∈ s.connList, ∀ conn' ∈ s.connList, ∀ fd, s.socket conn = some fd →
    s.socket conn' = some fd → conn = conn'
  client : ∀ conn ∈ s.connList, ∀ fd, s.socket conn = some fd → fd ≠ s.listenFd ∧ fd ≠ s.readFd
  fixed : s.listenFd ∈ s.openFds ∧ s.readFd ∈ s.openFds
  watched : ∀ fd ∈ s.fds, fd ≠ s.listenFd → fd ≠ s.readFd →
    ∃ conn ∈ s.connList, s.socket conn = some fd
  tasks : s.tasks.Nodup
  task : ∀ conn ∈ s.tasks, conn ∈ s.connList ∧ ∃ fd, s.socket conn = some fd ∧ fd ∉ s.fds
  point : s.point.Sound s

/-- The invariant without the place where the main loop is. -/
theorem EntryInv.at {s : ServerEntry} (h : EntryInv s) {point : EntryPoint}
    (hpoint : point.Sound s) : EntryInv { s with point } :=
  ⟨h.nodup, h.available, h.free, h.opened, h.own, h.client, h.fixed, h.watched, h.tasks, h.task, by
    cases point <;> exact hpoint⟩

theorem EntryInv.owned {s : ServerEntry} (h : EntryInv s) : Owned s := by
  intro fd hfd hlisten hread
  rcases h.watched fd hfd hlisten hread with ⟨conn, hmem, hsocket⟩
  refine ⟨conn, ⟨hmem, hsocket⟩, ?_⟩
  rintro conn' ⟨hmem', hsocket'⟩
  exact h.own conn' hmem' conn hmem fd hsocket' hsocket

theorem ServerEntry.Started.inv {s : ServerEntry} (h : s.Started) : EntryInv s where
  nodup := by
    rw [h.connList]
    exact List.nodup_nil
  available := h.connections
  free := fun conn _ hmem => absurd (h.connList ▸ hmem) List.not_mem_nil
  opened := fun conn hmem => absurd (h.connList ▸ hmem) List.not_mem_nil
  own := fun conn hmem => absurd (h.connList ▸ hmem) List.not_mem_nil
  client := fun conn hmem => absurd (h.connList ▸ hmem) List.not_mem_nil
  fixed := by
    constructor
    · apply h.openFds
      rw [h.fds]
      exact Finset.mem_insert_self ..
    · apply h.openFds
      rw [h.fds]
      exact Finset.mem_insert_of_mem (Finset.mem_singleton_self _)
  watched := by
    intro fd hfd hlisten hread
    rw [h.fds, Finset.mem_insert, Finset.mem_singleton] at hfd
    rcases hfd with hfd | hfd
    · exact absurd hfd hlisten
    · exact absurd hfd hread
  tasks := by
    rw [h.tasks]
    exact List.nodup_nil
  task := fun conn hmem => absurd (h.tasks ▸ hmem) List.not_mem_nil
  point := by
    rw [h.point]
    trivial

section Steps
variable {s : ServerEntry} (h : EntryInv s)
include h

theorem selected_inv {rfds : Finset Nat} (hrfds : rfds ⊆ s.fds) : EntryInv (s.selected rfds) := by
  -- what a worker has been given is not watched, so it is not set
  have hnot : ∀ conn ∈ s.tasks, ∀ fd, s.socket conn = some fd → fd ∉ rfds := by
    intro conn hmem fd hsocket hset
    rcases (h.task conn hmem).2 with ⟨fd', hsocket', hfd'⟩
    rw [hsocket, Option.some.injEq] at hsocket'
    exact hfd' (hsocket' ▸ hrfds hset)
  unfold ServerEntry.selected
  split_ifs
  · exact h
  · exact h
  · exact h.at hnot
  · exact h.at ⟨h.nodup, fun _ hmem => hmem, fun conn _ hmem => hnot conn hmem⟩

/-- **A connection is accepted** and an object is there for it. -/
theorem accepted_inv {rfds : Finset Nat} (hpoint : s.point = .accept rfds) {clientFd : Nat}
    (hfresh : clientFd ∉ s.openFds) (hpool : s.connections ≠ []) :
    EntryInv (s.accepted rfds clientFd) := by
  rcases List.exists_cons_of_ne_nil hpool with ⟨conn, available, hcons⟩
  have hconn : conn ∉ s.connList := h.free conn (hcons ▸ List.mem_cons_self)
  have havailable := h.available
  rw [hcons, List.nodup_cons] at havailable
  have hsound : EntryPoint.Sound s (.accept rfds) := hpoint ▸ h.point
  -- the sockets of the other connections stay what they are
  have hother : ∀ conn' ∈ s.connList,
      Function.update s.socket conn (some clientFd) conn' = s.socket conn' :=
    fun conn' hmem' => Function.update_of_ne (ne_of_mem_of_not_mem hmem' hconn) ..
  have hne : ∀ conn' ∈ s.connList, s.socket conn' ≠ some clientFd :=
    fun conn' hmem' hsocket => hfresh (h.opened conn' hmem' clientFd hsocket)
  -- a connection has its old socket, or it is the new one
  have hsockets : ∀ conn' ∈ listAppend s.connList conn, ∀ fd,
      Function.update s.socket conn (some clientFd) conn' = some fd →
      conn' ∈ s.connList ∧ s.socket conn' = some fd ∨ conn' = conn ∧ fd = clientFd := by
    intro conn' hlist fd hsocket
    rcases update_socket_cases hsocket with hnew | ⟨hne, hold⟩
    · exact .inr hnew
    · exact .inl ⟨(mem_listAppend.mp hlist).resolve_right hne, hold⟩
  have hnodup := listAppend_nodup h.nodup hconn
  rw [ServerEntry.accepted_cons hcons]
  constructor
  case nodup => exact hnodup
  case available => exact havailable.2
  case free =>
    intro conn' hmem' hlist
    rcases mem_listAppend.mp hlist with hlist | rfl
    · exact h.free conn' (hcons ▸ List.mem_cons_of_mem conn hmem') hlist
    · exact havailable.1 hmem'
  case opened =>
    intro conn' hlist fd hsocket
    rcases hsockets conn' hlist fd hsocket with ⟨hlist, hold⟩ | ⟨-, rfl⟩
    · exact Finset.mem_insert_of_mem (h.opened conn' hlist fd hold)
    · exact Finset.mem_insert_self ..
  case own =>
    intro conn₁ hlist₁ conn₂ hlist₂ fd hs₁ hs₂
    rcases hsockets conn₁ hlist₁ fd hs₁ with ⟨hmem₁, hold₁⟩ | ⟨rfl, rfl⟩
    · rcases hsockets conn₂ hlist₂ fd hs₂ with ⟨hmem₂, hold₂⟩ | ⟨-, rfl⟩
      · exact h.own conn₁ hmem₁ conn₂ hmem₂ fd hold₁ hold₂
      · exact absurd hold₁ (hne conn₁ hmem₁)
    · rcases hsockets conn₂ hlist₂ fd hs₂ with ⟨hmem₂, hold₂⟩ | ⟨rfl, -⟩
      · exact absurd hold₂ (hne conn₂ hmem₂)
      · rfl
  case client =>
    intro conn' hlist fd hsocket
    rcases hsockets conn' hlist fd hsocket with ⟨hlist, hold⟩ | ⟨-, rfl⟩
    · exact h.client conn' hlist fd hold
    · exact ⟨fun hfd => hfresh (hfd ▸ h.fixed.1), fun hfd => hfresh (hfd ▸ h.fixed.2)⟩
  case fixed =>
    exact ⟨Finset.mem_insert_of_mem h.fixed.1, Finset.mem_insert_of_mem h.fixed.2⟩
  case watched =>
    intro fd hfd hlisten hread
    rcases Finset.mem_insert.mp hfd with rfl | hfd
    · exact ⟨conn, mem_listAppend.mpr (Or.inr rfl), Function.update_self ..⟩
    · rcases h.watched fd hfd hlisten hread with ⟨conn', hlist, hsocket⟩
      exact ⟨conn', mem_listAppend.mpr (Or.inl hlist), (hother conn' hlist).trans hsocket⟩
  case tasks => exact h.tasks
  case task =>
    intro conn' htask
    rcases h.task conn' htask with ⟨hlist, fd, hsocket, hfd⟩
    refine ⟨mem_listAppend.mpr (Or.inl hlist), fd, (hother conn' hlist).trans hsocket, ?_⟩
    rw [Finset.mem_insert, not_or]
    exact ⟨fun heq => hne conn' hlist (heq ▸ hsocket), hfd⟩
  case point =>
    refine ⟨hnodup, fun _ hlist => hlist, ?_⟩
    intro conn' _ htask fd hsocket
    have hlist := (h.task conn' htask).1
    exact hsound conn' htask fd ((hother conn' hlist).symm.trans hsocket)

/-- A closed connection has no watched descriptor and no worker. -/
theorem reaped_inv {conn : Ptr} (hconn : conn ∈ s.connList) (hsocket : s.socket conn = none) :
    EntryInv { s.reaped conn with point := .select } where
  nodup := h.nodup.erase conn
  available := List.nodup_cons.mpr ⟨fun hfree => h.free conn hfree hconn, h.available⟩
  free := by
    intro conn' hfree hlist
    rcases List.mem_cons.mp hfree with heq | hfree
    · exact (h.nodup.mem_erase_iff.mp hlist).1 heq
    · exact h.free conn' hfree (List.mem_of_mem_erase hlist)
  opened := fun conn' hlist => h.opened conn' (List.mem_of_mem_erase hlist)
  own := fun conn₁ h₁ conn₂ h₂ =>
    h.own conn₁ (List.mem_of_mem_erase h₁) conn₂ (List.mem_of_mem_erase h₂)
  client := fun conn' hlist => h.client conn' (List.mem_of_mem_erase hlist)
  fixed := h.fixed
  watched := by
    intro fd hfd hlisten hread
    rcases h.watched fd hfd hlisten hread with ⟨conn', hlist, hsocket'⟩
    have hne : conn' ≠ conn := by
      intro heq
      rw [heq, hsocket] at hsocket'
      cases hsocket'
    exact ⟨conn', h.nodup.mem_erase_iff.mpr ⟨hne, hlist⟩, hsocket'⟩
  tasks := h.tasks
  task := by
    intro conn' htask
    rcases h.task conn' htask with ⟨hlist, fd, hsocket', hfd⟩
    have hne : conn' ≠ conn := by
      intro heq
      rw [heq, hsocket] at hsocket'
      cases hsocket'
    exact ⟨h.nodup.mem_erase_iff.mpr ⟨hne, hlist⟩, fd, hsocket', hfd⟩
  point := trivial

/-- A connection that no worker has is given to one. -/
theorem dispatched_inv {conn : Ptr} (hconn : conn ∈ s.connList) {fd : Nat}
    (hsocket : s.socket conn = some fd) (htask : conn ∉ s.tasks) :
    EntryInv { s.dispatched conn fd with point := .select } where
  nodup := h.nodup
  available := h.available
  free := h.free
  opened := h.opened
  own := h.own
  client := h.client
  fixed := h.fixed
  watched := fun fd' hfd' => h.watched fd' (Finset.mem_of_mem_erase hfd')
  tasks := by
    change (s.tasks ++ [conn]).Nodup
    rw [List.nodup_append]
    refine ⟨h.tasks, List.nodup_singleton conn, ?_⟩
    intro conn' hmem' conn'' hmem''
    rw [List.mem_singleton.mp hmem'']
    exact ne_of_mem_of_not_mem hmem' htask
  task := by
    intro conn' hmem
    rcases List.mem_append.mp hmem with hmem | hmem
    · rcases h.task conn' hmem with ⟨hlist, fd', hsocket', hfd'⟩
      exact ⟨hlist, fd', hsocket', fun hmem' => hfd' (Finset.mem_of_mem_erase hmem')⟩
    · rw [List.mem_singleton.mp hmem]
      exact ⟨hconn, fd, hsocket, Finset.notMem_erase fd s.fds⟩
  point := trivial

/-- **The next connection is visited.** -/
theorem visited_inv {rfds : Finset Nat} {conn : Ptr} {node : List Ptr}
    (hpoint : s.point = .traverse rfds (conn :: node)) :
    EntryInv { s.checkConnIn rfds conn with point := .traverse rfds node } := by
  have hsound : EntryPoint.Sound s (.traverse rfds (conn :: node)) := hpoint ▸ h.point
  rcases hsound with ⟨hnodup, hlist, hset⟩
  rw [List.nodup_cons] at hnodup
  have hconn := hlist conn List.mem_cons_self
  have hlist' : ∀ conn' ∈ node, conn' ∈ s.connList :=
    fun conn' hmem => hlist conn' (List.mem_cons_of_mem conn hmem)
  have hset' : ∀ conn' ∈ node, conn' ∈ s.tasks → ∀ fd, s.socket conn' = some fd → fd ∉ rfds :=
    fun conn' hmem => hset conn' (List.mem_cons_of_mem conn hmem)
  unfold ServerEntry.checkConnIn
  cases hsocket : s.socket conn with
  | none =>
    refine (reaped_inv h hconn hsocket).at ⟨hnodup.2, ?_, hset'⟩
    intro conn' hmem
    have hne : conn' ≠ conn := ne_of_mem_of_not_mem hmem hnodup.1
    exact h.nodup.mem_erase_iff.mpr ⟨hne, hlist' conn' hmem⟩
  | some fd =>
    by_cases hfd : fd ∈ rfds
    · have htask : conn ∉ s.tasks :=
        fun hmem => hset conn List.mem_cons_self hmem fd hsocket hfd
      simp only [if_pos hfd]
      refine (dispatched_inv h hconn hsocket htask).at ⟨hnodup.2, hlist', ?_⟩
      intro conn' hmem htask' fd' hsocket'
      rcases List.mem_append.mp htask' with htask' | htask'
      · exact hset' conn' hmem htask' fd' hsocket'
      · exact absurd (List.mem_singleton.mp htask' ▸ hmem) hnodup.1
    · simp only [if_neg hfd]
      exact h.at ⟨hnodup.2, hlist', hset'⟩

/-- With one worker done, what was sound about the place of the main loop still is. -/
theorem EntryPoint.Sound.done {conn : Ptr} {s' : ServerEntry} (hlist : s'.connList = s.connList)
    (htasks : s'.tasks = s.tasks.erase conn) (hsocket : ∀ conn' ≠ conn, s'.socket conn' = s.socket conn')
    (hpoint : s'.point = s.point) : s'.point.Sound s' := by
  have htask : ∀ conn' ∈ s'.tasks, conn' ∈ s.tasks ∧ s'.socket conn' = s.socket conn' := by
    intro conn' hmem
    rw [htasks, h.tasks.mem_erase_iff] at hmem
    exact ⟨hmem.2, hsocket conn' hmem.1⟩
  have hsound := h.point
  rw [hpoint]
  cases hp : s.point with
  | select => trivial
  | accept rfds =>
    rw [hp] at hsound
    intro conn' hmem fd hfd
    rcases htask conn' hmem with ⟨hmem', heq⟩
    exact hsound conn' hmem' fd (heq ▸ hfd)
  | traverse rfds node =>
    rw [hp] at hsound
    refine ⟨hsound.1, fun conn' hmem => hlist ▸ hsound.2.1 conn' hmem, ?_⟩
    intro conn' hmem hmem' fd hfd
    rcases htask conn' hmem' with ⟨hold, heq⟩
    exact hsound.2.2 conn' hmem hold fd (heq ▸ hfd)

theorem watchedAgain_inv {conn : Ptr} (htask : conn ∈ s.tasks) {fd : Nat}
    (hsocket : s.socket conn = some fd) (info : ConnectionInfo) :
    EntryInv (s.watchedAgain conn fd info) where
  nodup := h.nodup
  available := h.available
  free := h.free
  opened := h.opened
  own := h.own
  client := h.client
  fixed := h.fixed
  watched := by
    intro fd' hfd' hlisten hread
    rcases Finset.mem_insert.mp hfd' with heq | hfd'
    · exact ⟨conn, (h.task conn htask).1, heq ▸ hsocket⟩
    · exact h.watched fd' hfd' hlisten hread
  tasks := h.tasks.erase conn
  task := by
    intro conn' hmem
    rcases h.tasks.mem_erase_iff.mp hmem with ⟨hne, hmem'⟩
    rcases h.task conn' hmem' with ⟨hlist, fd', hsocket', hfd'⟩
    refine ⟨hlist, fd', hsocket', ?_⟩
    intro hinsert
    rcases Finset.mem_insert.mp hinsert with heq | hinsert
    · -- two connections would have one socket
      exact hne (h.own conn' hlist conn (h.task conn htask).1 fd (heq ▸ hsocket') hsocket)
    · exact hfd' hinsert
  point := EntryPoint.Sound.done h rfl rfl (fun _ _ => rfl) rfl

theorem closed_inv {conn : Ptr} (htask : conn ∈ s.tasks) {fd : Nat}
    (hsocket : s.socket conn = some fd) (info : ConnectionInfo) :
    EntryInv (s.closed conn fd info) := by
  have hother : ∀ conn' ≠ conn, (s.closed conn fd info).socket conn' = s.socket conn' :=
    fun conn' hne => Function.update_of_ne hne ..
  have hself : (s.closed conn fd info).socket conn = none := Function.update_self ..
  have hold : ∀ conn' fd', (s.closed conn fd info).socket conn' = some fd' →
      conn' ≠ conn ∧ s.socket conn' = some fd' := by
    intro conn' fd' hsocket'
    have hne : conn' ≠ conn := by
      rintro rfl
      rw [hself] at hsocket'
      cases hsocket'
    exact ⟨hne, (hother conn' hne).symm.trans hsocket'⟩
  rcases h.task conn htask with ⟨hconn, fd₀, hsocket₀, hfd⟩
  obtain rfl : fd = fd₀ := Option.some.inj (hsocket.symm.trans hsocket₀)
  rcases h.client conn hconn fd hsocket with ⟨hlisten, hread⟩
  constructor
  · exact h.nodup
  · exact h.available
  · exact h.free
  · intro conn' hlist fd' hsocket'
    rcases hold conn' fd' hsocket' with ⟨hne, hsocket'⟩
    refine Finset.mem_erase.mpr ⟨?_, h.opened conn' hlist fd' hsocket'⟩
    intro heq
    exact hne (h.own conn' hlist conn hconn fd (heq ▸ hsocket') hsocket)
  · intro conn₁ h₁ conn₂ h₂ fd' hs₁ hs₂
    exact h.own conn₁ h₁ conn₂ h₂ fd' (hold conn₁ fd' hs₁).2 (hold conn₂ fd' hs₂).2
  · intro conn' hlist fd' hsocket'
    exact h.client conn' hlist fd' (hold conn' fd' hsocket').2
  · exact ⟨Finset.mem_erase.mpr ⟨hlisten.symm, h.fixed.1⟩, Finset.mem_erase.mpr ⟨hread.symm, h.fixed.2⟩⟩
  · intro fd' hfd' hlisten' hread'
    rcases h.watched fd' hfd' hlisten' hread' with ⟨conn', hlist, hsocket'⟩
    have hne : conn' ≠ conn := by
      rintro rfl
      exact hfd (Option.some.inj (hsocket.symm.trans hsocket') ▸ hfd')
    exact ⟨conn', hlist, (hother conn' hne).trans hsocket'⟩
  · exact h.tasks.erase conn
  · intro conn' hmem
    rcases h.tasks.mem_erase_iff.mp hmem with ⟨hne, hmem'⟩
    rcases h.task conn' hmem' with ⟨hlist, fd', hsocket', hfd'⟩
    exact ⟨hlist, fd', (hother conn' hne).trans hsocket', hfd'⟩
  · exact EntryPoint.Sound.done h rfl rfl hother rfl

end Steps

/-- **One step**, unless it accepts a connection with an empty pool. -/
theorem serverEntryStep_inv {root : List UInt8} {s : ServerEntry} {e : EntryEvent}
    {r : ServerEntry × List ServerObs} (h : EntryInv s) (hpool : ¬Exhausted s e)
    (hr : serverEntryStep root s e = some r) : EntryInv r.1 := by
  cases serverEntryStep_cases hr with
  | select _ hrfds => exact selected_inv h hrfds
  | refused => exact h.at trivial
  | accept hpoint hfresh =>
    exact accepted_inv h hpoint hfresh fun hempty => hpool ⟨⟨_, rfl⟩, hempty⟩
  | finish => exact h.at trivial
  | visit hpoint => exact visited_inv h hpoint
  | watchedAgain hsocket _ htask => exact watchedAgain_inv h htask hsocket _
  | closed hsocket _ htask => exact closed_inv h htask hsocket _

/-- The states of the runs in which no connection is accepted with an empty pool. -/
def EntryReachable (root : List UInt8) : ServerEntry → Prop :=
  Run.Reachable (serverEntryStep root) (fun s e => ¬Exhausted s e) ServerEntry.Started

theorem EntryReachable.inv {root : List UInt8} {s : ServerEntry} (h : EntryReachable root s) :
    EntryInv s :=
  Run.Reachable.invariant (fun _ hs => hs.inv) (fun _ _ _ hs hpool hr => serverEntryStep_inv hs hpool hr) h

/-- An accepted connection that the pool has no object for has no owner. -/
theorem not_owned_exhausted {root : List UInt8} {s : ServerEntry} {e : EntryEvent}
    {r : ServerEntry × List ServerObs} (h : EntryInv s) (hpool : Exhausted s e)
    (hr : serverEntryStep root s e = some r) : ¬Owned r.1 := by
  rcases hpool with ⟨⟨clientFd, rfl⟩, hempty⟩
  cases serverEntryStep_cases hr with
  | @accept rfds _ _ hfresh =>
    rw [ServerEntry.accepted_nil hempty]
    intro howned
    have hlisten : clientFd ≠ s.listenFd := fun heq => hfresh (heq ▸ h.fixed.1)
    have hread : clientFd ≠ s.readFd := fun heq => hfresh (heq ▸ h.fixed.2)
    rcases howned clientFd (Finset.mem_insert_self ..) hlisten hread with ⟨conn, ⟨hlist, hsocket⟩, -⟩
    exact hfresh (h.opened conn hlist clientFd hsocket)

/-- **Every watched client descriptor has exactly one owner** in every state of a run in which no
    connection is accepted with an empty pool, and the first such connection ends that. -/
theorem serverEntry_owned {root : List UInt8} {s : ServerEntry} (h : EntryReachable root s) :
    Owned s ∧ ∀ e r, serverEntryStep root s e = some r → (Owned r.1 ↔ ¬Exhausted s e) := by
  refine ⟨h.inv.owned, ?_⟩
  intro e r hr
  constructor
  · intro howned hpool
    exact not_owned_exhausted h.inv hpool hr howned
  · intro hpool
    exact (serverEntryStep_inv h.inv hpool hr).owned

/-- A server with the descriptors 3, 4 and 5, and one object in its pool. -/
def oneConnection : ServerEntry where
  listenFd := 3
  readFd := 4
  connections := [0]
  connList := []
  socket := fun _ => none
  conn := fun _ => (Connection.accepted ⟨List.replicate _ 0, List.length_replicate⟩).conn
  fds := {3, 4}
  tasks := []
  openFds := {3, 4, 5}
  point := .select

theorem oneConnection_started : oneConnection.Started :=
  ⟨by decide, rfl, rfl, rfl, by decide, rfl⟩

/-- The connection that the object is used for. -/
def oneAccepted : ServerEntry :=
  { (oneConnection.selected {3}).accepted {3} 6 with point := .select }

theorem oneAccepted_reachable (allow : ServerEntry → EntryEvent → Prop)
    (hallow : ∀ s e, ¬Exhausted s e → allow s e) :
    Run.Reachable (serverEntryStep []) allow ServerEntry.Started oneAccepted := by
  have hselect : serverEntryStep [] oneConnection (.select {3}) =
      some (oneConnection.selected {3}, []) := rfl
  have haccept : serverEntryStep [] (oneConnection.selected {3}) (.accept (some 6)) =
      some ((oneConnection.selected {3}).accepted {3} 6, []) := rfl
  have hvisit : serverEntryStep [] ((oneConnection.selected {3}).accepted {3} 6) .visit =
      some ({ (oneConnection.selected {3}).accepted {3} 6 with point := .traverse {3} [] }, []) := rfl
  have hend : serverEntryStep []
      { (oneConnection.selected {3}).accepted {3} 6 with point := .traverse {3} [] } .visit =
      some (oneAccepted, []) := rfl
  have hno : ∀ s e, (∀ fd, e ≠ .accept (some fd)) → ¬Exhausted s e :=
    fun s e he h => h.1.elim he
  have hpool : ¬Exhausted (oneConnection.selected {3}) (.accept (some 6)) :=
    fun h => absurd h.2 (List.cons_ne_nil 0 [])
  have h₁ := Run.Reachable.step (.init oneConnection_started)
    (hallow _ _ (hno oneConnection (.select {3}) fun _ h => nomatch h)) hselect
  have h₂ := Run.Reachable.step h₁ (hallow _ _ hpool) haccept
  have h₃ := Run.Reachable.step h₂ (hallow _ _ (hno _ .visit fun _ h => nomatch h)) hvisit
  exact Run.Reachable.step h₃ (hallow _ _ (hno _ .visit fun _ h => nomatch h)) hend

theorem serverEntry_owned_one :
    Owned oneAccepted ∧ ∀ e r, serverEntryStep [] oneAccepted e = some r →
      (Owned r.1 ↔ ¬Exhausted oneAccepted e) :=
  serverEntry_owned (oneAccepted_reachable _ fun _ _ h => h)

/-- With the one object in use, the next connection is watched and belongs to nobody. -/
theorem serverEntry_not_owned : ¬∀ s, Run.Reachable (serverEntryStep []) (fun _ _ => True)
    ServerEntry.Started s → Owned s := by
  intro h
  have hselect : serverEntryStep [] oneAccepted (.select {3}) = some (oneAccepted.selected {3}, []) :=
    rfl
  have haccept : serverEntryStep [] (oneAccepted.selected {3}) (.accept (some 7)) =
      some ((oneAccepted.selected {3}).accepted {3} 7, []) := rfl
  have h₀ := oneAccepted_reachable (fun _ _ => True) fun _ _ _ => trivial
  have howned := h _ (.step (.step h₀ trivial hselect) trivial haccept)
  rcases howned 7 (by decide) (by decide) (by decide) with ⟨conn, ⟨hlist, hsocket⟩, -⟩
  have hconn : conn = 0 := List.mem_singleton.mp hlist
  rw [hconn] at hsocket
  exact absurd (Option.some.inj hsocket) (by decide)

end OServer
