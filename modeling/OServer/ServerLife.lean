/-
  OServer/ServerLife.lean
  =======================
  **The process from `server_listen` to `server_clean`, and its descriptors.**

  `server_entry` makes a socket and a pipe and runs its loop until `select` fails.  Then
  `server_clean` closes the connections, while workers may still serve them, waits for
  the workers, and closes the socket and the pipe.

    * `serverLifeStep`         — the steps of the main thread and of the workers;
    * `serverLife_descriptors` — if no connection is closed while a worker has it, every
                                 descriptor is closed once and by who has it, and in the
                                 end only the lost ones are open: those of clients for
                                 whom the pool had no object, and the socket if there is
                                 no pipe;
    * `serverClean_quiet`      — a shutdown is without fault, however it goes on, if and
                                 only if there is no task when it begins.
-/
import OServer.ServerExclusive
import OServer.Lib.Handles

namespace OServer

open Run Handles

/-! ## 1. State -/

/-- Where `server_entry` is. -/
inductive ServerLife where
  /-- `server_listen` tries the addresses -/
  | listen (openFds : Finset Nat)
  /-- between `bind` and `listen` -/
  | bound (openFds : Finset Nat) (listenFd : Nat)
  | openPipe (openFds : Finset Nat) (listenFd : Nat)
  /-- in the loop -/
  | entry (writeFd : Nat) (s : ServerLoop)
  /-- `server_clean` has these connections still to close -/
  | clean (writeFd : Nat) (s : ServerLoop) (node : List Ptr)
  /-- `server_close_conn` is between `close(conn->socket)` and `conn->socket = -1` -/
  | closing (writeFd : Nat) (s : ServerLoop) (conn : Ptr) (node : List Ptr)
  /-- `server_entry` has returned -/
  | ended (openFds : Finset Nat)

inductive LifeEvent where
  /-- `gethostname` or `getaddrinfo` fails, or no address is left -/
  | noAddress
  /-- `socket` returns, `none` for `-1`, and `bind` -/
  | socket (fd : Option Nat) (bound : Bool)
  | listen (ok : Bool)
  /-- `pipe` returns: what to read from and what to write to -/
  | pipe (fds : Option (Nat × Nat))
  /-- a step of the loop, or of a worker -/
  | loop (e : LoopEvent)
  /-- `select` returns `-1` -/
  | selectFails
  /-- `close(conn->socket)` in `server_close_conn` -/
  | closeConn
  /-- `conn->socket = -1` in `server_close_conn` -/
  | markConn
  /-- `thread_pool_destroy` returns, and the rest of `server_clean` -/
  | join
deriving DecidableEq

/-- What is done with descriptors.  A connection has its own, the process has the others. -/
inductive LifeObs where
  | op (o : Op (Option Ptr × Nat))
  /-- nobody is going to close it -/
  | lost (fd : Nat)
  /-- `FD_SET(-1, &conn->srv->fds)` -/
  | setNone
deriving DecidableEq

def LifeObs.op? : LifeObs → Option (Op (Option Ptr × Nat))
  | .op o => some o
  | _ => none

def LifeObs.lost? : LifeObs → Option Nat
  | .lost fd => some fd
  | _ => none

def fdOps (obs : List LifeObs) : List (Op (Option Ptr × Nat)) := obs.filterMap LifeObs.op?

def lostFds (obs : List LifeObs) : List Nat := obs.filterMap LifeObs.lost?

/-! ## 2. Steps -/

namespace ServerLoop

/-- `close(conn->socket)`; for `-1` it does nothing. -/
def closeObs (s : ServerLoop) (conn : Ptr) : List LifeObs :=
  match s.socket conn with
  | none => []
  | some fd => [.op (.release (some conn, fd))]

def fdObs (s : ServerLoop) : LoopEvent → List LifeObs
  | .accept (some clientFd) =>
      match objectPoolAcquire s.connections with
      | none => [.op (.acquire (none, clientFd)), .lost clientFd]
      | some (conn, _) => [.op (.acquire (some conn, clientFd))]
  | .close conn => s.closeObs conn
  | .rearm conn => if s.socket conn = none then [.setNone] else []
  | _ => []

/-- `server_close_conn` has closed the socket and not marked the connection. -/
def connClosed (s : ServerLoop) (conn : Ptr) : ServerLoop :=
  { s with
    openFds := match s.socket conn with
      | none => s.openFds
      | some fd => s.openFds.erase fd }

def connMarked (s : ServerLoop) (conn : Ptr) : ServerLoop :=
  { s with toServerShared := s.setSocket conn none }

end ServerLoop

section Step
variable (objects : List Ptr) (memory : Ptr → Option Nat)

/-- Before the loop: nobody has written to the memory of the connections. -/
def entered (openFds : Finset Nat) (listenFd readFd : Nat) : ServerLoop where
  listenFd := listenFd
  readFd := readFd
  socket := memory
  fds := {listenFd, readFd}
  openFds := openFds
  tasks := []
  connections := objects
  connList := []
  point := .snapshot

/-- A descriptor that is open is not given out.  The workers exit when there is no task left. -/
def serverLifeStep : ServerLife → LifeEvent → Option (ServerLife × List LifeObs)
  | .listen fds, .noAddress => some (.ended fds, [])
  | .listen fds, .socket none _ => some (.listen fds, [])
  | .listen fds, .socket (some fd) bound =>
      if fd ∈ fds then none
      else if bound then some (.bound (insert fd fds) fd, [.op (.acquire (none, fd))])
      else some (.listen fds, [.op (.acquire (none, fd)), .op (.release (none, fd))])
  | .bound fds listenFd, .listen true => some (.openPipe fds listenFd, [])
  | .bound fds listenFd, .listen false =>
      some (.ended (fds.erase listenFd), [.op (.release (none, listenFd))])
  | .openPipe fds listenFd, .pipe none => some (.ended fds, [.lost listenFd])
  | .openPipe fds listenFd, .pipe (some (readFd, writeFd)) =>
      if readFd ∈ fds ∨ writeFd ∈ fds ∨ readFd = writeFd then none
      else some (.entry writeFd (entered objects memory (insert writeFd (insert readFd fds))
          listenFd readFd),
        [.op (.acquire (none, readFd)), .op (.acquire (none, writeFd))])
  | .entry writeFd s, .loop e =>
      (serverLoopStep s e).map fun r => (.entry writeFd r.1, s.fdObs e)
  | .entry writeFd s, .selectFails =>
      match s.point with
      | .select _ => some (.clean writeFd s s.connList, [])
      | _ => none
  | .clean writeFd s node, .loop e =>
      (s.workerStep e).map fun shared =>
        (.clean writeFd { s with toServerShared := shared } node, s.fdObs e)
  | .clean writeFd s (conn :: node), .closeConn =>
      some (.closing writeFd (s.connClosed conn) conn node, s.closeObs conn)
  | .closing writeFd s conn node, .loop e =>
      (s.workerStep e).map fun shared =>
        (.closing writeFd { s with toServerShared := shared } conn node, s.fdObs e)
  | .closing writeFd s conn node, .markConn => some (.clean writeFd (s.connMarked conn) node, [])
  | .clean writeFd s [], .join =>
      if s.tasks = [] then
        some (.ended (((s.openFds.erase s.listenFd).erase s.readFd).erase writeFd),
          [.op (.release (none, s.listenFd)), .op (.release (none, s.readFd)),
            .op (.release (none, writeFd))])
      else none
  | _, _ => none

end Step

/-- What one step can do. -/
inductive LifeStep (objects : List Ptr) (memory : Ptr → Option Nat) :
    ServerLife → LifeEvent → ServerLife × List LifeObs → Prop where
  | noAddress {fds : Finset Nat} : LifeStep objects memory (.listen fds) .noAddress (.ended fds, [])
  | noSocket {fds : Finset Nat} {bound : Bool} :
      LifeStep objects memory (.listen fds) (.socket none bound) (.listen fds, [])
  | bound {fds : Finset Nat} {fd : Nat} (hnew : fd ∉ fds) :
      LifeStep objects memory (.listen fds) (.socket (some fd) true)
        (.bound (insert fd fds) fd, [.op (.acquire (none, fd))])
  | unbound {fds : Finset Nat} {fd : Nat} (hnew : fd ∉ fds) :
      LifeStep objects memory (.listen fds) (.socket (some fd) false)
        (.listen fds, [.op (.acquire (none, fd)), .op (.release (none, fd))])
  | listen {fds : Finset Nat} {listenFd : Nat} :
      LifeStep objects memory (.bound fds listenFd) (.listen true) (.openPipe fds listenFd, [])
  | listenFails {fds : Finset Nat} {listenFd : Nat} :
      LifeStep objects memory (.bound fds listenFd) (.listen false)
        (.ended (fds.erase listenFd), [.op (.release (none, listenFd))])
  | pipe {fds : Finset Nat} {listenFd readFd writeFd : Nat} (hread : readFd ∉ fds)
      (hwrite : writeFd ∉ fds) (hne : readFd ≠ writeFd) :
      LifeStep objects memory (.openPipe fds listenFd) (.pipe (some (readFd, writeFd)))
        (.entry writeFd (entered objects memory (insert writeFd (insert readFd fds)) listenFd readFd),
          [.op (.acquire (none, readFd)), .op (.acquire (none, writeFd))])
  | pipeFails {fds : Finset Nat} {listenFd : Nat} :
      LifeStep objects memory (.openPipe fds listenFd) (.pipe none) (.ended fds, [.lost listenFd])
  | loop {writeFd : Nat} {s : ServerLoop} {e : LoopEvent} {r : ServerLoop × List LoopObs}
      (hstep : serverLoopStep s e = some r) :
      LifeStep objects memory (.entry writeFd s) (.loop e) (.entry writeFd r.1, s.fdObs e)
  | selectFails {writeFd : Nat} {s : ServerLoop} {snapshot : Finset Nat}
      (hpoint : s.point = .select snapshot) :
      LifeStep objects memory (.entry writeFd s) .selectFails (.clean writeFd s s.connList, [])
  | cleanWorker {writeFd : Nat} {s : ServerLoop} {node : List Ptr} {e : LoopEvent}
      {shared : ServerShared} (hstep : s.workerStep e = some shared) :
      LifeStep objects memory (.clean writeFd s node) (.loop e)
        (.clean writeFd { s with toServerShared := shared } node, s.fdObs e)
  | closingWorker {writeFd : Nat} {s : ServerLoop} {conn : Ptr} {node : List Ptr} {e : LoopEvent}
      {shared : ServerShared} (hstep : s.workerStep e = some shared) :
      LifeStep objects memory (.closing writeFd s conn node) (.loop e)
        (.closing writeFd { s with toServerShared := shared } conn node, s.fdObs e)
  | closeConn {writeFd : Nat} {s : ServerLoop} {conn : Ptr} {node : List Ptr} :
      LifeStep objects memory (.clean writeFd s (conn :: node)) .closeConn
        (.closing writeFd (s.connClosed conn) conn node, s.closeObs conn)
  | markConn {writeFd : Nat} {s : ServerLoop} {conn : Ptr} {node : List Ptr} :
      LifeStep objects memory (.closing writeFd s conn node) .markConn
        (.clean writeFd (s.connMarked conn) node, [])
  | join {writeFd : Nat} {s : ServerLoop} (htasks : s.tasks = []) :
      LifeStep objects memory (.clean writeFd s []) .join
        (.ended (((s.openFds.erase s.listenFd).erase s.readFd).erase writeFd),
          [.op (.release (none, s.listenFd)), .op (.release (none, s.readFd)),
            .op (.release (none, writeFd))])

section Cases
variable {objects : List Ptr} {memory : Ptr → Option Nat}

theorem serverLifeStep_cases {s : ServerLife} {e : LifeEvent} {r : ServerLife × List LifeObs}
    (h : serverLifeStep objects memory s e = some r) : LifeStep objects memory s e r := by
  cases s with
  | listen fds =>
    cases e with
    | noAddress =>
      cases h
      exact .noAddress
    | socket fd bound =>
      cases fd with
      | none =>
        cases h
        exact .noSocket
      | some fd =>
        obtain ⟨hnew, hrest⟩ := Option.ite_none_left_eq_some.mp h
        cases bound with
        | true =>
          cases hrest
          exact .bound hnew
        | false =>
          cases hrest
          exact .unbound hnew
    | _ => cases h
  | bound fds listenFd =>
    cases e with
    | listen ok =>
      cases ok with
      | true =>
        cases h
        exact .listen
      | false =>
        cases h
        exact .listenFails
    | _ => cases h
  | openPipe fds listenFd =>
    cases e with
    | pipe fds =>
      cases fds with
      | none =>
        cases h
        exact .pipeFails
      | some p =>
        obtain ⟨hnew, ⟨⟩⟩ := Option.ite_none_left_eq_some.mp h
        simp only [not_or] at hnew
        exact .pipe hnew.1 hnew.2.1 hnew.2.2
    | _ => cases h
  | entry writeFd s =>
    cases e with
    | loop e =>
      obtain ⟨r', hstep, rfl⟩ := Option.map_eq_some_iff.mp h
      exact .loop hstep
    | selectFails =>
      rw [serverLifeStep] at h
      split at h
      · rename_i snapshot hpoint
        cases h
        exact .selectFails hpoint
      · cases h
    | _ => cases h
  | clean writeFd s node =>
    cases e with
    | loop e =>
      have hworker : (s.workerStep e).map (fun shared =>
          (ServerLife.clean writeFd { s with toServerShared := shared } node, s.fdObs e)) = some r := by
        cases node <;> exact h
      obtain ⟨shared, hstep, rfl⟩ := Option.map_eq_some_iff.mp hworker
      exact .cleanWorker hstep
    | closeConn =>
      cases node with
      | nil => cases h
      | cons conn node =>
        cases h
        exact .closeConn
    | join =>
      cases node with
      | nil =>
        obtain ⟨htasks, ⟨⟩⟩ := Option.ite_none_right_eq_some.mp h
        exact .join htasks
      | cons conn node => cases h
    | _ => cases node <;> cases h
  | closing writeFd s conn node =>
    cases e with
    | loop e =>
      obtain ⟨shared, hstep, rfl⟩ := Option.map_eq_some_iff.mp h
      exact .closingWorker hstep
    | markConn =>
      cases h
      exact .markConn
    | _ => cases h
  | ended fds => cases h

end Cases

/-! ## 3. What is said -/

namespace ServerLife

def openFds : ServerLife → Finset Nat
  | .listen fds | .bound fds _ | .openPipe fds _ | .ended fds => fds
  | .entry _ s | .clean _ s _ | .closing _ s _ _ => s.openFds

/-- What the process has for itself and is going to close. -/
def own : ServerLife → List Nat
  | .listen _ | .ended _ => []
  | .bound _ listenFd | .openPipe _ listenFd => [listenFd]
  | .entry writeFd s | .clean writeFd s _ | .closing writeFd s _ _ =>
      [s.listenFd, s.readFd, writeFd]

def tasks : ServerLife → List (Ptr × TaskPhase)
  | .entry _ s | .clean _ s _ | .closing _ s _ _ => s.tasks
  | _ => []

end ServerLife

/-- The process has them, and no connection. -/
def ofProcess (fds : Finset Nat) : Finset (Option Ptr × Nat) := fds.image fun fd => (none, fd)

/-- No visit is raced, and `server_clean` does not close a connection that has a task. -/
def Settled : ServerLife → LifeEvent → Prop
  | .entry _ s, .loop e => Unraced s e
  | .clean _ s (conn :: _), .closeConn => ∀ t ∈ s.tasks, t.1 ≠ conn
  | _, _ => True

theorem settled_of_tasks {s : ServerLife} (h : s.tasks = []) (e : LifeEvent) : Settled s e := by
  cases s with
  | entry writeFd s =>
    cases e with
    | loop e => exact unraced_of_tasks h e
    | _ => trivial
  | clean writeFd s node =>
    have htasks : s.tasks = [] := h
    cases node with
    | nil => trivial
    | cons conn node =>
      cases e with
      | closeConn =>
        intro t ht
        rw [htasks] at ht
        cases ht
      | _ => trivial
  | _ => trivial

/-- What has been done with descriptors since `inherited` were open: nothing is closed by who does
    not have it, and what is open is held. -/
structure Accounts (inherited openFds : Finset Nat) (own : List Nat) (log : List LifeObs)
    (held : Finset (Option Ptr × Nat)) : Prop where
  ops : heldAfter (ofProcess inherited) (fdOps log) = some held
  watched : .setNone ∉ log
  numbered : Numbered held openFds
  process : ∀ fd, (none, fd) ∈ held ↔ fd ∈ own ∨ fd ∈ inherited ∨ fd ∈ lostFds log
  nodup : own.Nodup
  apart : ∀ fd ∈ own, fd ∉ inherited ∧ fd ∉ lostFds log

/-- The connections hold their sockets, but for the one that `server_close_conn` has just closed. -/
structure Holding (s : ServerLoop) (closing : Option Ptr) (held : Finset (Option Ptr × Nat)) :
    Prop where
  once : (s.tasks.map Prod.fst).Nodup
  task : ∀ t ∈ s.tasks, t.1 ∈ s.connList ∧ some t.1 ≠ closing ∧ ∃ fd, s.socket t.1 = some fd
  holder : ∀ conn fd, (some conn, fd) ∈ held ↔ Live s conn fd ∧ some conn ≠ closing

/-- The connections that are not closed are still to be closed. -/
structure ToClose (s : ServerLoop) (node : List Ptr) : Prop where
  listed : node ⊆ s.connList
  socket : ∀ conn ∈ s.connList, s.socket conn ≠ none → conn ∈ node

def ServerLife.Sound (held : Finset (Option Ptr × Nat)) : ServerLife → Prop
  | .entry _ s => ExclusiveInv s ∧ Holding s none held
  | .clean _ s node => Holding s none held ∧ ToClose s node
  | .closing _ s conn node => Holding s (some conn) held ∧ ToClose s (conn :: node)
  | _ => ∀ conn fd, (some conn, fd) ∉ held

/-! ## 4. One operation -/

theorem fdOps_append (obs obs' : List LifeObs) : fdOps (obs ++ obs') = fdOps obs ++ fdOps obs' :=
  List.filterMap_append

theorem lostFds_append (obs obs' : List LifeObs) :
    lostFds (obs ++ obs') = lostFds obs ++ lostFds obs' := List.filterMap_append

theorem mem_ofProcess {fds : Finset Nat} {x : Option Ptr × Nat} :
    x ∈ ofProcess fds ↔ x.1 = none ∧ x.2 ∈ fds := by
  obtain ⟨who, fd⟩ := x
  simp only [ofProcess, Finset.mem_image, Prod.mk.injEq]
  constructor
  · rintro ⟨_, hmem, rfl, rfl⟩
    exact ⟨rfl, hmem⟩
  · rintro ⟨rfl, hmem⟩
    exact ⟨fd, hmem, rfl, rfl⟩

theorem Accounts.start (inherited : Finset Nat) :
    Accounts inherited inherited [] [] (ofProcess inherited) where
  ops := rfl
  watched := List.not_mem_nil
  numbered := by
    constructor
    · rintro ⟨who, fd⟩ hx ⟨who', fd'⟩ hy heq
      obtain ⟨rfl, -⟩ := mem_ofProcess.mp hx
      obtain ⟨rfl, -⟩ := mem_ofProcess.mp hy
      exact congrArg (Prod.mk none) heq
    · intro fd
      constructor
      · exact fun hmem => ⟨none, mem_ofProcess.mpr ⟨rfl, hmem⟩⟩
      · exact fun ⟨_, hmem⟩ => (mem_ofProcess.mp hmem).2
  process := by
    intro fd
    rw [mem_ofProcess]
    simp [lostFds]
  nodup := .nil
  apart := fun fd hmem => absurd hmem List.not_mem_nil

section Accounts
variable {inherited openFds : Finset Nat} {own : List Nat} {log : List LifeObs}
  {held : Finset (Option Ptr × Nat)} {fd : Nat}

theorem watched_concat (hlog : .setNone ∉ log) {o : LifeObs} (ho : o ≠ .setNone) :
    .setNone ∉ log ++ [o] := by
  intro hmem
  rcases List.mem_append.mp hmem with hold | hnew
  · exact hlog hold
  · exact ho (List.mem_singleton.mp hnew).symm

/-- One more operation. -/
theorem Accounts.apply (h : Accounts inherited openFds own log held) {op : Op (Option Ptr × Nat)}
    {held' : Finset (Option Ptr × Nat)} {openFds' : Finset Nat} {own' : List Nat}
    (hop : op.apply held = some held') (hnumbered : Numbered held' openFds')
    (hprocess : ∀ fd, (none, fd) ∈ held' ↔ fd ∈ own' ∨ fd ∈ inherited ∨ fd ∈ lostFds log)
    (hnodup : own'.Nodup) (hapart : ∀ fd ∈ own', fd ∉ inherited ∧ fd ∉ lostFds log) :
    Accounts inherited openFds' own' (log ++ [.op op]) held' where
  ops := by
    rw [fdOps_append, heldAfter_append h.ops]
    show (op.apply held).bind (fun s => heldAfter s []) = some held'
    rw [hop]
    rfl
  watched := watched_concat h.watched (by simp)
  numbered := hnumbered
  process := by
    rw [lostFds_append]
    exact fun fd => (hprocess fd).trans (by simp [lostFds, LifeObs.lost?])
  nodup := hnodup
  apart := by
    rw [lostFds_append]
    exact fun fd hmem => ⟨(hapart fd hmem).1, by simpa [lostFds, LifeObs.lost?] using (hapart fd hmem).2⟩

/-- What the process has is open. -/
theorem Accounts.open_of_process (h : Accounts inherited openFds own log held)
    (hmem : fd ∈ own ∨ fd ∈ inherited ∨ fd ∈ lostFds log) : fd ∈ openFds :=
  (h.numbered.mem fd).mpr ⟨none, (h.process fd).mpr hmem⟩

theorem Accounts.acquireOwn (h : Accounts inherited openFds own log held) (hnew : fd ∉ openFds) :
    Accounts inherited (insert fd openFds) (fd :: own) (log ++ [.op (.acquire (none, fd))])
      (insert (none, fd) held) := by
  obtain ⟨hop, hnumbered⟩ := h.numbered.acquire none hnew
  refine h.apply hop hnumbered ?_ ?_ ?_
  · intro fd'
    rw [Finset.mem_insert, h.process fd', List.mem_cons, Prod.mk.injEq, or_assoc]
    simp
  · exact List.nodup_cons.mpr ⟨fun hmem => hnew (h.open_of_process (.inl hmem)), h.nodup⟩
  · intro fd' hmem
    rcases List.mem_cons.mp hmem with rfl | hmem
    · exact ⟨fun hin => hnew (h.open_of_process (.inr (.inl hin))),
        fun hin => hnew (h.open_of_process (.inr (.inr hin)))⟩
    · exact h.apart fd' hmem

theorem Accounts.releaseOwn (h : Accounts inherited openFds (fd :: own) log held) :
    Accounts inherited (openFds.erase fd) own (log ++ [.op (.release (none, fd))])
      (held.erase (none, fd)) := by
  obtain ⟨hop, hnumbered⟩ := h.numbered.release ((h.process fd).mpr (.inl List.mem_cons_self))
  obtain ⟨hnot, hnodup⟩ := List.nodup_cons.mp h.nodup
  obtain ⟨hinherited, hlost⟩ := h.apart fd List.mem_cons_self
  refine h.apply hop hnumbered ?_ hnodup fun fd' hmem => h.apart fd' (List.mem_cons_of_mem _ hmem)
  intro fd'
  rw [Finset.mem_erase, h.process fd', List.mem_cons]
  constructor
  · rintro ⟨hne, (rfl | hmem) | hrest⟩
    · exact absurd rfl hne
    · exact .inl hmem
    · exact .inr hrest
  · intro hmem
    refine ⟨?_, hmem.imp_left .inr⟩
    intro heq
    obtain rfl := (Prod.mk.inj heq).2
    rcases hmem with hmem | hmem | hmem
    · exact hnot hmem
    · exact hinherited hmem
    · exact hlost hmem

theorem Accounts.acquireConn (h : Accounts inherited openFds own log held) (conn : Ptr)
    (hnew : fd ∉ openFds) :
    Accounts inherited (insert fd openFds) own (log ++ [.op (.acquire (some conn, fd))])
      (insert (some conn, fd) held) := by
  obtain ⟨hop, hnumbered⟩ := h.numbered.acquire (some conn) hnew
  refine h.apply hop hnumbered ?_ h.nodup h.apart
  intro fd'
  rw [Finset.mem_insert, ← h.process fd']
  simp

theorem Accounts.releaseConn (h : Accounts inherited openFds own log held) {conn : Ptr}
    (hheld : (some conn, fd) ∈ held) :
    Accounts inherited (openFds.erase fd) own (log ++ [.op (.release (some conn, fd))])
      (held.erase (some conn, fd)) := by
  obtain ⟨hop, hnumbered⟩ := h.numbered.release hheld
  refine h.apply hop hnumbered ?_ h.nodup h.apart
  intro fd'
  rw [Finset.mem_erase, ← h.process fd']
  simp

/-- The process does not close it any more. -/
theorem Accounts.lose (h : Accounts inherited openFds (fd :: own) log held) :
    Accounts inherited openFds own (log ++ [.lost fd]) held where
  ops := by
    rw [fdOps_append, heldAfter_append h.ops]
    rfl
  watched := watched_concat h.watched (by simp)
  numbered := h.numbered
  process := by
    intro fd'
    rw [h.process fd', lostFds_append, List.mem_append, List.mem_cons]
    simp only [lostFds, LifeObs.lost?, List.filterMap_cons, List.filterMap_nil, List.mem_singleton]
    tauto
  nodup := (List.nodup_cons.mp h.nodup).2
  apart := by
    intro fd' hmem
    obtain ⟨hinherited, hlost⟩ := h.apart fd' (List.mem_cons_of_mem _ hmem)
    refine ⟨hinherited, ?_⟩
    rw [lostFds_append, List.mem_append]
    rintro (hold | hnew)
    · exact hlost hold
    · obtain rfl : fd' = fd := List.mem_singleton.mp hnew
      exact (List.nodup_cons.mp h.nodup).1 hmem

theorem Accounts.perm (h : Accounts inherited openFds own log held) {own' : List Nat}
    (hperm : own.Perm own') : Accounts inherited openFds own' log held where
  ops := h.ops
  watched := h.watched
  numbered := h.numbered
  process := fun fd => (h.process fd).trans (or_congr_left hperm.mem_iff)
  nodup := hperm.nodup_iff.mp h.nodup
  apart := fun fd hmem => h.apart fd (hperm.mem_iff.mpr hmem)

end Accounts

/-! ## 5. The workers -/

section Worker
variable {s : ServerLoop} {closing : Option Ptr} {held : Finset (Option Ptr × Nat)}

theorem workerStep_cases {e : LoopEvent} {shared : ServerShared} (h : s.workerStep e = some shared) :
    (∃ conn, e = .close conn ∧ (conn, .serving) ∈ s.tasks ∧ shared = s.closed conn) ∨
      (∃ conn, e = .mark conn ∧ (conn, .closed) ∈ s.tasks ∧ shared = s.marked conn) ∨
      ∃ conn, e = .rearm conn ∧ (conn, .serving) ∈ s.tasks ∧ shared = s.rearmed conn := by
  cases e with
  | close conn =>
    obtain ⟨htask, ⟨⟩⟩ := Option.ite_none_right_eq_some.mp h
    exact .inl ⟨conn, rfl, htask, rfl⟩
  | mark conn =>
    obtain ⟨htask, ⟨⟩⟩ := Option.ite_none_right_eq_some.mp h
    exact .inr (.inl ⟨conn, rfl, htask, rfl⟩)
  | rearm conn =>
    obtain ⟨htask, ⟨⟩⟩ := Option.ite_none_right_eq_some.mp h
    exact .inr (.inr ⟨conn, rfl, htask, rfl⟩)
  | _ => cases h

theorem serverLoopStep_worker {e : LoopEvent} {shared : ServerShared}
    (h : s.workerStep e = some shared) :
    serverLoopStep s e = some ({ s with toServerShared := shared }, []) := by
  rcases workerStep_cases h with ⟨conn, rfl, htask, rfl⟩ | ⟨conn, rfl, htask, rfl⟩ |
    ⟨conn, rfl, htask, rfl⟩
  · exact (LoopStep.close htask).eq
  · exact (LoopStep.mark htask).eq
  · exact (LoopStep.rearm htask).eq

/-- Only who is closed stops being live. -/
theorem worker_live {e : LoopEvent} {shared : ServerShared} (h : s.workerStep e = some shared)
    (conn : Ptr) (fd : Nat) :
    Live { s with toServerShared := shared } conn fd ↔ Live s conn fd ∧ e ≠ .close conn := by
  have hstep := serverLoopStep_cases (serverLoopStep_worker h)
  have hback : Live { s with toServerShared := shared } conn fd → Live s conn fd := by
    refine hstep.live_of_ne ?_ conn fd
    rintro clientFd rfl
    cases h
  rcases workerStep_cases h with ⟨conn', rfl, htask, rfl⟩ | ⟨conn', rfl, htask, rfl⟩ |
    ⟨conn', rfl, htask, rfl⟩
  · constructor
    · intro hlive
      refine ⟨hback hlive, ?_⟩
      rintro ⟨⟩
      exact hlive.2.2 (List.mem_append_right _ List.mem_cons_self)
    · rintro ⟨⟨hmem, hsocket, hclosed⟩, hne⟩
      refine ⟨hmem, hsocket, fun ht => ?_⟩
      rcases List.mem_append.mp ht with ht | ht
      · exact hclosed (List.mem_of_mem_erase ht)
      · obtain rfl : conn = conn' := congrArg Prod.fst (List.mem_singleton.mp ht)
        exact hne rfl
  · refine ⟨fun hlive => ⟨hback hlive, by simp⟩, ?_⟩
    rintro ⟨⟨hmem, hsocket, hclosed⟩, -⟩
    have hne : conn ≠ conn' := by
      rintro rfl
      exact hclosed htask
    exact ⟨hmem, (Function.update_of_ne hne ..).trans hsocket,
      fun ht => hclosed (List.mem_of_mem_erase ht)⟩
  · refine ⟨fun hlive => ⟨hback hlive, by simp⟩, ?_⟩
    rintro ⟨⟨hmem, hsocket, hclosed⟩, -⟩
    exact ⟨hmem, hsocket, fun ht => hclosed (List.mem_of_mem_erase ht)⟩

/-- A worker makes no task, and leaves the sockets of those that are left. -/
structure TasksKept (s s' : ServerLoop) : Prop where
  once : (s'.tasks.map Prod.fst).Nodup
  task : ∀ t ∈ s'.tasks, s'.socket t.1 = s.socket t.1 ∧ ∃ t₀ ∈ s.tasks, t₀.1 = t.1
  socket : ∀ conn, s'.socket conn ≠ none → s.socket conn ≠ none

theorem worker_tasks (honce : (s.tasks.map Prod.fst).Nodup) {e : LoopEvent} {shared : ServerShared}
    (h : s.workerStep e = some shared) : TasksKept s { s with toServerShared := shared } := by
  rcases workerStep_cases h with ⟨conn, rfl, htask, rfl⟩ | ⟨conn, rfl, htask, rfl⟩ |
    ⟨conn, rfl, htask, rfl⟩
  · refine ⟨?_, ?_, fun _ => id⟩
    · have hperm := (List.perm_cons_erase htask).map Prod.fst
      have hswap : ((s.tasks.erase (conn, .serving) ++ [(conn, TaskPhase.closed)]).map Prod.fst).Perm
          (conn :: (s.tasks.erase (conn, .serving)).map Prod.fst) := by
        rw [List.map_append]
        exact List.perm_append_singleton conn _
      exact (hperm.trans hswap.symm).nodup_iff.mp honce
    · intro t ht
      rcases List.mem_append.mp ht with ht | ht
      · exact ⟨rfl, t, List.mem_of_mem_erase ht, rfl⟩
      · obtain rfl := List.mem_singleton.mp ht
        exact ⟨rfl, _, htask, rfl⟩
  · have hperm := (List.perm_cons_erase htask).map Prod.fst
    obtain ⟨hnot, honce'⟩ := List.nodup_cons.mp (hperm.nodup_iff.mp honce)
    refine ⟨honce', ?_, ?_⟩
    · intro t ht
      refine ⟨Function.update_of_ne ?_ .., t, List.mem_of_mem_erase ht, rfl⟩
      rintro rfl
      exact hnot (List.mem_map.mpr ⟨t, ht, rfl⟩)
    · intro conn' hsocket
      by_cases heq : conn' = conn
      · subst heq
        exact absurd (Function.update_self ..) hsocket
      · have hsame : Function.update s.socket conn none conn' = s.socket conn' :=
          Function.update_of_ne heq ..
        exact hsame ▸ hsocket
  · have hperm := (List.perm_cons_erase htask).map Prod.fst
    exact ⟨(List.nodup_cons.mp (hperm.nodup_iff.mp honce)).2,
      fun t ht => ⟨rfl, t, List.mem_of_mem_erase ht, rfl⟩, fun _ => id⟩

/-- What a worker serves holds its socket. -/
theorem Holding.serving (h : Holding s closing held) {conn : Ptr}
    (htask : (conn, .serving) ∈ s.tasks) :
    ∃ fd, s.socket conn = some fd ∧ (some conn, fd) ∈ held := by
  obtain ⟨hmem, hne, fd, hsocket⟩ := h.task _ htask
  refine ⟨fd, hsocket, (h.holder conn fd).mpr ⟨⟨hmem, hsocket, ?_⟩, hne⟩⟩
  intro hclosed
  exact absurd (task_unique h.once htask hclosed rfl) (by simp)

theorem worker_own {e : LoopEvent} {shared : ServerShared} (h : s.workerStep e = some shared) :
    shared.listenFd = s.listenFd ∧ shared.readFd = s.readFd := by
  rcases workerStep_cases h with ⟨conn, rfl, -, rfl⟩ | ⟨conn, rfl, -, rfl⟩ | ⟨conn, rfl, -, rfl⟩
  · exact ⟨rfl, rfl⟩
  · exact ⟨rfl, rfl⟩
  · exact ⟨rfl, rfl⟩

variable {inherited : Finset Nat} {log : List LifeObs} {writeFd : Nat}

/-- **A step of a worker keeps the accounts.** -/
theorem Holding.worker (h : Holding s closing held)
    (hacc : Accounts inherited s.openFds [s.listenFd, s.readFd, writeFd] log held) {e : LoopEvent}
    {shared : ServerShared} (hstep : s.workerStep e = some shared) :
    ∃ held', Accounts inherited shared.openFds [shared.listenFd, shared.readFd, writeFd]
        (log ++ s.fdObs e) held' ∧
      Holding { s with toServerShared := shared } closing held' := by
  obtain ⟨hlisten, hread⟩ := worker_own hstep
  rw [hlisten, hread]
  have hkept := worker_tasks h.once hstep
  have hlive := worker_live hstep
  have htasks : ∀ t ∈ shared.tasks, t.1 ∈ s.connList ∧ some t.1 ≠ closing ∧
      ∃ fd, shared.socket t.1 = some fd := by
    intro t ht
    obtain ⟨hsame, t₀, ht₀, heq⟩ := hkept.task t ht
    obtain ⟨hmem, hne, fd, hsocket⟩ := h.task t₀ ht₀
    rw [heq] at hmem hne hsocket
    exact ⟨hmem, hne, fd, hsame.trans hsocket⟩
  have hsame : (∀ conn, e ≠ .close conn) → Holding { s with toServerShared := shared } closing held := by
    intro he
    refine ⟨hkept.once, htasks, fun conn fd => ?_⟩
    rw [h.holder conn fd, hlive conn fd, and_iff_left (he conn)]
  rcases workerStep_cases hstep with ⟨conn, rfl, htask, rfl⟩ | ⟨conn, rfl, htask, rfl⟩ |
    ⟨conn, rfl, htask, rfl⟩
  · obtain ⟨fd, hsocket, hheld⟩ := h.serving htask
    have hobs : s.fdObs (.close conn) = [.op (.release (some conn, fd))] := by
      simp [ServerLoop.fdObs, ServerLoop.closeObs, hsocket]
    have hopen : (s.closed conn).openFds = s.openFds.erase fd := by
      simp [ServerShared.closed, hsocket]
    refine ⟨held.erase (some conn, fd), ?_, hkept.once, htasks, fun conn' fd' => ?_⟩
    · rw [hobs, hopen]
      exact hacc.releaseConn hheld
    · rw [Finset.mem_erase, h.holder conn' fd', hlive conn' fd']
      constructor
      · rintro ⟨hne, hl, hclosing⟩
        refine ⟨⟨hl, ?_⟩, hclosing⟩
        rintro ⟨⟩
        obtain rfl := Option.some.inj (hl.2.1.symm.trans hsocket)
        exact hne rfl
      · rintro ⟨⟨hl, hne⟩, hclosing⟩
        refine ⟨?_, hl, hclosing⟩
        rintro ⟨⟩
        exact hne rfl
  · refine ⟨held, ?_, hsame (by simp)⟩
    have hobs : log ++ s.fdObs (.mark conn) = log := List.append_nil log
    rw [hobs]
    exact hacc
  · obtain ⟨fd, hsocket, -⟩ := h.serving htask
    have hobs : s.fdObs (.rearm conn) = [] := by
      simp [ServerLoop.fdObs, hsocket]
    refine ⟨held, ?_, hsame (by simp)⟩
    rw [hobs, List.append_nil]
    exact hacc

/-- The sockets that a worker leaves are still to be closed. -/
theorem ToClose.worker {node : List Ptr} (h : ToClose s node) (honce : (s.tasks.map Prod.fst).Nodup)
    {e : LoopEvent} {shared : ServerShared} (hstep : s.workerStep e = some shared) :
    ToClose { s with toServerShared := shared } node :=
  ⟨h.listed, fun conn hmem hsocket =>
    h.socket conn hmem ((worker_tasks honce hstep).socket conn hsocket)⟩

end Worker

/-! ## 6. The main thread -/

section Loop
variable {s : ServerLoop} {held : Finset (Option Ptr × Nat)}

theorem Holding.of_exclusive (h : ExclusiveInv s)
    (hholder : ∀ conn fd, (some conn, fd) ∈ held ↔ Live s conn fd) : Holding s none held where
  once := h.once
  task := fun t ht => ⟨(h.task t ht).1, by simp, (h.task t ht).2⟩
  holder := fun conn fd => (hholder conn fd).trans (by simp)

/-- A step of the main loop that accepts nobody. -/
structure SameFds (s s' : ServerLoop) : Prop where
  openFds : s'.openFds = s.openFds
  listenFd : s'.listenFd = s.listenFd
  readFd : s'.readFd = s.readFd
  live : ∀ conn fd, Live s conn fd → Live s' conn fd

theorem SameFds.move (s : ServerLoop) (point : LoopPoint) : SameFds s { s with point } :=
  ⟨rfl, rfl, rfl, fun _ _ h => h⟩

theorem visited_sameFds (rfds : Finset Nat) (conn : Ptr) (node : List Ptr) :
    SameFds s (s.visited rfds conn node).1 := by
  cases hsocket : s.socket conn with
  | none =>
    rw [ServerLoop.visited_none hsocket]
    refine ⟨rfl, rfl, rfl, ?_⟩
    rintro conn' fd ⟨hmem, hsocket', hclosed⟩
    refine ⟨(List.mem_erase_of_ne ?_).mpr hmem, hsocket', hclosed⟩
    rintro rfl
    exact absurd (hsocket.symm.trans hsocket') (by simp)
  | some fd =>
    rw [ServerLoop.visited_some hsocket]
    exact .move s _

theorem dispatched_sameFds (point : LoopPoint) (conn : Ptr) :
    SameFds s { s with toServerShared := s.dispatched conn, point } := by
  refine ⟨rfl, rfl, rfl, ?_⟩
  rintro conn' fd ⟨hmem, hsocket, hclosed⟩
  refine ⟨hmem, hsocket, fun ht => ?_⟩
  rcases List.mem_append.mp ht with ht | ht
  · exact hclosed ht
  · exact absurd (congrArg Prod.snd (List.mem_singleton.mp ht)) (by simp)

variable {inherited : Finset Nat} {log : List LifeObs} {writeFd : Nat} (h : ExclusiveInv s)
  (hhold : Holding s none held)
  (hacc : Accounts inherited s.openFds [s.listenFd, s.readFd, writeFd] log held)
include h hhold hacc

theorem accepted_accounts {rfds : Finset Nat} {clientFd : Nat} (hnew : clientFd ∉ s.openFds)
    (hinv : ExclusiveInv (s.accepted rfds clientFd)) :
    ∃ held', Accounts inherited (s.accepted rfds clientFd).openFds
        [(s.accepted rfds clientFd).listenFd, (s.accepted rfds clientFd).readFd, writeFd]
        (log ++ s.fdObs (.accept (some clientFd))) held' ∧
      Holding (s.accepted rfds clientFd) none held' := by
  cases hpool : s.connections with
  | nil =>
    have hobs : s.fdObs (.accept (some clientFd)) =
        [.op (.acquire (none, clientFd)), .lost clientFd] := by
      simp [ServerLoop.fdObs, objectPoolAcquire, hpool]
    rw [ServerLoop.accepted_nil hpool] at hinv ⊢
    refine ⟨insert (none, clientFd) held, ?_, .of_exclusive hinv fun conn fd => ?_⟩
    · have hlost := (hacc.acquireOwn hnew).lose
      rw [List.append_assoc] at hlost
      rw [hobs]
      exact hlost
    · have hiff := hhold.holder conn fd
      simpa [Live, ServerShared.watch] using hiff
  | cons conn available =>
    have hobs : s.fdObs (.accept (some clientFd)) = [.op (.acquire (some conn, clientFd))] := by
      simp [ServerLoop.fdObs, objectPoolAcquire, hpool]
    have hfree : conn ∉ s.connList := by
      intro hmem
      obtain ⟨objects, hobjects, hlists⟩ := h.lists
      have hnodup := hlists.nodup hobjects
      rw [hpool] at hnodup
      exact (List.nodup_append.mp hnodup).2.2 conn hmem conn List.mem_cons_self rfl
    have hlive := accepted_live hpool rfds clientFd
    rw [ServerLoop.accepted_cons hpool] at hinv hlive ⊢
    refine ⟨insert (some conn, clientFd) held, ?_, .of_exclusive hinv fun conn' fd => ?_⟩
    · rw [hobs]
      exact hacc.acquireConn conn hnew
    · rw [Finset.mem_insert, hhold.holder conn' fd]
      constructor
      · rintro (heq | ⟨⟨hmem, hsocket, hclosed⟩, -⟩)
        · obtain ⟨rfl, rfl⟩ : conn' = conn ∧ fd = clientFd := by simpa using heq
          refine ⟨List.mem_append_right _ List.mem_cons_self, Function.update_self .., ?_⟩
          exact fun ht => hfree (h.task _ ht).1
        · have hne : conn' ≠ conn := by
            rintro rfl
            exact hfree hmem
          exact ⟨List.mem_append_left _ hmem, (Function.update_of_ne hne ..).trans hsocket, hclosed⟩
      · intro hl
        rcases hlive conn' fd hl with ⟨rfl, rfl⟩ | hold
        · exact .inl rfl
        · exact .inr ⟨hold, by simp⟩

omit h in
theorem SameFds.accounts {s' : ServerLoop} (hsame : SameFds s s') (hinv : ExclusiveInv s')
    (hback : ∀ conn fd, Live s' conn fd → Live s conn fd) :
    Accounts inherited s'.openFds [s'.listenFd, s'.readFd, writeFd] (log ++ []) held ∧
      Holding s' none held := by
  refine ⟨?_, .of_exclusive hinv fun conn fd => ?_⟩
  · rw [hsame.openFds, hsame.listenFd, hsame.readFd, List.append_nil]
    exact hacc
  · rw [hhold.holder conn fd]
    exact ⟨fun hl => hsame.live conn fd hl.1, fun hl => ⟨hback conn fd hl, by simp⟩⟩

/-- **A step of the loop keeps the accounts.** -/
theorem loop_accounts {e : LoopEvent} (hallow : Unraced s e) {r : ServerLoop × List LoopObs}
    (hstep : serverLoopStep s e = some r) :
    ∃ held', Accounts inherited r.1.openFds [r.1.listenFd, r.1.readFd, writeFd]
        (log ++ s.fdObs e) held' ∧ Holding r.1 none held' := by
  have hinv := serverLoopStep_inv h hallow hstep
  have hcases := serverLoopStep_cases hstep
  have hworker : ∀ {shared}, s.workerStep e = some shared → r.1 = { s with toServerShared := shared } →
      ∃ held', Accounts inherited r.1.openFds [r.1.listenFd, r.1.readFd, writeFd]
        (log ++ s.fdObs e) held' ∧ Holding r.1 none held' := by
    intro shared hwork heq
    rw [heq]
    exact hhold.worker hacc hwork
  cases hcases with
  | snapshot =>
    exact ⟨held, (SameFds.move s _).accounts hhold hacc hinv fun _ _ hl => hl⟩
  | @select _ rfds =>
    obtain ⟨point, hpoint⟩ := selected_point s rfds
    rw [hpoint] at hinv ⊢
    exact ⟨held, (SameFds.move s point).accounts hhold hacc hinv fun _ _ hl => hl⟩
  | refused =>
    exact ⟨held, (SameFds.move s _).accounts hhold hacc hinv fun _ _ hl => hl⟩
  | accept hpoint hnew => exact accepted_accounts h hhold hacc hnew hinv
  | finish =>
    exact ⟨held, (SameFds.move s _).accounts hhold hacc hinv fun _ _ hl => hl⟩
  | @visit rfds conn node hpoint =>
    have hback := (serverLoopStep_cases hstep).live_of_ne (by simp)
    exact ⟨held, (visited_sameFds rfds conn node).accounts hhold hacc hinv hback⟩
  | @dispatch rfds conn node hpoint =>
    have hback := (serverLoopStep_cases hstep).live_of_ne (by simp)
    exact ⟨held, (dispatched_sameFds _ conn).accounts hhold hacc hinv hback⟩
  | close htask => exact hworker (if_pos htask) rfl
  | mark htask => exact hworker (if_pos htask) rfl
  | rearm htask => exact hworker (if_pos htask) rfl

end Loop

/-! ## 7. The shutdown -/

section Clean
variable {s : ServerLoop} {held : Finset (Option Ptr × Nat)} {inherited : Finset Nat}
  {own : List Nat} {log : List LifeObs} {conn : Ptr} {node : List Ptr}

/-- A connection without a task is closed. -/
theorem closeConn_accounts (hacc : Accounts inherited s.openFds own log held)
    (hhold : Holding s none held) (hclose : ToClose s (conn :: node))
    (hidle : ∀ t ∈ s.tasks, t.1 ≠ conn) :
    ∃ held', Accounts inherited (s.connClosed conn).openFds own (log ++ s.closeObs conn) held' ∧
      Holding (s.connClosed conn) (some conn) held' := by
  have htask : ∀ t ∈ s.tasks, t.1 ∈ s.connList ∧ some t.1 ≠ some conn ∧
      ∃ fd, s.socket t.1 = some fd := by
    intro t ht
    obtain ⟨hmem, -, hsocket⟩ := hhold.task t ht
    exact ⟨hmem, fun heq => hidle t ht (Option.some.inj heq), hsocket⟩
  cases hsocket : s.socket conn with
  | none =>
    have hobs : s.closeObs conn = [] := by simp [ServerLoop.closeObs, hsocket]
    have hopen : (s.connClosed conn).openFds = s.openFds := by
      simp [ServerLoop.connClosed, hsocket]
    refine ⟨held, ?_, hhold.once, htask, fun conn' fd => ?_⟩
    · rw [hobs, hopen, List.append_nil]
      exact hacc
    · rw [hhold.holder conn' fd]
      refine and_congr_right fun hlive => iff_of_true (by simp) ?_
      rintro ⟨⟩
      exact absurd (hlive.2.1.symm.trans hsocket) (by simp)
  | some fd =>
    have hobs : s.closeObs conn = [.op (.release (some conn, fd))] := by
      simp [ServerLoop.closeObs, hsocket]
    have hopen : (s.connClosed conn).openFds = s.openFds.erase fd := by
      simp [ServerLoop.connClosed, hsocket]
    have hlive : Live s conn fd :=
      ⟨hclose.listed List.mem_cons_self, hsocket, fun ht => hidle _ ht rfl⟩
    have hheld : (some conn, fd) ∈ held := (hhold.holder conn fd).mpr ⟨hlive, by simp⟩
    refine ⟨held.erase (some conn, fd), ?_, hhold.once, htask, fun conn' fd' => ?_⟩
    · rw [hobs, hopen]
      exact hacc.releaseConn hheld
    · rw [Finset.mem_erase, hhold.holder conn' fd']
      constructor
      · rintro ⟨hne, hl, -⟩
        refine ⟨hl, ?_⟩
        rintro ⟨⟩
        obtain rfl := Option.some.inj (hl.2.1.symm.trans hsocket)
        exact hne rfl
      · rintro ⟨hl, hne⟩
        refine ⟨?_, hl, by simp⟩
        rintro ⟨⟩
        exact hne rfl

/-- And marked. -/
theorem markConn_holding (hhold : Holding s (some conn) held) (hclose : ToClose s (conn :: node)) :
    Holding (s.connMarked conn) none held ∧ ToClose (s.connMarked conn) node := by
  have hself : (s.connMarked conn).socket conn = none := Function.update_self ..
  have hother : ∀ {conn'}, conn' ≠ conn → (s.connMarked conn).socket conn' = s.socket conn' :=
    fun hne => Function.update_of_ne hne ..
  refine ⟨⟨hhold.once, ?_, fun conn' fd => ?_⟩, ?_, ?_⟩
  · intro t ht
    obtain ⟨hmem, hne, fd, hsocket⟩ := hhold.task t ht
    exact ⟨hmem, by simp, fd, (hother fun heq => hne (congrArg some heq)).trans hsocket⟩
  · rw [hhold.holder conn' fd]
    by_cases heq : conn' = conn
    · subst heq
      refine iff_of_false (fun hl => hl.2 rfl) ?_
      rintro ⟨⟨-, hsocket, -⟩, -⟩
      exact absurd (hself.symm.trans hsocket) (by simp)
    · have hne : some conn' ≠ some conn := fun h => heq (Option.some.inj h)
      rw [and_iff_left hne, and_iff_left (by simp : some conn' ≠ none)]
      exact and_congr_right fun _ => and_congr_left fun _ => by rw [hother heq]
  · exact fun conn' hmem => hclose.listed (List.mem_cons_of_mem conn hmem)
  · intro conn' hmem hsocket
    have hne : conn' ≠ conn := by
      rintro rfl
      exact hsocket hself
    rw [hother hne] at hsocket
    exact (List.mem_cons.mp (hclose.socket conn' hmem hsocket)).resolve_left hne

end Clean

/-! ## 8. The life of the process -/

structure LifeInv (inherited : Finset Nat) (s : ServerLife) (log : List LifeObs)
    (held : Finset (Option Ptr × Nat)) : Prop where
  accounts : Accounts inherited s.openFds s.own log held
  sound : s.Sound held

section Life
variable {objects : List Ptr} {memory : Ptr → Option Nat} {inherited : Finset Nat}

/-- The loop begins. -/
theorem entered_inv (hobjects : objects.Nodup) {openFds : Finset Nat} {listenFd readFd : Nat}
    (hlisten : listenFd ∈ openFds) (hread : readFd ∈ openFds)
    {held : Finset (Option Ptr × Nat)} (hheld : ∀ conn fd, (some conn, fd) ∉ held) :
    ExclusiveInv (entered objects memory openFds listenFd readFd) ∧
      Holding (entered objects memory openFds listenFd readFd) none held := by
  have hstarted : (entered objects memory openFds listenFd readFd).Started := by
    refine ⟨hobjects, rfl, rfl, rfl, ?_, rfl⟩
    intro fd hmem
    rcases Finset.mem_insert.mp hmem with rfl | hmem
    · exact hlisten
    · exact Finset.mem_singleton.mp hmem ▸ hread
  refine ⟨hstarted.inv, .of_exclusive hstarted.inv fun conn fd => ?_⟩
  exact iff_of_false (hheld conn fd) fun hlive => absurd hlive.1 List.not_mem_nil

theorem insert_process {held : Finset (Option Ptr × Nat)} (h : ∀ conn fd, (some conn, fd) ∉ held)
    (fd : Nat) (conn : Ptr) (fd' : Nat) : (some conn, fd') ∉ insert (none, fd) held := by
  intro hmem
  rcases Finset.mem_insert.mp hmem with heq | hmem
  · cases heq
  · exact h conn fd' hmem

/-- **Every step keeps the accounts.** -/
theorem serverLifeStep_inv (hobjects : objects.Nodup) {s : ServerLife} {log : List LifeObs}
    {held : Finset (Option Ptr × Nat)} (h : LifeInv inherited s log held) {e : LifeEvent}
    (hallow : Settled s e) {r : ServerLife × List LifeObs}
    (hstep : serverLifeStep objects memory s e = some r) :
    ∃ held', LifeInv inherited r.1 (log ++ r.2) held' := by
  obtain ⟨hacc, hsound⟩ := h
  have hquiet : ∀ {s'}, Accounts inherited s'.openFds s'.own log held → s'.Sound held →
      ∃ held', LifeInv inherited s' (log ++ []) held' := by
    intro s' hacc' hsound'
    rw [List.append_nil]
    exact ⟨held, hacc', hsound'⟩
  cases serverLifeStep_cases hstep with
  | noAddress => exact hquiet hacc hsound
  | noSocket => exact hquiet hacc hsound
  | bound hnew => exact ⟨_, hacc.acquireOwn hnew, insert_process hsound _⟩
  | @unbound fds fd hnew =>
    have hclosed : Accounts inherited ((insert fd fds).erase fd) [] _ _ :=
      (hacc.acquireOwn hnew).releaseOwn
    rw [List.append_assoc, Finset.erase_insert hnew] at hclosed
    refine ⟨_, hclosed, fun conn fd' hmem => ?_⟩
    exact insert_process hsound fd conn fd' (Finset.mem_of_mem_erase hmem)
  | listen => exact hquiet hacc hsound
  | listenFails =>
    exact ⟨_, hacc.releaseOwn, fun conn fd hmem => hsound conn fd (Finset.mem_of_mem_erase hmem)⟩
  | @pipe fds listenFd readFd writeFd hread hwrite hne =>
    have hlisten : listenFd ∈ fds := hacc.open_of_process (.inl List.mem_cons_self)
    have hnew : writeFd ∉ insert readFd fds := by
      rw [Finset.mem_insert, not_or]
      exact ⟨hne.symm, hwrite⟩
    have hmade := ((hacc.acquireOwn hread).acquireOwn hnew).perm
      (List.reverse_perm [listenFd, readFd, writeFd])
    rw [List.append_assoc] at hmade
    refine ⟨_, hmade, entered_inv hobjects ?_ ?_ (insert_process (insert_process hsound _) _)⟩
    · exact Finset.mem_insert_of_mem (Finset.mem_insert_of_mem hlisten)
    · exact Finset.mem_insert_of_mem (Finset.mem_insert_self ..)
  | pipeFails => exact ⟨held, hacc.lose, hsound⟩
  | loop hloop =>
    obtain ⟨hinv, hhold⟩ := hsound
    obtain ⟨held', hacc', hhold'⟩ := loop_accounts hinv hhold hacc hallow hloop
    exact ⟨held', hacc', serverLoopStep_inv hinv hallow hloop, hhold'⟩
  | selectFails =>
    exact hquiet hacc ⟨hsound.2, fun conn hmem => hmem, fun conn hmem _ => hmem⟩
  | cleanWorker hwork =>
    obtain ⟨hhold, hclose⟩ := hsound
    obtain ⟨held', hacc', hhold'⟩ := hhold.worker hacc hwork
    exact ⟨held', hacc', hhold', hclose.worker hhold.once hwork⟩
  | closingWorker hwork =>
    obtain ⟨hhold, hclose⟩ := hsound
    obtain ⟨held', hacc', hhold'⟩ := hhold.worker hacc hwork
    exact ⟨held', hacc', hhold', hclose.worker hhold.once hwork⟩
  | closeConn =>
    obtain ⟨hhold, hclose⟩ := hsound
    obtain ⟨held', hacc', hhold'⟩ := closeConn_accounts hacc hhold hclose hallow
    exact ⟨held', hacc', hhold', hclose.listed, hclose.socket⟩
  | markConn => exact hquiet hacc (markConn_holding hsound.1 hsound.2)
  | join =>
    obtain ⟨hhold, hclose⟩ := hsound
    have hclosed := hacc.releaseOwn.releaseOwn.releaseOwn
    rw [List.append_assoc, List.append_assoc] at hclosed
    refine ⟨_, hclosed, fun conn fd hmem => ?_⟩
    have hheld := Finset.mem_of_mem_erase (Finset.mem_of_mem_erase (Finset.mem_of_mem_erase hmem))
    obtain ⟨hconn, hsocket, -⟩ := ((hhold.holder conn fd).mp hheld).1
    exact absurd (hclose.socket conn hconn (by rw [hsocket]; simp)) List.not_mem_nil

/-- The process has begun with the descriptors that it inherits. -/
def Living (objects : List Ptr) (memory : Ptr → Option Nat) (inherited : Finset Nat) :
    ServerLife × List LifeObs → Prop :=
  Reachable (logged (serverLifeStep objects memory)) (fun x => Settled x.1)
    (fun x => x = (.listen inherited, []))

/-- Without a task every step is settled. -/
theorem Living.next {x : ServerLife × List LifeObs} (h : Living objects memory inherited x)
    (e : LifeEvent) (htasks : x.1.tasks = []) {r : (ServerLife × List LifeObs) × List LifeObs}
    (hr : logged (serverLifeStep objects memory) x e = some r) :
    Living objects memory inherited r.1 := h.step (settled_of_tasks htasks e) hr

theorem Living.inv (hobjects : objects.Nodup) {x : ServerLife × List LifeObs}
    (h : Living objects memory inherited x) : ∃ held, LifeInv inherited x.1 x.2 held := by
  refine Reachable.invariant (P := fun x => ∃ held, LifeInv inherited x.1 x.2 held) ?_ ?_ h
  · rintro _ rfl
    exact ⟨_, .start inherited, fun conn fd hmem => absurd (mem_ofProcess.mp hmem).1 (by simp)⟩
  · rintro ⟨s, log⟩ e r ⟨held, hinv⟩ hallow hr
    obtain ⟨s', obs, hstep, rfl⟩ := logged_eq_some hr
    exact serverLifeStep_inv hobjects hinv hallow hstep

/-- **The descriptors of the process**: in every run in which no visit is raced and no connection is
    closed that has a task, nothing is closed by who does not have it, what is open is held by one,
    and `-1` is never watched; in the end what is open was inherited, or is lost. -/
theorem serverLife_descriptors (hobjects : objects.Nodup) {s : ServerLife} {log : List LifeObs}
    (h : Living objects memory inherited (s, log)) :
    (∃ held, heldAfter (ofProcess inherited) (fdOps log) = some held ∧ Numbered held s.openFds) ∧
      .setNone ∉ log ∧
      ∀ fds, s = .ended fds → ∀ fd, fd ∈ fds ↔ fd ∈ inherited ∨ fd ∈ lostFds log := by
  obtain ⟨held, hacc, hsound⟩ := h.inv hobjects
  refine ⟨⟨held, hacc.ops, hacc.numbered⟩, hacc.watched, ?_⟩
  rintro fds rfl fd
  constructor
  · intro hmem
    obtain ⟨who, hheld⟩ := (hacc.numbered.mem fd).mp hmem
    cases who with
    | none => exact ((hacc.process fd).mp hheld).resolve_left List.not_mem_nil
    | some conn => exact absurd hheld (hsound conn fd)
  · exact fun hmem => hacc.open_of_process (.inr hmem)

/-- A server with one connection object, when its first client has come. -/
def oneClient : ServerLoop :=
  { entered [100] (fun _ => none) {5, 4, 3, 0, 1, 2} 3 4 with
    socket := Function.update (fun _ => none) 100 (some 6)
    fds := {6, 3, 4}
    openFds := {6, 5, 4, 3, 0, 1, 2}
    connections := []
    connList := [100] }

def oneClientLog : List LifeObs :=
  [.op (.acquire (none, 3)), .op (.acquire (none, 4)), .op (.acquire (none, 5)),
    .op (.acquire (some 100, 6))]

theorem oneClient_living :
    Living [100] (fun _ => none) {0, 1, 2} (.entry 5 oneClient, oneClientLog) := by
  have hstart : Living [100] (fun _ => none) {0, 1, 2} (.listen {0, 1, 2}, []) := .init rfl
  have hbound := hstart.next (.socket (some 3) true) rfl rfl
  have hpipe := (hbound.next (.listen true) rfl rfl).next (.pipe (some (4, 5))) rfl rfl
  have hselected := (hpipe.next (.loop .snapshot) rfl rfl).next (.loop (.select {3})) rfl rfl
  have haccepted := hselected.next (.loop (.accept (some 6))) rfl rfl
  exact (haccepted.next (.loop .visit) rfl rfl).next (.loop .visit) rfl rfl

/-- It stays until `select` fails. -/
theorem serverLife_descriptors_one : ∃ fds log,
    Living [100] (fun _ => none) {0, 1, 2} (.ended fds, log) ∧ .op (.release (some 100, 6)) ∈ log ∧
      .setNone ∉ log ∧ ∀ fd, fd ∈ fds ↔ fd ∈ ({0, 1, 2} : Finset Nat) := by
  have hfailed := (oneClient_living.next (.loop .snapshot) rfl rfl).next .selectFails rfl rfl
  have hclosed := (hfailed.next .closeConn rfl rfl).next .markConn rfl rfl
  have hended := hclosed.next .join rfl rfl
  obtain ⟨-, hset, hopen⟩ := serverLife_descriptors (List.nodup_singleton 100) hended
  refine ⟨_, _, hended, by decide, hset, fun fd => ?_⟩
  rw [hopen _ rfl fd]
  exact or_iff_left List.not_mem_nil

/-! ## 9. A shutdown with tasks -/

/-- Nothing has been closed by who does not have it, and `-1` was never watched. -/
def Faultless (inherited : Finset Nat) (log : List LifeObs) : Prop :=
  (heldAfter (ofProcess inherited) (fdOps log)).isSome = true ∧ .setNone ∉ log

theorem LifeInv.faultless {s : ServerLife} {log : List LifeObs} {held : Finset (Option Ptr × Nat)}
    (h : LifeInv inherited s log held) : Faultless inherited log :=
  ⟨by rw [h.accounts.ops]; rfl, h.accounts.watched⟩

theorem logged_some {s s' : ServerLife} {e : LifeEvent} {log obs : List LifeObs}
    (h : serverLifeStep objects memory s e = some (s', obs)) :
    logged (serverLifeStep objects memory) (s, log) e = some ((s', log ++ obs), obs) := by
  simp only [logged, h, Option.map_some]

/-- The loop has ended, and nobody has a task. -/
def WindsUp : ServerLife → Prop
  | .clean _ s _ | .closing _ s _ _ => s.tasks = []
  | .ended _ => True
  | _ => False

theorem WindsUp.tasks {s : ServerLife} (h : WindsUp s) : s.tasks = [] := by
  cases s with
  | clean => exact h
  | closing => exact h
  | ended => rfl
  | _ => exact h.elim

theorem WindsUp.step {s : ServerLife} (h : WindsUp s) {e : LifeEvent} {r : ServerLife × List LifeObs}
    (hstep : serverLifeStep objects memory s e = some r) : WindsUp r.1 := by
  have hidle : ∀ {l : ServerLoop} {e shared}, l.tasks = [] → l.workerStep e ≠ some shared := by
    intro l e shared htasks hwork
    rcases workerStep_cases hwork with ⟨conn, -, ht, -⟩ | ⟨conn, -, ht, -⟩ | ⟨conn, -, ht, -⟩ <;>
      simp [htasks] at ht
  cases serverLifeStep_cases hstep with
  | cleanWorker hwork => exact absurd hwork (hidle h)
  | closingWorker hwork => exact absurd hwork (hidle h)
  | closeConn => exact h
  | markConn => exact h
  | join => trivial
  | _ => exact h.elim

theorem WindsUp.allowed {s : ServerLife} (h : WindsUp s) (log : List LifeObs) (es : List LifeEvent) :
    Allowed (logged (serverLifeStep objects memory)) (fun x => Settled x.1) es (s, log) := by
  refine allowed_of_invariant (P := fun x => WindsUp x.1) ?_ ?_ h
  · exact fun x e _ hends => settled_of_tasks hends.tasks e
  · intro x e _ r hends hr
    obtain ⟨s', obs, hstep, rfl⟩ := logged_eq_some hr
    have hnext := hends.step hstep
    exact hnext

/-- A second close of the socket of a connection. -/
theorem closed_twice {log obs : List LifeObs} {held : Finset (Option Ptr × Nat)}
    (hops : heldAfter (ofProcess inherited) (fdOps log) = some held)
    (hobs : heldAfter held (fdOps obs) = none) : ¬Faultless inherited (log ++ obs) := by
  rintro ⟨hsome, -⟩
  rw [fdOps_append, heldAfter_append hops, hobs] at hsome
  cases hsome

/-- A connection with a task is closed twice: the worker has closed it before, or is going to close
    it before it is marked. -/
theorem busy_fault {writeFd : Nat} {s : ServerLoop} {conn : Ptr} {node : List Ptr}
    {log : List LifeObs} {held : Finset (Option Ptr × Nat)}
    (h : LifeInv inherited (.clean writeFd s (conn :: node)) log held) {phase : TaskPhase}
    (htask : (conn, phase) ∈ s.tasks) :
    ∃ es r, Run.run (logged (serverLifeStep objects memory)) es
        (.clean writeFd s (conn :: node), log) = some r ∧ ¬Faultless inherited r.1.2 := by
  obtain ⟨hacc, hhold, hclose⟩ := h
  obtain ⟨-, -, fd, hsocket⟩ := hhold.task _ htask
  have hobs : s.closeObs conn = [.op (.release (some conn, fd))] := by
    simp [ServerLoop.closeObs, hsocket]
  have hfirst : logged (serverLifeStep objects memory) (.clean writeFd s (conn :: node), log)
      .closeConn = some ((.closing writeFd (s.connClosed conn) conn node,
        log ++ s.closeObs conn), s.closeObs conn) := rfl
  cases phase with
  | closed =>
    refine ⟨[.closeConn], _, run_cons.mpr ⟨_, _, hfirst, rfl, rfl⟩, ?_⟩
    refine closed_twice hacc.ops ?_
    have hnot : (some conn, fd) ∉ held := fun hheld =>
      ((hhold.holder conn fd).mp hheld).1.2.2 htask
    rw [hobs]
    show ((Op.release (some conn, fd)).apply held).bind _ = none
    rw [Op.apply, if_neg hnot]
    rfl
  | serving =>
    have hwork : (s.connClosed conn).workerStep (.close conn) =
        some ((s.connClosed conn).closed conn) := if_pos htask
    have hsecond : serverLifeStep objects memory (.closing writeFd (s.connClosed conn) conn node)
        (.loop (.close conn)) = some (.closing writeFd { s.connClosed conn with
          toServerShared := (s.connClosed conn).closed conn } conn node, s.closeObs conn) := by
      rw [serverLifeStep, hwork]
      rfl
    refine ⟨[.closeConn, .loop (.close conn)], _, run_cons.mpr ⟨_, _, hfirst,
      run_cons.mpr ⟨_, _, logged_some hsecond, rfl, rfl⟩, rfl⟩, ?_⟩
    show ¬Faultless inherited ((log ++ s.closeObs conn) ++ s.closeObs conn)
    rw [List.append_assoc]
    refine closed_twice hacc.ops ?_
    rw [hobs]
    show ((Op.release (some conn, fd)).apply held).bind
      (fun held => ((Op.release (some conn, fd)).apply held).bind fun held => heldAfter held []) = none
    by_cases hheld : (some conn, fd) ∈ held
    · rw [Op.apply, if_pos hheld]
      show ((Op.release (some conn, fd)).apply (held.erase (some conn, fd))).bind _ = none
      rw [Op.apply, if_neg (Finset.notMem_erase _ _)]
      rfl
    · rw [Op.apply, if_neg hheld]
      rfl

variable (memory) in
/-- **Some connection with a task comes to be closed.** -/
theorem clean_fault (hobjects : objects.Nodup) {writeFd : Nat} {node : List Ptr} {s : ServerLoop}
    {log : List LifeObs} {held : Finset (Option Ptr × Nat)}
    (h : LifeInv inherited (.clean writeFd s node) log held) (htasks : s.tasks ≠ []) :
    ∃ es r, Run.run (logged (serverLifeStep objects memory)) es (.clean writeFd s node, log) = some r ∧
      ¬Faultless inherited r.1.2 := by
  induction node generalizing s log held with
  | nil =>
    obtain ⟨t, ht⟩ := List.exists_mem_of_ne_nil _ htasks
    obtain ⟨hmem, -, fd, hsocket⟩ := h.sound.1.task t ht
    exact absurd (h.sound.2.socket t.1 hmem (by rw [hsocket]; simp)) List.not_mem_nil
  | cons conn node ih =>
    by_cases hidle : ∀ t ∈ s.tasks, t.1 ≠ conn
    · have hclose : serverLifeStep objects memory (.clean writeFd s (conn :: node)) .closeConn =
          some (.closing writeFd (s.connClosed conn) conn node, s.closeObs conn) := rfl
      have hmark : serverLifeStep objects memory (.closing writeFd (s.connClosed conn) conn node)
          .markConn = some (.clean writeFd ((s.connClosed conn).connMarked conn) node, []) := rfl
      have hsettled : Settled (.clean writeFd s (conn :: node)) .closeConn := hidle
      obtain ⟨held₁, h₁⟩ := serverLifeStep_inv hobjects h hsettled hclose
      have hmarked : Settled (.closing writeFd (s.connClosed conn) conn node) .markConn := trivial
      obtain ⟨held₂, h₂⟩ := serverLifeStep_inv hobjects h₁ hmarked hmark
      obtain ⟨es, r, hrun, hfault⟩ := ih h₂ htasks
      exact ⟨.closeConn :: .markConn :: es, _, run_cons.mpr ⟨_, _, logged_some hclose,
        run_cons.mpr ⟨_, _, logged_some hmark, hrun, rfl⟩, rfl⟩, hfault⟩
    · simp only [not_forall, not_not] at hidle
      obtain ⟨⟨_, phase⟩, ht, rfl⟩ := hidle
      exact busy_fault h ht

/-- **When a shutdown is safe**: from where `select` fails every run is without fault, if and only if
    no connection has a task there. -/
theorem serverClean_quiet (hobjects : objects.Nodup) {writeFd : Nat} {s : ServerLoop}
    {log : List LifeObs} (h : Living objects memory inherited (.entry writeFd s, log))
    {snapshot : Finset Nat} (hpoint : s.point = .select snapshot) :
    (∀ es r, Run.run (logged (serverLifeStep objects memory)) (.selectFails :: es)
      (.entry writeFd s, log) = some r → Faultless inherited r.1.2) ↔ s.tasks = [] := by
  have hfails : serverLifeStep objects memory (.entry writeFd s) .selectFails =
      some (.clean writeFd s s.connList, []) := by
    rw [serverLifeStep, hpoint]
  have hsettled : Settled (.entry writeFd s) .selectFails := trivial
  have hclean : Living objects memory inherited (.clean writeFd s s.connList, log ++ []) :=
    Reachable.step h hsettled (logged_some hfails)
  constructor
  · intro hall
    by_contra htasks
    obtain ⟨held, hinv⟩ := hclean.inv hobjects
    obtain ⟨es, r, hrun, hfault⟩ := clean_fault memory hobjects hinv htasks
    exact hfault (hall es _ (run_cons.mpr ⟨_, _, logged_some hfails, hrun, rfl⟩))
  · intro htasks es r hrun
    obtain ⟨r₁, r₂, hstep, hrest, rfl⟩ := run_cons.mp hrun
    obtain rfl := Option.some.inj ((logged_some hfails).symm.trans hstep)
    have hends : WindsUp (.clean writeFd s s.connList) := htasks
    obtain ⟨held, hinv⟩ :=
      Living.inv hobjects (Reachable.run hclean (hends.allowed _ es) hrest)
    exact hinv.faultless

/-- One client has come.  When `select` fails while it is idle the shutdown is without fault; when
    it is being served there is a way to go on in which it is not. -/
theorem serverClean_quiet_one :
    (∃ writeFd s log, Living [100] (fun _ => none) {0, 1, 2} (.entry writeFd s, log) ∧
      s.connList = [100] ∧ s.socket 100 = some 6 ∧ s.tasks = [] ∧
      ∀ es r, Run.run (logged (serverLifeStep [100] fun _ => none)) (.selectFails :: es)
        (.entry writeFd s, log) = some r → Faultless {0, 1, 2} r.1.2) ∧
    ∃ writeFd s log, Living [100] (fun _ => none) {0, 1, 2} (.entry writeFd s, log) ∧
      s.connList = [100] ∧ s.socket 100 = some 6 ∧ s.tasks = [(100, .serving)] ∧
      ∃ es r, Run.run (logged (serverLifeStep [100] fun _ => none)) (.selectFails :: es)
        (.entry writeFd s, log) = some r ∧ ¬Faultless {0, 1, 2} r.1.2 := by
  have hidle := oneClient_living.next (.loop .snapshot) rfl rfl
  refine ⟨⟨_, _, _, hidle, rfl, rfl, rfl,
    (serverClean_quiet (List.nodup_singleton 100) hidle rfl).mpr rfl⟩, ?_⟩
  have hready := (hidle.next (.loop (.select {6})) rfl rfl).next (.loop .visit) rfl rfl
  have hserved := hready.next (.loop .dispatch) rfl rfl
  have hsettled : ∀ {writeFd s} e, s.tasks = [(100, .serving)] →
      Settled (.entry writeFd s) (.loop e) := by
    intro writeFd s e htasks
    have hnone : NoneClosed s := by
      intro conn
      simp [htasks]
    exact hnone.unraced e
  have hround := hserved.step (hsettled .visit rfl) rfl
  have hserving := hround.step (hsettled .snapshot rfl) rfl
  refine ⟨_, _, _, hserving, rfl, rfl, rfl, ?_⟩
  by_contra hquiet
  simp only [not_exists, not_and, not_not] at hquiet
  have htasks := (serverClean_quiet (List.nodup_singleton 100) hserving rfl).mp hquiet
  cases htasks

end Life

end OServer
