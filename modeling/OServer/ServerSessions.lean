/-
  OServer/ServerSessions.lean
  ===========================
  **The whole server: the main loop, the workers and what they serve.**

  The main loop of `ServerLoop` goes on while workers take connections from the task
  queue and serve them with the steps of `Server`.  A client knows its connection by the
  descriptor.  What was received and sent on a descriptor since it was accepted is its
  session.

    * `wholeStep`            — the steps of the main loop and of the workers, in any order;
    * `serverWhole_sessions` — if no visit is raced, every session is a run of the
                               sequential server on its own, and no queued task is stuck;
    * `serverWhole_contents` — a file is open only while a worker serves its connection.
-/
import OServer.ServerExclusive
import OServer.ServerContent

namespace OServer

open Run CString

/-! ## 1. State -/

structure ServerWhole where
  loop : ServerLoop
  /-- the memory of the connections, and the local variables of who serves them -/
  conn : Ptr → Connection
  /-- the tasks that no worker has taken -/
  queue : List Ptr
  /-- the connections that a worker serves -/
  running : List Ptr
  /-- `threads.active_count` -/
  activeCount : Nat

inductive WholeEvent where
  /-- a step of the main loop, or what a worker does to the socket in the end -/
  | loop (e : LoopEvent)
  /-- a step of the worker that serves `conn` -/
  | serve (conn : Ptr) (e : ServerEvent)

/-- What is done with a socket. -/
inductive WholeObs where
  | accepted (fd : Nat)
  | served (socket : Option Nat) (e : ServerEvent) (obs : List ServerObs)

/-- Behind the loop of `server_serv_client`, with `keep_alive`. -/
def Worker.isWaiting : Worker → Bool
  | .waiting => true
  | _ => false

/-- Behind the loop of `server_serv_client`, without `keep_alive`. -/
def Worker.isClosed : Worker → Bool
  | .closed => true
  | _ => false

/-! ## 2. Steps -/

namespace ServerWhole

/-- Only a worker that is behind its loop closes its socket, marks it, or watches it again. -/
def Behind (s : ServerWhole) : LoopEvent → Prop
  | .close conn => conn ∈ s.running ∧ (s.conn conn).worker.isClosed = true
  | .mark conn => conn ∈ s.running
  | .rearm conn => conn ∈ s.running ∧ (s.conn conn).worker.isWaiting = true
  | _ => True

instance (s : ServerWhole) : (e : LoopEvent) → Decidable (s.Behind e)
  | .close _ | .rearm _ => inferInstanceAs (Decidable (_ ∧ _))
  | .mark conn => inferInstanceAs (Decidable (conn ∈ s.running))
  | .snapshot | .select _ | .accept _ | .visit | .dispatch => isTrue trivial

/-- `http_request_reset` and `http_response_reset` of a connection that is given back. -/
def reset (c : Connection) : Connection :=
  { c with
    conn := { c.conn with
      request := httpRequestReset c.conn.request
      response := httpResponseReset c.conn.response .ok200 } }

/-- What the main loop does to the memory of the connections. -/
def touched (s : ServerWhole) : LoopEvent → LoopPoint → Ptr → Connection
  | .accept (some _), _ =>
      match s.loop.connections with
      | [] => s.conn
      | conn :: _ => Function.update s.conn conn (.accepted (s.conn conn).conn.dataBuffer)
  | .visit, .traverse _ (conn :: _) =>
      match s.loop.socket conn with
      | none => Function.update s.conn conn (reset (s.conn conn))
      | some _ => s.conn
  | _, _ => s.conn

/-- `thread_pool_add_task`. -/
def queued (s : ServerWhole) : LoopEvent → LoopPoint → List Ptr
  | .dispatch, .dispatch _ conn _ => s.queue ++ [conn]
  | _, _ => s.queue

/-- `server_serv_client` returns. -/
def left (s : ServerWhole) : LoopEvent → List Ptr
  | .mark conn | .rearm conn => s.running.erase conn
  | _ => s.running

def acceptedFds : LoopEvent → List WholeObs
  | .accept (some clientFd) => [.accepted clientFd]
  | _ => []

/-- The server when the main loop, or what it shares with the workers, has come to `loop`. -/
def moved (s : ServerWhole) (e : LoopEvent) (loop : ServerLoop) : ServerWhole where
  loop := loop
  conn := s.touched e s.loop.point
  queue := s.queued e s.loop.point
  running := s.left e
  activeCount := s.activeCount

/-- A worker takes the first task. -/
def taken (s : ServerWhole) (conn : Ptr) (rest : List Ptr) (c : Connection) : ServerWhole :=
  { s with conn := Function.update s.conn conn c, queue := rest, running := s.running ++ [conn] }

def serving (s : ServerWhole) (conn : Ptr) (c : Connection) : ServerWhole :=
  { s with conn := Function.update s.conn conn c }

end ServerWhole

/-- Two workers at one connection are a data race, for which C gives no meaning. -/
def wholeStep (root : List UInt8) (s : ServerWhole) :
    WholeEvent → Option (ServerWhole × List WholeObs)
  | .loop e =>
      if s.Behind e then
        (serverLoopStep s.loop e).map fun r => (s.moved e r.1, ServerWhole.acceptedFds e)
      else none
  | .serve conn (.activate stack) =>
      match s.queue with
      | [] => none
      | first :: rest =>
          if conn = first ∧ conn ∉ s.running ∧ s.running.length < s.activeCount then
            (serverStep root (s.conn conn) (.activate stack)).map fun r =>
              (s.taken conn rest r.1, [.served (s.loop.socket conn) (.activate stack) r.2])
          else none
  | .serve conn e =>
      if conn ∈ s.running then
        (serverStep root (s.conn conn) e).map fun r =>
          (s.serving conn r.1, [.served (s.loop.socket conn) e r.2])
      else none

/-- Before the loop; the memory of the connections is not initialised. -/
structure ServerWhole.Started (s : ServerWhole) : Prop where
  loop : s.loop.Started
  queue : s.queue = []
  running : s.running = []

/-- What one step can do. -/
inductive WholeStep (root : List UInt8) (s : ServerWhole) :
    WholeEvent → ServerWhole × List WholeObs → Prop where
  | loop {e : LoopEvent} {r : ServerLoop × List LoopObs} (hbehind : s.Behind e)
      (hstep : serverLoopStep s.loop e = some r) :
      WholeStep root s (.loop e) (s.moved e r.1, ServerWhole.acceptedFds e)
  | activate {conn : Ptr} {rest : List Ptr} {stack : Buf UInt8 rbufSize}
      {r : Connection × List ServerObs} (hqueue : s.queue = conn :: rest)
      (hfree : conn ∉ s.running) (hthread : s.running.length < s.activeCount)
      (hstep : serverStep root (s.conn conn) (.activate stack) = some r) :
      WholeStep root s (.serve conn (.activate stack))
        (s.taken conn rest r.1, [.served (s.loop.socket conn) (.activate stack) r.2])
  | serve {conn : Ptr} {e : ServerEvent} {r : Connection × List ServerObs}
      (hrunning : conn ∈ s.running) (hstep : serverStep root (s.conn conn) e = some r) :
      WholeStep root s (.serve conn e)
        (s.serving conn r.1, [.served (s.loop.socket conn) e r.2])

section Cases
variable {root : List UInt8} {s : ServerWhole}

theorem wholeStep_serve {conn : Ptr} {e : ServerEvent} {r : ServerWhole × List WholeObs}
    (h : (if conn ∈ s.running then (serverStep root (s.conn conn) e).map fun r =>
      (s.serving conn r.1, [WholeObs.served (s.loop.socket conn) e r.2]) else none) = some r) :
    WholeStep root s (.serve conn e) r := by
  obtain ⟨hrunning, hmap⟩ := Option.ite_none_right_eq_some.mp h
  obtain ⟨r', hstep, rfl⟩ := Option.map_eq_some_iff.mp hmap
  exact .serve hrunning hstep

theorem wholeStep_cases {e : WholeEvent} {r : ServerWhole × List WholeObs}
    (h : wholeStep root s e = some r) : WholeStep root s e r := by
  cases e with
  | loop e =>
    obtain ⟨hbehind, hmap⟩ := Option.ite_none_right_eq_some.mp h
    obtain ⟨r', hstep, rfl⟩ := Option.map_eq_some_iff.mp hmap
    exact .loop hbehind hstep
  | serve conn e =>
    cases e with
    | activate stack =>
      rw [wholeStep] at h
      cases hqueue : s.queue with
      | nil => simp [hqueue] at h
      | cons first rest =>
        rw [hqueue] at h
        obtain ⟨⟨rfl, hfree, hthread⟩, hmap⟩ := Option.ite_none_right_eq_some.mp h
        obtain ⟨r', hstep, rfl⟩ := Option.map_eq_some_iff.mp hmap
        exact .activate hqueue hfree hthread hstep
    | recv r' => exact wholeStep_serve h
    | settle fs => exact wholeStep_serve h
    | send content written => exact wholeStep_serve h

end Cases

/-! ## 3. Sessions -/

/-- What is done with a descriptor. -/
def sessionStep (fd : Nat) (past : List (ServerEvent × List ServerObs)) :
    WholeObs → List (ServerEvent × List ServerObs)
  | .accepted fd' => if fd' = fd then [] else past
  | .served socket e obs => if socket = some fd then past ++ [(e, obs)] else past

/-- What was done with `fd` since it was accepted. -/
def session (fd : Nat) (obs : List WholeObs) : List (ServerEvent × List ServerObs) :=
  obs.foldl (sessionStep fd) []

theorem session_append (fd : Nat) (obs obs' : List WholeObs) :
    session fd (obs ++ obs') = obs'.foldl (sessionStep fd) (session fd obs) := List.foldl_append

theorem session_accepted (fd : Nat) (obs : List WholeObs) :
    session fd (obs ++ [.accepted fd]) = [] := by
  rw [session_append]
  exact if_pos rfl

theorem session_accepted_of_ne {fd fd' : Nat} (h : fd ≠ fd') (obs : List WholeObs) :
    session fd (obs ++ [.accepted fd']) = session fd obs := by
  rw [session_append]
  exact if_neg (Ne.symm h)

theorem session_served (fd : Nat) (obs : List WholeObs) (e : ServerEvent) (out : List ServerObs) :
    session fd (obs ++ [.served (some fd) e out]) = session fd obs ++ [(e, out)] := by
  rw [session_append]
  exact if_pos rfl

theorem session_served_of_ne {fd fd' : Nat} (h : fd ≠ fd') (obs : List WholeObs) (e : ServerEvent)
    (out : List ServerObs) : session fd (obs ++ [.served (some fd') e out]) = session fd obs := by
  rw [session_append]
  exact if_neg fun heq => h (Option.some.inj heq).symm

/-- The events of a session are a run of the sequential server, which observes the same and ends
    in `c`. -/
def SessionRun (root : List UInt8) (past : List (ServerEvent × List ServerObs)) (c : Connection) :
    Prop :=
  ∃ dataBuffer, Run.run (serverStep root) (past.map Prod.fst) (.accepted dataBuffer) =
    some (c, past.flatMap Prod.snd)

theorem SessionRun.accepted (root : List UInt8) (dataBuffer : Buf UInt8 dataBufferSize) :
    SessionRun root [] (.accepted dataBuffer) := ⟨dataBuffer, rfl⟩

theorem SessionRun.serve {root : List UInt8} {past : List (ServerEvent × List ServerObs)}
    {c : Connection} (h : SessionRun root past c) {e : ServerEvent}
    {r : Connection × List ServerObs} (hstep : serverStep root c e = some r) :
    SessionRun root (past ++ [(e, r.2)]) r.1 := by
  obtain ⟨dataBuffer, hrun⟩ := h
  refine ⟨dataBuffer, ?_⟩
  have hlast : Run.run (serverStep root) [e] c = some r :=
    run_cons.mpr ⟨r, _, hstep, rfl, by simp⟩
  rw [List.map_append, List.flatMap_append]
  simpa using run_append hrun hlast

/-! ## 4. The invariant -/

/-- What belongs to one connection of the list. -/
structure ConnOk (s : ServerWhole) (conn : Ptr) : Prop where
  slot : SlotOk (s.conn conn)
  answering : (s.conn conn).worker.Answering → conn ∈ s.running
  closed : (conn, .closed) ∈ s.loop.tasks → (s.conn conn).worker = .closed ∧ conn ∈ s.running

structure WholeInv (root : List UInt8) (s : ServerWhole) (past : List WholeObs) : Prop where
  loop : ExclusiveInv s.loop
  /-- a task is queued, or a worker has it -/
  tasks : (s.loop.tasks.map Prod.fst).Perm (s.queue ++ s.running)
  threads : s.running.length ≤ s.activeCount
  owned : ∀ conn ∈ s.loop.connList, ConnOk s conn
  /-- who is not served waits for a worker -/
  waiting : ∀ conn fd, Live s.loop conn fd → conn ∉ s.running → (s.conn conn).worker = .waiting
  session : ∀ conn fd, Live s.loop conn fd → SessionRun root (session fd past) (s.conn conn)

section Inv
variable {root : List UInt8} {s : ServerWhole} {past : List WholeObs}

theorem WholeInv.nodup (h : WholeInv root s past) : (s.queue ++ s.running).Nodup :=
  h.tasks.nodup_iff.mp h.loop.once

theorem WholeInv.task_of_running (h : WholeInv root s past) {conn : Ptr}
    (hrunning : conn ∈ s.queue ++ s.running) : ∃ phase, (conn, phase) ∈ s.loop.tasks := by
  obtain ⟨⟨conn', phase⟩, ht, rfl⟩ := List.mem_map.mp (h.tasks.mem_iff.mpr hrunning)
  exact ⟨phase, ht⟩

/-- A worker that takes a step serves a live connection. -/
theorem WholeInv.live (h : WholeInv root s past) {conn : Ptr}
    (hrunning : conn ∈ s.queue ++ s.running) (hclosed : (s.conn conn).worker ≠ .closed) :
    ∃ fd, Live s.loop conn fd := by
  obtain ⟨phase, ht⟩ := h.task_of_running hrunning
  obtain ⟨hmem, fd, hsocket⟩ := h.loop.task _ ht
  exact ⟨fd, hmem, hsocket, fun hc => hclosed ((h.owned conn hmem).closed hc).1⟩

/-- Where a step can be taken nothing is closed yet. -/
theorem serverStep_not_closed {c : Connection} {e : ServerEvent} {r : Connection × List ServerObs}
    (h : serverStep root c e = some r) : c.worker ≠ .closed := by
  obtain ⟨conn, worker⟩ := c
  rintro rfl
  cases e <;> cases h

/-- A step of a worker changes one connection, and its session. -/
theorem serving_inv (h : WholeInv root s past) {conn : Ptr} {e : ServerEvent}
    {r : Connection × List ServerObs} {s' : ServerWhole} (hloop : s'.loop = s.loop)
    (hconn : s'.conn = Function.update s.conn conn r.1) (hcount : s'.activeCount = s.activeCount)
    (hperm : (s.queue ++ s.running).Perm (s'.queue ++ s'.running))
    (hthreads : s'.running.length ≤ s.activeCount) (hsub : ∀ c ∈ s.running, c ∈ s'.running)
    (hrunning : conn ∈ s'.running) (hstep : serverStep root (s.conn conn) e = some r) :
    WholeInv root s' (past ++ [.served (s.loop.socket conn) e r.2]) := by
  have hopen := serverStep_not_closed hstep
  have hserved : conn ∈ s.queue ++ s.running := hperm.mem_iff.mpr (List.mem_append_right _ hrunning)
  obtain ⟨fd, hlive⟩ := h.live hserved hopen
  have hself : s'.conn conn = r.1 := by
    rw [hconn]
    exact Function.update_self ..
  have hother : ∀ {conn'}, conn' ≠ conn → s'.conn conn' = s.conn conn' := by
    intro conn' hne
    rw [hconn]
    exact Function.update_of_ne hne ..
  constructor
  case loop =>
    rw [hloop]
    exact h.loop
  case tasks =>
    rw [hloop]
    exact h.tasks.trans hperm
  case threads =>
    rw [hcount]
    exact hthreads
  case owned =>
    intro conn' hmem
    rw [hloop] at hmem
    obtain ⟨hslot, hanswering, hclosed⟩ := h.owned conn' hmem
    by_cases heq : conn' = conn
    · subst heq
      refine ⟨?_, fun _ => hrunning, ?_⟩
      · rw [hself]
        have hstep' : serverStep root (s.conn conn') e = some (r.1, r.2) := hstep
        exact (serverStep_oneSlot hstep' hslot).2
      · rw [hloop]
        exact fun ht => absurd ht hlive.2.2
    · refine ⟨?_, ?_, ?_⟩
      · rw [hother heq]
        exact hslot
      · rw [hother heq]
        exact fun ha => hsub conn' (hanswering ha)
      · rw [hloop, hother heq]
        exact fun ht => ⟨(hclosed ht).1, hsub conn' (hclosed ht).2⟩
  case waiting =>
    intro conn' fd' hlive' hidle
    rw [hloop] at hlive'
    have hne : conn' ≠ conn := by
      rintro rfl
      exact hidle hrunning
    rw [hother hne]
    exact h.waiting conn' fd' hlive' fun hmem => hidle (hsub conn' hmem)
  case session =>
    intro conn' fd' hlive'
    rw [hloop] at hlive'
    rw [hlive.2.1]
    by_cases heq : conn' = conn
    · subst heq
      obtain rfl : fd' = fd := Option.some.inj (hlive'.2.1.symm.trans hlive.2.1)
      rw [session_served, hself]
      exact (h.session conn' fd' hlive').serve hstep
    · -- two live connections have two descriptors
      have hne : fd' ≠ fd := by
        rintro rfl
        exact heq (h.loop.own conn' conn fd' hlive' hlive)
      rw [session_served_of_ne hne, hother heq]
      exact h.session conn' fd' hlive'

/-! ## 5. The steps of the main loop -/

/-- A step that accepts nobody keeps the memory of the connections that stay in the list. -/
theorem WholeInv.kept (h : WholeInv root s past) {s' : ServerWhole} (hloop : ExclusiveInv s'.loop)
    (hcount : s'.activeCount = s.activeCount)
    (htasks : (s'.loop.tasks.map Prod.fst).Perm (s'.queue ++ s'.running))
    (hthreads : s'.running.length ≤ s.running.length)
    (hconn : ∀ conn ∈ s'.loop.connList, conn ∈ s.loop.connList ∧ s'.conn conn = s.conn conn)
    (hclosed : ∀ conn, (conn, .closed) ∈ s'.loop.tasks →
      (conn, .closed) ∈ s.loop.tasks ∨ (s.conn conn).worker = .closed ∧ conn ∈ s.running)
    (hlive : ∀ conn fd, Live s'.loop conn fd → Live s.loop conn fd)
    (hleft : ∀ conn ∈ s.running, conn ∈ s'.running ∨ (s.conn conn).worker = .waiting ∨
      (s.conn conn).worker = .closed ∧ (conn, .closed) ∉ s'.loop.tasks ∧
        ∀ fd, ¬Live s'.loop conn fd) :
    WholeInv root s' past where
  loop := hloop
  tasks := htasks
  threads := by
    rw [hcount]
    exact hthreads.trans h.threads
  owned := by
    intro conn hmem
    obtain ⟨hmem', heq⟩ := hconn conn hmem
    obtain ⟨hslot, hanswering, hmark⟩ := h.owned conn hmem'
    refine ⟨?_, ?_, ?_⟩
    · rw [heq]
      exact hslot
    · rw [heq]
      intro ha
      rcases hleft conn (hanswering ha) with hin | hw | ⟨hw, -⟩
      · exact hin
      · rw [hw] at ha
        exact ha.elim
      · rw [hw] at ha
        exact ha.elim
    · rw [heq]
      intro ht
      have hold : (s.conn conn).worker = .closed ∧ conn ∈ s.running := by
        rcases hclosed conn ht with ht | hw
        · exact hmark ht
        · exact hw
      refine ⟨hold.1, ?_⟩
      rcases hleft conn hold.2 with hin | hw | ⟨-, hgone, -⟩
      · exact hin
      · exact absurd (hold.1.symm.trans hw) (by simp)
      · exact absurd ht hgone
  waiting := by
    intro conn fd hl hidle
    rw [(hconn conn hl.1).2]
    by_cases hrunning : conn ∈ s.running
    · rcases hleft conn hrunning with hin | hw | ⟨-, -, hdead⟩
      · exact absurd hin hidle
      · exact hw
      · exact absurd hl (hdead fd)
    · exact h.waiting conn fd (hlive conn fd hl) hrunning
  session := by
    intro conn fd hl
    rw [(hconn conn hl.1).2]
    exact h.session conn fd (hlive conn fd hl)

/-- Only the place of the main loop changes. -/
theorem WholeInv.move (h : WholeInv root s past) {loop : ServerLoop} (hloop : ExclusiveInv loop)
    (hpoint : ∃ point, loop = { s.loop with point }) :
    WholeInv root { s with loop := loop } past := by
  obtain ⟨point, rfl⟩ := hpoint
  exact h.kept hloop rfl h.tasks le_rfl (fun conn hmem => ⟨hmem, rfl⟩) (fun conn ht => .inl ht)
    (fun conn fd hl => hl) (fun conn hmem => .inl hmem)

/-- A descriptor is accepted: nobody had it, and who has it now starts from nothing. -/
theorem moved_accept (h : WholeInv root s past) {rfds : Finset Nat} {clientFd : Nat}
    (hpoint : s.loop.point = .accept rfds) (hnew : clientFd ∉ s.loop.openFds) :
    WholeInv root (s.moved (.accept (some clientFd)) (s.loop.accepted rfds clientFd))
      (past ++ [.accepted clientFd]) := by
  have hloop := loop_accepted_inv h.loop hpoint hnew
  cases hpool : s.loop.connections with
  | nil =>
    have hconn : (s.moved (.accept (some clientFd)) (s.loop.accepted rfds clientFd)).conn =
        s.conn := by simp only [ServerWhole.moved, ServerWhole.touched, hpool]
    have hsession : ∀ conn fd, Live s.loop conn fd →
        SessionRun root (session fd (past ++ [.accepted clientFd])) (s.conn conn) := by
      intro conn fd hl
      rw [session_accepted_of_ne (new_ne h.loop hnew hl)]
      exact h.session conn fd hl
    rw [ServerLoop.accepted_nil hpool] at hloop hconn ⊢
    refine ⟨hloop, h.tasks, h.threads, ?_, ?_, ?_⟩
    · intro conn hmem
      obtain ⟨hslot, hanswering, hclosed⟩ := h.owned conn hmem
      rw [← hconn] at hslot hanswering hclosed
      exact ⟨hslot, hanswering, hclosed⟩
    · rw [hconn]
      exact h.waiting
    · rw [hconn]
      exact hsession
  | cons conn available =>
    obtain ⟨objects, hobjects, hlists⟩ := h.loop.lists
    have hfree : ∀ conn' ∈ s.loop.connList, conn' ≠ conn := by
      rintro conn' hmem rfl
      have hnodup := hlists.nodup hobjects
      rw [hpool] at hnodup
      exact (List.nodup_append.mp hnodup).2.2 conn' hmem conn' List.mem_cons_self rfl
    have hconn : (s.moved (.accept (some clientFd)) (s.loop.accepted rfds clientFd)).conn =
        Function.update s.conn conn (.accepted (s.conn conn).conn.dataBuffer) := by
      simp only [ServerWhole.moved, ServerWhole.touched, hpool]
    have hself : (s.moved (.accept (some clientFd)) (s.loop.accepted rfds clientFd)).conn conn =
        .accepted (s.conn conn).conn.dataBuffer := by
      rw [hconn]
      exact Function.update_self ..
    have hother : ∀ {conn'}, conn' ≠ conn →
        (s.moved (.accept (some clientFd)) (s.loop.accepted rfds clientFd)).conn conn' =
          s.conn conn' := by
      intro conn' hne
      rw [hconn]
      exact Function.update_of_ne hne ..
    have hlive := accepted_live hpool rfds clientFd
    rw [ServerLoop.accepted_cons hpool] at hloop hself hother hlive ⊢
    constructor
    case loop => exact hloop
    case tasks => exact h.tasks
    case threads => exact h.threads
    case owned =>
      intro conn' hmem
      rcases mem_listAppend.mp hmem with hold | rfl
      · obtain ⟨hslot, hanswering, hclosed⟩ := h.owned conn' hold
        rw [← hother (hfree conn' hold)] at hslot hanswering hclosed
        exact ⟨hslot, hanswering, hclosed⟩
      · refine ⟨?_, ?_, ?_⟩
        · rw [hself]
          exact fun _ => rfl
        · rw [hself]
          exact fun ha => ha.elim
        · intro ht
          exact absurd rfl (hfree _ (h.loop.task _ ht).1)
    case waiting =>
      intro conn' fd hl hidle
      rcases hlive conn' fd hl with ⟨rfl, -⟩ | hold
      · rw [hself]
        rfl
      · rw [hother (hfree conn' hold.1)]
        exact h.waiting conn' fd hold hidle
    case session =>
      intro conn' fd hl
      rcases hlive conn' fd hl with ⟨rfl, rfl⟩ | hold
      · rw [session_accepted, hself]
        exact .accepted root _
      · rw [session_accepted_of_ne (new_ne h.loop hnew hold), hother (hfree conn' hold.1)]
        exact h.session conn' fd hold

/-- A visit gives back what is closed and nobody serves. -/
theorem moved_visit (h : WholeInv root s past) {rfds : Finset Nat} {conn : Ptr} {node : List Ptr}
    (hpoint : s.loop.point = .traverse rfds (conn :: node))
    (hloop : ExclusiveInv (s.loop.visited rfds conn node).1) :
    WholeInv root (s.moved .visit (s.loop.visited rfds conn node).1) past := by
  cases hsocket : s.loop.socket conn with
  | some fd =>
    have hsame : s.moved .visit (s.loop.visited rfds conn node).1 =
        { s with loop := (s.loop.visited rfds conn node).1 } := by
      simp only [ServerWhole.moved, ServerWhole.touched, ServerWhole.queued, ServerWhole.left,
        hpoint, hsocket]
    rw [hsame]
    refine h.move hloop ?_
    rw [ServerLoop.visited_some hsocket]
    exact ⟨_, rfl⟩
  | none =>
    have hnodup := h.loop.connList_nodup
    have hmoved : s.moved .visit (s.loop.visited rfds conn node).1 =
        { s with
          loop := (s.loop.visited rfds conn node).1
          conn := Function.update s.conn conn (ServerWhole.reset (s.conn conn)) } := by
      simp only [ServerWhole.moved, ServerWhole.touched, ServerWhole.queued, ServerWhole.left,
        hpoint, hsocket]
    rw [hmoved]
    rw [ServerLoop.visited_none hsocket] at hloop ⊢
    have hlive := (LoopStep.visit hpoint).live_of_ne (by simp)
    rw [ServerLoop.visited_none hsocket] at hlive
    refine h.kept hloop rfl h.tasks le_rfl ?_ (fun conn' ht => .inl ht) hlive
      (fun conn' hmem => .inl hmem)
    intro conn' hmem
    obtain ⟨hne, hmem'⟩ := hnodup.mem_erase_iff.mp hmem
    exact ⟨hmem', Function.update_of_ne hne ..⟩

theorem moved_dispatch (h : WholeInv root s past) {rfds : Finset Nat} {conn : Ptr}
    {node : List Ptr} (hpoint : s.loop.point = .dispatch rfds conn node) :
    WholeInv root (s.moved .dispatch
      { s.loop with
        toServerShared := s.loop.dispatched conn, point := .traverse rfds node }) past := by
  have hmoved : ∀ loop, s.moved .dispatch loop =
      { s with loop := loop, queue := s.queue ++ [conn] } := by
    intro loop
    simp only [ServerWhole.moved, ServerWhole.touched, ServerWhole.queued, ServerWhole.left, hpoint]
  rw [hmoved]
  refine h.kept (loop_dispatched_inv h.loop hpoint) rfl ?_ le_rfl (fun conn' hmem => ⟨hmem, rfl⟩)
    ?_ ((LoopStep.dispatch hpoint).live_of_ne (by simp)) (fun conn' hmem => .inl hmem)
  · show ((s.loop.tasks ++ [(conn, TaskPhase.serving)]).map Prod.fst).Perm
      ((s.queue ++ [conn]) ++ s.running)
    rw [List.map_append, List.append_assoc]
    refine (h.tasks.append_right _).trans ?_
    rw [List.append_assoc]
    exact List.Perm.append_left s.queue List.perm_append_comm
  · intro conn' ht
    rcases List.mem_append.mp ht with ht | ht
    · exact .inl ht
    · exact absurd (congrArg Prod.snd (List.mem_singleton.mp ht)) (by simp)

/-- The worker that is done leaves. -/
theorem left_perm (h : WholeInv root s past) {conn : Ptr} (hrunning : conn ∈ s.running)
    {phase : TaskPhase} (htask : (conn, phase) ∈ s.loop.tasks) :
    ((s.loop.tasks.erase (conn, phase)).map Prod.fst).Perm (s.queue ++ s.running.erase conn) := by
  have hperm := ((List.perm_cons_erase htask).map Prod.fst).symm.trans h.tasks
  have hrest : (s.queue ++ s.running).Perm (conn :: (s.queue ++ s.running.erase conn)) :=
    ((List.perm_cons_erase hrunning).append_left s.queue).trans List.perm_middle
  exact List.Perm.cons_inv (hperm.trans hrest)

theorem moved_close (h : WholeInv root s past) {conn : Ptr} (hrunning : conn ∈ s.running)
    (hclosed : (s.conn conn).worker = .closed) (htask : (conn, .serving) ∈ s.loop.tasks) :
    WholeInv root (s.moved (.close conn) { s.loop with toServerShared := s.loop.closed conn })
      past := by
  refine h.kept (loop_closed_inv h.loop htask) rfl ?_ le_rfl (fun conn' hmem => ⟨hmem, rfl⟩) ?_
    ((LoopStep.close htask).live_of_ne (by simp)) (fun conn' hmem => .inl hmem)
  · show ((s.loop.tasks.erase (conn, .serving) ++ [(conn, TaskPhase.closed)]).map Prod.fst).Perm
      (s.queue ++ s.running)
    rw [List.map_append]
    refine (List.perm_append_singleton conn _).trans ?_
    exact ((List.perm_cons_erase htask).map Prod.fst).symm.trans h.tasks
  · intro conn' ht
    rcases List.mem_append.mp ht with ht | ht
    · exact .inl (List.mem_of_mem_erase ht)
    · have heq : conn' = conn := congrArg Prod.fst (List.mem_singleton.mp ht)
      rw [heq]
      exact .inr ⟨hclosed, hrunning⟩

theorem moved_mark (h : WholeInv root s past) {conn : Ptr} (hrunning : conn ∈ s.running)
    (htask : (conn, .closed) ∈ s.loop.tasks) :
    WholeInv root (s.moved (.mark conn) { s.loop with toServerShared := s.loop.marked conn })
      past := by
  have hmarked : ∀ fd, ¬Live { s.loop with toServerShared := s.loop.marked conn } conn fd := by
    rintro fd ⟨-, hsocket, -⟩
    have hself : Function.update s.loop.socket conn none conn = none := Function.update_self ..
    exact absurd (hself.symm.trans hsocket) (by simp)
  refine h.kept (loop_marked_inv h.loop htask) rfl (left_perm h hrunning htask)
    List.length_erase_le (fun conn' hmem => ⟨hmem, rfl⟩)
    (fun conn' ht => .inl (List.mem_of_mem_erase ht))
    ((LoopStep.mark htask).live_of_ne (by simp)) ?_
  intro conn' hmem
  by_cases heq : conn' = conn
  · subst heq
    have honce := ((List.perm_cons_erase htask).map Prod.fst).nodup_iff.mp h.loop.once
    refine .inr (.inr ⟨((h.owned conn' (h.loop.task _ htask).1).closed htask).1, ?_, hmarked⟩)
    intro ht
    exact (List.nodup_cons.mp honce).1 (List.mem_map.mpr ⟨_, ht, rfl⟩)
  · exact .inl ((List.mem_erase_of_ne heq).mpr hmem)

theorem moved_rearm (h : WholeInv root s past) {conn : Ptr} (hrunning : conn ∈ s.running)
    (hwaiting : (s.conn conn).worker = .waiting) (htask : (conn, .serving) ∈ s.loop.tasks) :
    WholeInv root (s.moved (.rearm conn) { s.loop with toServerShared := s.loop.rearmed conn })
      past := by
  refine h.kept (loop_rearmed_inv h.loop htask) rfl (left_perm h hrunning htask)
    List.length_erase_le (fun conn' hmem => ⟨hmem, rfl⟩)
    (fun conn' ht => .inl (List.mem_of_mem_erase ht))
    ((LoopStep.rearm htask).live_of_ne (by simp)) ?_
  intro conn' hmem
  by_cases heq : conn' = conn
  · exact .inr (.inl (heq ▸ hwaiting))
  · exact .inl ((List.mem_erase_of_ne heq).mpr hmem)

theorem moved_inv (h : WholeInv root s past) {e : LoopEvent} (hallow : Unraced s.loop e)
    (hbehind : s.Behind e) {r : ServerLoop × List LoopObs}
    (hstep : serverLoopStep s.loop e = some r) :
    WholeInv root (s.moved e r.1) (past ++ ServerWhole.acceptedFds e) := by
  have hloop := serverLoopStep_inv h.loop hallow hstep
  have hquiet : ∀ {s'}, WholeInv root s' past → WholeInv root s' (past ++ []) := by
    intro s' hs'
    rwa [List.append_nil]
  cases serverLoopStep_cases hstep with
  | snapshot => exact hquiet (h.move hloop ⟨_, rfl⟩)
  | select => exact hquiet (h.move hloop (selected_point s.loop _))
  | refused => exact hquiet (h.move hloop ⟨_, rfl⟩)
  | accept hpoint hnew => exact moved_accept h hpoint hnew
  | finish hpoint =>
    have hsame : ∀ loop, s.moved .visit loop = { s with loop := loop } := by
      intro loop
      simp only [ServerWhole.moved, ServerWhole.touched, ServerWhole.queued, ServerWhole.left,
        hpoint]
    apply hquiet
    rw [hsame]
    exact h.move hloop ⟨_, rfl⟩
  | visit hpoint => exact hquiet (moved_visit h hpoint hloop)
  | dispatch hpoint => exact hquiet (moved_dispatch h hpoint)
  | @close conn htask =>
    have hclosed : (s.conn conn).worker = .closed := by
      have hw := hbehind.2
      revert hw
      cases (s.conn conn).worker <;> simp [Worker.isClosed]
    exact hquiet (moved_close h hbehind.1 hclosed htask)
  | mark htask => exact hquiet (moved_mark h hbehind htask)
  | @rearm conn htask =>
    have hwaiting : (s.conn conn).worker = .waiting := by
      have hw := hbehind.2
      revert hw
      cases (s.conn conn).worker <;> simp [Worker.isWaiting]
    exact hquiet (moved_rearm h hbehind.1 hwaiting htask)

/-! ## 6. Runs -/

/-- No visit is raced. -/
def WholeUnraced (s : ServerWhole) : WholeEvent → Prop
  | .loop e => Unraced s.loop e
  | .serve _ _ => True

theorem wholeStep_inv (h : WholeInv root s past) {e : WholeEvent} (hallow : WholeUnraced s e)
    {r : ServerWhole × List WholeObs} (hstep : wholeStep root s e = some r) :
    WholeInv root r.1 (past ++ r.2) := by
  cases wholeStep_cases hstep with
  | loop hbehind hloop => exact moved_inv h hallow hbehind hloop
  | @activate conn rest stack r' hqueue hfree hthread hserve =>
    have hperm : (s.queue ++ s.running).Perm (rest ++ (s.running ++ [conn])) := by
      rw [hqueue, List.cons_append, ← List.append_assoc]
      exact (List.perm_append_singleton conn _).symm
    refine serving_inv h rfl rfl rfl hperm ?_ (fun c hc => List.mem_append_left _ hc)
      (List.mem_append_right _ List.mem_cons_self) hserve
    rw [ServerWhole.taken, List.length_append]
    exact hthread
  | serve hrunning hserve =>
    exact serving_inv h rfl rfl rfl (.refl _) h.threads (fun c hc => hc) hrunning hserve

theorem ServerWhole.Started.inv (h : s.Started) : WholeInv root s [] := by
  have hnone : ∀ conn, conn ∉ s.loop.connList := by
    intro conn hmem
    rw [h.loop.connList] at hmem
    exact List.not_mem_nil hmem
  refine ⟨h.loop.inv, ?_, ?_, fun conn hmem => absurd hmem (hnone conn),
    fun conn fd hl => absurd hl.1 (hnone conn), fun conn fd hl => absurd hl.1 (hnone conn)⟩
  · rw [h.loop.tasks, h.queue, h.running]
    exact .refl _
  · rw [h.running]
    exact Nat.zero_le _

theorem wholeRun_inv {es : List WholeEvent} (h : WholeInv root s past)
    (hall : Run.Allowed (wholeStep root) WholeUnraced es s) {r : ServerWhole × List WholeObs}
    (hrun : Run.run (wholeStep root) es s = some r) : WholeInv root r.1 (past ++ r.2) :=
  run_history (P := WholeInv root)
    (fun _ _ _ _ hinv hallow hstep => wholeStep_inv hinv hallow hstep) past h hall hrun

/-- The task at the front of the queue can be taken by a free worker: it belongs to a connection
    that waits and that nobody serves. -/
theorem WholeInv.activates (h : WholeInv root s past) {conn : Ptr} {rest : List Ptr}
    (hqueue : s.queue = conn :: rest) (hthread : s.running.length < s.activeCount)
    (stack : Buf UInt8 rbufSize) :
    ∃ r, wholeStep root s (.serve conn (.activate stack)) = some r := by
  have hqueued : conn ∈ s.queue := by
    rw [hqueue]
    exact List.mem_cons_self
  have hfree : conn ∉ s.running :=
    fun hmem => (List.nodup_append.mp h.nodup).2.2 conn hqueued conn hmem rfl
  have hidle : (s.conn conn).worker = .waiting := by
    obtain ⟨phase, ht⟩ := h.task_of_running (List.mem_append_left _ hqueued)
    obtain ⟨hmem, fd, hsocket⟩ := h.loop.task _ ht
    refine h.waiting conn fd ⟨hmem, hsocket, ?_⟩ hfree
    intro hclosed
    exact hfree ((h.owned conn hmem).closed hclosed).2
  have hserve : serverStep root (s.conn conn) (.activate stack) =
      some (⟨(s.conn conn).conn, .recving (loadSaved (s.conn conn).conn stack)
        (s.conn conn).conn.dataLen⟩, []) := by
    simp only [serverStep, hidle]
  have htaken : wholeStep root s (.serve conn (.activate stack)) =
      (serverStep root (s.conn conn) (.activate stack)).map fun r =>
        (s.taken conn rest r.1, [.served (s.loop.socket conn) (.activate stack) r.2]) := by
    rw [wholeStep, hqueue]
    exact if_pos ⟨rfl, hfree, hthread⟩
  rw [hserve] at htaken
  exact ⟨_, htaken⟩

/-- Only who is served has an open file. -/
theorem WholeInv.running_of_open (h : WholeInv root s past) {conn : Ptr}
    (hlist : conn ∈ s.loop.connList) (hopen : (s.conn conn).conn.response.slot.isSome = true) :
    conn ∈ s.running := by
  obtain ⟨hslot, hanswering, -⟩ := h.owned conn hlist
  by_contra hidle
  rw [hslot fun ha => hidle (hanswering ha)] at hopen
  cases hopen

theorem WholeInv.contents (h : WholeInv root s past) :
    (s.loop.connList.filter fun conn => (s.conn conn).conn.response.slot.isSome).length ≤
      s.running.length := by
  apply List.Subperm.length_le
  apply List.subperm_of_subset (h.loop.connList_nodup.filter _)
  intro conn hmem
  obtain ⟨hlist, hopen⟩ := List.mem_filter.mp hmem
  exact h.running_of_open hlist hopen

/-- What a session has opened and not closed is in the slot of the response. -/
theorem WholeInv.held (h : WholeInv root s past) {conn : Ptr} {fd : Nat}
    (hlive : Live s.loop conn fd) : ∃ dataBuffer ops,
      Run.run (contentStep root) ((OServer.session fd past).map Prod.fst) (.accepted dataBuffer) =
        some (s.conn conn, ops) ∧
      Handles.heldAfter ∅ ops = some (s.conn conn).conn.response.slot.toFinset := by
  obtain ⟨dataBuffer, hrun⟩ := h.session conn fd hlive
  obtain ⟨ops, hcontent, hops, -⟩ := run_oneSlot hrun fun _ => rfl
  exact ⟨dataBuffer, ops, hcontent, Handles.OneSlot.held hops⟩

theorem wholeStep_activeCount {e : WholeEvent} {r : ServerWhole × List WholeObs}
    (hstep : wholeStep root s e = some r) : r.1.activeCount = s.activeCount := by
  cases wholeStep_cases hstep with
  | loop => rfl
  | activate => rfl
  | serve => rfl

theorem wholeRun_activeCount {es : List WholeEvent} {r : ServerWhole × List WholeObs}
    (hrun : Run.run (wholeStep root) es s = some r) : r.1.activeCount = s.activeCount :=
  run_invariant (P := fun s' => s'.activeCount = s.activeCount)
    (fun _ _ _ heq _ hstep => (wholeStep_activeCount hstep).trans heq) rfl (allowed_true es s) hrun

/-- **Every client is served as if it were alone.**  In a run of the main loop and of any number of
    workers, in which no visit is raced, what has been received and sent on a descriptor since it
    was accepted is a run of the sequential server, and the memory of its connection is what this
    run leaves; and whenever a worker is free the first task of the queue can be taken. -/
theorem serverWhole_sessions (root : List UInt8) {es : List WholeEvent} {s₀ : ServerWhole}
    {r : ServerWhole × List WholeObs} (hstart : s₀.Started)
    (hall : Run.Allowed (wholeStep root) WholeUnraced es s₀)
    (hrun : Run.run (wholeStep root) es s₀ = some r) :
    (∀ conn fd, Live r.1.loop conn fd → ∃ dataBuffer,
      Run.run (serverStep root) ((session fd r.2).map Prod.fst) (.accepted dataBuffer) =
        some (r.1.conn conn, (session fd r.2).flatMap Prod.snd)) ∧
    ∀ conn rest, r.1.queue = conn :: rest → r.1.running.length < r.1.activeCount →
      ∀ stack, ∃ r', wholeStep root r.1 (.serve conn (.activate stack)) = some r' := by
  have hinv := wholeRun_inv hstart.inv hall hrun
  refine ⟨hinv.session, ?_⟩
  intro conn rest hqueue hthread stack
  exact hinv.activates hqueue hthread stack

/-- **No file outlives the activation that opened it.**  What the activations of a connection have
    opened and not closed is the one file in the slot of its response, and there is none unless a
    worker serves the connection; so there are never more files open than workers. -/
theorem serverWhole_contents (root : List UInt8) {es : List WholeEvent} {s₀ : ServerWhole}
    {r : ServerWhole × List WholeObs} (hstart : s₀.Started)
    (hall : Run.Allowed (wholeStep root) WholeUnraced es s₀)
    (hrun : Run.run (wholeStep root) es s₀ = some r) :
    (∀ conn fd, Live r.1.loop conn fd → ∃ dataBuffer ops,
      Run.run (contentStep root) ((session fd r.2).map Prod.fst) (.accepted dataBuffer) =
        some (r.1.conn conn, ops) ∧
      Handles.heldAfter ∅ ops = some (r.1.conn conn).conn.response.slot.toFinset) ∧
    (∀ conn ∈ r.1.loop.connList, (r.1.conn conn).conn.response.slot.isSome = true →
      conn ∈ r.1.running) ∧
    (r.1.loop.connList.filter fun conn => (r.1.conn conn).conn.response.slot.isSome).length ≤
        r.1.running.length ∧
      r.1.running.length ≤ s₀.activeCount := by
  have hinv := wholeRun_inv hstart.inv hall hrun
  refine ⟨fun conn fd => hinv.held, fun conn => hinv.running_of_open, hinv.contents, ?_⟩
  rw [← wholeRun_activeCount hrun]
  exact hinv.threads

end Inv

/-! ## 7. Two clients -/

/-- Two connection objects, two workers, and memory that holds anything. -/
def ServerWhole.two : ServerWhole where
  loop := .two
  conn _ := .accepted (zeroBuf _)
  queue := []
  running := []
  activeCount := 2

/-- Two clients are accepted and served at the same time. -/
def twoClients : List WholeEvent :=
  [.loop .snapshot, .loop (.select {3}), .loop (.accept (some 5)), .loop .visit, .loop .visit,
    .loop .snapshot, .loop (.select {3, 5}), .loop (.accept (some 6)), .loop .visit, .loop .dispatch,
    .loop .visit, .loop .visit, .loop .snapshot, .loop (.select {6}), .loop .visit, .loop .visit,
    .loop .dispatch,
    .serve 100 (.activate (zeroBuf _)), .serve 200 (.activate (zeroBuf _)),
    .serve 100 (.recv (.data (bytes "GET / H"))), .serve 200 (.recv .closed)]

/-- Where nobody closes a socket no visit is raced. -/
theorem allowed_of_noneClosed {root : List UInt8} {es : List WholeEvent} {s : ServerWhole}
    (h : NoneClosed s.loop) (hes : ∀ conn, .loop (.close conn) ∉ es) :
    Run.Allowed (wholeStep root) WholeUnraced es s := by
  refine allowed_of_invariant (P := fun s => NoneClosed s.loop) ?_ ?_ h
  · intro s e _ hnone
    cases e with
    | loop e => exact hnone.unraced e
    | serve => trivial
  · intro s e hmem r hnone hstep
    cases wholeStep_cases hstep with
    | @loop e' _ _ hloop =>
      refine hnone.step ?_ hloop
      rintro conn rfl
      exact hes conn hmem
    | activate => exact hnone
    | serve => exact hnone

theorem twoClients_allowed : Run.Allowed (wholeStep []) WholeUnraced twoClients .two := by
  apply allowed_of_noneClosed
  · exact fun conn ht => absurd ht List.not_mem_nil
  · intro conn hmem
    simp [twoClients] at hmem

theorem serverWhole_two_started : ServerWhole.two.Started :=
  ⟨⟨by decide, rfl, rfl, rfl, by decide, rfl⟩, rfl, rfl⟩

/-- The two clients in turn: what the second one does is no part of the session of the first. -/
theorem serverWhole_sessions_two :
    ∃ r, Run.run (wholeStep []) twoClients .two = some r ∧ Live r.1.loop 100 5 ∧
      (session 5 r.2).length = 2 ∧
      ∃ dataBuffer, Run.run (serverStep []) ((session 5 r.2).map Prod.fst) (.accepted dataBuffer) =
        some (r.1.conn 100, (session 5 r.2).flatMap Prod.snd) := by
  have hrun : ∃ r, Run.run (wholeStep []) twoClients .two = some r ∧ Live r.1.loop 100 5 ∧
      (session 5 r.2).length = 2 := ⟨_, rfl, ⟨List.mem_cons_self, rfl, by decide⟩, rfl⟩
  obtain ⟨r, hr, hlive, hlen⟩ := hrun
  have hsessions := serverWhole_sessions [] serverWhole_two_started twoClients_allowed hr
  exact ⟨r, hr, hlive, hlen, hsessions.1 100 5 hlive⟩

/-- One of the two requests a file, which is opened as the descriptor `7`. -/
def fileClient : List WholeEvent :=
  [.serve 100 (.settle noFiles), .serve 100 (.recv (.data (bytes "TTP/1.1\r\n\r\n"))),
    .serve 100 (.settle ⟨fun _ => some ⟨true, 5⟩, fun _ => some 7⟩)]

theorem fileClient_allowed :
    Run.Allowed (wholeStep []) WholeUnraced (twoClients ++ fileClient) .two := by
  apply allowed_of_noneClosed
  · exact fun conn ht => absurd ht List.not_mem_nil
  · intro conn hmem
    simp [twoClients, fileClient] at hmem

/-- Both are served, and the file of the first one is open. -/
theorem serverWhole_contents_file :
    ∃ r, Run.run (wholeStep []) (twoClients ++ fileClient) .two = some r ∧
      r.1.running = [100, 200] ∧ Live r.1.loop 100 5 ∧
      (r.1.conn 100).conn.response.slot = some 7 ∧
      ∃ dataBuffer ops, Run.run (contentStep []) ((session 5 r.2).map Prod.fst)
        (.accepted dataBuffer) = some (r.1.conn 100, ops) ∧
          Handles.heldAfter ∅ ops = some {7} := by
  have hrun : ∃ r, Run.run (wholeStep []) (twoClients ++ fileClient) .two = some r ∧
      r.1.running = [100, 200] ∧ Live r.1.loop 100 5 ∧
      (r.1.conn 100).conn.response.slot = some 7 :=
    ⟨_, rfl, rfl, ⟨by decide, rfl, by decide⟩, rfl⟩
  obtain ⟨r, hr, hrunning, hlive, hslot⟩ := hrun
  obtain ⟨dataBuffer, ops, hops, hheld⟩ :=
    (serverWhole_contents [] serverWhole_two_started fileClient_allowed hr).1 100 5 hlive
  rw [hslot] at hheld
  exact ⟨r, hr, hrunning, hlive, hslot, dataBuffer, ops, hops, hheld⟩

end OServer
