/-
  OServer/ServerAnswers.lean
  ==========================
  **What the clients of the server get (`server_entry`, `server_serv_client`,
  `thread_pool_task_entry`).**

  The main loop and the workers serve all connections at the same time, over one queue of
  tasks and one set of watched descriptors.  Each client sees a site of its own:

    * `serverWhole_answers` — what has been sent on a descriptor is the answers to the
                              requests that have come on it, whatever the other clients
                              do and in whatever order the threads run.
-/
import OServer.ServerSessions
import OServer.ServerSite

namespace OServer

open CString Resume Run

/-! ## 1. The file of a session -/

section Session
variable {root : List UInt8} {files : StaticFiles}

variable (files) in
/-- A run of the sequential server goes with what is left of the files that it sends. -/
theorem exists_transferRun {es : List ServerEvent} {c : Connection}
    {r : Connection × List ServerObs} (h : Run.run (serverStep root) es c = some r)
    (rest : List UInt8) (log : List ServerObs) :
    ∃ rest', Run.run (logged (transferStep root files)) es (⟨c, rest⟩, log) =
      some ((⟨r.1, rest'⟩, log ++ r.2), r.2) := by
  induction es generalizing c r rest log with
  | nil =>
    cases h
    refine ⟨rest, ?_⟩
    rw [List.append_nil]
    rfl
  | cons e es ih =>
    obtain ⟨r₁, r₂, hstep, htail, rfl⟩ := run_cons.mp h
    let rest₁ := restAfter root files ⟨c, rest⟩ e
    obtain ⟨rest', hrun⟩ := ih htail rest₁ (log ++ r₁.2)
    refine ⟨rest', run_cons.mpr ⟨((⟨r₁.1, rest₁⟩, log ++ r₁.2), r₁.2), _, ?_, hrun, ?_⟩⟩
    · simp only [logged, transferStep, hstep, Option.map_some, rest₁]
    · rw [List.append_assoc]

/-- Whoever uses this connection leaves the files alone and takes what is written; a worker is
    started with what has not been consumed, and gives the connection back when no request
    waits behind it. -/
def SessionAllowed (root : List UInt8) (files : StaticFiles) (Rs : List (List UInt8))
    (past : List (ServerEvent × List ServerObs)) (c : Connection) : Prop :=
  ∀ dataBuffer, Run.run (serverStep root) (past.map Prod.fst) (.accepted dataBuffer) =
      some (c, past.flatMap Prod.snd) →
    Allowed (logged (transferStep root files)) (StreamAllowed root files Rs) (past.map Prod.fst)
      (⟨.accepted dataBuffer, []⟩, [])

/-- The session of a client as a run of the stream. -/
theorem SessionRun.streamed {Rs : List (List UInt8)} {past : List (ServerEvent × List ServerObs)}
    {c : Connection} (h : SessionRun root past c) (hall : SessionAllowed root files Rs past c) :
    ∃ rest, Streamed root files Rs (⟨c, rest⟩, past.flatMap Prod.snd) := by
  obtain ⟨dataBuffer, hrun⟩ := h
  obtain ⟨rest, htransfer⟩ := exists_transferRun files hrun [] []
  have hstart : Streamed root files Rs (⟨.accepted dataBuffer, []⟩, []) :=
    .init ⟨⟨dataBuffer, rfl⟩, rfl⟩
  exact ⟨rest, Reachable.run hstart (hall dataBuffer hrun) htransfer⟩

/-- `data_len` does not go back to zero, and `data_buffer` is written only with it. -/
theorem serverStep_dataLen {c : Connection} {e : ServerEvent} {r : Connection × List ServerObs}
    (h : serverStep root c e = some r) (hlen : r.1.conn.dataLen = 0) :
    c.conn.dataLen = 0 ∧ r.1.conn.dataBuffer = c.conn.dataBuffer := by
  unfold serverStep at h
  split at h
  · cases h
    exact ⟨hlen, rfl⟩
  · split_ifs at h
    cases h
    exact ⟨hlen, rfl⟩
  · cases h
    unfold saveRemain at hlen ⊢
    split_ifs at hlen ⊢ with hremain
    · exact ⟨hlen, rfl⟩
    · rcases Nat.min_eq_zero_iff.mp hlen with hzero | hzero
      · exact absurd hzero hremain
      · exact absurd hzero (by decide)
  · cases h
    exact ⟨hlen, rfl⟩
  · cases h
    exact ⟨hlen, rfl⟩
  · obtain ⟨c', hs, rfl⟩ := Option.map_eq_some_iff.mp h
    unfold settle at hs
    split_ifs at hs
    · cases hs
      exact ⟨hlen, rfl⟩
    · cases hs
      exact ⟨hlen, rfl⟩
  · cases h
    unfold sendPiece at hlen ⊢
    dsimp only at hlen ⊢
    split_ifs at hlen ⊢ <;> exact ⟨hlen, rfl⟩
  · cases h

/-- In a connection of which `data_len` is zero nothing has ever been saved. -/
theorem serverRun_dataLen {es : List ServerEvent} {c : Connection}
    {r : Connection × List ServerObs} (h : Run.run (serverStep root) es c = some r)
    (hlen : r.1.conn.dataLen = 0) :
    c.conn.dataLen = 0 ∧ r.1.conn.dataBuffer = c.conn.dataBuffer := by
  induction es generalizing c r with
  | nil =>
    cases h
    exact ⟨hlen, rfl⟩
  | cons e es ih =>
    obtain ⟨r₁, r₂, hstep, htail, rfl⟩ := run_cons.mp h
    obtain ⟨hlen₁, hbuffer₁⟩ := ih htail hlen
    obtain ⟨hlen₀, hbuffer₀⟩ := serverStep_dataLen hstep hlen₁
    exact ⟨hlen₀, hbuffer₁.trans hbuffer₀⟩

end Session

/-! ## 2. All clients -/

/-- **Every client gets the answers to its own requests.**  In a run of the main loop and of any
    number of workers, in which no visit is raced, let texts of the language come on a
    descriptor, cut in any way.  When its worker has given the connection back, the bytes sent
    on the descriptor since it was accepted are the answers to the methods and paths of the
    texts that have come completely; before a `recv` of its worker, to those it has answered. -/
theorem serverWhole_answers (root : List UInt8) (files : StaticFiles) {es : List WholeEvent}
    {s₀ : ServerWhole} {r : ServerWhole × List WholeObs} (hstart : s₀.Started)
    (hall : Run.Allowed (wholeStep root) WholeUnraced es s₀)
    (hrun : Run.run (wholeStep root) es s₀ = some r) (conn fd : Nat) (hlive : Live r.1.loop conn fd)
    (ts : List RequestText) (tail : List UInt8) (hts : ∀ t ∈ ts, t.WellFormed)
    (htail : Unfinished requestVerdict httpRequestInit tail)
    (hsession : SessionAllowed root files (ts.map RequestText.text) (session fd r.2) (r.1.conn conn))
    (hrec : received ((session fd r.2).flatMap Prod.snd) <+:
      (ts.map RequestText.text).flatten ++ tail) :
    ((r.1.conn conn).worker = .waiting → sentBytes ((session fd r.2).flatMap Prod.snd) =
      (ts.take (contained (ts.map RequestText.text)
        (received ((session fd r.2).flatMap Prod.snd)).length)).flatMap fun t =>
          siteAnswer root files t.method t.segs) ∧
    ∀ rbuf remain, (r.1.conn conn).worker = .recving rbuf remain →
      sentBytes ((session fd r.2).flatMap Prod.snd) =
        (ts.take (answered ((session fd r.2).flatMap Prod.snd))).flatMap fun t =>
          siteAnswer root files t.method t.segs := by
  have hsolo : SessionRun root (session fd r.2) (r.1.conn conn) :=
    (wholeRun_inv hstart.inv hall hrun).session conn fd hlive
  obtain ⟨rest, hstream⟩ := hsolo.streamed hsession
  exact serverSite_answers root files ts tail hts htail _ _ hstream hrec

/-! ## 3. Two clients -/

/-- `PUT / HTTP/1.1`, without headers. -/
def putText : RequestText where
  method := .put
  word := bytes "PUT "
  target := bytes "/"
  segs := []
  version := .v1_1
  line := bytes "HTTP/1.1\r\n"
  lines := []
  last := [CR]

theorem putText_wellFormed : putText.WellFormed where
  word := by decide
  target_ne := by decide
  target_bytes := ⟨by decide, by decide⟩
  target_length := by decide
  target := .origin (by decide) (by decide)
  line := by decide
  lines := fun w hw => absurd hw List.not_mem_nil
  last := ⟨by decide, rfl, by decide⟩

/-- The worker of a client that sends this text in two parts, and then waits. -/
def putSession : List ServerEvent :=
  [.activate (zeroBuf _), .recv (.data (bytes "PUT / HT")),
    .settle (oneFile 5 (bytes "file")).toFileSystem, .recv (.data (bytes "TP/1.1\r\n\r\n")),
    .settle (oneFile 5 (bytes "file")).toFileSystem, .send (bytes "file") (some 98),
    .recv .wouldBlock]

/-- The client is served and given back while another one comes and goes. -/
def putClients : List WholeEvent :=
  [.loop .snapshot, .loop (.select {3}), .loop (.accept (some 5)), .loop .visit, .loop .visit,
    .loop .snapshot, .loop (.select {3, 5}), .loop (.accept (some 6)), .loop .visit, .loop .dispatch,
    .loop .visit, .loop .visit, .loop .snapshot, .loop (.select {6}), .loop .visit, .loop .visit,
    .loop .dispatch,
    .serve 100 (.activate (zeroBuf _)), .serve 200 (.activate (zeroBuf _)),
    .serve 100 (.recv (.data (bytes "PUT / HT"))), .serve 200 (.recv .closed),
    .serve 100 (.settle (oneFile 5 (bytes "file")).toFileSystem),
    .serve 100 (.recv (.data (bytes "TP/1.1\r\n\r\n"))),
    .serve 100 (.settle (oneFile 5 (bytes "file")).toFileSystem),
    .serve 100 (.send (bytes "file") (some 98)), .serve 100 (.recv .wouldBlock)]

set_option maxRecDepth 8000 in
theorem putClients_run : ∃ r, Run.run (wholeStep []) putClients .two = some r ∧
    Live r.1.loop 100 5 ∧ (r.1.conn 100).worker = .waiting ∧
    (r.1.conn 100).conn.dataLen = 0 ∧ (r.1.conn 100).conn.dataBuffer = zeroBuf _ ∧
    (session 5 r.2).map Prod.fst = putSession ∧
    received ((session 5 r.2).flatMap Prod.snd) = putText.text :=
  ⟨_, rfl, ⟨List.mem_cons_self, rfl, by decide⟩, rfl, rfl, rfl, rfl, rfl⟩

theorem putSession_allowed : Allowed (logged (transferStep [] (oneFile 5 (bytes "file"))))
    (StreamAllowed [] (oneFile 5 (bytes "file")) [putText.text]) putSession
    (⟨.accepted (zeroBuf _), []⟩, []) := by
  refine allowed_cons ⟨trivial, rfl, trivial⟩ rfl <|
    allowed_cons ⟨trivial, trivial, trivial⟩ rfl <|
    allowed_cons ⟨⟨rfl, ?_⟩, trivial, trivial⟩ rfl <|
    allowed_cons ⟨trivial, trivial, trivial⟩ rfl <|
    allowed_cons ⟨⟨rfl, ?_⟩, trivial, trivial⟩ rfl <|
    allowed_cons ⟨⟨?_, ?_⟩, trivial, trivial⟩ rfl <|
    allowed_cons ⟨trivial, trivial, ?_⟩ rfl trivial
  · decide +kernel
  · decide +kernel
  · decide +kernel
  · decide +kernel
  · rfl

theorem serverWhole_answers_put : ∃ r, Run.run (wholeStep []) putClients .two = some r ∧
    (r.1.conn 100).worker = .waiting ∧
    received ((session 5 r.2).flatMap Prod.snd) = putText.text ∧
    sentBytes ((session 5 r.2).flatMap Prod.snd) =
      siteAnswer [] (oneFile 5 (bytes "file")) .put [] := by
  obtain ⟨r, hrun, hlive, hworker, hlen, hbuffer, hsession, hrec⟩ := putClients_run
  have hall : Run.Allowed (wholeStep []) WholeUnraced putClients .two := by
    apply allowed_of_noneClosed
    · exact fun conn ht => absurd ht List.not_mem_nil
    · intro conn hmem
      simp [putClients] at hmem
  have hsolo : SessionAllowed [] (oneFile 5 (bytes "file")) [putText.text] (session 5 r.2)
      (r.1.conn 100) := by
    intro dataBuffer hd
    rw [hsession] at hd ⊢
    have hzero : zeroBuf _ = dataBuffer := hbuffer.symm.trans (serverRun_dataLen hd hlen).2
    rw [← hzero]
    exact putSession_allowed
  have hsent := (serverWhole_answers [] (oneFile 5 (bytes "file")) serverWhole_two_started hall hrun
    100 5 hlive [putText] [] (List.forall_mem_singleton.mpr putText_wellFormed) not_request_nil hsolo
    (by rw [hrec]; exact ⟨[], rfl⟩)).1 hworker
  refine ⟨r, hrun, hworker, hrec, hsent.trans ?_⟩
  rw [hrec]
  exact List.append_nil _

end OServer
