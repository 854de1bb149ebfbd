/-
  OServer/ServerStream.lean
  =========================
  **A connection as a function of its input (`server_serv_client`,
  `http_request_parse`).**

  A stream of requests is cut by the network, by the buffers of the worker and by its
  activations, and a request that is cut goes through several calls of the parser.  What
  comes back does not show it:

    * `serverServClient_stream` — when the worker gives the connection back, what it has
                                  sent is the answers to the requests that have come
                                  completely, each parsed as a whole.
-/
import OServer.ServerPipeline
import OServer.ServerTranscript

namespace OServer

open CString Resume Run

/-! ## 1. Requests in a stream -/

/-- The request that the parser makes of a message. -/
def requestOf (R : List UInt8) : HttpRequest := (httpRequestParse httpRequestInit R).req

/-- The parser has heard the answered requests and those that are owed an answer, and
    nothing of another one but `req`. -/
def Hearing (Rs : List (List UInt8)) (req : HttpRequest) (owed : Nat) (log : List ServerObs) :
    Prop :=
  heard log = ⟨req, (Rs.take (answered log + owed)).map requestOf⟩

section Calls
variable {Rs : List (List UInt8)} {log : List ServerObs} {req req' : HttpRequest}
  {left bs : List UInt8} {n owed : Nat}

theorem httpRequestParse_more (hv : requestVerdict req left = .more req' n) :
    (httpRequestParse req left).isEnd = false ∧ (httpRequestParse req left).req = req' := by
  unfold requestVerdict RequestParse.verdict at hv
  split_ifs at hv with hret hend
  cases hv
  exact ⟨Bool.eq_false_iff.mpr hend, rfl⟩

theorem httpRequestParse_done (hv : requestVerdict req left = .done req' n) :
    (httpRequestParse req left).isEnd = true ∧ (httpRequestParse req left).req = req' := by
  unfold requestVerdict RequestParse.verdict at hv
  split_ifs at hv with hret hend
  cases hv
  exact ⟨hend, rfl⟩

/-- A message is the same request, whatever follows it. -/
theorem requestOf_append {R : List UInt8} (hR : Message requestVerdict httpRequestInit R)
    (x : List UInt8) :
    requestVerdict httpRequestInit (R ++ x) = .done (requestOf R) R.length := by
  rcases hR with ⟨req, hv⟩
  have happ := (request_done_splits hv).append x
  rw [hv] at happ
  rw [happ, requestOf, (httpRequestParse_done hv).2]
  rfl

theorem answered_call (log : List ServerObs) (bs : List UInt8) (st : ParseStatus)
    (data : List UInt8) (n : Nat) :
    answered (log ++ [.received bs, .parsed st data n]) = answered log :=
  answered_append log _

theorem Hearing.more (h : Hearing Rs req owed log)
    (hv : requestVerdict req (left ++ bs) = .more req' n) (st : ParseStatus) :
    Hearing Rs req' owed (log ++ [.received bs, .parsed st (left ++ bs) n]) := by
  rcases httpRequestParse_more hv with ⟨hend, hreq⟩
  rw [Hearing, heard_call, h, answered_call]
  simp only [hear, hend, hreq, Bool.false_eq_true, if_false]

/-- The request that a call completes is the next one of the stream. -/
theorem Reading.next (hRs : ∀ R ∈ Rs, Message requestVerdict httpRequestInit R)
    (h : Reading Rs req left log) (hv : requestVerdict req (left ++ bs) = .done req' n)
    {st : ParseStatus} {done' rest' : List (List UInt8)} {cur' : List UInt8}
    (hledger' : Ledger Rs (log ++ [.received bs, .parsed st (left ++ bs) n]) 1 done' rest' cur') :
    ∃ R, Rs.take (answered log + 1) = Rs.take (answered log) ++ [R] ∧ requestOf R = req' := by
  rcases h with ⟨done, rest, cur, k, hledger, rfl, hmid⟩
  have hlen : done.length = answered log := hledger.answered_eq.symm
  have hlen' : done'.length = answered log + 1 := by
    rw [← hledger'.answered_eq, answered_call]
  have htake : Rs.take (answered log) = done := by
    rw [hledger.requests_eq, ← hlen, List.take_left]
  have htake' : Rs.take (answered log + 1) = done' := by
    rw [hledger'.requests_eq, ← hlen', List.take_left]
  -- the new list is the old one and one request more
  obtain ⟨R, hR⟩ : ∃ R, done' = done ++ [R] := by
    have hlt : answered log < Rs.length := by
      have hle : done'.length ≤ Rs.length := by
        rw [hledger'.requests_eq, List.length_append]
        omega
      omega
    refine ⟨Rs[answered log], ?_⟩
    rw [← htake', ← htake, List.take_succ_eq_append_getElem hlt]
  subst hR
  refine ⟨R, by rw [htake, htake'], ?_⟩
  have hmessage : Message requestVerdict httpRequestInit R := by
    apply hRs
    rw [hledger'.requests_eq]
    simp
  have hcur : cur ++ bs = R ++ cur' := by
    have hrec := hledger'.received_eq
    rw [received_call, hledger.received_eq, List.append_assoc, List.flatten_append,
      List.flatten_singleton, List.append_assoc] at hrec
    exact List.append_cancel_left hrec
  have hwhole : requestVerdict httpRequestInit (cur ++ bs) = .done req' (k + n) := by
    rw [hmid.go_on, hv]
    rfl
  rw [hcur, requestOf_append hmessage] at hwhole
  exact (Verdict.done.inj hwhole).1

theorem Hearing.done (hRs : ∀ R ∈ Rs, Message requestVerdict httpRequestInit R)
    (h : Hearing Rs req 0 log) (hreading : Reading Rs req left log)
    (hv : requestVerdict req (left ++ bs) = .done req' n) {st : ParseStatus}
    {done' rest' : List (List UInt8)} {cur' : List UInt8}
    (hledger' : Ledger Rs (log ++ [.received bs, .parsed st (left ++ bs) n]) 1 done' rest' cur') :
    Hearing Rs httpRequestInit 1 (log ++ [.received bs, .parsed st (left ++ bs) n]) := by
  rcases httpRequestParse_done hv with ⟨hend, hreq⟩
  rcases hreading.next hRs hv hledger' with ⟨R, htake, hR⟩
  rw [Hearing, heard_call, h, answered_call, htake, List.map_append, List.map_singleton, hR]
  simp only [hear, hend, hreq, if_true, Nat.add_zero]

theorem Hearing.quiet {obs : List ServerObs} (h : Hearing Rs req owed log) (hobs : Quiet obs)
    {owed' : Nat} (howed : answered obs + owed' = owed) : Hearing Rs req owed' (log ++ obs) := by
  rw [Hearing, hobs.heard_eq, h, answered_append, Nat.add_assoc, howed]

end Calls

/-! ## 2. Runs -/

/-- Assertions about the runs that receive `Rs.flatten ++ tail`, or the start of it: where
    the worker is in the stream, and which requests the parser has heard. -/
def streaming (Rs : List (List UInt8)) (tail : List UInt8) : Annotation where
  always _ := True
  idle req saved log := (pipelining Rs tail).idle req saved log ∧
    (received log <+: Rs.flatten ++ tail → Hearing Rs req 0 log)
  reading req left log := (pipelining Rs tail).reading req left log ∧
    (received log <+: Rs.flatten ++ tail → Hearing Rs req 0 log)
  answering left log := (pipelining Rs tail).answering left log ∧
    (received log <+: Rs.flatten ++ tail → Hearing Rs httpRequestInit 1 log)

section Runs
variable {Rs : List (List UInt8)} {tail : List UInt8}

/-- What is asserted of the pipeline holds, and what the parser has heard goes with it. -/
theorem streaming_verified (hRs : ∀ R ∈ Rs, Message requestVerdict httpRequestInit R)
    (htail : Unfinished requestVerdict httpRequestInit tail) :
    (streaming Rs tail).Verified fun x e => Resumes x e ∧ CaughtUp Rs x.2 e where
  start := ⟨trivial, (pipelining_verified hRs htail).start.2, fun _ => rfl⟩
  load h ha := ⟨(pipelining_verified hRs htail).load h.1 ha, h.2⟩
  call _ _ _ _ := trivial
  more := by
    intro req left log bs req' n h hne hv hle
    refine ⟨(pipelining_verified hRs htail).more h.1 hne hv hle, fun hrec => ?_⟩
    exact (h.2 (received_before hrec)).more hv _
  done := by
    intro req left log bs req' n h hne hv hle
    have hanswering := (pipelining_verified hRs htail).done h.1 hne hv hle
    refine ⟨hanswering, fun hrec => ?_⟩
    have hbefore := received_before hrec
    rcases hanswering.2 hrec with ⟨done', rest', hledger'⟩
    exact (h.2 hbefore).done hRs (h.1.2 hbefore) hv hledger'
  quiet _ _ := trivial
  sent := by
    intro left log out h
    refine ⟨(pipelining_verified hRs htail).sent out h.1, fun hrec => ?_⟩
    exact (h.2 (received_before hrec)).quiet (quiet_sent_one out) rfl
  answered := by
    intro left log h
    refine ⟨(pipelining_verified hRs htail).answered h.1, fun hrec => ?_⟩
    exact (h.2 (received_before hrec)).quiet quiet_answered_one rfl
  park h hsized ha := ⟨(pipelining_verified hRs htail).park h.1 hsized ha, h.2⟩

variable {root : List UInt8} {files : StaticFiles}

/-- The environment does not disturb the run, the worker is started with what has not been
    consumed, and it gives the connection back when no request waits behind it. -/
def StreamAllowed (root : List UInt8) (files : StaticFiles) (Rs : List (List UInt8))
    (x : Transfer × List ServerObs) (e : ServerEvent) : Prop :=
  Undisturbed root files x.1 e ∧ Resumes (x.1.connection, x.2) e ∧ CaughtUp Rs x.2 e

/-- Runs in such an environment, with their history. -/
def Streamed (root : List UInt8) (files : StaticFiles) (Rs : List (List UInt8))
    (x : Transfer × List ServerObs) : Prop :=
  Reachable (logged (transferStep root files)) (StreamAllowed root files Rs)
    (fun x => Accepted x.1.connection ∧ x.2 = []) x

theorem Streamed.transferred {x : Transfer × List ServerObs} (h : Streamed root files Rs x) :
    Transferred root files x := by
  induction h with
  | init h => exact .init h
  | step _ ha hr ih => exact Reachable.step ih ha.1 hr

/-- The connection, without the file. -/
theorem Streamed.served {x : Transfer × List ServerObs} (h : Streamed root files Rs x) :
    Served root (fun x e => Resumes x e ∧ CaughtUp Rs x.2 e) (x.1.connection, x.2) := by
  refine Reachable.map (fun x : Transfer × List ServerObs => (x.1.connection, x.2)) ?_ ?_ h
  · exact fun _ hinit => hinit
  · rintro ⟨t, log⟩ e r - ha hr
    rcases logged_eq_some hr with ⟨t', obs, hstep, rfl⟩
    simp only [transferStep, Option.map_eq_some_iff, Prod.mk.injEq] at hstep
    rcases hstep with ⟨⟨c', obs'⟩, hstep, rfl, rfl⟩
    refine ⟨ha.2, ?_⟩
    simp only [logged, hstep, Option.map_some]

theorem Hearing.answers_eq {req : HttpRequest} {log : List ServerObs}
    (h : Hearing Rs req 0 log) : answers root files log =
      (Rs.take (answered log)).flatMap fun R => answerText root files (requestOf R) := by
  rw [answers, h, List.flatMap_map, Nat.add_zero]

end Runs

/-- **The answers depend on the requests, and on nothing else**: in every run that receives a
    stream of requests, however it is cut, the worker has sent the answers to all requests
    that have come completely when it gives the connection back, and those it has answered
    before every `recv`; each of them is answered as the parser reads it in one piece. -/
theorem serverServClient_stream (root : List UInt8) (files : StaticFiles)
    (Rs : List (List UInt8)) (tail : List UInt8)
    (hRs : ∀ R ∈ Rs, Message requestVerdict httpRequestInit R)
    (htail : Unfinished requestVerdict httpRequestInit tail) (t : Transfer)
    (log : List ServerObs) (h : Streamed root files Rs (t, log))
    (hrec : received log <+: Rs.flatten ++ tail) :
    (t.connection.worker = .waiting → sentBytes log =
      (Rs.take (contained Rs (received log).length)).flatMap fun R =>
        answerText root files (requestOf R)) ∧
    ∀ rbuf remain, t.connection.worker = .recving rbuf remain → sentBytes log =
      (Rs.take (answered log)).flatMap fun R => answerText root files (requestOf R) := by
  have htold := h.transferred.told
  rcases (streaming_verified hRs htail).served h.served with ⟨-, hat⟩
  rcases t with ⟨⟨conn, worker⟩, rest⟩
  constructor
  · rintro rfl
    rcases hat with ⟨⟨-, -, hidle⟩, hheard⟩
    have hheard : Hearing Rs conn.request 0 log := hheard hrec
    rcases hidle hrec with ⟨⟨done, rest', cur, k, hledger, -, -⟩, hzero⟩
    have hall : answered log = contained Rs (received log).length := by
      have hans : answered log + 0 = done.length := hledger.answered_eq
      have hback : done.length + backlog Rs log = contained Rs (received log).length :=
        hledger.backlog_eq
      have hzero : backlog Rs log = 0 := hzero
      omega
    rw [← hall, ← hheard.answers_eq]
    exact htold.2
  · rintro rbuf remain rfl
    have hheard : Hearing Rs conn.request 0 log := hat.2 hrec
    rw [← hheard.answers_eq]
    exact htold.2

theorem Streamed.step {root : List UInt8} {files : StaticFiles} {Rs : List (List UInt8)}
    {t t' : Transfer} {log obs : List ServerObs} (h : Streamed root files Rs (t, log))
    (e : ServerEvent) (ha : StreamAllowed root files Rs (t, log) e)
    (hstep : transferStep root files t e = some (t', obs)) :
    Streamed root files Rs (t', log ++ obs) := by
  apply Reachable.step (r := ((t', log ++ obs), obs)) h ha
  simp only [logged, hstep, Option.map_some]

end OServer
