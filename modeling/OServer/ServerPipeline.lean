/-
  OServer/ServerPipeline.lean
  ===========================
  **Pipelined requests.**

  A worker calls the parser once for each `recv`, so that it answers at most one request
  for each.  `backlog` counts the complete requests that are waiting behind it; they are
  left when `recv` would block.
-/
import OServer.ServerRuns
import OServer.Lib.Messages

namespace OServer

open CString Resume Run

/-! ## 1. What is counted -/

def ServerObs.responses : ServerObs → Nat
  | .answered => 1
  | _ => 0

/-- How many responses were sent. -/
def answered (log : List ServerObs) : Nat := (log.map ServerObs.responses).sum

theorem answered_append (log obs : List ServerObs) :
    answered (log ++ obs) = answered log + answered obs := by
  simp only [answered, List.map_append, List.sum_append]

/-- The bytes received so far, and the requests that they contain and no call of the
    parser has had its turn at.  A `recv` adds some and takes one. -/
def backlogStep (Rs : List (List UInt8)) (x : Nat × Nat) : ServerObs → Nat × Nat
  | .received bs =>
      (x.1 + bs.length, x.2 + (contained Rs (x.1 + bs.length) - contained Rs x.1) - 1)
  | _ => x

def backlog (Rs : List (List UInt8)) (log : List ServerObs) : Nat :=
  (log.foldl (backlogStep Rs) (0, 0)).2

theorem backlogStep_received (Rs : List (List UInt8)) (log : List ServerObs) (x : Nat × Nat) :
    (log.foldl (backlogStep Rs) x).1 = x.1 + (received log).length := by
  induction log generalizing x with
  | nil => rfl
  | cons o log ih =>
    have hrec : (received (o :: log)).length = o.bytes.length + (received log).length :=
      List.length_append
    rw [List.foldl_cons, ih, hrec, ← Nat.add_assoc]
    cases o <;> rfl

theorem backlog_call (Rs : List (List UInt8)) (log : List ServerObs) (bs : List UInt8)
    (st : ParseStatus) (data : List UInt8) (n : Nat) :
    backlog Rs (log ++ [.received bs, .parsed st data n]) =
      backlog Rs log + (contained Rs ((received log).length + bs.length) -
        contained Rs (received log).length) - 1 := by
  have hlen := backlogStep_received Rs log (0, 0)
  rw [Nat.zero_add] at hlen
  rw [backlog, List.foldl_append, ← hlen]
  rfl

theorem Quiet.backlog_eq {obs : List ServerObs} (h : Quiet obs) (Rs : List (List UInt8))
    (log : List ServerObs) : backlog Rs (log ++ obs) = backlog Rs log := by
  rw [backlog, List.foldl_append, h.foldl_eq (fun _ _ => rfl) fun _ => rfl, backlog]

/-! ## 2. Requests -/

theorem request_done_splits {req : HttpRequest} {p : List UInt8} {req' : HttpRequest} {n : Nat}
    (hv : requestVerdict req p = .done req' n) : Splits requestVerdict req p := by
  have hst : Started req p := started_of_verdict fun req₂ h => by
    rw [hv] at h
    cases h
  apply request_splits hst
  intro hend
  rcases requestVerdict_endsAtUrl hend with ⟨req₂, k, hmore, -⟩
  rw [hv] at hmore
  cases hmore

theorem request_more_splits {req : HttpRequest} {p : List UInt8} {req' : HttpRequest} {n : Nat}
    (hv : requestVerdict req p = .more req' n) (hle : n ≤ p.length) :
    Splits requestVerdict req p := by
  have hst : Started req p := started_of_verdict fun req₂ h => by
    rw [hv] at h
    cases h
  apply request_splits hst
  intro hend
  rcases requestVerdict_endsAtUrl hend with ⟨req₂, k, hmore, hlt⟩
  rw [hv] at hmore
  cases hmore
  exact absurd hlt (Nat.not_lt_of_le hle)

theorem not_done_nil (req : HttpRequest) (n : Nat) :
    requestVerdict httpRequestInit [] ≠ .done req n := by
  have hst : ¬ Started httpRequestInit [] := fun h => (h rfl).1 rfl
  rcases requestVerdict_not_started hst with ⟨req', hrej⟩
  rw [hrej]
  exact fun h => nomatch h

theorem request_ne_nil {R : List UInt8} (h : Message requestVerdict httpRequestInit R) : R ≠ [] := by
  rintro rfl
  rcases h with ⟨req, hv⟩
  exact not_done_nil req _ hv

/-! ## 3. Where the worker is in the stream -/

theorem received_call (log : List ServerObs) (bs : List UInt8) (st : ParseStatus)
    (data : List UInt8) (n : Nat) :
    received (log ++ [.received bs, .parsed st data n]) = received log ++ bs := by
  rw [received_append]
  simp [received, ServerObs.bytes]

/-- The requests `done` are behind the worker, all but `owed` of them are answered, and
    `cur` has been received since. -/
structure Ledger (Rs : List (List UInt8)) (log : List ServerObs) (owed : Nat)
    (done rest : List (List UInt8)) (cur : List UInt8) : Prop where
  requests_eq : Rs = done ++ rest
  received_eq : received log = done.flatten ++ cur
  answered_eq : answered log + owed = done.length
  backlog_eq : done.length + backlog Rs log = contained Rs (received log).length

section Ledger
variable {Rs done rest : List (List UInt8)} {tail cur bs : List UInt8} {log : List ServerObs}
  {owed : Nat}

theorem Ledger.quiet {obs : List ServerObs} (h : Ledger Rs log owed done rest cur)
    (hobs : Quiet obs) {owed' : Nat} (howed : answered obs + owed' = owed) :
    Ledger Rs (log ++ obs) owed' done rest cur where
  requests_eq := h.requests_eq
  received_eq := by rw [received_append, hobs.received_eq, List.append_nil, h.received_eq]
  answered_eq := by rw [answered_append, Nat.add_assoc, howed, h.answered_eq]
  backlog_eq := by
    rw [hobs.backlog_eq, received_append, hobs.received_eq, List.append_nil, h.backlog_eq]

theorem Ledger.messages (h : Ledger Rs log owed done rest cur)
    (hRs : ∀ R ∈ Rs, Message requestVerdict httpRequestInit R) :
    ∀ R ∈ rest, Message requestVerdict httpRequestInit R := by
  intro R hR
  apply hRs
  rw [h.requests_eq]
  exact List.mem_append_right done hR

/-- What else is received belongs to the requests that are not done. -/
theorem Ledger.cur_prefix (h : Ledger Rs log owed done rest cur)
    (hrec : received log ++ bs <+: Rs.flatten ++ tail) : cur ++ bs <+: rest.flatten ++ tail := by
  rw [h.received_eq, h.requests_eq, List.flatten_append, List.append_assoc, List.append_assoc] at hrec
  exact (List.prefix_append_right_inj _).mp hrec

theorem Ledger.contained_eq (h : Ledger Rs log owed done rest cur) (bs : List UInt8) :
    contained Rs ((received log).length + bs.length) =
      done.length + contained rest (cur ++ bs).length := by
  rw [h.requests_eq, h.received_eq, ← List.length_append, List.append_assoc, List.length_append,
    contained_append]

/-- A call that takes `taken` of the requests. -/
theorem Ledger.call (h : Ledger Rs log 0 done rest cur) {taken rest' : List (List UInt8)}
    {cur' : List UInt8} (hrest : rest = taken ++ rest') (hcur : cur ++ bs = taken.flatten ++ cur')
    (hone : taken.length ≤ 1) (hnone : taken = [] → contained rest (cur ++ bs).length = 0)
    (st : ParseStatus) (data : List UInt8) (n : Nat) :
    Ledger Rs (log ++ [.received bs, .parsed st data n]) taken.length (done ++ taken) rest' cur' where
  requests_eq := by rw [h.requests_eq, hrest, List.append_assoc]
  received_eq := by
    rw [received_call, h.received_eq, List.append_assoc, hcur, List.flatten_append, List.append_assoc]
  answered_eq := by
    have hans := h.answered_eq
    rw [answered_append, List.length_append, ← hans]
    rfl
  backlog_eq := by
    have hmono := contained_mono Rs (Nat.le_add_right (received log).length bs.length)
    have hall := h.contained_eq bs
    have hback := h.backlog_eq
    rw [backlog_call, received_call, List.length_append, List.length_append]
    cases taken with
    | nil =>
      have hzero := hnone rfl
      simp only [List.length_nil]
      omega
    | cons R taken =>
      -- the request that is taken is one that has been received
      have hpos : 1 ≤ contained rest (cur ++ bs).length := by
        have hle : R.length ≤ (cur ++ bs).length := by
          rw [hcur, List.flatten_cons, List.length_append, List.length_append]
          omega
        rw [hrest, List.cons_append, contained, if_pos hle]
        exact Nat.le_add_left 1 _
      rw [List.length_cons] at hone ⊢
      omega

end Ledger

/-- The request `req` has consumed some of what was received behind the last answer. -/
def Reading (Rs : List (List UInt8)) (req : HttpRequest) (left : List UInt8)
    (log : List ServerObs) : Prop :=
  ∃ done rest cur k, Ledger Rs log 0 done rest cur ∧ left = cur.drop k ∧
    Midway requestVerdict httpRequestInit req cur k

section Calls
variable {Rs : List (List UInt8)} {tail : List UInt8} {log : List ServerObs}
  {req req' : HttpRequest} {left bs : List UInt8} {n : Nat}
  (hRs : ∀ R ∈ Rs, Message requestVerdict httpRequestInit R)
include hRs

theorem Reading.more (h : Reading Rs req left log)
    (hv : requestVerdict req (left ++ bs) = .more req' n) (hle : n ≤ (left ++ bs).length)
    (hrec : received log ++ bs <+: Rs.flatten ++ tail) (st : ParseStatus) (data : List UInt8) :
    Reading Rs req' ((left ++ bs).drop n) (log ++ [.received bs, .parsed st data n]) := by
  rcases h with ⟨done, rest, cur, k, hledger, rfl, hmid⟩
  have hsplit := request_more_splits hv hle
  have hmid' := hmid.more hsplit hv
  have hwhole : requestVerdict httpRequestInit (cur ++ bs) = .more req' (k + n) := by
    rw [hmid.go_on, hv]
    rfl
  have hrest := hledger.messages hRs
  have hnone := contained_of_more request_done_splits hrest (hledger.cur_prefix hrec) hwhole
  have hnil : rest = [] ++ rest := rfl
  have hcall := hledger.call hnil rfl (Nat.zero_le 1) (fun _ => hnone) st data n
  rw [List.append_nil] at hcall
  refine ⟨done, rest, cur ++ bs, k + n, hcall, ?_, hmid'⟩
  rw [← List.drop_drop, List.drop_append_of_le_length hmid.bound]

theorem Reading.done (htail : Unfinished requestVerdict httpRequestInit tail)
    (h : Reading Rs req left log)
    (hv : requestVerdict req (left ++ bs) = .done req' n)
    (hrec : received log ++ bs <+: Rs.flatten ++ tail) (st : ParseStatus) (data : List UInt8) :
    ∃ done rest, Ledger Rs (log ++ [.received bs, .parsed st data n]) 1 done rest
      ((left ++ bs).drop n) := by
  rcases h with ⟨done, rest, cur, k, hledger, rfl, hmid⟩
  have hwhole : requestVerdict httpRequestInit (cur ++ bs) = .done req' (k + n) := by
    rw [hmid.go_on, hv]
    rfl
  have hrest := hledger.messages hRs
  have hcur := hledger.cur_prefix hrec
  obtain ⟨R, rest', rfl, hlen, hle⟩ := first_message request_done_splits hrest htail hcur hwhole
  have htake : cur ++ bs = R ++ (cur ++ bs).drop (k + n) := by
    have hR : R <+: cur ++ bs := by
      rw [List.flatten_cons, List.append_assoc] at hcur
      exact List.prefix_of_prefix_length_le (List.prefix_append R _) hcur (hlen ▸ hle)
    rcases hR with ⟨x, hx⟩
    rw [← hx, hlen, List.drop_left]
  refine ⟨done ++ [R], rest', ?_⟩
  rw [← List.drop_append_of_le_length hmid.bound, List.drop_drop]
  have hone : R :: rest' = [R] ++ rest' := rfl
  refine hledger.call hone ?_ (Nat.le_refl 1) (fun h => (nomatch h)) st data n
  rwa [List.flatten_singleton]

end Calls

/-! ## 4. Runs -/

/-- Assertions about the bytes that are not consumed and, in the runs that receive
    `Rs.flatten ++ tail` or the start of it, about the requests.  While the connection waits,
    they are about what the next activation has to go on with; `data_buffer` may hold the
    start of it, or something else when there is nothing to go on with. -/
def pipelining (Rs : List (List UInt8)) (tail : List UInt8) : Annotation where
  always _ := True
  idle req saved log := Holds (pending log) log ∧ (pending log ≠ [] → saved <+: pending log) ∧
    (received log <+: Rs.flatten ++ tail → Reading Rs req (pending log) log ∧ backlog Rs log = 0)
  reading req left log := Holds left log ∧
    (received log <+: Rs.flatten ++ tail → Reading Rs req left log)
  answering left log := Holds left log ∧
    (received log <+: Rs.flatten ++ tail → ∃ done rest, Ledger Rs log 1 done rest left)

/-- A worker is not started with other bytes than those that are received and not consumed. -/
def Resumes (x : Connection × List ServerObs) : ServerEvent → Prop
  | .activate _ => x.1.conn.saved = pending x.2
  | _ => True

/-- No request waits behind the worker when it gives the connection back. -/
def CaughtUp (Rs : List (List UInt8)) (log : List ServerObs) : ServerEvent → Prop
  | .recv .wouldBlock => backlog Rs log = 0
  | _ => True

section Verified
variable {Rs : List (List UInt8)} {tail : List UInt8}

theorem received_before {log obs : List ServerObs} (h : received (log ++ obs) <+: Rs.flatten ++ tail) :
    received log <+: Rs.flatten ++ tail := by
  rw [received_append] at h
  exact (List.prefix_append _ _).trans h

theorem not_request_nil : Unfinished requestVerdict httpRequestInit [] :=
  fun req n => not_done_nil req n

theorem saveRemain_saved_prefix (conn : ConnectionInfo) (rbuf : Buf UInt8 rbufSize) {remain : Nat}
    (hsized : remain ≤ rbufSize) (hne : rbuf.read 0 remain ≠ []) :
    (saveRemain conn rbuf remain).saved <+: rbuf.read 0 remain := by
  have hpos : remain ≠ 0 := by
    rintro rfl
    exact hne (rbuf.read_zero 0)
  obtain ⟨k, hk⟩ := Nat.exists_eq_add_of_le (Nat.min_le_left remain dataBufferSize)
  have hsplit := rbuf.read_add 0 (min remain dataBufferSize) k
  rw [← hk] at hsplit
  rw [saveRemain_saved conn rbuf hpos hsized, hsplit]
  exact List.prefix_append _ _

theorem pipelining_verified (hRs : ∀ R ∈ Rs, Message requestVerdict httpRequestInit R)
    (htail : Unfinished requestVerdict httpRequestInit tail) :
    (pipelining Rs tail).Verified fun x e => Resumes x e ∧ CaughtUp Rs x.2 e where
  start := by
    have hzero : contained Rs 0 = 0 := by
      cases Rs with
      | nil => rfl
      | cons R Rs =>
        apply if_neg
        intro hle
        have hnil : R = [] := List.length_eq_zero_iff.mp (Nat.le_zero.mp hle)
        exact request_ne_nil (hRs R List.mem_cons_self) hnil
    refine ⟨trivial, ⟨[], rfl, rfl⟩, fun h => absurd rfl h, fun _ => ⟨?_, rfl⟩⟩
    exact ⟨[], Rs, [], 0, ⟨rfl, rfl, rfl, hzero.symm⟩, rfl, .start _ _ _⟩
  load := by
    intro conn stack log h ha
    have hsaved : conn.saved = pending log := ha.1
    rw [hsaved]
    exact ⟨h.1, fun hrec => (h.2.2 hrec).1⟩
  call _ _ _ _ := trivial
  more := by
    intro req left log bs req' n h _ hv hle
    refine ⟨h.1.call _ _ hle, fun hrec => ?_⟩
    have hbefore := received_before hrec
    rw [received_call] at hrec
    exact (h.2 hbefore).more hRs hv hle hrec _ _
  done := by
    intro req left log bs req' n h _ hv hle
    refine ⟨h.1.call _ _ hle, fun hrec => ?_⟩
    have hbefore := received_before hrec
    rw [received_call] at hrec
    exact (h.2 hbefore).done hRs htail hv hrec _ _
  quiet _ _ := trivial
  sent := by
    intro left log out h
    refine ⟨h.1.quiet (quiet_sent_one out), fun hrec => ?_⟩
    rcases h.2 (received_before hrec) with ⟨done, rest, hledger⟩
    exact ⟨done, rest, hledger.quiet (quiet_sent_one out) rfl⟩
  answered := by
    intro left log h
    refine ⟨h.1.quiet quiet_answered_one, fun hrec => ?_⟩
    rcases h.2 (received_before hrec) with ⟨done, rest, hledger⟩
    exact ⟨done, rest, left, 0, hledger.quiet quiet_answered_one rfl, rfl, .start _ _ _⟩
  park := by
    intro conn rbuf remain log h hsized ha
    have hleft := h.1.eq_pending
    have hbacklog : backlog Rs log = 0 := ha.2
    refine ⟨hleft ▸ h.1, ?_, fun hrec => ⟨hleft ▸ h.2 hrec, hbacklog⟩⟩
    rw [← hleft]
    exact saveRemain_saved_prefix conn rbuf hsized

/-- A complete request among the bytes behind the last answer is one that was received and
    is not answered. -/
theorem Reading.not_done (hRs : ∀ R ∈ Rs, Message requestVerdict httpRequestInit R)
    (htail : Unfinished requestVerdict httpRequestInit tail) {req : HttpRequest}
    {left : List UInt8} {log : List ServerObs} (h : Reading Rs req left log)
    (hrec : received log <+: Rs.flatten ++ tail)
    (hall : answered log = contained Rs (received log).length) :
    Unfinished requestVerdict req left := by
  intro req' n hv
  rcases h with ⟨done, rest, cur, k, hledger, rfl, hmid⟩
  have hwhole : requestVerdict httpRequestInit cur = .done req' (k + n) := by
    have hgo := hmid.go_on []
    rw [List.append_nil, List.append_nil, hv] at hgo
    exact hgo
  have hcur : cur ++ [] <+: rest.flatten ++ tail := hledger.cur_prefix (by rwa [List.append_nil])
  rw [List.append_nil] at hcur
  have hrest := hledger.messages hRs
  obtain ⟨R, rest', rfl, hlen, hle⟩ := first_message request_done_splits hrest htail hcur hwhole
  have hcount := hledger.contained_eq []
  rw [List.length_nil, Nat.add_zero, List.append_nil, ← hall, contained, if_pos (hlen ▸ hle)] at hcount
  have hans := hledger.answered_eq
  omega

end Verified

/-- A request that is answered without a file. -/
def putRequest : List UInt8 := bytes "PUT / HTTP/1.1\r\n\r\n"

theorem putRequest_message : Message requestVerdict httpRequestInit putRequest := ⟨_, rfl⟩

end OServer
