/-
  OServer/Server.lean
  ===================
  **Serving a connection (`server_serv_client`).**

  A worker is activated when the socket is readable.  It receives and parses until
  nothing is left to receive, and then gives the connection back to the main loop; what
  has not been parsed yet is saved in the connection until the next activation.

  One step is what happens between two calls that the environment answers.  Where a step
  is `none` the event cannot occur, or C does not say what happens: a block with a
  negative length is copied when the parser has claimed more than it was given.
-/
import OServer.ServerProcess
import OServer.Lib.Buf
import OServer.Lib.Run

namespace OServer

open CString

/-! ## 1. State -/

/-- `sizeof(rbuf)`. -/
abbrev rbufSize : Nat := 2048

/-- `sizeof(wbuf)`. -/
abbrev wbufSize : Nat := 4096

/-- `sizeof(conn->data_buffer)`. -/
abbrev dataBufferSize : Nat := 1024

structure ConnectionInfo where
  request : HttpRequest
  response : HttpResponse
  dataLen : Nat
  dataBuffer : Buf UInt8 dataBufferSize
  dataLen_le : dataLen ≤ dataBufferSize

/-- The bytes `data_buffer[0 .. data_len)`. -/
def ConnectionInfo.saved (conn : ConnectionInfo) : List UInt8 :=
  conn.dataBuffer.read 0 conn.dataLen

/-- Where the worker is, with its local variables. -/
inductive Worker where
  /-- the socket is watched by the main loop -/
  | waiting
  /-- before `recv` -/
  | recving (rbuf : Buf UInt8 rbufSize) (remain : Nat)
  /-- behind `http_request_parse` and `remain += ret - rdlen` -/
  | parsed (rbuf : Buf UInt8 rbufSize) (remain : Int) (rdlen : Nat) (failed parseEnd : Bool)
  /-- before `http_response_gen` -/
  | sending (rbuf : Buf UInt8 rbufSize) (remain : Nat) (keepAlive : Bool)
  /-- the socket is closed -/
  | closed

structure Connection where
  conn : ConnectionInfo
  worker : Worker

/-- A connection that `server_entry` has accepted, in memory that holds anything. -/
def Connection.accepted (dataBuffer : Buf UInt8 dataBufferSize) : Connection where
  conn := ⟨httpRequestInit, httpResponseInit .ok200, 0, dataBuffer, Nat.zero_le _⟩
  worker := .waiting

/-! ## 2. Events -/

/-- The answers of `recv`: bytes, `0`, `-1` with `EWOULDBLOCK`, `-1` with another error. -/
inductive RecvResult where
  | data (bs : List UInt8)
  | closed
  | wouldBlock
  | error
deriving DecidableEq, Repr

inductive ServerEvent where
  /-- a worker starts; `rbuf` is not initialised -/
  | activate (stack : Buf UInt8 rbufSize)
  | recv (r : RecvResult)
  /-- what follows a call of the parser -/
  | settle (fs : FileSystem)
  /-- one round of the sending loop: what a `read` of the content delivers, and what
      `write` returns, `none` for `-1` -/
  | send (content : List UInt8) (written : Option Nat)

/-- What a run is judged by. -/
inductive ServerObs where
  | received (bs : List UInt8)
  | parsed (status : ParseStatus) (data : List UInt8) (rdlen : Nat)
  | sent (bs : List UInt8)
  | answered
deriving DecidableEq, Repr

/-! ## 3. Steps -/

def loadSaved (conn : ConnectionInfo) (stack : Buf UInt8 rbufSize) : Buf UInt8 rbufSize :=
  if 0 < conn.dataLen then stack.write 0 conn.saved else stack

/-- `recv` would block: what remains is saved, and nothing is done when nothing does. -/
def saveRemain (conn : ConnectionInfo) (rbuf : Buf UInt8 rbufSize) (remain : Nat) :
    ConnectionInfo :=
  if remain = 0 then conn
  else
    { conn with
      dataLen := min remain dataBufferSize
      dataBuffer := conn.dataBuffer.write 0 (rbuf.read 0 (min remain dataBufferSize))
      dataLen_le := Nat.min_le_right .. }

/-- The bytes that the parser is given when `recv` has delivered `bs`. -/
def presented (rbuf : Buf UInt8 rbufSize) (remain : Nat) (bs : List UInt8) : List UInt8 :=
  (rbuf.write remain bs).read 0 (bs.length + remain)

/-- `recv` has delivered `bs`. -/
def recvData (conn : ConnectionInfo) (rbuf : Buf UInt8 rbufSize) (remain : Nat)
    (bs : List UInt8) : Connection × List ServerObs :=
  let data := presented rbuf remain bs
  let r := httpRequestParse conn.request data
  let failed : Bool := decide (r.ret < 0)
  let remain' : Int := if failed then remain else remain + (bs.length - r.rdlen)
  (⟨{ conn with request := r.req },
      .parsed (rbuf.write remain bs) remain' r.rdlen failed r.isEnd⟩,
    [.received bs, .parsed conn.request.parseStatus data r.rdlen])

/-- The unconsumed bytes are moved to the front. -/
def compact (rbuf : Buf UInt8 rbufSize) (rdlen remain : Nat) : Buf UInt8 rbufSize :=
  if rdlen ≠ 0 ∧ remain ≠ 0 then
    if remain ≤ rdlen then rbuf.write 0 (rbuf.read rdlen remain)
    else Buf.moveDown rdlen remain 0 rbuf
  else rbuf

/-- `rbuf` behind the call of the parser; a refused buffer is left as it is. -/
def settled (rbuf : Buf UInt8 rbufSize) (remain : Int) (rdlen : Nat) (failed : Bool) :
    Buf UInt8 rbufSize :=
  if failed then rbuf else compact rbuf rdlen remain.toNat

/-- `http_request_log`, without the line it writes. -/
def httpRequestLog (req : HttpRequest) : HttpRequest :=
  { req with headers := logHeaders req.headers req.version }

/-- What follows a call of the parser. -/
def settle (root : List UInt8) (fs : FileSystem) (conn : ConnectionInfo)
    (rbuf : Buf UInt8 rbufSize) (remain : Int) (rdlen : Nat) (failed parseEnd : Bool) :
    Option Connection :=
  if failed = false ∧ remain < 0 then none
  else if parseEnd then
    let req := httpRequestLog conn.request
    let r := serverProcessRequest root fs req conn.response true
    some ⟨{ conn with request := req, response := httpResponseLog r.1 },
      .sending (settled rbuf remain rdlen failed) remain.toNat r.2⟩
  else some ⟨conn, .recving (settled rbuf remain rdlen failed) remain.toNat⟩

/-- One round of the sending loop. -/
def sendPiece (conn : ConnectionInfo) (rbuf : Buf UInt8 rbufSize) (remain : Nat)
    (keepAlive : Bool) (content : List UInt8) (written : Option Nat) :
    Connection × List ServerObs :=
  let r := httpResponseGen (fun n (_ : Unit) => (content.take n, ())) conn.response wbufSize ()
  let sent : List ServerObs := if 0 < (wbufSize : Int) - r.size then [.sent r.out] else []
  let failed : Bool := decide (sent ≠ [] ∧ written = none)
  if failed ∨ r.isEnd then
    (⟨{ conn with
        request := httpRequestReset conn.request
        response := httpResponseReset r.res .ok200 },
      if failed then .closed else if keepAlive then .recving rbuf remain else .closed⟩,
      sent ++ [.answered])
  else (⟨{ conn with response := r.res }, .sending rbuf remain keepAlive⟩, sent)

def serverStep (root : List UInt8) (c : Connection) (e : ServerEvent) :
    Option (Connection × List ServerObs) :=
  match c.worker, e with
  | .waiting, .activate stack =>
      some (⟨c.conn, .recving (loadSaved c.conn stack) c.conn.dataLen⟩, [])
  | .recving rbuf remain, .recv (.data bs) =>
      if bs ≠ [] ∧ remain + bs.length ≤ rbufSize then some (recvData c.conn rbuf remain bs) else none
  | .recving rbuf remain, .recv .wouldBlock =>
      some (⟨saveRemain c.conn rbuf remain, .waiting⟩, [])
  | .recving _ _, .recv .closed => some (⟨c.conn, .closed⟩, [])
  | .recving _ _, .recv .error => some (⟨c.conn, .closed⟩, [])
  | .parsed rbuf remain rdlen failed parseEnd, .settle fs =>
      (settle root fs c.conn rbuf remain rdlen failed parseEnd).map fun c => (c, [])
  | .sending rbuf remain keepAlive, .send content written =>
      some (sendPiece c.conn rbuf remain keepAlive content written)
  | _, _ => none

/-! ## 4. What the functions do to the buffers -/

theorem httpRequestReset_eq (req : HttpRequest) : httpRequestReset req = httpRequestInit := rfl

theorem presented_eq (rbuf : Buf UInt8 rbufSize) {remain : Nat} {bs : List UInt8}
    (h : remain + bs.length ≤ rbufSize) : presented rbuf remain bs = rbuf.read 0 remain ++ bs := by
  rw [presented, Nat.add_comm, rbuf.read_write_append h]

theorem ConnectionInfo.saved_length (conn : ConnectionInfo) : conn.saved.length = conn.dataLen := by
  have hle := conn.dataLen_le
  exact Buf.read_length _ (by omega)

theorem read_loadSaved (conn : ConnectionInfo) (stack : Buf UInt8 rbufSize) :
    (loadSaved conn stack).read 0 conn.dataLen = conn.saved := by
  have hlen := conn.saved_length
  have hfits : 0 + conn.saved.length ≤ rbufSize := by
    have hle := conn.dataLen_le
    simp only [hlen, dataBufferSize, rbufSize] at hle ⊢
    omega
  unfold loadSaved
  split_ifs with hpos
  · have hself := stack.read_write_self hfits
    rwa [hlen] at hself
  · rw [Nat.eq_zero_of_not_pos hpos, Buf.read_zero, eq_comm, ← List.length_eq_zero_iff, hlen]
    exact Nat.eq_zero_of_not_pos hpos

/-- **What is left is moved to the front.** -/
theorem read_compact {rbuf : Buf UInt8 rbufSize} {rdlen remain : Nat}
    (h : rdlen + remain ≤ rbufSize) :
    (compact rbuf rdlen remain).read 0 remain = rbuf.read rdlen remain := by
  have hlen : (rbuf.read rdlen remain).length = remain := rbuf.read_length h
  unfold compact
  split_ifs with hmove hle
  · have hfits : 0 + (rbuf.read rdlen remain).length ≤ rbufSize := by omega
    have hself := rbuf.read_write_self hfits
    rwa [hlen] at hself
  · have hdown := Buf.read_moveDown rdlen remain 0 rbuf (by omega)
    simpa using hdown
  · -- nothing was consumed, or nothing is left
    rcases Nat.eq_zero_or_pos rdlen with h0 | h0
    · rw [h0]
    · have hrem : remain = 0 := by
        by_contra hne
        exact hmove ⟨by omega, hne⟩
      rw [hrem, Buf.read_zero, Buf.read_zero]

theorem saveRemain_request (conn : ConnectionInfo) (rbuf : Buf UInt8 rbufSize) (remain : Nat) :
    (saveRemain conn rbuf remain).request = conn.request := by
  unfold saveRemain
  split_ifs <;> rfl

/-- Something that is left is saved, up to the size of `data_buffer`. -/
theorem saveRemain_saved (conn : ConnectionInfo) (rbuf : Buf UInt8 rbufSize) {remain : Nat}
    (hne : remain ≠ 0) (h : remain ≤ rbufSize) :
    (saveRemain conn rbuf remain).saved = rbuf.read 0 (min remain dataBufferSize) := by
  have hlen : (rbuf.read 0 (min remain dataBufferSize)).length = min remain dataBufferSize :=
    rbuf.read_length (by omega)
  have hfits : 0 + (rbuf.read 0 (min remain dataBufferSize)).length ≤ dataBufferSize := by omega
  have hself := conn.dataBuffer.read_write_self hfits
  rw [hlen] at hself
  simp only [saveRemain, if_neg hne, ConnectionInfo.saved]
  exact hself

/-- **What is saved is what is left, unless it is too long, or nothing is left and the
    last activation has left something.** -/
theorem saveRemain_saved_iff (conn : ConnectionInfo) (rbuf : Buf UInt8 rbufSize) {remain : Nat}
    (h : remain ≤ rbufSize) :
    (saveRemain conn rbuf remain).saved = rbuf.read 0 remain ↔
      remain ≤ dataBufferSize ∧ (remain = 0 → conn.dataLen = 0) := by
  have hleft : (rbuf.read 0 remain).length = remain := rbuf.read_length (by omega)
  by_cases h0 : remain = 0
  · subst h0
    rw [saveRemain, if_pos rfl, Buf.read_zero, ← List.length_eq_zero_iff,
      ConnectionInfo.saved_length]
    exact ⟨fun hd => ⟨Nat.zero_le _, fun _ => hd⟩, fun hd => hd.2 rfl⟩
  · constructor
    · intro heq
      have hlen := congrArg List.length heq
      rw [ConnectionInfo.saved_length, hleft, saveRemain, if_neg h0] at hlen
      have hmin : min remain dataBufferSize = remain := hlen
      exact ⟨min_eq_left_iff.mp hmin, fun h => absurd h h0⟩
    · rintro ⟨hle, -⟩
      rw [saveRemain_saved conn rbuf h0 h, Nat.min_eq_left hle]

/-! ## 5. What a step can do -/

/-- The steps, one by one. -/
inductive ServerMove : Connection → ServerEvent → Connection → List ServerObs → Prop where
  | activate (conn : ConnectionInfo) (stack : Buf UInt8 rbufSize) :
      ServerMove ⟨conn, .waiting⟩ (.activate stack)
        ⟨conn, .recving (loadSaved conn stack) conn.dataLen⟩ []
  | refused (conn : ConnectionInfo) (rbuf : Buf UInt8 rbufSize) (remain : Nat) (bs : List UInt8)
      (req : HttpRequest) (hne : bs ≠ []) (hroom : remain + bs.length ≤ rbufSize)
      (hv : requestVerdict conn.request (presented rbuf remain bs) = .reject req)
      (herr : req.parseStatus = .error) :
      ServerMove ⟨conn, .recving rbuf remain⟩ (.recv (.data bs))
        ⟨{ conn with request := req }, .parsed (rbuf.write remain bs) remain 0 true true⟩
        [.received bs, .parsed conn.request.parseStatus (presented rbuf remain bs) 0]
  | taken (conn : ConnectionInfo) (rbuf : Buf UInt8 rbufSize) (remain : Nat) (bs : List UInt8)
      (req : HttpRequest) (rdlen : Nat) (isEnd : Bool) (hne : bs ≠ [])
      (hroom : remain + bs.length ≤ rbufSize)
      (hv : requestVerdict conn.request (presented rbuf remain bs) =
        if isEnd then .done req rdlen else .more req rdlen) :
      ServerMove ⟨conn, .recving rbuf remain⟩ (.recv (.data bs))
        ⟨{ conn with request := req },
          .parsed (rbuf.write remain bs) (remain + (bs.length - rdlen)) rdlen false isEnd⟩
        [.received bs, .parsed conn.request.parseStatus (presented rbuf remain bs) rdlen]
  | wouldBlock (conn : ConnectionInfo) (rbuf : Buf UInt8 rbufSize) (remain : Nat) :
      ServerMove ⟨conn, .recving rbuf remain⟩ (.recv .wouldBlock)
        ⟨saveRemain conn rbuf remain, .waiting⟩ []
  | close (conn : ConnectionInfo) (rbuf : Buf UInt8 rbufSize) (remain : Nat) (r : RecvResult) :
      ServerMove ⟨conn, .recving rbuf remain⟩ (.recv r) ⟨conn, .closed⟩ []
  | goOn (conn : ConnectionInfo) (rbuf : Buf UInt8 rbufSize) (remain : Int) (rdlen : Nat)
      (failed : Bool) (fs : FileSystem) (hpos : failed = false → 0 ≤ remain) :
      ServerMove ⟨conn, .parsed rbuf remain rdlen failed false⟩ (.settle fs)
        ⟨conn, .recving (settled rbuf remain rdlen failed) remain.toNat⟩ []
  | respond (conn : ConnectionInfo) (rbuf : Buf UInt8 rbufSize) (remain : Int) (rdlen : Nat)
      (failed : Bool) (fs : FileSystem) (request : HttpRequest) (response : HttpResponse)
      (hpos : failed = false → 0 ≤ remain) :
      ServerMove ⟨conn, .parsed rbuf remain rdlen failed true⟩ (.settle fs)
        ⟨{ conn with request, response }, .sending (settled rbuf remain rdlen failed) remain.toNat
          (decide (conn.request.parseStatus ≠ .error))⟩ []
  | piece (conn : ConnectionInfo) (rbuf : Buf UInt8 rbufSize) (remain : Nat) (keepAlive : Bool)
      (content : List UInt8) (written : Option Nat) (response : HttpResponse) (out : List ServerObs)
      (hout : ∀ o ∈ out, ∃ bs, o = .sent bs) :
      ServerMove ⟨conn, .sending rbuf remain keepAlive⟩ (.send content written)
        ⟨{ conn with response }, .sending rbuf remain keepAlive⟩ out
  | lastPiece (conn : ConnectionInfo) (rbuf : Buf UInt8 rbufSize) (remain : Nat)
      (content : List UInt8) (written : Option Nat) (response : HttpResponse) (out : List ServerObs)
      (hout : ∀ o ∈ out, ∃ bs, o = .sent bs) :
      ServerMove ⟨conn, .sending rbuf remain true⟩ (.send content written)
        ⟨{ conn with request := httpRequestInit, response }, .recving rbuf remain⟩
        (out ++ [.answered])
  | giveUp (conn conn' : ConnectionInfo) (rbuf : Buf UInt8 rbufSize) (remain : Nat)
      (keepAlive : Bool) (content : List UInt8) (written : Option Nat) (out : List ServerObs)
      (hout : ∀ o ∈ out, ∃ bs, o = .sent bs) :
      ServerMove ⟨conn, .sending rbuf remain keepAlive⟩ (.send content written)
        ⟨conn', .closed⟩ (out ++ [.answered])

theorem recvData_move (conn : ConnectionInfo) (rbuf : Buf UInt8 rbufSize) (remain : Nat)
    (bs : List UInt8) (hne : bs ≠ []) (hroom : remain + bs.length ≤ rbufSize) :
    ServerMove ⟨conn, .recving rbuf remain⟩ (.recv (.data bs)) (recvData conn rbuf remain bs).1
      (recvData conn rbuf remain bs).2 := by
  let r := httpRequestParse conn.request (presented rbuf remain bs)
  by_cases hret : r.ret < 0
  · rcases requestLoop_failed _ _ _ _ _ hret with ⟨hrdlen, hend, herr⟩
    have hrdlen : r.rdlen = 0 := hrdlen
    have hend : r.isEnd = true := hend
    have hv : requestVerdict conn.request (presented rbuf remain bs) = .reject r.req := if_pos hret
    have hmove := ServerMove.refused conn rbuf remain bs r.req hne hroom hv herr
    have hrun : recvData conn rbuf remain bs =
        (⟨{ conn with request := r.req }, .parsed (rbuf.write remain bs) remain 0 true true⟩,
          [.received bs, .parsed conn.request.parseStatus (presented rbuf remain bs) 0]) := by
      simp only [recvData, show httpRequestParse conn.request (presented rbuf remain bs) = r from rfl,
        hret, hrdlen, hend, decide_true, if_true]
    rwa [hrun]
  · have hv : requestVerdict conn.request (presented rbuf remain bs) =
        if r.isEnd then .done r.req r.rdlen else .more r.req r.rdlen := if_neg hret
    have hmove := ServerMove.taken conn rbuf remain bs r.req r.rdlen r.isEnd hne hroom hv
    have hrun : recvData conn rbuf remain bs =
        (⟨{ conn with request := r.req },
          .parsed (rbuf.write remain bs) (remain + (bs.length - r.rdlen)) r.rdlen false r.isEnd⟩,
          [.received bs, .parsed conn.request.parseStatus (presented rbuf remain bs) r.rdlen]) := by
      simp only [recvData, show httpRequestParse conn.request (presented rbuf remain bs) = r from rfl,
        hret, decide_false, Bool.false_eq_true, if_false]
    rwa [hrun]

theorem settle_move {root : List UInt8} {fs : FileSystem} {conn : ConnectionInfo}
    {rbuf : Buf UInt8 rbufSize} {remain : Int} {rdlen : Nat} {failed parseEnd : Bool}
    {c' : Connection} (h : settle root fs conn rbuf remain rdlen failed parseEnd = some c') :
    ServerMove ⟨conn, .parsed rbuf remain rdlen failed parseEnd⟩ (.settle fs) c' [] := by
  unfold settle at h
  split_ifs at h with hneg hend
  · obtain rfl := Option.some.inj h
    subst hend
    have hkeep := serverProcessRequest_keepAlive root fs (httpRequestLog conn.request) conn.response
    simp only [hkeep]
    exact .respond conn rbuf remain rdlen failed fs _ _
      fun hf => Int.not_lt.mp fun hlt => hneg ⟨hf, hlt⟩
  · obtain rfl := Option.some.inj h
    obtain rfl := Bool.eq_false_iff.mpr hend
    exact .goOn conn rbuf remain rdlen failed fs
      fun hf => Int.not_lt.mp fun hlt => hneg ⟨hf, hlt⟩

theorem sendPiece_move (conn : ConnectionInfo) (rbuf : Buf UInt8 rbufSize) (remain : Nat)
    (keepAlive : Bool) (content : List UInt8) (written : Option Nat) :
    ServerMove ⟨conn, .sending rbuf remain keepAlive⟩ (.send content written)
      (sendPiece conn rbuf remain keepAlive content written).1
      (sendPiece conn rbuf remain keepAlive content written).2 := by
  let r := httpResponseGen (fun n (_ : Unit) => (content.take n, ())) conn.response wbufSize ()
  let out : List ServerObs := if 0 < (wbufSize : Int) - r.size then [.sent r.out] else []
  have hout : ∀ o ∈ out, ∃ bs, o = .sent bs := by
    intro o ho
    simp only [out] at ho
    split_ifs at ho
    · exact ⟨r.out, List.mem_singleton.mp ho⟩
    · exact absurd ho List.not_mem_nil
  by_cases hlast : decide (out ≠ [] ∧ written = none) = true ∨ r.isEnd = true
  · have hrun : sendPiece conn rbuf remain keepAlive content written =
        (⟨{ conn with
            request := httpRequestReset conn.request
            response := httpResponseReset r.res .ok200 },
          if decide (out ≠ [] ∧ written = none) then .closed
          else if keepAlive then .recving rbuf remain else .closed⟩, out ++ [.answered]) :=
      if_pos hlast
    rw [hrun, httpRequestReset_eq]
    cases decide (out ≠ [] ∧ written = none) with
    | true => exact .giveUp conn _ rbuf remain keepAlive content written out hout
    | false =>
      cases keepAlive with
      | true => exact .lastPiece conn rbuf remain content written _ out hout
      | false => exact .giveUp conn _ rbuf remain false content written out hout
  · have hrun : sendPiece conn rbuf remain keepAlive content written =
        (⟨{ conn with response := r.res }, .sending rbuf remain keepAlive⟩, out) := if_neg hlast
    rw [hrun]
    exact .piece conn rbuf remain keepAlive content written r.res out hout

theorem serverStep_move {root : List UInt8} {c c' : Connection} {e : ServerEvent}
    {obs : List ServerObs} (h : serverStep root c e = some (c', obs)) :
    ServerMove c e c' obs := by
  rcases c with ⟨conn, worker⟩
  cases worker with
  | waiting =>
    cases e with
    | activate stack =>
      cases h
      exact .activate conn stack
    | recv r => cases h
    | settle fs => cases h
    | send content written => cases h
  | recving rbuf remain =>
    cases e with
    | activate stack => cases h
    | recv r =>
      cases r with
      | data bs =>
        simp only [serverStep] at h
        split_ifs at h with hbs
        have hmove := recvData_move conn rbuf remain bs hbs.1 hbs.2
        rwa [Option.some.inj h] at hmove
      | closed =>
        cases h
        exact .close conn rbuf remain .closed
      | wouldBlock =>
        cases h
        exact .wouldBlock conn rbuf remain
      | error =>
        cases h
        exact .close conn rbuf remain .error
    | settle fs => cases h
    | send content written => cases h
  | parsed rbuf remain rdlen failed parseEnd =>
    cases e with
    | activate stack => cases h
    | recv r => cases h
    | settle fs =>
      simp only [serverStep, Option.map_eq_some_iff, Prod.mk.injEq] at h
      rcases h with ⟨c₁, hc₁, rfl, rfl⟩
      exact settle_move hc₁
    | send content written => cases h
  | sending rbuf remain keepAlive =>
    cases e with
    | activate stack => cases h
    | recv r => cases h
    | settle fs => cases h
    | send content written =>
      have hmove := sendPiece_move conn rbuf remain keepAlive content written
      simp only [serverStep, Option.some.injEq] at h
      rwa [h] at hmove
  | closed => cases e <;> cases h

end OServer
