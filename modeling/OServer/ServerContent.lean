/-
  OServer/ServerContent.lean
  ==========================
  **The descriptors of the contents (`close(res->content)`).**

  `server_process_get` opens the file that a response sends, and the response owns the
  descriptor.  It is closed by `server_process_head`, which sends no content, and
  wherever a response is reset: before a request is processed, behind the sending loop,
  and when `server_check_conn_in` gives the connection back.

    * `serverStep_oneSlot`       — a step opens and closes through the one slot that the
                                   response has, which is empty unless a response is sent;
    * `serverServClient_content` — so that every descriptor is closed once in every run.
-/
import OServer.Lib.Handles
import OServer.ServerRuns

namespace OServer

open CString Handles

/-! ## 1. What the functions open and close -/

abbrev ContentOp := Handles.Op Int

/-- Where a response is reset, and in `server_process_head`. -/
def closeContent (res : HttpResponse) : List ContentOp :=
  if 0 ≤ res.content then [.release res.content] else []

/-- What follows `stat` in `server_process_get`. -/
def openFileOps (fs : FileSystem) (path : List UInt8) : List ContentOp :=
  match fs.stat path with
  | none => []
  | some info =>
      if !info.isReg then []
      else if info.stSize = 0 then []
      else
        match fs.openRdonly path with
        | none => []
        | some fd => [.acquire fd]

def serverProcessGetOps (root : List UInt8) (fs : FileSystem) (req : HttpRequest)
    (res : HttpResponse) : List ContentOp :=
  closeContent res ++ openFileOps fs (servedPath root req.url)

def serverProcessHeadOps (root : List UInt8) (fs : FileSystem) (req : HttpRequest)
    (res : HttpResponse) (keepAlive : Bool) : List ContentOp :=
  serverProcessGetOps root fs req res ++ closeContent (serverProcessGet root fs req res keepAlive).1

/-- The response is reset for every request, whatever is done then. -/
def serverProcessRequestOps (root : List UInt8) (fs : FileSystem) (req : HttpRequest)
    (res : HttpResponse) (keepAlive : Bool) : List ContentOp :=
  if req.parseStatus = .error then closeContent res
  else
    match req.method with
    | .get => serverProcessGetOps root fs req res
    | .head => serverProcessHeadOps root fs req res keepAlive
    | .options => closeContent res
    | _ => closeContent res

/-- One round of the sending loop; the response is reset behind the last one, and behind a
    `write` that has failed. -/
def sendPieceOps (conn : ConnectionInfo) (content : List UInt8) (written : Option Nat) :
    List ContentOp :=
  let r := httpResponseGen (fun n (_ : Unit) => (content.take n, ())) conn.response wbufSize ()
  let sent : List ServerObs := if 0 < (wbufSize : Int) - r.size then [.sent r.out] else []
  let failed : Bool := decide (sent ≠ [] ∧ written = none)
  if failed ∨ r.isEnd then closeContent r.res else []

def serverStepOps (root : List UInt8) (c : Connection) (e : ServerEvent) : List ContentOp :=
  match c.worker, e with
  | .parsed _ _ _ _ parseEnd, .settle fs =>
      if parseEnd then
        serverProcessRequestOps root fs (httpRequestLog c.conn.request) c.conn.response true
      else []
  | .sending _ _ _, .send content written => sendPieceOps c.conn content written
  | _, _ => []

/-- The step with what it opens and closes. -/
def contentStep (root : List UInt8) (c : Connection) (e : ServerEvent) :
    Option (Connection × List ContentOp) :=
  (serverStep root c e).map fun r => (r.1, serverStepOps root c e)

/-! ## 2. The slot of the response -/

/-- The descriptor that the response owns. -/
def HttpResponse.slot (res : HttpResponse) : Option Int :=
  if 0 ≤ res.content then some res.content else none

theorem slot_none {res : HttpResponse} (h : res.slot = none) : closeContent res = [] := by
  unfold HttpResponse.slot at h
  unfold closeContent
  split_ifs at h ⊢
  rfl

theorem closeContent_oneSlot (res : HttpResponse) : OneSlot res.slot (closeContent res) none := by
  unfold HttpResponse.slot closeContent
  split_ifs
  · exact .release (.nil none)
  · exact .nil none

theorem httpResponseReset_slot (res : HttpResponse) (code : HttpStatus) :
    (httpResponseReset res code).slot = none := by
  apply if_neg
  unfold httpResponseReset
  dsimp only
  split_ifs with hopen
  · decide
  · exact hopen

/-- `-1` is written where a descriptor was closed. -/
theorem serverProcessHead_slot (root : List UInt8) (fs : FileSystem) (req : HttpRequest)
    (res : HttpResponse) (keepAlive : Bool) :
    (serverProcessHead root fs req res keepAlive).1.slot = none :=
  httpResponseReset_slot (serverProcessGet root fs req res keepAlive).1 .ok200

theorem openFile_oneSlot (fs : FileSystem) (path : List UInt8) {res : HttpResponse}
    (keepAlive : Bool) (h : res.slot = none) :
    OneSlot none (openFileOps fs path) (openFile fs path res keepAlive).1.slot := by
  have hkept : ∀ status, OneSlot none [] ({ res with status := status } : HttpResponse).slot := by
    intro status
    change OneSlot none [] res.slot
    rw [h]
    exact .nil none
  unfold openFileOps openFile
  cases fs.stat path with
  | none => exact hkept .notFound404
  | some info =>
    dsimp only
    split_ifs
    · exact hkept .notFound404
    · exact hkept .ok200
    · cases fs.openRdonly path with
      | none => exact hkept .internalServerError500
      | some fd =>
        have hslot : ({ res with content := fd } : HttpResponse).slot = some (fd : Int) :=
          if_pos (Int.natCast_nonneg fd)
        dsimp only
        rw [hslot]
        exact .acquire (.nil _)

theorem serverProcessGet_oneSlot (root : List UInt8) (fs : FileSystem) (req : HttpRequest)
    (res : HttpResponse) (keepAlive : Bool) :
    OneSlot res.slot (serverProcessGetOps root fs req res)
      (serverProcessGet root fs req res keepAlive).1.slot := by
  have hopen := openFile_oneSlot fs (servedPath root req.url) keepAlive
    (httpResponseReset_slot res .ok200)
  have hslot : (serverProcessGet root fs req res keepAlive).1.slot =
      (openFile fs (servedPath root req.url) (httpResponseReset res .ok200) keepAlive).1.slot := by
    unfold serverProcessGet
    dsimp only
    rcases strrchr (servedPath root req.url) '.'.toUInt8 with _ | dot
    all_goals rfl
  rw [hslot]
  exact (closeContent_oneSlot res).append hopen

theorem serverProcessRequest_oneSlot (root : List UInt8) (fs : FileSystem) (req : HttpRequest)
    (res : HttpResponse) (keepAlive : Bool) :
    OneSlot res.slot (serverProcessRequestOps root fs req res keepAlive)
      (serverProcessRequest root fs req res keepAlive).1.slot := by
  have hreset : ∀ code, OneSlot res.slot (closeContent res) (httpResponseReset res code).slot := by
    intro code
    rw [httpResponseReset_slot]
    exact closeContent_oneSlot res
  have hget := serverProcessGet_oneSlot root fs req res keepAlive
  unfold serverProcessRequestOps serverProcessRequest
  dsimp only
  by_cases herr : req.parseStatus = .error
  · rw [if_pos herr, if_pos herr]
    exact hreset .badRequest400
  · rw [if_neg herr, if_neg herr]
    cases req.method with
    | get => exact hget
    | head =>
      have hhead := hget.append (closeContent_oneSlot _)
      rw [← serverProcessHead_slot root fs req res keepAlive] at hhead
      exact hhead
    | options => exact hreset .ok200
    | _ => exact hreset .methodNotAllowed405

/-- What is sent does not move the descriptor. -/
theorem genRound_content {ρ : Type} (read : Nat → ρ → List UInt8 × ρ) (res : HttpResponse)
    (size : Int) (file : ρ) : (genRound read res size file).res.content = res.content := by
  unfold genRound
  cases res.genStatus with
  | version =>
    dsimp only
    split_ifs <;> rfl
  | code =>
    dsimp only
    split_ifs <;> rfl
  | headers =>
    dsimp only
    split_ifs <;> rfl
  | content =>
    dsimp only
    split_ifs <;> rfl
  | error => rfl

theorem genLoop_content {ρ : Type} (read : Nat → ρ → List UInt8 × ρ) (fuel : Nat)
    (res : HttpResponse) (size : Int) (file : ρ) :
    (genLoop read fuel res size file).res.content = res.content := by
  induction fuel generalizing res size file with
  | zero => rfl
  | succ fuel ih =>
    have hround := genRound_content read res size file
    unfold genLoop
    dsimp only
    split_ifs
    · exact (ih _ _ _).trans hround
    · exact hround

theorem httpResponseGen_slot {ρ : Type} (read : Nat → ρ → List UInt8 × ρ) (res : HttpResponse)
    (size : Int) (file : ρ) : (httpResponseGen read res size file).res.slot = res.slot := by
  have hcontent := genLoop_content read res.genStatus.rounds res size file
  unfold HttpResponse.slot httpResponseGen
  rw [hcontent]

/-! ## 3. Steps and runs -/

/-- A response is being sent. -/
def Worker.Answering : Worker → Prop
  | .sending _ _ _ => True
  | _ => False

/-- Only while a response is sent the response owns a descriptor. -/
def SlotOk (c : Connection) : Prop := ¬c.worker.Answering → c.conn.response.slot = none

theorem saveRemain_response (conn : ConnectionInfo) (rbuf : Buf UInt8 rbufSize) (remain : Nat) :
    (saveRemain conn rbuf remain).response = conn.response := by
  unfold saveRemain
  split_ifs <;> rfl

theorem settle_oneSlot {root : List UInt8} {conn : ConnectionInfo} {rbuf : Buf UInt8 rbufSize}
    {remain : Int} {rdlen : Nat} {failed parseEnd : Bool} {fs : FileSystem} {c' : Connection}
    {obs : List ServerObs}
    (h : serverStep root ⟨conn, .parsed rbuf remain rdlen failed parseEnd⟩ (.settle fs) =
      some (c', obs)) (hslot : conn.response.slot = none) :
    OneSlot conn.response.slot
      (serverStepOps root ⟨conn, .parsed rbuf remain rdlen failed parseEnd⟩ (.settle fs))
      c'.conn.response.slot ∧ SlotOk c' := by
  have hops : serverStepOps root ⟨conn, .parsed rbuf remain rdlen failed parseEnd⟩ (.settle fs) =
      if parseEnd then
        serverProcessRequestOps root fs (httpRequestLog conn.request) conn.response true
      else [] := rfl
  simp only [serverStep, Option.map_eq_some_iff, Prod.mk.injEq] at h
  obtain ⟨c₁, hsettle, rfl, -⟩ := h
  rw [hops]
  unfold settle at hsettle
  split_ifs at hsettle ⊢ with hneg hend
  · obtain rfl := Option.some.inj hsettle
    exact ⟨serverProcessRequest_oneSlot .., fun hidle => absurd trivial hidle⟩
  · obtain rfl := Option.some.inj hsettle
    exact ⟨.nil _, fun _ => hslot⟩

theorem sendPiece_oneSlot (conn : ConnectionInfo) (rbuf : Buf UInt8 rbufSize) (remain : Nat)
    (keepAlive : Bool) (content : List UInt8) (written : Option Nat) :
    OneSlot conn.response.slot (sendPieceOps conn content written)
        (sendPiece conn rbuf remain keepAlive content written).1.conn.response.slot ∧
      SlotOk (sendPiece conn rbuf remain keepAlive content written).1 := by
  let r := httpResponseGen (fun n (_ : Unit) => (content.take n, ())) conn.response wbufSize ()
  let out : List ServerObs := if 0 < (wbufSize : Int) - r.size then [.sent r.out] else []
  have hgen : r.res.slot = conn.response.slot := httpResponseGen_slot ..
  rw [← hgen]
  by_cases hlast : decide (out ≠ [] ∧ written = none) = true ∨ r.isEnd = true
  · have hops : sendPieceOps conn content written = closeContent r.res := if_pos hlast
    have hrun : sendPiece conn rbuf remain keepAlive content written =
        (⟨{ conn with
            request := httpRequestReset conn.request
            response := httpResponseReset r.res .ok200 },
          if decide (out ≠ [] ∧ written = none) then .closed
          else if keepAlive then .recving rbuf remain else .closed⟩, out ++ [.answered]) :=
      if_pos hlast
    have hreset := httpResponseReset_slot r.res .ok200
    rw [hops, hrun]
    refine ⟨?_, fun _ => hreset⟩
    dsimp only
    rw [hreset]
    exact closeContent_oneSlot r.res
  · have hops : sendPieceOps conn content written = [] := if_neg hlast
    have hrun : sendPiece conn rbuf remain keepAlive content written =
        (⟨{ conn with response := r.res }, .sending rbuf remain keepAlive⟩, out) := if_neg hlast
    rw [hops, hrun]
    exact ⟨.nil _, fun hidle => absurd trivial hidle⟩

/-- **A step opens and closes through the slot of the response.** -/
theorem serverStep_oneSlot {root : List UInt8} {c c' : Connection} {e : ServerEvent}
    {obs : List ServerObs} (h : serverStep root c e = some (c', obs)) (hc : SlotOk c) :
    OneSlot c.conn.response.slot (serverStepOps root c e) c'.conn.response.slot ∧ SlotOk c' := by
  have hsend : ∀ {conn rbuf remain keepAlive content written},
      serverStep root ⟨conn, .sending rbuf remain keepAlive⟩ (.send content written) =
        some (c', obs) →
      OneSlot conn.response.slot (sendPieceOps conn content written) c'.conn.response.slot ∧
        SlotOk c' := by
    intro conn rbuf remain keepAlive content written hstep
    have hpiece := sendPiece_oneSlot conn rbuf remain keepAlive content written
    rwa [Option.some.inj hstep] at hpiece
  cases serverStep_move h with
  | activate conn stack => exact ⟨.nil _, fun _ => hc id⟩
  | refused conn rbuf remain bs req hne hroom hv herr => exact ⟨.nil _, fun _ => hc id⟩
  | taken conn rbuf remain bs req rdlen isEnd hne hroom hv => exact ⟨.nil _, fun _ => hc id⟩
  | wouldBlock conn rbuf remain =>
    dsimp only [SlotOk]
    rw [saveRemain_response]
    exact ⟨.nil _, fun _ => hc id⟩
  | close conn rbuf remain r => exact ⟨.nil _, fun _ => hc id⟩
  | goOn conn rbuf remain rdlen failed fs hpos => exact settle_oneSlot h (hc id)
  | respond conn rbuf remain rdlen failed fs request response hpos =>
    exact settle_oneSlot h (hc id)
  | piece conn rbuf remain keepAlive content written response out hout => exact hsend h
  | lastPiece conn rbuf remain content written response out hout => exact hsend h
  | giveUp conn conn' rbuf remain keepAlive content written out hout => exact hsend h

/-- The operations of a whole run. -/
theorem run_oneSlot {root : List UInt8} {es : List ServerEvent} {c : Connection}
    {r : Connection × List ServerObs} (h : Run.run (serverStep root) es c = some r)
    (hc : SlotOk c) :
    ∃ ops, Run.run (contentStep root) es c = some (r.1, ops) ∧
      OneSlot c.conn.response.slot ops r.1.conn.response.slot ∧ SlotOk r.1 := by
  induction es generalizing c r with
  | nil =>
    cases h
    exact ⟨[], rfl, .nil _, hc⟩
  | cons e es ih =>
    obtain ⟨⟨c₁, obs⟩, r₂, hstep, htail, rfl⟩ := Run.run_cons.mp h
    obtain ⟨hslot, hc₁⟩ := serverStep_oneSlot hstep hc
    obtain ⟨ops, hrun, hops, hlast⟩ := ih htail hc₁
    have hcontent : contentStep root c e = some (c₁, serverStepOps root c e) := by
      rw [contentStep, hstep]
      rfl
    exact ⟨_, Run.run_cons.mpr ⟨_, _, hcontent, hrun, rfl⟩, hslot.append hops, hlast⟩

/-- **No descriptor is leaked or closed twice.**  In every run of a connection nothing is closed
    that is not open, and at most one descriptor is open at a time; it is the one whose content
    is being sent.  Where the next request is read and where an activation has ended none is
    open: each was closed by the operation behind the one that opened it, and no reset to come
    closes it again. -/
theorem serverServClient_content (root : List UInt8) (dataBuffer : Buf UInt8 dataBufferSize)
    (es : List ServerEvent) (c : Connection) (obs : List ServerObs)
    (h : Run.run (serverStep root) es (.accepted dataBuffer) = some (c, obs)) :
    ∃ ops, Run.run (contentStep root) es (.accepted dataBuffer) = some (c, ops) ∧
      (∀ before, before <+: ops → ∃ fds, heldAfter ∅ before = some fds ∧ fds.card ≤ 1) ∧
      heldAfter ∅ ops = some c.conn.response.slot.toFinset ∧
      (¬c.worker.Answering →
        heldAfter ∅ ops = some ∅ ∧ Paired ops ∧ closeContent c.conn.response = []) := by
  obtain ⟨ops, hrun, hops, hc⟩ := run_oneSlot h fun _ => rfl
  have hops : OneSlot none ops c.conn.response.slot := hops
  refine ⟨ops, hrun, fun before hbefore => hops.held_le_one hbefore, hops.held, ?_⟩
  intro hidle
  have hslot := hc hidle
  have hclosed := slot_none hslot
  rw [hslot] at hops
  exact ⟨hops.held, hops.paired, hclosed⟩

/-- A file is requested, and sent in two rounds. -/
def fileEvents : List ServerEvent :=
  [.activate (zeroBuf _), .recv (.data (bytes "GET / HTTP/1.1\r\n\r\n")),
    .settle ⟨fun _ => some ⟨true, 5⟩, fun _ => some 7⟩, .send (bytes "hello") (some 1),
    .send [] (some 1), .recv .wouldBlock]

theorem serverServClient_content_get :
    ∃ c ops, Run.run (contentStep []) fileEvents (.accepted (zeroBuf _)) = some (c, ops) ∧
      ops = [.acquire 7, .release 7] ∧ c.worker = .waiting ∧ heldAfter ∅ ops = some ∅ := by
  obtain ⟨c, obs, hrun, hw⟩ : ∃ c obs,
      Run.run (serverStep []) fileEvents (.accepted (zeroBuf _)) = some (c, obs) ∧
        c.worker = .waiting := ⟨_, _, rfl, rfl⟩
  obtain ⟨ops, hops, -, -, hclosed⟩ := serverServClient_content [] _ fileEvents c obs hrun
  have hall : (Run.run (contentStep []) fileEvents (.accepted (zeroBuf _))).map Prod.snd =
      some [.acquire 7, .release 7] := rfl
  rw [hops] at hall
  refine ⟨c, ops, hops, Option.some.inj hall, hw, (hclosed ?_).1⟩
  rw [hw]
  exact id

end OServer
