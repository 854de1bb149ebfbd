/-
  OServer/ServerRuns.lean
  =======================
  **Runs of a connection: how much is left, and what it is.**

    * `serverServClient_remain` — when `remain` stays in the buffer, and what the
      compaction keeps;
    * `serverServClient_saved`  — when the bytes saved between two activations are the
      bytes that are received and not consumed, by what the activation was started with.
-/
import OServer.HttpRequestCuts
import OServer.Server
import Mathlib.Algebra.BigOperators.Group.List.Basic

namespace OServer

open CString Resume Run

/-! ## 1. History -/

def ServerObs.bytes : ServerObs → List UInt8
  | .received bs => bs
  | _ => []

def ServerObs.rdlen : ServerObs → Nat
  | .parsed _ _ rdlen => rdlen
  | _ => 0

/-- All that `recv` has delivered. -/
def received (log : List ServerObs) : List UInt8 := log.flatMap ServerObs.bytes

/-- How much of it the calls of the parser have consumed. -/
def consumed (log : List ServerObs) : Nat := (log.map ServerObs.rdlen).sum

/-- What is received and not consumed yet. -/
def pending (log : List ServerObs) : List UInt8 := (received log).drop (consumed log)

theorem received_append (log obs : List ServerObs) :
    received (log ++ obs) = received log ++ received obs :=
  List.flatMap_append

theorem consumed_append (log obs : List ServerObs) :
    consumed (log ++ obs) = consumed log + consumed obs := by
  simp only [consumed, List.map_append, List.sum_append]

/-- Neither a `recv` nor a call of the parser. -/
def Quiet (obs : List ServerObs) : Prop :=
  ∀ o ∈ obs, (∃ bs, o = .sent bs) ∨ o = .answered

/-- A count that ignores what is sent does not notice them. -/
theorem Quiet.foldl_eq {α : Type} {f : α → ServerObs → α} {obs : List ServerObs} (h : Quiet obs)
    (hsent : ∀ x bs, f x (.sent bs) = x) (hans : ∀ x, f x .answered = x) (x : α) :
    obs.foldl f x = x := by
  induction obs generalizing x with
  | nil => rfl
  | cons o obs ih =>
    have hrest := ih fun o ho => h o (List.mem_cons_of_mem _ ho)
    rcases h o List.mem_cons_self with ⟨bs, rfl⟩ | rfl
    · rw [List.foldl_cons, hsent, hrest]
    · rw [List.foldl_cons, hans, hrest]

theorem Quiet.received_eq {obs : List ServerObs} (h : Quiet obs) : received obs = [] := by
  apply List.flatMap_eq_nil_iff.mpr
  intro o ho
  rcases h o ho with ⟨bs, rfl⟩ | rfl <;> rfl

theorem Quiet.consumed_eq {obs : List ServerObs} (h : Quiet obs) : consumed obs = 0 := by
  apply List.sum_eq_zero
  intro n hn
  rcases List.mem_map.mp hn with ⟨o, ho, rfl⟩
  rcases h o ho with ⟨bs, rfl⟩ | rfl <;> rfl

/-- `bs` is what is received and not consumed. -/
def Holds (bs : List UInt8) (log : List ServerObs) : Prop :=
  ∃ done, done.length = consumed log ∧ received log = done ++ bs

theorem Holds.eq_pending {bs : List UInt8} {log : List ServerObs} (h : Holds bs log) :
    bs = pending log := by
  rcases h with ⟨done, hlen, hrec⟩
  rw [pending, hrec, ← hlen, List.drop_left]

theorem Holds.quiet {bs : List UInt8} {log obs : List ServerObs} (h : Holds bs log)
    (hobs : Quiet obs) : Holds bs (log ++ obs) := by
  rw [Holds, received_append, consumed_append, hobs.received_eq, hobs.consumed_eq, List.append_nil,
    Nat.add_zero]
  exact h

/-- A call of the parser on what is left and what `recv` delivers. -/
theorem Holds.call {left bs : List UInt8} {log : List ServerObs} (h : Holds left log)
    (st : ParseStatus) (data : List UInt8) {rdlen : Nat} (hle : rdlen ≤ (left ++ bs).length) :
    Holds ((left ++ bs).drop rdlen) (log ++ [.received bs, .parsed st data rdlen]) := by
  rcases h with ⟨done, hlen, hrec⟩
  refine ⟨done ++ (left ++ bs).take rdlen, ?_, ?_⟩
  · rw [List.length_append, List.length_take, Nat.min_eq_left hle, hlen, consumed_append]
    simp [consumed, ServerObs.rdlen]
  · rw [received_append, hrec, List.append_assoc, List.append_assoc, List.take_append_drop]
    simp [received, ServerObs.bytes]

/-- A round of the sending loop is quiet, whether it is the last one or not. -/
theorem quiet_sent {out : List ServerObs} (h : ∀ o ∈ out, ∃ bs, o = .sent bs) : Quiet out :=
  fun o ho => Or.inl (h o ho)

theorem quiet_answered {out : List ServerObs} (h : ∀ o ∈ out, ∃ bs, o = .sent bs) :
    Quiet (out ++ [.answered]) := by
  intro o ho
  rcases List.mem_append.mp ho with ho | ho
  · exact Or.inl (h o ho)
  · exact Or.inr (List.mem_singleton.mp ho)

theorem quiet_sent_one (out : List UInt8) : Quiet [.sent out] :=
  quiet_sent fun _ ho => ⟨out, List.mem_singleton.mp ho⟩

theorem quiet_answered_one : Quiet [.answered] :=
  fun _ ho => Or.inr (List.mem_singleton.mp ho)

def Accepted (c : Connection) : Prop := ∃ buf, c = .accepted buf

/-- A connection and its history, in a run of which the environment keeps to `allow`. -/
def Served (root : List UInt8) (allow : Connection × List ServerObs → ServerEvent → Prop)
    (x : Connection × List ServerObs) : Prop :=
  Reachable (logged (serverStep root)) allow (fun x => Accepted x.1 ∧ x.2 = []) x

theorem Served.start (root : List UInt8)
    (allow : Connection × List ServerObs → ServerEvent → Prop) (buf : Buf UInt8 dataBufferSize) :
    Served root allow (.accepted buf, []) :=
  .init ⟨⟨buf, rfl⟩, rfl⟩

theorem Served.step {root : List UInt8} {allow : Connection × List ServerObs → ServerEvent → Prop}
    {c c' : Connection} {log obs : List ServerObs} (h : Served root allow (c, log))
    (e : ServerEvent) (ha : allow (c, log) e) (hstep : serverStep root c e = some (c', obs)) :
    Served root allow (c', log ++ obs) := by
  apply Reachable.step (r := ((c', log ++ obs), obs)) h ha
  simp only [logged, hstep, Option.map_some]

/-- Memory for the runs on fixed inputs. -/
def zeroBuf (n : Nat) : Buf UInt8 n := ⟨List.replicate n 0, List.length_replicate⟩

/-! ## 2. How much is left -/

/-- What is left and what was consumed fit in `rbuf`, in every run. -/
def Sized : Worker → Prop
  | .recving _ remain => remain ≤ rbufSize
  | .parsed _ remain rdlen failed _ =>
      remain + rdlen ≤ rbufSize ∧ (failed = true → 0 ≤ remain)
  | .sending _ remain _ => remain ≤ rbufSize
  | .waiting => True
  | .closed => True

theorem Sized.fits {rbuf : Buf UInt8 rbufSize} {remain : Int} {rdlen : Nat}
    {failed parseEnd : Bool} (h : Sized (.parsed rbuf remain rdlen failed parseEnd))
    (hpos : 0 ≤ remain) : rdlen + remain.toNat ≤ rbufSize := by
  have hle := h.1
  omega

theorem ServerMove.sized {c c' : Connection} {e : ServerEvent} {obs : List ServerObs}
    (h : ServerMove c e c' obs) (hc : Sized c.worker) : Sized c'.worker := by
  cases h with
  | activate conn stack =>
    have hle := conn.dataLen_le
    simp only [Sized, dataBufferSize, rbufSize] at hle ⊢
    omega
  | refused conn rbuf remain bs req hne hroom hv herr =>
    simp only [Sized] at hc ⊢
    omega
  | taken conn rbuf remain bs req rdlen isEnd hne hroom hv =>
    simp only [Sized, Bool.false_eq_true, false_implies, and_true] at hc ⊢
    omega
  | wouldBlock conn rbuf remain => trivial
  | close conn rbuf remain r => trivial
  | goOn conn rbuf remain rdlen failed fs hpos =>
    simp only [Sized] at hc ⊢
    omega
  | respond conn rbuf remain rdlen failed fs request response hpos =>
    simp only [Sized] at hc ⊢
    omega
  | piece conn rbuf remain keepAlive content written response out hout => exact hc
  | lastPiece conn rbuf remain content written response out hout => exact hc
  | giveUp conn conn' rbuf remain keepAlive content written out hout => trivial

theorem Served.sized {root : List UInt8}
    {allow : Connection × List ServerObs → ServerEvent → Prop} {x : Connection × List ServerObs}
    (h : Served root allow x) : Sized x.1.worker := by
  refine h.of_logged.invariant (P := fun c => Sized c.worker) ?_ ?_
  · rintro c ⟨buf, rfl⟩
    trivial
  · rintro c e ⟨c', obs⟩ hc - hstep
    exact (serverStep_move hstep).sized hc

/-- No `recv` fills the buffer up to the space behind a target. -/
def NoUrlEnd (c : Connection) : ServerEvent → Prop
  | .recv (.data bs) =>
      match c.worker with
      | .recving rbuf remain => ¬ EndsAtUrl c.conn.request (presented rbuf remain bs)
      | _ => True
  | _ => True

/-- `remain` is an amount of bytes in `rbuf`, and the compaction moves those that are not
    consumed to the front. -/
def RemainOk : Worker → Prop
  | .recving _ remain => remain ≤ rbufSize
  | .parsed rbuf remain rdlen failed _ =>
      0 ≤ remain ∧ remain ≤ rbufSize ∧
        (failed = false → rdlen + remain ≤ rbufSize ∧
          (compact rbuf rdlen remain.toNat).read 0 remain.toNat = rbuf.read rdlen remain.toNat)
  | .sending _ remain _ => remain ≤ rbufSize
  | .waiting => True
  | .closed => True

theorem ServerMove.remainOk {c c' : Connection} {e : ServerEvent} {obs : List ServerObs}
    (h : ServerMove c e c' obs) (hsized' : Sized c'.worker) (hallow : NoUrlEnd c e) :
    RemainOk c'.worker := by
  cases h with
  | activate conn stack => exact hsized'
  | refused conn rbuf remain bs req hne hroom hv herr =>
    rcases hsized' with ⟨hle, -⟩
    exact ⟨Int.natCast_nonneg remain, by omega, fun h => (nomatch h)⟩
  | taken conn rbuf remain bs req rdlen isEnd hne hroom hv =>
    have hdata : (presented rbuf remain bs).length = remain + bs.length := by
      rw [presented_eq rbuf hroom, List.length_append, rbuf.read_length (by omega)]
    have hbound : rdlen ≤ (presented rbuf remain bs).length := by
      have hcons := requestVerdict_consumed_le hallow
      rw [hv] at hcons
      cases isEnd with
      | true => exact hcons
      | false => exact hcons
    rcases hsized' with ⟨hle, -⟩
    exact ⟨by omega, by omega, fun _ => ⟨by omega, read_compact (by omega)⟩⟩
  | wouldBlock conn rbuf remain => trivial
  | close conn rbuf remain r => trivial
  | goOn conn rbuf remain rdlen failed fs hpos => exact hsized'
  | respond conn rbuf remain rdlen failed fs request response hpos => exact hsized'
  | piece conn rbuf remain keepAlive content written response out hout => exact hsized'
  | lastPiece conn rbuf remain content written response out hout => exact hsized'
  | giveUp conn conn' rbuf remain keepAlive content written out hout => trivial

/-- **`remain` stays in the buffer exactly when no call of the parser ends behind a
    target**: for one call, and for the runs whose calls do not. -/
theorem serverServClient_remain (root : List UInt8) :
    (∀ (req : HttpRequest) (data : List UInt8), data ≠ [] →
      (((httpRequestParse req data).ret = 0 → (httpRequestParse req data).rdlen ≤ data.length) ↔
        ¬ EndsAtUrl req data)) ∧
    ∀ c, Reachable (serverStep root) NoUrlEnd Accepted c → RemainOk c.worker := by
  refine ⟨fun req data _ => httpRequestParse_rdlen_iff req data, ?_⟩
  intro c h
  refine (h.invariant (P := fun c => Sized c.worker ∧ RemainOk c.worker) ?_ ?_).2
  · rintro c ⟨buf, rfl⟩
    exact ⟨trivial, trivial⟩
  · rintro c e ⟨c', obs⟩ ⟨hsized, -⟩ hallow hstep
    have hmove := serverStep_move hstep
    have hsized' := hmove.sized hsized
    exact ⟨hsized', hmove.remainOk hsized' hallow⟩

/-- A connection that has received `GET`. -/
theorem serverServClient_remain_get : RemainOk
    (recvData (Connection.accepted (zeroBuf _)).conn (zeroBuf _) 0 (bytes "GET")).1.worker := by
  refine (serverServClient_remain []).2 _ (.step (a := ServerEvent.recv (.data (bytes "GET")))
    (.step (a := ServerEvent.activate (zeroBuf _)) (.init ⟨zeroBuf _, rfl⟩) trivial rfl) ?_ rfl)
  rintro ⟨pre, u, hdata, -⟩
  have hlast : (bytes "GET").getLast? = some SP := by
    change bytes "GET" = _ at hdata
    rw [hdata, ← List.append_assoc, List.getLast?_append]
    rfl
  exact absurd hlast (by decide)

/-- On `GET / ` eight of six bytes are consumed, and two less than nothing are left. -/
theorem serverServClient_not_remain :
    ¬ ((httpRequestParse httpRequestInit (bytes "GET / ")).ret = 0 →
      (httpRequestParse httpRequestInit (bytes "GET / ")).rdlen ≤ (bytes "GET / ").length) ∧
    ∃ c, Reachable (serverStep []) (fun _ _ => True) Accepted c ∧ ¬ RemainOk c.worker := by
  constructor
  · have hrun : (httpRequestParse httpRequestInit (bytes "GET / ")).ret = 0 ∧
        (httpRequestParse httpRequestInit (bytes "GET / ")).rdlen = 8 := ⟨rfl, rfl⟩
    rw [hrun.2]
    intro h
    exact absurd (h hrun.1) (by decide)
  · refine ⟨_, .step (a := ServerEvent.recv (.data (bytes "GET / ")))
      (.step (a := ServerEvent.activate (zeroBuf _)) (.init ⟨zeroBuf _, rfl⟩) trivial rfl)
      trivial rfl, ?_⟩
    rintro ⟨hpos, -⟩
    exact absurd hpos (by decide)

/-! ## 3. Annotations -/

theorem read_presented {rbuf : Buf UInt8 rbufSize} {remain rdlen : Nat} {bs : List UInt8}
    (hle : rdlen ≤ remain + bs.length) :
    (rbuf.write remain bs).read rdlen ((remain : Int) + (bs.length - rdlen)).toNat =
      (presented rbuf remain bs).drop rdlen := by
  have hlen : bs.length + remain = rdlen + ((remain : Int) + (bs.length - rdlen)).toNat := by omega
  have hdrop := (rbuf.write remain bs).drop_read 0 rdlen
    ((remain : Int) + (bs.length - rdlen)).toNat
  rw [← hlen, Nat.zero_add] at hdrop
  exact hdrop.symm

/-- Assertions: one about the history that holds everywhere, and one for each place of the
    worker, about the request that is being parsed, the bytes that are not consumed yet and
    the history.  While a response is sent there is no request. -/
structure Annotation where
  always : List ServerObs → Prop
  idle : HttpRequest → List UInt8 → List ServerObs → Prop
  reading : HttpRequest → List UInt8 → List ServerObs → Prop
  answering : List UInt8 → List ServerObs → Prop

/-- The assertions where the worker is.  A refused request is answered before the connection
    is closed; of a negative `remain` nothing is asserted. -/
def Annotation.At (I : Annotation) (c : Connection) (log : List ServerObs) : Prop :=
  I.always log ∧
    match c.worker with
    | .waiting => I.idle c.conn.request c.conn.saved log
    | .recving rbuf remain => I.reading c.conn.request (rbuf.read 0 remain) log
    | .parsed rbuf remain rdlen failed parseEnd =>
        if failed then parseEnd = true ∧ c.conn.request.parseStatus = .error
        else 0 ≤ remain →
          if parseEnd then I.answering (rbuf.read rdlen remain.toNat) log
          else I.reading c.conn.request (rbuf.read rdlen remain.toNat) log
    | .sending rbuf remain keepAlive => keepAlive = true → I.answering (rbuf.read 0 remain) log
    | .closed => True

/-- What has to be shown of the assertions. -/
structure Annotation.Verified (I : Annotation)
    (allow : Connection × List ServerObs → ServerEvent → Prop) : Prop where
  start : I.always [] ∧ I.idle httpRequestInit [] []
  load : ∀ {conn stack log}, I.idle conn.request conn.saved log →
    allow (⟨conn, .waiting⟩, log) (.activate stack) → I.reading conn.request conn.saved log
  call : ∀ {req left log bs} (st n), I.reading req left log → I.always log →
    I.always (log ++ [.received bs, .parsed st (left ++ bs) n])
  more : ∀ {req left log bs req' n}, I.reading req left log → bs ≠ [] →
    requestVerdict req (left ++ bs) = .more req' n → n ≤ (left ++ bs).length →
    I.reading req' ((left ++ bs).drop n)
      (log ++ [.received bs, .parsed req.parseStatus (left ++ bs) n])
  done : ∀ {req left log bs req' n}, I.reading req left log → bs ≠ [] →
    requestVerdict req (left ++ bs) = .done req' n → n ≤ (left ++ bs).length →
    I.answering ((left ++ bs).drop n)
      (log ++ [.received bs, .parsed req.parseStatus (left ++ bs) n])
  quiet : ∀ {log obs}, Quiet obs → I.always log → I.always (log ++ obs)
  sent : ∀ {left log} (out), I.answering left log → I.answering left (log ++ [.sent out])
  answered : ∀ {left log}, I.answering left log →
    I.reading httpRequestInit left (log ++ [.answered])
  park : ∀ {conn rbuf remain log}, I.reading conn.request (rbuf.read 0 remain) log →
    remain ≤ rbufSize → allow (⟨conn, .recving rbuf remain⟩, log) (.recv .wouldBlock) →
    I.idle conn.request (saveRemain conn rbuf remain).saved log

section Verified
variable {I : Annotation} {allow : Connection × List ServerObs → ServerEvent → Prop}

theorem Annotation.Verified.sending (hI : I.Verified allow) {left : List UInt8}
    {log out : List ServerObs} (h : I.answering left log) (hout : ∀ o ∈ out, ∃ bs, o = .sent bs) :
    I.answering left (log ++ out) := by
  induction out generalizing log with
  | nil => rwa [List.append_nil]
  | cons o out ih =>
    rcases hout o List.mem_cons_self with ⟨bs, rfl⟩
    rw [List.append_cons]
    exact ih (hI.sent bs h) fun o ho => hout o (List.mem_cons_of_mem _ ho)

/-- **Every step goes from assertion to assertion.** -/
theorem ServerMove.at (hI : I.Verified allow) {c c' : Connection} {e : ServerEvent}
    {obs log : List ServerObs} (h : ServerMove c e c' obs) (hsized : Sized c.worker)
    (ha : allow (c, log) e) (hc : I.At c log) : I.At c' (log ++ obs) := by
  rcases hc with ⟨hlog, hc⟩
  cases h with
  | activate conn stack =>
    have hc : I.idle conn.request conn.saved log := hc
    rw [List.append_nil]
    refine ⟨hlog, ?_⟩
    change I.reading conn.request ((loadSaved conn stack).read 0 conn.dataLen) log
    rw [read_loadSaved]
    exact hI.load hc ha
  | refused conn rbuf remain bs req hne hroom hv herr =>
    rw [presented_eq rbuf hroom]
    exact ⟨hI.call _ _ hc hlog, rfl, herr⟩
  | taken conn rbuf remain bs req rdlen isEnd hne hroom hv =>
    have hlen : (rbuf.read 0 remain ++ bs).length = remain + bs.length := by
      rw [List.length_append, rbuf.read_length (by omega)]
    rw [presented_eq rbuf hroom] at hv ⊢
    refine ⟨hI.call _ _ hc hlog, ?_⟩
    intro hpos
    rw [read_presented (by omega), presented_eq rbuf hroom]
    cases isEnd with
    | true => exact hI.done hc hne hv (by omega)
    | false => exact hI.more hc hne hv (by omega)
  | wouldBlock conn rbuf remain =>
    rw [List.append_nil]
    refine ⟨hlog, ?_⟩
    change I.idle (saveRemain conn rbuf remain).request _ log
    rw [saveRemain_request]
    exact hI.park hc hsized ha
  | close conn rbuf remain r =>
    rw [List.append_nil]
    exact ⟨hlog, trivial⟩
  | goOn conn rbuf remain rdlen failed fs hpos =>
    cases failed with
    | true => exact absurd hc.1 Bool.false_ne_true
    | false =>
      have hc : 0 ≤ remain → I.reading conn.request (rbuf.read rdlen remain.toNat) log := hc
      rw [List.append_nil]
      refine ⟨hlog, ?_⟩
      change I.reading conn.request ((compact rbuf rdlen remain.toNat).read 0 remain.toNat) log
      rw [read_compact (hsized.fits (hpos rfl))]
      exact hc (hpos rfl)
  | respond conn rbuf remain rdlen failed fs request response hpos =>
    rw [List.append_nil]
    refine ⟨hlog, ?_⟩
    intro hkeep
    cases failed with
    | true => exact absurd hc.2 (of_decide_eq_true hkeep)
    | false =>
      have hc : 0 ≤ remain → I.answering (rbuf.read rdlen remain.toNat) log := hc
      change I.answering ((compact rbuf rdlen remain.toNat).read 0 remain.toNat) log
      rw [read_compact (hsized.fits (hpos rfl))]
      exact hc (hpos rfl)
  | piece conn rbuf remain keepAlive content written response out hout =>
    exact ⟨hI.quiet (quiet_sent hout) hlog, fun hkeep => hI.sending (hc hkeep) hout⟩
  | lastPiece conn rbuf remain content written response out hout =>
    refine ⟨hI.quiet (quiet_answered hout) hlog, ?_⟩
    rw [← List.append_assoc]
    exact hI.answered (hI.sending (hc rfl) hout)
  | giveUp conn conn' rbuf remain keepAlive content written out hout =>
    exact ⟨hI.quiet (quiet_answered hout) hlog, trivial⟩

/-- **In every run, the assertion holds where the worker is.** -/
theorem Annotation.Verified.served (hI : I.Verified allow) {root : List UInt8}
    {x : Connection × List ServerObs} (h : Served root allow x) : I.At x.1 x.2 := by
  refine (Reachable.invariant (P := fun x => Sized x.1.worker ∧ I.At x.1 x.2) ?_ ?_ h).2
  · rintro ⟨c, log⟩ ⟨⟨buf, rfl⟩, hlog⟩
    obtain rfl : log = [] := hlog
    exact ⟨trivial, hI.start⟩
  · rintro ⟨c, log⟩ e r ⟨hsized, hc⟩ ha hr
    rcases logged_eq_some hr with ⟨c', obs, hstep, rfl⟩
    have hmove := serverStep_move hstep
    exact ⟨hmove.sized hsized, hmove.at hI hsized ha hc⟩

end Verified

/-! ## 4. What is left -/

/-- Every call of the parser was given the bytes received and not consumed before it. -/
def Presented (log : List ServerObs) : Prop :=
  ∀ (i : Nat) (st : ParseStatus) (data : List UInt8) (rdlen : Nat),
    log[i]? = some (.parsed st data rdlen) → data = pending (log.take i)

theorem Presented.append {log obs : List ServerObs} (h : Presented log)
    (hobs : ∀ (i : Nat) (st : ParseStatus) (data : List UInt8) (rdlen : Nat),
      obs[i]? = some (.parsed st data rdlen) → data = pending (log ++ obs.take i)) :
    Presented (log ++ obs) := by
  intro i st data rdlen hi
  rcases Nat.lt_or_ge i log.length with hlt | hge
  · rw [List.getElem?_append_left hlt] at hi
    rw [List.take_append_of_le_length hlt.le]
    exact h i st data rdlen hi
  · rw [List.getElem?_append_right hge] at hi
    rw [List.take_append, List.take_of_length_le hge]
    exact hobs _ st data rdlen hi

theorem Presented.quiet {log obs : List ServerObs} (h : Presented log) (hobs : Quiet obs) :
    Presented (log ++ obs) := by
  apply h.append
  intro i st data rdlen hi
  rcases hobs _ (List.mem_of_getElem? hi) with ⟨bs, hsent⟩ | hans
  · cases hsent
  · cases hans

theorem Presented.call {left bs : List UInt8} {log : List ServerObs} (h : Presented log)
    (hleft : Holds left log) (st : ParseStatus) (rdlen : Nat) :
    Presented (log ++ [.received bs, .parsed st (left ++ bs) rdlen]) := by
  apply h.append
  intro i st' data rdlen' hi
  match i, hi with
  | 1, hi =>
    cases hi
    rcases hleft with ⟨done, hlen, hrec⟩
    have hnow : Holds (left ++ bs) (log ++ [.received bs]) := by
      refine ⟨done, ?_, ?_⟩
      · rw [hlen, consumed_append]
        rfl
      · rw [received_append, hrec, List.append_assoc]
        simp [received, ServerObs.bytes]
    exact hnow.eq_pending

/-- The bytes at hand are those that are received and not consumed. -/
def keeping : Annotation where
  always := Presented
  idle _ saved log := Holds saved log
  reading _ left log := Holds left log
  answering left log := Holds left log

/-- When the worker gives the connection back, no more is left than can be saved, and
    `data_len` is what it has to be when nothing is left. -/
def Saves (c : Connection) : ServerEvent → Prop
  | .recv .wouldBlock =>
      match c.worker with
      | .recving _ remain => remain ≤ dataBufferSize ∧ (remain = 0 → c.conn.dataLen = 0)
      | _ => True
  | _ => True

theorem keeping_verified : keeping.Verified fun x => Saves x.1 where
  start := ⟨fun _ _ _ _ hi => (nomatch hi), [], rfl, rfl⟩
  load h _ := h
  call st n h hlog := hlog.call h st n
  more h _ _ hle := h.call _ _ hle
  done h _ _ hle := h.call _ _ hle
  quiet hobs hlog := hlog.quiet hobs
  sent out h := h.quiet (quiet_sent_one out)
  answered h := h.quiet quiet_answered_one
  park := by
    intro conn rbuf remain log h hsized ha
    have hsaved := (saveRemain_saved_iff conn rbuf hsized).mpr ha
    rw [hsaved]
    exact h

/-! ## 5. What an activation is started with -/

/-- A connection, and the length of the bytes that its last activation was started with. -/
structure Activation where
  connection : Connection
  loaded : Nat

/-- `loaded` is taken down when a worker starts, and stays until the next one does. -/
def Activation.note (a : Activation) : ServerEvent → Nat
  | .activate _ => a.connection.conn.dataLen
  | _ => a.loaded

def activationStep (root : List UInt8) (a : Activation) (e : ServerEvent) :
    Option (Activation × List ServerObs) :=
  (serverStep root a.connection e).map fun r => (⟨r.1, a.note e⟩, r.2)

/-- When the worker gives the connection back, no more is left than can be saved, and
    something is left if it was started with saved bytes. -/
def LeavesSome (a : Activation) : ServerEvent → Prop
  | .recv .wouldBlock =>
      match a.connection.worker with
      | .recving _ remain => remain ≤ dataBufferSize ∧ (remain = 0 → a.loaded = 0)
      | _ => True
  | _ => True

/-- The runs of which all activations end so, with their history. -/
def Activated (root : List UInt8) (x : Activation × List ServerObs) : Prop :=
  Reachable (logged (activationStep root)) (fun x => LeavesSome x.1)
    (fun x => Accepted x.1.connection ∧ x.2 = []) x

theorem Activated.start (root : List UInt8) (buf : Buf UInt8 dataBufferSize) :
    Activated root (⟨.accepted buf, 0⟩, []) :=
  .init ⟨⟨buf, rfl⟩, rfl⟩

theorem Activated.step {root : List UInt8} {a : Activation} {c' : Connection}
    {log obs : List ServerObs} (h : Activated root (a, log)) (e : ServerEvent)
    (ha : LeavesSome a e) (hstep : serverStep root a.connection e = some (c', obs)) :
    Activated root (⟨c', a.note e⟩, log ++ obs) := by
  apply Reachable.step (r := ((⟨c', a.note e⟩, log ++ obs), obs)) h ha
  simp only [logged, activationStep, hstep, Option.map_some]

/-- The length that was loaded is still in `data_len`: nothing but the end of an activation
    writes it. -/
def Activation.Kept (a : Activation) : Prop :=
  match a.connection.worker with
  | .waiting => True
  | .closed => True
  | _ => a.connection.conn.dataLen = a.loaded

theorem ServerMove.kept {a : Activation} {c' : Connection} {e : ServerEvent}
    {obs : List ServerObs} (h : ServerMove a.connection e c' obs) (ha : a.Kept) :
    (⟨c', a.note e⟩ : Activation).Kept := by
  rcases a with ⟨c, loaded⟩
  cases h with
  | activate conn stack => rfl
  | refused conn rbuf remain bs req hne hroom hv herr => exact ha
  | taken conn rbuf remain bs req rdlen isEnd hne hroom hv => exact ha
  | wouldBlock conn rbuf remain => trivial
  | close conn rbuf remain r => trivial
  | goOn conn rbuf remain rdlen failed fs hpos => exact ha
  | respond conn rbuf remain rdlen failed fs request response hpos => exact ha
  | piece conn rbuf remain keepAlive content written response out hout => exact ha
  | lastPiece conn rbuf remain content written response out hout => exact ha
  | giveUp conn conn' rbuf remain keepAlive content written out hout => trivial

theorem Activated.kept {root : List UInt8} {x : Activation × List ServerObs}
    (h : Activated root x) : x.1.Kept := by
  refine Reachable.invariant (P := fun x : Activation × List ServerObs => x.1.Kept) ?_ ?_ h
  · rintro ⟨⟨c, loaded⟩, log⟩ ⟨⟨buf, rfl⟩, -⟩
    trivial
  · rintro ⟨a, log⟩ e r ha - hr
    obtain ⟨a', obs, hstep, rfl⟩ := logged_eq_some hr
    simp only [activationStep, Option.map_eq_some_iff, Prod.mk.injEq] at hstep
    obtain ⟨⟨c', obs'⟩, hstep, rfl, rfl⟩ := hstep
    exact (serverStep_move hstep).kept ha

/-- So the condition on the start of an activation is one on its end. -/
theorem Activation.Kept.saves_iff {a : Activation} (h : a.Kept) (e : ServerEvent) :
    LeavesSome a e ↔ Saves a.connection e := by
  rcases a with ⟨⟨conn, worker⟩, loaded⟩
  unfold LeavesSome Saves
  split
  · cases worker with
    | recving rbuf remain =>
      have hkept : conn.dataLen = loaded := h
      dsimp only
      rw [hkept]
    | _ => exact Iff.rfl
  · exact Iff.rfl

theorem Activated.served {root : List UInt8} {x : Activation × List ServerObs}
    (h : Activated root x) : Served root (fun x => Saves x.1) (x.1.connection, x.2) := by
  refine Reachable.map (fun x : Activation × List ServerObs => (x.1.connection, x.2)) ?_ ?_ h
  · exact fun _ hinit => hinit
  · rintro ⟨a, log⟩ e r hreach ha hr
    obtain ⟨a', obs, hstep, rfl⟩ := logged_eq_some hr
    simp only [activationStep, Option.map_eq_some_iff, Prod.mk.injEq] at hstep
    obtain ⟨⟨c', obs'⟩, hstep, rfl, rfl⟩ := hstep
    refine ⟨((Activated.kept hreach).saves_iff e).mp ha, ?_⟩
    simp only [logged, hstep, Option.map_some]

/-- **Nothing is lost or replayed between two activations**, as long as the worker leaves
    no more than can be saved, and leaves something whenever it was started with saved
    bytes: then the saved bytes are the received and not consumed ones, and every call
    of the parser was given what was received and not consumed.  The next time `recv`
    would block, what is saved is right exactly under the same condition. -/
theorem serverServClient_saved (root : List UInt8) (a : Activation) (log : List ServerObs)
    (h : Activated root (a, log)) :
    (a.connection.worker = .waiting → a.connection.conn.saved = pending log ∧
      (pending log = [] → a.connection.conn.dataLen = 0)) ∧
    Presented log ∧
    ∀ rbuf remain, a.connection.worker = .recving rbuf remain → remain ≤ dataBufferSize →
      ((saveRemain a.connection.conn rbuf remain).saved = pending log ↔
        (remain = 0 → a.loaded = 0)) := by
  have hserved := h.served
  rcases keeping_verified.served hserved with ⟨hlog, hat⟩
  have hsized := hserved.sized
  have hloaded := h.kept
  rcases a with ⟨⟨conn, worker⟩, loaded⟩
  refine ⟨?_, hlog, ?_⟩
  · rintro rfl
    have hkept : Holds conn.saved log := hat
    refine ⟨hkept.eq_pending, ?_⟩
    intro hnil
    rw [← hkept.eq_pending] at hnil
    change conn.dataLen = 0
    rw [← conn.saved_length, hnil]
    rfl
  · rintro rbuf remain rfl hle
    have hkept : Holds (rbuf.read 0 remain) log := hat
    have hloaded : conn.dataLen = loaded := hloaded
    rw [← hkept.eq_pending, saveRemain_saved_iff conn rbuf hsized, hloaded]
    exact ⟨And.right, fun h => ⟨hle, h⟩⟩

/-- `GE` and `T /` come in two activations: the second one is started with two bytes, and
    leaves the slash. -/
theorem serverServClient_saved_get :
    ∃ a log, Activated [] (a, log) ∧ a.connection.worker = .waiting ∧ a.loaded = 2 ∧
      pending log = bytes "/" ∧ a.connection.conn.saved = pending log := by
  obtain ⟨a, log, h, hw, hloaded, hlog⟩ : ∃ a log, Activated [] (a, log) ∧
      a.connection.worker = .waiting ∧ a.loaded = 2 ∧ pending log = bytes "/" := by
    refine ⟨_, _, ((((((((Activated.start [] (zeroBuf _)).step (.activate (zeroBuf _)) trivial
      rfl).step (.recv (.data (bytes "GE"))) trivial rfl).step (.settle noFiles) trivial rfl).step
      (.recv .wouldBlock) ?_ rfl).step (.activate (zeroBuf _)) trivial rfl).step
      (.recv (.data (bytes "T /"))) trivial rfl).step (.settle noFiles) trivial rfl).step
      (.recv .wouldBlock) ?_ rfl, rfl, rfl, rfl⟩
    · exact ⟨by decide, by decide⟩
    · exact ⟨by decide, by decide⟩
  exact ⟨a, log, h, hw, hloaded, hlog, ((serverServClient_saved [] a log h).1 hw).1⟩

/-- What is left fits, whenever the worker gives the connection back. -/
def Fits (c : Connection) : ServerEvent → Prop
  | .recv .wouldBlock =>
      match c.worker with
      | .recving _ remain => remain ≤ dataBufferSize
      | _ => True
  | _ => True

/-- `GE` and `T ` come in two activations.  The second one leaves nothing, but `GE` stays
    saved. -/
theorem serverServClient_not_saved :
    ¬ ∀ (c : Connection) (log : List ServerObs), Served [] (fun x => Fits x.1) (c, log) →
      c.worker = .waiting → c.conn.saved = pending log := by
  intro h
  obtain ⟨c, log, hrun, hw, hsaved, hpending⟩ : ∃ c log, Served [] (fun x => Fits x.1) (c, log) ∧
      c.worker = .waiting ∧ c.conn.dataLen = 2 ∧ pending log = [] := by
    refine ⟨_, _, (((((((((Served.start [] _ (zeroBuf _)).step (.activate (zeroBuf _)) trivial rfl).step
      (.recv (.data (bytes "GE"))) trivial rfl).step (.settle noFiles) trivial rfl).step
      (.recv .wouldBlock) ?_ rfl).step (.activate (zeroBuf _)) trivial rfl).step
      (.recv (.data (bytes "T "))) trivial rfl).step (.settle noFiles) trivial rfl).step
      (.recv .wouldBlock) ?_ rfl), rfl, rfl, rfl⟩
    · exact show 2 ≤ dataBufferSize by decide
    · exact Nat.zero_le _
  have heq := h c log hrun hw
  rw [hpending, ← List.length_eq_zero_iff, c.conn.saved_length, hsaved] at heq
  exact absurd heq (by decide)

end OServer
