/-
  OServer/ServerHeld.lean
  =======================
  **Does the rest fit in `data_buffer`?**

  When `recv` would block, what is left is the unfinished token that the last call of the
  parser has held back.  `rbuf` has room for more of it than `data_buffer`.
-/
import OServer.HttpRequestHeld
import OServer.ServerRuns

namespace OServer

open CString Resume Run

/-- The last call of the parser decides how much is held back. -/
def ServerObs.heldBack (n : Nat) : ServerObs → Nat
  | .parsed st data _ => held st data
  | _ => n

/-- The length of the unfinished token in the buffer of the last call. -/
def heldBack (log : List ServerObs) : Nat := log.foldl ServerObs.heldBack 0

theorem heldBack_call (log : List ServerObs) (bs : List UInt8) (st : ParseStatus)
    (data : List UInt8) (n : Nat) :
    heldBack (log ++ [.received bs, .parsed st data n]) = held st data := by
  rw [heldBack, List.foldl_append]
  rfl

theorem heldBack_quiet {log obs : List ServerObs} (h : Quiet obs) :
    heldBack (log ++ obs) = heldBack log := by
  rw [heldBack, List.foldl_append, h.foldl_eq (fun _ _ => rfl) fun _ => rfl, heldBack]

/-- The token fits in `data_buffer` whenever the worker gives the connection back. -/
def TokenFits (log : List ServerObs) : ServerEvent → Prop
  | .recv .wouldBlock => heldBack log ≤ dataBufferSize
  | _ => True

/-- What is left is the token, or it was left by the last activation. -/
def holding : Annotation where
  always _ := True
  idle _ saved log := saved.length ≤ dataBufferSize ∧ heldBack log ≤ dataBufferSize
  reading _ left log := left.length = heldBack log ∨
    left.length ≤ dataBufferSize ∧ heldBack log ≤ dataBufferSize
  answering left log := left.length = heldBack log

theorem left_eq_held {req : HttpRequest} {p : List UInt8} {n : Nat} (hp : p ≠ [])
    (hv : (∃ req', requestVerdict req p = .more req' n) ∨ ∃ req', requestVerdict req p = .done req' n)
    (hle : n ≤ p.length) : (p.drop n).length = held req.parseStatus p := by
  have hcons : (requestVerdict req p).consumed = n ∧ ∀ req', requestVerdict req p ≠ .reject req' := by
    rcases hv with ⟨req', hv⟩ | ⟨req', hv⟩
    all_goals
      rw [hv]
      exact ⟨rfl, fun _ h => (nomatch h)⟩
  have heq := held_eq hp hcons.2 (by rwa [hcons.1])
  rw [hcons.1] at heq
  rw [List.length_drop, ← heq, Nat.add_sub_cancel_left]

theorem holding_verified : holding.Verified fun x => TokenFits x.2 where
  start := ⟨trivial, Nat.zero_le _, Nat.zero_le _⟩
  load h _ := Or.inr h
  call _ _ _ _ := trivial
  more := by
    intro req left log bs req' n _ hne hv hle
    left
    rw [heldBack_call]
    exact left_eq_held (by simp [hne]) (Or.inl ⟨req', hv⟩) hle
  done := by
    intro req left log bs req' n _ hne hv hle
    change _ = heldBack _
    rw [heldBack_call]
    exact left_eq_held (by simp [hne]) (Or.inr ⟨req', hv⟩) hle
  quiet _ _ := trivial
  sent := by
    intro left log out h
    change _ = heldBack _
    rw [heldBack_quiet (quiet_sent_one out)]
    exact h
  answered := by
    intro left log h
    left
    rw [heldBack_quiet quiet_answered_one]
    exact h
  park := by
    intro conn rbuf remain log _ _ ha
    refine ⟨?_, ha⟩
    rw [ConnectionInfo.saved_length]
    exact (saveRemain conn rbuf remain).dataLen_le

/-- **What is left fits in `data_buffer` exactly when the unfinished token does**, and
    then all of it is saved. -/
theorem serverServClient_fits (root : List UInt8) (c : Connection) (log : List ServerObs)
    (h : Served root (fun x => TokenFits x.2) (c, log)) (rbuf : Buf UInt8 rbufSize)
    (remain : Nat) (hw : c.worker = .recving rbuf remain) :
    (remain ≤ dataBufferSize ↔ heldBack log ≤ dataBufferSize) ∧
      (heldBack log ≤ dataBufferSize → remain ≠ 0 →
        (saveRemain c.conn rbuf remain).saved = rbuf.read 0 remain) := by
  rcases holding_verified.served h with ⟨-, hat⟩
  have hsized := h.sized
  rw [hw] at hat hsized
  have hlen : (rbuf.read 0 remain).length = remain := rbuf.read_length (by
    have hle : remain ≤ rbufSize := hsized
    omega)
  have hiff : remain ≤ dataBufferSize ↔ heldBack log ≤ dataBufferSize := by
    rcases hat with heq | ⟨hle, hle'⟩
    · rw [← heq, hlen]
    · rw [hlen] at hle
      exact iff_of_true hle hle'
  refine ⟨hiff, ?_⟩
  intro hle hne
  exact (saveRemain_saved_iff c.conn rbuf hsized).mpr ⟨hiff.mpr hle, fun h => absurd h hne⟩

/-- A connection that has received `GE`. -/
theorem serverServClient_fits_get :
    ∃ c log, Served [] (fun x => TokenFits x.2) (c, log) ∧ heldBack log = 2 ∧
      ∀ rbuf remain, c.worker = .recving rbuf remain → remain ≤ dataBufferSize := by
  obtain ⟨c, log, h, hlog⟩ : ∃ c log, Served [] (fun x => TokenFits x.2) (c, log) ∧
      heldBack log = 2 := by
    refine ⟨_, _, (((Served.start [] _ (zeroBuf _)).step (.activate (zeroBuf _)) trivial rfl).step
      (.recv (.data (bytes "GE"))) trivial rfl).step (.settle noFiles) trivial rfl, rfl⟩
  refine ⟨c, log, h, hlog, ?_⟩
  intro rbuf remain hw
  have hiff := (serverServClient_fits [] c log h rbuf remain hw).1
  exact hiff.mpr (by rw [hlog]; decide)

/-- `GET ` and 1100 bytes of a target: all of the target is left. -/
theorem serverServClient_not_fits :
    ¬ ∀ (c : Connection) (log : List ServerObs), Served [] (fun _ _ => True) (c, log) →
      ∀ rbuf remain, c.worker = .recving rbuf remain → remain ≤ dataBufferSize := by
  intro h
  obtain ⟨data, hlen, hr⟩ : ∃ data, data.length = 1104 ∧
      (httpRequestParse httpRequestInit data).ret = 0 ∧
      (httpRequestParse httpRequestInit data).rdlen = 4 ∧
      (httpRequestParse httpRequestInit data).isEnd = false := by
    refine ⟨bytes "GET " ++ List.replicate 1100 97, ?_, by decide +kernel⟩
    rw [List.length_append, List.length_replicate]
    rfl
  have hroom : 0 + data.length ≤ rbufSize := by
    rw [hlen]
    decide
  have hne : data ≠ [] ∧ 0 + data.length ≤ rbufSize := by
    refine ⟨fun hnil => ?_, hroom⟩
    rw [hnil] at hlen
    cases hlen
  let conn := (Connection.accepted (zeroBuf _)).conn
  let req := (httpRequestParse httpRequestInit data).req
  have hrecv : recvData conn (zeroBuf rbufSize) 0 data =
      (⟨{ conn with request := req }, .parsed ((zeroBuf rbufSize).write 0 data) 1100 4 false false⟩,
        [.received data, .parsed .method data 4]) := by
    have hdata : presented (zeroBuf rbufSize) 0 data = data := by
      rw [presented_eq _ hroom, Buf.read_zero, List.nil_append]
    have hconn : conn.request = httpRequestInit := rfl
    simp only [recvData, hdata, hconn, hr.1, hr.2.1, hr.2.2, hlen]
    rfl
  have hrun := (((Served.start [] (fun _ _ => True) (zeroBuf _)).step (.activate (zeroBuf _)) trivial
    rfl).step (.recv (.data data)) trivial ((if_pos hne).trans (congrArg some hrecv))).step
    (.settle noFiles) trivial rfl
  exact absurd (h _ _ hrun _ _ rfl) (by decide)

end OServer
