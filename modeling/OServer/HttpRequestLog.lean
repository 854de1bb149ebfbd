/-
  OServer/HttpRequestLog.lean
  ===========================
  **What is logged of a request that has ended.**

  `server_serv_client` logs every request that `http_request_parse` has ended, also a
  refused one, and `http_request_log` looks the method up in `methods[]`.  The table
  has no entry for a request whose method token was refused.

    * `httpRequestParse_logged` — the lookup stays inside the table in every call of a
                                  run exactly when the first buffer that is more than the
                                  start of a method begins with one.
-/
import OServer.HttpRequestCuts
import Mathlib.Data.List.Infix

namespace OServer

open CString

/-! ## 1. The method token -/

/-- The buffer begins with one of the methods that are recognised. -/
def BeginsWithMethod (p : List UInt8) : Prop := ∃ e ∈ methodTokens, e.2 <+: p

/-- The buffer is the start of a method, or it begins with a `NUL`, so that
    `http_method_parse` waits for more. -/
def MethodUnfinished (p : List UInt8) : Prop :=
  p ≠ [] ∧ p ≠ bytes "P" ∧ (peek p = NUL ∨ ∃ e ∈ methodTokens, p <+: e.2 ∧ p ≠ e.2)

instance beginsWithMethodDecidable (p : List UInt8) : Decidable (BeginsWithMethod p) :=
  inferInstanceAs (Decidable (∃ e ∈ methodTokens, e.2 <+: p))

instance methodUnfinishedDecidable (p : List UInt8) : Decidable (MethodUnfinished p) :=
  inferInstanceAs (Decidable (_ ∧ _ ∧ (_ ∨ ∃ e ∈ methodTokens, p <+: e.2 ∧ p ≠ e.2)))

/-- The comparison waits at a proper start of the entry only. -/
theorem methodMatch_more {x : HttpMethod} {pre w tail : List UInt8} {m : HttpMethod} (hw : w ≠ [])
    (h : methodMatch x (pre ++ w) pre.length (pre ++ tail) m = ⟨0, 0, m⟩) :
    tail <+: w ∧ tail ≠ w := by
  have hlen : ¬(pre ++ tail).length < pre.length := by simp
  rw [methodMatch, if_neg hlen, List.drop_left, List.drop_left] at h
  rcases matchBytes_cases w tail with ⟨r, rfl, hm⟩ | ⟨c, r, rfl, -⟩ | ⟨k, c, d, w', t', -, -, -, hm⟩
  · -- the whole entry was found
    have hpos := List.length_pos_of_ne_nil hw
    simp only [hm, true_and, if_true, Parsed.mk.injEq, List.length_append] at h
    omega
  · exact ⟨List.prefix_append tail (c :: r), by simp⟩
  · simp [hm] at h

theorem httpMethodParse_more_iff (p : List UInt8) :
    httpMethodParse p .none = ⟨0, 0, .none⟩ ↔ MethodUnfinished p := by
  constructor
  · intro h
    -- the entry whose first bytes were taken for granted
    have hentry : ∀ (x : HttpMethod) (pre w : List UInt8) {tail : List UInt8},
        (x, pre ++ w) ∈ methodTokens → w ≠ [] →
        methodMatch x (pre ++ w) pre.length (pre ++ tail) .none = ⟨0, 0, .none⟩ →
        ∃ e ∈ methodTokens, pre ++ tail <+: e.2 ∧ pre ++ tail ≠ e.2 := by
      intro x pre w tail hx hw hmore
      rcases methodMatch_more hw hmore with ⟨hpre, hne⟩
      exact ⟨_, hx, (List.prefix_append_right_inj pre).mpr hpre,
        fun heq => hne (List.append_cancel_left heq)⟩
    have hP : p ≠ bytes "P" := by
      rintro rfl
      cases h
    cases p with
    | nil => cases h
    | cons c rest =>
      refine ⟨List.cons_ne_nil c rest, hP, ?_⟩
      by_cases hc : c = 'G'.toUInt8
      · subst hc
        exact Or.inr (hentry .get (bytes "G") (bytes "ET ") (by decide) (by decide) h)
      by_cases hc' : c = 'P'.toUInt8
      · subst hc'
        cases rest with
        | nil => exact absurd rfl hP
        | cons d rest =>
          by_cases hU : d = 'U'.toUInt8
          · subst hU
            exact Or.inr (hentry .put (bytes "PU") (bytes "T ") (by decide) (by decide) h)
          by_cases hO : d = 'O'.toUInt8
          · subst hO
            exact Or.inr (hentry .post (bytes "PO") (bytes "ST ") (by decide) (by decide) h)
          · simp [httpMethodParse, peek, hU, hO, hc] at h
      by_cases hH : c = 'H'.toUInt8
      · subst hH
        exact Or.inr (hentry .head (bytes "H") (bytes "EAD ") (by decide) (by decide) h)
      by_cases hO : c = 'O'.toUInt8
      · subst hO
        exact Or.inr (hentry .options (bytes "O") (bytes "PTIONS ") (by decide) (by decide) h)
      by_cases h0 : c = NUL
      · exact Or.inl h0
      · simp [httpMethodParse, hc, hc', hH, hO, h0] at h
  · rintro ⟨hne, hP, hnul | ⟨e, he, hpre, hneq⟩⟩
    · cases p with
      | nil => exact absurd rfl hne
      | cons c rest =>
        have hc : c = NUL := hnul
        rw [hc]
        rfl
    · have hstarts : ∀ e ∈ methodTokens, ∀ p ∈ e.2.inits, p ≠ [] → p ≠ bytes "P" → p ≠ e.2 →
          httpMethodParse p .none = ⟨0, 0, .none⟩ := by decide
      exact hstarts e he p ((List.mem_inits p e.2).mpr hpre) hne hP hneq

/-- A token, with whatever behind it. -/
theorem BeginsWithMethod.parse {p : List UInt8} (h : BeginsWithMethod p) (m : HttpMethod) :
    ∃ x n, httpMethodParse p m = ⟨0, n, x⟩ ∧ n ≠ 0 ∧ (httpMethodStr x).isSome = true := by
  rcases h with ⟨⟨x, w⟩, hx, ⟨r, rfl⟩⟩
  have htable : ∀ e ∈ methodTokens, (httpMethodStr e.1).isSome = true := by decide
  exact ⟨x, w.length, httpMethodParse_token hx m r, methodTokens_length_ne _ hx, htable _ hx⟩

/-- Anything else is refused. -/
theorem httpMethodParse_refused {p : List UInt8} (h : ¬MethodUnfinished p)
    (h' : ¬BeginsWithMethod p) : httpMethodParse p .none = ⟨-1, 0, .none⟩ := by
  by_cases hne : p = []
  · rw [hne]
    rfl
  by_cases hP : p = bytes "P"
  · rw [hP]
    rfl
  cases httpMethodParse_answer .none hne hP with
  | token x w r hx hdata _ => exact absurd ⟨(x, w), hx, r, hdata.symm⟩ h'
  | more hmore => exact absurd ((httpMethodParse_more_iff p).mp hmore) h
  | reject hreject =>
    have hall := hreject []
    rw [List.append_nil] at hall
    exact hall

/-! ## 2. Runs -/

/-- The request after `http_request_init` and a call for each of the buffers. -/
def feedRequest (bs : List (List UInt8)) : HttpRequest :=
  bs.foldl (fun req b => (httpRequestParse req b).req) httpRequestInit

theorem feedRequest_append (bs : List (List UInt8)) (b : List UInt8) :
    feedRequest (bs ++ [b]) = (httpRequestParse (feedRequest bs) b).req := by
  rw [feedRequest, List.foldl_append]
  rfl

/-- Behind the method token the method stays what it is. -/
theorem requestRound_method {req : HttpRequest} (h : req.parseStatus ≠ .method) (p : List UInt8)
    (n : Nat) : (requestRound req p n).req.method = req.method := by
  unfold requestRound
  cases hs : req.parseStatus with
  | method => exact absurd hs h
  | url => dsimp only; split_ifs <;> rfl
  | version => dsimp only; split_ifs <;> rfl
  | header => dsimp only; split_ifs <;> rfl
  | error => rfl

theorem requestLoop_method (fuel : Nat) {req : HttpRequest} (h : req.parseStatus ≠ .method)
    (p : List UInt8) (parsedLen off : Nat) :
    (requestLoop fuel req p parsedLen off).req.method = req.method := by
  induction fuel generalizing req p parsedLen off with
  | zero => rfl
  | succ fuel ih =>
    have hround := requestRound_method h p parsedLen
    have hbegin := requestRound_not_begin h p parsedLen
    simp only [requestLoop]
    split_ifs
    · exact hround
    · exact (ih hbegin _ _ _).trans hround
    · exact hround

/-- The first buffer that is more than the start of a method. -/
def firstWord (bs : List (List UInt8)) : Option (List UInt8) :=
  bs.find? fun b => ¬MethodUnfinished b

theorem firstWord_append (bs : List (List UInt8)) (b : List UInt8) :
    firstWord (bs ++ [b]) =
      (firstWord bs).or (if MethodUnfinished b then none else some b) := by
  have hlast : [b].find? (fun b => decide ¬MethodUnfinished b) =
      if MethodUnfinished b then none else some b := by
    rw [List.find?_singleton]
    by_cases hb : MethodUnfinished b
    · rw [if_pos hb, if_neg (by simpa using hb)]
    · rw [if_neg hb, if_pos (decide_eq_true hb)]
  rw [firstWord, List.find?_append, hlast]
  rfl

/-- Where a run stands with its method. -/
inductive MethodPhase (bs : List (List UInt8)) (req : HttpRequest) : Prop where
  | waiting (hbs : firstWord bs = none) (hs : req.parseStatus = .method)
      (hm : req.method = .none)
  | named {b : List UInt8} (hb : firstWord bs = some b)
      (hbegins : BeginsWithMethod b) (hs : req.parseStatus ≠ .method)
      (hm : (httpMethodStr req.method).isSome = true)
  | refused {b : List UInt8} (hb : firstWord bs = some b)
      (hbegins : ¬BeginsWithMethod b) (hs : req.parseStatus = .error) (hm : req.method = .none)

section Call
variable {req : HttpRequest} {p : List UInt8}

/-- The start of a method leaves the request as it is. -/
theorem httpRequestParse_waiting (hs : req.parseStatus = .method) (hm : req.method = .none)
    (hp : MethodUnfinished p) :
    (httpRequestParse req p).isEnd = false ∧ (httpRequestParse req p).req = req := by
  have hparse : httpMethodParse p req.method = ⟨0, 0, req.method⟩ := by
    rw [hm]
    exact (httpMethodParse_more_iff p).mpr hp
  have hmore := requestVerdict_method_more hs hparse
  unfold requestVerdict RequestParse.verdict at hmore
  split_ifs at hmore with hret hend
  injection hmore with hreq
  exact ⟨Bool.eq_false_iff.mpr hend, hreq⟩

/-- A refused request stays as it is. -/
theorem httpRequestParse_rejected (hs : req.parseStatus = .error) (p : List UInt8) :
    (httpRequestParse req p).isEnd = true ∧ (httpRequestParse req p).req = req := by
  have hreject := requestVerdict_rejected hs p
  unfold requestVerdict RequestParse.verdict at hreject
  split_ifs at hreject with hret
  rcases requestLoop_failed _ _ _ _ _ hret with ⟨-, hend, -⟩
  injection hreject with hreq
  exact ⟨hend, hreq⟩

/-- A refused method ends the request without one. -/
theorem httpRequestParse_refused (hs : req.parseStatus = .method) (hm : req.method = .none)
    (hp : ¬MethodUnfinished p) (hp' : ¬BeginsWithMethod p) :
    (httpRequestParse req p).isEnd = true ∧ (httpRequestParse req p).req.parseStatus = .error ∧
      (httpRequestParse req p).req.method = .none := by
  have hparse : httpMethodParse p req.method = ⟨-1, 0, req.method⟩ := by
    rw [hm]
    exact httpMethodParse_refused hp hp'
  have hreject := requestVerdict_method_reject hs hparse
  unfold requestVerdict RequestParse.verdict at hreject
  split_ifs at hreject with hret
  rcases requestLoop_failed _ _ _ _ _ hret with ⟨-, hend, herr⟩
  injection hreject with hreq
  refine ⟨hend, herr, ?_⟩
  rw [hreq]
  exact hm

/-- A token is stored, and the call goes on behind it. -/
theorem httpRequestParse_named (hs : req.parseStatus = .method) (hp : BeginsWithMethod p) :
    (httpRequestParse req p).req.parseStatus ≠ .method ∧
      (httpMethodStr (httpRequestParse req p).req.method).isSome = true := by
  rcases hp.parse req.method with ⟨x, n, hparse, hn, hx⟩
  have hround : requestRound req p 0 = ⟨{ req with method := x, parseStatus := .url }, n, false⟩ := by
    simp [requestRound, hs, hparse, hn]
  have hrun : httpRequestParse req p =
      requestLoop 3 { req with method := x, parseStatus := .url } (p.drop n) n (0 + n) := by
    have hrounds : req.parseStatus.rounds = 3 + 1 := by rw [hs]; rfl
    rw [httpRequestParse, hrounds, requestLoop, hround]
    simp [hs]
  have hbegin : (HttpRequest.mk x req.url req.version req.headers .url).parseStatus ≠ .method := by
    simp
  rw [hrun]
  refine ⟨requestLoop_not_begin 3 _ _ _ _ hbegin, ?_⟩
  rw [requestLoop_method 3 hbegin]
  exact hx

end Call

/-- **One more call.** -/
theorem MethodPhase.step {bs : List (List UInt8)} {req : HttpRequest} (h : MethodPhase bs req)
    (b : List UInt8) : MethodPhase (bs ++ [b]) (httpRequestParse req b).req := by
  have hfirst := firstWord_append bs b
  cases h with
  | waiting hbs hs hm =>
    rw [hbs, Option.none_or] at hfirst
    by_cases hb : MethodUnfinished b
    · rw [if_pos hb] at hfirst
      rcases httpRequestParse_waiting hs hm hb with ⟨-, hreq⟩
      rw [hreq]
      exact .waiting hfirst hs hm
    rw [if_neg hb] at hfirst
    by_cases hbegins : BeginsWithMethod b
    · rcases httpRequestParse_named hs hbegins with ⟨hs', hm'⟩
      exact .named hfirst hbegins hs' hm'
    · rcases httpRequestParse_refused hs hm hb hbegins with ⟨-, hs', hm'⟩
      exact .refused hfirst hbegins hs' hm'
  | named hb hbegins hs hm =>
    rw [hb, Option.some_or] at hfirst
    refine .named hfirst hbegins (requestLoop_not_begin _ _ _ _ _ hs) ?_
    rw [httpRequestParse, requestLoop_method _ hs]
    exact hm
  | refused hb hbegins hs hm =>
    rw [hb, Option.some_or] at hfirst
    rcases httpRequestParse_rejected hs b with ⟨-, hreq⟩
    rw [hreq]
    exact .refused hfirst hbegins hs hm

theorem feedRequest_phase (bs : List (List UInt8)) : MethodPhase bs (feedRequest bs) := by
  induction bs using List.reverseRecOn with
  | nil => exact .waiting rfl rfl rfl
  | append_singleton bs b ih =>
    rw [feedRequest_append]
    exact ih.step b

/-- What is logged of a request that the call has ended lies in the table. -/
def LoggedSafely (bs : List (List UInt8)) (b : List UInt8) : Prop :=
  (httpRequestParse (feedRequest bs) b).isEnd = true →
    (httpMethodStr (httpRequestParse (feedRequest bs) b).req.method).isSome = true

/-- One call of a run. -/
theorem loggedSafely_iff (bs : List (List UInt8)) (b : List UInt8) :
    LoggedSafely bs b ↔ ∀ w, firstWord (bs ++ [b]) = some w → BeginsWithMethod w := by
  have hfirst := firstWord_append bs b
  unfold LoggedSafely
  cases feedRequest_phase bs with
  | waiting hbs hs hm =>
    rw [hbs, Option.none_or] at hfirst
    by_cases hb : MethodUnfinished b
    · rw [hfirst, if_pos hb]
      refine iff_of_true ?_ fun w hw => nomatch hw
      intro hend
      rw [(httpRequestParse_waiting hs hm hb).1] at hend
      cases hend
    rw [hfirst, if_neg hb]
    by_cases hbegins : BeginsWithMethod b
    · refine iff_of_true (fun _ => (httpRequestParse_named hs hbegins).2) ?_
      intro w hw
      rw [← Option.some.inj hw]
      exact hbegins
    · rcases httpRequestParse_refused hs hm hb hbegins with ⟨hend, -, hm'⟩
      refine iff_of_false ?_ fun h => hbegins (h b rfl)
      intro h
      have hsome := h hend
      rw [hm'] at hsome
      cases hsome
  | named hb hbegins hs hm =>
    rw [hfirst, hb, Option.some_or]
    refine iff_of_true (fun _ => ?_) ?_
    · rw [httpRequestParse, requestLoop_method _ hs]
      exact hm
    · intro w hw
      rw [← Option.some.inj hw]
      exact hbegins
  | refused hb hbegins hs hm =>
    rw [hfirst, hb, Option.some_or]
    rcases httpRequestParse_rejected hs b with ⟨hend, hreq⟩
    refine iff_of_false ?_ fun h => hbegins (h _ rfl)
    intro h
    have hsome := h hend
    rw [hreq, hm] at hsome
    cases hsome

/-- **Safe logging.**  In every call of a run the method of an ended request is in the table, if
    and only if the first buffer that is more than the start of a method begins with one. -/
theorem httpRequestParse_logged (bs : List (List UInt8)) :
    (∀ before b, before ++ [b] <+: bs → LoggedSafely before b) ↔
      ∀ w, firstWord bs = some w → BeginsWithMethod w := by
  constructor
  · intro h w hw
    -- the last call of the run is enough
    rcases List.eq_nil_or_concat' bs with rfl | ⟨before, b, rfl⟩
    · cases hw
    · exact (loggedSafely_iff before b).mp (h before b (List.prefix_refl _)) w hw
  · intro h before b hpre
    rw [loggedSafely_iff]
    intro w hw
    apply h
    rcases hpre with ⟨after, rfl⟩
    rw [firstWord, List.find?_append]
    rw [firstWord] at hw
    rw [hw]
    rfl

/-- A request line with another method is refused, and what is looked up for it is behind the
    table. -/
theorem httpRequestParse_not_logged : ¬LoggedSafely [] (bytes "BREW / HTTP/1.1\r\n\r\n") := by
  intro h
  have hsome := h rfl
  cases hsome

end OServer
