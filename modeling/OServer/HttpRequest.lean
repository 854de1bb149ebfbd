/-
  OServer/HttpRequest.lean
  ========================
  **The request parser (`http_request.c`).**

  `http_request_parse` runs the parsers of the method, the target, the version and
  the headers one after the other.  All of them report through the one variable
  `parsed_len`, which is threaded through the rounds of the loop here as it is in
  the source.
-/
import OServer.HttpMethod
import OServer.HttpUrl
import OServer.HttpVersion
import OServer.HttpHeaderParse

namespace OServer

open CString Resume

/-! ## 1. Model -/

/-- `http_request_parse_status_t`; `begin` is another name of `method`. -/
inductive ParseStatus where
  | method | url | version | header | error
deriving DecidableEq, Repr

structure HttpRequest where
  method : HttpMethod
  url : HttpUrl
  version : HttpVersion
  headers : HttpHeaderCollection
  parseStatus : ParseStatus

def httpRequestInit : HttpRequest where
  method := .none
  url := httpUrlInit
  version := .none
  headers := httpHeaderInit
  parseStatus := .method

/-- `http_request_reset`; `http_url_destory` empties the stack and the list and
    initialises the structure again. -/
def httpRequestReset (req : HttpRequest) : HttpRequest where
  method := .none
  url := httpUrlInit
  version := .none
  headers := httpHeaderDestroy req.headers
  parseStatus := .method

/-- `*is_end` is written by the header parser only. -/
structure RequestRound where
  req : HttpRequest
  parsedLen : Nat
  isEnd : Bool

/-- One round of the loop on the bytes `p`, entered with `parsedLen` in `parsed_len`. -/
def requestRound (req : HttpRequest) (p : List UInt8) (parsedLen : Nat) : RequestRound :=
  match req.parseStatus with
  | .method =>
      let r := httpMethodParse p req.method
      let req := { req with method := r.val }
      if r.ret < 0 then ⟨{ req with parseStatus := .error }, r.parseLen, false⟩
      else if r.parseLen ≠ 0 then ⟨{ req with parseStatus := .url }, r.parseLen, false⟩
      else ⟨req, r.parseLen, false⟩
  | .url =>
      let r := httpUrlParse p req.url
      let req := { req with url := r.val }
      if r.ret < 0 then ⟨{ req with parseStatus := .error }, r.parseLen, false⟩
      else if r.parseLen ≠ 0 then ⟨{ req with parseStatus := .version }, r.parseLen, false⟩
      else ⟨req, r.parseLen, false⟩
  | .version =>
      -- the loop never has a negative value in `parsed_len`
      let r := httpVersionParse p parsedLen req.version
      let req := { req with version := r.val }
      if r.ret < 0 then ⟨{ req with parseStatus := .error }, r.parseLen.toNat, false⟩
      else if r.parseLen ≠ 0 then ⟨{ req with parseStatus := .header }, r.parseLen.toNat, false⟩
      else ⟨req, r.parseLen.toNat, false⟩
  | .header =>
      let r := httpHeaderParse req.headers p
      let req := { req with headers := r.headers }
      if r.ret < 0 then ⟨{ req with parseStatus := .error }, r.rdlen, r.isEnd⟩
      else ⟨req, r.rdlen, r.isEnd⟩
  | .error => ⟨req, parsedLen, false⟩

structure RequestParse where
  ret : Int
  rdlen : Nat
  isEnd : Bool
  req : HttpRequest

/-- The loop, with `p - data` in `off`.  The status only moves forward, so the first
    argument, a bound on the rounds left, is never used up (`requestLoop_rounds`). -/
def requestLoop : Nat → HttpRequest → List UInt8 → Nat → Nat → RequestParse
  | 0, req, _, _, off => ⟨0, off, false, req⟩
  | fuel + 1, req, p, parsedLen, off =>
      let r := requestRound req p parsedLen
      if r.req.parseStatus = .error then ⟨-1, 0, true, r.req⟩
      else if r.req.parseStatus ≠ req.parseStatus then
        requestLoop fuel r.req (p.drop r.parsedLen) r.parsedLen (off + r.parsedLen)
      else ⟨0, off + r.parsedLen, r.isEnd, r.req⟩

/-- Rounds that can follow at most. -/
def ParseStatus.rounds : ParseStatus → Nat
  | method => 4
  | url => 3
  | version => 2
  | header => 1
  | error => 1

/-- `parsed_len` starts uninitialised, but no call on bytes reads it before a
    sub-parser has written it. -/
def httpRequestParse (req : HttpRequest) (data : List UInt8) : RequestParse :=
  requestLoop req.parseStatus.rounds req data 0 0

def RequestParse.verdict (r : RequestParse) : Verdict HttpRequest :=
  if r.ret < 0 then .reject r.req
  else if r.isEnd then .done r.req r.rdlen
  else .more r.req r.rdlen

/-- The call as a resumable parser. -/
def requestVerdict (req : HttpRequest) (data : List UInt8) : Verdict HttpRequest :=
  (httpRequestParse req data).verdict

/-! ## 2. Rounds -/

theorem requestRound_rounds {req : HttpRequest} {p : List UInt8} {n : Nat}
    (herr : (requestRound req p n).req.parseStatus ≠ .error)
    (hne : (requestRound req p n).req.parseStatus ≠ req.parseStatus) :
    (requestRound req p n).req.parseStatus.rounds < req.parseStatus.rounds := by
  unfold requestRound at herr hne ⊢
  cases hs : req.parseStatus with
  | error => exact absurd (by simp [hs]) hne
  | method => simp only [hs] at herr hne ⊢; split_ifs at herr hne ⊢ <;> simp_all [ParseStatus.rounds]
  | url => simp only [hs] at herr hne ⊢; split_ifs at herr hne ⊢ <;> simp_all [ParseStatus.rounds]
  | version => simp only [hs] at herr hne ⊢; split_ifs at herr hne ⊢ <;> simp_all [ParseStatus.rounds]
  | header => simp only [hs] at herr hne ⊢; split_ifs at herr hne ⊢ <;> simp_all

/-- More rounds than the status asks for make no difference. -/
theorem requestLoop_rounds (fuel : Nat) : ∀ (fuel' : Nat) (req : HttpRequest) (p : List UInt8)
    (parsedLen off : Nat), req.parseStatus.rounds ≤ fuel → req.parseStatus.rounds ≤ fuel' →
      requestLoop fuel req p parsedLen off = requestLoop fuel' req p parsedLen off := by
  have hpos : ∀ s : ParseStatus, s.rounds ≠ 0 := fun s => by cases s <;> decide
  induction fuel with
  | zero => exact fun _ req _ _ _ h _ => absurd (Nat.le_zero.mp h) (hpos _)
  | succ fuel ih =>
    intro fuel' req p parsedLen off h h'
    cases fuel' with
    | zero => exact absurd (Nat.le_zero.mp h') (hpos _)
    | succ fuel' =>
      simp only [requestLoop]
      by_cases herr : (requestRound req p parsedLen).req.parseStatus = .error
      · rw [if_pos herr, if_pos herr]
      by_cases hne : (requestRound req p parsedLen).req.parseStatus ≠ req.parseStatus
      · have hlt := requestRound_rounds herr hne
        rw [if_neg herr, if_neg herr, if_pos hne, if_pos hne]
        exact ih fuel' _ _ _ _ (by omega) (by omega)
      · rw [if_neg herr, if_neg herr, if_neg hne, if_neg hne]

theorem requestLoop_shift (k : Nat) (fuel : Nat) : ∀ (req : HttpRequest) (p : List UInt8)
    (parsedLen off : Nat), (requestLoop fuel req p parsedLen (k + off)).verdict =
      (requestLoop fuel req p parsedLen off).verdict.shift k := by
  induction fuel with
  | zero => exact fun _ _ _ _ => rfl
  | succ fuel ih =>
    intro req p parsedLen off
    simp only [requestLoop]
    split_ifs
    · rfl
    · rw [Nat.add_assoc]
      exact ih _ _ _ _
    · rw [Nat.add_assoc]
      cases (requestRound req p parsedLen).isEnd <;> rfl

theorem requestLoop_ret (fuel : Nat) : ∀ (req : HttpRequest) (p : List UInt8) (parsedLen off : Nat),
    (requestLoop fuel req p parsedLen off).ret = 0 ∨
      (requestLoop fuel req p parsedLen off).ret = -1 := by
  induction fuel with
  | zero => exact fun _ _ _ _ => Or.inl rfl
  | succ fuel ih =>
    intro req p parsedLen off
    simp only [requestLoop]
    split_ifs
    · exact Or.inr rfl
    · exact ih _ _ _ _
    · exact Or.inl rfl

/-- A call that fails. -/
theorem requestLoop_failed (fuel : Nat) : ∀ (req : HttpRequest) (p : List UInt8)
    (parsedLen off : Nat), (requestLoop fuel req p parsedLen off).ret < 0 →
      (requestLoop fuel req p parsedLen off).rdlen = 0 ∧
        (requestLoop fuel req p parsedLen off).isEnd = true ∧
        (requestLoop fuel req p parsedLen off).req.parseStatus = .error := by
  induction fuel with
  | zero => exact fun _ _ _ _ h => absurd h (Int.lt_irrefl 0)
  | succ fuel ih =>
    intro req p parsedLen off
    simp only [requestLoop]
    split_ifs with herr
    · intro _
      exact ⟨rfl, rfl, herr⟩
    · exact ih _ _ _ _
    · intro h
      exact absurd h (Int.lt_irrefl 0)

theorem requestRound_not_begin {req : HttpRequest} (h : req.parseStatus ≠ .method) (p : List UInt8)
    (n : Nat) : (requestRound req p n).req.parseStatus ≠ .method := by
  unfold requestRound
  cases hs : req.parseStatus with
  | method => exact absurd hs h
  | url => dsimp only; split_ifs <;> simp
  | version => dsimp only; split_ifs <;> simp
  | header => dsimp only; split_ifs <;> simp
  | error => simp [hs]

theorem requestLoop_not_begin (fuel : Nat) : ∀ (req : HttpRequest) (p : List UInt8)
    (parsedLen off : Nat), req.parseStatus ≠ .method →
      (requestLoop fuel req p parsedLen off).req.parseStatus ≠ .method := by
  induction fuel with
  | zero => exact fun _ _ _ _ h => h
  | succ fuel ih =>
    intro req p parsedLen off h
    have hround := requestRound_not_begin h p parsedLen
    simp only [requestLoop]
    split_ifs
    · exact hround
    · exact ih _ _ _ _ hround
    · exact hround

/-- Only a version parser without bytes leaves `parsed_len` as it was. -/
theorem requestRound_parsedLen {req : HttpRequest} {p : List UInt8}
    (h : req.parseStatus = .version → p ≠ []) (h' : req.parseStatus ≠ .error) (n : Nat) :
    requestRound req p n = requestRound req p 0 := by
  unfold requestRound
  cases hs : req.parseStatus with
  | version =>
    have hp : ∀ k, httpVersionParse p k req.version = httpVersionParse p 0 req.version := by
      intro k
      simp only [httpVersionParse, if_neg (h hs)]
    simp only [hp n, Nat.cast_zero]
  | error => exact absurd hs h'
  | method => rfl
  | url => rfl
  | header => rfl

/-- A round that moves on to the next status. -/
theorem requestVerdict_advance {req req' : HttpRequest} {p : List UInt8} {n : Nat} {b : Bool}
    (hround : requestRound req p 0 = ⟨req', n, b⟩)
    (hrounds : req.parseStatus.rounds = req'.parseStatus.rounds + 1)
    (herr : req'.parseStatus ≠ .error) (hver : req'.parseStatus = .version → p.drop n ≠ []) :
    requestVerdict req p = (requestVerdict req' (p.drop n)).shift n := by
  have hne : req'.parseStatus ≠ req.parseStatus := by
    intro h
    rw [h] at hrounds
    omega
  obtain ⟨k, hk⟩ : ∃ k, req'.parseStatus.rounds = k + 1 := by
    cases req'.parseStatus <;> exact ⟨_, rfl⟩
  have hskip : requestLoop (k + 1) req' (p.drop n) n 0 = requestLoop (k + 1) req' (p.drop n) 0 0 := by
    rw [requestLoop, requestLoop, requestRound_parsedLen hver herr n]
  unfold requestVerdict httpRequestParse
  rw [hrounds, requestLoop, hround]
  simp only [if_neg herr, if_pos hne, hk, Nat.zero_add]
  rw [← hskip]
  exact requestLoop_shift n (k + 1) req' (p.drop n) n 0

theorem requestVerdict_error {req req' : HttpRequest} {p : List UInt8} {n : Nat} {b : Bool}
    (hround : requestRound req p 0 = ⟨req', n, b⟩) (herr : req'.parseStatus = .error) :
    requestVerdict req p = .reject req' := by
  obtain ⟨k, hk⟩ : ∃ k, req.parseStatus.rounds = k + 1 := by
    cases req.parseStatus <;> exact ⟨_, rfl⟩
  unfold requestVerdict httpRequestParse
  rw [hk, requestLoop, hround]
  simp only [if_pos herr]
  rfl

theorem requestVerdict_stay {req req' : HttpRequest} {p : List UInt8} {n : Nat} {b : Bool}
    (hround : requestRound req p 0 = ⟨req', n, b⟩) (herr : req'.parseStatus ≠ .error)
    (hsame : req'.parseStatus = req.parseStatus) :
    requestVerdict req p = if b then .done req' n else .more req' n := by
  obtain ⟨k, hk⟩ : ∃ k, req.parseStatus.rounds = k + 1 := by
    cases req.parseStatus <;> exact ⟨_, rfl⟩
  unfold requestVerdict httpRequestParse
  rw [hk, requestLoop, hround]
  rw [hsame] at herr
  simp only [hsame, if_neg herr, ne_eq, not_true_eq_false, if_false, Nat.zero_add]
  cases b <;> rfl

/-! ## 3. The verdict in each status -/

section Status
variable {req : HttpRequest} {p : List UInt8}

theorem requestVerdict_rejected (hs : req.parseStatus = .error) (p : List UInt8) :
    requestVerdict req p = .reject req := by
  have hround : requestRound req p 0 = ⟨req, 0, false⟩ := by simp [requestRound, hs]
  exact requestVerdict_error hround hs

/-- A verdict of the header parser as one of the request parser. -/
def headerVerdict (req : HttpRequest) : Verdict HttpHeaderCollection → Verdict HttpRequest
  | .reject headers => .reject { req with headers, parseStatus := .error }
  | .done headers n => .done { req with headers } n
  | .more headers n => .more { req with headers } n

theorem requestVerdict_header (hs : req.parseStatus = .header) (p : List UInt8) :
    requestVerdict req p = headerVerdict req (httpHeaderParse req.headers p).verdict := by
  let r := httpHeaderParse req.headers p
  by_cases hret : r.ret < 0
  · have hround : requestRound req p 0 =
        ⟨{ req with headers := r.headers, parseStatus := .error }, r.rdlen, r.isEnd⟩ := by
      simp [requestRound, hs, hret, r]
    rw [HeaderParse.verdict, if_pos hret]
    exact requestVerdict_error hround rfl
  · have hround : requestRound req p 0 = ⟨{ req with headers := r.headers }, r.rdlen, r.isEnd⟩ := by
      simp [requestRound, hs, hret, r]
    rw [HeaderParse.verdict, if_neg hret, requestVerdict_stay hround (by simp [hs]) rfl]
    split <;> rfl

theorem requestVerdict_version_token {x : HttpVersion} {n : Nat} (hs : req.parseStatus = .version)
    (h : httpVersionParse p 0 req.version = ⟨0, n, x⟩) (hn : n ≠ 0) :
    requestVerdict req p =
      (requestVerdict { req with version := x, parseStatus := .header } (p.drop n)).shift n :=
  requestVerdict_advance (b := false) (by simp [requestRound, hs, h, hn]) (by rw [hs]; rfl)
    (by simp) (by simp)

theorem requestVerdict_url_token {url : HttpUrl} {n : Nat} (hs : req.parseStatus = .url)
    (h : httpUrlParse p req.url = ⟨0, n, url⟩) (hn : n ≠ 0) (hp : p.drop n ≠ []) :
    requestVerdict req p =
      (requestVerdict { req with url, parseStatus := .version } (p.drop n)).shift n :=
  requestVerdict_advance (b := false) (by simp [requestRound, hs, h, hn]) (by rw [hs]; rfl)
    (by simp) (fun _ => hp)

theorem requestVerdict_method_token {x : HttpMethod} {n : Nat} (hs : req.parseStatus = .method)
    (h : httpMethodParse p req.method = ⟨0, n, x⟩) (hn : n ≠ 0) :
    requestVerdict req p =
      (requestVerdict { req with method := x, parseStatus := .url } (p.drop n)).shift n :=
  requestVerdict_advance (b := false) (by simp [requestRound, hs, h, hn]) (by rw [hs]; rfl)
    (by simp) (by simp)

/-- A round in which a sub-parser rejects. -/
theorem requestVerdict_method_reject {n : Nat} (hs : req.parseStatus = .method)
    (h : httpMethodParse p req.method = ⟨-1, n, req.method⟩) :
    requestVerdict req p = .reject { req with parseStatus := .error } := by
  have hround : requestRound req p 0 = ⟨{ req with parseStatus := .error }, n, false⟩ := by
    simp [requestRound, hs, h]
  exact requestVerdict_error hround rfl

theorem requestVerdict_url_reject {url : HttpUrl} {n : Nat} (hs : req.parseStatus = .url)
    (h : httpUrlParse p req.url = ⟨-1, n, url⟩) :
    requestVerdict req p = .reject { req with url, parseStatus := .error } := by
  have hround : requestRound req p 0 = ⟨{ req with url, parseStatus := .error }, n, false⟩ := by
    simp [requestRound, hs, h]
  exact requestVerdict_error hround rfl

theorem requestVerdict_version_reject {n : Nat} (hs : req.parseStatus = .version)
    (h : httpVersionParse p 0 req.version = ⟨-1, n, req.version⟩) :
    requestVerdict req p = .reject { req with parseStatus := .error } := by
  have hround : requestRound req p 0 = ⟨{ req with parseStatus := .error }, n, false⟩ := by
    simp [requestRound, hs, h]
  exact requestVerdict_error hround rfl

/-- A round in which a sub-parser needs more bytes. -/
theorem requestVerdict_method_more (hs : req.parseStatus = .method)
    (h : httpMethodParse p req.method = ⟨0, 0, req.method⟩) : requestVerdict req p = .more req 0 := by
  have hround : requestRound req p 0 = ⟨req, 0, false⟩ := by
    rcases req with ⟨_, _, _, _, _⟩
    cases hs
    simp [requestRound, h]
  exact requestVerdict_stay hround (by simp [hs]) rfl

theorem requestVerdict_url_more (hs : req.parseStatus = .url)
    (h : httpUrlParse p req.url = ⟨0, 0, req.url⟩) : requestVerdict req p = .more req 0 := by
  have hround : requestRound req p 0 = ⟨req, 0, false⟩ := by
    rcases req with ⟨_, _, _, _, _⟩
    cases hs
    simp [requestRound, h]
  exact requestVerdict_stay hround (by simp [hs]) rfl

theorem requestVerdict_version_more (hs : req.parseStatus = .version)
    (h : httpVersionParse p 0 req.version = ⟨0, 0, req.version⟩) :
    requestVerdict req p = .more req 0 := by
  have hround : requestRound req p 0 = ⟨req, 0, false⟩ := by
    rcases req with ⟨_, _, _, _, _⟩
    cases hs
    simp [requestRound, h]
  exact requestVerdict_stay hround (by simp [hs]) rfl

end Status

/-! ## 4. Where a call may be cut -/

/-- The buffer ends with the space behind an acceptable target: the version parser is
    called without bytes, and the length of the target is counted twice. -/
def EndsAtUrl (req : HttpRequest) (data : List UInt8) : Prop :=
  ∃ pre u, data = pre ++ (u ++ [SP]) ∧ TargetOk req.url u ∧
    (req.parseStatus = .method ∧ (∃ x, (x, pre) ∈ methodTokens) ∨
      req.parseStatus = .url ∧ pre = [])

section Splits
variable {req : HttpRequest} {p : List UInt8}

theorem headerVerdict_shift (req : HttpRequest) (k : Nat) (v : Verdict HttpHeaderCollection) :
    headerVerdict req (v.shift k) = (headerVerdict req v).shift k := by
  cases v <;> rfl

theorem headerVerdict_headers (req : HttpRequest) (headers : HttpHeaderCollection)
    (v : Verdict HttpHeaderCollection) :
    headerVerdict { req with headers } v = headerVerdict req v := by
  cases v <;> rfl

theorem splits_header (hs : req.parseStatus = .header) (p : List UInt8) :
    Splits requestVerdict req p := by
  have h := httpHeaderParse_splits req.headers p
  constructor
  · rw [requestVerdict_header hs]
    have hb := h.bound
    cases hv : (httpHeaderParse req.headers p).verdict with
    | more headers n =>
      rw [hv] at hb
      exact hb
    | done headers n =>
      rw [hv] at hb
      exact hb
    | reject headers => exact Nat.zero_le _
  · intro q
    rw [requestVerdict_header hs, requestVerdict_header hs, h.append q]
    cases hv : (httpHeaderParse req.headers p).verdict with
    | more headers n =>
      have hs' : ({ req with headers } : HttpRequest).parseStatus = .header := hs
      have hrest : requestVerdict { req with headers } (p.drop n ++ q) =
          headerVerdict req (httpHeaderParse headers (p.drop n ++ q)).verdict :=
        (requestVerdict_header hs' _).trans (headerVerdict_headers req headers _)
      exact (headerVerdict_shift req n _).trans (congrArg (Verdict.shift n) hrest.symm)
    | done headers n => rfl
    | reject headers => rfl

theorem versionLines_length : ∀ e ∈ versionLines, e.2.length = 10 := by decide

theorem versionLines_length_ne : ∀ e ∈ versionLines, e.2.length ≠ 0 := by decide

theorem splits_version (hs : req.parseStatus = .version) (p : List UInt8) :
    Splits requestVerdict req p := by
  by_cases hp : p = []
  · subst hp
    exact .more (requestVerdict_version_more hs rfl)
  cases httpVersionParse_answer req.version hp with
  | token x w r hx hdata h =>
    have hw : w.length ≠ 0 := versionLines_length_ne _ hx
    refine .token { req with version := x, parseStatus := .header } w.length (by simp [hdata])
      (fun q => ?_) (splits_header rfl _)
    rw [requestVerdict_version_token hs (h q 0) hw, List.drop_append_of_le_length (by simp [hdata])]
  | more h => exact .more (requestVerdict_version_more hs (h 0))
  | reject h => exact .reject _ fun q => requestVerdict_version_reject hs (h q 0)

theorem splits_url (hs : req.parseStatus = .url) (hp : ¬ EndsAtUrl req p) :
    Splits requestVerdict req p := by
  cases httpUrlParse_answer p req.url with
  | token u r hu hdata h =>
    have hr : p.drop (u.length + 1) = r := by simp [hdata]
    have hne : r ≠ [] := by
      rintro rfl
      exact hp ⟨[], u, by simp [hdata], hu, Or.inr ⟨hs, rfl⟩⟩
    have hdrop : ∀ q, (p ++ q).drop (u.length + 1) = p.drop (u.length + 1) ++ q := fun q => by
      simp [hdata]
    let url := (urlParseTarget (req.url.store u) u.length).2
    refine .token { req with url, parseStatus := .version } (u.length + 1) (by simp [hdata])
      (fun q => ?_) (splits_version rfl _)
    rw [requestVerdict_url_token hs (h q) (Nat.succ_ne_zero _), hdrop q]
    rw [hdrop q, hr]
    simp [hne]
  | more h => exact .more (requestVerdict_url_more hs h)
  | reject n url h => exact .reject _ fun q => requestVerdict_url_reject hs (h q)

theorem methodTokens_length_ne : ∀ e ∈ methodTokens, e.2.length ≠ 0 := by decide

theorem splits_method (hs : req.parseStatus = .method) (hne : p ≠ []) (hP : p ≠ bytes "P")
    (hp : ¬ EndsAtUrl req p) : Splits requestVerdict req p := by
  cases httpMethodParse_answer req.method hne hP with
  | token x w r hx hdata h =>
    have hw : w.length ≠ 0 := methodTokens_length_ne _ hx
    have hdrop : ∀ q, (p ++ q).drop w.length = p.drop w.length ++ q := fun q => by simp [hdata]
    refine .token { req with method := x, parseStatus := .url } w.length (by simp [hdata])
      (fun q => ?_) (splits_url rfl ?_)
    · rw [requestVerdict_method_token hs (h q) hw, hdrop q]
    · rintro ⟨pre, u, hpre, hu, ⟨hst, -⟩ | ⟨-, rfl⟩⟩
      · cases hst
      · refine hp ⟨w, u, ?_, hu, Or.inl ⟨hs, x, hx⟩⟩
        have hr : p.drop w.length = r := by simp [hdata]
        rw [hr, List.nil_append] at hpre
        rw [hdata, hpre]
  | more h => exact .more (requestVerdict_method_more hs h)
  | reject h => exact .reject _ fun q => requestVerdict_method_reject hs (h q)

end Splits

end OServer
