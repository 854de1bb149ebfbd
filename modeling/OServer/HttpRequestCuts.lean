/-
  OServer/HttpRequestCuts.lean
  ============================
  **How much a call consumes, and where a stream may be cut.**

    * `overruns_iff`    — a call claims more bytes than it was given exactly when its
      buffer ends behind the target;
    * `request_cuttable` — everywhere else a call may be cut;
    * `httpRequestParse_segments` — which ways of cutting a stream do not matter.
-/
import OServer.HttpRequest

namespace OServer

open CString Resume

/-! ## 1. Tokens are recognised -/

theorem httpMethodParse_token {x : HttpMethod} {w : List UInt8} (hx : (x, w) ∈ methodTokens)
    (m : HttpMethod) (q : List UInt8) : httpMethodParse (w ++ q) m = ⟨0, w.length, x⟩ := by
  have hw : w ≠ [] ∧ w ≠ bytes "P" ∧ httpMethodParse w m = ⟨0, w.length, x⟩ := by
    simp only [methodTokens, List.mem_cons, Prod.mk.injEq, List.not_mem_nil, or_false] at hx
    rcases hx with ⟨rfl, rfl⟩ | ⟨rfl, rfl⟩ | ⟨rfl, rfl⟩ | ⟨rfl, rfl⟩ | ⟨rfl, rfl⟩
    all_goals exact ⟨by decide, by decide, rfl⟩
  rcases hw with ⟨hne, hP, hrun⟩
  cases httpMethodParse_answer m hne hP with
  | token y v r hy hdata h =>
    have h₀ := h []
    rw [List.append_nil, hrun] at h₀
    rw [h q, h₀]
  | more h =>
    rw [hrun] at h
    exact absurd (congrArg Parsed.parseLen h) (mt List.length_eq_zero_iff.mp hne)
  | reject h =>
    have h₀ := h []
    rw [List.append_nil, hrun] at h₀
    have hret : (0 : Int) = -1 := congrArg Parsed.ret h₀
    exact absurd hret (by decide)

/-- The bytes of a target are passed over. -/
theorem urlSpace_append {u : List UInt8} (hu : TargetBytes u) (r : List UInt8) :
    urlSpace (u ++ r) = (urlSpace r).map (Option.map (· + u.length)) := by
  induction u with
  | nil => rcases h : urlSpace r with _ | _ | n <;> simp [h]
  | cons c u ih =>
    rcases hu with ⟨hsp, hnul⟩
    rw [List.mem_cons, not_or] at hsp hnul
    simp only [List.cons_append, urlSpace, if_neg (Ne.symm hnul.1), if_neg (Ne.symm hsp.1),
      ih ⟨hsp.2, hnul.2⟩]
    rcases urlSpace r with _ | _ | n
    · rfl
    · rfl
    · simp [Nat.add_assoc]

theorem httpUrlParse_token {url : HttpUrl} {u : List UInt8} (hu : TargetOk url u)
    (r : List UInt8) : httpUrlParse (u ++ SP :: r) url =
      ⟨0, u.length + 1, (urlParseTarget (url.store u) u.length).2⟩ := by
  rcases hu with ⟨hne, hbytes, hlen, hok⟩
  have hspace : urlSpace (u ++ SP :: r) = some (some u.length) := by
    rw [urlSpace_append hbytes]
    exact congrArg (fun n => some (some n)) (Nat.zero_add u.length)
  rw [httpUrlParse_target url hspace hne hlen, hok]

/-! ## 2. Claims beyond the buffer -/

/-- A buffer that ends behind the target, in the status `url`. -/
theorem requestVerdict_url_end {req : HttpRequest} {u : List UInt8} (hs : req.parseStatus = .url)
    (hu : TargetOk req.url u) :
    ∃ req', requestVerdict req (u ++ [SP]) = .more req' (u.length + 1 + (u.length + 1)) := by
  have htok := httpUrlParse_token hu []
  have hver : ∀ n v, httpVersionParse [] n v = ⟨0, n, v⟩ := fun _ _ => rfl
  have hlen : (u.length : Int) + 1 ≠ 0 := by omega
  have hhead : ∀ headers, httpHeaderParse headers [] = ⟨0, 0, false, headers⟩ := fun _ => rfl
  refine ⟨{ req with url := (urlParseTarget (req.url.store u) u.length).2, parseStatus := .header },
    ?_⟩
  simp [requestVerdict, httpRequestParse, hs, ParseStatus.rounds, requestLoop, requestRound, htok,
    hver, hlen, hhead, RequestParse.verdict]

section Consumed
variable {req : HttpRequest} {p : List UInt8}

theorem requestVerdict_endsAtUrl (h : EndsAtUrl req p) :
    ∃ req' n, requestVerdict req p = .more req' n ∧ p.length < n := by
  rcases h with ⟨pre, u, rfl, hu, ⟨hs, x, hx⟩ | ⟨hs, rfl⟩⟩
  · have htok := httpMethodParse_token hx req.method (u ++ [SP])
    have hpre : pre.length ≠ 0 := methodTokens_length_ne _ hx
    let req₁ : HttpRequest := { req with method := x, parseStatus := .url }
    have hs₁ : req₁.parseStatus = .url := rfl
    rcases requestVerdict_url_end hs₁ hu with ⟨req', hend⟩
    rw [requestVerdict_method_token hs htok hpre, List.drop_left, hend]
    refine ⟨req', _, rfl, ?_⟩
    simp only [List.length_append, List.length_singleton]
    omega
  · rcases requestVerdict_url_end hs hu with ⟨req', hend⟩
    refine ⟨req', _, hend, ?_⟩
    simp only [List.nil_append, List.length_append, List.length_singleton]
    omega

/-- A first buffer that a method parser gets: some bytes, but not a lone `P`. -/
def Started (req : HttpRequest) (p : List UInt8) : Prop :=
  req.parseStatus = .method → p ≠ [] ∧ p ≠ bytes "P"

theorem request_splits (h : Started req p) (hp : ¬ EndsAtUrl req p) :
    Splits requestVerdict req p := by
  cases hs : req.parseStatus with
  | method => exact splits_method hs (h hs).1 (h hs).2 hp
  | url => exact splits_url hs hp
  | version => exact splits_version hs p
  | header => exact splits_header hs p
  | error => exact .reject req fun q => requestVerdict_rejected hs _

theorem requestVerdict_not_started (h : ¬ Started req p) :
    ∃ req', requestVerdict req p = .reject req' := by
  have hs : req.parseStatus = .method ∧ (p = [] ∨ p = bytes "P") := by
    unfold Started at h
    tauto
  rcases hs with ⟨hs, rfl | rfl⟩
  · exact ⟨_, requestVerdict_method_reject hs (httpMethodParse_nil _)⟩
  · exact ⟨_, requestVerdict_method_reject hs (httpMethodParse_P _)⟩

theorem started_of_verdict (h : ∀ req', requestVerdict req p ≠ .reject req') : Started req p := by
  by_contra hst
  rcases requestVerdict_not_started hst with ⟨req', hrej⟩
  exact h req' hrej

/-- **A call claims more bytes than it was given exactly when its buffer ends behind an
    acceptable target.** -/
theorem overruns_iff (req : HttpRequest) (p : List UInt8) :
    Overruns requestVerdict req p ↔ EndsAtUrl req p := by
  constructor
  · intro hover
    by_contra hp
    by_cases hst : Started req p
    · exact (request_splits hst hp).not_overruns hover
    · rcases requestVerdict_not_started hst with ⟨req', h⟩
      rcases hover with ⟨req₂, n, hv, -⟩
      rw [h] at hv
      cases hv
  · exact requestVerdict_endsAtUrl

theorem requestVerdict_consumed_le (h : ¬ EndsAtUrl req p) :
    (requestVerdict req p).consumed ≤ p.length := by
  by_cases hst : Started req p
  · exact (request_splits hst h).bound
  · rcases requestVerdict_not_started hst with ⟨req', hv⟩
    rw [hv]
    exact Nat.zero_le _

theorem RequestParse.consumed_eq {r : RequestParse} (h : r.ret = 0) :
    r.verdict.consumed = r.rdlen := by
  unfold RequestParse.verdict
  rw [if_neg (by omega)]
  split <;> rfl

theorem httpRequestParse_rdlen_iff (req : HttpRequest) (data : List UInt8) :
    ((httpRequestParse req data).ret = 0 → (httpRequestParse req data).rdlen ≤ data.length) ↔
      ¬ EndsAtUrl req data := by
  constructor
  · intro h hend
    rcases requestVerdict_endsAtUrl hend with ⟨req', n, hv, hn⟩
    have hret : (httpRequestParse req data).ret = 0 := by
      rcases requestLoop_ret req.parseStatus.rounds req data 0 0 with hret | hret
      · exact hret
      · unfold requestVerdict RequestParse.verdict at hv
        rw [if_pos (by rw [httpRequestParse, hret]; decide)] at hv
        cases hv
    have hcons := RequestParse.consumed_eq hret
    change (requestVerdict req data).consumed = _ at hcons
    rw [hv] at hcons
    have hle := h hret
    rw [← hcons] at hle
    exact absurd hn (Nat.not_lt_of_le hle)
  · intro hend hret
    rw [← RequestParse.consumed_eq hret]
    exact requestVerdict_consumed_le hend

end Consumed

/-! ## 3. Cutting a stream -/

/-- Only a call that consumes nothing leaves the request at its beginning. -/
theorem requestVerdict_more_begin {req req' : HttpRequest} {p : List UInt8} {n : Nat}
    (hst : Started req p) (h : requestVerdict req p = .more req' n)
    (hs' : req'.parseStatus = .method) : req' = req ∧ n = 0 := by
  have hstay : ∀ req₁ : HttpRequest, req₁.parseStatus ≠ .method → ∀ p₁ n₁,
      requestVerdict req₁ p₁ ≠ .more req' n₁ := by
    intro req₁ h₁ p₁ n₁ hv
    have hnot := requestLoop_not_begin req₁.parseStatus.rounds req₁ p₁ 0 0 h₁
    unfold requestVerdict RequestParse.verdict at hv
    split_ifs at hv
    cases hv
    exact hnot hs'
  by_cases hs : req.parseStatus = .method
  · cases httpMethodParse_answer req.method (hst hs).1 (hst hs).2 with
    | token x w r hx hdata htok =>
      have hw : w.length ≠ 0 := methodTokens_length_ne _ hx
      have h₀ := htok []
      rw [List.append_nil] at h₀
      rw [requestVerdict_method_token hs h₀ hw] at h
      cases hv : requestVerdict { req with method := x, parseStatus := .url } (p.drop w.length) with
      | more req₂ n₂ =>
        rw [hv] at h
        cases h
        exact absurd hv (hstay { req with method := x, parseStatus := .url } (by simp) _ _)
      | done req₂ n₂ =>
        rw [hv] at h
        cases h
      | reject req₂ =>
        rw [hv] at h
        cases h
    | more hm =>
      rw [requestVerdict_method_more hs hm] at h
      cases h
      exact ⟨rfl, rfl⟩
    | reject hm =>
      have h₀ := hm []
      rw [List.append_nil] at h₀
      rw [requestVerdict_method_reject hs h₀] at h
      cases h
  · exact absurd h (hstay req hs p n)

/-- Where a stream may be cut. -/
def GoodCut (req : HttpRequest) (p : List UInt8) : Prop :=
  Started req p ∧ ¬ EndsAtUrl req p

theorem request_cuttable : Cuttable requestVerdict GoodCut where
  splits h := request_splits h.1 h.2
  left := by
    intro req p req' n q h hv hq
    have hsplit := request_splits h.1 h.2
    constructor
    · intro hs'
      rcases requestVerdict_more_begin h.1 hv hs' with ⟨rfl, rfl⟩
      exact hq.1 hs'
    · rw [← overruns_iff, hsplit.overruns_left hv q, overruns_iff]
      exact hq.2

/-! ## 4. Outcomes -/

/-- The same verdict, and for a complete request all of its fields and its length. -/
def SameOutcome : Option (Verdict HttpRequest) → Verdict HttpRequest → Prop
  | some (.done req n), .done req' n' => req = req' ∧ n = n'
  | some (.more _ _), .more _ _ => True
  | some (.reject _), .reject _ => True
  | _, _ => False

theorem SameOutcome.refl (v : Verdict HttpRequest) : SameOutcome (some v) v := by
  cases v with
  | done req n => exact ⟨rfl, rfl⟩
  | more req n => trivial
  | reject req => trivial

theorem SameOutcome.reject_iff (req : HttpRequest) (v : Verdict HttpRequest) :
    SameOutcome (some (.reject req)) v ↔ ∃ req', v = .reject req' := by
  cases v <;> simp [SameOutcome]

/-- The bytes behind the version line. -/
def RefusedHeaders (p : List UInt8) : Prop := (httpHeaderParse httpHeaderInit p).ret < 0

/-- The bytes behind the target: no version, or one and then refused headers. -/
def RefusedVersion (p : List UInt8) : Prop :=
  (httpVersionParse p 0 .none).ret < 0 ∨ ∃ e ∈ versionLines, ∃ r, p = e.2 ++ r ∧ RefusedHeaders r

/-- The bytes behind the method. -/
def RefusedTarget (p : List UInt8) : Prop :=
  (httpUrlParse p httpUrlInit).ret < 0 ∨
    ∃ u r, p = u ++ SP :: r ∧ TargetOk httpUrlInit u ∧ RefusedVersion r

/-- A part of the stream is one that its sub-parser refuses. -/
def Refused (p : List UInt8) : Prop :=
  (httpMethodParse p .none).ret < 0 ∨ ∃ e ∈ methodTokens, ∃ r, p = e.2 ++ r ∧ RefusedTarget r

section Refused
variable {req : HttpRequest} {p : List UInt8}

theorem shift_reject_iff (v : Verdict HttpRequest) (n : Nat) :
    (∃ req', v.shift n = .reject req') ↔ ∃ req', v = .reject req' := by
  cases v <;> simp [Verdict.shift]

theorem reject_header_iff (hs : req.parseStatus = .header) (hh : req.headers = httpHeaderInit) :
    (∃ req', requestVerdict req p = .reject req') ↔ RefusedHeaders p := by
  rw [requestVerdict_header hs, hh, RefusedHeaders]
  unfold HeaderParse.verdict
  split_ifs with hret hend
  · exact ⟨fun _ => hret, fun _ => ⟨_, rfl⟩⟩
  · exact ⟨fun ⟨_, h⟩ => (nomatch h), fun h => absurd h hret⟩
  · exact ⟨fun ⟨_, h⟩ => (nomatch h), fun h => absurd h hret⟩

theorem httpVersionParse_token {e : HttpVersion × List UInt8} (he : e ∈ versionLines)
    (v : HttpVersion) (q : List UInt8) : httpVersionParse (e.2 ++ q) 0 v = ⟨0, e.2.length, e.1⟩ := by
  have hrun : e.2 ≠ [] ∧ httpVersionParse e.2 0 v = ⟨0, e.2.length, e.1⟩ := by
    simp only [versionLines, List.mem_cons, List.not_mem_nil, or_false] at he
    rcases he with rfl | rfl
    all_goals exact ⟨by decide, rfl⟩
  rcases hrun with ⟨hne, hrun⟩
  cases httpVersionParse_answer v hne with
  | token y w r hy hdata h =>
    have h₀ := h [] 0
    rw [List.append_nil, hrun] at h₀
    rw [h q, h₀]
  | more h =>
    have h₀ := h 0
    rw [hrun] at h₀
    have hlen : (e.2.length : Int) = 0 := congrArg Parsed.parseLen h₀
    exact absurd (Int.natCast_eq_zero.mp hlen) (mt List.length_eq_zero_iff.mp hne)
  | reject h =>
    have h₀ := h [] 0
    rw [List.append_nil, hrun] at h₀
    have hret : (0 : Int) = -1 := congrArg Parsed.ret h₀
    exact absurd hret (by decide)

theorem reject_version_iff (hs : req.parseStatus = .version) (hv : req.version = .none)
    (hh : req.headers = httpHeaderInit) (hp : p ≠ []) :
    (∃ req', requestVerdict req p = .reject req') ↔ RefusedVersion p := by
  cases httpVersionParse_answer req.version hp with
  | token x w r hx hdata h =>
    have h₀ := h [] 0
    rw [List.append_nil] at h₀
    have hw : w.length ≠ 0 := versionLines_length_ne _ hx
    let req₁ : HttpRequest := { req with version := x, parseStatus := .header }
    have hrest : (∃ req', requestVerdict req₁ r = .reject req') ↔ RefusedHeaders r :=
      reject_header_iff rfl hh
    rw [requestVerdict_version_token hs h₀ hw, shift_reject_iff, hdata, List.drop_left, hrest]
    rw [hv, hdata] at h₀
    constructor
    · intro hr
      exact Or.inr ⟨(x, w), hx, r, rfl, hr⟩
    · rintro (hret | ⟨e, he, r', heq, hr⟩)
      · rw [h₀] at hret
        exact absurd hret (by simp)
      · have hlen : w.length = e.2.length :=
          (versionLines_length _ hx).trans (versionLines_length _ he).symm
        rwa [(List.append_inj heq hlen).2]
  | more h =>
    rw [requestVerdict_version_more hs (h 0)]
    rw [hv] at h
    constructor
    · rintro ⟨_, h⟩
      cases h
    · rintro (hret | ⟨e, he, r', rfl, -⟩)
      · rw [h 0] at hret
        exact absurd hret (by simp)
      · have htok := httpVersionParse_token he .none r'
        rw [h 0] at htok
        have hlen := congrArg Parsed.parseLen htok
        rw [versionLines_length _ he] at hlen
        cases hlen
  | reject h =>
    have h₀ := h [] 0
    rw [List.append_nil] at h₀
    rw [requestVerdict_version_reject hs h₀]
    rw [hv] at h₀
    exact ⟨fun _ => Or.inl (by rw [h₀]; decide), fun _ => ⟨_, rfl⟩⟩

theorem refusedVersion_nil : ¬ RefusedVersion [] := by
  rintro (hret | ⟨e, he, r, heq, -⟩)
  · exact absurd hret (by decide)
  · have hlen := versionLines_length _ he
    rw [(List.append_eq_nil_iff.mp heq.symm).1] at hlen
    cases hlen

theorem refusedTarget_token {u r : List UInt8} (hok : TargetOk httpUrlInit u) :
    RefusedTarget (u ++ SP :: r) ↔ RefusedVersion r := by
  have h := httpUrlParse_token hok r
  constructor
  · rintro (hret | ⟨u', r', heq, hok', hr⟩)
    · rw [h] at hret
      exact absurd hret (by simp)
    · have htok := httpUrlParse_token hok' r'
      rw [← heq, h] at htok
      have hlen : u.length + 1 = u'.length + 1 := congrArg Parsed.parseLen htok
      have hinj := List.append_inj heq (Nat.succ.inj hlen)
      rwa [(List.cons.inj hinj.2).2]
  · intro hr
    exact Or.inr ⟨u, r, rfl, hok, hr⟩

theorem reject_url_iff (hs : req.parseStatus = .url) (hu : req.url = httpUrlInit)
    (hv : req.version = .none) (hh : req.headers = httpHeaderInit) :
    (∃ req', requestVerdict req p = .reject req') ↔ RefusedTarget p := by
  cases httpUrlParse_answer p req.url with
  | token u r hok hdata h =>
    subst hdata
    have h₀ := h []
    rw [List.append_nil] at h₀
    have hdrop : (u ++ SP :: r).drop (u.length + 1) = r := by simp
    by_cases hr : r = []
    · -- the version parser has not been asked yet
      rcases requestVerdict_url_end hs hok with ⟨req', hend⟩
      rw [hu] at hok
      rw [hr, hend, refusedTarget_token hok]
      exact ⟨fun ⟨_, h⟩ => (nomatch h), fun h => absurd h refusedVersion_nil⟩
    · let req₁ : HttpRequest :=
        { req with url := (urlParseTarget (req.url.store u) u.length).2, parseStatus := .version }
      have hrest : (∃ req', requestVerdict req₁ r = .reject req') ↔ RefusedVersion r :=
        reject_version_iff rfl hv hh hr
      rw [hu] at hok
      rw [requestVerdict_url_token hs h₀ (Nat.succ_ne_zero _) (by rwa [hdrop]), shift_reject_iff,
        hdrop, hrest, refusedTarget_token hok]
  | more h =>
    rw [requestVerdict_url_more hs h]
    rw [hu] at h
    constructor
    · rintro ⟨_, h⟩
      cases h
    · rintro (hret | ⟨u, r, hdata, hok, -⟩)
      · rw [h] at hret
        exact absurd hret (by simp)
      · have htok := httpUrlParse_token hok r
        rw [← hdata, h] at htok
        exact absurd (congrArg Parsed.parseLen htok) (Nat.succ_ne_zero _).symm
  | reject n url h =>
    have h₀ := h []
    rw [List.append_nil] at h₀
    rw [requestVerdict_url_reject hs h₀]
    rw [hu] at h₀
    exact ⟨fun _ => Or.inl (by simp [h₀]), fun _ => ⟨_, rfl⟩⟩

/-- **A fresh request rejects the streams with a refused part.** -/
theorem reject_iff (p : List UInt8) :
    (∃ req', requestVerdict httpRequestInit p = .reject req') ↔ Refused p := by
  have hs : httpRequestInit.parseStatus = .method := rfl
  by_cases hst : Started httpRequestInit p
  · cases httpMethodParse_answer .none (hst hs).1 (hst hs).2 with
    | token x w r hx hdata h =>
      have h₀ := h []
      rw [List.append_nil] at h₀
      have hw : w.length ≠ 0 := methodTokens_length_ne _ hx
      let req₁ : HttpRequest := { httpRequestInit with method := x, parseStatus := .url }
      have hrest : (∃ req', requestVerdict req₁ r = .reject req') ↔ RefusedTarget r :=
        reject_url_iff rfl rfl rfl rfl
      rw [requestVerdict_method_token hs h₀ hw, shift_reject_iff, hdata, List.drop_left, hrest]
      rw [hdata] at h₀
      constructor
      · intro hr
        exact Or.inr ⟨(x, w), hx, r, rfl, hr⟩
      · rintro (hret | ⟨e, he, r', heq, hr⟩)
        · rw [h₀] at hret
          exact absurd hret (by simp)
        · have htok := httpMethodParse_token he .none r'
          rw [← heq, h₀] at htok
          rwa [(List.append_inj heq (congrArg Parsed.parseLen htok)).2]
    | more h =>
      rw [requestVerdict_method_more hs h]
      constructor
      · rintro ⟨_, h⟩
        cases h
      · rintro (hret | ⟨e, he, r, rfl, -⟩)
        · rw [h] at hret
          exact absurd hret (by simp)
        · have htok := httpMethodParse_token he .none r
          rw [h] at htok
          have hlen : 0 = e.2.length := congrArg Parsed.parseLen htok
          exact absurd hlen.symm (methodTokens_length_ne _ he)
    | reject h =>
      have h₀ := h []
      rw [List.append_nil] at h₀
      rw [requestVerdict_method_reject hs h₀]
      exact ⟨fun _ => Or.inl (by rw [h₀]; decide), fun _ => ⟨_, rfl⟩⟩
  · have hp : p = [] ∨ p = bytes "P" := by
      unfold Started at hst
      tauto
    refine ⟨fun _ => Or.inl ?_, fun _ => requestVerdict_not_started hst⟩
    rcases hp with rfl | rfl
    all_goals decide

end Refused

/-! ## 5. Which ways of cutting matter -/

/-- The first call gets the byte `P` alone. -/
def LoneP (cs : List (List UInt8)) : Prop := ∃ rest, cs = bytes "P" :: rest ∧ rest ≠ []

/-- The first call may get a lone `P` only of a stream that is refused anyway, and no other
    call may end behind the target. -/
def Harmless (cs : List (List UInt8)) : Prop :=
  (LoneP cs → Refused cs.flatten) ∧
    (¬ LoneP cs → ∀ p, Cuts cs [] p → ¬ EndsAtUrl httpRequestInit p)

/-- Only a lone first `P` is a cut at which the parser has not started. -/
theorem started_of_cuts {cs : List (List UInt8)} (hne : ∀ c ∈ cs, c ≠ []) (hP : ¬ LoneP cs)
    {p : List UInt8} (h : Cuts cs [] p) : Started httpRequestInit p := by
  rcases h with ⟨cs₁, cs₂, rfl, h₁, h₂, rfl⟩
  cases cs₁ with
  | nil => exact absurd rfl h₁
  | cons c cs₁ =>
    have hc : c ≠ [] := hne c (by simp)
    refine fun _ => ⟨by simp [hc], fun heq => ?_⟩
    rcases List.exists_cons_of_ne_nil hc with ⟨b, hb⟩
    rcases hb with ⟨t, rfl⟩
    have heq' : b :: (t ++ cs₁.flatten) = ['P'.toUInt8] := heq
    rcases List.cons.inj heq' with ⟨rfl, ht⟩
    rcases List.append_eq_nil_iff.mp ht with ⟨rfl, hflat⟩
    have hcs₁ : cs₁ = [] := by
      apply List.eq_nil_iff_forall_not_mem.mpr
      intro d hd
      exact hne d (by simp [hd]) (List.flatten_eq_nil_iff.mp hflat d hd)
    exact hP ⟨cs₂, by rw [hcs₁]; rfl, h₂⟩

theorem feed_loneP (rest : List (List UInt8)) :
    ∃ req, feed requestVerdict httpRequestInit [] 0 (bytes "P" :: rest) = some (.reject req) := by
  have hs : httpRequestInit.parseStatus = .method := rfl
  have hv := requestVerdict_method_reject hs (httpMethodParse_P httpRequestInit.method)
  refine ⟨{ httpRequestInit with parseStatus := .error }, ?_⟩
  simp only [feed, List.nil_append, hv]
  rfl

/-- **Feeding the chunks of a stream is one call on the stream exactly for the harmless
    ways of cutting it.** -/
theorem httpRequestParse_segments (cs : List (List UInt8)) (hne : ∀ c ∈ cs, c ≠ []) :
    SameOutcome (feed requestVerdict httpRequestInit [] 0 cs)
        (requestVerdict httpRequestInit cs.flatten) ↔ cs ≠ [] ∧ Harmless cs := by
  by_cases hnil : cs = []
  · -- no call at all against a call without bytes
    subst hnil
    have hst : ¬ Started httpRequestInit [] := fun h => (h rfl).1 rfl
    rcases requestVerdict_not_started hst with ⟨req', hrej⟩
    rw [List.flatten_nil, hrej]
    exact ⟨fun h => h.elim, fun h => absurd rfl h.1⟩
  by_cases hP : LoneP cs
  · have hharm : cs ≠ [] ∧ Harmless cs ↔ Refused cs.flatten :=
      ⟨fun h => h.2.1 hP, fun h => ⟨hnil, fun _ => h, fun h => absurd hP h⟩⟩
    rw [hharm, ← reject_iff]
    rcases hP with ⟨rest, rfl, -⟩
    rcases feed_loneP rest with ⟨req, hfeed⟩
    rw [hfeed]
    exact SameOutcome.reject_iff req _
  by_cases hcuts : ∀ p, Cuts cs [] p → ¬ EndsAtUrl httpRequestInit p
  · have hgood : ∀ p, Cuts cs [] p → GoodCut httpRequestInit p := fun p hp =>
      ⟨started_of_cuts hne hP hp, hcuts p hp⟩
    rw [feed_eq_parse request_cuttable cs httpRequestInit [] 0 hnil hgood, Verdict.shift_zero,
      List.nil_append]
    exact ⟨fun _ => ⟨hnil, fun h => absurd h hP, fun _ => hcuts⟩, fun _ => SameOutcome.refl _⟩
  · have hnone : feed requestVerdict httpRequestInit [] 0 cs = none := by
      push Not at hcuts
      rcases hcuts with ⟨p, hp, hend⟩
      refine feed_eq_none request_cuttable cs httpRequestInit [] 0 (fun p hp => ?_)
        ⟨p, hp, (overruns_iff _ p).mpr hend⟩
      rw [overruns_iff]
      by_cases hend : EndsAtUrl httpRequestInit p
      · exact Or.inr hend
      · exact Or.inl ⟨started_of_cuts hne hP hp, hend⟩
    rw [hnone]
    exact ⟨fun h => h.elim, fun h => absurd (h.2.2 hP) hcuts⟩

theorem httpRequestParse_segments_get :
    SameOutcome (feed requestVerdict httpRequestInit [] 0 [bytes "GET ", bytes "/ HTTP"])
        (requestVerdict httpRequestInit (bytes "GET / HTTP")) ↔
      [bytes "GET ", bytes "/ HTTP"] ≠ [] ∧ Harmless [bytes "GET ", bytes "/ HTTP"] :=
  httpRequestParse_segments [bytes "GET ", bytes "/ HTTP"] (by decide)

/-- A `PUT` request is refused when its first byte comes alone. -/
theorem httpRequestParse_not_segments :
    ¬ SameOutcome
      (feed requestVerdict httpRequestInit [] 0 [bytes "P", bytes "UT / HTTP/1.1\r\n\r\n"])
      (requestVerdict httpRequestInit (bytes "PUT / HTTP/1.1\r\n\r\n")) := by
  rcases feed_loneP [bytes "UT / HTTP/1.1\r\n\r\n"] with ⟨req, hfeed⟩
  have hdone : ∃ req n, requestVerdict httpRequestInit (bytes "PUT / HTTP/1.1\r\n\r\n") =
      .done req n := ⟨_, _, rfl⟩
  rcases hdone with ⟨req', n, hdone⟩
  rw [hfeed, hdone]
  exact id

end OServer
