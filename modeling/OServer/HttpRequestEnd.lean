/-
  OServer/HttpRequestEnd.lean
  ===========================
  **What ends a request.**

    * `httpRequestParse_isolated` — bytes behind the end of a request never change it;
    * `httpRequestParse_ends_iff` — a call that asks for more can still be answered, unless
      the buffer begins with a `NUL` or has a space where the target should begin.
-/
import OServer.HttpHeaderLine
import OServer.HttpRequestLog

namespace OServer

open CString Resume

/-! ## 1. Isolation -/

/-- **Lines behind the blank line are not looked at.** -/
theorem httpHeaderParse_isolated (headers : HttpHeaderCollection) (p : List UInt8) :
    Isolated (fun headers p => (httpHeaderParse headers p).verdict) headers p := by
  by_cases hp : LF ∈ p
  · obtain ⟨w, rest, hwr, hw⟩ := List.eq_append_cons_of_mem hp
    have hsplit : ∀ t, w ++ [LF] ++ t = w ++ LF :: t := fun t => by simp
    have hlen : (w ++ [LF]).length = w.length + 1 := by simp
    have hp' : p = w ++ [LF] ++ rest := by rw [hwr, hsplit]
    cases hl : lineResult w with
    | bad =>
      have hrej : (httpHeaderParse headers p).verdict = .reject headers := by
        rw [hwr, httpHeaderParse_line hw, hl]
        rfl
      exact .reject hrej
    | blank =>
      rw [hp']
      apply Isolated.done
      intro t
      rw [hsplit, hlen, httpHeaderParse_line hw, hl]
      rfl
    | field name ln value lv =>
      have hline : ∀ t, (httpHeaderParse headers (w ++ [LF] ++ t)).verdict =
          (httpHeaderParse ((LineEnd.field name ln value lv).add headers) t).verdict.shift
            (w ++ [LF]).length := by
        intro t
        rw [hsplit, hlen, httpHeaderParse_line hw, hl, HeaderParse.verdict_shift]
      rw [hp']
      by_cases hrest : rest = []
      · rw [hrest]
        exact .more (hline [])
      · apply Isolated.token (fun t _ => hline t) _ hrest (httpHeaderParse_isolated _ rest)
        intro headers' n hdone
        cases hdone
  · cases hst : scanLine p [] (.start NUL) with
    | none =>
      have hrej : (httpHeaderParse headers p).verdict = .reject headers := by
        rw [httpHeaderParse_unfinished hp, hst]
        rfl
      exact .reject hrej
    | some st =>
      have hmore : (httpHeaderParse headers p).verdict = .more headers 0 := by
        rw [httpHeaderParse_unfinished hp, hst]
        rfl
      exact .more hmore
termination_by p.length
decreasing_by
  rw [hwr]
  simp
  omega

section Isolation
variable {req : HttpRequest} {p : List UInt8}

theorem isolated_header (hs : req.parseStatus = .header) (p : List UInt8) :
    Isolated requestVerdict req p := by
  intro req' n hdone
  rw [requestVerdict_header hs] at hdone
  cases hv : (httpHeaderParse req.headers p).verdict with
  | more headers m =>
    rw [hv] at hdone
    cases hdone
  | reject headers =>
    rw [hv] at hdone
    cases hdone
  | done headers m =>
    rw [hv] at hdone
    cases hdone
    obtain ⟨hn, hrest⟩ := httpHeaderParse_isolated req.headers p headers n hv
    refine ⟨hn, ?_⟩
    intro q
    have hq := hrest q
    simp only at hq
    rw [requestVerdict_header hs, hq]
    rfl

/-- Without bytes no request ends. -/
theorem requestVerdict_nil (hs : req.parseStatus ≠ .method) (req' : HttpRequest) (n : Nat) :
    requestVerdict req [] ≠ .done req' n := by
  intro hdone
  cases hst : req.parseStatus with
  | method => exact hs hst
  | url =>
    rw [requestVerdict_url_more hst rfl] at hdone
    cases hdone
  | version =>
    rw [requestVerdict_version_more hst rfl] at hdone
    cases hdone
  | header =>
    rw [requestVerdict_header hst] at hdone
    cases hdone
  | error =>
    rw [requestVerdict_rejected hst] at hdone
    cases hdone

/-! The token of a status, and what the call makes of the bytes behind it. -/

theorem requestVerdict_version_line {x : HttpVersion} {w : List UInt8}
    (hs : req.parseStatus = .version) (hx : (x, w) ∈ versionLines) (t : List UInt8) :
    requestVerdict req (w ++ t) =
      (requestVerdict { req with version := x, parseStatus := .header } t).shift w.length := by
  rw [requestVerdict_version_token hs (httpVersionParse_token hx req.version t)
    (versionLines_length_ne _ hx), List.drop_left]

theorem requestVerdict_target {u t : List UInt8} (hs : req.parseStatus = .url)
    (hu : TargetOk req.url u) (ht : t ≠ []) :
    requestVerdict req (u ++ [SP] ++ t) =
      (requestVerdict
        { req with
          url := (urlParseTarget (req.url.store u) u.length).2
          parseStatus := .version } t).shift (u ++ [SP]).length := by
  have hsplit : u ++ [SP] ++ t = u ++ SP :: t := by simp
  have hlen : (u ++ [SP]).length = u.length + 1 := by simp
  have hdrop : (u ++ SP :: t).drop (u.length + 1) = t := by simp
  rw [hsplit, hlen, requestVerdict_url_token hs (httpUrlParse_token hu t) (Nat.succ_ne_zero _)
    (by rwa [hdrop]), hdrop]

theorem requestVerdict_method_word {x : HttpMethod} {w : List UInt8}
    (hs : req.parseStatus = .method) (hx : (x, w) ∈ methodTokens) (t : List UInt8) :
    requestVerdict req (w ++ t) =
      (requestVerdict { req with method := x, parseStatus := .url } t).shift w.length := by
  rw [requestVerdict_method_token hs (httpMethodParse_token hx req.method t)
    (methodTokens_length_ne _ hx), List.drop_left]

theorem isolated_version (hs : req.parseStatus = .version) (p : List UInt8) :
    Isolated requestVerdict req p := by
  by_cases hp : p = []
  · subst hp
    exact .more (requestVerdict_version_more hs rfl)
  cases httpVersionParse_answer req.version hp with
  | token x w r hx hdata _ =>
    subst hdata
    have hline := requestVerdict_version_line hs hx
    by_cases hr : r = []
    · let req₁ : HttpRequest := { req with version := x, parseStatus := .header }
      have hstay : requestVerdict req₁ [] = .more req₁ 0 := requestVerdict_header rfl []
      rw [hr]
      apply Isolated.more
      rw [hline, hstay]
      rfl
    · apply Isolated.token (fun t _ => hline t) _ hr (isolated_header rfl r)
      exact requestVerdict_nil (by simp)
  | more h => exact .more (requestVerdict_version_more hs (h 0))
  | reject h =>
    have h₀ := h [] 0
    rw [List.append_nil] at h₀
    exact .reject (requestVerdict_version_reject hs h₀)

theorem isolated_url (hs : req.parseStatus = .url) (p : List UInt8) :
    Isolated requestVerdict req p := by
  cases httpUrlParse_answer p req.url with
  | token u r hu hdata _ =>
    by_cases hr : r = []
    · rw [hdata, hr]
      obtain ⟨req', hend⟩ := requestVerdict_url_end hs hu
      exact .more hend
    · have hp : p = u ++ [SP] ++ r := by simp [hdata]
      rw [hp]
      refine .token (fun t ht => requestVerdict_target hs hu ht) ?_ hr (isolated_version rfl r)
      exact requestVerdict_nil (by simp)
  | more h => exact .more (requestVerdict_url_more hs h)
  | reject m url h =>
    have h₀ := h []
    rw [List.append_nil] at h₀
    exact .reject (requestVerdict_url_reject hs h₀)

theorem isolated_method (hs : req.parseStatus = .method) (h : Started req p) :
    Isolated requestVerdict req p := by
  cases httpMethodParse_answer req.method (h hs).1 (h hs).2 with
  | token x w r hx hdata _ =>
    subst hdata
    have hword := requestVerdict_method_word hs hx
    by_cases hr : r = []
    · rw [hr]
      apply Isolated.more
      rw [hword, requestVerdict_url_more rfl rfl]
      rfl
    · apply Isolated.token (fun t _ => hword t) _ hr (isolated_url rfl r)
      exact requestVerdict_nil (by simp)
  | more h => exact .more (requestVerdict_method_more hs h)
  | reject h =>
    have h₀ := h []
    rw [List.append_nil] at h₀
    exact .reject (requestVerdict_method_reject hs h₀)

/-- **What a finished call has consumed decides it**, in every status. -/
theorem request_isolated (req : HttpRequest) (p : List UInt8) : Isolated requestVerdict req p := by
  cases hs : req.parseStatus with
  | method =>
    by_cases hst : Started req p
    · exact isolated_method hs hst
    · obtain ⟨req', hrej⟩ := requestVerdict_not_started hst
      exact .reject hrej
  | url => exact isolated_url hs p
  | version => exact isolated_version hs p
  | header => exact isolated_header hs p
  | error => exact .reject (requestVerdict_rejected hs p)

/-- The verdict of a finished call says all about it. -/
theorem httpRequestParse_done_iff {req' : HttpRequest} {n : Nat} :
    requestVerdict req p = .done req' n ↔ httpRequestParse req p = ⟨0, n, true, req'⟩ := by
  unfold requestVerdict RequestParse.verdict
  constructor
  · intro hdone
    have hret := requestLoop_ret req.parseStatus.rounds req p 0 0
    change (httpRequestParse req p).ret = 0 ∨ (httpRequestParse req p).ret = -1 at hret
    generalize httpRequestParse req p = r at hdone hret ⊢
    rcases r with ⟨ret, rdlen, isEnd, req₁⟩
    simp only at hdone hret
    split_ifs at hdone with hneg hend
    cases hdone
    rcases hret with rfl | rfl
    · rw [hend]
    · exact absurd (by decide) hneg
  · intro hrun
    rw [hrun]
    rfl

end Isolation

/-- **Isolation.**  Any bytes may follow a request that is complete: the call on the bytes that
    were consumed and on anything behind them ends with the same request and the same length. -/
theorem httpRequestParse_isolated {data : List UInt8} {n : Nat} {req : HttpRequest}
    (h : httpRequestParse httpRequestInit data = ⟨0, n, true, req⟩) :
    n ≤ data.length ∧
      ∀ tail, httpRequestParse httpRequestInit (data.take n ++ tail) = ⟨0, n, true, req⟩ := by
  obtain ⟨hn, hrest⟩ := request_isolated httpRequestInit data req n (httpRequestParse_done_iff.mpr h)
  exact ⟨hn, fun tail => httpRequestParse_done_iff.mp (hrest tail)⟩

theorem httpRequestParse_isolated_get :
    ∃ req, httpRequestParse httpRequestInit (bytes "GET / HTTP/1.1\r\n\r\nGET") =
        ⟨0, 18, true, req⟩ ∧
      ∀ tail, httpRequestParse httpRequestInit (bytes "GET / HTTP/1.1\r\n\r\n" ++ tail) =
        ⟨0, 18, true, req⟩ := by
  have hend : ∃ req, httpRequestParse httpRequestInit (bytes "GET / HTTP/1.1\r\n\r\nGET") =
      ⟨0, 18, true, req⟩ := ⟨_, rfl⟩
  obtain ⟨req, hend⟩ := hend
  exact ⟨req, hend, (httpRequestParse_isolated hend).2⟩

/-! ## 2. Ending a request that is not complete -/

/-- No byte behind these is looked at: the buffer begins with a `NUL`, which
    `http_method_parse` takes for a method that is yet to come, or its target is empty, which
    `http_url_parse` takes for one without its space. -/
def WaitsForever (p : List UInt8) : Prop :=
  [NUL] <+: p ∨ ∃ e ∈ methodTokens, e.2 ++ [SP] <+: p

instance waitsForeverDecidable (p : List UInt8) : Decidable (WaitsForever p) :=
  inferInstanceAs (Decidable (_ ∨ ∃ e ∈ methodTokens, e.2 ++ [SP] <+: p))

/-- No part of a well-formed request goes over these two bytes. -/
def stopBytes : List UInt8 := [NUL, LF]

/-- A call that asks for more is refused when the two bytes follow. -/
def Stops (req : HttpRequest) (p : List UInt8) : Prop :=
  (∃ req' n, requestVerdict req p = .more req' n) →
    ∃ req', requestVerdict req (p ++ stopBytes) = .reject req'

theorem shift_more_iff (v : Verdict HttpRequest) (k : Nat) :
    (∃ req' n, v.shift k = .more req' n) ↔ ∃ req' n, v = .more req' n := by
  cases v <;> simp [Verdict.shift]

section Stops
variable {req : HttpRequest} {p : List UInt8}

/-- The line that the two bytes end does not end with a carriage return. -/
theorem httpHeaderParse_stops (headers : HttpHeaderCollection) (p : List UInt8)
    (h : (httpHeaderParse headers p).isEnd = false) :
    (httpHeaderParse headers (p ++ stopBytes)).ret < 0 := by
  by_cases hp : LF ∈ p
  · obtain ⟨w, rest, rfl, hw⟩ := List.eq_append_cons_of_mem hp
    rw [httpHeaderParse_line hw] at h
    rw [List.append_assoc, List.cons_append, httpHeaderParse_line hw]
    cases hl : lineResult w with
    | bad => exact Int.negSucc_lt_zero 0
    | blank =>
      rw [hl] at h
      cases h
    | field name ln value lv =>
      rw [hl] at h
      exact httpHeaderParse_stops _ rest h
  · have hline : LF ∉ p ++ [NUL] := by
      rw [List.mem_append, not_or]
      exact ⟨hp, by decide⟩
    have hlast : (p ++ [NUL]).getLast? ≠ some CR := by
      rw [List.getLast?_concat]
      decide
    have hbad : lineResult (p ++ [NUL]) = .bad := lineEndAt_no_cr [LF] hlast
    have hsplit : p ++ stopBytes = p ++ [NUL] ++ LF :: [] := by simp [stopBytes]
    rw [hsplit, httpHeaderParse_line hline, hbad]
    exact Int.negSucc_lt_zero 0
termination_by p.length

theorem stops_header (hs : req.parseStatus = .header) (p : List UInt8) : Stops req p := by
  rintro ⟨req', n, hmore⟩
  rw [requestVerdict_header hs] at hmore ⊢
  have hend : (httpHeaderParse req.headers p).isEnd = false := by
    unfold HeaderParse.verdict at hmore
    split_ifs at hmore with hret hend
    · cases hmore
    · cases hmore
    · exact Bool.eq_false_iff.mpr hend
  rw [HeaderParse.verdict, if_pos (httpHeaderParse_stops _ p hend)]
  exact ⟨_, rfl⟩

theorem httpVersionParse_stops {v : HttpVersion} (h : httpVersionParse p 0 v = ⟨0, 0, v⟩) :
    httpVersionParse (p ++ stopBytes) 0 v = ⟨-1, 0, v⟩ := by
  have hne : p ++ stopBytes ≠ [] := by simp [stopBytes]
  rcases matchBytes_cases httpVersionStr p with
    ⟨r, rfl, -⟩ | ⟨c, r, hstr, -⟩ | ⟨k, c, d, w, t, hstr, rfl, hdc, -⟩
  · rw [List.append_assoc]
    cases r with
    | nil => exact httpVersionParse_digit NUL [LF] 0 v
    | cons d t =>
      rw [httpVersionParse_digit] at h
      rw [List.cons_append, httpVersionParse_digit]
      by_cases hd : d = '0'.toUInt8 ∨ d = '1'.toUInt8
      · rw [if_pos hd] at h ⊢
        rcases matchBytes_cases httpLineDelimiter t with
          ⟨r, rfl, hm⟩ | ⟨c, r, hdelim, -⟩ | ⟨k, c, e, w, t', hdelim, rfl, hec, hm⟩
        · -- a complete line is no reason to wait
          have hlen := congrArg Parsed.parseLen h
          simp only [hm, true_and, if_true, List.length_append, List.length_cons] at hlen
          omega
        · -- the next byte of the line would not be a `NUL`
          have hc : NUL ≠ c := by
            rintro rfl
            have hmem : NUL ∈ httpLineDelimiter := by simp [hdelim]
            exact absurd hmem (by decide)
          have hdiffer := matchBytes_differ t r [LF] hc
          rw [← hdelim] at hdiffer
          change matchBytes httpLineDelimiter (t ++ stopBytes) = _ at hdiffer
          simp [hdiffer]
        · simp [hm] at h
      · rw [if_neg hd]
  · have hc : NUL ≠ c := by
      rintro rfl
      have hmem : NUL ∈ httpVersionStr := by simp [hstr]
      exact absurd hmem (by decide)
    have hdiffer := matchBytes_differ p r [LF] hc
    rw [← hstr] at hdiffer
    change matchBytes httpVersionStr (p ++ stopBytes) = _ at hdiffer
    simp [httpVersionParse, hne, hdiffer]
  · -- the byte that differs is not the last one any more
    have hdiffer := matchBytes_differ k w (t ++ stopBytes) hdc
    rw [← hstr, ← List.cons_append, ← List.append_assoc] at hdiffer
    rw [httpVersionParse, if_neg hne, hdiffer]
    cases t <;> simp [stopBytes]

theorem stops_version (hs : req.parseStatus = .version) (p : List UInt8) : Stops req p := by
  rintro ⟨req', n, hmore⟩
  have hstop : httpVersionParse p 0 req.version = ⟨0, 0, req.version⟩ →
      ∃ req', requestVerdict req (p ++ stopBytes) = .reject req' := fun h =>
    ⟨_, requestVerdict_version_reject hs (httpVersionParse_stops h)⟩
  by_cases hp : p = []
  · subst hp
    exact hstop rfl
  cases httpVersionParse_answer req.version hp with
  | token x w r hx hdata _ =>
    have hline := requestVerdict_version_line hs hx
    rw [hdata, hline] at hmore
    rw [hdata, List.append_assoc, hline, shift_reject_iff]
    exact stops_header rfl r ((shift_more_iff _ _).mp ⟨req', n, hmore⟩)
  | more h => exact hstop (h 0)
  | reject h =>
    have h₀ := h [] 0
    rw [List.append_nil] at h₀
    rw [requestVerdict_version_reject hs h₀] at hmore
    cases hmore

/-- A target that is not complete, unless it is empty and its space is there. -/
theorem httpUrlParse_stops {url : HttpUrl} (hsp : ¬ [SP] <+: p)
    (h : httpUrlParse p url = ⟨0, 0, url⟩) : httpUrlParse (p ++ stopBytes) url = ⟨-1, 0, url⟩ := by
  cases urlSpace_answer p with
  | space u r hdata hu hspace =>
    by_cases hne : u = []
    · rw [hdata, hne] at hsp
      exact absurd (List.prefix_append [SP] r) hsp
    have hlen : u.length ≠ 0 := fun heq => hne (List.length_eq_zero_iff.mp heq)
    have h₀ := hspace []
    rw [List.append_nil] at h₀
    simp only [httpUrlParse, h₀, if_neg hlen] at h
    split_ifs at h
    · cases congrArg Parsed.ret h
    · cases congrArg Parsed.parseLen h
  | more hu _ =>
    have hnul : urlSpace (p ++ stopBytes) = none := by
      rw [urlSpace_append hu]
      rfl
    rw [httpUrlParse, hnul]
  | nul hnul =>
    rw [httpUrlParse, hnul]

theorem stops_url (hs : req.parseStatus = .url) (hsp : ¬ [SP] <+: p) : Stops req p := by
  rintro ⟨req', n, hmore⟩
  cases httpUrlParse_answer p req.url with
  | token u r hu hdata _ =>
    have hp : p = u ++ [SP] ++ r := by simp [hdata]
    have htarget := fun t (ht : t ≠ []) => requestVerdict_target hs hu ht
    have hne : r ++ stopBytes ≠ [] := by simp [stopBytes]
    rw [hp, List.append_assoc, htarget _ hne, shift_reject_iff]
    by_cases hr : r = []
    · subst hr
      exact stops_version rfl [] ⟨_, _, requestVerdict_version_more rfl rfl⟩
    · rw [hp, htarget r hr] at hmore
      exact stops_version rfl r ((shift_more_iff _ _).mp ⟨req', n, hmore⟩)
  | more h => exact ⟨_, requestVerdict_url_reject hs (httpUrlParse_stops hsp h)⟩
  | reject m url h =>
    have h₀ := h []
    rw [List.append_nil] at h₀
    rw [requestVerdict_url_reject hs h₀] at hmore
    cases hmore

/-- The start of a method, followed by bytes that no method has. -/
theorem httpMethodParse_stops (hnul : ¬ [NUL] <+: p) (h : httpMethodParse p .none = ⟨0, 0, .none⟩) :
    httpMethodParse (p ++ stopBytes) .none = ⟨-1, 0, .none⟩ := by
  have htable : ∀ e ∈ methodTokens, NUL ∉ e.2 := by decide
  obtain ⟨hne, -, -⟩ := (httpMethodParse_more_iff p).mp h
  apply httpMethodParse_refused
  · rintro ⟨-, -, hpeek | ⟨e, he, hpre, -⟩⟩
    · cases p with
      | nil => exact hne rfl
      | cons c p =>
        have hc : c = NUL := hpeek
        apply hnul
        rw [hc]
        exact List.prefix_append [NUL] p
    · apply htable e he
      apply hpre.subset
      simp [stopBytes]
  · rintro ⟨e, he, hpre⟩
    have hbegins : BeginsWithMethod p := ⟨e, he, prefix_of_not_mem hpre (htable e he)⟩
    obtain ⟨x, n, hparse, hn, -⟩ := hbegins.parse .none
    rw [h] at hparse
    exact hn (congrArg Parsed.parseLen hparse).symm

/-- **Whatever is not complete can still be refused**, unless the call waits forever. -/
theorem request_stops (h : ¬ WaitsForever p) : Stops httpRequestInit p := by
  rintro ⟨req', n, hmore⟩
  obtain ⟨hnul, hsp⟩ := not_or.mp h
  have hs : httpRequestInit.parseStatus = .method := rfl
  have hst : Started httpRequestInit p := by
    apply started_of_verdict
    intro req₁ hrej
    rw [hmore] at hrej
    cases hrej
  cases httpMethodParse_answer httpRequestInit.method (hst hs).1 (hst hs).2 with
  | token x w r hx hdata _ =>
    have hword := requestVerdict_method_word hs hx
    have hr : ¬ [SP] <+: r := by
      intro hpre
      apply hsp
      refine ⟨(x, w), hx, ?_⟩
      rw [hdata]
      exact (List.prefix_append_right_inj w).mpr hpre
    rw [hdata, hword] at hmore
    rw [hdata, List.append_assoc, hword, shift_reject_iff]
    exact stops_url rfl hr ((shift_more_iff _ _).mp ⟨req', n, hmore⟩)
  | more hm => exact ⟨_, requestVerdict_method_reject hs (httpMethodParse_stops hnul hm)⟩
  | reject hm =>
    have h₀ := hm []
    rw [List.append_nil] at h₀
    rw [requestVerdict_method_reject hs h₀] at hmore
    cases hmore

/-- The other buffers: nothing that follows is looked at. -/
theorem WaitsForever.more (h : WaitsForever p) : ∃ req n, requestVerdict httpRequestInit p = .more req n := by
  have hs : httpRequestInit.parseStatus = .method := rfl
  rcases h with ⟨r, rfl⟩ | ⟨⟨x, w⟩, hx, r, rfl⟩
  · exact ⟨_, _, requestVerdict_method_more hs rfl⟩
  · have hurl : ∀ url, httpUrlParse ([SP] ++ r) url = ⟨0, 0, url⟩ := fun _ => rfl
    rw [List.append_assoc, requestVerdict_method_word hs hx, requestVerdict_url_more rfl (hurl _)]
    exact ⟨_, _, rfl⟩

theorem WaitsForever.append (h : WaitsForever p) (q : List UInt8) : WaitsForever (p ++ q) := by
  have hpre := List.prefix_append p q
  rcases h with hnul | ⟨e, he, hsp⟩
  · exact .inl (hnul.trans hpre)
  · exact .inr ⟨e, he, hsp.trans hpre⟩

theorem isEnd_iff (req : HttpRequest) (p : List UInt8) :
    (httpRequestParse req p).isEnd = false ↔ ∃ req' n, requestVerdict req p = .more req' n := by
  have hfailed := requestLoop_failed req.parseStatus.rounds req p 0 0
  change (httpRequestParse req p).ret < 0 → _ ∧ (httpRequestParse req p).isEnd = true ∧ _ at hfailed
  unfold requestVerdict RequestParse.verdict
  split_ifs with hret hend
  · obtain ⟨-, hend, -⟩ := hfailed hret
    simp [hend]
  · simp [hend]
  · simp [hend]

/-- Only a call that has ended the request can fail. -/
theorem httpRequestParse_ret (h : (httpRequestParse req p).isEnd = false) :
    (httpRequestParse req p).ret = 0 := by
  rcases requestLoop_ret req.parseStatus.rounds req p 0 0 with hret | hret
  · exact hret
  · have hneg : (httpRequestParse req p).ret < 0 := by
      rw [httpRequestParse, hret]
      exact Int.negSucc_lt_zero 0
    obtain ⟨-, hend, -⟩ := requestLoop_failed _ _ _ _ _ hneg
    exact absurd (hend.symm.trans h) (by decide)

end Stops

/-- **A call that asks for more can be answered** exactly if the buffer neither begins with a
    `NUL` nor has a space where its target should begin. -/
theorem httpRequestParse_ends_iff (data : List UInt8) :
    ((httpRequestParse httpRequestInit data).ret = 0 →
      (httpRequestParse httpRequestInit data).isEnd = false →
      ∃ tail, (httpRequestParse httpRequestInit (data ++ tail)).isEnd = true) ↔
      ¬ WaitsForever data := by
  constructor
  · intro h hwaits
    have hmore := (isEnd_iff httpRequestInit data).mpr hwaits.more
    have hret := httpRequestParse_ret hmore
    obtain ⟨tail, hend⟩ := h hret hmore
    have hagain := (isEnd_iff httpRequestInit (data ++ tail)).mpr (hwaits.append tail).more
    rw [hagain] at hend
    cases hend
  · intro hnot _ hmore
    refine ⟨stopBytes, ?_⟩
    obtain ⟨req', hrej⟩ := request_stops hnot ((isEnd_iff _ _).mp hmore)
    rw [← Bool.not_eq_false, isEnd_iff]
    rintro ⟨req₁, n, hmore'⟩
    rw [hrej] at hmore'
    cases hmore'

example : WaitsForever (bytes "GET  / HTTP/1.1\r\n\r\n") := by decide

/-- A request whose first byte is a `NUL` is waited for whatever arrives. -/
theorem httpRequestParse_waits :
    ¬ ((httpRequestParse httpRequestInit [NUL]).ret = 0 →
      (httpRequestParse httpRequestInit [NUL]).isEnd = false →
      ∃ tail, (httpRequestParse httpRequestInit ([NUL] ++ tail)).isEnd = true) := by
  intro h
  obtain ⟨tail, hend⟩ := h rfl rfl
  cases hend

end OServer
