/-
  OServer/HttpTokens.lean
  =======================
  **Which methods and version lines are recognised.**

  A buffer may end within a token.  The parsers of the method and of the version have to
  tell such a buffer from one that no further bytes make a token of.

    * `httpMethodParse_classifies`  — `http_method_parse` does, except for `DELETE ` and
                                      `PATCH `, which are in the table only, and for a buffer
                                      that begins with a `NUL`;
    * `httpVersionParse_classifies` — `http_version_parse` does, except for a difference in
                                      the last byte of a buffer that is not longer than
                                      `HTTP/1.`, and for an empty buffer.
-/
import OServer.HttpRequestLog
import OServer.Lib.Tokens

namespace OServer

open CString

/-! ## 1. Methods -/

/-- The entries of `methods[]`, as `http_method_str` gives them. -/
def methodTable : List (HttpMethod × List UInt8) :=
  [.get, .put, .delete, .patch, .post, .head, .options].filterMap fun x =>
    (httpMethodStr x).map (x, ·)

theorem methodTable_prefixFree : PrefixFree methodTable := ⟨by decide, by decide⟩

theorem methodTokens_subset {e : HttpMethod × List UInt8} (he : e ∈ methodTokens) :
    e ∈ methodTable := by
  revert e
  decide

/-- The entries that the parser has no branch for. -/
def methodUnparsed : List (HttpMethod × List UInt8) :=
  [(.delete, bytes "DELETE "), (.patch, bytes "PATCH ")]

theorem methodUnparsed_subset {e : HttpMethod × List UInt8} (he : e ∈ methodUnparsed) :
    e ∈ methodTable := by
  revert e
  decide

theorem methodUnparsed_not_token {e : HttpMethod × List UInt8} (he : e ∈ methodUnparsed) :
    e ∉ methodTokens := by
  revert e
  decide

theorem methodTable_cases {e : HttpMethod × List UInt8} (he : e ∈ methodTable) :
    e ∈ methodTokens ∨ e ∈ methodUnparsed := by
  revert e
  decide

theorem prefix_of_peek {data : List UInt8} (hne : data ≠ []) {c : UInt8} (h : peek data = c) :
    [c] <+: data := by
  cases data with
  | nil => exact absurd rfl hne
  | cons d rest =>
    obtain rfl : d = c := h
    exact List.prefix_append [d] rest

/-- What begins like an entry does not begin with a `NUL`. -/
theorem not_nul_of_methodTable {e : HttpMethod × List UInt8} (he : e ∈ methodTable)
    {data : List UInt8} (hne : data ≠ []) (h : e.2 <+: data ∨ data <+: e.2) : peek data ≠ NUL := by
  have hentry : ∀ e ∈ methodTable, ∀ p ∈ e.2.inits, p ≠ [] → peek p ≠ NUL := by decide
  obtain ⟨r, rfl⟩ | hpre := h
  · have hfirst := methodTable_prefixFree.ne_nil e he
    have hpeek : peek (e.2 ++ r) = peek e.2 := by
      cases hw : e.2 with
      | nil => exact absurd hw hfirst
      | cons c w => rfl
    rw [hpeek]
    exact hentry e he e.2 ((List.mem_inits _ _).mpr List.prefix_rfl) hfirst
  · exact hentry e he data ((List.mem_inits _ _).mpr hpre) hne

/-- The parser has a branch for every entry that the buffer can still be, and does not begin
    with a `NUL`. -/
def MethodKnown (data : List UInt8) : Prop :=
  ¬ [NUL] <+: data ∧ ∀ e ∈ methodUnparsed, ¬ e.2 <+: data ∧ ¬ data <+: e.2

/-- The value that is there before is not looked at. -/
theorem httpMethodParse_prior (data : List UInt8) (m m' : HttpMethod) :
    (httpMethodParse data m').ret = (httpMethodParse data m).ret ∧
      (httpMethodParse data m').parseLen = (httpMethodParse data m).parseLen := by
  cases data with
  | nil => exact ⟨rfl, rfl⟩
  | cons c rest =>
    simp only [httpMethodParse, methodMatch]
    split_ifs <;> exact ⟨rfl, rfl⟩

section Method
variable {data : List UInt8} (m : HttpMethod)

theorem MethodUnfinished.parse (h : MethodUnfinished data) :
    httpMethodParse data m = ⟨0, 0, m⟩ := by
  have hnone := (httpMethodParse_more_iff data).mpr h
  obtain ⟨hret, hlen⟩ := httpMethodParse_prior data m .none
  rw [hnone] at hret hlen
  cases httpMethodParse_answer m h.1 h.2.1 with
  | token x w r hx _ hrun =>
    have hrun := hrun []
    rw [List.append_nil] at hrun
    rw [hrun] at hlen
    exact absurd hlen.symm (methodTokens_length_ne _ hx)
  | more hrun => exact hrun
  | reject hrun =>
    have hrun := hrun []
    rw [List.append_nil] at hrun
    rw [hrun] at hret
    cases hret

theorem httpMethodParse_refuses (h : ¬MethodUnfinished data) (h' : ¬BeginsWithMethod data) :
    httpMethodParse data m = ⟨-1, 0, m⟩ := by
  by_cases hne : data = []
  · rw [hne]
    rfl
  by_cases hP : data = bytes "P"
  · rw [hP]
    rfl
  obtain ⟨hret, -⟩ := httpMethodParse_prior data m .none
  rw [httpMethodParse_refused h h'] at hret
  cases httpMethodParse_answer m hne hP with
  | token x w r hx hdata _ => exact absurd ⟨(x, w), hx, r, hdata.symm⟩ h'
  | more hrun =>
    rw [hrun] at hret
    cases hret
  | reject hrun =>
    have hrun := hrun []
    rwa [List.append_nil] at hrun

/-- An entry without a branch is refused, and so is the start of it. -/
theorem httpMethodParse_unparsed (hne : data ≠ []) {e : HttpMethod × List UInt8}
    (he : e ∈ methodUnparsed) (h : e.2 <+: data ∨ data <+: e.2) :
    httpMethodParse data m = ⟨-1, 0, m⟩ := by
  have htable : e ∈ methodTable := methodUnparsed_subset he
  have hother : ∀ e' ∈ methodTokens, ¬ e.2 <+: e'.2 ∧ ¬ e'.2 <+: e.2 := by
    intro e' he'
    have hdiffer : e ≠ e' := by
      rintro rfl
      exact methodUnparsed_not_token he he'
    exact ⟨fun hpre => hdiffer (methodTable_prefixFree.eq _ htable _ (methodTokens_subset he') hpre),
      fun hpre => hdiffer (methodTable_prefixFree.eq _ (methodTokens_subset he') _ htable hpre).symm⟩
  apply httpMethodParse_refuses
  · rintro ⟨-, hP, hnul | ⟨e', he', hpre, -⟩⟩
    · exact not_nul_of_methodTable htable hne h hnul
    · obtain hw | hw := h
      · exact (hother e' he').1 (hw.trans hpre)
      · have hcommon : ∀ e ∈ methodUnparsed, ∀ e' ∈ methodTokens, ∀ p ∈ e.2.inits,
            p ≠ [] → p ≠ bytes "P" → ¬ p <+: e'.2 := by decide
        exact hcommon e he e' he' data ((List.mem_inits _ _).mpr hw) hne hP hpre
  · rintro ⟨e', he', hpre⟩
    obtain hw | hw := h
    · rcases List.prefix_or_prefix_of_prefix hpre hw with hle | hle
      · exact (hother e' he').2 hle
      · exact (hother e' he').1 hle
    · exact (hother e' he').2 (hpre.trans hw)

/-- What the buffer can still be has a branch. -/
theorem MethodKnown.branch (h : MethodKnown data) {e : HttpMethod × List UInt8}
    (he : e ∈ methodTable) (hor : e.2 <+: data ∨ data <+: e.2) : e ∈ methodTokens := by
  rcases methodTable_cases he with htoken | hun
  · exact htoken
  · obtain hpre | hpre := hor
    · exact absurd hpre (h.2 e hun).1
    · exact absurd hpre (h.2 e hun).2

/-- A known buffer is refused when it can be no entry. -/
theorem MethodKnown.refused (h : MethodKnown data) (hne : data ≠ [])
    (hbegins : ¬BeginsWithMethod data) (hunfinished : ¬MethodUnfinished data) :
    ∀ e ∈ methodTable, ¬ e.2 <+: data ∧ ¬ data <+: e.2 := by
  intro e he
  constructor
  · intro hpre
    exact hbegins ⟨e, h.branch he (.inl hpre), hpre⟩
  · intro hpre
    have htoken := h.branch he (.inr hpre)
    apply hunfinished
    refine ⟨hne, ?_, .inr ⟨e, htoken, hpre, ?_⟩⟩
    · rintro rfl
      exact (h.2 (.patch, bytes "PATCH ") (by decide)).2 (by decide)
    · rintro rfl
      exact hbegins ⟨e, htoken, List.prefix_rfl⟩

/-- **The methods of the table are recognised**, in complete and in partial buffers, exactly
    when the parser has a branch for what the buffer can still be. -/
theorem httpMethodParse_classifies (hne : data ≠ []) :
    Classified methodTable data m (httpMethodParse data m) ↔ MethodKnown data := by
  constructor
  · intro h
    constructor
    · rintro ⟨rest, rfl⟩
      obtain ⟨e, he, hpre, -⟩ := h.more.mp rfl
      exact not_nul_of_methodTable he hne (.inr hpre) rfl
    · intro e he
      have hno := fun hor => h.reject.mp (congrArg Parsed.ret (httpMethodParse_unparsed m hne he hor))
        e (methodUnparsed_subset he)
      exact ⟨fun hpre => (hno (.inl hpre)).1 hpre, fun hpre => (hno (.inr hpre)).2 hpre⟩
  · intro hknown
    by_cases hbegins : BeginsWithMethod data
    · obtain ⟨⟨x, w⟩, hx, hw⟩ := hbegins
      have hrun : httpMethodParse data m = ⟨0, w.length, x⟩ := by
        obtain ⟨r, rfl⟩ := hw
        exact httpMethodParse_token hx m r
      rw [hrun]
      exact .of_token methodTable_prefixFree (methodTokens_subset hx) hw
    by_cases hunfinished : MethodUnfinished data
    · rw [hunfinished.parse m]
      obtain ⟨-, -, hpeek | ⟨e, he, hpre, hneq⟩⟩ := hunfinished
      · exact absurd (prefix_of_peek hne hpeek) hknown.1
      · exact .of_more methodTable_prefixFree (methodTokens_subset he) hpre hneq
    · rw [httpMethodParse_refuses m hunfinished hbegins]
      exact .of_reject (hknown.refused hne hbegins hunfinished)

end Method

theorem httpMethodParse_classifies_get :
    Classified methodTable (bytes "GE") .none (httpMethodParse (bytes "GE") .none) :=
  (httpMethodParse_classifies .none (by decide)).mpr ⟨by decide, by decide⟩

/-- The table has an entry for `DELETE`, the parser has no branch for it. -/
theorem httpMethodParse_not_classifies :
    ¬ Classified methodTable (bytes "DELETE / HTTP/1.1") .none
      (httpMethodParse (bytes "DELETE / HTTP/1.1") .none) := by
  intro h
  have htoken := (h.token .delete 7).mpr ⟨bytes "DELETE ", by decide, by decide, rfl⟩
  exact absurd htoken.1 (by decide)

/-! ## 2. Versions -/

theorem versionLines_prefixFree : PrefixFree versionLines := ⟨by decide, by decide⟩

/-- The buffer is not longer than `HTTP/1.` and differs from it in its last byte; whether it
    does is looked at only when another byte follows. -/
def LastByteDiffers (data : List UInt8) : Prop :=
  data.length ≤ httpVersionStr.length ∧ data.dropLast <+: httpVersionStr ∧
    ¬ data <+: httpVersionStr

theorem versionLine_eq {e : HttpVersion × List UInt8} (he : e ∈ versionLines) :
    ∃ d, (d = '0'.toUInt8 ∨ d = '1'.toUInt8) ∧
      e.2 = httpVersionStr ++ d :: httpLineDelimiter := by
  simp only [versionLines, List.mem_cons, List.not_mem_nil, or_false] at he
  rcases he with rfl | rfl
  · exact ⟨'0'.toUInt8, .inl rfl, rfl⟩
  · exact ⟨'1'.toUInt8, .inr rfl, rfl⟩

theorem versionLine_mem {d : UInt8} (hd : d = '0'.toUInt8 ∨ d = '1'.toUInt8) :
    (if d = '0'.toUInt8 then HttpVersion.v1_0 else .v1_1,
      httpVersionStr ++ d :: httpLineDelimiter) ∈ versionLines := by
  rcases hd with rfl | rfl <;> decide

/-- A difference in front of the digit. -/
theorem versionLine_differs {k p t : List UInt8} {c d : UInt8} (hk : httpVersionStr = k ++ c :: p)
    (hdc : d ≠ c) {e : HttpVersion × List UInt8} (he : e ∈ versionLines) :
    ¬ e.2 <+: k ++ d :: t ∧ ¬ k ++ d :: t <+: e.2 := by
  obtain ⟨b, -, heq⟩ := versionLine_eq he
  rw [heq, hk, List.append_assoc, List.cons_append]
  exact ⟨not_prefix_of_differ k _ _ hdc.symm, not_prefix_of_differ k _ _ hdc⟩

/-- Behind `HTTP/1.` every buffer is told apart. -/
theorem httpVersionParse_behind (r : List UInt8) (parseLen : Int) (v : HttpVersion) :
    Classified versionLines (httpVersionStr ++ r) v
      (httpVersionParse (httpVersionStr ++ r) parseLen v) := by
  have hfree := versionLines_prefixFree
  cases r with
  | nil =>
    have hrun : httpVersionParse (httpVersionStr ++ []) parseLen v = ⟨0, 0, v⟩ := by
      rw [httpVersionParse, if_neg (by decide), matchBytes_append]
    rw [hrun]
    exact .of_more hfree (versionLine_mem (.inl rfl)) (by decide) (by decide)
  | cons d t =>
    rw [httpVersionParse_digit]
    by_cases hd : d = '0'.toUInt8 ∨ d = '1'.toUInt8
    · rw [if_pos hd]
      have hmem := versionLine_mem hd
      rcases matchBytes_cases httpLineDelimiter t with
        ⟨r, rfl, hm⟩ | ⟨c, r, hend, hm⟩ | ⟨k, c, e, p', t', hk, rfl, hec, hm⟩
      · have hlen : (httpVersionStr ++ d :: (httpLineDelimiter ++ r)).length - r.length =
            (httpVersionStr ++ d :: httpLineDelimiter).length := by
          simp only [List.length_append, List.length_cons]
          omega
        simp only [hm, true_and, if_true, hlen]
        apply Classified.of_token hfree hmem
        exact ⟨r, by simp⟩
      · simp only [hm, true_and, ne_eq, reduceCtorEq, not_false_eq_true, if_true, if_false]
        refine .of_more hfree hmem ?_ ?_
        · rw [hend]
          exact ⟨c :: r, by simp⟩
        · rw [hend]
          simp
      · simp only [hm, Bool.false_eq_true, false_and, if_false]
        apply Classified.of_reject
        intro e' he'
        obtain ⟨d', -, heq⟩ := versionLine_eq he'
        rw [heq, List.prefix_append_right_inj, List.prefix_append_right_inj, List.cons_prefix_cons,
          List.cons_prefix_cons, hk]
        exact ⟨fun h => not_prefix_of_differ k p' t' hec.symm h.2,
          fun h => not_prefix_of_differ k t' p' hec h.2⟩
    · rw [if_neg hd]
      apply Classified.of_reject
      intro e' he'
      obtain ⟨d', hd', heq⟩ := versionLine_eq he'
      rw [heq, List.prefix_append_right_inj, List.prefix_append_right_inj, List.cons_prefix_cons,
        List.cons_prefix_cons]
      constructor
      · rintro ⟨rfl, -⟩
        exact hd hd'
      · rintro ⟨rfl, -⟩
        exact hd hd'

/-- The difference is noticed when it is not in the last byte. -/
theorem lastByteDiffers_iff {k p t : List UInt8} {c d : UInt8} (hk : httpVersionStr = k ++ c :: p)
    (hdc : d ≠ c) : LastByteDiffers (k ++ d :: t) ↔ t = [] := by
  constructor
  · rintro ⟨-, hpre, -⟩
    by_contra hne
    have hlast : (k ++ d :: t).dropLast = k ++ d :: t.dropLast := by
      rw [List.dropLast_append_cons, List.dropLast_cons_of_ne_nil hne]
    rw [hlast, hk] at hpre
    exact not_prefix_of_differ k _ p hdc hpre
  · rintro rfl
    refine ⟨?_, ?_, ?_⟩
    · rw [hk, List.length_append, List.length_append]
      simp
    · rw [hk, List.dropLast_concat]
      exact List.prefix_append k _
    · rw [hk]
      exact not_prefix_of_differ k [] p hdc

/-- On an empty buffer `*parse_len` is not set. -/
theorem httpVersionParse_empty (parseLen : Int) (v : HttpVersion) :
    Classified versionLines [] v (httpVersionParse [] parseLen v) ↔ parseLen = 0 := by
  have hmem := versionLine_mem (.inl rfl)
  constructor
  · intro h
    have hmore := h.more.mpr ⟨_, hmem, List.nil_prefix, by simp⟩
    exact congrArg Parsed.parseLen hmore
  · rintro rfl
    exact .of_more versionLines_prefixFree hmem List.nil_prefix (by simp)

/-- **The version lines are recognised**, in complete and in partial buffers, exactly when the
    last byte of a short buffer does not differ, and when `*parse_len` is zero before a call on
    an empty buffer. -/
theorem httpVersionParse_classifies (data : List UInt8) (parseLen : Int) (v : HttpVersion) :
    Classified versionLines data v (httpVersionParse data parseLen v) ↔
      (data = [] → parseLen = 0) ∧ ¬ LastByteDiffers data := by
  have hfree := versionLines_prefixFree
  by_cases hne : data = []
  · subst hne
    have hdiffers : ¬ LastByteDiffers [] := fun h => h.2.2 List.nil_prefix
    rw [httpVersionParse_empty, and_iff_left hdiffers, imp_iff_right rfl]
  have hlen : data = [] → parseLen = 0 := fun hnil => absurd hnil hne
  rcases matchBytes_cases httpVersionStr data with
    ⟨r, rfl, -⟩ | ⟨c, r, hstr, hm⟩ | ⟨k, c, d, p', t', hk, rfl, hdc, hm⟩
  · refine iff_of_true (httpVersionParse_behind r parseLen v) ⟨hlen, ?_⟩
    rintro ⟨hle, -, hno⟩
    cases r with
    | nil => exact hno (by simp)
    | cons d t =>
      rw [List.length_append, List.length_cons] at hle
      omega
  · have hpre : data <+: httpVersionStr := ⟨c :: r, hstr.symm⟩
    have hrun : httpVersionParse data parseLen v = ⟨0, 0, v⟩ := by
      rw [httpVersionParse, if_neg hne, hm]
    refine iff_of_true ?_ ⟨hlen, fun h => h.2.2 hpre⟩
    rw [hrun]
    refine .of_more hfree (versionLine_mem (.inl rfl)) (hpre.trans (List.prefix_append _ _)) ?_
    rintro rfl
    exact absurd hpre.length_le (by decide)
  · rw [lastByteDiffers_iff hk hdc]
    cases t' with
    | nil =>
      -- the call waits for more bytes, which cannot help
      have hrun : httpVersionParse (k ++ [d]) parseLen v = ⟨0, 0, v⟩ := by
        rw [httpVersionParse, if_neg hne, hm]
      refine iff_of_false ?_ (fun h => h.2 rfl)
      intro h
      obtain ⟨e, he, hpre, -⟩ := h.more.mp hrun
      exact (versionLine_differs hk hdc he).2 hpre
    | cons e t' =>
      have hrun : httpVersionParse (k ++ d :: e :: t') parseLen v = ⟨-1, 0, v⟩ := by
        rw [httpVersionParse, if_neg hne, hm]
        simp
      refine iff_of_true ?_ ⟨hlen, List.cons_ne_nil e t'⟩
      rw [hrun]
      exact .of_reject fun e he => versionLine_differs hk hdc he

/-- The first byte is no start of a version line, and the call waits for more. -/
theorem httpVersionParse_not_classifies :
    ¬ Classified versionLines (bytes "X") .none (httpVersionParse (bytes "X") 0 .none) := by
  intro h
  have hreject := h.reject.mpr (by decide)
  exact absurd hreject (by decide)

end OServer
