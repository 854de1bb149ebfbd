/-
  OServer/HttpRequestText.lean
  ============================
  **The texts that `http_request_parse` accepts.**

  The parsers of the method, the target, the version and the headers take one token
  after the other from the buffer.  Together they accept a language of texts, and it can
  be told from a text alone what is made of it:

  * `httpHeaderParse_done_iff`: the header blocks, as lists of lines;
  * `RequestText.WellFormed.unique`: no buffer begins with two texts of the language;
  * `httpRequestParse_text`: a call on a fresh structure ends exactly when the buffer
    begins with a text of the language; it consumes this text, and the request holds what
    the text has for its parts.
-/
import OServer.HttpHeaderNodes
import OServer.HttpRequestEnd
import OServer.HttpUrlText

namespace OServer

open CString Resume

/-! ## 1. Header lines -/

/-- A line that hands a value over.  The colon may be its first byte. -/
def FieldLine (w : List UInt8) : Prop :=
  LF ∉ w ∧ w.getLast? = some CR ∧ ∃ t a v b, Trimmed t a v b ∧
    ((∃ lead name gap, Named w lead name gap t) ∨ ∃ lead s d, ColonFirst w lead s d t)

/-- A line that ends the block; any separators may stand in front of the carriage return. -/
def BlankLine (w : List UInt8) : Prop :=
  LF ∉ w ∧ w.getLast? = some CR ∧ w.all isSeparator = true

theorem FieldLine.result {w : List UInt8} (h : FieldLine w) :
    ∃ name ln value lv, lineResult w = .field name ln value lv := by
  obtain ⟨-, hcr, t, a, v, b, hv, ⟨lead, name, gap, hn⟩ | ⟨lead, s, d, hc⟩⟩ := h
  · exact ⟨_, _, _, _, lineEndAt_named [LF] hn hv hcr⟩
  · exact ⟨_, _, _, _, lineEndAt_colon [LF] hc hv hcr⟩

theorem BlankLine.result {w : List UInt8} (h : BlankLine w) : lineResult w = .blank :=
  lineEndAt_blank [LF] h.2.2 h.2.1

theorem BlankLine.not_field {w : List UInt8} (h : BlankLine w) : ¬FieldLine w := by
  intro hfield
  obtain ⟨name, ln, value, lv, hresult⟩ := hfield.result
  rw [h.result] at hresult
  cases hresult

/-- Every line is one of these, or refused. -/
theorem line_cases {w : List UInt8} (hw : LF ∉ w) :
    FieldLine w ∨ BlankLine w ∨ lineResult w = .bad := by
  cases lineShape w with
  | bad h => exact .inr (.inr (h [LF]))
  | blank hsep hcr => exact .inr (.inl ⟨hw, hcr, hsep⟩)
  | named h hv hcr => exact .inl ⟨hw, hcr, _, _, _, _, hv, .inl ⟨_, _, _, h⟩⟩
  | colon h hv hcr => exact .inl ⟨hw, hcr, _, _, _, _, hv, .inr ⟨_, _, _, h⟩⟩

/-! ## 2. Header blocks -/

/-- Lines, and the line behind them. -/
def linesText (lines : List (List UInt8)) (last : List UInt8) : List UInt8 :=
  lines.flatMap (fun w => w ++ [LF]) ++ (last ++ [LF])

/-- The collection after these values have been added to it. -/
def addEntries (headers : HttpHeaderCollection) (es : List (BtKey × List UInt8)) :
    HttpHeaderCollection :=
  es.foldl (fun headers e => (httpHeaderAddById headers e.1 e.2 e.2.length).2) headers

theorem addEntries_append (headers : HttpHeaderCollection) (es es' : List (BtKey × List UInt8)) :
    addEntries headers (es ++ es') = addEntries (addEntries headers es) es' :=
  List.foldl_append

/-- What is added for a name and a value, whatever stands behind them. -/
theorem httpHeaderAdd_entry {name value : List UInt8} (hname : name ≠ []) (hvalue : value ≠ [])
    (nrest vrest : List UInt8) (headers : HttpHeaderCollection) :
    (httpHeaderAdd headers (name ++ nrest) name.length (value ++ vrest) value.length).2 =
      addEntries headers (if peek value = NUL then none
        else (namedField name).map fun id => (id, value)).toList := by
  rw [httpHeaderAdd, peek_append nrest hname, peek_append vrest hvalue]
  by_cases hv : peek value = NUL
  · rw [if_pos (Or.inr hv), if_pos hv]
    rfl
  by_cases hn : peek name = NUL
  · rw [if_pos (Or.inl hn), if_neg hv, namedField_nul hn]
    rfl
  · rw [if_neg (not_or.mpr ⟨hn, hv⟩), if_neg hv, ← httpHeaderBinaryNSearch_named name nrest]
    cases httpHeaderBinaryNSearch (name ++ nrest) name.length with
    | none => rfl
    | some i =>
      have hadd : httpHeaderAddById headers (Int16.ofNat i) (value ++ vrest) value.length =
          httpHeaderAddById headers (Int16.ofNat i) value value.length := by
        simp only [httpHeaderAddById, peek_append vrest hvalue, Int.toNat_natCast, List.take_left,
          List.take_length]
      exact congrArg Prod.snd hadd

/-- **A field line adds what stands in it.** -/
theorem FieldLine.add {w : List UInt8} (h : FieldLine w) (headers : HttpHeaderCollection) :
    (lineResult w).add headers = addEntries headers (lineEntry w).toList := by
  obtain ⟨-, hcr, t, a, v, b, hv, ⟨lead, name, gap, hn⟩ | ⟨lead, s, d, hc⟩⟩ := h
  · have hresult : lineResult w = _ := lineEndAt_named [LF] hn hv hcr
    obtain ⟨d, m, hdm, -⟩ := hn.first
    have hne : name ≠ [] := by
      rw [hdm]
      exact List.cons_ne_nil d m
    rw [hresult, lineEntry_named hn hv, ← httpHeaderAdd_entry hne hv.ne, LineEnd.add,
      List.append_assoc]
  · have hresult : lineResult w = _ := lineEndAt_colon [LF] hc hv hcr
    have hnone := httpHeaderBinaryNSearch_negative (d :: (t ++ [LF]))
      (show (-((s.length : Int) + 1)) < 0 by omega)
    rw [hresult, lineEntry_colon hc, LineEnd.add, httpHeaderAdd, hnone]
    split <;> rfl

/-- **The first value of a field stays.** -/
theorem addEntries_maps {es : List (BtKey × List UInt8)} (hes : ∀ e ∈ es, peek e.2 ≠ NUL)
    {headers : HttpHeaderCollection} {m : BtKey → Option HttpHeader} (hm : headers.Maps m) :
    (addEntries headers es).Maps fun id => (m id).or ((es.lookup id).map storedHeader) := by
  induction es generalizing headers m with
  | nil =>
    simp only [List.lookup_nil, Option.map_none, Option.or_none]
    exact hm
  | cons e es ih =>
    have hadd := hm.add e.1 e.2.length (hes e List.mem_cons_self)
    rw [Int.toNat_natCast, List.take_length] at hadd
    have hrest := ih (fun e' he' => hes e' (List.mem_cons_of_mem e he')) hadd
    refine cast (congrArg _ (funext fun id => ?_)) hrest
    rw [addFirst_apply, List.lookup_cons, Option.or_assoc]
    by_cases hid : id = e.1
    · subst hid
      simp [storedHeader]
    · simp [hid, beq_false_of_ne hid]

theorem lineEntry_value {w : List UInt8} {e : BtKey × List UInt8} (h : lineEntry w = some e) :
    peek e.2 ≠ NUL := by
  obtain ⟨hvalue, hentry⟩ := Option.ite_none_left_eq_some.mp h
  obtain ⟨id, -, rfl⟩ := Option.map_eq_some_iff.mp hentry
  exact hvalue

theorem linesText_nil (last q : List UInt8) : linesText [] last ++ q = last ++ LF :: q := by
  simp [linesText]

theorem linesText_cons (w : List UInt8) (lines : List (List UInt8)) (last q : List UInt8) :
    linesText (w :: lines) last ++ q = w ++ LF :: (linesText lines last ++ q) := by
  simp [linesText]

theorem linesText_cons_length (w : List UInt8) (lines : List (List UInt8)) (last : List UInt8) :
    (linesText (w :: lines) last).length = w.length + 1 + (linesText lines last).length := by
  have hlen := congrArg List.length (linesText_cons w lines last [])
  simp only [List.append_nil, List.length_append, List.length_cons] at hlen
  omega

theorem shift_done_iff {S : Type} {v : Verdict S} {k n : Nat} {s : S} :
    v.shift k = .done s n ↔ ∃ m, v = .done s m ∧ n = k + m := by
  constructor
  · intro h
    cases v with
    | more s' m => cases h
    | reject s' => cases h
    | done s' m =>
      cases h
      exact ⟨m, rfl, rfl⟩
  · rintro ⟨m, rfl, rfl⟩
    rfl

section Block
variable {headers : HttpHeaderCollection}

/-- The verdict behind a field line. -/
theorem httpHeaderParse_field {w : List UInt8} (hw : FieldLine w) (rest : List UInt8) :
    (httpHeaderParse headers (w ++ LF :: rest)).verdict =
      (httpHeaderParse (addEntries headers (lineEntry w).toList) rest).verdict.shift
        (w.length + 1) := by
  obtain ⟨name, ln, value, lv, hresult⟩ := hw.result
  rw [← hw.add, httpHeaderParse_line hw.1, hresult, ← HeaderParse.verdict_shift]

theorem httpHeaderParse_blank {w : List UInt8} (hw : BlankLine w) (rest : List UInt8) :
    (httpHeaderParse headers (w ++ LF :: rest)).verdict = .done headers (w.length + 1) := by
  rw [httpHeaderParse_line hw.1, hw.result]
  rfl

/-- Field lines and a blank one are read to their end. -/
theorem httpHeaderParse_linesText {lines : List (List UInt8)} {last : List UInt8}
    (hlines : ∀ w ∈ lines, FieldLine w) (hlast : BlankLine last) (q : List UInt8) :
    (httpHeaderParse headers (linesText lines last ++ q)).verdict =
      .done (addEntries headers (lines.filterMap lineEntry)) (linesText lines last).length := by
  induction lines generalizing headers with
  | nil =>
    have hlen : (linesText [] last).length = last.length + 1 := by simp [linesText]
    rw [linesText_nil, httpHeaderParse_blank hlast, hlen]
    rfl
  | cons w lines ih =>
    have hentries : (w :: lines).filterMap lineEntry =
        (lineEntry w).toList ++ lines.filterMap lineEntry := by
      rw [List.filterMap_cons]
      cases lineEntry w <;> rfl
    rw [linesText_cons, httpHeaderParse_field (hlines w List.mem_cons_self),
      ih fun w' hw' => hlines w' (List.mem_cons_of_mem w hw'), linesText_cons_length, hentries,
      addEntries_append]
    rfl

/-- A block that is read to its end consists of field lines and a blank one. -/
theorem exists_linesText {headers headers' : HttpHeaderCollection} {p : List UInt8} {n : Nat}
    (h : (httpHeaderParse headers p).verdict = .done headers' n) :
    ∃ lines last q, (∀ w ∈ lines, FieldLine w) ∧ BlankLine last ∧
      p = linesText lines last ++ q := by
  by_cases hp : LF ∈ p
  · obtain ⟨w, rest, hwr, hw⟩ := List.eq_append_cons_of_mem hp
    rw [hwr] at h
    rcases line_cases hw with hfield | hblank | hbad
    · rw [httpHeaderParse_field hfield, shift_done_iff] at h
      obtain ⟨m, hrest, -⟩ := h
      obtain ⟨lines, last, q, hlines, hlast, hq⟩ := exists_linesText hrest
      refine ⟨w :: lines, last, q, List.forall_mem_cons.mpr ⟨hfield, hlines⟩, hlast, ?_⟩
      rw [linesText_cons, ← hq, hwr]
    · refine ⟨[], w, rest, fun w' hw' => absurd hw' List.not_mem_nil, hblank, ?_⟩
      rw [linesText_nil, hwr]
    · rw [httpHeaderParse_line hw, hbad] at h
      cases h
  · rw [httpHeaderParse_unfinished hp] at h
    cases hscan : scanLine p [] (.start NUL) with
    | none =>
      rw [hscan] at h
      cases h
    | some st =>
      rw [hscan] at h
      cases h
termination_by p.length
decreasing_by
  rw [hwr]
  simp
  omega

end Block

/-- **The header blocks that are read to their end.** -/
theorem httpHeaderParse_done_iff {headers headers' : HttpHeaderCollection} {p : List UInt8}
    {n : Nat} : (httpHeaderParse headers p).verdict = .done headers' n ↔
      ∃ lines last q, (∀ w ∈ lines, FieldLine w) ∧ BlankLine last ∧
        p = linesText lines last ++ q ∧ n = (linesText lines last).length ∧
          headers' = addEntries headers (lines.filterMap lineEntry) := by
  constructor
  · intro h
    obtain ⟨lines, last, q, hlines, hlast, rfl⟩ := exists_linesText h
    rw [httpHeaderParse_linesText hlines hlast] at h
    cases h
    exact ⟨lines, last, q, hlines, hlast, rfl, rfl, rfl⟩
  · rintro ⟨lines, last, q, hlines, hlast, rfl, rfl, rfl⟩
    exact httpHeaderParse_linesText hlines hlast q

/-- No text begins with two blocks. -/
theorem linesText_unique {lines lines' : List (List UInt8)} {last last' q q' : List UInt8}
    (hlines : ∀ w ∈ lines, FieldLine w) (hlines' : ∀ w ∈ lines', FieldLine w)
    (hlast : BlankLine last) (hlast' : BlankLine last')
    (h : linesText lines last ++ q = linesText lines' last' ++ q') :
    lines = lines' ∧ last = last' ∧ q = q' := by
  induction lines generalizing lines' with
  | nil =>
    cases lines' with
    | nil =>
      rw [linesText_nil, linesText_nil] at h
      obtain ⟨rfl, rfl⟩ := first_unique hlast.1 hlast'.1 h
      exact ⟨rfl, rfl, rfl⟩
    | cons w' lines' =>
      have hw' := hlines' w' List.mem_cons_self
      rw [linesText_nil, linesText_cons] at h
      obtain ⟨rfl, -⟩ := first_unique hlast.1 hw'.1 h
      exact absurd hw' hlast.not_field
  | cons w lines ih =>
    have hw := hlines w List.mem_cons_self
    cases lines' with
    | nil =>
      rw [linesText_nil, linesText_cons] at h
      obtain ⟨rfl, -⟩ := first_unique hw.1 hlast'.1 h
      exact absurd hw hlast'.not_field
    | cons w' lines' =>
      have hw' := hlines' w' List.mem_cons_self
      rw [linesText_cons, linesText_cons] at h
      obtain ⟨rfl, hrest⟩ := first_unique hw.1 hw'.1 h
      obtain ⟨rfl, rfl, rfl⟩ := ih (fun v hv => hlines v (List.mem_cons_of_mem w hv))
        (fun v hv => hlines' v (List.mem_cons_of_mem w hv)) hrest
      exact ⟨rfl, rfl, rfl⟩

/-! ## 3. Requests -/

/-- The parts of a request. -/
@[ext]
structure RequestText where
  method : HttpMethod
  word : List UInt8
  target : List UInt8
  segs : List (List UInt8)
  version : HttpVersion
  line : List UInt8
  lines : List (List UInt8)
  last : List UInt8

namespace RequestText

/-- The parts are of the language. -/
structure WellFormed (t : RequestText) : Prop where
  word : (t.method, t.word) ∈ methodTokens
  target_ne : t.target ≠ []
  target_bytes : TargetBytes t.target
  target_length : t.target.length < urlSize
  target : TargetText t.target t.segs
  line : (t.version, t.line) ∈ versionLines
  lines : ∀ w ∈ t.lines, FieldLine w
  last : BlankLine t.last

def text (t : RequestText) : List UInt8 :=
  t.word ++ (t.target ++ [SP] ++ (t.line ++ linesText t.lines t.last))

/-- The fields that the lines give a value to, and the values. -/
def entries (t : RequestText) : List (BtKey × List UInt8) := t.lines.filterMap lineEntry

/-- What the parts leave in the structure. -/
def request (t : RequestText) : HttpRequest where
  method := t.method
  url := (urlParseTarget (httpUrlInit.store t.target) t.target.length).2
  version := t.version
  headers := addEntries httpHeaderInit t.entries
  parseStatus := .header

variable {t t' : RequestText}

theorem WellFormed.targetOk (h : t.WellFormed) : TargetOk httpUrlInit t.target :=
  targetOk_iff.mpr ⟨h.target_ne, h.target_bytes, h.target_length, t.segs, h.target⟩

theorem WellFormed.segmentTexts (h : t.WellFormed) : t.request.url.segmentTexts = t.segs :=
  ((urlParseTarget_text h.target_ne h.target_bytes.2 t.segs).mpr h.target).2

theorem text_append (q : List UInt8) : t.text ++ q =
    t.word ++ (t.target ++ [SP] ++ (t.line ++ (linesText t.lines t.last ++ q))) := by
  simp only [text, List.append_assoc]

theorem text_length : t.text.length = t.word.length +
    ((t.target ++ [SP]).length + (t.line.length + (linesText t.lines t.last).length)) := by
  simp only [text, List.length_append]

/-- **A text of the language is read to its end.** -/
theorem WellFormed.verdict (h : t.WellFormed) (q : List UInt8) :
    requestVerdict httpRequestInit (t.text ++ q) = .done t.request t.text.length := by
  have hline : t.line ++ (linesText t.lines t.last ++ q) ≠ [] := by
    intro hnil
    rw [List.append_eq_nil_iff] at hnil
    exact versionLines_length_ne _ h.line (congrArg List.length hnil.1)
  have hblock : ∀ headers, (httpHeaderParse headers (linesText t.lines t.last ++ q)).verdict =
      .done (addEntries headers t.entries) (linesText t.lines t.last).length := by
    intro headers
    exact httpHeaderParse_linesText h.lines h.last q
  let req₁ : HttpRequest := { httpRequestInit with method := t.method, parseStatus := .url }
  let req₂ : HttpRequest :=
    { req₁ with
      url := (urlParseTarget (httpUrlInit.store t.target) t.target.length).2
      parseStatus := .version }
  let req₃ : HttpRequest := { req₂ with version := t.version, parseStatus := .header }
  have hword : requestVerdict httpRequestInit (t.text ++ q) = (requestVerdict req₁
      (t.target ++ [SP] ++ (t.line ++ (linesText t.lines t.last ++ q)))).shift t.word.length := by
    rw [text_append]
    exact requestVerdict_method_word rfl h.word _
  have htarget : requestVerdict req₁
      (t.target ++ [SP] ++ (t.line ++ (linesText t.lines t.last ++ q))) =
      (requestVerdict req₂ (t.line ++ (linesText t.lines t.last ++ q))).shift
        (t.target ++ [SP]).length :=
    requestVerdict_target rfl h.targetOk hline
  have hversion : requestVerdict req₂ (t.line ++ (linesText t.lines t.last ++ q)) =
      (requestVerdict req₃ (linesText t.lines t.last ++ q)).shift t.line.length :=
    requestVerdict_version_line rfl h.line _
  have hheader : requestVerdict req₃ (linesText t.lines t.last ++ q) =
      .done t.request (linesText t.lines t.last).length := by
    rw [requestVerdict_header rfl, hblock]
    rfl
  rw [hword, htarget, hversion, hheader, text_length]
  rfl

end RequestText

/-- A word in front of a text is the word of one method. -/
theorem methodToken_unique {x x' : HttpMethod} {w w' r r' : List UInt8}
    (hx : (x, w) ∈ methodTokens) (hx' : (x', w') ∈ methodTokens) (h : w ++ r = w' ++ r') :
    x = x' ∧ w = w' ∧ r = r' := by
  have htoken := httpMethodParse_token hx .none r
  rw [h, httpMethodParse_token hx' .none r'] at htoken
  obtain ⟨rfl, rfl⟩ := List.append_inj h (congrArg Parsed.parseLen htoken).symm
  exact ⟨(congrArg Parsed.val htoken).symm, rfl, rfl⟩

theorem versionLine_unique {x x' : HttpVersion} {w w' r r' : List UInt8}
    (hx : (x, w) ∈ versionLines) (hx' : (x', w') ∈ versionLines) (h : w ++ r = w' ++ r') :
    x = x' ∧ w = w' ∧ r = r' := by
  have htoken := httpVersionParse_token hx .none r
  dsimp only at htoken
  rw [h, httpVersionParse_token hx' .none r'] at htoken
  have hlen : (w'.length : Int) = w.length := congrArg Parsed.parseLen htoken
  obtain ⟨rfl, rfl⟩ := List.append_inj h (Int.natCast_inj.mp hlen).symm
  exact ⟨(congrArg Parsed.val htoken).symm, rfl, rfl⟩

/-- No buffer begins with two texts. -/
theorem RequestText.WellFormed.unique {t t' : RequestText} (h : t.WellFormed) (h' : t'.WellFormed)
    {data : List UInt8} (ht : t.text <+: data) (ht' : t'.text <+: data) : t = t' := by
  obtain ⟨q, hq⟩ := ht
  obtain ⟨q', hq'⟩ := ht'
  rw [← hq', text_append, text_append] at hq
  obtain ⟨hmethod, hword, hrest⟩ := methodToken_unique h.word h'.word hq
  rw [List.append_assoc, List.append_assoc] at hrest
  obtain ⟨htarget, hrest⟩ := first_unique h.target_bytes.1 h'.target_bytes.1 hrest
  obtain ⟨hversion, hline, hrest⟩ := versionLine_unique h.line h'.line hrest
  obtain ⟨hlines, hlast, -⟩ := linesText_unique h.lines h'.lines h.last h'.last hrest
  have hsegs : t.segs = t'.segs := by
    rw [← h.segmentTexts, ← h'.segmentTexts, request, request, htarget]
  exact RequestText.ext hmethod hword htarget hsegs hversion hline hlines hlast

/-! ## 4. What is accepted -/

section Accepted
variable {req req' : HttpRequest} {p : List UInt8} {n : Nat}

theorem exists_linesText_of_done (hs : req.parseStatus = .header)
    (h : requestVerdict req p = .done req' n) :
    ∃ lines last q, (∀ w ∈ lines, FieldLine w) ∧ BlankLine last ∧
      p = linesText lines last ++ q := by
  rw [requestVerdict_header hs] at h
  cases hv : (httpHeaderParse req.headers p).verdict with
  | more headers m =>
    rw [hv] at h
    cases h
  | reject headers =>
    rw [hv] at h
    cases h
  | done headers m => exact exists_linesText hv

/-- A version line is in front when the request ends behind it. -/
theorem exists_line_of_done (hs : req.parseStatus = .version)
    (h : requestVerdict req p = .done req' n) :
    ∃ x line r m, (x, line) ∈ versionLines ∧ p = line ++ r ∧
      requestVerdict { req with version := x, parseStatus := .header } r = .done req' m := by
  have hp : p ≠ [] := by
    rintro rfl
    exact requestVerdict_nil (by rw [hs]; decide) req' n h
  cases httpVersionParse_answer req.version hp with
  | token x line r hx hdata _ =>
    rw [hdata, requestVerdict_version_line hs hx, shift_done_iff] at h
    obtain ⟨m, hrest, -⟩ := h
    exact ⟨x, line, r, m, hx, hdata, hrest⟩
  | more hmore =>
    rw [requestVerdict_version_more hs (hmore 0)] at h
    cases h
  | reject hreject =>
    have hno := hreject [] 0
    rw [List.append_nil] at hno
    rw [requestVerdict_version_reject hs hno] at h
    cases h

theorem exists_target_of_done (hs : req.parseStatus = .url)
    (h : requestVerdict req p = .done req' n) :
    ∃ u r m, TargetOk req.url u ∧ p = u ++ [SP] ++ r ∧
      requestVerdict
        { req with
          url := (urlParseTarget (req.url.store u) u.length).2
          parseStatus := .version } r = .done req' m := by
  cases httpUrlParse_answer p req.url with
  | token u r hu hdata _ =>
    have hsplit : p = u ++ [SP] ++ r := by
      rw [hdata, List.append_assoc]
      rfl
    by_cases hr : r = []
    · -- the call goes on with a length that it has counted twice
      obtain ⟨req₁, hend⟩ := requestVerdict_url_end hs hu
      rw [hdata, hr, hend] at h
      cases h
    · rw [hsplit, requestVerdict_target hs hu hr, shift_done_iff] at h
      obtain ⟨m, hrest, -⟩ := h
      exact ⟨u, r, m, hu, hsplit, hrest⟩
  | more hmore =>
    rw [requestVerdict_url_more hs hmore] at h
    cases h
  | reject k url hreject =>
    have hno := hreject []
    rw [List.append_nil] at hno
    rw [requestVerdict_url_reject hs hno] at h
    cases h

theorem exists_word_of_done (hs : req.parseStatus = .method)
    (h : requestVerdict req p = .done req' n) :
    ∃ x w r m, (x, w) ∈ methodTokens ∧ p = w ++ r ∧
      requestVerdict { req with method := x, parseStatus := .url } r = .done req' m := by
  have hstart : Started req p := by
    apply started_of_verdict
    intro req₁ hreject
    rw [hreject] at h
    cases h
  obtain ⟨hne, hP⟩ := hstart hs
  cases httpMethodParse_answer req.method hne hP with
  | token x w r hx hdata _ =>
    rw [hdata, requestVerdict_method_word hs hx, shift_done_iff] at h
    obtain ⟨m, hrest, -⟩ := h
    exact ⟨x, w, r, m, hx, hdata, hrest⟩
  | more hmore =>
    rw [requestVerdict_method_more hs hmore] at h
    cases h
  | reject hreject =>
    have hno := hreject []
    rw [List.append_nil] at hno
    rw [requestVerdict_method_reject hs hno] at h
    cases h

end Accepted

/-- **A buffer whose request is complete begins with a text of the language.** -/
theorem exists_requestText {data : List UInt8} {req : HttpRequest} {n : Nat}
    (h : requestVerdict httpRequestInit data = .done req n) :
    ∃ t : RequestText, t.WellFormed ∧ t.text <+: data := by
  obtain ⟨method, word, r₁, m₁, hword, rfl, h₁⟩ := exists_word_of_done rfl h
  obtain ⟨target, r₂, m₂, hok, rfl, h₂⟩ := exists_target_of_done rfl h₁
  obtain ⟨version, line, r₃, m₃, hline, rfl, h₃⟩ := exists_line_of_done rfl h₂
  obtain ⟨lines, last, q, hlines, hlast, rfl⟩ := exists_linesText_of_done rfl h₃
  obtain ⟨hne, hbytes, hlen, segs, htarget⟩ := targetOk_iff.mp hok
  let t : RequestText := ⟨method, word, target, segs, version, line, lines, last⟩
  refine ⟨t, ⟨hword, hne, hbytes, hlen, htarget, hline, hlines, hlast⟩, q, ?_⟩
  exact RequestText.text_append q

/-- **The language of the parser.**  A call on a fresh structure ends exactly when the buffer
    begins with a text of the language, which is then the only one.  It consumes this text; the
    path stack holds the segments of the target, and each header the value of the first line
    whose name stands for it, with no entry for a field that no line names. -/
theorem httpRequestParse_text (data : List UInt8) (req : HttpRequest) (n : Nat) :
    httpRequestParse httpRequestInit data = ⟨0, n, true, req⟩ ↔
      ∃ t : RequestText, t.WellFormed ∧ t.text <+: data ∧
        n = t.text.length ∧ req = t.request ∧ req.url.segmentTexts = t.segs ∧
        (req.headers.Maps fun id => (t.entries.lookup id).map storedHeader) ∧
        ∀ t' : RequestText, t'.WellFormed → t'.text <+: data → t' = t := by
  rw [← httpRequestParse_done_iff]
  constructor
  · intro h
    obtain ⟨t, ht, hprefix⟩ := exists_requestText h
    obtain ⟨q, hq⟩ := id hprefix
    rw [← hq, ht.verdict q] at h
    cases h
    refine ⟨t, ht, hprefix, rfl, rfl, ht.segmentTexts, ?_, ?_⟩
    · have hvalues : ∀ e ∈ t.entries, peek e.2 ≠ NUL := by
        intro e he
        obtain ⟨w, -, hw⟩ := List.mem_filterMap.mp he
        exact lineEntry_value hw
      exact addEntries_maps hvalues HttpHeaderCollection.maps_init
    · intro t' ht' hprefix'
      exact ht'.unique ht hprefix' hprefix
  · rintro ⟨t, ht, ⟨q, rfl⟩, rfl, rfl, -⟩
    exact ht.verdict q

end OServer
