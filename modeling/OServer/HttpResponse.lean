/-
  OServer/HttpResponse.lean
  =========================
  **Generating a response (`http_response.c`).**

  `http_response_gen` fills one buffer: status line, headers, blank line, and one
  `read` of the content.  The caller goes on until `*is_end` is set:

    * `httpResponseGen_head`    — the head fits: it is written by the first call;
    * `delivers_content`        — in the content state the rest of the file follows;
    * `httpResponseGen_delivers` — when the calls deliver the head and the file.
-/
import OServer.HttpHeaderStr
import OServer.HttpVersion
import OServer.Lib.Pieces

namespace OServer

open CString Pieces

/-! ## 1. Model -/

/-- `http_status_t`. -/
inductive HttpStatus where
  | continue100 | switchingProtocols101
  | ok200 | created201 | accepted202 | nonAuthoritativeInformation203 | noContent204
  | resetContent205 | partialContent206
  | multipleChoices300 | movedPermanently301 | found302 | seeOther303 | notModified304
  | useProxy305 | temporaryRedirect307
  | badRequest400 | unauthorized401 | paymentRequired402 | forbidden403 | notFound404
  | methodNotAllowed405 | notAcceptable406 | proxyAuthenticationRequired407
  | requestTimeout408 | conflict409 | gone410 | lengthRequired411 | preconditionFailed412
  | requestEntityTooLarge413 | requestUriTooLong414 | unsupportedMediaType415
  | requestedRangeNotSatisfiable416 | expectationFailed417
  | internalServerError500 | notImplemented501 | badGateway502 | serviceUnavailable503
  | gatewayTimeout504 | httpVersionNotSupported505
deriving DecidableEq, Repr

/-- `http_response_code[]`. -/
def httpResponseCode : HttpStatus → List UInt8
  | .continue100 => bytes "100 Continue"
  | .switchingProtocols101 => bytes "101 Switching Protocols"
  | .ok200 => bytes "200 OK"
  | .created201 => bytes "201 Created"
  | .accepted202 => bytes "202 Accepted"
  | .nonAuthoritativeInformation203 => bytes "203 Non-authoritative Information"
  | .noContent204 => bytes "204 No Content"
  | .resetContent205 => bytes "205 Reset Content"
  | .partialContent206 => bytes "206 Partial Content"
  | .multipleChoices300 => bytes "300 Multiple Choices"
  | .movedPermanently301 => bytes "301 Moved Permanently"
  | .found302 => bytes "302 Found"
  | .seeOther303 => bytes "303 See Other"
  | .notModified304 => bytes "304 Not Modified"
  | .useProxy305 => bytes "305 Use Proxy"
  | .temporaryRedirect307 => bytes "307 Temporary Redirect"
  | .badRequest400 => bytes "400 Bad Request"
  | .unauthorized401 => bytes "401 Unauthorized"
  | .paymentRequired402 => bytes "402 Payment Required"
  | .forbidden403 => bytes "403 Forbidden"
  | .notFound404 => bytes "404 Not Found"
  | .methodNotAllowed405 => bytes "405 Method Not Allowed"
  | .notAcceptable406 => bytes "406 Not Acceptable"
  | .proxyAuthenticationRequired407 => bytes "407 Proxy Authentication Required"
  | .requestTimeout408 => bytes "408 Request Timeout"
  | .conflict409 => bytes "409 Conflict"
  | .gone410 => bytes "410 Gone"
  | .lengthRequired411 => bytes "411 Length Required"
  | .preconditionFailed412 => bytes "412 Precondition Failed"
  | .requestEntityTooLarge413 => bytes "413 Request Entity Too Large"
  | .requestUriTooLong414 => bytes "414 Request-uri Too Long"
  | .unsupportedMediaType415 => bytes "415 Unsupported Media Type"
  | .requestedRangeNotSatisfiable416 => bytes "416 Requested Range Not Satisfiable"
  | .expectationFailed417 => bytes "417 Expectation Failed"
  | .internalServerError500 => bytes "500 Internal Server Error"
  | .notImplemented501 => bytes "501 Not Implemented"
  | .badGateway502 => bytes "502 Bad Gateway"
  | .serviceUnavailable503 => bytes "503 Service Unavailable"
  | .gatewayTimeout504 => bytes "504 Gateway Timeout"
  | .httpVersionNotSupported505 => bytes "505 Http Version Not Supported"

/-- `http_response_gen_status_t`; `begin` is another name of `version`. -/
inductive GenStatus where
  | version | code | headers | content | error
deriving DecidableEq, Repr

structure HttpResponse where
  version : HttpVersion
  status : HttpStatus
  headers : HttpHeaderCollection
  genStatus : GenStatus
  /-- The descriptor of the file to send, or `-1`. -/
  content : Int

def httpResponseInit (code : HttpStatus) : HttpResponse where
  version := .v1_1
  status := code
  headers := httpHeaderInit
  genStatus := .version
  content := -1

/-- `http_response_reset`; a descriptor that is not negative is closed. -/
def httpResponseReset (res : HttpResponse) (code : HttpStatus) : HttpResponse where
  version := .v1_1
  status := code
  headers := httpHeaderDestroy res.headers
  genStatus := .version
  content := if 0 ≤ res.content then -1 else res.content

section Gen
variable {ρ : Type}

/-- What has been written so far, the room left, and the environment that reads
    change. -/
structure Gen (ρ : Type) where
  out : List UInt8
  size : Int
  isEnd : Bool
  res : HttpResponse
  file : ρ

/-- One round of the loop, with `size` bytes of room.  `read` answers `read(2)` on the
    content descriptor with the bytes it delivers; none when it returns `0` or `-1`. -/
def genRound (read : Nat → ρ → List UInt8 × ρ) (res : HttpResponse) (size : Int) (file : ρ) :
    Gen ρ :=
  match res.genStatus with
  | .version =>
      if (httpVersionLen res.version : Int) ≤ size then
        let s := httpVersionToStr res.version size.toNat
        ⟨s, size - s.length, false, { res with genStatus := .code }, file⟩
      else ⟨[], size, false, res, file⟩
  | .code =>
      let s := httpResponseCode res.status
      if (s.length : Int) + 2 ≤ size then
        ⟨s ++ [CR, LF], size - s.length - 2, false, { res with genStatus := .headers }, file⟩
      else ⟨[], size, false, res, file⟩
  | .headers =>
      let r := httpHeaderToStr res.headers size
      let res := { res with headers := r.headers }
      ⟨r.str, size - r.ret, false, if r.isEnd then { res with genStatus := .content } else res, file⟩
  | .content =>
      if 0 < res.content then
        let r := read size.toNat file
        ⟨r.1, size - r.1.length, r.1.isEmpty, res, r.2⟩
      else ⟨[], size, true, res, file⟩
  | .error => ⟨[], size, true, res, file⟩

/-- `out` was written before. -/
def Gen.after (out : List UInt8) (r : Gen ρ) : Gen ρ := { r with out := out ++ r.out }

/-- The loop; the first argument bounds the rounds left. -/
def genLoop (read : Nat → ρ → List UInt8 × ρ) : Nat → HttpResponse → Int → ρ → Gen ρ
  | 0, res, size, file => ⟨[], size, false, res, file⟩
  | fuel + 1, res, size, file =>
      let r := genRound read res size file
      if r.res.genStatus ≠ res.genStatus ∧ r.res.genStatus ≠ .error then
        (genLoop read fuel r.res r.size r.file).after r.out
      else r

/-- Rounds that can follow at most. -/
def GenStatus.rounds : GenStatus → Nat
  | version => 4
  | code => 3
  | headers => 2
  | content => 1
  | error => 1

/-- The return value is the difference between `size` and the room left. -/
def httpResponseGen (read : Nat → ρ → List UInt8 × ρ) (res : HttpResponse) (size : Int)
    (file : ρ) : Gen ρ :=
  genLoop read res.genStatus.rounds res size file

end Gen

/-- Logging a message writes its headers to a buffer of its own, behind the version and
    its terminator; the cursor and the threads are what it changes. -/
def logHeaders (headers : HttpHeaderCollection) (version : HttpVersion) : HttpHeaderCollection :=
  let size := httpHeaderLen headers + httpVersionLen version + 2
  let len := (httpVersionToStr version size.toNat).length
  (httpHeaderToStr headers (size - (len + 1))).headers

/-- `http_response_log`, without the line it writes. -/
def httpResponseLog (res : HttpResponse) : HttpResponse :=
  { res with headers := logHeaders res.headers res.version }

/-! ## 2. The head -/

section Head
variable {ρ : Type} {read : Nat → ρ → List UInt8 × ρ}

theorem Gen.after_after (s t : List UInt8) (r : Gen ρ) :
    (r.after t).after s = r.after (s ++ t) := by
  simp [Gen.after]

theorem httpVersionToStr_length (ver : HttpVersion) {size : Nat} (h : 9 ≤ size) :
    httpVersionToStr ver size = httpVersionToStr ver 9 ∧ (httpVersionToStr ver 9).length = 9 := by
  cases ver
  all_goals
    refine ⟨?_, by decide⟩
    simp only [httpVersionToStr]
    rw [List.take_of_length_le (by simpa [bytes] using h), List.take_of_length_le (by decide)]

/-- A log call has one byte more for the headers than they take. -/
theorem logHeaders_eq {headers : HttpHeaderCollection} (h : 0 ≤ httpHeaderLen headers)
    (version : HttpVersion) :
    logHeaders headers version = (httpHeaderToStr headers (httpHeaderLen headers + 1)).headers := by
  have hnine : 9 ≤ (httpHeaderLen headers + httpVersionLen version + 2).toNat := by
    rw [httpVersionLen]
    omega
  rcases httpVersionToStr_length version hnine with ⟨htext, hlen⟩
  have hroom : httpHeaderLen headers + httpVersionLen version + 2 - ((9 : Nat) + 1) =
      httpHeaderLen headers + 1 := by
    rw [httpVersionLen]
    omega
  rw [logHeaders, htext, hlen, hroom]

/-- A round that moves on. -/
theorem httpResponseGen_advance {res : HttpResponse} {size : Int} {file : ρ} {r : Gen ρ}
    (hround : genRound read res size file = r)
    (hrounds : res.genStatus.rounds = r.res.genStatus.rounds + 1) (herr : r.res.genStatus ≠ .error) :
    httpResponseGen read res size file = (httpResponseGen read r.res r.size r.file).after r.out := by
  have hne : r.res.genStatus ≠ res.genStatus := by
    intro h
    rw [h] at hrounds
    omega
  subst hround
  rw [httpResponseGen, hrounds, genLoop]
  exact if_pos ⟨hne, herr⟩

/-- A round that stays. -/
theorem httpResponseGen_stay {res : HttpResponse} {size : Int} {file : ρ} {r : Gen ρ}
    (hround : genRound read res size file = r) (hsame : r.res.genStatus = res.genStatus) :
    httpResponseGen read res size file = r := by
  obtain ⟨k, hk⟩ : ∃ k, res.genStatus.rounds = k + 1 := by
    cases res.genStatus <;> exact ⟨_, rfl⟩
  subst hround
  rw [httpResponseGen, hk, genLoop]
  exact if_neg fun h => h.1 hsame

/-- The status line. -/
def statusLine (res : HttpResponse) : List UInt8 :=
  httpVersionToStr res.version 9 ++ httpResponseCode res.status ++ [CR, LF]

theorem statusLine_length (res : HttpResponse) :
    (statusLine res).length = 9 + (httpResponseCode res.status).length + 2 := by
  simp only [statusLine, List.length_append, (httpVersionToStr_length res.version (le_refl 9)).2]
  rfl

/-- Status line, headers and blank line. -/
def responseHead (res : HttpResponse) (ps : List Ptr) : List UInt8 :=
  httpVersionToStr res.version 9 ++ httpResponseCode res.status ++ [CR, LF] ++
    ps.flatMap res.headers.line ++ [CR, LF]

theorem responseHead_eq (res : HttpResponse) (ps : List Ptr) :
    responseHead res ps = statusLine res ++ (ps.flatMap res.headers.line ++ [CR, LF]) := by
  rw [responseHead, statusLine, List.append_assoc _ _ [CR, LF]]

theorem responseHead_length (res : HttpResponse) (ps : List Ptr) :
    (responseHead res ps).length =
      (statusLine res).length + (ps.flatMap res.headers.line).length + 2 := by
  rw [responseHead_eq, List.length_append, List.length_append]
  rfl

/-- The status line fits: the call writes it and goes on with the headers. -/
theorem httpResponseGen_statusLine (read : Nat → ρ → List UInt8 × ρ) {res : HttpResponse}
    (hs : res.genStatus = .version) {size : Nat} (hsize : (statusLine res).length ≤ size)
    (file : ρ) : httpResponseGen read res size file =
      (httpResponseGen read { res with genStatus := .headers }
        ((size - (statusLine res).length : Nat) : Int) file).after (statusLine res) := by
  have hlen := statusLine_length res
  have hver : httpVersionToStr res.version size = httpVersionToStr res.version 9 :=
    (httpVersionToStr_length res.version (by omega)).1
  have hver9 := (httpVersionToStr_length res.version (le_refl 9)).2
  let size₁ : Int := size - 9
  let res₁ : HttpResponse := { res with genStatus := .code }
  -- the version
  have hround₁ : genRound read res size file =
      ⟨httpVersionToStr res.version 9, size₁, false, res₁, file⟩ := by
    simp only [genRound, hs, httpVersionLen, Int.toNat_natCast, hver, hver9]
    exact if_pos (by omega)
  -- the status
  have hround₂ : genRound read res₁ size₁ file =
      ⟨httpResponseCode res.status ++ [CR, LF], ((size - (statusLine res).length : Nat) : Int),
        false, { res with genStatus := .headers }, file⟩ := by
    have hroom : ((size - (statusLine res).length : Nat) : Int) =
        size₁ - (httpResponseCode res.status).length - 2 := by
      simp only [size₁]
      omega
    rw [hroom]
    simp only [genRound, res₁]
    exact if_pos (by simp only [size₁]; omega)
  rw [httpResponseGen_advance hround₁ (by rw [hs]; rfl) (by simp [res₁]),
    httpResponseGen_advance hround₂ rfl (by simp), Gen.after_after]
  simp only [statusLine, List.append_assoc]

/-- The call writes the blank line and goes on with the content. -/
theorem httpResponseGen_headers_end (read : Nat → ρ → List UInt8 × ρ) (res : HttpResponse)
    (hs : res.genStatus = .headers) {size : Int}
    (hend : (httpHeaderToStr res.headers size).isEnd = true) (file : ρ) :
    httpResponseGen read res size file =
      (httpResponseGen read
        { res with headers := (httpHeaderToStr res.headers size).headers, genStatus := .content }
        (size - (httpHeaderToStr res.headers size).ret) file).after
          (httpHeaderToStr res.headers size).str := by
  have hround : genRound read res size file =
      ⟨(httpHeaderToStr res.headers size).str, size - (httpHeaderToStr res.headers size).ret, false,
        { res with headers := (httpHeaderToStr res.headers size).headers, genStatus := .content },
        file⟩ := by
    simp only [genRound, hs, hend, if_true]
  exact httpResponseGen_advance hround (by rw [hs]; rfl) (by simp)

/-- The headers are not all written: the call ends. -/
theorem httpResponseGen_headers_stay (read : Nat → ρ → List UInt8 × ρ) (res : HttpResponse)
    (hs : res.genStatus = .headers) {size : Int}
    (hend : (httpHeaderToStr res.headers size).isEnd = false) (file : ρ) :
    httpResponseGen read res size file =
      ⟨(httpHeaderToStr res.headers size).str, size - (httpHeaderToStr res.headers size).ret, false,
        { res with headers := (httpHeaderToStr res.headers size).headers }, file⟩ := by
  refine httpResponseGen_stay ?_ rfl
  simp only [genRound, hs, hend]
  rfl

/-- **The head fits**: the call writes it and goes on with the content. -/
theorem httpResponseGen_head (read : Nat → ρ → List UInt8 × ρ) {res : HttpResponse}
    {ps : List Ptr} (hs : res.genStatus = .version)
    (hps : res.headers.Listed ps) (hsound : res.headers.Sound)
    (hcur : res.headers.traversePtr = res.headers.headerTree.root) {size : Nat}
    (hsize : (responseHead res ps).length ≤ size) (file : ρ) :
    ∃ headers, httpResponseGen read res size file =
      (httpResponseGen read { res with headers, genStatus := .content }
        ((size - (responseHead res ps).length : Nat) : Int) file).after (responseHead res ps) := by
  have hlen := responseHead_length res ps
  rcases res.headers.tree with ⟨v, hv⟩
  let room : Int := (size - (statusLine res).length : Nat)
  have hfits : ((headerLines v.key res.headers.header v.tree.toList).length : Int) + 2 ≤ room := by
    rw [← HttpHeaderCollection.flatMap_line hv, ← hps.eq_toList hv]
    simp only [room]
    omega
  rcases httpHeaderToStr_fits hv (hsound.view hv) hcur hfits with ⟨hstr, hend, hret, -⟩
  rw [← HttpHeaderCollection.flatMap_line hv, ← hps.eq_toList hv] at hstr hret
  have hleft : ((size - (responseHead res ps).length : Nat) : Int) =
      room - (httpHeaderToStr res.headers room).ret := by
    rw [hret]
    simp only [room]
    omega
  refine ⟨(httpHeaderToStr res.headers room).headers, ?_⟩
  rw [httpResponseGen_statusLine read hs (by omega),
    httpResponseGen_headers_end read { res with genStatus := .headers } rfl hend,
    Gen.after_after, hleft, responseHead_eq, ← hstr]

end Head

/-! ## 3. The content -/

/-- A way of reading a file: how many bytes the `i`-th `read` delivers when `rest` is left
    of the file and `n` bytes are asked for. -/
structure ContentReader where
  amount : Nat → List UInt8 → Nat → Nat
  le_count : ∀ i rest n, amount i rest n ≤ n
  le_rest : ∀ i rest n, amount i rest n ≤ rest.length
  pos : ∀ i rest n, rest ≠ [] → 0 < n → 0 < amount i rest n

/-- The file with the number of the next call. -/
def ContentReader.read (reader : ContentReader) (n : Nat) (file : Nat × List UInt8) :
    List UInt8 × Nat × List UInt8 :=
  let k := reader.amount file.1 file.2 n
  (file.2.take k, file.1 + 1, file.2.drop k)

/-- One call with a buffer of `size` bytes. -/
def responseCall {ρ : Type} (read : Nat → ρ → List UInt8 × ρ) (size : Nat)
    (u : HttpResponse × ρ) : Piece (HttpResponse × ρ) UInt8 :=
  let r := httpResponseGen read u.1 size u.2
  ⟨r.out, r.isEnd, (r.res, r.file)⟩

section Content
variable {ρ : Type} {res : HttpResponse}

theorem httpResponseGen_content (read : Nat → ρ → List UInt8 × ρ) (hs : res.genStatus = .content)
    (hc : 0 < res.content) (size : Int) (file : ρ) : httpResponseGen read res size file =
      ⟨(read size.toNat file).1, size - (read size.toNat file).1.length,
        (read size.toNat file).1.isEmpty, res, (read size.toNat file).2⟩ := by
  refine httpResponseGen_stay ?_ ?_
  · simp only [genRound, hs, if_pos hc]
  · exact rfl

/-- Without a descriptor above `0` there is nothing to read. -/
theorem httpResponseGen_no_content (read : Nat → ρ → List UInt8 × ρ)
    (hs : res.genStatus = .content) (hc : ¬ 0 < res.content) (size : Int) (file : ρ) :
    httpResponseGen read res size file = ⟨[], size, true, res, file⟩ := by
  refine httpResponseGen_stay ?_ ?_
  · simp only [genRound, hs, if_neg hc]
  · exact rfl

/-- In the content state the rest of the file follows. -/
theorem delivers_content (reader : ContentReader) (hs : res.genStatus = .content)
    (hc : 0 < res.content) {size : Nat} (hsize : 0 < size) (i : Nat) (rest : List UInt8) :
    Delivers (responseCall reader.read size) (res, i, rest) rest := by
  induction hn : rest.length using Nat.strong_induction_on generalizing i rest with
  | _ n ih =>
    have hcall : responseCall reader.read size (res, i, rest) =
        ⟨rest.take (reader.amount i rest size), (rest.take (reader.amount i rest size)).isEmpty,
          (res, i + 1, rest.drop (reader.amount i rest size))⟩ := by
      simp only [responseCall, httpResponseGen_content reader.read hs hc, ContentReader.read,
        Int.toNat_natCast]
    by_cases hrest : rest = []
    · have hend : (responseCall reader.read size (res, i, rest)).isEnd = true := by
        rw [hcall]
        simp [hrest]
      rw [delivers_end hend, hcall]
      simp [hrest]
    · have hpos := reader.pos i rest size hrest hsize
      have hlen : rest.length ≠ 0 := mt List.length_eq_zero_iff.mp hrest
      have hend : (responseCall reader.read size (res, i, rest)).isEnd = false := by
        rw [hcall]
        simp only [List.isEmpty_eq_false_iff, ne_eq, List.take_eq_nil_iff, hrest, or_false]
        omega
      rw [delivers_stay hend, hcall]
      refine ⟨rest.drop (reader.amount i rest size), (List.take_append_drop ..).symm, ?_⟩
      apply ih _ _ (i + 1) (rest.drop (reader.amount i rest size)) rfl
      rw [List.length_drop]
      omega

/-- A call that has written `out` and goes on with the content: the file follows when there
    is a descriptor above `0` and room for a first byte, and otherwise nothing does. -/
theorem delivers_reached (reader : ContentReader) {res' : HttpResponse}
    (hs : res'.genStatus = .content) {size room i : Nat} (hsize : 0 < size) {B out : List UInt8}
    (hgen : httpResponseGen reader.read res size (i, B) =
      (httpResponseGen reader.read res' (room : Int) (i, B)).after out) :
    Delivers (responseCall reader.read size) (res, i, B)
      (out ++ if 0 < res'.content ∧ 0 < room then B else []) := by
  by_cases hc : 0 < res'.content
  swap
  · -- without a descriptor the call is the last one
    rw [httpResponseGen_no_content reader.read hs hc] at hgen
    have hend : (responseCall reader.read size (res, i, B)).isEnd = true := by
      rw [responseCall, hgen]
      rfl
    rw [delivers_end hend, responseCall, hgen, if_neg fun h => hc h.1]
    rfl
  let k := reader.amount i B room
  have hcall : responseCall reader.read size (res, i, B) =
      ⟨out ++ B.take k, (B.take k).isEmpty, (res', i + 1, B.drop k)⟩ := by
    rw [httpResponseGen_content reader.read hs hc] at hgen
    rw [responseCall, hgen]
    rfl
  by_cases hmore : B ≠ [] ∧ 0 < room
  · have hpos : 0 < k := reader.pos i B room hmore.1 hmore.2
    have hend : (responseCall reader.read size (res, i, B)).isEnd = false := by
      rw [hcall]
      simp only [List.isEmpty_eq_false_iff, ne_eq, List.take_eq_nil_iff, hmore.1, or_false]
      omega
    rw [delivers_stay hend, hcall, if_pos ⟨hc, hmore.2⟩]
    refine ⟨B.drop k, ?_, delivers_content reader hs hc hsize (i + 1) _⟩
    rw [List.append_assoc, List.take_append_drop]
  · -- nothing is read
    have hnil : B.take k = [] := by
      rw [List.take_eq_nil_iff]
      by_cases hB : B = []
      · exact Or.inr hB
      · have hcount := reader.le_count i B room
        have hfull : ¬0 < room := fun h => hmore ⟨hB, h⟩
        left
        omega
    have hrest : (if 0 < res'.content ∧ 0 < room then B else []) = [] := by
      split
      next h =>
        by_contra hB
        exact hmore ⟨hB, h.2⟩
      next => rfl
    have hend : (responseCall reader.read size (res, i, B)).isEnd = true := by
      rw [hcall, hnil]
      rfl
    rw [delivers_end hend, hcall, hnil, hrest]

/-- The head fits: the content follows, or the head is all. -/
theorem delivers_head (reader : ContentReader) {ps : List Ptr} (hs : res.genStatus = .version)
    (hps : res.headers.Listed ps) (hsound : res.headers.Sound)
    (hcur : res.headers.traversePtr = res.headers.headerTree.root) {size : Nat}
    (hsize : (responseHead res ps).length ≤ size) (B : List UInt8) :
    Delivers (responseCall reader.read size) (res, 0, B) (responseHead res ps ++
      if 0 < res.content ∧ (responseHead res ps).length < size then B else []) := by
  rcases httpResponseGen_head reader.read hs hps hsound hcur hsize (0, B) with ⟨headers, hgen⟩
  have hlen := responseHead_length res ps
  let res' : HttpResponse := { res with headers, genStatus := .content }
  have hs' : res'.genStatus = .content := rfl
  have hdel := delivers_reached reader hs' (by omega) hgen
  simpa only [Nat.sub_pos_iff_lt] using hdel

/-- **The response is delivered** when there is no file, or an empty one, or a descriptor
    above `0` and room for a first byte of the file behind the head; otherwise the calls
    end with the head. -/
theorem httpResponseGen_delivers (res : HttpResponse) (ps : List Ptr)
    (hs : res.genStatus = .version) (hps : res.headers.Listed ps) (hsound : res.headers.Sound)
    (hcur : res.headers.traversePtr = res.headers.headerTree.root) (size : Nat)
    (hsize : (responseHead res ps).length ≤ size) (reader : ContentReader) (B : List UInt8) :
    (0 ≤ res.content →
      (Delivers (responseCall reader.read size) (res, 0, B) (responseHead res ps ++ B) ↔
        B = [] ∨ 0 < res.content ∧ (responseHead res ps).length < size)) ∧
    (res.content = -1 →
      Delivers (responseCall reader.read size) (res, 0, B) (responseHead res ps)) := by
  have hdel := delivers_head reader hs hps hsound hcur hsize B
  constructor
  · intro _
    rw [hdel.iff, List.append_right_inj]
    split
    next hmore => exact ⟨fun _ => Or.inr hmore, fun _ => rfl⟩
    next hmore =>
      constructor
      · exact Or.inl
      · rintro (hB | hroom)
        · exact hB
        · exact absurd hroom hmore
  · intro hc
    have hmore : ¬ (0 < res.content ∧ (responseHead res ps).length < size) := by
      rintro ⟨hpos, -⟩
      omega
    rwa [if_neg hmore, List.append_nil] at hdel

end Content

/-- Every `read` delivers as much as it can. -/
def eagerReader : ContentReader where
  amount _ rest n := min n rest.length
  le_count _ _ _ := Nat.min_le_left ..
  le_rest _ _ _ := Nat.min_le_right ..
  pos _ _ _ hrest hn := lt_min hn (List.length_pos_of_ne_nil hrest)

theorem httpHeaderInit_listed : httpHeaderInit.Listed [] ∧ httpHeaderInit.Sound := by
  have hv : httpHeaderInit.headerTree.Represents (.empty fun _ => default) :=
    Btree.represents_init _
  exact ⟨HttpHeaderCollection.listed_of_view hv,
    HttpHeaderCollection.sound_of_view hv fun _ hp => absurd hp List.not_mem_nil⟩

theorem httpResponseGen_delivers_file :
    Delivers (responseCall eagerReader.read 4096)
      ({ httpResponseInit .ok200 with content := 3 }, 0, bytes "file")
      (bytes "HTTP/1.1 200 OK\r\n\r\nfile") := by
  have hdel := (httpResponseGen_delivers { httpResponseInit .ok200 with content := 3 } [] rfl
    httpHeaderInit_listed.1 httpHeaderInit_listed.2 rfl 4096 (by decide) eagerReader
    (bytes "file")).1 (by decide)
  exact hdel.mpr (Or.inr ⟨by decide, by decide⟩)

/-- The descriptor `0`, and a head that fills the buffer: the file is not sent. -/
theorem httpResponseGen_not_delivers :
    ¬ Delivers (responseCall eagerReader.read 4096)
      ({ httpResponseInit .ok200 with content := 0 }, 0, bytes "file")
      (bytes "HTTP/1.1 200 OK\r\n\r\nfile") ∧
    ¬ Delivers (responseCall eagerReader.read 19)
      ({ httpResponseInit .ok200 with content := 3 }, 0, bytes "file")
      (bytes "HTTP/1.1 200 OK\r\n\r\nfile") := by
  have hhead : ∀ (content : Int) (size : Nat), 19 ≤ size → ¬ (0 < content ∧ 19 < size) →
      ¬ Delivers (responseCall eagerReader.read size)
        ({ httpResponseInit .ok200 with content }, 0, bytes "file")
        (bytes "HTTP/1.1 200 OK\r\n\r\nfile") := by
    intro content size hsize hmore
    let res : HttpResponse := { httpResponseInit .ok200 with content }
    have hs : res.genStatus = .version := rfl
    have htext : responseHead res [] = bytes "HTTP/1.1 200 OK\r\n\r\n" := rfl
    have hlen : (responseHead res []).length = 19 := by
      rw [htext]
      decide
    have hdel := delivers_head eagerReader hs httpHeaderInit_listed.1 httpHeaderInit_listed.2 rfl
      (hlen.le.trans hsize) (bytes "file")
    rw [hdel.iff, hlen, htext, if_neg hmore]
    decide
  exact ⟨hhead 0 4096 (by decide) (by decide), hhead 3 19 (by decide) (by decide)⟩

end OServer
