/-
  OServer/ServerTranscript.lean
  =============================
  **What a connection is sent (`server_serv_client`, `server_process_request`,
  `http_response_gen`).**

  The worker of a connection parses, answers and sends in one loop, and the response is
  reset and filled again for each request.  Here a run goes with what is left of the file
  that is being sent: every `read` delivers the next bytes of the file, one at least while
  some are left, and every `write` takes all that it is given.

    * `serverTranscript_sent` — the bytes sent are the answers to the requests that the
                                parser has found, one after the other;
    * `serverTranscript_ends` — the sending loop comes to its end.
-/
import OServer.ServerFraming
import OServer.ServerRuns

namespace OServer

open CString Run

/-! ## 1. One call of `http_response_gen` -/

/-- `read` on a descriptor with `rest` left, when it has `content` at hand. -/
def readNext (content : List UInt8) (n : Nat) (rest : List UInt8) : List UInt8 × List UInt8 :=
  (content.take n, rest.drop (content.take n).length)

/-- Where a response stands, and what is still to be sent of it when `rest` is left of its
    file. -/
inductive Unsent (rest : List UInt8) (res : HttpResponse) : List UInt8 → Prop where
  | head (ps : List Ptr) (hs : res.genStatus = .version) (hps : res.headers.Listed ps)
      (hsound : res.headers.Sound) (hcur : res.headers.traversePtr = res.headers.headerTree.root)
      (hsize : (responseHead res ps).length ≤ wbufSize + 1) :
      Unsent rest res (responseHead res ps ++
        if 0 < res.content ∧ (responseHead res ps).length ≠ wbufSize then rest else [])
  | blank (hs : res.genStatus = .headers) (hcur : res.headers.traversePtr = none) :
      Unsent rest res ([CR, LF] ++ if 0 < res.content then rest else [])
  | content (hs : res.genStatus = .content) :
      Unsent rest res (if 0 < res.content then rest else [])

/-- What a call does to `tail`, which was to be sent: it sends a part of it, or all and
    says that it is finished. -/
structure Sends (rest : List UInt8) (res : HttpResponse) (r : Gen (List UInt8))
    (tail : List UInt8) : Prop where
  size : r.size = (wbufSize : Int) - r.out.length
  finished : r.isEnd = true → tail = r.out
  goes_on : r.isEnd = false → ∃ tail', tail = r.out ++ tail' ∧ Unsent r.file r.res tail' ∧
    r.file.length + r.res.genStatus.rounds < rest.length + res.genStatus.rounds

/-- The next bytes of the file, and one at least while some are left. -/
def NextBytes (content rest : List UInt8) : Prop :=
  content <+: rest ∧ (rest ≠ [] → content ≠ [])

instance (content rest : List UInt8) : Decidable (NextBytes content rest) :=
  inferInstanceAs (Decidable (_ ∧ _))

section Call
variable {content rest : List UInt8} {res : HttpResponse}

variable (res) in
/-- A call that has come to the content. -/
theorem sends_content (hnext : NextBytes content rest) {res' : HttpResponse}
    (hs : res'.genStatus = .content) {room : Nat} {out : List UInt8}
    (hroom : out.length + room = wbufSize)
    (hrounds : res.genStatus = .content ∧ out = [] ∨ 1 < res.genStatus.rounds)
    (hgen : httpResponseGen (readNext content) res wbufSize rest =
      (httpResponseGen (readNext content) res' room rest).after out) :
    Sends rest res (httpResponseGen (readNext content) res wbufSize rest)
      (out ++ if 0 < res'.content ∧ 0 < room then rest else []) := by
  rcases hnext with ⟨⟨more, rfl⟩, hne⟩
  by_cases hc : 0 < res'.content
  swap
  · rw [httpResponseGen_no_content _ hs hc] at hgen
    rw [hgen, if_neg fun h => hc h.1]
    refine ⟨?_, fun _ => rfl, fun h => (nomatch h)⟩
    simp only [Gen.after, List.append_nil]
    omega
  rw [httpResponseGen_content _ hs hc] at hgen
  rw [hgen]
  refine ⟨?_, ?_, ?_⟩
  · simp only [Gen.after, readNext, Int.toNat_natCast, List.length_append]
    omega
  · -- no byte is read: there is no room, or no file
    intro hend
    have hnil : content.take room = [] := List.isEmpty_iff.mp hend
    have hrest : (if 0 < res'.content ∧ 0 < room then content ++ more else []) = [] := by
      split_ifs with hmore
      · by_contra hfile
        rcases List.take_eq_nil_iff.mp hnil with h0 | h0
        · exact absurd h0 (Nat.ne_of_gt hmore.2)
        · exact hne hfile h0
      · rfl
    simp only [Gen.after, readNext, Int.toNat_natCast]
    rw [hrest, hnil]
  · intro hstay
    have hstay : (content.take room).isEmpty = false := hstay
    have hread : content.take room ≠ [] := by
      intro h
      rw [h] at hstay
      cases hstay
    have hpos : 0 < room := by
      rcases Nat.eq_zero_or_pos room with h0 | h0
      · exact absurd (by rw [h0, List.take_zero]) hread
      · exact h0
    have hlen := List.length_pos_of_ne_nil hread
    have hle : (content.take room).length ≤ (content ++ more).length :=
      (List.take_sublist room content).length_le.trans (by simp)
    refine ⟨(content ++ more).drop (content.take room).length, ?_, ?_, ?_⟩
    · have hsplit : content.take room ++ (content ++ more).drop (content.take room).length =
          content ++ more := by
        rcases (List.take_prefix room content).trans (List.prefix_append content more) with ⟨l, hl⟩
        rw [← hl, List.drop_left]
      rw [if_pos ⟨hc, hpos⟩]
      simp only [Gen.after, readNext, Int.toNat_natCast, List.append_assoc]
      rw [hsplit]
    · have hunsent : Unsent ((content ++ more).drop (content.take room).length) res' _ :=
        .content hs
      rwa [if_pos hc] at hunsent
    · simp only [Gen.after, readNext, Int.toNat_natCast, hs, List.length_drop]
      have hone : GenStatus.content.rounds = 1 := rfl
      rcases hrounds with ⟨hsame, -⟩ | hlt
      · rw [hsame]
        omega
      · omega

/-- **The content.** -/
theorem sends_of_content (hnext : NextBytes content rest) (hs : res.genStatus = .content) :
    Sends rest res (httpResponseGen (readNext content) res wbufSize rest)
      (if 0 < res.content then rest else []) := by
  have hsends := sends_content res hnext hs (Nat.zero_add wbufSize) (Or.inl ⟨hs, rfl⟩) rfl
  have hpos : 0 < wbufSize := by decide
  simpa only [hpos, and_true, List.nil_append] using hsends

/-- **The blank line is left.** -/
theorem sends_of_blank (hnext : NextBytes content rest) (hs : res.genStatus = .headers)
    (hcur : res.headers.traversePtr = none) :
    Sends rest res (httpResponseGen (readNext content) res wbufSize rest)
      ([CR, LF] ++ if 0 < res.content then rest else []) := by
  have hinfo := accumulate_none hcur wbufSize
  rcases httpHeaderToStr_end hinfo ⟨rfl, by decide⟩ with ⟨hblank, hend, hret, -⟩
  have hgen := httpResponseGen_headers_end (readNext content) res hs hend rest
  have hleft : (wbufSize : Int) - (httpHeaderToStr res.headers wbufSize).ret =
      ((wbufSize - 2 : Nat) : Int) := by
    rw [hret]
    simp [wbufSize]
  rw [hleft, hblank, List.nil_append] at hgen
  have hsends := sends_content res hnext rfl (by decide) (Or.inr (by rw [hs]; decide)) hgen
  have hpos : 0 < wbufSize - 2 := by decide
  simpa only [hpos, and_true] using hsends

variable {ps : List Ptr} (hs : res.genStatus = .version) (hps : res.headers.Listed ps)
  (hsound : res.headers.Sound) (hcur : res.headers.traversePtr = res.headers.headerTree.root)
include hs hps hsound hcur

variable (content rest) in
/-- A head that is one byte longer than the buffer: the blank line is left. -/
theorem sends_head_long (hsize : (responseHead res ps).length = wbufSize + 1) :
    Sends rest res (httpResponseGen (readNext content) res wbufSize rest)
      (responseHead res ps ++ if 0 < res.content then rest else []) := by
  have hlen := responseHead_length res ps
  rcases res.headers.tree with ⟨v, hv⟩
  have htext : ps.flatMap res.headers.line = headerLines v.key res.headers.header v.tree.toList :=
    hps.eq_toList hv ▸ HttpHeaderCollection.flatMap_line hv ps
  let room : Int := (wbufSize - (statusLine res).length : Nat)
  have hroom : ((headerLines v.key res.headers.header v.tree.toList).length : Int) + 1 = room := by
    rw [← htext]
    simp only [room]
    omega
  have hinfo := (accumulate_root hv hcur room).trans
    (write_all v.tree.toList _ (hsound.view hv) (by simp only; omega))
  rcases httpHeaderToStr_stay hinfo (by simp only; omega) with ⟨hstr, hend, hret, hptr⟩
  rw [← htext, List.nil_append] at hstr
  have hline := httpResponseGen_statusLine (readNext content) hs
    (show (statusLine res).length ≤ wbufSize by omega) rest
  have hstay := httpResponseGen_headers_stay (readNext content) { res with genStatus := .headers }
    rfl hend rest
  rw [hline, hstay]
  refine ⟨?_, fun h => (nomatch h), fun _ => ?_⟩
  · simp only [Gen.after, hstr, hret, List.length_append]
    rw [← htext] at hroom ⊢
    simp only [room] at hroom ⊢
    omega
  · refine ⟨[CR, LF] ++ if 0 < res.content then rest else [], ?_, .blank rfl hptr, ?_⟩
    · simp only [Gen.after, hstr, responseHead_eq, List.append_assoc]
    · simp only [Gen.after, hs]
      exact Nat.add_lt_add_left (by decide) rest.length

/-- **Nothing of the response is sent yet.** -/
theorem sends_of_head (hnext : NextBytes content rest)
    (hsize : (responseHead res ps).length ≤ wbufSize + 1) :
    Sends rest res (httpResponseGen (readNext content) res wbufSize rest) (responseHead res ps ++
      if 0 < res.content ∧ (responseHead res ps).length ≠ wbufSize then rest else []) := by
  by_cases hfits : (responseHead res ps).length ≤ wbufSize
  · rcases httpResponseGen_head (readNext content) hs hps hsound hcur hfits rest with
      ⟨headers, hgen⟩
    have hsends := sends_content res hnext rfl (by omega)
      (Or.inr (by rw [hs]; decide)) hgen
    have hiff : 0 < wbufSize - (responseHead res ps).length ↔
        (responseHead res ps).length ≠ wbufSize := by
      rw [Nat.sub_pos_iff_lt]
      exact ⟨ne_of_lt, lt_of_le_of_ne hfits⟩
    simpa only [hiff] using hsends
  · have hlong : (responseHead res ps).length = wbufSize + 1 := by omega
    have hsends := sends_head_long content rest hs hps hsound hcur hlong
    have hne : (responseHead res ps).length ≠ wbufSize := by omega
    simpa only [ne_eq, hne, not_false_eq_true, and_true] using hsends

end Call

/-- **A call sends the next part of what is to be sent.** -/
theorem Unsent.sends {content rest : List UInt8} {res : HttpResponse} {tail : List UInt8}
    (h : Unsent rest res tail) (hnext : NextBytes content rest) :
    Sends rest res (httpResponseGen (readNext content) res wbufSize rest) tail := by
  cases h with
  | head ps hs hps hsound hcur hsize => exact sends_of_head hs hps hsound hcur hnext hsize
  | blank hs hcur => exact sends_of_blank hnext hs hcur
  | content hs => exact sends_of_content hnext hs

/-! ## 2. The answer to a request -/

/-- What is found at a path: the status, the announced length, and the descriptor of the file
    when it is opened. -/
structure FileAnswer where
  status : HttpStatus
  clen : Int
  content : Option Nat
deriving DecidableEq, Repr

/-- No regular file, an empty one, one that cannot be opened, or one that is sent. -/
def fileAnswer (fs : FileSystem) (path : List UInt8) : FileAnswer :=
  match fs.stat path with
  | none => ⟨.notFound404, 0, none⟩
  | some info =>
      if !info.isReg then ⟨.notFound404, 0, none⟩
      else if info.stSize = 0 then ⟨.ok200, 0, none⟩
      else
        match fs.openRdonly path with
        | none => ⟨.internalServerError500, 0, none⟩
        | some fd => ⟨.ok200, toInt32 info.stSize, some fd⟩

/-- The head that answers a `GET` or a `HEAD`. -/
def fileHead (fs : FileSystem) (path : List UInt8) : List UInt8 :=
  headText (fileAnswer fs path).status (getFields path true (fileAnswer fs path).clen)

/-- The file follows when it is opened, not as the descriptor `0`, and the head does not fill
    the buffer. -/
def fileBody (files : StaticFiles) (path : List UInt8) : List UInt8 :=
  match (fileAnswer files.toFileSystem path).content with
  | none => []
  | some fd =>
      if 0 < fd ∧ (fileHead files.toFileSystem path).length ≠ wbufSize then files.contents path
      else []

/-- A response without a file. -/
def plainAnswer (status : HttpStatus) (keepAlive : Bool) : List UInt8 :=
  headText status [connectionField keepAlive, (headerContentLength, bytes "0"), serverField]

/-- The bytes that answer a request. -/
def answerText (root : List UInt8) (files : StaticFiles) (req : HttpRequest) : List UInt8 :=
  let path := servedPath root req.url
  if req.parseStatus = .error then plainAnswer .badRequest400 false
  else
    match req.method with
    | .get => fileHead files.toFileSystem path ++ fileBody files path
    | .head => fileHead files.toFileSystem path
    | .options =>
        headText .ok200 [(headerAllow, bytes "OPTIONS, GET, PUT, HEAD"), connectionField true,
          (headerContentLength, bytes "0"), serverField]
    | _ => plainAnswer .methodNotAllowed405 true

/-- The path fits in its array, and the head is at most one byte longer than the buffer. -/
def AnswerFits (root : List UInt8) (fs : FileSystem) (req : HttpRequest) : Prop :=
  req.parseStatus ≠ .error → req.method = .get ∨ req.method = .head →
    (servedPath root req.url).length ≤ pathMax ∧
      (fileHead fs (servedPath root req.url)).length ≤ wbufSize + 1

instance (root : List UInt8) (fs : FileSystem) (req : HttpRequest) :
    Decidable (AnswerFits root fs req) :=
  inferInstanceAs (Decidable (_ → _ → _ ∧ _))

theorem openFile_eq (fs : FileSystem) (path : List UInt8) {res : HttpResponse}
    (hok : res.status = .ok200) : openFile fs path res true =
      ({ res with
          status := (fileAnswer fs path).status
          content := match (fileAnswer fs path).content with
            | none => res.content
            | some fd => (fd : Int) },
        (fileAnswer fs path).clen, true) := by
  unfold openFile fileAnswer
  cases fs.stat path with
  | none => rfl
  | some info =>
    dsimp only
    split_ifs
    · rfl
    · rfl
    · cases fs.openRdonly path with
      | none => rfl
      | some fd =>
        dsimp only
        rw [← hok]

theorem fileAnswer_clen (fs : FileSystem) (path : List UInt8) :
    ∃ n, (fileAnswer fs path).clen = toInt32 n := by
  unfold fileAnswer
  cases fs.stat path with
  | none => exact ⟨0, rfl⟩
  | some info =>
    dsimp only
    split_ifs
    · exact ⟨0, rfl⟩
    · exact ⟨0, rfl⟩
    · cases fs.openRdonly path with
      | none => exact ⟨0, rfl⟩
      | some fd =>
        refine ⟨info.stSize, ?_⟩
        dsimp only

theorem fileAnswer_clen_lt (fs : FileSystem) (path : List UInt8) :
    (bytes (toString (fileAnswer fs path).clen)).length < 32768 := by
  rcases fileAnswer_clen fs path with ⟨n, hn⟩
  rw [hn]
  exact length_toInt32_lt n

/-- A response that has been filled and not been generated. -/
theorem Answers.unsent {res : HttpResponse} {status : HttpStatus}
    {es fs : List (BtKey × List UInt8)} {e : BtKey × List UInt8} (h : Answers res status es)
    (hperm : (e :: fs).Perm es) (hsorted : (e :: fs).Pairwise fun e e' => e.1 < e'.1)
    (hsize : (headText status (e :: fs)).length ≤ wbufSize + 1) (rest : List UInt8) :
    Unsent rest res (headText status (e :: fs) ++
      if 0 < res.content ∧ (headText status (e :: fs)).length ≠ wbufSize then rest else []) := by
  rcases res.headers.tree with ⟨v, hv⟩
  have hlisted := HttpHeaderCollection.listed_of_view hv
  have hhead := h.head hperm hsorted hlisted
  have hunsent : Unsent rest res _ := .head v.tree.toList h.genStatus hlisted h.headers.sound
    h.headers.cursor (by rwa [hhead])
  rwa [hhead] at hunsent

section Responses
variable {root : List UInt8} {files : StaticFiles} {req : HttpRequest} {res : HttpResponse}

/-- A response without a file is all head. -/
theorem unsent_plain {status : HttpStatus} {e : BtKey × List UInt8}
    {es fs : List (BtKey × List UInt8)}
    (h : Answers (serverProcessRequest root files.toFileSystem req res true).1 status es)
    (hperm : (e :: fs).Perm es) (hsorted : (e :: fs).Pairwise fun e e' => e.1 < e'.1)
    (hcontent : ¬0 < (serverProcessRequest root files.toFileSystem req res true).1.content)
    (hsize : (headText status (e :: fs)).length ≤ wbufSize + 1) (rest : List UInt8) :
    Unsent rest (serverResponse root files req res true) (headText status (e :: fs)) := by
  have hunsent := h.log.unsent hperm hsorted hsize rest
  have hcontent' : ¬0 < (httpResponseLog
    (serverProcessRequest root files.toFileSystem req res true).1).content := hcontent
  rwa [if_neg fun h => hcontent' h.1, List.append_nil] at hunsent

theorem unsent_zero (status : HttpStatus) (keep : Bool)
    (hrequest : (serverProcessRequest root files.toFileSystem req res true).1 =
      (((httpResponseReset res status).addById headerContentLength (bytes "0") 1).addById
        headerConnection (if keep then bytes "keep-alive" else bytes "close")
          (if keep then 10 else 5)).addById headerServer (bytes "O's Server") 10)
    (rest : List UInt8) :
    Unsent rest (serverResponse root files req res true) (plainAnswer status keep) := by
  have hanswer := (answers_zero res status).finish keep
  rw [← hrequest] at hanswer
  refine unsent_plain hanswer (List.Perm.swap _ _ _) ?_ ?_
    ((headText_zero_le status keep).trans (Nat.le_succ _)) rest
  · cases keep <;> decide
  · rw [hrequest]
    exact httpResponseReset_content res status

theorem unsent_options (herr : req.parseStatus ≠ .error) (hoptions : req.method = .options)
    (rest : List UInt8) : Unsent rest (serverResponse root files req res true)
      (headText .ok200 [(headerAllow, bytes "OPTIONS, GET, PUT, HEAD"), connectionField true,
        (headerContentLength, bytes "0"), serverField]) := by
  have hrequest : (serverProcessRequest root files.toFileSystem req res true).1 =
      ((serverProcessOptions res).addById headerConnection (bytes "keep-alive") 10).addById
        headerServer (bytes "O's Server") 10 := by
    rw [serverProcessRequest, if_neg herr, hoptions]
    rfl
  have hanswer := (answers_options res).finish true
  refine unsent_plain (hrequest ▸ hanswer) (.cons _ (List.Perm.swap _ _ _)) ?_ ?_ ?_ rest
  · decide
  · rw [hrequest]
    exact httpResponseReset_content res .ok200
  · decide

variable (files res) in
/-- What `server_process_get` leaves, with the file that is found. -/
theorem serverProcessGet_found (hpath : (servedPath root req.url).length ≤ pathMax) :
    Answers (serverProcessGet root files.toFileSystem req res true).1
        (fileAnswer files.toFileSystem (servedPath root req.url)).status
        ((headerContentLength, bytes (toString
          (fileAnswer files.toFileSystem (servedPath root req.url)).clen)) ::
            typeFields (servedPath root req.url)) ∧
      (serverProcessGet root files.toFileSystem req res true).2 = true ∧
      (0 < (serverProcessGet root files.toFileSystem req res true).1.content ↔
        ∃ fd, (fileAnswer files.toFileSystem (servedPath root req.url)).content = some fd ∧
          0 < fd) := by
  have hreset := answers_reset res .ok200
  have hopen := openFile_eq files.toFileSystem (servedPath root req.url) hreset.status
  rcases serverProcessGet_answers hopen ⟨hreset.version, rfl, hreset.genStatus, hreset.headers⟩
    hpath (fileAnswer_clen_lt _ _) with ⟨hanswers, hcontent, hkeep⟩
  refine ⟨hanswers, hkeep, ?_⟩
  rw [hcontent]
  cases (fileAnswer files.toFileSystem (servedPath root req.url)).content with
  | none =>
    refine iff_of_false (httpResponseReset_content res .ok200) ?_
    rintro ⟨fd, hfd, -⟩
    cases hfd
  | some fd =>
    constructor
    · intro h
      exact ⟨fd, rfl, Int.natCast_pos.mp h⟩
    · rintro ⟨fd', hfd, hpos⟩
      cases hfd
      exact Int.natCast_pos.mpr hpos

theorem fileBody_eq {path : List UInt8} {content : Int}
    (hcontent : 0 < content ↔
      ∃ fd, (fileAnswer files.toFileSystem path).content = some fd ∧ 0 < fd) :
    fileBody files path =
      if 0 < content ∧ (fileHead files.toFileSystem path).length ≠ wbufSize then
        files.contents path
      else [] := by
  unfold fileBody
  cases hfd : (fileAnswer files.toFileSystem path).content with
  | none =>
    rw [if_neg]
    rintro ⟨hpos, -⟩
    rcases hcontent.mp hpos with ⟨fd, hfd', -⟩
    rw [hfd] at hfd'
    cases hfd'
  | some fd =>
    have hiff : 0 < content ↔ 0 < fd := by
      rw [hcontent, hfd]
      exact ⟨fun ⟨_, h, hpos⟩ => Option.some.inj h ▸ hpos, fun hpos => ⟨fd, rfl, hpos⟩⟩
    simp only [hiff]

/-- A response to a `GET` or a `HEAD`, from what its function leaves. -/
theorem unsent_file {r : HttpResponse × Bool}
    (hrequest : (serverProcessRequest root files.toFileSystem req res true).1 =
      (r.1.addById headerConnection (if r.2 then bytes "keep-alive" else bytes "close")
        (if r.2 then 10 else 5)).addById headerServer (bytes "O's Server") 10)
    {path : List UInt8} (hanswers : Answers r.1 (fileAnswer files.toFileSystem path).status
      ((headerContentLength, bytes (toString (fileAnswer files.toFileSystem path).clen)) ::
        typeFields path))
    (hkeep : r.2 = true) (hhead : (fileHead files.toFileSystem path).length ≤ wbufSize + 1)
    (rest : List UInt8) :
    Unsent rest (serverResponse root files req res true) (fileHead files.toFileSystem path ++
      if 0 < r.1.content ∧ (fileHead files.toFileSystem path).length ≠ wbufSize then rest
      else []) := by
  have hanswer := (hanswers.finish r.2).log
  have hcontent : (serverResponse root files req res true).content = r.1.content := by
    rw [serverResponse, hrequest]
    rfl
  rw [← hrequest, hkeep] at hanswer
  have hunsent := hanswer.unsent (getFields_perm _ true _) (getFields_sorted _ true _) hhead rest
  rw [← hcontent]
  exact hunsent

theorem unsent_get (herr : req.parseStatus ≠ .error) (hget : req.method = .get)
    (hfits : AnswerFits root files.toFileSystem req) :
    Unsent (files.contents (servedPath root req.url)) (serverResponse root files req res true)
      (fileHead files.toFileSystem (servedPath root req.url) ++
        fileBody files (servedPath root req.url)) := by
  rcases hfits herr (Or.inl hget) with ⟨hpath, hhead⟩
  rcases serverProcessGet_found files res hpath with ⟨hanswers, hkeep, hcontent⟩
  have hrequest := congrArg Prod.fst
    (serverProcessRequest.eq_def root files.toFileSystem req res true)
  rw [if_neg herr, hget] at hrequest
  rw [fileBody_eq hcontent]
  exact unsent_file hrequest hanswers hkeep hhead _

theorem unsent_head (herr : req.parseStatus ≠ .error) (hmethod : req.method = .head)
    (hfits : AnswerFits root files.toFileSystem req) (rest : List UInt8) :
    Unsent rest (serverResponse root files req res true)
      (fileHead files.toFileSystem (servedPath root req.url)) := by
  rcases hfits herr (Or.inr hmethod) with ⟨hpath, hhead⟩
  rcases serverProcessGet_found files res hpath with ⟨hanswers, hkeep, -⟩
  have hrequest := congrArg Prod.fst
    (serverProcessRequest.eq_def root files.toFileSystem req res true)
  rw [if_neg herr, hmethod] at hrequest
  -- the descriptor is closed
  have hcontent : ¬0 < (serverProcessHead root files.toFileSystem req res true).1.content := by
    unfold serverProcessHead
    dsimp only
    split_ifs <;> omega
  have hunsent := unsent_file hrequest
    ⟨hanswers.version, hanswers.status, hanswers.genStatus, hanswers.headers⟩ hkeep hhead rest
  rwa [if_neg fun h => hcontent h.1, List.append_nil] at hunsent

variable (req res) in
/-- **What is to be sent of a response is the answer to its request.** -/
theorem unsent_response (hfits : AnswerFits root files.toFileSystem req) :
    Unsent (files.contents (servedPath root req.url)) (serverResponse root files req res true)
      (answerText root files req) := by
  unfold answerText
  dsimp only
  by_cases herr : req.parseStatus = .error
  · rw [if_pos herr]
    refine unsent_zero .badRequest400 false ?_ _
    rw [serverProcessRequest, if_pos herr]
  rw [if_neg herr]
  have hother : req.method ≠ .get → req.method ≠ .head → req.method ≠ .options →
      Unsent (files.contents (servedPath root req.url)) (serverResponse root files req res true)
        (plainAnswer .methodNotAllowed405 true) := by
    intro hget hhead hoptions
    exact unsent_zero .methodNotAllowed405 true
      (serverProcessRequest_not_allowed files.toFileSystem herr hget hhead hoptions) _
  cases hmethod : req.method with
  | get => exact unsent_get herr hmethod hfits
  | head => exact unsent_head herr hmethod hfits _
  | options => exact unsent_options herr hmethod _
  | _ => exact hother (by rw [hmethod]; decide) (by rw [hmethod]; decide) (by rw [hmethod]; decide)

end Responses

/-! ## 3. Connections with the file that they send -/

/-- A connection with what is left of the file that is being sent. -/
structure Transfer where
  connection : Connection
  rest : List UInt8

/-- The file is at its start when the request has been processed, and each call of
    `http_response_gen` reads from it. -/
def restAfter (root : List UInt8) (files : StaticFiles) (t : Transfer) : ServerEvent → List UInt8
  | .settle _ => files.contents (servedPath root t.connection.conn.request.url)
  | .send content _ =>
      (httpResponseGen (readNext content) t.connection.conn.response wbufSize t.rest).file
  | _ => t.rest

def transferStep (root : List UInt8) (files : StaticFiles) (t : Transfer) (e : ServerEvent) :
    Option (Transfer × List ServerObs) :=
  (serverStep root t.connection e).map fun r => (⟨r.1, restAfter root files t e⟩, r.2)

/-- A response is owed. -/
def Worker.answering : Worker → Bool
  | .parsed _ _ _ _ parseEnd => parseEnd
  | .sending _ _ _ => true
  | _ => false

/-- The files stay as they are, the answers fit, `read` delivers the next bytes of the file,
    and `write` takes all that it is given. -/
def Undisturbed (root : List UInt8) (files : StaticFiles) (t : Transfer) : ServerEvent → Prop
  | .settle fs => fs = files.toFileSystem ∧
      (t.connection.worker.answering = true → AnswerFits root fs t.connection.conn.request)
  | .send content written =>
      NextBytes content t.rest ∧ written = some (httpResponseGen (readNext content)
        t.connection.conn.response wbufSize t.rest).out.length
  | _ => True

/-- Runs in such an environment, with their history. -/
def Transferred (root : List UInt8) (files : StaticFiles)
    (x : Transfer × List ServerObs) : Prop :=
  Reachable (logged (transferStep root files)) (fun x => Undisturbed root files x.1)
    (fun x => Accepted x.1.connection ∧ x.2 = []) x

/-- What is generated does not depend on what is left of the file. -/
def Gen.forget {ρ : Type} (r : Gen ρ) : Gen Unit := ⟨r.out, r.size, r.isEnd, r.res, ()⟩

theorem httpResponseGen_forget (content : List UInt8) (res : HttpResponse) (size : Int)
    (rest : List UInt8) :
    httpResponseGen (fun n (_ : Unit) => (content.take n, ())) res size () =
      (httpResponseGen (readNext content) res size rest).forget := by
  have hround : ∀ (res : HttpResponse) (size : Int) (rest : List UInt8),
      genRound (fun n (_ : Unit) => (content.take n, ())) res size () =
        (genRound (readNext content) res size rest).forget := by
    intro res size rest
    unfold genRound
    cases res.genStatus with
    | version => dsimp only; split_ifs <;> rfl
    | code => dsimp only; split_ifs <;> rfl
    | headers => rfl
    | content => dsimp only; split_ifs <;> rfl
    | error => rfl
  unfold httpResponseGen
  generalize res.genStatus.rounds = fuel
  induction fuel generalizing res size rest with
  | zero => rfl
  | succ fuel ih =>
    simp only [genLoop, hround res size rest, Gen.forget]
    split_ifs
    · exact congrArg (Gen.after _) (ih _ _ _)
    · rfl

/-- What is logged of a call that has generated `out`. -/
def sentPart (out : List UInt8) : List ServerObs := if 0 < out.length then [.sent out] else []

theorem sentPart_sent (out : List UInt8) : ∀ o ∈ sentPart out, ∃ bs, o = .sent bs := by
  intro o ho
  unfold sentPart at ho
  split_ifs at ho
  · exact ⟨out, List.mem_singleton.mp ho⟩
  · exact absurd ho List.not_mem_nil

/-- A round of the sending loop, when `write` takes what it is given. -/
theorem sendPiece_written {conn : ConnectionInfo} (rbuf : Buf UInt8 rbufSize) (remain : Nat)
    (keepAlive : Bool) {content rest : List UInt8} {written : Option Nat} {r : Gen (List UInt8)}
    (hr : httpResponseGen (readNext content) conn.response wbufSize rest = r)
    (hsize : r.size = (wbufSize : Int) - r.out.length) (hwritten : written ≠ none) :
    sendPiece conn rbuf remain keepAlive content written =
      (if r.isEnd then
        ⟨{ conn with
            request := httpRequestInit
            response := httpResponseReset r.res .ok200 },
          if keepAlive then .recving rbuf remain else .closed⟩
      else ⟨{ conn with response := r.res }, .sending rbuf remain keepAlive⟩,
      sentPart r.out ++ if r.isEnd then [.answered] else []) := by
  have hforget := httpResponseGen_forget content conn.response wbufSize rest
  have hpos : 0 < (wbufSize : Int) - r.size ↔ 0 < r.out.length := by omega
  rw [hr] at hforget
  unfold sendPiece
  simp only [hforget, Gen.forget, hpos, hwritten, and_false, decide_false, Bool.false_eq_true,
    false_or, if_false]
  cases r.isEnd with
  | true => rfl
  | false =>
    simp only [Bool.false_eq_true, if_false, List.append_nil]
    rfl

/-! ## 4. What has been asked and what has been sent -/

/-- The bytes that `write` has taken. -/
def sentBytes (log : List ServerObs) : List UInt8 :=
  log.flatMap fun
    | .sent bs => bs
    | _ => []

/-- The request that is being parsed, and those that are complete or refused. -/
structure Heard where
  current : HttpRequest
  requests : List HttpRequest

/-- The parser is called on the same bytes once more. -/
def hear (x : Heard) : ServerObs → Heard
  | .parsed _ data _ =>
      let r := httpRequestParse x.current data
      if r.isEnd then ⟨httpRequestInit, x.requests ++ [r.req]⟩ else { x with current := r.req }
  | _ => x

/-- The requests in the bytes that the parser was given. -/
def heard (log : List ServerObs) : Heard := log.foldl hear ⟨httpRequestInit, []⟩

/-- The answers to the requests, one after the other. -/
def answers (root : List UInt8) (files : StaticFiles) (log : List ServerObs) : List UInt8 :=
  (heard log).requests.flatMap (answerText root files)

theorem sentBytes_append (log obs : List ServerObs) :
    sentBytes (log ++ obs) = sentBytes log ++ sentBytes obs :=
  List.flatMap_append

theorem Quiet.heard_eq {obs : List ServerObs} (h : Quiet obs) (log : List ServerObs) :
    heard (log ++ obs) = heard log := by
  rw [heard, List.foldl_append, h.foldl_eq (fun _ _ => rfl) fun _ => rfl, heard]

theorem heard_call (log : List ServerObs) (bs data : List UInt8) (st : ParseStatus) (n : Nat) :
    heard (log ++ [.received bs, .parsed st data n]) = hear (heard log) (.parsed st data n) := by
  rw [heard, List.foldl_append]
  rfl

/-- Where the worker is, what it has been asked and what it has sent: a response is owed from
    the end of the request on, until its last byte is sent. -/
def Told (root : List UInt8) (files : StaticFiles) (t : Transfer) (log : List ServerObs) : Prop :=
  match t.connection.worker with
  | .waiting =>
      (heard log).current = t.connection.conn.request ∧ sentBytes log = answers root files log
  | .recving _ _ =>
      (heard log).current = t.connection.conn.request ∧ sentBytes log = answers root files log
  | .parsed _ _ _ _ false =>
      (heard log).current = t.connection.conn.request ∧ sentBytes log = answers root files log
  | .parsed _ _ _ _ true =>
      (heard log).current = httpRequestInit ∧
        sentBytes log ++ answerText root files t.connection.conn.request = answers root files log
  | .sending _ _ _ =>
      (heard log).current = httpRequestInit ∧ ∃ tail,
        sentBytes log ++ tail = answers root files log ∧
          Unsent t.rest t.connection.conn.response tail
  | .closed => sentBytes log = answers root files log

section Told
variable {root : List UInt8} {files : StaticFiles} {log : List ServerObs}

theorem Quiet.answers_eq {obs : List ServerObs} (h : Quiet obs) :
    answers root files (log ++ obs) = answers root files log := by
  rw [answers, h.heard_eq, answers]

/-- `recv` has delivered some bytes. -/
theorem told_recvData {conn : ConnectionInfo} (rbuf : Buf UInt8 rbufSize) (remain : Nat)
    (rest bs : List UInt8) (hcur : (heard log).current = conn.request)
    (hsent : sentBytes log = answers root files log) :
    Told root files ⟨(recvData conn rbuf remain bs).1, rest⟩
      (log ++ (recvData conn rbuf remain bs).2) := by
  let data := presented rbuf remain bs
  let r := httpRequestParse conn.request data
  have hquiet : sentBytes (log ++ (recvData conn rbuf remain bs).2) = sentBytes log := by
    rw [sentBytes_append]
    exact List.append_nil _
  have hheard : heard (log ++ (recvData conn rbuf remain bs).2) =
      if r.isEnd then ⟨httpRequestInit, (heard log).requests ++ [r.req]⟩
      else { heard log with current := r.req } := by
    refine (heard_call log bs data conn.request.parseStatus r.rdlen).trans ?_
    rw [hear, hcur]
  obtain ⟨rbuf', remain', failed, hworker⟩ : ∃ rbuf' remain' failed,
      (recvData conn rbuf remain bs).1.worker =
        .parsed rbuf' remain' r.rdlen failed r.isEnd := ⟨_, _, _, rfl⟩
  have hreq : (recvData conn rbuf remain bs).1.conn.request = r.req := rfl
  unfold Told
  simp only [hworker, hquiet, answers, hheard, hreq]
  cases r.isEnd with
  | false => exact ⟨rfl, hsent⟩
  | true =>
    simp only [if_true, List.flatMap_append, List.flatMap_singleton]
    exact ⟨trivial, congrArg (· ++ answerText root files r.req) hsent⟩

/-- A request has been parsed, or more of it is needed. -/
theorem told_settle {conn : ConnectionInfo} {rbuf : Buf UInt8 rbufSize} {remain : Int}
    {rdlen : Nat} {failed parseEnd : Bool} {rest : List UInt8} {c' : Connection}
    (h : Told root files ⟨⟨conn, .parsed rbuf remain rdlen failed parseEnd⟩, rest⟩ log)
    (hfits : parseEnd = true → AnswerFits root files.toFileSystem conn.request)
    (hstep : settle root files.toFileSystem conn rbuf remain rdlen failed parseEnd = some c') :
    Told root files ⟨c', files.contents (servedPath root conn.request.url)⟩ log := by
  unfold settle at hstep
  split_ifs at hstep with hneg hend
  · obtain rfl := Option.some.inj hstep
    subst hend
    rcases h with ⟨hcur, hsent⟩
    have hunsent := unsent_response (httpRequestLog conn.request) conn.response (hfits rfl)
    exact ⟨hcur, _, hsent, hunsent⟩
  · obtain rfl := Option.some.inj hstep
    obtain rfl := Bool.eq_false_iff.mpr hend
    exact h

/-- A round of the sending loop. -/
theorem told_sendPiece {conn : ConnectionInfo} {rbuf : Buf UInt8 rbufSize} {remain : Nat}
    {keepAlive : Bool} {content rest : List UInt8} {written : Option Nat}
    (h : Told root files ⟨⟨conn, .sending rbuf remain keepAlive⟩, rest⟩ log)
    (hnext : NextBytes content rest) (hwritten : written ≠ none) :
    Told root files ⟨(sendPiece conn rbuf remain keepAlive content written).1,
        (httpResponseGen (readNext content) conn.response wbufSize rest).file⟩
      (log ++ (sendPiece conn rbuf remain keepAlive content written).2) := by
  rcases h with ⟨hcur, tail, hsent, hunsent⟩
  have hsends : Sends rest conn.response _ tail := hunsent.sends hnext
  rw [sendPiece_written rbuf remain keepAlive rfl hsends.size hwritten]
  generalize httpResponseGen (readNext content) conn.response wbufSize rest = r at hsends ⊢
  have hout : sentBytes (sentPart r.out) = r.out := by
    unfold sentPart
    split_ifs with hpos
    · exact List.append_nil _
    · exact (List.length_eq_zero_iff.mp (Nat.eq_zero_of_not_pos hpos)).symm
  cases hend : r.isEnd with
  | true =>
    have hquiet : Quiet (sentPart r.out ++ [.answered]) := quiet_answered (sentPart_sent r.out)
    have hall : sentBytes (log ++ (sentPart r.out ++ [.answered])) =
        answers root files (log ++ (sentPart r.out ++ [.answered])) := by
      rw [hquiet.answers_eq, sentBytes_append, sentBytes_append, hout, ← hsent,
        hsends.finished hend]
      exact congrArg _ (List.append_nil _)
    have hcur' : (heard (log ++ (sentPart r.out ++ [.answered]))).current = httpRequestInit := by
      rw [hquiet.heard_eq, hcur]
    cases keepAlive with
    | true => exact ⟨hcur', hall⟩
    | false => exact hall
  | false =>
    have hquiet : Quiet (sentPart r.out) := quiet_sent (sentPart_sent r.out)
    obtain ⟨tail', htail, hunsent', -⟩ := hsends.goes_on hend
    simp only [Bool.false_eq_true, if_false, List.append_nil]
    refine ⟨?_, tail', ?_, hunsent'⟩
    · rw [hquiet.heard_eq, hcur]
    · rw [hquiet.answers_eq, sentBytes_append, hout, List.append_assoc, ← htail, hsent]

/-- **Every step keeps to the transcript.** -/
theorem Told.step {t t' : Transfer} {e : ServerEvent} {obs : List ServerObs}
    (h : Told root files t log) (ha : Undisturbed root files t e)
    (hstep : transferStep root files t e = some (t', obs)) : Told root files t' (log ++ obs) := by
  rcases t with ⟨⟨conn, worker⟩, rest⟩
  simp only [transferStep, Option.map_eq_some_iff, Prod.mk.injEq] at hstep
  rcases hstep with ⟨⟨c', obs'⟩, hstep, rfl, rfl⟩
  cases worker with
  | waiting =>
    cases e with
    | activate stack =>
      cases hstep
      rw [List.append_nil]
      exact h
    | _ => cases hstep
  | recving rbuf remain =>
    cases e with
    | recv r =>
      cases r with
      | data bs =>
        simp only [serverStep] at hstep
        split_ifs at hstep
        have htold := told_recvData rbuf remain rest bs h.1 h.2
        rwa [Option.some.inj hstep] at htold
      | wouldBlock =>
        cases hstep
        rw [List.append_nil]
        refine ⟨?_, h.2⟩
        rw [saveRemain_request]
        exact h.1
      | closed =>
        cases hstep
        rw [List.append_nil]
        exact h.2
      | error =>
        cases hstep
        rw [List.append_nil]
        exact h.2
    | _ => cases hstep
  | parsed rbuf remain rdlen failed parseEnd =>
    cases e with
    | settle fs =>
      rcases ha with ⟨rfl, hfits⟩
      simp only [serverStep, Option.map_eq_some_iff, Prod.mk.injEq] at hstep
      rcases hstep with ⟨c₁, hc₁, rfl, rfl⟩
      rw [List.append_nil]
      exact told_settle h hfits hc₁
    | _ => cases hstep
  | sending rbuf remain keepAlive =>
    cases e with
    | send content written =>
      rcases ha with ⟨hnext, hwritten⟩
      have htold := told_sendPiece h hnext (hwritten ▸ Option.some_ne_none _)
      simp only [serverStep, Option.some.injEq] at hstep
      rwa [hstep] at htold
    | _ => cases hstep
  | closed => cases e <;> cases hstep

end Told

/-! ## 5. Runs -/

section Runs
variable {root : List UInt8} {files : StaticFiles} {t : Transfer} {log : List ServerObs}

theorem Transferred.told (h : Transferred root files (t, log)) : Told root files t log := by
  refine Reachable.invariant (P := fun x => Told root files x.1 x.2) ?_ ?_ h
  · rintro ⟨⟨c, rest⟩, log⟩ ⟨⟨buf, hc⟩, hlog⟩
    obtain rfl : c = .accepted buf := hc
    obtain rfl : log = [] := hlog
    exact ⟨rfl, rfl⟩
  · rintro ⟨t, log⟩ e r htold ha hr
    rcases logged_eq_some hr with ⟨t', obs, hstep, rfl⟩
    exact Told.step htold ha hstep

theorem Transferred.start (root : List UInt8) (files : StaticFiles)
    (buf : Buf UInt8 dataBufferSize) :
    Transferred root files (⟨.accepted buf, []⟩, []) :=
  .init ⟨⟨buf, rfl⟩, rfl⟩

theorem Transferred.step {t' : Transfer} {obs : List ServerObs}
    (h : Transferred root files (t, log)) (e : ServerEvent) (ha : Undisturbed root files t e)
    (hstep : transferStep root files t e = some (t', obs)) :
    Transferred root files (t', log ++ obs) := by
  apply Reachable.step (r := ((t', log ++ obs), obs)) h ha
  simp only [logged, hstep, Option.map_some]

end Runs

/-- **What is sent is the answers to what was asked**, in every run, whatever has been asked
    before and however `recv`, `read` and `write` cut it: there is a rest to send only from
    the end of a request to the end of its response. -/
theorem serverTranscript_sent (root : List UInt8) (files : StaticFiles) (t : Transfer)
    (log : List ServerObs) (h : Transferred root files (t, log)) :
    ∃ tail, sentBytes log ++ tail = answers root files log ∧
      (t.connection.worker.answering = false → tail = []) := by
  have htold := h.told
  unfold Told at htold
  split at htold
  · exact ⟨[], by rw [List.append_nil, htold.2], fun _ => rfl⟩
  · exact ⟨[], by rw [List.append_nil, htold.2], fun _ => rfl⟩
  · exact ⟨[], by rw [List.append_nil, htold.2], fun _ => rfl⟩
  next hworker =>
    refine ⟨_, htold.2, ?_⟩
    rw [hworker]
    exact fun h => (nomatch h)
  next hworker =>
    rcases htold with ⟨-, tail, hsent, -⟩
    refine ⟨tail, hsent, ?_⟩
    rw [hworker]
    exact fun h => (nomatch h)
  · exact ⟨[], by rw [List.append_nil, htold], fun _ => rfl⟩

/-- The answer to `GET /` when every path is a file of these four bytes. -/
def indexAnswer : List UInt8 :=
  bytes "HTTP/1.1 200 OK\r\nConnection: keep-alive\r\nContent-Length: 4\r\n" ++
    bytes "Content-Type: text/html\r\nServer: O's Server\r\n\r\nfile"

/-- `GET /` is asked and answered; in the middle the response is filled and not sent. -/
theorem transferred_index : ∃ t log,
    Transferred (bytes "/srv") (oneFile 5 (bytes "file")) (t, log) ∧
      Undisturbed (bytes "/srv") (oneFile 5 (bytes "file")) t
        (.send (bytes "file") (some 111)) ∧
      ∃ t' log', transferStep (bytes "/srv") (oneFile 5 (bytes "file")) t
          (.send (bytes "file") (some 111)) = some (t', log') ∧
        ∃ t'' log'', Transferred (bytes "/srv") (oneFile 5 (bytes "file")) (t'', log'') ∧
          t''.connection.worker.answering = false ∧
          answers (bytes "/srv") (oneFile 5 (bytes "file")) log'' = indexAnswer := by
  have h₁ := (Transferred.start (bytes "/srv") (oneFile 5 (bytes "file")) (zeroBuf _)).step
    (.activate (zeroBuf _)) trivial rfl
  have h₂ := h₁.step (.recv (.data (bytes "GET / HTTP/1.1\r\n\r\n"))) trivial
    (Option.some_get (by decide +kernel)).symm
  have h₃ := h₂.step (.settle (oneFile 5 (bytes "file")).toFileSystem)
    ⟨rfl, fun _ => by decide +kernel⟩ (Option.some_get (by decide +kernel)).symm
  have h₄ := h₃.step (.send (bytes "file") (some 111)) ⟨by decide +kernel, by decide +kernel⟩
    (Option.some_get (by decide +kernel)).symm
  have h₅ := h₄.step (.send [] (some 0)) ⟨by decide +kernel, by decide +kernel⟩
    (Option.some_get (by decide +kernel)).symm
  exact ⟨_, _, h₃, ⟨by decide +kernel, by decide +kernel⟩, _, _,
    (Option.some_get (by decide +kernel)).symm, _, _, h₅, by decide +kernel, by decide +kernel⟩

theorem serverTranscript_sent_index : ∃ t log,
    Transferred (bytes "/srv") (oneFile 5 (bytes "file")) (t, log) ∧
      sentBytes log = indexAnswer := by
  obtain ⟨-, -, -, -, -, -, -, t, log, h, hidle, hanswers⟩ := transferred_index
  obtain ⟨tail, hsent, htail⟩ := serverTranscript_sent _ _ t log h
  rw [htail hidle, List.append_nil, hanswers] at hsent
  exact ⟨t, log, h, hsent⟩

/-- Rounds of the sending loop that can follow at most. -/
def RoundsLeft (t : Transfer) (k : Nat) : Prop :=
  match t.connection.worker with
  | .sending _ _ _ =>
      k = t.rest.length + t.connection.conn.response.genStatus.rounds ∧
        ∃ tail, Unsent t.rest t.connection.conn.response tail
  | _ => k = 0

/-- The steps of the sending loop. -/
def Sending (root : List UInt8) (files : StaticFiles) (t : Transfer) (e : ServerEvent) : Prop :=
  (∃ content written, e = .send content written) ∧ Undisturbed root files t e

theorem RoundsLeft.step {root : List UInt8} {files : StaticFiles} {t : Transfer} {e : ServerEvent}
    {r : Transfer × List ServerObs} {k : Nat} (h : RoundsLeft t k) (ha : Sending root files t e)
    (hstep : transferStep root files t e = some r) : ∃ k' < k, RoundsLeft r.1 k' := by
  rcases t with ⟨⟨conn, worker⟩, rest⟩
  rcases ha with ⟨⟨content, written, rfl⟩, hnext, hwritten⟩
  cases worker with
  | sending rbuf remain keepAlive =>
    rcases h with ⟨rfl, tail, hunsent⟩
    have hunsent : Unsent rest conn.response tail := hunsent
    have hsends := hunsent.sends hnext
    have hsend := sendPiece_written rbuf remain keepAlive rfl hsends.size
      (hwritten ▸ Option.some_ne_none _ : written ≠ none)
    simp only [transferStep, serverStep, hsend, Option.map_some, Option.some.injEq] at hstep
    subst hstep
    have hpos : 0 < conn.response.genStatus.rounds := by
      cases conn.response.genStatus <;> decide
    cases hend : (httpResponseGen (readNext content) conn.response wbufSize rest).isEnd with
    | true =>
      refine ⟨0, by dsimp only; omega, ?_⟩
      cases keepAlive <;> rfl
    | false =>
      rcases hsends.goes_on hend with ⟨tail', -, hunsent', hlt⟩
      exact ⟨_, hlt, rfl, tail', hunsent'⟩
  | _ => cases hstep

/-- **The sending loop ends**: in every run, a response takes at most four rounds more than
    its file has bytes. -/
theorem serverTranscript_ends (root : List UInt8) (files : StaticFiles) (t : Transfer)
    (log : List ServerObs) (h : Transferred root files (t, log)) (es : List ServerEvent)
    (hall : Allowed (transferStep root files) (Sending root files) es t)
    (r : Transfer × List ServerObs) (hrun : run (transferStep root files) es t = some r) :
    es.length ≤ t.rest.length + 4 := by
  have htold := h.told
  obtain ⟨k, hleft, hle⟩ : ∃ k, RoundsLeft t k ∧ k ≤ t.rest.length + 4 := by
    rcases t with ⟨⟨conn, worker⟩, rest⟩
    cases worker with
    | sending rbuf remain keepAlive =>
      rcases htold with ⟨-, tail, -, hunsent⟩
      refine ⟨_, ⟨rfl, tail, hunsent⟩, Nat.add_le_add_left ?_ rest.length⟩
      cases conn.response.genStatus <;> decide
    | _ => exact ⟨0, rfl, Nat.zero_le _⟩
  obtain ⟨k', -, hlen⟩ := run_length_le (fun _ _ _ _ hk ha hs => hk.step ha hs) hleft hall hrun
  omega

theorem serverTranscript_ends_index : ∃ t log,
    Transferred (bytes "/srv") (oneFile 5 (bytes "file")) (t, log) ∧
      [ServerEvent.send (bytes "file") (some 111)].length ≤ t.rest.length + 4 := by
  obtain ⟨t, log, h, ha, t', log', hstep, -⟩ := transferred_index
  have hrun : run (transferStep (bytes "/srv") (oneFile 5 (bytes "file")))
      [.send (bytes "file") (some 111)] t = some (t', log' ++ []) :=
    run_cons.mpr ⟨_, _, hstep, rfl, rfl⟩
  exact ⟨t, log, h, serverTranscript_ends _ _ t log h [.send (bytes "file") (some 111)]
    ⟨⟨⟨_, _, rfl⟩, ha⟩, fun _ _ => trivial⟩ _ hrun⟩

end OServer
