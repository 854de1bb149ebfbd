/-
  OServer/ServerFraming.lean
  ==========================
  **How long the body of a response is (`server_process_request`, `http_response_gen`).**

  The advertised length is `st_size` in an `int`; the body is what the calls of
  `http_response_gen` read behind the head.  They agree for every request that is
  answered without a file.  A file is sent as it is announced when its size fits in an
  `int`, its descriptor is not `0`, and the head leaves room in the buffer.  The head ends
  at the first blank line among the bytes that are sent; the media type is taken from the
  path as it is, so that it can bring such a line, and others, into the head.

    * `Answers.framed_iff`          — head, announced length and body of one response;
    * `serverProcessRequest_framed` — when a response is framed.
-/
import OServer.HttpHeaderRound
import OServer.HttpResponseSent
import OServer.Server
import OServer.Lib.Decimal
import OServer.Lib.Lines

namespace OServer

open CString Lines Pieces

/-! ## 1. Collections and the fields they are built from -/

/-- The keys differ, so that the first entry of a key is the only one. -/
theorem lookup_eq_some_iff_mem {κ ν : Type*} [BEq κ] [LawfulBEq κ] {es : List (κ × ν)}
    (hn : (es.map Prod.fst).Nodup) (k : κ) (x : ν) : es.lookup k = some x ↔ (k, x) ∈ es := by
  rw [List.lookup_eq_some_iff]
  constructor
  · rintro ⟨front, back, rfl, -⟩
    exact List.mem_append_right front List.mem_cons_self
  · intro hmem
    rcases List.append_of_mem hmem with ⟨front, back, rfl⟩
    refine ⟨front, back, rfl, ?_⟩
    intro e he
    rw [List.map_append, List.nodup_append] at hn
    have hne := hn.2.2 e.1 (List.mem_map_of_mem he) k (by simp)
    exact bne_iff_ne.mpr (Ne.symm hne)

namespace HttpHeaderCollection

/-- The collection that is left when these fields are added one after the other. -/
structure Carries (headers : HttpHeaderCollection) (es : List (BtKey × List UInt8)) : Prop where
  maps : headers.Maps fun id =>
    (es.lookup id).map fun value => ⟨value, Int16.ofInt value.length⟩
  sound : headers.Sound
  cursor : headers.traversePtr = headers.headerTree.root

theorem carries_destroy (headers : HttpHeaderCollection) : (httpHeaderDestroy headers).Carries [] where
  maps := maps_init
  sound := httpHeaderInit_listed.2
  cursor := rfl

variable {headers : HttpHeaderCollection} {es : List (BtKey × List UInt8)}

theorem Carries.add (h : headers.Carries es) {id : BtKey} (hid : InTable id) {value : List UInt8}
    (hne : value ≠ []) (hnul : NUL ∉ value) (hshort : value.length < 32768) :
    (httpHeaderAddById headers id value value.length).2.Carries (es ++ [(id, value)]) := by
  have hpeek : peek value ≠ NUL := by
    rw [← List.append_nil value]
    exact HeaderLine.peek_slice hne hnul []
  rcases headers.tree with ⟨v, hv⟩
  rcases httpHeaderAddById_view hv id value.length hpeek with ⟨-, hrep, -, hcursor⟩
  refine ⟨?_, sound_of_view hrep ((h.sound.view hv).add hv hid hpeek hnul hshort), hcursor⟩
  have hmaps := h.maps.add id value.length hpeek
  rw [Int.toNat_natCast, List.take_length] at hmaps
  refine cast (congrArg _ (funext fun id' => ?_)) hmaps
  rw [addFirst_apply, List.lookup_append]
  by_cases heq : id' = id
  · subst heq
    cases es.lookup id' <;> simp
  · have hbeq : (id' == id) = false := beq_false_of_ne heq
    cases hlookup : es.lookup id' <;> simp [List.lookup_cons, heq, hbeq]

/-- Logging the response changes the threads and the cursor, and the cursor is back at the root. -/
theorem Carries.log (h : headers.Carries es) (version : HttpVersion) :
    (logHeaders headers version).Carries es := by
  rcases headers.tree with ⟨v, hv⟩
  have hsound := h.sound.view hv
  have hlen := httpHeaderLen_eq hv hsound
  have hfits : ((headerLines v.key headers.header v.tree.toList).length : Int) + 2 ≤
      httpHeaderLen headers + 1 := by omega
  have hcursor := (httpHeaderToStr_fits hv hsound h.cursor hfits).2.2.2
  rcases httpHeaderToStr_represents hv (httpHeaderLen headers + 1) with ⟨hrep, hheader, -⟩
  rw [logHeaders_eq (by omega)]
  refine ⟨?_, sound_of_view hrep ?_, hcursor⟩
  · have hmaps := (maps_view_iff hv).mp h.maps
    rw [maps_view_iff hrep, hheader]
    exact hmaps
  · intro p hp
    unfold SoundAt
    rw [hheader]
    exact hsound p hp

end HttpHeaderCollection

/-- A field, as it is written. -/
def fieldText (e : BtKey × List UInt8) : List UInt8 :=
  (httpHeaderField e.1).str ++ bytes ": " ++ e.2

/-- The line of a field. -/
def fieldLine (e : BtKey × List UInt8) : List UInt8 := fieldText e ++ [CR, LF]

section Fields
variable {headers : HttpHeaderCollection} {es es' : List (BtKey × List UInt8)} {ps : List Ptr}
  (h : headers.Carries es) (hperm : es'.Perm es) (hsorted : es'.Pairwise fun e e' => e.1 < e'.1)
  (hps : headers.Listed ps)
include h hperm hsorted hps

/-- The nodes hold the fields in the order of their ids. -/
theorem carries_fields :
    ps.map (fun p => ((headers.headerTree.node p).key, cstr (headers.header p).value)) = es' := by
  have hnodup : (es.map Prod.fst).Nodup := by
    have hlt : (es'.map Prod.fst).Pairwise (· < ·) := List.pairwise_map.mpr hsorted
    exact (hperm.map Prod.fst).nodup_iff.mp (hlt.imp fun hlt => ne_of_lt hlt)
  let stored (e : BtKey × List UInt8) : BtKey × HttpHeader := (e.1, ⟨e.2, Int16.ofInt e.2.length⟩)
  have hstored : ∀ id h', (id, h') ∈ es'.map stored ↔
      (es.lookup id).map (fun value => (⟨value, Int16.ofInt value.length⟩ : HttpHeader)) =
        some h' := by
    intro id h'
    simp only [List.mem_map, Option.map_eq_some_iff, lookup_eq_some_iff_mem hnodup]
    constructor
    · rintro ⟨e, he, heq⟩
      obtain ⟨rfl, rfl⟩ := Prod.mk.inj heq
      exact ⟨e.2, hperm.mem_iff.mp he, rfl⟩
    · rintro ⟨value, he, rfl⟩
      exact ⟨(id, value), hperm.mem_iff.mpr he, rfl⟩
  have hsorted' : (es'.map stored).Pairwise fun e e' => e.1 < e'.1 := by
    rw [List.pairwise_map]
    exact hsorted
  have hentries := h.maps.entries hps hsorted' hstored
  have hvalue : ∀ p ∈ ps, cstr (headers.header p).value = (headers.header p).value := by
    intro p hp
    exact cstr_eq_self (h.sound p ((hps.mem_iff p).mp hp)).2.noNul
  have hfst : ps.map (fun p => ((headers.headerTree.node p).key, cstr (headers.header p).value)) =
      (ps.map fun p => ((headers.headerTree.node p).key, headers.header p)).map
        fun e => (e.1, e.2.value) := by
    rw [List.map_map]
    apply List.map_congr_left
    intro p hp
    rw [hvalue p hp]
    rfl
  rw [hfst, hentries, List.map_map]
  exact List.map_id _

theorem carries_lines : ps.flatMap headers.line = es'.flatMap fieldLine := by
  rw [← carries_fields h hperm hsorted hps, List.flatMap_map]
  rfl

end Fields

/-! ## 2. The lines of a head -/

/-- Status line, fields and blank line. -/
def headText (status : HttpStatus) (es : List (BtKey × List UInt8)) : List UInt8 :=
  bytes "HTTP/1.1 " ++ httpResponseCode status ++ [CR, LF] ++ es.flatMap fieldLine ++ [CR, LF]

/-- The line says how long the body is: `Content-Length` stands before its first colon. -/
def NamesLength (line : List UInt8) : Prop :=
  ':'.toUInt8 ∈ line ∧ SameName (line.takeWhile (· ≠ ':'.toUInt8)) (bytes "Content-Length")

instance namesLengthDecidable : DecidablePred NamesLength := fun _ =>
  inferInstanceAs (Decidable (_ ∧ _ = _))

/-- What stands behind the first colon of a line and the blanks that follow it. -/
def lineValue (line : List UInt8) : List UInt8 :=
  ((line.dropWhile (· ≠ ':'.toUInt8)).drop 1).dropWhile fun b => b = SP ∨ b = '\t'.toUInt8

/-- The lines of a head; a field has more than one when lines end within its value. -/
def headLines (status : HttpStatus) (es : List (BtKey × List UInt8)) : List (List UInt8) :=
  (bytes "HTTP/1.1 " ++ httpResponseCode status) :: es.flatMap fun e => cut (fieldText e)

theorem headText_eq (status : HttpStatus) (es : List (BtKey × List UInt8)) :
    headText status es = ofLines (headLines status es) ++ [CR, LF] := by
  have hfields : es.flatMap fieldLine = ofLines (es.flatMap fun e => cut (fieldText e)) := by
    rw [ofLines, List.flatMap_assoc]
    apply List.flatMap_congr
    intro e _
    exact (ofLines_cut (fieldText e)).1.symm
  rw [headText, hfields]
  rfl

theorem headLines_plain (status : HttpStatus) (es : List (BtKey × List UInt8)) :
    ∀ l ∈ headLines status es, Plain l := by
  have hstatus : ∀ status, CR ∉ bytes "HTTP/1.1 " ++ httpResponseCode status := by
    intro status
    cases status <;> decide +kernel
  refine List.forall_mem_cons.mpr ⟨plain_of_not_mem (hstatus status), ?_⟩
  intro l hl
  rcases List.mem_flatMap.mp hl with ⟨e, -, hl⟩
  exact (ofLines_cut (fieldText e)).2.1 l hl

section FieldText
variable {e : BtKey × List UInt8} (hid : InTable e.1)
include hid

/-- The lines of a field; its name is in the first of them. -/
theorem cut_fieldText :
    cut (fieldText e) = fieldText (e.1, (cut e.2).headD []) :: (cut e.2).tail := by
  have hname : CR ∉ (httpHeaderField e.1).str ++ bytes ": " := by
    rw [List.mem_append, not_or]
    refine ⟨fun hcr => ?_, by decide⟩
    have hplain := (httpHeaderFields_plain _ (httpHeaderField_mem hid) CR hcr).1
    exact absurd hplain (by decide)
  rcases cut_append hname e.2 with ⟨l, hl, hcut⟩
  rw [fieldText, hcut, hl]
  rfl

theorem cut_fieldText_of_not_mem (hcr : CR ∉ e.2) : cut (fieldText e) = [fieldText e] := by
  rw [cut_fieldText hid, cut_eq_self hcr]
  rfl

theorem fieldText_split : (∀ b ∈ (httpHeaderField e.1).str, b ≠ ':'.toUInt8) ∧
    fieldText e = (httpHeaderField e.1).str ++ ':'.toUInt8 :: SP :: e.2 := by
  have hblank : bytes ": " = [':'.toUInt8, SP] := by decide
  have hname := (httpHeaderFields_names.1 _ (httpHeaderField_mem hid)).2
  refine ⟨fun b hb hcolon => hname (hcolon ▸ hb), ?_⟩
  rw [fieldText, hblank, List.append_assoc]
  rfl

theorem fieldText_ne_nil : fieldText e ≠ [] := by
  rw [(fieldText_split hid).2]
  exact List.append_ne_nil_of_right_ne_nil _ (List.cons_ne_nil _ _)

/-- **One field of the table says how long the body is.** -/
theorem namesLength_fieldText : NamesLength (fieldText e) ↔ e.1 = headerContentLength := by
  rcases fieldText_split hid with ⟨hcolon, htext⟩
  have hlength : bytes "Content-Length" = (httpHeaderField headerContentLength).str := by decide
  have hname : (fieldText e).takeWhile (· ≠ ':'.toUInt8) = (httpHeaderField e.1).str := by
    rw [htext, List.takeWhile_append_of_pos fun b hb => decide_eq_true (hcolon b hb),
      List.takeWhile_cons_of_neg (by simp), List.append_nil]
  rw [NamesLength, hname, hlength]
  constructor
  · rintro ⟨-, hsame⟩
    exact SameName.field_inj hid (by decide) hsame
  · intro heq
    rw [htext, heq]
    exact ⟨by simp, rfl⟩

theorem lineValue_fieldText (hvalue : ∀ b ∈ e.2, ¬(b = SP ∨ b = '\t'.toUInt8)) :
    lineValue (fieldText e) = e.2 := by
  rcases fieldText_split hid with ⟨hcolon, htext⟩
  rw [lineValue, htext,
    List.dropWhile_append_of_pos fun b hb => decide_eq_true (hcolon b hb),
    List.dropWhile_cons_of_neg (by simp), List.drop_one, List.tail_cons,
    List.dropWhile_cons_of_pos (by simp)]
  cases hv : e.2 with
  | nil => rfl
  | cons b v =>
    rw [hv] at hvalue
    exact List.dropWhile_cons_of_neg (by simpa using hvalue b List.mem_cons_self)

end FieldText

/-! ## 3. One response -/

/-- The response has been given this status and these fields, and nothing of it has been
    generated. -/
structure Answers (res : HttpResponse) (status : HttpStatus) (es : List (BtKey × List UInt8)) :
    Prop where
  version : res.version = .v1_1
  status : res.status = status
  genStatus : res.genStatus = .version
  headers : res.headers.Carries es

/-- The head that was built is sent; and whoever reads the bytes up to the first blank line
    finds one `Content-Length`, and as many bytes behind that line as it says. -/
structure Framed (res : HttpResponse) (out : List UInt8) : Prop where
  head : ∃ ps, res.headers.Listed ps ∧ responseHead res ps <+: out
  length : ∃ lines body line, Head out lines body ∧
    lines.tail.filter (fun l => NamesLength l) = [line] ∧
      decimalValue (lineValue line) = some body.length

theorem answers_reset (res : HttpResponse) (status : HttpStatus) :
    Answers (httpResponseReset res status) status [] :=
  ⟨rfl, rfl, rfl, HttpHeaderCollection.carries_destroy res.headers⟩

/-- A response without a file has no descriptor. -/
theorem httpResponseReset_content (res : HttpResponse) (status : HttpStatus) :
    ¬0 < (httpResponseReset res status).content := by
  unfold httpResponseReset
  dsimp only
  split_ifs <;> omega

theorem httpResponseCode_length_le (status : HttpStatus) :
    (httpResponseCode status).length ≤ 40 := by
  cases status <;> decide +kernel

section Answers
variable {res : HttpResponse} {status : HttpStatus} {es : List (BtKey × List UInt8)}
  (h : Answers res status es)
include h

theorem Answers.addById (id : BtKey) (value : List UInt8) (hid : InTable id) (hne : value ≠ [])
    (hnul : NUL ∉ value) (hshort : value.length < 32768) :
    Answers (res.addById id value value.length) status (es ++ [(id, value)]) :=
  ⟨h.version, h.status, h.genStatus, h.headers.add hid hne hnul hshort⟩

theorem Answers.log : Answers (httpResponseLog res) status es :=
  ⟨h.version, h.status, h.genStatus, h.headers.log res.version⟩

variable {e : BtKey × List UInt8} {fs : List (BtKey × List UInt8)} (hperm : (e :: fs).Perm es)
  (hsorted : (e :: fs).Pairwise fun e e' => e.1 < e'.1)
include hperm hsorted

theorem Answers.head {ps : List Ptr} (hps : res.headers.Listed ps) :
    responseHead res ps = headText status (e :: fs) := by
  rw [responseHead, carries_lines h.headers hperm hsorted hps, h.version, h.status]
  rfl

/-- **Head, announced length and body.**  The response is framed when its head is sent and its
    lines up to the first blank one announce the length of what follows that line. -/
theorem Answers.framed_iff (size : Nat)
    (hfits : 11 + (httpResponseCode status).length + (fieldLine e).length ≤ size)
    (reader : ContentReader) (B : List UInt8) :
    (∃ out, Delivers (responseCall reader.read size) (res, 0, B) out ∧ Framed res out) ↔
      (headText status (e :: fs)).length ≤ size + 1 ∧
        ∃ line, ((headLines status (e :: fs)).takeWhile (· ≠ [])).tail.filter
            (fun l => NamesLength l) = [line] ∧
          decimalValue (lineValue line) = some (behindBlank (headLines status (e :: fs)) ++
            if 0 < res.content ∧ (headText status (e :: fs)).length ≠ size then B else []).length := by
  rcases res.headers.tree with ⟨v, hv⟩
  have hlisted := HttpHeaderCollection.listed_of_view hv
  have hhead := h.head hperm hsorted hlisted
  have hsent := @delivers_sent res _ size h.genStatus hlisted h.headers.sound h.headers.cursor
    reader B
  rw [hhead] at hsent
  generalize (if 0 < res.content ∧ (headText status (e :: fs)).length ≠ size then B else []) =
    sent at hsent ⊢
  have hlines := head_ofLines (headLines_plain status (e :: fs)) sent
  rw [← headText_eq] at hlines
  constructor
  · rintro ⟨out, hdel, ⟨ps, hps, body, rfl⟩, lines, body', line, hout, hline, hvalue⟩
    rw [h.head hperm hsorted hps] at hdel hout
    have hshort : (headText status (e :: fs)).length ≤ size + 1 := by
      by_contra hlong
      -- the first field fits
      have hfields := carries_fields h.headers hperm hsorted hps
      rcases List.map_eq_cons_iff.mp hfields with ⟨p, qs, hfirst, hp, -⟩
      have hfirstLine : res.headers.line p = fieldLine e := by
        rw [← hp]
        rfl
      have hstatus := statusLine_length res
      rw [h.status] at hstatus
      rw [← h.head hperm hsorted hps] at hdel hlong
      refine not_delivers_long h.genStatus hps h.headers.sound h.headers.cursor reader B
        (Nat.lt_of_not_le hlong) hfirst ?_ body hdel
      rw [hfirstLine]
      omega
    rw [List.append_cancel_left (hdel.unique (hsent hshort))] at hout
    obtain ⟨rfl, rfl⟩ := hout.unique hlines
    exact ⟨hshort, line, hline, hvalue⟩
  · rintro ⟨hshort, line, hline, hvalue⟩
    refine ⟨_, hsent hshort, ⟨v.tree.toList, hlisted, ?_⟩, _, _, line, hlines, hline, hvalue⟩
    rw [hhead]
    exact List.prefix_append _ _

end Answers

/-! ## 4. The fields of a response -/

/-- `PATH_MAX`; the arrays `path` and `tmp` of `server_process_get` hold one byte more. -/
def pathMax : Nat := 4096

/-- The media type, for a path with a dot. -/
def mediaType (path : List UInt8) : Option (List UInt8) :=
  (strrchr path '.'.toUInt8).map fun dot => contentType (cstr (path.drop (dot + 1)))

def typeFields (path : List UInt8) : List (BtKey × List UInt8) :=
  (mediaType path).toList.map fun type => (headerContentType, type)

def connectionField (keepAlive : Bool) : BtKey × List UInt8 :=
  (headerConnection, if keepAlive then bytes "keep-alive" else bytes "close")

def serverField : BtKey × List UInt8 := (headerServer, bytes "O's Server")

/-- The fields of the answer to a `GET`, in the order of their ids. -/
def getFields (path : List UInt8) (keepAlive : Bool) (clen : Int) : List (BtKey × List UInt8) :=
  connectionField keepAlive :: (headerContentLength, bytes (toString clen)) ::
    (typeFields path ++ [serverField])

/-- The fields of a response: the length stands behind some others, and in front of the media
    type, if there is one, and the server. -/
def lengthFields (front : List (BtKey × List UInt8)) (clen : Int) (type : Option (List UInt8)) :
    List (BtKey × List UInt8) :=
  front ++ (headerContentLength, bytes (toString clen)) ::
    (type.toList.map (fun type => (headerContentType, type)) ++ [serverField])

/-- The lines that a media type brings into the head behind its own one. -/
def typeLines (type : Option (List UInt8)) : List (List UInt8) :=
  type.toList.flatMap fun type => (cut type).tail

/-- No line that the media type brings into the head says how long the body is. -/
def NamesNoLength (type : Option (List UInt8)) : Prop :=
  ∀ l ∈ (typeLines type).takeWhile (· ≠ []), ¬NamesLength l

instance namesNoLengthDecidable : DecidablePred NamesNoLength := fun type =>
  inferInstanceAs (Decidable (∀ l ∈ (typeLines type).takeWhile (· ≠ []), ¬NamesLength l))

/-- What stands in the head behind the first blank line, and is taken for the body. -/
def headRest (type : Option (List UInt8)) : List UInt8 :=
  behindBlank (typeLines type ++ [fieldText serverField])

section LengthFields
variable {status : HttpStatus} {front : List (BtKey × List UInt8)} {clen : Int}
  {type : Option (List UInt8)}

theorem inTable_lengthFields :
    InTable headerContentLength ∧ InTable headerContentType ∧ InTable headerServer := by
  decide

/-- The lines in front of those that the media type brings. -/
def namedLines (status : HttpStatus) (front : List (BtKey × List UInt8)) (clen : Int)
    (type : Option (List UInt8)) : List (List UInt8) :=
  (bytes "HTTP/1.1 " ++ httpResponseCode status) :: (front.map fieldText ++
    fieldText (headerContentLength, bytes (toString clen)) ::
      type.toList.map fun type => fieldText (headerContentType, (cut type).headD []))

variable (hfront : ∀ e ∈ front, InTable e.1 ∧ e.1 ≠ headerContentLength ∧ CR ∉ e.2)
include hfront

theorem headLines_lengthFields : headLines status (lengthFields front clen type) =
    namedLines status front clen type ++ (typeLines type ++ [fieldText serverField]) := by
  have hlength : cut (fieldText (headerContentLength, bytes (toString clen))) =
      [fieldText (headerContentLength, bytes (toString clen))] := by
    apply cut_fieldText_of_not_mem (e := (headerContentLength, _)) inTable_lengthFields.1
    intro hcr
    rcases mem_toString hcr with h | h <;> exact absurd h (by decide)
  have hserver : cut (fieldText serverField) = [fieldText serverField] :=
    cut_fieldText_of_not_mem (e := serverField) inTable_lengthFields.2.2 (by decide)
  have hfields : front.flatMap (fun e => cut (fieldText e)) = front.map fieldText := by
    rw [List.map_eq_flatMap]
    apply List.flatMap_congr
    intro e he
    exact cut_fieldText_of_not_mem (hfront e he).1 (hfront e he).2.2
  have htype : (type.toList.map fun type => (headerContentType, type)).flatMap
      (fun e => cut (fieldText e)) = (type.toList.map fun type =>
        fieldText (headerContentType, (cut type).headD [])) ++ typeLines type := by
    cases type with
    | none => rfl
    | some type =>
      have hcut : cut (fieldText (headerContentType, type)) =
          fieldText (headerContentType, (cut type).headD []) :: (cut type).tail :=
        cut_fieldText (e := (headerContentType, type)) inTable_lengthFields.2.1
      simp [typeLines, hcut]
  rw [headLines, lengthFields, namedLines, List.flatMap_append, List.flatMap_cons,
    List.flatMap_append, List.flatMap_singleton, hfields, hlength, htype, hserver]
  simp only [List.cons_append, List.append_assoc, List.nil_append]

theorem namedLines_ne_nil : ∀ l ∈ namedLines status front clen type, l ≠ [] := by
  intro l hl
  rcases List.mem_cons.mp hl with rfl | hl
  · exact List.append_ne_nil_of_left_ne_nil (by decide) _
  rcases List.mem_append.mp hl with hl | hl
  · rcases List.mem_map.mp hl with ⟨e, he, rfl⟩
    exact fieldText_ne_nil (hfront e he).1
  rcases List.mem_cons.mp hl with rfl | hl
  · exact fieldText_ne_nil inTable_lengthFields.1
  · rcases List.mem_map.mp hl with ⟨type, -, rfl⟩
    exact fieldText_ne_nil inTable_lengthFields.2.1

theorem behindBlank_lengthFields :
    behindBlank (headLines status (lengthFields front clen type)) = headRest type := by
  rw [headLines_lengthFields hfront, behindBlank_append (namedLines_ne_nil hfront)]
  rfl

/-- Among the lines in front of those that the media type brings, one announces a length. -/
theorem filter_namedLines : (namedLines status front clen type).tail.filter
    (fun l => NamesLength l) = [fieldText (headerContentLength, bytes (toString clen))] := by
  have hothers : (front.map fieldText).filter (fun l => NamesLength l) = [] := by
    rw [List.filter_eq_nil_iff]
    intro l hl
    rcases List.mem_map.mp hl with ⟨e, he, rfl⟩
    rw [decide_eq_true_eq, namesLength_fieldText (hfront e he).1]
    exact (hfront e he).2.1
  have htype : (type.toList.map fun type => fieldText (headerContentType, (cut type).headD [])).filter
      (fun l => NamesLength l) = [] := by
    rw [List.filter_eq_nil_iff]
    intro l hl
    rcases List.mem_map.mp hl with ⟨type, -, rfl⟩
    rw [decide_eq_true_eq, namesLength_fieldText (e := (headerContentType, _)) inTable_lengthFields.2.1]
    exact (by decide : ¬headerContentType = headerContentLength)
  have hlength : NamesLength (fieldText (headerContentLength, bytes (toString clen))) :=
    (namesLength_fieldText (e := (headerContentLength, _)) inTable_lengthFields.1).mpr rfl
  rw [namedLines, List.tail_cons, List.filter_append, hothers, List.nil_append]
  rw [List.filter_cons_of_pos (by simpa using hlength), htype]

omit hfront in
/-- The line of the server announces none. -/
theorem filter_typeLines :
    ((typeLines type ++ [fieldText serverField]).takeWhile (· ≠ [])).filter
        (fun l => NamesLength l) = [] ↔ NamesNoLength type := by
  have hserver : ¬NamesLength (fieldText serverField) := by
    rw [namesLength_fieldText (e := serverField) inTable_lengthFields.2.2]
    decide
  have hfilter : ((typeLines type ++ [fieldText serverField]).takeWhile (· ≠ [])).filter
      (fun l => NamesLength l) =
        ((typeLines type).takeWhile (· ≠ [])).filter (fun l => NamesLength l) := by
    rw [List.takeWhile_append]
    split
    next hall =>
      have hself := (List.takeWhile_prefix (· ≠ [])).eq_of_length hall
      have hne : fieldText serverField ≠ [] := fieldText_ne_nil inTable_lengthFields.2.2
      rw [hself]
      simp [hne, hserver]
    next => rfl
  rw [hfilter, List.filter_eq_nil_iff]
  simp only [decide_eq_true_eq, NamesNoLength]

theorem headRest_le_head :
    (headRest type).length ≤ (headText status (lengthFields front clen type)).length := by
  have hhead := (head_ofLines (headLines_plain status (lengthFields front clen type)) []).text_eq
  rw [List.append_nil, List.append_nil, ← headText_eq, behindBlank_lengthFields hfront] at hhead
  rw [hhead, List.length_append]
  exact Nat.le_add_left _ _

/-- **The announced length** of the lines up to the first blank one. -/
theorem announces_iff (n : Nat) :
    (∃ line, ((headLines status (lengthFields front clen type)).takeWhile (· ≠ [])).tail.filter
        (fun l => NamesLength l) = [line] ∧ decimalValue (lineValue line) = some n) ↔
      NamesNoLength type ∧ clen = n := by
  have hvalue : lineValue (fieldText (headerContentLength, bytes (toString clen))) =
      bytes (toString clen) := by
    apply lineValue_fieldText (e := (headerContentLength, _)) inTable_lengthFields.1
    intro b hb hblank
    rcases mem_toString hb with h | h <;> rcases hblank with rfl | rfl <;> exact absurd h (by decide)
  have hne : namedLines status front clen type ≠ [] := List.cons_ne_nil _ _
  rw [headLines_lengthFields hfront, List.takeWhile_append_of_pos fun l hl =>
    decide_eq_true (namedLines_ne_nil hfront l hl), List.tail_append_of_ne_nil hne,
    List.filter_append, filter_namedLines hfront, ← filter_typeLines, ← decimalValue_toString]
  constructor
  · rintro ⟨line, hline, hn⟩
    obtain ⟨rfl, hrest⟩ := List.cons.inj hline
    rw [hvalue] at hn
    exact ⟨hrest, hn⟩
  · rintro ⟨hrest, hn⟩
    rw [hrest]
    refine ⟨_, rfl, ?_⟩
    rw [hvalue]
    exact hn

/-- **A response of these fields is framed** when its head is sent, the media type brings no
    other length into it, and the announced length is that of what follows the first blank line. -/
theorem Answers.announced_iff {res : HttpResponse} {es fs : List (BtKey × List UInt8)}
    {e : BtKey × List UInt8} (h : Answers res status es) (hperm : (e :: fs).Perm es)
    (hsorted : (e :: fs).Pairwise fun e e' => e.1 < e'.1)
    (hfields : e :: fs = lengthFields front clen type) (size : Nat)
    (hfits : 11 + (httpResponseCode status).length + (fieldLine e).length ≤ size)
    (reader : ContentReader) (B : List UInt8) :
    (∃ out, Delivers (responseCall reader.read size) (res, 0, B) out ∧ Framed res out) ↔
      (headText status (e :: fs)).length ≤ size + 1 ∧ NamesNoLength type ∧
        clen = ((headRest type).length + (if 0 < res.content ∧
          (headText status (e :: fs)).length ≠ size then B else []).length : Nat) := by
  rw [h.framed_iff hperm hsorted size hfits reader B, hfields, announces_iff hfront,
    behindBlank_lengthFields hfront, List.length_append]

end LengthFields

theorem contentType_ne_nil (type : List UInt8) : contentType type ≠ [] := by
  unfold contentType
  split
  · exact List.cons_ne_nil _ _
  · exact List.cons_ne_nil _ _

theorem nul_not_mem_mediaType {path type : List UInt8} (h : mediaType path = some type) :
    NUL ∉ type ∧ type ≠ [] := by
  rcases Option.map_eq_some_iff.mp h with ⟨dot, -, rfl⟩
  refine ⟨?_, contentType_ne_nil _⟩
  have hrest : NUL ∉ cstr (path.drop (dot + 1)) := by
    intro hnul
    exact absurd (List.mem_takeWhile_imp hnul) (by decide)
  unfold contentType
  split
  · rw [List.mem_append, not_or]
    exact ⟨by decide, hrest⟩
  · rw [List.mem_append, not_or]
    exact ⟨by decide, hrest⟩

/-- The media type is at most six bytes longer than the path. -/
theorem mediaType_length_le {path type : List UInt8} (h : mediaType path = some type) :
    type.length ≤ path.length + 6 := by
  rcases Option.map_eq_some_iff.mp h with ⟨dot, -, rfl⟩
  have hcstr : (cstr (path.drop (dot + 1))).length ≤ path.length :=
    (List.takeWhile_sublist _).length_le.trans (List.drop_sublist _ _).length_le
  have himage : (bytes "image/").length = 6 := by decide
  have htext : (bytes "text/").length = 5 := by decide
  unfold contentType
  split
  · rw [List.length_append]
    omega
  · rw [List.length_append]
    omega

/-- `st_size` in an `int` has ten digits at most. -/
theorem length_toInt32_le (n : Nat) : (bytes (toString (toInt32 n))).length ≤ 11 := by
  have habs : (toInt32 n).natAbs < 10 ^ 10 := by
    unfold toInt32 Int.bmod
    dsimp only
    split <;> omega
  exact length_toString_le (by decide : 0 < 10) habs

theorem length_toInt32_lt (n : Nat) : (bytes (toString (toInt32 n))).length < 32768 :=
  Nat.lt_of_le_of_lt (length_toInt32_le n) (by decide)

/-- `st_size` in an `int`, compared with itself and some more. -/
theorem toInt32_eq_add_iff (n k : Nat) : toInt32 n = ((k + n : Nat) : Int) ↔ n < 2 ^ 31 ∧ k = 0 := by
  unfold toInt32 Int.bmod
  dsimp only
  split <;> omega

theorem toInt32_eq_iff (n : Nat) {k : Nat} (hk : k < 2 ^ 31) : toInt32 n = k ↔ n % 2 ^ 32 = k := by
  unfold toInt32 Int.bmod
  dsimp only
  split <;> omega

section Response
variable {res : HttpResponse} {status : HttpStatus} {es : List (BtKey × List UInt8)}

/-- The fields that every response gets at last. -/
theorem Answers.finish (h : Answers res status es) (keepAlive : Bool) :
    Answers ((res.addById headerConnection (if keepAlive then bytes "keep-alive" else bytes "close")
        (if keepAlive then 10 else 5)).addById headerServer (bytes "O's Server") 10) status
      (es ++ connectionField keepAlive :: [serverField]) := by
  have hconnection : Answers (res.addById headerConnection
      (if keepAlive then bytes "keep-alive" else bytes "close") (if keepAlive then 10 else 5)) status
      (es ++ [connectionField keepAlive]) := by
    cases keepAlive
    · exact h.addById headerConnection (bytes "close") (by decide) (by decide) (by decide) (by decide)
    · exact h.addById headerConnection (bytes "keep-alive") (by decide) (by decide) (by decide)
        (by decide)
  have hserver := hconnection.addById headerServer (bytes "O's Server") (by decide) (by decide)
    (by decide) (by decide)
  rw [List.append_assoc] at hserver
  exact hserver

/-- What `server_process_get` adds to the response that `openFile` leaves. -/
theorem serverProcessGet_answers {root : List UInt8} {fs : FileSystem} {req : HttpRequest}
    {keepAlive keep : Bool} {opened : HttpResponse} {clen : Int}
    (hopen : openFile fs (servedPath root req.url) (httpResponseReset res .ok200) keepAlive =
      (opened, clen, keep)) (hopened : Answers opened status [])
    (hpath : (servedPath root req.url).length ≤ pathMax)
    (hclen : (bytes (toString clen)).length < 32768) :
    Answers (serverProcessGet root fs req res keepAlive).1 status
        ((headerContentLength, bytes (toString clen)) :: typeFields (servedPath root req.url)) ∧
      (serverProcessGet root fs req res keepAlive).1.content = opened.content ∧
      (serverProcessGet root fs req res keepAlive).2 = keep := by
  have hlength := hopened.addById headerContentLength (bytes (toString clen)) (by decide)
    (bytes_toString_ne_nil clen) (nul_not_mem_toString clen) hclen
  unfold serverProcessGet typeFields
  dsimp only
  rw [hopen]
  cases hdot : strrchr (servedPath root req.url) '.'.toUInt8 with
  | none =>
    have htype : mediaType (servedPath root req.url) = none := by
      rw [mediaType, hdot]
      rfl
    rw [htype]
    exact ⟨hlength, rfl, rfl⟩
  | some dot =>
    have htype : mediaType (servedPath root req.url) =
        some (contentType (cstr ((servedPath root req.url).drop (dot + 1)))) := by
      rw [mediaType, hdot]
      rfl
    have hle := mediaType_length_le htype
    have hshort : (contentType (cstr ((servedPath root req.url).drop (dot + 1)))).length < 32768 := by
      unfold pathMax at hpath
      omega
    rcases nul_not_mem_mediaType htype with ⟨hnul, hne⟩
    rw [htype]
    exact ⟨hlength.addById headerContentType _ (by decide) hne hnul hshort, rfl, rfl⟩

end Response

/-! ## 5. Framing -/

/-- Files that do not change between `stat` and the reads. -/
structure StaticFiles extends FileSystem where
  contents : List UInt8 → List UInt8
  stat_size : ∀ path info, stat path = some info → info.isReg = true →
    (contents path).length = info.stSize

/-- `path` and `tmp` hold what is written to them; behind their ends the code is undefined. -/
def ArraysHold (path : List UInt8) : Prop :=
  path.length ≤ pathMax ∧ ∀ type, mediaType path = some type → type.length ≤ pathMax

/-- The response that the calls of `http_response_gen` start from, after it is logged. -/
def serverResponse (root : List UInt8) (files : StaticFiles) (req : HttpRequest)
    (res : HttpResponse) (keepAlive : Bool) : HttpResponse :=
  httpResponseLog (serverProcessRequest root files.toFileSystem req res keepAlive).1

/-- The response is built inside the arrays of the code, and it is sent as a framed one. -/
structure RespondsFramed (root : List UInt8) (files : StaticFiles) (req : HttpRequest)
    (res : HttpResponse) (keepAlive : Bool) (reader : ContentReader) : Prop where
  arrays : req.parseStatus ≠ .error → req.method = .get → ArraysHold (servedPath root req.url)
  sent : ∃ out, Delivers (responseCall reader.read wbufSize)
      (serverResponse root files req res keepAlive, 0, files.contents (servedPath root req.url)) out ∧
    Framed (serverResponse root files req res keepAlive) out

/-- The length of the head that answers a `GET`. -/
def getHeadLength (path : List UInt8) (status : HttpStatus) (keepAlive : Bool) (clen : Int) : Nat :=
  (headText status (getFields path keepAlive clen)).length

/-- A file of `n` bytes, opened as `fd`, behind a head of `head` bytes.  When it is sent, its
    size has to fit in an `int`, and the blank line has to be the first one; otherwise nothing
    is sent, and the size in an `int` has to be what the head has behind its first blank line. -/
def FileFramed (path : List UInt8) (fd n head : Nat) : Prop :=
  head ≤ wbufSize + 1 ∧ if 0 < fd ∧ head ≠ wbufSize then
    n < 2 ^ 31 ∧ headRest (mediaType path) = []
  else n % 2 ^ 32 = (headRest (mediaType path)).length

/-- The answer of this status without a body is framed. -/
def EmptyFramed (path : List UInt8) (status : HttpStatus) (keepAlive : Bool) : Prop :=
  getHeadLength path status keepAlive 0 ≤ wbufSize + 1 ∧ headRest (mediaType path) = []

/-- The answer to a `GET` is framed. -/
def GetFramed (fs : FileSystem) (path : List UInt8) (keepAlive : Bool) : Prop :=
  path.length ≤ pathMax ∧ NamesNoLength (mediaType path) ∧
    match fs.stat path with
    | none => EmptyFramed path .notFound404 keepAlive
    | some info =>
        if !info.isReg then EmptyFramed path .notFound404 keepAlive
        else if info.stSize = 0 then EmptyFramed path .ok200 keepAlive
        else
          match fs.openRdonly path with
          | none => EmptyFramed path .internalServerError500 keepAlive
          | some fd =>
              FileFramed path fd info.stSize
                (getHeadLength path .ok200 true (toInt32 info.stSize))

/-- What is found at a path: no file to send, or a file that has been opened. -/
inductive Found (fs : FileSystem) (path : List UInt8) (res : HttpResponse) (keepAlive : Bool) :
    Prop where
  | nothing (status : HttpStatus)
      (hopen : openFile fs path res keepAlive = ({ res with status }, 0, keepAlive))
      (hframed : GetFramed fs path keepAlive ↔ path.length ≤ pathMax ∧
        NamesNoLength (mediaType path) ∧ EmptyFramed path status keepAlive)
  | file (info : FileInfo) (fd : Nat) (hstat : fs.stat path = some info) (hreg : info.isReg = true)
      (hopen : openFile fs path res keepAlive =
        ({ res with content := fd }, toInt32 info.stSize, true))
      (hframed : GetFramed fs path keepAlive ↔ path.length ≤ pathMax ∧
        NamesNoLength (mediaType path) ∧
          FileFramed path fd info.stSize (getHeadLength path .ok200 true (toInt32 info.stSize)))

theorem found (fs : FileSystem) (path : List UInt8) (res : HttpResponse) (keepAlive : Bool) :
    Found fs path res keepAlive := by
  cases hstat : fs.stat path with
  | none =>
    refine .nothing .notFound404 ?_ ?_
    · rw [openFile, hstat]
    · rw [GetFramed, hstat]
  | some info =>
    by_cases hreg : info.isReg = true
    swap
    · refine .nothing .notFound404 ?_ ?_
      · simp [openFile, hstat, hreg]
      · simp [GetFramed, hstat, hreg]
    by_cases hsize : info.stSize = 0
    · refine .nothing .ok200 ?_ ?_
      · simp [openFile, hstat, hreg, hsize]
      · simp [GetFramed, hstat, hreg, hsize]
    cases hfd : fs.openRdonly path with
    | none =>
      refine .nothing .internalServerError500 ?_ ?_
      · simp [openFile, hstat, hreg, hsize, hfd]
      · simp [GetFramed, hstat, hreg, hsize, hfd]
    | some fd =>
      refine .file info fd hstat hreg ?_ ?_
      · simp [openFile, hstat, hreg, hsize, hfd]
      · simp [GetFramed, hstat, hreg, hsize, hfd]

theorem getFields_sorted (path : List UInt8) (keepAlive : Bool) (clen : Int) :
    (getFields path keepAlive clen).Pairwise fun e e' => e.1 < e'.1 := by
  have hkeys : ((getFields path keepAlive clen).map Prod.fst).Pairwise (· < ·) := by
    unfold getFields typeFields
    cases mediaType path with
    | none => exact (by decide : [headerConnection, headerContentLength, headerServer].Pairwise (· < ·))
    | some type =>
      exact (by decide : [headerConnection, headerContentLength, headerContentType,
        headerServer].Pairwise (· < ·))
  exact List.pairwise_map.mp hkeys

theorem getFields_perm (path : List UInt8) (keepAlive : Bool) (clen : Int) :
    (getFields path keepAlive clen).Perm (((headerContentLength, bytes (toString clen)) ::
      typeFields path) ++ connectionField keepAlive :: [serverField]) := by
  let front := (headerContentLength, bytes (toString clen)) :: typeFields path
  have hmiddle : (front ++ connectionField keepAlive :: [serverField]).Perm
      (connectionField keepAlive :: (front ++ [serverField])) := List.perm_middle
  exact hmiddle.symm

theorem value_lt_head {e : BtKey × List UInt8} {es : List (BtKey × List UInt8)} (he : e ∈ es)
    (status : HttpStatus) : e.2.length < (headText status es).length := by
  rcases List.append_of_mem he with ⟨front, back, rfl⟩
  simp only [headText, fieldLine, fieldText, List.flatMap_append, List.flatMap_cons,
    List.length_append, List.length_cons]
  omega

/-- The media type is a part of the head. -/
theorem mediaType_lt_head {path type : List UInt8} (h : mediaType path = some type)
    (status : HttpStatus) (keepAlive : Bool) (clen : Int) :
    type.length < getHeadLength path status keepAlive clen := by
  have hmem : (headerContentType, type) ∈ getFields path keepAlive clen := by
    unfold getFields typeFields
    rw [h]
    simp
  exact value_lt_head hmem status

section Requests
variable {root : List UInt8} {files : StaticFiles} {req : HttpRequest} {res : HttpResponse}
  {keepAlive : Bool} {reader : ContentReader}

/-- A response without a body, whose head fits in the buffer. -/
theorem framed_of_empty {status : HttpStatus} {e : BtKey × List UInt8}
    {es fs : List (BtKey × List UInt8)}
    (hanswer : Answers (serverProcessRequest root files.toFileSystem req res keepAlive).1 status es)
    (hperm : (e :: fs).Perm es) (hsorted : (e :: fs).Pairwise fun e e' => e.1 < e'.1)
    (front : List (BtKey × List UInt8)) (hfields : e :: fs = lengthFields front 0 none)
    (hfront : ∀ e ∈ front, InTable e.1 ∧ e.1 ≠ headerContentLength ∧ CR ∉ e.2)
    (hcontent : ¬0 < (serverProcessRequest root files.toFileSystem req res keepAlive).1.content)
    (hhead : (headText status (e :: fs)).length ≤ wbufSize)
    (hget : req.parseStatus = .error ∨ req.method ≠ .get) :
    RespondsFramed root files req res keepAlive reader := by
  refine ⟨fun hparse hmethod => absurd hmethod (hget.resolve_left hparse), ?_⟩
  have hfirst : 11 + (httpResponseCode status).length + (fieldLine e).length ≤ wbufSize := by
    refine Nat.le_trans ?_ hhead
    simp only [headText, List.flatMap_cons, List.length_append, List.length_cons]
    have hversion : (bytes "HTTP/1.1 ").length = 9 := by decide
    omega
  rw [serverResponse, hanswer.log.announced_iff hfront hperm hsorted hfields wbufSize hfirst]
  refine ⟨hhead.trans (Nat.le_succ _), fun l hl => absurd hl List.not_mem_nil, ?_⟩
  rw [if_neg fun h => hcontent h.1]
  rfl

theorem answers_zero (res : HttpResponse) (status : HttpStatus) :
    Answers ((httpResponseReset res status).addById headerContentLength (bytes "0") 1) status
      [(headerContentLength, bytes "0")] :=
  (answers_reset res status).addById headerContentLength (bytes "0") (by decide) (by decide)
    (by decide) (by decide)

theorem headText_zero_le (status : HttpStatus) (keep : Bool) :
    (headText status [connectionField keep, (headerContentLength, bytes "0"), serverField]).length ≤
      wbufSize := by
  have hlines : ([connectionField keep, (headerContentLength, bytes "0"), serverField].flatMap
      fieldLine).length ≤ 100 := by
    cases keep <;> decide
  have hcode := httpResponseCode_length_le status
  have hversion : (bytes "HTTP/1.1 ").length = 9 := by decide
  have hsize : wbufSize = 4096 := rfl
  simp only [headText, List.length_append, List.length_cons, List.length_nil]
  omega

/-- A response that has no fields of its own but its length. -/
theorem framed_zero (status : HttpStatus) (keep : Bool)
    (hrequest : (serverProcessRequest root files.toFileSystem req res keepAlive).1 =
      (((httpResponseReset res status).addById headerContentLength (bytes "0") 1).addById
        headerConnection (if keep then bytes "keep-alive" else bytes "close")
          (if keep then 10 else 5)).addById headerServer (bytes "O's Server") 10)
    (hget : req.parseStatus = .error ∨ req.method ≠ .get) :
    RespondsFramed root files req res keepAlive reader := by
  have hanswer := (answers_zero res status).finish keep
  rw [← hrequest] at hanswer
  have hperm : [connectionField keep, (headerContentLength, bytes "0"), serverField].Perm
      ([(headerContentLength, bytes "0")] ++ connectionField keep :: [serverField]) :=
    List.Perm.swap _ _ _
  refine framed_of_empty hanswer hperm ?_ [connectionField keep] rfl ?_ ?_
    (headText_zero_le status keep) hget
  · cases keep <;> decide
  · cases keep <;> decide
  · rw [hrequest]
    exact httpResponseReset_content res status

/-- **A refused request.** -/
theorem framed_refused (herr : req.parseStatus = .error) :
    RespondsFramed root files req res keepAlive reader := by
  refine framed_zero .badRequest400 false ?_ (Or.inl herr)
  rw [serverProcessRequest, if_pos herr]

theorem serverProcessRequest_not_allowed (fs : FileSystem) (herr : req.parseStatus ≠ .error)
    (hget : req.method ≠ .get) (hhead : req.method ≠ .head) (hoptions : req.method ≠ .options) :
    (serverProcessRequest root fs req res keepAlive).1 =
      (((httpResponseReset res .methodNotAllowed405).addById headerContentLength (bytes "0")
        1).addById headerConnection (if keepAlive then bytes "keep-alive" else bytes "close")
          (if keepAlive then 10 else 5)).addById headerServer (bytes "O's Server") 10 := by
  rw [serverProcessRequest, if_neg herr]
  cases hmethod : req.method with
  | get => exact absurd hmethod hget
  | head => exact absurd hmethod hhead
  | options => exact absurd hmethod hoptions
  | _ => rfl

/-- **A method that is not served.** -/
theorem framed_not_allowed (herr : req.parseStatus ≠ .error) (hget : req.method ≠ .get)
    (hhead : req.method ≠ .head) (hoptions : req.method ≠ .options) :
    RespondsFramed root files req res keepAlive reader :=
  framed_zero .methodNotAllowed405 keepAlive
    (serverProcessRequest_not_allowed files.toFileSystem herr hget hhead hoptions) (Or.inr hget)

theorem answers_options (res : HttpResponse) : Answers (serverProcessOptions res) .ok200
    [(headerAllow, bytes "OPTIONS, GET, PUT, HEAD"), (headerContentLength, bytes "0")] := by
  have hallow := (answers_reset res .ok200).addById headerAllow (bytes "OPTIONS, GET, PUT, HEAD")
    (by decide) (by decide) (by decide) (by decide)
  exact hallow.addById headerContentLength (bytes "0") (by decide) (by decide) (by decide)
    (by decide)

/-- **`OPTIONS`.** -/
theorem framed_options (herr : req.parseStatus ≠ .error) (hoptions : req.method = .options) :
    RespondsFramed root files req res keepAlive reader := by
  have hrequest : (serverProcessRequest root files.toFileSystem req res keepAlive).1 =
      ((serverProcessOptions res).addById headerConnection
        (if keepAlive then bytes "keep-alive" else bytes "close")
          (if keepAlive then 10 else 5)).addById headerServer (bytes "O's Server") 10 := by
    rw [serverProcessRequest, if_neg herr, hoptions]
  have hanswer := (answers_options res).finish keepAlive
  have hperm : [(headerAllow, bytes "OPTIONS, GET, PUT, HEAD"), connectionField keepAlive,
      (headerContentLength, bytes "0"), serverField].Perm
        ([(headerAllow, bytes "OPTIONS, GET, PUT, HEAD"), (headerContentLength, bytes "0")] ++
          connectionField keepAlive :: [serverField]) :=
    .cons _ (List.Perm.swap _ _ _)
  refine framed_of_empty (hrequest ▸ hanswer) hperm ?_ [(headerAllow,
    bytes "OPTIONS, GET, PUT, HEAD"), connectionField keepAlive] rfl ?_ ?_ ?_ (Or.inr ?_)
  · cases keepAlive <;> decide
  · cases keepAlive <;> decide
  · rw [hrequest]
    exact httpResponseReset_content res .ok200
  · cases keepAlive <;> decide
  · rw [hoptions]
    decide

/-- A `GET` whose path fits in its array, from what is found at the path. -/
theorem framed_opened (reader : ContentReader) (herr : req.parseStatus ≠ .error)
    (hget : req.method = .get)
    (hpath : (servedPath root req.url).length ≤ pathMax) {keep : Bool} {status : HttpStatus}
    {opened : HttpResponse} {clen : Int}
    (hopen : openFile files.toFileSystem (servedPath root req.url) (httpResponseReset res .ok200)
      keepAlive = (opened, clen, keep)) (hopened : Answers opened status [])
    (hclen : (bytes (toString clen)).length < 32768) :
    RespondsFramed root files req res keepAlive reader ↔
      getHeadLength (servedPath root req.url) status keep clen ≤ wbufSize + 1 ∧
        NamesNoLength (mediaType (servedPath root req.url)) ∧
        clen = ((headRest (mediaType (servedPath root req.url))).length + (if 0 < opened.content ∧
          getHeadLength (servedPath root req.url) status keep clen ≠ wbufSize then
            files.contents (servedPath root req.url) else []).length : Nat) := by
  rcases serverProcessGet_answers hopen hopened hpath hclen with ⟨hget', hcontent, hkeep⟩
  have hrequest : (serverProcessRequest root files.toFileSystem req res keepAlive).1 =
      ((serverProcessGet root files.toFileSystem req res keepAlive).1.addById headerConnection
        (if keep then bytes "keep-alive" else bytes "close") (if keep then 10 else 5)).addById
          headerServer (bytes "O's Server") 10 := by
    rw [serverProcessRequest, if_neg herr, hget]
    dsimp only
    rw [hkeep]
  have hanswer := (hget'.finish keep).log
  rw [← hrequest] at hanswer
  have hcontent' : (serverResponse root files req res keepAlive).content = opened.content := by
    rw [serverResponse, httpResponseLog, hrequest]
    exact hcontent
  have hcode := httpResponseCode_length_le status
  have hconnection : (fieldLine (connectionField keep)).length ≤ 24 := by
    cases keep <;> decide
  have hsize : wbufSize = 4096 := rfl
  have hfront : ∀ e ∈ [connectionField keep], InTable e.1 ∧ e.1 ≠ headerContentLength ∧
      CR ∉ e.2 := by
    cases keep <;> decide
  have hiff := hanswer.announced_iff hfront (getFields_perm _ keep clen)
    (getFields_sorted _ keep clen) rfl wbufSize (by omega) reader
    (files.contents (servedPath root req.url))
  rw [← serverResponse, hcontent'] at hiff
  constructor
  · intro h
    exact hiff.mp h.sent
  · intro h
    refine ⟨fun _ _ => ⟨hpath, ?_⟩, hiff.mpr h⟩
    -- the media type is in the head
    intro type htype
    have hlt := mediaType_lt_head htype status keep clen
    unfold pathMax
    omega

/-- **A `GET`.** -/
theorem framed_get (herr : req.parseStatus ≠ .error) (hget : req.method = .get) :
    RespondsFramed root files req res keepAlive reader ↔
      GetFramed files.toFileSystem (servedPath root req.url) keepAlive := by
  by_cases hpath : (servedPath root req.url).length ≤ pathMax
  swap
  · exact iff_of_false (fun h => hpath (h.arrays herr hget).1) fun h => hpath h.1
  have hreset := answers_reset res .ok200
  rcases found files.toFileSystem (servedPath root req.url) (httpResponseReset res .ok200)
    keepAlive with ⟨status, hopen, hframed⟩ | ⟨info, fd, hstat, hreg, hopen, hframed⟩
  · have hiff := framed_opened reader herr hget hpath hopen
      ⟨hreset.version, rfl, hreset.genStatus, hreset.headers⟩ (by decide)
    have hzero : (0 : Int) = ((headRest (mediaType (servedPath root req.url))).length +
        List.length ([] : List UInt8) : Nat) ↔
          headRest (mediaType (servedPath root req.url)) = [] := by
      rw [List.length_nil, Nat.add_zero, eq_comm, Int.natCast_eq_zero, List.length_eq_zero_iff]
    rw [hiff, hframed, if_neg fun h => httpResponseReset_content res .ok200 h.1, hzero, EmptyFramed]
    exact ⟨fun h => ⟨hpath, h.2.1, h.1, h.2.2⟩, fun h => ⟨h.2.2.1, h.2.1, h.2.2.2⟩⟩
  · have hiff := framed_opened reader herr hget hpath hopen
      ⟨hreset.version, hreset.status, hreset.genStatus, hreset.headers⟩ (length_toInt32_lt _)
    have hcontents := files.stat_size _ info hstat hreg
    rw [hiff, hframed, FileFramed]
    simp only [Int.natCast_pos]
    split
    next hsent =>
      rw [hcontents, toInt32_eq_add_iff, List.length_eq_zero_iff]
      exact ⟨fun h => ⟨hpath, h.2.1, h.1, h.2.2⟩, fun h => ⟨h.2.2.1, h.2.1, h.2.2.2⟩⟩
    next =>
      have hrest : getHeadLength (servedPath root req.url) .ok200 true (toInt32 info.stSize) ≤
          wbufSize + 1 → (headRest (mediaType (servedPath root req.url))).length < 2 ^ 31 := by
        intro hhead
        have hfront : ∀ e ∈ [connectionField true], InTable e.1 ∧ e.1 ≠ headerContentLength ∧
            CR ∉ e.2 := by
          decide
        have hle := (headRest_le_head hfront).trans hhead
        exact Nat.lt_of_le_of_lt hle (by decide)
      rw [List.length_nil, Nat.add_zero]
      constructor
      · intro h
        exact ⟨hpath, h.2.1, h.1, (toInt32_eq_iff _ (hrest h.1)).mp h.2.2⟩
      · intro h
        exact ⟨h.2.2.1, h.2.1, (toInt32_eq_iff _ (hrest h.2.2.1)).mpr h.2.2.2⟩

end Requests

/-- **A response is framed** for every request but a `GET` whose path overruns its array, whose
    head is more than one byte longer than the buffer, whose media type brings a second length
    into the head, or whose file is not sent as it is announced, the bytes behind a blank line
    that the media type brings into the head being taken for a part of it. -/
theorem serverProcessRequest_framed (root : List UInt8) (files : StaticFiles) (req : HttpRequest)
    (res : HttpResponse) (keepAlive : Bool) (reader : ContentReader) (hmethod : req.method ≠ .head) :
    RespondsFramed root files req res keepAlive reader ↔
      (req.parseStatus ≠ .error → req.method = .get →
        GetFramed files.toFileSystem (servedPath root req.url) keepAlive) := by
  by_cases herr : req.parseStatus = .error
  · exact iff_of_true (framed_refused herr) fun h => absurd herr h
  by_cases hget : req.method = .get
  · rw [framed_get herr hget]
    exact ⟨fun h _ _ => h, fun h => h herr hget⟩
  refine iff_of_true ?_ fun _ h => absurd h hget
  by_cases hoptions : req.method = .options
  · exact framed_options herr hoptions
  · exact framed_not_allowed herr hget hmethod hoptions

/-- A file system in which every path is a file with these bytes, opened as `fd`. -/
def oneFile (fd : Nat) (file : List UInt8) : StaticFiles where
  stat _ := some ⟨true, file.length⟩
  openRdonly _ := some fd
  contents _ := file
  stat_size _ _ h _ := congrArg FileInfo.stSize (Option.some.inj h)

theorem oneFile_framed_iff (fd : Nat) (file path : List UInt8) (keepAlive : Bool)
    (hfile : file ≠ []) : GetFramed (oneFile fd file).toFileSystem path keepAlive ↔
      path.length ≤ pathMax ∧ NamesNoLength (mediaType path) ∧
        FileFramed path fd file.length (getHeadLength path .ok200 true (toInt32 file.length)) := by
  have hsize : file.length ≠ 0 := mt List.length_eq_zero_iff.mp hfile
  simp [GetFramed, oneFile, hsize]

/-- `GET` of a target. -/
def getRequest (target : List UInt8) : HttpRequest :=
  (httpRequestParse httpRequestInit (bytes "GET " ++ target ++ bytes " HTTP/1.1\r\n\r\n")).req

theorem getRequest_index : (getRequest (bytes "/")).parseStatus ≠ .error ∧
    (getRequest (bytes "/")).method = .get ∧
      servedPath (bytes "/srv") (getRequest (bytes "/")).url = bytes "/srv/index.html" := by
  decide +kernel

theorem serverProcessRequest_framed_index :
    RespondsFramed (bytes "/srv") (oneFile 5 (bytes "file")) (getRequest (bytes "/"))
      (httpResponseInit .ok200) true eagerReader := by
  rcases getRequest_index with ⟨-, hget, hpath⟩
  refine (serverProcessRequest_framed (bytes "/srv") (oneFile 5 (bytes "file"))
    (getRequest (bytes "/")) (httpResponseInit .ok200) true eagerReader ?_).mpr fun _ _ => ?_
  · rw [hget]
    decide
  · have hhead : getHeadLength (bytes "/srv/index.html") .ok200 true
        (toInt32 (bytes "file").length) = 107 := by
      decide +kernel
    rw [hpath, oneFile_framed_iff _ _ _ _ (by decide), hhead]
    refine ⟨by decide, by decide +kernel, by decide, ?_⟩
    rw [if_pos (by decide)]
    exact ⟨by decide, by decide +kernel⟩

/-- The file is announced with another length than it is sent with. -/
theorem not_framed_of_size {fd : Nat} {file : List UInt8} (hpos : 0 < file.length)
    (hlen : file.length < 2 ^ 32) (hbad : fd = 0 ∨ 2 ^ 31 ≤ file.length) :
    ¬RespondsFramed (bytes "/srv") (oneFile fd file) (getRequest (bytes "/"))
      (httpResponseInit .ok200) true eagerReader := by
  rcases getRequest_index with ⟨herr, hget, hpath⟩
  have hrest : headRest (mediaType (bytes "/srv/index.html")) = [] := by
    decide +kernel
  rw [framed_get herr hget, hpath, oneFile_framed_iff _ _ _ _ (List.ne_nil_of_length_pos hpos),
    FileFramed, hrest, List.length_nil]
  rintro ⟨-, -, -, h⟩
  split at h
  next hsent =>
    rcases hbad with hfd | hlarge
    · exact absurd hfd (Nat.ne_of_gt hsent.1)
    · exact absurd h.1 (Nat.not_lt_of_le hlarge)
  next => exact absurd (Nat.le_of_dvd hpos (Nat.dvd_of_mod_eq_zero h)) (Nat.not_le_of_lt hlen)

/-- The media type brings a blank line into the head, or a second length. -/
theorem not_framed_of_type {root : List UInt8}
    (hpath : servedPath root (getRequest (bytes "/a")).url = root ++ bytes "/a")
    (hhead : getHeadLength (root ++ bytes "/a") .ok200 true (toInt32 (bytes "file").length) ≠
      wbufSize)
    (hbad : headRest (mediaType (root ++ bytes "/a")) ≠ [] ∨
      ¬NamesNoLength (mediaType (root ++ bytes "/a"))) :
    ¬RespondsFramed root (oneFile 5 (bytes "file")) (getRequest (bytes "/a"))
      (httpResponseInit .ok200) true eagerReader := by
  have hrequest : (getRequest (bytes "/a")).parseStatus ≠ .error ∧
      (getRequest (bytes "/a")).method = .get := by
    decide +kernel
  rw [framed_get hrequest.1 hrequest.2, hpath, oneFile_framed_iff _ _ _ _ (by decide), FileFramed,
    if_pos ⟨by decide, hhead⟩]
  rintro ⟨-, hnames, -, -, hrest⟩
  exact hbad.elim (fun h => h hrest) fun h => h hnames

/-- A file of `2 ^ 31` bytes, and a file that is opened as the descriptor `0`; a root that brings
    a blank line into the head, and one that brings a second length. -/
theorem serverProcessRequest_not_framed :
    ¬RespondsFramed (bytes "/srv") (oneFile 5 (List.replicate (2 ^ 31) 0)) (getRequest (bytes "/"))
      (httpResponseInit .ok200) true eagerReader ∧
    ¬RespondsFramed (bytes "/srv") (oneFile 0 (bytes "file")) (getRequest (bytes "/"))
      (httpResponseInit .ok200) true eagerReader ∧
    ¬RespondsFramed (bytes "/srv.\r\n\r\n") (oneFile 5 (bytes "file")) (getRequest (bytes "/a"))
      (httpResponseInit .ok200) true eagerReader ∧
    ¬RespondsFramed (bytes "/srv.\r\nContent-Length: 7") (oneFile 5 (bytes "file"))
      (getRequest (bytes "/a")) (httpResponseInit .ok200) true eagerReader := by
  have hlen : (List.replicate (2 ^ 31) (0 : UInt8)).length = 2 ^ 31 := List.length_replicate
  refine ⟨?_, ?_, ?_, ?_⟩
  · apply not_framed_of_size
    · rw [hlen]
      exact Nat.two_pow_pos 31
    · rw [hlen]
      exact Nat.pow_lt_pow_right Nat.one_lt_two (by decide)
    · exact Or.inr hlen.ge
  · exact not_framed_of_size (by decide) (by decide) (Or.inl rfl)
  · exact not_framed_of_type (by decide +kernel) (by decide +kernel) (Or.inl (by decide +kernel))
  · exact not_framed_of_type (by decide +kernel) (by decide +kernel) (Or.inr (by decide +kernel))

end OServer
