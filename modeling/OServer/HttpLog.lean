/-
  OServer/HttpLog.lean
  ====================
  **Logging a message (`http_request_log` and `http_response_log`).**

  Both functions lay out a buffer of `http_header_len` and eleven bytes: the version and its
  terminator, then all that `http_header_to_str` writes, and a last terminator.  Here the
  writer works on the buffer itself, and a byte outside of it is an error:

    * `httpHeaderToStrAt_writes`   — it keeps to the room that it is given, and what it
      leaves is the text of `httpHeaderToStr`;
    * `httpLogBuffer_fits`         — the buffer is large enough, and all headers are in it;
    * `httpHeaderToStr_rethreaded` — a collection that was logged is written like before;
    * `httpLog_neutral`            — the buffer, and what is sent after it.
-/
import OServer.HttpHeaderResume
import OServer.HttpHeaderSearch
import OServer.Server
import OServer.Logger

namespace OServer

open CString

/-! ## 1. Model -/

section Model
variable {n : Nat}

/-- `http_header_str_info_t`, with the buffer that `buf` points into. -/
structure HeaderStrBuffer (n : Nat) where
  cells : Buf UInt8 n
  buf : Nat
  size : Int
  traversePtr : Option Ptr

/-- What `snprintf` stores for an `int` as its size; a negative one is a very large number. -/
def snprintfInt (size : Int) (s : List UInt8) : List UInt8 :=
  if size < 0 then s ++ [NUL] else snprintfBytes size.toNat s

/-- `http_header_accumelate_str`, with `none` after a byte outside of the buffer. -/
def httpHeaderAccumelateStrAt (key : Ptr → BtKey) (header : Ptr → HttpHeader) :
    StopVisitor (Option (HeaderStrBuffer n)) := fun h st =>
  match st, h with
  | none, _ => (none, true)
  | some info, none => (some { info with traversePtr := none }, true)
  | some info, some p =>
      if (httpHeaderField (key p)).len + (header p).len.toInt + 4 ≤ info.size then
        let line := headerLine (key p) (header p)
        match info.cells.store info.buf (snprintfInt info.size line) with
        | none => (none, true)
        | some cells => (some ⟨cells, info.buf + line.length, info.size - line.length, some p⟩, false)
      else (some info, true)

/-- What `http_header_to_str` leaves in memory, and what it returns. -/
structure HeaderStrAt (n : Nat) where
  cells : Buf UInt8 n
  ret : Int
  isEnd : Bool
  headerTree : Btree
  traversePtr : Option Ptr

/-- `http_header_to_str`, where `s` is an index into the buffer. -/
def httpHeaderToStrAt (headers : HttpHeaderCollection) (cells : Buf UInt8 n) (s : Nat)
    (size : Int) : Option (HeaderStrAt n) := do
  let tree ← btreeBuildInOrderThreading headers.headerTree
  let st ← btreeThreadTraverse tree headers.traversePtr
    (httpHeaderAccumelateStrAt (fun p => (tree.node p).key) headers.header)
    (some ⟨cells, s, size, headers.traversePtr⟩)
  let info ← st
  if info.traversePtr = none ∧ 2 ≤ info.size then
    let cells ← info.cells.store info.buf [CR, LF]
    some ⟨cells, size - (info.size - 2), true, tree, tree.root⟩
  else some ⟨info.cells, size - info.size, false, tree, info.traversePtr⟩

/-- The size of the buffer. -/
def logSize (headers : HttpHeaderCollection) (version : HttpVersion) : Int :=
  httpHeaderLen headers + httpVersionLen version + 2

/-- The buffer before the record is written, `hptr`, and what the call leaves of the headers. -/
structure LogBuffer (n : Nat) where
  cells : Buf UInt8 n
  hptr : Nat
  isEnd : Bool
  headerTree : Btree
  traversePtr : Option Ptr

/-- The two functions up to the call of `l_og`, over the memory that `malloc` gives them;
    `none` where a byte outside of it is written.  `strncpy` fills up with terminators. -/
def httpLogBuffer (headers : HttpHeaderCollection) (version : HttpVersion)
    (buf : Buf UInt8 (logSize headers version).toNat) :
    Option (LogBuffer (logSize headers version).toNat) := do
  let size := logSize headers version
  let text := httpVersionToStr version size.toNat
  let cells ← buf.store 0 (text ++ List.replicate (size.toNat - text.length) NUL)
  let cells ← cells.store text.length [NUL]
  let hptr := text.length + 1
  let r ← httpHeaderToStrAt headers cells hptr (size - hptr)
  let cells ← r.cells.store (hptr + r.ret.toNat) [NUL]
  some ⟨cells, hptr, r.isEnd, r.headerTree, r.traversePtr⟩

/-- The message of `http_request_log`; there is none when the method is not in its table. -/
def httpRequestLogText (req : HttpRequest) (b : LogBuffer n) : Option (List UInt8) :=
  (httpMethodStr req.method).map fun method =>
    lOg (bytes "http_request.c") 125 (bytes "\n" ++ method ++ cstr req.url.url ++ bytes " " ++
      cstr b.cells.cells ++ bytes "\n" ++ cstr (b.cells.cells.drop b.hptr) ++ bytes "\n\n")

/-- The message of `http_response_log`. -/
def httpResponseLogText (res : HttpResponse) (b : LogBuffer n) : List UInt8 :=
  lOg (bytes "http_response.c") 427 (bytes "\n" ++ cstr b.cells.cells ++
    httpResponseCode res.status ++ bytes "\n" ++ cstr (b.cells.cells.drop b.hptr))

end Model

/-! ## 2. The writer in memory -/

section Writer
variable {n : Nat} {key : Ptr → BtKey} {header : Ptr → HttpHeader}

/-- The buffer holds what stands in front of it, and then the text. -/
structure Mirrors (pre : List UInt8) (info : HttpHeaderStrInfo) (m : HeaderStrBuffer n) :
    Prop where
  text : pre ++ info.str <+: m.cells.cells
  buf : m.buf = (pre ++ info.str).length
  size : m.size = info.size
  room : 0 ≤ m.size ∧ m.buf + m.size ≤ n
  cursor : m.traversePtr = info.traversePtr

/-- The sizes that are compared keep a line and its terminator inside of the room. -/
theorem snprintfInt_room {size : Int} (hsize : 0 ≤ size) (line : List UInt8) :
    snprintfInt size line = snprintfBytes size.toNat line ∧
      ((snprintfInt size line).length : Int) ≤ size := by
  have heq : snprintfInt size line = snprintfBytes size.toNat line :=
    if_neg (Int.not_lt.mpr hsize)
  have hle := snprintfBytes_length_le size.toNat line
  rw [heq]
  exact ⟨rfl, by omega⟩

/-- One node. -/
theorem Mirrors.write {pre : List UInt8} {info : HttpHeaderStrInfo} {m : HeaderStrBuffer n}
    (h : Mirrors pre info m) (line : List UInt8) (hline : (line.length : Int) ≤ info.size)
    (p : Ptr) : ∃ cells, m.cells.store m.buf (snprintfInt m.size line) = some cells ∧
      Mirrors pre ⟨info.str ++ snprintf info.size.toNat line, info.size - line.length, some p⟩
        ⟨cells, m.buf + line.length, m.size - line.length, some p⟩ := by
  have hroom := h.room
  rcases snprintfInt_room hroom.1 line with ⟨hbytes, hlen⟩
  have hsize := h.size
  rcases snprintf_prefix (show line.length ≤ info.size.toNat by omega) with ⟨hcount, hprefix⟩
  have hbuf := h.buf
  obtain ⟨cells, hstore, htext⟩ := Buf.store_append h.text (snprintfInt m.size line) (by omega)
  rw [← hbuf] at hstore
  refine ⟨cells, hstore, ?_, ?_, ?_, ?_, rfl⟩
  · rw [hbytes, hsize] at htext
    rw [← List.append_assoc]
    exact ((List.prefix_append_right_inj _).mpr hprefix).trans htext
  · rw [hbuf]
    simp only [List.length_append, hcount]
    omega
  · rw [hsize]
  · dsimp only
    omega

theorem accumelateStrAt_mirrors {pre : List UInt8} (ps : List Ptr) :
    ∀ (info : HttpHeaderStrInfo) (m : HeaderStrBuffer n), (∀ p ∈ ps, SizedAt key header p) →
      Mirrors pre info m → ∃ m', visitUntil (httpHeaderAccumelateStrAt key header) ps (some m) =
        some m' ∧ Mirrors pre (visitUntil (httpHeaderAccumelateStr key header) ps info) m' := by
  induction ps with
  | nil =>
    intro info m _ hm
    exact ⟨_, rfl, hm.text, hm.buf, hm.size, hm.room, rfl⟩
  | cons p ps ih =>
    intro info m hps hm
    have hp := hps p List.mem_cons_self
    have hps' : ∀ q ∈ ps, SizedAt key header q := fun q hq => hps q (List.mem_cons_of_mem p hq)
    have hline := headerLine_declared_le hp.1 hp.2
    rw [HttpHeaderCollection.visitUntil_cons, ← hm.size]
    by_cases hfit : (httpHeaderField (key p)).len + (header p).len.toInt + 4 ≤ m.size
    · have hsize := hm.size
      obtain ⟨cells, hstore, hm'⟩ := hm.write (headerLine (key p) (header p)) (by omega) p
      obtain ⟨m', hrun, hmirrors⟩ := ih _ _ hps' hm'
      refine ⟨m', ?_, ?_⟩
      · simp only [visitUntil, httpHeaderAccumelateStrAt, if_pos hfit, hstore, Bool.false_eq_true,
          if_false]
        exact hrun
      · rw [if_pos hfit, hsize]
        exact hmirrors
    · refine ⟨m, ?_, ?_⟩
      · simp only [visitUntil, httpHeaderAccumelateStrAt, if_neg hfit, if_true]
      · rw [if_neg hfit]
        exact hm

end Writer

section Call
variable {n : Nat} {headers : HttpHeaderCollection}

theorem threading_threaded_eq (headers : HttpHeaderCollection) :
    btreeBuildInOrderThreading headers.headerTree = some headers.threaded :=
  (Option.some_get headers.threading_isSome).symm

theorem httpHeaderToStr_headerTree (headers : HttpHeaderCollection) (size : Int) :
    (httpHeaderToStr headers size).headers.headerTree = headers.threaded := by
  unfold httpHeaderToStr
  dsimp only
  split_ifs <;> rfl

/-- **The writer in memory** writes the text, and no byte outside of the room. -/
theorem httpHeaderToStrAt_writes (hsized : headers.Sized) {cells : Buf UInt8 n} {pre : List UInt8}
    (hpre : pre <+: cells.cells) {size : Int} (hsize : 0 ≤ size)
    (hroom : pre.length + size ≤ n) :
    ∃ r, httpHeaderToStrAt headers cells pre.length size = some r ∧
      pre ++ (httpHeaderToStr headers size).str <+: r.cells.cells ∧
      r.ret = (httpHeaderToStr headers size).ret ∧
      r.isEnd = (httpHeaderToStr headers size).isEnd ∧
      r.headerTree = (httpHeaderToStr headers size).headers.headerTree ∧
      r.traversePtr = (httpHeaderToStr headers size).headers.traversePtr := by
  rcases headers.tree with ⟨v, hv⟩
  have hkey : (fun p => (headers.threaded.node p).key) = v.key :=
    funext (HttpHeaderCollection.threaded_represents hv).1.key
  obtain ⟨xs, ps, hlist, -, -, -, hrun⟩ := HttpHeaderCollection.threadTraverse_cursor hv
  have hps : ∀ p ∈ ps, SizedAt v.key headers.header p := by
    intro p hp
    apply hsized.view hv
    rw [hlist]
    exact List.mem_append_right xs hp
  -- both writers on the same nodes
  have hstart : Mirrors pre ⟨[], size, headers.traversePtr⟩
      ⟨cells, pre.length, size, headers.traversePtr⟩ :=
    ⟨by rwa [List.append_nil], by rw [List.append_nil], rfl, ⟨hsize, hroom⟩, rfl⟩
  obtain ⟨m, hm, hmirrors⟩ := accumelateStrAt_mirrors ps _ _ hps hstart
  have hinfo : visitUntil (httpHeaderAccumelateStr v.key headers.header) ps
      ⟨[], size, headers.traversePtr⟩ = headers.accumulate size := by
    simp only [HttpHeaderCollection.accumulate, hkey, hrun, Option.get_some]
  rw [hinfo] at hmirrors
  have hroom' := hmirrors.room
  by_cases hend : (headers.accumulate size).traversePtr = none ∧ 2 ≤ (headers.accumulate size).size
  · have hend' : m.traversePtr = none ∧ 2 ≤ m.size := by
      rw [hmirrors.cursor, hmirrors.size]
      exact hend
    have hbuf := hmirrors.buf
    obtain ⟨cells', hstore, htext⟩ := Buf.store_append hmirrors.text [CR, LF] (by
      rw [← hbuf]
      simp only [List.length_cons, List.length_nil]
      omega)
    rw [← hbuf] at hstore
    refine ⟨⟨cells', size - (m.size - 2), true, headers.threaded, headers.threaded.root⟩, ?_, ?_⟩
    · simp only [httpHeaderToStrAt, threading_threaded_eq, Option.bind_eq_bind, Option.bind_some,
        hkey, hrun, hm, if_pos hend', hstore]
    · simp only [httpHeaderToStr, if_pos hend, hmirrors.size, and_self, and_true]
      rwa [← List.append_assoc]
  · have hend' : ¬(m.traversePtr = none ∧ 2 ≤ m.size) := by
      rw [hmirrors.cursor, hmirrors.size]
      exact hend
    refine ⟨⟨m.cells, size - m.size, false, headers.threaded, m.traversePtr⟩, ?_, ?_⟩
    · simp only [httpHeaderToStrAt, threading_threaded_eq, Option.bind_eq_bind, Option.bind_some,
        hkey, hrun, hm, if_neg hend']
    · simp only [httpHeaderToStr, if_neg hend, hmirrors.size, hmirrors.cursor, and_self, and_true]
      exact hmirrors.text

/-- A collection that was threaded is threaded again, and so written, like before. -/
theorem httpHeaderToStr_rethreaded {headers' : HttpHeaderCollection}
    (htree : headers'.headerTree = headers.threaded) (hheader : headers'.header = headers.header)
    (hcur : headers'.traversePtr = headers.traversePtr) (size : Int) :
    httpHeaderToStr headers' size = httpHeaderToStr headers size := by
  rcases headers.tree with ⟨v, hv⟩
  have hagain := threading_again hv.holds v.ordered.nodup hv.height_le
    (threading_threaded_eq headers)
  have hthreaded : headers'.threaded = headers.threaded := by
    rw [← htree] at hagain
    rw [← htree]
    exact Option.some.inj ((threading_threaded_eq headers').symm.trans hagain)
  have hinfo : headers'.accumulate size = headers.accumulate size := by
    simp only [HttpHeaderCollection.accumulate, hthreaded, hheader, hcur]
  unfold httpHeaderToStr
  simp only [hinfo, hthreaded, hheader]

end Call

/-! ## 3. The buffer -/

section Log
variable {headers : HttpHeaderCollection} {ps : List Ptr}

/-- What a log call leaves of its buffer, and of the headers. -/
structure LogBuffer.Holds {n : Nat} (b : LogBuffer n) (headers logged : HttpHeaderCollection)
    (version : HttpVersion) (ps : List Ptr) : Prop where
  text : httpVersionToStr version 9 ++ [NUL] ++ (ps.flatMap headers.line ++ [CR, LF]) ++ [NUL] <+:
    b.cells.cells
  hptr : b.hptr = 10
  isEnd : b.isEnd = true
  headerTree : b.headerTree = logged.headerTree
  traversePtr : b.traversePtr = logged.traversePtr
  cursor : logged.traversePtr = headers.headerTree.root ∧ logged.headerTree.root = headers.headerTree.root

theorem declaredLength_le {key : Ptr → BtKey} {header : Ptr → HttpHeader} {ps : List Ptr}
    (hps : ∀ p ∈ ps, SizedAt key header p) : declaredLength key header ps ≤ 32806 * ps.length := by
  have hnames : ∀ f ∈ httpHeaderFields, f.len ≤ 35 := by decide
  induction ps with
  | nil => exact le_rfl
  | cons p ps ih =>
    have hp := hps p List.mem_cons_self
    have hname := hnames _ (httpHeaderField_mem hp.1)
    have hlen := (header p).len.toInt_lt
    have hrest := ih fun q hq => hps q (List.mem_cons_of_mem p hq)
    rw [declaredLength, List.length_cons, Nat.cast_add]
    omega

/-- The nodes have ids of their own. -/
theorem length_le_fields {v : BtreeView} (htable : ∀ p ∈ v.tree.toList, InTable (v.key p)) :
    v.tree.toList.length ≤ httpHeaderFields.length := by
  have hnodup : (v.tree.toList.map fun p => (v.key p).toInt.toNat).Nodup := by
    have hsorted := (Avl.AvlTree.ordered_iff_pairwise v.key v.tree).mp v.ordered
    rw [List.Nodup, List.pairwise_map]
    apply hsorted.imp_of_mem
    intro p q hp hq hlt heq
    have hp0 := (htable p hp).1
    have hq0 := (htable q hq).1
    have hint := Int16.lt_iff_toInt_lt.mp hlt
    omega
  have hsubset : (v.tree.toList.map fun p => (v.key p).toInt.toNat) ⊆
      List.range httpHeaderFields.length := by
    intro i hi
    rcases List.mem_map.mp hi with ⟨p, hp, rfl⟩
    exact List.mem_range.mpr (htable p hp).2
  have hlen := (List.subperm_of_subset hnodup hsubset).length_le
  rwa [List.length_map, List.length_range] at hlen

/-- The sum of the lengths is an `int`. -/
theorem logSize_bounds (hsized : headers.Sized) (version : HttpVersion) :
    13 ≤ logSize headers version ∧ logSize headers version < 2 ^ 22 := by
  rcases headers.tree with ⟨v, hv⟩
  have hview := hsized.view hv
  have hlines := headerLines_declared_le hview
  have htotal := declaredLength_le hview
  have hcount := length_le_fields fun p hp => (hview p hp).1
  have htable : httpHeaderFields.length = 87 := rfl
  rw [logSize, httpHeaderLen_declared hv, httpVersionLen]
  omega

/-- The lines are not longer than what they are counted for. -/
theorem lines_length_le (hps : headers.Listed ps) (hsized : headers.Sized) :
    ((ps.flatMap headers.line).length : Int) + 2 ≤ httpHeaderLen headers := by
  rcases headers.tree with ⟨v, hv⟩
  have hlines := headerLines_declared_le (hsized.view hv)
  rw [httpHeaderLen_declared hv, hps.eq_toList hv, HttpHeaderCollection.flatMap_line hv]
  omega

/-- `strncpy` and the terminator behind the version. -/
theorem store_version (version : HttpVersion) {n : Nat} (hn : 10 ≤ n) (buf : Buf UInt8 n) :
    ∃ b₁ b₂, buf.store 0 (httpVersionToStr version 9 ++ List.replicate (n - 9) NUL) = some b₁ ∧
      b₁.store 9 [NUL] = some b₂ ∧ httpVersionToStr version 9 ++ [NUL] <+: b₂.cells := by
  have hnine := (httpVersionToStr_length version (le_refl 9)).2
  have hfilled : (httpVersionToStr version 9 ++ List.replicate (n - 9) NUL).length ≤ n := by
    rw [List.length_append, List.length_replicate, hnine]
    omega
  obtain ⟨b₁, hb₁, hpre₁⟩ := Buf.store_front buf hfilled
  have htext := (List.prefix_append (httpVersionToStr version 9) _).trans hpre₁
  obtain ⟨b₂, hb₂, hpre₂⟩ := Buf.store_append htext [NUL] (by rwa [hnine, List.length_singleton])
  rw [hnine] at hb₂
  exact ⟨b₁, b₂, hb₁, hb₂, hpre₂⟩

/-- With as much room as `http_header_len` says, all lines are written. -/
theorem httpHeaderToStrAt_all (hps : headers.Listed ps) (hsized : headers.Sized)
    (hcur : headers.traversePtr = headers.headerTree.root) {n : Nat} {cells : Buf UInt8 n}
    {pre : List UInt8} (hpre : pre <+: cells.cells) {size : Int}
    (hsize : httpHeaderLen headers ≤ size) (hroom : pre.length + size ≤ n) :
    ∃ r, httpHeaderToStrAt headers cells pre.length size = some r ∧
      pre ++ (ps.flatMap headers.line ++ [CR, LF]) <+: r.cells.cells ∧
      r.ret = (ps.flatMap headers.line).length + 2 ∧ r.isEnd = true ∧
      r.headerTree = (httpHeaderToStr headers size).headers.headerTree ∧
      r.traversePtr = (httpHeaderToStr headers size).headers.traversePtr ∧
      r.traversePtr = headers.headerTree.root ∧ r.headerTree.root = headers.headerTree.root := by
  have hlines := lines_length_le hps hsized
  have hpos : 0 ≤ size := by omega
  obtain ⟨r, hr, hstr, hret, hend, htree, hptr⟩ := httpHeaderToStrAt_writes hsized hpre hpos hroom
  rcases headers.tree with ⟨v, hv⟩
  rw [httpHeaderLen_declared hv] at hsize
  obtain ⟨hall, hall_end, hall_ret, hall_cur⟩ :=
    httpHeaderToStr_declared hv (hsized.view hv) hcur hsize
  rw [hps.eq_toList hv, HttpHeaderCollection.flatMap_line hv]
  have hroot := (httpHeaderToStr_represents hv size).2.2
  refine ⟨r, hr, ?_, hret.trans hall_ret, hend.trans hall_end, htree, hptr, ?_, ?_⟩
  · rwa [← hall]
  · rw [hptr, hall_cur, hroot]
  · rw [htree, hroot]

/-- **The buffer is large enough** for all that is written to it. -/
theorem httpLogBuffer_fits (hps : headers.Listed ps) (hsized : headers.Sized)
    (hcur : headers.traversePtr = headers.headerTree.root) (version : HttpVersion)
    (buf : Buf UInt8 (logSize headers version).toNat) :
    ∃ b, httpLogBuffer headers version buf = some b ∧
      b.Holds headers (logHeaders headers version) version ps := by
  have hlines := lines_length_le hps hsized
  have hsize : logSize headers version = httpHeaderLen headers + 11 := by
    rw [logSize, httpVersionLen]
    omega
  have hversion : 9 ≤ (logSize headers version).toNat := by omega
  rcases httpVersionToStr_length version hversion with ⟨htext, hnine⟩
  obtain ⟨b₁, b₂, hb₁, hb₂, hpre⟩ := store_version version (by omega) buf
  have hten : (httpVersionToStr version 9 ++ [NUL]).length = 10 := by
    rw [List.length_append, hnine, List.length_singleton]
  have hroom : logSize headers version - 10 = httpHeaderLen headers + 1 := by omega
  obtain ⟨r, hr, hall, hret, hend, htree, hptr, hcursor, hroot⟩ := httpHeaderToStrAt_all hps hsized
    hcur hpre (Int.le_add_one (le_refl (httpHeaderLen headers))) (by omega)
  -- the terminator behind the headers is the last byte
  have hlast : (httpVersionToStr version 9 ++ [NUL] ++
      (ps.flatMap headers.line ++ [CR, LF])).length = 10 + r.ret.toNat := by
    rw [List.length_append, hten, hret, List.length_append, List.length_cons, List.length_singleton]
    omega
  obtain ⟨b₃, hb₃, hpre₃⟩ := Buf.store_append hall [NUL] (by
    rw [hlast, hret, List.length_singleton]
    omega)
  have hlogged : logHeaders headers version =
      (httpHeaderToStr headers (httpHeaderLen headers + 1)).headers :=
    logHeaders_eq (by omega) version
  rw [hlast] at hb₃
  rw [hten] at hr
  rw [← hlogged] at htree hptr
  refine ⟨⟨b₃, 10, r.isEnd, r.headerTree, r.traversePtr⟩, ?_, ?_⟩
  · simp only [httpLogBuffer, htext, hnine, hb₁, hb₂, hroom, hr, hb₃, Option.bind_eq_bind,
      Option.bind_some, Nat.reduceAdd, Nat.cast_ofNat]
  · refine ⟨hpre₃, rfl, hend, htree, hptr, ?_, ?_⟩
    · rw [← hptr, hcursor]
    · rw [← htree, hroot]

/-- A line is a string. -/
theorem nul_not_mem_headerLine {id : BtKey} (hid : InTable id) (h : HttpHeader) :
    NUL ∉ headerLine id h := by
  have hfield := (httpHeaderFields_hashes.2 _ (httpHeaderField_mem hid)).2.1
  have hvalue : NUL ∉ cstr h.value := by
    intro hnul
    have hstays := List.mem_takeWhile_imp hnul
    exact absurd hstays (by decide)
  have hends : NUL ∉ bytes ": " ∧ NUL ∉ [CR, LF] := by decide
  simp only [headerLine, List.mem_append, not_or]
  exact ⟨⟨⟨hfield, hends.1⟩, hvalue⟩, hends.2⟩

/-- The two strings of the buffer that are printed. -/
theorem LogBuffer.Holds.strings {n : Nat} {b : LogBuffer n} {logged : HttpHeaderCollection}
    {version : HttpVersion} (h : b.Holds headers logged version ps) (hps : headers.Listed ps)
    (hsized : headers.Sized) :
    cstr b.cells.cells = httpVersionToStr version 9 ∧
      cstr (b.cells.cells.drop b.hptr) = ps.flatMap headers.line ++ [CR, LF] := by
  have hversion : NUL ∉ httpVersionToStr version 9 ∧ (httpVersionToStr version 9).length = 9 := by
    cases version <;> decide
  have hlines : NUL ∉ ps.flatMap headers.line ++ [CR, LF] := by
    simp only [List.mem_append, List.mem_flatMap, not_or]
    refine ⟨?_, by decide⟩
    rintro ⟨p, hp, hnul⟩
    exact nul_not_mem_headerLine (hsized p ((hps.mem_iff p).mp hp)).1 _ hnul
  rcases h.text with ⟨rest, hcells⟩
  constructor
  · rw [← hcells]
    simp only [List.append_assoc, List.singleton_append]
    exact cstr_append_nul hversion.1 _
  · have hfront : (httpVersionToStr version 9 ++ [NUL]).length = b.hptr := by
      rw [h.hptr, List.length_append, hversion.2, List.length_singleton]
    rw [← hcells, List.append_assoc, List.append_assoc, ← hfront, List.drop_left,
      List.singleton_append]
    exact cstr_append_nul hlines rest

end Log

/-! ## 4. The record -/

section Record
variable {req : HttpRequest} {ps : List Ptr} {n : Nat} {b : LogBuffer n}
  {logged : HttpHeaderCollection}

/-- The message of a request, with all of its headers. -/
theorem httpRequestLogText_eq (h : b.Holds req.headers logged req.version ps)
    (hps : req.headers.Listed ps) (hsized : req.headers.Sized) : httpRequestLogText req b =
      (httpMethodStr req.method).map fun method => lOg (bytes "http_request.c") 125
        (bytes "\n" ++ method ++ cstr req.url.url ++ bytes " " ++ httpVersionToStr req.version 9 ++
          bytes "\n" ++ (ps.flatMap req.headers.line ++ [CR, LF]) ++ bytes "\n\n") := by
  rcases h.strings hps hsized with ⟨hversion, hheaders⟩
  rw [httpRequestLogText, hversion, hheaders]

/-- The message of a response. -/
theorem httpResponseLogText_eq {res : HttpResponse}
    (h : b.Holds res.headers logged res.version ps) (hps : res.headers.Listed ps)
    (hsized : res.headers.Sized) : httpResponseLogText res b =
      lOg (bytes "http_response.c") 427 (bytes "\n" ++ httpVersionToStr res.version 9 ++
        httpResponseCode res.status ++ bytes "\n" ++ (ps.flatMap res.headers.line ++ [CR, LF])) := by
  rcases h.strings hps hsized with ⟨hversion, hheaders⟩
  rw [httpResponseLogText, hversion, hheaders]

/-- **A long request** makes the logger count more than its buffer. -/
theorem httpRequestLog_overruns (h : b.Holds req.headers logged req.version ps)
    (hps : req.headers.Listed ps) (hsized : req.headers.Sized)
    (hlong : 949 ≤ (cstr req.url.url).length + (ps.flatMap req.headers.line).length)
    (hurl : (cstr req.url.url).length < urlSize) {msg : List UInt8}
    (hmsg : httpRequestLogText req b = some msg) {lg : Logger} (hfd : 0 ≤ lg.outputFd)
    (hlevel : lg.logLevel.value ≤ LogLevel.info.value) (buffer : Buf UInt8 1024)
    (time : LogTime) : ¬RecordBounded (loggerLog lg buffer .info time msg) := by
  rw [httpRequestLogText_eq h hps hsized] at hmsg
  obtain ⟨method, hmethod, rfl⟩ := Option.map_eq_some_iff.mp hmsg
  have hbounds : 4 ≤ method.length ∧ method.length ≤ 8 := by
    cases hm : req.method
    all_goals
      rw [hm] at hmethod
      cases hmethod
    all_goals decide
  have hversion : (httpVersionToStr req.version 9).length = 9 := by
    cases req.version <;> decide
  have hwords : (bytes "http_request.c").length = 14 ∧ (bytes (toString 125)).length = 3 ∧
      (bytes "\n").length = 1 ∧ (bytes " ").length = 1 ∧ (bytes "\n\n").length = 2 := by decide
  have hstamp := stampLength_bounds time
  have hsize := logSize_bounds hsized req.version
  have hlines := lines_length_le hps hsized
  rw [logSize, httpVersionLen] at hsize
  unfold urlSize at hurl
  apply not_recordBounded_long buffer hfd hlevel
  · rw [lOg_length]
    simp only [List.length_append, List.length_cons, List.length_nil, hversion, hwords]
    omega
  · rw [lOg_length]
    simp only [List.length_append, List.length_cons, List.length_nil, hversion, hwords]
    omega

end Record

/-! ## 5. What is sent afterwards -/

section Sent
variable {ρ : Type}

/-- The calls of `http_response_gen` for one response: what each of them writes, the room it
    leaves and `*is_end`, and the environment after the last one. -/
def genCalls (read : Nat → ρ → List UInt8 × ρ) : HttpResponse → List Int → ρ →
    List (List UInt8 × Int × Bool) × ρ
  | _, [], file => ([], file)
  | res, size :: sizes, file =>
      let r := httpResponseGen read res size file
      let rest := genCalls read r.res sizes r.file
      ((r.out, r.size, r.isEnd) :: rest.1, rest.2)

/-- The same response, with headers that are written alike. -/
def WrittenAlike (res res' : HttpResponse) : Prop :=
  ∃ headers, res' = { res with headers } ∧
    ∀ size, httpHeaderToStr headers size = httpHeaderToStr res.headers size

theorem WrittenAlike.refl (res : HttpResponse) : WrittenAlike res res :=
  ⟨res.headers, rfl, fun _ => rfl⟩

/-- Two calls, or rounds of one, that cannot be told apart. -/
structure Gen.Alike (r r' : Gen ρ) : Prop where
  out : r'.out = r.out
  size : r'.size = r.size
  isEnd : r'.isEnd = r.isEnd
  file : r'.file = r.file
  res : WrittenAlike r.res r'.res

theorem genRound_alike (read : Nat → ρ → List UInt8 × ρ) {res res' : HttpResponse}
    (h : WrittenAlike res res') (size : Int) (file : ρ) :
    (genRound read res size file).Alike (genRound read res' size file) := by
  rcases h with ⟨headers, rfl, hstr⟩
  rcases res with ⟨version, status, before, genStatus, content⟩
  unfold genRound
  cases genStatus with
  | version =>
    dsimp only
    split_ifs
    · exact ⟨rfl, rfl, rfl, rfl, headers, rfl, hstr⟩
    · exact ⟨rfl, rfl, rfl, rfl, headers, rfl, hstr⟩
  | code =>
    dsimp only
    split_ifs
    · exact ⟨rfl, rfl, rfl, rfl, headers, rfl, hstr⟩
    · exact ⟨rfl, rfl, rfl, rfl, headers, rfl, hstr⟩
  | headers =>
    -- the collections are the same from here on
    dsimp only at hstr ⊢
    rw [hstr size]
    exact ⟨rfl, rfl, rfl, rfl, .refl _⟩
  | content =>
    dsimp only
    split_ifs
    · exact ⟨rfl, rfl, rfl, rfl, headers, rfl, hstr⟩
    · exact ⟨rfl, rfl, rfl, rfl, headers, rfl, hstr⟩
  | error => exact ⟨rfl, rfl, rfl, rfl, headers, rfl, hstr⟩

theorem WrittenAlike.genStatus {res res' : HttpResponse} (h : WrittenAlike res res') :
    res'.genStatus = res.genStatus := by
  rcases h with ⟨headers, rfl, -⟩
  rfl

theorem genLoop_alike (read : Nat → ρ → List UInt8 × ρ) (fuel : Nat) :
    ∀ (res res' : HttpResponse) (size : Int) (file : ρ), WrittenAlike res res' →
      (genLoop read fuel res size file).Alike (genLoop read fuel res' size file) := by
  induction fuel with
  | zero => exact fun res res' size file h => ⟨rfl, rfl, rfl, rfl, h⟩
  | succ fuel ih =>
    intro res res' size file h
    have hround := genRound_alike read h size file
    rw [genLoop, genLoop, hround.res.genStatus, h.genStatus, hround.size, hround.file, hround.out]
    split_ifs
    · have hrest := ih _ _ (genRound read res size file).size (genRound read res size file).file
        hround.res
      exact ⟨congrArg ((genRound read res size file).out ++ ·) hrest.out, hrest.size, hrest.isEnd, hrest.file, hrest.res⟩
    · exact hround

theorem httpResponseGen_alike (read : Nat → ρ → List UInt8 × ρ) {res res' : HttpResponse}
    (h : WrittenAlike res res') (size : Int) (file : ρ) :
    (httpResponseGen read res size file).Alike (httpResponseGen read res' size file) := by
  rw [httpResponseGen, httpResponseGen, h.genStatus]
  exact genLoop_alike read _ res res' size file h

/-- **Any number of calls** writes the same. -/
theorem genCalls_alike (read : Nat → ρ → List UInt8 × ρ) (sizes : List Int) :
    ∀ (res res' : HttpResponse) (file : ρ), WrittenAlike res res' →
      genCalls read res' sizes file = genCalls read res sizes file := by
  induction sizes with
  | nil => exact fun _ _ _ _ => rfl
  | cons size sizes ih =>
    intro res res' file h
    have hgen := httpResponseGen_alike read h size file
    rw [genCalls, genCalls, hgen.out, hgen.size, hgen.isEnd, hgen.file, ih _ _ _ hgen.res]

/-- With the cursor at the root a log call leaves headers that are written alike. -/
theorem httpResponseLog_alike {res : HttpResponse} {ps : List Ptr} {n : Nat} {b : LogBuffer n}
    (h : b.Holds res.headers (httpResponseLog res).headers res.version ps)
    (hcur : res.headers.traversePtr = res.headers.headerTree.root) :
    WrittenAlike res (httpResponseLog res) := by
  refine ⟨_, rfl, fun size => ?_⟩
  rcases res.headers.tree with ⟨v, hv⟩
  refine httpHeaderToStr_rethreaded (httpHeaderToStr_headerTree res.headers _)
    (httpHeaderToStr_represents hv _).2.1 ?_ size
  exact h.cursor.1.trans hcur.symm

end Sent

/-- A collection as it is when it is logged. -/
structure Loggable (headers : HttpHeaderCollection) (ps : List Ptr) : Prop where
  listed : headers.Listed ps
  sized : headers.Sized
  cursor : headers.traversePtr = headers.headerTree.root

/-- A log call stays inside of the buffer that it allocates, and leaves all lines there and the
    cursor at the root.  Values without `NUL` are in their lines as they are. -/
structure LogsWithin (headers logged : HttpHeaderCollection) (version : HttpVersion)
    (ps : List Ptr) : Prop where
  size : 0 ≤ logSize headers version ∧ logSize headers version < 2 ^ 31
  buffer : ∀ buf, ∃ b, httpLogBuffer headers version buf = some b ∧
    b.Holds headers logged version ps
  values : logged.header = headers.header
  complete : ∀ p ∈ ps, NUL ∉ (headers.header p).value → headers.line p =
    (httpHeaderField (headers.headerTree.node p).key).str ++ bytes ": " ++
      (headers.header p).value ++ [CR, LF]

theorem Loggable.within {headers : HttpHeaderCollection} {ps : List Ptr} (h : Loggable headers ps)
    (version : HttpVersion) : LogsWithin headers (logHeaders headers version) version ps := by
  have hsize := logSize_bounds h.sized version
  refine ⟨by omega, httpLogBuffer_fits h.listed h.sized h.cursor version, ?_, ?_⟩
  · rcases headers.tree with ⟨v, hv⟩
    exact (httpHeaderToStr_represents hv _).2.1
  · intro p _ hnul
    rw [HttpHeaderCollection.line, headerLine, cstr_eq_self hnul]

/-- **Logging** a request or a response stays inside of the buffer, and the response is sent as
    if it had not been logged. -/
theorem httpLog_neutral (req : HttpRequest) (res : HttpResponse) {ps qs : List Ptr}
    (hreq : Loggable req.headers ps) (hres : Loggable res.headers qs) :
    LogsWithin req.headers (httpRequestLog req).headers req.version ps ∧
      LogsWithin res.headers (httpResponseLog res).headers res.version qs ∧
      ∀ {ρ : Type} (read : Nat → ρ → List UInt8 × ρ) (sizes : List Int) (file : ρ),
        genCalls read (httpResponseLog res) sizes file = genCalls read res sizes file := by
  have hwithin := hres.within res.version
  refine ⟨hreq.within req.version, hwithin, ?_⟩
  intro ρ read sizes file
  obtain ⟨b, -, hb⟩ := hwithin.buffer ⟨List.replicate _ NUL, List.length_replicate⟩
  exact genCalls_alike read sizes _ _ file (httpResponseLog_alike hb hres.cursor)

/-- Two headers in the request and the same two in the response. -/
theorem httpLog_neutral_close :
    LogsWithin hostConnection (logHeaders hostConnection .v1_1) .v1_1 [1, 0] ∧
      LogsWithin hostConnection (logHeaders hostConnection .v1_0) .v1_0 [1, 0] ∧
      ∀ {ρ : Type} (read : Nat → ρ → List UInt8 × ρ) (sizes : List Int) (file : ρ),
        let res : HttpResponse :=
          { httpResponseInit .ok200 with version := .v1_0, headers := hostConnection }
        genCalls read (httpResponseLog res) sizes file = genCalls read res sizes file := by
  rcases hostHeader_view with ⟨-, -, -, -, v, hv, hsound, hlist⟩
  have hlisted := HttpHeaderCollection.listed_of_view hv
  rw [hlist] at hlisted
  have hclose : Loggable hostConnection [1, 0] :=
    ⟨hlisted, fun p hp => (HttpHeaderCollection.sound_of_view hv hsound p hp).sizedAt, rfl⟩
  exact httpLog_neutral
    { httpRequestInit with method := .get, version := .v1_1, headers := hostConnection }
    { httpResponseInit .ok200 with version := .v1_0, headers := hostConnection } hclose hclose

end OServer
