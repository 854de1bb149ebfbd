/-
  OServer/HttpHeaderRound.lean
  ============================
  **What the parser stores can be written and parsed again.**

  A value that the parser stores begins and ends with a byte that is no separator, so
  the line that `http_header_to_str` writes for it is read as the same field and the
  same value.

    * `Produced.kept`      — what is stored after any calls of the parser;
    * `httpHeaderLen_eq`   — `http_header_len` is the length of the text;
    * `httpHeader_again`   — parsing the text gives the same collection.
-/
import OServer.HttpHeaderBlock
import OServer.HttpHeaderStr

namespace OServer

open CString

/-! ## 1. What the parser stores -/

/-- A value as the parser stores it. -/
structure HttpHeader.Kept (h : HttpHeader) : Prop where
  line : LF ∉ h.value
  first : ∃ d m, h.value = d :: m ∧ isSeparator d = false
  last : ∃ m d, h.value = m ++ [d] ∧ isSeparator d = false
  len : h.len = Int16.ofInt h.value.length

/-- The collections that calls of `http_header_parse` produce. -/
inductive Produced : HttpHeaderCollection → Prop where
  | init : Produced httpHeaderInit
  | parse {headers : HttpHeaderCollection} (h : Produced headers) (buf : List UInt8) :
      Produced (httpHeaderParse headers buf).headers

namespace HttpHeaderCollection

/-- The cursor is at the root, and the nodes hold fields of the table. -/
structure Kept (headers : HttpHeaderCollection) : Prop where
  cursor : headers.traversePtr = headers.headerTree.root
  node : ∀ p, headers.headerTree.Linked p →
    InTable (headers.headerTree.node p).key ∧ (headers.header p).Kept

theorem kept_init : httpHeaderInit.Kept :=
  ⟨rfl, fun p hp => absurd hp (Btree.not_linked_init _ p)⟩

variable {headers : HttpHeaderCollection}

theorem Kept.addById (h : headers.Kept) {id : BtKey} (hid : InTable id) {v rest : List UInt8}
    (hv : HttpHeader.Kept ⟨v, Int16.ofInt v.length⟩) (hvalue : peek (v ++ rest) ≠ NUL) :
    (httpHeaderAddById headers id (v ++ rest) v.length).2.Kept := by
  rcases exists_maps headers with ⟨m, hm⟩
  rcases headers.tree with ⟨view, hview⟩
  rcases httpHeaderAddById_view hview id v.length hvalue with ⟨-, -, -, hcursor⟩
  refine ⟨hcursor, ?_⟩
  intro p hp
  have htake : (v ++ rest).take (v.length : Int).toNat = v := List.take_left
  have hmaps := hm.add id v.length hvalue
  rw [htake] at hmaps
  have hstored := (hmaps _ _).mpr ⟨p, hp, rfl, rfl⟩
  rw [addFirst_apply, Option.or_eq_some_iff] at hstored
  rcases hstored with hold | ⟨-, hnew⟩
  · rcases (hm _ _).mp hold with ⟨q, hq, hkey, hval⟩
    rw [← hkey, ← hval]
    exact h.node q hq
  · split at hnew
    next heq =>
      rw [heq, ← Option.some.inj hnew]
      exact ⟨hid, hv⟩
    next => cases hnew

theorem Kept.add (h : headers.Kept) (name : List UInt8) (ln : Int) {v : List UInt8}
    (rest : List UInt8) (hv : HttpHeader.Kept ⟨v, Int16.ofInt v.length⟩) :
    (httpHeaderAdd headers name ln (v ++ rest) v.length).2.Kept := by
  unfold httpHeaderAdd
  split
  next => exact h
  next hpeek =>
    split
    next => exact h
    next i hi =>
      have hlt : i < httpHeaderFields.length := (httpHeaderBinaryNSearch_some_iff.mp hi).1
      exact h.addById (inTable_ofNat hlt).1 hv fun hnul => hpeek (Or.inr hnul)

/-- The slice of a line that is taken for a value. -/
theorem kept_of_trimmed {t a v b : List UInt8} (h : Trimmed t a v b) (ht : LF ∉ t) :
    HttpHeader.Kept ⟨v, Int16.ofInt v.length⟩ := by
  refine ⟨fun hmem => ht ?_, h.first, h.last, rfl⟩
  rw [h.split]
  exact List.mem_append_left b (List.mem_append_right a hmem)

/-- One call of the parser. -/
theorem Kept.parse {headers : HttpHeaderCollection} (h : headers.Kept) (buf : List UInt8) :
    (httpHeaderParse headers buf).headers.Kept := by
  by_cases hbuf : LF ∈ buf
  swap
  · rw [httpHeaderParse_unfinished hbuf]
    cases scanLine buf [] (.start NUL) <;> exact h
  rcases List.eq_append_cons_of_mem hbuf with ⟨w, rest, hsplit, hw⟩
  have hline := httpHeaderParse_line hw rest headers
  have hfield : ∀ {name v u : List UInt8} {ln : Int},
      lineEndAt w [LF] = .field name ln (v ++ u) v.length →
      HttpHeader.Kept ⟨v, Int16.ofInt v.length⟩ →
      (httpHeaderParse headers (w ++ LF :: rest)).headers.Kept := by
    intro name v u ln hresult hv
    have hresult' : lineResult w = .field name ln (v ++ u) v.length := hresult
    rw [hresult'] at hline
    rw [hline]
    exact (h.add name ln u hv).parse rest
  rw [hsplit]
  rcases lineShape w with hbad | ⟨hsep, hcr⟩ | ⟨hn, hv, hcr⟩ | ⟨hc, hv, hcr⟩
  · have hresult : lineResult w = .bad := hbad [LF]
    rw [hline, hresult]
    exact h
  · have hresult : lineResult w = .blank := lineEndAt_blank [LF] hsep hcr
    rw [hline, hresult]
    exact h
  · have hresult := lineEndAt_named [LF] hn hv hcr
    rw [List.append_assoc] at hresult
    refine hfield hresult (kept_of_trimmed hv fun hmem => hw ?_)
    rw [hn.split]
    simp [hmem]
  · have hresult := lineEndAt_colon [LF] hc hv hcr
    rw [List.append_assoc] at hresult
    refine hfield hresult (kept_of_trimmed hv fun hmem => hw ?_)
    rw [hc.split]
    simp [hmem]
termination_by buf.length
decreasing_by
  rw [hsplit]
  simp
  omega

end HttpHeaderCollection

theorem Produced.kept {headers : HttpHeaderCollection} (h : Produced headers) : headers.Kept := by
  induction h with
  | init => exact HttpHeaderCollection.kept_init
  | parse _ buf ih => exact ih.parse buf

/-! ## 2. The text of a collection -/

/-- The names of the table are read as they are. -/
theorem httpHeaderFields_plain :
    ∀ f ∈ httpHeaderFields, ∀ b ∈ f.str, isSeparator b = false ∧ b ≠ LF := by
  decide +kernel

section Text
variable {key : Ptr → BtKey} {header : Ptr → HttpHeader}

/-- The line of a node, as the parser reads it. -/
def nodeLine (key : Ptr → BtKey) (header : Ptr → HttpHeader) (p : Ptr) : HeaderLine :=
  ⟨(httpHeaderField (key p)).str ++ bytes ": " ++ cstr (header p).value ++ [CR],
    (httpHeaderField (key p)).str, (header p).value⟩

theorem blockText_nodes (ps : List Ptr) :
    blockText (ps.map (nodeLine key header)) = headerLines key header ps ++ [CR, LF] := by
  rw [blockText, List.flatMap_map, headerLines]
  congr 1
  apply List.flatMap_congr
  intro p _
  simp [nodeLine, headerLine]

/-- A written line is read. -/
theorem nodeLine_read {p : Ptr} (hp : SoundAt key header p) (hkept : (header p).Kept) :
    (nodeLine key header p).Read := by
  have hmem := httpHeaderField_mem hp.1
  have hplain := httpHeaderFields_plain _ hmem
  have hname := httpHeaderFields_hashes.2 _ hmem
  have hvalue : cstr (header p).value = (header p).value := cstr_eq_self hp.2.noNul
  have hsplit : (nodeLine key header p).text = (httpHeaderField (key p)).str ++
      ':'.toUInt8 :: ([SP] ++ (header p).value ++ [CR]) := by
    rw [nodeLine, hvalue]
    simp [bytes]
    decide
  have hnamed : Named (nodeLine key header p).text [] (httpHeaderField (key p)).str []
      ([SP] ++ (header p).value ++ [CR]) := by
    refine ⟨hsplit, fun b hb => absurd hb List.not_mem_nil, ?_, ?_, Or.inl rfl⟩
    · rcases List.exists_cons_of_ne_nil hname.1 with ⟨d, m, hd⟩
      exact ⟨d, m, hd, (hplain d (by rw [hd]; exact List.mem_cons_self)).1⟩
    · intro b hb
      exact (text_ne (hplain b hb).1).2
  refine ⟨?_, ?_, ⟨[], [], _, [SP], [CR], hnamed, rfl, rfl, rfl, hkept.first, hkept.last⟩, hname.2.1,
    hp.2.noNul⟩
  · rw [hsplit]
    intro hlf
    rcases List.mem_append.mp hlf with hlf | hlf
    · exact (hplain _ hlf).2 rfl
    · simp only [List.mem_cons, List.mem_append, List.not_mem_nil, or_false] at hlf
      rcases hlf with h | (h | h) | h
      · exact absurd h (by decide)
      · exact absurd h (by decide)
      · exact hkept.line h
      · exact absurd h (by decide)
  · rw [nodeLine]
    exact List.getLast?_concat

/-- A written line names the field of its node. -/
theorem nodeLine_names_iff {p : Ptr} (hp : InTable (key p)) {id : BtKey} :
    (nodeLine key header p).Names id ↔ key p = id := by
  constructor
  · intro h
    exact h.2.field_inj hp h.1
  · intro h
    rw [← h]
    exact ⟨hp, rfl⟩

end Text

section Again
variable {headers : HttpHeaderCollection} {v : BtreeView}

/-- `http_header_len` is the length of the lines and the blank line. -/
theorem httpHeaderLen_eq (hv : headers.headerTree.Represents v) (hsound : SoundView headers v) :
    httpHeaderLen headers = (headerLines v.key headers.header v.tree.toList).length + 2 := by
  rw [httpHeaderLen_declared hv, declaredLength_sound hsound]

/-- The value that the written lines give a field. -/
theorem firstValue_nodes (hv : headers.headerTree.Represents v) (hsound : SoundView headers v) :
    headers.Maps (firstValue (v.tree.toList.map (nodeLine v.key headers.header))) := by
  have hstored : ∀ p ∈ v.tree.toList,
      storedHeader (headers.header p).value = headers.header p := by
    intro p hp
    have hlen : (headers.header p).len = Int16.ofInt (headers.header p).value.length := by
      rw [Int16.ofInt_eq_ofNat]
      exact (hsound p hp).2.len
    rw [storedHeader, ← hlen]
  -- a field id is found at the node that holds it
  have hfind : ∀ id p, v.tree.toList.find? (fun p => decide
      ((nodeLine v.key headers.header p).Names id)) = some p ↔
        p ∈ v.tree.toList ∧ v.key p = id := by
    intro id p
    have hnames : ∀ q ∈ v.tree.toList,
        (nodeLine v.key headers.header q).Names id ↔ v.key q = id :=
      fun q hq => nodeLine_names_iff (hsound q hq).1
    constructor
    · intro h
      have hmem := List.mem_of_find?_eq_some h
      have hdec := List.find?_some h
      exact ⟨hmem, (hnames p hmem).mp (of_decide_eq_true hdec)⟩
    · rintro ⟨hmem, hkey⟩
      cases hq : v.tree.toList.find? (fun p => decide
          ((nodeLine v.key headers.header p).Names id)) with
      | none =>
        have hnot := List.find?_eq_none.mp hq p hmem
        exact absurd (decide_eq_true ((hnames p hmem).mpr hkey)) hnot
      | some q =>
        have hqmem := List.mem_of_find?_eq_some hq
        have hdec := List.find?_some hq
        have hqkey := (hnames q hqmem).mp (of_decide_eq_true hdec)
        have hfirst := (Avl.AvlTree.find_eq_some_iff v.key v.ordered id q).mpr ⟨hqmem, hqkey⟩
        have hsecond := (Avl.AvlTree.find_eq_some_iff v.key v.ordered id p).mpr ⟨hmem, hkey⟩
        exact hfirst.symm.trans hsecond
  rw [HttpHeaderCollection.maps_view_iff hv]
  intro id h
  rw [firstValue, List.find?_map, Option.map_map, Option.map_eq_some_iff]
  constructor
  · rintro ⟨p, hp, hh⟩
    rcases (hfind id p).mp hp with ⟨hmem, hkey⟩
    exact ⟨p, hmem, hkey, (hstored p hmem).symm.trans hh⟩
  · rintro ⟨p, hmem, hkey, hh⟩
    exact ⟨p, (hfind id p).mpr ⟨hmem, hkey⟩, (hstored p hmem).trans hh⟩

/-- **Writing and parsing again.**  The text of a collection that the parser produced, with values
    that hold no `NUL` and are less than 32768 bytes long, is parsed to its end and gives the same
    fields and values. -/
theorem httpHeader_again (hproduced : Produced headers)
    (hvalues : ∀ p, headers.headerTree.Linked p →
      NUL ∉ (headers.header p).value ∧ (headers.header p).value.length < 32768)
    {size : Int} (hsize : httpHeaderLen headers ≤ size) :
    let text := (httpHeaderToStr headers size).str
    let again := httpHeaderParse httpHeaderInit text
    (httpHeaderToStr headers size).isEnd = true ∧
      (httpHeaderToStr headers size).ret = httpHeaderLen headers ∧
      again.ret = 0 ∧ again.isEnd = true ∧ (again.rdlen : Int) = httpHeaderLen headers ∧
      ∀ m, headers.Maps m ↔ again.headers.Maps m := by
  intro text again
  have hkept := hproduced.kept
  rcases headers.tree with ⟨v, hv⟩
  have hsound : SoundView headers v := by
    intro p hp
    have hlinked := hv.linked_iff.mpr hp
    rcases hkept.node p hlinked with ⟨hid, hheader⟩
    rcases hvalues p hlinked with ⟨hnul, hshort⟩
    refine ⟨hv.key p ▸ hid, hnul, hshort, ?_⟩
    rw [hheader.len, Int16.ofInt_eq_ofNat]
  have hlen := httpHeaderLen_eq hv hsound
  rcases httpHeaderToStr_fits hv hsound hkept.cursor (hlen ▸ hsize) with ⟨hstr, hend, hret, -⟩
  have hread : ∀ l ∈ v.tree.toList.map (nodeLine v.key headers.header), l.Read := by
    intro l hl
    rcases List.mem_map.mp hl with ⟨p, hp, rfl⟩
    exact nodeLine_read (hsound p hp) (hkept.node p (hv.linked_iff.mpr hp)).2
  rcases httpHeaderParse_lines _ hread HttpHeaderCollection.maps_init with ⟨headers', hrun, hmaps⟩
  rw [blockText_nodes] at hrun
  have hagain : again = ⟨0, (headerLines v.key headers.header v.tree.toList ++ [CR, LF]).length,
      true, headers'⟩ := by
    rw [← hrun, ← hstr]
  have hfirst := firstValue_nodes hv hsound
  rw [hagain, hlen]
  refine ⟨hend, hret, rfl, rfl, by simp, ?_⟩
  intro m
  constructor
  · intro h
    rw [h.unique hfirst]
    exact hmaps
  · intro h
    rw [h.unique hmaps]
    exact hfirst

end Again

/-- The first value of a field is the value of a line. -/
theorem firstValue_mem {ls : List HeaderLine} {id : BtKey} {h : HttpHeader}
    (hval : firstValue ls id = some h) : ∃ l ∈ ls, h = storedHeader l.value := by
  obtain ⟨l, hfind, rfl⟩ := Option.map_eq_some_iff.mp hval
  exact ⟨l, List.mem_of_find?_eq_some hfind, rfl⟩

/-- Two fields on three lines, the names in another case than in the table. -/
def closeLine : BlockLine :=
  ⟨bytes "connection", 2, bytes "close", 1, by decide, by decide, by decide,
    by decide, by decide, by decide, by decide⟩

def portLine : BlockLine :=
  ⟨bytes "HOST", 0, bytes "b", 0, by decide, by decide, by decide,
    by decide, by decide, by decide, by decide⟩

def threeLines : List HeaderLine := [hostLine, closeLine, portLine].map BlockLine.line

/-- What the parser makes of them. -/
def parsedThree : HttpHeaderCollection :=
  (httpHeaderParse httpHeaderInit (blockText threeLines)).headers

theorem parsedThree_maps : parsedThree.Maps (firstValue threeLines) := by
  have hall : ∀ l ∈ [hostLine, closeLine, portLine], l.value.all isSeparator = false := by decide
  have hread : ∀ l ∈ threeLines, l.Read := by
    intro l hl
    obtain ⟨b, hb, rfl⟩ := List.mem_map.mp hl
    exact b.line_read (hall b hb)
  rcases httpHeaderParse_lines _ hread HttpHeaderCollection.maps_init with ⟨headers', hrun, hmaps⟩
  rw [parsedThree, hrun]
  exact hmaps

theorem parsedThree_values {p : Ptr} (hp : parsedThree.headerTree.Linked p) :
    NUL ∉ (parsedThree.header p).value ∧ (parsedThree.header p).value.length < 32768 := by
  have hlines : ∀ l ∈ threeLines, NUL ∉ l.value ∧ l.value.length < 32768 := by decide
  obtain ⟨l, hl, hval⟩ := firstValue_mem ((parsedThree_maps _ _).mpr ⟨p, hp, rfl, rfl⟩)
  rw [hval]
  exact hlines l hl

/-- Two fields, written into a buffer without a byte to spare. -/
theorem httpHeader_again_three :
    let text := (httpHeaderToStr parsedThree (httpHeaderLen parsedThree)).str
    let again := httpHeaderParse httpHeaderInit text
    again.ret = 0 ∧ again.isEnd = true ∧ (again.rdlen : Int) = httpHeaderLen parsedThree ∧
      again.headers.Maps (firstValue [hostLine.line, closeLine.line]) := by
  have hproduced : Produced parsedThree := by
    rw [parsedThree]
    exact .parse .init (blockText threeLines)
  have hvalue : firstValue threeLines = firstValue [hostLine.line, closeLine.line] := by
    funext id
    have hsame : hostLine.name.map tolower = portLine.name.map tolower := by decide
    have hport : portLine.line.Names id → hostLine.line.Names id :=
      fun h => ⟨h.1, hsame.trans h.2⟩
    simp only [threeLines, firstValue, List.map_cons, List.map_nil, List.find?_cons]
    split
    next => rfl
    next hhost =>
      have hno : decide (portLine.line.Names id) = false :=
        decide_eq_false fun h => of_decide_eq_false hhost (hport h)
      rw [hno]
  rcases httpHeader_again hproduced (fun p hp => parsedThree_values hp) le_rfl with
    ⟨-, -, hret, hend, hrdlen, hmaps⟩
  exact ⟨hret, hend, hrdlen, (hmaps _).mp (hvalue ▸ parsedThree_maps)⟩

end OServer
