/-
  OServer/HttpHeader.lean
  =======================
  **Header collections and the header parser (`http_header.c`).**

  A collection is the threaded tree of its nodes, ordered by field id, together with
  what each node stores behind its tree entry.  The structure carries the proof that
  the memory holds a tree and that the cursor is in it, so that an insertion or a
  traversal cannot fail.
-/
import OServer.BtreeRuns
import OServer.Lib.CString

namespace OServer

open CString

/-! ## 1. The table of fields -/

structure HttpHeaderField where
  str : List UInt8
  len : Int
deriving DecidableEq, Repr

/-- `http_header_fields[]`; the position of an entry is its id. -/
def httpHeaderFields : List HttpHeaderField :=
  List.map (fun f => ⟨bytes f.1, f.2⟩)
  [("Accept", 6), ("Accept-Charset", 14), ("Accept-Encoding", 15), ("Accept-Language", 15),
    ("Accept-Ranges", 13), ("Access-Control-Allow-Credentials", 32),
    ("Access-Control-Allow-Headers", 28), ("Access-Control-Allow-Methods", 28),
    ("Access-Control-Allow-Origin", 27), ("Access-Control-Expose-Headers", 29),
    ("Access-Control-Max-Age", 22), ("Access-Control-Request-Headers", 30),
    ("Access-Control-Request-Method", 29), ("Age", 3), ("Allow", 5), ("Alt-Svc", 7),
    ("Authorization", 13), ("Cache-Control", 13), ("Clear-Site-Data", 15), ("Connection", 10),
    ("Content-Disposition", 19), ("Content-Encoding", 16), ("Content-Language", 16),
    ("Content-Length", 14), ("Content-Location", 16), ("Content-Range", 13),
    ("Content-Security-Policy", 23), ("Content-Security-Policy-Report-Only", 35),
    ("Content-Type", 12), ("Cookie", 6), ("Cookie2", 7), ("DNT", 3), ("Date", 4), ("ETag", 4),
    ("Early-Data", 10), ("Expect", 6), ("Expect-CT", 9), ("Expires", 7), ("Feature-Policy", 14),
    ("Forwarded", 9), ("From", 4), ("Host", 4), ("If-Match", 8), ("If-Modified-Since", 17),
    ("If-None-Match", 13), ("If-Range", 8), ("If-Unmodified-Since", 19), ("Index", 5),
    ("Keep-Alive", 10), ("Large-Allocation", 16), ("Last-Modified", 13), ("Location", 8),
    ("Origin", 6), ("Pragma", 6), ("Proxy-Authenticate", 18), ("Proxy-Authorization", 19),
    ("Public-Key-Pins", 15), ("Public-Key-Pins-Report-Only", 27), ("Range", 5), ("Referer", 7),
    ("Referrer-Policy", 15), ("Retry-After", 11), ("Sec-WebSocket-Accept", 20), ("Server", 6),
    ("Server-Timing", 13), ("Set-Cookie", 10), ("Set-Cookie2", 11), ("SourceMap", 9),
    ("Strict-Transport-Security", 25), ("TE", 2), ("Timing-Allow-Origin", 19), ("Tk", 2),
    ("Trailer", 7), ("Transfer-Encoding", 17), ("Upgrade-Insecure-Requests", 25),
    ("User-Agent", 10), ("Vary", 4), ("Via", 3), ("WWW-Authenticate", 16), ("Warning", 7),
    ("X-Content-Type-Options", 22), ("X-DNS-Prefetch-Control", 22), ("X-Forwarded-For", 15),
    ("X-Forwarded-Host", 16), ("X-Forwarded-Proto", 17), ("X-Frame-Options", 15),
    ("X-XSS-Protection", 16)]

def httpHeaderField (id : Int16) : HttpHeaderField :=
  (httpHeaderFields[id.toInt.toNat]?).getD ⟨[], 0⟩

/-- The id of an entry of the table. -/
def InTable (id : BtKey) : Prop := 0 ≤ id.toInt ∧ id.toInt.toNat < httpHeaderFields.length

instance inTableDecidable (id : BtKey) : Decidable (InTable id) :=
  inferInstanceAs (Decidable (_ ∧ _))

/-- The table gives the lengths of its names, no name has a colon, and no two are the
    same; one evaluation of the names is enough for the three. -/
theorem httpHeaderFields_names :
    (∀ f ∈ httpHeaderFields, f.len = f.str.length ∧ ':'.toUInt8 ∉ f.str) ∧
      (httpHeaderFields.map HttpHeaderField.str).Nodup := by
  decide +kernel

theorem httpHeaderField_mem {id : BtKey} (h : InTable id) :
    httpHeaderField id ∈ httpHeaderFields := by
  rw [httpHeaderField, List.getElem?_eq_getElem h.2]
  exact List.getElem_mem h.2

/-- The name determines the id. -/
theorem httpHeaderField_inj {id id' : BtKey} (h : InTable id) (h' : InTable id')
    (heq : (httpHeaderField id).str = (httpHeaderField id').str) : id = id' := by
  have hstr : ∀ {id : BtKey}, InTable id →
      (httpHeaderFields.map HttpHeaderField.str)[id.toInt.toNat]? =
        some (httpHeaderField id).str := by
    intro id h
    rw [httpHeaderField, List.getElem?_eq_getElem h.2, List.getElem?_map,
      List.getElem?_eq_getElem h.2]
    rfl
  have hlt : id.toInt.toNat < (httpHeaderFields.map HttpHeaderField.str).length := by
    rw [List.length_map]
    exact h.2
  have hidx := (List.getElem?_inj hlt httpHeaderFields_names.2).mp
    ((hstr h).trans ((congrArg some heq).trans (hstr h').symm))
  have hint : id.toInt = id'.toInt := by
    have h0 := h.1
    have h0' := h'.1
    omega
  exact Int16.toInt.inj hint

/-- `tolower(*p)` of a signed `char`: the table of the C library has the bytes from `0x80` on as
    they are, but for `0xFF`, which is `EOF`. -/
def tolowerChar (b : UInt8) : Int16 :=
  if tolower b = 0xFF then -1 else Int16.ofNat (tolower b).toNat

/-- One step of the hash. -/
def hashByte (hash : Int16) (b : UInt8) : Int16 :=
  (hash ^^^ (tolowerChar b - (0x30 : Int16))) + (tolowerChar b <<< (8 : Int16))

/-- `http_header_n_hash`; a negative length is no iteration. -/
def httpHeaderNHash (bin : List UInt8) (len : Int) : Int16 :=
  (bin.take len.toNat).foldl hashByte 0

/-- The inner loop of the bubble sort, over the first `i` neighbours. -/
def bubblePass (hash : Nat → Int16) : Nat → List Nat → List Nat
  | i + 1, a :: b :: rest =>
      if hash b < hash a then b :: bubblePass hash i (a :: rest)
      else a :: bubblePass hash i (b :: rest)
  | _, l => l

def bubbleSort (hash : Nat → Int16) : Nat → List Nat → List Nat
  | 0, l => l
  | i + 1, l => bubbleSort hash i (bubblePass hash (i + 1) l)

/-- The hash stored with the entry `i`, `http_header_hash` of its name. -/
def fieldHash (i : Nat) : Int16 :=
  match httpHeaderFields[i]? with
  | none => 0
  | some f => f.str.foldl hashByte 0

/-- `http_header_fields_index[]` after `http_header_hash_all_fields`. -/
def httpHeaderFieldsIndex : List Nat :=
  bubbleSort fieldHash (httpHeaderFields.length - 1) (List.range httpHeaderFields.length)

/-- The loop of the binary search; a common hash is checked by `same`.  The answer is `none` for
    `-1`; when the rounds are used up there is no answer. -/
def searchLoop (hash : Int16) (same : Nat → Bool) : Nat → Int → Int → Option (Option Nat)
  | 0, low, high => if high < low then some none else none
  | rounds + 1, low, high =>
      if high < low then some none
      else
        let mid := (low + high) / 2
        let i := httpHeaderFieldsIndex.getD mid.toNat 0
        if hash = fieldHash i then some (if same i then some i else none)
        else if hash < fieldHash i then searchLoop hash same rounds low (mid - 1)
        else searchLoop hash same rounds (mid + 1) high

/-- `http_header_binary_n_search`; `none` for `-1`.  The rounds are enough (`searchLoop_ends`). -/
def httpHeaderBinaryNSearch (target : List UInt8) (len : Int) : Option Nat :=
  (searchLoop (httpHeaderNHash target len)
    (fun i => strncasecmpEq target (httpHeaderField (Int16.ofNat i)).str len.toNat)
    (httpHeaderFields.length + 1) 0 (httpHeaderFields.length - 1)).getD none

/-! ## 2. Collections -/

/-- What a node of type `http_header_t` stores behind its tree entry; `value` is
    followed by a `NUL`. -/
structure HttpHeader where
  value : List UInt8
  len : Int16
deriving DecidableEq, Repr, Inhabited

structure HttpHeaderCollection where
  headerTree : Btree
  header : Ptr → HttpHeader
  traversePtr : Option Ptr
  tree : ∃ v, headerTree.Represents v
  cursor : ∀ p, traversePtr = some p → headerTree.Linked p

/-- `http_header_init`, over memory that nothing is in yet. -/
def httpHeaderInit : HttpHeaderCollection where
  headerTree := btreeInit ⟨none, fun _ => default, 0⟩
  header := fun _ => default
  traversePtr := none
  tree := ⟨_, Btree.represents_init _⟩
  cursor := fun _ h => nomatch h

/-- `http_header_destroy`: the memory of the nodes is given back. -/
def httpHeaderDestroy (_ : HttpHeaderCollection) : HttpHeaderCollection := httpHeaderInit

/-- A new node, at an address not in use, is offered to the tree. -/
theorem btreeInsert_new {t : Btree} (ht : ∃ v, t.Represents v) (e : BtNodeEntry) :
    ∃ t' ret, btreeInsert (t.supply t.brk e) t.brk = some (t', ret) ∧ ∃ v, t'.Represents v := by
  rcases ht with ⟨v, hv⟩
  have hp : t.brk ∉ v.tree.toList := fun h => lt_irrefl _ (hv.bound _ h)
  rcases btreeInsert_represents hv e hp with ⟨t', hrun, hv', -⟩
  exact ⟨t', _, hrun, _, hv'⟩

theorem btreeInsert_new_isSome {t : Btree} (ht : ∃ v, t.Represents v) (e : BtNodeEntry) :
    (btreeInsert (t.supply t.brk e) t.brk).isSome := by
  rcases btreeInsert_new ht e with ⟨t', ret, hrun, -⟩
  rw [hrun]
  rfl

/-- The tree after `btree_insert` of a new node. -/
def insertNew (t : Btree) (ht : ∃ v, t.Represents v) (e : BtNodeEntry) : Btree :=
  ((btreeInsert (t.supply t.brk e) t.brk).get (btreeInsert_new_isSome ht e)).1

theorem insertNew_represents {t : Btree} (ht : ∃ v, t.Represents v) (e : BtNodeEntry) :
    ∃ v, (insertNew t ht e).Represents v := by
  rcases btreeInsert_new ht e with ⟨t', ret, hrun, hv⟩
  have heq : insertNew t ht e = t' := by simp [insertNew, hrun]
  rwa [heq]

/-- `http_header_add_by_id`.  The node is not linked in when the id is present, and
    nobody keeps its address. -/
def httpHeaderAddById (headers : HttpHeaderCollection) (id : Int16) (value : List UInt8)
    (lv : Int) : Int × HttpHeaderCollection :=
  if peek value = NUL then (-1, headers)
  else
    let t := insertNew headers.headerTree headers.tree { (default : BtNodeEntry) with key := id }
    (0, { headerTree := t
          header := Function.update headers.header headers.headerTree.brk
            ⟨value.take lv.toNat, Int16.ofInt lv⟩
          traversePtr := t.root
          tree := insertNew_represents headers.tree _
          cursor := fun p h => by
            change t.Reaches t.root p
            rw [h]
            exact .here p })

def httpHeaderAdd (headers : HttpHeaderCollection) (name : List UInt8) (ln : Int)
    (value : List UInt8) (lv : Int) : Int × HttpHeaderCollection :=
  if peek name = NUL ∨ peek value = NUL then (-1, headers)
  else
    match httpHeaderBinaryNSearch name ln with
    | none => (-1, headers)
    | some id => httpHeaderAddById headers (Int16.ofNat id) value lv

/-- An address that is not in use is not in the tree. -/
theorem brk_not_mem {t : Btree} {v : BtreeView} (hv : t.Represents v) : t.brk ∉ v.tree.toList :=
  fun h => lt_irrefl _ (hv.bound _ h)

theorem insertNew_view {t : Btree} {v : BtreeView} (ht : ∃ v, t.Represents v)
    (hv : t.Represents v) (e : BtNodeEntry) :
    (insertNew t ht e).Represents (v.insert t.brk e.key (brk_not_mem hv)) := by
  rcases btreeInsert_represents hv e (brk_not_mem hv) with ⟨t', hrun, hv', -⟩
  have heq : insertNew t ht e = t' := by simp [insertNew, hrun]
  rwa [heq]

/-- `http_header_add_by_id` of a value that is not empty. -/
theorem httpHeaderAddById_view {headers : HttpHeaderCollection} {v : BtreeView}
    (hv : headers.headerTree.Represents v) (id : Int16) {value : List UInt8} (lv : Int)
    (hvalue : peek value ≠ NUL) :
    (httpHeaderAddById headers id value lv).1 = 0 ∧
      (httpHeaderAddById headers id value lv).2.headerTree.Represents
        (v.insert headers.headerTree.brk id (brk_not_mem hv)) ∧
      (httpHeaderAddById headers id value lv).2.header = Function.update headers.header
        headers.headerTree.brk ⟨value.take lv.toNat, Int16.ofInt lv⟩ ∧
      (httpHeaderAddById headers id value lv).2.traversePtr =
        (httpHeaderAddById headers id value lv).2.headerTree.root := by
  simp only [httpHeaderAddById, if_neg hvalue]
  exact ⟨trivial, insertNew_view headers.tree hv _, trivial, trivial⟩

/-- The addresses in use, with the one of the new node. -/
theorem httpHeaderAddById_brk (headers : HttpHeaderCollection) (id : Int16) {value : List UInt8}
    (lv : Int) (hvalue : peek value ≠ NUL) :
    (httpHeaderAddById headers id value lv).2.headerTree.brk = headers.headerTree.brk + 1 := by
  rcases headers.tree with ⟨v, hv⟩
  rcases btreeInsert_represents hv { (default : BtNodeEntry) with key := id } (brk_not_mem hv) with
    ⟨t, hrun, -, hbrk, -⟩
  simp only [httpHeaderAddById, if_neg hvalue, insertNew, hrun, Option.get_some, hbrk]
  exact max_eq_right (Nat.le_succ _)

/-! ## 3. The parser -/

/-- The pointers of `http_header_parse` into the line it is in, and the byte before. -/
structure HeaderScan where
  s : Option (List UInt8)
  e : Option (List UInt8)
  ne : Option (List UInt8)
  c : Option (List UInt8)
  vs : Option (List UInt8)
  pre : UInt8
deriving DecidableEq, Repr

/-- The pointers at the start of a line. -/
def HeaderScan.start (pre : UInt8) : HeaderScan := ⟨none, none, none, none, none, pre⟩

/-- The `switch` for a byte other than `'\n'`; `cur` is `&buf[j]`.  `none` is the
    `return -1`. -/
def scanByte (cur : List UInt8) (st : HeaderScan) : Option HeaderScan :=
  if peek cur = CR then some st
  else if peek cur = SP then
    if st.s.isSome ∧ st.c.isNone ∧ st.ne.isNone then some { st with ne := some cur }
    else some st
  else if peek cur = ':'.toUInt8 then
    if st.c.isNone then
      some { st with c := some cur, ne := if st.ne.isNone then some cur else st.ne }
    else some st
  else if st.ne.isSome ∧ st.c.isNone then none
  else if st.s.isNone then some { st with s := some cur }
  else if st.c.isSome ∧ st.vs.isNone then some { st with vs := some cur, e := some cur }
  else if st.vs.isSome then some { st with e := some cur }
  else some st

/-- What happens at a `'\n'`. -/
inductive LineEnd where
  | bad
  | blank
  | field (name : List UInt8) (ln : Int) (value : List UInt8) (lv : Int)
deriving DecidableEq, Repr

/-- The case `'\n'`: the slices handed to `http_header_add` are `s` to `ne` and `vs`
    to one behind `e`. -/
def lineEnd (st : HeaderScan) : LineEnd :=
  if st.pre ≠ CR then .bad
  else
    match st.s, st.vs, st.e, st.ne with
    | none, _, _, _ => .blank
    | some s, some vs, some e, some ne =>
        .field s ((s.length : Int) - ne.length) vs ((vs.length : Int) - e.tail.length)
    | some _, _, _, _ => .bad

structure HeaderParse where
  ret : Int
  rdlen : Nat
  isEnd : Bool
  headers : HttpHeaderCollection

/-- The loop of `http_header_parse` at index `j`, with the bytes from there on. -/
def headerLoop : List UInt8 → HeaderScan → HttpHeaderCollection → Nat → Nat → HeaderParse
  | [], _, headers, rdlen, _ => ⟨0, rdlen, false, headers⟩
  | b :: rest, st, headers, rdlen, j =>
      if b = LF then
        match lineEnd st with
        | .bad => ⟨-1, rdlen, false, headers⟩
        | .blank => ⟨0, j + 1, true, headers⟩
        | .field name ln value lv =>
            headerLoop rest (.start LF) (httpHeaderAdd headers name ln value lv).2 (j + 1) (j + 1)
      else
        match scanByte (b :: rest) st with
        | none => ⟨-1, rdlen, false, headers⟩
        | some st => headerLoop rest { st with pre := b } headers rdlen (j + 1)

def httpHeaderParse (headers : HttpHeaderCollection) (buf : List UInt8) : HeaderParse :=
  headerLoop buf (.start NUL) headers 0 0

end OServer
