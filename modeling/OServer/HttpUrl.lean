/-
  OServer/HttpUrl.lean
  ====================
  **The target of a request line (`http_url.c`).**

  The parser copies the target into the `url` array of the structure; all other
  pointers of the structure point into that array and are modelled as offsets.
-/
import OServer.Lib.CString

namespace OServer

open CString

/-! ## 1. Data -/

structure HttpUrlQueryItem where
  name : Nat
  nameLen : Int
  value : Nat
  valueLen : Int
deriving DecidableEq, Repr

structure HttpUrlQueryInfo where
  queryList : List HttpUrlQueryItem
  data : Option Nat
  dataLen : Nat
deriving DecidableEq, Repr

structure HttpUrlPathSeg where
  data : Nat
  dataLen : Nat
deriving DecidableEq, Repr

/-- The stack is listed from the bottom to the top, which is the order in which
    `list_traverse` visits it. -/
structure HttpUrlPathInfo where
  pathStack : List HttpUrlPathSeg
  data : Option Nat
  dataLen : Nat
deriving DecidableEq, Repr

/-- `http_url_t`; its `port` is never used. -/
structure HttpUrl where
  host : Option Nat
  hostLen : Int
  path : HttpUrlPathInfo
  query : HttpUrlQueryInfo
  url : List UInt8
deriving DecidableEq, Repr

/-- `sizeof(url->url)`. -/
def urlSize : Nat := 1024

def httpUrlInit : HttpUrl where
  host := none
  hostLen := 0
  path := ⟨[], none, 0⟩
  query := ⟨[], none, 0⟩
  url := List.replicate urlSize NUL

/-! ## 2. Character classes -/

def printableBit : UInt8 := 1
def alBit : UInt8 := 2
def digitBit : UInt8 := 4
def hexBit : UInt8 := 8
def upperCaseBit : UInt8 := 16
def lowerCaseBit : UInt8 := 32
def pathBit : UInt8 := 64

/-- The table `http_ascii[]`. -/
def httpAscii (c : UInt8) : UInt8 :=
  if c < 32 ∨ 127 ≤ c then 0
  else if '0'.toUInt8 ≤ c ∧ c ≤ '9'.toUInt8 then printableBit ||| digitBit ||| hexBit ||| pathBit
  else if 'A'.toUInt8 ≤ c ∧ c ≤ 'F'.toUInt8 then
    printableBit ||| upperCaseBit ||| alBit ||| pathBit ||| hexBit
  else if 'G'.toUInt8 ≤ c ∧ c ≤ 'Z'.toUInt8 then
    printableBit ||| upperCaseBit ||| alBit ||| pathBit
  else if 'a'.toUInt8 ≤ c ∧ c ≤ 'f'.toUInt8 then
    printableBit ||| lowerCaseBit ||| alBit ||| pathBit ||| hexBit
  else if 'g'.toUInt8 ≤ c ∧ c ≤ 'z'.toUInt8 then
    printableBit ||| lowerCaseBit ||| alBit ||| pathBit
  else if c = '-'.toUInt8 ∨ c = '.'.toUInt8 ∨ c = '/'.toUInt8 ∨ c = '_'.toUInt8 then
    printableBit ||| pathBit
  else printableBit

def isPath (c : UInt8) : Bool := httpAscii c &&& pathBit ≠ 0

/-! ## 3. Path -/

/-- The end of a segment of `segLen` bytes at offset `seg` of the path `p`, whose first
    byte has the offset `base` in the array; `none` when `../` finds nothing to remove. -/
def pathSegment (p : List UInt8) (base seg segLen : Nat) (stack : List HttpUrlPathSeg) :
    Option (List HttpUrlPathSeg) :=
  if segLen ≠ 0 ∧ strncmpEq (p.drop seg) (bytes "../") segLen then
    if stack = [] then none else some stack.dropLast
  else if !strncmpEq (p.drop seg) (bytes "./") segLen then some (stack ++ [⟨base + seg, segLen⟩])
  else some stack

/-- The loop of `http_url_parse_path` at index `i`, with the bytes from there to `size`:
    return value, final `i` and stack. -/
def pathLoop (p : List UInt8) (base : Nat) : List UInt8 → Nat → Nat → List HttpUrlPathSeg →
    Int × Nat × List HttpUrlPathSeg
  | [], i, seg, stack =>
      match pathSegment p base seg (i - seg) stack with
      | none => (-1, i, stack)
      | some stack => (0, i, stack)
  | c :: rest, i, seg, stack =>
      if c = '?'.toUInt8 ∨ c = '#'.toUInt8 then
        match pathSegment p base seg (i - seg) stack with
        | none => (-1, i, stack)
        | some stack => (0, i, stack)
      else if c = '/'.toUInt8 then
        match pathSegment p base seg (i - seg + 1) stack with
        | none => (-1, i, stack)
        | some stack => pathLoop p base rest (i + 1) (seg + (i - seg + 1)) stack
      else if !isPath c then (-1, i, stack)
      else pathLoop p base rest (i + 1) seg stack

/-- `http_url_parse_path` on the `size` bytes at `p`. -/
def httpUrlParsePath (p : List UInt8) (base size : Nat) (path : HttpUrlPathInfo) :
    Parsed HttpUrlPathInfo :=
  if size = 0 then ⟨0, 0, { path with data := some base }⟩
  else
    let r := pathLoop p base (p.take size) 0 0 path.pathStack
    if r.1 ≠ 0 then ⟨-1, 0, { path with data := some base, pathStack := r.2.2 }⟩
    else ⟨0, r.2.1, { pathStack := r.2.2, data := some base, dataLen := r.2.1 }⟩

/-! ## 4. Query -/

/-- `ns`, `ne` and `vs`; the fourth pointer is set where it is used. -/
structure QueryScan where
  ns : Option Nat
  ne : Option Nat
  vs : Option Nat
deriving DecidableEq, Repr

def QueryScan.empty : QueryScan := ⟨none, none, none⟩

/-- The item that ends before index `i`, once its value has begun.  `vs` is set only
    after `ne`, and `ne` only after `ns`. -/
def QueryScan.item (st : QueryScan) (base i : Nat) : Option HttpUrlQueryItem := do
  let vs ← st.vs
  let ne ← st.ne
  let ns ← st.ns
  some ⟨base + ns, (ne : Int) - ns, base + vs, (i : Int) - vs⟩

/-- The loop of `http_url_parse_query` at index `i`, with the bytes from there to
    `size`: final `i` and list. -/
def queryLoop (base : Nat) : List UInt8 → Nat → QueryScan → List HttpUrlQueryItem →
    Nat × List HttpUrlQueryItem
  | [], i, st, items => (i, items ++ (st.item base i).toList)
  | c :: rest, i, st, items =>
      if c = '#'.toUInt8 ∨ c = '&'.toUInt8 then
        match st.item base i with
        | none => (i, items)
        | some q => queryLoop base rest (i + 1) .empty (items ++ [q])
      else if c = '='.toUInt8 then
        queryLoop base rest (i + 1) (if st.ns.isSome then { st with ne := some i } else st) items
      else if st.ns.isNone then queryLoop base rest (i + 1) { st with ns := some i } items
      else if st.ne.isSome then queryLoop base rest (i + 1) { st with vs := some i } items
      else queryLoop base rest (i + 1) st items

/-- `http_url_parse_query` on the `size` bytes at `p`; it never fails, and leaves
    `*parse_len` at zero. -/
def httpUrlParseQuery (p : List UInt8) (base size : Nat) (query : HttpUrlQueryInfo) :
    Parsed HttpUrlQueryInfo :=
  let r := queryLoop base (p.take size) 0 .empty query.queryList
  ⟨0, 0, { queryList := r.2, data := some base, dataLen := r.1 }⟩

/-! ## 5. The target -/

/-- How many bytes at `p` a loop has before it that ends at `i == size`.  Behind the bare
    scheme `http:` the size is negative, and `i` never gets there: the loop runs on over what
    an earlier target has left in the array. -/
def walkSize (p : List UInt8) (size : Int) : Nat := if size < 0 then p.length else size.toNat

/-- Within the target that is the size itself. -/
theorem walkSize_sub (p : List UInt8) {n k : Nat} (hk : k ≤ n) : walkSize p ((n : Int) - k) = n - k := by
  rw [walkSize, if_neg (by omega)]
  omega

/-- The path and the query of a target of `urlLen` bytes, from the offset `urlp` on.  A query
    of negative size that no `#` and no `&` ends leaves the array; here it ends with it. -/
def urlParseTail (url : HttpUrl) (urlLen urlp : Nat) : Int × HttpUrl :=
  let p := url.url.drop urlp
  let r := httpUrlParsePath p urlp (walkSize p ((urlLen : Int) - urlp)) url.path
  let url := { url with path := r.val }
  if r.ret ≠ 0 then (-1, url)
  else
    let urlp := urlp + r.parseLen
    if peek (url.url.drop urlp) = '?'.toUInt8 then
      let p := url.url.drop (urlp + 1)
      let q := httpUrlParseQuery p (urlp + 1) (walkSize p ((urlLen : Int) - urlp - 1)) url.query
      (0, { url with query := q.val })
    else (0, url)

/-- The target from the offset `urlp` on: the host, if there is one, and the rest. -/
def urlParseHost (url : HttpUrl) (urlLen urlp : Nat) : Int × HttpUrl :=
  match strstr (url.url.drop urlp) (bytes "//") with
  | some p =>
      let urlp := urlp + p + 2
      match strchr (url.url.drop urlp) '/'.toUInt8 with
      | some p => urlParseTail { url with host := some urlp, hostLen := p } urlLen (urlp + p + 1)
      | none => (0, { url with host := some urlp, hostLen := (urlLen : Int) - urlp })
  | none =>
      if peek (url.url.drop urlp) = '/'.toUInt8 then urlParseTail url urlLen (urlp + 1)
      else if peek (url.url.drop urlp) = NUL then (0, url)
      else (-1, url)

def httpScheme : List UInt8 := bytes "http:"

/-- What follows in `http_url_parse` when the target is in the array.
    `sizeof(HTTP_SCHEME)` counts the terminator: only the target `http:` itself is
    taken for the scheme, and its terminator is skipped as well. -/
def urlParseTarget (url : HttpUrl) (urlLen : Nat) : Int × HttpUrl :=
  if strncasecmpEq url.url httpScheme (httpScheme.length + 1) then
    urlParseHost url urlLen (httpScheme.length + 1)
  else urlParseHost url urlLen 0

/-- Up to the first space, which must come before any `NUL`: `some (some n)` for a
    target of `n` bytes, `some none` for no space yet, `none` for a `NUL`. -/
def urlSpace : List UInt8 → Option (Option Nat)
  | [] => some none
  | c :: rest =>
      if c = NUL then none
      else if c = SP then some (some 0)
      else (urlSpace rest).map (Option.map (· + 1))

def httpUrlParse (data : List UInt8) (url : HttpUrl) : Parsed HttpUrl :=
  match urlSpace data with
  | none => ⟨-1, 0, url⟩
  | some none => ⟨0, 0, url⟩
  | some (some urlLen) =>
      if urlLen = 0 then ⟨0, 0, url⟩
      else if urlSize ≤ urlLen then ⟨-1, 0, url⟩
      else
        let url := { url with url := data.take urlLen ++ NUL :: url.url.drop (urlLen + 1) }
        let r := urlParseTarget url urlLen
        ⟨r.1, urlLen + 1, r.2⟩

/-! ## 6. Answers -/

/-- Bytes a target may consist of. -/
def TargetBytes (u : List UInt8) : Prop := SP ∉ u ∧ NUL ∉ u

/-- The first space or `NUL` decides; bytes behind it are not looked at. -/
inductive SpaceAnswer (data : List UInt8) : Prop where
  | space (u r : List UInt8) (hdata : data = u ++ SP :: r) (hu : TargetBytes u)
      (h : ∀ q, urlSpace (data ++ q) = some (some u.length))
  | more (hu : TargetBytes data) (h : urlSpace data = some none)
  | nul (h : ∀ q, urlSpace (data ++ q) = none)

theorem urlSpace_answer (data : List UInt8) : SpaceAnswer data := by
  induction data with
  | nil => exact .more ⟨List.not_mem_nil, List.not_mem_nil⟩ rfl
  | cons c rest ih =>
    by_cases h0 : c = NUL
    · exact .nul fun q => by simp [urlSpace, h0]
    by_cases hsp : c = SP
    · subst hsp
      exact .space [] rest rfl ⟨List.not_mem_nil, List.not_mem_nil⟩ fun q => by simp [urlSpace, h0]
    have hstep : ∀ t, urlSpace (c :: t) = (urlSpace t).map (Option.map (· + 1)) := fun t => by
      simp [urlSpace, h0, hsp]
    have hcons : ∀ {u}, TargetBytes u → TargetBytes (c :: u) := fun hu =>
      ⟨List.not_mem_cons_of_ne_of_not_mem (Ne.symm hsp) hu.1,
        List.not_mem_cons_of_ne_of_not_mem (Ne.symm h0) hu.2⟩
    cases ih with
    | space u r hdata hu h =>
      refine .space (c :: u) r (by rw [hdata]; rfl) (hcons hu) fun q => ?_
      rw [List.cons_append, hstep, h]
      rfl
    | more hu h =>
      refine .more (hcons hu) ?_
      rw [hstep, h]
      rfl
    | nul h =>
      refine .nul fun q => ?_
      rw [List.cons_append, hstep, h]
      rfl

/-- The structure with the target `u` copied into its array. -/
def HttpUrl.store (url : HttpUrl) (u : List UInt8) : HttpUrl :=
  { url with url := u ++ NUL :: url.url.drop (u.length + 1) }

theorem httpUrlParse_target {u r : List UInt8} (url : HttpUrl)
    (hs : urlSpace (u ++ SP :: r) = some (some u.length)) (hne : u ≠ []) (hlen : u.length < urlSize) :
    httpUrlParse (u ++ SP :: r) url =
      ⟨(urlParseTarget (url.store u) u.length).1, u.length + 1,
        (urlParseTarget (url.store u) u.length).2⟩ := by
  have hlen0 : u.length ≠ 0 := fun h => hne (List.length_eq_zero_iff.mp h)
  have htake : (u ++ SP :: r).take u.length = u := List.take_left
  simp only [httpUrlParse, hs, if_neg hlen0, if_neg (Nat.not_le_of_lt hlen), htake]
  rfl

/-- A target that `http_url_parse` accepts. -/
def TargetOk (url : HttpUrl) (u : List UInt8) : Prop :=
  u ≠ [] ∧ TargetBytes u ∧ u.length < urlSize ∧ (urlParseTarget (url.store u) u.length).1 = 0

/-- `http_url_parse` returns only the two values of its sub-parsers. -/
theorem urlParseTarget_ret (url : HttpUrl) (n : Nat) :
    (urlParseTarget url n).1 = 0 ∨ (urlParseTarget url n).1 = -1 := by
  have htail : ∀ url' k, (urlParseTail url' n k).1 = 0 ∨ (urlParseTail url' n k).1 = -1 := by
    intro url' k
    unfold urlParseTail
    dsimp only
    split
    · exact Or.inr rfl
    · split <;> exact Or.inl rfl
  have hhost : ∀ k, (urlParseHost url n k).1 = 0 ∨ (urlParseHost url n k).1 = -1 := by
    intro k
    unfold urlParseHost
    split
    · dsimp only
      split
      · exact htail _ _
      · exact Or.inl rfl
    · split
      · exact htail _ _
      · split
        · exact Or.inl rfl
        · exact Or.inr rfl
  unfold urlParseTarget
  split
  · exact hhost _
  · exact hhost _

/-- What a call of `http_url_parse` can answer. -/
inductive UrlAnswer (data : List UInt8) (url : HttpUrl) : Prop where
  | token (u r : List UInt8) (hu : TargetOk url u) (hdata : data = u ++ SP :: r)
      (h : ∀ q, httpUrlParse (data ++ q) url =
        ⟨0, u.length + 1, (urlParseTarget (url.store u) u.length).2⟩)
  | more (h : httpUrlParse data url = ⟨0, 0, url⟩)
  | reject (n : Nat) (url' : HttpUrl) (h : ∀ q, httpUrlParse (data ++ q) url = ⟨-1, n, url'⟩)

theorem httpUrlParse_answer (data : List UInt8) (url : HttpUrl) : UrlAnswer data url := by
  cases urlSpace_answer data with
  | nul h => exact .reject 0 url fun q => by simp [httpUrlParse, h]
  | more hu h => exact .more (by simp [httpUrlParse, h])
  | space u r hdata hu h =>
    by_cases hne : u = []
    · refine .more ?_
      have h₀ := h []
      rw [List.append_nil] at h₀
      simp [httpUrlParse, h₀, hne]
    have hlen0 : u.length ≠ 0 := fun h => hne (List.length_eq_zero_iff.mp h)
    by_cases hlen : urlSize ≤ u.length
    · exact .reject 0 url fun q => by simp [httpUrlParse, h, hlen0, hlen]
    subst hdata
    have hrun : ∀ q, httpUrlParse (u ++ SP :: r ++ q) url =
        ⟨(urlParseTarget (url.store u) u.length).1, u.length + 1,
          (urlParseTarget (url.store u) u.length).2⟩ := by
      intro q
      have hq := h q
      rw [List.append_assoc, List.cons_append] at hq ⊢
      exact httpUrlParse_target url hq hne (Nat.lt_of_not_le hlen)
    rcases urlParseTarget_ret (url.store u) u.length with hret | hret
    · rw [hret] at hrun
      exact .token u r ⟨hne, hu, Nat.lt_of_not_le hlen, hret⟩ rfl hrun
    · rw [hret] at hrun
      exact .reject _ _ hrun

end OServer
