/-
  OServer/HttpHeaderNodes.lean
  ============================
  **Who owns the nodes of a header collection.**

  `http_header_add_by_id` allocates a node before it knows whether the tree will take it,
  and `http_header_destroy` gives back the nodes of the tree.

    * `blockFields`      — the fields that the lines of a buffer add, read off its text;
    * `NodesInv`         — what every sequence of calls keeps;
    * `httpHeader_owned` — nothing is lost exactly if no field is added twice.
-/
import OServer.HttpHeaderBlock
import OServer.HttpHeaderSound
import Mathlib.Data.Finset.Basic

namespace OServer

open CString

/-! ## 1. Nodes that are allocated and given back -/

/-- A collection, with the nodes that `malloc` returned and that were not given back. -/
structure HeaderNodes where
  headers : HttpHeaderCollection
  live : Finset Ptr

namespace HeaderNodes

def init : HeaderNodes := ⟨httpHeaderInit, ∅⟩

/-- `http_header_add_by_id`: the node has a new address, whether or not it is linked in. -/
def addById (s : HeaderNodes) (id : Int16) (value : List UInt8) (lv : Int) : HeaderNodes :=
  if peek value = NUL then s
  else ⟨(httpHeaderAddById s.headers id value lv).2, insert s.headers.headerTree.brk s.live⟩

def add (s : HeaderNodes) (name : List UInt8) (ln : Int) (value : List UInt8) (lv : Int) :
    HeaderNodes :=
  if peek name = NUL ∨ peek value = NUL then s
  else
    match httpHeaderBinaryNSearch name ln with
    | none => s
    | some id => s.addById (Int16.ofNat id) value lv

/-- `http_header_parse`, call of `http_header_add` by call. -/
def parse (s : HeaderNodes) (buf : List UInt8) : HeaderNodes :=
  (httpHeaderCalls buf).foldl (fun s c => s.add c.name c.ln c.value c.lv) s

theorem addById_headers (s : HeaderNodes) (id : Int16) (value : List UInt8) (lv : Int) :
    (s.addById id value lv).headers = (httpHeaderAddById s.headers id value lv).2 := by
  unfold addById httpHeaderAddById
  split_ifs <;> rfl

theorem add_headers (s : HeaderNodes) (name : List UInt8) (ln : Int) (value : List UInt8)
    (lv : Int) : (s.add name ln value lv).headers = (httpHeaderAdd s.headers name ln value lv).2 := by
  rw [add, httpHeaderAdd]
  split_ifs
  · rfl
  cases httpHeaderBinaryNSearch name ln with
  | none => rfl
  | some id => exact addById_headers s (Int16.ofNat id) value lv

/-- The collection is the one that the parser leaves. -/
theorem parse_headers (s : HeaderNodes) (buf : List UInt8) :
    (s.parse buf).headers = (httpHeaderParse s.headers buf).headers := by
  rw [httpHeaderParse_headers, parse]
  induction httpHeaderCalls buf generalizing s with
  | nil => rfl
  | cons c cs ih =>
    rw [List.foldl_cons, List.foldl_cons, ih, add_headers]
    rfl

end HeaderNodes

/-- `free`, with the live nodes and what was given back so far; nothing but a live node can
    be given back. -/
def freeNode (p : Ptr) : Option (Finset Ptr × List Ptr) → Option (Finset Ptr × List Ptr)
  | some (live, freed) => if p ∈ live then some (live.erase p, freed ++ [p]) else none
  | none => none

/-- `http_header_free_node`; what the memory holds afterwards is anything. -/
def httpHeaderFreeNode (junk : Ptr → BtNodeEntry) : Visitor (Option (Finset Ptr × List Ptr)) :=
  fun h t m => (t.modify h fun _ => junk h, freeNode h m)

/-- `http_header_destroy`, and the nodes that it gives back, in this order. -/
def HeaderNodes.destroy (junk : Ptr → BtNodeEntry) (s : HeaderNodes) :
    Option (HeaderNodes × List Ptr) :=
  if s.headers.headerTree.root.isSome then do
    let r ← btreePostOrderTraverse s.headers.headerTree (httpHeaderFreeNode junk) (some (s.live, []))
    let m ← r.2
    some (⟨{ headerTree := btreeInit r.1
             header := s.headers.header
             traversePtr := (btreeInit r.1).root
             tree := ⟨_, Btree.represents_init r.1⟩
             cursor := fun _ h => nomatch h }, m.1⟩, m.2)
  else some (s, [])

/-! ## 2. Calls -/

/-- The calls of the users of a collection; the key of a node is an `int16_t`. -/
inductive HeaderOp where
  | add (name : List UInt8) (ln : Int) (value : List UInt8) (lv : Int)
  | addById (id : Int) (value : List UInt8) (lv : Int)
  | parse (buf : List UInt8)
deriving DecidableEq, Repr

def HeaderNodes.step (s : HeaderNodes) : HeaderOp → HeaderNodes
  | .add name ln value lv => s.add name ln value lv
  | .addById id value lv => s.addById (Int16.ofInt id) value lv
  | .parse buf => s.parse buf

/-- The collection after `http_header_init` and the calls. -/
def HeaderNodes.run (ops : List HeaderOp) : HeaderNodes := ops.foldl HeaderNodes.step .init

/-- The field that a call of `http_header_add_by_id` allocates a node for. -/
def fieldById (id : Int16) (value : List UInt8) : List BtKey :=
  if peek value = NUL then [] else [id]

/-- The field that a call of `http_header_add` allocates a node for. -/
def fieldOf (name : List UInt8) (ln : Int) (value : List UInt8) : List BtKey :=
  if peek name = NUL ∨ peek value = NUL then []
  else
    match httpHeaderBinaryNSearch name ln with
    | none => []
    | some id => fieldById (Int16.ofNat id) value

/-! ## 3. The fields of a text -/

/-- A text without the carriage returns and the spaces that it begins with. -/
def skipBlanks (w : List UInt8) : List UInt8 := w.dropWhile fun b => b == CR || b == SP

def isNameByte (b : UInt8) : Bool := b != SP && b != ':'.toUInt8

/-- The name that a line begins with. -/
def lineName (w : List UInt8) : List UInt8 := (skipBlanks w).takeWhile isNameByte

/-- What follows the name; it begins with the colon. -/
def behindName (w : List UInt8) : List UInt8 := skipBlanks ((skipBlanks w).dropWhile isNameByte)

/-- The field of the table that a name stands for. -/
def namedField (name : List UInt8) : Option BtKey :=
  ((List.range httpHeaderFields.length).map Int16.ofNat).find? fun id => StandsFor name id

/-- The field that a line gives a value to, and the value: what stands behind the colon, without
    the separators around it. -/
def lineEntry (w : List UInt8) : Option (BtKey × List UInt8) :=
  if peek (strip (behindName w).tail) = NUL then none
  else (namedField (lineName w)).map fun id => (id, strip (behindName w).tail)

/-- The fields that a line adds, given without its `'\n'`; `none` for a blank line and for one that
    is refused, behind which no line is read. -/
def lineFields (w : List UInt8) : Option (List BtKey) :=
  if w.getLast? ≠ some CR then none
  else
    match behindName w with
    | [] => none
    | c :: t =>
        if c ≠ ':'.toUInt8 then none
        -- a line that begins with its colon adds nothing, and needs two bytes of text
        else if lineName w = [] then if (strip t).length ≤ 1 then none else some []
        else if strip t = [] then none
        else some ((lineEntry w).toList.map Prod.fst)

def linesFields : List (List UInt8) → List BtKey
  | [] => []
  | w :: ws =>
      match lineFields w with
      | none => []
      | some ids => ids ++ linesFields ws

/-- The fields that the complete lines of a buffer add. -/
def blockFields (buf : List UInt8) : List BtKey := linesFields (buf.splitOn LF).dropLast

/-- The fields that a call adds, in this order. -/
def HeaderOp.fields : HeaderOp → List BtKey
  | add name ln value _ => fieldOf name ln value
  | addById id value _ => fieldById (Int16.ofInt id) value
  | parse buf => blockFields buf

section Fields
variable {w lead name gap a t v b : List UInt8} {d : UInt8}

theorem skipBlanks_append {rest : List UInt8} (h : ∀ b ∈ lead, b = CR ∨ b = SP) :
    skipBlanks (lead ++ rest) = skipBlanks rest := by
  apply List.dropWhile_append_of_pos
  intro b hb
  rcases h b hb with rfl | rfl <;> rfl

theorem skipBlanks_cons {c : UInt8} {rest : List UInt8} (h : c ≠ CR ∧ c ≠ SP) :
    skipBlanks (c :: rest) = c :: rest := by
  apply List.dropWhile_cons_of_neg
  simp [h.1, h.2]

/-- The parts of a line that begins with a name. -/
theorem Named.parts (h : Named w lead name gap t) :
    lineName w = name ∧ behindName w = ':'.toUInt8 :: t := by
  obtain ⟨rfl, hlead, ⟨d, m, rfl, hd⟩, hname, hgap⟩ := h
  have hfirst := text_ne hd
  have hskip : skipBlanks (lead ++ (d :: m ++ (gap ++ ':'.toUInt8 :: t))) =
      d :: m ++ (gap ++ ':'.toUInt8 :: t) := by
    rw [skipBlanks_append hlead]
    exact skipBlanks_cons ⟨hfirst.1, hfirst.2.1⟩
  have hall : ∀ b ∈ d :: m, isNameByte b = true := by
    intro b hb
    have hne := hname b hb
    simp [isNameByte, hne.1, hne.2]
  -- the first byte behind the name is a space or the colon
  obtain ⟨c, rest, hrest, hc⟩ : ∃ c rest, gap ++ ':'.toUInt8 :: t = c :: rest ∧
      ¬isNameByte c = true := by
    rcases hgap with rfl | ⟨g, rfl, -⟩
    · exact ⟨_, _, rfl, by decide⟩
    · exact ⟨_, _, rfl, by decide⟩
  have hblank : ∀ b ∈ gap, b = CR ∨ b = SP := by
    rcases hgap with rfl | ⟨g, rfl, hg⟩
    · exact fun b hb => absurd hb List.not_mem_nil
    · exact List.forall_mem_cons.mpr ⟨.inr rfl, hg⟩
  constructor
  · rw [lineName, hskip, List.takeWhile_append_of_pos hall, hrest, List.takeWhile_cons_of_neg hc,
      List.append_nil]
  · rw [behindName, hskip, List.dropWhile_append_of_pos hall, hrest, List.dropWhile_cons_of_neg hc,
      ← hrest, skipBlanks_append hblank]
    exact skipBlanks_cons ⟨by decide, by decide⟩

/-- The parts of a line that begins with a colon. -/
theorem ColonFirst.parts (h : ColonFirst w lead a d t) :
    lineName w = [] ∧ behindName w = ':'.toUInt8 :: (a ++ d :: t) := by
  obtain ⟨rfl, hlead, -, -⟩ := h
  have hskip : skipBlanks (lead ++ ':'.toUInt8 :: (a ++ d :: t)) =
      ':'.toUInt8 :: (a ++ d :: t) := by
    rw [skipBlanks_append hlead]
    exact skipBlanks_cons ⟨by decide, by decide⟩
  have hcolon : ¬isNameByte ':'.toUInt8 = true := by decide
  constructor
  · rw [lineName, hskip, List.takeWhile_cons_of_neg hcolon]
  · rw [behindName, hskip, List.dropWhile_cons_of_neg hcolon]
    exact skipBlanks_cons ⟨by decide, by decide⟩

theorem standsFor_of_named {name : List UInt8} {id : BtKey} (h : namedField name = some id) :
    StandsFor name id :=
  of_decide_eq_true (List.find?_some (p := fun id => decide (StandsFor name id)) h)

theorem namedField_eq_some_iff {name : List UInt8} {id : BtKey} :
    namedField name = some id ↔ StandsFor name id := by
  refine ⟨standsFor_of_named, fun h => ?_⟩
  cases hfound : namedField name with
  | none =>
    have hmem : id ∈ (List.range httpHeaderFields.length).map Int16.ofNat :=
      List.mem_map.mpr ⟨_, List.mem_range.mpr h.1.2, h.1.ofNat⟩
    exact absurd (decide_eq_true h) (List.find?_eq_none.mp hfound id hmem)
  | some id' => rw [h.unique (standsFor_of_named hfound)]

theorem namedField_nil : namedField [] = none := by
  rw [Option.eq_none_iff_forall_ne_some]
  exact fun id h => not_standsFor_nil id (namedField_eq_some_iff.mp h)

/-- The search finds the field that a name stands for, whatever follows the name. -/
theorem httpHeaderBinaryNSearch_named (name rest : List UInt8) :
    (httpHeaderBinaryNSearch (name ++ rest) name.length).map Int16.ofNat = namedField name := by
  ext id
  rw [Option.map_eq_some_iff, namedField_eq_some_iff]
  constructor
  · rintro ⟨i, hi, rfl⟩
    exact ((httpHeaderBinaryNSearch_standsFor name rest i).mp hi).2
  · intro h
    refine ⟨_, (httpHeaderBinaryNSearch_standsFor name rest _).mpr ⟨h.1.2, ?_⟩, h.1.ofNat⟩
    rw [h.1.ofNat]
    exact h

/-- A name that begins with a `NUL` stands for no field. -/
theorem namedField_nul {name : List UInt8} (h : peek name = NUL) : namedField name = none := by
  rw [Option.eq_none_iff_forall_ne_some]
  intro id hid
  obtain ⟨hin, hsame, -⟩ := namedField_eq_some_iff.mp hid
  rw [cstr_eq_nil_iff.mpr h] at hsame
  have hne := (httpHeaderFields_hashes.2 _ (httpHeaderField_mem hin)).1
  exact hne (List.length_eq_zero_iff.mp (SameName.length hsame).symm)

theorem fieldOf_eq (name value : List UInt8) : fieldOf name name.length value =
    if peek value = NUL then [] else (namedField name).toList := by
  have hsearch := httpHeaderBinaryNSearch_named name []
  rw [List.append_nil] at hsearch
  by_cases hvalue : peek value = NUL
  · rw [fieldOf, if_pos hvalue, if_pos (Or.inr hvalue)]
  by_cases hname : peek name = NUL
  · rw [fieldOf, if_neg hvalue, if_pos (Or.inl hname), namedField_nul hname]
    rfl
  · rw [fieldOf, if_neg hvalue, if_neg (not_or.mpr ⟨hname, hvalue⟩), ← hsearch]
    cases httpHeaderBinaryNSearch name name.length with
    | none => rfl
    | some i => exact if_neg hvalue

/-- What a line that begins with a name hands over. -/
theorem lineEntry_named (h : Named w lead name gap t) (hv : Trimmed t a v b) :
    lineEntry w = if peek v = NUL then none else (namedField name).map fun id => (id, v) := by
  obtain ⟨hname, hbehind⟩ := h.parts
  rw [lineEntry, hname, hbehind, List.tail_cons, hv.strip]

/-- A line that begins with a colon hands nothing over. -/
theorem lineEntry_colon (h : ColonFirst w lead a d t) : lineEntry w = none := by
  rw [lineEntry, h.parts.1, namedField_nil]
  split <;> rfl

theorem lineFields_named (h : Named w lead name gap t) (hv : Trimmed t a v b)
    (hcr : w.getLast? = some CR) : lineFields w = some (fieldOf name name.length v) := by
  obtain ⟨hname, hbehind⟩ := h.parts
  obtain ⟨d, m, hdm, -⟩ := h.first
  have hne : name ≠ [] := by
    rw [hdm]
    exact List.cons_ne_nil d m
  have hentry : (lineEntry w).toList.map Prod.fst = fieldOf name name.length v := by
    rw [lineEntry_named h hv, fieldOf_eq]
    split_ifs
    · rfl
    · cases namedField name <;> rfl
  simp only [lineFields, hcr, hbehind, hname, hv.strip, hne, hv.ne, hentry, ne_eq,
    not_true_eq_false, if_false]

/-- The value of a line that begins with a colon is what stands between its second byte of text
    and the last one. -/
theorem lineFields_colon {a' : List UInt8} (h : ColonFirst w lead a d t) (hv : Trimmed t a' v b)
    (hcr : w.getLast? = some CR) : lineFields w = some [] := by
  obtain ⟨hname, hbehind⟩ := h.parts
  obtain ⟨m, d', hlast, hd'⟩ := hv.last
  have htext : Trimmed (a ++ d :: t) a (d :: (a' ++ v)) b := by
    refine ⟨?_, h.left, hv.right, ⟨d, _, rfl, h.first⟩, ⟨d :: (a' ++ m), d', ?_, hd'⟩⟩
    · rw [hv.split]
      simp
    · rw [hlast]
      simp
  have hlong : ¬(d :: (a' ++ v)).length ≤ 1 := by
    rw [hlast]
    simp
  simp only [lineFields, hcr, hbehind, hname, htext.strip, hlong, ne_eq, not_true_eq_false, if_false,
    if_true]

theorem skipBlanks_split (w : List UInt8) :
    ∃ lead, w = lead ++ skipBlanks w ∧ ∀ b ∈ lead, b = CR ∨ b = SP := by
  refine ⟨w.takeWhile fun b => b == CR || b == SP, List.takeWhile_append_dropWhile.symm, ?_⟩
  intro b hb
  have hblank := List.mem_takeWhile_imp hb
  rwa [Bool.or_eq_true, beq_iff_eq, beq_iff_eq] at hblank

theorem skipBlanks_head {c : UInt8} {rest : List UInt8} (h : skipBlanks w = c :: rest) :
    c ≠ CR ∧ c ≠ SP := by
  have hhead := List.head?_dropWhile_not (fun b => b == CR || b == SP) w
  rw [show w.dropWhile (fun b => b == CR || b == SP) = c :: rest from h] at hhead
  simpa using hhead

/-- A colon is behind the name: the line is of one of the two kinds. -/
theorem named_or_colonFirst (h : behindName w = ':'.toUInt8 :: t) :
    (∃ lead name gap, Named w lead name gap t) ∨
      ∃ lead, w = lead ++ ':'.toUInt8 :: t ∧ (∀ b ∈ lead, b = CR ∨ b = SP) ∧ lineName w = [] := by
  obtain ⟨lead, hw, hlead⟩ := skipBlanks_split w
  obtain ⟨gap, hr, hgap⟩ := skipBlanks_split ((skipBlanks w).dropWhile isNameByte)
  rw [show skipBlanks _ = ':'.toUInt8 :: t from h] at hr
  have hu : skipBlanks w = lineName w ++ (gap ++ ':'.toUInt8 :: t) := by
    rw [← hr]
    exact List.takeWhile_append_dropWhile.symm
  cases hname : lineName w with
  | nil =>
    right
    rw [hname, List.nil_append] at hu
    -- there are no blanks left
    have hnone : gap = [] := by
      cases gap with
      | nil => rfl
      | cons c g =>
        have hne := skipBlanks_head hu
        rcases hgap c List.mem_cons_self with hc | hc
        · exact absurd hc hne.1
        · exact absurd hc hne.2
    rw [hnone, List.nil_append] at hu
    exact ⟨lead, by rw [← hu]; exact hw, hlead, rfl⟩
  | cons d m =>
    left
    rw [hname] at hu
    have hbytes : ∀ b ∈ d :: m, b ≠ SP ∧ b ≠ ':'.toUInt8 := by
      intro b hb
      rw [← hname] at hb
      have hbyte := List.mem_takeWhile_imp hb
      rw [isNameByte, Bool.and_eq_true, bne_iff_ne, bne_iff_ne] at hbyte
      exact hbyte
    have hd : isSeparator d = false := by
      have hcr := (skipBlanks_head hu).1
      have hrest := hbytes d List.mem_cons_self
      simp [isSeparator, hcr, hrest.1, hrest.2]
    refine ⟨lead, d :: m, gap, by rw [← hu]; exact hw, hlead, ⟨d, m, rfl, hd⟩, hbytes, ?_⟩
    cases gap with
    | nil => exact .inl rfl
    | cons c g =>
      right
      have hstop := List.head?_dropWhile_not isNameByte (skipBlanks w)
      rw [hr] at hstop
      have hc : c = SP := by
        rcases hgap c List.mem_cons_self with rfl | hsp
        · have hfalse : isNameByte CR = false := hstop
          exact absurd hfalse (by decide)
        · exact hsp
      exact ⟨g, by rw [hc], fun b hb => hgap b (List.mem_cons_of_mem c hb)⟩

/-- Only lines with a name, a colon and a value, and lines that begin with a colon, are passed. -/
theorem lineFields_some {ids : List BtKey} (h : lineFields w = some ids) :
    w.getLast? = some CR ∧
      ((∃ lead name gap t a v b, Named w lead name gap t ∧ Trimmed t a v b) ∨
        ∃ lead a d t a' v b, ColonFirst w lead a d t ∧ Trimmed t a' v b) := by
  obtain ⟨hcr, hline⟩ := Option.ite_none_left_eq_some.mp h
  refine ⟨not_not.mp hcr, ?_⟩
  cases hbehind : behindName w with
  | nil => simp [hbehind] at hline
  | cons c t =>
    rw [hbehind] at hline
    obtain ⟨hcolon, hkind⟩ := Option.ite_none_left_eq_some.mp hline
    obtain rfl := not_not.mp hcolon
    by_cases hname : lineName w = []
    · right
      rw [if_pos hname] at hkind
      obtain ⟨hshort, -⟩ := Option.ite_none_left_eq_some.mp hkind
      rcases named_or_colonFirst hbehind with ⟨lead, name, gap, hnamed⟩ | ⟨lead, hw, hlead, -⟩
      · obtain ⟨d, m, hdm, -⟩ := hnamed.first
        rw [hnamed.parts.1, hdm] at hname
        cases hname
      rcases exists_text t with hall | ⟨a, d, t', ht, ha, hd⟩
      · have hempty : strip t = [] := by
          rw [strip, List.dropWhile_eq_nil_iff.mpr (List.all_eq_true.mp hall)]
          rfl
        exact absurd (by rw [hempty]; exact Nat.zero_le 1) hshort
      have hfirst : ColonFirst w lead a d t' := ⟨by rw [hw, ht], hlead, ha, hd⟩
      rcases exists_trimmed t' with hsep | ⟨a', v, b, hv⟩
      · have hone : Trimmed t a [d] t' :=
          ⟨by rw [ht]; simp, ha, hsep, ⟨d, [], rfl, hd⟩, ⟨[], d, rfl, hd⟩⟩
        exact absurd (by rw [hone.strip]; exact le_rfl) hshort
      · exact ⟨lead, a, d, t', a', v, b, hfirst, hv⟩
    · left
      rw [if_neg hname] at hkind
      obtain ⟨hvalue, -⟩ := Option.ite_none_left_eq_some.mp hkind
      rcases named_or_colonFirst hbehind with ⟨lead, name, gap, hnamed⟩ | ⟨-, -, -, hnone⟩
      · rcases exists_trimmed t with hall | ⟨a, v, b, hv⟩
        · refine absurd ?_ hvalue
          rw [strip, List.dropWhile_eq_nil_iff.mpr (List.all_eq_true.mp hall)]
          rfl
        · exact ⟨lead, name, gap, t, a, v, b, hnamed, hv⟩
      · exact absurd hnone hname

/-- What stands behind a name and behind a value does not matter. -/
theorem fieldOf_append {name value : List UInt8} (hname : name ≠ []) (hvalue : value ≠ [])
    (nrest vrest : List UInt8) :
    fieldOf (name ++ nrest) name.length (value ++ vrest) = fieldOf name name.length value := by
  have hhash : httpHeaderNHash (name ++ nrest) name.length = httpHeaderNHash name name.length := by
    rw [httpHeaderNHash, httpHeaderNHash, Int.toNat_natCast, List.take_left, List.take_length]
  have hsearch : httpHeaderBinaryNSearch (name ++ nrest) name.length =
      httpHeaderBinaryNSearch name name.length := by
    ext i
    rw [httpHeaderBinaryNSearch_some_iff, httpHeaderBinaryNSearch_some_iff, hhash, strncasecmpEq,
      strncasecmpEq, sameUpTo_append _ _ _ _ _ (Int.toNat_natCast _).le]
  have hid : ∀ id, fieldById id (value ++ vrest) = fieldById id value := by
    intro id
    rw [fieldById, fieldById, peek_append _ hvalue]
  rw [fieldOf, fieldOf, hsearch, peek_append _ hname, peek_append _ hvalue]
  simp only [hid]

/-- No name has a negative length. -/
theorem httpHeaderBinaryNSearch_negative (name : List UInt8) {ln : Int} (h : ln < 0) :
    httpHeaderBinaryNSearch name ln = none := by
  rw [Option.eq_none_iff_forall_ne_some]
  intro i hi
  obtain ⟨hlt, hhash, -⟩ := httpHeaderBinaryNSearch_some_iff.mp hi
  have hzero : httpHeaderNHash name ln = ([] : List UInt8).foldl hashByte 0 := by
    rw [httpHeaderNHash, Int.toNat_of_nonpos h.le]
    rfl
  rw [hzero, fieldHash_eq hlt] at hhash
  obtain ⟨hne, -, hprefix⟩ := httpHeaderFields_hashes.2 _ (httpHeaderField_mem (inTable_ofNat hlt).1)
  have hlen := hprefix [] ((List.mem_inits _ _).mpr (List.nil_prefix)) hhash
  exact hne (List.length_eq_zero_iff.mp hlen.symm)

theorem fieldOf_negative (name value : List UInt8) {ln : Int} (h : ln < 0) :
    fieldOf name ln value = [] := by
  rw [fieldOf, httpHeaderBinaryNSearch_negative name h]
  split <;> rfl

/-- **A line adds the fields of its text.** -/
theorem lineFields_lineEndAt (w tail : List UInt8) :
    lineFields w = match lineEndAt w tail with
      | .field name ln value _ => some (fieldOf name ln value)
      | _ => none := by
  cases hfields : lineFields w with
  | some ids =>
    obtain ⟨hcr, ⟨lead, name, gap, t, a, v, b, hnamed, hv⟩ | ⟨lead, a, d, t, a', v, b, hcolon, hv⟩⟩ :=
      lineFields_some hfields
    · obtain ⟨d, m, hdm, -⟩ := hnamed.first
      have hne : name ≠ [] := by
        rw [hdm]
        exact List.cons_ne_nil d m
      rw [lineEndAt_named tail hnamed hv hcr, ← hfields, lineFields_named hnamed hv hcr]
      simp only [List.append_assoc, fieldOf_append hne hv.ne]
    · rw [lineEndAt_colon tail hcolon hv hcr, ← hfields, lineFields_colon hcolon hv hcr]
      simp only [fieldOf_negative _ _ (show (-((a.length : Int) + 1)) < 0 by omega)]
  | none =>
    cases lineShape w with
    | bad h => rw [h tail]
    | blank hsep hcr => rw [lineEndAt_blank tail hsep hcr]
    | named h hv hcr =>
      rw [lineFields_named h hv hcr] at hfields
      cases hfields
    | colon h hv hcr =>
      rw [lineFields_colon h hv hcr] at hfields
      cases hfields

theorem blockFields_line (hw : LF ∉ w) (rest : List UInt8) :
    blockFields (w ++ LF :: rest) = match lineFields w with
      | none => []
      | some ids => ids ++ blockFields rest := by
  rw [blockFields, List.splitOn_append_cons_self_of_not_mem hw,
    List.dropLast_cons_of_ne_nil (List.splitOn_ne_nil LF rest), linesFields]
  rfl

/-- **The text of a buffer tells which fields `http_header_parse` adds.** -/
theorem httpHeaderCalls_fields (buf : List UInt8) :
    ((httpHeaderCalls buf).flatMap fun c => fieldOf c.name c.ln c.value) = blockFields buf := by
  induction hlen : buf.length using Nat.strong_induction_on generalizing buf with
  | _ n ih =>
    by_cases hbuf : LF ∈ buf
    · obtain ⟨w, rest, rfl, hw⟩ := List.eq_append_cons_of_mem hbuf
      have hshort : rest.length < n := by
        rw [← hlen, List.length_append, List.length_cons]
        omega
      rw [httpHeaderCalls_line hw, blockFields_line hw, lineFields_lineEndAt w (LF :: rest)]
      cases lineEndAt w (LF :: rest) with
      | bad => rfl
      | blank => rfl
      | field name ln value lv =>
        simp only [List.flatMap_cons, ih _ hshort rest rfl]
    · rw [httpHeaderCalls_unfinished hbuf, blockFields, List.splitOn_eq_singleton hbuf]
      rfl

end Fields

/-! ## 4. What is kept -/

/-- The nodes, when `fields` were added. -/
structure NodesInv (s : HeaderNodes) (fields : List BtKey) (v : BtreeView) : Prop where
  represents : s.headers.headerTree.Represents v
  keys : ∀ k, k ∈ v.keys ↔ k ∈ fields
  bound : ∀ p ∈ s.live, p < s.headers.headerTree.brk
  live : ∀ p ∈ v.tree.toList, p ∈ s.live
  owned : (∀ p ∈ s.live, p ∈ v.tree.toList) ↔ fields.Nodup

section Kept
variable {s : HeaderNodes} {fields : List BtKey} {v : BtreeView}

/-- A key that is present leaves the tree as it is. -/
theorem BtreeView.insert_present (v : BtreeView) {p : Ptr} (hp : p ∉ v.tree.toList) {k : BtKey}
    (hk : k ∈ v.keys) : (v.insert p k hp).tree = v.tree ∧ (v.insert p k hp).keys = v.keys := by
  have htree : (v.insert p k hp).tree = v.tree :=
    Avl.AvlTree.insert_exist_eq _ _ v.balanced ((v.insert_eq_exist_iff hp k).mpr hk)
  refine ⟨htree, ?_⟩
  rw [keys, keys, htree]
  apply List.map_congr_left
  intro q hq
  exact Function.update_of_ne (ne_of_mem_of_not_mem hq hp) ..

theorem nodesInv_init : NodesInv .init [] (.empty fun _ => default) where
  represents := Btree.represents_init _
  keys _ := Iff.rfl
  bound _ hp := absurd hp (Finset.notMem_empty _)
  live _ hp := absurd hp List.not_mem_nil
  owned := iff_of_true (fun _ hp => absurd hp (Finset.notMem_empty _)) List.nodup_nil

/-- **A node more.**  It is linked in exactly if its field is a new one. -/
theorem NodesInv.addById (h : NodesInv s fields v) (id : Int16) (value : List UInt8) (lv : Int) :
    ∃ v', NodesInv (s.addById id value lv) (fields ++ fieldById id value) v' := by
  unfold HeaderNodes.addById fieldById
  by_cases hvalue : peek value = NUL
  · rw [if_pos hvalue, if_pos hvalue, List.append_nil]
    exact ⟨v, h⟩
  rw [if_neg hvalue, if_neg hvalue]
  have hp := brk_not_mem h.represents
  have hbrk : s.headers.headerTree.brk ∉ s.live := fun hmem => lt_irrefl _ (h.bound _ hmem)
  obtain ⟨-, hrep, -, -⟩ := httpHeaderAddById_view h.represents id lv hvalue
  have hbrk' := httpHeaderAddById_brk s.headers id lv hvalue
  refine ⟨v.insert s.headers.headerTree.brk id hp, hrep, ?_, ?_, ?_, ?_⟩
  · intro k
    rw [List.mem_append, List.mem_singleton, ← h.keys]
    by_cases hk : id ∈ v.keys
    · rw [(v.insert_present hp hk).2]
      refine ⟨.inl, ?_⟩
      rintro (hk' | rfl)
      · exact hk'
      · exact hk
    · rw [v.mem_keys_insert hp hk, or_comm]
  · intro p hmem
    rw [hbrk']
    rcases Finset.mem_insert.mp hmem with rfl | hmem
    · exact Nat.lt_succ_self _
    · exact Nat.lt_succ_of_lt (h.bound p hmem)
  · intro p hmem
    rcases Avl.AvlTree.mem_insert _ _ v.tree hmem with rfl | hmem
    · exact Finset.mem_insert_self ..
    · exact Finset.mem_insert_of_mem (h.live p hmem)
  · rw [← List.concat_eq_append, List.nodup_concat, ← h.owned, ← h.keys]
    by_cases hk : id ∈ v.keys
    · rw [(v.insert_present hp hk).1]
      refine iff_of_false ?_ fun hnot => hnot.1 hk
      intro hall
      exact hp (hall _ (Finset.mem_insert_self ..))
    · simp only [Finset.forall_mem_insert, v.mem_insert_iff hp hk, true_or, true_and]
      refine ⟨fun hall => ⟨hk, ?_⟩, fun hall p hmem => .inr (hall.2 p hmem)⟩
      intro p hmem
      rcases hall p hmem with rfl | hmem'
      · exact absurd hmem hbrk
      · exact hmem'

theorem NodesInv.add (h : NodesInv s fields v) (name : List UInt8) (ln : Int) (value : List UInt8)
    (lv : Int) : ∃ v', NodesInv (s.add name ln value lv) (fields ++ fieldOf name ln value) v' := by
  rw [HeaderNodes.add, fieldOf]
  by_cases hempty : peek name = NUL ∨ peek value = NUL
  · rw [if_pos hempty, if_pos hempty, List.append_nil]
    exact ⟨v, h⟩
  rw [if_neg hempty, if_neg hempty]
  cases httpHeaderBinaryNSearch name ln with
  | none =>
    simp only [List.append_nil]
    exact ⟨v, h⟩
  | some id => exact h.addById (Int16.ofNat id) value lv

theorem NodesInv.parse (h : NodesInv s fields v) (buf : List UInt8) :
    ∃ v', NodesInv (s.parse buf) (fields ++ (HeaderOp.parse buf).fields) v' := by
  rw [HeaderNodes.parse, HeaderOp.fields, ← httpHeaderCalls_fields]
  induction httpHeaderCalls buf generalizing s fields v with
  | nil =>
    rw [List.flatMap_nil, List.append_nil]
    exact ⟨v, h⟩
  | cons c cs ih =>
    obtain ⟨v₁, h₁⟩ := h.add c.name c.ln c.value c.lv
    rw [List.flatMap_cons, ← List.append_assoc]
    exact ih h₁

/-- **One call more.** -/
theorem NodesInv.step (h : NodesInv s fields v) (op : HeaderOp) :
    ∃ v', NodesInv (s.step op) (fields ++ op.fields) v' := by
  cases op with
  | add name ln value lv => exact h.add name ln value lv
  | addById id value lv => exact h.addById (Int16.ofInt id) value lv
  | parse buf => exact h.parse buf

end Kept

/-- **Every sequence of calls.** -/
theorem nodesInv_run (ops : List HeaderOp) :
    ∃ v, NodesInv (.run ops) (ops.flatMap HeaderOp.fields) v := by
  induction ops using List.reverseRecOn with
  | nil => exact ⟨_, nodesInv_init⟩
  | append_singleton ops op ih =>
    obtain ⟨v, h⟩ := ih
    have hrun : HeaderNodes.run (ops ++ [op]) = (HeaderNodes.run ops).step op := by
      rw [HeaderNodes.run, List.foldl_append]
      rfl
    rw [hrun, List.flatMap_append, List.flatMap_singleton]
    exact h.step op

/-! ## 5. Giving the nodes back -/

/-- Only the node that is given back changes. -/
theorem httpHeaderFreeNode_local (junk : Ptr → BtNodeEntry) : (httpHeaderFreeNode junk).Local := by
  intro p t m q hq
  exact Btree.modify_node_ne t (fun _ => junk p) hq

/-- Different live nodes may be given back one after the other. -/
theorem visitAll_free (junk : Ptr → BtNodeEntry) {ps : List Ptr} (hps : ps.Nodup) (t : Btree)
    {live : Finset Ptr} (freed : List Ptr) (hlive : ∀ p ∈ ps, p ∈ live) :
    ∃ live', (visitAll (httpHeaderFreeNode junk) ps (t, some (live, freed))).2 =
        some (live', freed ++ ps) ∧ ∀ p, p ∈ live' ↔ p ∈ live ∧ p ∉ ps := by
  induction ps generalizing t live freed with
  | nil =>
    refine ⟨live, by simp, ?_⟩
    intro p
    simp
  | cons p ps ih =>
    obtain ⟨hp, hps⟩ := List.nodup_cons.mp hps
    have hrest : ∀ q ∈ ps, q ∈ live.erase p := by
      intro q hq
      exact Finset.mem_erase.mpr
        ⟨ne_of_mem_of_not_mem hq hp, hlive q (List.mem_cons_of_mem p hq)⟩
    have hfree : freeNode p (some (live, freed)) = some (live.erase p, freed ++ [p]) :=
      if_pos (hlive p List.mem_cons_self)
    obtain ⟨live', hall, hmem⟩ := ih hps (t.modify p fun _ => junk p) (freed ++ [p]) hrest
    refine ⟨live', ?_, ?_⟩
    · rw [visitAll_cons, httpHeaderFreeNode, hfree]
      rw [List.append_assoc, List.singleton_append] at hall
      exact hall
    · intro q
      rw [hmem, Finset.mem_erase, List.mem_cons, not_or]
      tauto

/-- **`http_header_destroy`** gives back the nodes of the tree, each once, and no others. -/
theorem NodesInv.destroy {s : HeaderNodes} {fields : List BtKey} {v : BtreeView}
    (h : NodesInv s fields v) (junk : Ptr → BtNodeEntry) :
    ∃ s' freed, s.destroy junk = some (s', freed) ∧ freed.Nodup ∧
      (∀ p, p ∈ freed ↔ p ∈ v.tree.toList) ∧
      ∀ p, p ∈ s'.live ↔ p ∈ s.live ∧ p ∉ v.tree.toList := by
  have hnodup : (v.tree.walk .post).Nodup :=
    (v.tree.walk_perm_toList .post).nodup_iff.mpr v.ordered.nodup
  unfold HeaderNodes.destroy
  by_cases hroot : s.headers.headerTree.root.isSome
  · have hwalk : btreePostOrderTraverse s.headers.headerTree (httpHeaderFreeNode junk)
        (some (s.live, [])) = some (visitAll (httpHeaderFreeNode junk) (v.tree.walk .post)
          (s.headers.headerTree, some (s.live, []))) :=
      btreeTraverseAt_post_local (httpHeaderFreeNode_local junk) _ _ .treeRoot _ _
        h.represents.holds v.ordered.nodup (Nat.lt_succ_of_le h.represents.height_le)
    obtain ⟨live, hfree, hlive⟩ := visitAll_free junk hnodup s.headers.headerTree []
      fun p hp => h.live p ((Avl.AvlTree.mem_walk_iff .post).mp hp)
    rw [if_pos hroot, hwalk]
    simp only [Option.bind_eq_bind, Option.bind_some, hfree]
    refine ⟨_, _, rfl, hnodup, ?_, ?_⟩
    · intro p
      exact Avl.AvlTree.mem_walk_iff .post
    · intro p
      rw [hlive, Avl.AvlTree.mem_walk_iff]
  · have hnil : v.tree = .nil := h.represents.holds.none_iff.mp (by simpa using hroot)
    rw [if_neg hroot, hnil]
    refine ⟨s, [], rfl, List.nodup_nil, fun _ => Iff.rfl, ?_⟩
    intro p
    exact (and_iff_left List.not_mem_nil).symm

/-! ## 6. Ownership -/

/-- Every live node is a node of the tree. -/
def HeaderNodes.Owned (s : HeaderNodes) : Prop := ∀ p ∈ s.live, s.headers.headerTree.Linked p

/-- `http_header_destroy` gives back every live node, each once, and leaves none. -/
def HeaderNodes.Destroyed (s : HeaderNodes) : Prop :=
  ∀ junk, ∃ s' freed, s.destroy junk = some (s', freed) ∧ s'.live = ∅ ∧ freed.Nodup ∧
    ∀ p, p ∈ freed ↔ p ∈ s.live

theorem owned_run_iff (ops : List HeaderOp) :
    (HeaderNodes.run ops).Owned ↔ (ops.flatMap HeaderOp.fields).Nodup := by
  obtain ⟨v, h⟩ := nodesInv_run ops
  simp only [HeaderNodes.Owned, h.represents.linked_iff, h.owned]

theorem destroyed_of_owned {ops : List HeaderOp} (howned : (HeaderNodes.run ops).Owned) :
    (HeaderNodes.run ops).Destroyed := by
  intro junk
  obtain ⟨v, h⟩ := nodesInv_run ops
  obtain ⟨s', freed, hrun, hnodup, hfreed, hlive⟩ := h.destroy junk
  have htree : ∀ p ∈ (HeaderNodes.run ops).live, p ∈ v.tree.toList := fun p hp =>
    h.represents.linked_iff.mp (howned p hp)
  refine ⟨s', freed, hrun, ?_, hnodup, ?_⟩
  · apply Finset.eq_empty_of_forall_notMem
    intro p hp
    obtain ⟨hmem, hnot⟩ := (hlive p).mp hp
    exact hnot (htree p hmem)
  · intro p
    rw [hfreed]
    exact ⟨h.live p, htree p⟩

/-- **Ownership.**  After any calls every live node is in the tree, so that destroying the
    collection gives back each of them once, exactly if no field was added twice. -/
theorem httpHeader_owned (ops : List HeaderOp) :
    ((HeaderNodes.run ops).Owned ∧ (HeaderNodes.run ops).Destroyed) ↔
      (ops.flatMap HeaderOp.fields).Nodup := by
  rw [← owned_run_iff]
  exact ⟨fun h => h.1, fun h => ⟨h, destroyed_of_owned h⟩⟩

/-- A request with two `Host` lines: the second node is in no tree, and nobody gives it back. -/
theorem httpHeader_leaked :
    ¬ ((HeaderNodes.run [.parse (bytes "Host: a\r\nHost: b\r\n\r\n")]).Owned ∧
      (HeaderNodes.run [.parse (bytes "Host: a\r\nHost: b\r\n\r\n")]).Destroyed) := by
  rintro ⟨howned, -⟩
  have hnodup := (owned_run_iff _).mp howned
  revert hnodup
  decide +kernel

end OServer
