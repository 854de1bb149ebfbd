/-
  OServer/HttpHeaderBlock.lean
  ============================
  **Parsing a whole header block.**

  A block is a sequence of lines, each with a name and a value, and an empty line
  behind them.  The parser goes through it and keeps for each field of the table the
  first value that a line gives it.

    * `httpHeaderParse_lines`  — the run over the lines that are read as a name and a value;
    * `httpHeaderParse_block`  — a block written line by line is kept as it was written
                                 exactly when its values neither begin nor end with a colon.
-/
import OServer.HttpHeaderLine
import OServer.HttpHeaderMap
import OServer.HttpHeaderSearch
import Mathlib.Data.List.DropRight

namespace OServer

open CString

/-! ## 1. Lines that are read -/

/-- A line, and what the parser makes of it. -/
structure HeaderLine where
  text : List UInt8
  name : List UInt8
  value : List UInt8
deriving DecidableEq, Repr

/-- The parser hands the name and the value over. -/
structure HeaderLine.Read (l : HeaderLine) : Prop where
  line : LF ∉ l.text
  cr : l.text.getLast? = some CR
  slices : ∃ lead gap t a b, Named l.text lead l.name gap t ∧ Trimmed t a l.value b
  name : NUL ∉ l.name
  value : NUL ∉ l.value

/-- The line of the field `id`. -/
def HeaderLine.Names (l : HeaderLine) (id : BtKey) : Prop :=
  InTable id ∧ SameName l.name (httpHeaderField id).str

instance HeaderLine.namesDecidable (l : HeaderLine) (id : BtKey) : Decidable (l.Names id) :=
  inferInstanceAs (Decidable (_ ∧ List.map tolower _ = List.map tolower _))

/-- What is stored for a value. -/
def storedHeader (value : List UInt8) : HttpHeader := ⟨value, Int16.ofInt value.length⟩

/-- The first value that a line gives the field. -/
def firstValue (ls : List HeaderLine) (id : BtKey) : Option HttpHeader :=
  (ls.find? fun l => l.Names id).map fun l => storedHeader l.value

/-- Lines and the empty line behind them. -/
def blockText (ls : List HeaderLine) : List UInt8 :=
  ls.flatMap (fun l => l.text ++ [LF]) ++ [CR, LF]

theorem blockText_cons (l : HeaderLine) (ls : List HeaderLine) :
    blockText (l :: ls) = l.text ++ LF :: blockText ls := by
  simp [blockText]

/-! ## 2. The run over the lines -/

namespace HeaderLine

variable {l : HeaderLine} {headers : HttpHeaderCollection} {m : BtKey → Option HttpHeader}

theorem Read.name_ne (h : l.Read) : l.name ≠ [] := by
  rcases h.slices with ⟨lead, gap, t, a, b, hn, -⟩
  rcases hn.first with ⟨d, n, hname, -⟩
  rw [hname]
  exact List.cons_ne_nil d n

theorem Read.value_ne (h : l.Read) : l.value ≠ [] := by
  rcases h.slices with ⟨lead, gap, t, a, b, -, hv⟩
  exact hv.ne

/-- The first byte of a slice that holds no `NUL`. -/
theorem peek_slice {w : List UInt8} (hw : w ≠ []) (hnul : NUL ∉ w) (rest : List UInt8) :
    peek (w ++ rest) ≠ NUL := by
  cases w with
  | nil => exact absurd rfl hw
  | cons b w =>
    intro h
    have hb : b = NUL := h
    exact hnul (hb ▸ List.mem_cons_self)

/-- The search names the id of the line. -/
theorem Read.search_iff (h : l.Read) (rest : List UInt8) (id : BtKey) :
    (httpHeaderBinaryNSearch (l.name ++ rest) l.name.length).map Int16.ofNat = some id ↔
      l.Names id := by
  rw [Option.map_eq_some_iff]
  constructor
  · intro hsearch
    rcases hsearch with ⟨i, hi, rfl⟩
    rcases (httpHeaderBinaryNSearch_iff h.name rest i).mp hi with ⟨hlt, hsame⟩
    exact ⟨(inTable_ofNat hlt).1, hsame⟩
  · intro hnames
    rcases hnames with ⟨hid, hsame⟩
    refine ⟨id.toInt.toNat, (httpHeaderBinaryNSearch_iff h.name rest _).mpr ⟨hid.2, ?_⟩, hid.ofNat⟩
    rw [hid.ofNat]
    exact hsame

/-- The call for the line stores its value unless the field has one. -/
theorem Read.add (h : l.Read) (hm : headers.Maps m) (nrest vrest : List UInt8) :
    ((LineEnd.field (l.name ++ nrest) l.name.length (l.value ++ vrest) l.value.length).add
      headers).Maps fun id =>
        (m id).or (if l.Names id then some (storedHeader l.value) else none) := by
  have hadd : (LineEnd.field (l.name ++ nrest) l.name.length (l.value ++ vrest)
      l.value.length).add headers =
        (httpHeaderAdd headers (l.name ++ nrest) l.name.length (l.value ++ vrest)
          l.value.length).2 := rfl
  have hslices : ¬(peek (l.name ++ nrest) = NUL ∨ peek (l.value ++ vrest) = NUL) := by
    rw [not_or]
    exact ⟨peek_slice h.name_ne h.name nrest, peek_slice h.value_ne h.value vrest⟩
  rw [hadd, httpHeaderAdd, if_neg hslices]
  cases hsearch : httpHeaderBinaryNSearch (l.name ++ nrest) l.name.length with
  | none =>
    have hnone : ∀ id, ¬l.Names id := by
      intro id hid
      have hsome := (h.search_iff nrest id).mpr hid
      rw [hsearch] at hsome
      cases hsome
    simp only [if_neg (hnone _), Option.or_none]
    exact hm
  | some i =>
    have hstored := hm.add (Int16.ofNat i) l.value.length
      (peek_slice h.value_ne h.value vrest)
    have hnames : ∀ id, l.Names id ↔ id = Int16.ofNat i := by
      intro id
      rw [← h.search_iff nrest id, hsearch, Option.map_some, Option.some.injEq]
      exact eq_comm
    have htake : (l.value ++ vrest).take (l.value.length : Int).toNat = l.value :=
      List.take_left
    rw [htake] at hstored
    have hsame : (fun id => (m id).or (if l.Names id then some (storedHeader l.value) else none)) =
        addFirst m (Int16.ofNat i) ⟨l.value, Int16.ofInt l.value.length⟩ := by
      funext id
      rw [addFirst_apply]
      simp only [hnames id]
      rfl
    rw [hsame]
    exact hstored

end HeaderLine

/-- **The run over a block** whose lines are all read. -/
theorem httpHeaderParse_lines (ls : List HeaderLine) (hls : ∀ l ∈ ls, l.Read)
    {headers : HttpHeaderCollection} {m : BtKey → Option HttpHeader} (hm : headers.Maps m) :
    ∃ headers', httpHeaderParse headers (blockText ls) =
        ⟨0, (blockText ls).length, true, headers'⟩ ∧
      headers'.Maps fun id => (m id).or (firstValue ls id) := by
  induction ls generalizing headers m with
  | nil =>
    refine ⟨headers, ?_, ?_⟩
    · have hw : LF ∉ [CR] := by decide
      have hblank : lineResult [CR] = .blank := rfl
      have hline := httpHeaderParse_line hw [] headers
      rw [hblank] at hline
      exact hline
    · have hnone : (fun id => (m id).or (firstValue [] id)) = m := by
        funext id
        exact Option.or_none
      rw [hnone]
      exact hm
  | cons l ls ih =>
    have hl := hls l List.mem_cons_self
    rcases hl.slices with ⟨lead, gap, t, a, b, hn, hv⟩
    have hresult : lineResult l.text = .field (l.name ++ (gap ++ ':'.toUInt8 :: (t ++ [LF])))
        l.name.length (l.value ++ (b ++ [LF])) l.value.length := by
      rw [← List.append_assoc l.value]
      exact lineEndAt_named [LF] hn hv hl.cr
    rcases ih (fun l hl => hls l (List.mem_cons_of_mem _ hl))
      (hl.add hm (gap ++ ':'.toUInt8 :: (t ++ [LF])) (b ++ [LF])) with ⟨headers', hrun, hmaps⟩
    refine ⟨headers', ?_, ?_⟩
    · rw [blockText_cons, httpHeaderParse_line hl.line, hresult]
      simp only [hrun, HeaderParse.shift, List.length_append, List.length_cons]
      congr 1
      omega
    · have hsame : (fun id => (m id).or (firstValue (l :: ls) id)) = fun id =>
          ((m id).or (if l.Names id then some (storedHeader l.value) else none)).or
            (firstValue ls id) := by
        funext id
        rw [Option.or_assoc, firstValue, List.find?_cons]
        by_cases hid : l.Names id
        · rw [if_pos hid, decide_eq_true hid]
          rfl
        · rw [if_neg hid, decide_eq_false hid]
          rfl
      rw [hsame]
      exact hmaps

/-! ## 3. Lines as they are written -/

/-- The value without the separators at its ends. -/
def strip (v : List UInt8) : List UInt8 :=
  (v.dropWhile isSeparator).rdropWhile isSeparator

theorem Trimmed.strip {t a v b : List UInt8} (h : Trimmed t a v b) : OServer.strip t = v := by
  rcases h with ⟨rfl, ha, hb, ⟨d, m, hv, hd⟩, ⟨m', d', hv', hd'⟩⟩
  have hdrop : (a ++ v ++ b).dropWhile isSeparator = v ++ b := by
    rw [List.append_assoc, List.dropWhile_append_of_pos (List.all_eq_true.mp ha), hv,
      List.cons_append, List.dropWhile_cons_of_neg (by rw [hd]; exact Bool.false_ne_true)]
  have hback : (v ++ b).rdropWhile isSeparator = v := by
    rw [List.rdropWhile, List.reverse_append,
      List.dropWhile_append_of_pos fun x hx => List.all_eq_true.mp hb x (List.mem_reverse.mp hx)]
    rw [hv', List.reverse_append, List.reverse_singleton, List.singleton_append,
      List.dropWhile_cons_of_neg (by rw [hd']; exact Bool.false_ne_true), List.reverse_cons,
      List.reverse_reverse]
  rw [OServer.strip, hdrop, hback]

theorem spaces_all (n : Nat) : (List.replicate n SP).all isSeparator = true := by
  rw [List.all_eq_true]
  intro b hb
  rw [List.eq_of_mem_replicate hb]
  rfl

/-- A line of a block: the name, the colon, and the value between spaces. -/
structure BlockLine where
  name : List UInt8
  before : Nat
  value : List UInt8
  after : Nat
  name_ne : name ≠ []
  name_bytes : ∀ b ∈ name, b ∉ [SP, ':'.toUInt8, CR, LF, NUL]
  value_ne : value ≠ []
  value_bytes : ∀ b ∈ value, b ∉ [CR, LF, NUL]
  value_len : value.length < 32768
  value_first : value.head? ≠ some SP
  value_last : value.getLast? ≠ some SP

namespace BlockLine

def text (l : BlockLine) : List UInt8 :=
  l.name ++ ':'.toUInt8 ::
    (List.replicate l.before SP ++ l.value ++ List.replicate l.after SP ++ [CR])

/-- The line as the parser reads it. -/
def line (l : BlockLine) : HeaderLine := ⟨l.text, l.name, strip l.value⟩

variable (l : BlockLine)

theorem lf_not_mem : LF ∉ l.text := by
  have hname : LF ∉ l.name := fun h => l.name_bytes _ h (by decide)
  have hvalue : LF ∉ l.value := fun h => l.value_bytes _ h (by decide)
  have hsp : ∀ n, LF ∉ List.replicate n SP := fun n h =>
    absurd (List.eq_of_mem_replicate h) (by decide)
  simp only [text, List.mem_append, List.mem_cons, not_or, List.not_mem_nil, not_false_eq_true,
    and_true]
  exact ⟨hname, by decide, ⟨⟨hsp _, hvalue⟩, hsp _⟩, by decide⟩

theorem getLast_text : l.text.getLast? = some CR := by
  have hassoc : l.text = (l.name ++ ':'.toUInt8 ::
      (List.replicate l.before SP ++ l.value ++ List.replicate l.after SP)) ++ [CR] := by
    simp [text]
  rw [hassoc]
  exact List.getLast?_concat

theorem named : Named l.text [] l.name []
    (List.replicate l.before SP ++ l.value ++ List.replicate l.after SP ++ [CR]) := by
  have hsep : ∀ b ∈ l.name, isSeparator b = false := by
    intro b hb
    rw [Bool.eq_false_iff]
    intro hs
    apply l.name_bytes b hb
    rcases (isSeparator_iff b).mp hs with rfl | rfl | rfl <;> decide
  refine ⟨rfl, fun b hb => absurd hb List.not_mem_nil, ?_, ?_, Or.inl rfl⟩
  · rcases List.exists_cons_of_ne_nil l.name_ne with ⟨d, m, hname⟩
    exact ⟨d, m, hname, hsep d (by rw [hname]; exact List.mem_cons_self)⟩
  · intro b hb
    exact (text_ne (hsep b hb)).2

/-- The bytes around the value are separators. -/
theorem trimmed {a v b : List UInt8} (h : Trimmed l.value a v b) :
    Trimmed (List.replicate l.before SP ++ l.value ++ List.replicate l.after SP ++ [CR])
      (List.replicate l.before SP ++ a) v (b ++ List.replicate l.after SP ++ [CR]) := by
  refine ⟨?_, ?_, ?_, h.first, h.last⟩
  · rw [h.split]
    simp
  · rw [List.all_append, spaces_all, h.left]
    rfl
  · rw [List.all_append, List.all_append, spaces_all, h.right]
    rfl

/-- A line whose value is more than separators is read. -/
theorem line_read (h : l.value.all isSeparator = false) : l.line.Read := by
  rcases exists_trimmed l.value with hall | ⟨a, v, b, hv⟩
  · rw [h] at hall
    cases hall
  have hstrip : strip l.value = v := hv.strip
  have hslices : Trimmed _ _ (strip l.value) _ := hstrip ▸ l.trimmed hv
  refine ⟨l.lf_not_mem, l.getLast_text, ⟨[], [], _, _, _, l.named, hslices⟩, ?_, ?_⟩
  · intro hnul
    exact l.name_bytes _ hnul (by decide)
  · intro hnul
    change NUL ∈ strip l.value at hnul
    rw [hstrip] at hnul
    refine l.value_bytes NUL ?_ (by decide)
    rw [hv.split]
    exact List.mem_append_left _ (List.mem_append_right _ hnul)

/-- A line whose value is all separators is refused. -/
theorem lineResult_bad (h : l.value.all isSeparator = true) : lineResult l.text = .bad := by
  refine lineEndAt_no_value [LF] l.named ?_
  rw [List.all_append, List.all_append, List.all_append, spaces_all, spaces_all, h]
  rfl

/-- The value is kept as it is when its ends are no colons. -/
theorem strip_eq_iff (h : l.value.all isSeparator = false) : strip l.value = l.value ↔
    l.value.head? ≠ some ':'.toUInt8 ∧ l.value.getLast? ≠ some ':'.toUInt8 := by
  rcases exists_trimmed l.value with hall | ⟨a, v, b, hv⟩
  · rw [h] at hall
    cases hall
  rcases hv.first with ⟨d, m, hd, hd'⟩
  rcases hv.last with ⟨u, e, he, he'⟩
  -- a separator at an end of the value can only be a colon
  have hcolon : ∀ c ∈ l.value, isSeparator c = true → c ≠ SP → c = ':'.toUInt8 := by
    intro c hc hsep hsp
    rcases (isSeparator_iff c).mp hsep with h | h | h
    · exact absurd (by rw [h]; exact List.mem_cons_self) (l.value_bytes c hc)
    · exact absurd h hsp
    · exact h
  have hfront : a = [] ↔ l.value.head? ≠ some ':'.toUInt8 := by
    cases a with
    | nil =>
      refine iff_of_true rfl ?_
      rw [hv.split, hd]
      intro heq
      exact (text_ne hd').2.2 (Option.some.inj heq)
    | cons c a =>
      have hhead : l.value.head? = some c := by
        rw [hv.split]
        rfl
      have hsep : isSeparator c = true := List.all_eq_true.mp hv.left c List.mem_cons_self
      have hsp : c ≠ SP := fun hsp => l.value_first (hhead.trans (congrArg some hsp))
      refine iff_of_false (List.cons_ne_nil c a) (not_not_intro ?_)
      rw [hhead, hcolon c (List.mem_of_head? hhead) hsep hsp]
  have hback : b = [] ↔ l.value.getLast? ≠ some ':'.toUInt8 := by
    rcases List.eq_nil_or_concat' b with rfl | ⟨b, c, rfl⟩
    · refine iff_of_true rfl ?_
      rw [hv.split, he, List.append_nil, ← List.append_assoc, List.getLast?_concat]
      intro heq
      exact (text_ne he').2.2 (Option.some.inj heq)
    · have hlast : l.value.getLast? = some c := by
        rw [hv.split, ← List.append_assoc, List.getLast?_concat]
      have hsep : isSeparator c = true :=
        List.all_eq_true.mp hv.right c (List.mem_append_right _ List.mem_cons_self)
      have hsp : c ≠ SP := fun hsp => l.value_last (hlast.trans (congrArg some hsp))
      refine iff_of_false (by simp) (not_not_intro ?_)
      rw [hlast, hcolon c (List.mem_of_getLast? hlast) hsep hsp]
  have hstrip : strip l.value = v := hv.strip
  rw [← hfront, ← hback, hstrip]
  constructor
  · intro heq
    have hlen := congrArg List.length (heq.trans hv.split)
    simp only [List.length_append] at hlen
    exact ⟨List.length_eq_zero_iff.mp (by omega), List.length_eq_zero_iff.mp (by omega)⟩
  · rintro ⟨rfl, rfl⟩
    rw [hv.split, List.nil_append, List.append_nil]

end BlockLine

/-! ## 4. Fidelity -/

/-- The line that the field takes its value from. -/
def firstNaming (ls : List BlockLine) (id : BtKey) : Option BlockLine :=
  ls.find? fun l => l.line.Names id

/-- What a block says: the first value written for a field of the table. -/
def writtenValue (ls : List BlockLine) (id : BtKey) : Option HttpHeader :=
  (firstNaming ls id).map fun l => storedHeader l.value

/-- The block is parsed to its end, and the collection holds what it says. -/
def Faithful (ls : List BlockLine) : Prop :=
  let text := blockText (ls.map BlockLine.line)
  let r := httpHeaderParse httpHeaderInit text
  r.ret = 0 ∧ r.isEnd = true ∧ r.rdlen = text.length ∧ r.headers.Maps (writtenValue ls)

/-- A value of separators alone makes the parser refuse the block. -/
theorem httpHeaderParse_block_bad {ls : List BlockLine}
    (h : ∃ l ∈ ls, l.value.all isSeparator = true) (headers : HttpHeaderCollection) :
    (httpHeaderParse headers (blockText (ls.map BlockLine.line))).ret = -1 := by
  induction ls generalizing headers with
  | nil =>
    rcases h with ⟨l, hl, -⟩
    exact absurd hl List.not_mem_nil
  | cons l ls ih =>
    have hline := httpHeaderParse_line l.lf_not_mem (blockText (ls.map BlockLine.line)) headers
    rw [List.map_cons, blockText_cons]
    change (httpHeaderParse headers (l.text ++ LF :: blockText (ls.map BlockLine.line))).ret = -1
    rw [hline]
    cases hall : l.value.all isSeparator with
    | true => rw [l.lineResult_bad hall]
    | false =>
      have hlater : ∃ l ∈ ls, l.value.all isSeparator = true := by
        rcases h with ⟨l', hl', hall'⟩
        rcases List.mem_cons.mp hl' with rfl | hl'
        · rw [hall] at hall'
          cases hall'
        · exact ⟨l', hl', hall'⟩
      rcases exists_trimmed l.value with hsep | ⟨a, v, b, hv⟩
      · rw [hall] at hsep
        cases hsep
      have hresult := lineEndAt_named [LF] l.named (l.trimmed hv) l.getLast_text
      change lineResult l.text = _ at hresult
      rw [hresult]
      exact ih hlater _

/-- What is kept for a field. -/
theorem firstValue_line (ls : List BlockLine) (id : BtKey) :
    firstValue (ls.map BlockLine.line) id =
      (firstNaming ls id).map fun l => storedHeader (strip l.value) := by
  rw [firstValue, firstNaming, List.find?_map, Option.map_map]
  rfl

/-- A block without refused lines is kept as it was written when what is kept is what was written. -/
theorem faithful_iff {ls : List BlockLine} (hall : ∀ l ∈ ls, l.value.all isSeparator = false) :
    Faithful ls ↔ firstValue (ls.map BlockLine.line) = writtenValue ls := by
  have hread : ∀ l ∈ ls.map BlockLine.line, l.Read := by
    intro l' hl'
    rcases List.mem_map.mp hl' with ⟨l, hl, rfl⟩
    exact l.line_read (hall l hl)
  rcases httpHeaderParse_lines _ hread HttpHeaderCollection.maps_init with ⟨headers', hrun, hmaps⟩
  have hmap : headers'.Maps (firstValue (ls.map BlockLine.line)) := hmaps
  unfold Faithful
  simp only [hrun, true_and]
  constructor
  · intro h
    exact hmap.unique h
  · intro h
    rw [← h]
    exact hmap

/-- **Fidelity of the header parser.**  A block is kept as it was written if and only if each value
    has a byte that is neither a space nor a colon, and the values that count neither begin nor
    end with a colon. -/
theorem httpHeaderParse_block (ls : List BlockLine) :
    Faithful ls ↔ (∀ l ∈ ls, l.value.all isSeparator = false) ∧
      ∀ id l, firstNaming ls id = some l →
        l.value.head? ≠ some ':'.toUInt8 ∧ l.value.getLast? ≠ some ':'.toUInt8 := by
  by_cases hall : ∀ l ∈ ls, l.value.all isSeparator = false
  swap
  · refine iff_of_false ?_ fun h => hall h.1
    intro h
    have hbad : ∃ l ∈ ls, l.value.all isSeparator = true := by
      by_contra hnone
      apply hall
      intro l hl
      rw [Bool.eq_false_iff]
      intro hsep
      exact hnone ⟨l, hl, hsep⟩
    have hret := h.1.symm.trans (httpHeaderParse_block_bad hbad httpHeaderInit)
    cases hret
  rw [faithful_iff hall, and_iff_right hall]
  constructor
  · intro h id l hl
    have hval := congrFun h id
    rw [firstValue_line, writtenValue, hl, Option.map_some, Option.map_some,
      Option.some.injEq] at hval
    have hmem : l ∈ ls := List.mem_of_find?_eq_some hl
    exact (l.strip_eq_iff (hall l hmem)).mp (congrArg HttpHeader.value hval)
  · intro h
    funext id
    rw [firstValue_line, writtenValue]
    cases hl : firstNaming ls id with
    | none => rfl
    | some l =>
      have hmem : l ∈ ls := List.mem_of_find?_eq_some hl
      rw [Option.map_some, Option.map_some, (l.strip_eq_iff (hall l hmem)).mpr (h id l hl)]

/-- `Host: :80`, and a line with a colon as its value. -/
def hostLine : BlockLine :=
  ⟨bytes "Host", 1, bytes ":80", 0, by decide, by decide, by decide,
    by decide, by decide, by decide, by decide⟩

def colonLine : BlockLine :=
  ⟨bytes "Host", 1, bytes ":", 0, by decide, by decide, by decide,
    by decide, by decide, by decide, by decide⟩

/-- The first block is kept without the colon, the second one is refused. -/
theorem httpHeaderParse_not_faithful : ¬Faithful [hostLine] ∧ ¬Faithful [colonLine] := by
  constructor
  · intro h
    have hall : ∀ l ∈ [hostLine], l.value.all isSeparator = false := by
      intro l hl
      obtain rfl := List.mem_singleton.mp hl
      decide
    have hval := congrFun ((faithful_iff hall).mp h) 41
    revert hval
    decide +kernel
  · intro h
    have hbad : ∃ l ∈ [colonLine], l.value.all isSeparator = true :=
      ⟨colonLine, List.mem_cons_self, by decide⟩
    have hret := h.1.symm.trans (httpHeaderParse_block_bad hbad httpHeaderInit)
    cases hret

end OServer
