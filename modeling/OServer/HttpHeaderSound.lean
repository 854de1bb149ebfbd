/-
  OServer/HttpHeaderSound.lean
  ============================
  **Which slices the header parser hands over, and where it sees the end.**

  `headerCalls` lists the calls of `http_header_add` that a run of `http_header_parse`
  makes.  A call is sound when the name stands before the first colon of its line, the
  value behind it, and neither is empty.  The parser gives this up on a line that
  begins with a colon, and it takes every line of separators for the blank line.

    * `headerLoop_headers`    — the collection is what the listed calls make of it;
    * `httpHeaderParse_sound` — the exact condition on the lines of the buffer.
-/
import OServer.HttpHeaderLine

namespace OServer

open CString

/-! ## 1. The calls of `http_header_add` -/

/-- A call of `http_header_add`, with the buffer from the first byte of its line on. -/
structure HeaderCall where
  line : List UInt8
  name : List UInt8
  ln : Int
  value : List UInt8
  lv : Int
deriving DecidableEq, Repr

def HeaderCall.add (headers : HttpHeaderCollection) (c : HeaderCall) : HttpHeaderCollection :=
  (httpHeaderAdd headers c.name c.ln c.value c.lv).2

/-- The calls that the loop of `http_header_parse` makes; `line` is where the line began. -/
def headerCalls : List UInt8 → HeaderScan → List UInt8 → List HeaderCall
  | [], _, _ => []
  | b :: rest, st, line =>
      if b = LF then
        match lineEnd st with
        | .field name ln value lv =>
            ⟨line, name, ln, value, lv⟩ :: headerCalls rest (.start LF) rest
        | _ => []
      else
        match scanByte (b :: rest) st with
        | none => []
        | some st => headerCalls rest { st with pre := b } line

def httpHeaderCalls (buf : List UInt8) : List HeaderCall :=
  headerCalls buf (.start NUL) buf

theorem headerLoop_headers (p : List UInt8) (st : HeaderScan) (headers : HttpHeaderCollection)
    (rdlen j : Nat) (line : List UInt8) :
    (headerLoop p st headers rdlen j).headers =
      (headerCalls p st line).foldl HeaderCall.add headers := by
  induction p generalizing st headers rdlen j line with
  | nil => rfl
  | cons b p ih =>
    simp only [headerLoop, headerCalls]
    by_cases hb : b = LF
    · rw [if_pos hb, if_pos hb]
      cases lineEnd st with
      | bad => rfl
      | blank => rfl
      | field name ln value lv => exact ih _ _ _ _ p
    · rw [if_neg hb, if_neg hb]
      cases scanByte (b :: p) st with
      | none => rfl
      | some st' => exact ih _ _ _ _ line

theorem httpHeaderParse_headers (headers : HttpHeaderCollection) (buf : List UInt8) :
    (httpHeaderParse headers buf).headers = (httpHeaderCalls buf).foldl HeaderCall.add headers :=
  headerLoop_headers buf _ headers 0 0 buf

/-- The name of the call lies before the first colon of its line and the value behind it;
    neither is empty. -/
def HeaderCall.Inside (c : HeaderCall) : Prop :=
  ∃ lead name gap front value back rest : List UInt8,
    c.line = lead ++ (name ++ (gap ++ ':'.toUInt8 :: (front ++ value ++ back ++ LF :: rest))) ∧
      LF ∉ lead ++ (name ++ (gap ++ ':'.toUInt8 :: (front ++ value ++ back))) ∧
      ':'.toUInt8 ∉ lead ++ (name ++ gap) ∧ name ≠ [] ∧ value ≠ [] ∧
      c.name = name ++ (gap ++ ':'.toUInt8 :: (front ++ value ++ back ++ LF :: rest)) ∧
      c.ln = name.length ∧ c.value = value ++ back ++ LF :: rest ∧ c.lv = value.length

/-- The last line is an empty one. -/
def EndsBlank (p : List UInt8) : Prop :=
  ∃ x, p = x ++ [CR, LF] ∧ (x = [] ∨ x.getLast? = some LF)

/-! ## 2. Line by line -/

theorem headerCalls_line {w : List UInt8} (hw : LF ∉ w) (rest : List UInt8) (st : HeaderScan)
    (line : List UInt8) :
    headerCalls (w ++ rest) st line =
      match scanLine w rest st with
      | none => []
      | some st => headerCalls rest st line := by
  induction w generalizing st with
  | nil => rfl
  | cons b w ih =>
    rw [List.mem_cons, not_or] at hw
    have hb : b ≠ LF := Ne.symm hw.1
    simp only [List.cons_append, headerCalls, if_neg hb, scanLine]
    cases scanByte (b :: (w ++ rest)) st with
    | none => rfl
    | some st' => exact ih hw.2 _

theorem headerCalls_start (p line : List UInt8) :
    headerCalls p (.start LF) line = headerCalls p (.start NUL) line := by
  cases p with
  | nil => rfl
  | cons b p =>
    simp only [headerCalls]
    by_cases hb : b = LF
    · rw [if_pos hb, if_pos hb]
      rfl
    · rw [if_neg hb, if_neg hb, scanByte_start]
      cases scanByte (b :: p) (.start NUL) <;> rfl

theorem httpHeaderCalls_line {w : List UInt8} (hw : LF ∉ w) (rest : List UInt8) :
    httpHeaderCalls (w ++ LF :: rest) =
      match lineEndAt w (LF :: rest) with
      | .field name ln value lv => ⟨w ++ LF :: rest, name, ln, value, lv⟩ :: httpHeaderCalls rest
      | _ => [] := by
  unfold httpHeaderCalls
  rw [headerCalls_line hw, lineEndAt]
  cases scanLine w (LF :: rest) (.start NUL) with
  | none => rfl
  | some st =>
    simp only [headerCalls, if_true, headerCalls_start]

/-- The header lines of a buffer stop at the first line that is not complete. -/
theorem httpHeaderCalls_unfinished {w : List UInt8} (hw : LF ∉ w) : httpHeaderCalls w = [] := by
  have hline := headerCalls_line hw [] (.start NUL) w
  rw [List.append_nil] at hline
  rw [httpHeaderCalls, hline]
  cases scanLine w [] (.start NUL) <;> rfl

/-! ## 3. Lines that are misread -/

/-- A line with a name, a colon and a value. -/
def WellFormed (w : List UInt8) : Prop :=
  w.getLast? = some CR ∧ ∃ lead name gap t a v b, Named w lead name gap t ∧ Trimmed t a v b

/-- A line of separators that is not empty, or one that begins with a colon and holds two more
    bytes that are no separators. -/
def Misread (w : List UInt8) : Prop :=
  w.getLast? = some CR ∧
    ((w.all isSeparator = true ∧ w ≠ [CR]) ∨
      ∃ lead a d t, ColonFirst w lead a d t ∧ t.all isSeparator = false)

/-- The complete lines that the parser gets to: it goes on behind a well-formed one. -/
inductive LineReached : List UInt8 → List UInt8 → Prop where
  | here {w rest : List UInt8} (hw : LF ∉ w) : LineReached (w ++ LF :: rest) w
  | later {w rest w' : List UInt8} (hw : LF ∉ w) (hform : WellFormed w)
      (h : LineReached rest w') : LineReached (w ++ LF :: rest) w'

theorem lineReached_iff {w : List UInt8} (hw : LF ∉ w) (rest w' : List UInt8) :
    LineReached (w ++ LF :: rest) w' ↔ w' = w ∨ (WellFormed w ∧ LineReached rest w') := by
  constructor
  · intro h
    generalize hbuf : w ++ LF :: rest = buf at h
    cases h with
    | here hw' =>
      obtain ⟨rfl, -⟩ := first_unique hw hw' hbuf
      exact Or.inl rfl
    | later hw' hform h =>
      obtain ⟨rfl, rfl⟩ := first_unique hw hw' hbuf
      exact Or.inr ⟨hform, h⟩
  · intro h
    rcases h with rfl | ⟨hform, h⟩
    · exact .here hw
    · exact .later hw hform h

theorem not_lineReached {p : List UInt8} (hp : LF ∉ p) (w : List UInt8) : ¬LineReached p w := by
  intro h
  cases h <;> exact hp (List.mem_append_right _ List.mem_cons_self)

section Kinds
variable {w : List UInt8}

theorem not_separators {d : UInt8} (hd : isSeparator d = false) (hmem : d ∈ w) :
    ¬w.all isSeparator = true := by
  intro hall
  have h := List.all_eq_true.mp hall d hmem
  rw [hd] at h
  cases h

theorem ColonFirst.not_separators {lead a t : List UInt8} {d : UInt8}
    (h : ColonFirst w lead a d t) : ¬w.all isSeparator = true := by
  apply OServer.not_separators h.first
  rw [h.split]
  simp

theorem Named.not_separators {lead name gap t : List UInt8} (h : Named w lead name gap t) :
    ¬w.all isSeparator = true := by
  rcases h.first with ⟨d, m, hname, hd⟩
  apply OServer.not_separators hd
  rw [h.split, hname]
  simp

theorem Trimmed.not_separators {t a v b : List UInt8} (h : Trimmed t a v b) :
    t.all isSeparator = false := by
  rcases h.first with ⟨d, m, hv, hd⟩
  rw [Bool.eq_false_iff]
  apply OServer.not_separators hd
  rw [h.split, hv]
  simp

/-- A well-formed line is handed over as a name and a value. -/
theorem WellFormed.lineEndAt (h : WellFormed w) (tail : List UInt8) :
    ∃ name ln value lv, lineEndAt w tail = .field name ln value lv ∧ 0 < ln := by
  rcases h with ⟨hcr, lead, name, gap, t, a, v, b, hn, hv⟩
  rcases hn.first with ⟨d, m, hname, -⟩
  refine ⟨_, _, _, _, lineEndAt_named tail hn hv hcr, ?_⟩
  rw [hname, List.length_cons]
  omega

theorem not_wellFormed_of_bad (h : ∀ tail, OServer.lineEndAt w tail = .bad) : ¬WellFormed w := by
  intro hform
  rcases hform.lineEndAt [] with ⟨name, ln, value, lv, hfield, -⟩
  rw [h] at hfield
  cases hfield

theorem not_misread_of_bad (h : ∀ tail, OServer.lineEndAt w tail = .bad) : ¬Misread w := by
  intro hmis
  rcases hmis with ⟨hcr, ⟨hsep, -⟩ | ⟨lead, a, d, t, hc, ht⟩⟩
  · have hblank := lineEndAt_blank [] hsep hcr
    rw [h] at hblank
    cases hblank
  · rcases exists_trimmed t with hall | ⟨a', v, b, hv⟩
    · rw [ht] at hall
      cases hall
    · have hfield := lineEndAt_colon [] hc hv hcr
      rw [h] at hfield
      cases hfield

theorem misread_blank_iff (hsep : w.all isSeparator = true) (hcr : w.getLast? = some CR) :
    Misread w ↔ w ≠ [CR] := by
  constructor
  · intro hmis
    rcases hmis with ⟨-, ⟨-, hne⟩ | ⟨lead, a, d, t, hc, -⟩⟩
    · exact hne
    · exact absurd hsep hc.not_separators
  · intro hne
    exact ⟨hcr, Or.inl ⟨hsep, hne⟩⟩

/-- A line is not both well-formed and misread. -/
theorem WellFormed.not_misread (h : WellFormed w) : ¬Misread w := by
  intro hmis
  rcases h.lineEndAt [] with ⟨name, ln, value, lv, hfield, hln⟩
  rcases hmis with ⟨hcr, ⟨hsep, -⟩ | ⟨lead, a, d, t, hc, ht⟩⟩
  · rw [lineEndAt_blank [] hsep hcr] at hfield
    cases hfield
  · rcases exists_trimmed t with hall | ⟨a', v, b, hv⟩
    · rw [ht] at hall
      cases hall
    · rw [lineEndAt_colon [] hc hv hcr] at hfield
      injection hfield with hname hneg
      omega

end Kinds

/-! ## 4. Soundness -/

theorem endsBlank_line {w : List UInt8} (hw : LF ∉ w) :
    EndsBlank (w ++ [LF]) ↔ w = [CR] := by
  constructor
  · intro h
    rcases h with ⟨x, heq, hx⟩
    have hsplit : w = x ++ [CR] := by
      have hlast : w ++ [LF] = (x ++ [CR]) ++ [LF] := by
        rw [heq, List.append_assoc]
        rfl
      exact List.append_cancel_right hlast
    rcases hx with rfl | hx
    · exact hsplit
    · have hmem : LF ∈ x := List.mem_of_getLast? hx
      exact absurd (hsplit ▸ List.mem_append_left _ hmem) hw
  · intro h
    exact ⟨[], by rw [h]; rfl, Or.inl rfl⟩

/-- Complete lines in front make no difference. -/
theorem endsBlank_append (x : List UInt8) {q : List UInt8} (hq : q ≠ []) :
    EndsBlank (x ++ LF :: q) ↔ EndsBlank q := by
  constructor
  · intro h
    rcases h with ⟨y, heq, hy⟩
    obtain ⟨q', c, rfl⟩ := (List.eq_nil_or_concat' q).resolve_left hq
    have hcut : x ++ LF :: q' = y ++ [CR] ∧ c = LF := by
      have hlast : (x ++ LF :: q') ++ [c] = (y ++ [CR]) ++ [LF] := by
        rw [List.append_assoc, List.append_assoc]
        exact heq
      rcases List.append_inj' hlast rfl with ⟨hinit, htail⟩
      exact ⟨hinit, List.singleton_inj.mp htail⟩
    rcases hcut with ⟨hinit, rfl⟩
    rcases List.eq_nil_or_concat' q' with rfl | ⟨q, c, rfl⟩
    · have hdiff : LF = CR := List.singleton_inj.mp (List.append_inj' hinit rfl).2
      exact absurd hdiff (by decide)
    · have hlast : (x ++ LF :: q) ++ [c] = y ++ [CR] := by
        rw [List.append_assoc]
        exact hinit
      rcases List.append_inj' hlast rfl with ⟨rfl, hcr⟩
      obtain rfl := List.singleton_inj.mp hcr
      refine ⟨q, by simp, ?_⟩
      rcases hy with hnil | hy
      · exact absurd hnil (by simp)
      · cases q with
        | nil => exact Or.inl rfl
        | cons d q =>
          rw [List.getLast?_append, List.getLast?_cons_cons] at hy
          right
          cases hlast' : (d :: q).getLast? with
          | none => exact absurd (List.getLast?_eq_none_iff.mp hlast') (List.cons_ne_nil d q)
          | some b =>
            rw [hlast'] at hy
            exact hy
  · intro h
    rcases h with ⟨y, rfl, hy⟩
    refine ⟨x ++ LF :: y, by simp, Or.inr ?_⟩
    rcases hy with rfl | hy
    · exact List.getLast?_concat
    · rw [List.getLast?_append, List.getLast?_cons, hy]
      rfl

/-- Every call is made with slices of its line, and the end is seen at an empty line only. -/
def HeaderSound (buf : List UInt8) : Prop :=
  (∀ c ∈ httpHeaderCalls buf, c.Inside) ∧
    ∀ headers, (httpHeaderParse headers buf).isEnd = true →
      EndsBlank (buf.take (httpHeaderParse headers buf).rdlen)

/-- The parser sees no end but behind a line. -/
theorem httpHeaderParse_rdlen {headers : HttpHeaderCollection} {buf : List UInt8}
    (h : (httpHeaderParse headers buf).isEnd = true) :
    buf.take (httpHeaderParse headers buf).rdlen ≠ [] := by
  by_cases hbuf : LF ∈ buf
  · rcases List.eq_append_cons_of_mem hbuf with ⟨w, rest, rfl, hw⟩
    have hpos : (httpHeaderParse headers (w ++ LF :: rest)).rdlen ≠ 0 := by
      rw [httpHeaderParse_line hw] at h ⊢
      cases hline : lineResult w with
      | bad =>
        rw [hline] at h
        cases h
      | blank => exact Nat.succ_ne_zero w.length
      | field name ln value lv =>
        simp only [HeaderParse.shift]
        omega
    intro hnil
    rcases List.take_eq_nil_iff.mp hnil with hzero | hnil
    · exact hpos hzero
    · simp at hnil
  · rw [httpHeaderParse_unfinished hbuf] at h
    cases hscan : scanLine buf [] (.start NUL) with
    | none =>
      rw [hscan] at h
      cases h
    | some st =>
      rw [hscan] at h
      cases h

/-- Where the parser stops does not depend on the collection. -/
theorem headerLoop_ends (p : List UInt8) (st : HeaderScan) (headers headers' : HttpHeaderCollection)
    (rdlen j : Nat) :
    (headerLoop p st headers rdlen j).isEnd = (headerLoop p st headers' rdlen j).isEnd ∧
      (headerLoop p st headers rdlen j).rdlen = (headerLoop p st headers' rdlen j).rdlen := by
  induction p generalizing st headers headers' rdlen j with
  | nil => exact ⟨rfl, rfl⟩
  | cons b p ih =>
    simp only [headerLoop]
    by_cases hb : b = LF
    · rw [if_pos hb, if_pos hb]
      cases lineEnd st with
      | bad => exact ⟨rfl, rfl⟩
      | blank => exact ⟨rfl, rfl⟩
      | field name ln value lv => exact ih _ _ _ _ _
    · rw [if_neg hb, if_neg hb]
      cases scanByte (b :: p) st with
      | none => exact ⟨rfl, rfl⟩
      | some st' => exact ih _ _ _ _ _

/-- The call that a well-formed line leads to. -/
theorem WellFormed.inside {w : List UInt8} (hw : LF ∉ w) (h : WellFormed w) (rest : List UInt8)
    {name value : List UInt8} {ln lv : Int}
    (hfield : OServer.lineEndAt w (LF :: rest) = .field name ln value lv) :
    (HeaderCall.mk (w ++ LF :: rest) name ln value lv).Inside := by
  rcases h with ⟨hcr, lead, n, gap, t, a, v, b, hn, hv⟩
  rw [lineEndAt_named (LF :: rest) hn hv hcr] at hfield
  injection hfield with hname hln hvalue hlv
  have hlead : ∀ {l : List UInt8}, (∀ b ∈ l, b = CR ∨ b = SP) → ':'.toUInt8 ∉ l := by
    intro l hl hmem
    rcases hl _ hmem with h | h
    · exact absurd h (by decide)
    · exact absurd h (by decide)
  refine ⟨lead, n, gap, a, v, b, rest, ?_, ?_, ?_, ?_, hv.ne, ?_, hln.symm, hvalue.symm, hlv.symm⟩
  · rw [hn.split, hv.split]
    simp
  · rw [← hv.split, ← hn.split]
    exact hw
  · intro hmem
    rcases List.mem_append.mp hmem with hmem | hmem
    · exact hlead hn.lead hmem
    · rcases List.mem_append.mp hmem with hmem | hmem
      · exact (hn.name _ hmem).2 rfl
      · rcases hn.gap with rfl | ⟨g, rfl, hg⟩
        · exact absurd hmem List.not_mem_nil
        · rcases List.mem_cons.mp hmem with hsp | hmem
          · exact absurd hsp (by decide)
          · exact hlead hg hmem
  · rcases hn.first with ⟨d, m, rfl, -⟩
    exact List.cons_ne_nil d m
  · rw [← hname, hv.split]

section Steps
variable {w : List UInt8} (hw : LF ∉ w) (rest : List UInt8)
include hw

theorem headerSound_bad (h : ∀ tail, lineEndAt w tail = .bad) : HeaderSound (w ++ LF :: rest) := by
  constructor
  · intro c hc
    rw [httpHeaderCalls_line hw, h] at hc
    exact absurd hc List.not_mem_nil
  · intro headers hend
    have hline : lineResult w = .bad := h [LF]
    rw [httpHeaderParse_line hw, hline] at hend
    cases hend

theorem headerSound_blank (hsep : w.all isSeparator = true) (hcr : w.getLast? = some CR) :
    HeaderSound (w ++ LF :: rest) ↔ w = [CR] := by
  have hline : lineResult w = .blank := lineEndAt_blank [LF] hsep hcr
  have htake : (w ++ LF :: rest).take (w.length + 1) = w ++ [LF] := by
    rw [← List.singleton_append, ← List.append_assoc]
    exact List.take_left' List.length_append
  constructor
  · intro h
    have hend := h.2 httpHeaderInit
    rw [httpHeaderParse_line hw, hline] at hend
    have hblank := hend rfl
    rw [htake] at hblank
    exact (endsBlank_line hw).mp hblank
  · intro h
    constructor
    · intro c hc
      rw [httpHeaderCalls_line hw, lineEndAt_blank (LF :: rest) hsep hcr] at hc
      exact absurd hc List.not_mem_nil
    · intro headers hend
      rw [httpHeaderParse_line hw, hline]
      simp only [htake]
      exact (endsBlank_line hw).mpr h

theorem headerSound_named (hform : WellFormed w) :
    HeaderSound (w ++ LF :: rest) ↔ HeaderSound rest := by
  rcases hform.lineEndAt (LF :: rest) with ⟨name, ln, value, lv, hfield, -⟩
  have hcalls := httpHeaderCalls_line hw rest
  rw [hfield] at hcalls
  have hinside := hform.inside hw rest hfield
  have hends : ∀ headers headers',
      (httpHeaderParse headers (w ++ LF :: rest)).isEnd = (httpHeaderParse headers' rest).isEnd ∧
      (w ++ LF :: rest).take (httpHeaderParse headers (w ++ LF :: rest)).rdlen =
        w ++ LF :: rest.take (httpHeaderParse headers' rest).rdlen := by
    intro headers headers'
    rcases hform.lineEndAt [LF] with ⟨name', ln', value', lv', hline, -⟩
    have hresult : lineResult w = .field name' ln' value' lv' := hline
    have hsame := headerLoop_ends rest (.start NUL)
      ((LineEnd.field name' ln' value' lv').add headers) headers' 0 0
    rw [httpHeaderParse_line hw, hresult]
    simp only [HeaderParse.shift]
    refine ⟨hsame.1, ?_⟩
    have hrdlen : (httpHeaderParse ((LineEnd.field name' ln' value' lv').add headers) rest).rdlen =
        (httpHeaderParse headers' rest).rdlen := hsame.2
    rw [hrdlen, List.take_append, List.take_of_length_le (by omega)]
    congr 1
    have hlen : w.length + 1 + (httpHeaderParse headers' rest).rdlen - w.length =
        (httpHeaderParse headers' rest).rdlen + 1 := by omega
    rw [hlen, List.take_succ_cons]
  constructor
  · intro h
    refine ⟨fun c hc => h.1 c (by rw [hcalls]; exact List.mem_cons_of_mem _ hc), ?_⟩
    intro headers hend
    rcases hends headers headers with ⟨hsame, htake⟩
    have hblank := h.2 headers (hsame.trans hend)
    rw [htake] at hblank
    exact (endsBlank_append w (httpHeaderParse_rdlen hend)).mp hblank
  · intro h
    constructor
    · intro c hc
      rw [hcalls] at hc
      rcases List.mem_cons.mp hc with rfl | hc
      · exact hinside
      · exact h.1 c hc
    · intro headers hend
      rcases hends headers headers with ⟨hsame, htake⟩
      have hend' := hsame.symm.trans hend
      rw [htake]
      exact (endsBlank_append w (httpHeaderParse_rdlen hend')).mpr (h.2 headers hend')

theorem not_headerSound_colon {lead a a' v b t : List UInt8} {d : UInt8}
    (h : ColonFirst w lead a d t) (hv : Trimmed t a' v b) (hcr : w.getLast? = some CR) :
    ¬HeaderSound (w ++ LF :: rest) := by
  intro hsound
  have hcalls := httpHeaderCalls_line hw rest
  rw [lineEndAt_colon (LF :: rest) h hv hcr] at hcalls
  have hinside := hsound.1 _ (by rw [hcalls]; exact List.mem_cons_self)
  rcases hinside with ⟨_, _, _, _, _, _, _, _, _, _, _, _, _, hln, -⟩
  simp only at hln
  omega

end Steps

/-- **Soundness of the header parser.**  Every call has its name before the first colon of the
    line and its value behind it, and the end is seen at an empty line, if and only if the parser
    gets to no line that it misreads. -/
theorem httpHeaderParse_sound (buf : List UInt8) :
    HeaderSound buf ↔ ∀ w, LineReached buf w → ¬Misread w := by
  by_cases hbuf : LF ∈ buf
  swap
  · constructor
    · intro _ w h
      exact absurd h (not_lineReached hbuf w)
    · intro _
      constructor
      · intro c hc
        rw [httpHeaderCalls_unfinished hbuf] at hc
        exact absurd hc List.not_mem_nil
      · intro headers hend
        rw [httpHeaderParse_unfinished hbuf] at hend
        cases hscan : scanLine buf [] (.start NUL) <;> rw [hscan] at hend <;> cases hend
  rcases List.eq_append_cons_of_mem hbuf with ⟨w, rest, hsplit, hw⟩
  have hreached : ¬WellFormed w → ((∀ w', LineReached buf w' → ¬Misread w') ↔ ¬Misread w) := by
    intro hform
    rw [hsplit]
    constructor
    · intro h
      exact h w (.here hw)
    · intro h w' hw'
      rcases (lineReached_iff hw rest w').mp hw' with rfl | ⟨hform', -⟩
      · exact h
      · exact absurd hform' hform
  rcases lineShape w with hbad | ⟨hsep, hcr⟩ | ⟨hn, hv, hcr⟩ | ⟨hc, hv, hcr⟩
  · rw [hreached (not_wellFormed_of_bad hbad), hsplit]
    exact iff_of_true (headerSound_bad hw rest hbad) (not_misread_of_bad hbad)
  · have hform : ¬WellFormed w := by
      intro hform
      rcases hform.2 with ⟨lead, name, gap, t, a, v, b, hn, -⟩
      exact hn.not_separators hsep
    rw [hreached hform, hsplit, headerSound_blank hw rest hsep hcr, misread_blank_iff hsep hcr,
      not_not]
  · have hform : WellFormed w := ⟨hcr, _, _, _, _, _, _, _, hn, hv⟩
    rw [hsplit, headerSound_named hw rest hform, httpHeaderParse_sound rest]
    constructor
    · intro h w' hw'
      rcases (lineReached_iff hw rest w').mp hw' with rfl | ⟨-, hw'⟩
      · exact hform.not_misread
      · exact h w' hw'
    · intro h w' hw'
      exact h w' (.later hw hform hw')
  · have hmis : Misread w := ⟨hcr, Or.inr ⟨_, _, _, _, hc, hv.not_separators⟩⟩
    have hform : ¬WellFormed w := fun hform => hform.not_misread hmis
    rw [hreached hform, hsplit]
    exact iff_of_false (not_headerSound_colon hw rest hc hv hcr) (not_not_intro hmis)
termination_by buf.length
decreasing_by
  rw [hsplit]
  simp
  omega

/-- The first line hands `a` over with a name of length -1, the second one is taken for the blank
    line. -/
theorem httpHeaderParse_not_sound :
    ¬HeaderSound (bytes ":a b\r\n") ∧ ¬HeaderSound (bytes " \r\n") := by
  constructor
  · intro h
    have hcalls : httpHeaderCalls (bytes ":a b\r\n") =
        [⟨bytes ":a b\r\n", bytes "a b\r\n", -1, bytes "b\r\n", 1⟩] := by decide
    rw [HeaderSound, hcalls] at h
    rcases h.1 _ List.mem_cons_self with ⟨_, _, _, _, _, _, _, _, _, _, _, _, _, hln, -⟩
    simp only at hln
    omega
  · intro h
    have hw : LF ∉ bytes " \r" := by decide
    have hblank := (headerSound_blank hw [] (by decide) (by decide)).mp h
    exact absurd hblank (by decide)

end OServer
