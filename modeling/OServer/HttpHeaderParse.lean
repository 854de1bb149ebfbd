/-
  OServer/HttpHeaderParse.lean
  ============================
  **The header parser works line by line.**

  What `http_header_parse` does with a line depends on the bytes of the line alone
  (`lineResult`), neither on where the buffer starts nor on what follows.  So a call
  may stop between two lines, and the next call may go on there.
-/
import OServer.HttpHeader
import OServer.Lib.Resume

namespace OServer

open CString Resume

/-! ## 1. What follows a line does not matter -/

/-- The pointers into a buffer that `q` is appended to. -/
def HeaderScan.extend (q : List UInt8) (st : HeaderScan) : HeaderScan :=
  { s := st.s.map (· ++ q), e := st.e.map (· ++ q), ne := st.ne.map (· ++ q),
    c := st.c.map (· ++ q), vs := st.vs.map (· ++ q), pre := st.pre }

def LineEnd.extend (q : List UInt8) : LineEnd → LineEnd
  | .field name ln value lv => .field (name ++ q) ln (value ++ q) lv
  | l => l

theorem HeaderScan.extend_mk (q : List UInt8) (s e ne c vs : Option (List UInt8)) (pre : UInt8) :
    (HeaderScan.mk s e ne c vs pre).extend q =
      ⟨s.map (· ++ q), e.map (· ++ q), ne.map (· ++ q), c.map (· ++ q), vs.map (· ++ q), pre⟩ := rfl

@[simp] theorem HeaderScan.extend_start (q : List UInt8) (pre : UInt8) :
    (HeaderScan.start pre).extend q = .start pre := rfl

/-- Pointers point at bytes. -/
structure HeaderScan.Valid (st : HeaderScan) : Prop where
  s : ∀ p, st.s = some p → p ≠ []
  e : ∀ p, st.e = some p → p ≠ []
  vs : ∀ p, st.vs = some p → p ≠ []

theorem HeaderScan.valid_start (pre : UInt8) : (HeaderScan.start pre).Valid :=
  ⟨fun _ h => (nomatch h), fun _ h => (nomatch h), fun _ h => (nomatch h)⟩

theorem peek_append {p : List UInt8} (q : List UInt8) (h : p ≠ []) : peek (p ++ q) = peek p := by
  cases p with
  | nil => exact absurd rfl h
  | cons c p => rfl

theorem scanByte_extend {cur : List UInt8} (q : List UInt8) (st : HeaderScan) (h : cur ≠ []) :
    scanByte (cur ++ q) (st.extend q) = (scanByte cur st).map (·.extend q) := by
  rcases st with ⟨s, e, ne, c, vs, pre⟩
  rw [HeaderScan.extend_mk]
  simp only [scanByte, peek_append q h, Option.isSome_map, Option.isNone_map]
  split_ifs
  all_goals simp_all [HeaderScan.extend_mk]

theorem scanByte_valid {cur : List UInt8} {st st' : HeaderScan} (hcur : cur ≠ [])
    (h : scanByte cur st = some st') (hv : st.Valid) (b : UInt8) :
    HeaderScan.Valid { st' with pre := b } := by
  rcases hv with ⟨hs, he, hvs⟩
  unfold scanByte at h
  split_ifs at h
  all_goals
    obtain rfl := Option.some.inj h
    constructor
    all_goals intro p hp
    all_goals first
      | exact hs p hp
      | exact he p hp
      | exact hvs p hp
      | exact Option.some.inj hp ▸ hcur

/-- The bytes `w` of a line, with `rest` behind them. -/
def scanLine : List UInt8 → List UInt8 → HeaderScan → Option HeaderScan
  | [], _, st => some st
  | b :: w, rest, st =>
      match scanByte (b :: (w ++ rest)) st with
      | none => none
      | some st => scanLine w rest { st with pre := b }

theorem scanLine_extend (w rest q : List UInt8) (st : HeaderScan) :
    scanLine w (rest ++ q) (st.extend q) = (scanLine w rest st).map (·.extend q) := by
  induction w generalizing st with
  | nil => rfl
  | cons b w ih =>
    have hb := scanByte_extend q st (List.cons_ne_nil b (w ++ rest))
    rw [List.cons_append, List.append_assoc] at hb
    simp only [scanLine, hb]
    cases scanByte (b :: (w ++ rest)) st with
    | none => rfl
    | some st' => exact ih { st' with pre := b }

theorem scanLine_valid {w rest : List UInt8} {st st' : HeaderScan}
    (h : scanLine w rest st = some st') (hv : st.Valid) : st'.Valid := by
  induction w generalizing st with
  | nil => exact Option.some.inj h ▸ hv
  | cons b w ih =>
    simp only [scanLine] at h
    cases hb : scanByte (b :: (w ++ rest)) st with
    | none =>
      rw [hb] at h
      cases h
    | some st₁ =>
      rw [hb] at h
      exact ih h (scanByte_valid (List.cons_ne_nil _ _) hb hv b)

theorem lineEnd_extend {st : HeaderScan} (q : List UInt8) (hv : st.Valid) :
    lineEnd (st.extend q) = (lineEnd st).extend q := by
  rcases st with ⟨s, e, ne, c, vs, pre⟩
  rw [HeaderScan.extend_mk]
  unfold lineEnd
  by_cases hpre : pre ≠ CR
  · rw [if_pos hpre, if_pos hpre]
    rfl
  rw [if_neg hpre, if_neg hpre]
  cases s with
  | none => rfl
  | some s =>
    cases vs with
    | none => rfl
    | some vs =>
      cases e with
      | none => rfl
      | some e =>
        cases ne with
        | none => rfl
        | some ne =>
          have he : e ≠ [] := hv.e e rfl
          simp only [Option.map_some, LineEnd.extend, List.tail_append_of_ne_nil he,
            List.length_append, LineEnd.field.injEq, true_and]
          omega

/-! ## 2. Adding a header looks at its slices only -/

theorem sameUpTo_append (f : UInt8 → UInt8) (n : Nat) (p q t : List UInt8) (h : n ≤ p.length) :
    sameUpTo f n (p ++ q) t = sameUpTo f n p t := by
  induction n generalizing p t with
  | zero => rfl
  | succ n ih =>
    cases p with
    | nil => simp at h
    | cons c p =>
      rw [List.length_cons] at h
      simp only [sameUpTo, List.cons_append, List.tail_cons, ih p _ (Nat.le_of_succ_le_succ h)]
      rfl

theorem httpHeaderAdd_append (headers : HttpHeaderCollection) {name value : List UInt8}
    {ln lv : Int} (q : List UInt8) (hname : name ≠ []) (hvalue : value ≠ [])
    (hln : ln.toNat ≤ name.length) (hlv : lv.toNat ≤ value.length) :
    httpHeaderAdd headers (name ++ q) ln (value ++ q) lv =
      httpHeaderAdd headers name ln value lv := by
  have hhash : httpHeaderNHash (name ++ q) ln = httpHeaderNHash name ln := by
    rw [httpHeaderNHash, httpHeaderNHash, List.take_append_of_le_length hln]
  have hsame : (fun i => strncasecmpEq (name ++ q) (httpHeaderField (Int16.ofNat i)).str ln.toNat) =
      fun i => strncasecmpEq name (httpHeaderField (Int16.ofNat i)).str ln.toNat := by
    funext i
    exact sameUpTo_append tolower ln.toNat name q _ hln
  have hsearch : httpHeaderBinaryNSearch (name ++ q) ln = httpHeaderBinaryNSearch name ln := by
    rw [httpHeaderBinaryNSearch, httpHeaderBinaryNSearch, hhash, hsame]
  have hadd : ∀ id, httpHeaderAddById headers id (value ++ q) lv =
      httpHeaderAddById headers id value lv := by
    intro id
    simp only [httpHeaderAddById, peek_append q hvalue, List.take_append_of_le_length hlv]
  rw [httpHeaderAdd, httpHeaderAdd, hsearch, peek_append q hname, peek_append q hvalue]
  cases httpHeaderBinaryNSearch name ln with
  | none => rfl
  | some id => simp only [hadd]

/-! ## 3. Lines -/

/-- The outcome of the line `w`, given without its `'\n'`. -/
def lineResult (w : List UInt8) : LineEnd :=
  match scanLine w [LF] (.start NUL) with
  | none => .bad
  | some st => lineEnd st

/-- What a line does to the collection. -/
def LineEnd.add (headers : HttpHeaderCollection) : LineEnd → HttpHeaderCollection
  | .field name ln value lv => (httpHeaderAdd headers name ln value lv).2
  | _ => headers

theorem lineResult_extend {w : List UInt8} {st : HeaderScan}
    (h : scanLine w [LF] (.start NUL) = some st) (q : List UInt8)
    (headers : HttpHeaderCollection) :
    (lineEnd (st.extend q)).add headers = (lineEnd st).add headers := by
  have hv := scanLine_valid h (HeaderScan.valid_start NUL)
  rw [lineEnd_extend q hv]
  rcases st with ⟨s, e, ne, c, vs, pre⟩
  unfold lineEnd
  simp only
  split_ifs
  · rfl
  · split
    · rfl
    · refine congrArg Prod.snd (httpHeaderAdd_append headers q ?_ ?_ ?_ ?_)
      · exact hv.s _ rfl
      · exact hv.vs _ rfl
      · omega
      · omega
    · rfl

theorem headerLoop_line {w : List UInt8} (hw : LF ∉ w) (rest : List UInt8) (st : HeaderScan)
    (headers : HttpHeaderCollection) (rdlen j : Nat) :
    headerLoop (w ++ rest) st headers rdlen j =
      match scanLine w rest st with
      | none => ⟨-1, rdlen, false, headers⟩
      | some st => headerLoop rest st headers rdlen (j + w.length) := by
  induction w generalizing st j with
  | nil => rfl
  | cons b w ih =>
    rw [List.mem_cons, not_or] at hw
    have hb : b ≠ LF := Ne.symm hw.1
    simp only [List.cons_append, headerLoop, if_neg hb, scanLine, List.length_cons]
    cases scanByte (b :: (w ++ rest)) st with
    | none => rfl
    | some st' =>
      simp only [ih hw.2, Nat.add_assoc, Nat.add_comm 1]

def HeaderParse.shift (k : Nat) (r : HeaderParse) : HeaderParse :=
  { r with rdlen := k + r.rdlen }

theorem headerLoop_shift (k : Nat) (p : List UInt8) (st : HeaderScan)
    (headers : HttpHeaderCollection) (rdlen j : Nat) :
    headerLoop p st headers (k + rdlen) (k + j) = (headerLoop p st headers rdlen j).shift k := by
  induction p generalizing st headers rdlen j with
  | nil => rfl
  | cons b p ih =>
    simp only [headerLoop]
    by_cases hb : b = LF
    · rw [if_pos hb, if_pos hb]
      cases lineEnd st with
      | bad => rfl
      | blank => rfl
      | field name ln value lv => exact ih _ _ (j + 1) (j + 1)
    · rw [if_neg hb, if_neg hb]
      cases scanByte (b :: p) st with
      | none => rfl
      | some st' => exact ih _ _ rdlen (j + 1)

/-- At the start of a line the byte before is only kept. -/
theorem scanByte_start (cur : List UInt8) :
    scanByte cur (.start LF) = (scanByte cur (.start NUL)).map fun st => { st with pre := LF } := by
  simp only [scanByte, HeaderScan.start]
  split_ifs <;> rfl

/-- Before a line, the byte of the line end counts as much as no byte. -/
theorem headerLoop_start (p : List UInt8) (headers : HttpHeaderCollection) (rdlen j : Nat) :
    headerLoop p (.start LF) headers rdlen j = headerLoop p (.start NUL) headers rdlen j := by
  cases p with
  | nil => rfl
  | cons b p =>
    simp only [headerLoop]
    by_cases hb : b = LF
    · rw [if_pos hb, if_pos hb]
      rfl
    · rw [if_neg hb, if_neg hb, scanByte_start]
      cases scanByte (b :: p) (.start NUL) <;> rfl

/-- **A complete line.** -/
theorem httpHeaderParse_line {w : List UInt8} (hw : LF ∉ w) (rest : List UInt8)
    (headers : HttpHeaderCollection) :
    httpHeaderParse headers (w ++ LF :: rest) =
      match lineResult w with
      | .bad => ⟨-1, 0, false, headers⟩
      | .blank => ⟨0, w.length + 1, true, headers⟩
      | .field name ln value lv =>
          (httpHeaderParse ((LineEnd.field name ln value lv).add headers) rest).shift
            (w.length + 1) := by
  have hext := scanLine_extend w [LF] rest (.start NUL)
  rw [List.singleton_append, HeaderScan.extend_start] at hext
  rw [httpHeaderParse, headerLoop_line hw, hext, lineResult]
  cases hst : scanLine w [LF] (.start NUL) with
  | none => rfl
  | some st =>
    have hadd := lineResult_extend hst rest headers
    have hend := lineEnd_extend rest (scanLine_valid hst (HeaderScan.valid_start NUL))
    simp only [Option.map_some, headerLoop, if_true]
    rw [hend] at hadd ⊢
    cases hl : lineEnd st with
    | bad => rfl
    | blank => simp [LineEnd.extend]
    | field name ln value lv =>
      rw [hl] at hadd
      simp only [LineEnd.extend, LineEnd.add] at hadd ⊢
      rw [hadd, headerLoop_start, Nat.zero_add]
      exact headerLoop_shift (w.length + 1) rest _ _ 0 0

/-- **A line that is not complete yet.** -/
theorem httpHeaderParse_unfinished {w : List UInt8} (hw : LF ∉ w) (headers : HttpHeaderCollection) :
    httpHeaderParse headers w =
      match scanLine w [] (.start NUL) with
      | none => ⟨-1, 0, false, headers⟩
      | some _ => ⟨0, 0, false, headers⟩ := by
  have hline := headerLoop_line hw [] (.start NUL) headers 0 0
  rw [List.append_nil] at hline
  rw [httpHeaderParse, hline]
  rfl

/-! ## 4. Cutting a header block -/

def HeaderParse.verdict (r : HeaderParse) : Verdict HttpHeaderCollection :=
  if r.ret < 0 then .reject r.headers
  else if r.isEnd then .done r.headers r.rdlen
  else .more r.headers r.rdlen

theorem HeaderParse.verdict_shift (k : Nat) (r : HeaderParse) :
    (r.shift k).verdict = r.verdict.shift k := by
  unfold verdict shift
  dsimp only
  split_ifs <;> rfl

/-- **The header parser may be cut anywhere.** -/
theorem httpHeaderParse_splits (headers : HttpHeaderCollection) (p : List UInt8) :
    Splits (fun headers p => (httpHeaderParse headers p).verdict) headers p := by
  by_cases hp : LF ∈ p
  · rcases List.eq_append_cons_of_mem hp with ⟨w, rest, hwr, hw⟩
    have hrun : ∀ q, httpHeaderParse headers (p ++ q) =
        httpHeaderParse headers (w ++ LF :: (rest ++ q)) := fun q => by
      rw [hwr, List.append_assoc, List.cons_append]
    cases hl : lineResult w with
    | bad =>
      refine .reject headers fun q => ?_
      rw [hrun, httpHeaderParse_line hw, hl]
      rfl
    | blank =>
      refine .done headers (w.length + 1) (by simp [hwr]) fun q => ?_
      rw [hrun, httpHeaderParse_line hw, hl]
      rfl
    | field name ln value lv =>
      have hdrop : p.drop (w.length + 1) = rest := by
        simp [hwr]
      refine .token ((LineEnd.field name ln value lv).add headers) (w.length + 1) ?_
        (fun q => ?_) ?_
      · rw [hwr]
        simp
      · rw [hrun, httpHeaderParse_line hw, hl, HeaderParse.verdict_shift, hdrop]
      · rw [hdrop]
        exact httpHeaderParse_splits _ rest
  · cases hst : scanLine p [] (.start NUL) with
    | none =>
      refine .reject headers fun q => ?_
      have hext := scanLine_extend p [] q (.start NUL)
      rw [List.nil_append, HeaderScan.extend_start, hst] at hext
      rw [httpHeaderParse, headerLoop_line hp, hext]
      rfl
    | some st =>
      refine .more ?_
      rw [httpHeaderParse_unfinished hp, hst]
      rfl
termination_by p.length
decreasing_by
  rw [hwr]
  simp
  omega

end OServer
