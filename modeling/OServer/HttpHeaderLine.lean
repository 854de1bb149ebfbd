/-
  OServer/HttpHeaderLine.lean
  ===========================
  **What the header parser makes of a line.**

  The five pointers of the scanner depend on the first byte of the line that is neither
  a carriage return nor a space, on the first space behind the name, on the first colon,
  and on the first and the last byte of the value.

    * `lineEndAt_named`  — a line with a name, a colon and a value;
    * `lineEndAt_colon`  — a line that begins with a colon: the first byte behind it is
                           taken for the start of the name;
    * `lineShape`        — every line is of one of these kinds, or blank, or refused.
-/
import OServer.HttpHeaderParse

namespace OServer

open CString

/-! ## 1. Separators -/

/-- The bytes that a blank line consists of, and that do not start a field. -/
def isSeparator (b : UInt8) : Bool := b == CR || b == SP || b == ':'.toUInt8

/-- A field starts at the first byte that is no separator. -/
theorem scanByte_s {cur : List UInt8} {st st' : HeaderScan} (h : scanByte cur st = some st') :
    st'.s.isNone = (st.s.isNone && isSeparator (peek cur)) := by
  unfold scanByte at h
  unfold isSeparator
  split_ifs at h
  all_goals
    obtain rfl := Option.some.inj h
    simp_all

theorem scanLine_s {w rest : List UInt8} {st st' : HeaderScan}
    (h : scanLine w rest st = some st') : st'.s.isNone = (st.s.isNone && w.all isSeparator) := by
  induction w generalizing st with
  | nil =>
    obtain rfl := Option.some.inj h
    simp
  | cons b w ih =>
    simp only [scanLine] at h
    cases hb : scanByte (b :: (w ++ rest)) st with
    | none =>
      rw [hb] at h
      cases h
    | some st₁ =>
      rw [hb] at h
      have hs := scanByte_s hb
      have hrec := ih h
      rw [hrec, List.all_cons, ← Bool.and_assoc]
      exact congrArg (· && w.all isSeparator) hs

/-- The line that ends a request is one of separators. -/
theorem lineResult_separators {w : List UInt8} (h : lineResult w ≠ .bad) :
    lineResult w = .blank ↔ w.all isSeparator = true := by
  unfold lineResult at h ⊢
  cases hst : scanLine w [LF] (.start NUL) with
  | none => exact absurd (by rw [hst]) h
  | some st =>
    have hs := scanLine_s hst
    rw [hst] at h
    simp only at h ⊢
    unfold lineEnd at h ⊢
    split_ifs at h ⊢ with hpre
    · exact absurd rfl h
    · rcases st with ⟨s, e, ne, c, vs, pre⟩
      cases s with
      | none => simpa [HeaderScan.start] using hs
      | some s =>
        cases vs <;> cases e <;> cases ne <;> simp_all [HeaderScan.start]

/-! ## 2. Scanning -/

/-- The outcome of the line `w` when `tail` follows it. -/
def lineEndAt (w tail : List UInt8) : LineEnd :=
  match scanLine w tail (.start NUL) with
  | none => .bad
  | some st => lineEnd st

theorem scanLine_append (w w' rest : List UInt8) (st : HeaderScan) :
    scanLine (w ++ w') rest st = (scanLine w (w' ++ rest) st).bind (scanLine w' rest) := by
  induction w generalizing st with
  | nil => rfl
  | cons b w ih =>
    rw [List.cons_append, scanLine, scanLine, List.append_assoc]
    cases scanByte (b :: (w ++ (w' ++ rest))) st with
    | none => rfl
    | some st' => exact ih _

/-- The byte before is the last one of the line. -/
theorem scanLine_pre {w rest : List UInt8} {st st' : HeaderScan}
    (h : scanLine w rest st = some st') : st'.pre = w.getLast?.getD st.pre := by
  induction w generalizing st with
  | nil =>
    obtain rfl := Option.some.inj h
    rfl
  | cons b w ih =>
    simp only [scanLine] at h
    cases hb : scanByte (b :: (w ++ rest)) st with
    | none =>
      rw [hb] at h
      cases h
    | some st₁ =>
      rw [hb] at h
      rw [ih h]
      cases w with
      | nil => rfl
      | cons c w =>
        rw [List.getLast?_cons_cons]
        cases hlast : (c :: w).getLast? with
        | none => exact absurd (List.getLast?_eq_none_iff.mp hlast) (List.cons_ne_nil c w)
        | some d => rfl

theorem isSeparator_iff (b : UInt8) :
    isSeparator b = true ↔ b = CR ∨ b = SP ∨ b = ':'.toUInt8 := by
  simp [isSeparator, or_assoc]

theorem text_ne {b : UInt8} (h : isSeparator b = false) :
    b ≠ CR ∧ b ≠ SP ∧ b ≠ ':'.toUInt8 := by
  have hnot := mt (isSeparator_iff b).mpr (by rw [h]; exact Bool.false_ne_true)
  exact ⟨fun h => hnot (Or.inl h), fun h => hnot (Or.inr (Or.inl h)),
    fun h => hnot (Or.inr (Or.inr h))⟩

/-- A byte that is no separator. -/
theorem scanByte_text {b : UInt8} (h : isSeparator b = false) (q : List UInt8) (st : HeaderScan) :
    scanByte (b :: q) st =
      if st.ne.isSome ∧ st.c.isNone then none
      else if st.s.isNone then some { st with s := some (b :: q) }
      else if st.c.isSome ∧ st.vs.isNone then
        some { st with vs := some (b :: q), e := some (b :: q) }
      else if st.vs.isSome then some { st with e := some (b :: q) }
      else some st := by
  rcases text_ne h with ⟨hcr, hsp, hcolon⟩
  have hpeek : peek (b :: q) = b := rfl
  rw [scanByte, hpeek, if_neg hcr, if_neg hsp, if_neg hcolon]

section Phases
variable {w : List UInt8} (rest : List UInt8) {s e n c vs : List UInt8} (pre : UInt8)

/-- Before the name: carriage returns and spaces. -/
theorem scanLine_lead (hw : ∀ b ∈ w, b = CR ∨ b = SP) :
    ∃ pre', scanLine w rest (.start pre) = some (.start pre') := by
  induction w generalizing pre with
  | nil => exact ⟨pre, rfl⟩
  | cons b w ih =>
    have hb : scanByte (b :: (w ++ rest)) (.start pre) = some (.start pre) := by
      rcases hw b List.mem_cons_self with rfl | rfl <;> rfl
    simp only [scanLine, hb]
    exact ih b fun d hd => hw d (List.mem_cons_of_mem b hd)

/-- In the name. -/
theorem scanLine_name (hw : ∀ b ∈ w, b ≠ SP ∧ b ≠ ':'.toUInt8) :
    ∃ pre', scanLine w rest ⟨some s, none, none, none, none, pre⟩ =
      some ⟨some s, none, none, none, none, pre'⟩ := by
  induction w generalizing pre with
  | nil => exact ⟨pre, rfl⟩
  | cons b w ih =>
    have hb : scanByte (b :: (w ++ rest)) ⟨some s, none, none, none, none, pre⟩ =
        some ⟨some s, none, none, none, none, pre⟩ := by
      rcases hw b List.mem_cons_self with ⟨hsp, hcolon⟩
      have hpeek : peek (b :: (w ++ rest)) = b := rfl
      simp [scanByte, hpeek, hsp, hcolon]
    simp only [scanLine, hb]
    exact ih b fun d hd => hw d (List.mem_cons_of_mem b hd)

/-- Between the name and the colon. -/
theorem scanLine_gap (hw : ∀ b ∈ w, b = CR ∨ b = SP) :
    ∃ pre', scanLine w rest ⟨some s, none, some n, none, none, pre⟩ =
      some ⟨some s, none, some n, none, none, pre'⟩ := by
  induction w generalizing pre with
  | nil => exact ⟨pre, rfl⟩
  | cons b w ih =>
    have hb : scanByte (b :: (w ++ rest)) ⟨some s, none, some n, none, none, pre⟩ =
        some ⟨some s, none, some n, none, none, pre⟩ := by
      rcases hw b List.mem_cons_self with rfl | rfl <;> rfl
    simp only [scanLine, hb]
    exact ih b fun d hd => hw d (List.mem_cons_of_mem b hd)

/-- Behind the colon separators are skipped. -/
theorem scanLine_skip (hw : w.all isSeparator = true) (s e n vs : Option (List UInt8)) :
    ∃ pre', scanLine w rest ⟨s, e, n, some c, vs, pre⟩ = some ⟨s, e, n, some c, vs, pre'⟩ := by
  induction w generalizing pre with
  | nil => exact ⟨pre, rfl⟩
  | cons b w ih =>
    rw [List.all_cons, Bool.and_eq_true] at hw
    have hb : scanByte (b :: (w ++ rest)) ⟨s, e, n, some c, vs, pre⟩ =
        some ⟨s, e, n, some c, vs, pre⟩ := by
      have hpeek : peek (b :: (w ++ rest)) = b := rfl
      rcases (isSeparator_iff b).mp hw.1 with rfl | rfl | rfl <;> simp [scanByte, hpeek]
    simp only [scanLine, hb]
    exact ih b hw.2

/-- In the value. -/
theorem scanLine_value (e : List UInt8) :
    ∃ e' pre', scanLine w rest ⟨some s, some e, some n, some c, some vs, pre⟩ =
      some ⟨some s, some e', some n, some c, some vs, pre'⟩ := by
  induction w generalizing e pre with
  | nil => exact ⟨e, pre, rfl⟩
  | cons b w ih =>
    obtain ⟨e₁, hb⟩ : ∃ e₁, scanByte (b :: (w ++ rest))
        ⟨some s, some e, some n, some c, some vs, pre⟩ =
        some ⟨some s, some e₁, some n, some c, some vs, pre⟩ := by
      cases hsep : isSeparator b with
      | true =>
        have hpeek : peek (b :: (w ++ rest)) = b := rfl
        rcases (isSeparator_iff b).mp hsep with rfl | rfl | rfl
        all_goals exact ⟨e, by simp [scanByte, hpeek]⟩
      | false =>
        rw [scanByte_text hsep]
        exact ⟨_, rfl⟩
    simp only [scanLine, hb]
    exact ih b e₁

/-- The value ends at its last byte that is no separator. -/
theorem scanLine_value_last {d : UInt8} {b : List UInt8} (hd : isSeparator d = false)
    (hb : b.all isSeparator = true) (e : List UInt8) :
    ∃ e' pre', e'.tail = b ++ rest ∧
      scanLine (w ++ d :: b) rest ⟨some s, some e, some n, some c, some vs, pre⟩ =
        some ⟨some s, some e', some n, some c, some vs, pre'⟩ := by
  rcases scanLine_value (w := w) (s := s) (c := c) (d :: b ++ rest) pre e
    with ⟨e₁, pre₁, hvalue⟩
  have hlast : scanByte (d :: (b ++ rest)) ⟨some s, some e₁, some n, some c, some vs, pre₁⟩ =
      some ⟨some s, some (d :: (b ++ rest)), some n, some c, some vs, pre₁⟩ :=
    scanByte_text hd _ _
  rcases scanLine_skip rest d hb (some s) (some (d :: (b ++ rest))) (some n) (some vs)
    with ⟨pre₂, hskip⟩
  refine ⟨d :: (b ++ rest), pre₂, rfl, ?_⟩
  rw [scanLine_append, hvalue, Option.bind_some, scanLine, hlast]
  exact hskip

end Phases

/-! ## 3. Values -/

/-- The value of what stands behind the colon: separators at both ends are left out. -/
structure Trimmed (t a v b : List UInt8) : Prop where
  split : t = a ++ v ++ b
  left : a.all isSeparator = true
  right : b.all isSeparator = true
  first : ∃ d m, v = d :: m ∧ isSeparator d = false
  last : ∃ m d, v = m ++ [d] ∧ isSeparator d = false

theorem Trimmed.ne {t a v b : List UInt8} (h : Trimmed t a v b) : v ≠ [] := by
  rcases h.first with ⟨d, m, rfl, -⟩
  exact List.cons_ne_nil d m

/-- The first byte that is no separator, and the last one. -/
theorem exists_text (t : List UInt8) :
    t.all isSeparator = true ∨ ∃ a d t', t = a ++ d :: t' ∧ a.all isSeparator = true ∧
      isSeparator d = false := by
  induction t with
  | nil => exact Or.inl rfl
  | cons c t ih =>
    cases hc : isSeparator c with
    | false => exact Or.inr ⟨[], c, t, rfl, rfl, hc⟩
    | true =>
      rcases ih with hall | ⟨a, d, t', rfl, ha, hd⟩
      · exact Or.inl (by rw [List.all_cons, hc, hall]; rfl)
      · exact Or.inr ⟨c :: a, d, t', rfl, by rw [List.all_cons, hc, ha]; rfl, hd⟩

theorem exists_last_text (t : List UInt8) :
    t.all isSeparator = true ∨ ∃ t' d b, t = t' ++ d :: b ∧ b.all isSeparator = true ∧
      isSeparator d = false := by
  induction t with
  | nil => exact Or.inl rfl
  | cons c t ih =>
    rcases ih with hall | ⟨t', d, b, rfl, hb, hd⟩
    · cases hc : isSeparator c with
      | false => exact Or.inr ⟨[], c, t, rfl, hall, hc⟩
      | true => exact Or.inl (by rw [List.all_cons, hc, hall]; rfl)
    · exact Or.inr ⟨c :: t', d, b, rfl, hb, hd⟩

theorem exists_trimmed (t : List UInt8) :
    t.all isSeparator = true ∨ ∃ a v b, Trimmed t a v b := by
  rcases exists_text t with hall | ⟨a, d, t', rfl, ha, hd⟩
  · exact Or.inl hall
  right
  rcases exists_last_text t' with hall | ⟨u, d', b, rfl, hb, hd'⟩
  · exact ⟨a, [d], t', by simp, ha, hall, ⟨d, [], rfl, hd⟩, [], d, rfl, hd⟩
  · exact ⟨a, d :: u ++ [d'], b, by simp, ha, hb, ⟨d, u ++ [d'], rfl, hd⟩, d :: u, d', rfl, hd'⟩

/-- **The value slice** is the trimmed text. -/
theorem scanLine_trimmed {t a v b : List UInt8} (h : Trimmed t a v b) (rest s ne c : List UInt8)
    (pre : UInt8) : ∃ e pre', e.tail = b ++ rest ∧
      scanLine t rest ⟨some s, none, some ne, some c, none, pre⟩ =
        some ⟨some s, some e, some ne, some c, some (v ++ b ++ rest), pre'⟩ := by
  rcases h with ⟨rfl, ha, hb, ⟨d, m, rfl, hd⟩, ⟨u, d', hlast, hd'⟩⟩
  rcases scanLine_skip (d :: m ++ b ++ rest) pre ha (some s) none (some ne) none with ⟨pre₁, hskip⟩
  have hstart : ∀ q, scanByte (d :: q) ⟨some s, none, some ne, some c, none, pre₁⟩ =
      some ⟨some s, some (d :: q), some ne, some c, some (d :: q), pre₁⟩ :=
    fun q => scanByte_text hd q _
  rw [List.append_assoc, scanLine_append, hskip, Option.bind_some, List.cons_append, scanLine,
    hstart]
  cases u with
  | nil =>
    -- the value is one byte
    obtain ⟨rfl, rfl⟩ := List.cons.inj hlast
    rcases scanLine_skip rest d hb (some s) (some (d :: (b ++ rest))) (some ne)
      (some (d :: (b ++ rest))) with ⟨pre₂, hskip'⟩
    exact ⟨d :: (b ++ rest), pre₂, rfl, hskip'⟩
  | cons d₀ u =>
    have hm : m = u ++ [d'] := (List.cons.inj hlast).2
    rcases scanLine_value_last (w := u) rest d hd' hb (d :: (m ++ b ++ rest))
      with ⟨e', pre₂, he', hvalue⟩
    refine ⟨e', pre₂, he', ?_⟩
    rw [← hvalue, hm, List.append_assoc u, List.singleton_append]
    rfl

/-! ## 4. Lines -/

/-- A name in front of a colon. -/
structure Named (w lead name gap t : List UInt8) : Prop where
  split : w = lead ++ (name ++ (gap ++ ':'.toUInt8 :: t))
  lead : ∀ b ∈ lead, b = CR ∨ b = SP
  first : ∃ d m, name = d :: m ∧ isSeparator d = false
  name : ∀ b ∈ name, b ≠ SP ∧ b ≠ ':'.toUInt8
  gap : gap = [] ∨ ∃ g, gap = SP :: g ∧ ∀ b ∈ g, b = CR ∨ b = SP

/-- A colon in front of the first other byte `d`. -/
structure ColonFirst (w lead a : List UInt8) (d : UInt8) (t : List UInt8) : Prop where
  split : w = lead ++ ':'.toUInt8 :: (a ++ d :: t)
  lead : ∀ b ∈ lead, b = CR ∨ b = SP
  left : a.all isSeparator = true
  first : isSeparator d = false

section Lines
variable {w lead name gap a t : List UInt8} {d : UInt8} (tail : List UInt8)

/-- A line without a carriage return at its end is refused. -/
theorem lineEndAt_no_cr (h : w.getLast? ≠ some CR) : lineEndAt w tail = .bad := by
  unfold lineEndAt
  cases hscan : scanLine w tail (.start NUL) with
  | none => rfl
  | some st =>
    have hpre : st.pre ≠ CR := by
      rw [scanLine_pre hscan]
      cases hlast : w.getLast? with
      | none => exact (by decide : NUL ≠ CR)
      | some b => exact fun heq => h (hlast.trans (congrArg some heq))
    exact if_pos hpre

/-- The outcome when the scanner gets through a line. -/
theorem lineEndAt_scan {s e ne c vs : Option (List UInt8)} {pre : UInt8}
    (h : w.getLast? = some CR) (hscan : scanLine w tail (.start NUL) = some ⟨s, e, ne, c, vs, pre⟩) :
    lineEndAt w tail = lineEnd ⟨s, e, ne, c, vs, CR⟩ := by
  have hpre : pre = CR := by
    have hlast := scanLine_pre hscan
    rw [h] at hlast
    exact hlast
  rw [lineEndAt, hscan, hpre]

/-- Separators start no field. -/
theorem scanLine_separators (hsep : w.all isSeparator = true) (st : HeaderScan) :
    ∃ st', scanLine w tail st = some st' ∧ st'.s = st.s := by
  induction w generalizing st with
  | nil => exact ⟨st, rfl, rfl⟩
  | cons b w ih =>
    rw [List.all_cons, Bool.and_eq_true] at hsep
    obtain ⟨st₁, hb, hs⟩ : ∃ st₁, scanByte (b :: (w ++ tail)) st = some st₁ ∧ st₁.s = st.s := by
      have hpeek : peek (b :: (w ++ tail)) = b := rfl
      rcases (isSeparator_iff b).mp hsep.1 with rfl | rfl | rfl
      · exact ⟨st, rfl, rfl⟩
      · by_cases h : st.s.isSome ∧ st.c.isNone ∧ st.ne.isNone
        · exact ⟨_, if_pos h, rfl⟩
        · exact ⟨st, if_neg h, rfl⟩
      · by_cases h : st.c.isNone
        · exact ⟨_, if_pos h, rfl⟩
        · exact ⟨st, if_neg h, rfl⟩
    rcases ih hsep.2 { st₁ with pre := b } with ⟨st', hscan, hs'⟩
    refine ⟨st', ?_, hs'.trans hs⟩
    rw [scanLine, hb]
    exact hscan

theorem lineEndAt_blank (hsep : w.all isSeparator = true) (hcr : w.getLast? = some CR) :
    lineEndAt w tail = .blank := by
  rcases scanLine_separators tail hsep (.start NUL) with ⟨⟨s, e, ne, c, vs, pre⟩, hscan, hs⟩
  obtain rfl : s = none := hs
  exact lineEndAt_scan tail hcr hscan

/-- Up to the colon, behind a name. -/
theorem Named.scan (h : Named w lead name gap t) : ∃ pre, scanLine w tail (.start NUL) =
    scanLine t tail ⟨some (name ++ (gap ++ ':'.toUInt8 :: (t ++ tail))), none,
      some (gap ++ ':'.toUInt8 :: (t ++ tail)), some (':'.toUInt8 :: (t ++ tail)), none, pre⟩ := by
  rcases h with ⟨rfl, hlead, ⟨d, m, rfl, hd⟩, hname, hgap⟩
  have hm : ∀ b ∈ m, b ≠ SP ∧ b ≠ ':'.toUInt8 := fun b hb => hname b (List.mem_cons_of_mem d hb)
  have hfirst : ∀ q pre, scanByte (d :: q) (.start pre) =
      some ⟨some (d :: q), none, none, none, none, pre⟩ := fun q pre => scanByte_text hd q _
  let rest := gap ++ ':'.toUInt8 :: (t ++ tail)
  have hrest : gap ++ ':'.toUInt8 :: t ++ tail = rest := List.append_assoc ..
  rcases scanLine_lead (d :: m ++ rest) NUL hlead with ⟨pre₁, hscan₁⟩
  rcases scanLine_name (s := d :: (m ++ rest)) rest d hm with ⟨pre₂, hscan₂⟩
  have hname' : scanLine (lead ++ (d :: m ++ (gap ++ ':'.toUInt8 :: t))) tail (.start NUL) =
      scanLine (gap ++ ':'.toUInt8 :: t) tail
        ⟨some (d :: (m ++ rest)), none, none, none, none, pre₂⟩ := by
    rw [scanLine_append, List.append_assoc, hrest, hscan₁, Option.bind_some, List.cons_append,
      scanLine, List.append_assoc, hrest, hfirst]
    simp only
    rw [scanLine_append, hrest, hscan₂, Option.bind_some]
  rw [hname']
  rcases hgap with rfl | ⟨g, rfl, hg⟩
  · exact ⟨':'.toUInt8, rfl⟩
  · rcases scanLine_gap (s := d :: (m ++ rest)) (n := SP :: (g ++ ':'.toUInt8 :: (t ++ tail)))
      (':'.toUInt8 :: t ++ tail) SP hg with ⟨pre₃, hscan₃⟩
    have hspace : scanByte (SP :: (g ++ ':'.toUInt8 :: t ++ tail))
        ⟨some (d :: (m ++ rest)), none, none, none, none, pre₂⟩ =
        some ⟨some (d :: (m ++ rest)), none, some (SP :: (g ++ ':'.toUInt8 :: (t ++ tail))),
          none, none, pre₂⟩ := by
      rw [List.append_assoc]
      rfl
    refine ⟨':'.toUInt8, ?_⟩
    rw [List.cons_append, scanLine, hspace]
    simp only
    rw [scanLine_append, hscan₃, Option.bind_some]
    rfl

/-- **A line with a name, a colon and a value.** -/
theorem lineEndAt_named {a v b : List UInt8} (h : Named w lead name gap t) (hv : Trimmed t a v b)
    (hcr : w.getLast? = some CR) :
    lineEndAt w tail = .field (name ++ (gap ++ ':'.toUInt8 :: (t ++ tail))) name.length
      (v ++ b ++ tail) v.length := by
  rcases h.scan tail with ⟨pre, hscan⟩
  rcases scanLine_trimmed hv tail (name ++ (gap ++ ':'.toUInt8 :: (t ++ tail)))
    (gap ++ ':'.toUInt8 :: (t ++ tail)) (':'.toUInt8 :: (t ++ tail)) pre with ⟨e, pre', he, hvalue⟩
  rw [hvalue] at hscan
  rw [lineEndAt_scan tail hcr hscan]
  simp only [lineEnd, he]
  rw [if_neg (by decide)]
  congr 1
  · rw [List.length_append]
    omega
  · rw [List.append_assoc, List.length_append]
    omega

/-- A name without a value. -/
theorem lineEndAt_no_value (h : Named w lead name gap t) (ht : t.all isSeparator = true) :
    lineEndAt w tail = .bad := by
  by_cases hcr : w.getLast? = some CR
  · rcases h.scan tail with ⟨pre, hscan⟩
    rcases scanLine_skip (c := ':'.toUInt8 :: (t ++ tail)) tail pre ht
      (some (name ++ (gap ++ ':'.toUInt8 :: (t ++ tail)))) none
      (some (gap ++ ':'.toUInt8 :: (t ++ tail))) none with ⟨pre', hskip⟩
    rw [hskip] at hscan
    rw [lineEndAt_scan tail hcr hscan]
    rfl
  · exact lineEndAt_no_cr tail hcr

theorem ColonFirst.scan (h : ColonFirst w lead a d t) : ∃ pre, scanLine w tail (.start NUL) =
    scanLine t tail ⟨some (d :: (t ++ tail)), none,
      some (':'.toUInt8 :: (a ++ d :: (t ++ tail))),
      some (':'.toUInt8 :: (a ++ d :: (t ++ tail))), none, pre⟩ := by
  rcases h with ⟨rfl, hlead, ha, hd⟩
  let colon := ':'.toUInt8 :: (a ++ d :: (t ++ tail))
  have hcolon : ':'.toUInt8 :: (a ++ d :: t) ++ tail = colon :=
    congrArg (':'.toUInt8 :: ·) (List.append_assoc ..)
  rcases scanLine_lead colon NUL hlead with ⟨pre₁, hscan₁⟩
  rcases scanLine_skip (c := colon) (d :: t ++ tail) ':'.toUInt8 ha none none (some colon) none
    with ⟨pre₂, hscan₂⟩
  have hfirst : scanByte (d :: (t ++ tail)) ⟨none, none, some colon, some colon, none, pre₂⟩ =
      some ⟨some (d :: (t ++ tail)), none, some colon, some colon, none, pre₂⟩ :=
    scanByte_text hd _ _
  have hset : scanByte (':'.toUInt8 :: (a ++ d :: t ++ tail)) (.start pre₁) =
      some ⟨none, none, some colon, some colon, none, pre₁⟩ := by
    rw [List.append_assoc]
    rfl
  refine ⟨d, ?_⟩
  rw [scanLine_append, hcolon, hscan₁, Option.bind_some, scanLine, hset]
  simp only
  rw [scanLine_append, hscan₂, Option.bind_some, scanLine, hfirst]

/-- **A line that begins with a colon** is handed over with a name of negative length. -/
theorem lineEndAt_colon {a' v b : List UInt8} (h : ColonFirst w lead a d t)
    (hv : Trimmed t a' v b) (hcr : w.getLast? = some CR) :
    lineEndAt w tail = .field (d :: (t ++ tail)) (-(a.length + 1)) (v ++ b ++ tail) v.length := by
  rcases h.scan tail with ⟨pre, hscan⟩
  rcases scanLine_trimmed hv tail (d :: (t ++ tail)) (':'.toUInt8 :: (a ++ d :: (t ++ tail)))
    (':'.toUInt8 :: (a ++ d :: (t ++ tail))) pre with ⟨e, pre', he, hvalue⟩
  rw [hvalue] at hscan
  rw [lineEndAt_scan tail hcr hscan]
  simp only [lineEnd, he]
  rw [if_neg (by decide)]
  congr 1
  · simp only [List.length_cons, List.length_append]
    omega
  · rw [List.append_assoc, List.length_append]
    omega

theorem lineEndAt_colon_bad (h : ColonFirst w lead a d t) (ht : t.all isSeparator = true) :
    lineEndAt w tail = .bad := by
  by_cases hcr : w.getLast? = some CR
  · rcases h.scan tail with ⟨pre, hscan⟩
    rcases scanLine_skip (c := ':'.toUInt8 :: (a ++ d :: (t ++ tail))) tail pre ht
      (some (d :: (t ++ tail))) none (some (':'.toUInt8 :: (a ++ d :: (t ++ tail)))) none
      with ⟨pre', hskip⟩
    rw [hskip] at hscan
    rw [lineEndAt_scan tail hcr hscan]
    rfl
  · exact lineEndAt_no_cr tail hcr

end Lines

/-- What a line can be. -/
inductive LineShape (w : List UInt8) : Prop where
  | bad (h : ∀ tail, lineEndAt w tail = .bad)
  | blank (hsep : w.all isSeparator = true) (hcr : w.getLast? = some CR)
  | named {lead name gap t a v b : List UInt8} (h : Named w lead name gap t)
      (hv : Trimmed t a v b) (hcr : w.getLast? = some CR)
  | colon {lead a : List UInt8} {d : UInt8} {t a' v b : List UInt8} (h : ColonFirst w lead a d t)
      (hv : Trimmed t a' v b) (hcr : w.getLast? = some CR)

/-- The first byte that a test does not pass. -/
theorem exists_first (f : UInt8 → Prop) [DecidablePred f] (t : List UInt8) :
    (∀ b ∈ t, f b) ∨ ∃ a d t', t = a ++ d :: t' ∧ (∀ b ∈ a, f b) ∧ ¬f d := by
  induction t with
  | nil => exact Or.inl fun b hb => absurd hb List.not_mem_nil
  | cons c t ih =>
    by_cases hc : f c
    · rcases ih with hall | ⟨a, d, t', rfl, ha, hd⟩
      · exact Or.inl (List.forall_mem_cons.mpr ⟨hc, hall⟩)
      · exact Or.inr ⟨c :: a, d, t', rfl, List.forall_mem_cons.mpr ⟨hc, ha⟩, hd⟩
    · exact Or.inr ⟨[], c, t, rfl, fun b hb => absurd hb List.not_mem_nil, hc⟩

section Refused
variable {lead name gap t : List UInt8} {d : UInt8}

/-- A line that ends before the colon. -/
theorem lineEndAt_name_only (hlead : ∀ b ∈ lead, b = CR ∨ b = SP) (hd : isSeparator d = false)
    (hname : ∀ b ∈ name, b ≠ SP ∧ b ≠ ':'.toUInt8) (tail : List UInt8) :
    lineEndAt (lead ++ d :: name) tail = .bad := by
  rcases scanLine_lead (d :: name ++ tail) NUL hlead with ⟨pre₁, hscan₁⟩
  rcases scanLine_name (s := d :: (name ++ tail)) tail d hname with ⟨pre₂, hscan₂⟩
  have hfirst : scanByte (d :: (name ++ tail)) (.start pre₁) =
      some ⟨some (d :: (name ++ tail)), none, none, none, none, pre₁⟩ := scanByte_text hd _ _
  have hscan : scanLine (lead ++ d :: name) tail (.start NUL) =
      some ⟨some (d :: (name ++ tail)), none, none, none, none, pre₂⟩ := by
    rw [scanLine_append, hscan₁, Option.bind_some, scanLine, hfirst]
    exact hscan₂
  rw [lineEndAt, hscan]
  exact ite_self _

/-- A name and a space: only a colon may be the next byte that is neither a space nor a carriage
return. -/
theorem scanLine_name_gap (hlead : ∀ b ∈ lead, b = CR ∨ b = SP) (hd : isSeparator d = false)
    (hname : ∀ b ∈ name, b ≠ SP ∧ b ≠ ':'.toUInt8) (hgap : ∀ b ∈ gap, b = CR ∨ b = SP)
    (tail : List UInt8) : ∃ s ne pre, scanLine (lead ++ d :: (name ++ SP :: gap)) tail (.start NUL) =
      some ⟨some s, none, some ne, none, none, pre⟩ := by
  let rest := SP :: (gap ++ tail)
  rcases scanLine_lead (d :: (name ++ rest)) NUL hlead with ⟨pre₁, hscan₁⟩
  rcases scanLine_name (s := d :: (name ++ rest)) rest d hname with ⟨pre₂, hscan₂⟩
  rcases scanLine_gap (s := d :: (name ++ rest)) (n := rest) tail SP hgap with ⟨pre₃, hscan₃⟩
  have hrest : d :: (name ++ SP :: gap) ++ tail = d :: (name ++ rest) := by simp [rest]
  have hfirst : scanByte (d :: (name ++ rest)) (.start pre₁) =
      some ⟨some (d :: (name ++ rest)), none, none, none, none, pre₁⟩ := scanByte_text hd _ _
  refine ⟨d :: (name ++ rest), rest, pre₃, ?_⟩
  rw [scanLine_append, hrest, hscan₁, Option.bind_some, scanLine, List.append_assoc]
  rw [show SP :: gap ++ tail = rest from rfl, hfirst]
  simp only
  rw [scanLine_append, show SP :: gap ++ tail = rest from rfl, hscan₂]
  exact hscan₃

end Refused

/-- A line that starts with a name. -/
theorem lineShape_name {lead t : List UInt8} {d : UInt8} (hlead : ∀ b ∈ lead, b = CR ∨ b = SP)
    (hd : isSeparator d = false) (hcr : (lead ++ d :: t).getLast? = some CR) :
    LineShape (lead ++ d :: t) := by
  have hcolon : ∀ {m gap u : List UInt8}, (∀ b ∈ m, b ≠ SP ∧ b ≠ ':'.toUInt8) →
      (gap = [] ∨ ∃ g, gap = SP :: g ∧ ∀ b ∈ g, b = CR ∨ b = SP) →
      t = m ++ (gap ++ ':'.toUInt8 :: u) → LineShape (lead ++ d :: t) := by
    intro m gap u hm hgap ht
    have hname : ∀ b ∈ d :: m, b ≠ SP ∧ b ≠ ':'.toUInt8 :=
      List.forall_mem_cons.mpr ⟨(text_ne hd).2, hm⟩
    have hn : Named (lead ++ d :: t) lead (d :: m) gap u :=
      ⟨by rw [ht]; rfl, hlead, ⟨d, m, rfl, hd⟩, hname, hgap⟩
    rcases exists_trimmed u with hu | ⟨a, v, b, hv⟩
    · exact .bad fun tail => lineEndAt_no_value tail hn hu
    · exact .named hn hv hcr
  rcases exists_first (fun b => b ≠ SP ∧ b ≠ ':'.toUInt8) t with hall | ⟨m, c, u, ht, hm, hc⟩
  · exact .bad (lineEndAt_name_only hlead hd hall)
  by_cases hc' : c = ':'.toUInt8
  · exact hcolon hm (Or.inl rfl) (ht.trans (by rw [hc']; rfl))
  have hsp : c = SP := by
    by_contra hsp
    exact hc ⟨hsp, hc'⟩
  rcases exists_first (fun b => b = CR ∨ b = SP) u with hall | ⟨g, c', u', hu, hg, hc''⟩
  · refine .bad fun tail => ?_
    rcases scanLine_name_gap hlead hd hm hall tail with ⟨s, ne, pre, hscan⟩
    rw [lineEndAt, ht, hsp, hscan]
    exact ite_self _
  by_cases hsep : c' = ':'.toUInt8
  · exact hcolon hm (Or.inr ⟨g, rfl, hg⟩) (by rw [ht, hsp, hu, hsep]; rfl)
  -- a second word in front of the colon
  refine .bad fun tail => ?_
  have htext : isSeparator c' = false := by
    rw [Bool.eq_false_iff]
    intro hs
    rcases (isSeparator_iff c').mp hs with h | h | h
    · exact hc'' (Or.inl h)
    · exact hc'' (Or.inr h)
    · exact hsep h
  rcases scanLine_name_gap hlead hd hm hg (c' :: u' ++ tail) with ⟨s, ne, pre, hscan⟩
  have hsplit : lead ++ d :: t = (lead ++ d :: (m ++ SP :: g)) ++ c' :: u' := by
    rw [ht, hsp, hu]
    simp
  have hbad : scanByte (c' :: (u' ++ tail)) ⟨some s, none, some ne, none, none, pre⟩ = none :=
    scanByte_text htext _ _
  rw [lineEndAt, hsplit, scanLine_append, hscan, Option.bind_some, scanLine, hbad]

/-- **Every line** is blank, carries a name and a value, or is refused. -/
theorem lineShape (w : List UInt8) : LineShape w := by
  by_cases hcr : w.getLast? = some CR
  swap
  · exact .bad fun tail => lineEndAt_no_cr tail hcr
  rcases exists_first (fun b => b = CR ∨ b = SP) w with hall | ⟨lead, d, t, rfl, hlead, hd⟩
  · refine .blank (List.all_eq_true.mpr fun b hb => ?_) hcr
    rcases hall b hb with h | h
    · exact (isSeparator_iff b).mpr (Or.inl h)
    · exact (isSeparator_iff b).mpr (Or.inr (Or.inl h))
  cases hsep : isSeparator d with
  | false => exact lineShape_name hlead hsep hcr
  | true =>
    obtain rfl : d = ':'.toUInt8 := by
      rcases (isSeparator_iff d).mp hsep with h | h | h
      · exact absurd (Or.inl h) hd
      · exact absurd (Or.inr h) hd
      · exact h
    rcases exists_text t with hall | ⟨a, c, t', rfl, ha, hc⟩
    · refine .blank (List.all_eq_true.mpr fun b hb => ?_) hcr
      rcases List.mem_append.mp hb with hb | hb
      · rcases hlead b hb with h | h
        · exact (isSeparator_iff b).mpr (Or.inl h)
        · exact (isSeparator_iff b).mpr (Or.inr (Or.inl h))
      · rcases List.mem_cons.mp hb with rfl | hb
        · exact hsep
        · exact List.all_eq_true.mp hall b hb
    · have hc' : ColonFirst (lead ++ ':'.toUInt8 :: (a ++ c :: t')) lead a c t' :=
        ⟨rfl, hlead, ha, hc⟩
      rcases exists_trimmed t' with ht | ⟨a', v, b, hv⟩
      · exact .bad fun tail => lineEndAt_colon_bad tail hc' ht
      · exact .colon hc' hv hcr

end OServer
