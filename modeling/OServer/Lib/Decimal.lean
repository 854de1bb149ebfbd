/-
  OServer/Lib/Decimal.lean
  ========================
  **Decimal numbers as text.**

  The text of an integer is that of `sprintf(p, "%d", c)`; `decimalValue` reads a text
  of digits again, so that a negative number has no decimal value.  A conversion with a
  width fills what the text leaves of it, with blanks or with zeros.  `strtol` reads what
  a `NumberText` describes, and nothing else.
-/
import OServer.Lib.CString
import Mathlib.Algebra.Ring.Nat
import Mathlib.Algebra.Ring.Int.Defs

namespace CString

/-- `'0'` to `'9'`. -/
def isDigit (b : UInt8) : Bool := 48 ≤ b && b ≤ 57

/-- The number that a text of digits stands for. -/
def decimalValue (text : List UInt8) : Option Nat :=
  if text ≠ [] ∧ ∀ b ∈ text, isDigit b = true then
    some (text.foldl (fun n b => 10 * n + (b.toNat - 48)) 0)
  else none

theorem toNat_toUInt8 {c : Char} (h : c.isDigit = true) : c.toUInt8.toNat = c.toNat := by
  have hle := (Char.isDigit_iff_toNat.mp h).2
  have hval : c.toUInt8.toNat = c.toNat % 256 := rfl
  have hnine : '9'.toNat = 57 := rfl
  rw [hval]
  omega

theorem isDigit_toUInt8 {c : Char} (h : c.isDigit = true) : isDigit c.toUInt8 = true := by
  have hbounds := Char.isDigit_iff_toNat.mp h
  rw [isDigit, Bool.and_eq_true, decide_eq_true_eq, decide_eq_true_eq, UInt8.le_iff_toNat_le,
    UInt8.le_iff_toNat_le, toNat_toUInt8 h]
  exact hbounds

/-- The digits of a natural number. -/
theorem decimalValue_toDigits (n : Nat) :
    decimalValue ((Nat.toDigits 10 n).map Char.toUInt8) = some n := by
  have hdigit : ∀ c ∈ Nat.toDigits 10 n, c.isDigit = true := fun c hc =>
    Nat.isDigit_of_mem_toDigits (by decide) (by decide) hc
  have hfold : ∀ (cs : List Char) (k : Nat), (∀ c ∈ cs, c.isDigit = true) →
      (cs.map Char.toUInt8).foldl (fun n b => 10 * n + (b.toNat - 48)) k =
        Nat.ofDigitChars 10 cs k := by
    intro cs
    induction cs with
    | nil => exact fun k _ => rfl
    | cons c cs ih =>
      intro k hcs
      rw [List.map_cons, List.foldl_cons, toNat_toUInt8 (hcs c List.mem_cons_self),
        ih _ fun d hd => hcs d (List.mem_cons_of_mem c hd)]
      rfl
  rw [decimalValue, if_pos, hfold _ 0 hdigit, Nat.ofDigitChars_ten_toDigits]
  constructor
  · intro hnil
    exact Nat.toDigits_ne_nil (List.map_eq_nil_iff.mp hnil)
  · intro b hb
    rcases List.mem_map.mp hb with ⟨c, hc, rfl⟩
    exact isDigit_toUInt8 (hdigit c hc)

theorem bytes_toString_ofNat (n : Nat) :
    bytes (toString (n : Int)) = (Nat.toDigits 10 n).map Char.toUInt8 := by
  have htext : toString (n : Int) = n.repr := rfl
  rw [bytes, htext, Nat.toList_repr]

theorem bytes_toString_negSucc (n : Nat) :
    bytes (toString (Int.negSucc n)) = '-'.toUInt8 :: (Nat.toDigits 10 (n + 1)).map Char.toUInt8 := by
  have htext : toString (Int.negSucc n) = "-" ++ (n + 1).repr := rfl
  rw [bytes, htext, String.toList_append, Nat.toList_repr]
  rfl

/-- **The decimal value** of the text of an integer. -/
theorem decimalValue_toString (c : Int) (n : Nat) :
    decimalValue (bytes (toString c)) = some n ↔ c = n := by
  cases c with
  | ofNat k =>
    rw [Int.ofNat_eq_natCast, bytes_toString_ofNat, decimalValue_toDigits, Option.some.injEq,
      Int.natCast_inj]
  | negSucc k =>
    have hsign : ¬∀ b ∈ bytes (toString (Int.negSucc k)), isDigit b = true := by
      rw [bytes_toString_negSucc]
      intro hall
      exact absurd (hall _ List.mem_cons_self) (by decide)
    rw [decimalValue, if_neg fun h => hsign h.2]
    simp

theorem bytes_toString_ne_nil (c : Int) : bytes (toString c) ≠ [] := by
  cases c with
  | ofNat k =>
    rw [Int.ofNat_eq_natCast, bytes_toString_ofNat]
    intro hnil
    exact Nat.toDigits_ne_nil (List.map_eq_nil_iff.mp hnil)
  | negSucc k =>
    rw [bytes_toString_negSucc]
    exact List.cons_ne_nil _ _

/-- Digits and a sign. -/
theorem mem_toString {c : Int} {b : UInt8} (h : b ∈ bytes (toString c)) :
    isDigit b = true ∨ b = '-'.toUInt8 := by
  have hdigits : ∀ n, b ∈ (Nat.toDigits 10 n).map Char.toUInt8 → isDigit b = true := by
    intro n hb
    rcases List.mem_map.mp hb with ⟨d, hd, rfl⟩
    exact isDigit_toUInt8 (Nat.isDigit_of_mem_toDigits (by decide) (by decide) hd)
  cases c with
  | ofNat k =>
    rw [Int.ofNat_eq_natCast, bytes_toString_ofNat] at h
    exact Or.inl (hdigits k h)
  | negSucc k =>
    rw [bytes_toString_negSucc, List.mem_cons] at h
    exact h.symm.imp_left (hdigits (k + 1))

theorem nul_not_mem_toString (c : Int) : NUL ∉ bytes (toString c) := by
  intro hnul
  rcases mem_toString hnul with h | h <;> exact absurd h (by decide)

/-- The text of a number of at most `k` digits. -/
theorem length_toString_le {c : Int} {k : Nat} (hk : 0 < k) (h : c.natAbs < 10 ^ k) :
    (bytes (toString c)).length ≤ k + 1 := by
  cases c with
  | ofNat n =>
    have hle := (Nat.length_toDigits_le_iff (by decide) hk).mpr h
    rw [Int.ofNat_eq_natCast, bytes_toString_ofNat, List.length_map]
    exact Nat.le_succ_of_le hle
  | negSucc n =>
    have hle := (Nat.length_toDigits_le_iff (by decide) hk).mpr h
    rw [bytes_toString_negSucc, List.length_cons, List.length_map]
    exact Nat.succ_le_succ hle

/-! ## Widths -/

/-- `"%<width>s"`. -/
def blankPadded (width : Nat) (s : List UInt8) : List UInt8 :=
  List.replicate (width - s.length) SP ++ s

/-- `"%-<width>s"`. -/
def leftJustified (width : Nat) (s : List UInt8) : List UInt8 :=
  s ++ List.replicate (width - s.length) SP

/-- `"%0<width>d"`; the zeros stand behind the sign. -/
def zeroPadded (width : Nat) (c : Int) : List UInt8 :=
  let digits := (Nat.toDigits 10 c.natAbs).map Char.toUInt8
  let zeros := List.replicate (width - (bytes (toString c)).length) '0'.toUInt8
  if c < 0 then '-'.toUInt8 :: (zeros ++ digits) else zeros ++ digits

/-- The bytes of a number in a field of a width. -/
def fieldWidth (width : Nat) (c : Int) : Nat := max width (bytes (toString c)).length

theorem blankPadded_length (width : Nat) (s : List UInt8) :
    (blankPadded width s).length = max width s.length := by
  rw [blankPadded, List.length_append, List.length_replicate]
  omega

theorem leftJustified_length (width : Nat) (s : List UInt8) :
    (leftJustified width s).length = max width s.length := by
  rw [leftJustified, List.length_append, List.length_replicate]
  omega

theorem zeroPadded_length (width : Nat) (c : Int) :
    (zeroPadded width c).length = fieldWidth width c := by
  unfold zeroPadded fieldWidth
  cases c with
  | ofNat n =>
    have hsign : ¬Int.ofNat n < 0 := Int.not_lt.mpr (Int.natCast_nonneg n)
    rw [if_neg hsign, Int.ofNat_eq_natCast, bytes_toString_ofNat]
    simp only [Int.natAbs_natCast, List.length_append, List.length_replicate, List.length_map]
    omega
  | negSucc n =>
    rw [if_pos (Int.negSucc_lt_zero n), bytes_toString_negSucc]
    simp only [Int.natAbs_negSucc, Nat.succ_eq_add_one, List.length_cons, List.length_append,
      List.length_replicate, List.length_map]
    omega

/-- A number of at most `k` digits. -/
theorem fieldWidth_le {width k : Nat} {c : Int} (hk : 0 < k) (h : c.natAbs < 10 ^ k) :
    fieldWidth width c ≤ max width (k + 1) := by
  have hlen := length_toString_le hk h
  unfold fieldWidth
  omega

/-- A number in an array: the sign needs a byte. -/
theorem length_toString_le_iff (c : Int) {k : Nat} (hk : 0 < k) :
    (bytes (toString c)).length ≤ k + 1 ↔ -10 ^ k < c ∧ c < 10 ^ (k + 1) := by
  have hcast : ∀ m : Nat, ((10 ^ m : Nat) : Int) = 10 ^ m := fun m => by push_cast; rfl
  cases c with
  | ofNat n =>
    rw [Int.ofNat_eq_natCast, bytes_toString_ofNat, List.length_map,
      Nat.length_toDigits_le_iff (by decide) k.succ_pos, ← hcast, ← hcast]
    have hpos : 0 < 10 ^ k := Nat.pow_pos (by decide)
    omega
  | negSucc n =>
    rw [bytes_toString_negSucc, List.length_cons, List.length_map, Nat.add_le_add_iff_right,
      Nat.length_toDigits_le_iff (by decide) hk, ← hcast, ← hcast]
    omega

/-! ## Reading -/

/-- `isspace` in the C locale. -/
def isSpace (b : UInt8) : Bool := b = SP || (9 ≤ b && b ≤ 13)

/-- Whether there is a minus, and what is behind the sign. -/
def splitSign : List UInt8 → Bool × List UInt8
  | [] => (false, [])
  | c :: p =>
      if c = '-'.toUInt8 then (true, p)
      else if c = '+'.toUInt8 then (false, p)
      else (false, c :: p)

/-- In a `long` of 64 bits. -/
def clampLong (v : Int) : Int := max (-2 ^ 63) (min v (2 ^ 63 - 1))

/-- `strtol(p, &end, 10)`: the number, and the string from `end` on. -/
def strtol (p : List UInt8) : Int × List UInt8 :=
  let s := splitSign (p.dropWhile isSpace)
  match decimalValue (s.2.takeWhile isDigit) with
  | none => (0, p)
  | some n => (clampLong (if s.1 then -n else n), s.2.dropWhile isDigit)

inductive Sign where
  | none
  | plus
  | minus
deriving DecidableEq

def Sign.text : Sign → List UInt8
  | .none => []
  | .plus => ['+'.toUInt8]
  | .minus => ['-'.toUInt8]

/-- A number as `strtol` reads it. -/
structure NumberText where
  blanks : List UInt8
  sign : Sign
  digits : List UInt8

namespace NumberText

def text (t : NumberText) : List UInt8 := t.blanks ++ (t.sign.text ++ t.digits)

def value (t : NumberText) : Int :=
  let n := (decimalValue t.digits).getD 0
  if t.sign = .minus then -n else n

structure WellFormed (t : NumberText) : Prop where
  blanks : ∀ b ∈ t.blanks, isSpace b = true
  digits : t.digits ≠ [] ∧ ∀ b ∈ t.digits, isDigit b = true

end NumberText

theorem isSpace_of_isDigit {b : UInt8} (h : isDigit b = true) : isSpace b = false := by
  rw [isDigit, Bool.and_eq_true, decide_eq_true_eq] at h
  have hlow : 48 ≤ b.toNat := UInt8.le_iff_toNat_le.mp h.1
  rw [isSpace, Bool.or_eq_false_iff, Bool.and_eq_false_iff]
  refine ⟨decide_eq_false ?_, .inr (decide_eq_false fun hle => ?_)⟩
  · rintro rfl
    exact absurd hlow (by decide)
  · have hhigh : b.toNat ≤ 13 := UInt8.le_iff_toNat_le.mp hle
    omega

theorem isDigit_ne_sign {b : UInt8} (h : isDigit b = true) :
    b ≠ '-'.toUInt8 ∧ b ≠ '+'.toUInt8 := by
  constructor
  · rintro rfl
    exact absurd h (by decide)
  · rintro rfl
    exact absurd h (by decide)

theorem splitSign_text {sign : Sign} {p : List UInt8}
    (hp : ∀ b ∈ p.head?, b ≠ '-'.toUInt8 ∧ b ≠ '+'.toUInt8) :
    splitSign (sign.text ++ p) = (decide (sign = .minus), p) := by
  cases sign with
  | none =>
    cases p with
    | nil => rfl
    | cons c p =>
      obtain ⟨hminus, hplus⟩ := hp c rfl
      show splitSign (c :: p) = _
      rw [splitSign, if_neg hminus, if_neg hplus]
      rfl
  | plus => rfl
  | minus => rfl

/-- The bytes in front of the sign and the digits. -/
theorem dropWhile_isSpace_text {blanks rest : List UInt8} (hblanks : ∀ b ∈ blanks, isSpace b = true)
    (hrest : ∀ b ∈ rest.head?, isSpace b = false) : (blanks ++ rest).dropWhile isSpace = rest := by
  rw [List.dropWhile_append_of_pos hblanks]
  cases rest with
  | nil => rfl
  | cons c rest => exact List.dropWhile_cons_of_neg (by simp [hrest c rfl])

/-- **A number is read up to the first byte that is no digit.** -/
theorem strtol_text {t : NumberText} (ht : t.WellFormed) {rest : List UInt8}
    (hrest : ∀ b ∈ rest.head?, isDigit b = false) :
    strtol (t.text ++ rest) = (clampLong t.value, rest) := by
  obtain ⟨blanks, sign, digits⟩ := t
  obtain ⟨hblanks, hne, hdigits⟩ := ht
  obtain ⟨d, ds, rfl⟩ := List.exists_cons_of_ne_nil hne
  have hd : isDigit d = true := hdigits d List.mem_cons_self
  have hsign : splitSign (sign.text ++ (d :: ds ++ rest)) =
      (decide (sign = .minus), d :: ds ++ rest) := by
    apply splitSign_text
    rintro b ⟨⟩
    exact isDigit_ne_sign hd
  have hdrop : ((blanks ++ (sign.text ++ d :: ds)) ++ rest).dropWhile isSpace =
      sign.text ++ (d :: ds ++ rest) := by
    rw [List.append_assoc, List.append_assoc]
    apply dropWhile_isSpace_text hblanks
    cases sign with
    | none =>
      rintro b ⟨⟩
      exact isSpace_of_isDigit hd
    | plus =>
      rintro b ⟨⟩
      decide
    | minus =>
      rintro b ⟨⟩
      decide
  have htake : (d :: ds ++ rest).takeWhile isDigit = d :: ds := by
    rw [List.takeWhile_append_of_pos hdigits]
    cases rest with
    | nil => rw [List.takeWhile_nil, List.append_nil]
    | cons c rest => rw [List.takeWhile_cons_of_neg (by simp [hrest c rfl]), List.append_nil]
  have hbehind : (d :: ds ++ rest).dropWhile isDigit = rest := by
    rw [List.dropWhile_append_of_pos hdigits]
    cases rest with
    | nil => rfl
    | cons c rest => exact List.dropWhile_cons_of_neg (by simp [hrest c rfl])
  have hvalue : decimalValue (d :: ds) =
      some ((d :: ds).foldl (fun n b => 10 * n + (b.toNat - 48)) 0) := if_pos ⟨hne, hdigits⟩
  simp only [strtol, NumberText.text, hdrop, hsign, htake, hbehind, hvalue, NumberText.value,
    Option.getD_some, decide_eq_true_eq]

theorem exists_sign (p : List UInt8) : ∃ sign : Sign, p = sign.text ++ (splitSign p).2 := by
  cases p with
  | nil => exact ⟨.none, rfl⟩
  | cons c p =>
    rw [splitSign]
    split_ifs with hminus hplus
    · exact ⟨.minus, by rw [hminus]; rfl⟩
    · exact ⟨.plus, by rw [hplus]; rfl⟩
    · exact ⟨.none, rfl⟩

theorem strtol_number {t : NumberText} (ht : t.WellFormed) :
    strtol t.text = (clampLong t.value, []) := by
  have hend : ∀ b ∈ ([] : List UInt8).head?, isDigit b = false := fun b hb => nomatch hb
  have hread := strtol_text ht hend
  rwa [List.append_nil] at hread

/-- **Nothing else is read.** -/
theorem strtol_cases (p : List UInt8) :
    strtol p = (0, p) ∨ ∃ t : NumberText, t.WellFormed ∧ p = t.text ++ (strtol p).2 := by
  unfold strtol
  dsimp only
  obtain ⟨sign, hsign⟩ := exists_sign (p.dropWhile isSpace)
  cases hvalue : decimalValue ((splitSign (p.dropWhile isSpace)).2.takeWhile isDigit) with
  | none => exact .inl rfl
  | some n =>
    have hdigits : (splitSign (p.dropWhile isSpace)).2.takeWhile isDigit ≠ [] := by
      intro hnil
      rw [hnil] at hvalue
      cases hvalue
    refine .inr ⟨⟨p.takeWhile isSpace, sign, (splitSign (p.dropWhile isSpace)).2.takeWhile isDigit⟩,
      ⟨fun b hb => List.mem_takeWhile_imp hb, hdigits, fun b hb => List.mem_takeWhile_imp hb⟩, ?_⟩
    rw [NumberText.text, List.append_assoc, List.append_assoc, List.takeWhile_append_dropWhile,
      ← hsign, List.takeWhile_append_dropWhile]

/-- What is read to its end: a number, or nothing at all. -/
theorem strtol_whole (p : List UInt8) :
    (strtol p).2 = [] ↔ p = [] ∨ ∃ t : NumberText, t.WellFormed ∧ p = t.text := by
  constructor
  · intro hend
    rcases strtol_cases p with hnone | ⟨t, ht, htext⟩
    · rw [hnone] at hend
      exact .inl hend
    · rw [hend, List.append_nil] at htext
      exact .inr ⟨t, ht, htext⟩
  · rintro (rfl | ⟨t, ht, rfl⟩)
    · rfl
    · rw [strtol_number ht]

end CString
