/-
  OServer/Lib/Percent.lean
  ========================
  **Percent coding of byte strings.**

  A byte that is not kept as it is becomes a `%` and two hexadecimal digits.  Either case of
  a digit is read.

    * `decode_isSome`  — a text can be decoded when every `%` is followed by two digits;
    * `decode_encode`  — what was encoded is decoded again, as long as `%` is not kept.
-/
import OServer.Lib.CString

namespace Percent

open CString

def percent : UInt8 := '%'.toUInt8

/-! ## 1. Digits -/

/-- The digit for a number below 16. -/
def hexDigit (n : UInt8) : UInt8 := if n < 10 then '0'.toUInt8 + n else 'A'.toUInt8 + (n - 10)

def hexValue (c : UInt8) : Option UInt8 :=
  if '0'.toUInt8 ≤ c ∧ c ≤ '9'.toUInt8 then some (c - '0'.toUInt8)
  else if 'a'.toUInt8 ≤ c ∧ c ≤ 'f'.toUInt8 then some (c - 'a'.toUInt8 + 10)
  else if 'A'.toUInt8 ≤ c ∧ c ≤ 'F'.toUInt8 then some (c - 'A'.toUInt8 + 10)
  else none

/-- What holds of the 256 values holds of every byte. -/
theorem forall_byte {P : UInt8 → Prop} (h : ∀ n : Fin 256, P (UInt8.ofFin n)) (c : UInt8) : P c :=
  h c.toFin

theorem hexValue_hexDigit {n : UInt8} (h : n < 16) : hexValue (hexDigit n) = some n := by
  revert h
  exact forall_byte (P := fun n => n < 16 → hexValue (hexDigit n) = some n) (by decide +kernel) n

theorem nibbles_lt (c : UInt8) : c >>> 4 < 16 ∧ c &&& 15 < 16 :=
  forall_byte (P := fun c => c >>> 4 < 16 ∧ c &&& 15 < 16) (by decide +kernel) c

theorem nibbles_byte (c : UInt8) : (c >>> 4) * 16 + (c &&& 15) = c :=
  forall_byte (P := fun c => (c >>> 4) * 16 + (c &&& 15) = c) (by decide +kernel) c

/-! ## 2. Coding -/

def encode (keep : UInt8 → Bool) : List UInt8 → List UInt8
  | [] => []
  | c :: s =>
      if keep c then c :: encode keep s
      else percent :: hexDigit (c >>> 4) :: hexDigit (c &&& 15) :: encode keep s

/-- Every `%` is followed by two digits, which belong to it. -/
inductive WellFormed : List UInt8 → Prop where
  | nil : WellFormed []
  | plain {c : UInt8} {s : List UInt8} (hc : c ≠ percent) (hs : WellFormed s) : WellFormed (c :: s)
  | escape {h l a b : UInt8} {s : List UInt8} (hh : hexValue h = some a) (hl : hexValue l = some b)
      (hs : WellFormed s) : WellFormed (percent :: h :: l :: s)

def decode : List UInt8 → Option (List UInt8)
  | [] => some []
  | c :: s =>
      if c ≠ percent then (decode s).map (c :: ·)
      else
        match s with
        | h :: l :: s =>
            match hexValue h, hexValue l with
            | some a, some b => (decode s).map ((a * 16 + b) :: ·)
            | _, _ => none
        | _ => none

@[simp] theorem decode_nil : decode [] = some [] := rfl

theorem decode_plain {c : UInt8} (hc : c ≠ percent) (s : List UInt8) :
    decode (c :: s) = (decode s).map (c :: ·) := by
  rw [decode.eq_def]
  exact if_pos hc

theorem decode_escape {h l a b : UInt8} (hh : hexValue h = some a) (hl : hexValue l = some b)
    (s : List UInt8) :
    decode (percent :: h :: l :: s) = (decode s).map ((a * 16 + b) :: ·) := by
  simp [decode, hh, hl]

/-- A digit is read from the text, not from behind the end of it. -/
theorem exists_digit {s : List UInt8} {v : UInt8} (h : hexValue (peek s) = some v) :
    ∃ c t, s = c :: t ∧ hexValue c = some v := by
  cases s with
  | nil => cases h
  | cons c t => exact ⟨c, t, rfl, h⟩

/-- A `%` that is not followed by two digits; behind the end of a text stands no digit. -/
theorem decode_high {s : List UInt8} (h : hexValue (peek s) = none) :
    decode (percent :: s) = none := by
  cases s with
  | nil => rfl
  | cons a s =>
    have ha : hexValue a = none := h
    cases s with
    | nil => rfl
    | cons b s => simp [decode, ha]

theorem decode_low {a : UInt8} {s : List UInt8} (h : hexValue (peek s) = none) :
    decode (percent :: a :: s) = none := by
  cases s with
  | nil => rfl
  | cons b s =>
    have hb : hexValue b = none := h
    simp [decode, hb]

/-- **A text can be decoded** exactly when it is well-formed. -/
theorem decode_isSome {s : List UInt8} : (decode s).isSome = true ↔ WellFormed s := by
  constructor
  · induction s using decode.induct with
    | case1 => exact fun _ => .nil
    | case2 c s hc ih =>
      intro h
      rw [decode_plain hc, Option.isSome_map] at h
      exact .plain hc (ih h)
    | case3 c hc h l s b a hh ha ih =>
      intro hs
      obtain rfl : c = percent := not_not.mp hc
      rw [decode_escape ha hh, Option.isSome_map] at hs
      exact .escape ha hh (ih hs)
    | case4 c hc h l s hdigits =>
      intro hs
      rw [decode.eq_def] at hs
      simp only [if_neg hc] at hs
      cases hs
    | case5 c s hc hshort =>
      intro hs
      rw [decode.eq_def] at hs
      simp only [if_neg hc] at hs
      cases hs
  · intro h
    induction h with
    | nil => rfl
    | plain hc _ ih => rwa [decode_plain hc, Option.isSome_map]
    | escape hh hl _ ih => rwa [decode_escape hh hl, Option.isSome_map]

theorem decode_encode {keep : UInt8 → Bool} (hkeep : keep percent = false) (s : List UInt8) :
    decode (encode keep s) = some s := by
  induction s with
  | nil => rfl
  | cons c s ih =>
    cases hc : keep c with
    | true =>
      have hne : c ≠ percent := by
        rintro rfl
        rw [hkeep] at hc
        cases hc
      rw [encode, hc, if_pos rfl, decode_plain hne, ih]
      rfl
    | false =>
      have hdigits := nibbles_lt c
      rw [encode, hc, if_neg Bool.false_ne_true,
        decode_escape (hexValue_hexDigit hdigits.1) (hexValue_hexDigit hdigits.2), ih, nibbles_byte]
      rfl

end Percent
