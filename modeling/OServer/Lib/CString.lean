/-
  OServer/Lib/CString.lean
  ========================
  **Byte strings and the C string functions on them.**

  A `char *` is represented by the bytes from it on, so that the difference of two
  pointers into one buffer is a difference of lengths.  What lies behind the end of
  the list reads as `NUL`; a C string ends at the first `NUL`.
-/
import Mathlib.Tactic.Common
import Mathlib.Data.List.TakeWhile

namespace CString

/-- The bytes of an ASCII literal. -/
def bytes (s : String) : List UInt8 := s.toList.map Char.toUInt8

def NUL : UInt8 := 0
def LF : UInt8 := 10
def CR : UInt8 := 13
def SP : UInt8 := 32

/-- Whether all bytes of a string pass a test is found out byte by byte of the string, not by
    trying all 256 values. -/
instance forallMemDecidable (f : UInt8 → Prop) [DecidablePred f] (p : List UInt8) :
    Decidable (∀ b ∈ p, f b) := List.decidableBAll f p

/-- `*p`. -/
def peek (p : List UInt8) : UInt8 := p.headD NUL

/-- The string at `p`, without its terminator. -/
def cstr (p : List UInt8) : List UInt8 := p.takeWhile (· ≠ NUL)

/-- `tolower` in the C locale. -/
def tolower (c : UInt8) : UInt8 := if 65 ≤ c ∧ c ≤ 90 then c + 32 else c

/-- `strncmp` and `strncasecmp` compared with zero: `f` is applied to both sides
    first, and a common `NUL` ends the comparison. -/
def sameUpTo (f : UInt8 → UInt8) : Nat → List UInt8 → List UInt8 → Bool
  | 0, _, _ => true
  | n + 1, p, q =>
      f (peek p) == f (peek q) && (f (peek p) == NUL || sameUpTo f n p.tail q.tail)

/-- `strncmp(p, q, n) == 0`. -/
def strncmpEq (p q : List UInt8) (n : Nat) : Bool := sameUpTo id n p q

/-- `strncasecmp(p, q, n) == 0`. -/
def strncasecmpEq (p q : List UInt8) (n : Nat) : Bool := sameUpTo tolower n p q

/-- `strchr(p, c)` for a `c` other than `NUL`, as an offset from `p`. -/
def strchr (p : List UInt8) (c : UInt8) : Option Nat := (cstr p).findIdx? (· == c)

/-- `strrchr(p, c)` for a `c` other than `NUL`, as an offset from `p`. -/
def strrchr (p : List UInt8) (c : UInt8) : Option Nat :=
  ((cstr p).reverse.findIdx? (· == c)).map fun i => (cstr p).length - 1 - i

/-- `strstr(p, s)`, as an offset from `p`. -/
def strstr (p s : List UInt8) : Option Nat :=
  (List.range ((cstr p).length + 1)).find? fun i => s.isPrefixOf ((cstr p).drop i)

/-- What `snprintf(p, n, "%s", s)` leaves in the `strlen(s)` bytes from `p` on; the last
    byte that fits is the terminator. -/
def snprintf (n : Nat) (s : List UInt8) : List UInt8 :=
  if s.length < n then s
  else if n = 0 then []
  else s.take (n - 1) ++ [NUL]

/-- All bytes that `snprintf` and `vsnprintf` store of a text, with room for `n` of them. -/
def snprintfBytes (n : Nat) (s : List UInt8) : List UInt8 :=
  if n = 0 then [] else s.take (n - 1) ++ [NUL]

/-- `while(t < end && *p && ok) ok &= (*t++ == *p++);` for a pattern `p` without
    `NUL`: the final `ok`, and what is left of `p` and `t`. -/
def matchBytes : List UInt8 → List UInt8 → Bool × List UInt8 × List UInt8
  | [], t => (true, [], t)
  | p, [] => (true, p, [])
  | c :: p, d :: t => if d = c then matchBytes p t else (false, p, t)

theorem matchBytes_nil (t : List UInt8) : matchBytes [] t = (true, [], t) := by
  cases t <;> rfl

/-- The result of a parser: its return value, `*parse_len` and its out parameter.  The
    lengths are numbers of bytes, if the parser sets `*parse_len` on every path. -/
structure Parsed (α : Type) (L : Type := Nat) where
  ret : Int
  parseLen : L
  val : α
deriving DecidableEq, Repr

/-- The text starts with the pattern, or it is a proper prefix of it, or the two
    differ at some place. -/
theorem matchBytes_cases (p t : List UInt8) :
    (∃ r, t = p ++ r ∧ matchBytes p t = (true, [], r)) ∨
    (∃ c r, p = t ++ c :: r ∧ matchBytes p t = (true, c :: r, [])) ∨
    (∃ k c d p' t', p = k ++ c :: p' ∧ t = k ++ d :: t' ∧ d ≠ c ∧
      matchBytes p t = (false, p', t')) := by
  induction p generalizing t with
  | nil => exact Or.inl ⟨t, rfl, matchBytes_nil t⟩
  | cons c p ih =>
    cases t with
    | nil => exact Or.inr (Or.inl ⟨c, p, rfl, rfl⟩)
    | cons d t =>
      by_cases hdc : d = c
      · subst hdc
        simp only [matchBytes, if_true]
        rcases ih t with ⟨r, rfl, hm⟩ | ⟨c, r, rfl, hm⟩ | ⟨k, c, e, p', t', rfl, rfl, hne, hm⟩
        · exact Or.inl ⟨r, rfl, hm⟩
        · exact Or.inr (Or.inl ⟨c, r, rfl, hm⟩)
        · exact Or.inr (Or.inr ⟨d :: k, c, e, p', t', rfl, rfl, hne, hm⟩)
      · exact Or.inr (Or.inr ⟨[], c, d, p, t, rfl, rfl, hdc, by simp [matchBytes, hdc]⟩)

theorem matchBytes_append (p r : List UInt8) : matchBytes p (p ++ r) = (true, [], r) := by
  induction p with
  | nil => exact matchBytes_nil r
  | cons c p ih => simp [matchBytes, ih]

theorem matchBytes_differ (k p t : List UInt8) {c d : UInt8} (h : d ≠ c) :
    matchBytes (k ++ c :: p) (k ++ d :: t) = (false, p, t) := by
  induction k with
  | nil => simp [matchBytes, h]
  | cons e k ih => simp [matchBytes, ih]

/-- A byte that ends two words for the first time splits them in one way. -/
theorem first_unique {b : UInt8} {w w' rest rest' : List UInt8} (hw : b ∉ w) (hw' : b ∉ w')
    (h : w ++ b :: rest = w' ++ b :: rest') : w = w' ∧ rest = rest' := by
  induction w generalizing w' with
  | nil =>
    cases w' with
    | nil => exact ⟨rfl, (List.cons.inj h).2⟩
    | cons c w' =>
      have hc : b = c := (List.cons.inj h).1
      exact absurd (hc ▸ List.mem_cons_self) hw'
  | cons d w ih =>
    rw [List.mem_cons, not_or] at hw
    cases w' with
    | nil => exact absurd (List.cons.inj h).1.symm hw.1
    | cons c w' =>
      rw [List.mem_cons, not_or] at hw'
      obtain ⟨rfl, htail⟩ := List.cons.inj h
      rcases ih hw.2 hw'.2 htail with ⟨rfl, hrest⟩
      exact ⟨rfl, hrest⟩

/-- A word that does not hold the byte ends before it. -/
theorem prefix_of_not_mem {b : UInt8} {w p r : List UInt8} (h : w <+: p ++ b :: r)
    (hb : b ∉ w) : w <+: p := by
  rcases List.prefix_or_prefix_of_prefix h (List.prefix_append p (b :: r)) with hw | ⟨t, rfl⟩
  · exact hw
  have ht : t <+: b :: r := (List.prefix_append_right_inj p).mp h
  cases t with
  | nil => simp
  | cons c t =>
    obtain rfl : c = b := (List.cons_prefix_cons.mp ht).1
    exact absurd (List.mem_append_right p List.mem_cons_self) hb

theorem cstr_eq_self {p : List UInt8} (h : NUL ∉ p) : cstr p = p := by
  rw [cstr, List.takeWhile_eq_self_iff]
  intro c hc
  exact decide_eq_true fun h0 => h (h0 ▸ hc)

theorem cstr_eq_nil_iff {p : List UInt8} : cstr p = [] ↔ peek p = NUL := by
  cases p with
  | nil => exact iff_of_true rfl rfl
  | cons c p =>
    by_cases hc : c = NUL
    · exact iff_of_true (List.takeWhile_cons_of_neg (by simp [hc])) hc
    · have hcons : cstr (c :: p) = c :: cstr p := List.takeWhile_cons_of_pos (decide_eq_true hc)
      rw [hcons]
      exact iff_of_false (List.cons_ne_nil _ _) hc

theorem cstr_append_nul {p : List UInt8} (hp : NUL ∉ p) (q : List UInt8) :
    cstr (p ++ NUL :: q) = p := by
  have hall : ∀ c ∈ p, decide (c ≠ NUL) = true := by
    intro c hc
    exact decide_eq_true fun h => hp (h ▸ hc)
  rw [cstr, List.takeWhile_append_of_pos hall, List.takeWhile_cons_of_neg (by decide),
    List.append_nil]

/-- The rest of a string, from a byte of it on. -/
theorem cstr_drop {p : List UInt8} {k : Nat} (h : k ≤ (cstr p).length) :
    cstr (p.drop k) = (cstr p).drop k := by
  induction p generalizing k with
  | nil => simp [cstr]
  | cons c p ih =>
    cases k with
    | zero => rfl
    | succ k =>
      by_cases hc : c ≠ NUL
      · have hcons : cstr (c :: p) = c :: cstr p := List.takeWhile_cons_of_pos (decide_eq_true hc)
        rw [hcons, List.length_cons] at h
        rw [hcons, List.drop_succ_cons, List.drop_succ_cons]
        exact ih (Nat.le_of_succ_le_succ h)
      · have hnil : cstr (c :: p) = [] := List.takeWhile_cons_of_neg (by simpa using hc)
        rw [hnil] at h
        cases h

/-- A string found in another one ends before its terminator. -/
theorem strstr_bound {p s : List UInt8} {i : Nat} (h : strstr p s = some i) :
    i + s.length ≤ (cstr p).length := by
  unfold strstr at h
  have hrange := List.mem_range.mp (List.mem_of_find?_eq_some h)
  have hfound : s.isPrefixOf ((cstr p).drop i) = true :=
    List.find?_some (p := fun i => s.isPrefixOf ((cstr p).drop i)) h
  have hprefix := (List.isPrefixOf_iff_prefix.mp hfound).length_le
  rw [List.length_drop] at hprefix
  omega

theorem strchr_bound {p : List UInt8} {c : UInt8} {i : Nat} (h : strchr p c = some i) :
    i < (cstr p).length :=
  (List.findIdx?_eq_some_iff_getElem.mp h).1

/-- `strstr` answers the first place. -/
theorem strstr_eq_some {p s : List UInt8} {i : Nat} :
    strstr p s = some i ↔ i ≤ (cstr p).length ∧ s <+: (cstr p).drop i ∧
      ∀ j < i, ¬s <+: (cstr p).drop j := by
  rw [strstr, List.find?_range_eq_some, List.mem_range, Nat.lt_succ_iff,
    List.isPrefixOf_iff_prefix]
  simp only [Bool.not_eq_true', Bool.eq_false_iff, ne_eq, List.isPrefixOf_iff_prefix]
  constructor
  · rintro ⟨hs, hi, hfirst⟩
    exact ⟨hi, hs, hfirst⟩
  · rintro ⟨hi, hs, hfirst⟩
    exact ⟨hs, hi, hfirst⟩

/-- The text behind `a` begins with the word, and no earlier place does. -/
theorem strstr_split {p a r s : List UInt8} (hp : cstr p = a ++ s ++ r)
    (hfirst : ¬s <:+: (a ++ s).dropLast) : strstr p s = some a.length := by
  rw [strstr_eq_some, hp]
  refine ⟨?_, ?_, ?_⟩
  · rw [List.length_append, List.length_append]
    omega
  · rw [List.append_assoc, List.drop_left]
    exact List.prefix_append s r
  · intro j hj hs
    apply hfirst
    -- the place ends before the last byte of the first one
    have hlen : j + s.length ≤ (a ++ s).dropLast.length := by
      rw [List.length_dropLast, List.length_append]
      omega
    have hdrop : (a ++ s ++ r).drop j = (a ++ s).dropLast.drop j ++
        ((a ++ s).drop ((a ++ s).length - 1) ++ r) := by
      rw [← List.drop_append_of_le_length (by omega), ← List.append_assoc, List.dropLast_eq_take,
        List.take_append_drop]
    rw [hdrop] at hs
    have hprefix : s <+: (a ++ s).dropLast.drop j := by
      apply List.prefix_of_prefix_length_le hs (List.prefix_append _ _)
      rw [List.length_drop]
      omega
    exact hprefix.isInfix.trans (List.drop_suffix j _).isInfix

theorem exists_strstr_split {p s : List UInt8} (hne : s ≠ []) {i : Nat} (h : strstr p s = some i) :
    ∃ a r, cstr p = a ++ s ++ r ∧ a.length = i ∧ ¬s <:+: (a ++ s).dropLast := by
  obtain ⟨hi, ⟨r, hr⟩, hfirst⟩ := strstr_eq_some.mp h
  have hlen : ((cstr p).take i).length = i := List.length_take_of_le hi
  have hsplit : cstr p = (cstr p).take i ++ s ++ r := by
    rw [List.append_assoc, hr, List.take_append_drop]
  refine ⟨(cstr p).take i, r, hsplit, hlen, ?_⟩
  rintro ⟨u, v, huv⟩
  have hpos := List.length_pos_iff.mpr hne
  have hcount := congrArg List.length huv
  rw [List.length_dropLast] at hcount
  simp only [List.length_append, hlen] at hcount
  apply hfirst u.length (by omega)
  have hprefix : u ++ s <+: cstr p := by
    rw [hsplit]
    refine List.IsPrefix.trans ?_ (List.prefix_append _ r)
    refine List.IsPrefix.trans ?_ (List.dropLast_prefix _)
    rw [← huv]
    exact List.prefix_append _ v
  obtain ⟨t, ht⟩ := hprefix
  rw [← ht, List.append_assoc, List.drop_left]
  exact List.prefix_append s t

theorem strchr_split {p a r : List UInt8} {c : UInt8} (hp : cstr p = a ++ c :: r) (ha : c ∉ a) :
    strchr p c = some a.length := by
  rw [strchr, hp, List.findIdx?_append, List.findIdx?_eq_none_iff.mpr]
  · rw [List.findIdx?_cons, beq_self_eq_true, if_pos rfl]
    simp
  · intro d hd
    exact beq_false_of_ne fun heq => ha (heq ▸ hd)

theorem strchr_none {p : List UInt8} {c : UInt8} (hp : c ∉ cstr p) : strchr p c = none := by
  rw [strchr, List.findIdx?_eq_none_iff]
  intro d hd
  exact beq_false_of_ne fun heq => hp (heq ▸ hd)

theorem findIdx?_reverse_none {w : List UInt8} {c : UInt8} (hw : c ∉ w) :
    w.reverse.findIdx? (· == c) = none := by
  rw [List.findIdx?_eq_none_iff]
  intro d hd
  rw [List.mem_reverse] at hd
  exact beq_false_of_ne fun heq => hw (heq ▸ hd)

theorem strrchr_none {p : List UInt8} {c : UInt8} (h : c ∉ cstr p) : strrchr p c = none := by
  rw [strrchr, findIdx?_reverse_none h]
  rfl

/-- The last byte `c` of a string. -/
theorem strrchr_last {p u w : List UInt8} {c : UInt8} (h : cstr p = u ++ c :: w) (hw : c ∉ w) :
    strrchr p c = some u.length := by
  have hrev : (cstr p).reverse.findIdx? (· == c) = some w.length := by
    rw [h, List.reverse_append, List.reverse_cons, List.append_assoc, List.singleton_append,
      List.findIdx?_append, findIdx?_reverse_none hw, List.findIdx?_cons, beq_self_eq_true, if_pos rfl,
      List.length_reverse]
    simp
  rw [strrchr, hrev, h, Option.map_some, List.length_append, List.length_cons]
  congr 1
  omega

/-! ## Formatting with a limit -/

theorem snprintfBytes_length_le (n : Nat) (s : List UInt8) : (snprintfBytes n s).length ≤ n := by
  unfold snprintfBytes
  split_ifs with h
  · exact Nat.zero_le n
  · rw [List.length_append, List.length_take, List.length_singleton]
    omega

/-- A text with room for its terminator is stored whole. -/
theorem snprintfBytes_fits {n : Nat} {s : List UInt8} (h : s.length < n) :
    snprintfBytes n s = s ++ [NUL] := by
  rw [snprintfBytes, if_neg (Nat.ne_zero_of_lt h), List.take_of_length_le (Nat.le_sub_one_of_lt h)]

/-- A text that is not longer than the room, whose last byte may be overwritten. -/
theorem snprintf_prefix {n : Nat} {s : List UInt8} (h : s.length ≤ n) :
    (snprintf n s).length = s.length ∧ snprintf n s <+: snprintfBytes n s := by
  rcases Nat.lt_or_eq_of_le h with hlt | heq
  · rw [snprintf, if_pos hlt, snprintfBytes_fits hlt]
    exact ⟨rfl, List.prefix_append s [NUL]⟩
  · rw [snprintf, if_neg (by omega), snprintfBytes]
    by_cases hn : n = 0
    · rw [if_pos hn, heq, hn]
      exact ⟨rfl, List.prefix_refl []⟩
    · rw [if_neg hn, List.length_append, List.length_take, List.length_singleton]
      exact ⟨by omega, List.prefix_refl _⟩

end CString
