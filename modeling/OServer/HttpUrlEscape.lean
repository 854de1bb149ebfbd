/-
  OServer/HttpUrlEscape.lean
  ==========================
  **Percent coding (`http_url_escape` and `http_url_unescape`).**

  The decoder works in place: it reads the string at one pointer and writes what it has
  decoded at another one, which never comes to stand in front of the first
  (`Unescape.Kept`).  A digit is signed, and a negative one is the answer for a byte that is
  none; the terminator is such a byte, so that the decoder stops there.

  The encoder takes the high half of a byte with a shift of a signed `char`, and is not
  defined for the bytes from 128 on.

    * `httpUrlUnescape_decodes`  — the decoder;
    * `httpUrlEscape_restores`   — where the decoder is an inverse of the encoder.
-/
import OServer.HttpUrl
import OServer.Lib.Percent
import Mathlib.Logic.Relation
import Mathlib.Algebra.Ring.Nat

namespace OServer

open CString

/-! ## 1. The decoder -/

/-- `http_hex_char_to_num`; the value of a digit, or -1. -/
def httpHexCharToNum (x : UInt8) : Int8 :=
  let bits := httpAscii x
  if bits &&& digitBit ≠ 0 then (x - '0'.toUInt8).toInt8
  else if bits &&& hexBit ≠ 0 then
    if bits &&& lowerCaseBit ≠ 0 then (x - ('a'.toUInt8 - 10)).toInt8
    else (x - ('A'.toUInt8 - 10)).toInt8
  else (-1 : UInt8).toInt8

/-- The array, and the two pointers into it. -/
structure Unescape where
  url : List UInt8
  urlDecoded : Nat
  p : Nat
deriving DecidableEq, Repr

/-- The loop goes on, or the function returns with the array as it is then. -/
inductive UnescapeTurn where
  | next (st : Unescape)
  | ret (r : Int) (url : List UInt8)
deriving DecidableEq, Repr

/-- `*url_decoded++ = x`, after which `p` stands at the next byte to be read. -/
def Unescape.put (st : Unescape) (x : UInt8) (p : Nat) : Option Unescape :=
  if st.urlDecoded < st.url.length then
    some ⟨st.url.set st.urlDecoded x, st.urlDecoded + 1, p⟩
  else none

/-- The loop condition of `http_url_unescape` at `p`, and the body of the loop or what
    follows it; `none` where a byte outside of the array is read or written. -/
def Unescape.turn (st : Unescape) : Option UnescapeTurn := do
  let c ← st.url[st.p]?
  if c = NUL then
    let st ← st.put NUL st.p
    return .ret 0 st.url
  if c = '%'.toUInt8 then
    let h ← st.url[st.p + 1]?
    let x := httpHexCharToNum h
    if x < 0 then return .ret (-1) st.url
    let x := x <<< 4
    let l ← st.url[st.p + 2]?
    let y := httpHexCharToNum l
    if y < 0 then return .ret (-1) st.url
    let st ← st.put (x + y).toUInt8 (st.p + 3)
    return .next st
  let st ← st.put c (st.p + 1)
  return .next st

/-- The loop; every turn comes nearer to the end of the array. -/
def unescapeLoop : Nat → Unescape → Option (Int × List UInt8)
  | 0, _ => none
  | fuel + 1, st =>
      match st.turn with
      | none => none
      | some (.ret r url) => some (r, url)
      | some (.next st) => unescapeLoop fuel st

/-- `http_url_unescape` on a string that fills the array: return value and array. -/
def httpUrlUnescape (url : List UInt8) : Option (Int × List UInt8) :=
  unescapeLoop url.length ⟨url, 0, 0⟩

/-! ## 2. The encoder -/

def isNum (c : UInt8) : Bool := httpAscii c &&& digitBit ≠ 0

def isLetter (c : UInt8) : Bool := httpAscii c &&& alBit ≠ 0

def isAlnum (c : UInt8) : Bool := isNum c || isLetter c

def httpHex : List UInt8 := bytes "0123456789ABCDEF" ++ [NUL]

/-- `http_hex[i]`; `none` for an index outside of the array. -/
def httpHexAt (i : Int) : Option UInt8 := if 0 ≤ i then httpHex[i.toNat]? else none

/-- The first loop of `http_url_escape`, which counts. -/
def escapeLen : List UInt8 → Nat
  | [] => 0
  | c :: p =>
      if c = NUL then 0
      else if !isAlnum c then escapeLen p + 3
      else escapeLen p + 1

/-- The second loop, which writes.  The index into `http_hex` is computed from a signed
    `char`. -/
def escapeBytes : List UInt8 → Option (List UInt8)
  | [] => some []
  | c :: p =>
      if c = NUL then some []
      else if !isAlnum c then do
        let h ← httpHexAt (c.toInt8 >>> 4).toInt
        let l ← httpHexAt (c.toInt8 &&& 0x0F).toInt
        let x ← escapeBytes p
        some ('%'.toUInt8 :: h :: l :: x)
      else do
        let x ← escapeBytes p
        some (c :: x)

/-- `http_url_escape`, when `malloc` finds room: how many bytes it was asked for, and the
    bytes that were written there.  `none` also where the `int` of the length overflows. -/
def httpUrlEscape (url : List UInt8) : Option (Nat × List UInt8) :=
  let len := escapeLen url + 1
  if 2 ^ 31 ≤ len then none
  else do
    let x ← escapeBytes url
    some (len, x ++ [NUL])

/-! ## 3. One turn of the decoder -/

/-- The digits of the table are the hexadecimal ones, and a byte that is none is
    negative. -/
theorem httpHexCharToNum_none {c : UInt8} (h : Percent.hexValue c = none) :
    httpHexCharToNum c < 0 := by
  revert h
  exact Percent.forall_byte (P := fun c => Percent.hexValue c = none → httpHexCharToNum c < 0)
    (by decide +kernel) c

theorem httpHexCharToNum_some {c v : UInt8} (h : Percent.hexValue c = some v) :
    httpHexCharToNum c = v.toInt8 ∧ ¬httpHexCharToNum c < 0 := by
  have hall : (Percent.hexValue c).all
      (fun v => httpHexCharToNum c == v.toInt8 && !decide (httpHexCharToNum c < 0)) = true :=
    Percent.forall_byte (P := fun c => (Percent.hexValue c).all
      (fun v => httpHexCharToNum c == v.toInt8 && !decide (httpHexCharToNum c < 0)) = true)
      (by decide +kernel) c
  rw [h, Option.all_some, Bool.and_eq_true, beq_iff_eq, Bool.not_eq_true',
    decide_eq_false_iff_not] at hall
  exact hall

/-- `(x << 4) + y`. -/
theorem nibbles_sum (a b : UInt8) :
    ((a.toInt8 <<< 4) + b.toInt8).toUInt8 = a * 16 + b := by
  have hshift : ∀ a : UInt8, (a.toInt8 <<< 4).toUInt8 = a * 16 :=
    Percent.forall_byte (by decide +kernel)
  rw [Int8.toUInt8_add, hshift]
  rfl

/-- The string `s` is being decoded: what has not been read yet is unchanged, and what has
    been written is the decoded form of what has been read. -/
structure Unescape.Kept (s : List UInt8) (st : Unescape) : Prop where
  size : st.url.length = s.length + 1
  behind : st.urlDecoded ≤ st.p
  within : st.p ≤ s.length
  unread : st.url.drop st.p = s.drop st.p ++ [NUL]
  written : Percent.decode s =
    (Percent.decode (s.drop st.p)).map (st.url.take st.urlDecoded ++ ·)

theorem Unescape.kept_start (s : List UInt8) : Unescape.Kept s ⟨s ++ [NUL], 0, 0⟩ where
  size := by rw [List.length_append, List.length_singleton]
  behind := Nat.le_refl 0
  within := Nat.zero_le _
  unread := rfl
  written := by simp

theorem take_set_succ {l : List UInt8} {i : Nat} (h : i < l.length) (x : UInt8) :
    (l.set i x).take (i + 1) = l.take i ++ [x] := by
  rw [List.take_add_one, List.take_set_of_le (Nat.le_refl i), List.getElem?_set_self h]
  rfl

/-- What is written stands in front of what will be read. -/
theorem Unescape.Kept.put {s w r : List UInt8} {st : Unescape} {x : UInt8} (hst : st.Kept s)
    (hw : w ≠ []) (hs : s.drop st.p = w ++ r)
    (hx : Percent.decode (w ++ r) = (Percent.decode r).map (x :: ·)) :
    ∃ st', st.put x (st.p + w.length) = some st' ∧ st'.Kept s ∧ st.p < st'.p := by
  have hsize := hst.size
  have hbehind := hst.behind
  have hwithin := hst.within
  have hpos := List.length_pos_iff.mpr hw
  have hlen := congrArg List.length hs
  rw [List.length_drop, List.length_append] at hlen
  have hin : st.urlDecoded < st.url.length := by omega
  have hrest : s.drop (st.p + w.length) = r := by
    rw [← List.drop_drop, hs, List.drop_left]
  refine ⟨_, if_pos hin, ?_, Nat.lt_add_of_pos_right hpos⟩
  refine ⟨?_, ?_, ?_, ?_, ?_⟩
  · dsimp only
    rw [List.length_set, hsize]
  · dsimp only
    omega
  · dsimp only
    omega
  · have hunread := hst.unread
    dsimp only
    rw [List.drop_set_of_lt (by omega), ← List.drop_drop, hunread, hrest, hs, List.append_assoc,
      List.drop_left]
  · have hwritten := hst.written
    dsimp only
    rw [hwritten, hs, hx, hrest, take_set_succ hin, Option.map_map]
    congr 1
    funext d
    simp

section Turn
variable {st : Unescape}

theorem Unescape.turn_plain {c : UInt8} (hc : st.url[st.p]? = some c) (h0 : c ≠ NUL)
    (hne : c ≠ '%'.toUInt8) :
    st.turn = (st.put c (st.p + 1)).map .next := by
  simp only [Unescape.turn, hc, Option.bind_eq_bind, Option.bind_some, if_neg h0, if_neg hne]
  rw [Option.map_eq_bind]
  rfl

variable (hc : st.url[st.p]? = some '%'.toUInt8) {h l : UInt8} (hh : st.url[st.p + 1]? = some h)
include hc hh

theorem Unescape.turn_high (hx : httpHexCharToNum h < 0) :
    st.turn = some (.ret (-1) st.url) := by
  have h0 : '%'.toUInt8 ≠ NUL := by decide
  simp [Unescape.turn, hc, hh, h0, hx]

variable (hl : st.url[st.p + 2]? = some l)
include hl

/-- The first digit need not be one. -/
theorem Unescape.turn_low (hy : httpHexCharToNum l < 0) : st.turn = some (.ret (-1) st.url) := by
  have h0 : '%'.toUInt8 ≠ NUL := by decide
  simp [Unescape.turn, hc, hh, hl, h0, hy]

theorem Unescape.turn_escape (hx : ¬httpHexCharToNum h < 0) (hy : ¬httpHexCharToNum l < 0) :
    st.turn = (st.put ((httpHexCharToNum h <<< 4) + httpHexCharToNum l).toUInt8 (st.p + 3)).map
      .next := by
  have h0 : '%'.toUInt8 ≠ NUL := by decide
  simp only [Unescape.turn, hc, hh, hl, Option.bind_eq_bind, Option.bind_some, if_neg h0, if_pos,
    if_neg hx, if_neg hy]
  rw [Option.map_eq_bind]
  rfl

end Turn

/-- What a turn of the loop can come to. -/
inductive Unescape.Turns (s : List UInt8) (st : Unescape) : Prop where
  | next (st' : Unescape) (h : st.turn = some (.next st')) (hst : st'.Kept s) (hp : st.p < st'.p)
  | done (url d : List UInt8) (h : st.turn = some (.ret 0 url)) (hd : Percent.decode s = some d)
      (hurl : d ++ [NUL] <+: url)
  | fail (h : st.turn = some (.ret (-1) st.url)) (hd : Percent.decode s = none)

theorem getElem?_terminated (t : List UInt8) : (t ++ [NUL])[0]? = some (peek t) := by
  cases t <;> rfl

section Turns
variable {s : List UInt8} {st : Unescape} (hst : st.Kept s)
include hst

/-- What is read is the rest of the string and its terminator. -/
theorem Unescape.Kept.read (i : Nat) : st.url[st.p + i]? = (s.drop st.p ++ [NUL])[i]? := by
  rw [← hst.unread, List.getElem?_drop]

theorem Unescape.Kept.turns_end (hw : s.drop st.p = []) : st.Turns s := by
  have hfirst : st.url[st.p]? = some NUL := by
    have hread := hst.read 0
    rwa [Nat.add_zero, hw] at hread
  have hwritten := hst.written
  rw [hw] at hwritten
  have hin : st.urlDecoded < st.url.length := by
    have hsize := hst.size
    have hbehind := hst.behind
    have hwithin := hst.within
    omega
  refine .done (st.url.set st.urlDecoded NUL) (st.url.take st.urlDecoded) ?_ ?_ ?_
  · simp [Unescape.turn, hfirst, Unescape.put, hin]
  · rw [hwritten]
    simp
  · rw [← take_set_succ hin]
    exact List.take_prefix _ _

theorem Unescape.Kept.turns_plain {c : UInt8} {t : List UInt8} (hw : s.drop st.p = c :: t)
    (hc : c ≠ NUL) (hne : c ≠ Percent.percent) : st.Turns s := by
  have hfirst : st.url[st.p]? = some c := by
    have hread := hst.read 0
    rwa [Nat.add_zero, hw] at hread
  obtain ⟨st', hput, hkept, hp⟩ := hst.put (w := [c]) (List.cons_ne_nil c []) (hw.trans rfl)
    (Percent.decode_plain hne t)
  refine .next st' ?_ hkept hp
  rw [Unescape.turn_plain hfirst hc hne]
  exact congrArg (Option.map UnescapeTurn.next) hput

/-- An escape, one digit after the other; the terminator is no digit. -/
theorem Unescape.Kept.turns_percent {t : List UInt8} (hw : s.drop st.p = Percent.percent :: t) :
    st.Turns s := by
  have hread := hst.read
  rw [hw] at hread
  have hfirst : st.url[st.p]? = some Percent.percent := hread 0
  have hhigh : st.url[st.p + 1]? = some (peek t) := (hread 1).trans (getElem?_terminated t)
  have hwritten := hst.written
  rw [hw] at hwritten
  cases hx : Percent.hexValue (peek t) with
  | none =>
    refine .fail (Unescape.turn_high hfirst hhigh (httpHexCharToNum_none hx)) ?_
    rw [hwritten, Percent.decode_high hx]
    rfl
  | some a =>
    obtain ⟨h, t, rfl, ha⟩ := Percent.exists_digit hx
    have hlow : st.url[st.p + 2]? = some (peek t) := (hread 2).trans (getElem?_terminated t)
    cases hy : Percent.hexValue (peek t) with
    | none =>
      refine .fail (Unescape.turn_low hfirst hhigh hlow (httpHexCharToNum_none hy)) ?_
      rw [hwritten, Percent.decode_low hy]
      rfl
    | some b =>
      obtain ⟨l, t, rfl, hb⟩ := Percent.exists_digit hy
      have hx' := httpHexCharToNum_some ha
      have hy' := httpHexCharToNum_some hb
      have hturn : st.turn = _ := Unescape.turn_escape hfirst hhigh hlow hx'.2 hy'.2
      obtain ⟨st', hput, hkept, hp⟩ := hst.put (w := [Percent.percent, h, l])
        (List.cons_ne_nil _ _) (hw.trans rfl) (Percent.decode_escape ha hb t)
      refine .next st' ?_ hkept hp
      rw [hturn, peek, peek, List.headD_cons, List.headD_cons, hx'.1, hy'.1, nibbles_sum]
      exact congrArg (Option.map UnescapeTurn.next) hput

/-- The read position is never behind the terminator, also within an escape. -/
theorem Unescape.Kept.turns (hs : NUL ∉ s) : st.Turns s := by
  cases hw : s.drop st.p with
  | nil => exact hst.turns_end hw
  | cons c t =>
    have hc : c ≠ NUL := by
      rintro rfl
      exact hs (List.mem_of_mem_drop (hw ▸ List.mem_cons_self))
    by_cases hpercent : c = Percent.percent
    · rw [hpercent] at hw
      exact hst.turns_percent hw
    · exact hst.turns_plain hw hc hpercent

end Turns

/-! ## 4. The decoder on a string -/

/-- What `http_url_unescape` should return and leave in the array. -/
def Decodes (s : List UInt8) (r : Int) (url : List UInt8) : Prop :=
  match Percent.decode s with
  | some d => r = 0 ∧ d ++ [NUL] <+: url
  | none => r = -1

theorem unescapeLoop_decodes {s : List UInt8} (hs : NUL ∉ s) {fuel : Nat} {st : Unescape}
    (hst : st.Kept s) (hfuel : s.length < st.p + fuel) :
    ∃ r url, unescapeLoop fuel st = some (r, url) ∧ Decodes s r url := by
  induction fuel generalizing st with
  | zero =>
    have := hst.within
    omega
  | succ fuel ih =>
    cases hst.turns hs with
    | next st' h hst' hp =>
      rw [unescapeLoop, h]
      exact ih hst' (by omega)
    | done url d h hd hurl =>
      refine ⟨0, url, by rw [unescapeLoop, h], ?_⟩
      rw [Decodes, hd]
      exact ⟨rfl, hurl⟩
    | fail h hd =>
      refine ⟨-1, st.url, by rw [unescapeLoop, h], ?_⟩
      rw [Decodes, hd]

theorem httpUrlUnescape_run {s : List UInt8} (hs : NUL ∉ s) :
    ∃ r url, httpUrlUnescape (s ++ [NUL]) = some (r, url) ∧ Decodes s r url := by
  refine unescapeLoop_decodes hs (Unescape.kept_start s) ?_
  rw [List.length_append, List.length_singleton]
  omega

/-- One state of the loop follows the other. -/
def Unescape.Next (st st' : Unescape) : Prop := st.turn = some (.next st')

/-- The states that the loop comes to. -/
def Unescape.Reached (s : List UInt8) : Unescape → Prop :=
  Relation.ReflTransGen Unescape.Next ⟨s ++ [NUL], 0, 0⟩

theorem Unescape.Reached.kept {s : List UInt8} (hs : NUL ∉ s) {st : Unescape}
    (h : Unescape.Reached s st) : st.Kept s := by
  induction h with
  | refl => exact Unescape.kept_start s
  | tail _ hnext ih =>
    cases ih.turns hs with
    | next st' h hst' _ =>
      obtain rfl := UnescapeTurn.next.inj (Option.some.inj (hnext.symm.trans h))
      exact hst'
    | done url d h => cases hnext.symm.trans h
    | fail h => cases hnext.symm.trans h

/-- **The decoder** returns 0 exactly on the texts that can be decoded, and leaves them
    decoded; it does not touch a byte behind the terminator, and does not write in front of
    the position it reads at. -/
theorem httpUrlUnescape_decodes {s : List UInt8} (hs : NUL ∉ s) :
    (∃ r url, httpUrlUnescape (s ++ [NUL]) = some (r, url) ∧ (r = 0 ↔ Percent.WellFormed s) ∧
      (r = 0 → ∃ d, Percent.decode s = some d ∧ d ++ [NUL] <+: url) ∧ (r ≠ 0 → r = -1)) ∧
    ∀ st, Unescape.Reached s st → st.turn ≠ none ∧ st.urlDecoded ≤ st.p ∧ st.p ≤ s.length := by
  constructor
  · obtain ⟨r, url, hrun, hdec⟩ := httpUrlUnescape_run hs
    refine ⟨r, url, hrun, ?_⟩
    rw [Decodes] at hdec
    rw [← Percent.decode_isSome]
    cases hd : Percent.decode s with
    | none =>
      rw [hd] at hdec
      have hneg : r = -1 := hdec
      simp [hneg]
    | some d =>
      rw [hd] at hdec
      simp [hdec.1, hdec.2]
  · intro st hreached
    have hkept := hreached.kept hs
    refine ⟨?_, hkept.behind, hkept.within⟩
    cases hkept.turns hs with
    | next st' h => rw [h]; exact Option.some_ne_none _
    | done url d h => rw [h]; exact Option.some_ne_none _
    | fail h => rw [h]; exact Option.some_ne_none _

theorem httpUrlUnescape_decodes_space :
    (∃ r url, httpUrlUnescape (bytes "a%20%4" ++ [NUL]) = some (r, url) ∧
      (r = 0 ↔ Percent.WellFormed (bytes "a%20%4")) ∧
      (r = 0 → ∃ d, Percent.decode (bytes "a%20%4") = some d ∧ d ++ [NUL] <+: url) ∧
      (r ≠ 0 → r = -1)) ∧
    ∀ st, Unescape.Reached (bytes "a%20%4") st →
      st.turn ≠ none ∧ st.urlDecoded ≤ st.p ∧ st.p ≤ (bytes "a%20%4").length :=
  httpUrlUnescape_decodes (by decide)

/-! ## 5. The encoder -/

/-- The index into `http_hex` is negative for the high half of a byte from 128 on. -/
theorem httpHexAt_high (c : UInt8) : httpHexAt (c.toInt8 >>> 4).toInt =
    if c < 128 then some (Percent.hexDigit (c >>> 4)) else none :=
  Percent.forall_byte (P := fun c => httpHexAt (c.toInt8 >>> 4).toInt =
    if c < 128 then some (Percent.hexDigit (c >>> 4)) else none) (by decide +kernel) c

theorem httpHexAt_low (c : UInt8) :
    httpHexAt (c.toInt8 &&& 0x0F).toInt = some (Percent.hexDigit (c &&& 15)) :=
  Percent.forall_byte (P := fun c =>
    httpHexAt (c.toInt8 &&& 0x0F).toInt = some (Percent.hexDigit (c &&& 15))) (by decide +kernel) c

theorem isAlnum_lt {c : UInt8} (h : isAlnum c = true) : c < 128 := by
  revert h
  exact Percent.forall_byte (P := fun c => isAlnum c = true → c < 128) (by decide +kernel) c

theorem escapeBytes_ascii {s : List UInt8} (hs : NUL ∉ s) (hascii : ∀ b ∈ s, b < 128) :
    escapeBytes (s ++ [NUL]) = some (Percent.encode isAlnum s) := by
  induction s with
  | nil => rfl
  | cons c s ih =>
    rw [List.mem_cons, not_or] at hs
    have hrest := ih hs.2 fun b hb => hascii b (List.mem_cons_of_mem c hb)
    have hc := hascii c List.mem_cons_self
    have h0 : c ≠ NUL := Ne.symm hs.1
    cases halnum : isAlnum c with
    | true => simp [escapeBytes, Percent.encode, h0, halnum, hrest]
    | false =>
      simp [escapeBytes, Percent.encode, h0, halnum, hrest, httpHexAt_high, httpHexAt_low, hc]
      rfl

/-- **The encoder is defined for the ASCII strings only.** -/
theorem escapeBytes_isSome {s : List UInt8} (hs : NUL ∉ s)
    (h : escapeBytes (s ++ [NUL]) ≠ none) : ∀ b ∈ s, b < 128 := by
  induction s with
  | nil => exact fun b hb => absurd hb List.not_mem_nil
  | cons c s ih =>
    rw [List.mem_cons, not_or] at hs
    have h0 : c ≠ NUL := Ne.symm hs.1
    have hrest : escapeBytes (s ++ [NUL]) ≠ none := by
      intro hnone
      apply h
      cases halnum : isAlnum c <;> simp [escapeBytes, h0, halnum, hnone, httpHexAt_low]
    have hc : c < 128 := by
      by_contra hc
      have halnum : isAlnum c = false := by
        rw [← Bool.not_eq_true]
        exact fun hyes => hc (isAlnum_lt hyes)
      apply h
      simp [escapeBytes, h0, halnum, httpHexAt_high, hc]
    exact List.forall_mem_cons.mpr ⟨hc, ih hs.2 hrest⟩

/-- How many bytes are written for a string, with the terminator. -/
theorem escapeLen_eq {s : List UInt8} (hs : NUL ∉ s) :
    escapeLen (s ++ [NUL]) = s.length + 2 * s.countP (fun b => !isAlnum b) := by
  induction s with
  | nil => rfl
  | cons c s ih =>
    rw [List.mem_cons, not_or] at hs
    have hrest := ih hs.2
    have h0 : c ≠ NUL := Ne.symm hs.1
    rw [List.length_cons, List.countP_cons]
    cases halnum : isAlnum c <;> simp [escapeLen, h0, halnum, hrest] <;> omega

/-- Both loops of the encoder agree. -/
theorem encode_length (s : List UInt8) : (Percent.encode isAlnum s).length =
    s.length + 2 * s.countP (fun b => !isAlnum b) := by
  induction s with
  | nil => rfl
  | cons c s ih =>
    rw [List.length_cons, List.countP_cons]
    cases halnum : isAlnum c <;> simp [Percent.encode, halnum, ih] <;> omega

/-- An encoded string has no `NUL` of its own. -/
theorem nul_not_mem_encode {s : List UInt8} (hs : NUL ∉ s) : NUL ∉ Percent.encode isAlnum s := by
  induction s with
  | nil => exact List.not_mem_nil
  | cons c s ih =>
    rw [List.mem_cons, not_or] at hs
    have hrest := ih hs.2
    have hdigits : NUL ≠ Percent.hexDigit (c >>> 4) ∧ NUL ≠ Percent.hexDigit (c &&& 15) :=
      Percent.forall_byte (P := fun c => NUL ≠ Percent.hexDigit (c >>> 4) ∧
        NUL ≠ Percent.hexDigit (c &&& 15)) (by decide +kernel) c
    have hpercent : NUL ≠ Percent.percent := by decide
    cases halnum : isAlnum c with
    | true => simp [Percent.encode, halnum, hs.1, hrest]
    | false => simp [Percent.encode, halnum, hdigits.1, hdigits.2, hpercent, hrest]

/-! ## 6. There and back -/

/-- The encoder fills the bytes it allocates, and the decoder brings the string back. -/
def EscapeRestores (s : List UInt8) : Prop :=
  ∃ len x, httpUrlEscape (s ++ [NUL]) = some (len, x) ∧ x.length = len ∧
    ∃ url, httpUrlUnescape x = some (0, url) ∧ s ++ [NUL] <+: url

/-- The decoder on what the encoder has written. -/
theorem httpUrlUnescape_encode {s : List UInt8} (hs : NUL ∉ s) :
    ∃ url, httpUrlUnescape (Percent.encode isAlnum s ++ [NUL]) = some (0, url) ∧
      s ++ [NUL] <+: url := by
  obtain ⟨r, url, hrun, hdec⟩ := httpUrlUnescape_run (nul_not_mem_encode hs)
  have hpercent : isAlnum Percent.percent = false := by decide
  rw [Decodes, Percent.decode_encode hpercent] at hdec
  rw [hdec.1] at hrun
  exact ⟨url, hrun, hdec.2⟩

/-- **Encoding is undone by decoding exactly on the ASCII strings**, as long as the length
    of the encoded string is an `int`. -/
theorem httpUrlEscape_restores {s : List UInt8} (hs : NUL ∉ s) :
    EscapeRestores s ↔
      (∀ b ∈ s, b < 128) ∧ s.length + 2 * s.countP (fun b => !isAlnum b) + 1 < 2 ^ 31 := by
  have hlen := escapeLen_eq hs
  constructor
  · rintro ⟨len, x, hesc, -, -⟩
    unfold httpUrlEscape at hesc
    dsimp only at hesc
    split_ifs at hesc with hint
    obtain ⟨x, hx, -⟩ := Option.bind_eq_some_iff.mp hesc
    rw [hlen] at hint
    refine ⟨escapeBytes_isSome hs ?_, Nat.lt_of_not_le hint⟩
    rw [hx]
    exact Option.some_ne_none x
  · rintro ⟨hascii, hint⟩
    rw [← hlen] at hint
    refine ⟨escapeLen (s ++ [NUL]) + 1, Percent.encode isAlnum s ++ [NUL], ?_, ?_,
      httpUrlUnescape_encode hs⟩
    · rw [httpUrlEscape, if_neg (Nat.not_le_of_lt hint), escapeBytes_ascii hs hascii]
      rfl
    · rw [List.length_append, encode_length, hlen]
      rfl

/-- Of `é` in UTF-8 no half can be looked up. -/
theorem httpUrlEscape_not_restores : ¬EscapeRestores [0xC3, 0xA9] := by
  rintro ⟨len, x, hesc, -, -⟩
  cases hesc

theorem httpUrlEscape_restores_space :
    EscapeRestores (bytes "a b/c") ↔ (∀ b ∈ bytes "a b/c", b < 128) ∧
      (bytes "a b/c").length + 2 * (bytes "a b/c").countP (fun b => !isAlnum b) + 1 < 2 ^ 31 :=
  httpUrlEscape_restores (by decide)

end OServer
