/-
  OServer/HttpMethod.lean
  =======================
  **The method token of a request line (`http_method.c`).**
-/
import OServer.Lib.CString

namespace OServer

open CString

/-- `http_method_t`. -/
inductive HttpMethod where
  | get | put | delete | patch | post | head | options | none
deriving DecidableEq, Repr

/-- `http_method_str`; the table `methods[]` has no entry for `e_http_none`. -/
def httpMethodStr : HttpMethod → Option (List UInt8)
  | .get => bytes "GET "
  | .put => bytes "PUT "
  | .delete => bytes "DELETE "
  | .patch => bytes "PATCH "
  | .post => bytes "POST "
  | .head => bytes "HEAD "
  | .options => bytes "OPTIONS "
  | .none => Option.none

/-- The comparison with the entry `w` of the method `x`, its first `k` bytes taken for
    granted.  With fewer bytes than that, `t` starts beyond `end` and never meets it. -/
def methodMatch (x : HttpMethod) (w : List UInt8) (k : Nat) (data : List UInt8)
    (m : HttpMethod) : Parsed HttpMethod :=
  if data.length < k then ⟨-1, 0, m⟩
  else
    let r := matchBytes (w.drop k) (data.drop k)
    if r.1 ∧ r.2.1 = [] then ⟨0, data.length - r.2.2.length, x⟩
    else if r.1 ∧ r.2.2 = [] then ⟨0, 0, m⟩
    else ⟨-1, 0, m⟩

def httpMethodParse (data : List UInt8) (m : HttpMethod) : Parsed HttpMethod :=
  match data with
  | [] => ⟨-1, 0, m⟩
  | c :: rest =>
      if c = 'G'.toUInt8 then methodMatch .get (bytes "GET ") 1 data m
      else if c = 'P'.toUInt8 then
        -- `data[1]` may be behind the end; no byte found there is of help
        if peek rest = 'U'.toUInt8 then methodMatch .put (bytes "PUT ") 2 data m
        else if peek rest = 'O'.toUInt8 then methodMatch .post (bytes "POST ") 2 data m
        else ⟨-1, 0, m⟩
      else if c = 'H'.toUInt8 then methodMatch .head (bytes "HEAD ") 1 data m
      else if c = 'O'.toUInt8 then methodMatch .options (bytes "OPTIONS ") 1 data m
      else if c = NUL then ⟨0, 0, m⟩
      else ⟨-1, 0, m⟩

/-- The methods that are recognised. -/
def methodTokens : List (HttpMethod × List UInt8) :=
  [(.get, bytes "GET "), (.put, bytes "PUT "), (.post, bytes "POST "), (.head, bytes "HEAD "),
    (.options, bytes "OPTIONS ")]

/-- What a call of `http_method_parse` can answer: a token, which stays that token
    whatever follows; more bytes needed; a rejection, which stays one. -/
inductive MethodAnswer (data : List UInt8) (m : HttpMethod) : Prop where
  | token (x : HttpMethod) (w r : List UInt8) (hx : (x, w) ∈ methodTokens) (hdata : data = w ++ r)
      (h : ∀ q, httpMethodParse (data ++ q) m = ⟨0, w.length, x⟩)
  | more (h : httpMethodParse data m = ⟨0, 0, m⟩)
  | reject (h : ∀ q, httpMethodParse (data ++ q) m = ⟨-1, 0, m⟩)

theorem methodMatch_cases (x : HttpMethod) (pre w tail : List UInt8) (m : HttpMethod) :
    (∃ r, tail = w ++ r ∧ ∀ q, methodMatch x (pre ++ w) pre.length (pre ++ tail ++ q) m =
      ⟨0, (pre ++ w).length, x⟩) ∨
    methodMatch x (pre ++ w) pre.length (pre ++ tail) m = ⟨0, 0, m⟩ ∨
    ∀ q, methodMatch x (pre ++ w) pre.length (pre ++ tail ++ q) m = ⟨-1, 0, m⟩ := by
  have hunfold : ∀ t, methodMatch x (pre ++ w) pre.length (pre ++ t) m =
      (if (matchBytes w t).1 ∧ (matchBytes w t).2.1 = [] then
        ⟨0, (pre ++ t).length - (matchBytes w t).2.2.length, x⟩
      else if (matchBytes w t).1 ∧ (matchBytes w t).2.2 = [] then ⟨0, 0, m⟩
      else ⟨-1, 0, m⟩) := by
    intro t
    have hlen : ¬ (pre ++ t).length < pre.length := by simp
    rw [methodMatch, if_neg hlen, List.drop_left, List.drop_left]
  rcases matchBytes_cases w tail with ⟨r, rfl, -⟩ | ⟨c, r, rfl, hm⟩ | ⟨k, c, d, p', t', rfl, rfl, hne, -⟩
  · refine Or.inl ⟨r, rfl, fun q => ?_⟩
    rw [List.append_assoc, hunfold, List.append_assoc, matchBytes_append]
    simp
    omega
  · refine Or.inr (Or.inl ?_)
    rw [hunfold, hm]
    simp
  · refine Or.inr (Or.inr fun q => ?_)
    rw [List.append_assoc, hunfold, List.append_assoc, List.cons_append, matchBytes_differ k _ _ hne]
    simp

/-- From the comparison to the answer of the parser. -/
theorem MethodAnswer.of_match (x : HttpMethod) (pre w : List UInt8) {m : HttpMethod}
    (hx : (x, pre ++ w) ∈ methodTokens) {tail : List UInt8}
    (h : ∀ q, httpMethodParse (pre ++ tail ++ q) m =
      methodMatch x (pre ++ w) pre.length (pre ++ tail ++ q) m) :
    MethodAnswer (pre ++ tail) m := by
  rcases methodMatch_cases x pre w tail m with ⟨r, rfl, hm⟩ | hm | hm
  · exact .token x (pre ++ w) r hx (List.append_assoc ..).symm fun q => (h q).trans (hm q)
  · have h₀ := h []
    rw [List.append_nil] at h₀
    exact .more (h₀.trans hm)
  · exact .reject fun q => (h q).trans (hm q)

/-- A single `P` is rejected although it may be the start of a token. -/
theorem httpMethodParse_P (m : HttpMethod) : httpMethodParse (bytes "P") m = ⟨-1, 0, m⟩ := rfl

theorem httpMethodParse_nil (m : HttpMethod) : httpMethodParse [] m = ⟨-1, 0, m⟩ := rfl

theorem httpMethodParse_answer {data : List UInt8} (m : HttpMethod) (hne : data ≠ [])
    (hP : data ≠ bytes "P") : MethodAnswer data m := by
  cases data with
  | nil => exact absurd rfl hne
  | cons c rest =>
    by_cases hG : c = 'G'.toUInt8
    · subst hG
      exact .of_match .get (bytes "G") (bytes "ET ") (by decide) fun q => rfl
    by_cases hP' : c = 'P'.toUInt8
    · subst hP'
      cases rest with
      | nil => exact absurd rfl hP
      | cons d rest =>
        by_cases hU : d = 'U'.toUInt8
        · subst hU
          exact .of_match .put (bytes "PU") (bytes "T ") (by decide) fun q => rfl
        by_cases hO : d = 'O'.toUInt8
        · subst hO
          exact .of_match .post (bytes "PO") (bytes "ST ") (by decide) fun q => rfl
        refine .reject fun q => ?_
        simp [httpMethodParse, peek, hU, hO, hG]
    by_cases hH : c = 'H'.toUInt8
    · subst hH
      exact .of_match .head (bytes "H") (bytes "EAD ") (by decide) fun q => rfl
    by_cases hO : c = 'O'.toUInt8
    · subst hO
      exact .of_match .options (bytes "O") (bytes "PTIONS ") (by decide)
        fun q => rfl
    by_cases h0 : c = NUL
    · subst h0
      exact .more rfl
    · refine .reject fun q => ?_
      simp [httpMethodParse, hG, hP', hH, hO, h0]

end OServer
