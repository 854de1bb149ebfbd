/-
  OServer/HttpVersion.lean
  ========================
  **The version and the end of a request line (`http_version.c`).**
-/
import OServer.Lib.CString

namespace OServer

open CString

/-- `http_version_t`. -/
inductive HttpVersion where
  | v1_0 | v1_1 | none
deriving DecidableEq, Repr

def httpVersionStr : List UInt8 := bytes "HTTP/1."
def httpLineDelimiter : List UInt8 := [CR, LF]

/-- On an empty buffer the call returns before it sets `*parse_len`, which then keeps
    the value `parseLen` that the caller has in it. -/
def httpVersionParse (data : List UInt8) (parseLen : Int) (v : HttpVersion) :
    Parsed HttpVersion Int :=
  if data = [] then ⟨0, parseLen, v⟩
  else
    let r := matchBytes httpVersionStr data
    match r.2.2 with
    | [] => ⟨0, 0, v⟩
    | d :: t =>
        if r.1 ∧ r.2.1 = [] then
          if d = '0'.toUInt8 ∨ d = '1'.toUInt8 then
            let u := matchBytes httpLineDelimiter t
            if u.1 ∧ u.2.1 = [] then
              ⟨0, (data.length - u.2.2.length : Nat), if d = '0'.toUInt8 then .v1_0 else .v1_1⟩
            else if u.1 ∧ u.2.1 ≠ [] then ⟨0, 0, v⟩
            else ⟨-1, 0, v⟩
          else ⟨-1, 0, v⟩
        else if r.1 ∧ r.2.1 ≠ [] then ⟨0, 0, v⟩
        else ⟨-1, 0, v⟩

def httpVersionLen (_ : HttpVersion) : Nat := 9

/-- `http_version_to_str` with a buffer of `size` bytes: what it writes, and how much
    of it counts. -/
def httpVersionToStr (ver : HttpVersion) (size : Nat) : List UInt8 :=
  match ver with
  | .v1_0 => (bytes "HTTP/1.0 ").take size
  | .v1_1 | .none => (bytes "HTTP/1.1 ").take size

/-- The two version lines. -/
def versionLines : List (HttpVersion × List UInt8) :=
  [(.v1_0, bytes "HTTP/1.0\r\n"), (.v1_1, bytes "HTTP/1.1\r\n")]

/-- What a call of `http_version_parse` on bytes can answer. -/
inductive VersionAnswer (data : List UInt8) (v : HttpVersion) : Prop where
  | token (x : HttpVersion) (w r : List UInt8) (hx : (x, w) ∈ versionLines) (hdata : data = w ++ r)
      (h : ∀ q parseLen, httpVersionParse (data ++ q) parseLen v = ⟨0, w.length, x⟩)
  | more (h : ∀ parseLen, httpVersionParse data parseLen v = ⟨0, 0, v⟩)
  | reject (h : ∀ q parseLen, httpVersionParse (data ++ q) parseLen v = ⟨-1, 0, v⟩)

/-- Behind `HTTP/1.` come the digit and the end of the line. -/
theorem httpVersionParse_digit (d : UInt8) (t : List UInt8) (parseLen : Int) (v : HttpVersion) :
    httpVersionParse (httpVersionStr ++ d :: t) parseLen v =
      (if d = '0'.toUInt8 ∨ d = '1'.toUInt8 then
        let u := matchBytes httpLineDelimiter t
        if u.1 ∧ u.2.1 = [] then
          ⟨0, ((httpVersionStr ++ d :: t).length - u.2.2.length : Nat),
            if d = '0'.toUInt8 then .v1_0 else .v1_1⟩
        else if u.1 ∧ u.2.1 ≠ [] then ⟨0, 0, v⟩
        else ⟨-1, 0, v⟩
      else ⟨-1, 0, v⟩) := by
  rw [httpVersionParse, if_neg (by simp), matchBytes_append]
  simp

theorem httpVersionParse_answer {data : List UInt8} (v : HttpVersion) (hne : data ≠ []) :
    VersionAnswer data v := by
  have hne' : ∀ q, data ++ q ≠ [] := fun q h => hne (List.append_eq_nil_iff.mp h).1
  rcases matchBytes_cases httpVersionStr data with
    ⟨r, rfl, -⟩ | ⟨c, r, -, hm⟩ | ⟨k, c, d, p', t', hk, rfl, hdc, hm⟩
  · cases r with
    | nil =>
      refine .more fun parseLen => ?_
      rw [httpVersionParse, if_neg hne, matchBytes_append]
    | cons d t =>
      by_cases hd : d = '0'.toUInt8 ∨ d = '1'.toUInt8
      · rcases matchBytes_cases httpLineDelimiter t with
          ⟨r, rfl, -⟩ | ⟨c, r, -, hm⟩ | ⟨k, c, e, p', t', hk, rfl, hec, -⟩
        · refine .token (if d = '0'.toUInt8 then .v1_0 else .v1_1)
            (httpVersionStr ++ d :: httpLineDelimiter) r ?_ (by simp) fun q parseLen => ?_
          · rcases hd with rfl | rfl <;> decide
          · rw [List.append_assoc, List.cons_append, httpVersionParse_digit, if_pos hd,
              List.append_assoc, matchBytes_append]
            simp
            omega
        · refine .more fun parseLen => ?_
          rw [httpVersionParse_digit, if_pos hd, hm]
          simp
        · refine .reject fun q parseLen => ?_
          rw [List.append_assoc, List.cons_append, httpVersionParse_digit, if_pos hd, hk,
            List.append_assoc, List.cons_append, matchBytes_differ k _ _ hec]
          simp
      · refine .reject fun q parseLen => ?_
        rw [List.append_assoc, List.cons_append, httpVersionParse_digit, if_neg hd]
  · refine .more fun parseLen => ?_
    rw [httpVersionParse, if_neg hne, hm]
  · cases t' with
    | nil =>
      -- a difference in the last byte is not noticed yet
      refine .more fun parseLen => ?_
      rw [httpVersionParse, if_neg hne, hm]
    | cons e t' =>
      refine .reject fun q parseLen => ?_
      rw [httpVersionParse, if_neg (hne' q), hk, List.append_assoc, List.cons_append,
        matchBytes_differ k _ _ hdc]
      simp

end OServer
