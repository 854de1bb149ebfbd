/-
  OServer/HttpUrlTarget.lean
  ==========================
  **What an accepted target leaves in the structure (`http_url_parse`).**

    * `urlParseTarget_stack`  — the path stack is that of some path which the path
                                parser accepts, or empty;
    * `httpUrlParse_origin`   — a target that starts with `/` is taken for one with an
                                authority as soon as `//` occurs anywhere in it, be it
                                in the query string.
-/
import OServer.HttpUrlPath
import Mathlib.Data.List.TakeWhile

namespace OServer

open CString Segments

/-! ## 1. Accepted targets -/

/-- The bytes before the first space. -/
def targetText (data : List UInt8) : List UInt8 := data.takeWhile (· ≠ SP)

theorem targetText_append {u : List UInt8} (hu : SP ∉ u) (r : List UInt8) :
    targetText (u ++ SP :: r) = u := by
  have hall : ∀ c ∈ u, decide (c ≠ SP) = true := by
    intro c hc
    exact decide_eq_true fun h => hu (h ▸ hc)
  rw [targetText, List.takeWhile_append_of_pos hall,
    List.takeWhile_cons_of_neg (by decide), List.append_nil]

theorem httpUrlParse_accepted {data : List UInt8} {url : HttpUrl}
    (hret : (httpUrlParse data url).ret = 0) (hlen : 0 < (httpUrlParse data url).parseLen) :
    TargetOk url (targetText data) ∧
      (httpUrlParse data url).val =
        (urlParseTarget (url.store (targetText data)) (targetText data).length).2 := by
  cases httpUrlParse_answer data url with
  | token u r hu hdata h =>
    have hrun := h []
    rw [List.append_nil] at hrun
    have htext : targetText data = u := hdata ▸ targetText_append hu.2.1.1 r
    rw [htext, hrun]
    exact ⟨hu, rfl⟩
  | more h =>
    rw [h] at hlen
    exact absurd hlen (Nat.lt_irrefl 0)
  | reject n url' h =>
    have hrun := h []
    rw [List.append_nil] at hrun
    rw [hrun] at hret
    cases hret

/-! ## 2. The path stack -/

/-- The array of the structure is only read, and the host is set before the path. -/
theorem urlParseTail_frame (url : HttpUrl) (n k : Nat) :
    (urlParseTail url n k).2.url = url.url ∧ (urlParseTail url n k).2.host = url.host := by
  unfold urlParseTail
  dsimp only
  split_ifs <;> exact ⟨rfl, rfl⟩

theorem urlParseTail_path (url : HttpUrl) (n k : Nat) :
    (urlParseTail url n k).2.path = (httpUrlParsePath (url.url.drop k) k
      (walkSize (url.url.drop k) ((n : Int) - k)) url.path).val := by
  unfold urlParseTail
  dsimp only
  split_ifs <;> rfl

theorem urlParseTail_ok {url : HttpUrl} {n k : Nat} (h : (urlParseTail url n k).1 = 0) :
    (httpUrlParsePath (url.url.drop k) k
      (walkSize (url.url.drop k) ((n : Int) - k)) url.path).ret = 0 := by
  by_contra hret
  unfold urlParseTail at h
  dsimp only at h
  rw [if_pos hret] at h
  cases h

/-- The bytes of the segments on the stack. -/
def HttpUrl.segmentTexts (url : HttpUrl) : List (List UInt8) :=
  url.path.pathStack.map (·.text url.url)

theorem urlParseTail_stack {url : HttpUrl} {n k : Nat} (hstack : url.path.pathStack = [])
    (h : (urlParseTail url n k).1 = 0) :
    pathSegments (pathText ((url.url.drop k).take (walkSize (url.url.drop k) ((n : Int) - k)))) =
      some (urlParseTail url n k).2.segmentTexts := by
  have hpath : url.path = ⟨[], url.path.data, url.path.dataLen⟩ := by
    rw [← hstack]
  have hleaves := httpUrlParsePath_segments url.url k (walkSize (url.url.drop k) ((n : Int) - k))
    url.path.data url.path.dataLen
  have hret := urlParseTail_ok h
  rw [HttpUrl.segmentTexts, urlParseTail_path, (urlParseTail_frame url n k).1]
  rw [← hpath] at hleaves
  cases hsegs : pathSegments (pathText ((url.url.drop k).take
      (walkSize (url.url.drop k) ((n : Int) - k)))) with
  | none =>
    rw [hsegs] at hleaves
    exact absurd (Eq.trans (Eq.symm hret) hleaves) (by decide)
  | some segs =>
    rw [hsegs] at hleaves
    exact congrArg some hleaves.2.2.symm

/-- With or without a host, a path follows, or nothing does. -/
theorem urlParseHost_cases (url : HttpUrl) (n k : Nat) :
    (∃ url' k', url'.path = url.path ∧ url'.url = url.url ∧ 0 < k' ∧
      urlParseHost url n k = urlParseTail url' n k') ∨
    (∃ url', url'.path = url.path ∧ urlParseHost url n k = (0, url')) ∨
    urlParseHost url n k = (-1, url) := by
  unfold urlParseHost
  split
  · dsimp only
    split
    · refine Or.inl ⟨_, _, ?_, ?_, Nat.succ_pos _, rfl⟩
      · rfl
      · rfl
    · refine Or.inr (Or.inl ⟨_, ?_, rfl⟩)
      rfl
  · split
    · exact Or.inl ⟨url, k + 1, rfl, rfl, Nat.succ_pos k, rfl⟩
    · split
      · exact Or.inr (Or.inl ⟨url, rfl, rfl⟩)
      · exact Or.inr (Or.inr rfl)

/-- **The stack of an accepted target** holds the segments of a path, which is a part of the
    array behind its first byte. -/
theorem urlParseTarget_stack {url : HttpUrl} {n : Nat} (hstack : url.path.pathStack = [])
    (harray : url.url ≠ []) (h : (urlParseTarget url n).1 = 0) :
    ∃ t, t.length < url.url.length ∧
      pathSegments t = some (urlParseTarget url n).2.segmentTexts := by
  have hpos := List.length_pos_iff.mpr harray
  have hhost : ∀ k, (urlParseHost url n k).1 = 0 →
      ∃ t, t.length < url.url.length ∧
        pathSegments t = some (urlParseHost url n k).2.segmentTexts := by
    intro k hk
    rcases urlParseHost_cases url n k with
      ⟨url', k', hpath, hurl, hk', heq⟩ | ⟨url', hpath, heq⟩ | heq
    · rw [heq] at hk ⊢
      refine ⟨_, ?_, urlParseTail_stack (hpath ▸ hstack) hk⟩
      have htext : (pathText ((url'.url.drop k').take
          (walkSize (url'.url.drop k') ((n : Int) - k')))).length ≤ url.url.length - k' := by
        rw [← hurl, ← List.length_drop]
        exact (List.takeWhile_prefix _).length_le.trans (List.length_take_le' _ _)
      omega
    · have hnil : url'.segmentTexts = [] := by
        rw [HttpUrl.segmentTexts, hpath, hstack]
        rfl
      rw [heq, hnil]
      exact ⟨[], hpos, rfl⟩
    · rw [heq] at hk
      cases hk
  revert h
  unfold urlParseTarget
  split_ifs
  · exact hhost _
  · exact hhost _

theorem urlParseTarget_url (url : HttpUrl) (n : Nat) : (urlParseTarget url n).2.url = url.url := by
  have hhost : ∀ k, (urlParseHost url n k).2.url = url.url := by
    intro k
    unfold urlParseHost
    split
    · dsimp only
      split
      · exact (urlParseTail_frame _ _ _).1
      · rfl
    · split_ifs
      · exact (urlParseTail_frame _ _ _).1
      · rfl
      · rfl
  unfold urlParseTarget
  split_ifs
  · exact hhost _
  · exact hhost _

/-! ## 3. Targets that start with a slash -/

theorem strstr_eq_none (p s : List UInt8) : strstr p s = none ↔ ¬s <:+: cstr p := by
  rw [strstr, List.find?_eq_none, List.infix_iff_prefix_suffix]
  constructor
  · rintro h ⟨t, hs, ht⟩
    rcases ht with ⟨q, hq⟩
    have hdrop : (cstr p).drop q.length = t := by
      rw [← hq, List.drop_left]
    refine h q.length ?_ ?_
    · rw [List.mem_range, ← hq, List.length_append]
      omega
    · rw [hdrop]
      exact List.isPrefixOf_iff_prefix.mpr hs
  · intro h i _ hi
    exact h ⟨(cstr p).drop i, List.isPrefixOf_iff_prefix.mp hi, List.drop_suffix i _⟩

theorem store_url_ne_nil {url : HttpUrl} {u : List UInt8} : (url.store u).url ≠ [] :=
  List.append_ne_nil_of_right_ne_nil _ (List.cons_ne_nil _ _)

theorem cstr_store {url : HttpUrl} {u : List UInt8} (hu : NUL ∉ u) :
    cstr (url.store u).url = u :=
  cstr_append_nul hu _

/-- A target with `//` gets a host. -/
theorem urlParseHost_some {url : HttpUrl} {n p : Nat}
    (hstr : strstr url.url (bytes "//") = some p) : (urlParseHost url n 0).2.host ≠ none := by
  rw [urlParseHost, List.drop_zero, hstr]
  dsimp only
  split
  · rw [(urlParseTail_frame _ _ _).2]
    exact Option.some_ne_none _
  · exact Option.some_ne_none _

theorem urlParseHost_none {url : HttpUrl} {n : Nat} (hstr : strstr url.url (bytes "//") = none)
    (hslash : peek url.url = '/'.toUInt8) : urlParseHost url n 0 = urlParseTail url n 1 := by
  rw [urlParseHost, List.drop_zero, hstr]
  exact if_pos hslash

/-- The segments of a text, read as they are when it is in the array. -/
theorem httpUrlParsePath_text {t : List UInt8} {segs : List (List UInt8)}
    (h : pathSegments (pathText t) = some segs) :
    (httpUrlParsePath (pathText t) 0 (pathText t).length ⟨[], none, 0⟩).val.pathStack.map
      (·.text (pathText t)) = segs := by
  have hleaves := httpUrlParsePath_segments (pathText t) 0 (pathText t).length none 0
  have hidem : pathText (pathText t) = pathText t := List.takeWhile_idem ..
  rw [List.drop_zero, List.take_length, hidem, h] at hleaves
  exact hleaves.2.2

/-- **The authority is looked for in the whole target**: one that starts with `/` has a
    host unless `//` does not occur in it. -/
theorem httpUrlParse_origin {data : List UInt8}
    (hret : (httpUrlParse data httpUrlInit).ret = 0)
    (hlen : 0 < (httpUrlParse data httpUrlInit).parseLen)
    (hslash : (targetText data).head? = some '/'.toUInt8) :
    ((httpUrlParse data httpUrlInit).val.host = none ∧
      (httpUrlParse data httpUrlInit).val.segmentTexts =
        (httpUrlParsePath (pathText (targetText data).tail) 0
          (pathText (targetText data).tail).length ⟨[], none, 0⟩).val.pathStack.map
            (·.text (pathText (targetText data).tail))) ↔
      ¬bytes "//" <:+: targetText data := by
  rcases httpUrlParse_accepted hret hlen with ⟨⟨hne, hu, -, hok⟩, hval⟩
  generalize targetText data = u at *
  cases u with
  | nil => exact absurd rfl hne
  | cons c u =>
    obtain rfl : c = '/'.toUInt8 := Option.some.inj hslash
    have hscheme : urlParseTarget (httpUrlInit.store ('/'.toUInt8 :: u)) (u.length + 1) =
        urlParseHost (httpUrlInit.store ('/'.toUInt8 :: u)) (u.length + 1) 0 := rfl
    have hcstr : cstr (httpUrlInit.store ('/'.toUInt8 :: u)).url = '/'.toUInt8 :: u :=
      cstr_store hu.2
    rw [List.length_cons, hscheme] at hok hval
    have hinfix : ¬bytes "//" <:+: '/'.toUInt8 :: u ↔
        strstr (httpUrlInit.store ('/'.toUInt8 :: u)).url (bytes "//") = none := by
      rw [strstr_eq_none, hcstr]
    rw [hval, List.tail_cons, hinfix]
    cases hstr : strstr (httpUrlInit.store ('/'.toUInt8 :: u)).url (bytes "//") with
    | some p =>
      constructor
      · intro h
        exact absurd h.1 (urlParseHost_some hstr)
      · intro h
        cases h
    | none =>
      have htail := urlParseHost_none (n := u.length + 1) hstr rfl
      have hsize : ((httpUrlInit.store ('/'.toUInt8 :: u)).url.drop 1).take (u.length + 1 - 1) =
          u := List.take_left
      have hsegs := urlParseTail_stack rfl (htail ▸ hok)
      rw [walkSize_sub _ (Nat.le_add_left 1 u.length), hsize] at hsegs
      rw [htail, httpUrlParsePath_text hsegs]
      exact ⟨fun _ => rfl, fun _ => ⟨(urlParseTail_frame _ _ _).2, rfl⟩⟩

/-- The target `/a?b=//c/d` names the file `a`, but it is taken for the file `d` of the
    host `c`. -/
theorem httpUrlParse_not_origin :
    (httpUrlParse (bytes "/a?b=//c/d ") httpUrlInit).ret = 0 ∧
    0 < (httpUrlParse (bytes "/a?b=//c/d ") httpUrlInit).parseLen ∧
    targetText (bytes "/a?b=//c/d ") = bytes "/a?b=//c/d" ∧
    (httpUrlParse (bytes "/a?b=//c/d ") httpUrlInit).val.host ≠ none ∧
    (httpUrlParse (bytes "/a?b=//c/d ") httpUrlInit).val.segmentTexts = [bytes "d"] := by
  decide +kernel

theorem httpUrlParse_origin_index :
    ((httpUrlParse (bytes "/a?b=c ") httpUrlInit).val.host = none ∧
      (httpUrlParse (bytes "/a?b=c ") httpUrlInit).val.segmentTexts =
        (httpUrlParsePath (pathText (targetText (bytes "/a?b=c ")).tail) 0
          (pathText (targetText (bytes "/a?b=c ")).tail).length ⟨[], none, 0⟩).val.pathStack.map
            (·.text (pathText (targetText (bytes "/a?b=c ")).tail))) ↔
      ¬bytes "//" <:+: targetText (bytes "/a?b=c ") :=
  httpUrlParse_origin (by decide +kernel) (by decide +kernel) (by decide)

end OServer
