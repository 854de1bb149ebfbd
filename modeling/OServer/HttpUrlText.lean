/-
  OServer/HttpUrlText.lean
  ========================
  **The targets that `http_url_parse` accepts.**

  The parser searches its array for `//`, for a slash and for the end of the path.  What
  it makes of a target can be said about the text alone:

  * `urlParseTarget_text`: a target is accepted exactly when it is one of the texts of
    `TargetText`, and the stack then holds the segments that the text has there.
-/
import OServer.HttpHeaderSearch
import OServer.HttpUrlSlices

namespace OServer

open CString

/-! ## 1. Texts -/

/-- The accepted targets, with the segments of their paths.  The first `//` of a target is
    followed by a host, wherever it stands. -/
inductive TargetText : List UInt8 → List (List UInt8) → Prop where
  | scheme {u : List UInt8} (hu : SameName u httpScheme) : TargetText u []
  | origin {p : List UInt8} {segs : List (List UInt8)} (hu : ¬bytes "//" <:+: '/'.toUInt8 :: p)
      (hp : pathSegments (pathText p) = some segs) : TargetText ('/'.toUInt8 :: p) segs
  | host {a h : List UInt8} (ha : ¬bytes "//" <:+: a ++ bytes "/") (hh : '/'.toUInt8 ∉ h) :
      TargetText (a ++ bytes "//" ++ h) []
  | hostPath {a h p : List UInt8} {segs : List (List UInt8)}
      (ha : ¬bytes "//" <:+: a ++ bytes "/") (hh : '/'.toUInt8 ∉ h)
      (hp : pathSegments (pathText p) = some segs) :
      TargetText (a ++ bytes "//" ++ h ++ '/'.toUInt8 :: p) segs

/-! ## 2. The array -/

/-- The whole target is compared with the scheme, and its terminator too. -/
theorem scheme_iff {u : List UInt8} (hu : NUL ∉ u) (q : List UInt8) :
    strncasecmpEq (u ++ NUL :: q) httpScheme (httpScheme.length + 1) = true ↔
      SameName u httpScheme := by
  have hsize : httpScheme.length = 5 := rfl
  by_cases hlen : u.length ≤ httpScheme.length
  · obtain ⟨k, hk⟩ := Nat.exists_eq_add_of_le hlen
    rw [hk, Nat.add_assoc]
    exact strncasecmpEq_nul hu (by decide) q k
  · have htake : (u.take (httpScheme.length + 1)).length = httpScheme.length + 1 :=
      List.length_take_of_le (by omega)
    have hnul : NUL ∉ u.take (httpScheme.length + 1) := fun h => hu (List.mem_of_mem_take h)
    have hpart := strncasecmpEq_length hnul (u.drop (httpScheme.length + 1) ++ NUL :: q) httpScheme
    rw [← List.append_assoc, List.take_append_drop, htake] at hpart
    rw [hpart]
    constructor
    · intro h
      have hcount := congrArg List.length h
      rw [List.length_map, List.length_map, htake, hsize] at hcount
      cases hcount
    · intro h
      have hcount := congrArg List.length h
      rw [List.length_map, List.length_map] at hcount
      omega

section Array
variable {url : HttpUrl} {u : List UInt8}

/-- The rest of the target in the array. -/
theorem store_rest (hurl : url.url = (httpUrlInit.store u).url) {k : Nat} (hk : k ≤ u.length) :
    (url.url.drop k).take (walkSize (url.url.drop k) ((u.length : Int) - k)) = u.drop k := by
  have harray : (httpUrlInit.store u).url = u ++ NUL :: httpUrlInit.url.drop (u.length + 1) := rfl
  rw [walkSize_sub _ hk, hurl, harray, List.drop_append_of_le_length hk, ← List.length_drop,
    List.take_left]

/-- The path of a target that has been copied into the array. -/
theorem urlParseTail_text (hurl : url.url = (httpUrlInit.store u).url)
    (hpath : url.path = ⟨[], none, 0⟩) {k : Nat} (hk : k ≤ u.length) (segs : List (List UInt8)) :
    ((urlParseTail url u.length k).1 = 0 ∧ (urlParseTail url u.length k).2.segmentTexts = segs) ↔
      pathSegments (pathText (u.drop k)) = some segs := by
  have hleaves := httpUrlParsePath_segments url.url k
    (walkSize (url.url.drop k) ((u.length : Int) - k)) none 0
  rw [store_rest hurl hk, ← hpath] at hleaves
  have htexts : (urlParseTail url u.length k).2.segmentTexts =
      (httpUrlParsePath (url.url.drop k) k (walkSize (url.url.drop k) ((u.length : Int) - k))
        url.path).val.pathStack.map (·.text url.url) := by
    rw [HttpUrl.segmentTexts, urlParseTail_path, (urlParseTail_frame url u.length k).1]
  rw [htexts]
  cases hsegs : pathSegments (pathText (u.drop k)) with
  | none =>
    rw [hsegs] at hleaves
    have hret : (httpUrlParsePath (url.url.drop k) k
        (walkSize (url.url.drop k) ((u.length : Int) - k)) url.path).ret = -1 := hleaves
    constructor
    · rintro ⟨hok, -⟩
      rw [urlParseTail_ok hok] at hret
      exact absurd hret (by decide)
    · intro h
      cases h
  | some segs' =>
    rw [hsegs] at hleaves
    obtain ⟨hret, -, hstack⟩ := hleaves
    rw [hstack, Option.some.injEq]
    constructor
    · exact fun h => h.2
    · intro h
      refine ⟨?_, h⟩
      unfold urlParseTail
      dsimp only
      rw [if_neg (by rw [hret]; decide)]
      split_ifs <;> rfl

end Array

/-! ## 3. The host -/

section Host
variable {u : List UInt8} (hu : NUL ∉ u)
include hu

/-- The string in the array from the offset `k` on. -/
theorem cstr_drop_store (k : Nat) : cstr ((httpUrlInit.store u).url.drop k) = u.drop k :=
  httpUrlInit_holds hu k

theorem urlParseHost_origin {p : List UInt8} (hsplit : u = '/'.toUInt8 :: p)
    (hno : ¬bytes "//" <:+: u) : urlParseHost (httpUrlInit.store u) u.length 0 =
      urlParseTail (httpUrlInit.store u) u.length 1 := by
  apply urlParseHost_none
  · rw [strstr_eq_none, cstr_store hu]
    exact hno
  · rw [hsplit]
    rfl

/-- Without `//` and without a slash in front. -/
theorem urlParseHost_refuses (hne : u ≠ []) (hno : ¬bytes "//" <:+: u)
    (hslash : ∀ p, u ≠ '/'.toUInt8 :: p) :
    (urlParseHost (httpUrlInit.store u) u.length 0).1 = -1 := by
  have hstr : strstr (httpUrlInit.store u).url (bytes "//") = none := by
    rw [strstr_eq_none, cstr_store hu]
    exact hno
  cases u with
  | nil => exact absurd rfl hne
  | cons c p =>
    have hpeek : peek (httpUrlInit.store (c :: p)).url = c := rfl
    rw [List.mem_cons, not_or] at hu
    have hc : c ≠ '/'.toUInt8 := by
      rintro rfl
      exact hslash p rfl
    rw [urlParseHost, List.drop_zero, hstr]
    dsimp only
    rw [hpeek, if_neg hc, if_neg (Ne.symm hu.1)]

section Slashes
variable {a h : List UInt8} (ha : ¬bytes "//" <:+: a ++ bytes "/")
include ha

/-- The search for `//` ends behind `a`. -/
theorem strstr_slashes {t : List UInt8} (hsplit : u = a ++ bytes "//" ++ t) :
    strstr (httpUrlInit.store u).url (bytes "//") = some a.length := by
  have hcstr : cstr (httpUrlInit.store u).url = a ++ bytes "//" ++ t := by
    rw [cstr_store hu, hsplit]
  have hlast : (a ++ bytes "//").dropLast = a ++ bytes "/" := by
    rw [List.dropLast_append_of_ne_nil (by decide)]
    rfl
  exact strstr_split hcstr (by rwa [hlast])

theorem urlParseHost_host (hh : '/'.toUInt8 ∉ h) (hsplit : u = a ++ bytes "//" ++ h) :
    ∃ url', urlParseHost (httpUrlInit.store u) u.length 0 = (0, url') ∧
      url'.path = ⟨[], none, 0⟩ := by
  have hdrop : u.drop (a.length + 2) = h := by
    have hlen : a.length + 2 = (a ++ bytes "//").length := by
      rw [List.length_append]
      rfl
    rw [hsplit, hlen, List.drop_left]
  have hchr : strchr ((httpUrlInit.store u).url.drop (0 + a.length + 2)) '/'.toUInt8 = none := by
    apply strchr_none
    rw [Nat.zero_add, cstr_drop_store hu, hdrop]
    exact hh
  rw [urlParseHost, List.drop_zero, strstr_slashes hu ha hsplit]
  dsimp only
  rw [hchr]
  exact ⟨_, rfl, rfl⟩

theorem urlParseHost_hostPath {p : List UInt8} (hh : '/'.toUInt8 ∉ h)
    (hsplit : u = a ++ bytes "//" ++ h ++ '/'.toUInt8 :: p) :
    ∃ url' k, urlParseHost (httpUrlInit.store u) u.length 0 = urlParseTail url' u.length k ∧
      url'.url = (httpUrlInit.store u).url ∧ url'.path = ⟨[], none, 0⟩ ∧ k ≤ u.length ∧
      u.drop k = p := by
  have hdrop : u.drop (a.length + 2) = h ++ '/'.toUInt8 :: p := by
    have hlen : a.length + 2 = (a ++ bytes "//").length := by
      rw [List.length_append]
      rfl
    rw [hsplit, List.append_assoc, hlen, List.drop_left]
  have hrest : u.drop (a.length + 2 + h.length + 1) = p := by
    rw [Nat.add_assoc, ← List.drop_drop, hdrop, ← List.drop_drop, List.drop_left]
    rfl
  have hchr : strchr ((httpUrlInit.store u).url.drop (0 + a.length + 2)) '/'.toUInt8 =
      some h.length := by
    have hcstr : cstr ((httpUrlInit.store u).url.drop (0 + a.length + 2)) =
        h ++ '/'.toUInt8 :: p := by
      rw [Nat.zero_add, cstr_drop_store hu, hdrop]
    exact strchr_split hcstr hh
  rw [List.append_assoc] at hsplit
  rw [urlParseHost, List.drop_zero, strstr_slashes hu ha hsplit]
  dsimp only
  rw [hchr]
  refine ⟨{ httpUrlInit.store u with host := some (0 + a.length + 2), hostLen := h.length },
    0 + a.length + 2 + h.length + 1, rfl, rfl, rfl, ?_, ?_⟩
  · have hlen : (bytes "//").length = 2 := rfl
    rw [hsplit, List.length_append, List.length_append, List.length_append, List.length_cons, hlen]
    omega
  · rw [Nat.zero_add]
    exact hrest

end Slashes

/-- **The target without its scheme.** -/
theorem urlParseHost_text (hne : u ≠ []) (hscheme : ¬SameName u httpScheme)
    (segs : List (List UInt8)) :
    ((urlParseHost (httpUrlInit.store u) u.length 0).1 = 0 ∧
      (urlParseHost (httpUrlInit.store u) u.length 0).2.segmentTexts = segs) ↔
        TargetText u segs := by
  constructor
  · rintro ⟨hok, hsegs⟩
    cases hstr : strstr (httpUrlInit.store u).url (bytes "//") with
    | none =>
      have hno : ¬bytes "//" <:+: u := by
        rwa [strstr_eq_none, cstr_store hu] at hstr
      by_cases hslash : ∃ p, u = '/'.toUInt8 :: p
      · obtain ⟨p, hsplit⟩ := hslash
        rw [urlParseHost_origin hu hsplit hno] at hok hsegs
        have hpath := (urlParseTail_text rfl rfl (hsplit ▸ Nat.le_add_left 1 p.length) segs).mp
          ⟨hok, hsegs⟩
        rw [hsplit] at hno hpath ⊢
        exact .origin hno hpath
      · have hrefused := urlParseHost_refuses hu hne hno fun p hp => hslash ⟨p, hp⟩
        rw [hok] at hrefused
        exact absurd hrefused (by decide)
    | some i =>
      obtain ⟨a, t, hsplit, -, hfirst⟩ := exists_strstr_split (by decide) hstr
      rw [cstr_store hu] at hsplit
      have hlast : (a ++ bytes "//").dropLast = a ++ bytes "/" := by
        rw [List.dropLast_append_of_ne_nil (by decide)]
        rfl
      rw [hlast] at hfirst
      by_cases hslash : '/'.toUInt8 ∈ t
      · obtain ⟨h, p, rfl, hh⟩ := List.eq_append_cons_of_mem hslash
        rw [← List.append_assoc] at hsplit
        obtain ⟨url', k, hrun, hurl, hpath, hk, hdrop⟩ :=
          urlParseHost_hostPath hu hfirst hh hsplit
        rw [hrun] at hok hsegs
        have hwalk := (urlParseTail_text hurl hpath hk segs).mp ⟨hok, hsegs⟩
        rw [hdrop] at hwalk
        rw [hsplit]
        exact .hostPath hfirst hh hwalk
      · obtain ⟨url', hrun, hpath⟩ := urlParseHost_host hu hfirst hslash hsplit
        rw [hrun, HttpUrl.segmentTexts, hpath] at hsegs
        rw [hsplit, ← hsegs]
        exact .host hfirst hslash
  · intro htext
    cases htext with
    | scheme hs => exact absurd hs hscheme
    | origin hno hp =>
      rw [urlParseHost_origin hu rfl hno]
      exact (urlParseTail_text rfl rfl (Nat.le_add_left 1 _) segs).mpr hp
    | host ha hh =>
      obtain ⟨url', hrun, hpath⟩ := urlParseHost_host hu ha hh rfl
      rw [hrun, HttpUrl.segmentTexts, hpath]
      exact ⟨rfl, rfl⟩
    | hostPath ha hh hp =>
      obtain ⟨url', k, hrun, hurl, hpath, hk, hdrop⟩ := urlParseHost_hostPath hu ha hh rfl
      rw [hrun]
      apply (urlParseTail_text hurl hpath hk segs).mpr
      rwa [hdrop]

/-- Behind the terminator of the scheme the array is empty. -/
theorem urlParseHost_scheme (hs : SameName u httpScheme) :
    urlParseHost (httpUrlInit.store u) u.length (httpScheme.length + 1) =
      (0, httpUrlInit.store u) := by
  have hlen : u.length = httpScheme.length := by
    have hcount := congrArg List.length hs
    rwa [List.length_map, List.length_map] at hcount
  have hcstr : cstr ((httpUrlInit.store u).url.drop (httpScheme.length + 1)) = [] := by
    rw [cstr_drop_store hu]
    exact List.drop_eq_nil_of_le (by omega)
  have hstr : strstr ((httpUrlInit.store u).url.drop (httpScheme.length + 1)) (bytes "//") = none := by
    rw [strstr_eq_none, hcstr]
    decide
  have hpeek : peek ((httpUrlInit.store u).url.drop (httpScheme.length + 1)) = NUL := by
    by_contra hne
    have hbyte := HttpUrl.rest_peek (httpUrlInit_holds hu _) hne
    omega
  rw [urlParseHost, hstr]
  dsimp only
  rw [hpeek, if_neg (by decide), if_pos rfl]

end Host

/-! ## 4. The target -/

theorem targetText_scheme {u : List UInt8} (hs : SameName u httpScheme) {segs : List (List UInt8)}
    (h : TargetText u segs) : segs = [] := by
  have hslash : '/'.toUInt8 ∉ u := by
    intro hmem
    have hmem' := List.mem_map_of_mem (f := tolower) hmem
    rw [hs] at hmem'
    exact absurd hmem' (by decide)
  cases h with
  | scheme _ => rfl
  | origin _ _ => exact absurd List.mem_cons_self hslash
  | host _ _ => rfl
  | hostPath _ _ _ => exact absurd (by simp) hslash

/-- **A target is accepted exactly when it is one of the texts**, and its stack holds the
    segments of the text. -/
theorem urlParseTarget_text {u : List UInt8} (hne : u ≠ []) (hu : NUL ∉ u)
    (segs : List (List UInt8)) :
    ((urlParseTarget (httpUrlInit.store u) u.length).1 = 0 ∧
      (urlParseTarget (httpUrlInit.store u) u.length).2.segmentTexts = segs) ↔
        TargetText u segs := by
  have harray : (httpUrlInit.store u).url = u ++ NUL :: httpUrlInit.url.drop (u.length + 1) := rfl
  unfold urlParseTarget
  by_cases hs : SameName u httpScheme
  · have hcmp : strncasecmpEq (httpUrlInit.store u).url httpScheme (httpScheme.length + 1) = true := by
      rw [harray, scheme_iff hu]
      exact hs
    rw [if_pos hcmp, urlParseHost_scheme hu hs]
    constructor
    · rintro ⟨-, rfl⟩
      exact .scheme hs
    · intro htext
      rw [targetText_scheme hs htext]
      exact ⟨rfl, rfl⟩
  · have hcmp : ¬strncasecmpEq (httpUrlInit.store u).url httpScheme (httpScheme.length + 1) = true := by
      rw [harray, scheme_iff hu]
      exact hs
    rw [if_neg hcmp]
    exact urlParseHost_text hu hne hs segs

/-- What `http_url_parse` accepts in a fresh structure. -/
theorem targetOk_iff {u : List UInt8} : TargetOk httpUrlInit u ↔
    u ≠ [] ∧ TargetBytes u ∧ u.length < urlSize ∧ ∃ segs, TargetText u segs := by
  constructor
  · rintro ⟨hne, hbytes, hlen, hok⟩
    exact ⟨hne, hbytes, hlen, _, (urlParseTarget_text hne hbytes.2 _).mp ⟨hok, rfl⟩⟩
  · rintro ⟨hne, hbytes, hlen, segs, htext⟩
    exact ⟨hne, hbytes, hlen, ((urlParseTarget_text hne hbytes.2 segs).mpr htext).1⟩

end OServer
