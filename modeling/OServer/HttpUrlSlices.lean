/-
  OServer/HttpUrlSlices.lean
  ==========================
  **Where the pointers of an accepted target point to (`http_url_parse`).**

  The parser skips a scheme, searches for an authority and leaves slices of its array.
  The array of a fresh structure is all `NUL` behind the target, so that no search and
  no comparison goes on behind the end of it.

    * `httpUrlParsePath_inside`  — the path, and the segments on its stack;
    * `queryLoop_inside`         — the names and the values of the query;
    * `httpUrlParse_inside`      — all slices of an accepted target.
-/
import OServer.HttpUrlTarget
import OServer.HttpUrlQuery

namespace OServer

open CString Segments

/-! ## 1. Slices -/

/-- A segment that ends where the other one starts, or before that. -/
def HttpUrlPathSeg.Before (s s' : HttpUrlPathSeg) : Prop :=
  s.data < s'.data ∧ s.data + s.dataLen ≤ s'.data

def HttpUrl.HostInside (url : HttpUrl) (n : Nat) : Prop :=
  ∀ o, url.host = some o → 0 ≤ url.hostLen ∧ o + url.hostLen ≤ n

structure HttpUrlPathInfo.Inside (path : HttpUrlPathInfo) (n : Nat) : Prop where
  slice : ∀ o, path.data = some o → o + path.dataLen ≤ n
  segment : ∀ s ∈ path.pathStack, 0 < s.dataLen ∧ s.data + s.dataLen ≤ n
  ordered : path.pathStack.Pairwise HttpUrlPathSeg.Before

structure HttpUrlQueryItem.Inside (q : HttpUrlQueryItem) (n : Nat) : Prop where
  nameLen : 0 ≤ q.nameLen
  name : q.name + q.nameLen ≤ n
  valueLen : 0 ≤ q.valueLen
  value : q.value + q.valueLen ≤ n

/-- Every slice of the structure lies within the first `n` bytes of its array. -/
structure HttpUrl.SlicesInside (url : HttpUrl) (n : Nat) : Prop where
  host : url.HostInside n
  path : url.path.Inside n
  query : ∀ q ∈ url.query.queryList, q.Inside n

/-! ## 2. Strings in the array -/

/-- The array holds the target, and nothing but `NUL` behind it. -/
def HttpUrl.Holds (url : HttpUrl) (u : List UInt8) : Prop :=
  ∀ k, cstr (url.url.drop k) = u.drop k

/-- Of any array that holds at the offsets within the target. -/
theorem HttpUrl.store_cstr {u : List UInt8} (hu : NUL ∉ u) (url : HttpUrl) {k : Nat}
    (hk : k ≤ u.length) : cstr ((url.store u).url.drop k) = u.drop k := by
  rw [HttpUrl.store, List.drop_append_of_le_length hk]
  exact cstr_append_nul (fun h => hu (List.mem_of_mem_drop h)) _

theorem httpUrlInit_holds {u : List UInt8} (hu : NUL ∉ u) : (httpUrlInit.store u).Holds u := by
  intro k
  have harray : (httpUrlInit.store u).url = u ++ List.replicate (urlSize - (u.length + 1) + 1) NUL := by
    rw [HttpUrl.store, httpUrlInit, List.drop_replicate, List.replicate_succ]
  have hdrop : NUL ∉ u.drop k := fun h => hu (List.mem_of_mem_drop h)
  rw [harray, List.drop_append, List.drop_replicate]
  cases urlSize - (u.length + 1) + 1 - (k - u.length) with
  | zero => rw [List.replicate_zero, List.append_nil, cstr_eq_self hdrop]
  | succ m => exact cstr_append_nul hdrop _

section Rest
variable {url : HttpUrl} {u : List UInt8} {k : Nat} (hrest : cstr (url.url.drop k) = u.drop k)
include hrest

theorem HttpUrl.rest_peek (h : peek (url.url.drop k) ≠ NUL) : k < u.length := by
  have hne : u.drop k ≠ [] := hrest ▸ mt cstr_eq_nil_iff.mp h
  by_contra hk
  exact hne (List.drop_eq_nil_of_le (Nat.le_of_not_lt hk))

theorem HttpUrl.rest_strstr {p : Nat} {s : List UInt8} (hs : s ≠ [])
    (h : strstr (url.url.drop k) s = some p) : k + p + s.length ≤ u.length := by
  have hbound := strstr_bound h
  have hpos := List.length_pos_iff.mpr hs
  rw [hrest, List.length_drop] at hbound
  omega

theorem HttpUrl.rest_strchr {p : Nat} {c : UInt8} (h : strchr (url.url.drop k) c = some p) :
    k + p < u.length := by
  have hbound := strchr_bound h
  rw [hrest, List.length_drop] at hbound
  omega

end Rest

/-! ## 3. The path -/

/-- Segments placed one behind the other. -/
theorem place_inside {o : Nat} {ws : List (List UInt8)} {s : HttpUrlPathSeg}
    (h : s ∈ place o ws) : o ≤ s.data ∧ s.data + s.dataLen ≤ o + ws.flatten.length := by
  induction ws generalizing o with
  | nil => cases h
  | cons w ws ih =>
    rw [List.flatten_cons, List.length_append]
    rcases List.mem_cons.mp h with rfl | h
    · dsimp only
      omega
    · have hrest := ih h
      omega

theorem place_ordered (o : Nat) (ws : List (List UInt8)) :
    (place o ws).Pairwise fun s s' => s.data + s.dataLen ≤ s'.data := by
  induction ws generalizing o with
  | nil => exact List.Pairwise.nil
  | cons w ws ih =>
    rw [place, List.pairwise_cons]
    exact ⟨fun s hs => (place_inside hs).1, ih (o + w.length)⟩

/-- An empty segment stays where it is, and leaves nothing on the stack. -/
theorem segMove_pos {url : List UInt8} {s : HttpUrlPathSeg} (h : segMove (s.text url) = .enter) :
    0 < s.dataLen := by
  rcases Nat.eq_zero_or_pos s.dataLen with hzero | hpos
  · rw [HttpUrlPathSeg.text, hzero, List.take_zero] at h
    cases h
  · exact hpos

/-- What the walk along a path leaves. -/
theorem pathWalk_inside {url t : List UInt8} {o : Nat} {stack : List HttpUrlPathSeg}
    (h : pathWalk url o t [] = some stack) :
    (∀ s ∈ stack, 0 < s.dataLen ∧ s.data + s.dataLen ≤ o + t.length) ∧
      stack.Pairwise HttpUrlPathSeg.Before := by
  unfold pathWalk at h
  split at h
  case isFalse => cases h
  have hsub : List.Sublist stack (place o (segments '/'.toUInt8 t)) := walk_sublist h
  have hpos : ∀ s ∈ stack, 0 < s.dataLen := by
    intro s hs
    exact segMove_pos (walk_entered h (fun s hs => absurd hs List.not_mem_nil) s hs)
  constructor
  · intro s hs
    have hin := place_inside (hsub.subset hs)
    rw [segments_flatten] at hin
    exact ⟨hpos s hs, hin.2⟩
  · refine (List.Pairwise.sublist hsub (place_ordered o _)).imp_of_mem ?_
    intro s s' hs _ hle
    have := hpos s hs
    exact ⟨by omega, hle⟩

theorem httpUrlParsePath_slice {p : List UInt8} {base size : Nat} {path : HttpUrlPathInfo}
    (hlen : path.dataLen = 0) (h : (httpUrlParsePath p base size path).ret = 0) :
    (httpUrlParsePath p base size path).val.data = some base ∧
      (httpUrlParsePath p base size path).val.dataLen =
        (httpUrlParsePath p base size path).parseLen := by
  unfold httpUrlParsePath at h ⊢
  dsimp only at h ⊢
  split_ifs at h ⊢ with hsize hret
  · exact ⟨rfl, hlen⟩
  · cases h
  · exact ⟨rfl, rfl⟩

/-- **The path and its segments** lie within the bytes that were parsed. -/
theorem httpUrlParsePath_inside {url : List UInt8} {base size : Nat} {path : HttpUrlPathInfo}
    (hstack : path.pathStack = []) (hlen : path.dataLen = 0)
    (h : (httpUrlParsePath (url.drop base) base size path).ret = 0) :
    (httpUrlParsePath (url.drop base) base size path).val.Inside (base + size) := by
  have hslice := httpUrlParsePath_slice hlen h
  have hwalk := httpUrlParsePath_walk url base size path
  have htext := pathText_take_le (url.drop base) size
  rw [hstack] at hwalk
  cases hw : pathWalk url base (pathText ((url.drop base).take size)) [] with
  | none =>
    rw [hw] at hwalk
    exact absurd (Eq.trans (Eq.symm h) hwalk) (by decide)
  | some stack =>
    rw [hw] at hwalk
    rcases hwalk with ⟨-, hparse, hleft⟩
    have hin := pathWalk_inside hw
    refine ⟨?_, ?_, ?_⟩
    · intro o ho
      obtain rfl : base = o := Option.some.inj (hslice.1.symm.trans ho)
      rw [hslice.2, hparse]
      omega
    · intro s hs
      rw [hleft] at hs
      have hs' := hin.1 s hs
      exact ⟨hs'.1, by omega⟩
    · rw [hleft]
      exact hin.2

/-! ## 4. The query -/

/-- The pointers of the scan stand before index `i`, and the end of a name behind its
    start.  A value may start before the last `=`. -/
structure QueryScan.Bounded (st : QueryScan) (i : Nat) : Prop where
  ns : ∀ a, st.ns = some a → a < i
  ne : ∀ b, st.ne = some b → b < i ∧ ∃ a, st.ns = some a ∧ a < b
  vs : ∀ c, st.vs = some c → c < i

theorem QueryScan.bounded_empty (i : Nat) : QueryScan.empty.Bounded i where
  ns := fun _ h => (nomatch h)
  ne := fun _ h => (nomatch h)
  vs := fun _ h => (nomatch h)

/-- One byte moves one pointer at most, to its own index. -/
theorem QueryScan.Bounded.byte {st : QueryScan} {i : Nat} (hst : st.Bounded i) (c : UInt8) :
    (st.byte c i).Bounded (i + 1) := by
  have hstay : st.Bounded (i + 1) := by
    refine ⟨?_, ?_, ?_⟩
    · intro a ha
      exact Nat.lt_succ_of_lt (hst.ns a ha)
    · intro b hb
      exact ⟨Nat.lt_succ_of_lt (hst.ne b hb).1, (hst.ne b hb).2⟩
    · intro c hc
      exact Nat.lt_succ_of_lt (hst.vs c hc)
  unfold QueryScan.byte
  split_ifs with heq hns hns' hne
  · refine ⟨hstay.ns, ?_, hstay.vs⟩
    intro b hb
    obtain rfl : i = b := Option.some.inj hb
    obtain ⟨a, ha⟩ := Option.isSome_iff_exists.mp hns
    exact ⟨Nat.lt_succ_self i, a, ha, hst.ns a ha⟩
  · exact hstay
  · refine ⟨?_, ?_, hstay.vs⟩
    · intro a ha
      obtain rfl : i = a := Option.some.inj ha
      exact Nat.lt_succ_self i
    · -- a name has no end before it has a start
      intro b hb
      obtain ⟨-, a, ha, -⟩ := hst.ne b hb
      rw [ha] at hns'
      cases hns'
  · refine ⟨hstay.ns, hstay.ne, ?_⟩
    intro c hc
    obtain rfl : i = c := Option.some.inj hc
    exact Nat.lt_succ_self i
  · exact hstay

theorem QueryScan.Bounded.item {st : QueryScan} {i base n : Nat} (hst : st.Bounded i)
    (hn : base + i ≤ n) : ∀ q, st.item base i = some q → q.Inside n := by
  intro q hq
  obtain ⟨vs, hvs, hq⟩ := Option.bind_eq_some_iff.mp hq
  obtain ⟨ne, hne, hq⟩ := Option.bind_eq_some_iff.mp hq
  obtain ⟨ns, hns, hq⟩ := Option.bind_eq_some_iff.mp hq
  obtain ⟨hend, a, ha, hstart⟩ := hst.ne ne hne
  obtain rfl : ns = a := Option.some.inj (hns.symm.trans ha)
  obtain rfl := Option.some.inj hq
  have hvalue := hst.vs vs hvs
  refine ⟨?_, ?_, ?_, ?_⟩ <;> dsimp only <;> omega

/-- **The items of a query** lie within the bytes that were parsed. -/
theorem queryLoop_inside {base n : Nat} {p : List UInt8} {i : Nat} {st : QueryScan}
    {items : List HttpUrlQueryItem} (hn : base + i + p.length ≤ n) (hst : st.Bounded i)
    (hitems : ∀ q ∈ items, q.Inside n) : ∀ q ∈ (queryLoop base p i st items).2, q.Inside n := by
  induction p generalizing i st items with
  | nil =>
    intro q hq
    rcases List.mem_append.mp hq with hq | hq
    · exact hitems q hq
    · exact hst.item (Nat.le_of_add_right_le hn) q (Option.mem_toList.mp hq)
  | cons c p ih =>
    rw [List.length_cons] at hn
    by_cases hsep : c = '#'.toUInt8 ∨ c = '&'.toUInt8
    · rw [queryLoop, if_pos hsep]
      cases hitem : st.item base i with
      | none => exact hitems
      | some q =>
        refine ih (by omega) (QueryScan.bounded_empty (i + 1)) ?_
        intro q' hq'
        rcases List.mem_append.mp hq' with hq' | hq'
        · exact hitems q' hq'
        · rw [List.mem_singleton.mp hq']
          exact hst.item (by omega) q hitem
    · have hplain : ∀ d ∈ [c], isSeparatorOfQuery d = false := by
        intro d hd
        rw [List.mem_singleton.mp hd]
        exact decide_eq_false hsep
      have hstep := queryLoop_scan hplain base p i st items
      rw [List.singleton_append] at hstep
      rw [hstep]
      exact ih (by rw [List.length_singleton]; omega) (hst.byte c) hitems

/-! ## 5. The target -/

/-- What the parser of the target starts with: no path and no query. -/
structure HttpUrl.Fresh (url : HttpUrl) : Prop where
  stack : url.path.pathStack = []
  pathLen : url.path.dataLen = 0
  path : url.path.data = none
  items : url.query.queryList = []

theorem HttpUrl.hostInside_some {url : HttpUrl} {o n : Nat} {len : Int} (hlen : 0 ≤ len)
    (hn : o + len ≤ n) : { url with host := some o, hostLen := len }.HostInside n := by
  intro o' ho
  obtain rfl := Option.some.inj ho
  exact ⟨hlen, hn⟩

theorem urlParseTail_inside {url : HttpUrl} {u : List UInt8} {k : Nat} (hfresh : url.Fresh)
    (hholds : url.Holds u)
    (hhost : url.HostInside u.length) (hk : k ≤ u.length) (h : (urlParseTail url u.length k).1 = 0) :
    (urlParseTail url u.length k).2.SlicesInside u.length := by
  have hret := urlParseTail_ok h
  rw [walkSize_sub _ hk] at hret
  have hpath := httpUrlParsePath_inside hfresh.stack hfresh.pathLen hret
  rw [Nat.add_sub_cancel' hk] at hpath
  have hnone : ∀ q ∈ url.query.queryList, q.Inside u.length := by
    rw [hfresh.items]
    exact fun q hq => absurd hq List.not_mem_nil
  unfold urlParseTail at h ⊢
  dsimp only at h ⊢
  rw [walkSize_sub _ hk] at h ⊢
  split_ifs with hfail hquery
  · exact absurd hret hfail
  · -- the byte in front of the query is a byte of the target
    have hmark : peek (url.url.drop
        (k + (httpUrlParsePath (url.url.drop k) k (u.length - k) url.path).parseLen)) ≠ NUL := by
      rw [hquery]
      decide
    have hbound : k + (httpUrlParsePath (url.url.drop k) k (u.length - k) url.path).parseLen + 1 ≤
        u.length := HttpUrl.rest_peek (hholds _) hmark
    refine ⟨hhost, hpath, ?_⟩
    rw [Int.sub_sub, ← Int.natCast_add_one, walkSize_sub _ hbound]
    refine queryLoop_inside ?_ (QueryScan.bounded_empty 0) hnone
    have htake := List.length_take_le (u.length - (k +
      (httpUrlParsePath (url.url.drop k) k (u.length - k) url.path).parseLen + 1)) (url.url.drop
        (k + (httpUrlParsePath (url.url.drop k) k (u.length - k) url.path).parseLen + 1))
    omega
  · exact ⟨hhost, hpath, hnone⟩

theorem urlParseHost_inside {url : HttpUrl} {u : List UInt8} (hfresh : url.Fresh)
    (hholds : url.Holds u) (hnohost : url.host = none) (k : Nat)
    (h : (urlParseHost url u.length k).1 = 0) :
    (urlParseHost url u.length k).2.SlicesInside u.length := by
  have hnone : ∀ q ∈ url.query.queryList, q.Inside u.length := by
    rw [hfresh.items]
    exact fun q hq => absurd hq List.not_mem_nil
  have hempty : url.path.Inside u.length := by
    refine ⟨?_, ?_, ?_⟩
    · intro o ho
      rw [hfresh.path] at ho
      cases ho
    · rw [hfresh.stack]
      exact fun s hs => absurd hs List.not_mem_nil
    · rw [hfresh.stack]
      exact List.Pairwise.nil
  have hunset : url.HostInside u.length := by
    intro o ho
    rw [hnohost] at ho
    cases ho
  unfold urlParseHost at h ⊢
  split at h
  case h_1 p hstr =>
    have hslashes : k + p + 2 ≤ u.length := HttpUrl.rest_strstr (hholds k) (List.cons_ne_nil _ _) hstr
    dsimp only at h ⊢
    split at h
    case h_1 p' hchr =>
      have hslash := HttpUrl.rest_strchr (hholds _) hchr
      have hfresh' : { url with host := some (k + p + 2), hostLen := (p' : Int) }.Fresh := by
        exact ⟨hfresh.stack, hfresh.pathLen, hfresh.path, hfresh.items⟩
      exact urlParseTail_inside hfresh' hholds (HttpUrl.hostInside_some (by omega) (by omega))
        (by omega) h
    case h_2 hchr =>
      exact ⟨HttpUrl.hostInside_some (by omega) (by omega), hempty, hnone⟩
  case h_2 hstr =>
    split_ifs at h ⊢ with hslash hend
    · have hbyte : peek (url.url.drop k) ≠ NUL := by
        rw [hslash]
        decide
      exact urlParseTail_inside hfresh hholds hunset (HttpUrl.rest_peek (hholds k) hbyte) h
    · exact ⟨hunset, hempty, hnone⟩
    · cases h

theorem urlParseTarget_inside {u : List UInt8} (hu : TargetOk httpUrlInit u) :
    (urlParseTarget (httpUrlInit.store u) u.length).2.SlicesInside u.length := by
  have hfresh : (httpUrlInit.store u).Fresh := ⟨rfl, rfl, rfl, rfl⟩
  have hholds := httpUrlInit_holds hu.2.1.2
  have hok := hu.2.2.2
  unfold urlParseTarget at hok ⊢
  split_ifs at hok ⊢
  · exact urlParseHost_inside hfresh hholds rfl _ hok
  · exact urlParseHost_inside hfresh hholds rfl _ hok

/-- **The slices of an accepted target** lie within the target, and the segments of its
    path follow each other. -/
theorem httpUrlParse_inside {data : List UInt8} {n : Nat}
    (hret : (httpUrlParse data httpUrlInit).ret = 0)
    (hlen : (httpUrlParse data httpUrlInit).parseLen = n + 1) :
    (httpUrlParse data httpUrlInit).val.SlicesInside n := by
  cases httpUrlParse_answer data httpUrlInit with
  | token u r hu hdata h =>
    have hrun := h []
    rw [List.append_nil] at hrun
    rw [hrun] at hlen ⊢
    obtain rfl : u.length = n := Nat.succ.inj hlen
    exact urlParseTarget_inside hu
  | more h =>
    rw [h] at hlen
    cases hlen
  | reject m url' h =>
    have hrun := h []
    rw [List.append_nil] at hrun
    rw [hrun] at hret
    cases hret

theorem httpUrlParse_inside_search :
    (httpUrlParse (bytes "http://host/a/../b/c?x=1&y=22#z ") httpUrlInit).val.SlicesInside 31 :=
  httpUrlParse_inside (by decide +kernel) (by decide +kernel)

end OServer
