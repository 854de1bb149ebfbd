/-
  OServer/HttpRequestHeld.lean
  ============================
  **How much of a buffer a call holds back.**

  What a call leaves is the token at the end of the buffer that is not complete yet: the
  method, the target, the version line or a header line; behind the end of a request it
  is all the rest.  `held` finds it from the tokens alone, and `held_eq` says that a call
  that is not refused consumes all but that.
-/
import OServer.HttpHeaderLine
import OServer.HttpRequestCuts

namespace OServer

open CString Resume

/-! ## 1. The unfinished token -/

/-- The bytes `p` of a header block: how many follow its last complete line, or its blank
    line.  `n` bytes of the current line were seen, all of them separators if `blank`. -/
def heldHeader : List UInt8 → Bool → Nat → Nat
  | [], _, n => n
  | b :: p, blank, n =>
      if b = LF then if blank then p.length else heldHeader p true 0
      else heldHeader p (blank && isSeparator b) (n + 1)

def heldVersion (p : List UInt8) : Nat :=
  match versionLines.find? fun e => e.2.isPrefixOf p with
  | some e => heldHeader (p.drop e.2.length) true 0
  | none => p.length

def heldTarget (p : List UInt8) : Nat :=
  let u := p.takeWhile (· ≠ SP)
  if u = [] ∨ u.length = p.length then p.length else heldVersion (p.drop (u.length + 1))

def heldMethod (p : List UInt8) : Nat :=
  match methodTokens.find? fun e => e.2.isPrefixOf p with
  | some e => heldTarget (p.drop e.2.length)
  | none => p.length

/-- How much of the bytes `p` a call in the status `s` holds back. -/
def held : ParseStatus → List UInt8 → Nat
  | .method, p => heldMethod p
  | .url, p => heldTarget p
  | .version, p => heldVersion p
  | .header, p => heldHeader p true 0
  | .error, p => p.length

/-! ## 2. Lines -/

theorem heldHeader_line {w : List UInt8} (hw : LF ∉ w) (rest : List UInt8) (blank : Bool) (n : Nat) :
    heldHeader (w ++ rest) blank n = heldHeader rest (blank && w.all isSeparator) (n + w.length) := by
  induction w generalizing blank n with
  | nil => simp
  | cons b w ih =>
    rw [List.mem_cons, not_or] at hw
    rw [List.cons_append, heldHeader, if_neg (Ne.symm hw.1), ih hw.2, List.all_cons, Bool.and_assoc,
      List.length_cons, Nat.add_assoc, Nat.add_comm 1]

/-- **What the header parser leaves.** -/
theorem heldHeader_eq (headers : HttpHeaderCollection) (p : List UInt8)
    (h : ¬ (httpHeaderParse headers p).ret < 0) :
    (httpHeaderParse headers p).rdlen + heldHeader p true 0 = p.length := by
  have hneg : (-1 : Int) < 0 := by decide
  by_cases hp : LF ∈ p
  · rcases List.eq_append_cons_of_mem hp with ⟨w, rest, hwr, hw⟩
    have hheld : heldHeader p true 0 =
        if w.all isSeparator then rest.length else heldHeader rest true 0 := by
      rw [hwr, heldHeader_line hw, Bool.true_and, heldHeader, if_pos rfl]
    have hlen : p.length = w.length + 1 + rest.length := by
      rw [hwr, List.length_append, List.length_cons]
      omega
    have hrun := httpHeaderParse_line hw rest headers
    rw [← hwr] at hrun
    rw [hrun] at h ⊢
    rw [hheld, hlen]
    cases hl : lineResult w with
    | bad =>
      rw [hl] at h
      exact absurd hneg h
    | blank =>
      have hsep := (lineResult_separators (by rw [hl]; exact LineEnd.noConfusion)).mp hl
      rw [if_pos hsep]
    | field name ln value lv =>
      have hsep : ¬ w.all isSeparator = true := by
        intro hsep
        have hblank := (lineResult_separators (by rw [hl]; exact LineEnd.noConfusion)).mpr hsep
        rw [hl] at hblank
        cases hblank
      rw [hl] at h
      have hrec := heldHeader_eq _ rest h
      rw [if_neg hsep]
      simp only [HeaderParse.shift]
      omega
  · have hheld : heldHeader p true 0 = p.length := by
      have hline := heldHeader_line hp [] true 0
      rw [List.append_nil, heldHeader, Nat.zero_add] at hline
      exact hline
    rw [hheld]
    rw [httpHeaderParse_unfinished hp] at h ⊢
    cases hst : scanLine p [] (.start NUL) with
    | none =>
      rw [hst] at h
      exact absurd hneg h
    | some st => exact Nat.zero_add _
termination_by p.length
decreasing_by
  rw [hwr]
  simp
  omega

/-! ## 3. Requests -/

section Held
variable {req : HttpRequest} {p : List UInt8}

theorem consumed_shift {v : Verdict HttpRequest} {k : Nat} (h : ∀ req', v.shift k ≠ .reject req') :
    (∀ req', v ≠ .reject req') ∧ (v.shift k).consumed = k + v.consumed := by
  cases v with
  | more req n => exact ⟨fun _ h => (nomatch h), rfl⟩
  | done req n => exact ⟨fun _ h => (nomatch h), rfl⟩
  | reject req => exact absurd rfl (h req)

theorem held_header (hs : req.parseStatus = .header)
    (hv : ∀ req', requestVerdict req p ≠ .reject req') :
    (requestVerdict req p).consumed + heldHeader p true 0 = p.length := by
  rw [requestVerdict_header hs] at hv ⊢
  have hret : ¬ (httpHeaderParse req.headers p).ret < 0 := by
    intro hret
    rw [HeaderParse.verdict, if_pos hret] at hv
    exact hv _ rfl
  have heq := heldHeader_eq req.headers p hret
  rw [HeaderParse.verdict, if_neg hret]
  split_ifs <;> exact heq

/-- A table entry that the bytes start with is found. -/
theorem find?_token {α : Type} {table : List (α × List UInt8)} {x : α} {w r : List UInt8}
    (hx : (x, w) ∈ table) (huniq : ∀ e ∈ table, ∀ r', w ++ r = e.2 ++ r' → e.2.length = w.length) :
    ∃ e, table.find? (fun e => e.2.isPrefixOf (w ++ r)) = some e ∧
      (w ++ r).drop e.2.length = r := by
  cases hf : table.find? fun e => e.2.isPrefixOf (w ++ r) with
  | none =>
    have hnot := List.find?_eq_none.mp hf (x, w) hx
    exact absurd (List.isPrefixOf_iff_prefix.mpr ⟨r, rfl⟩) hnot
  | some e =>
    have hp := List.find?_some hf
    rcases List.isPrefixOf_iff_prefix.mp hp with ⟨r', hr'⟩
    have hlen := huniq e (List.mem_of_find?_eq_some hf) r' hr'.symm
    exact ⟨e, rfl, by rw [hlen, List.drop_left]⟩

theorem find?_no_token {α : Type} (table : List (α × List UInt8)) (p : List UInt8)
    (h : ∀ e ∈ table, ∀ r, p ≠ e.2 ++ r) :
    table.find? (fun e => e.2.isPrefixOf p) = none := by
  refine List.find?_eq_none.mpr fun e he hp => ?_
  rcases List.isPrefixOf_iff_prefix.mp hp with ⟨r, hr⟩
  exact h e he r hr.symm

theorem held_version (hs : req.parseStatus = .version) (hp : p ≠ [])
    (hv : ∀ req', requestVerdict req p ≠ .reject req') :
    (requestVerdict req p).consumed + heldVersion p = p.length := by
  have htok := fun e he => httpVersionParse_token (e := e) he req.version
  cases httpVersionParse_answer req.version hp with
  | token x w r hx hdata h =>
    have h₀ := h [] 0
    rw [List.append_nil] at h₀
    have hw : w.length ≠ 0 := versionLines_length_ne _ hx
    have hrun := requestVerdict_version_token hs h₀ hw
    subst hdata
    obtain ⟨e, hfind, hdrop⟩ := find?_token (r := r) hx fun e he r' heq => by
      have hparse := htok e he r'
      rw [← heq, h₀] at hparse
      have hlen : (w.length : Int) = e.2.length := congrArg Parsed.parseLen hparse
      exact (Int.natCast_inj.mp hlen).symm
    rw [List.drop_left] at hrun
    rw [hrun] at hv ⊢
    rcases consumed_shift hv with ⟨hv', hcons⟩
    have hrest := held_header rfl hv'
    simp only [heldVersion, hfind, hdrop, hcons, List.length_append]
    omega
  | more h =>
    have hnone := find?_no_token versionLines p fun e he r heq => by
      have hparse := htok e he r
      rw [← heq, h 0] at hparse
      have hlen : (0 : Int) = e.2.length := congrArg Parsed.parseLen hparse
      exact versionLines_length_ne e he (Int.natCast_eq_zero.mp hlen.symm)
    rw [requestVerdict_version_more hs (h 0)]
    simp only [heldVersion, hnone, Verdict.consumed, Nat.zero_add]
  | reject h =>
    have h₀ := h [] 0
    rw [List.append_nil] at h₀
    exact absurd (requestVerdict_version_reject hs h₀) (hv _)

theorem takeWhile_target {u : List UInt8} (hu : SP ∉ u) (r : List UInt8) :
    (u ++ r).takeWhile (· ≠ SP) = u ++ r.takeWhile (· ≠ SP) := by
  refine List.takeWhile_append_of_pos fun b hb => decide_eq_true fun hsp => ?_
  exact hu (hsp ▸ hb)

/-- Without a complete target, all of the bytes are held back. -/
theorem heldTarget_more {url : HttpUrl} (h : httpUrlParse p url = ⟨0, 0, url⟩) :
    heldTarget p = p.length := by
  have hret := congrArg Parsed.ret h
  have hlen := congrArg Parsed.parseLen h
  cases urlSpace_answer p with
  | nul hn =>
    have h₀ := hn []
    rw [List.append_nil] at h₀
    rw [httpUrlParse, h₀] at hret
    cases hret
  | more hu hm =>
    have hself := takeWhile_target hu.1 []
    rw [List.append_nil, List.takeWhile_nil, List.append_nil] at hself
    rw [heldTarget, hself]
    exact if_pos (Or.inr rfl)
  | space u r hdata hu hsp =>
    have h₀ := hsp []
    rw [List.append_nil] at h₀
    have htake : p.takeWhile (· ≠ SP) = u := by
      rw [hdata, takeWhile_target hu.1, List.takeWhile_cons_of_neg (by simp), List.append_nil]
    by_cases hne : u = []
    · rw [heldTarget, htake]
      exact if_pos (Or.inl hne)
    · have hlen0 : u.length ≠ 0 := fun h => hne (List.length_eq_zero_iff.mp h)
      simp only [httpUrlParse, h₀, if_neg hlen0] at hret hlen
      by_cases hsize : urlSize ≤ u.length
      · rw [if_pos hsize] at hret
        cases hret
      · rw [if_neg hsize] at hlen
        cases hlen

theorem held_url (hs : req.parseStatus = .url) (hv : ∀ req', requestVerdict req p ≠ .reject req')
    (hle : (requestVerdict req p).consumed ≤ p.length) :
    (requestVerdict req p).consumed + heldTarget p = p.length := by
  cases httpUrlParse_answer p req.url with
  | token u r hu hdata h =>
    have h₀ := h []
    rw [List.append_nil] at h₀
    subst hdata
    by_cases hr : r = []
    · -- the version parser is called without bytes
      subst hr
      rcases requestVerdict_url_end hs hu with ⟨req', hend⟩
      rw [hend] at hle
      simp only [Verdict.consumed, List.length_append, List.length_cons, List.length_nil] at hle
      omega
    have hdrop : (u ++ SP :: r).drop (u.length + 1) = r := by simp
    have hrun := requestVerdict_url_token hs h₀ (Nat.succ_ne_zero _) (by rwa [hdrop])
    rw [hdrop] at hrun
    rw [hrun] at hv ⊢
    rcases consumed_shift hv with ⟨hv', hcons⟩
    have hrest := held_version rfl hr hv'
    have htarget : heldTarget (u ++ SP :: r) = heldVersion r := by
      rw [heldTarget, takeWhile_target hu.2.1.1, List.takeWhile_cons_of_neg (by simp),
        List.append_nil, hdrop]
      refine if_neg (not_or.mpr ⟨hu.1, ?_⟩)
      simp
    rw [hcons, htarget]
    simp only [List.length_append, List.length_cons]
    omega
  | more h =>
    rw [requestVerdict_url_more hs h, heldTarget_more h]
    exact Nat.zero_add _
  | reject n url h =>
    have h₀ := h []
    rw [List.append_nil] at h₀
    exact absurd (requestVerdict_url_reject hs h₀) (hv _)

theorem held_method (hs : req.parseStatus = .method)
    (hv : ∀ req', requestVerdict req p ≠ .reject req')
    (hle : (requestVerdict req p).consumed ≤ p.length) :
    (requestVerdict req p).consumed + heldMethod p = p.length := by
  have hst : Started req p := started_of_verdict hv
  have htok := fun e he => httpMethodParse_token (x := (e : HttpMethod × List UInt8).1) (w := e.2) he
    req.method
  cases httpMethodParse_answer req.method (hst hs).1 (hst hs).2 with
  | token x w r hx hdata h =>
    have h₀ := h []
    rw [List.append_nil] at h₀
    have hw : w.length ≠ 0 := methodTokens_length_ne _ hx
    have hrun := requestVerdict_method_token hs h₀ hw
    subst hdata
    obtain ⟨e, hfind, hdrop⟩ := find?_token (r := r) hx fun e he r' heq => by
      have hparse := htok e he r'
      rw [← heq, h₀] at hparse
      exact (congrArg Parsed.parseLen hparse).symm
    rw [List.drop_left] at hrun
    rw [hrun] at hv hle ⊢
    rcases consumed_shift hv with ⟨hv', hcons⟩
    rw [hcons, List.length_append] at hle
    have hrest := held_url rfl hv' (Nat.le_of_add_le_add_left hle)
    simp only [heldMethod, hfind, hdrop, hcons, List.length_append]
    omega
  | more h =>
    have hnone := find?_no_token methodTokens p fun e he r heq => by
      have hparse := htok e he r
      rw [← heq, h] at hparse
      have hlen : 0 = e.2.length := congrArg Parsed.parseLen hparse
      exact methodTokens_length_ne e he hlen.symm
    rw [requestVerdict_method_more hs h]
    simp only [heldMethod, hnone, Verdict.consumed, Nat.zero_add]
  | reject h =>
    have h₀ := h []
    rw [List.append_nil] at h₀
    exact absurd (requestVerdict_method_reject hs h₀) (hv _)

/-- **A call that is not refused consumes all but the unfinished token.** -/
theorem held_eq (hp : p ≠ []) (hv : ∀ req', requestVerdict req p ≠ .reject req')
    (hle : (requestVerdict req p).consumed ≤ p.length) :
    (requestVerdict req p).consumed + held req.parseStatus p = p.length := by
  cases hs : req.parseStatus with
  | method => exact held_method hs hv hle
  | url => exact held_url hs hv hle
  | version => exact held_version hs hp hv
  | header => exact held_header hs hv
  | error => exact absurd (requestVerdict_rejected hs p) (hv req)

end Held

end OServer
