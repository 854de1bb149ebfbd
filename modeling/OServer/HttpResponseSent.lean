/-
  OServer/HttpResponseSent.lean
  =============================
  **What the calls of `http_response_gen` send, for every length of the head.**

  The first call writes as much of the head as fits.  When only the blank line is left,
  the second call writes it; when a header is left, the second call starts at one that
  was written already, and the head is never completed:

    * `delivers_sent`     — a head of at most one byte more than the buffer is sent, and
                            the file behind it unless the head fills the buffer;
    * `not_delivers_long` — a longer head is not sent, whatever follows it.
-/
import OServer.HttpResponse
import OServer.HttpHeaderResume

namespace OServer

open CString Pieces

section Sent
variable {res : HttpResponse} {ps : List Ptr} {size : Nat}

/-- The part of the headers that is written comes out of the call. -/
theorem httpHeaderToStr_begins {ρ : Type} (read : Nat → ρ → List UInt8 × ρ) (res : HttpResponse)
    (hs : res.genStatus = .headers) (size : Int) (file : ρ) :
    (httpHeaderToStr res.headers size).str <+: (httpResponseGen read res size file).out := by
  cases hend : (httpHeaderToStr res.headers size).isEnd with
  | true =>
    rw [httpResponseGen_headers_end read res hs hend]
    exact List.prefix_append ..
  | false =>
    have hgen := httpResponseGen_headers_stay read res hs hend file
    exact ⟨[], (List.append_nil _).trans (congrArg Gen.out hgen).symm⟩

variable (hs : res.genStatus = .version) (hps : res.headers.Listed ps)
  (hsound : res.headers.Sound) (hcur : res.headers.traversePtr = res.headers.headerTree.root)
  (reader : ContentReader) (B : List UInt8)
include hs

/-- The first call, when the headers are not completed. -/
theorem responseCall_stay (hline : (statusLine res).length ≤ size)
    (hend : (httpHeaderToStr res.headers ((size - (statusLine res).length : Nat) : Int)).isEnd =
      false) :
    responseCall reader.read size (res, 0, B) =
      ⟨statusLine res ++
          (httpHeaderToStr res.headers ((size - (statusLine res).length : Nat) : Int)).str,
        false,
        ({ res with
            genStatus := .headers
            headers := (httpHeaderToStr res.headers
              ((size - (statusLine res).length : Nat) : Int)).headers }, 0, B)⟩ := by
  have hgen := httpResponseGen_statusLine reader.read hs hline (0, B)
  have hstay := httpResponseGen_headers_stay reader.read { res with genStatus := .headers } rfl
    hend (0, B)
  rw [responseCall, hgen, hstay]
  rfl

include hps hsound hcur

/-- The blank line is left to the second call, and the content follows it. -/
theorem delivers_next (hsize : (responseHead res ps).length = size + 1) :
    Delivers (responseCall reader.read size) (res, 0, B)
      (responseHead res ps ++ if 0 < res.content then B else []) := by
  have hlen := responseHead_length res ps
  have hline := statusLine_length res
  rcases res.headers.tree with ⟨v, hv⟩
  have hlist := hps.eq_toList hv
  have htext : ps.flatMap res.headers.line =
      headerLines v.key res.headers.header v.tree.toList :=
    hlist ▸ HttpHeaderCollection.flatMap_line hv ps
  let room : Int := (size - (statusLine res).length : Nat)
  have hfits : ((headerLines v.key res.headers.header v.tree.toList).length : Int) < room := by
    rw [← htext]
    simp only [room]
    omega
  have hinfo := (accumulate_root hv hcur room).trans
    (write_all v.tree.toList _ (hsound.view hv) hfits)
  rcases httpHeaderToStr_stay hinfo (by
    rw [← htext]
    simp only [room]
    omega) with ⟨hstr, hend, -, hptr⟩
  rw [← htext, List.nil_append] at hstr
  have hcall := responseCall_stay hs reader B (by omega) hend
  rw [hstr] at hcall
  -- the second call
  let res' : HttpResponse :=
    { res with genStatus := .headers, headers := (httpHeaderToStr res.headers room).headers }
  have hptr' : res'.headers.traversePtr = none := hptr
  have hinfo' := accumulate_none hptr' size
  have hroom : 2 < size := by omega
  rcases httpHeaderToStr_end hinfo' ⟨rfl, by
    simp only
    omega⟩ with ⟨hblank, hend', hret, -⟩
  have hgen := httpResponseGen_headers_end reader.read res' rfl hend' (0, B)
  have hleft : (size : Int) - (httpHeaderToStr res'.headers size).ret = ((size - 2 : Nat) : Int) := by
    rw [hret]
    simp only
    omega
  rw [hleft, hblank] at hgen
  have hdel := delivers_reached reader rfl (Nat.lt_trans Nat.zero_lt_two hroom) hgen
  have hmore : 0 < size - 2 := Nat.sub_pos_of_lt hroom
  simp only [hmore, and_true, List.nil_append] at hdel
  have hstays : (responseCall reader.read size (res, 0, B)).isEnd = false := by
    rw [hcall]
  rw [delivers_stay hstays, hcall]
  refine ⟨_, ?_, hdel⟩
  rw [responseHead_eq, List.append_assoc, List.append_assoc, List.append_assoc]

/-- **A head of at most one byte more than the buffer is sent**, and the file follows unless
    there is no descriptor above `0` or the head fills the buffer. -/
theorem delivers_sent (hsize : (responseHead res ps).length ≤ size + 1) :
    Delivers (responseCall reader.read size) (res, 0, B) (responseHead res ps ++
      if 0 < res.content ∧ (responseHead res ps).length ≠ size then B else []) := by
  by_cases hfits : (responseHead res ps).length ≤ size
  · have hdel := delivers_head reader hs hps hsound hcur hfits B
    have hiff : (responseHead res ps).length < size ↔ (responseHead res ps).length ≠ size :=
      ⟨ne_of_lt, lt_of_le_of_ne hfits⟩
    simpa only [hiff] using hdel
  · have hlong : (responseHead res ps).length = size + 1 := by omega
    have hdel := delivers_next hs hps hsound hcur reader B hlong
    have hne : (responseHead res ps).length ≠ size := by omega
    simpa only [ne_eq, hne, not_false_eq_true, and_true] using hdel

/-- **A longer head is not sent**, whatever follows it, when the first header fits. -/
theorem not_delivers_long (hsize : size + 1 < (responseHead res ps).length) {p : Ptr}
    {qs : List Ptr} (hfirst : ps = p :: qs)
    (hfits : (statusLine res).length + (res.headers.line p).length ≤ size) (body : List UInt8) :
    ¬Delivers (responseCall reader.read size) (res, 0, B) (responseHead res ps ++ body) := by
  have hlen := responseHead_length res ps
  have hstatus := statusLine_length res
  have hpos := four_le_line res.headers p
  rcases res.headers.tree with ⟨v, hv⟩
  have hlist := hps.eq_toList hv
  have htext : ps.flatMap res.headers.line =
      headerLines v.key res.headers.header v.tree.toList :=
    hlist ▸ HttpHeaderCollection.flatMap_line hv ps
  have hline : headerLine (v.key p) (res.headers.header p) = res.headers.line p := by
    rw [HttpHeaderCollection.line, hv.key]
  rw [htext] at hlen
  have hline₀ : ∀ p' rs, v.tree.toList = p' :: rs →
      (headerLine (v.key p') (res.headers.header p')).length ≤ size - (statusLine res).length := by
    intro p' rs hcons
    rw [← hlist, hfirst] at hcons
    obtain rfl := (List.cons.inj hcons).1
    rw [hline]
    omega
  have hline₁ : ∀ p' ∈ v.tree.toList,
      (headerLine (v.key p') (res.headers.header p')).length ≤ size - (statusLine res).length →
      (headerLine (v.key p') (res.headers.header p')).length < size := by
    intro p' _ hle
    omega
  rcases short_twice hv (hsound.view hv) hcur (by omega) (by omega) hline₀ hline₁
    ([CR, LF] ++ body) with ⟨hend, hpre⟩
  have hcall := responseCall_stay hs reader B (by omega) hend
  have hstays : (responseCall reader.read size (res, 0, B)).isEnd = false := by
    rw [hcall]
  intro hdel
  rcases (delivers_stay hstays).mp hdel with ⟨out, hout, hdel'⟩
  rw [hcall] at hout hdel'
  have hnext := (httpHeaderToStr_begins reader.read _ rfl size (0, B)).trans hdel'.begins
  apply hpre
  rw [responseHead_eq, htext] at hout
  simp only [List.append_assoc, List.append_cancel_left_eq] at hout
  rw [hout]
  exact (List.prefix_append_right_inj _).mpr hnext

end Sent

end OServer
