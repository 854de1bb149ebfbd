/-
  OServer/HttpHeaderChunks.lean
  =============================
  **Headers that arrive in chunks.**

  The pointers of `http_header_parse` start anew in every call, so a caller that gets the
  headers in pieces hands over again what the last call has left.

    * `feed_httpHeaderFeed`    — such calls are those of a resumable parser;
    * `httpHeaderParse_chunks` — they end as one call on all of the bytes would.
-/
import OServer.HttpHeaderSound

namespace OServer

open CString Resume

/-! ## 1. Calls -/

/-- Call `http_header_parse` with each chunk, put behind what the call before has left, until
    one fails or ends the headers; `total` bytes were consumed before. -/
def httpHeaderFeed (headers : HttpHeaderCollection) (left : List UInt8) (total : Nat) :
    List (List UInt8) → HeaderParse
  | [] => ⟨0, total, false, headers⟩
  | c :: cs =>
      let r := httpHeaderParse headers (left ++ c)
      if r.ret < 0 ∨ r.isEnd then r.shift total
      else httpHeaderFeed r.headers ((left ++ c).drop r.rdlen) (total + r.rdlen) cs

/-- The call as a resumable parser. -/
def headersVerdict (headers : HttpHeaderCollection) (p : List UInt8) :
    Verdict HttpHeaderCollection :=
  (httpHeaderParse headers p).verdict

theorem headers_cuttable : Cuttable headersVerdict fun _ _ => True where
  splits _ := httpHeaderParse_splits _ _
  left _ _ _ := trivial

/-- **The calls feed the resumable parser.** -/
theorem feed_httpHeaderFeed (headers : HttpHeaderCollection) (left : List UInt8) (total : Nat)
    (cs : List (List UInt8)) :
    feed headersVerdict headers left total cs =
      some (httpHeaderFeed headers left total cs).verdict := by
  induction cs generalizing headers left total with
  | nil => rfl
  | cons c cs ih =>
    have hbound := (httpHeaderParse_splits headers (left ++ c)).bound
    have hverdict : headersVerdict headers (left ++ c) =
      (httpHeaderParse headers (left ++ c)).verdict := rfl
    rw [feed, hverdict, httpHeaderFeed]
    unfold HeaderParse.verdict at hbound ⊢
    by_cases hret : (httpHeaderParse headers (left ++ c)).ret < 0
    · simp [hret, HeaderParse.shift, Verdict.shift]
    by_cases hend : (httpHeaderParse headers (left ++ c)).isEnd = true
    · simp [hret, hend, HeaderParse.shift, Verdict.shift]
    · rw [if_neg hret, if_neg hend] at hbound ⊢
      rw [if_neg (not_or.mpr ⟨hret, hend⟩)]
      dsimp only
      rw [if_pos (.inr hbound)]
      exact ih _ _ _

/-! ## 2. What a call returns -/

/-- A call fails with `-1`, and then it has not seen the end. -/
structure HeaderParse.Settled (r : HeaderParse) : Prop where
  ret : r.ret = 0 ∨ r.ret = -1
  failed : r.ret < 0 → r.isEnd = false

theorem HeaderParse.settled_bad (rdlen : Nat) (headers : HttpHeaderCollection) :
    Settled ⟨-1, rdlen, false, headers⟩ :=
  ⟨.inr rfl, fun _ => rfl⟩

theorem HeaderParse.settled_good (rdlen : Nat) (isEnd : Bool) (headers : HttpHeaderCollection) :
    Settled ⟨0, rdlen, isEnd, headers⟩ :=
  ⟨.inl rfl, fun h => absurd h (Int.lt_irrefl 0)⟩

theorem headerLoop_settled (p : List UInt8) (st : HeaderScan) (headers : HttpHeaderCollection)
    (rdlen j : Nat) : (headerLoop p st headers rdlen j).Settled := by
  induction p generalizing st headers rdlen j with
  | nil => exact HeaderParse.settled_good ..
  | cons b p ih =>
    simp only [headerLoop]
    split_ifs
    · cases lineEnd st with
      | bad => exact HeaderParse.settled_bad ..
      | blank => exact HeaderParse.settled_good ..
      | field name ln value lv => exact ih _ _ _ _
    · cases scanByte (b :: p) st with
      | none => exact HeaderParse.settled_bad ..
      | some st' => exact ih _ _ _ _

theorem httpHeaderFeed_settled (headers : HttpHeaderCollection) (left : List UInt8) (total : Nat)
    (cs : List (List UInt8)) : (httpHeaderFeed headers left total cs).Settled := by
  induction cs generalizing headers left total with
  | nil => exact HeaderParse.settled_good ..
  | cons c cs ih =>
    have hcall := headerLoop_settled (left ++ c) (.start NUL) headers 0 0
    simp only [httpHeaderFeed]
    split_ifs
    · exact ⟨hcall.ret, hcall.failed⟩
    · exact ih _ _ _

/-- The verdict says all about a call but how far one came that has failed. -/
theorem HeaderParse.Settled.eq_of_verdict {r r' : HeaderParse} (h : r.Settled) (h' : r'.Settled)
    (hv : r.verdict = r'.verdict) :
    r.ret = r'.ret ∧ r.isEnd = r'.isEnd ∧ r.headers = r'.headers ∧
      (0 ≤ r.ret → r.rdlen = r'.rdlen) := by
  rcases r with ⟨ret, rdlen, isEnd, headers⟩
  rcases r' with ⟨ret', rdlen', isEnd', headers'⟩
  have hret : ret = 0 ∨ ret = -1 := h.ret
  have hret' : ret' = 0 ∨ ret' = -1 := h'.ret
  unfold HeaderParse.verdict at hv
  dsimp only at hv ⊢
  split_ifs at hv with hneg hneg' hneg' hend hneg' hend' hneg' hend'
  all_goals cases hv
  · have hend : isEnd = false := h.failed hneg
    have hend' : isEnd' = false := h'.failed hneg'
    refine ⟨by omega, hend.trans hend'.symm, rfl, ?_⟩
    intro hpos
    omega
  · exact ⟨by omega, hend.trans hend'.symm, rfl, fun _ => rfl⟩
  · refine ⟨by omega, ?_, rfl, fun _ => rfl⟩
    rw [Bool.eq_false_iff.mpr hend, Bool.eq_false_iff.mpr hend']

/-- **Chunks.**  However the bytes are cut, the calls end as one call on all of them: with the
    same return value, end and collection, and with as many bytes consumed unless it failed.
    Every complete line was added once, and no other. -/
theorem httpHeaderParse_chunks (headers : HttpHeaderCollection) (cs : List (List UInt8)) :
    (httpHeaderFeed headers [] 0 cs).ret = (httpHeaderParse headers cs.flatten).ret ∧
      (httpHeaderFeed headers [] 0 cs).isEnd = (httpHeaderParse headers cs.flatten).isEnd ∧
      (httpHeaderFeed headers [] 0 cs).headers = (httpHeaderParse headers cs.flatten).headers ∧
      (0 ≤ (httpHeaderFeed headers [] 0 cs).ret →
        (httpHeaderFeed headers [] 0 cs).rdlen = (httpHeaderParse headers cs.flatten).rdlen) ∧
      (httpHeaderFeed headers [] 0 cs).headers =
        (httpHeaderCalls cs.flatten).foldl HeaderCall.add headers := by
  have hverdict : (httpHeaderFeed headers [] 0 cs).verdict =
      (httpHeaderParse headers cs.flatten).verdict := by
    have hcalls := feed_httpHeaderFeed headers [] 0 cs
    by_cases hcs : cs = []
    · rw [hcs]
      rfl
    · rw [feed_eq_parse headers_cuttable cs headers [] 0 hcs fun _ _ => trivial,
        Verdict.shift_zero, List.nil_append] at hcalls
      exact (Option.some.inj hcalls).symm
  have hcall := headerLoop_settled cs.flatten (.start NUL) headers 0 0
  obtain ⟨hret, hend, hheaders, hrdlen⟩ :=
    (httpHeaderFeed_settled headers [] 0 cs).eq_of_verdict hcall hverdict
  exact ⟨hret, hend, hheaders, hrdlen, hheaders.trans (httpHeaderParse_headers headers cs.flatten)⟩

end OServer
