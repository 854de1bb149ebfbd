/-
  OServer/ServerSite.lean
  =======================
  **A site, as its clients see it.**

  The messages that the parser takes for requests are the texts of its language, and the
  answer to one is a function of its method and of the segments of its path.  The rest of
  the text, and how the network cuts it, are of no account:

    * `message_iff`        — the messages are the texts of the language;
    * `serverSite_answers` — a connection over which texts come is sent the answers to
                             their methods and paths.
-/
import OServer.HttpRequestText
import OServer.ServerRoot
import OServer.ServerStream

namespace OServer

open CString Resume Run

/-! ## 1. Messages -/

/-- **The messages of the parser are the texts of its language.** -/
theorem message_iff {R : List UInt8} : Message requestVerdict httpRequestInit R ↔
    ∃ t : RequestText, t.WellFormed ∧ R = t.text := by
  constructor
  · rintro ⟨req, hv⟩
    obtain ⟨t, ht, q, rfl⟩ := exists_requestText hv
    rw [ht.verdict q, Verdict.done.injEq, List.length_append] at hv
    have hq : q = [] := List.length_eq_zero_iff.mp (by omega)
    exact ⟨t, ht, by rw [hq, List.append_nil]⟩
  · rintro ⟨t, ht, rfl⟩
    have hv := ht.verdict []
    rw [List.append_nil] at hv
    exact ⟨t.request, hv⟩

theorem requestOf_text {t : RequestText} (ht : t.WellFormed) : requestOf t.text = t.request := by
  have hv := ht.verdict []
  rw [List.append_nil] at hv
  exact (httpRequestParse_done hv).2

/-! ## 2. Answers -/

/-- The file that is looked up for the segments of a path. -/
def sitePath (root : List UInt8) (segs : List (List UInt8)) : List UInt8 :=
  let path := root ++ bytes "/" ++ segs.flatten
  if path.getLast? = some '/'.toUInt8 then path ++ bytes "index.html" else path

/-- The answer to a method and a path. -/
def siteAnswer (root : List UInt8) (files : StaticFiles) (method : HttpMethod)
    (segs : List (List UInt8)) : List UInt8 :=
  match method with
  | .get =>
      fileHead files.toFileSystem (sitePath root segs) ++ fileBody files (sitePath root segs)
  | .head => fileHead files.toFileSystem (sitePath root segs)
  | .options =>
      headText .ok200 [(headerAllow, bytes "OPTIONS, GET, PUT, HEAD"), connectionField true,
        (headerContentLength, bytes "0"), serverField]
  | _ => plainAnswer .methodNotAllowed405 true

/-- The version and the headers of a text do not count. -/
theorem answerText_text (root : List UInt8) (files : StaticFiles) {t : RequestText}
    (ht : t.WellFormed) : answerText root files t.request = siteAnswer root files t.method t.segs := by
  have hpath : servedPath root t.request.url = sitePath root t.segs := by
    rw [servedPath_eq, ht.segmentTexts, sitePath]
  have hstatus : t.request.parseStatus ≠ .error := by
    intro h
    cases h
  have hmethod : t.request.method = t.method := rfl
  unfold answerText siteAnswer
  dsimp only
  rw [if_neg hstatus, hpath]
  cases hm : t.method <;> simp only [hmethod, hm]

theorem answers_texts (root : List UInt8) (files : StaticFiles) {ts : List RequestText}
    (hts : ∀ t ∈ ts, t.WellFormed) (n : Nat) :
    (((ts.map RequestText.text).take n).flatMap fun R => answerText root files (requestOf R)) =
      (ts.take n).flatMap fun t => siteAnswer root files t.method t.segs := by
  rw [← List.map_take, List.flatMap_map]
  apply List.flatMap_congr
  intro t ht
  have hform := hts t (List.mem_of_mem_take ht)
  rw [requestOf_text hform, answerText_text root files hform]

/-! ## 3. Connections -/

/-- **A site answers methods and paths.**  In every run over which texts of the language come,
    however they are cut, the worker has sent the answers to the methods and paths of all
    texts that have come completely when it gives the connection back, and to those that it
    has answered before every `recv`. -/
theorem serverSite_answers (root : List UInt8) (files : StaticFiles) (ts : List RequestText)
    (tail : List UInt8) (hts : ∀ t ∈ ts, t.WellFormed)
    (htail : Unfinished requestVerdict httpRequestInit tail) (x : Transfer)
    (log : List ServerObs) (h : Streamed root files (ts.map RequestText.text) (x, log))
    (hrec : received log <+: (ts.map RequestText.text).flatten ++ tail) :
    (x.connection.worker = .waiting → sentBytes log =
      (ts.take (contained (ts.map RequestText.text) (received log).length)).flatMap fun t =>
        siteAnswer root files t.method t.segs) ∧
    ∀ rbuf remain, x.connection.worker = .recving rbuf remain → sentBytes log =
      (ts.take (answered log)).flatMap fun t => siteAnswer root files t.method t.segs := by
  have hRs : ∀ R ∈ ts.map RequestText.text, Message requestVerdict httpRequestInit R := by
    intro R hR
    obtain ⟨t, ht, rfl⟩ := List.mem_map.mp hR
    exact message_iff.mpr ⟨t, hts t ht, rfl⟩
  obtain ⟨hwaiting, hreading⟩ := serverServClient_stream root files _ tail hRs htail x log h hrec
  constructor
  · intro hw
    rw [hwaiting hw, answers_texts root files hts]
  · intro rbuf remain hw
    rw [hreading rbuf remain hw, answers_texts root files hts]

end OServer
