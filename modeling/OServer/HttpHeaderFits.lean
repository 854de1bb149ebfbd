/-
  OServer/HttpHeaderFits.lean
  ===========================
  **What one call of `http_header_to_str` writes.**

  A line is compared with the room left without the terminator that `snprintf` needs.  A
  line that fills the room to the last byte is taken for one that fits, and its `LF` gives
  way to the terminator.

    * `fittingRun_longest`           — the lines that are taken are the longest run that fits;
    * `write_run`, `write_exact`     — what comes of them;
    * `httpHeaderToStr_writesLines`  — when only whole lines are written.
-/
import Mathlib.Data.List.Infix
import OServer.HttpHeaderResume

namespace OServer

open CString

/-! ## 1. Runs of lines -/

/-- `qs` are as many of the first nodes of `ps` as have lines of `size` bytes at most. -/
structure LongestRun (line : Ptr → List UInt8) (ps : List Ptr) (size : Nat) (qs : List Ptr) :
    Prop where
  run : qs <+: ps
  fits : (qs.flatMap line).length ≤ size
  longest : ∀ qs', qs' <+: ps → (qs'.flatMap line).length ≤ size → qs' <+: qs

/-- The nodes for whose lines the room is large enough, one after the other. -/
def fittingRun (line : Ptr → List UInt8) : Nat → List Ptr → List Ptr
  | _, [] => []
  | size, p :: ps =>
      if (line p).length ≤ size then p :: fittingRun line (size - (line p).length) ps else []

theorem fittingRun_longest (line : Ptr → List UInt8) (ps : List Ptr) (size : Nat) :
    LongestRun line ps size (fittingRun line size ps) := by
  induction ps generalizing size with
  | nil => exact ⟨List.prefix_refl [], Nat.zero_le size, fun qs' hqs' _ => hqs'⟩
  | cons p ps ih =>
    rw [fittingRun]
    split_ifs with hfit
    · have hrest := ih (size - (line p).length)
      refine ⟨List.cons_prefix_cons.mpr ⟨rfl, hrest.run⟩, ?_, ?_⟩
      · have hlen := hrest.fits
        rw [List.flatMap_cons, List.length_append]
        omega
      · intro qs' hqs' hlen
        cases qs' with
        | nil => exact List.nil_prefix
        | cons q qs' =>
          obtain ⟨rfl, htail⟩ := List.cons_prefix_cons.mp hqs'
          rw [List.flatMap_cons, List.length_append] at hlen
          exact List.cons_prefix_cons.mpr ⟨rfl, hrest.longest qs' htail (by omega)⟩
    · refine ⟨List.nil_prefix, Nat.zero_le size, ?_⟩
      intro qs' hqs' hlen
      cases qs' with
      | nil => exact List.nil_prefix
      | cons q qs' =>
        obtain ⟨rfl, -⟩ := List.cons_prefix_cons.mp hqs'
        rw [List.flatMap_cons, List.length_append] at hlen
        omega

/-! ## 2. The traversal -/

section Write
variable {key : Ptr → BtKey} {header : Ptr → HttpHeader}

/-- **Whole lines** are written as long as none of them ends where the room does. -/
theorem write_run (ps : List Ptr) : ∀ (info : HttpHeaderStrInfo) (n : Nat),
    (∀ p ∈ ps, SoundAt key header p) → info.size = n →
    (info.traversePtr = none → ps = []) →
    (∀ qs, qs <+: ps → qs ≠ [] → (headerLines key header qs).length ≠ n) →
    ∃ cur, visitUntil (httpHeaderAccumelateStr key header) ps info =
        ⟨info.str ++ headerLines key header (fittingRun (fun p => headerLine (key p) (header p)) n ps),
          (n : Int) - (headerLines key header
            (fittingRun (fun p => headerLine (key p) (header p)) n ps)).length, cur⟩ ∧
      (cur = none ↔ fittingRun (fun p => headerLine (key p) (header p)) n ps = ps) := by
  induction ps with
  | nil =>
    intro info n _ hsize _ _
    refine ⟨none, ?_, iff_of_true rfl rfl⟩
    simp [visitUntil, httpHeaderAccumelateStr, fittingRun, hsize]
  | cons p ps ih =>
    intro info n hps hsize hcur hexact
    have hone := hexact [p] (List.cons_prefix_cons.mpr ⟨rfl, List.nil_prefix⟩) (List.cons_ne_nil p [])
    rw [headerLines_cons, headerLines_nil, List.append_nil] at hone
    rw [write_cons (hps p List.mem_cons_self), hsize, fittingRun]
    by_cases hfit : (headerLine (key p) (header p)).length ≤ n
    · have hlt : ((headerLine (key p) (header p)).length : Int) < n := by omega
      have hrest : ∀ qs, qs <+: ps → qs ≠ [] →
          (headerLines key header qs).length ≠ n - (headerLine (key p) (header p)).length := by
        intro qs hqs _ hlen
        have hmore := hexact (p :: qs) (List.cons_prefix_cons.mpr ⟨rfl, hqs⟩)
          (List.cons_ne_nil p qs)
        rw [headerLines_cons, List.length_append] at hmore
        omega
      obtain ⟨cur, hrun, hnone⟩ := ih
        ⟨info.str ++ headerLine (key p) (header p), (n : Int) - (headerLine (key p) (header p)).length,
          some p⟩ (n - (headerLine (key p) (header p)).length)
        (fun q hq => hps q (List.mem_cons_of_mem p hq)) (by simp only; omega)
        (fun h => absurd h (Option.some_ne_none p)) hrest
      refine ⟨cur, ?_, ?_⟩
      · rw [if_pos hlt.le, if_pos hfit, snprintf_fits hlt, hrun, headerLines_cons]
        simp only [List.append_assoc, List.length_append]
        congr 1
        omega
      · rw [hnone, if_pos hfit, List.cons.injEq, and_iff_right rfl]
    · refine ⟨info.traversePtr, ?_, ?_⟩
      · rw [if_neg (by omega), if_neg hfit, headerLines_nil, List.append_nil, List.length_nil,
          Int.natCast_zero, Int.sub_zero, ← hsize]
      · rw [if_neg hfit]
        exact iff_of_false (fun h => List.cons_ne_nil p ps (hcur h)) (List.cons_ne_nil p ps).symm

/-- A line that ends where the room does loses its `LF`. -/
theorem write_exact (qs : List Ptr) (p : Ptr) (rs : List Ptr) : ∀ info : HttpHeaderStrInfo,
    (∀ q ∈ qs ++ p :: rs, SoundAt key header q) →
    info.size = (headerLines key header (qs ++ [p])).length →
    (visitUntil (httpHeaderAccumelateStr key header) (qs ++ p :: rs) info).size = 0 ∧
      (visitUntil (httpHeaderAccumelateStr key header) (qs ++ p :: rs) info).str =
        info.str ++ headerLines key header qs ++ (headerLine (key p) (header p)).dropLast ++ [NUL] := by
  induction qs with
  | nil =>
    intro info hps hsize
    rw [List.nil_append, headerLines_cons, headerLines_nil, List.append_nil] at hsize
    rw [List.nil_append, write_cons (hps p List.mem_cons_self), if_pos hsize.symm.le,
      snprintf_clips hsize.symm (headerLine_ne_nil _ _)]
    let info' : HttpHeaderStrInfo :=
      ⟨info.str ++ ((headerLine (key p) (header p)).dropLast ++ [NUL]),
        info.size - (headerLine (key p) (header p)).length, some p⟩
    have h0 : info'.size = 0 := by
      simp only [info']
      omega
    have hfull := write_full rs (fun q hq => hps q (List.mem_cons_of_mem p hq)) h0
    refine ⟨hfull.2, ?_⟩
    rw [hfull.1, headerLines_nil, List.append_nil, List.append_assoc]
  | cons q qs ih =>
    intro info hps hsize
    have hne := List.length_pos_iff.mpr (headerLine_ne_nil (key p) (header p))
    rw [List.cons_append, headerLines_cons, List.length_append] at hsize
    have hrest : 0 < (headerLines key header (qs ++ [p])).length := by
      rw [headerLines_append, headerLines_cons, List.length_append, List.length_append]
      omega
    have hlt : ((headerLine (key q) (header q)).length : Int) < info.size := by omega
    have hnext := ih ⟨info.str ++ headerLine (key q) (header q),
      info.size - (headerLine (key q) (header q)).length, some q⟩
      (fun r hr => hps r (List.mem_cons_of_mem q hr)) (by simp only; omega)
    rw [List.cons_append, write_cons (hps q List.mem_cons_self), if_pos hlt.le, snprintf_fits hlt]
    refine ⟨hnext.1, ?_⟩
    rw [hnext.2, headerLines_cons, List.append_assoc info.str]

end Write

/-! ## 3. One call -/

/-- The text that a buffer of `size` bytes is for: whole lines, as many as fit, and behind the
    last of them the blank line. -/
structure WritesLines (headers : HttpHeaderCollection) (ps : List Ptr) (size : Nat)
    (r : HeaderStr) (qs : List Ptr) : Prop where
  longest : LongestRun headers.line ps size qs
  isEnd : r.isEnd = true ↔ qs = ps ∧ (ps.flatMap headers.line).length + 2 ≤ size
  str : r.str = qs.flatMap headers.line ++ if r.isEnd then [CR, LF] else []
  ret : r.ret = r.str.length

section Call
variable {headers : HttpHeaderCollection} {v : BtreeView}

/-- No line ends where the room does. -/
theorem writesLines_of_run (hv : headers.headerTree.Represents v) (hsound : SoundView headers v)
    (hcur : headers.traversePtr = headers.headerTree.root) {size : Nat}
    (hexact : ∀ qs, qs <+: v.tree.toList → qs ≠ [] →
      (headerLines v.key headers.header qs).length ≠ size) :
    WritesLines headers v.tree.toList size (httpHeaderToStr headers size)
      (fittingRun headers.line size v.tree.toList) := by
  have hline : headers.line = fun p => headerLine (v.key p) (headers.header p) := by
    funext p
    rw [HttpHeaderCollection.line, hv.key]
  have hroot : headers.traversePtr = none → v.tree.toList = [] := by
    intro hnone
    have hnil := hv.holds.none_iff.mp (hcur.symm.trans hnone)
    rw [hnil]
    rfl
  have hlongest := fittingRun_longest headers.line v.tree.toList size
  obtain ⟨cur, hrun, hnone⟩ := write_run v.tree.toList ⟨[], size, headers.traversePtr⟩ size hsound rfl
    hroot hexact
  rw [← hline, List.nil_append] at hrun
  rw [← hline] at hnone
  have hinfo := (accumulate_root hv hcur size).trans hrun
  have htext : ∀ qs, headerLines v.key headers.header qs = qs.flatMap headers.line := fun qs =>
    (HttpHeaderCollection.flatMap_line hv qs).symm
  have hfits := hlongest.fits
  rw [htext] at hinfo
  by_cases hend : cur = none ∧ 2 ≤ (size : Int) -
      ((fittingRun headers.line size v.tree.toList).flatMap headers.line).length
  · obtain ⟨hstr, hisEnd, hret, -⟩ := httpHeaderToStr_end hinfo hend
    have hall := hnone.mp hend.1
    rw [hall] at hinfo hend hstr hret hlongest hfits ⊢
    refine ⟨hlongest, iff_of_true hisEnd ⟨rfl, by omega⟩, ?_, ?_⟩
    · rw [hstr, hisEnd]
      rfl
    · rw [hret, hstr, List.length_append]
      simp only [List.length_cons, List.length_nil]
      omega
  · obtain ⟨hstr, hisEnd, hret, -⟩ := httpHeaderToStr_stay hinfo hend
    refine ⟨hlongest, ?_, ?_, ?_⟩
    · rw [hisEnd]
      refine iff_of_false Bool.false_ne_true fun h => hend ⟨hnone.mpr h.1, ?_⟩
      rw [h.1]
      omega
    · rw [hstr, hisEnd]
      exact (List.append_nil _).symm
    · rw [hret, hstr]
      dsimp only
      omega

/-- A line that ends where the room does is not written as a whole. -/
theorem not_writesLines_of_exact (hv : headers.headerTree.Represents v)
    (hsound : SoundView headers v) (hcur : headers.traversePtr = headers.headerTree.root) {size : Nat}
    {qs rs : List Ptr} {p : Ptr} (hps : v.tree.toList = qs ++ p :: rs)
    (hsize : (headerLines v.key headers.header (qs ++ [p])).length = size) (qs' : List Ptr) :
    ¬WritesLines headers v.tree.toList size (httpHeaderToStr headers size) qs' := by
  intro hwrites
  have hsound' : ∀ q ∈ qs ++ p :: rs, SoundAt v.key headers.header q := by
    rw [← hps]
    exact hsound
  have hexact := write_exact qs p rs ⟨[], size, headers.traversePtr⟩ hsound' (congrArg _ hsize.symm)
  rw [← hps, ← accumulate_root hv hcur size] at hexact
  have hstays : ¬((headers.accumulate size).traversePtr = none ∧
      2 ≤ (headers.accumulate size).size) := by
    rw [hexact.1]
    simp
  obtain ⟨hstr, -⟩ := httpHeaderToStr_stay rfl hstays
  have hrun : qs ++ [p] <+: v.tree.toList := ⟨rs, by rw [hps]; simp⟩
  have hfits : ((qs ++ [p]).flatMap headers.line).length ≤ size := by
    rw [HttpHeaderCollection.flatMap_line hv, hsize]
  obtain ⟨more, rfl⟩ := hwrites.longest.longest _ hrun hfits
  have hnodes : qs ++ [p] ++ more = qs ++ p :: more := by
    rw [List.append_assoc, List.singleton_append]
  have htext := hwrites.str
  rw [hstr, hexact.2, HttpHeaderCollection.flatMap_line hv, List.nil_append, hnodes] at htext
  refine clipped_not_prefix v.key headers.header qs more p []
    (if (httpHeaderToStr headers size).isEnd then [CR, LF] else []) ⟨[], ?_⟩
  rw [List.append_nil, List.append_nil, htext]

end Call

/-- **Whole lines** are written exactly when no run of first lines has as many bytes as there is
    room for. -/
theorem httpHeaderToStr_writesLines {headers : HttpHeaderCollection} {ps : List Ptr}
    (hps : headers.Listed ps) (hsound : headers.Sound)
    (hcur : headers.traversePtr = headers.headerTree.root) (size : Nat) :
    (∃ qs, WritesLines headers ps size (httpHeaderToStr headers size) qs) ↔
      ∀ qs, qs <+: ps → qs ≠ [] → (qs.flatMap headers.line).length ≠ size := by
  rcases headers.tree with ⟨v, hv⟩
  obtain rfl := hps.eq_toList hv
  have hview := hsound.view hv
  constructor
  · rintro ⟨qs', hwrites⟩ qs hqs hne hlen
    obtain ⟨qs, p, rfl⟩ := (List.eq_nil_or_concat' qs).resolve_left hne
    obtain ⟨rs, hrs⟩ := hqs
    have hlist : v.tree.toList = qs ++ p :: rs := by
      rw [← hrs]
      simp
    rw [HttpHeaderCollection.flatMap_line hv] at hlen
    exact not_writesLines_of_exact hv hview hcur hlist hlen qs' hwrites
  · intro hexact
    refine ⟨_, writesLines_of_run hv hview hcur fun qs hqs hne => ?_⟩
    rw [← HttpHeaderCollection.flatMap_line hv]
    exact hexact qs hqs hne

/-- `Host: x` and its end have nine bytes. -/
theorem httpHeaderToStr_not_writesLines :
    hostHeader.Listed [0] ∧ hostHeader.Sound ∧
    hostHeader.traversePtr = hostHeader.headerTree.root ∧
    ¬∃ qs, WritesLines hostHeader [0] 9 (httpHeaderToStr hostHeader 9) qs := by
  rcases hostHeader_view with ⟨v, hv, hsound, hlist, -⟩
  have hlisted := HttpHeaderCollection.listed_of_view hv
  rw [hlist] at hlisted
  refine ⟨hlisted, HttpHeaderCollection.sound_of_view hv hsound, rfl, ?_⟩
  rintro ⟨qs, hwrites⟩
  have hsize : ([0].flatMap hostHeader.line).length = 9 := by decide
  rw [HttpHeaderCollection.flatMap_line hv] at hsize
  rw [← hlist] at hwrites
  have hnodes : v.tree.toList = [] ++ 0 :: [] := hlist
  exact not_writesLines_of_exact hv hsound rfl hnodes hsize qs hwrites

/-- One byte less than the two lines have. -/
theorem httpHeaderToStr_writesLines_close :
    ∃ qs, WritesLines hostConnection [1, 0] 27 (httpHeaderToStr hostConnection 27) qs := by
  rcases hostHeader_view with ⟨-, -, -, -, v, hv, hsound, hlist⟩
  have hlisted := HttpHeaderCollection.listed_of_view hv
  rw [hlist] at hlisted
  have hruns : ∀ qs ∈ [1, 0].inits, qs ≠ [] → (qs.flatMap hostConnection.line).length ≠ 27 := by
    decide
  have hiff := httpHeaderToStr_writesLines hlisted
    (HttpHeaderCollection.sound_of_view hv hsound) rfl 27
  exact hiff.mpr fun qs hqs => hruns qs ((List.mem_inits _ _).mpr hqs)

end OServer
