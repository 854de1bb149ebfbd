/-
  OServer/HttpHeaderResume.lean
  =============================
  **Writing a header collection in pieces.**

  `http_header_to_str` is called until it sets `*is_end`.  The cursor that one call
  leaves to the next is a node that has been written, so that the text comes out
  right only when nothing but the blank line is left for a second call
  (`httpHeaderToStr_resumes`).
-/
import OServer.HttpHeaderStr
import OServer.Lib.Pieces

namespace OServer

open CString Pieces

/-! ## 1. Calls until the end -/

/-- The `i`-th call, with a buffer of `s i` bytes. -/
def toStrCall (s : Nat → Nat) (u : HttpHeaderCollection × Nat) :
    Piece (HttpHeaderCollection × Nat) UInt8 :=
  let r := httpHeaderToStr u.1 (s u.2)
  ⟨r.str, r.isEnd, (r.headers, u.2 + 1)⟩

section Calls
variable {headers : HttpHeaderCollection} {v : BtreeView} {s : Nat → Nat} {i : Nat}

/-- With the cursor at `NULL`, a buffer of two bytes is enough. -/
theorem toStrCall_none (hcur : headers.traversePtr = none) :
    (2 ≤ s i → (toStrCall s (headers, i)).out = [CR, LF] ∧
      (toStrCall s (headers, i)).isEnd = true) ∧
    (s i < 2 → (toStrCall s (headers, i)).out = [] ∧
      (toStrCall s (headers, i)).isEnd = false ∧
      (toStrCall s (headers, i)).next.1.traversePtr = none) := by
  have hinfo := accumulate_none hcur (s i)
  constructor
  · intro h
    rcases httpHeaderToStr_end hinfo ⟨rfl, by simpa using h⟩ with ⟨hstr, hend, -⟩
    exact ⟨hstr, hend⟩
  · intro h
    rcases httpHeaderToStr_stay hinfo (by simpa using h) with ⟨hstr, hend, -, hptr⟩
    exact ⟨hstr, hend, hptr⟩

/-- Only the blank line is left: it waits for a buffer that holds it. -/
theorem delivers_blank_iff (out : List UInt8) (hcur : headers.traversePtr = none) :
    Delivers (toStrCall s) (headers, i) out ↔ out = [CR, LF] ∧ ∃ j, i ≤ j ∧ 2 ≤ s j := by
  constructor
  · rintro ⟨n, hn⟩
    induction n generalizing headers i out with
    | zero => cases hn
    | succ n ih =>
      by_cases h : 2 ≤ s i
      · rcases (toStrCall_none hcur).1 h with ⟨hout, hend⟩
        have hdel := (delivers_end hend).mp ⟨n + 1, hn⟩
        exact ⟨hdel.trans hout, i, le_rfl, h⟩
      · rcases (toStrCall_none hcur).2 (Nat.lt_of_not_le h) with ⟨hout, hend, hptr⟩
        rw [collect, hend, hout] at hn
        rcases Option.map_eq_some_iff.mp hn with ⟨out', hout', rfl⟩
        rcases ih out' hptr hout' with ⟨rfl, j, hj, h2⟩
        exact ⟨rfl, j, by omega, h2⟩
  · rintro ⟨rfl, j, hj, h2⟩
    rcases Nat.exists_eq_add_of_le hj with ⟨k, rfl⟩
    clear hj
    induction k generalizing headers i with
    | zero =>
      rcases (toStrCall_none hcur).1 h2 with ⟨hout, hend⟩
      exact (delivers_end hend).mpr hout.symm
    | succ k ih =>
      by_cases h : 2 ≤ s i
      · rcases (toStrCall_none hcur).1 h with ⟨hout, hend⟩
        exact (delivers_end hend).mpr hout.symm
      · rcases (toStrCall_none hcur).2 (Nat.lt_of_not_le h) with ⟨hout, hend, hptr⟩
        have h2' : 2 ≤ s (i + 1 + k) := by
          rwa [Nat.add_assoc, Nat.add_comm 1 k]
        refine (delivers_stay hend).mpr ⟨[CR, LF], ?_, ih hptr h2'⟩
        rw [hout]
        rfl

/-- A first buffer that is longer than all lines together. -/
theorem delivers_enough_iff (hv : headers.headerTree.Represents v) (hsound : SoundView headers v)
    (hcur : headers.traversePtr = headers.headerTree.root)
    (h0 : (headerLines v.key headers.header v.tree.toList).length < s 0) :
    Delivers (toStrCall s) (headers, 0)
        (headerLines v.key headers.header v.tree.toList ++ [CR, LF]) ↔
      (headerLines v.key headers.header v.tree.toList).length + 2 ≤ s 0 ∨ ∃ j, 1 ≤ j ∧ 2 ≤ s j := by
  have hlt : ((headerLines v.key headers.header v.tree.toList).length : Int) < (s 0 : Int) := by
    omega
  have hinfo := (accumulate_root hv hcur (s 0)).trans (write_all v.tree.toList _ hsound hlt)
  by_cases hroom : (headerLines v.key headers.header v.tree.toList).length + 2 ≤ s 0
  · rcases httpHeaderToStr_end hinfo ⟨rfl, by simp only; omega⟩ with ⟨hstr, hend, -⟩
    have hend' : (toStrCall s (headers, 0)).isEnd = true := hend
    rw [delivers_end hend']
    exact ⟨fun _ => Or.inl hroom, fun _ => hstr.symm⟩
  · rcases httpHeaderToStr_stay hinfo (by simp only; omega) with ⟨hstr, hend, -, hptr⟩
    have hend' : (toStrCall s (headers, 0)).isEnd = false := hend
    have hptr' : (toStrCall s (headers, 0)).next.1.traversePtr = none := hptr
    rw [delivers_stay hend']
    constructor
    · rintro ⟨out', -, hdel⟩
      exact Or.inr ((delivers_blank_iff out' hptr').mp hdel).2
    · rintro (h | hex)
      · exact absurd h hroom
      · exact ⟨[CR, LF], congrArg (· ++ [CR, LF]) hstr.symm,
          (delivers_blank_iff [CR, LF] hptr').mpr ⟨rfl, hex⟩⟩

/-! ## 2. What is written again -/

/-- A last part of a list that reaches back into a first part begins there. -/
theorem exists_head_of_overlap {xs ps qs rs : List Ptr} (h : qs ++ rs = xs ++ ps)
    (hn : (qs ++ rs).Nodup) {q : Ptr} (hq : q ∈ qs) (hq' : q ∈ ps) :
    ∃ j ∈ qs, ∃ ps', ps = j :: ps' := by
  have hdisj : q ∉ rs := fun hrs => (List.nodup_append.mp hn).2.2 q hq q hrs rfl
  rcases List.append_eq_append_iff.mp h with ⟨ys, -, hrs⟩ | ⟨ys, hqs, hps⟩
  · exact absurd (hrs ▸ List.mem_append_right ys hq') hdisj
  · cases ys with
    | nil =>
      rw [List.nil_append] at hps
      exact absurd (hps ▸ hq') hdisj
    | cons j ys => exact ⟨j, by simp [hqs], ys ++ rs, hps⟩

theorem str_accumulate (headers : HttpHeaderCollection) (size : Int) :
    (headers.accumulate size).str <+: (httpHeaderToStr headers size).str := by
  by_cases hend : (headers.accumulate size).traversePtr = none ∧ 2 ≤ (headers.accumulate size).size
  · rw [(httpHeaderToStr_end rfl hend).1]
    exact List.prefix_append ..
  · exact ⟨[], (List.append_nil _).trans (httpHeaderToStr_stay rfl hend).1.symm⟩

/-- A call with the cursor at a node writes a node again that is not behind it. -/
theorem httpHeaderToStr_again (hv : headers.headerTree.Represents v)
    (hsound : SoundView headers v) {qs rs : List Ptr} (hlist : v.tree.toList = qs ++ rs) {q : Ptr}
    (hq : q ∈ qs) (hcur : headers.traversePtr = some q) {size : Nat}
    (hsize : ∀ p ∈ qs, (headerLine (v.key p) (headers.header p)).length < size) :
    ∃ j ∈ qs, headerLine (v.key j) (headers.header j) <+: (httpHeaderToStr headers size).str := by
  rcases HttpHeaderCollection.accumulate_eq hv size with ⟨xs, ps, hxs, -, hsome, -, hinfo⟩
  have hn : (qs ++ rs).Nodup := hlist ▸ v.ordered.nodup
  rcases exists_head_of_overlap (hlist.symm.trans hxs) hn hq (hsome q hcur) with ⟨j, hj, ps', rfl⟩
  have hmem : j ∈ v.tree.toList := hlist ▸ List.mem_append_left rs hj
  have hlt : ((headerLine (v.key j) (headers.header j)).length : Int) < (size : Int) := by
    exact_mod_cast hsize j hj
  refine ⟨j, hj, List.IsPrefix.trans ?_ (str_accumulate headers size)⟩
  rw [hinfo, write_cons (hsound j hmem), if_pos hlt.le, snprintf_fits hlt]
  exact write_extends ps' ⟨[] ++ headerLine (v.key j) (headers.header j), _, some j⟩

theorem headerLine_dropLast (id : BtKey) (h : HttpHeader) :
    headerLine id h = (headerLine id h).dropLast ++ [LF] := by
  have hline : headerLine id h =
      ((httpHeaderField id).str ++ bytes ": " ++ cstr h.value ++ [CR]) ++ [LF] := by
    simp [headerLine]
  rw [hline, List.dropLast_concat]

theorem headerLine_length_le {key : Ptr → BtKey} {header : Ptr → HttpHeader} {qs : List Ptr}
    {q : Ptr} (hq : q ∈ qs) :
    (headerLine (key q) (header q)).length ≤ (headerLines key header qs).length := by
  rcases List.append_of_mem hq with ⟨as, bs, rfl⟩
  simp only [headerLines_append, headerLines_cons, List.length_append]
  omega

/-- A terminator stands where the end of a line should be. -/
theorem clipped_not_prefix (key : Ptr → BtKey) (header : Ptr → HttpHeader) (qs rs : List Ptr)
    (p : Ptr) (s t : List UInt8) :
    ¬headerLines key header qs ++ (headerLine (key p) (header p)).dropLast ++ [NUL] ++ s <+:
      headerLines key header (qs ++ p :: rs) ++ t := by
  intro hpre
  rw [headerLines_append, headerLines_cons, headerLine_dropLast (key p) (header p),
    List.dropLast_concat] at hpre
  simp only [List.append_assoc, List.prefix_append_right_inj] at hpre
  rcases hpre with ⟨_, hpre⟩
  simp only [List.cons_append, List.nil_append, List.cons.injEq] at hpre
  exact absurd hpre.1 (by decide)

/-- The line of a node that was written stands where that of the next one should be. -/
theorem again_not_prefix (hsound : SoundView headers v) {qs rs : List Ptr} {p j : Ptr}
    (hps : v.tree.toList = qs ++ p :: rs) (hj : j ∈ qs) {s : List UInt8}
    (hs : headerLine (v.key j) (headers.header j) <+: s) (t : List UInt8) :
    ¬headerLines v.key headers.header qs ++ s <+:
      headerLines v.key headers.header v.tree.toList ++ t := by
  intro hpre
  rw [hps, headerLines_append, headerLines_cons] at hpre
  simp only [List.append_assoc, List.prefix_append_right_inj] at hpre
  rcases hs.trans hpre with ⟨r, hr⟩
  have hmem : j ∈ v.tree.toList ∧ p ∈ v.tree.toList := by
    rw [hps]
    exact ⟨List.mem_append_left _ hj, List.mem_append_right _ List.mem_cons_self⟩
  have hkey := headerLine_inj (hsound j hmem.1).1 (hsound p hmem.2).1 hr
  have hord := (Avl.AvlTree.ordered_iff_pairwise v.key v.tree).mp v.ordered
  rw [hps, List.pairwise_append] at hord
  exact absurd hkey (ne_of_lt (hord.2.2 j hj p List.mem_cons_self))

/-- **A shorter first buffer**: the last line is clipped, or a header that was written is
    written again in the place of the next one. -/
theorem short_twice (hv : headers.headerTree.Represents v) (hsound : SoundView headers v)
    (hcur : headers.traversePtr = headers.headerTree.root) {s₀ s₁ : Nat} (hpos : 0 < s₀)
    (h0 : s₀ ≤ (headerLines v.key headers.header v.tree.toList).length)
    (hfirst : ∀ p rs, v.tree.toList = p :: rs →
      (headerLine (v.key p) (headers.header p)).length ≤ s₀)
    (hsecond : ∀ p ∈ v.tree.toList, (headerLine (v.key p) (headers.header p)).length ≤ s₀ →
      (headerLine (v.key p) (headers.header p)).length < s₁) (t : List UInt8) :
    (httpHeaderToStr headers s₀).isEnd = false ∧
      ¬(httpHeaderToStr headers s₀).str ++
        (httpHeaderToStr (httpHeaderToStr headers s₀).headers s₁).str <+:
          headerLines v.key headers.header v.tree.toList ++ t := by
  have hstops := write_stops v.tree.toList ⟨[], s₀, headers.traversePtr⟩ hsound
    (by simpa using hpos) (by simpa using h0)
  have hlength := write_length_le v.tree.toList ⟨[], s₀, headers.traversePtr⟩ hsound
    (Int.natCast_nonneg s₀)
  rw [← accumulate_root hv hcur s₀] at hstops hlength
  cases hstops with
  | clipped qs p rs hps hsize hstr =>
    have hstays : ¬((headers.accumulate s₀).traversePtr = none ∧
        2 ≤ (headers.accumulate s₀).size) := by
      rw [hsize]
      simp
    rcases httpHeaderToStr_stay rfl hstays with ⟨hstr', hend, -⟩
    refine ⟨hend, ?_⟩
    rw [hstr', hstr, hps, List.nil_append]
    apply clipped_not_prefix
  | stopped qs p rs hps hsize hstr hptr =>
    have hmem : ∀ q ∈ qs, q ∈ v.tree.toList := by
      intro q hq
      rw [hps]
      exact List.mem_append_left _ hq
    rcases hptr with ⟨q, hq, hptr⟩ | ⟨rfl, -⟩
    · have hstays : ¬((headers.accumulate s₀).traversePtr = none ∧
          2 ≤ (headers.accumulate s₀).size) := by
        rw [hptr]
        simp
      rcases httpHeaderToStr_stay rfl hstays with ⟨hstr', hend, -, hptr'⟩
      refine ⟨hend, ?_⟩
      rcases httpHeaderToStr_represents hv s₀ with ⟨hrep, hheader, -⟩
      have hsound' : SoundView (httpHeaderToStr headers s₀).headers v := by
        unfold SoundView
        rw [hheader]
        exact hsound
      have hwritten : ∀ j ∈ qs, (headerLine (v.key j)
          ((httpHeaderToStr headers s₀).headers.header j)).length < s₁ := by
        intro j hj
        rw [hheader]
        apply hsecond j (hmem j hj)
        have hle := @headerLine_length_le v.key headers.header qs j hj
        rw [hstr, List.nil_append] at hlength
        simp only [List.length_nil] at hlength
        omega
      rcases httpHeaderToStr_again hrep hsound' hps hq (hptr'.trans hptr) hwritten with
        ⟨j, hj, hline⟩
      rw [hheader] at hline
      rw [hstr', hstr, List.nil_append]
      exact again_not_prefix hsound hps hj hline t
    · -- the first line is not longer than the buffer
      have hle := hfirst p rs hps
      simp only [List.nil_append, headerLines_cons, headerLines_nil, List.append_nil] at hsize
      omega

theorem not_delivers_short (hv : headers.headerTree.Represents v) (hsound : SoundView headers v)
    (hcur : headers.traversePtr = headers.headerTree.root)
    (hs : ∀ i, ∀ p ∈ v.tree.toList, (headerLine (v.key p) (headers.header p)).length < s i)
    (hpos : 0 < s 0) (h0 : s 0 ≤ (headerLines v.key headers.header v.tree.toList).length) :
    ¬ Delivers (toStrCall s) (headers, 0)
      (headerLines v.key headers.header v.tree.toList ++ [CR, LF]) := by
  have hfirst : ∀ p rs, v.tree.toList = p :: rs →
      (headerLine (v.key p) (headers.header p)).length ≤ s 0 := by
    intro p rs hps
    exact (hs 0 p (hps ▸ List.mem_cons_self)).le
  have hsecond : ∀ p ∈ v.tree.toList, (headerLine (v.key p) (headers.header p)).length ≤ s 0 →
      (headerLine (v.key p) (headers.header p)).length < s 1 := fun p hp _ => hs 1 p hp
  rcases short_twice hv hsound hcur hpos h0 hfirst hsecond [CR, LF] with ⟨hend, hpre⟩
  have hend' : (toStrCall s (headers, 0)).isEnd = false := hend
  intro hdel
  rcases (delivers_stay hend').mp hdel with ⟨out', hout, hdel'⟩
  apply hpre
  rw [hout]
  exact (List.prefix_append_right_inj _).mpr hdel'.begins

end Calls

/-! ## 3. Resumption -/

/-- The length of the longest of the lines. -/
def longestLine (headers : HttpHeaderCollection) (ps : List Ptr) : Nat :=
  ps.foldr (fun p n => max (headers.line p).length n) 0

theorem length_le_longestLine (headers : HttpHeaderCollection) {ps : List Ptr} {p : Ptr}
    (hp : p ∈ ps) : (headers.line p).length ≤ longestLine headers ps := by
  induction ps with
  | nil => exact absurd hp List.not_mem_nil
  | cons q ps ih =>
    rcases List.mem_cons.mp hp with rfl | hp
    · exact le_max_left ..
    · exact (ih hp).trans (le_max_right ..)

/-- A line has at least a separator and an end. -/
theorem four_le_line (headers : HttpHeaderCollection) (p : Ptr) : 4 ≤ (headers.line p).length := by
  simp only [HttpHeaderCollection.line, headerLine, List.length_append, List.length_cons,
    List.length_nil]
  have hsep : (bytes ": ").length = 2 := by decide
  omega

/-- **Resumption.**  One call with a large enough buffer writes every line, in the order
    of the field ids, and the blank line.  Calls with buffers that each hold the longest
    line lead to the same text only when the first buffer holds all of the lines. -/
theorem httpHeaderToStr_resumes (headers : HttpHeaderCollection) (ps : List Ptr)
    (hps : headers.Listed ps) (hsound : headers.Sound)
    (hcur : headers.traversePtr = headers.headerTree.root) (s : Nat → Nat)
    (hs : ∀ i, longestLine headers ps < s i) :
    (∀ size : Nat, (ps.flatMap headers.line).length + 2 ≤ size →
      (httpHeaderToStr headers size).str = ps.flatMap headers.line ++ [CR, LF] ∧
        (httpHeaderToStr headers size).isEnd = true) ∧
    (Delivers (toStrCall s) (headers, 0) (ps.flatMap headers.line ++ [CR, LF]) ↔
      (ps.flatMap headers.line).length < s 0 ∧ ∃ i, 2 ≤ s i) := by
  rcases headers.tree with ⟨v, hv⟩
  have hview := hsound.view hv
  have hlist := hps.eq_toList hv
  have htext := HttpHeaderCollection.flatMap_line hv ps
  have hfour : ps ≠ [] → ∀ i, 2 ≤ s i := by
    intro hne i
    rcases List.exists_mem_of_ne_nil ps hne with ⟨p, hp⟩
    have hline := four_le_line headers p
    have hle := length_le_longestLine headers hp
    have hlt := hs i
    omega
  rw [htext, hlist]
  constructor
  · intro size hsize
    obtain ⟨hstr, hend, -⟩ := httpHeaderToStr_fits hv hview hcur
      (by exact_mod_cast hsize : ((headerLines v.key headers.header v.tree.toList).length : Int) + 2 ≤ size)
    exact ⟨hstr, hend⟩
  by_cases h0 : (headerLines v.key headers.header v.tree.toList).length < s 0
  · rw [delivers_enough_iff hv hview hcur h0]
    constructor
    · rintro (hroom | ⟨j, -, hj⟩)
      · exact ⟨h0, 0, by omega⟩
      · exact ⟨h0, j, hj⟩
    · rintro ⟨-, i, hi⟩
      by_cases hne : ps = []
      · -- nothing but the blank line
        rw [← hlist, hne, headerLines_nil, List.length_nil]
        cases i with
        | zero => exact Or.inl hi
        | succ i => exact Or.inr ⟨i + 1, by omega, hi⟩
      · exact Or.inr ⟨1, le_rfl, hfour hne 1⟩
  · have hlines : ∀ i, ∀ p ∈ v.tree.toList,
        (headerLine (v.key p) (headers.header p)).length < s i := by
      intro i p hp
      have hle := length_le_longestLine headers (hlist ▸ hp)
      rw [HttpHeaderCollection.line, hv.key] at hle
      exact lt_of_le_of_lt hle (hs i)
    have hpos : 0 < s 0 := lt_of_le_of_lt (Nat.zero_le _) (hs 0)
    exact ⟨fun hdel => absurd hdel (not_delivers_short hv hview hcur hlines hpos
      (Nat.le_of_not_lt h0)), fun h => absurd h.1 h0⟩

/-- `Host: x`. -/
def hostHeader : HttpHeaderCollection :=
  (httpHeaderAddById httpHeaderInit 41 (bytes "x") (bytes "x").length).2

/-- `Connection: close`, added behind `Host: x`. -/
def hostConnection : HttpHeaderCollection :=
  (httpHeaderAddById hostHeader 19 (bytes "close") (bytes "close").length).2

theorem hostHeader_view : ∃ v, hostHeader.headerTree.Represents v ∧ SoundView hostHeader v ∧
    v.tree.toList = [0] ∧ ∃ v', hostConnection.headerTree.Represents v' ∧
      SoundView hostConnection v' ∧ v'.tree.toList = [1, 0] := by
  have hv : httpHeaderInit.headerTree.Represents (.empty fun _ => default) :=
    Btree.represents_init _
  have hsound : SoundView httpHeaderInit (.empty fun _ => default) :=
    fun p hp => absurd hp List.not_mem_nil
  have hx : peek (bytes "x") ≠ NUL := by decide
  have hclose : peek (bytes "close") ≠ NUL := by decide
  have hv₁ := (httpHeaderAddById_view hv 41 (bytes "x").length hx).2.1
  have hsound₁ := hsound.add hv (by decide : InTable 41) hx (by decide) (by decide)
  have hv₂ := (httpHeaderAddById_view hv₁ 19 (bytes "close").length hclose).2.1
  have hsound₂ := hsound₁.add hv₁ (by decide : InTable 19) hclose (by decide) (by decide)
  exact ⟨_, hv₁, hsound₁, rfl, _, hv₂, hsound₂, rfl⟩

/-- Two headers of 28 bytes together, in buffers of 29: the blank line has no room in the first
    one. -/
theorem httpHeaderToStr_resumes_close :
    Delivers (toStrCall fun _ => 29) (hostConnection, 0)
      (bytes "Connection: close\r\nHost: x\r\n\r\n") := by
  rcases hostHeader_view with ⟨-, -, -, -, v, hv, hsound, hlist⟩
  have hlisted := HttpHeaderCollection.listed_of_view hv
  rw [hlist] at hlisted
  have hiff := (httpHeaderToStr_resumes hostConnection [1, 0] hlisted
    (HttpHeaderCollection.sound_of_view hv hsound) rfl (fun _ => 29)
    (fun _ => by decide)).2
  exact hiff.mpr ⟨by decide, 0, by decide⟩

/-- The longer one has 19, and the buffers have 20. -/
theorem httpHeaderToStr_not_resumes :
    hostConnection.Listed [1, 0] ∧ hostConnection.Sound ∧
      hostConnection.traversePtr = hostConnection.headerTree.root ∧
      longestLine hostConnection [1, 0] < 20 ∧
      ¬ Delivers (toStrCall fun _ => 20) (hostConnection, 0)
        ([1, 0].flatMap hostConnection.line ++ [CR, LF]) := by
  rcases hostHeader_view with ⟨-, -, -, -, v, hv, hsound, hlist⟩
  have hlisted := HttpHeaderCollection.listed_of_view hv
  have hlong : longestLine hostConnection [1, 0] < 20 := by decide
  have hlen : 20 ≤ ([1, 0].flatMap hostConnection.line).length := by decide
  rw [hlist] at hlisted
  refine ⟨hlisted, HttpHeaderCollection.sound_of_view hv hsound, rfl, hlong, ?_⟩
  rw [HttpHeaderCollection.flatMap_line hv, ← hlist] at hlen ⊢
  refine not_delivers_short hv hsound rfl (fun _ p hp => ?_) (by decide) hlen
  have hle := length_le_longestLine hostConnection (hlist ▸ hp)
  rw [HttpHeaderCollection.line, hv.key] at hle
  exact lt_of_le_of_lt hle hlong

end OServer
