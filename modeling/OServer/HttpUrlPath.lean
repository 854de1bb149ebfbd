/-
  OServer/HttpUrlPath.lean
  ========================
  **The path of a target (`http_url_parse_path`).**

  The parser walks along the segments of the path.  What a segment asks for is decided
  by `strncmp` with the length of the segment, so that every non-empty prefix of `../`
  leads up (`segMove`); this includes the one-byte segment `.`, which a path can end
  with.
-/
import OServer.HttpUrl
import OServer.Lib.Segments
import Mathlib.Data.List.Infix

namespace OServer

open CString Segments

/-! ## 1. Segments in the array -/

/-- The bytes of a segment of the path. -/
def HttpUrlPathSeg.text (url : List UInt8) (s : HttpUrlPathSeg) : List UInt8 :=
  (url.drop s.data).take s.dataLen

/-- Where the segments are when the first one starts at `o`. -/
def place : Nat → List (List UInt8) → List HttpUrlPathSeg
  | _, [] => []
  | o, w :: ws => ⟨o, w.length⟩ :: place (o + w.length) ws

theorem place_text {url : List UInt8} {ws : List (List UInt8)} {o : Nat} {q : List UInt8}
    (h : url.drop o = ws.flatten ++ q) : (place o ws).map (·.text url) = ws := by
  induction ws generalizing o with
  | nil => rfl
  | cons w ws ih =>
    rw [List.flatten_cons, List.append_assoc] at h
    have hrest : url.drop (o + w.length) = ws.flatten ++ q := by
      rw [← List.drop_drop, h, List.drop_left]
    rw [place, List.map_cons, ih hrest]
    simp [HttpUrlPathSeg.text, h]

/-- The path ends before the first `?` or `#`. -/
def pathText (p : List UInt8) : List UInt8 :=
  p.takeWhile fun c => !decide (c = '?'.toUInt8 ∨ c = '#'.toUInt8)

@[simp] theorem pathText_nil : pathText [] = [] := rfl

theorem pathText_end {c : UInt8} (h : c = '?'.toUInt8 ∨ c = '#'.toUInt8) (p : List UInt8) :
    pathText (c :: p) = [] :=
  List.takeWhile_cons_of_neg (by simp only [h, decide_true, Bool.not_true, Bool.false_eq_true,
    not_false_eq_true])

theorem pathText_cons {c : UInt8} (h : ¬(c = '?'.toUInt8 ∨ c = '#'.toUInt8)) (p : List UInt8) :
    pathText (c :: p) = c :: pathText p :=
  List.takeWhile_cons_of_pos (by simp only [h, decide_false, Bool.not_false])

theorem pathText_take_le (p : List UInt8) (size : Nat) : (pathText (p.take size)).length ≤ size :=
  Nat.le_trans (List.takeWhile_prefix _).length_le (List.length_take_le size p)

/-! ## 2. One segment -/

/-- What the comparisons of `http_url_parse_path` make of a segment. -/
def segMove (w : List UInt8) : Move :=
  if w ≠ [] ∧ w.isPrefixOf (bytes "../") then .up
  else if w.isPrefixOf (bytes "./") then .stay
  else .enter

theorem strncmpEq_length {w : List UInt8} (hw : NUL ∉ w) (q pat : List UInt8) :
    strncmpEq (w ++ q) pat w.length = w.isPrefixOf pat := by
  induction w generalizing pat with
  | nil =>
    cases pat <;> rfl
  | cons c w ih =>
    rw [List.mem_cons, not_or] at hw
    have hc : c ≠ NUL := Ne.symm hw.1
    have hstep : strncmpEq (c :: w ++ q) pat (c :: w).length =
        (c == peek pat && (c == NUL || strncmpEq (w ++ q) pat.tail w.length)) := rfl
    rw [hstep, ih hw.2, beq_false_of_ne hc, Bool.false_or]
    cases pat with
    | nil =>
      have hpeek : (c == peek []) = false := beq_false_of_ne hc
      rw [hpeek]
      rfl
    | cons d pat => rfl

theorem pathSegment_walk {url w q : List UInt8} {base seg : Nat} (hw : NUL ∉ w)
    (hp : url.drop (base + seg) = w ++ q) (stack : List HttpUrlPathSeg) :
    pathSegment (url.drop base) base seg w.length stack =
      walk (fun s => segMove (s.text url)) stack [⟨base + seg, w.length⟩] := by
  have htext : HttpUrlPathSeg.text url ⟨base + seg, w.length⟩ = w := by
    simp [HttpUrlPathSeg.text, hp]
  have hlen : w.length ≠ 0 ↔ w ≠ [] := by simp
  simp only [pathSegment, List.drop_drop, hp, strncmpEq_length hw, walk, htext, segMove, hlen]
  by_cases hup : w ≠ [] ∧ w.isPrefixOf (bytes "../") = true
  · simp only [if_pos hup]
  · simp only [if_neg hup]
    cases hstay : w.isPrefixOf (bytes "./") <;> simp

/-! ## 3. The loop -/

theorem isPath_slash : isPath '/'.toUInt8 = true := rfl

theorem nul_not_mem_path {w : List UInt8} (hw : ∀ c ∈ w, isPath c = true) : NUL ∉ w :=
  fun h => absurd (hw NUL h) (by decide)

/-- The walk of a path at the offset `o`; `none` also when a byte is no path character. -/
def pathWalk (url : List UInt8) (o : Nat) (t : List UInt8) (stack : List HttpUrlPathSeg) :
    Option (List HttpUrlPathSeg) :=
  if t.all isPath then
    walk (fun s => segMove (s.text url)) stack (place o (segments '/'.toUInt8 t))
  else none

/-- A path that ends behind `w`. -/
theorem pathWalk_last {url w q : List UInt8} {base seg : Nat} (hw : ∀ c ∈ w, isPath c = true)
    (hslash : '/'.toUInt8 ∉ w) (hp : url.drop (base + seg) = w ++ q)
    (stack : List HttpUrlPathSeg) :
    pathWalk url (base + seg) w stack = pathSegment (url.drop base) base seg w.length stack := by
  rw [pathSegment_walk (nul_not_mem_path hw) hp, pathWalk, if_pos (List.all_eq_true.mpr hw),
    segments_last hslash]
  rfl

/-- The path up to its first `/` is a segment, and the walk goes on behind it. -/
theorem pathWalk_slash {url w t q : List UInt8} {base seg : Nat} (hw : ∀ c ∈ w, isPath c = true)
    (hslash : '/'.toUInt8 ∉ w) (hp : url.drop (base + seg) = w ++ '/'.toUInt8 :: q)
    (stack : List HttpUrlPathSeg) :
    pathWalk url (base + seg) (w ++ '/'.toUInt8 :: t) stack =
      (pathSegment (url.drop base) base seg (w.length + 1) stack).bind
        (pathWalk url (base + (seg + (w.length + 1))) t) := by
  have hw' : ∀ c ∈ w ++ ['/'.toUInt8], isPath c = true := by
    intro c hc
    rcases List.mem_append.mp hc with hc | hc
    · exact hw c hc
    · exact List.mem_singleton.mp hc ▸ isPath_slash
  have hp' : url.drop (base + seg) = (w ++ ['/'.toUInt8]) ++ q := by
    rw [hp, List.append_assoc]
    rfl
  have hseg := pathSegment_walk (nul_not_mem_path hw') hp' stack
  rw [List.length_append, List.length_singleton] at hseg
  have hall : (w ++ '/'.toUInt8 :: t).all isPath = t.all isPath := by
    simp only [List.all_append, List.all_eq_true.mpr hw, List.all_cons, isPath_slash, Bool.true_and]
  rw [hseg, pathWalk, hall]
  by_cases ht : t.all isPath = true
  · have hplace : place (base + seg) (segments '/'.toUInt8 (w ++ '/'.toUInt8 :: t)) =
        [⟨base + seg, w.length + 1⟩] ++
          place (base + (seg + (w.length + 1))) (segments '/'.toUInt8 t) := by
      rw [segments_cons hslash, place, List.length_append, Nat.add_assoc]
      rfl
    have hrest : pathWalk url (base + (seg + (w.length + 1))) t = fun stack =>
        walk (fun s => segMove (s.text url)) stack
          (place (base + (seg + (w.length + 1))) (segments '/'.toUInt8 t)) := by
      funext stack
      rw [pathWalk, if_pos ht]
    rw [if_pos ht, hplace, walk_append, hrest]
  · have hrest : pathWalk url (base + (seg + (w.length + 1))) t = fun _ => none := by
      funext stack
      rw [pathWalk, if_neg ht]
    rw [if_neg ht, hrest, Option.bind_fun_none]

/-- The loop with `w` behind it since the last `/`. -/
theorem pathLoop_walk {url w rest q : List UInt8} {base seg : Nat} (hw : ∀ c ∈ w, isPath c = true)
    (hslash : '/'.toUInt8 ∉ w) (hp : url.drop (base + seg) = w ++ rest ++ q)
    (stack : List HttpUrlPathSeg) :
    match pathWalk url (base + seg) (w ++ pathText rest) stack with
    | some stack' => pathLoop (url.drop base) base rest (seg + w.length) seg stack =
        (0, seg + w.length + (pathText rest).length, stack')
    | none => (pathLoop (url.drop base) base rest (seg + w.length) seg stack).1 = -1 := by
  induction rest generalizing w seg stack with
  | nil =>
    rw [List.append_assoc, List.nil_append] at hp
    rw [pathText_nil, List.append_nil, pathWalk_last hw hslash hp, pathLoop,
      Nat.add_sub_cancel_left]
    cases pathSegment (url.drop base) base seg w.length stack <;> rfl
  | cons c rest ih =>
    by_cases hterm : c = '?'.toUInt8 ∨ c = '#'.toUInt8
    · rw [List.append_assoc] at hp
      rw [pathText_end hterm, List.append_nil, pathWalk_last hw hslash hp, pathLoop, if_pos hterm,
        Nat.add_sub_cancel_left]
      cases pathSegment (url.drop base) base seg w.length stack <;> rfl
    rw [pathText_cons hterm, pathLoop, if_neg hterm]
    by_cases hc : c = '/'.toUInt8
    · subst hc
      rw [List.append_assoc, List.cons_append] at hp
      rw [if_pos rfl, Nat.add_sub_cancel_left, pathWalk_slash hw hslash hp]
      cases hseg : pathSegment (url.drop base) base seg (w.length + 1) stack with
      | none => rfl
      | some stack' =>
        have hrest : url.drop (base + (seg + (w.length + 1))) = [] ++ rest ++ q := by
          rw [← Nat.add_assoc, ← List.drop_drop, hp, ← List.drop_drop, List.drop_left]
          rfl
        have hnext := ih (fun c hc => absurd hc List.not_mem_nil) List.not_mem_nil hrest stack'
        rw [List.nil_append, List.length_nil, Nat.add_zero] at hnext
        have hpos : seg + w.length + 1 = seg + (w.length + 1) := rfl
        have hcount : seg + w.length + ('/'.toUInt8 :: pathText rest).length =
            seg + (w.length + 1) + (pathText rest).length := by
          rw [List.length_cons]
          omega
        rw [Option.bind_some, hcount, hpos]
        exact hnext
    rw [if_neg hc]
    by_cases hpath : isPath c = true
    · -- the byte joins the segment
      have hw' : ∀ d ∈ w ++ [c], isPath d = true := by
        intro d hd
        rcases List.mem_append.mp hd with hd | hd
        · exact hw d hd
        · exact List.mem_singleton.mp hd ▸ hpath
      have hslash' : '/'.toUInt8 ∉ w ++ [c] := by
        simp [hslash, Ne.symm hc]
      have hp' : url.drop (base + seg) = w ++ [c] ++ rest ++ q := by
        rw [hp, List.append_assoc w [c] rest]
        rfl
      have hnext := ih hw' hslash' hp' stack
      have hcount : seg + (w ++ [c]).length + (pathText rest).length =
          seg + w.length + (c :: pathText rest).length := by
        rw [List.length_append, List.length_singleton, List.length_cons]
        omega
      have hpos : seg + (w ++ [c]).length = seg + w.length + 1 := by
        rw [List.length_append, List.length_singleton, Nat.add_assoc]
      rw [hcount, hpos, List.append_assoc, List.singleton_append] at hnext
      simpa [hpath] using hnext
    · have hnone : pathWalk url (base + seg) (w ++ c :: pathText rest) stack = none := by
        rw [pathWalk, if_neg]
        simp [hpath]
      rw [hnone]
      simp [hpath]

/-- **`http_url_parse_path` walks along the segments of the path.** -/
theorem httpUrlParsePath_walk (url : List UInt8) (base size : Nat) (path : HttpUrlPathInfo) :
    match pathWalk url base (pathText ((url.drop base).take size)) path.pathStack with
    | some stack =>
        (httpUrlParsePath (url.drop base) base size path).ret = 0 ∧
          (httpUrlParsePath (url.drop base) base size path).parseLen =
            (pathText ((url.drop base).take size)).length ∧
          (httpUrlParsePath (url.drop base) base size path).val.pathStack = stack
    | none => (httpUrlParsePath (url.drop base) base size path).ret = -1 := by
  by_cases hsize : size = 0
  · subst hsize
    exact ⟨rfl, rfl, rfl⟩
  have hp : url.drop (base + 0) = [] ++ (url.drop base).take size ++ (url.drop base).drop size := by
    rw [List.nil_append, List.take_append_drop, Nat.add_zero]
  have hloop := pathLoop_walk (fun c hc => absurd hc List.not_mem_nil) List.not_mem_nil hp
    path.pathStack
  rw [List.nil_append, List.length_nil, Nat.add_zero, Nat.zero_add] at hloop
  simp only [httpUrlParsePath, if_neg hsize]
  cases hwalk : pathWalk url base (pathText ((url.drop base).take size)) path.pathStack with
  | none =>
    rw [hwalk] at hloop
    simp [hloop]
  | some stack =>
    rw [hwalk] at hloop
    simp [hloop]

theorem httpUrlParsePath_le {url : List UInt8} {base size : Nat} {path : HttpUrlPathInfo}
    (h : (httpUrlParsePath (url.drop base) base size path).ret = 0) :
    (httpUrlParsePath (url.drop base) base size path).parseLen ≤ size := by
  have hwalk := httpUrlParsePath_walk url base size path
  split at hwalk
  · rw [hwalk.2.1]
    exact pathText_take_le _ _
  · exact absurd (h.symm.trans hwalk) (by decide)

/-- The same walk along the bytes of the segments. -/
theorem pathWalk_text {url t q : List UInt8} {o : Nat} (h : url.drop o = t ++ q) :
    (pathWalk url o t []).map (List.map (·.text url)) =
      if t.all isPath then walk segMove [] (segments '/'.toUInt8 t) else none := by
  unfold pathWalk
  split
  · have hsegs : url.drop o = (segments '/'.toUInt8 t).flatten ++ q := by
      rw [segments_flatten, h]
    rw [← walk_map, place_text hsegs]
    rfl
  · rfl

/-- The text of the path stands at its offset. -/
theorem drop_pathText (url : List UInt8) (base size : Nat) :
    ∃ q, url.drop base = pathText ((url.drop base).take size) ++ q := by
  have htext : pathText ((url.drop base).take size) <+: url.drop base :=
    (List.takeWhile_prefix _).trans (List.take_prefix _ _)
  rcases htext with ⟨q, hq⟩
  exact ⟨q, hq.symm⟩

/-! ## 4. Dot segments -/

/-- What a segment asks for by its meaning. -/
def dotMove (w : List UInt8) : Move :=
  if w = [] ∨ w = bytes "." ∨ w = bytes "./" then .stay
  else if w = bytes ".." ∨ w = bytes "../" then .up
  else .enter

/-- The segments of a path without its dot segments; `none` for a path that goes up
    too far, or that has a byte which is no path character. -/
def removeDotSegments (t : List UInt8) : Option (List (List UInt8)) :=
  if t.all isPath then walk dotMove [] (segments '/'.toUInt8 t) else none

theorem isPrefixOf_up (w : List UInt8) : w.isPrefixOf (bytes "../") = true ↔
    w = [] ∨ w = bytes "." ∨ w = bytes ".." ∨ w = bytes "../" := by
  have hinits : (bytes "../").inits = [[], bytes ".", bytes "..", bytes "../"] := by decide
  rw [List.isPrefixOf_iff_prefix, ← List.mem_inits, hinits]
  simp

theorem isPrefixOf_here (w : List UInt8) : w.isPrefixOf (bytes "./") = true ↔
    w = [] ∨ w = bytes "." ∨ w = bytes "./" := by
  have hinits : (bytes "./").inits = [[], bytes ".", bytes "./"] := by decide
  rw [List.isPrefixOf_iff_prefix, ← List.mem_inits, hinits]
  simp

/-- The comparisons get every segment right but `.`, which they take for `..`. -/
theorem segMove_eq_dotMove {w : List UInt8} (hw : w ≠ bytes ".") : segMove w = dotMove w := by
  have hup : (w ≠ [] ∧ w.isPrefixOf (bytes "../") = true) ↔
      w = bytes ".." ∨ w = bytes "../" := by
    rw [isPrefixOf_up]
    constructor
    · rintro ⟨hne, hnil | hdot | h⟩
      · exact absurd hnil hne
      · exact absurd hdot hw
      · exact h
    · rintro (rfl | rfl)
      · exact ⟨by decide, Or.inr (Or.inr (Or.inl rfl))⟩
      · exact ⟨by decide, Or.inr (Or.inr (Or.inr rfl))⟩
  unfold segMove dotMove
  rw [if_congr hup rfl rfl, if_congr (isPrefixOf_here w) rfl rfl]
  by_cases hstay : w = [] ∨ w = bytes "." ∨ w = bytes "./"
  · have hnot : ¬(w = bytes ".." ∨ w = bytes "../") := by
      rcases hstay with rfl | rfl | rfl <;> decide
    rw [if_neg hnot, if_pos hstay, if_pos hstay]
  · rw [if_neg hstay, if_neg hstay]

theorem dot_not_slash : '/'.toUInt8 ∉ bytes "." := by decide

/-- Both walks are the same in front of the last segment. -/
theorem walk_behind {u w : List UInt8} (hu : u = [] ∨ u.getLast? = some '/'.toUInt8)
    (hw : '/'.toUInt8 ∉ w) :
    walk segMove [] (segments '/'.toUInt8 (u ++ w)) =
        (walk dotMove [] (segments '/'.toUInt8 u)).bind (walk segMove · [w]) ∧
      walk dotMove [] (segments '/'.toUInt8 (u ++ w)) =
        (walk dotMove [] (segments '/'.toUInt8 u)).bind (walk dotMove · [w]) := by
  rcases segments_behind hu hw with ⟨ws, hsegs, hsegs'⟩
  rcases segments_ends '/'.toUInt8 u with ⟨vs, v, hends, -, -⟩
  have hws : ws = vs.map (· ++ ['/'.toUInt8]) :=
    (List.append_inj' (hsegs.symm.trans hends) rfl).1
  -- a segment that contains a `/` is not `.`
  have hinit : walk segMove [] ws = walk dotMove [] ws := by
    refine walk_congr (fun v hv => segMove_eq_dotMove ?_) []
    rw [hws] at hv
    rcases List.mem_map.mp hv with ⟨v, -, rfl⟩
    intro h
    exact dot_not_slash (h ▸ List.mem_append_right v (List.mem_singleton_self _))
  have hfront : walk dotMove [] (segments '/'.toUInt8 u) = walk dotMove [] ws := by
    rw [hsegs, walk_append]
    cases walk dotMove [] ws <;> rfl
  rw [hfront, hsegs', walk_append, walk_append, hinit]
  exact ⟨rfl, rfl⟩

/-! ## 5. Normalization -/

/-- The path ends with the segment `.`, and what is in front of it is acceptable. -/
def EndsWithDot (t : List UInt8) : Prop :=
  ∃ u, t = u ++ bytes "." ∧ (u = [] ∨ u.getLast? = some '/'.toUInt8) ∧ removeDotSegments u ≠ none

/-- The parser refuses the path, or stops behind the text `t` and leaves the segments. -/
def PathLeaves (url t : List UInt8) (segs : Option (List (List UInt8)))
    (r : Parsed HttpUrlPathInfo) : Prop :=
  match segs with
  | none => r.ret = -1
  | some segs => r.ret = 0 ∧ r.parseLen = t.length ∧ r.val.pathStack.map (·.text url) = segs

theorem PathLeaves.unique {url t : List UInt8} {segs segs' : Option (List (List UInt8))}
    {r : Parsed HttpUrlPathInfo} (h : PathLeaves url t segs r) (h' : PathLeaves url t segs' r) :
    segs = segs' := by
  cases segs with
  | none =>
    cases segs' with
    | none => rfl
    | some segs' => cases Eq.trans (Eq.symm h) h'.1
  | some segs =>
    cases segs' with
    | none => cases Eq.trans (Eq.symm h.1) h'
    | some segs' => rw [← h.2.2, ← h'.2.2]

/-- The walk of the parser along the bytes of a path. -/
def pathSegments (t : List UInt8) : Option (List (List UInt8)) :=
  if t.all isPath then walk segMove [] (segments '/'.toUInt8 t) else none

/-- A path that does not end with the segment `.` is walked along as it should be. -/
theorem pathSegments_of_not_dot {t : List UInt8} (h : ¬EndsWithDot t) :
    pathSegments t = removeDotSegments t := by
  unfold pathSegments removeDotSegments
  by_cases hall : t.all isPath = true
  · rw [if_pos hall, if_pos hall]
    rcases exists_behind '/'.toUInt8 t with ⟨u, w, rfl, hu, hw⟩
    have hwalk := walk_behind hu hw
    rw [hwalk.1, hwalk.2]
    by_cases hdot : w = bytes "."
    · have hnone : removeDotSegments u = none := by
        by_contra hsome
        exact h ⟨u, by rw [hdot], hu, hsome⟩
      rw [List.all_append, Bool.and_eq_true] at hall
      rw [removeDotSegments, if_pos hall.1] at hnone
      rw [hnone]
      rfl
    · have hmove : ∀ v ∈ [w], segMove v = dotMove v := by
        intro v hv
        rw [List.mem_singleton.mp hv]
        exact segMove_eq_dotMove hdot
      exact congrArg _ (funext fun stack => walk_congr hmove stack)
  · rw [if_neg hall, if_neg hall]

/-- A path that ends with the segment `.` loses a segment, or is refused. -/
theorem pathSegments_of_dot {t : List UInt8} (h : EndsWithDot t) :
    pathSegments t ≠ removeDotSegments t := by
  rcases h with ⟨u, rfl, hu, hsome⟩
  have hwalk := walk_behind hu dot_not_slash
  have hall : u.all isPath = true := by
    by_contra hnot
    exact hsome (if_neg hnot)
  have hall' : (u ++ bytes ".").all isPath = true := by
    rw [List.all_append, hall]
    rfl
  rw [removeDotSegments, if_pos hall] at hsome
  rw [pathSegments, removeDotSegments, if_pos hall', if_pos hall', hwalk.1, hwalk.2]
  cases hstack : walk dotMove [] (segments '/'.toUInt8 u) with
  | none => exact absurd hstack hsome
  | some stack =>
    have hup : segMove (bytes ".") = .up := by decide
    have hstay : dotMove (bytes ".") = .stay := by decide
    simp only [Option.bind_some, walk, hup, hstay]
    intro h
    by_cases hnil : stack = []
    · rw [if_pos hnil] at h
      cases h
    · rw [if_neg hnil] at h
      have hlen := congrArg List.length (Option.some.inj h)
      rw [List.length_dropLast] at hlen
      have hpos := List.length_pos_iff.mpr hnil
      omega

theorem httpUrlParsePath_segments (url : List UInt8) (base size : Nat) (d : Option Nat) (n : Nat) :
    PathLeaves url (pathText ((url.drop base).take size))
      (pathSegments (pathText ((url.drop base).take size)))
      (httpUrlParsePath (url.drop base) base size ⟨[], d, n⟩) := by
  rcases drop_pathText url base size with ⟨q, hq⟩
  have hrun := httpUrlParsePath_walk url base size ⟨[], d, n⟩
  rw [pathSegments, ← pathWalk_text hq]
  cases hwalk : pathWalk url base (pathText ((url.drop base).take size)) [] with
  | none =>
    rw [hwalk] at hrun
    exact hrun
  | some stack =>
    rw [hwalk] at hrun
    exact ⟨hrun.1, hrun.2.1, congrArg _ hrun.2.2⟩

/-- **The parser removes the dot segments**, except for a last segment `.`, which it
    takes for `..`. -/
theorem httpUrlParsePath_normalizes (url : List UInt8) (base size : Nat) (d : Option Nat)
    (n : Nat) :
    PathLeaves url (pathText ((url.drop base).take size))
        (removeDotSegments (pathText ((url.drop base).take size)))
        (httpUrlParsePath (url.drop base) base size ⟨[], d, n⟩) ↔
      ¬EndsWithDot (pathText ((url.drop base).take size)) := by
  have hrun := httpUrlParsePath_segments url base size d n
  constructor
  · intro hnorm hdot
    exact pathSegments_of_dot hdot (hrun.unique hnorm)
  · intro hdot
    exact pathSegments_of_not_dot hdot ▸ hrun

/-- The path `a/.` names the directory `a/`, and the parser leaves nothing of it. -/
theorem httpUrlParsePath_not_normalizes :
    ¬PathLeaves (bytes "a/.") (pathText ((bytes "a/.").take 3))
      (removeDotSegments (pathText ((bytes "a/.").take 3)))
      (httpUrlParsePath (bytes "a/.") 0 3 ⟨[], none, 0⟩) := by
  have hspec : removeDotSegments (pathText ((bytes "a/.").take 3)) = some [bytes "a/"] := by decide
  rw [hspec]
  intro h
  exact absurd h.2.2 (by decide)

end OServer
