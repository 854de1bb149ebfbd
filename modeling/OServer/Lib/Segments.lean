/-
  OServer/Lib/Segments.lean
  =========================
  **Texts cut at a separator, and walks along the cuts.**

  `segments` cuts a text behind every separator; a separator stays with the segment
  it ends, and the last segment has none.  A walk takes the segments in turn, and
  each of them keeps it where it is, leads it one step up, or is entered.

    * `segments_flatten`, `segments_ends` — nothing is lost, and where the
                                            separators are;
    * `walk_sublist`, `walk_entered`      — what a walk has left was entered;
    * `walk_map`                          — segments may be replaced by what stands
                                            for them;
    * `afterLast_suffix`                  — what follows the last separator depends on
                                            no more of a text than what holds it.
-/
import Mathlib.Tactic.Common
import Mathlib.Data.List.TakeWhile

namespace Segments

variable {α σ τ : Type*}

/-! ## 1. Cutting -/

section Cut
variable [DecidableEq α]

/-- The segments of a text; there is always a last one, which may be empty. -/
def segments (sep : α) : List α → List (List α)
  | [] => [[]]
  | c :: t =>
      if c = sep then [c] :: segments sep t
      else (c :: (segments sep t).headD []) :: (segments sep t).tail

theorem segments_ne_nil (sep : α) (t : List α) : segments sep t ≠ [] := by
  cases t with
  | nil => exact List.cons_ne_nil _ _
  | cons c t =>
    unfold segments
    split <;> exact List.cons_ne_nil _ _

/-- A text without a separator is one segment. -/
theorem segments_last {sep : α} {w : List α} (hw : sep ∉ w) : segments sep w = [w] := by
  induction w with
  | nil => rfl
  | cons c w ih =>
    rw [List.mem_cons, not_or] at hw
    have hc : c ≠ sep := Ne.symm hw.1
    rw [segments, if_neg hc, ih hw.2]
    rfl

/-- The first separator ends the first segment. -/
theorem segments_cons {sep : α} {w : List α} (hw : sep ∉ w) (t : List α) :
    segments sep (w ++ sep :: t) = (w ++ [sep]) :: segments sep t := by
  induction w with
  | nil => rw [List.nil_append, segments, if_pos rfl]; rfl
  | cons c w ih =>
    rw [List.mem_cons, not_or] at hw
    have hc : c ≠ sep := Ne.symm hw.1
    rw [List.cons_append, segments, if_neg hc, ih hw.2]
    rfl

theorem segments_flatten (sep : α) (t : List α) : (segments sep t).flatten = t := by
  induction t with
  | nil => rfl
  | cons c t ih =>
    rw [segments]
    split
    · rw [List.flatten_cons, ih]
      rfl
    · cases hs : segments sep t with
      | nil => exact absurd hs (segments_ne_nil sep t)
      | cons w ws =>
        rw [hs] at ih
        rw [← ih]
        rfl

/-- Every segment but the last ends with its only separator; the last has none. -/
theorem segments_ends (sep : α) (t : List α) :
    ∃ (ws : List (List α)) (w : List α), segments sep t = ws.map (· ++ [sep]) ++ [w] ∧
      (∀ v ∈ ws, sep ∉ v) ∧ sep ∉ w := by
  induction t with
  | nil => exact ⟨[], [], rfl, fun v hv => (nomatch hv), List.not_mem_nil⟩
  | cons c t ih =>
    rcases ih with ⟨ws, w, hs, hws, hw⟩
    rw [segments, hs]
    by_cases hc : c = sep
    · refine ⟨[] :: ws, w, ?_, ?_, hw⟩
      · rw [if_pos hc, hc]
        rfl
      · intro v hv
        rcases List.mem_cons.mp hv with rfl | hv
        · exact List.not_mem_nil
        · exact hws v hv
    · rw [if_neg hc]
      have hcons : ∀ {v}, sep ∉ v → sep ∉ c :: v := fun hv =>
        List.not_mem_cons_of_ne_of_not_mem (Ne.symm hc) hv
      cases ws with
      | nil => exact ⟨[], c :: w, rfl, fun v hv => (nomatch hv), hcons hw⟩
      | cons v vs =>
        refine ⟨(c :: v) :: vs, w, rfl, ?_, hw⟩
        intro u hu
        rcases List.mem_cons.mp hu with rfl | hu
        · exact hcons (hws v List.mem_cons_self)
        · exact hws u (List.mem_cons_of_mem _ hu)

/-- Behind a separator, what has none is the last segment. -/
theorem segments_behind {sep : α} {u w : List α} (hu : u = [] ∨ u.getLast? = some sep)
    (hw : sep ∉ w) :
    ∃ ws, segments sep u = ws ++ [[]] ∧ segments sep (u ++ w) = ws ++ [w] := by
  induction u with
  | nil => exact ⟨[], rfl, segments_last hw⟩
  | cons c u ih =>
    have hlast : (c :: u).getLast? = some sep := hu.resolve_left (List.cons_ne_nil c u)
    have hu' : u = [] ∨ u.getLast? = some sep := by
      cases u with
      | nil => exact Or.inl rfl
      | cons d u => exact Or.inr (List.getLast?_cons_cons ▸ hlast)
    rcases ih hu' with ⟨ws, hsegs, hsegs'⟩
    rw [List.cons_append, segments, segments, hsegs, hsegs']
    by_cases hc : c = sep
    · exact ⟨[c] :: ws, by rw [if_pos hc]; rfl, by rw [if_pos hc]; rfl⟩
    · rw [if_neg hc, if_neg hc]
      cases ws with
      | nil =>
        -- nothing is left of `u`, so that `c` is the separator
        have hnil : u = [] := by
          rw [← segments_flatten sep u, hsegs]
          rfl
        rw [hnil] at hlast
        exact absurd (Option.some.inj hlast) hc
      | cons v ws => exact ⟨(c :: v) :: ws, rfl, rfl⟩

/-- A text is what its last separator ends, and a last segment. -/
theorem exists_behind (sep : α) (t : List α) :
    ∃ u w, t = u ++ w ∧ (u = [] ∨ u.getLast? = some sep) ∧ sep ∉ w := by
  induction t with
  | nil => exact ⟨[], [], rfl, Or.inl rfl, List.not_mem_nil⟩
  | cons c t ih =>
    rcases ih with ⟨u, w, rfl, hu, hw⟩
    cases u with
    | nil =>
      by_cases hc : c = sep
      · exact ⟨[c], w, rfl, Or.inr (congrArg some hc), hw⟩
      · exact ⟨[], c :: w, rfl, Or.inl rfl, List.not_mem_cons_of_ne_of_not_mem (Ne.symm hc) hw⟩
    | cons d u =>
      refine ⟨c :: d :: u, w, rfl, Or.inr ?_, hw⟩
      rw [List.getLast?_cons_cons]
      exact hu.resolve_left (List.cons_ne_nil d u)

end Cut

/-! ## 2. Walking -/

/-- What a segment asks for. -/
inductive Move where
  | stay
  | up
  | enter
deriving DecidableEq, Repr

/-- The entered segments after those of the list have been taken; `none` when there is
    nothing to go up from. -/
def walk (move : σ → Move) : List σ → List σ → Option (List σ)
  | stack, [] => some stack
  | stack, s :: ss =>
      match move s with
      | .stay => walk move stack ss
      | .up => if stack = [] then none else walk move stack.dropLast ss
      | .enter => walk move (stack ++ [s]) ss

@[simp] theorem walk_nil (move : σ → Move) (stack : List σ) : walk move stack [] = some stack := rfl

theorem walk_append (move : σ → Move) (stack ss ss' : List σ) :
    walk move stack (ss ++ ss') = (walk move stack ss).bind (walk move · ss') := by
  induction ss generalizing stack with
  | nil => rfl
  | cons s ss ih =>
    simp only [List.cons_append, walk]
    cases move s with
    | stay => exact ih stack
    | up =>
      by_cases hstack : stack = []
      · simp [hstack]
      · simpa [hstack] using ih _
    | enter => exact ih _

/-- The entered segments stand in the order in which they were taken. -/
theorem walk_sublist {move : σ → Move} {stack ss out : List σ}
    (h : walk move stack ss = some out) : List.Sublist out (stack ++ ss) := by
  induction ss generalizing stack with
  | nil =>
    obtain rfl := Option.some.inj h
    exact List.sublist_append_left stack []
  | cons s ss ih =>
    have hskip : List.Sublist (stack ++ ss) (stack ++ s :: ss) :=
      (List.sublist_cons_self s ss).append_left stack
    simp only [walk] at h
    cases hm : move s with
    | stay =>
      rw [hm] at h
      exact (ih h).trans hskip
    | up =>
      rw [hm] at h
      by_cases hstack : stack = []
      · simp [hstack] at h
      · simp only [hstack, if_false] at h
        exact (ih h).trans (((List.dropLast_sublist stack).append_right ss).trans hskip)
    | enter =>
      rw [hm] at h
      simpa using ih h

/-- Nothing that only moves is left by a walk. -/
theorem walk_entered {move : σ → Move} {stack ss out : List σ}
    (h : walk move stack ss = some out) (hstack : ∀ s ∈ stack, move s = .enter) :
    ∀ s ∈ out, move s = .enter := by
  induction ss generalizing stack with
  | nil => exact Option.some.inj h ▸ hstack
  | cons s ss ih =>
    simp only [walk] at h
    cases hm : move s with
    | stay =>
      rw [hm] at h
      exact ih h hstack
    | up =>
      rw [hm] at h
      by_cases hnil : stack = []
      · simp [hnil] at h
      · simp only [hnil, if_false] at h
        exact ih h fun u hu => hstack u (List.dropLast_subset stack hu)
    | enter =>
      rw [hm] at h
      refine ih h fun u hu => ?_
      rcases List.mem_append.mp hu with hu | hu
      · exact hstack u hu
      · exact List.mem_singleton.mp hu ▸ hm

/-- Segments may be replaced by what stands for them. -/
theorem walk_map (f : σ → τ) (move : τ → Move) (stack ss : List σ) :
    walk move (stack.map f) (ss.map f) = (walk (fun s => move (f s)) stack ss).map (List.map f) := by
  induction ss generalizing stack with
  | nil => rfl
  | cons s ss ih =>
    simp only [List.map_cons, walk]
    cases move (f s) with
    | stay => exact ih stack
    | up =>
      by_cases hstack : stack = []
      · simp [hstack]
      · have hmap : stack.map f ≠ [] := fun h => hstack (List.map_eq_nil_iff.mp h)
        simpa [hstack, hmap, List.map_dropLast] using ih stack.dropLast
    | enter => simpa using ih (stack ++ [s])

theorem walk_congr {move move' : σ → Move} {ss : List σ} (h : ∀ s ∈ ss, move s = move' s)
    (stack : List σ) : walk move stack ss = walk move' stack ss := by
  induction ss generalizing stack with
  | nil => rfl
  | cons s ss ih =>
    have htail : ∀ u ∈ ss, move u = move' u := fun u hu => h u (List.mem_cons_of_mem _ hu)
    simp only [walk, h s List.mem_cons_self]
    cases move' s with
    | stay => exact ih htail stack
    | up => exact ite_congr rfl (fun _ => rfl) fun _ => ih htail _
    | enter => exact ih htail _

/-! ## 3. Behind the last separator -/

section AfterLast
variable [DecidableEq α] {sep : α}

/-- What follows the last separator, or all of a text that has none. -/
def afterLast (sep : α) (t : List α) : List α := (t.reverse.takeWhile (· ≠ sep)).reverse

theorem afterLast_append {w : List α} (hw : sep ∉ w) (u : List α) :
    afterLast sep (u ++ sep :: w) = w := by
  have hall : ∀ c ∈ w.reverse, decide (c ≠ sep) = true := by
    intro c hc
    rw [List.mem_reverse] at hc
    exact decide_eq_true fun h => hw (h ▸ hc)
  rw [afterLast, List.reverse_append, List.reverse_cons, List.append_assoc,
    List.takeWhile_append_of_pos hall, List.singleton_append,
    List.takeWhile_cons_of_neg (by simp), List.append_nil, List.reverse_reverse]

theorem exists_afterLast {t : List α} (h : sep ∈ t) : ∃ u, t = u ++ sep :: afterLast sep t ∧
    sep ∉ afterLast sep t := by
  have hrev := List.mem_reverse.mpr h
  obtain ⟨w, u, hsplit, hw⟩ := List.eq_append_cons_of_mem hrev
  have ht : t = u.reverse ++ sep :: w.reverse := by
    rw [← List.reverse_reverse t, hsplit, List.reverse_append, List.reverse_cons,
      List.append_assoc, List.singleton_append]
  have hw' : sep ∉ w.reverse := mt List.mem_reverse.mp hw
  refine ⟨u.reverse, ?_, ?_⟩
  · rw [ht, afterLast_append hw']
  · rw [ht, afterLast_append hw']
    exact hw'

theorem afterLast_self {w : List α} (hw : sep ∉ w) : afterLast sep w = w := by
  have hall : ∀ c ∈ w.reverse, decide (c ≠ sep) = true := by
    intro c hc
    rw [List.mem_reverse] at hc
    exact decide_eq_true fun h => hw (h ▸ hc)
  rw [afterLast, List.takeWhile_eq_self_iff.mpr hall, List.reverse_reverse]

theorem afterLast_isSuffix (sep : α) (t : List α) : afterLast sep t <:+ t := by
  have hprefix : t.reverse.takeWhile (· ≠ sep) <+: t.reverse := List.takeWhile_prefix _
  rw [← List.reverse_suffix, List.reverse_reverse] at hprefix
  exact hprefix

/-- What stands in front of a part that holds a separator does not matter. -/
theorem afterLast_suffix {s t : List α} (h : s <:+ t) (hs : sep ∈ s) :
    afterLast sep t = afterLast sep s := by
  obtain ⟨v, rfl⟩ := h
  obtain ⟨u, hu, hw⟩ := exists_afterLast hs
  rw [hu, ← List.append_assoc, afterLast_append hw, afterLast_append hw]

end AfterLast

end Segments
