/-
  OServer/Lib/Pieces.lean
  =======================
  **Producers that are called until they say that they are finished.**

  One call gives a piece of the output, says whether it was the last one, and leaves
  the state for the next call.  `Delivers` relates a state to the whole output; it
  says that the calls end.
-/
import Mathlib.Tactic.Common

namespace Pieces

variable {S B : Type*}

/-- The answer of one call. -/
structure Piece (S B : Type*) where
  out : List B
  isEnd : Bool
  next : S

/-- The output of at most `n` calls, when one of them is the last. -/
def collect (call : S → Piece S B) : Nat → S → Option (List B)
  | 0, _ => none
  | n + 1, s =>
      if (call s).isEnd then some (call s).out
      else (collect call n (call s).next).map ((call s).out ++ ·)

/-- Calling until the end takes finitely many calls, which give `out`. -/
def Delivers (call : S → Piece S B) (s : S) (out : List B) : Prop :=
  ∃ n, collect call n s = some out

section Delivers
variable {call : S → Piece S B} {s : S} {out : List B}

theorem delivers_end (h : (call s).isEnd = true) : Delivers call s out ↔ out = (call s).out := by
  constructor
  · rintro ⟨n, hn⟩
    cases n with
    | zero => cases hn
    | succ n =>
      rw [collect, if_pos h] at hn
      exact (Option.some.inj hn).symm
  · rintro rfl
    exact ⟨1, if_pos h⟩

theorem delivers_stay (h : (call s).isEnd = false) :
    Delivers call s out ↔ ∃ out', out = (call s).out ++ out' ∧ Delivers call (call s).next out' := by
  have hstep : ∀ n, collect call (n + 1) s =
      (collect call n (call s).next).map ((call s).out ++ ·) := by
    intro n
    rw [collect, h]
    rfl
  constructor
  · rintro ⟨n, hn⟩
    cases n with
    | zero => cases hn
    | succ n =>
      rw [hstep] at hn
      rcases Option.map_eq_some_iff.mp hn with ⟨out', hout', rfl⟩
      exact ⟨out', rfl, n, hout'⟩
  · rintro ⟨out', rfl, n, hn⟩
    refine ⟨n + 1, ?_⟩
    rw [hstep, hn]
    rfl

/-- What is delivered begins with the first piece. -/
theorem Delivers.begins (h : Delivers call s out) : (call s).out <+: out := by
  by_cases hend : (call s).isEnd = true
  · exact ⟨[], (List.append_nil _).trans ((delivers_end hend).mp h).symm⟩
  · rw [Bool.not_eq_true] at hend
    rcases (delivers_stay hend).mp h with ⟨out', rfl, -⟩
    exact List.prefix_append ..

/-- What is delivered is determined by the state. -/
theorem Delivers.unique {out' : List B} (h : Delivers call s out) (h' : Delivers call s out') :
    out = out' := by
  rcases h with ⟨n, hn⟩
  induction n generalizing s out out' with
  | zero => cases hn
  | succ n ih =>
    cases hend : (call s).isEnd with
    | true =>
      have hout := (delivers_end hend).mp ⟨n + 1, hn⟩
      have hout' := (delivers_end hend).mp h'
      exact hout.trans hout'.symm
    | false =>
      rw [collect, hend] at hn
      rcases Option.map_eq_some_iff.mp hn with ⟨rest, hrest, rfl⟩
      rcases (delivers_stay hend).mp h' with ⟨rest', rfl, hrest'⟩
      have heq := ih hrest' hrest
      rw [heq]

theorem Delivers.iff {out' : List B} (h : Delivers call s out) :
    Delivers call s out' ↔ out' = out := by
  constructor
  · intro h'
    exact h'.unique h
  · rintro rfl
    exact h

end Delivers

end Pieces
