/-
  OServer/Lib/Tokens.lean
  =======================
  **Tokens of a table, in input that may not be complete.**

  A buffer begins with an entry of the table, or it is a proper start of one, or neither.
  `Classified` says that a parser tells these apart.  When no entry begins with another
  one, any of the three answers is right as soon as its own case is the one at hand.
-/
import Mathlib.Algebra.CharZero.Defs
import OServer.Lib.CString

namespace CString

variable {α L : Type} [AddMonoidWithOne L] {table : List (α × List UInt8)} {data : List UInt8} {v : α}

/-- No entry is empty, and none begins with another one. -/
structure PrefixFree (table : List (α × List UInt8)) : Prop where
  ne_nil : ∀ e ∈ table, e.2 ≠ []
  eq : ∀ e ∈ table, ∀ e' ∈ table, e.2 <+: e'.2 → e = e'

/-- The parser's result on a buffer, with the value `v` that was there before: a token and
    its length; success and no length for a buffer that more bytes can make a token of; and
    `-1` for any other. -/
structure Classified (table : List (α × List UInt8)) (data : List UInt8) (v : α)
    (r : Parsed α L) : Prop where
  token : ∀ x (k : L), r = ⟨0, k, x⟩ ∧ k ≠ 0 ↔ ∃ w, (x, w) ∈ table ∧ w <+: data ∧ k = w.length
  more : r = ⟨0, 0, v⟩ ↔ ∃ e ∈ table, data <+: e.2 ∧ data ≠ e.2
  reject : r.ret = -1 ↔ ∀ e ∈ table, ¬ e.2 <+: data ∧ ¬ data <+: e.2

/-- Words that have a different byte somewhere. -/
theorem not_prefix_of_differ (k p q : List UInt8) {c d : UInt8} (h : c ≠ d) :
    ¬ k ++ c :: p <+: k ++ d :: q := by
  intro hpre
  have hrest : c :: p <+: d :: q := (List.prefix_append_right_inj k).mp hpre
  exact h (List.cons_prefix_cons.mp hrest).1

/-- A buffer that begins with an entry is not the proper start of one. -/
theorem PrefixFree.not_unfinished (h : PrefixFree table) {e : α × List UInt8} (he : e ∈ table)
    (hpre : e.2 <+: data) : ¬ ∃ e' ∈ table, data <+: e'.2 ∧ data ≠ e'.2 := by
  rintro ⟨e', he', hpre', hne⟩
  obtain rfl := h.eq e he e' he' (hpre.trans hpre')
  exact hne (hpre'.eq_of_length (Nat.le_antisymm hpre'.length_le hpre.length_le))

section Rules
variable (h : PrefixFree table)
include h

theorem Classified.of_token [CharZero L] {x : α} {w : List UInt8} (hx : (x, w) ∈ table) (hw : w <+: data) :
    Classified table data v (⟨0, w.length, x⟩ : Parsed α L) where
  token := by
    intro x' k
    constructor
    · rintro ⟨heq, -⟩
      cases heq
      exact ⟨w, hx, hw, rfl⟩
    · rintro ⟨w', hx', hw', rfl⟩
      have heq : (x, w) = (x', w') := by
        rcases List.prefix_or_prefix_of_prefix hw hw' with hpre | hpre
        · exact h.eq _ hx _ hx' hpre
        · exact (h.eq _ hx' _ hx hpre).symm
      cases heq
      exact ⟨rfl, fun hlen => h.ne_nil _ hx (List.length_eq_zero_iff.mp (Nat.cast_eq_zero.mp hlen))⟩
  more := by
    refine iff_of_false ?_ (h.not_unfinished hx hw)
    intro heq
    have hlen : (w.length : L) = 0 := congrArg Parsed.parseLen heq
    exact h.ne_nil _ hx (List.length_eq_zero_iff.mp (Nat.cast_eq_zero.mp hlen))
  reject := by
    refine iff_of_false (by simp) ?_
    intro hall
    exact (hall _ hx).1 hw

theorem Classified.of_more {e : α × List UInt8} (he : e ∈ table) (hpre : data <+: e.2)
    (hne : data ≠ e.2) : Classified table data v (⟨0, 0, v⟩ : Parsed α L) where
  token := by
    intro x k
    refine iff_of_false ?_ ?_
    · rintro ⟨heq, hk⟩
      cases heq
      exact hk rfl
    · rintro ⟨w, hx, hw, -⟩
      exact h.not_unfinished hx hw ⟨e, he, hpre, hne⟩
  more := iff_of_true rfl ⟨e, he, hpre, hne⟩
  reject := by
    refine iff_of_false (by simp) ?_
    intro hall
    exact (hall e he).2 hpre

omit h in
theorem Classified.of_reject {k : L} {x : α}
    (hall : ∀ e ∈ table, ¬ e.2 <+: data ∧ ¬ data <+: e.2) :
    Classified table data v ⟨-1, k, x⟩ where
  token := by
    intro x' k'
    refine iff_of_false ?_ ?_
    · rintro ⟨heq, -⟩
      cases heq
    · rintro ⟨w, hx, hw, -⟩
      exact (hall _ hx).1 hw
  more := by
    refine iff_of_false (by simp) ?_
    rintro ⟨e, he, hpre, -⟩
    exact (hall e he).2 hpre
  reject := iff_of_true rfl hall

end Rules

end CString
