/-
  OServer/Lib/Resume.lean
  =======================
  **Parsers that are called again with more input.**

  A call gets a state and the bytes that are not consumed yet.  It rejects them,
  finishes, or asks for more; in the last two cases it says how many bytes it has
  consumed.  The caller keeps the rest and appends the next chunk.

  Such a parser may be cut at a buffer (`Splits`) when its answer on any extension
  is its answer on the rest, continued.  A parser built from tokens inherits this
  from its tokens (`Splits.token`), and where every cut of a stream is such a buffer,
  feeding the chunks is the same as one call on the whole stream
  (`feed_eq_parse`).  A cut at which the parser claims too much loses the stream
  (`feed_eq_none`).  A call that finishes may be `Isolated` from what follows.
-/
import Mathlib.Tactic.Common

namespace Resume

variable {S B : Type*}

/-! ## 1. Verdicts -/

/-- The answer of one call: the next state, and the number of bytes consumed. -/
inductive Verdict (S : Type*) where
  | more (s : S) (n : Nat)
  | done (s : S) (n : Nat)
  | reject (s : S)
deriving DecidableEq, Repr

/-- `k` bytes were consumed before. -/
def Verdict.shift (k : Nat) : Verdict S → Verdict S
  | more s n => more s (k + n)
  | done s n => done s (k + n)
  | reject s => reject s

/-- Go on after `more`. -/
def Verdict.bind (v : Verdict S) (f : S → Nat → Verdict S) : Verdict S :=
  match v with
  | more s n => f s n
  | done s n => done s n
  | reject s => reject s

/-- How much a call has consumed; a rejected buffer is of no further interest. -/
def Verdict.consumed : Verdict S → Nat
  | more _ n => n
  | done _ n => n
  | reject _ => 0

@[simp] theorem Verdict.shift_zero (v : Verdict S) : v.shift 0 = v := by
  cases v <;> simp [shift]

@[simp] theorem Verdict.shift_shift (j k : Nat) (v : Verdict S) :
    (v.shift j).shift k = v.shift (k + j) := by
  cases v <;> simp [shift, Nat.add_assoc]

theorem Verdict.bind_shift (k : Nat) (v : Verdict S) (f : S → Nat → Verdict S) :
    (v.bind fun s n => (f s (k + n)).shift n).shift k =
      (v.shift k).bind fun s n => (f s n).shift n := by
  cases v with
  | more s n => exact Verdict.shift_shift n k _
  | done s n => rfl
  | reject s => rfl

/-! ## 2. Cutting a buffer -/

theorem Verdict.consumed_shift_le {k m : Nat} {v : Verdict S} (h : v.consumed ≤ m) :
    (v.shift k).consumed ≤ k + m := by
  cases v with
  | more s n => exact Nat.add_le_add_left h k
  | done s n => exact Nat.add_le_add_left h k
  | reject s => exact Nat.zero_le _

/-- A call on `p` followed by calls with more input is one call. -/
structure Splits (parse : S → List B → Verdict S) (s : S) (p : List B) : Prop where
  bound : (parse s p).consumed ≤ p.length
  append : ∀ q, parse s (p ++ q) =
    (parse s p).bind fun s' n => (parse s' (p.drop n ++ q)).shift n

section Token
variable {parse : S → List B → Verdict S} {s : S} {p : List B}

/-- A call that only asks for more. -/
theorem Splits.more (h : parse s p = .more s 0) : Splits parse s p where
  bound := by
    rw [h]
    exact Nat.zero_le _
  append q := by simp [h, Verdict.bind]

/-- A call that rejects whatever follows. -/
theorem Splits.reject (s' : S) (h : ∀ q, parse s (p ++ q) = .reject s') : Splits parse s p := by
  have h₀ := h []
  rw [List.append_nil] at h₀
  constructor
  · rw [h₀]
    exact Nat.zero_le _
  · intro q
    rw [h, h₀, Verdict.bind]

/-- A call that finishes whatever follows. -/
theorem Splits.done (s' : S) (n : Nat) (hn : n ≤ p.length)
    (h : ∀ q, parse s (p ++ q) = .done s' n) : Splits parse s p := by
  have h₀ := h []
  rw [List.append_nil] at h₀
  constructor
  · rw [h₀]
    exact hn
  · intro q
    rw [h, h₀, Verdict.bind]

/-- A call that takes a token of `n` bytes and goes on behind it. -/
theorem Splits.token (s' : S) (n : Nat) (hn : n ≤ p.length)
    (h : ∀ q, parse s (p ++ q) = (parse s' (p.drop n ++ q)).shift n)
    (hs : Splits parse s' (p.drop n)) : Splits parse s p := by
  have h₀ := h []
  rw [List.append_nil, List.append_nil] at h₀
  constructor
  · rw [h₀]
    have hb := Verdict.consumed_shift_le (k := n) hs.bound
    rwa [List.length_drop, Nat.add_sub_cancel' hn] at hb
  · intro q
    rw [h, h₀, hs.append q]
    simp only [List.drop_drop]
    exact Verdict.bind_shift n _ fun s₂ m => parse s₂ (p.drop m ++ q)

end Token

/-! ## 3. Feeding chunks -/

/-- Call the parser with one chunk after the other, each appended to what is left,
    until it finishes.  A parser that claims to have consumed more than it was given
    leaves nothing that the next chunk could be appended to: `none`. -/
def feed (parse : S → List B → Verdict S) :
    S → List B → Nat → List (List B) → Option (Verdict S)
  | s, _, k, [] => some (.more s k)
  | s, left, k, c :: cs =>
    match parse s (left ++ c) with
    | .more s' n =>
        if cs = [] ∨ n ≤ (left ++ c).length then
          feed parse s' ((left ++ c).drop n) (k + n) cs
        else none
    | v => some (v.shift k)

theorem feed_single (parse : S → List B → Verdict S) (s : S) (left c : List B) (k : Nat) :
    feed parse s left k [c] = some ((parse s (left ++ c)).shift k) := by
  cases hv : parse s (left ++ c) <;> simp [feed, hv, Verdict.shift]

/-- `Good` buffers may be cut, also what is left of them later. -/
structure Cuttable (parse : S → List B → Verdict S) (Good : S → List B → Prop) : Prop where
  splits : ∀ {s p}, Good s p → Splits parse s p
  left : ∀ {s p s' n q}, Good s p → parse s p = .more s' n → Good s (p ++ q) →
    Good s' (p.drop n ++ q)

/-- The buffers that a feeding of `cs` has been given before its last chunk. -/
def Cuts (cs : List (List B)) (left p : List B) : Prop :=
  ∃ cs₁ cs₂, cs = cs₁ ++ cs₂ ∧ cs₁ ≠ [] ∧ cs₂ ≠ [] ∧ p = left ++ cs₁.flatten

/-- **Feeding a stream whose cuts are good is one call on the whole stream.** -/
theorem feed_eq_parse {parse : S → List B → Verdict S} {Good : S → List B → Prop}
    (h : Cuttable parse Good) (cs : List (List B)) : ∀ (s : S) (left : List B) (k : Nat),
      cs ≠ [] → (∀ p, Cuts cs left p → Good s p) →
      feed parse s left k cs = some ((parse s (left ++ cs.flatten)).shift k) := by
  induction cs with
  | nil => exact fun _ _ _ hne => absurd rfl hne
  | cons c cs ih =>
    intro s left k _ hcuts
    by_cases hcs : cs = []
    · subst hcs
      simp [feed_single]
    have hc : Good s (left ++ c) :=
      hcuts _ ⟨[c], cs, rfl, by simp, hcs, by simp⟩
    have hsplit := h.splits hc
    rw [List.flatten_cons, ← List.append_assoc, hsplit.append]
    cases hv : parse s (left ++ c) with
    | more s' n =>
      have hn : n ≤ (left ++ c).length := by
        have hb := hsplit.bound
        rwa [hv] at hb
      have hrec := ih s' ((left ++ c).drop n) (k + n) hcs (by
        rintro p ⟨cs₁, cs₂, rfl, h₁, h₂, rfl⟩
        exact h.left hc hv (hcuts _ ⟨c :: cs₁, cs₂, rfl, by simp, h₂, by simp⟩))
      simp only [feed, hv, Verdict.bind, Verdict.shift_shift]
      rw [if_pos (Or.inr hn), hrec]
    | done s' n => simp [feed, hv, Verdict.bind, Verdict.shift]
    | reject s' => simp [feed, hv, Verdict.bind, Verdict.shift]

/-! ## 4. Claims beyond the buffer -/

section Overrun
variable {parse : S → List B → Verdict S} {s s' : S} {p : List B} {n : Nat}

/-- A call asks for more and claims bytes that it was not given. -/
def Overruns (parse : S → List B → Verdict S) (s : S) (p : List B) : Prop :=
  ∃ s' n, parse s p = .more s' n ∧ p.length < n

theorem Splits.not_overruns (h : Splits parse s p) : ¬ Overruns parse s p := by
  rintro ⟨s', n, hv, hn⟩
  have hb := h.bound
  rw [hv] at hb
  exact absurd hn (Nat.not_lt_of_le hb)

/-- An overrun is one for the rest of the buffer as for the whole of it. -/
theorem Splits.overruns_left (h : Splits parse s p) (hv : parse s p = .more s' n) (q : List B) :
    Overruns parse s' (p.drop n ++ q) ↔ Overruns parse s (p ++ q) := by
  have hn : n ≤ p.length := by
    have hb := h.bound
    rwa [hv] at hb
  have happ : parse s (p ++ q) = (parse s' (p.drop n ++ q)).shift n := by
    rw [h.append q, hv]
    rfl
  unfold Overruns
  rw [happ]
  cases parse s' (p.drop n ++ q) with
  | more s₂ m =>
    simp only [Verdict.shift, Verdict.more.injEq, List.length_append, List.length_drop]
    constructor
    · rintro ⟨_, _, ⟨rfl, rfl⟩, h⟩
      exact ⟨_, _, ⟨rfl, rfl⟩, by omega⟩
    · rintro ⟨_, _, ⟨rfl, rfl⟩, h⟩
      exact ⟨_, _, ⟨rfl, rfl⟩, by omega⟩
  | done s₂ m => simp [Verdict.shift]
  | reject s₂ => simp [Verdict.shift]

theorem Splits.overruns_more {q : List B} (h : Splits parse s p)
    (hq : Overruns parse s (p ++ q)) : ∃ s' n, parse s p = .more s' n := by
  rcases hq with ⟨s₂, m, hv, -⟩
  rw [h.append q] at hv
  cases hp : parse s p with
  | more s' n => exact ⟨s', n, rfl⟩
  | done s' n =>
    rw [hp] at hv
    cases hv
  | reject s' =>
    rw [hp] at hv
    cases hv

end Overrun

/-- **A stream with an overrun at one of its cuts, and no other bad cut, is lost.** -/
theorem feed_eq_none {parse : S → List B → Verdict S} {Good : S → List B → Prop}
    (h : Cuttable parse Good) (cs : List (List B)) : ∀ (s : S) (left : List B) (k : Nat),
      (∀ p, Cuts cs left p → Good s p ∨ Overruns parse s p) →
      (∃ p, Cuts cs left p ∧ Overruns parse s p) → feed parse s left k cs = none := by
  induction cs with
  | nil =>
    rintro s left k - ⟨p, ⟨cs₁, cs₂, hcs, h₁, -⟩, -⟩
    exact absurd (List.append_eq_nil_iff.mp hcs.symm).1 h₁
  | cons c cs ih =>
    rintro s left k hcuts ⟨p, ⟨cs₁, cs₂, hcs, h₁, h₂, rfl⟩, hover⟩
    obtain ⟨cs₁, rfl⟩ : ∃ cs₁', cs₁ = c :: cs₁' := by
      cases cs₁ with
      | nil => exact absurd rfl h₁
      | cons d cs₁ => exact ⟨cs₁, by rw [List.cons_append] at hcs; rw [(List.cons.inj hcs).1]⟩
    obtain rfl : cs = cs₁ ++ cs₂ := (List.cons.inj hcs).2
    have hne : cs₁ ++ cs₂ ≠ [] := fun h => h₂ (List.append_eq_nil_iff.mp h).2
    rw [List.flatten_cons, ← List.append_assoc] at hover
    rcases hcuts (left ++ c) ⟨[c], cs₁ ++ cs₂, rfl, by simp, hne, by simp⟩ with hgood | hfirst
    · have hsplit := h.splits hgood
      rcases hsplit.overruns_more hover with ⟨s', n, hv⟩
      have hn : n ≤ (left ++ c).length := by
        have hb := hsplit.bound
        rwa [hv] at hb
      simp only [feed, hv]
      rw [if_pos (Or.inr hn)]
      refine ih s' _ (k + n) ?_ ⟨_, ⟨cs₁, cs₂, rfl, ?_, h₂, rfl⟩,
        (hsplit.overruns_left hv cs₁.flatten).mpr hover⟩
      · rintro p ⟨ds₁, ds₂, hds, hd₁, hd₂, rfl⟩
        have hcut := hcuts (left ++ c ++ ds₁.flatten)
          ⟨c :: ds₁, ds₂, by rw [hds]; rfl, by simp, hd₂, by simp⟩
        exact hcut.imp (h.left hgood hv) (hsplit.overruns_left hv _).mpr
      · -- the first cut is a good one
        rintro rfl
        rw [List.flatten_nil, List.append_nil] at hover
        exact hsplit.not_overruns hover
    · rcases hfirst with ⟨s', n, hv, hn⟩
      simp only [feed, hv]
      rw [if_neg (by simp only [not_or]; exact ⟨hne, Nat.not_le_of_lt hn⟩)]

/-! ## 5. What follows a finished call -/

/-- The bytes that a finished call has consumed decide it: others may follow. -/
def Isolated (parse : S → List B → Verdict S) (s : S) (p : List B) : Prop :=
  ∀ s' n, parse s p = .done s' n → n ≤ p.length ∧ ∀ q, parse s (p.take n ++ q) = .done s' n

section Isolated
variable {parse : S → List B → Verdict S} {s s' : S} {p w r : List B}

/-- A call that does not finish. -/
theorem Isolated.unfinished (h : ∀ s' n, parse s p ≠ .done s' n) : Isolated parse s p :=
  fun s' n hdone => absurd hdone (h s' n)

theorem Isolated.more {n : Nat} (h : parse s p = .more s' n) : Isolated parse s p := by
  apply Isolated.unfinished
  intro s₁ m hdone
  rw [h] at hdone
  cases hdone

theorem Isolated.reject (h : parse s p = .reject s') : Isolated parse s p := by
  apply Isolated.unfinished
  intro s₁ m hdone
  rw [h] at hdone
  cases hdone

/-- A call that finishes behind `w`, whatever follows. -/
theorem Isolated.done (h : ∀ t, parse s (w ++ t) = .done s' w.length) :
    Isolated parse s (w ++ r) := by
  intro s₁ n hdone
  rw [h r] at hdone
  cases hdone
  refine ⟨by simp, ?_⟩
  intro q
  rw [List.take_left]
  exact h q

/-- A call that takes the token `w` and goes on behind it, if there are bytes behind it. -/
theorem Isolated.token (h : ∀ t, t ≠ [] → parse s (w ++ t) = (parse s' t).shift w.length)
    (h₀ : ∀ s₁ n, parse s' [] ≠ .done s₁ n) (hr : r ≠ []) (hs : Isolated parse s' r) :
    Isolated parse s (w ++ r) := by
  intro s₁ n hdone
  rw [h r hr] at hdone
  cases hv : parse s' r with
  | more s₂ m =>
    rw [hv] at hdone
    cases hdone
  | reject s₂ =>
    rw [hv] at hdone
    cases hdone
  | done s₂ m =>
    rw [hv] at hdone
    cases hdone
    obtain ⟨hm, hrest⟩ := hs s₁ m hv
    have htake : (w ++ r).take (w.length + m) = w ++ r.take m := List.take_length_add_append m
    refine ⟨by simpa using hm, ?_⟩
    intro q
    have hne : r.take m ++ q ≠ [] := by
      intro hnil
      have hq := hrest q
      rw [hnil] at hq
      exact h₀ s₁ m hq
    rw [htake, List.append_assoc, h _ hne, hrest q]
    rfl

end Isolated

end Resume
