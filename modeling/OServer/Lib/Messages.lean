/-
  OServer/Lib/Messages.lean
  =========================
  **Streams of messages.**

  A message is what a resumable parser consumes as a whole.  A stream consists of messages
  and perhaps of bytes behind them that are none; what a prefix of the stream contains is
  decided by its length alone, and by the verdict on the prefix.
-/
import OServer.Lib.Resume

namespace Resume

variable {S B : Type*}

/-! ## 1. Messages -/

/-- A parser started in `s` finds a complete message, and nothing behind it. -/
def Message (parse : S → List B → Verdict S) (s : S) (m : List B) : Prop :=
  ∃ s', parse s m = .done s' m.length

/-- The parser does not find a complete message in these bytes: there are none, or it wants
    more of them, or it rejects them. -/
def Unfinished (parse : S → List B → Verdict S) (s : S) (p : List B) : Prop :=
  ∀ s' n, parse s p ≠ .done s' n

/-- How many of the messages are contained in the first `n` bytes of the stream. -/
def contained : List (List B) → Nat → Nat
  | [], _ => 0
  | m :: ms, n => if m.length ≤ n then contained ms (n - m.length) + 1 else 0

theorem contained_append (done rest : List (List B)) (n : Nat) :
    contained (done ++ rest) (done.flatten.length + n) = done.length + contained rest n := by
  induction done with
  | nil => simp
  | cons m done ih =>
    have hlen : (m :: done).flatten.length + n - m.length = done.flatten.length + n := by
      rw [List.flatten_cons, List.length_append]
      omega
    have hle : m.length ≤ (m :: done).flatten.length + n := by
      rw [List.flatten_cons, List.length_append]
      omega
    rw [List.cons_append, contained, if_pos hle, hlen, ih, List.length_cons]
    omega

theorem contained_mono (ms : List (List B)) {n k : Nat} (h : n ≤ k) :
    contained ms n ≤ contained ms k := by
  induction ms generalizing n k with
  | nil => exact Nat.le_refl _
  | cons m ms ih =>
    unfold contained
    split_ifs with hn hk
    · exact Nat.succ_le_succ (ih (Nat.sub_le_sub_right h _))
    · exact absurd (Nat.le_trans hn h) hk
    · exact Nat.zero_le _
    · exact Nat.le_refl _

/-! ## 2. Verdicts on a prefix -/

section Prefix
variable {parse : S → List B → Verdict S} {s s' : S} {ms : List (List B)} {tail p : List B} {n : Nat}
  (hdone : ∀ {p s' n}, parse s p = .done s' n → Splits parse s p)
include hdone

theorem parse_message {m : List B} (hm : Message parse s m) (q : List B) :
    ∃ s', parse s (m ++ q) = .done s' m.length := by
  rcases hm with ⟨s', hv⟩
  have happ := (hdone hv).append q
  rw [hv] at happ
  exact ⟨s', happ⟩

/-- So there is none at the start of these bytes either. -/
theorem Unfinished.of_start (h : Unfinished parse s p) {q : List B} (hq : q <+: p) :
    Unfinished parse s q := by
  rcases hq with ⟨r, rfl⟩
  intro s' n hv
  have happ := (hdone hv).append r
  rw [hv] at happ
  exact h s' n happ

/-- **A message that is found in a prefix is the first one of the stream.** -/
theorem first_message (hms : ∀ m ∈ ms, Message parse s m) (htail : Unfinished parse s tail)
    (hp : p <+: ms.flatten ++ tail) (hv : parse s p = .done s' n) :
    ∃ m ms', ms = m :: ms' ∧ n = m.length ∧ n ≤ p.length := by
  have hle : n ≤ p.length := by
    have hb := (hdone hv).bound
    rwa [hv] at hb
  have hext : ∀ q, parse s (p ++ q) = .done s' n := by
    intro q
    have happ := (hdone hv).append q
    rwa [hv] at happ
  cases ms with
  | nil =>
    rw [List.flatten_nil, List.nil_append] at hp
    exact absurd hv (htail.of_start hdone hp s' n)
  | cons m ms' =>
    have hm := hms m List.mem_cons_self
    refine ⟨m, ms', rfl, ?_, hle⟩
    rw [List.flatten_cons, List.append_assoc] at hp
    rcases List.prefix_or_prefix_of_prefix hp (List.prefix_append m _) with ⟨q, rfl⟩ | ⟨q, rfl⟩
    · rcases hm with ⟨s₂, hwhole⟩
      rw [hext] at hwhole
      cases hwhole
      rfl
    · rcases parse_message hdone hm q with ⟨s₂, hwhole⟩
      rw [hv] at hwhole
      cases hwhole
      rfl

/-- **No message is contained in a prefix for which the parser wants more.** -/
theorem contained_of_more (hms : ∀ m ∈ ms, Message parse s m) (hp : p <+: ms.flatten ++ tail)
    (hv : parse s p = .more s' n) : contained ms p.length = 0 := by
  cases ms with
  | nil => rfl
  | cons m ms' =>
    apply if_neg
    intro hle
    rw [List.flatten_cons, List.append_assoc] at hp
    rcases List.prefix_of_prefix_length_le (List.prefix_append m _) hp hle with ⟨q, rfl⟩
    rcases parse_message hdone (hms m List.mem_cons_self) q with ⟨s₂, hwhole⟩
    rw [hv] at hwhole
    cases hwhole

end Prefix

/-! ## 3. In the middle of a message -/

section Midway
variable {parse : S → List B → Verdict S} {s₀ s s' : S} {cur bs : List B} {k n : Nat}

/-- The parser started in `s₀`, is now in `s`, and has consumed `k` of the bytes `cur`. -/
structure Midway (parse : S → List B → Verdict S) (s₀ s : S) (cur : List B) (k : Nat) : Prop where
  bound : k ≤ cur.length
  go_on : ∀ q, parse s₀ (cur ++ q) = (parse s (cur.drop k ++ q)).shift k

theorem Midway.start (parse : S → List B → Verdict S) (s : S) (cur : List B) :
    Midway parse s s cur 0 where
  bound := Nat.zero_le _
  go_on q := by rw [List.drop_zero, Verdict.shift_zero]

theorem Midway.more (h : Midway parse s₀ s cur k) (hs : Splits parse s (cur.drop k ++ bs))
    (hv : parse s (cur.drop k ++ bs) = .more s' n) : Midway parse s₀ s' (cur ++ bs) (k + n) := by
  have hle : n ≤ (cur.drop k ++ bs).length := by
    have hb := hs.bound
    rwa [hv] at hb
  have hdrop : (cur ++ bs).drop (k + n) = (cur.drop k ++ bs).drop n := by
    rw [← List.drop_drop, List.drop_append_of_le_length h.bound]
  constructor
  · have hk := h.bound
    rw [List.length_append, List.length_drop] at hle
    rw [List.length_append]
    omega
  · intro q
    rw [List.append_assoc, h.go_on, ← List.append_assoc, hs.append q, hv, hdrop]
    exact Verdict.shift_shift n k _

end Midway

end Resume
