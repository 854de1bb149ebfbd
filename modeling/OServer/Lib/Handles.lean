/-
  OServer/Lib/Handles.lean
  ========================
  **Handles that are acquired and released.**

  A program is given handles and gives them back.  It is at fault when it gives back a
  handle that it does not hold, or is given one that it still holds; a handle that it
  holds in the end has leaked.

    * `heldAfter`        — the handles held after some operations, unless one is at fault;
    * `OneSlot`          — the operations of a program that keeps the only handle it holds
                           in a slot, from one content of the slot to another;
    * `OneSlot.held`     — they are not at fault, and what is held is in the slot;
    * `OneSlot.paired`   — if the slot is empty in the end, what is acquired is released by
                           the next operation, and nothing else is released;
    * `Numbered`         — handles that several holders have, under numbers that are used
                           again.
-/
import Mathlib.Data.Finset.Option
import Mathlib.Data.Finset.Insert

namespace Handles

variable {α : Type*}

/-! ## 1. Operations on a set of handles -/

inductive Op (α : Type*) where
  | acquire (h : α)
  | release (h : α)
deriving DecidableEq, Repr

section Held
variable [DecidableEq α]

/-- `none` where an operation is at fault. -/
def Op.apply (s : Finset α) : Op α → Option (Finset α)
  | .acquire h => if h ∈ s then none else some (insert h s)
  | .release h => if h ∈ s then some (s.erase h) else none

/-- The handles that are held when the operations begin with those of `s`. -/
def heldAfter : Finset α → List (Op α) → Option (Finset α)
  | s, [] => some s
  | s, op :: ops => (op.apply s).bind fun s => heldAfter s ops

theorem heldAfter_append {s s' : Finset α} {ops ops' : List (Op α)}
    (h : heldAfter s ops = some s') : heldAfter s (ops ++ ops') = heldAfter s' ops' := by
  induction ops generalizing s with
  | nil =>
    obtain rfl := Option.some.inj h
    rfl
  | cons op ops ih =>
    obtain ⟨s₁, hop, hrest⟩ := Option.bind_eq_some_iff.mp h
    rw [List.cons_append, heldAfter, hop]
    exact ih hrest

end Held

/-- What is acquired is released by the operation behind it, and what is released was acquired by
    the operation before it. -/
structure Paired (ops : List (Op α)) : Prop where
  released : ∀ before h behind, ops = before ++ .acquire h :: behind →
    ∃ rest, behind = .release h :: rest
  acquired : ∀ before h behind, ops = before ++ .release h :: behind →
    ∃ rest, before = rest ++ [.acquire h]

/-! ## 2. A program with one slot -/

/-- From one content of the slot to another: a handle is acquired while the slot is empty, and
    the one in the slot is released. -/
inductive OneSlot : Option α → List (Op α) → Option α → Prop where
  | nil (slot : Option α) : OneSlot slot [] slot
  | acquire {h : α} {ops : List (Op α)} {slot : Option α} (rest : OneSlot (some h) ops slot) :
      OneSlot none (.acquire h :: ops) slot
  | release {h : α} {ops : List (Op α)} {slot : Option α} (rest : OneSlot none ops slot) :
      OneSlot (some h) (.release h :: ops) slot

namespace OneSlot

variable {a b c : Option α} {ops ops' : List (Op α)}

theorem append (h : OneSlot a ops b) (h' : OneSlot b ops' c) : OneSlot a (ops ++ ops') c := by
  induction h with
  | nil slot => exact h'
  | acquire _ ih => exact .acquire (ih h')
  | release _ ih => exact .release (ih h')

/-- The operations behind some of them begin where those end. -/
theorem split (h : OneSlot a (ops ++ ops') c) : ∃ b, OneSlot a ops b ∧ OneSlot b ops' c := by
  induction ops generalizing a with
  | nil => exact ⟨a, .nil a, h⟩
  | cons op ops ih =>
    cases h with
    | acquire rest =>
      obtain ⟨b, hb, hrest⟩ := ih rest
      exact ⟨b, .acquire hb, hrest⟩
    | release rest =>
      obtain ⟨b, hb, hrest⟩ := ih rest
      exact ⟨b, .release hb, hrest⟩

/-- What is acquired is released by the next operation, unless it is kept in the slot. -/
theorem released {h : α} (hops : OneSlot a (ops ++ .acquire h :: ops') c) :
    (ops' = [] ∧ c = some h) ∨ ∃ rest, ops' = .release h :: rest := by
  obtain ⟨b, -, hrest⟩ := hops.split
  cases hrest with
  | acquire hrest =>
    cases hrest with
    | nil slot => exact Or.inl ⟨rfl, rfl⟩
    | release rest => exact Or.inr ⟨_, rfl⟩

/-- The last operation has filled the slot, if the slot was empty before. -/
theorem last_acquired {h : α} (hops : OneSlot none ops (some h)) :
    ∃ before, ops = before ++ [.acquire h] := by
  rcases List.eq_nil_or_concat ops with rfl | ⟨before, op, rfl⟩
  · cases hops
  · rw [List.concat_eq_append] at hops ⊢
    obtain ⟨b, -, hlast⟩ := hops.split
    cases hlast with
    | acquire rest =>
      cases rest with
      | nil slot => exact ⟨before, rfl⟩
    | release rest => cases rest

/-- What is released was acquired by the operation before. -/
theorem acquired {h : α} (hops : OneSlot none (ops ++ .release h :: ops') c) :
    ∃ before, ops = before ++ [.acquire h] := by
  obtain ⟨b, hbefore, hrest⟩ := hops.split
  cases hrest with
  | release rest => exact hbefore.last_acquired

/-- **Every handle is released once, and by the next operation.** -/
theorem paired (h : OneSlot none ops none) : Paired ops := by
  constructor
  · rintro before x behind rfl
    obtain ⟨-, hkept⟩ | hrest := h.released
    · cases hkept
    · exact hrest
  · rintro before x behind rfl
    exact h.acquired

section Held
variable [DecidableEq α]

/-- **No operation is at fault, and what is held is in the slot.** -/
theorem held (h : OneSlot a ops b) : heldAfter a.toFinset ops = some b.toFinset := by
  induction h with
  | nil slot => rfl
  | acquire rest ih => simpa [heldAfter, Op.apply] using ih
  | release rest ih => simpa [heldAfter, Op.apply] using ih

/-- **At no time more than one handle is held.** -/
theorem held_le_one (h : OneSlot a ops b) {before : List (Op α)} (hbefore : before <+: ops) :
    ∃ s, heldAfter a.toFinset before = some s ∧ s.card ≤ 1 := by
  obtain ⟨behind, rfl⟩ := hbefore
  obtain ⟨slot, hslot, -⟩ := h.split
  refine ⟨slot.toFinset, hslot.held, ?_⟩
  cases slot with
  | none => exact Nat.zero_le 1
  | some h => exact le_of_eq (Finset.card_singleton h)

end Held

end OneSlot

/-! ## 3. Holders and numbers -/

section Numbered
variable {ω ν : Type*}

/-- What is held is a number and who has it.  The numbers that are used are those held, and none
    has two holders. -/
structure Numbered (held : Finset (ω × ν)) (used : Finset ν) : Prop where
  injOn : Set.InjOn Prod.snd (held : Set (ω × ν))
  mem : ∀ n, n ∈ used ↔ ∃ w, (w, n) ∈ held

variable [DecidableEq ω] [DecidableEq ν] {held : Finset (ω × ν)} {used : Finset ν} {w : ω} {n : ν}

theorem Numbered.acquire (h : Numbered held used) (w : ω) (hn : n ∉ used) :
    (Op.acquire (w, n)).apply held = some (insert (w, n) held) ∧
      Numbered (insert (w, n) held) (insert n used) := by
  have hfree : ∀ w', (w', n) ∉ held := fun w' hmem => hn ((h.mem n).mpr ⟨w', hmem⟩)
  refine ⟨if_neg (hfree w), ?_, ?_⟩
  · rintro ⟨w₁, n₁⟩ hx ⟨w₂, n₂⟩ hy heq
    obtain rfl : n₁ = n₂ := heq
    rcases Finset.mem_insert.mp hx with hx₁ | hx₁
    · obtain ⟨rfl, rfl⟩ := Prod.mk.inj hx₁
      rcases Finset.mem_insert.mp hy with hy | hy
      · exact hy.symm
      · exact absurd hy (hfree w₂)
    · rcases Finset.mem_insert.mp hy with hy | hy
      · obtain ⟨rfl, rfl⟩ := Prod.mk.inj hy
        exact absurd hx₁ (hfree w₁)
      · exact h.injOn hx₁ hy rfl
  · intro n'
    rw [Finset.mem_insert, h.mem n']
    constructor
    · rintro (rfl | ⟨w', hmem⟩)
      · exact ⟨w, Finset.mem_insert_self ..⟩
      · exact ⟨w', Finset.mem_insert_of_mem hmem⟩
    · rintro ⟨w', hmem⟩
      rcases Finset.mem_insert.mp hmem with heq | hmem
      · exact .inl (Prod.mk.inj heq).2
      · exact .inr ⟨w', hmem⟩

theorem Numbered.release (h : Numbered held used) (hheld : (w, n) ∈ held) :
    (Op.release (w, n)).apply held = some (held.erase (w, n)) ∧
      Numbered (held.erase (w, n)) (used.erase n) := by
  refine ⟨if_pos hheld, ?_, ?_⟩
  · exact h.injOn.mono fun x hx => Finset.mem_of_mem_erase hx
  · intro n'
    rw [Finset.mem_erase, h.mem n']
    constructor
    · rintro ⟨hne, w', hmem⟩
      exact ⟨w', Finset.mem_erase.mpr ⟨fun heq => hne (Prod.mk.inj heq).2, hmem⟩⟩
    · rintro ⟨w', hmem⟩
      obtain ⟨hne, hheld'⟩ := Finset.mem_erase.mp hmem
      refine ⟨?_, w', hheld'⟩
      rintro rfl
      exact hne (h.injOn hheld' hheld rfl)

end Numbered

end Handles
