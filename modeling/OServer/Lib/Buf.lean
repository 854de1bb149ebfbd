/-
  OServer/Lib/Buf.lean
  ====================
  **Arrays of a fixed size, read and written in blocks.**

  `read` and `write` are `memcpy` from and to an array.  A write that would go over the
  end is cut off there, so that an array never changes its size; the lemmas are about
  writes that fit.  `store` is a write that breaks (`none`) where it does not fit.
-/
import Mathlib.Tactic.Common

variable {α : Type*} {n : Nat}

/-- An array of `n` cells. -/
structure Buf (α : Type*) (n : Nat) where
  cells : List α
  size_eq : cells.length = n
deriving DecidableEq, Repr

namespace Buf

/-! ## 1. Blocks -/

/-- The `len` cells from `off` on. -/
def read (b : Buf α n) (off len : Nat) : List α := (b.cells.drop off).take len

/-- Overwrite the cells from `off` on. -/
def write (b : Buf α n) (off : Nat) (src : List α) : Buf α n where
  cells := b.cells.take off ++ src.take (n - off) ++ b.cells.drop (off + src.length)
  size_eq := by
    simp only [List.length_append, List.length_take, List.length_drop, b.size_eq]
    omega

@[simp] theorem read_zero (b : Buf α n) (off : Nat) : b.read off 0 = [] := List.take_zero

theorem read_length (b : Buf α n) {off len : Nat} (h : off + len ≤ n) :
    (b.read off len).length = len := by
  simp only [read, List.length_take, List.length_drop, b.size_eq]
  omega

/-- Two blocks in a row. -/
theorem read_add (b : Buf α n) (off k m : Nat) :
    b.read off (k + m) = b.read off k ++ b.read (off + k) m := by
  simp only [read, List.take_add, List.drop_drop]

theorem drop_read (b : Buf α n) (off k m : Nat) :
    (b.read off (k + m)).drop k = b.read (off + k) m := by
  simp only [read, List.drop_take, List.drop_drop, Nat.add_sub_cancel_left]

section Write
variable (b : Buf α n) {off : Nat} {src : List α} (h : off + src.length ≤ n)
include h

theorem write_cells : (b.write off src).cells =
    b.cells.take off ++ (src ++ b.cells.drop (off + src.length)) := by
  have htake : src.take (n - off) = src := List.take_of_length_le (by omega)
  simp only [write, htake, List.append_assoc]

/-- What was written is there. -/
theorem read_write_self : (b.write off src).read off src.length = src := by
  have hoff : (b.cells.take off).length = off := by
    rw [List.length_take, b.size_eq]
    omega
  rw [read, b.write_cells h, List.drop_append_of_le_length (by omega), List.drop_of_length_le (by omega),
    List.nil_append, List.take_left]

/-- Cells in front of the block stay. -/
theorem read_write_before {off' len : Nat} (h' : off' + len ≤ off) :
    (b.write off src).read off' len = b.read off' len := by
  have hoff : (b.cells.take off).length = off := by
    rw [List.length_take, b.size_eq]
    omega
  rw [read, b.write_cells h, List.drop_append_of_le_length (by omega), read,
    List.take_append_of_le_length (by rw [List.length_drop]; omega), List.drop_take, List.take_take,
    Nat.min_eq_left (by omega)]

/-- Cells behind the block stay. -/
theorem read_write_after {off' : Nat} (len : Nat) (h' : off + src.length ≤ off') :
    (b.write off src).read off' len = b.read off' len := by
  have hoff : (b.cells.take off).length = off := by
    rw [List.length_take, b.size_eq]
    omega
  rcases Nat.exists_eq_add_of_le h' with ⟨k, rfl⟩
  have hlen : off + src.length + k = (b.cells.take off ++ src).length + k := by
    rw [List.length_append, hoff]
  rw [read, b.write_cells h, ← List.append_assoc, hlen, List.drop_length_add_append, List.drop_drop, read,
    ← hlen]

/-- A block behind one that was read. -/
theorem read_write_append : (b.write off src).read 0 (off + src.length) = b.read 0 off ++ src := by
  rw [read_add, Nat.zero_add, b.read_write_self h, b.read_write_before h (by omega)]

end Write

/-! ## 2. Texts that are written from the front -/

/-- Overwrite the cells from `off` on, all of which must be in the array. -/
def store (b : Buf α n) (off : Nat) (src : List α) : Option (Buf α n) :=
  if off + src.length ≤ n then some (b.write off src) else none

theorem store_none {b : Buf α n} {off : Nat} {src : List α} (h : n < off + src.length) :
    b.store off src = none :=
  if_neg (Nat.not_le_of_lt h)

/-- What is written behind a text goes on with it. -/
theorem store_append {b : Buf α n} {s : List α} (hs : s <+: b.cells) (src : List α)
    (h : s.length + src.length ≤ n) :
    ∃ b', b.store s.length src = some b' ∧ s ++ src <+: b'.cells := by
  refine ⟨_, if_pos h, ?_⟩
  rw [b.write_cells h, ← List.append_assoc, List.prefix_iff_eq_take.mp hs, List.length_take,
    b.size_eq, Nat.min_eq_left (by omega)]
  exact List.prefix_append _ _

theorem store_front (b : Buf α n) {src : List α} (h : src.length ≤ n) :
    ∃ b', b.store 0 src = some b' ∧ src <+: b'.cells := by
  have hnil : ([] : List α).length + src.length ≤ n := by
    rw [List.length_nil, Nat.zero_add]
    exact h
  exact store_append List.nil_prefix src hnil

/-! ## 3. Moving a block to the front -/

/-- `for(wp = ..; k times; ++wp) b[wp] = b[wp + d];` -/
def moveDown (d : Nat) : Nat → Nat → Buf α n → Buf α n
  | 0, _, b => b
  | k + 1, wp, b => moveDown d k (wp + 1) (b.write wp (b.read (wp + d) 1))

/-- The loop reads every cell before it overwrites it. -/
theorem read_moveDown (d k : Nat) : ∀ (wp : Nat) (b : Buf α n), wp + d + k ≤ n →
    (moveDown d k wp b).read 0 (wp + k) = b.read 0 wp ++ b.read (wp + d) k := by
  induction k with
  | zero =>
    intro wp b _
    simp [moveDown]
  | succ k ih =>
    intro wp b h
    have hlen : (b.read (wp + d) 1).length = 1 := b.read_length (by omega)
    have hfits : wp + (b.read (wp + d) 1).length ≤ n := by omega
    have hcell := b.read_write_append hfits
    have hrest := b.read_write_after hfits k (show wp + (b.read (wp + d) 1).length ≤ wp + 1 + d by omega)
    rw [hlen] at hcell
    rw [moveDown, show wp + (k + 1) = wp + 1 + k by omega, ih (wp + 1) _ (by omega), hcell, hrest,
      Nat.add_comm k 1, read_add, List.append_assoc, show wp + 1 + d = wp + d + 1 by omega]

end Buf
