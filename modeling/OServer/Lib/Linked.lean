/-
  OServer/Lib/Linked.lean
  =======================
  **Linked lists: the nodes that a pointer leads to through their link words.**

  `next x` is the link word of the node `x`; `none` is the null pointer.  A list of
  nodes is linked from one pointer to another, so that a null-terminated list and a
  circular list are the same notion with different ends.

    * `Linked.unique`              — a pointer leads to one list of nodes only;
    * `Linked.update`              — a word outside the list does not matter;
    * `Linked.insert`, `Linked.unlink` — one node more or less after a given node;
    * `DoublyLinked`               — a list that is linked in both directions through a
                                     head node, with `DoublyLinked.append` and
                                     `DoublyLinked.remove`;
    * `DoublyLinked.next_prev`     — its words are inverse to each other.
-/
import Mathlib.Data.List.Nodup
import Mathlib.Logic.Function.Basic

variable {α : Type*}

/-- The nodes `l` follow one another from the pointer `p` to the pointer `q`. -/
def Linked (next : α → Option α) : Option α → List α → Option α → Prop
  | p, [], q => p = q
  | p, x :: l, q => p = some x ∧ Linked next (next x) l q

namespace Linked

variable {next next' : α → Option α} {p q r : Option α} {l m : List α} {x y : α}

@[simp] theorem nil_iff : Linked next p [] q ↔ p = q := Iff.rfl

@[simp] theorem cons_iff : Linked next p (x :: l) q ↔ p = some x ∧ Linked next (next x) l q :=
  Iff.rfl

theorem append_iff :
    Linked next p (l ++ m) q ↔ ∃ r, Linked next p l r ∧ Linked next r m q := by
  induction l generalizing p with
  | nil => simp
  | cons x l ih => simp [ih, and_assoc]

/-- Only the words of the nodes are read. -/
theorem congr (h : Linked next p l q) (heq : ∀ x ∈ l, next' x = next x) : Linked next' p l q := by
  induction l generalizing p with
  | nil => exact h
  | cons x l ih =>
    obtain ⟨hp, hl⟩ := h
    refine ⟨hp, ?_⟩
    rw [heq x List.mem_cons_self]
    exact ih hl fun y hy => heq y (List.mem_cons_of_mem x hy)

/-- Where a list ends, no node of it is. -/
def Ends (l : List α) (q : Option α) : Prop := ∀ x ∈ l, q ≠ some x

theorem ends_none : Ends l none := fun _ _ => Option.some_ne_none _ |>.symm

theorem ends_some (h : x ∉ l) : Ends l (some x) := by
  intro y hy heq
  apply h
  cases heq
  exact hy

/-- A pointer leads to one list of nodes only. -/
theorem unique (h : Linked next p l q) (h' : Linked next p m q) (hl : Ends l q) (hm : Ends m q) :
    l = m := by
  induction l generalizing p m with
  | nil =>
    cases m with
    | nil => rfl
    | cons y m =>
      obtain ⟨hp, -⟩ := h'
      exact absurd (h.symm.trans hp) (hm y List.mem_cons_self)
  | cons x l ih =>
    obtain ⟨hp, hl'⟩ := h
    cases m with
    | nil => exact absurd (h'.symm.trans hp) (hl x List.mem_cons_self)
    | cons y m =>
      obtain ⟨hp', hm'⟩ := h'
      obtain rfl : x = y := Option.some.inj (hp.symm.trans hp')
      rw [ih hl' hm' (fun z hz => hl z (List.mem_cons_of_mem x hz))
        (fun z hz => hm z (List.mem_cons_of_mem x hz))]

/-- A list that does not end at once begins with the node its pointer leads to. -/
theorem exists_cons (h : Linked next (some x) l q) (hq : q ≠ some x) :
    ∃ m, l = x :: m ∧ Linked next (next x) m q := by
  cases l with
  | nil => exact absurd h.symm hq
  | cons y m =>
    obtain ⟨hy, hm⟩ := h
    cases hy
    exact ⟨m, rfl, hm⟩

theorem eq_nil (h : Linked next p l q) (hp : p = q) (hl : Ends l q) : l = [] := by
  cases l with
  | nil => rfl
  | cons x l => exact absurd (hp.symm.trans h.1) (hl x List.mem_cons_self)

/-- The word of the last node is the end. -/
theorem next_last (h : Linked next p (l ++ [x]) q) : next x = q := by
  obtain ⟨r, -, -, hx⟩ := append_iff.mp h
  exact hx

/-- A list that is read backward and ends at a node `x` begins with what is last behind `x`. -/
theorem first_of_reverse (h : Linked next p l.reverse (some x)) (hl : x :: l = m ++ [y]) :
    p = some y := by
  cases m with
  | nil =>
    obtain ⟨rfl, rfl⟩ := List.cons.inj hl
    exact h
  | cons z m =>
    obtain ⟨-, hm⟩ : x = z ∧ l = m ++ [y] := List.cons.inj hl
    rw [hm, List.reverse_append] at h
    exact h.1

section Update
variable [DecidableEq α]

/-- A word outside the list does not matter. -/
theorem update {v : Option α} (h : Linked next p l q) (hx : x ∉ l) :
    Linked (Function.update next x v) p l q := by
  apply h.congr
  intro y hy
  apply Function.update_of_ne
  rintro rfl
  exact hx hy

/-- A node before the list. -/
theorem push (h : Linked next p l q) (hx : x ∉ l) :
    Linked (Function.update next x p) (some x) (x :: l) q := by
  refine ⟨rfl, ?_⟩
  rw [Function.update_self]
  exact h.update hx

/-- Another word for the last node, another end. -/
theorem redirect (h : Linked next p (l ++ [x]) q) (hx : x ∉ l) (r : Option α) :
    Linked (Function.update next x r) p (l ++ [x]) r := by
  obtain ⟨v, hl, hv, -⟩ := append_iff.mp h
  refine append_iff.mpr ⟨v, hl.update hx, hv, ?_⟩
  exact Function.update_self ..

/-- The new node `y` is put behind the node `x`. -/
theorem insert (h : Linked next p (l ++ x :: m) q) (hnd : (l ++ x :: m).Nodup)
    (hy : y ∉ l ++ x :: m) :
    Linked (Function.update (Function.update next y (next x)) x (some y)) p (l ++ x :: y :: m) q := by
  obtain ⟨v, hl, hv, hm⟩ := append_iff.mp h
  have hdisj := List.nodup_append.mp hnd
  have hxm : x ∉ m := (List.nodup_cons.mp hdisj.2.1).1
  have hxl : x ∉ l := fun hx => hdisj.2.2 x hx x List.mem_cons_self rfl
  have hyl : y ∉ l := fun h => hy (List.mem_append_left _ h)
  have hym : y ∉ m := fun h => hy (List.mem_append_right _ (List.mem_cons_of_mem x h))
  have hyx : y ≠ x := fun h => hy (h ▸ List.mem_append_right _ List.mem_cons_self)
  refine append_iff.mpr ⟨v, (hl.update hyl).update hxl, hv, ?_, ?_⟩
  · exact Function.update_self ..
  · rw [Function.update_of_ne hyx, Function.update_self]
    exact (hm.update hym).update hxm

/-- The node `y` behind the node `x` is taken out. -/
theorem unlink (h : Linked next p (l ++ x :: y :: m) q) (hnd : (l ++ x :: y :: m).Nodup) :
    Linked (Function.update next x (next y)) p (l ++ x :: m) q := by
  obtain ⟨v, hl, hv, -, hm⟩ := append_iff.mp h
  have hdisj := List.nodup_append.mp hnd
  have hxm : x ∉ m := fun hx => (List.nodup_cons.mp hdisj.2.1).1 (List.mem_cons_of_mem y hx)
  have hxl : x ∉ l := fun hx => hdisj.2.2 x hx x List.mem_cons_self rfl
  refine append_iff.mpr ⟨v, hl.update hxl, hv, ?_⟩
  rw [Function.update_self]
  exact hm.update hxm

end Update

end Linked

/-! ## Lists that are linked in both directions -/

/-- The nodes `l` are linked through the node `head`, forward by `next` and back by `prev`. -/
structure DoublyLinked (next prev : α → Option α) (head : α) (l : List α) : Prop where
  forward : Linked next (some head) (head :: l) (some head)
  back : Linked prev (some head) (head :: l.reverse) (some head)
  nodup : (head :: l).Nodup

namespace DoublyLinked

variable {next prev : α → Option α} {head x : α} {l m : List α}

theorem symm (h : DoublyLinked next prev head l) : DoublyLinked prev next head l.reverse where
  forward := h.back
  back := by
    rw [List.reverse_reverse]
    exact h.forward
  nodup := by
    obtain ⟨hhead, hl⟩ := List.nodup_cons.mp h.nodup
    exact List.nodup_cons.mpr ⟨fun h => hhead (List.mem_reverse.mp h), List.nodup_reverse.mpr hl⟩

/-- The nodes, read forward. -/
theorem linked (h : DoublyLinked next prev head l) : Linked next (next head) l (some head) := h.forward.2

theorem unique (h : DoublyLinked next prev head l) (h' : DoublyLinked next prev head m) : l = m :=
  h.linked.unique h'.linked (Linked.ends_some (List.nodup_cons.mp h.nodup).1)
    (Linked.ends_some (List.nodup_cons.mp h'.nodup).1)

/-- Words of other nodes do not matter. -/
theorem congr {next' prev' : α → Option α} (h : DoublyLinked next prev head l)
    (hnext : ∀ y ∈ head :: l, next' y = next y) (hprev : ∀ y ∈ head :: l, prev' y = prev y) :
    DoublyLinked next' prev' head l where
  forward := h.forward.congr hnext
  back := by
    apply h.back.congr
    intro y hy
    apply hprev
    rcases List.mem_cons.mp hy with rfl | hy
    · exact List.mem_cons_self
    · exact List.mem_cons_of_mem head (List.mem_reverse.mp hy)
  nodup := h.nodup

/-- The node before the head, which the words of both directions agree on. -/
theorem exists_last (h : DoublyLinked next prev head l) :
    ∃ a y, head :: l = a ++ [y] ∧ prev head = some y ∧ next y = some head := by
  obtain ⟨a, y, ha⟩ : ∃ a y, head :: l = a ++ [y] := by
    refine ⟨(head :: l).dropLast, (head :: l).getLast (List.cons_ne_nil _ _), ?_⟩
    exact (List.dropLast_append_getLast _).symm
  have hforward := h.forward
  rw [ha] at hforward
  exact ⟨a, y, ha, h.back.2.first_of_reverse ha, hforward.next_last⟩

/-- What comes before the node `x`, and what behind it. -/
theorem exists_neighbours (h : DoublyLinked next prev head (l ++ x :: m)) :
    (∃ a y, head :: l = a ++ [y] ∧ prev x = some y) ∧
      ∃ b z, head :: m.reverse = b ++ [z] ∧ next x = some z := by
  constructor
  · obtain ⟨a, y, ha⟩ : ∃ a y, head :: l = a ++ [y] :=
      ⟨_, _, (List.dropLast_append_getLast (List.cons_ne_nil head l)).symm⟩
    refine ⟨a, y, ha, ?_⟩
    have hback := h.back
    rw [List.reverse_append, List.reverse_cons, List.append_assoc] at hback
    obtain ⟨r, -, -, hr⟩ := Linked.append_iff.mp hback.2
    exact hr.first_of_reverse ha
  · obtain ⟨b, z, hb⟩ : ∃ b z, head :: m.reverse = b ++ [z] :=
      ⟨_, _, (List.dropLast_append_getLast (List.cons_ne_nil head m.reverse)).symm⟩
    refine ⟨b, z, hb, ?_⟩
    obtain ⟨r, -, -, hr⟩ := Linked.append_iff.mp h.forward.2
    rw [← List.reverse_reverse m] at hr
    exact hr.first_of_reverse hb

/-- The word of a node leads to the node behind it, and that of the last node to the head. -/
theorem next_eq (h : DoublyLinked next prev head (l ++ x :: m)) :
    next x = some (m.headD head) := by
  obtain ⟨r, -, -, hm⟩ := Linked.append_iff.mp h.linked
  cases m with
  | nil => exact hm
  | cons y m => exact hm.1

/-- The word of the head leads to the first node. -/
theorem next_head (h : DoublyLinked next prev head l) : next head = some (l.headD head) := by
  cases l with
  | nil => exact h.linked
  | cons y l => exact h.linked.1

/-- **What follows a node comes after it**, around the ring. -/
theorem next_prev (h : DoublyLinked next prev head l) (hx : x ∈ head :: l) :
    ∃ y ∈ head :: l, next x = some y ∧ prev y = some x := by
  obtain ⟨a, b, hsplit⟩ := List.append_of_mem hx
  have hforward := h.forward
  rw [hsplit] at hforward
  obtain ⟨r, -, -, hb⟩ := Linked.append_iff.mp hforward
  cases b with
  | nil =>
    obtain ⟨a', y, hlast, hy, -⟩ := h.exists_last
    obtain rfl : x = y :=
      List.singleton_inj.mp (List.append_inj_right' (hsplit.symm.trans hlast) rfl)
    exact ⟨head, List.mem_cons_self, hb, hy⟩
  | cons z b =>
    obtain ⟨before, hbefore, rfl⟩ : ∃ before, head :: before = a ++ [x] ∧ l = before ++ z :: b := by
      cases a with
      | nil =>
        obtain ⟨rfl, rfl⟩ := List.cons.inj hsplit
        exact ⟨[], rfl, rfl⟩
      | cons c a =>
        obtain ⟨rfl, rfl⟩ := List.cons.inj hsplit
        exact ⟨a ++ [x], rfl, List.append_cons a x (z :: b)⟩
    obtain ⟨⟨a', y, hlast, hy⟩, -⟩ := h.exists_neighbours
    obtain rfl : x = y :=
      List.singleton_inj.mp (List.append_inj_right' (hbefore.symm.trans hlast) rfl)
    exact ⟨z, List.mem_cons_of_mem _ (List.mem_append_right _ List.mem_cons_self), hb.1, hy⟩

theorem prev_next (h : DoublyLinked next prev head l) (hx : x ∈ head :: l) :
    ∃ y ∈ head :: l, prev x = some y ∧ next y = some x := by
  have hmem : ∀ y, y ∈ head :: l.reverse ↔ y ∈ head :: l := fun y => by simp
  obtain ⟨y, hy, hprev, hnext⟩ := h.symm.next_prev ((hmem x).mpr hx)
  exact ⟨y, (hmem y).mp hy, hprev, hnext⟩

section Update
variable [DecidableEq α]

theorem init (next prev : α → Option α) (head : α) :
    DoublyLinked (Function.update next head (some head)) (Function.update prev head (some head)) head [] where
  forward := ⟨rfl, Function.update_self ..⟩
  back := ⟨rfl, Function.update_self ..⟩
  nodup := List.nodup_singleton head

/-- The new node `x` is put behind the last one. -/
theorem append (h : DoublyLinked next prev head l) (hx : x ∉ head :: l) {y : α}
    (hy : prev head = some y) :
    DoublyLinked (Function.update (Function.update next x (some head)) y (some x))
      (Function.update (Function.update prev x (prev head)) head (some x)) head (l ++ [x]) where
  forward := by
    obtain ⟨a, y', ha, hy', hlast⟩ := h.exists_last
    obtain rfl : y = y' := Option.some.inj (hy.symm.trans hy')
    have hforward := h.forward
    have hnodup := h.nodup
    rw [ha] at hforward hnodup hx
    have hinsert := hforward.insert hnodup hx
    rw [hlast] at hinsert
    rw [← List.cons_append, ha, List.append_assoc]
    exact hinsert
  back := by
    have hx' : x ∉ [] ++ head :: l.reverse := by
      intro hmem
      apply hx
      rcases List.mem_cons.mp hmem with rfl | hmem
      · exact List.mem_cons_self
      · exact List.mem_cons_of_mem head (List.mem_reverse.mp hmem)
    have hinsert := Linked.insert (l := []) h.back h.symm.nodup hx'
    rw [List.reverse_append]
    exact hinsert
  nodup := by
    rw [← List.cons_append, List.nodup_append]
    refine ⟨h.nodup, List.nodup_singleton x, ?_⟩
    intro z hz w hw heq
    rw [List.mem_singleton.mp hw] at heq
    exact hx (heq ▸ hz)

/-- One direction of `remove`. -/
theorem unlinked (h : DoublyLinked next prev head (l ++ x :: m)) {y : α} (hy : prev x = some y) :
    Linked (Function.update next y (next x)) (some head) (head :: (l ++ m)) (some head) := by
  obtain ⟨⟨a, y', ha, hy'⟩, -⟩ := h.exists_neighbours
  obtain rfl : y = y' := Option.some.inj (hy.symm.trans hy')
  have hforward := h.forward
  have hnodup := h.nodup
  rw [← List.cons_append, ha, List.append_assoc] at hforward hnodup
  rw [← List.cons_append, ha, List.append_assoc]
  exact hforward.unlink hnodup

/-- The node `x` is taken out. -/
theorem remove (h : DoublyLinked next prev head (l ++ x :: m)) {y z : α} (hy : prev x = some y)
    (hz : next x = some z) :
    DoublyLinked (Function.update next y (next x)) (Function.update prev z (prev x)) head (l ++ m) where
  forward := h.unlinked hy
  back := by
    have hsymm := h.symm
    rw [List.reverse_append, List.reverse_cons, List.append_assoc] at hsymm
    rw [List.reverse_append]
    exact hsymm.unlinked hz
  nodup := h.nodup.sublist
    (List.Sublist.cons_cons head (List.Sublist.append_left (List.sublist_cons_self x m) l))

end Update

end DoublyLinked
