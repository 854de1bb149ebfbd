/-
  OServer/Lib/Avl.lean
  ====================
  **AVL insertion with incremental balance factors.**

  A binary tree whose nodes store a balance factor (left height minus right
  height), the two rotations with their *incremental* updates of the stored
  factors, and the recursive insertion that propagates a growth code upwards.
  The growth code is the whole protocol between a node and its parent: it says
  whether the subtree grew in height and, if it did, on which side it is now
  heavier.

  Elements are ordered by a key in an arbitrary linear order.  The results are

    * `insert_spec`      — stored factors stay exact and in `{-1, 0, 1}`, and the
                           growth code tells the change of height;
    * `insert_toList`    — in key order the new element takes its one place
                           between the smaller and the larger elements;
    * `find_eq_some_iff` — the search path reaches exactly the stored element.
-/
import Mathlib.Order.Lattice
import Mathlib.Data.List.Nodup
import Mathlib.Tactic.Common

namespace Avl

variable {α κ : Type*}

/-! ## 1. Trees with stored balance factors -/

/-- A binary tree; every node stores its element and its balance factor. -/
inductive AvlTree (α : Type*) where
  | nil : AvlTree α
  | node (l : AvlTree α) (a : α) (bf : Int) (r : AvlTree α) : AvlTree α
deriving DecidableEq, Repr

/-- Where a traversal visits the root of a subtree. -/
inductive Order where
  | pre | inner | post
deriving DecidableEq, Repr

namespace AvlTree

def height : AvlTree α → Nat
  | nil => 0
  | node l _ _ r => max l.height r.height + 1

/-- The stored balance factor of the root (zero for the empty tree). -/
def factor : AvlTree α → Int
  | nil => 0
  | node _ _ bf _ => bf

/-- Elements in the order in which a traversal visits them. -/
def walk (o : Order) : AvlTree α → List α
  | nil => []
  | node l a _ r =>
      (if o = .pre then [a] else []) ++ l.walk o ++ (if o = .inner then [a] else []) ++
        r.walk o ++ (if o = .post then [a] else [])

/-- Elements from left to right. -/
def toList : AvlTree α → List α
  | nil => []
  | node l a _ r => l.toList ++ a :: r.toList

@[simp] theorem height_nil : (nil : AvlTree α).height = 0 := rfl
@[simp] theorem height_node (l r : AvlTree α) (a : α) (bf : Int) :
    (node l a bf r).height = max l.height r.height + 1 := rfl
@[simp] theorem factor_nil : (nil : AvlTree α).factor = 0 := rfl
@[simp] theorem factor_node (l r : AvlTree α) (a : α) (bf : Int) :
    (node l a bf r).factor = bf := rfl
@[simp] theorem toList_nil : (nil : AvlTree α).toList = [] := rfl
@[simp] theorem toList_node (l r : AvlTree α) (a : α) (bf : Int) :
    (node l a bf r).toList = l.toList ++ a :: r.toList := rfl

theorem walk_inner (t : AvlTree α) : t.walk .inner = t.toList := by
  induction t with
  | nil => rfl
  | node l a bf r ihl ihr => simp [walk, ihl, ihr]

/-- Every traversal order visits the same elements, each as often. -/
theorem walk_perm_toList (o : Order) (t : AvlTree α) : (t.walk o).Perm t.toList := by
  induction t with
  | nil => exact .nil
  | node l a bf r ihl ihr =>
    have happ := ihl.append ihr
    cases o with
    | pre =>
      simpa [walk] using (happ.cons a).trans List.perm_middle.symm
    | inner =>
      simpa [walk] using ihl.append (ihr.cons a)
    | post =>
      have hlast : (l.walk .post ++ r.walk .post ++ [a]).Perm
          (a :: (l.walk .post ++ r.walk .post)) := List.perm_append_singleton _ _
      simpa [walk] using hlast.trans ((happ.cons a).trans List.perm_middle.symm)

theorem mem_walk_iff (o : Order) {t : AvlTree α} {a : α} : a ∈ t.walk o ↔ a ∈ t.toList :=
  (t.walk_perm_toList o).mem_iff

theorem height_le_length (t : AvlTree α) : t.height ≤ t.toList.length := by
  induction t with
  | nil => simp
  | node l a bf r ihl ihr =>
    simp only [height_node, toList_node, List.length_append, List.length_cons]
    omega

/-- Every stored balance factor is the height difference and lies in
    `{-1, 0, 1}`. -/
def Balanced : AvlTree α → Prop
  | nil => True
  | node l _ bf r =>
      l.Balanced ∧ r.Balanced ∧ bf = (l.height : Int) - r.height ∧ -1 ≤ bf ∧ bf ≤ 1

/-- Keys are in strict search-tree order. -/
def Ordered [LinearOrder κ] (key : α → κ) : AvlTree α → Prop
  | nil => True
  | node l a _ r =>
      l.Ordered key ∧ r.Ordered key ∧
        (∀ b ∈ l.toList, key b < key a) ∧ (∀ b ∈ r.toList, key a < key b)

/-- Search-tree order is the same as strictly ascending keys from left to right. -/
theorem ordered_iff_pairwise [LinearOrder κ] (key : α → κ) (t : AvlTree α) :
    t.Ordered key ↔ t.toList.Pairwise (fun a b => key a < key b) := by
  induction t with
  | nil => simp [Ordered]
  | node l a bf r ihl ihr =>
    simp only [Ordered, ihl, ihr, toList_node, List.pairwise_append, List.pairwise_cons,
      List.mem_cons]
    constructor
    · rintro ⟨hl, hr, hla, har⟩
      refine ⟨hl, ⟨har, hr⟩, ?_⟩
      rintro b hb c (rfl | hc)
      · exact hla b hb
      · exact lt_trans (hla b hb) (har c hc)
    · rintro ⟨hl, ⟨har, hr⟩, hlr⟩
      exact ⟨hl, hr, fun b hb => hlr b hb a (Or.inl rfl), har⟩

theorem Ordered.nodup [LinearOrder κ] {key : α → κ} {t : AvlTree α} (h : t.Ordered key) :
    t.toList.Nodup := by
  have hp := (ordered_iff_pairwise key t).mp h
  exact hp.imp fun hlt heq => absurd (heq ▸ hlt) (lt_irrefl _)

/-- The order depends on the keys of the stored elements only. -/
theorem Ordered.congr [LinearOrder κ] {key key' : α → κ} {t : AvlTree α} (h : t.Ordered key)
    (hkey : ∀ a ∈ t.toList, key' a = key a) : t.Ordered key' := by
  rw [ordered_iff_pairwise] at h ⊢
  apply h.imp_of_mem
  intro a b ha hb hab
  rwa [hkey a ha, hkey b hb]

/-! ## 2. Rotations

The factors are updated from the stored ones, without looking at heights: first
the node that goes down, then the node that comes up, whose update reads the new
factor of the other. -/

def rotateLeft : AvlTree α → AvlTree α
  | node a x b (node c y d e) =>
      let b' := b + (if d < 0 then 1 - d else 1)
      let d' := d + (if 0 < b' then 1 + b' else 1)
      node (node a x b' c) y d' e
  | t => t

def rotateRight : AvlTree α → AvlTree α
  | node (node a y d c) x b e =>
      let b' := b - (if 0 < d then 1 + d else 1)
      let d' := d - (if b' < 0 then 1 - b' else 1)
      node a y d' (node c x b' e)
  | t => t

@[simp] theorem toList_rotateLeft (t : AvlTree α) : t.rotateLeft.toList = t.toList := by
  rcases t with _ | ⟨a, x, b, _ | ⟨c, y, d, e⟩⟩ <;> simp [rotateLeft]

@[simp] theorem toList_rotateRight (t : AvlTree α) : t.rotateRight.toList = t.toList := by
  rcases t with _ | ⟨_ | ⟨a, y, d, c⟩, x, b, e⟩ <;> simp [rotateRight]

end AvlTree

/-! ## 3. Insertion -/

/-- What an insertion did to a subtree: the key was there already, the subtree
    was empty, it grew and is left-heavy, it grew and is right-heavy, or it kept
    its height. -/
inductive Growth where
  | exist | ok | left | right | balanced
deriving DecidableEq, Repr

/-- The growth codes after which the parent has to adjust its factor. -/
def Growth.grew : Growth → Bool
  | ok | left | right => true
  | exist | balanced => false

namespace AvlTree

/-- The right subtree of `node l a bf _` became `r` with growth code `g`. -/
def settleRight (l : AvlTree α) (a : α) (bf : Int) (r : AvlTree α) (g : Growth) :
    AvlTree α × Growth :=
  if g.grew then
    let t :=
      if bf - 1 = -2 then
        rotateLeft (node l a (bf - 1) (if g = .left then rotateRight r else r))
      else node l a (bf - 1) r
    (t, if t.factor ≠ 0 then .right else .balanced)
  else (node l a bf r, g)

/-- The left subtree of `node _ a bf r` became `l` with growth code `g`. -/
def settleLeft (l : AvlTree α) (a : α) (bf : Int) (r : AvlTree α) (g : Growth) :
    AvlTree α × Growth :=
  if g.grew then
    let t :=
      if bf + 1 = 2 then
        rotateRight (node (if g = .right then rotateLeft l else l) a (bf + 1) r)
      else node l a (bf + 1) r
    (t, if t.factor ≠ 0 then .left else .balanced)
  else (node l a bf r, g)

variable [LinearOrder κ] (key : α → κ)

def insert (x : α) : AvlTree α → AvlTree α × Growth
  | nil => (node nil x 0 nil, .ok)
  | node l a bf r =>
      if key x = key a then (node l a bf r, .exist)
      else if key a < key x then
        settleRight l a bf (insert x r).1 (insert x r).2
      else settleLeft (insert x l).1 a bf r (insert x l).2

/-- The element with key `k`, looked up along the search path. -/
def find (k : κ) : AvlTree α → Option α
  | nil => none
  | node l a _ r =>
      if key a = k then some a else if key a < k then find k r else find k l

end AvlTree

/-! ## 4. Factors stay exact -/

/-- The growth code tells the truth about the change from `t` to `t'`. -/
def Growth.Describes (t t' : AvlTree α) : Growth → Prop
  | exist => t' = t
  | ok => t = .nil ∧ t'.height = 1 ∧ t'.factor = 0
  | left => t'.height = t.height + 1 ∧ t'.factor = 1
  | right => t'.height = t.height + 1 ∧ t'.factor = -1
  | balanced => t'.height = t.height

namespace AvlTree

theorem exists_node_of_factor_ne_zero {t : AvlTree α} (h : t.factor ≠ 0) :
    ∃ l a r, t = node l a t.factor r := by
  cases t with
  | nil => exact absurd rfl h
  | node l a bf r => exact ⟨l, a, r, rfl⟩

/-- A single left rotation: the right child is right-heavy. -/
theorem rotateLeft_single {l r : AvlTree α} {a : α} (hl : l.Balanced) (hr : r.Balanced)
    (hf : r.factor = -1) (hh : r.height = l.height + 2) :
    (rotateLeft (node l a (-2) r)).Balanced ∧
      (rotateLeft (node l a (-2) r)).factor = 0 ∧
      (rotateLeft (node l a (-2) r)).height = r.height := by
  rcases exists_node_of_factor_ne_zero (t := r) (by omega) with ⟨c, y, e, hre⟩
  rw [hf] at hre
  subst hre
  rcases hr with ⟨hc, he, hce, -, -⟩
  simp only [height_node] at hh ⊢
  simp [rotateLeft, Balanced, hl, hc, he]
  omega

/-- A single right rotation: the left child is left-heavy. -/
theorem rotateRight_single {l r : AvlTree α} {a : α} (hl : l.Balanced) (hr : r.Balanced)
    (hf : l.factor = 1) (hh : l.height = r.height + 2) :
    (rotateRight (node l a 2 r)).Balanced ∧
      (rotateRight (node l a 2 r)).factor = 0 ∧
      (rotateRight (node l a 2 r)).height = l.height := by
  rcases exists_node_of_factor_ne_zero (t := l) (by omega) with ⟨c, y, e, hle⟩
  rw [hf] at hle
  subst hle
  rcases hl with ⟨hc, he, hce, -, -⟩
  simp only [height_node] at hh ⊢
  simp [rotateRight, Balanced, hr, hc, he]
  omega

/-- A double rotation to the left: the right child is left-heavy. -/
theorem rotateLeft_double {l r : AvlTree α} {a : α} (hl : l.Balanced) (hr : r.Balanced)
    (hf : r.factor = 1) (hh : r.height = l.height + 2) :
    (rotateLeft (node l a (-2) (rotateRight r))).Balanced ∧
      (rotateLeft (node l a (-2) (rotateRight r))).factor = 0 ∧
      (rotateLeft (node l a (-2) (rotateRight r))).height = r.height := by
  rcases exists_node_of_factor_ne_zero (t := r) (by omega) with ⟨m, y, e, hre⟩
  rw [hf] at hre
  subst hre
  rcases hr with ⟨hm, he, hme, -, -⟩
  -- the left grandchild exists: it is the higher one
  cases m with
  | nil => simp only [height_nil] at hme; omega
  | node c z d f =>
    rcases hm with ⟨hc, hfb, hcf, hd, hd'⟩
    simp only [height_node] at hme hh ⊢
    have hdc : d = -1 ∨ d = 0 ∨ d = 1 := by omega
    rcases hdc with rfl | rfl | rfl <;>
      · simp [rotateLeft, rotateRight, Balanced, hl, hc, hfb, he]
        omega

/-- A double rotation to the right: the left child is right-heavy. -/
theorem rotateRight_double {l r : AvlTree α} {a : α} (hl : l.Balanced) (hr : r.Balanced)
    (hf : l.factor = -1) (hh : l.height = r.height + 2) :
    (rotateRight (node (rotateLeft l) a 2 r)).Balanced ∧
      (rotateRight (node (rotateLeft l) a 2 r)).factor = 0 ∧
      (rotateRight (node (rotateLeft l) a 2 r)).height = l.height := by
  rcases exists_node_of_factor_ne_zero (t := l) (by omega) with ⟨e, y, m, hle⟩
  rw [hf] at hle
  subst hle
  rcases hl with ⟨he, hm, hme, -, -⟩
  cases m with
  | nil => simp only [height_nil] at hme; omega
  | node c z d f =>
    rcases hm with ⟨hc, hfb, hcf, hd, hd'⟩
    simp only [height_node] at hme hh ⊢
    have hdc : d = -1 ∨ d = 0 ∨ d = 1 := by omega
    rcases hdc with rfl | rfl | rfl <;>
      · simp [rotateLeft, rotateRight, Balanced, hr, hc, hfb, he]
        omega

/-- The subtree grew on the right and the node has to be rebalanced. -/
theorem rebalanceRight {l r : AvlTree α} {a : α} {g : Growth} (hl : l.Balanced) (hr : r.Balanced)
    (hg : g = .left ∧ r.factor = 1 ∨ g = .right ∧ r.factor = -1)
    (hh : r.height = l.height + 2) :
    (rotateLeft (node l a (-2) (if g = .left then rotateRight r else r))).Balanced ∧
      (rotateLeft (node l a (-2) (if g = .left then rotateRight r else r))).factor = 0 ∧
      (rotateLeft (node l a (-2) (if g = .left then rotateRight r else r))).height = r.height := by
  rcases hg with ⟨rfl, hf⟩ | ⟨rfl, hf⟩
  · simpa using rotateLeft_double hl hr hf hh
  · simpa using rotateLeft_single hl hr hf hh

theorem rebalanceLeft {l r : AvlTree α} {a : α} {g : Growth} (hl : l.Balanced) (hr : r.Balanced)
    (hg : g = .left ∧ l.factor = 1 ∨ g = .right ∧ l.factor = -1)
    (hh : l.height = r.height + 2) :
    (rotateRight (node (if g = .right then rotateLeft l else l) a 2 r)).Balanced ∧
      (rotateRight (node (if g = .right then rotateLeft l else l) a 2 r)).factor = 0 ∧
      (rotateRight (node (if g = .right then rotateLeft l else l) a 2 r)).height = l.height := by
  rcases hg with ⟨rfl, hf⟩ | ⟨rfl, hf⟩
  · simpa using rotateRight_single hl hr hf hh
  · simpa using rotateRight_double hl hr hf hh

theorem settleRight_keep (l : AvlTree α) (a : α) (bf : Int) (r : AvlTree α) {g : Growth}
    (hg : g.grew = false) : settleRight l a bf r g = (node l a bf r, g) := by
  simp [settleRight, hg]

theorem settleRight_shift (l : AvlTree α) (a : α) {bf : Int} (r : AvlTree α) {g : Growth}
    (hg : g.grew = true) (hbf : bf - 1 ≠ -2) :
    settleRight l a bf r g =
      (node l a (bf - 1) r, if bf - 1 ≠ 0 then .right else .balanced) := by
  simp [settleRight, hg, hbf]

theorem settleRight_rotate (l : AvlTree α) (a : α) {bf : Int} (r : AvlTree α) {g : Growth}
    (hg : g.grew = true) (hbf : bf - 1 = -2) :
    settleRight l a bf r g =
      (rotateLeft (node l a (bf - 1) (if g = .left then rotateRight r else r)),
        if (rotateLeft (node l a (bf - 1) (if g = .left then rotateRight r else r))).factor ≠ 0
        then .right else .balanced) := by
  simp [settleRight, hg, hbf]

theorem settleLeft_keep (l : AvlTree α) (a : α) (bf : Int) (r : AvlTree α) {g : Growth}
    (hg : g.grew = false) : settleLeft l a bf r g = (node l a bf r, g) := by
  simp [settleLeft, hg]

theorem settleLeft_shift (l : AvlTree α) (a : α) {bf : Int} (r : AvlTree α) {g : Growth}
    (hg : g.grew = true) (hbf : bf + 1 ≠ 2) :
    settleLeft l a bf r g =
      (node l a (bf + 1) r, if bf + 1 ≠ 0 then .left else .balanced) := by
  simp [settleLeft, hg, hbf]

theorem settleLeft_rotate (l : AvlTree α) (a : α) {bf : Int} (r : AvlTree α) {g : Growth}
    (hg : g.grew = true) (hbf : bf + 1 = 2) :
    settleLeft l a bf r g =
      (rotateRight (node (if g = .right then rotateLeft l else l) a (bf + 1) r),
        if (rotateRight (node (if g = .right then rotateLeft l else l) a (bf + 1) r)).factor ≠ 0
        then .left else .balanced) := by
  simp [settleLeft, hg, hbf]

/-- A code that reports growth is exact about the height, and a subtree that was
    not empty before is heavier on the reported side. -/
theorem growth_of_describes {t t' : AvlTree α} {g : Growth} (h : g.Describes t t')
    (hg : g.grew = true) :
    t'.height = t.height + 1 ∧
      (t = nil ∨ g = .left ∧ t'.factor = 1 ∨ g = .right ∧ t'.factor = -1) := by
  cases g with
  | exist => cases hg
  | balanced => cases hg
  | ok => obtain ⟨rfl, hh, -⟩ := h; exact ⟨hh, Or.inl rfl⟩
  | left => exact ⟨h.1, Or.inr (Or.inl ⟨rfl, h.2⟩)⟩
  | right => exact ⟨h.1, Or.inr (Or.inr ⟨rfl, h.2⟩)⟩

theorem settleRight_spec {l r r' : AvlTree α} {a : α} {bf : Int} {g : Growth}
    (ht : (node l a bf r).Balanced) (hr' : r'.Balanced) (hg : g.Describes r r') :
    (settleRight l a bf r' g).1.Balanced ∧
      (settleRight l a bf r' g).2.Describes (node l a bf r) (settleRight l a bf r' g).1 := by
  rcases ht with ⟨hl, hr, hbf, hlo, hhi⟩
  cases hgrew : g.grew with
  | false =>
    rw [settleRight_keep l a bf r' hgrew]
    cases g with
    | exist =>
      obtain rfl : r' = r := hg
      exact ⟨⟨hl, hr, hbf, hlo, hhi⟩, rfl⟩
    | balanced =>
      have hh : r'.height = r.height := hg
      refine ⟨⟨hl, hr', by omega, hlo, hhi⟩, ?_⟩
      simp only [Growth.Describes, height_node, hh]
    | ok => cases hgrew
    | left => cases hgrew
    | right => cases hgrew
  | true =>
    rcases growth_of_describes hg hgrew with ⟨hh, hside⟩
    by_cases h2 : bf - 1 = -2
    · -- a rotation: the right subtree was not empty
      have hgf : g = .left ∧ r'.factor = 1 ∨ g = .right ∧ r'.factor = -1 := by
        rcases hside with rfl | hside
        · simp only [height_nil] at hbf; omega
        · exact hside
      rw [settleRight_rotate l a r' hgrew h2, h2]
      rcases rebalanceRight (a := a) hl hr' hgf (by omega) with ⟨hB, h0, hH⟩
      refine ⟨hB, ?_⟩
      simp only [h0, ne_eq, not_true_eq_false, if_false, Growth.Describes, hH, height_node]
      omega
    · rw [settleRight_shift l a r' hgrew h2]
      refine ⟨⟨hl, hr', by omega, by omega, by omega⟩, ?_⟩
      by_cases h0 : bf - 1 = 0
      · simp only [h0, ne_eq, not_true_eq_false, if_false, Growth.Describes, height_node]
        omega
      · simp only [h0, ne_eq, not_false_eq_true, if_true, Growth.Describes, height_node,
          factor_node]
        omega

theorem settleLeft_spec {l l' r : AvlTree α} {a : α} {bf : Int} {g : Growth}
    (ht : (node l a bf r).Balanced) (hl' : l'.Balanced) (hg : g.Describes l l') :
    (settleLeft l' a bf r g).1.Balanced ∧
      (settleLeft l' a bf r g).2.Describes (node l a bf r) (settleLeft l' a bf r g).1 := by
  rcases ht with ⟨hl, hr, hbf, hlo, hhi⟩
  cases hgrew : g.grew with
  | false =>
    rw [settleLeft_keep l' a bf r hgrew]
    cases g with
    | exist =>
      obtain rfl : l' = l := hg
      exact ⟨⟨hl, hr, hbf, hlo, hhi⟩, rfl⟩
    | balanced =>
      have hh : l'.height = l.height := hg
      refine ⟨⟨hl', hr, by omega, hlo, hhi⟩, ?_⟩
      simp only [Growth.Describes, height_node, hh]
    | ok => cases hgrew
    | left => cases hgrew
    | right => cases hgrew
  | true =>
    rcases growth_of_describes hg hgrew with ⟨hh, hside⟩
    by_cases h2 : bf + 1 = 2
    · have hgf : g = .left ∧ l'.factor = 1 ∨ g = .right ∧ l'.factor = -1 := by
        rcases hside with rfl | hside
        · simp only [height_nil] at hbf; omega
        · exact hside
      rw [settleLeft_rotate l' a r hgrew h2, h2]
      rcases rebalanceLeft (a := a) hl' hr hgf (by omega) with ⟨hB, h0, hH⟩
      refine ⟨hB, ?_⟩
      simp only [h0, ne_eq, not_true_eq_false, if_false, Growth.Describes, hH, height_node]
      omega
    · rw [settleLeft_shift l' a r hgrew h2]
      refine ⟨⟨hl', hr, by omega, by omega, by omega⟩, ?_⟩
      by_cases h0 : bf + 1 = 0
      · simp only [h0, ne_eq, not_true_eq_false, if_false, Growth.Describes, height_node]
        omega
      · simp only [h0, ne_eq, not_false_eq_true, if_true, Growth.Describes, height_node,
          factor_node]
        omega

/-- **Insertion keeps the factors exact** and its growth code tells the change. -/
theorem insert_spec [LinearOrder κ] (key : α → κ) (x : α) {t : AvlTree α} (ht : t.Balanced) :
    (insert key x t).1.Balanced ∧ (insert key x t).2.Describes t (insert key x t).1 := by
  induction t with
  | nil => simp [insert, Balanced, Growth.Describes]
  | node l a bf r ihl ihr =>
    rcases id ht with ⟨hl, hr, -⟩
    simp only [insert]
    by_cases heq : key x = key a
    · rw [if_pos heq]
      exact ⟨ht, rfl⟩
    · rw [if_neg heq]
      by_cases hlt : key a < key x
      · rw [if_pos hlt]
        exact settleRight_spec ht (ihr hr).1 (ihr hr).2
      · rw [if_neg hlt]
        exact settleLeft_spec ht (ihl hl).1 (ihl hl).2

/-! ## 5. Order -/

@[simp] theorem toList_settleRight (l : AvlTree α) (a : α) (bf : Int) (r : AvlTree α) (g : Growth) :
    (settleRight l a bf r g).1.toList = l.toList ++ a :: r.toList := by
  simp only [settleRight]
  split_ifs <;> simp

@[simp] theorem toList_settleLeft (l : AvlTree α) (a : α) (bf : Int) (r : AvlTree α) (g : Growth) :
    (settleLeft l a bf r g).1.toList = l.toList ++ a :: r.toList := by
  simp only [settleLeft]
  split_ifs <;> simp

theorem settleRight_eq_exist {l r : AvlTree α} {a : α} {bf : Int} {g : Growth} :
    (settleRight l a bf r g).2 = .exist ↔ g = .exist := by
  cases g <;> simp [settleRight, Growth.grew] <;> split_ifs <;> simp

theorem settleLeft_eq_exist {l r : AvlTree α} {a : α} {bf : Int} {g : Growth} :
    (settleLeft l a bf r g).2 = .exist ↔ g = .exist := by
  cases g <;> simp [settleLeft, Growth.grew] <;> split_ifs <;> simp

variable [LinearOrder κ] (key : α → κ)

/-- `exist` is reported exactly when the key is already stored. -/
theorem insert_eq_exist_iff (x : α) {t : AvlTree α} (ht : t.Ordered key) :
    (insert key x t).2 = .exist ↔ ∃ a ∈ t.toList, key a = key x := by
  induction t with
  | nil => simp [insert]
  | node l a bf r ihl ihr =>
    rcases ht with ⟨hl, hr, hla, har⟩
    simp only [insert, toList_node, List.mem_append, List.mem_cons]
    by_cases heq : key x = key a
    · rw [if_pos heq]
      exact iff_of_true rfl ⟨a, Or.inr (Or.inl rfl), heq.symm⟩
    · rw [if_neg heq]
      by_cases hlt : key a < key x
      · rw [if_pos hlt, settleRight_eq_exist, ihr hr]
        constructor
        · rintro ⟨b, hb, hbx⟩
          exact ⟨b, Or.inr (Or.inr hb), hbx⟩
        · rintro ⟨b, hb | rfl | hb, hbx⟩
          · exact absurd (hbx ▸ hla b hb) (not_lt_of_gt hlt)
          · exact absurd hbx.symm heq
          · exact ⟨b, hb, hbx⟩
      · rw [if_neg hlt, settleLeft_eq_exist, ihl hl]
        constructor
        · rintro ⟨b, hb, hbx⟩
          exact ⟨b, Or.inl hb, hbx⟩
        · rintro ⟨b, hb | rfl | hb, hbx⟩
          · exact ⟨b, hb, hbx⟩
          · exact absurd hbx.symm heq
          · exact absurd (hbx ▸ har b hb) hlt

/-- **The new element takes its one place** between the smaller and the larger
    elements; all others keep theirs. -/
theorem insert_toList (x : α) {t : AvlTree α} (ht : t.Ordered key)
    (hx : (insert key x t).2 ≠ .exist) :
    ∃ l₁ l₂, t.toList = l₁ ++ l₂ ∧ (insert key x t).1.toList = l₁ ++ x :: l₂ ∧
      (∀ a ∈ l₁, key a < key x) ∧ (∀ a ∈ l₂, key x < key a) := by
  induction t with
  | nil => exact ⟨[], [], by simp [insert]⟩
  | node l a bf r ihl ihr =>
    rcases ht with ⟨hl, hr, hla, har⟩
    simp only [insert] at hx ⊢
    by_cases heq : key x = key a
    · rw [if_pos heq] at hx
      exact absurd rfl hx
    rw [if_neg heq] at hx ⊢
    by_cases hlt : key a < key x
    · rw [if_pos hlt] at hx ⊢
      rcases ihr hr fun h => hx (settleRight_eq_exist.mpr h) with ⟨l₁, l₂, h₁, h₂, hlo, hhi⟩
      refine ⟨l.toList ++ a :: l₁, l₂, by simp [h₁], by simp [h₂], ?_, hhi⟩
      intro b hb
      rcases List.mem_append.mp hb with hb | hb
      · exact lt_trans (hla b hb) hlt
      · rcases List.mem_cons.mp hb with rfl | hb
        · exact hlt
        · exact hlo b hb
    · rw [if_neg hlt] at hx ⊢
      have hgt : key x < key a := lt_of_le_of_ne (not_lt.mp hlt) heq
      rcases ihl hl fun h => hx (settleLeft_eq_exist.mpr h) with ⟨l₁, l₂, h₁, h₂, hlo, hhi⟩
      refine ⟨l₁, l₂ ++ a :: r.toList, by simp [h₁], by simp [h₂], hlo, ?_⟩
      intro b hb
      rcases List.mem_append.mp hb with hb | hb
      · exact hhi b hb
      · rcases List.mem_cons.mp hb with rfl | hb
        · exact hgt
        · exact lt_trans hgt (har b hb)

theorem insert_ordered (x : α) {t : AvlTree α} (ht : t.Ordered key)
    (hx : (insert key x t).2 ≠ .exist) : (insert key x t).1.Ordered key := by
  rcases insert_toList key x ht hx with ⟨l₁, l₂, h₁, h₂, hlo, hhi⟩
  rw [ordered_iff_pairwise, h₁, List.pairwise_append] at ht
  rcases ht with ⟨hp₁, hp₂, hp₁₂⟩
  rw [ordered_iff_pairwise, h₂, List.pairwise_append]
  refine ⟨hp₁, List.pairwise_cons.mpr ⟨hhi, hp₂⟩, ?_⟩
  intro a ha b hb
  rcases List.mem_cons.mp hb with rfl | hb
  · exact hlo a ha
  · exact hp₁₂ a ha b hb

theorem insert_perm (x : α) {t : AvlTree α} (ht : t.Ordered key)
    (hx : (insert key x t).2 ≠ .exist) :
    (insert key x t).1.toList.Perm (x :: t.toList) := by
  rcases insert_toList key x ht hx with ⟨l₁, l₂, h₁, h₂, -, -⟩
  rw [h₁, h₂]
  exact List.perm_middle

/-- Nothing but `x` can be new in the tree. -/
theorem mem_insert (x : α) (t : AvlTree α) {a : α} (ha : a ∈ (insert key x t).1.toList) :
    a = x ∨ a ∈ t.toList := by
  induction t with
  | nil => simpa [insert] using ha
  | node l b bf r ihl ihr =>
    simp only [insert] at ha
    by_cases heq : key x = key b
    · rw [if_pos heq] at ha
      exact Or.inr ha
    rw [if_neg heq] at ha
    by_cases hlt : key b < key x
    · rw [if_pos hlt, toList_settleRight] at ha
      simp only [toList_node, List.mem_append, List.mem_cons] at ha ⊢
      rcases ha with ha | ha | ha
      · exact Or.inr (Or.inl ha)
      · exact Or.inr (Or.inr (Or.inl ha))
      · exact (ihr ha).imp_right fun h => Or.inr (Or.inr h)
    · rw [if_neg hlt, toList_settleLeft] at ha
      simp only [toList_node, List.mem_append, List.mem_cons] at ha ⊢
      rcases ha with ha | ha | ha
      · exact (ihl ha).imp_right Or.inl
      · exact Or.inr (Or.inr (Or.inl ha))
      · exact Or.inr (Or.inr (Or.inr ha))

theorem insert_exist_eq (x : α) {t : AvlTree α} (ht : t.Balanced)
    (hx : (insert key x t).2 = .exist) : (insert key x t).1 = t := by
  have hd := (insert_spec key x ht).2
  rw [hx] at hd
  exact hd

/-- The search path for `k` finds the stored element with key `k`, if any. -/
theorem find_eq_some_iff {t : AvlTree α} (ht : t.Ordered key) (k : κ) (a : α) :
    find key k t = some a ↔ a ∈ t.toList ∧ key a = k := by
  induction t with
  | nil => simp [find]
  | node l b bf r ihl ihr =>
    rcases ht with ⟨hl, hr, hlb, hbr⟩
    simp only [find, toList_node, List.mem_append, List.mem_cons]
    by_cases heq : key b = k
    · rw [if_pos heq, Option.some.injEq]
      constructor
      · rintro rfl
        exact ⟨Or.inr (Or.inl rfl), heq⟩
      · rintro ⟨ha | rfl | ha, hk⟩
        · exact absurd (hlb a ha) (by rw [hk, heq]; exact lt_irrefl k)
        · rfl
        · exact absurd (hbr a ha) (by rw [hk, heq]; exact lt_irrefl k)
    · rw [if_neg heq]
      by_cases hlt : key b < k
      · rw [if_pos hlt, ihr hr]
        constructor
        · rintro ⟨ha, hk⟩
          exact ⟨Or.inr (Or.inr ha), hk⟩
        · rintro ⟨ha | rfl | ha, hk⟩
          · exact absurd (hk ▸ hlb a ha) (not_lt_of_gt hlt)
          · exact absurd hk heq
          · exact ⟨ha, hk⟩
      · rw [if_neg hlt, ihl hl]
        constructor
        · rintro ⟨ha, hk⟩
          exact ⟨Or.inl ha, hk⟩
        · rintro ⟨ha | rfl | ha, hk⟩
          · exact ⟨ha, hk⟩
          · exact absurd hk heq
          · exact absurd (hk ▸ hbr a ha) hlt

end AvlTree

end Avl
