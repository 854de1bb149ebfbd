/-
  OServer/BtreeInsert.lean
  ========================
  **`btree_insert` refines the AVL insertion.**

  `Holds t link tr` says that the structure hanging from `link` in memory is the
  tree `tr`; a thread counts as an empty right subtree.  Each operation on memory
  is matched with the operation on trees by one lemma, which also says what it
  leaves alone: nodes outside the subtree keep their contents, except for the one
  field the operation was told to write the new root to.
-/
import OServer.Btree
import Mathlib.Tactic.Linarith

namespace OServer

open Avl (AvlTree Growth)

/-! ## 1. The tree in memory -/

/-- The subtree hanging from `link` is `tr`. -/
def Btree.Holds (t : Btree) : Option Ptr → AvlTree Ptr → Prop
  | link, .nil => link = none
  | link, .node l p bf r =>
      link = some p ∧ (t.node p).balanceFactor = bf ∧
        t.Holds (t.node p).llink l ∧ t.Holds (t.rightChild p) r

theorem Btree.rightChild_congr {t t' : Btree} {p : Ptr} (h : t'.node p = t.node p) :
    t'.rightChild p = t.rightChild p := by
  simp only [rightChild, h]

/-- Only the nodes of the tree matter. -/
theorem Btree.Holds.congr {t t' : Btree} {link : Option Ptr} {tr : AvlTree Ptr}
    (h : t.Holds link tr) (hnode : ∀ q ∈ tr.toList, t'.node q = t.node q) :
    t'.Holds link tr := by
  induction tr generalizing link with
  | nil => exact h
  | node l p bf r ihl ihr =>
    rcases h with ⟨hlink, hbf, hl, hr⟩
    have hp : t'.node p = t.node p := hnode p (by simp)
    refine ⟨hlink, by rw [hp]; exact hbf, ?_, ?_⟩
    · rw [hp]
      exact ihl hl fun q hq => hnode q (by simp [hq])
    · rw [Btree.rightChild_congr hp]
      exact ihr hr fun q hq => hnode q (by simp [hq])

theorem Btree.Holds.none_iff {t : Btree} {link : Option Ptr} {tr : AvlTree Ptr}
    (h : t.Holds link tr) : link = none ↔ tr = .nil := by
  cases tr with
  | nil => exact iff_of_true h rfl
  | node l p bf r => simp [h.1]

theorem Btree.Holds.llink {t : Btree} {link : Option Ptr} {l r : AvlTree Ptr} {p : Ptr} {bf : Int}
    (h : t.Holds link (.node l p bf r)) : t.Holds (t.node p).llink l := h.2.2.1

theorem Btree.Holds.rightChild {t : Btree} {link : Option Ptr} {l r : AvlTree Ptr} {p : Ptr}
    {bf : Int} (h : t.Holds link (.node l p bf r)) : t.Holds (t.rightChild p) r := h.2.2.2

/-- A right subtree that is not empty hangs from a real link. -/
theorem Btree.rlink_of_rightChild {t : Btree} {p q : Ptr} (h : t.rightChild p = some q) :
    (t.node p).rflag = false ∧ (t.node p).rlink = some q := by
  unfold rightChild at h
  cases hf : (t.node p).rflag with
  | true => simp [hf] at h
  | false => simpa [hf] using h

theorem Btree.rightChild_of_not_rflag {t : Btree} {p : Ptr} (h : (t.node p).rflag = false) :
    t.rightChild p = (t.node p).rlink := by simp [rightChild, h]

/-- The link is not stored in one of the nodes `S`. -/
def LinkAddr.Outside (S : List Ptr) : LinkAddr → Prop
  | .treeRoot => True
  | .llink p => p ∉ S
  | .rlink p => p ∉ S

theorem LinkAddr.Outside.mono {S T : List Ptr} {link : LinkAddr} (h : link.Outside T)
    (hST : ∀ q ∈ S, q ∈ T) : link.Outside S := by
  cases link with
  | treeRoot => trivial
  | llink p => exact fun hp => h (hST p hp)
  | rlink p => exact fun hp => h (hST p hp)

namespace Btree

theorem put_node_of_outside {t : Btree} {link : LinkAddr} {S : List Ptr} (v : Option Ptr)
    (ho : link.Outside S) {q : Ptr} (hq : q ∈ S) : (t.put link v).node q = t.node q := by
  cases link with
  | treeRoot => rfl
  | llink p => simp [put, modify_node_ne t _ (ne_of_mem_of_not_mem hq ho)]
  | rlink p => simp [put, modify_node_ne t _ (ne_of_mem_of_not_mem hq ho)]

theorem put_node_congr {t t' : Btree} (link : LinkAddr) (v : Option Ptr) {q : Ptr}
    (h : t'.node q = t.node q) : (t'.put link v).node q = (t.put link v).node q := by
  cases link with
  | treeRoot => exact h
  | llink p =>
    by_cases hq : q = p
    · subst hq; simp [put, h]
    · simp [put, modify_node, hq, h]
  | rlink p =>
    by_cases hq : q = p
    · subst hq; simp [put, h]
    · simp [put, modify_node, hq, h]

theorem put_root_congr {t t' : Btree} (link : LinkAddr) (v : Option Ptr)
    (h : t'.root = t.root) : (t'.put link v).root = (t.put link v).root := by
  cases link with
  | treeRoot => rfl
  | llink p => exact h
  | rlink p => exact h

@[simp] theorem put_get (t : Btree) (link : LinkAddr) : t.put link (t.get link) = t := by
  cases link <;> simp [put, modify]

@[simp] theorem put_node_key (t : Btree) (link : LinkAddr) (v : Option Ptr) (q : Ptr) :
    ((t.put link v).node q).key = (t.node q).key := by
  cases link with
  | treeRoot => rfl
  | llink p => by_cases hq : q = p <;> simp [put, modify_node, hq]
  | rlink p => by_cases hq : q = p <;> simp [put, modify_node, hq]

/-- `t'` differs from `t` at most in the nodes `S` and in what is stored at
    `link`; keys are the same everywhere. -/
structure Framed (t t' : Btree) (link : LinkAddr) (S : List Ptr) : Prop where
  brk : t'.brk = t.brk
  root : t'.root = (t.put link (t'.get link)).root
  node : ∀ q, q ∉ S → t'.node q = (t.put link (t'.get link)).node q
  key : ∀ q, (t'.node q).key = (t.node q).key

theorem Framed.refl (t : Btree) (link : LinkAddr) (S : List Ptr) : Framed t t link S :=
  ⟨rfl, by rw [put_get], fun q _ => by rw [put_get], fun _ => rfl⟩

theorem Framed.mono {t t' : Btree} {link : LinkAddr} {S T : List Ptr} (h : Framed t t' link S)
    (hST : ∀ q ∈ S, q ∈ T) : Framed t t' link T :=
  ⟨h.brk, h.root, fun q hq => h.node q fun hS => hq (hST q hS), h.key⟩

@[simp] theorem put_put (t : Btree) (link : LinkAddr) (v w : Option Ptr) :
    (t.put link v).put link w = t.put link w := by
  cases link <;> simp [put, modify]

theorem get_congr_of_outside {t t' : Btree} {link : LinkAddr} {S : List Ptr}
    (hroot : t'.root = t.root) (hnode : ∀ q, q ∉ S → t'.node q = t.node q)
    (ho : link.Outside S) : t'.get link = t.get link := by
  cases link with
  | treeRoot => exact hroot
  | llink p => simp [hnode p ho]
  | rlink p => simp [hnode p ho]

theorem Framed.trans {t t₁ t₂ : Btree} {link : LinkAddr} {S : List Ptr}
    (h₁ : Framed t t₁ link S) (h₂ : Framed t₁ t₂ link S) : Framed t t₂ link S := by
  refine ⟨h₂.brk.trans h₁.brk, ?_, ?_, fun q => (h₂.key q).trans (h₁.key q)⟩
  · rw [h₂.root, put_root_congr (t := t.put link (t₁.get link)) link _ h₁.root, put_put]
  · intro q hq
    rw [h₂.node q hq, put_node_congr (t := t.put link (t₁.get link)) link _ (h₁.node q hq),
      put_put]

/-- A change of one node that keeps its key frames every subtree with the node. -/
theorem framed_modify (t : Btree) {link : LinkAddr} {S : List Ptr} {p : Ptr}
    (f : BtNodeEntry → BtNodeEntry) (hp : p ∈ S) (ho : link.Outside S)
    (hkey : (f (t.node p)).key = (t.node p).key) : Framed t (t.modify p f) link S := by
  have hnode : ∀ q, q ∉ S → (t.modify p f).node q = t.node q := fun q hq =>
    modify_node_ne t f (ne_of_mem_of_not_mem hp hq).symm
  have hget : (t.modify p f).get link = t.get link := get_congr_of_outside rfl hnode ho
  refine ⟨rfl, by rw [hget, put_get]; rfl, fun q hq => by rw [hget, put_get, hnode q hq], ?_⟩
  intro q
  by_cases hq : q = p
  · rw [hq, modify_node_self, hkey]
  · rw [modify_node_ne t f hq]

/-- What an operation on the right subtree of `p` means for the tree of `p`. -/
theorem Holds.replaceRight {t t' : Btree} {link : LinkAddr} {l r r' : AvlTree Ptr} {p : Ptr}
    {bf : Int} {S : List Ptr} (h : t.Holds (t.get link) (.node l p bf r))
    (hf : (t.node p).rflag = false) (hfr : Framed t t' (.rlink p) S)
    (hr' : t'.Holds (t'.get (.rlink p)) r') (hpS : p ∉ S) (hl : ∀ q ∈ l.toList, q ≠ p ∧ q ∉ S)
    (ho : link.Outside (p :: S)) :
    t'.Holds (t'.get link) (.node l p bf r') ∧ Framed t t' link (p :: S) := by
  rcases h with ⟨hlink, hbf, hl₀, -⟩
  have hnode : ∀ q, q ∉ p :: S → t'.node q = t.node q := by
    intro q hq
    simp only [List.mem_cons, not_or] at hq
    rw [hfr.node q hq.2]
    simp [put, modify_node_ne t _ hq.1]
  have hget : t'.get link = t.get link := get_congr_of_outside hfr.root hnode ho
  have hp : t'.node p = { t.node p with rlink := (t'.node p).rlink } := by
    have hp' := hfr.node p hpS
    simp only [put, modify_node_self, get_rlink] at hp'
    exact hp'
  have hlp : ∀ q ∈ l.toList, t'.node q = t.node q := fun q hq =>
    hnode q (by simp [hl q hq])
  constructor
  · refine ⟨by rw [hget, hlink], by rw [hp]; exact hbf, ?_, ?_⟩
    · rw [hp]
      exact hl₀.congr hlp
    · rw [rightChild_of_not_rflag (by rw [hp]; exact hf)]
      exact hr'
  · refine ⟨hfr.brk, ?_, ?_, hfr.key⟩
    · rw [hget, put_get]
      exact hfr.root
    · intro q hq
      rw [hget, put_get, hnode q hq]

/-- What an operation on the left subtree of `p` means for the tree of `p`. -/
theorem Holds.replaceLeft {t t' : Btree} {link : LinkAddr} {l l' r : AvlTree Ptr} {p : Ptr}
    {bf : Int} {S : List Ptr} (h : t.Holds (t.get link) (.node l p bf r))
    (hfr : Framed t t' (.llink p) S) (hl' : t'.Holds (t'.get (.llink p)) l') (hpS : p ∉ S)
    (hr : ∀ q ∈ r.toList, q ≠ p ∧ q ∉ S) (ho : link.Outside (p :: S)) :
    t'.Holds (t'.get link) (.node l' p bf r) ∧ Framed t t' link (p :: S) := by
  rcases h with ⟨hlink, hbf, -, hr₀⟩
  have hnode : ∀ q, q ∉ p :: S → t'.node q = t.node q := by
    intro q hq
    simp only [List.mem_cons, not_or] at hq
    rw [hfr.node q hq.2]
    simp [put, modify_node_ne t _ hq.1]
  have hget : t'.get link = t.get link := get_congr_of_outside hfr.root hnode ho
  have hp : t'.node p = { t.node p with llink := (t'.node p).llink } := by
    have hp' := hfr.node p hpS
    simp only [put, modify_node_self, get_llink] at hp'
    exact hp'
  have hrp : ∀ q ∈ r.toList, t'.node q = t.node q := fun q hq =>
    hnode q (by simp [hr q hq])
  constructor
  · refine ⟨by rw [hget, hlink], by rw [hp]; exact hbf, hl', ?_⟩
    have hrc : t'.rightChild p = t.rightChild p := by
      unfold Btree.rightChild
      rw [hp]
    rw [hrc]
    exact hr₀.congr hrp
  · refine ⟨hfr.brk, ?_, ?_, hfr.key⟩
    · rw [hget, put_get]
      exact hfr.root
    · intro q hq
      rw [hget, put_get, hnode q hq]

/-- Overwriting the root without changing which subtrees hang from it. -/
theorem Holds.modifyRoot {t : Btree} {link : LinkAddr} {l r : AvlTree Ptr} {p : Ptr} {bf : Int}
    (h : t.Holds (t.get link) (.node l p bf r)) (f : BtNodeEntry → BtNodeEntry)
    (hkey : (f (t.node p)).key = (t.node p).key)
    (hll : (f (t.node p)).llink = (t.node p).llink)
    (hrc : (if (f (t.node p)).rflag then none else (f (t.node p)).rlink) = t.rightChild p)
    (hn : (AvlTree.node l p bf r).toList.Nodup)
    (ho : link.Outside (AvlTree.node l p bf r).toList) :
    (t.modify p f).Holds ((t.modify p f).get link) (.node l p (f (t.node p)).balanceFactor r) ∧
      Framed t (t.modify p f) link (AvlTree.node l p bf r).toList := by
  have hfr : Framed t (t.modify p f) link (AvlTree.node l p bf r).toList :=
    framed_modify t _ (by simp) ho hkey
  simp only [AvlTree.toList_node, List.nodup_append, List.nodup_cons, List.mem_cons] at hn
  rcases hn with ⟨-, ⟨hpr, -⟩, hlp⟩
  rcases h with ⟨hlink, -, hl, hr⟩
  have hne : ∀ q, q ≠ p → (t.modify p f).node q = t.node q := fun q hq => modify_node_ne t _ hq
  have hget : (t.modify p f).get link = t.get link :=
    get_congr_of_outside (S := [p]) rfl (fun q hq => hne q (by simpa using hq))
      (ho.mono (by simp))
  refine ⟨⟨by rw [hget, hlink], by rw [modify_node_self], ?_, ?_⟩, hfr⟩
  · rw [modify_node_self, hll]
    exact hl.congr fun q hq => hne q (hlp q hq p (Or.inl rfl))
  · have hrc' : (t.modify p f).rightChild p = t.rightChild p := by
      rw [← hrc, Btree.rightChild, modify_node_self]
    rw [hrc']
    exact hr.congr fun q hq => hne q (ne_of_mem_of_not_mem hq hpr)

/-- Storing another factor in the root. -/
theorem Holds.setFactor {t : Btree} {link : LinkAddr} {l r : AvlTree Ptr} {p : Ptr} {bf : Int}
    (h : t.Holds (t.get link) (.node l p bf r)) (bf' : Int)
    (hn : (AvlTree.node l p bf r).toList.Nodup)
    (ho : link.Outside (AvlTree.node l p bf r).toList) :
    let t' := t.modify p fun e => { e with balanceFactor := bf' }
    t'.Holds (t'.get link) (.node l p bf' r) ∧
      Framed t t' link (AvlTree.node l p bf r).toList :=
  h.modifyRoot _ rfl rfl rfl hn ho

/-- A thread in the root's right link is dropped. -/
theorem Holds.clearThread {t : Btree} {link : LinkAddr} {l r : AvlTree Ptr} {p : Ptr} {bf : Int}
    (h : t.Holds (t.get link) (.node l p bf r)) (hn : (AvlTree.node l p bf r).toList.Nodup)
    (ho : link.Outside (AvlTree.node l p bf r).toList) :
    (clearThread t p).Holds ((clearThread t p).get link) (.node l p bf r) ∧
      Framed t (clearThread t p) link (AvlTree.node l p bf r).toList ∧
      ((clearThread t p).node p).rflag = false := by
  unfold OServer.clearThread
  cases hflag : (t.node p).rflag with
  | false =>
    simp only [Bool.false_eq_true, if_false]
    exact ⟨h, Framed.refl t link _, hflag⟩
  | true =>
    simp only [if_true]
    obtain ⟨hh, hfr⟩ := h.modifyRoot (fun e => { e with rflag := false, rlink := none }) rfl rfl
      (by simp [Btree.rightChild, hflag]) hn ho
    have hbf : (t.node p).balanceFactor = bf := h.2.1
    rw [hbf] at hh
    exact ⟨hh, hfr, by simp⟩

end Btree

/-! ## 2. Rotations -/

/-- The outcome of a rotation that made `y` the root in place of `x`, with the
    new contents `ex` and `ey` of the two nodes. -/
structure Rotated (t t' : Btree) (link : LinkAddr) (x y : Ptr) (ex ey : BtNodeEntry) : Prop where
  brk : t'.brk = t.brk
  root : t'.root = (t.put link (some y)).root
  top : t'.get link = some y
  down : t'.node x = ex
  up : t'.node y = ey
  node : ∀ q, q ≠ x → q ≠ y → t'.node q = (t.put link (some y)).node q

theorem btreeLeftRotate_rotated {t : Btree} {link : LinkAddr} {x y : Ptr} {b' d' : Int}
    (hx : t.get link = some x) (hy : (t.node x).rlink = some y) (hxy : x ≠ y)
    (ho : link.Outside [x, y])
    (hb : b' = (t.node x).balanceFactor +
      (if (t.node y).balanceFactor < 0 then 1 - (t.node y).balanceFactor else 1))
    (hd : d' = (t.node y).balanceFactor + (if 0 < b' then 1 + b' else 1)) :
    ∃ t', btreeLeftRotate t link = some t' ∧
      Rotated t t' link x y
        { t.node x with rlink := (t.node y).llink, balanceFactor := b' }
        { t.node y with llink := some x, balanceFactor := d' } := by
  have hyx : y ≠ x := hxy.symm
  subst hb hd
  simp only [btreeLeftRotate, hx, hy, Option.bind_eq_bind, Option.bind_some]
  refine ⟨_, rfl, ?_⟩
  cases link with
  | treeRoot =>
    constructor
    all_goals simp [Btree.put, Btree.modify_node, hxy, hyx]
    intro q hqx hqy
    simp [hqx, hqy]
  | llink p =>
    simp only [LinkAddr.Outside, List.mem_cons, List.not_mem_nil, or_false, not_or] at ho
    rcases ho with ⟨hpx, hpy⟩
    constructor
    all_goals simp [Btree.put, Btree.modify_node, hxy, hyx, hpx, hpy, Ne.symm hpx, Ne.symm hpy]
    intro q hqx hqy
    simp [hqx, hqy]
  | rlink p =>
    simp only [LinkAddr.Outside, List.mem_cons, List.not_mem_nil, or_false, not_or] at ho
    rcases ho with ⟨hpx, hpy⟩
    constructor
    all_goals simp [Btree.put, Btree.modify_node, hxy, hyx, hpx, hpy, Ne.symm hpx, Ne.symm hpy]
    intro q hqx hqy
    simp [hqx, hqy]

theorem btreeRightRotate_rotated {t : Btree} {link : LinkAddr} {x y : Ptr} {b' d' : Int}
    (hx : t.get link = some x) (hy : (t.node x).llink = some y) (hxy : x ≠ y)
    (ho : link.Outside [x, y])
    (hb : b' = (t.node x).balanceFactor -
      (if 0 < (t.node y).balanceFactor then 1 + (t.node y).balanceFactor else 1))
    (hd : d' = (t.node y).balanceFactor - (if b' < 0 then 1 - b' else 1)) :
    ∃ t', btreeRightRotate t link = some t' ∧
      Rotated t t' link x y
        { t.node x with llink := t.rightChild y, balanceFactor := b' }
        { t.node y with rflag := false, rlink := some x, balanceFactor := d' } := by
  have hyx : y ≠ x := hxy.symm
  subst hb hd
  simp only [btreeRightRotate, hx, hy, Option.bind_eq_bind, Option.bind_some]
  refine ⟨_, rfl, ?_⟩
  cases link with
  | treeRoot =>
    constructor
    all_goals simp [Btree.put, Btree.modify_node, Btree.rightChild, hxy, hyx]
    intro q hqx hqy
    simp [hqx, hqy]
  | llink p =>
    simp only [LinkAddr.Outside, List.mem_cons, List.not_mem_nil, or_false, not_or] at ho
    rcases ho with ⟨hpx, hpy⟩
    constructor
    all_goals simp [Btree.put, Btree.modify_node, Btree.rightChild, hxy, hyx, hpx, hpy,
      Ne.symm hpx, Ne.symm hpy]
    intro q hqx hqy
    simp [hqx, hqy]
  | rlink p =>
    simp only [LinkAddr.Outside, List.mem_cons, List.not_mem_nil, or_false, not_or] at ho
    rcases ho with ⟨hpx, hpy⟩
    constructor
    all_goals simp [Btree.put, Btree.modify_node, Btree.rightChild, hxy, hyx, hpx, hpy,
      Ne.symm hpx, Ne.symm hpy]
    intro q hqx hqy
    simp [hqx, hqy]

/-- A rotation frames the subtree it works on. -/
theorem Rotated.framed {t t' : Btree} {link : LinkAddr} {x y : Ptr} {ex ey : BtNodeEntry}
    {S : List Ptr} (h : Rotated t t' link x y ex ey) (hx : x ∈ S) (hy : y ∈ S)
    (hkx : ex.key = (t.node x).key) (hky : ey.key = (t.node y).key) :
    Btree.Framed t t' link S := by
  refine ⟨h.brk, by rw [h.top]; exact h.root, ?_, ?_⟩
  · intro q hq
    rw [h.top]
    exact h.node q (ne_of_mem_of_not_mem hx hq).symm (ne_of_mem_of_not_mem hy hq).symm
  · intro q
    by_cases hqx : q = x
    · rw [hqx, h.down, hkx]
    · by_cases hqy : q = y
      · rw [hqy, h.up, hky]
      · rw [h.node q hqx hqy, Btree.put_node_key]

/-- A subtree that contains neither of the two rotated nodes is untouched. -/
theorem Rotated.holds {t t' : Btree} {link : LinkAddr} {x y : Ptr} {ex ey : BtNodeEntry}
    {v : Option Ptr} {tr : AvlTree Ptr} (h : Rotated t t' link x y ex ey) (ht : t.Holds v tr)
    (hx : x ∉ tr.toList) (hy : y ∉ tr.toList) (ho : link.Outside tr.toList) : t'.Holds v tr := by
  apply ht.congr
  intro q hq
  rw [h.node q (ne_of_mem_of_not_mem hq hx) (ne_of_mem_of_not_mem hq hy)]
  exact Btree.put_node_of_outside _ ho hq

theorem btreeLeftRotate_holds {t : Btree} {link : LinkAddr} {a c e : AvlTree Ptr} {x y : Ptr}
    {b d : Int} (h : t.Holds (t.get link) (.node a x b (.node c y d e)))
    (hn : (AvlTree.node a x b (.node c y d e)).toList.Nodup)
    (ho : link.Outside (AvlTree.node a x b (.node c y d e)).toList) :
    ∃ t', btreeLeftRotate t link = some t' ∧
      t'.Holds (t'.get link) (AvlTree.rotateLeft (.node a x b (.node c y d e))) ∧
      Btree.Framed t t' link (AvlTree.node a x b (.node c y d e)).toList := by
  rcases h with ⟨hx, hxb, ha, hy, hyb, hc, he⟩
  rcases Btree.rlink_of_rightChild hy with ⟨hxf, hxr⟩
  simp only [AvlTree.toList_node, List.nodup_append, List.nodup_cons, List.mem_append,
    List.mem_cons, not_or] at hn
  rcases hn with ⟨-, ⟨⟨hxc, hxy, hxe⟩, -, ⟨hye, -⟩, hce⟩, hal⟩
  have hxa : x ∉ a.toList := fun hm => hal x hm x (Or.inl rfl) rfl
  have hya : y ∉ a.toList := fun hm => hal y hm y (Or.inr (Or.inr (Or.inl rfl))) rfl
  have hyc : y ∉ c.toList := fun hm => hce y hm y (Or.inl rfl) rfl
  obtain ⟨t', hrun, hrot⟩ := btreeLeftRotate_rotated hx hxr hxy
    (ho.mono (by simp)) rfl rfl
  refine ⟨t', hrun, ?_, hrot.framed (by simp) (by simp) rfl rfl⟩
  have hya' := hrot.holds ha hxa hya (ho.mono (by simp +contextual))
  have hyc' := hrot.holds hc hxc hyc (ho.mono (by simp +contextual))
  have hye' := hrot.holds he hxe hye (ho.mono (by simp +contextual))
  simp only [AvlTree.rotateLeft, Btree.Holds, hrot.top, hrot.down, hrot.up, Btree.rightChild, hxf,
    hxb, hyb, true_and, Bool.false_eq_true, if_false]
  exact ⟨⟨hya', hyc'⟩, hye'⟩

theorem btreeRightRotate_holds {t : Btree} {link : LinkAddr} {a c e : AvlTree Ptr} {x y : Ptr}
    {b d : Int} (h : t.Holds (t.get link) (.node (.node a y d c) x b e))
    (hn : (AvlTree.node (.node a y d c) x b e).toList.Nodup)
    (ho : link.Outside (AvlTree.node (.node a y d c) x b e).toList) :
    ∃ t', btreeRightRotate t link = some t' ∧
      t'.Holds (t'.get link) (AvlTree.rotateRight (.node (.node a y d c) x b e)) ∧
      Btree.Framed t t' link (AvlTree.node (.node a y d c) x b e).toList := by
  rcases h with ⟨hx, hxb, ⟨hy, hyb, ha, hc⟩, he⟩
  simp only [AvlTree.toList_node, List.nodup_append, List.nodup_cons, List.mem_append,
    List.mem_cons] at hn
  rcases hn with ⟨⟨-, ⟨hyc, -⟩, hac⟩, ⟨hxe, -⟩, hle⟩
  have hya : y ∉ a.toList := fun hm => hac y hm y (Or.inl rfl) rfl
  have hyx : y ≠ x := hle y (Or.inr (Or.inl rfl)) x (Or.inl rfl)
  have hxa : x ∉ a.toList := fun hm => hle x (Or.inl hm) x (Or.inl rfl) rfl
  have hxc : x ∉ c.toList := fun hm => hle x (Or.inr (Or.inr hm)) x (Or.inl rfl) rfl
  have hye : y ∉ e.toList := fun hm => hle y (Or.inr (Or.inl rfl)) y (Or.inr hm) rfl
  obtain ⟨t', hrun, hrot⟩ := btreeRightRotate_rotated hx hy hyx.symm
    (ho.mono (by simp)) rfl rfl
  refine ⟨t', hrun, ?_, hrot.framed (by simp) (by simp) rfl rfl⟩
  have ha' := hrot.holds ha hxa hya (ho.mono (by simp +contextual))
  have hc' := hrot.holds hc hxc hyc (ho.mono (by simp +contextual))
  have he' := hrot.holds he hxe hye (ho.mono (by simp +contextual))
  have hex : t'.rightChild x = t.rightChild x := by
    simp only [Btree.rightChild, hrot.down]
  rw [← hex] at he'
  simp only [AvlTree.rotateRight, Btree.Holds, hrot.top, hrot.up, hrot.down, hxb, hyb, true_and]
  refine ⟨ha', ?_⟩
  have hup : t'.rightChild y = some x := by simp [Btree.rightChild, hrot.up]
  exact ⟨hup, hc', he'⟩

/-! ## 3. The switch after the recursive call -/

/-- The code by which `btree_internal_insert` reports a growth. -/
def InsertResult.ofGrowth : Growth → InsertResult
  | .exist => .exist
  | .ok => .ok
  | .left => .left
  | .right => .right
  | .balanced => .balanced

theorem assertBalanced_of_holds {t : Btree} {link : LinkAddr} {tr : AvlTree Ptr}
    (h : t.Holds (t.get link) tr) (hne : tr ≠ .nil) (hf : tr.factor = 0) :
    assertBalanced t link = some t := by
  cases tr with
  | nil => exact absurd rfl hne
  | node l p bf r =>
    rcases h with ⟨hp, hbf, -, -⟩
    simp only [AvlTree.factor_node] at hf
    simp [assertBalanced, hp, hbf, hf]

/-- Rebalancing in memory when the right subtree has become too high. -/
theorem rebalanceRight_holds {t : Btree} {link : LinkAddr} {l r : AvlTree Ptr} {p : Ptr}
    {g : Growth} (h : t.Holds (t.get link) (.node l p (-2) r)) (hl : l.Balanced)
    (hr : r.Balanced) (hg : g = .left ∧ r.factor = 1 ∨ g = .right ∧ r.factor = -1)
    (hh : r.height = l.height + 2) (hn : (AvlTree.node l p (-2) r).toList.Nodup)
    (ho : link.Outside (AvlTree.node l p (-2) r).toList) :
    ∃ t', rebalanceRight t link p (.ofGrowth g) = some t' ∧
      t'.Holds (t'.get link)
        (AvlTree.rotateLeft (.node l p (-2) (if g = .left then r.rotateRight else r))) ∧
      Btree.Framed t t' link (AvlTree.node l p (-2) r).toList := by
  rcases AvlTree.rebalanceRight (a := p) hl hr hg hh with ⟨-, h0, hH⟩
  have hne : AvlTree.rotateLeft (.node l p (-2) (if g = .left then r.rotateRight else r)) ≠
      .nil := by
    intro hnil
    rw [hnil, AvlTree.height_nil] at hH
    omega
  have hn' := hn
  simp only [AvlTree.toList_node, List.nodup_append, List.nodup_cons, List.mem_cons] at hn'
  rcases hn' with ⟨-, ⟨hpr, hnr⟩, hlp⟩
  rcases hg with ⟨rfl, hf⟩ | ⟨rfl, hf⟩
  · -- the higher grandchild is the inner one: a rotation below comes first
    rcases AvlTree.exists_node_of_factor_ne_zero (t := r) (by omega) with ⟨m, y, e, hre⟩
    rw [hf] at hre
    subst hre
    rcases hr with ⟨-, -, hme, -, -⟩
    cases m with
    | nil => simp only [AvlTree.height_nil] at hme; omega
    | node c z d f =>
      rcases Btree.rlink_of_rightChild h.rightChild.1 with ⟨hflag, -⟩
      have hr₀ := h.rightChild
      rw [Btree.rightChild_of_not_rflag hflag] at hr₀
      have hor : (LinkAddr.rlink p).Outside (AvlTree.node (.node c z d f) y 1 e).toList := hpr
      rcases btreeRightRotate_holds hr₀ hnr hor with ⟨t₁, hrun₁, hh₁, hfr₁⟩
      obtain ⟨hh₁', hfr₁'⟩ := h.replaceRight hflag hfr₁ hh₁ hpr
        (fun q hq => ⟨hlp q hq p (Or.inl rfl), fun hqr => hlp q hq q (Or.inr hqr) rfl⟩)
        (ho.mono (by simp +contextual))
      have hlist : (AvlTree.node l p (-2)
          (AvlTree.rotateRight (.node (.node c z d f) y 1 e))).toList =
          (AvlTree.node l p (-2) (.node (.node c z d f) y 1 e)).toList := by
        simp [AvlTree.rotateRight]
      rw [AvlTree.rotateRight] at hlist
      obtain ⟨t₂, hrun₂, hh₂, hfr₂⟩ :=
        btreeLeftRotate_holds hh₁' (by rw [hlist]; exact hn) (by rw [hlist]; exact ho)
      rw [hlist] at hfr₂
      refine ⟨t₂, ?_, hh₂, (hfr₁'.mono (by simp +contextual)).trans hfr₂⟩
      simp [rebalanceRight, InsertResult.ofGrowth, hrun₁, hrun₂,
        assertBalanced_of_holds hh₂ hne h0]
  · rcases AvlTree.exists_node_of_factor_ne_zero (t := r) (by omega) with ⟨c, y, e, hre⟩
    rw [hf] at hre
    subst hre
    rcases btreeLeftRotate_holds h hn ho with ⟨t₂, hrun₂, hh₂, hfr₂⟩
    refine ⟨t₂, ?_, hh₂, hfr₂⟩
    simp [rebalanceRight, InsertResult.ofGrowth, hrun₂, assertBalanced_of_holds hh₂ hne h0]

/-- Rebalancing in memory when the left subtree has become too high. -/
theorem rebalanceLeft_holds {t : Btree} {link : LinkAddr} {l r : AvlTree Ptr} {p : Ptr}
    {g : Growth} (h : t.Holds (t.get link) (.node l p 2 r)) (hl : l.Balanced)
    (hr : r.Balanced) (hg : g = .left ∧ l.factor = 1 ∨ g = .right ∧ l.factor = -1)
    (hh : l.height = r.height + 2) (hn : (AvlTree.node l p 2 r).toList.Nodup)
    (ho : link.Outside (AvlTree.node l p 2 r).toList) :
    ∃ t', rebalanceLeft t link p (.ofGrowth g) = some t' ∧
      t'.Holds (t'.get link)
        (AvlTree.rotateRight (.node (if g = .right then l.rotateLeft else l) p 2 r)) ∧
      Btree.Framed t t' link (AvlTree.node l p 2 r).toList := by
  rcases AvlTree.rebalanceLeft (a := p) hl hr hg hh with ⟨-, h0, hH⟩
  have hne : AvlTree.rotateRight (.node (if g = .right then l.rotateLeft else l) p 2 r) ≠
      .nil := by
    intro hnil
    rw [hnil, AvlTree.height_nil] at hH
    omega
  have hn' := hn
  simp only [AvlTree.toList_node, List.nodup_append, List.nodup_cons, List.mem_cons] at hn'
  rcases hn' with ⟨hnl, ⟨hpr, -⟩, hlp⟩
  have hpl : p ∉ l.toList := fun hm => hlp p hm p (Or.inl rfl) rfl
  rcases hg with ⟨rfl, hf⟩ | ⟨rfl, hf⟩
  · rcases AvlTree.exists_node_of_factor_ne_zero (t := l) (by omega) with ⟨c, y, e, hle⟩
    rw [hf] at hle
    subst hle
    rcases btreeRightRotate_holds h hn ho with ⟨t₂, hrun₂, hh₂, hfr₂⟩
    refine ⟨t₂, ?_, hh₂, hfr₂⟩
    simp [rebalanceLeft, InsertResult.ofGrowth, hrun₂, assertBalanced_of_holds hh₂ hne h0]
  · rcases AvlTree.exists_node_of_factor_ne_zero (t := l) (by omega) with ⟨e, y, m, hle⟩
    rw [hf] at hle
    subst hle
    rcases hl with ⟨-, -, hme, -, -⟩
    cases m with
    | nil => simp only [AvlTree.height_nil] at hme; omega
    | node c z d f =>
      have hll : t.Holds (t.get (.llink p)) _ := h.llink
      rcases btreeLeftRotate_holds hll hnl hpl with ⟨t₁, hrun₁, hh₁, hfr₁⟩
      obtain ⟨hh₁', hfr₁'⟩ := h.replaceLeft hfr₁ hh₁ hpl
        (fun q hq => ⟨ne_of_mem_of_not_mem hq hpr, fun hql => hlp q hql q (Or.inr hq) rfl⟩)
        (ho.mono fun q hq => by
          rcases List.mem_cons.mp hq with rfl | hq
          · simp
          · exact List.mem_append_left _ hq)
      have hlist : (AvlTree.node
          (AvlTree.rotateLeft (.node e y (-1) (.node c z d f))) p 2 r).toList =
          (AvlTree.node (.node e y (-1) (.node c z d f)) p 2 r).toList := by
        simp [AvlTree.rotateLeft]
      rw [AvlTree.rotateLeft] at hlist
      obtain ⟨t₂, hrun₂, hh₂, hfr₂⟩ :=
        btreeRightRotate_holds hh₁' (by rw [hlist]; exact hn) (by rw [hlist]; exact ho)
      rw [hlist] at hfr₂
      refine ⟨t₂, ?_, hh₂, (hfr₁'.mono fun q hq => ?_).trans hfr₂⟩
      · simp [rebalanceLeft, InsertResult.ofGrowth, hrun₁, hrun₂,
          assertBalanced_of_holds hh₂ hne h0]
      · rcases List.mem_cons.mp hq with rfl | hq
        · simp
        · exact List.mem_append_left _ hq

theorem reportGrowth_of_holds {t : Btree} {link : LinkAddr} {tr : AvlTree Ptr}
    (h : t.Holds (t.get link) tr) (hne : tr ≠ .nil) (side : InsertResult) :
    reportGrowth t link side = some (t, if tr.factor ≠ 0 then side else .balanced) := by
  cases tr with
  | nil => exact absurd rfl hne
  | node l p bf r =>
    by_cases hbf : bf = 0 <;> simp [reportGrowth, h.1, h.2.1, hbf]

theorem settleRight_holds {t : Btree} {link : LinkAddr} {l r r' : AvlTree Ptr} {p : Ptr}
    {bf : Int} {g : Growth} (h : t.Holds (t.get link) (.node l p bf r'))
    (hB : (AvlTree.node l p bf r).Balanced) (hB' : r'.Balanced) (hg : g.Describes r r')
    (hn : (AvlTree.node l p bf r').toList.Nodup)
    (ho : link.Outside (AvlTree.node l p bf r').toList) :
    ∃ t', settleRight t link p (.ofGrowth g) =
        some (t', .ofGrowth (AvlTree.settleRight l p bf r' g).2) ∧
      t'.Holds (t'.get link) (AvlTree.settleRight l p bf r' g).1 ∧
      Btree.Framed t t' link (AvlTree.node l p bf r').toList := by
  rcases hB with ⟨hl, -, hbf, hlo, hhi⟩
  cases hgrew : g.grew with
  | false =>
    rw [AvlTree.settleRight_keep l p bf r' hgrew]
    refine ⟨t, ?_, h, Btree.Framed.refl t link _⟩
    cases g <;> first | rfl | cases hgrew
  | true =>
    -- the factor is decremented first; `p` is still the root
    rcases h.setFactor (bf - 1) hn ho with ⟨h₁, hfr₁⟩
    set t₁ := t.modify p fun e => { e with balanceFactor := bf - 1 } with ht₁
    have hstep : t.modify p (fun e => { e with balanceFactor := e.balanceFactor - 1 }) = t₁ := by
      simp only [ht₁, Btree.modify, h.2.1]
    have hp₁ : (t₁.node p).balanceFactor = bf - 1 := h₁.2.1
    have hrun : settleRight t link p (.ofGrowth g) =
        (if bf - 1 = -2 then rebalanceRight t₁ link p (.ofGrowth g) else some t₁).bind
          fun t => reportGrowth t link .right := by
      rw [← hp₁, ← hstep]
      cases g <;> first | rfl | cases hgrew
    rcases AvlTree.growth_of_describes hg hgrew with ⟨hh, hside⟩
    by_cases h2 : bf - 1 = -2
    · have hgf : g = .left ∧ r'.factor = 1 ∨ g = .right ∧ r'.factor = -1 := by
        rcases hside with rfl | hside
        · simp only [AvlTree.height_nil] at hbf; omega
        · exact hside
      rw [AvlTree.settleRight_rotate l p r' hgrew h2, h2]
      rcases AvlTree.rebalanceRight (a := p) hl hB' hgf (by omega) with ⟨-, h0, hRH⟩
      rw [h2] at h₁
      obtain ⟨t₂, hrun₂, hh₂, hfr₂⟩ := rebalanceRight_holds (g := g) h₁ hl hB' hgf
        (by omega) (by simpa using hn) (by simpa using ho)
      refine ⟨t₂, ?_, hh₂, hfr₁.trans (hfr₂.mono (by simp))⟩
      rw [hrun, if_pos h2, hrun₂, Option.bind_some, reportGrowth_of_holds hh₂]
      · simp [h0, InsertResult.ofGrowth]
      · intro hnil
        rw [hnil, AvlTree.height_nil] at hRH
        omega
    · rw [AvlTree.settleRight_shift l p r' hgrew h2]
      refine ⟨t₁, ?_, h₁, hfr₁⟩
      rw [hrun, if_neg h2, Option.bind_some, reportGrowth_of_holds h₁ (by simp)]
      by_cases h0 : bf - 1 = 0 <;> simp [h0, InsertResult.ofGrowth]

theorem settleLeft_holds {t : Btree} {link : LinkAddr} {l l' r : AvlTree Ptr} {p : Ptr}
    {bf : Int} {g : Growth} (h : t.Holds (t.get link) (.node l' p bf r))
    (hB : (AvlTree.node l p bf r).Balanced) (hB' : l'.Balanced) (hg : g.Describes l l')
    (hn : (AvlTree.node l' p bf r).toList.Nodup)
    (ho : link.Outside (AvlTree.node l' p bf r).toList) :
    ∃ t', settleLeft t link p (.ofGrowth g) =
        some (t', .ofGrowth (AvlTree.settleLeft l' p bf r g).2) ∧
      t'.Holds (t'.get link) (AvlTree.settleLeft l' p bf r g).1 ∧
      Btree.Framed t t' link (AvlTree.node l' p bf r).toList := by
  rcases hB with ⟨-, hr, hbf, hlo, hhi⟩
  cases hgrew : g.grew with
  | false =>
    rw [AvlTree.settleLeft_keep l' p bf r hgrew]
    refine ⟨t, ?_, h, Btree.Framed.refl t link _⟩
    cases g <;> first | rfl | cases hgrew
  | true =>
    rcases h.setFactor (bf + 1) hn ho with ⟨h₁, hfr₁⟩
    set t₁ := t.modify p fun e => { e with balanceFactor := bf + 1 } with ht₁
    have hstep : t.modify p (fun e => { e with balanceFactor := e.balanceFactor + 1 }) = t₁ := by
      simp only [ht₁, Btree.modify, h.2.1]
    have hp₁ : (t₁.node p).balanceFactor = bf + 1 := h₁.2.1
    have hrun : settleLeft t link p (.ofGrowth g) =
        (if bf + 1 = 2 then rebalanceLeft t₁ link p (.ofGrowth g) else some t₁).bind
          fun t => reportGrowth t link .left := by
      rw [← hp₁, ← hstep]
      cases g <;> first | rfl | cases hgrew
    rcases AvlTree.growth_of_describes hg hgrew with ⟨hh, hside⟩
    by_cases h2 : bf + 1 = 2
    · have hgf : g = .left ∧ l'.factor = 1 ∨ g = .right ∧ l'.factor = -1 := by
        rcases hside with rfl | hside
        · simp only [AvlTree.height_nil] at hbf; omega
        · exact hside
      rw [AvlTree.settleLeft_rotate l' p r hgrew h2, h2]
      rcases AvlTree.rebalanceLeft (a := p) hB' hr hgf (by omega) with ⟨-, h0, hRH⟩
      rw [h2] at h₁
      obtain ⟨t₂, hrun₂, hh₂, hfr₂⟩ := rebalanceLeft_holds (g := g) h₁ hB' hr hgf
        (by omega) (by simpa using hn) (by simpa using ho)
      refine ⟨t₂, ?_, hh₂, hfr₁.trans (hfr₂.mono (by simp))⟩
      rw [hrun, if_pos h2, hrun₂, Option.bind_some, reportGrowth_of_holds hh₂]
      · simp [h0, InsertResult.ofGrowth]
      · intro hnil
        rw [hnil, AvlTree.height_nil] at hRH
        omega
    · rw [AvlTree.settleLeft_shift l' p r hgrew h2]
      refine ⟨t₁, ?_, h₁, hfr₁⟩
      rw [hrun, if_neg h2, Option.bind_some, reportGrowth_of_holds h₁ (by simp)]
      by_cases h0 : bf + 1 = 0 <;> simp [h0, InsertResult.ofGrowth]

/-! ## 4. Insertion -/

/-- The new node as `btree_insert` leaves it before it is linked in. -/
def Btree.Fresh (t : Btree) (x : Ptr) : Prop :=
  (t.node x).balanceFactor = 0 ∧ (t.node x).rflag = false ∧
    (t.node x).llink = none ∧ (t.node x).rlink = none

theorem Btree.Framed.fresh {t t' : Btree} {link : LinkAddr} {S : List Ptr} {x : Ptr}
    (hfr : Btree.Framed t t' link S) (hx : x ∉ S) (ho : link.Outside [x]) (h : t.Fresh x) :
    t'.Fresh x := by
  have hnode : t'.node x = t.node x := by
    rw [hfr.node x hx]
    exact Btree.put_node_of_outside _ ho (by simp)
  simpa only [Btree.Fresh, hnode] using h

/-- The empty subtree becomes the new node. -/
theorem Btree.Fresh.linkIn {t : Btree} {link : LinkAddr} {x : Ptr} (h : t.Fresh x)
    (ho : link.Outside [x]) :
    (t.put link (some x)).Holds ((t.put link (some x)).get link) (.node .nil x 0 .nil) ∧
      Btree.Framed t (t.put link (some x)) link [x] := by
  have hx : (t.put link (some x)).node x = t.node x := Btree.put_node_of_outside _ ho (by simp)
  rcases h with ⟨hbf, hflag, hll, hrl⟩
  constructor
  · refine ⟨Btree.get_put t link _, by rw [hx, hbf], by rw [hx, hll]; rfl, ?_⟩
    simp [Btree.rightChild, hx, hrl, Btree.Holds]
  · exact ⟨by simp, by simp, fun q _ => by simp, fun q => by simp⟩

section Insert
variable (key : Ptr → BtKey) (x : Ptr)

/-- The switch after an insertion on the right that did link in the new node. -/
theorem settleRight_insert_holds {t : Btree} {link : LinkAddr} {l r : AvlTree Ptr} {p : Ptr}
    {bf : Int} (h : t.Holds (t.get link) (.node l p bf (AvlTree.insert key x r).1))
    (hB : (AvlTree.node l p bf r).Balanced) (hO : (AvlTree.node l p bf r).Ordered key)
    (hlt : key p < key x) (hex : (AvlTree.insert key x r).2 ≠ .exist)
    (ho : link.Outside (x :: (AvlTree.node l p bf r).toList)) :
    ∃ t', settleRight t link p (.ofGrowth (AvlTree.insert key x r).2) =
        some (t', .ofGrowth
          (AvlTree.settleRight l p bf (AvlTree.insert key x r).1 (AvlTree.insert key x r).2).2) ∧
      t'.Holds (t'.get link)
        (AvlTree.settleRight l p bf (AvlTree.insert key x r).1 (AvlTree.insert key x r).2).1 ∧
      Btree.Framed t t' link (x :: (AvlTree.node l p bf r).toList) := by
  rcases hO with ⟨hOl, hOr, hl, hr⟩
  have hO' : (AvlTree.node l p bf (AvlTree.insert key x r).1).Ordered key := by
    refine ⟨hOl, AvlTree.insert_ordered key x hOr hex, hl, ?_⟩
    intro q hq
    rcases AvlTree.mem_insert key x r hq with rfl | hq
    · exact hlt
    · exact hr q hq
  have hsub : ∀ q ∈ (AvlTree.node l p bf (AvlTree.insert key x r).1).toList,
      q ∈ x :: (AvlTree.node l p bf r).toList := by
    intro q hq
    simp only [AvlTree.toList_node, List.mem_append, List.mem_cons] at hq ⊢
    rcases hq with hq | hq | hq
    · exact Or.inr (Or.inl hq)
    · exact Or.inr (Or.inr (Or.inl hq))
    · exact (AvlTree.mem_insert key x r hq).imp_right fun h => Or.inr (Or.inr h)
  rcases AvlTree.insert_spec key x hB.2.1 with ⟨hB', hd⟩
  rcases settleRight_holds h hB hB' hd hO'.nodup (ho.mono hsub) with ⟨t', hrun, hh, hfr⟩
  exact ⟨t', hrun, hh, hfr.mono hsub⟩

/-- The switch after an insertion on the left that did link in the new node. -/
theorem settleLeft_insert_holds {t : Btree} {link : LinkAddr} {l r : AvlTree Ptr} {p : Ptr}
    {bf : Int} (h : t.Holds (t.get link) (.node (AvlTree.insert key x l).1 p bf r))
    (hB : (AvlTree.node l p bf r).Balanced) (hO : (AvlTree.node l p bf r).Ordered key)
    (hgt : key x < key p) (hex : (AvlTree.insert key x l).2 ≠ .exist)
    (ho : link.Outside (x :: (AvlTree.node l p bf r).toList)) :
    ∃ t', settleLeft t link p (.ofGrowth (AvlTree.insert key x l).2) =
        some (t', .ofGrowth
          (AvlTree.settleLeft (AvlTree.insert key x l).1 p bf r (AvlTree.insert key x l).2).2) ∧
      t'.Holds (t'.get link)
        (AvlTree.settleLeft (AvlTree.insert key x l).1 p bf r (AvlTree.insert key x l).2).1 ∧
      Btree.Framed t t' link (x :: (AvlTree.node l p bf r).toList) := by
  rcases hO with ⟨hOl, hOr, hl, hr⟩
  have hO' : (AvlTree.node (AvlTree.insert key x l).1 p bf r).Ordered key := by
    refine ⟨AvlTree.insert_ordered key x hOl hex, hOr, fun q hq => ?_, hr⟩
    rcases AvlTree.mem_insert key x l hq with rfl | hq
    · exact hgt
    · exact hl q hq
  have hsub : ∀ q ∈ (AvlTree.node (AvlTree.insert key x l).1 p bf r).toList,
      q ∈ x :: (AvlTree.node l p bf r).toList := by
    intro q hq
    simp only [AvlTree.toList_node, List.mem_append, List.mem_cons] at hq ⊢
    rcases hq with hq | hq | hq
    · exact (AvlTree.mem_insert key x l hq).imp_right Or.inl
    · exact Or.inr (Or.inr (Or.inl hq))
    · exact Or.inr (Or.inr (Or.inr hq))
  rcases AvlTree.insert_spec key x hB.1 with ⟨hB', hd⟩
  rcases settleLeft_holds h hB hB' hd hO'.nodup (ho.mono hsub) with ⟨t', hrun, hh, hfr⟩
  exact ⟨t', hrun, hh, hfr.mono hsub⟩

/-- Where nothing can be inserted on the right there is a real right subtree. -/
theorem clearThread_of_exist {t : Btree} {link : Option Ptr} {l r : AvlTree Ptr} {p : Ptr}
    {bf : Int} (h : t.Holds link (.node l p bf r))
    (hex : (AvlTree.insert key x r).2 = .exist) : clearThread t p = t := by
  cases hflag : (t.node p).rflag with
  | false => simp [clearThread, hflag]
  | true =>
    have hrc : t.rightChild p = none := by simp [Btree.rightChild, hflag]
    obtain rfl := h.rightChild.none_iff.mp hrc
    simp [AvlTree.insert] at hex

/-- **`btree_internal_insert` refines the insertion into the tree.** -/
theorem btreeInternalInsert_holds (tr : AvlTree Ptr) :
    ∀ (fuel : Nat) (t : Btree) (link : LinkAddr),
      (∀ p, (t.node p).key = key p) → t.Holds (t.get link) tr → tr.Balanced →
      tr.Ordered key → x ∉ tr.toList → t.Fresh x → link.Outside (x :: tr.toList) →
      tr.height < fuel →
      ∃ t', btreeInternalInsert fuel t link x =
          some (t', .ofGrowth (AvlTree.insert key x tr).2) ∧
        t'.Holds (t'.get link) (AvlTree.insert key x tr).1 ∧
        Btree.Framed t t' link (x :: tr.toList) ∧
        ((AvlTree.insert key x tr).2 = .exist → t' = t) := by
  induction tr with
  | nil =>
    intro fuel t link _ hh _ _ _ hfresh ho hfuel
    rcases Nat.exists_eq_succ_of_ne_zero (Nat.ne_of_gt hfuel) with ⟨fuel, rfl⟩
    have hnone : t.get link = none := hh
    have hox : link.Outside [x] := ho.mono (by simp)
    rcases hfresh.linkIn hox with ⟨hh', hfr⟩
    refine ⟨t.put link (some x), ?_, hh', hfr, fun h => ?_⟩
    · simp [btreeInternalInsert, hnone, AvlTree.insert, InsertResult.ofGrowth]
    · simp [AvlTree.insert] at h
  | node l p bf r ihl ihr =>
    intro fuel t link hkey hh hB hO hx hfresh ho hfuel
    rcases Nat.exists_eq_succ_of_ne_zero (Nat.ne_of_gt (Nat.zero_lt_of_lt hfuel)) with ⟨fuel, rfl⟩
    simp only [AvlTree.height_node] at hfuel
    have hn' := hO.nodup
    simp only [AvlTree.toList_node, List.nodup_append, List.nodup_cons, List.mem_cons] at hn'
    rcases hn' with ⟨-, ⟨hpr, -⟩, hlp⟩
    have hpl : p ∉ l.toList := fun hm => hlp p hm p (Or.inl rfl) rfl
    simp only [AvlTree.toList_node, List.mem_append, List.mem_cons, not_or] at hx
    rcases hx with ⟨hxl, hxp, hxr⟩
    simp only [btreeInternalInsert, hh.1, hkey, AvlTree.insert]
    by_cases heq : key x = key p
    · simp only [heq, if_true]
      exact ⟨t, rfl, hh, Btree.Framed.refl t link _, fun _ => rfl⟩
    rw [if_neg heq, if_neg heq]
    by_cases hlt : key p < key x
    · rw [if_pos hlt, if_pos hlt]
      -- to the right: a thread in the way is dropped first
      obtain ⟨hh₀, hfr₀, hflag₀⟩ :=
        hh.clearThread hO.nodup (ho.mono fun q hq => List.mem_cons_of_mem x hq)
      have hr₀ := hh₀.rightChild
      rw [Btree.rightChild_of_not_rflag hflag₀] at hr₀
      have hfresh₀ : (clearThread t p).Fresh x :=
        hfr₀.fresh (by simp [hxl, hxp, hxr]) (ho.mono (by simp)) hfresh
      obtain ⟨t₁, hrun₁, hh₁, hfr₁, hex₁⟩ := ihr fuel (clearThread t p) (.rlink p)
        (fun q => (hfr₀.key q).trans (hkey q)) hr₀ hB.2.1 hO.2.1 hxr hfresh₀
        (by simp [LinkAddr.Outside, Ne.symm hxp, hpr]) (by omega)
      simp only [hrun₁, Option.bind_eq_bind, Option.bind_some]
      by_cases hex : (AvlTree.insert key x r).2 = .exist
      · obtain rfl : t₁ = t := (hex₁ hex).trans (clearThread_of_exist key x hh hex)
        rw [hex, AvlTree.insert_exist_eq key x hB.2.1 hex, AvlTree.settleRight_keep l p bf r rfl]
        exact ⟨t₁, rfl, hh, Btree.Framed.refl t₁ link _, fun _ => rfl⟩
      · obtain ⟨hh₁', hfr₁'⟩ := hh₀.replaceRight hflag₀ hfr₁ hh₁ (by simp [Ne.symm hxp, hpr])
          (fun q hq => ⟨hlp q hq p (Or.inl rfl), by
            simp only [List.mem_cons, not_or]
            exact ⟨ne_of_mem_of_not_mem hq hxl, fun hqr => hlp q hq q (Or.inr hqr) rfl⟩⟩)
          (ho.mono (by simp +contextual))
        rcases settleRight_insert_holds key x hh₁' hB hO hlt hex ho with ⟨t₂, hrun₂, hh₂, hfr₂⟩
        refine ⟨t₂, hrun₂, hh₂, ?_, fun h => absurd (AvlTree.settleRight_eq_exist.mp h) hex⟩
        exact ((hfr₀.mono fun q hq => List.mem_cons_of_mem x hq).trans
          (hfr₁'.mono (by simp +contextual))).trans hfr₂
    · rw [if_neg hlt, if_neg hlt]
      have hgt : key x < key p := lt_of_le_of_ne (not_lt.mp hlt) heq
      obtain ⟨t₁, hrun₁, hh₁, hfr₁, hex₁⟩ := ihl fuel t (.llink p) hkey hh.llink hB.1
        hO.1 hxl hfresh (by simp [LinkAddr.Outside, Ne.symm hxp, hpl]) (by omega)
      simp only [hrun₁, Option.bind_eq_bind, Option.bind_some]
      by_cases hex : (AvlTree.insert key x l).2 = .exist
      · obtain rfl : t₁ = t := hex₁ hex
        rw [hex, AvlTree.insert_exist_eq key x hB.1 hex, AvlTree.settleLeft_keep l p bf r rfl]
        exact ⟨t₁, rfl, hh, Btree.Framed.refl t₁ link _, fun _ => rfl⟩
      · have hsub : ∀ q ∈ p :: x :: l.toList, q ∈ x :: (AvlTree.node l p bf r).toList := by
          intro q hq
          simp only [AvlTree.toList_node, List.mem_append, List.mem_cons] at hq ⊢
          tauto
        obtain ⟨hh₁', hfr₁'⟩ := hh.replaceLeft hfr₁ hh₁ (by simp [Ne.symm hxp, hpl])
          (fun q hq => ⟨ne_of_mem_of_not_mem hq hpr, by
            simp only [List.mem_cons, not_or]
            exact ⟨ne_of_mem_of_not_mem hq hxr, fun hql => hlp q hql q (Or.inr hq) rfl⟩⟩)
          (ho.mono hsub)
        rcases settleLeft_insert_holds key x hh₁' hB hO hgt hex ho with ⟨t₂, hrun₂, hh₂, hfr₂⟩
        exact ⟨t₂, hrun₂, hh₂, (hfr₁'.mono hsub).trans hfr₂,
          fun h => absurd (AvlTree.settleLeft_eq_exist.mp h) hex⟩

end Insert

end OServer
