/-
  OServer/BtreeThread.lean
  ========================
  **Traversals, look-up and threading of the tree in memory.**

    * `btreeTraverseAt_visits` — a recursive traversal calls its visitor on the
      nodes of the represented tree in its order, also when the visitor rewrites
      threads on the way;
    * `btreeVisitFrom_holds`   — the look-up loop follows the search path;
    * `threading_threaded`     — `btree_build_in_order_threading` threads every
      node without a right child to its in-order successor, whatever stale
      threads were there before;
    * `threadLoop_outer`       — on a threaded tree the stackless loop visits the
      nodes from left to right and stops where the visitor says so.
-/
import OServer.BtreeInsert

namespace OServer

open Avl (AvlTree)

variable {σ : Type}

/-! ## 1. Memory of the same shape -/

/-- `t` and `t'` are the same up to what is stored in right links that are not
    real children. -/
structure Btree.SameShape (t t' : Btree) : Prop where
  brk : t'.brk = t.brk
  root : t'.root = t.root
  key : ∀ q, (t'.node q).key = (t.node q).key
  factor : ∀ q, (t'.node q).balanceFactor = (t.node q).balanceFactor
  llink : ∀ q, (t'.node q).llink = (t.node q).llink
  rightChild : ∀ q, t'.rightChild q = t.rightChild q

namespace Btree

theorem SameShape.refl (t : Btree) : SameShape t t :=
  ⟨rfl, rfl, fun _ => rfl, fun _ => rfl, fun _ => rfl, fun _ => rfl⟩

theorem SameShape.trans {t₁ t₂ t₃ : Btree} (h : SameShape t₁ t₂) (h' : SameShape t₂ t₃) :
    SameShape t₁ t₃ :=
  ⟨h'.brk.trans h.brk, h'.root.trans h.root, fun q => (h'.key q).trans (h.key q),
    fun q => (h'.factor q).trans (h.factor q), fun q => (h'.llink q).trans (h.llink q),
    fun q => (h'.rightChild q).trans (h.rightChild q)⟩

theorem SameShape.holds {t t' : Btree} {link : Option Ptr} {tr : AvlTree Ptr}
    (h : SameShape t t') (hh : t.Holds link tr) : t'.Holds link tr := by
  induction tr generalizing link with
  | nil => exact hh
  | node l p bf r ihl ihr =>
    refine ⟨hh.1, (h.factor p).trans hh.2.1, ?_, ?_⟩
    · rw [h.llink p]
      exact ihl hh.llink
    · rw [h.rightChild p]
      exact ihr hh.rightChild

theorem SameShape.eq_of_node {t t' : Btree} (h : SameShape t t') (hnode : t'.node = t.node) :
    t' = t := by
  rcases h with ⟨hbrk, hroot, -⟩
  cases t
  cases t'
  simp only at hbrk hroot hnode
  rw [hbrk, hroot, hnode]

/-- Overwriting the right link and flag of a node without a right child, with
    another link that is no child. -/
theorem sameShape_modify {t : Btree} {p : Ptr} {link : Option Ptr} {flag : Bool}
    (hp : t.rightChild p = none) (hlink : flag = false → link = none) :
    SameShape t (t.modify p fun e => { e with rlink := link, rflag := flag }) := by
  have hnode : ∀ q, q ≠ p →
      (t.modify p fun e => { e with rlink := link, rflag := flag }).node q = t.node q :=
    fun q hq => modify_node_ne t _ hq
  refine ⟨rfl, rfl, ?_, ?_, ?_, ?_⟩
  all_goals intro q
  all_goals by_cases hq : q = p
  all_goals try simp only [hnode q hq, Btree.rightChild]
  all_goals subst hq
  · simp
  · simp
  · simp
  · rw [hp]
    cases flag with
    | true => simp [Btree.rightChild]
    | false => simp [Btree.rightChild, hlink]

theorem rlink_isSome_iff {t : Btree} {p : Ptr} :
    ((t.node p).rlink.isSome && !(t.node p).rflag) = (t.rightChild p).isSome := by
  unfold rightChild
  cases hf : (t.node p).rflag <;> simp

theorem Holds.get_rlink {t : Btree} {link : Option Ptr} {l r : AvlTree Ptr} {p : Ptr}
    {bf : Int} (h : t.Holds link (.node l p bf r)) (hr : (t.rightChild p).isSome) :
    t.Holds (t.get (.rlink p)) r := by
  rcases Option.isSome_iff_exists.mp hr with ⟨q, hq⟩
  rcases rlink_of_rightChild hq with ⟨hflag, -⟩
  have hr' := h.rightChild
  rwa [rightChild_of_not_rflag hflag] at hr'

end Btree

/-! ## 2. Recursive traversals -/

/-- The visitor keeps the shape of the tree. -/
def Visitor.Gentle (visit : Visitor σ) : Prop :=
  ∀ p t s, Btree.SameShape t (visit p t s).1

theorem Visitor.reading_gentle (f : Ptr → BtNodeEntry → σ → σ) : (Visitor.reading f).Gentle :=
  fun _ t _ => Btree.SameShape.refl t

/-- The visitor called on one node after the other. -/
def visitAll (visit : Visitor σ) (ps : List Ptr) (u : Btree × σ) : Btree × σ :=
  ps.foldl (fun u p => visit p u.1 u.2) u

@[simp] theorem visitAll_nil (visit : Visitor σ) (u : Btree × σ) : visitAll visit [] u = u := rfl
@[simp] theorem visitAll_cons (visit : Visitor σ) (p : Ptr) (ps : List Ptr) (u : Btree × σ) :
    visitAll visit (p :: ps) u = visitAll visit ps (visit p u.1 u.2) := rfl
theorem visitAll_append (visit : Visitor σ) (ps qs : List Ptr) (u : Btree × σ) :
    visitAll visit (ps ++ qs) u = visitAll visit qs (visitAll visit ps u) :=
  List.foldl_append ..

theorem visitAll_reading (f : Ptr → BtNodeEntry → σ → σ) (ps : List Ptr) (t : Btree) (s : σ) :
    visitAll (Visitor.reading f) ps (t, s) =
      (t, ps.foldl (fun s p => f p (t.node p) s) s) := by
  induction ps generalizing s with
  | nil => rfl
  | cons p ps ih => exact ih (f p (t.node p) s)

theorem Visitor.Gentle.visitAll {visit : Visitor σ} (hv : visit.Gentle) (ps : List Ptr)
    (u : Btree × σ) : Btree.SameShape u.1 (visitAll visit ps u).1 := by
  induction ps generalizing u with
  | nil => exact Btree.SameShape.refl u.1
  | cons p ps ih => exact (hv p u.1 u.2).trans (ih (visit p u.1 u.2))

/-- **A traversal is its visitor called along the walk of the tree.**  It reads
    links between the calls, but only those that a gentle visitor keeps. -/
theorem btreeTraverseAt_visits (o : Avl.Order) {visit : Visitor σ} (hv : visit.Gentle)
    (tr : AvlTree Ptr) : ∀ (fuel : Nat) (link : LinkAddr) (t : Btree) (s : σ),
      t.Holds (t.get link) tr → tr.height < fuel →
      btreeTraverseAt o visit fuel link t s = some (visitAll visit (tr.walk o) (t, s)) := by
  induction tr with
  | nil =>
    intro fuel link t s h hfuel
    rcases Nat.exists_eq_succ_of_ne_zero (Nat.ne_of_gt hfuel) with ⟨fuel, rfl⟩
    have hnone : t.get link = none := h
    simp [btreeTraverseAt, hnone, AvlTree.walk]
  | node l p bf r ihl ihr =>
    intro fuel link t s h hfuel
    rcases Nat.exists_eq_succ_of_ne_zero (Nat.ne_of_gt (Nat.zero_lt_of_lt hfuel)) with ⟨fuel, rfl⟩
    simp only [AvlTree.height_node] at hfuel
    have hat : ∀ {u : Btree × σ} {v : Visitor σ} (c : Prop) [Decidable c], v.Gentle →
        Btree.SameShape t u.1 → Btree.SameShape t (if c then v p u.1 u.2 else u).1 := by
      intro u v c _ hv hu
      by_cases hc : c
      · rw [if_pos hc]
        exact hu.trans (hv p u.1 u.2)
      · rw [if_neg hc]
        exact hu
    -- both subtrees, also the empty ones that are skipped
    have hleft : ∀ u : Btree × σ, Btree.SameShape t u.1 →
        (if (u.1.node p).llink.isSome then btreeTraverseAt o visit fuel (.llink p) u.1 u.2
          else some u) = some (visitAll visit (l.walk o) u) := by
      intro u hu
      have hh : u.1.Holds (u.1.get (.llink p)) l := (hu.holds h).llink
      by_cases hs : (u.1.node p).llink.isSome
      · rw [if_pos hs, ihl fuel (.llink p) u.1 u.2 hh (by omega)]
      · have hl : l = .nil := hh.none_iff.mp (by simpa using hs)
        rw [if_neg hs, hl]
        rfl
    have hright : ∀ u : Btree × σ, Btree.SameShape t u.1 →
        (if (u.1.node p).rlink.isSome && !(u.1.node p).rflag then
          btreeTraverseAt o visit fuel (.rlink p) u.1 u.2 else some u) =
        some (visitAll visit (r.walk o) u) := by
      intro u hu
      have hh := hu.holds h
      rw [Btree.rlink_isSome_iff]
      by_cases hs : (u.1.rightChild p).isSome
      · rw [if_pos hs, ihr fuel (.rlink p) u.1 u.2 (hh.get_rlink hs) (by omega)]
      · have hr : r = .nil := hh.rightChild.none_iff.mp (by simpa using hs)
        rw [if_neg hs, hr]
        rfl
    have h₀ : Btree.SameShape t (if o = .pre then visit p t s else (t, s)).1 :=
      hat (u := (t, s)) (o = .pre) hv (.refl t)
    have h₁ := h₀.trans (hv.visitAll (l.walk o) _)
    have h₂ := hat (o = .inner) hv h₁
    simp only [btreeTraverseAt, h.1, hleft _ h₀, hright _ h₂, Option.bind_eq_bind,
      Option.bind_some, AvlTree.walk, visitAll_append]
    cases o <;> simp

/-- A visitor that reads gets the nodes as they are and leaves memory alone. -/
theorem btreeTraverseAt_reading (o : Avl.Order) (f : Ptr → BtNodeEntry → σ → σ) {t : Btree}
    {tr : AvlTree Ptr} {fuel : Nat} {link : LinkAddr} (s : σ) (h : t.Holds (t.get link) tr)
    (hfuel : tr.height < fuel) :
    btreeTraverseAt o (Visitor.reading f) fuel link t s =
      some (t, (tr.walk o).foldl (fun s p => f p (t.node p) s) s) := by
  rw [btreeTraverseAt_visits o (Visitor.reading_gentle f) tr fuel link t s h hfuel,
    visitAll_reading]

/-! ## 3. Look-up -/

/-- The loop of `btree_visit` takes the search path; it never follows a thread. -/
theorem btreeVisitFrom_holds {t : Btree} {key : Ptr → BtKey} (k : BtKey) (visit : Visitor σ)
    (hkey : ∀ p, (t.node p).key = key p) (tr : AvlTree Ptr) :
    ∀ (fuel : Nat) (link : Option Ptr) (s : σ), t.Holds link tr → tr.height < fuel →
      btreeVisitFrom k visit fuel link t s =
        some (match AvlTree.find key k tr with
          | none => (t, s)
          | some p => visit p t s) := by
  induction tr with
  | nil =>
    intro fuel link s h hfuel
    rcases Nat.exists_eq_succ_of_ne_zero (Nat.ne_of_gt hfuel) with ⟨fuel, rfl⟩
    obtain rfl : link = none := h
    rfl
  | node l p bf r ihl ihr =>
    intro fuel link s h hfuel
    rcases Nat.exists_eq_succ_of_ne_zero (Nat.ne_of_gt (Nat.zero_lt_of_lt hfuel)) with ⟨fuel, rfl⟩
    simp only [AvlTree.height_node] at hfuel
    rcases id h with ⟨rfl, -⟩
    have hright : (if (t.node p).rflag then btreeVisitFrom k visit fuel none t s
        else btreeVisitFrom k visit fuel (t.node p).rlink t s) =
        btreeVisitFrom k visit fuel (t.rightChild p) t s := by
      unfold Btree.rightChild
      split <;> rfl
    simp only [btreeVisitFrom, AvlTree.find, hkey, hright]
    by_cases heq : key p = k
    · simp [heq]
    by_cases hlt : key p < k
    · rw [if_neg heq, if_pos hlt, if_neg heq, if_pos hlt]
      exact ihr fuel _ s h.rightChild (by omega)
    · rw [if_neg heq, if_neg hlt, if_neg heq, if_neg hlt]
      exact ihl fuel _ s h.llink (by omega)

/-! ## 4. Threading -/

/-- Each of the nodes `ps` without a right child is threaded to the node after it;
    the last one to nothing. -/
def Btree.ThreadsTo (t : Btree) : List Ptr → Prop
  | [] => True
  | p :: ps =>
      (t.rightChild p = none →
        (t.node p).rflag = ps.head?.isSome ∧ (t.node p).rlink = ps.head?) ∧ t.ThreadsTo ps

theorem clearThread_sameShape (t : Btree) (p : Ptr) : Btree.SameShape t (clearThread t p) := by
  unfold clearThread
  cases hflag : (t.node p).rflag with
  | false => exact Btree.SameShape.refl t
  | true =>
    have hp : t.rightChild p = none := by simp [Btree.rightChild, hflag]
    exact Btree.sameShape_modify hp fun _ => rfl

theorem clearThread_rflag (t : Btree) (p : Ptr) : ((clearThread t p).node p).rflag = false := by
  unfold clearThread
  cases hflag : (t.node p).rflag with
  | false => simp [hflag]
  | true => simp

theorem clearThread_node_ne (t : Btree) {p q : Ptr} (h : q ≠ p) :
    (clearThread t p).node q = t.node q := by
  unfold clearThread
  split
  · exact Btree.modify_node_ne t _ h
  · rfl

/-- Nothing hangs from a right link that is `NULL` or a thread. -/
theorem Btree.rightChild_eq_none_iff {t : Btree} {p : Ptr} :
    t.rightChild p = none ↔ (t.node p).rlink = none ∨ (t.node p).rflag := by
  unfold rightChild
  cases (t.node p).rflag <;> simp

theorem btreeNodeThreading_gentle : btreeNodeThreading.Gentle := by
  intro p t pre
  have hclear := clearThread_sameShape t p
  cases pre with
  | none => exact hclear
  | some q =>
    by_cases hq : (clearThread t p).rightChild q = none
    · have hopen := Btree.rightChild_eq_none_iff.mp hq
      simp only [btreeNodeThreading, if_pos hopen]
      exact hclear.trans (Btree.sameShape_modify hq fun h => absurd h (by decide))
    · have hopen := mt Btree.rightChild_eq_none_iff.mpr hq
      simp only [btreeNodeThreading, if_neg hopen]
      exact hclear

/-- One call of `btree_node_threading`: the node before gets its thread, the node
    itself none yet. -/
theorem btreeNodeThreading_some {t : Btree} {p q : Ptr} (hpq : p ≠ q) :
    let u := btreeNodeThreading p t (some q)
    u.2 = some p ∧ (u.1.node p).rflag = false ∧
      (t.rightChild q = none → (u.1.node q).rflag = true ∧ (u.1.node q).rlink = some p) ∧
      (∀ x, x ≠ p → x ≠ q → u.1.node x = t.node x) := by
  have hrc : (clearThread t p).rightChild q = t.rightChild q :=
    (clearThread_sameShape t p).rightChild q
  refine ⟨rfl, ?_, fun hq => ?_, fun x hxp hxq => ?_⟩
  · simp only [btreeNodeThreading]
    split
    · rw [Btree.modify_node_ne _ _ hpq, clearThread_rflag]
    · exact clearThread_rflag t p
  · have hopen := Btree.rightChild_eq_none_iff.mp (hrc.trans hq)
    simp only [btreeNodeThreading, if_pos hopen, Btree.modify_node_self, and_self]
  · simp only [btreeNodeThreading]
    split
    · rw [Btree.modify_node_ne _ _ hxq, clearThread_node_ne t hxp]
    · exact clearThread_node_ne t hxp

/-- Threading the nodes `ps` that follow an already visited node `q`. -/
theorem threading_after (ps : List Ptr) : ∀ (t : Btree) (q : Ptr), (q :: ps).Nodup →
    (t.node q).rflag = false →
    (visitAll btreeNodeThreading ps (t, some q)).1.ThreadsTo (q :: ps) ∧
      ∀ x, x ∉ q :: ps → (visitAll btreeNodeThreading ps (t, some q)).1.node x = t.node x := by
  induction ps with
  | nil =>
    intro t q _ hq
    refine ⟨⟨fun hrc => ?_, trivial⟩, fun x _ => rfl⟩
    have hopen := Btree.rightChild_eq_none_iff.mp hrc
    simp only [visitAll_nil, hq, Bool.false_eq_true, or_false] at hopen ⊢
    exact ⟨rfl, hopen⟩
  | cons p ps ih =>
    intro t q hn hq
    rcases List.nodup_cons.mp hn with ⟨hqps, hn'⟩
    have hpq : p ≠ q := by
      rintro rfl
      exact hqps (by simp)
    rcases btreeNodeThreading_some (t := t) hpq with ⟨hpre, hp, hthread, hsame⟩
    have hu : visitAll btreeNodeThreading (p :: ps) (t, some q) =
        visitAll btreeNodeThreading ps ((btreeNodeThreading p t (some q)).1, some p) := rfl
    rcases ih _ p hn' hp with ⟨hps, hframe⟩
    have hgentle := btreeNodeThreading_gentle.visitAll (p :: ps) (t, some q)
    rw [hu] at hgentle ⊢
    refine ⟨⟨fun hrc => ?_, hps⟩, fun x hx => ?_⟩
    · rw [hframe q hqps]
      simpa using hthread ((hgentle.rightChild q).symm.trans hrc)
    · rw [hframe x (fun h => hx (List.mem_cons_of_mem q h))]
      simp only [List.mem_cons, not_or] at hx
      exact hsame x hx.2.1 hx.1

/-- **Threading a tree.**  Every node without a right child is threaded to its
    successor; the shape and everything outside the tree stay. -/
theorem threading_threaded {t : Btree} {tr : AvlTree Ptr} (h : t.Holds t.root tr)
    (hn : tr.toList.Nodup) (hfuel : tr.height ≤ t.brk) :
    ∃ t', btreeBuildInOrderThreading t = some t' ∧ Btree.SameShape t t' ∧
      t'.ThreadsTo tr.toList ∧ ∀ x, x ∉ tr.toList → t'.node x = t.node x := by
  have hrun := btreeTraverseAt_visits .inner btreeNodeThreading_gentle tr (t.brk + 1) .treeRoot t
    none h (by omega)
  rw [AvlTree.walk_inner] at hrun
  refine ⟨(visitAll btreeNodeThreading tr.toList (t, none)).1, ?_,
    btreeNodeThreading_gentle.visitAll _ (t, none), ?_⟩
  · simp [btreeBuildInOrderThreading, btreeInOrderTraverse, hrun]
  · cases hps : tr.toList with
    | nil => exact ⟨trivial, fun x _ => rfl⟩
    | cons p ps =>
      rw [hps] at hn
      obtain ⟨hthreads, hframe⟩ := threading_after ps (clearThread t p) p hn (clearThread_rflag t p)
      refine ⟨hthreads, fun x hx => (hframe x hx).trans ?_⟩
      exact clearThread_node_ne t (List.ne_of_not_mem_cons hx)

/-- The threads of a threaded tree are determined by its shape. -/
theorem Btree.ThreadsTo.node_eq {t t' : Btree} (hshape : Btree.SameShape t t') {ps : List Ptr}
    (h : t.ThreadsTo ps) (h' : t'.ThreadsTo ps) : ∀ p ∈ ps, t'.node p = t.node p := by
  induction ps with
  | nil => exact fun _ hp => nomatch hp
  | cons q ps ih =>
    intro p hp
    rcases List.mem_cons.mp hp with rfl | hp
    · have hlinks : (t'.node p).rflag = (t.node p).rflag ∧ (t'.node p).rlink = (t.node p).rlink := by
        have hchild := hshape.rightChild p
        cases hc : t.rightChild p with
        | none =>
          rcases h.1 hc with ⟨hflag, hlink⟩
          rcases h'.1 (hchild.trans hc) with ⟨hflag', hlink'⟩
          exact ⟨hflag'.trans hflag.symm, hlink'.trans hlink.symm⟩
        | some c =>
          rcases Btree.rlink_of_rightChild hc with ⟨hflag, hlink⟩
          rcases Btree.rlink_of_rightChild (hchild.trans hc) with ⟨hflag', hlink'⟩
          exact ⟨hflag'.trans hflag.symm, hlink'.trans hlink.symm⟩
      have hkey := hshape.key p
      have hfactor := hshape.factor p
      have hllink := hshape.llink p
      cases hnode : t.node p
      cases hnode' : t'.node p
      simp only [hnode, hnode'] at hkey hfactor hllink hlinks
      rw [hkey, hfactor, hllink, hlinks.1, hlinks.2]
    · exact ih h.2 h'.2 p hp

/-- A threaded tree is threaded to itself. -/
theorem threading_again {t t' : Btree} {tr : AvlTree Ptr} (h : t.Holds t.root tr)
    (hn : tr.toList.Nodup) (hfuel : tr.height ≤ t.brk)
    (hrun : btreeBuildInOrderThreading t = some t') : btreeBuildInOrderThreading t' = some t' := by
  obtain ⟨u, hu, hshape, hthreads, -⟩ := threading_threaded h hn hfuel
  obtain rfl : u = t' := Option.some.inj (hu.symm.trans hrun)
  have hholds : u.Holds u.root tr := by
    rw [hshape.root]
    exact hshape.holds h
  obtain ⟨w, hw, hshape', hthreads', hframe⟩ := threading_threaded hholds hn (by rwa [hshape.brk])
  have hnode : w.node = u.node := by
    funext p
    by_cases hp : p ∈ tr.toList
    · exact hthreads.node_eq hshape' hthreads' p hp
    · exact hframe p hp
  rw [hw, hshape'.eq_of_node hnode]

/-! ## 5. The stackless traversal -/

/-- Nodes are handed to the visitor from left to right, then `NULL`; a non-zero
    answer ends it at once. -/
def visitUntil (visit : StopVisitor σ) : List Ptr → σ → σ
  | [], s => (visit none s).1
  | p :: ps, s => if (visit (some p) s).2 then (visit (some p) s).1
      else visitUntil visit ps (visit (some p) s).1

/-- Going left from the root of a subtree ends at its first node. -/
theorem leftmost_holds {t : Btree} (tr : AvlTree Ptr) : ∀ (fuel : Nat) (c : Ptr),
    t.Holds (some c) tr → tr.height ≤ fuel →
    ∃ q, leftmost t fuel c = some q ∧ tr.toList.head? = some q := by
  induction tr with
  | nil => exact fun _ _ h => absurd h (by simp [Btree.Holds])
  | node l p bf r ihl _ =>
    intro fuel c h hfuel
    simp only [AvlTree.height_node] at hfuel
    rcases Nat.exists_eq_succ_of_ne_zero (show fuel ≠ 0 by omega) with ⟨fuel, rfl⟩
    obtain rfl : c = p := Option.some.inj h.1
    have hl := h.llink
    cases hlink : (t.node c).llink with
    | none =>
      obtain rfl := hl.none_iff.mp hlink
      exact ⟨c, by simp [leftmost, hlink], by simp⟩
    | some d =>
      rw [hlink] at hl
      rcases ihl fuel d hl (by omega) with ⟨q, hq, hhead⟩
      exact ⟨q, by simp [leftmost, hlink, hq], by simp [List.head?_append, hhead]⟩

/-- The first node below a right child is the in-order successor. -/
theorem leftmost_rightChild {t : Btree} (tr : AvlTree Ptr) : ∀ (link : Option Ptr)
    (xs : List Ptr) (p : Ptr) (ps : List Ptr) (c : Ptr) (fuel : Nat), t.Holds link tr →
    tr.toList = xs ++ p :: ps → t.rightChild p = some c → tr.height ≤ fuel →
    ∃ q, leftmost t fuel c = some q ∧ ps.head? = some q := by
  induction tr with
  | nil =>
    intro link xs p ps c fuel _ hlist
    simp at hlist
  | node l a bf r ihl ihr =>
    intro link xs p ps c fuel h hlist hc hfuel
    simp only [AvlTree.height_node, AvlTree.toList_node] at hfuel hlist
    have hroot : ∀ {p ps}, p = a → ps = r.toList → t.rightChild p = some c →
        ∃ q, leftmost t fuel c = some q ∧ ps.head? = some q := by
      rintro p ps rfl rfl hc
      have hr := h.rightChild
      rw [hc] at hr
      exact leftmost_holds r fuel c hr (by omega)
    rcases List.append_eq_append_iff.mp hlist with ⟨ys, hxs, hys⟩ | ⟨ys, hl, hys⟩
    · cases ys with
      | nil =>
        simp only [List.nil_append, List.cons.injEq] at hys
        exact hroot hys.1.symm hys.2.symm hc
      | cons y ys =>
        simp only [List.cons_append, List.cons.injEq] at hys
        exact ihr _ ys p ps c fuel h.rightChild hys.2 hc (by omega)
    · cases ys with
      | nil =>
        simp only [List.nil_append, List.cons.injEq] at hys
        exact hroot hys.1 hys.2 hc
      | cons y ys =>
        simp only [List.cons_append, List.cons.injEq] at hys
        rcases hys with ⟨rfl, rfl⟩
        rcases ihl _ xs p ys c fuel h.llink hl hc (by omega) with ⟨q, hq, hhead⟩
        exact ⟨q, hq, by simp [List.head?_append, hhead]⟩

/-- One turn of the loop from a node whose link is a thread. -/
theorem threadLoop_thread {t : Btree} (visit : StopVisitor σ) (fuel : Nat) {p q : Ptr} (s : σ)
    (hflag : (t.node p).rflag = true) (hlink : (t.node p).rlink = some q) :
    threadLoop t visit (fuel + 1) (.inner p) s =
      if (visit (some q) s).2 then some (visit (some q) s).1
      else threadLoop t visit fuel (.inner q) (visit (some q) s).1 := by
  rw [threadLoop, if_pos hflag, hlink]
  rfl

/-- One turn of the outer loop. -/
theorem threadLoop_descend {t : Btree} (visit : StopVisitor σ) (fuel : Nat) {c q : Ptr} (s : σ)
    (hc : leftmost t (t.brk + 1) c = some q) :
    threadLoop t visit (fuel + 1) (.outer (some c)) s =
      if (visit (some q) s).2 then some (visit (some q) s).1
      else threadLoop t visit fuel (.inner q) (visit (some q) s).1 := by
  rw [threadLoop, hc]
  rfl

section Loop
variable {t : Btree} {tr : AvlTree Ptr} (h : t.Holds t.root tr) (hb : tr.height ≤ t.brk)
include h hb

/-- From a visited node `p` the loop goes on with the nodes after it. -/
theorem threadLoop_inner (visit : StopVisitor σ) (ps : List Ptr) :
    ∀ (xs : List Ptr) (p : Ptr) (fuel : Nat) (s : σ), tr.toList = xs ++ p :: ps →
      t.ThreadsTo (p :: ps) → 2 * ps.length + 2 ≤ fuel →
      threadLoop t visit fuel (.inner p) s = some (visitUntil visit ps s) := by
  induction ps with
  | nil =>
    intro xs p fuel s hlist hth hfuel
    rcases Nat.exists_eq_add_of_le' hfuel with ⟨fuel, rfl⟩
    cases hrc : t.rightChild p with
    | none =>
      rcases hth.1 hrc with ⟨hflag, hlink⟩
      simp only [List.head?_nil, Option.isSome_none] at hflag hlink
      simp [threadLoop, hflag, hlink, visitUntil]
    | some c =>
      rcases leftmost_rightChild tr _ xs p [] c t.brk h hlist hrc hb with ⟨q, -, hq⟩
      simp at hq
  | cons q ps ih =>
    intro xs p fuel s hlist hth hfuel
    simp only [List.length_cons] at hfuel
    rcases Nat.exists_eq_add_of_le' (show 2 ≤ fuel by omega) with ⟨fuel, rfl⟩
    have hlist' : tr.toList = (xs ++ [p]) ++ q :: ps := by simp [hlist]
    have hvisit : ∀ fuel', 2 * ps.length + 2 ≤ fuel' →
        (if (visit (some q) s).2 then some (visit (some q) s).1
          else threadLoop t visit fuel' (.inner q) (visit (some q) s).1) =
          some (visitUntil visit (q :: ps) s) := by
      intro fuel' hf
      rw [visitUntil, ih (xs ++ [p]) q fuel' _ hlist' hth.2 hf]
      split <;> rfl
    cases hrc : t.rightChild p with
    | none =>
      -- the thread leads to the next node
      rcases hth.1 hrc with ⟨hflag, hlink⟩
      rw [threadLoop_thread visit _ s hflag hlink]
      exact hvisit (fuel + 1) (by omega)
    | some c =>
      -- a real child: the next node is the first one below it
      rcases Btree.rlink_of_rightChild hrc with ⟨hflag, hlink⟩
      obtain ⟨q', hq', hhead⟩ :=
        leftmost_rightChild tr _ xs p _ c (t.brk + 1) h hlist hrc (by omega)
      obtain rfl : q = q' := by simpa using hhead
      rw [threadLoop, hflag, if_neg Bool.false_ne_true, hlink, threadLoop_descend visit _ s hq']
      exact hvisit fuel (by omega)

/-- Entered at any subtree, the loop visits everything from its first node on. -/
theorem threadLoop_outer (visit : StopVisitor σ) {xs : List Ptr} {q : Ptr} {ps : List Ptr}
    {c : Ptr} {fuel : Nat} (s : σ) (hc : leftmost t (t.brk + 1) c = some q)
    (hlist : tr.toList = xs ++ q :: ps) (hth : t.ThreadsTo (q :: ps))
    (hfuel : 2 * ps.length + 3 ≤ fuel) :
    threadLoop t visit fuel (.outer (some c)) s = some (visitUntil visit (q :: ps) s) := by
  rcases Nat.exists_eq_add_of_le' (show 1 ≤ fuel by omega) with ⟨fuel, rfl⟩
  rw [threadLoop_descend visit _ s hc,
    threadLoop_inner h hb visit ps xs q fuel _ hlist hth (by omega), visitUntil]
  split <;> rfl

end Loop

theorem Btree.ThreadsTo.drop {t : Btree} {xs ps : List Ptr} (h : t.ThreadsTo (xs ++ ps)) :
    t.ThreadsTo ps := by
  induction xs with
  | nil => exact h
  | cons x xs ih => exact ih h.2

/-- **`btree_thread_traverse` from the root** visits the nodes from left to right. -/
theorem btreeThreadTraverse_threaded {t : Btree} {tr : AvlTree Ptr} (h : t.Holds t.root tr)
    (hth : t.ThreadsTo tr.toList) (hlen : tr.toList.length ≤ t.brk) (visit : StopVisitor σ)
    (s : σ) : btreeThreadTraverse t t.root visit s = some (visitUntil visit tr.toList s) := by
  have hb : tr.height ≤ t.brk := tr.height_le_length.trans hlen
  unfold btreeThreadTraverse
  cases hroot : t.root with
  | none =>
    obtain rfl := h.none_iff.mp hroot
    rfl
  | some c =>
    rcases leftmost_holds tr (t.brk + 1) c (hroot ▸ h) (by omega) with ⟨q, hq, hhead⟩
    rcases List.head?_eq_some_iff.mp hhead with ⟨ps, hps⟩
    rw [hps] at hlen hth ⊢
    simp only [List.length_cons] at hlen
    have hlist : tr.toList = [] ++ q :: ps := hps
    exact threadLoop_outer h hb visit s hq hlist hth (by omega)

/-- Every node of a tree has its own subtree below it. -/
theorem Btree.Holds.subtree {t : Btree} {p : Ptr} (tr : AvlTree Ptr) : ∀ {link : Option Ptr},
    t.Holds link tr → p ∈ tr.toList → ∃ (sub : AvlTree Ptr) (xs ys : List Ptr),
      t.Holds (some p) sub ∧ tr.toList = xs ++ sub.toList ++ ys ∧ p ∈ sub.toList ∧
        sub.height ≤ tr.height := by
  induction tr with
  | nil => exact fun _ hp => absurd hp (by simp)
  | node l a bf r ihl ihr =>
    intro link h hp
    rw [AvlTree.toList_node, List.mem_append, List.mem_cons] at hp
    simp only [AvlTree.toList_node, AvlTree.height_node]
    rcases hp with hp | rfl | hp
    · rcases ihl h.llink hp with ⟨sub, xs, ys, hsub, hlist, hmem, hheight⟩
      exact ⟨sub, xs, ys ++ a :: r.toList, hsub, by simp [hlist], hmem, by omega⟩
    · have hroot : link = some p := h.1
      rw [hroot] at h
      exact ⟨.node l p bf r, [], [], h, by simp, by simp, by simp⟩
    · rcases ihr h.rightChild hp with ⟨sub, xs, ys, hsub, hlist, hmem, hheight⟩
      exact ⟨sub, l.toList ++ a :: xs, ys, hsub, by simp [hlist], hmem, by omega⟩

/-- From any other node the traversal starts at the first node below it, which may have
    been visited before, and goes on to the end. -/
theorem btreeThreadTraverse_from {t : Btree} {tr : AvlTree Ptr} (h : t.Holds t.root tr)
    (hth : t.ThreadsTo tr.toList) (hlen : tr.toList.length ≤ t.brk) {p : Ptr}
    (hp : p ∈ tr.toList) :
    ∃ xs ps, tr.toList = xs ++ ps ∧ p ∈ ps ∧ ∀ {σ : Type} (visit : StopVisitor σ) (s : σ),
      btreeThreadTraverse t (some p) visit s = some (visitUntil visit ps s) := by
  have hb : tr.height ≤ t.brk := tr.height_le_length.trans hlen
  rcases h.subtree tr hp with ⟨sub, xs, ys, hsub, hlist, hmem, hheight⟩
  rcases leftmost_holds sub (t.brk + 1) p hsub (by omega) with ⟨q, hq, hhead⟩
  rcases List.head?_eq_some_iff.mp hhead with ⟨ps, hps⟩
  have hlist' : tr.toList = xs ++ q :: (ps ++ ys) := by simp [hlist, hps]
  refine ⟨xs, q :: (ps ++ ys), hlist', ?_, ?_⟩
  · rw [← List.cons_append, ← hps]
    exact List.mem_append_left ys hmem
  · intro σ visit s
    rw [hlist'] at hlen hth
    simp only [List.length_append, List.length_cons] at hlen
    refine threadLoop_outer h hb visit s hq hlist' hth.drop ?_
    simp only [List.length_append]
    omega

end OServer
