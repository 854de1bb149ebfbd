/-
  OServer/HttpUrlNodes.lean
  =========================
  **The target of a request with its nodes in memory.**

  `HttpUrl.lean` has the segments of the path and the items of the query as lists.  In
  the program each of them is a node from `malloc`, on a stack or a list that is a ring
  of link words around a head in the `http_url_t`; `../` takes a node from the stack and
  gives it back to `free`, and `http_url_destory` gives back all of them.

  Here the parser works on the rings.  A link that is `NULL`, in a node that was freed or
  never written, is not followed, nothing is freed twice, and no byte behind the array is
  read: `none` stands for all three.

  Behind the bare scheme `http:` the parser starts on what an earlier target has left in
  the array, with a size that is negative, and may run out of the array.  A reset clears
  the array.

    * `urlStep_refines` — on the rings the parser does what it does on the lists;
    * `httpUrl_nodes`   — in every run of parses and resets nothing breaks, the answers
                          are those of the lists, and the nodes that are allocated are
                          those on the two rings, when the bare scheme comes only where
                          nothing is left behind it.
-/
import OServer.CircularList
import OServer.HttpUrlText

namespace OServer

open CString

/-! ## 1. Two rings in one memory -/

namespace Heap

/-- Both words of every node are the same outside `ps`. -/
def SameWords (ps : List Ptr) (m m' : Heap) : Prop :=
  ∀ q ∉ ps, m'.next q = m.next q ∧ m'.prev q = m.prev q

theorem SameWords.setNext {ps : List Ptr} {m m' : Heap} {p : Ptr} {v : Option Ptr}
    (h : SameWords ps m m') (hp : p ∈ ps) : SameWords ps m (m'.setNext p v) := by
  intro q hq
  have hne : q ≠ p := fun heq => hq (heq ▸ hp)
  exact ⟨(Function.update_of_ne hne ..).trans (h q hq).1, (h q hq).2⟩

theorem SameWords.setPrev {ps : List Ptr} {m m' : Heap} {p : Ptr} {v : Option Ptr}
    (h : SameWords ps m m') (hp : p ∈ ps) : SameWords ps m (m'.setPrev p v) := by
  intro q hq
  have hne : q ≠ p := fun heq => hq (heq ▸ hp)
  exact ⟨(h q hq).1, (Function.update_of_ne hne ..).trans (h q hq).2⟩

theorem SameWords.refl (ps : List Ptr) (m : Heap) : SameWords ps m m := fun _ _ => ⟨rfl, rfl⟩

/-- A ring elsewhere stays. -/
theorem IsList.of_sameWords {m m' : Heap} {list : Ptr} {nodes ps : List Ptr}
    (h : m.IsList list nodes) (hsame : SameWords ps m m') (hdisj : ∀ q ∈ list :: nodes, q ∉ ps) :
    m'.IsList list nodes :=
  h.congr (fun q hq => (hsame q (hdisj q hq)).1) fun q hq => (hsame q (hdisj q hq)).2

section Frame
variable {m m' : Heap} {list node : Ptr} {nodes : List Ptr}

theorem listAppend_sameWords (h : m.IsList list nodes) (hnode : node ∉ list :: nodes)
    (happend : m.listAppend list node = some m') : SameWords (list :: node :: nodes) m m' := by
  obtain ⟨a, last, ha, hlast, -⟩ := h.exists_last
  have hmem : last ∈ list :: node :: nodes := by
    have hin : last ∈ list :: nodes := ha ▸ List.mem_append_right _ List.mem_cons_self
    rcases List.mem_cons.mp hin with rfl | hin
    · exact List.mem_cons_self
    · exact List.mem_cons_of_mem _ (List.mem_cons_of_mem _ hin)
  have hne : list ≠ node := fun heq => hnode (heq ▸ List.mem_cons_self)
  have hread : Function.update m.prev node (m.prev list) list = some last := by
    rw [Function.update_of_ne hne]
    exact hlast
  simp only [listAppend, setPrev_prev, setNext_prev, hread, Option.bind_eq_bind, Option.bind_some,
    Option.some.injEq] at happend
  subst happend
  have hself : node ∈ list :: node :: nodes := List.mem_cons_of_mem _ List.mem_cons_self
  exact ((((SameWords.refl _ m).setNext hself).setPrev hself).setNext hmem).setPrev
    List.mem_cons_self

theorem listRemove_sameWords (h : m.IsList list nodes) (hnode : node ∈ nodes)
    (hremove : m.listRemove node = some m') : SameWords (list :: nodes) m m' := by
  obtain ⟨y, hy, hprev, -⟩ := h.prev_next (List.mem_cons_of_mem _ hnode)
  obtain ⟨z, hz, hnext, -⟩ := h.next_prev (List.mem_cons_of_mem _ hnode)
  simp only [listRemove, hprev, Option.bind_eq_bind, Option.bind_some] at hremove
  obtain ⟨behind, hbehind, hm'⟩ := Option.bind_eq_some_iff.mp hremove
  obtain rfl := Option.some.inj hm'
  have hmem : behind ∈ list :: nodes := by
    by_cases hyn : node = y
    · rw [setNext_next, ← hyn, Function.update_self, hnext] at hbehind
      exact Option.some.inj hbehind ▸ hz
    · rw [setNext_next, Function.update_of_ne hyn, hnext] at hbehind
      exact Option.some.inj hbehind ▸ hz
  exact ((SameWords.refl _ m).setNext hy).setPrev hmem

theorem stackPop_sameWords (h : m.IsList list nodes) {r : Heap × Option Ptr}
    (hpop : m.stackPop list = some r) : SameWords (list :: nodes) m r.1 := by
  rcases List.eq_nil_or_concat nodes with rfl | ⟨before, last, rfl⟩
  · have hempty : m.listEmpty list = true := listEmpty_eq h
    rw [stackPop, if_pos hempty] at hpop
    obtain rfl := Option.some.inj hpop
    exact SameWords.refl _ m
  · rw [List.concat_eq_append] at h ⊢
    rw [stackPop_eq h] at hpop
    obtain ⟨m', hremove, rfl⟩ := Option.map_eq_some_iff.mp hpop
    exact listRemove_sameWords h (List.mem_append_right _ List.mem_cons_self) hremove

theorem listRemoveFirst_sameWords (h : m.IsList list nodes) {r : Heap × Option Ptr}
    (hremove : m.listRemoveFirst list = some r) : SameWords (list :: nodes) m r.1 := by
  have hempty := listEmpty_eq h
  cases nodes with
  | nil =>
    rw [listRemoveFirst, hempty] at hremove
    obtain rfl := Option.some.inj hremove
    exact SameWords.refl _ m
  | cons node rest =>
    have hnext : m.next list = some node := h.next_head
    simp only [listRemoveFirst, hempty, hnext, Option.bind_eq_bind, Option.bind_some] at hremove
    obtain ⟨m', hm', hr⟩ := Option.bind_eq_some_iff.mp hremove
    obtain rfl := Option.some.inj hr
    exact listRemove_sameWords h List.mem_cons_self hm'

end Frame

end Heap

/-! ## 2. The nodes of a target -/

/-- The memory of the nodes: link words, contents, what is allocated, and how often `malloc` has
    been called. -/
structure UrlNodes where
  heap : Heap
  seg : Ptr → HttpUrlPathSeg
  item : Ptr → HttpUrlQueryItem
  live : List Ptr
  mallocs : Nat

/-- Where the heads of `path_stack` and `query_list` are, and the address that the `n`-th call of
    `malloc` returns while the addresses in the list are allocated. -/
structure UrlMemory where
  pathStack : Ptr
  queryList : Ptr
  malloc : Nat → List Ptr → Ptr
  heads : pathStack ≠ queryList
  fresh : ∀ n live, malloc n live ∉ live ∧ malloc n live ≠ pathStack ∧ malloc n live ≠ queryList

namespace UrlNodes

/-- `free`.  What was in the node is lost. -/
def free (s : UrlNodes) (p : Ptr) : Option UrlNodes :=
  if p ∈ s.live then
    some { s with heap := (s.heap.setNext p none).setPrev p none, live := s.live.erase p }
  else none

variable (mem : UrlMemory)

/-- `stack_push` of a new node with these contents. -/
def pushSeg (s : UrlNodes) (x : HttpUrlPathSeg) : Option UrlNodes := do
  let node := mem.malloc s.mallocs s.live
  let heap ← s.heap.listAppend mem.pathStack node
  some { s with heap := heap, seg := Function.update s.seg node x, live := node :: s.live,
                mallocs := s.mallocs + 1 }

/-- `list_append` of a new node with these contents. -/
def appendItem (s : UrlNodes) (x : HttpUrlQueryItem) : Option UrlNodes := do
  let node := mem.malloc s.mallocs s.live
  let heap ← s.heap.listAppend mem.queryList node
  some { s with heap := heap, item := Function.update s.item node x, live := node :: s.live,
                mallocs := s.mallocs + 1 }

/-- `free(stack_pop(..))`; the flag says whether there was a node. -/
def popSeg (s : UrlNodes) : Option (UrlNodes × Bool) := do
  let r ← s.heap.stackPop mem.pathStack
  match r.2 with
  | none => some ({ s with heap := r.1 }, false)
  | some node => do
      let s ← free { s with heap := r.1 } node
      some (s, true)

/-- `free(list_remove_first(..))`. -/
def removeItem (s : UrlNodes) : Option (UrlNodes × Bool) := do
  let r ← s.heap.listRemoveFirst mem.queryList
  match r.2 with
  | none => some ({ s with heap := r.1 }, false)
  | some node => do
      let s ← free { s with heap := r.1 } node
      some (s, true)

/-- The first loop of `http_url_destory`; the argument bounds its rounds. -/
def freeStack : Nat → UrlNodes → Option UrlNodes
  | 0, _ => none
  | fuel + 1, s =>
      if s.heap.listEmpty mem.pathStack then some s
      else do
        let r ← popSeg mem s
        freeStack fuel r.1

/-- The second one. -/
def freeQuery : Nat → UrlNodes → Option UrlNodes
  | 0, _ => none
  | fuel + 1, s =>
      if s.heap.listEmpty mem.queryList then some s
      else do
        let r ← removeItem mem s
        freeQuery fuel r.1

/-- `stack_init` and `list_init`. -/
def init (s : UrlNodes) : UrlNodes :=
  { s with heap := (s.heap.listInit mem.pathStack).listInit mem.queryList }

/-- The rings are through the nodes `ps` and `qs`, which hold the segments and the items, and
    these nodes are what is allocated. -/
structure HoldsAt (s : UrlNodes) (segs : List HttpUrlPathSeg) (items : List HttpUrlQueryItem)
    (ps qs : List Ptr) : Prop where
  path : s.heap.IsList mem.pathStack ps
  query : s.heap.IsList mem.queryList qs
  segs : ps.map s.seg = segs
  items : qs.map s.item = items
  apart : (mem.pathStack :: ps ++ mem.queryList :: qs).Nodup
  live : s.live.Perm (ps ++ qs)

/-- The memory holds the two lists, and nothing else is allocated. -/
def Holds (s : UrlNodes) (segs : List HttpUrlPathSeg) (items : List HttpUrlQueryItem) : Prop :=
  ∃ ps qs, HoldsAt mem s segs items ps qs

end UrlNodes

/-! ## 3. What the operations do -/

namespace UrlNodes

variable {mem : UrlMemory} {s : UrlNodes} {segs : List HttpUrlPathSeg}
  {items : List HttpUrlQueryItem} {ps qs : List Ptr}

namespace HoldsAt

theorem mem_live_iff (h : HoldsAt mem s segs items ps qs) {p : Ptr} :
    p ∈ s.live ↔ p ∈ ps ∨ p ∈ qs :=
  h.live.mem_iff.trans List.mem_append

/-- What is on one ring is not on the other. -/
theorem path_notMem (h : HoldsAt mem s segs items ps qs) :
    ∀ q ∈ mem.pathStack :: ps, q ∉ mem.queryList :: qs := by
  intro q hq hq'
  exact (List.nodup_append.mp h.apart).2.2 q hq q hq' rfl

theorem query_notMem (h : HoldsAt mem s segs items ps qs) :
    ∀ q ∈ mem.queryList :: qs, q ∉ mem.pathStack :: ps :=
  fun q hq hq' => h.path_notMem q hq' hq

/-- `malloc` returns an address off both rings. -/
theorem malloc_notMem (h : HoldsAt mem s segs items ps qs) :
    mem.malloc s.mallocs s.live ∉ mem.pathStack :: ps ++ mem.queryList :: qs := by
  obtain ⟨hlive, hpath, hquery⟩ := mem.fresh s.mallocs s.live
  rw [h.mem_live_iff, not_or] at hlive
  simp only [List.mem_append, List.mem_cons, not_or]
  exact ⟨⟨hpath, hlive.1⟩, hquery, hlive.2⟩

end HoldsAt

theorem pushSeg_holds (h : Holds mem s segs items) (x : HttpUrlPathSeg) :
    ∃ s', pushSeg mem s x = some s' ∧ Holds mem s' (segs ++ [x]) items := by
  obtain ⟨ps, qs, h⟩ := h
  have hnew := h.malloc_notMem
  obtain ⟨hnewp, hnewq⟩ := not_or.mp (mt List.mem_append.mpr hnew)
  obtain ⟨heap, happend, hpath, -⟩ := Heap.listAppend_ring h.path hnewp
  have hsame := Heap.listAppend_sameWords h.path hnewp happend
  have hquery : heap.IsList mem.queryList qs := by
    apply h.query.of_sameWords hsame
    intro q hq hq'
    have hnot := h.query_notMem q hq
    simp only [List.mem_cons, not_or] at hq' hnot
    rcases hq' with rfl | rfl | hq'
    · exact hnot.1 rfl
    · exact hnewq hq
    · exact hnot.2 hq'
  have hrun : pushSeg mem s x = some { s with
      heap := heap, seg := Function.update s.seg (mem.malloc s.mallocs s.live) x
      live := mem.malloc s.mallocs s.live :: s.live, mallocs := s.mallocs + 1 } := by
    rw [pushSeg, happend]
    rfl
  refine ⟨_, hrun, ps ++ [mem.malloc s.mallocs s.live], qs, hpath, hquery, ?_, h.items, ?_, ?_⟩
  · rw [List.map_append, ← h.segs]
    congr 1
    · apply List.map_congr_left
      intro p hp
      exact Function.update_of_ne (ne_of_mem_of_not_mem (List.mem_cons_of_mem _ hp) hnewp) ..
    · exact congrArg (fun y => [y]) (Function.update_self ..)
  · have hperm : (mem.pathStack :: (ps ++ [mem.malloc s.mallocs s.live]) ++ mem.queryList :: qs).Perm
        (mem.malloc s.mallocs s.live :: (mem.pathStack :: ps ++ mem.queryList :: qs)) := by
      rw [← List.cons_append, List.append_assoc]
      exact List.perm_middle
    exact hperm.nodup_iff.mpr (List.nodup_cons.mpr ⟨hnew, h.apart⟩)
  · rw [List.append_assoc]
    exact (h.live.cons _).trans List.perm_middle.symm

theorem appendItem_holds (h : Holds mem s segs items) (x : HttpUrlQueryItem) :
    ∃ s', appendItem mem s x = some s' ∧ Holds mem s' segs (items ++ [x]) := by
  obtain ⟨ps, qs, h⟩ := h
  have hnew := h.malloc_notMem
  obtain ⟨hnewp, hnewq⟩ := not_or.mp (mt List.mem_append.mpr hnew)
  obtain ⟨heap, happend, hquery, -⟩ := Heap.listAppend_ring h.query hnewq
  have hsame := Heap.listAppend_sameWords h.query hnewq happend
  have hpath : heap.IsList mem.pathStack ps := by
    apply h.path.of_sameWords hsame
    intro q hq hq'
    have hnot := h.path_notMem q hq
    simp only [List.mem_cons, not_or] at hq' hnot
    rcases hq' with rfl | rfl | hq'
    · exact hnot.1 rfl
    · exact hnewp hq
    · exact hnot.2 hq'
  have hrun : appendItem mem s x = some { s with
      heap := heap, item := Function.update s.item (mem.malloc s.mallocs s.live) x
      live := mem.malloc s.mallocs s.live :: s.live, mallocs := s.mallocs + 1 } := by
    rw [appendItem, happend]
    rfl
  refine ⟨_, hrun, ps, qs ++ [mem.malloc s.mallocs s.live], hpath, hquery, h.segs, ?_, ?_, ?_⟩
  · rw [List.map_append, ← h.items]
    congr 1
    · apply List.map_congr_left
      intro p hp
      exact Function.update_of_ne (ne_of_mem_of_not_mem (List.mem_cons_of_mem _ hp) hnewq) ..
    · exact congrArg (fun y => [y]) (Function.update_self ..)
  · have hperm : (mem.pathStack :: ps ++ mem.queryList :: (qs ++ [mem.malloc s.mallocs s.live])).Perm
        (mem.malloc s.mallocs s.live :: (mem.pathStack :: ps ++ mem.queryList :: qs)) := by
      rw [← List.cons_append, ← List.append_assoc]
      exact List.perm_append_singleton _ _
    exact hperm.nodup_iff.mpr (List.nodup_cons.mpr ⟨hnew, h.apart⟩)
  · rw [← List.append_assoc]
    exact (h.live.cons _).trans (List.perm_append_singleton _ _).symm

/-- `free` of a node that has left its ring. -/
theorem free_holds {s : UrlNodes} {node : Ptr} (hpath : s.heap.IsList mem.pathStack ps)
    (hquery : s.heap.IsList mem.queryList qs) (hsegs : ps.map s.seg = segs)
    (hitems : qs.map s.item = items)
    (hapart : (node :: (mem.pathStack :: ps ++ mem.queryList :: qs)).Nodup)
    (hlive : s.live.Perm (node :: (ps ++ qs))) :
    ∃ s', free s node = some s' ∧ Holds mem s' segs items := by
  have hnode : node ∈ s.live := hlive.mem_iff.mpr List.mem_cons_self
  obtain ⟨hnot, hnodup⟩ := List.nodup_cons.mp hapart
  have hsame : Heap.SameWords [node] s.heap ((s.heap.setNext node none).setPrev node none) :=
    ((Heap.SameWords.refl _ _).setNext List.mem_cons_self).setPrev List.mem_cons_self
  have hout : ∀ q ∈ mem.pathStack :: ps ++ mem.queryList :: qs, q ∉ [node] := by
    intro q hq hq'
    obtain rfl := List.mem_singleton.mp hq'
    exact hnot hq
  refine ⟨_, if_pos hnode, ps, qs, ?_, ?_, hsegs, hitems, hnodup, ?_⟩
  · exact hpath.of_sameWords hsame fun q hq => hout q (List.mem_append_left _ hq)
  · exact hquery.of_sameWords hsame fun q hq => hout q (List.mem_append_right _ hq)
  · exact (hlive.erase node).trans (by rw [List.erase_cons_head])

theorem popSeg_empty (h : Holds mem s [] items) :
    ∃ s', popSeg mem s = some (s', false) ∧ Holds mem s' [] items := by
  obtain ⟨ps, qs, h⟩ := h
  obtain rfl : ps = [] := List.map_eq_nil_iff.mp h.segs
  have hempty : s.heap.listEmpty mem.pathStack = true := Heap.listEmpty_eq h.path
  refine ⟨s, ?_, [], qs, h⟩
  simp [popSeg, Heap.stackPop, hempty]

theorem popSeg_holds (h : Holds mem s segs items) (hne : segs ≠ []) :
    ∃ s', popSeg mem s = some (s', true) ∧ Holds mem s' segs.dropLast items := by
  obtain ⟨ps, qs, h⟩ := h
  rcases List.eq_nil_or_concat ps with rfl | ⟨before, node, rfl⟩
  · exact absurd h.segs.symm hne
  rw [List.concat_eq_append] at h
  obtain ⟨heap, hpop, hpath⟩ := Heap.stackPop_ring h.path
  rw [List.getLast?_concat, List.dropLast_concat] at *
  have hsame := Heap.stackPop_sameWords h.path hpop
  have hquery : heap.IsList mem.queryList qs := h.query.of_sameWords hsame h.query_notMem
  have hapart : (node :: (mem.pathStack :: before ++ mem.queryList :: qs)).Nodup := by
    have hnodup := h.apart
    rw [← List.cons_append, List.append_assoc] at hnodup
    exact List.nodup_middle.mp hnodup
  have hlive : s.live.Perm (node :: (before ++ qs)) := by
    have hperm := h.live
    rw [List.append_assoc] at hperm
    exact hperm.trans List.perm_middle
  have hsegs : before.map s.seg = segs.dropLast := by
    rw [← h.segs, List.map_append, List.map_singleton, List.dropLast_concat]
  obtain ⟨s', hfree, hs'⟩ := free_holds (s := { s with heap := heap }) hpath hquery hsegs h.items
    hapart hlive
  refine ⟨s', ?_, hs'⟩
  simp [popSeg, hpop, hfree]

theorem removeItem_holds {x : HttpUrlQueryItem} (h : Holds mem s segs (x :: items)) :
    ∃ s', removeItem mem s = some (s', true) ∧ Holds mem s' segs items := by
  obtain ⟨ps, qs, h⟩ := h
  obtain ⟨node, rest, rfl, -, hitems⟩ := List.map_eq_cons_iff.mp h.items
  obtain ⟨heap, hremove, hquery⟩ := Heap.listRemoveFirst_ring h.query
  have hsame := Heap.listRemoveFirst_sameWords h.query hremove
  have hpath : heap.IsList mem.pathStack ps := h.path.of_sameWords hsame h.path_notMem
  have hapart : (node :: (mem.pathStack :: ps ++ mem.queryList :: rest)).Nodup := by
    have hnodup := h.apart
    rw [List.append_cons _ mem.queryList] at hnodup
    have hmiddle := List.nodup_middle.mp hnodup
    rwa [← List.append_cons] at hmiddle
  have hlive : s.live.Perm (node :: (ps ++ rest)) := h.live.trans List.perm_middle
  obtain ⟨s', hfree, hs'⟩ := free_holds (s := { s with heap := heap }) hpath hquery h.segs hitems
    hapart hlive
  refine ⟨s', ?_, hs'⟩
  simp [removeItem, hremove, hfree]

/-! ### `http_url_destory` -/

theorem freeStack_holds (h : Holds mem s segs items) (fuel : Nat) (hfuel : segs.length < fuel) :
    ∃ s', freeStack mem fuel s = some s' ∧ Holds mem s' [] items := by
  induction fuel generalizing s segs with
  | zero => exact absurd hfuel (Nat.not_lt_zero _)
  | succ fuel ih =>
    by_cases hne : segs = []
    · subst hne
      obtain ⟨ps, qs, h⟩ := h
      obtain rfl : ps = [] := List.map_eq_nil_iff.mp h.segs
      have hempty : s.heap.listEmpty mem.pathStack = true := Heap.listEmpty_eq h.path
      exact ⟨s, by rw [freeStack, if_pos hempty], [], qs, h⟩
    · have hempty : s.heap.listEmpty mem.pathStack = false := by
        obtain ⟨ps, qs, h⟩ := h
        rw [Heap.listEmpty_eq h.path, List.isEmpty_eq_false_iff]
        rintro rfl
        exact hne h.segs.symm
      obtain ⟨s₁, hpop, h₁⟩ := popSeg_holds h hne
      have hlen : segs.dropLast.length < fuel := by
        rw [List.length_dropLast]
        have hpos := List.length_pos_iff.mpr hne
        omega
      obtain ⟨s₂, hrest, h₂⟩ := ih h₁ hlen
      refine ⟨s₂, ?_, h₂⟩
      simp [freeStack, hempty, hpop, hrest]

theorem freeQuery_holds (h : Holds mem s segs items) (fuel : Nat) (hfuel : items.length < fuel) :
    ∃ s', freeQuery mem fuel s = some s' ∧ Holds mem s' segs [] := by
  induction fuel generalizing s items with
  | zero => exact absurd hfuel (Nat.not_lt_zero _)
  | succ fuel ih =>
    cases items with
    | nil =>
      obtain ⟨ps, qs, h⟩ := h
      obtain rfl : qs = [] := List.map_eq_nil_iff.mp h.items
      have hempty : s.heap.listEmpty mem.queryList = true := Heap.listEmpty_eq h.query
      exact ⟨s, by rw [freeQuery, if_pos hempty], ps, [], h⟩
    | cons x items =>
      have hempty : s.heap.listEmpty mem.queryList = false := by
        obtain ⟨ps, qs, h⟩ := h
        rw [Heap.listEmpty_eq h.query, List.isEmpty_eq_false_iff]
        rintro rfl
        exact absurd h.items (List.cons_ne_nil _ _).symm
      obtain ⟨s₁, hremove, h₁⟩ := removeItem_holds h
      obtain ⟨s₂, hrest, h₂⟩ := ih h₁ (Nat.lt_of_succ_lt_succ hfuel)
      refine ⟨s₂, ?_, h₂⟩
      simp [freeQuery, hempty, hremove, hrest]

/-- New heads, in memory that holds no nodes. -/
theorem init_holds (mem : UrlMemory) (hlive : s.live = []) : Holds mem (init mem s) [] [] := by
  refine ⟨[], [], ?_, Heap.listInit_ring _ _, rfl, rfl, ?_, ?_⟩
  · have hpath := Heap.listInit_ring s.heap mem.pathStack
    refine hpath.of_sameWords (?_ : Heap.SameWords [mem.queryList] _ _) ?_
    · exact ((Heap.SameWords.refl _ _).setNext List.mem_cons_self).setPrev List.mem_cons_self
    · intro q hq hq'
      obtain rfl := List.mem_singleton.mp hq
      exact mem.heads (List.mem_singleton.mp hq')
  · simpa using mem.heads
  · rw [init, hlive]
    exact .nil

end UrlNodes

/-! ## 4. The parser on the rings -/

/-- `http_url_t`; the stack and the list are in `nodes`. -/
structure UrlInMemory where
  host : Option Nat
  hostLen : Int
  pathData : Option Nat
  pathDataLen : Nat
  queryData : Option Nat
  queryDataLen : Nat
  url : List UInt8
  nodes : UrlNodes

namespace UrlInMemory

open UrlNodes

variable (mem : UrlMemory)

/-- The structure with its nodes read as lists. -/
def toUrl (u : UrlInMemory) (segs : List HttpUrlPathSeg) (items : List HttpUrlQueryItem) : HttpUrl where
  host := u.host
  hostLen := u.hostLen
  path := ⟨segs, u.pathData, u.pathDataLen⟩
  query := ⟨items, u.queryData, u.queryDataLen⟩
  url := u.url

/-- `http_url_init`: all other fields are zero. -/
def httpUrlInit (u : UrlInMemory) : UrlInMemory where
  host := none
  hostLen := 0
  pathData := none
  pathDataLen := 0
  queryData := none
  queryDataLen := 0
  url := List.replicate urlSize NUL
  nodes := UrlNodes.init mem u.nodes

def httpUrlDestory (u : UrlInMemory) : Option UrlInMemory := do
  let nodes ← freeStack mem (u.nodes.live.length + 1) u.nodes
  let nodes ← freeQuery mem (nodes.live.length + 1) nodes
  some (httpUrlInit mem { u with nodes := nodes })

/-- The end of a segment; the flag is `false` when `../` finds nothing to remove. -/
def pathSegment (p : List UInt8) (base seg segLen : Nat) (s : UrlNodes) : Option (UrlNodes × Bool) :=
  if segLen ≠ 0 ∧ strncmpEq (p.drop seg) (bytes "../") segLen then popSeg mem s
  else if !strncmpEq (p.drop seg) (bytes "./") segLen then do
    let s ← pushSeg mem s ⟨base + seg, segLen⟩
    some (s, true)
  else some (s, true)

/-- The loop of `http_url_parse_path`.  With a negative `size` the bytes end with the array. -/
def pathLoop (p : List UInt8) (base : Nat) (size : Int) : List UInt8 → Nat → Nat → UrlNodes →
    Option (Int × Nat × UrlNodes)
  | [], i, seg, s =>
      if size < 0 then none
      else do
        let r ← pathSegment mem p base seg (i - seg) s
        some (if r.2 then 0 else -1, i, r.1)
  | c :: rest, i, seg, s =>
      if c = '?'.toUInt8 ∨ c = '#'.toUInt8 then do
        let r ← pathSegment mem p base seg (i - seg) s
        some (if r.2 then 0 else -1, i, r.1)
      else if c = '/'.toUInt8 then do
        let r ← pathSegment mem p base seg (i - seg + 1) s
        if !r.2 then some (-1, i, r.1)
        else pathLoop p base size rest (i + 1) (seg + (i - seg + 1)) r.1
      else if !isPath c then some (-1, i, s)
      else pathLoop p base size rest (i + 1) seg s

def httpUrlParsePath (p : List UInt8) (base : Nat) (size : Int) (u : UrlInMemory) :
    Option (Parsed UrlInMemory) :=
  let u := { u with pathData := some base }
  if size = 0 then some ⟨0, 0, u⟩
  else do
    let r ← pathLoop mem p base size (p.take (walkSize p size)) 0 0 u.nodes
    let u := { u with nodes := r.2.2 }
    some (if r.1 ≠ 0 then ⟨-1, 0, u⟩ else ⟨0, r.2.1, { u with pathDataLen := r.2.1 }⟩)

/-- The loop of `http_url_parse_query`, with the same end. -/
def queryLoop (base : Nat) (size : Int) : List UInt8 → Nat → QueryScan → UrlNodes →
    Option (Nat × UrlNodes)
  | [], i, st, s =>
      if size < 0 then none
      else
        match st.item base i with
        | none => some (i, s)
        | some q => do
            let s ← appendItem mem s q
            some (i, s)
  | c :: rest, i, st, s =>
      if c = '#'.toUInt8 ∨ c = '&'.toUInt8 then
        match st.item base i with
        | none => some (i, s)
        | some q => do
            let s ← appendItem mem s q
            queryLoop base size rest (i + 1) .empty s
      else if c = '='.toUInt8 then
        queryLoop base size rest (i + 1) (if st.ns.isSome then { st with ne := some i } else st) s
      else if st.ns.isNone then queryLoop base size rest (i + 1) { st with ns := some i } s
      else if st.ne.isSome then queryLoop base size rest (i + 1) { st with vs := some i } s
      else queryLoop base size rest (i + 1) st s

def httpUrlParseQuery (p : List UInt8) (base : Nat) (size : Int) (u : UrlInMemory) :
    Option (Parsed UrlInMemory) := do
  let r ← queryLoop mem base size (p.take (walkSize p size)) 0 .empty u.nodes
  some ⟨0, 0, { u with nodes := r.2, queryData := some base, queryDataLen := r.1 }⟩

def urlParseTail (u : UrlInMemory) (urlLen urlp : Nat) : Option (Int × UrlInMemory) := do
  let r ← httpUrlParsePath mem (u.url.drop urlp) urlp ((urlLen : Int) - urlp) u
  let u := r.val
  if r.ret ≠ 0 then some (-1, u)
  else
    let urlp := urlp + r.parseLen
    if peek (u.url.drop urlp) = '?'.toUInt8 then do
      let q ← httpUrlParseQuery mem (u.url.drop (urlp + 1)) (urlp + 1)
        ((urlLen : Int) - urlp - 1) u
      some (0, q.val)
    else some (0, u)

def urlParseHost (u : UrlInMemory) (urlLen urlp : Nat) : Option (Int × UrlInMemory) :=
  match strstr (u.url.drop urlp) (bytes "//") with
  | some p =>
      let urlp := urlp + p + 2
      match strchr (u.url.drop urlp) '/'.toUInt8 with
      | some p => urlParseTail mem { u with host := some urlp, hostLen := p } urlLen (urlp + p + 1)
      | none => some (0, { u with host := some urlp, hostLen := (urlLen : Int) - urlp })
  | none =>
      if peek (u.url.drop urlp) = '/'.toUInt8 then urlParseTail mem u urlLen (urlp + 1)
      else if peek (u.url.drop urlp) = NUL then some (0, u)
      else some (-1, u)

def urlParseTarget (u : UrlInMemory) (urlLen : Nat) : Option (Int × UrlInMemory) :=
  if strncasecmpEq u.url httpScheme (httpScheme.length + 1) then
    urlParseHost mem u urlLen (httpScheme.length + 1)
  else urlParseHost mem u urlLen 0

def httpUrlParse (data : List UInt8) (u : UrlInMemory) : Option (Parsed UrlInMemory) :=
  match urlSpace data with
  | none => some ⟨-1, 0, u⟩
  | some none => some ⟨0, 0, u⟩
  | some (some urlLen) =>
      if urlLen = 0 then some ⟨0, 0, u⟩
      else if urlSize ≤ urlLen then some ⟨-1, 0, u⟩
      else do
        let u := { u with url := data.take urlLen ++ NUL :: u.url.drop (urlLen + 1) }
        let r ← urlParseTarget mem u urlLen
        some ⟨r.1, urlLen + 1, r.2⟩

/-! ## 5. It does what it does on the lists -/

/-- `v` is what the structure in memory means. -/
def Means (u : UrlInMemory) (v : HttpUrl) : Prop :=
  ∃ segs items, v = u.toUrl segs items ∧ Holds mem u.nodes segs items

variable {mem} {p : List UInt8} {base seg segLen size i urlLen urlp : Nat} {s : UrlNodes}
  {segs : List HttpUrlPathSeg} {items : List HttpUrlQueryItem} {u : UrlInMemory} {v : HttpUrl}

variable (p base seg segLen) in
theorem pathSegment_holds (h : Holds mem s segs items) :
    ∃ s', pathSegment mem p base seg segLen s =
        some (s', (OServer.pathSegment p base seg segLen segs).isSome) ∧
      Holds mem s' ((OServer.pathSegment p base seg segLen segs).getD segs) items := by
  unfold pathSegment OServer.pathSegment
  by_cases hup : segLen ≠ 0 ∧ strncmpEq (p.drop seg) (bytes "../") segLen
  · rw [if_pos hup, if_pos hup]
    by_cases hne : segs = []
    · subst hne
      rw [if_pos rfl]
      exact popSeg_empty h
    · rw [if_neg hne]
      exact popSeg_holds h hne
  · rw [if_neg hup, if_neg hup]
    by_cases hdot : !strncmpEq (p.drop seg) (bytes "./") segLen
    · rw [if_pos hdot, if_pos hdot]
      obtain ⟨s', hpush, hs'⟩ := pushSeg_holds h ⟨base + seg, segLen⟩
      exact ⟨s', by rw [hpush]; rfl, hs'⟩
    · rw [if_neg hdot, if_neg hdot]
      exact ⟨s, rfl, h⟩

variable (p base i seg) in
theorem pathLoop_holds (size : Nat) (rest : List UInt8) (h : Holds mem s segs items) :
    ∃ s', pathLoop mem p base size rest i seg s = some ((OServer.pathLoop p base rest i seg segs).1,
        (OServer.pathLoop p base rest i seg segs).2.1, s') ∧
      Holds mem s' (OServer.pathLoop p base rest i seg segs).2.2 items := by
  induction rest generalizing i seg s segs with
  | nil =>
    obtain ⟨s', hrun, hs'⟩ := pathSegment_holds p base seg (i - seg) h
    simp only [pathLoop, OServer.pathLoop, hrun, if_neg (Int.natCast_nonneg size).not_gt]
    cases hseg : OServer.pathSegment p base seg (i - seg) segs with
    | none =>
      rw [hseg] at hs'
      exact ⟨s', rfl, hs'⟩
    | some segs' =>
      rw [hseg] at hs'
      exact ⟨s', rfl, hs'⟩
  | cons c rest ih =>
    unfold pathLoop OServer.pathLoop
    by_cases hend : c = '?'.toUInt8 ∨ c = '#'.toUInt8
    · rw [if_pos hend, if_pos hend]
      obtain ⟨s', hrun, hs'⟩ := pathSegment_holds p base seg (i - seg) h
      rw [hrun]
      cases hseg : OServer.pathSegment p base seg (i - seg) segs with
      | none =>
        rw [hseg] at hs'
        exact ⟨s', rfl, hs'⟩
      | some segs' =>
        rw [hseg] at hs'
        exact ⟨s', rfl, hs'⟩
    · rw [if_neg hend, if_neg hend]
      by_cases hslash : c = '/'.toUInt8
      · rw [if_pos hslash, if_pos hslash]
        obtain ⟨s', hrun, hs'⟩ := pathSegment_holds p base seg (i - seg + 1) h
        rw [hrun]
        cases hseg : OServer.pathSegment p base seg (i - seg + 1) segs with
        | none =>
          rw [hseg] at hs'
          exact ⟨s', rfl, hs'⟩
        | some segs' =>
          rw [hseg] at hs'
          exact ih _ _ hs'
      · rw [if_neg hslash, if_neg hslash]
        by_cases hpath : !isPath c
        · rw [if_pos hpath, if_pos hpath]
          exact ⟨s, rfl, h⟩
        · rw [if_neg hpath, if_neg hpath]
          exact ih _ _ h

variable (base i) in
theorem queryLoop_holds (size : Nat) (rest : List UInt8) (st : QueryScan)
    (h : Holds mem s segs items) :
    ∃ s', queryLoop mem base size rest i st s = some ((OServer.queryLoop base rest i st items).1, s') ∧
      Holds mem s' segs (OServer.queryLoop base rest i st items).2 := by
  induction rest generalizing i st s items with
  | nil =>
    unfold queryLoop OServer.queryLoop
    rw [if_neg (Int.natCast_nonneg size).not_gt]
    cases hitem : st.item base i with
    | none =>
      refine ⟨s, rfl, ?_⟩
      rw [Option.toList_none, List.append_nil]
      exact h
    | some q =>
      obtain ⟨s', hrun, hs'⟩ := appendItem_holds h q
      exact ⟨s', by simp [hrun], hs'⟩
  | cons c rest ih =>
    unfold queryLoop OServer.queryLoop
    by_cases hend : c = '#'.toUInt8 ∨ c = '&'.toUInt8
    · rw [if_pos hend, if_pos hend]
      cases hitem : st.item base i with
      | none => exact ⟨s, rfl, h⟩
      | some q =>
        obtain ⟨s', hrun, hs'⟩ := appendItem_holds h q
        obtain ⟨s'', hrest, hs''⟩ := ih (i + 1) .empty hs'
        exact ⟨s'', by simp [hrun, hrest], hs''⟩
    · rw [if_neg hend, if_neg hend]
      split_ifs <;> exact ih _ _ h

theorem walkSize_natCast (p : List UInt8) (size : Nat) : walkSize p size = size :=
  if_neg (Int.natCast_nonneg size).not_gt

variable (p base size) in
theorem httpUrlParsePath_means (h : Holds mem u.nodes segs items) :
    ∃ u', httpUrlParsePath mem p base size u = some
        ⟨(OServer.httpUrlParsePath p base size (u.toUrl segs items).path).ret,
          (OServer.httpUrlParsePath p base size (u.toUrl segs items).path).parseLen, u'⟩ ∧
      Means mem u' { u.toUrl segs items with
        path := (OServer.httpUrlParsePath p base size (u.toUrl segs items).path).val } := by
  unfold httpUrlParsePath OServer.httpUrlParsePath
  rw [walkSize_natCast]
  by_cases hsize : size = 0
  · rw [if_pos hsize, if_pos (Int.natCast_eq_zero.mpr hsize)]
    exact ⟨_, rfl, segs, items, rfl, h⟩
  · rw [if_neg hsize, if_neg (mt Int.natCast_eq_zero.mp hsize)]
    obtain ⟨s', hrun, hs'⟩ := pathLoop_holds p base 0 0 size (p.take size) h
    dsimp only [toUrl]
    rw [hrun]
    by_cases hret : (OServer.pathLoop p base (p.take size) 0 0 segs).1 ≠ 0
    · simp only [Option.bind_eq_bind, Option.bind_some, if_pos hret]
      exact ⟨_, rfl, _, items, rfl, hs'⟩
    · simp only [Option.bind_eq_bind, Option.bind_some, if_neg hret]
      exact ⟨_, rfl, _, items, rfl, hs'⟩

variable (p base size) in
theorem httpUrlParseQuery_means (h : Holds mem u.nodes segs items) :
    ∃ u', httpUrlParseQuery mem p base size u = some ⟨0, 0, u'⟩ ∧
      Means mem u' { u.toUrl segs items with
        query := (OServer.httpUrlParseQuery p base size (u.toUrl segs items).query).val } := by
  obtain ⟨s', hrun, hs'⟩ := queryLoop_holds base 0 size (p.take size) .empty h
  refine ⟨{ u with
    nodes := s'
    queryData := some base
    queryDataLen := (OServer.queryLoop base (p.take size) 0 .empty items).1 }, ?_, segs, _, rfl, hs'⟩
  rw [httpUrlParseQuery, walkSize_natCast, hrun]
  rfl

/-- Within a target that `NUL` ends, no size is negative. -/
theorem urlParseTail_means (h : Means mem u v) (hend : peek (v.url.drop urlLen) = NUL)
    (hurlp : urlp ≤ urlLen) :
    ∃ u', urlParseTail mem u urlLen urlp = some ((OServer.urlParseTail v urlLen urlp).1, u') ∧
      Means mem u' (OServer.urlParseTail v urlLen urlp).2 := by
  obtain ⟨segs, items, rfl, h⟩ := h
  obtain ⟨u₁, hpath, segs₁, items₁, hv₁, h₁⟩ := httpUrlParsePath_means (u.url.drop urlp) urlp
    (urlLen - urlp) h
  have hurl : u₁.url = u.url := (congrArg HttpUrl.url hv₁).symm
  have hurl' : (u.toUrl segs items).url = u.url := rfl
  unfold urlParseTail OServer.urlParseTail
  rw [hurl'] at hend ⊢
  rw [← Int.natCast_sub hurlp, hpath]
  dsimp only [Option.bind_eq_bind, Option.bind_some]
  rw [walkSize_natCast, hurl]
  split_ifs with hret hquery
  · exact ⟨u₁, rfl, segs₁, items₁, hv₁, h₁⟩
  · -- the byte in front of the query is not the one that ends the target
    have hparse := httpUrlParsePath_le (not_not.mp hret)
    obtain ⟨k, hk⟩ : ∃ k, (OServer.httpUrlParsePath (u.url.drop urlp) urlp (urlLen - urlp)
      (u.toUrl segs items).path).parseLen = k := ⟨_, rfl⟩
    rw [hk] at hquery hparse ⊢
    have hne : urlp + k ≠ urlLen := by
      intro heq
      rw [heq, hend] at hquery
      exact absurd hquery (by decide)
    have hsize : (urlLen : Int) - (urlp + k : Nat) - 1 = (urlLen - (urlp + k + 1) : Nat) := by
      omega
    obtain ⟨u₂, hrun, hmeans⟩ := httpUrlParseQuery_means (u.url.drop (urlp + k + 1))
      (urlp + k + 1) (urlLen - (urlp + k + 1)) h₁
    rw [← hv₁] at hmeans
    rw [hsize, walkSize_natCast, hrun]
    exact ⟨u₂, rfl, hmeans⟩
  · exact ⟨u₁, rfl, segs₁, items₁, hv₁, h₁⟩

theorem Means.url (h : Means mem u v) : u.url = v.url := by
  obtain ⟨segs, items, rfl, -⟩ := h
  rfl

section Target
variable {t : List UInt8} (hnul : NUL ∉ t)
include hnul

/-- From an offset behind which the array holds the rest of the target `t`. -/
theorem urlParseHost_means (h : Means mem u v) {w : HttpUrl} (hurl : v.url = (w.store t).url)
    (hrest : cstr (v.url.drop urlp) = t.drop urlp) :
    ∃ u', urlParseHost mem u t.length urlp = some ((OServer.urlParseHost v t.length urlp).1, u') ∧
      Means mem u' (OServer.urlParseHost v t.length urlp).2 := by
  have hend : peek (v.url.drop t.length) = NUL := by
    rw [hurl, HttpUrl.store, List.drop_left]
    rfl
  unfold urlParseHost OServer.urlParseHost
  rw [h.url]
  cases hhost : strstr (v.url.drop urlp) (bytes "//") with
  | some p =>
    have hslashes : urlp + p + 2 ≤ t.length := HttpUrl.rest_strstr hrest (List.cons_ne_nil _ _) hhost
    have hrest' : cstr (v.url.drop (urlp + p + 2)) = t.drop (urlp + p + 2) := by
      rw [hurl]
      exact HttpUrl.store_cstr hnul w hslashes
    dsimp only
    cases hslash : strchr (v.url.drop (urlp + p + 2)) '/'.toUInt8 with
    | some k =>
      refine urlParseTail_means ?_ hend (HttpUrl.rest_strchr hrest' hslash)
      obtain ⟨segs, items, rfl, h⟩ := h
      exact ⟨segs, items, rfl, h⟩
    | none =>
      obtain ⟨segs, items, rfl, h⟩ := h
      exact ⟨_, rfl, segs, items, rfl, h⟩
  | none =>
    dsimp only
    split_ifs with hslash
    · have hbyte : peek (v.url.drop urlp) ≠ NUL := by
        rw [hslash]
        decide
      exact urlParseTail_means h hend (HttpUrl.rest_peek hrest hbyte)
    · exact ⟨u, rfl, h⟩
    · exact ⟨u, rfl, h⟩

theorem urlParseTarget_means (h : Means mem u v) {w : HttpUrl} (hurl : v.url = (w.store t).url)
    (hscheme : SameName t httpScheme → peek (w.url.drop (httpScheme.length + 1)) = NUL) :
    ∃ u', urlParseTarget mem u t.length = some ((OServer.urlParseTarget v t.length).1, u') ∧
      Means mem u' (OServer.urlParseTarget v t.length).2 := by
  unfold urlParseTarget OServer.urlParseTarget
  rw [h.url]
  split_ifs with hsame
  · rw [hurl] at hsame
    have hname := (scheme_iff hnul _).mp hsame
    have hlen : t.length = httpScheme.length := by
      have hcount := congrArg List.length hname
      rwa [List.length_map, List.length_map] at hcount
    refine urlParseHost_means hnul h hurl ?_
    have hbehind : v.url.drop (httpScheme.length + 1) = w.url.drop (httpScheme.length + 1) := by
      rw [hurl, HttpUrl.store, ← hlen, ← List.drop_drop, List.drop_left]
      rfl
    have hnil : t.drop (httpScheme.length + 1) = [] := List.drop_eq_nil_of_le (by omega)
    rw [hbehind, hnil]
    exact cstr_eq_nil_iff.mpr (hscheme hname)
  · exact urlParseHost_means hnul h hurl (hurl ▸ HttpUrl.store_cstr hnul w (Nat.zero_le _))

end Target

theorem httpUrlParse_means (data : List UInt8) (h : Means mem u v)
    (hscheme : SameName (targetText data) httpScheme →
      peek (v.url.drop (httpScheme.length + 1)) = NUL) :
    ∃ u', httpUrlParse mem data u = some
        ⟨(OServer.httpUrlParse data v).ret, (OServer.httpUrlParse data v).parseLen, u'⟩ ∧
      Means mem u' (OServer.httpUrlParse data v).val := by
  unfold httpUrlParse OServer.httpUrlParse
  cases urlSpace_answer data with
  | nul hspace =>
    have hnone := hspace []
    rw [List.append_nil] at hnone
    rw [hnone]
    exact ⟨u, rfl, h⟩
  | more _ hspace =>
    rw [hspace]
    exact ⟨u, rfl, h⟩
  | space t r hdata ht hspace =>
    have hsome := hspace []
    rw [List.append_nil] at hsome
    rw [hsome]
    dsimp only
    split_ifs
    · exact ⟨u, rfl, h⟩
    · exact ⟨u, rfl, h⟩
    · have htake : data.take t.length = t := hdata ▸ List.take_left
      have htext : targetText data = t := hdata ▸ targetText_append ht.1 r
      rw [htake]
      have hmeans : Means mem { u with url := t ++ NUL :: u.url.drop (t.length + 1) }
          (v.store t) := by
        obtain ⟨segs, items, rfl, h⟩ := h
        exact ⟨segs, items, rfl, h⟩
      obtain ⟨u', hrun, hu'⟩ := urlParseTarget_means ht.2 hmeans rfl fun hsame =>
        hscheme (htext.symm ▸ hsame)
      rw [hrun]
      exact ⟨u', rfl, hu'⟩

theorem httpUrlInit_means (mem : UrlMemory) (hlive : u.nodes.live = []) :
    Means mem (httpUrlInit mem u) OServer.httpUrlInit :=
  ⟨[], [], rfl, init_holds mem hlive⟩

/-- **`http_url_destory` gives back everything**, each node once. -/
theorem httpUrlDestory_means (h : Means mem u v) :
    ∃ u', httpUrlDestory mem u = some u' ∧ u'.nodes.live = [] ∧ Means mem u' OServer.httpUrlInit := by
  obtain ⟨segs, items, rfl, h⟩ := h
  have hlength : ∀ {s segs items}, Holds mem s segs items → segs.length + items.length = s.live.length := by
    rintro s segs items ⟨ps, qs, hs⟩
    rw [hs.live.length_eq, List.length_append, ← hs.segs, ← hs.items, List.length_map, List.length_map]
  have hlen := hlength h
  obtain ⟨s₁, hstack, h₁⟩ := freeStack_holds h (u.nodes.live.length + 1) (by omega)
  have hlen₁ := hlength h₁
  obtain ⟨s₂, hquery, h₂⟩ := freeQuery_holds h₁ (s₁.live.length + 1) (by omega)
  have hlen₂ := hlength h₂
  have hempty : s₂.live = [] := List.length_eq_zero_iff.mp hlen₂.symm
  refine ⟨_, ?_, hempty, httpUrlInit_means (u := { u with nodes := s₂ }) mem hempty⟩
  simp [httpUrlDestory, hstack, hquery]

/-! ## 6. Runs -/

inductive UrlOp where
  | parse (data : List UInt8)
  | destory
deriving DecidableEq

/-- The observation is the return value and `*parse_len`. -/
def urlStep (mem : UrlMemory) (u : UrlInMemory) : UrlOp → Option (UrlInMemory × List (Int × Nat))
  | .parse data => (httpUrlParse mem data u).map fun r => (r.val, [(r.ret, r.parseLen)])
  | .destory => (httpUrlDestory mem u).map fun u => (u, [])

/-- The same with the nodes in lists. -/
def urlSpec (v : HttpUrl) : UrlOp → HttpUrl × List (Int × Nat)
  | .parse data =>
      ((OServer.httpUrlParse data v).val,
        [((OServer.httpUrlParse data v).ret, (OServer.httpUrlParse data v).parseLen)])
  | .destory => (OServer.httpUrlInit, [])

/-- A target that is the bare scheme is parsed only where the array has nothing left behind its
    terminator. -/
def UrlOp.Allowed (url : List UInt8) : UrlOp → Prop
  | .parse data => SameName (targetText data) httpScheme →
      peek (url.drop (httpScheme.length + 1)) = NUL
  | .destory => True

instance (url : List UInt8) : (op : UrlOp) → Decidable (op.Allowed url)
  | .parse data => inferInstanceAs (Decidable
      ((targetText data).map tolower = httpScheme.map tolower →
        peek (url.drop (httpScheme.length + 1)) = NUL))
  | .destory => isTrue trivial

theorem urlStep_refines (mem : UrlMemory) :
    Run.Refines (urlStep mem) (fun u op => op.Allowed u.url) urlSpec (fun v op => op.Allowed v.url)
      (Means mem) where
  allow_iff op h := by rw [h.url]
  step := by
    intro u v op h hallow
    cases op with
    | parse data =>
      obtain ⟨u', hrun, hu'⟩ := httpUrlParse_means data h hallow
      exact ⟨u', by rw [urlStep, hrun]; rfl, hu'⟩
    | destory =>
      obtain ⟨u', hrun, -, hu'⟩ := httpUrlDestory_means h
      exact ⟨u', by rw [urlStep, hrun]; rfl, hu'⟩

/-- The stack and the list of `v` are on the two rings, and the nodes there are what is allocated,
    each of them once. -/
def OwnsNodes (mem : UrlMemory) (s : UrlNodes) (v : HttpUrl) : Prop :=
  ∃ ps qs, s.heap.IsList mem.pathStack ps ∧ s.heap.IsList mem.queryList qs ∧
    ps.map s.seg = v.path.pathStack ∧ qs.map s.item = v.query.queryList ∧
    s.live.Perm (ps ++ qs) ∧ s.live.Nodup

theorem Means.ownsNodes (h : Means mem u v) : OwnsNodes mem u.nodes v := by
  obtain ⟨segs, items, rfl, ps, qs, hs⟩ := h
  refine ⟨ps, qs, hs.path, hs.query, hs.segs, hs.items, hs.live, ?_⟩
  obtain ⟨hp, hq, hpq⟩ := List.nodup_append.mp hs.apart
  refine hs.live.nodup_iff.mpr (List.nodup_append.mpr
    ⟨(List.nodup_cons.mp hp).2, (List.nodup_cons.mp hq).2, ?_⟩)
  intro p hp q hq
  exact hpq p (List.mem_cons_of_mem _ hp) q (List.mem_cons_of_mem _ hq)

end UrlInMemory

open UrlInMemory in
/-- **Nothing is lost and nothing is freed twice.**  In every run of parses, of any data
    and also one after the other into the same structure, and of resets, the parser on the
    rings never follows a dead link, never reads behind the array and answers as the one on
    lists; only the bare scheme must not come where an earlier target reaches behind it.  All
    along the nodes that are allocated are those of the stack and the list; the last reset
    gives all of them back. -/
theorem httpUrl_nodes (mem : UrlMemory) (u₀ : UrlInMemory) (hlive : u₀.nodes.live = [])
    (ops : List UrlOp)
    (hallowed : Run.Allowed (fun v op => some (urlSpec v op)) (fun v op => op.Allowed v.url) ops
      OServer.httpUrlInit) :
    ∃ u, Run.run (urlStep mem) ops (UrlInMemory.httpUrlInit mem u₀) =
        some (u, (Run.runSpec urlSpec ops OServer.httpUrlInit).2) ∧
      OwnsNodes mem u.nodes (Run.runSpec urlSpec ops OServer.httpUrlInit).1 ∧
      ∃ u', urlStep mem u .destory = some (u', []) ∧ u'.nodes.live = [] := by
  have hmeans := httpUrlInit_means (u := u₀) mem hlive
  obtain ⟨u, hrun, hu⟩ := (urlStep_refines mem).run hmeans
    (((urlStep_refines mem).allowed_iff hmeans).mpr hallowed)
  obtain ⟨u', hdestory, hempty, -⟩ := httpUrlDestory_means hu
  exact ⟨u, hrun, hu.ownsNodes, u', by rw [urlStep, hdestory]; rfl, hempty⟩

/-- An address behind those that are in use. -/
def firstFree (live : List Ptr) : Ptr := live.foldr (fun p n => max (p + 1) n) 2

theorem lt_firstFree (live : List Ptr) : 2 ≤ firstFree live ∧ ∀ p ∈ live, p < firstFree live := by
  induction live with
  | nil => exact ⟨le_rfl, fun p hp => absurd hp List.not_mem_nil⟩
  | cons q live ih =>
    refine ⟨ih.1.trans (le_max_right _ _), ?_⟩
    intro p hp
    rcases List.mem_cons.mp hp with rfl | hp
    · exact Nat.lt_of_succ_le (le_max_left _ _)
    · exact (ih.2 p hp).trans_le (le_max_right _ _)

/-- The heads are at 0 and 1. -/
def bumpMalloc : UrlMemory where
  pathStack := 0
  queryList := 1
  malloc _ live := firstFree live
  heads := by decide
  fresh n live := by
    obtain ⟨hle, hlt⟩ := lt_firstFree live
    refine ⟨fun hmem => lt_irrefl _ (hlt _ hmem), ?_, ?_⟩
    · exact (Nat.lt_of_lt_of_le (by decide) hle).ne'
    · exact (Nat.lt_of_lt_of_le (by decide) hle).ne'

/-- A structure that has not been used. -/
def unusedUrl : UrlInMemory :=
  ⟨none, 0, none, 0, none, 0, [], ⟨noLinks, fun _ => ⟨0, 0⟩, fun _ => ⟨0, 0, 0, 0⟩, [], 0⟩⟩

open UrlInMemory in
/-- Two targets one after the other into one structure, the second one with `..` and a query, and
    the bare scheme after a reset. -/
theorem httpUrl_nodes_two : ∃ u,
    Run.run (urlStep bumpMalloc)
        [.parse (bytes "/a/b "), .parse (bytes "/c/../d?k=vw "), .destory, .parse (bytes "http: ")]
        (UrlInMemory.httpUrlInit bumpMalloc unusedUrl) = some (u, [(0, 5), (0, 13), (0, 6)]) ∧
      ∃ u', urlStep bumpMalloc u .destory = some (u', []) ∧ u'.nodes.live = [] := by
  obtain ⟨u, hrun, -, hdestory⟩ := httpUrl_nodes bumpMalloc unusedUrl rfl
    [.parse (bytes "/a/b "), .parse (bytes "/c/../d?k=vw "), .destory, .parse (bytes "http: ")]
    (Run.allowed_cons (by decide +kernel) rfl
      (Run.allowed_cons (by decide +kernel) rfl
        (Run.allowed_cons trivial rfl
          (Run.allowed_cons (by decide +kernel) rfl trivial))))
  exact ⟨u, hrun, hdestory⟩

open UrlInMemory in
/-- Without the reset the scheme is followed by `/?b=c`, and the walk of the query leaves the
    array. -/
example : (Run.run (urlStep bumpMalloc) [.parse (bytes "/aaaaa/?b=c "), .parse (bytes "http: ")]
    (UrlInMemory.httpUrlInit bumpMalloc unusedUrl)).isNone = true := by
  decide +kernel

end OServer
