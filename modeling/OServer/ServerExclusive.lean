/-
  OServer/ServerExclusive.lean
  ============================
  **Who serves a connection, step by step.**

  A worker that is done with a connection closes its socket and then marks the
  connection.  In between the number is free, `accept` can give it to another connection,
  and the main loop takes the one for the other.  This is the only way in which two tasks
  come to one connection or to one descriptor.

    * `Unraced`            — no connection is visited whose number, set in `rfds`, is that
                             of a connection between the two steps;
    * `serverLoop_exclusive` — with it every connection has at most one task, no two tasks
                             have one open descriptor, and no task's connection is in the
                             pool; without it, the next step of the main loop breaks this.
-/
import OServer.ServerLoop

namespace OServer

open Run

/-! ## 1. What is said -/

structure Exclusive (s : ServerLoop) : Prop where
  /-- a connection has at most one task -/
  once : (s.tasks.map Prod.fst).Nodup
  /-- no two tasks have the same open descriptor -/
  alone : ∀ t ∈ s.tasks, ∀ t' ∈ s.tasks, ∀ fd ∈ s.openFds,
    s.socket t.1 = some fd → s.socket t'.1 = some fd → t.1 = t'.1
  /-- no task's connection is in the pool -/
  kept : ∀ t ∈ s.tasks, t.1 ∉ s.connections

/-- When a connection is visited and its number is set in `rfds`, no worker is between closing
    this number and marking its connection. -/
def Unraced (s : ServerLoop) (e : LoopEvent) : Prop :=
  e = .visit → ∀ rfds conn node fd, s.point = .traverse rfds (conn :: node) →
    s.socket conn = some fd → fd ∈ rfds → ∀ conn', (conn', .closed) ∈ s.tasks →
      s.socket conn' ≠ some fd

/-! ## 2. The invariant -/

/-- What is served is not set in `rfds`, as far as the loop has not got past it. -/
def NotSet (s : ServerLoop) (rfds : Finset Nat) (conn : Ptr) : Prop :=
  (conn, .serving) ∈ s.tasks → ∀ fd, s.socket conn = some fd → fd ∉ rfds

def LoopPoint.Sound (s : ServerLoop) : LoopPoint → Prop
  | .snapshot => True
  | .select rfds | .accept rfds => ∀ conn, NotSet s rfds conn
  | .traverse rfds node => ∀ conn ∈ node, NotSet s rfds conn
  | .dispatch rfds conn node =>
      (conn ∈ s.connList ∧ conn ∉ node ∧
        ∃ fd, s.socket conn = some fd ∧ ∀ t ∈ s.tasks, s.socket t.1 ≠ some fd) ∧
      ∀ conn ∈ node, NotSet s rfds conn

/-- The connection is neither closed nor being closed. -/
def Live (s : ServerLoop) (conn : Ptr) (fd : Nat) : Prop :=
  conn ∈ s.connList ∧ s.socket conn = some fd ∧ (conn, .closed) ∉ s.tasks

structure ExclusiveInv (s : ServerLoop) : Prop where
  lists : ∃ objects, objects.Nodup ∧ LoopLists objects s
  opened : ∀ conn fd, Live s conn fd → fd ∈ s.openFds
  own : ∀ conn conn' fd, Live s conn fd → Live s conn' fd → conn = conn'
  once : (s.tasks.map Prod.fst).Nodup
  task : ∀ t ∈ s.tasks, t.1 ∈ s.connList ∧ ∃ fd, s.socket t.1 = some fd
  alone : ∀ t ∈ s.tasks, ∀ t' ∈ s.tasks, ∀ fd,
    s.socket t.1 = some fd → s.socket t'.1 = some fd → t.1 = t'.1
  unwatched : ∀ conn, NotSet s s.fds conn
  point : s.point.Sound s

theorem ExclusiveInv.exclusive {s : ServerLoop} (h : ExclusiveInv s) : Exclusive s where
  once := h.once
  alone := fun t ht t' ht' fd _ => h.alone t ht t' ht' fd
  kept := by
    intro t ht hpool
    obtain ⟨objects, hobjects, hlists⟩ := h.lists
    exact (List.nodup_append.mp (hlists.nodup hobjects)).2.2 t.1 (h.task t ht).1 t.1 hpool rfl

/-- The tasks of one connection are one task. -/
theorem task_unique {tasks : List (Ptr × TaskPhase)} (honce : (tasks.map Prod.fst).Nodup)
    {t t' : Ptr × TaskPhase} (ht : t ∈ tasks) (ht' : t' ∈ tasks) (heq : t.1 = t'.1) : t = t' :=
  List.inj_on_of_nodup_map honce ht ht' heq

/-- A connection that no task is for gets a task. -/
theorem once_append {tasks : List (Ptr × TaskPhase)} {conn : Ptr}
    (honce : (tasks.map Prod.fst).Nodup) (hidle : ∀ t ∈ tasks, t.1 ≠ conn) :
    ((tasks ++ [(conn, TaskPhase.serving)]).map Prod.fst).Nodup := by
  rw [List.map_append, List.nodup_append]
  refine ⟨honce, List.nodup_singleton conn, ?_⟩
  intro conn' hconn' conn'' hconn'' heq
  obtain ⟨t, ht, rfl⟩ := List.mem_map.mp hconn'
  rw [List.mem_singleton.mp hconn''] at heq
  exact hidle t ht heq

/-- A connection whose number no task has gets a task. -/
theorem alone_append {tasks : List (Ptr × TaskPhase)} {socket : Ptr → Option Nat} {conn : Ptr}
    {fd : Nat} (hsocket : socket conn = some fd) (hfree : ∀ t ∈ tasks, socket t.1 ≠ some fd)
    (halone : ∀ t ∈ tasks, ∀ t' ∈ tasks, ∀ fd, socket t.1 = some fd → socket t'.1 = some fd →
      t.1 = t'.1) :
    ∀ t ∈ tasks ++ [(conn, TaskPhase.serving)], ∀ t' ∈ tasks ++ [(conn, TaskPhase.serving)], ∀ fd,
      socket t.1 = some fd → socket t'.1 = some fd → t.1 = t'.1 := by
  have hnumber : ∀ fd', socket conn = some fd' → fd' = fd :=
    fun fd' hfd => Option.some.inj (hfd.symm.trans hsocket)
  intro t ht t' ht' fd' hfd hfd'
  rcases List.mem_append.mp ht with ht | ht <;> rcases List.mem_append.mp ht' with ht' | ht'
  · exact halone t ht t' ht' fd' hfd hfd'
  · rw [List.mem_singleton.mp ht'] at hfd'
    obtain rfl := hnumber fd' hfd'
    exact absurd hfd (hfree t ht)
  · rw [List.mem_singleton.mp ht] at hfd
    obtain rfl := hnumber fd' hfd
    exact absurd hfd' (hfree t' ht')
  · rw [List.mem_singleton.mp ht, List.mem_singleton.mp ht']

section Steps
variable {s : ServerLoop} (h : ExclusiveInv s)
include h

theorem ExclusiveInv.connList_nodup : s.connList.Nodup := by
  obtain ⟨objects, hobjects, hlists⟩ := h.lists
  exact (List.nodup_append.mp (hlists.nodup hobjects)).1

/-- A connection that is served is not closed. -/
theorem serving_live {conn : Ptr} (htask : (conn, .serving) ∈ s.tasks) {fd : Nat}
    (hsocket : s.socket conn = some fd) : Live s conn fd := by
  refine ⟨(h.task _ htask).1, hsocket, ?_⟩
  intro hclosed
  exact absurd (task_unique h.once htask hclosed rfl) (by simp)

/-- Another place of the main loop. -/
theorem ExclusiveInv.move {point : LoopPoint} (hrest : point.rest <:+ s.connList)
    (hpoint : point.Sound s) : ExclusiveInv { s with point } where
  lists := by
    obtain ⟨objects, hobjects, hlists⟩ := h.lists
    exact ⟨objects, hobjects, hlists.perm, hrest⟩
  opened := h.opened
  own := h.own
  once := h.once
  task := h.task
  alone := h.alone
  unwatched := h.unwatched
  point := by
    cases point <;> exact hpoint

theorem loop_selected_inv {snapshot rfds : Finset Nat} (hpoint : s.point = .select snapshot)
    (hrfds : rfds ⊆ snapshot) : ExclusiveInv (s.selected rfds) := by
  have hnot : ∀ conn, NotSet s rfds conn := by
    have hsound := h.point
    rw [hpoint] at hsound
    intro conn htask fd hsocket hset
    exact hsound conn htask fd hsocket (hrfds hset)
  unfold ServerLoop.selected
  split
  · exact h.move List.nil_suffix trivial
  split
  · exact h.move List.nil_suffix trivial
  split
  · exact h.move List.nil_suffix hnot
  · exact h.move (List.suffix_refl _) fun conn _ => hnot conn

/-- A descriptor that was not open is nobody's. -/
theorem new_ne {clientFd : Nat} (hnew : clientFd ∉ s.openFds) {conn : Ptr} {fd : Nat}
    (hlive : Live s conn fd) : fd ≠ clientFd := by
  rintro rfl
  exact hnew (h.opened conn fd hlive)

theorem watch_unwatched {clientFd : Nat} (hnew : clientFd ∉ s.openFds) (conn : Ptr) :
    NotSet s (insert clientFd s.fds) conn := by
  intro htask fd hsocket hset
  rcases Finset.mem_insert.mp hset with heq | hset
  · exact new_ne h hnew (serving_live h htask hsocket) heq
  · exact h.unwatched conn htask fd hsocket hset

omit h in
/-- After an `accept`, a live connection is the new one, or was live before. -/
theorem accepted_live {conn : Ptr} {available : List Ptr} (hpool : s.connections = conn :: available)
    (rfds : Finset Nat) (clientFd : Nat) (conn' : Ptr) (fd : Nat)
    (hlive : Live (s.accepted rfds clientFd) conn' fd) :
    (conn' = conn ∧ fd = clientFd) ∨ Live s conn' fd := by
  rw [ServerLoop.accepted_cons hpool] at hlive
  obtain ⟨hmem, hsocket, hclosed⟩ := hlive
  rcases update_socket_cases hsocket with hnew | ⟨hne, hold⟩
  · exact .inl hnew
  · exact .inr ⟨(mem_listAppend.mp hmem).resolve_right hne, hold, hclosed⟩

theorem loop_accepted_inv {rfds : Finset Nat} {clientFd : Nat} (hpoint : s.point = .accept rfds)
    (hnew : clientFd ∉ s.openFds) : ExclusiveInv (s.accepted rfds clientFd) := by
  have hnot := h.point
  rw [hpoint] at hnot
  obtain ⟨objects, hobjects, hlists⟩ := h.lists
  have hlists' := accepted_lists hlists rfds clientFd
  cases hpool : s.connections with
  | nil =>
    rw [ServerLoop.accepted_nil hpool] at hlists' ⊢
    exact ⟨⟨objects, hobjects, hlists'⟩,
      fun conn fd hlive => Finset.mem_insert_of_mem (h.opened conn fd hlive), h.own, h.once, h.task,
      h.alone, watch_unwatched h hnew, fun conn _ => hnot conn⟩
  | cons conn available =>
    have hfree : conn ∉ s.connList := by
      intro hmem
      have hnodup := hlists.nodup hobjects
      rw [hpool] at hnodup
      exact (List.nodup_append.mp hnodup).2.2 conn hmem conn List.mem_cons_self rfl
    have hsocket : ∀ t ∈ s.tasks,
        Function.update s.socket conn (some clientFd) t.1 = s.socket t.1 := by
      intro t ht
      apply Function.update_of_ne
      rintro rfl
      exact hfree (h.task t ht).1
    have hlive := accepted_live hpool rfds clientFd
    rw [ServerLoop.accepted_cons hpool] at hlists' hlive ⊢
    refine ⟨⟨objects, hobjects, hlists'⟩, ?_, ?_, h.once, ?_, ?_, ?_, ?_⟩
    · intro conn' fd hl
      rcases hlive conn' fd hl with ⟨-, rfl⟩ | hl
      · exact Finset.mem_insert_self ..
      · exact Finset.mem_insert_of_mem (h.opened conn' fd hl)
    · intro conn₁ conn₂ fd hl₁ hl₂
      rcases hlive conn₁ fd hl₁ with ⟨heq, hfd⟩ | hold₁
      · rcases hlive conn₂ fd hl₂ with ⟨heq', -⟩ | hold₂
        · rw [heq, heq']
        · exact absurd hfd (new_ne h hnew hold₂)
      · rcases hlive conn₂ fd hl₂ with ⟨-, hfd⟩ | hold₂
        · exact absurd hfd (new_ne h hnew hold₁)
        · exact h.own conn₁ conn₂ fd hold₁ hold₂
    · intro t ht
      obtain ⟨hmem, fd, hfd⟩ := h.task t ht
      exact ⟨List.mem_append_left _ hmem, fd, (hsocket t ht).trans hfd⟩
    · intro t ht t' ht' fd hfd hfd'
      exact h.alone t ht t' ht' fd ((hsocket t ht).symm.trans hfd) ((hsocket t' ht').symm.trans hfd')
    · intro conn' htask fd hfd
      exact watch_unwatched h hnew conn' htask fd ((hsocket _ htask).symm.trans hfd)
    · intro conn' _ htask fd hfd
      exact hnot conn' htask fd ((hsocket _ htask).symm.trans hfd)

theorem loop_visited_inv {rfds : Finset Nat} {conn : Ptr} {node : List Ptr}
    (hpoint : s.point = .traverse rfds (conn :: node)) (hallow : Unraced s .visit) :
    ExclusiveInv (s.visited rfds conn node).1 := by
  have hnot := h.point
  rw [hpoint] at hnot
  have hnot' : ∀ conn' ∈ node, NotSet s rfds conn' :=
    fun conn' hmem => hnot conn' (List.mem_cons_of_mem conn hmem)
  obtain ⟨objects, hobjects, hlists⟩ := h.lists
  have hsuffix : conn :: node <:+ s.connList := by
    have hrest := hlists.rest
    rw [hpoint] at hrest
    exact hrest
  cases hsocket : s.socket conn with
  | none =>
    have hlists' := visited_lists hobjects hlists hpoint
    rw [ServerLoop.visited_none hsocket] at hlists' ⊢
    have hsub : ∀ conn', conn' ∈ listRemove s.connList conn → conn' ∈ s.connList :=
      fun conn' hmem => List.mem_of_mem_erase hmem
    refine ⟨⟨objects, hobjects, hlists'⟩, ?_, ?_, h.once, ?_, h.alone, h.unwatched, hnot'⟩
    · rintro conn' fd ⟨hmem, hlive⟩
      exact h.opened conn' fd ⟨hsub conn' hmem, hlive⟩
    · rintro conn₁ conn₂ fd ⟨hmem₁, hlive₁⟩ ⟨hmem₂, hlive₂⟩
      exact h.own conn₁ conn₂ fd ⟨hsub conn₁ hmem₁, hlive₁⟩ ⟨hsub conn₂ hmem₂, hlive₂⟩
    · intro t ht
      obtain ⟨hmem, fd, hfd⟩ := h.task t ht
      refine ⟨(List.mem_erase_of_ne ?_).mpr hmem, fd, hfd⟩
      intro heq
      rw [heq, hsocket] at hfd
      exact absurd hfd (by simp)
  | some fd =>
    rw [ServerLoop.visited_some hsocket]
    have hnode : node <:+ s.connList := (List.suffix_cons conn node).trans hsuffix
    by_cases hset : fd ∈ rfds
    · rw [if_pos hset]
      refine h.move hnode ⟨⟨hsuffix.subset List.mem_cons_self, ?_, fd, hsocket, ?_⟩, hnot'⟩
      · exact (List.nodup_cons.mp (h.connList_nodup.sublist hsuffix.sublist)).1
      -- a task with this number is closed, or it is that of `conn`, which is not set
      · rintro ⟨conn', phase⟩ ht hfd
        have hclosed := hallow rfl rfds conn node fd hpoint hsocket hset
        cases phase with
        | closed => exact hclosed conn' ht hfd
        | serving =>
          have hlive : Live s conn fd := by
            refine ⟨hsuffix.subset List.mem_cons_self, hsocket, ?_⟩
            intro hmem
            exact hclosed conn hmem hsocket
          obtain rfl := h.own conn' conn fd (serving_live h ht hfd) hlive
          exact hnot conn' List.mem_cons_self ht fd hfd hset
    · rw [if_neg hset]
      exact h.move hnode hnot'

theorem loop_dispatched_inv {rfds : Finset Nat} {conn : Ptr} {node : List Ptr}
    (hpoint : s.point = .dispatch rfds conn node) :
    ExclusiveInv { s with toServerShared := s.dispatched conn, point := .traverse rfds node } := by
  have hsound := h.point
  rw [hpoint] at hsound
  obtain ⟨⟨hmem, hnode, fd, hsocket, hfree⟩, hnot⟩ := hsound
  have hidle : ∀ t ∈ s.tasks, t.1 ≠ conn := by
    rintro t ht rfl
    exact hfree t ht hsocket
  have hfds : (s.dispatched conn).fds = s.fds.erase fd := by
    simp [ServerShared.dispatched, hsocket]
  have hserving : ∀ conn', (conn', .serving) ∈ s.tasks ++ [(conn, TaskPhase.serving)] →
      (conn', .serving) ∈ s.tasks ∨ conn' = conn := by
    intro conn' ht
    rcases List.mem_append.mp ht with ht | ht
    · exact .inl ht
    · exact .inr (congrArg Prod.fst (List.mem_singleton.mp ht))
  have hlive : ∀ conn' fd', Live
      { s with toServerShared := s.dispatched conn, point := .traverse rfds node } conn' fd' →
      Live s conn' fd' :=
    fun conn' fd' hl => ⟨hl.1, hl.2.1, fun ht => hl.2.2 (List.mem_append_left _ ht)⟩
  obtain ⟨objects, hobjects, hlists⟩ := h.lists
  refine ⟨⟨objects, hobjects, hlists.perm, ?_⟩, fun conn' fd' hl => h.opened conn' fd' (hlive conn' fd' hl),
    fun conn₁ conn₂ fd' hl₁ hl₂ => h.own conn₁ conn₂ fd' (hlive conn₁ fd' hl₁) (hlive conn₂ fd' hl₂),
    ?_, ?_, ?_, ?_, ?_⟩
  · have hrest := hlists.rest
    rw [hpoint] at hrest
    exact hrest
  · exact once_append h.once hidle
  · intro t ht
    rcases List.mem_append.mp ht with ht | ht
    · exact h.task t ht
    · rw [List.mem_singleton.mp ht]
      exact ⟨hmem, fd, hsocket⟩
  · exact alone_append hsocket hfree h.alone
  · intro conn' ht fd' hfd hset
    rw [hfds] at hset
    rcases hserving conn' ht with ht | rfl
    · exact h.unwatched conn' ht fd' hfd (Finset.mem_of_mem_erase hset)
    · exact Finset.ne_of_mem_erase hset (Option.some.inj (hfd.symm.trans hsocket))
  · intro conn' hmem' ht fd' hfd
    rcases hserving conn' ht with ht | rfl
    · exact hnot conn' hmem' ht fd' hfd
    · exact absurd hmem' hnode

/-! ## 3. The steps of the workers -/

/-- A worker's step leaves the list and the pool, makes no new task, and changes no socket but that
    of a connection that was a task and is none any more. -/
structure WorkerStep (s s' : ServerLoop) : Prop where
  connList : s'.connList = s.connList
  connections : s'.connections = s.connections
  point : s'.point = s.point
  tasks : ∀ t ∈ s'.tasks, ∃ t₀ ∈ s.tasks, t₀.1 = t.1
  serving : ∀ conn, (conn, .serving) ∈ s'.tasks → (conn, .serving) ∈ s.tasks
  once : (s'.tasks.map Prod.fst).Nodup
  socket : ∀ conn, s'.socket conn = s.socket conn ∨
    s'.socket conn = none ∧ (∃ t ∈ s.tasks, t.1 = conn) ∧ ∀ t ∈ s'.tasks, t.1 ≠ conn

section Worker
variable {s' : ServerLoop} (hw : WorkerStep s s')
include hw

omit h in
theorem WorkerStep.task_socket {t : Ptr × TaskPhase} (ht : t ∈ s'.tasks) :
    s'.socket t.1 = s.socket t.1 := by
  rcases hw.socket t.1 with heq | ⟨-, -, hne⟩
  · exact heq
  · exact absurd rfl (hne t ht)

omit h in
theorem WorkerStep.socket_of_some {conn : Ptr} {fd : Nat} (hfd : s'.socket conn = some fd) :
    s.socket conn = some fd := by
  rcases hw.socket conn with heq | ⟨heq, -⟩
  · exact heq ▸ hfd
  · exact absurd (heq.symm.trans hfd) (by simp)

omit h in
theorem WorkerStep.notSet {rfds : Finset Nat} {conn : Ptr} (hnot : NotSet s rfds conn) :
    NotSet s' rfds conn := by
  intro ht fd hfd
  exact hnot (hw.serving conn ht) fd (hw.socket_of_some hfd)

theorem WorkerStep.inv (hopened : ∀ conn fd, Live s' conn fd → fd ∈ s'.openFds)
    (hlive : ∀ conn fd, Live s' conn fd → Live s conn fd)
    (hunwatched : ∀ conn, NotSet s' s'.fds conn) : ExclusiveInv s' where
  lists := by
    obtain ⟨objects, hobjects, hlists⟩ := h.lists
    refine ⟨objects, hobjects, ?_, ?_⟩
    · rw [hw.connList, hw.connections]
      exact hlists.perm
    · rw [hw.point, hw.connList]
      exact hlists.rest
  opened := hopened
  own := fun conn conn' fd hl hl' => h.own conn conn' fd (hlive conn fd hl) (hlive conn' fd hl')
  once := hw.once
  task := by
    intro t ht
    obtain ⟨t₀, ht₀, heq⟩ := hw.tasks t ht
    obtain ⟨hmem, fd, hfd⟩ := h.task t₀ ht₀
    rw [heq] at hmem hfd
    exact ⟨hw.connList ▸ hmem, fd, (hw.task_socket ht).trans hfd⟩
  alone := by
    intro t ht t' ht' fd hfd hfd'
    obtain ⟨t₀, ht₀, heq⟩ := hw.tasks t ht
    obtain ⟨t₁, ht₁, heq'⟩ := hw.tasks t' ht'
    rw [← heq, ← heq']
    apply h.alone t₀ ht₀ t₁ ht₁ fd
    · rw [heq]
      exact hw.socket_of_some hfd
    · rw [heq']
      exact hw.socket_of_some hfd'
  unwatched := hunwatched
  point := by
    have hsound := h.point
    rw [hw.point]
    cases hpoint : s.point with
    | snapshot => trivial
    | select rfds =>
      rw [hpoint] at hsound
      exact fun conn => hw.notSet (hsound conn)
    | accept rfds =>
      rw [hpoint] at hsound
      exact fun conn => hw.notSet (hsound conn)
    | traverse rfds node =>
      rw [hpoint] at hsound
      exact fun conn hmem => hw.notSet (hsound conn hmem)
    | dispatch rfds conn node =>
      rw [hpoint] at hsound
      obtain ⟨⟨hmem, hnode, fd, hsocket, hfree⟩, hnot⟩ := hsound
      refine ⟨⟨hw.connList ▸ hmem, hnode, fd, ?_, ?_⟩, fun conn hmem => hw.notSet (hnot conn hmem)⟩
      · rcases hw.socket conn with heq | ⟨-, ⟨t, ht, rfl⟩, -⟩
        · exact heq.trans hsocket
        · exact absurd hsocket (hfree t ht)
      · intro t ht hfd
        obtain ⟨t₀, ht₀, heq⟩ := hw.tasks t ht
        apply hfree t₀ ht₀
        rw [heq]
        exact hw.socket_of_some hfd

end Worker

theorem loop_closed_inv {conn : Ptr} (htask : (conn, .serving) ∈ s.tasks) :
    ExclusiveInv { s with toServerShared := s.closed conn } := by
  obtain ⟨-, fd, hsocket⟩ := h.task _ htask
  have hperm : (s.tasks.map Prod.fst).Perm
      ((s.tasks.erase (conn, .serving) ++ [(conn, TaskPhase.closed)]).map Prod.fst) := by
    rw [List.map_append]
    refine ((List.perm_cons_erase htask).map Prod.fst).trans ?_
    exact (List.perm_append_singleton conn _).symm
  have hmem : ∀ t ∈ s.tasks.erase (conn, .serving) ++ [(conn, TaskPhase.closed)],
      t ∈ s.tasks ∨ t = (conn, .closed) := by
    intro t ht
    rcases List.mem_append.mp ht with ht | ht
    · exact .inl (List.mem_of_mem_erase ht)
    · exact .inr (List.mem_singleton.mp ht)
  have hw : WorkerStep s { s with toServerShared := s.closed conn } := by
    refine ⟨rfl, rfl, rfl, ?_, ?_, hperm.nodup_iff.mp h.once, fun _ => .inl rfl⟩
    · intro t ht
      rcases hmem t ht with ht | rfl
      · exact ⟨t, ht, rfl⟩
      · exact ⟨_, htask, rfl⟩
    · intro conn' ht
      rcases hmem _ ht with ht | heq
      · exact ht
      · exact absurd (congrArg Prod.snd heq) (by simp)
  have hlive : ∀ conn' fd', Live { s with toServerShared := s.closed conn } conn' fd' →
      Live s conn' fd' ∧ conn' ≠ conn := by
    rintro conn' fd' ⟨hconn', hsocket', hclosed⟩
    refine ⟨⟨hconn', hsocket', fun ht => hclosed ?_⟩, ?_⟩
    · exact List.mem_append_left _ ((List.mem_erase_of_ne (by simp)).mpr ht)
    · rintro rfl
      exact hclosed (List.mem_append_right _ List.mem_cons_self)
  refine hw.inv h ?_ (fun conn' fd' hl => (hlive conn' fd' hl).1) ?_
  · intro conn' fd' hl
    obtain ⟨hl, hne⟩ := hlive conn' fd' hl
    have hopen : (s.closed conn).openFds = s.openFds.erase fd := by
      simp [ServerShared.closed, hsocket]
    rw [hopen]
    refine Finset.mem_erase.mpr ⟨?_, h.opened conn' fd' hl⟩
    rintro rfl
    exact hne (h.own conn' conn fd' hl (serving_live h htask hsocket))
  · exact fun conn' => hw.notSet (h.unwatched conn')

theorem loop_marked_inv {conn : Ptr} (htask : (conn, .closed) ∈ s.tasks) :
    ExclusiveInv { s with toServerShared := s.marked conn } := by
  have hperm := (List.perm_cons_erase htask).map Prod.fst
  have honce := hperm.nodup_iff.mp h.once
  rw [List.map_cons, List.nodup_cons] at honce
  have hw : WorkerStep s { s with toServerShared := s.marked conn } := by
    refine ⟨rfl, rfl, rfl, fun t ht => ⟨t, List.mem_of_mem_erase ht, rfl⟩,
      fun conn' ht => List.mem_of_mem_erase ht, honce.2, ?_⟩
    intro conn'
    by_cases heq : conn' = conn
    · subst heq
      refine .inr ⟨Function.update_self .., ⟨_, htask, rfl⟩, ?_⟩
      rintro t ht rfl
      exact honce.1 (List.mem_map.mpr ⟨t, ht, rfl⟩)
    · exact .inl (Function.update_of_ne heq _ _)
  have hlive : ∀ conn' fd, Live { s with toServerShared := s.marked conn } conn' fd →
      Live s conn' fd := by
    rintro conn' fd ⟨hconn', hsocket, hclosed⟩
    have hne : conn' ≠ conn := by
      rintro rfl
      have hself : Function.update s.socket conn' none conn' = none := Function.update_self ..
      exact absurd (hself.symm.trans hsocket) (by simp)
    refine ⟨hconn', hw.socket_of_some hsocket, fun ht => hclosed ?_⟩
    exact (List.mem_erase_of_ne (by simp [hne])).mpr ht
  exact hw.inv h (fun conn' fd hl => h.opened conn' fd (hlive conn' fd hl)) hlive
    fun conn' => hw.notSet (h.unwatched conn')

theorem loop_rearmed_inv {conn : Ptr} (htask : (conn, .serving) ∈ s.tasks) :
    ExclusiveInv { s with toServerShared := s.rearmed conn } := by
  obtain ⟨-, fd, hsocket⟩ := h.task _ htask
  have hperm := (List.perm_cons_erase htask).map Prod.fst
  have honce := hperm.nodup_iff.mp h.once
  rw [List.map_cons, List.nodup_cons] at honce
  have hw : WorkerStep s { s with toServerShared := s.rearmed conn } :=
    ⟨rfl, rfl, rfl, fun t ht => ⟨t, List.mem_of_mem_erase ht, rfl⟩,
      fun conn' ht => List.mem_of_mem_erase ht, honce.2, fun _ => .inl rfl⟩
  have hlive : ∀ conn' fd, Live { s with toServerShared := s.rearmed conn } conn' fd →
      Live s conn' fd := by
    rintro conn' fd ⟨hconn', hsocket, hclosed⟩
    exact ⟨hconn', hsocket, fun ht => hclosed ((List.mem_erase_of_ne (by simp)).mpr ht)⟩
  refine hw.inv h (fun conn' fd hl => h.opened conn' fd (hlive conn' fd hl)) hlive ?_
  intro conn' ht fd' hfd hset
  have hfds : (s.rearmed conn).fds = insert fd s.fds := by
    simp [ServerShared.rearmed, hsocket]
  rw [hfds] at hset
  have hserving : (conn', .serving) ∈ s.tasks := List.mem_of_mem_erase ht
  rcases Finset.mem_insert.mp hset with rfl | hset
  · have heq : conn' = conn := h.alone _ hserving _ htask fd' hfd hsocket
    exact honce.1 (List.mem_map.mpr ⟨_, ht, heq⟩)
  · exact h.unwatched conn' hserving fd' hfd hset

end Steps

theorem serverLoopStep_inv {s : ServerLoop} (h : ExclusiveInv s) {e : LoopEvent}
    (hallow : Unraced s e) {r : ServerLoop × List LoopObs} (hstep : serverLoopStep s e = some r) :
    ExclusiveInv r.1 := by
  cases serverLoopStep_cases hstep with
  | snapshot => exact h.move List.nil_suffix h.unwatched
  | select hpoint hrfds => exact loop_selected_inv h hpoint hrfds
  | refused => exact h.move List.nil_suffix trivial
  | accept hpoint hnew => exact loop_accepted_inv h hpoint hnew
  | finish => exact h.move List.nil_suffix trivial
  | visit hpoint => exact loop_visited_inv h hpoint hallow
  | dispatch hpoint => exact loop_dispatched_inv h hpoint
  | close htask => exact loop_closed_inv h htask
  | mark htask => exact loop_marked_inv h htask
  | rearm htask => exact loop_rearmed_inv h htask

theorem ServerLoop.Started.inv {s : ServerLoop} (h : s.Started) : ExclusiveInv s := by
  have hnone : ∀ conn, conn ∉ s.connList := fun conn hmem => by
    rw [h.connList] at hmem
    exact List.not_mem_nil hmem
  have htasks : ∀ t, t ∉ s.tasks := fun t ht => by
    rw [h.tasks] at ht
    exact List.not_mem_nil ht
  refine ⟨⟨s.connections, h.connections, ?_, ?_⟩, fun conn fd hl => absurd hl.1 (hnone conn),
    fun conn conn' fd hl => absurd hl.1 (hnone conn), ?_, fun t ht => absurd ht (htasks t),
    fun t ht => absurd ht (htasks t), fun conn ht => absurd ht (htasks _), ?_⟩
  · rw [h.connList]
    exact .refl _
  · rw [h.point]
    exact List.nil_suffix
  · rw [h.tasks]
    exact List.nodup_nil
  · rw [h.point]
    trivial

theorem exclusive_inv {s : ServerLoop}
    (h : Reachable serverLoopStep Unraced ServerLoop.Started s) : ExclusiveInv s :=
  h.invariant (P := ExclusiveInv) (fun _ hs => hs.inv)
    fun _ _ _ hinv hallow hstep => serverLoopStep_inv hinv hallow hstep

/-- Who is live after a step was so before, or has just been accepted. -/
theorem LoopStep.live {s : ServerLoop} {e : LoopEvent} {r : ServerLoop × List LoopObs}
    (hstep : LoopStep s e r) {conn : Ptr} {fd : Nat} (hlive : Live r.1 conn fd) :
    Live s conn fd ∨ e = .accept (some fd) ∧ ∃ available, s.connections = conn :: available := by
  obtain ⟨hmem, hsocket, hclosed⟩ := hlive
  cases hstep with
  | snapshot => exact .inl ⟨hmem, hsocket, hclosed⟩
  | @select _ rfds =>
    unfold ServerLoop.selected at hmem hsocket hclosed
    split_ifs at hmem hsocket hclosed <;> exact .inl ⟨hmem, hsocket, hclosed⟩
  | refused => exact .inl ⟨hmem, hsocket, hclosed⟩
  | @accept rfds clientFd =>
    cases hpool : s.connections with
    | nil =>
      rw [ServerLoop.accepted_nil hpool] at hmem hsocket hclosed
      exact .inl ⟨hmem, hsocket, hclosed⟩
    | cons conn' available =>
      rcases accepted_live hpool rfds clientFd conn fd ⟨hmem, hsocket, hclosed⟩ with ⟨rfl, rfl⟩ | hold
      · exact .inr ⟨rfl, available, rfl⟩
      · exact .inl hold
  | finish => exact .inl ⟨hmem, hsocket, hclosed⟩
  | @visit rfds conn' node =>
    cases hconn : s.socket conn' with
    | none =>
      rw [ServerLoop.visited_none hconn] at hmem hsocket hclosed
      exact .inl ⟨List.mem_of_mem_erase hmem, hsocket, hclosed⟩
    | some fd' =>
      rw [ServerLoop.visited_some hconn] at hmem hsocket hclosed
      exact .inl ⟨hmem, hsocket, hclosed⟩
  | dispatch =>
    exact .inl ⟨hmem, hsocket, fun ht => hclosed (List.mem_append_left _ ht)⟩
  | close =>
    refine .inl ⟨hmem, hsocket, fun ht => hclosed ?_⟩
    exact List.mem_append_left _ ((List.mem_erase_of_ne (by simp)).mpr ht)
  | @mark conn' =>
    have hne : conn ≠ conn' := by
      rintro rfl
      have hself : Function.update s.socket conn none conn = none := Function.update_self ..
      exact absurd (hself.symm.trans hsocket) (by simp)
    have hsocket' : Function.update s.socket conn' none conn = some fd := hsocket
    rw [Function.update_of_ne hne] at hsocket'
    refine .inl ⟨hmem, hsocket', fun ht => hclosed ?_⟩
    exact (List.mem_erase_of_ne (by simp [hne])).mpr ht
  | rearm =>
    exact .inl ⟨hmem, hsocket, fun ht => hclosed ((List.mem_erase_of_ne (by simp)).mpr ht)⟩

theorem LoopStep.live_of_ne {s : ServerLoop} {e : LoopEvent} {r : ServerLoop × List LoopObs}
    (hstep : LoopStep s e r) (he : ∀ clientFd, e ≠ .accept (some clientFd)) (conn : Ptr) (fd : Nat)
    (hlive : Live r.1 conn fd) : Live s conn fd := by
  rcases hstep.live hlive with hold | ⟨heq, -⟩
  · exact hold
  · exact absurd heq (he fd)

/-! ## 4. Exclusive service -/

/-- A visit that is raced: the next step of the main loop gives a second task to the connection, or
    one with the same descriptor to another. -/
theorem raced_dispatch {s : ServerLoop} (h : ExclusiveInv s) {e : LoopEvent}
    (hallow : ¬ Unraced s e) {r : ServerLoop × List LoopObs} (hstep : serverLoopStep s e = some r) :
    ∃ r', serverLoopStep r.1 .dispatch = some r' ∧ ¬ Exclusive r'.1 := by
  simp only [Unraced, not_forall, not_not] at hallow
  obtain ⟨rfl, rfds, conn, node, fd, hpoint, hsocket, hset, conn', hclosed, hsocket'⟩ := hallow
  simp only [serverLoopStep, hpoint, ServerLoop.visited_some hsocket, if_pos hset,
    Option.some.injEq] at hstep
  subst hstep
  refine ⟨_, rfl, ?_⟩
  intro hexclusive
  have hnew : (conn, TaskPhase.serving) ∈ s.tasks ++ [(conn, TaskPhase.serving)] :=
    List.mem_append_right _ List.mem_cons_self
  have hold : ∀ t ∈ s.tasks, t ∈ s.tasks ++ [(conn, TaskPhase.serving)] :=
    fun t ht => List.mem_append_left _ ht
  -- whoever is closed is not the one that is handed over now
  have hne : ∀ conn', (conn', .closed) ∈ s.tasks → conn' ≠ conn := by
    intro conn' ht heq
    exact absurd (task_unique hexclusive.once (hold _ ht) hnew heq) (by simp)
  have hmem : conn ∈ s.connList := by
    obtain ⟨objects, -, hlists⟩ := h.lists
    have hrest := hlists.rest
    rw [hpoint] at hrest
    exact hrest.subset List.mem_cons_self
  have hopen : fd ∈ s.openFds :=
    h.opened conn fd ⟨hmem, hsocket, fun ht => hne conn ht rfl⟩
  exact hne conn' hclosed (hexclusive.alone _ (hold _ hclosed) _ hnew fd hopen hsocket' hsocket)

/-- **Exclusive service**: in every state of a run in which no visit is raced, a connection has at
    most one task, no two tasks have the same open descriptor, and no task's connection is in the
    pool; and no visit can be raced without the next step of the main loop breaking this. -/
theorem serverLoop_exclusive {s : ServerLoop}
    (h : Reachable serverLoopStep Unraced ServerLoop.Started s) :
    Exclusive s ∧ ∀ e r, ¬ Unraced s e → serverLoopStep s e = some r →
      ∃ r', serverLoopStep r.1 .dispatch = some r' ∧ ¬ Exclusive r'.1 := by
  refine ⟨(exclusive_inv h).exclusive, ?_⟩
  intro e r hallow hstep
  exact raced_dispatch (exclusive_inv h) hallow hstep

/-- Where there are no tasks nobody can be closing. -/
theorem unraced_of_tasks {s : ServerLoop} (h : s.tasks = []) (e : LoopEvent) : Unraced s e := by
  intro _ _ _ _ _ _ _ _ conn' hclosed
  rw [h] at hclosed
  cases hclosed

theorem selected_point (s : ServerLoop) (rfds : Finset Nat) :
    ∃ point, s.selected rfds = { s with point } := by
  unfold ServerLoop.selected
  split_ifs
  · exact ⟨_, rfl⟩
  · exact ⟨_, rfl⟩
  · exact ⟨_, rfl⟩
  · exact ⟨_, rfl⟩

/-- Nobody is between closing a socket and marking it. -/
def NoneClosed (s : ServerLoop) : Prop := ∀ conn, (conn, .closed) ∉ s.tasks

theorem NoneClosed.step {s : ServerLoop} (h : NoneClosed s) {e : LoopEvent}
    (he : ∀ conn, e ≠ .close conn) {r : ServerLoop × List LoopObs}
    (hstep : serverLoopStep s e = some r) : NoneClosed r.1 := by
  cases serverLoopStep_cases hstep with
  | snapshot => exact h
  | @select _ rfds =>
    obtain ⟨point, hpoint⟩ := selected_point s rfds
    rw [hpoint]
    exact h
  | refused => exact h
  | accept =>
    unfold ServerLoop.accepted
    split <;> exact h
  | finish => exact h
  | visit =>
    unfold ServerLoop.visited
    split <;> exact h
  | dispatch =>
    intro conn ht
    rcases List.mem_append.mp ht with ht | ht
    · exact h conn ht
    · exact absurd (congrArg Prod.snd (List.mem_singleton.mp ht)) (by simp)
  | close => exact absurd rfl (he _)
  | mark => exact fun conn ht => h conn (List.mem_of_mem_erase ht)
  | rearm => exact fun conn ht => h conn (List.mem_of_mem_erase ht)

theorem NoneClosed.unraced {s : ServerLoop} (h : NoneClosed s) (e : LoopEvent) : Unraced s e :=
  fun _ _ _ _ _ _ _ _ conn ht => absurd ht (h conn)

/-- A server with two connection objects. -/
def ServerLoop.two : ServerLoop where
  listenFd := 3
  readFd := 4
  socket _ := none
  fds := {3, 4}
  openFds := {0, 1, 2, 3, 4}
  tasks := []
  connections := [100, 200]
  connList := []
  point := .snapshot

/-- The first connection is accepted and handed over. -/
theorem serverLoop_exclusive_two :
    ∃ s, Reachable serverLoopStep Unraced ServerLoop.Started s ∧ s.tasks = [(100, .serving)] ∧
      Exclusive s := by
  have hstart : Reachable serverLoopStep Unraced ServerLoop.Started ServerLoop.two :=
    .init ⟨by decide, rfl, rfl, rfl, by decide, rfl⟩
  have hnext : ∀ {s e r}, Reachable serverLoopStep Unraced ServerLoop.Started s → s.tasks = [] →
      serverLoopStep s e = some r → Reachable serverLoopStep Unraced ServerLoop.Started r.1 :=
    fun h htasks hstep => h.step (unraced_of_tasks htasks _) hstep
  have haccepted := hnext (e := .accept (some 5)) (hnext (e := .select {3})
    (hnext (e := .snapshot) hstart rfl rfl) rfl rfl) rfl rfl
  have hvisited := hnext (e := .visit) (hnext (e := .visit) haccepted rfl rfl) rfl rfl
  have hselected := hnext (e := .select {5}) (hnext (e := .snapshot) hvisited rfl rfl) rfl rfl
  have hserved := hnext (e := .dispatch) (hnext (e := .visit) hselected rfl rfl) rfl rfl
  exact ⟨_, hserved, rfl, (serverLoop_exclusive hserved).1⟩

/-- The worker of the connection 100 has closed the descriptor 5 and not marked the connection yet,
    and `accept` gives 5 to the connection 200.  When something arrives on it, 100 is served
    again. -/
theorem serverLoop_raced :
    ∃ s, Reachable serverLoopStep (fun _ _ => True) ServerLoop.Started s ∧ ¬ Exclusive s := by
  have hstart : Reachable serverLoopStep (fun _ _ => True) ServerLoop.Started ServerLoop.two :=
    .init ⟨by decide, rfl, rfl, rfl, by decide, rfl⟩
  have hrun : ∃ r, Run.run serverLoopStep
      [.snapshot, .select {3}, .accept (some 5), .visit, .visit,
        .snapshot, .select {5}, .visit, .dispatch, .visit,
        .close 100,
        .snapshot, .select {3}, .accept (some 5), .visit, .visit, .visit,
        .snapshot, .select {5}, .visit, .dispatch] ServerLoop.two = some r ∧
      r.1.tasks = [(100, .closed), (100, .serving)] := ⟨_, rfl, rfl⟩
  obtain ⟨r, hr, htasks⟩ := hrun
  refine ⟨r.1, hstart.run (allowed_true _ _) hr, ?_⟩
  intro hexclusive
  have honce := hexclusive.once
  rw [htasks] at honce
  exact absurd honce (by decide)

end OServer
