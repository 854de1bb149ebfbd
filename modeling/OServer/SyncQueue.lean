/-
  OServer/SyncQueue.lean
  ======================
  **The task queue (`sync_queue.c`) and what the thread pool does with it.**

  The queue is a linked list with a pointer to its last node.  Producers append tasks,
  workers take the first one, and `thread_pool_destroy` takes what is left.  What happens
  under the lock is one step here; `SyncQueueLock` has the steps of the lock and of the
  condition.

    * `QueueRep`        — the nodes that the queue consists of;
    * `taskQueueStep_queued` — every step keeps them in order;
    * `taskQueue_fifo`  — the tasks that were accepted are those that were handed out and
                          those that are queued, in this order, so that draining hands out
                          each of them once.
-/
import OServer.Heap
import OServer.Lib.Run

namespace OServer

open Run

/-! ## 1. `sync_queue.c` -/

/-- `sync_queue_t` without its lock and its condition. -/
structure SyncQueue where
  head : Option Ptr
  tail : Option Ptr
  destorying : Bool
deriving DecidableEq

def syncQueueInit : SyncQueue := ⟨none, none, false⟩

/-- The first step of `sync_queue_signal_destroy`; the second one wakes who waits. -/
def syncQueueSignalDestroy (queue : SyncQueue) : SyncQueue := { queue with destorying := true }

/-- The condition of the loop in `sync_queue_pop_front`. -/
def SyncQueue.mustWait (queue : SyncQueue) : Bool := !queue.destorying && queue.head.isNone

namespace Heap

/-- `sync_queue_push_back`, without the signal. -/
def syncQueuePushBack (m : Heap) (queue : SyncQueue) (ele : Ptr) : Heap × SyncQueue :=
  let m := m.setNext ele none
  if queue.destorying then (m, queue)
  else
    match queue.tail with
    | none => (m, { queue with head := some ele, tail := some ele })
    | some last => (m.setNext last (some ele), { queue with tail := some ele })

/-- What follows the loop in `sync_queue_pop_front`. -/
def syncQueuePopFront (m : Heap) (queue : SyncQueue) : SyncQueue × Option Ptr :=
  match queue.head with
  | none => (queue, none)
  | some ret =>
      ({ queue with
          head := m.next ret
          tail := if queue.tail = some ret then m.next ret else queue.tail },
        some ret)

end Heap

/-! ## 2. The tasks -/

/-- The queue, its memory, and the nodes that are taken from it and not yet freed.  A task is what
    `run` and `arg` hold. -/
structure TaskQueue (α : Type) where
  heap : Heap
  queue : SyncQueue
  task : Ptr → α
  /-- what `malloc` has returned and nobody has freed -/
  allocated : List Ptr
  taken : List Ptr

inductive QueueEvent (α : Type) where
  /-- `thread_pool_add_task`; `malloc` returns `node` -/
  | addTask (node : Ptr) (task : α)
  /-- `sync_queue_pop_front` does not wait any more -/
  | popFront
  /-- the task is done, or drained -/
  | free (node : Ptr)
  /-- `queue->destorying = 1` -/
  | signalDestroy

inductive QueueObs (α : Type) where
  /-- a push that has seen `destorying = 0` -/
  | accepted (task : α)
  | handedOut (task : α)
  /-- `sync_queue_pop_front` returns `NULL` -/
  | empty
deriving DecidableEq

namespace TaskQueue

variable {α : Type}

def init (heap : Heap) (task : Ptr → α) (allocated : List Ptr) : TaskQueue α :=
  ⟨heap, syncQueueInit, task, allocated, []⟩

def addTask (s : TaskQueue α) (node : Ptr) (task : α) : TaskQueue α × List (QueueObs α) :=
  let r := s.heap.syncQueuePushBack s.queue node
  ({ s with
      heap := r.1
      queue := r.2
      task := Function.update s.task node task
      allocated := node :: s.allocated },
    if s.queue.destorying then [] else [.accepted task])

def popFront (s : TaskQueue α) : TaskQueue α × List (QueueObs α) :=
  let r := s.heap.syncQueuePopFront s.queue
  ({ s with queue := r.1, taken := r.2.toList ++ s.taken },
    match r.2 with
    | none => [.empty]
    | some node => [.handedOut (s.task node)])

end TaskQueue

/-- `malloc` returns what is not in use, and only what was taken from the queue is freed. -/
def taskQueueStep {α : Type} (s : TaskQueue α) :
    QueueEvent α → Option (TaskQueue α × List (QueueObs α))
  | .addTask node task => if node ∈ s.allocated then none else some (s.addTask node task)
  | .popFront => if s.queue.mustWait then none else some s.popFront
  | .free node =>
      if node ∈ s.taken then
        some ({ s with allocated := s.allocated.erase node, taken := s.taken.erase node }, [])
      else none
  | .signalDestroy => some ({ s with queue := syncQueueSignalDestroy s.queue }, [])

/-! ## 3. The nodes of the queue -/

/-- The queue consists of `nodes`: they are linked from `head`, and `tail` is the last of them. -/
structure QueueRep {α : Type} (s : TaskQueue α) (nodes : List Ptr) : Prop where
  linked : Linked s.heap.next s.queue.head nodes none
  tail : s.queue.tail = nodes.getLast?
  nodup : (nodes ++ s.taken).Nodup
  allocated : ∀ p ∈ nodes ++ s.taken, p ∈ s.allocated

theorem taskQueue_init {α : Type} (heap : Heap) (task : Ptr → α) (allocated : List Ptr) :
    QueueRep (TaskQueue.init heap task allocated) [] :=
  ⟨rfl, rfl, List.nodup_nil, fun _ hp => absurd hp List.not_mem_nil⟩

section Rep
variable {α : Type} {s : TaskQueue α} {nodes : List Ptr} (h : QueueRep s nodes)
include h

theorem QueueRep.head_none : s.queue.head = none ↔ nodes = [] := by
  constructor
  · intro hhead
    exact h.linked.eq_nil hhead Linked.ends_none
  · rintro rfl
    exact h.linked

theorem QueueRep.tail_none : s.queue.tail = none ↔ nodes = [] := by
  rw [h.tail, List.getLast?_eq_none_iff]

/-- A push after the shutdown leaves the queue. -/
theorem addTask_refused {node : Ptr} (hnode : node ∉ s.allocated) (task : α)
    (hdestorying : s.queue.destorying = true) :
    QueueRep (s.addTask node task).1 nodes ∧ (s.addTask node task).2 = [] := by
  have hnot : node ∉ nodes := fun hmem => hnode (h.allocated node (List.mem_append_left _ hmem))
  simp only [TaskQueue.addTask, Heap.syncQueuePushBack, hdestorying, if_true]
  refine ⟨⟨h.linked.update hnot, h.tail, h.nodup, ?_⟩, trivial⟩
  intro p hp
  exact List.mem_cons_of_mem node (h.allocated p hp)

/-- A push appends its node. -/
theorem addTask_accepted {node : Ptr} (hnode : node ∉ s.allocated) (task : α)
    (hdestorying : s.queue.destorying = false) :
    QueueRep (s.addTask node task).1 (nodes ++ [node]) ∧
      (s.addTask node task).2 = [.accepted task] := by
  have hnot : node ∉ nodes ++ s.taken := fun hmem => hnode (h.allocated node hmem)
  have hnodup : ((nodes ++ [node]) ++ s.taken).Nodup := by
    rw [List.append_assoc, List.singleton_append]
    exact List.perm_middle.nodup_iff.mpr (List.nodup_cons.mpr ⟨hnot, h.nodup⟩)
  have hallocated : ∀ p ∈ (nodes ++ [node]) ++ s.taken, p ∈ node :: s.allocated := by
    intro p hp
    rw [List.append_assoc, List.singleton_append] at hp
    rcases List.mem_cons.mp (List.perm_middle.mem_iff.mp hp) with rfl | hp
    · exact List.mem_cons_self
    · exact List.mem_cons_of_mem node (h.allocated p hp)
  have hnode' : node ∉ nodes := fun hmem => hnot (List.mem_append_left _ hmem)
  have hlinked : Linked (s.heap.setNext node none).next s.queue.head nodes none :=
    h.linked.update hnode'
  simp only [TaskQueue.addTask, Heap.syncQueuePushBack, hdestorying, Bool.false_eq_true, if_false]
  cases htail : s.queue.tail with
  | none =>
    obtain rfl := h.tail_none.mp htail
    exact ⟨⟨⟨rfl, Function.update_self ..⟩, rfl, hnodup, hallocated⟩, trivial⟩
  | some last =>
    have hlast := h.tail
    rw [htail] at hlast
    obtain ⟨front, rfl⟩ := List.getLast?_eq_some_iff.mp hlast.symm
    have hfront : last ∉ front := by
      intro hmem
      have hnd := (List.nodup_append.mp h.nodup).1
      exact (List.nodup_append.mp hnd).2.2 last hmem last List.mem_cons_self rfl
    have hne : node ≠ last := by
      rintro rfl
      exact hnode' (List.mem_append_right _ List.mem_cons_self)
    refine ⟨⟨?_, ?_, hnodup, hallocated⟩, trivial⟩
    · refine Linked.append_iff.mpr ⟨_, hlinked.redirect hfront (some node), rfl, ?_⟩
      rw [Heap.setNext_next, Function.update_of_ne hne]
      exact Function.update_self ..
    · simp

/-- A pop takes the first node. -/
theorem popFront_rep :
    QueueRep s.popFront.1 nodes.tail ∧
      s.popFront.2 = match nodes with
        | [] => [.empty]
        | node :: _ => [.handedOut (s.task node)] := by
  cases nodes with
  | nil =>
    have hhead := h.head_none.mpr rfl
    simp only [TaskQueue.popFront, Heap.syncQueuePopFront, hhead]
    exact ⟨⟨h.linked, h.tail, h.nodup, h.allocated⟩, trivial⟩
  | cons node nodes =>
    obtain ⟨hhead, hrest⟩ := h.linked
    simp only [TaskQueue.popFront, Heap.syncQueuePopFront, hhead]
    have hnodup : (nodes ++ node :: s.taken).Nodup := List.perm_middle.nodup_iff.mpr h.nodup
    refine ⟨⟨hrest, ?_, hnodup, ?_⟩, trivial⟩
    · show (if s.queue.tail = some node then s.heap.next node else s.queue.tail) = nodes.getLast?
      have htail := h.tail
      cases nodes with
      | nil =>
        have htail' : s.queue.tail = some node := htail
        rw [if_pos htail']
        exact hrest
      | cons next nodes =>
        -- the last node is not the one that is taken
        have hne : s.queue.tail ≠ some node := by
          intro heq
          have hmem : node ∈ next :: nodes := by
            apply List.mem_of_getLast?
            rw [← heq, htail]
            rfl
          exact (List.nodup_cons.mp (List.nodup_append.mp h.nodup).1).1 hmem
        rw [if_neg hne, htail]
        rfl
    · intro p hp
      exact h.allocated p (List.perm_middle.mem_iff.mp hp)

theorem free_rep (node : Ptr) (hnode : node ∈ s.taken) :
    QueueRep { s with allocated := s.allocated.erase node, taken := s.taken.erase node } nodes := by
  obtain ⟨hnodes, htaken, hdisj⟩ := List.nodup_append.mp h.nodup
  refine ⟨h.linked, h.tail, ?_, ?_⟩
  · exact h.nodup.sublist (List.Sublist.append_left List.erase_sublist nodes)
  · intro p hp
    have hne : p ≠ node := by
      rintro rfl
      rcases List.mem_append.mp hp with hp | hp
      · exact hdisj p hp p hnode rfl
      · exact (htaken.mem_erase_iff.mp hp).1 rfl
    refine (List.mem_erase_of_ne hne).mpr (h.allocated p ?_)
    rcases List.mem_append.mp hp with hp | hp
    · exact List.mem_append_left _ hp
    · exact List.mem_append_right _ (List.mem_of_mem_erase hp)

end Rep

/-! ## 4. What is accepted and what is handed out -/

def acceptedTasks {α : Type} (obs : List (QueueObs α)) : List α :=
  obs.filterMap fun
    | .accepted task => some task
    | _ => none

def handedOutTasks {α : Type} (obs : List (QueueObs α)) : List α :=
  obs.filterMap fun
    | .handedOut task => some task
    | _ => none

section Log
variable {α : Type}

@[simp] theorem acceptedTasks_append (obs obs' : List (QueueObs α)) :
    acceptedTasks (obs ++ obs') = acceptedTasks obs ++ acceptedTasks obs' := List.filterMap_append

@[simp] theorem handedOutTasks_append (obs obs' : List (QueueObs α)) :
    handedOutTasks (obs ++ obs') = handedOutTasks obs ++ handedOutTasks obs' :=
  List.filterMap_append

/-- The shutdown has begun and nothing is queued any more. -/
def Drained (s : TaskQueue α) (nodes : List Ptr) : Prop :=
  s.queue.destorying = true ∧ nodes = []

/-- What a part of a run does to the queue `nodes`: what is accepted goes behind it, what is handed
    out comes from its front, and what is drained stays so. -/
structure Queued (nodes : List Ptr) (s : TaskQueue α) (obs : List (QueueObs α)) (nodes' : List Ptr)
    (s' : TaskQueue α) : Prop where
  rep : QueueRep s' nodes'
  order : nodes.map s.task ++ acceptedTasks obs = handedOutTasks obs ++ nodes'.map s'.task
  drained : Drained s nodes ∨ .empty ∈ obs → Drained s' nodes'

variable {s : TaskQueue α} {nodes : List Ptr}

theorem popFront_destorying (s : TaskQueue α) :
    s.popFront.1.queue.destorying = s.queue.destorying := by
  cases hhead : s.queue.head <;> simp [TaskQueue.popFront, Heap.syncQueuePopFront, hhead]

theorem popFront_task (s : TaskQueue α) : s.popFront.1.task = s.task := rfl

/-- Without a wait there is a task, or the shutdown has begun. -/
theorem destorying_of_empty (h : QueueRep s []) (hwait : s.queue.mustWait = false) :
    s.queue.destorying = true := by
  have hhead := h.head_none.mpr rfl
  simpa [SyncQueue.mustWait, hhead] using hwait

theorem popFront_queued (h : QueueRep s nodes) (hwait : s.queue.mustWait = false) :
    Queued nodes s s.popFront.2 nodes.tail s.popFront.1 := by
  obtain ⟨hrep, hobs⟩ := popFront_rep h
  cases nodes with
  | nil =>
    rw [hobs]
    refine ⟨hrep, rfl, fun _ => ⟨?_, rfl⟩⟩
    rw [popFront_destorying]
    exact destorying_of_empty h hwait
  | cons node nodes =>
    rw [hobs]
    refine ⟨hrep, by simp [acceptedTasks, handedOutTasks, popFront_task], ?_⟩
    rintro (⟨-, hnil⟩ | hmem)
    · exact absurd hnil (List.cons_ne_nil _ _)
    · simp at hmem

theorem addTask_queued (h : QueueRep s nodes) {node : Ptr} (hnode : node ∉ s.allocated) (task : α) :
    ∃ nodes', Queued nodes s (s.addTask node task).2 nodes' (s.addTask node task).1 := by
  have hsame : nodes.map (Function.update s.task node task) = nodes.map s.task := by
    apply List.map_congr_left
    intro p hp
    apply Function.update_of_ne
    rintro rfl
    exact hnode (h.allocated p (List.mem_append_left _ hp))
  cases hdestorying : s.queue.destorying with
  | true =>
    obtain ⟨hrep, hobs⟩ := addTask_refused h hnode task hdestorying
    rw [hobs]
    refine ⟨nodes, hrep, ?_, ?_⟩
    · rw [show (s.addTask node task).1.task = Function.update s.task node task from rfl, hsame]
      simp [acceptedTasks, handedOutTasks]
    · rintro (⟨-, hnil⟩ | hmem)
      · refine ⟨?_, hnil⟩
        simp [TaskQueue.addTask, Heap.syncQueuePushBack, hdestorying]
      · exact absurd hmem List.not_mem_nil
  | false =>
    obtain ⟨hrep, hobs⟩ := addTask_accepted h hnode task hdestorying
    rw [hobs]
    refine ⟨nodes ++ [node], hrep, ?_, ?_⟩
    · rw [show (s.addTask node task).1.task = Function.update s.task node task from rfl,
        List.map_append, hsame]
      simp [acceptedTasks, handedOutTasks]
    · rintro (⟨htrue, -⟩ | hmem)
      · exact absurd (htrue.symm.trans hdestorying) (by simp)
      · simp at hmem

theorem taskQueueStep_queued (h : QueueRep s nodes) {e : QueueEvent α}
    {r : TaskQueue α × List (QueueObs α)} (hstep : taskQueueStep s e = some r) :
    ∃ nodes', Queued nodes s r.2 nodes' r.1 := by
  cases e with
  | addTask node task =>
    simp only [taskQueueStep] at hstep
    split at hstep
    · cases hstep
    · rename_i hnode
      cases hstep
      exact addTask_queued h hnode task
  | popFront =>
    simp only [taskQueueStep] at hstep
    split at hstep
    · cases hstep
    · rename_i hwait
      cases hstep
      exact ⟨nodes.tail, popFront_queued h (Bool.eq_false_iff.mpr hwait)⟩
  | free node =>
    simp only [taskQueueStep] at hstep
    split at hstep
    · rename_i hnode
      cases hstep
      refine ⟨nodes, free_rep h node hnode, by simp [acceptedTasks, handedOutTasks], ?_⟩
      rintro (hdrained | hmem)
      · exact hdrained
      · exact absurd hmem List.not_mem_nil
    · cases hstep
  | signalDestroy =>
    cases hstep
    refine ⟨nodes, ⟨h.linked, h.tail, h.nodup, h.allocated⟩, by simp [acceptedTasks, handedOutTasks], ?_⟩
    rintro (⟨-, hnil⟩ | hmem)
    · exact ⟨rfl, hnil⟩
    · exact absurd hmem List.not_mem_nil

theorem taskQueue_queued (h : QueueRep s nodes) {es : List (QueueEvent α)}
    {r : TaskQueue α × List (QueueObs α)} (hrun : Run.run taskQueueStep es s = some r) :
    ∃ nodes', Queued nodes s r.2 nodes' r.1 := by
  induction es generalizing s nodes r with
  | nil =>
    cases hrun
    refine ⟨nodes, h, by simp [acceptedTasks, handedOutTasks], ?_⟩
    rintro (hdrained | hmem)
    · exact hdrained
    · exact absurd hmem List.not_mem_nil
  | cons e es ih =>
    obtain ⟨r₁, r₂, hstep, htail, rfl⟩ := run_cons.mp hrun
    obtain ⟨nodes₁, h₁⟩ := taskQueueStep_queued h hstep
    obtain ⟨nodes₂, h₂⟩ := ih h₁.rep htail
    refine ⟨nodes₂, h₂.rep, ?_, ?_⟩
    · rw [acceptedTasks_append, handedOutTasks_append, ← List.append_assoc, h₁.order,
        List.append_assoc, h₂.order, List.append_assoc]
    · rintro (hdrained | hmem)
      · exact h₂.drained (.inl (h₁.drained (.inl hdrained)))
      · rcases List.mem_append.mp hmem with hmem | hmem
        · exact h₂.drained (.inl (h₁.drained (.inr hmem)))
        · exact h₂.drained (.inr hmem)

/-- The loop of `thread_pool_destroy`: it hands out what is queued, and then nothing. -/
theorem taskQueue_drain (h : QueueRep s nodes) (hdestorying : s.queue.destorying = true) :
    ∃ r, Run.run taskQueueStep (List.replicate (nodes.length + 1) .popFront) s = some r ∧
      .empty ∈ r.2 := by
  have hwait : s.queue.mustWait = false := by simp [SyncQueue.mustWait, hdestorying]
  have hstep : taskQueueStep s .popFront = some s.popFront := by simp [taskQueueStep, hwait]
  obtain ⟨hrep, hobs⟩ := popFront_rep h
  induction nodes generalizing s with
  | nil =>
    refine ⟨_, run_cons.mpr ⟨_, _, hstep, rfl, rfl⟩, ?_⟩
    simp [hobs]
  | cons node nodes ih =>
    have hdestorying' : s.popFront.1.queue.destorying = true := by
      rw [popFront_destorying]
      exact hdestorying
    have hwait' : s.popFront.1.queue.mustWait = false := by
      simp [SyncQueue.mustWait, hdestorying']
    obtain ⟨hrep', hobs'⟩ := popFront_rep hrep
    obtain ⟨r, hrun, hempty⟩ := ih hrep hdestorying' hwait' (by simp [taskQueueStep, hwait'])
      hrep' hobs'
    refine ⟨_, run_cons.mpr ⟨_, _, hstep, hrun, rfl⟩, ?_⟩
    exact List.mem_append_right _ hempty

/-- **The queue hands out each accepted task once and in order**, whatever the producers, the
    workers and the shutdown do: what was accepted is what was handed out, followed by what is
    queued; `head` and `tail` are the ends of the queue; when a pop has returned `NULL`, and when
    the queue is drained after the shutdown, nothing is left. -/
theorem taskQueue_fifo {heap : Heap} {task : Ptr → α} {allocated : List Ptr}
    {es : List (QueueEvent α)} {r : TaskQueue α × List (QueueObs α)}
    (hrun : Run.run taskQueueStep es (TaskQueue.init heap task allocated) = some r) :
    ∃ nodes,
      Linked r.1.heap.next r.1.queue.head nodes none ∧ nodes.Nodup ∧
      r.1.queue.tail = nodes.getLast? ∧
      (r.1.queue.head = none ↔ r.1.queue.tail = none) ∧
      acceptedTasks r.2 = handedOutTasks r.2 ++ nodes.map r.1.task ∧
      (.empty ∈ r.2 → acceptedTasks r.2 = handedOutTasks r.2) ∧
      (r.1.queue.destorying = true →
        ∃ r', Run.run taskQueueStep (List.replicate (nodes.length + 1) .popFront) r.1 = some r' ∧
          .empty ∈ r'.2 ∧ acceptedTasks (r.2 ++ r'.2) = handedOutTasks (r.2 ++ r'.2)) := by
  obtain ⟨nodes, hqueued⟩ := taskQueue_queued (taskQueue_init heap task allocated) hrun
  have horder : acceptedTasks r.2 = handedOutTasks r.2 ++ nodes.map r.1.task := by
    simpa using hqueued.order
  refine ⟨nodes, hqueued.rep.linked, (List.nodup_append.mp hqueued.rep.nodup).1, hqueued.rep.tail,
    hqueued.rep.head_none.trans hqueued.rep.tail_none.symm, horder, ?_, ?_⟩
  · intro hempty
    obtain ⟨-, rfl⟩ := hqueued.drained (.inr hempty)
    simpa using horder
  · intro hdestorying
    obtain ⟨r', hrun', hempty⟩ := taskQueue_drain hqueued.rep hdestorying
    obtain ⟨nodes', hqueued'⟩ := taskQueue_queued hqueued.rep hrun'
    obtain ⟨-, rfl⟩ := hqueued'.drained (.inr hempty)
    refine ⟨r', hrun', hempty, ?_⟩
    have horder' := hqueued'.order
    rw [List.map_nil, List.append_nil] at horder'
    rw [acceptedTasks_append, handedOutTasks_append, horder, List.append_assoc, horder']

/-- Two tasks, the first of them taken before the shutdown. -/
theorem taskQueue_fifo_two :
    ∃ r, Run.run taskQueueStep [.addTask 8 "first", .addTask 9 "second", .popFront, .signalDestroy]
        (TaskQueue.init ⟨fun _ => none, fun _ => none⟩ (fun _ => "") []) = some r ∧
      ∃ nodes : List Ptr, acceptedTasks r.2 = handedOutTasks r.2 ++ nodes.map r.1.task := by
  have hrun : ∃ r, Run.run taskQueueStep
      [.addTask 8 "first", .addTask 9 "second", .popFront, .signalDestroy]
      (TaskQueue.init ⟨fun _ => none, fun _ => none⟩ (fun _ => "") []) = some r := ⟨_, rfl⟩
  obtain ⟨r, hr⟩ := hrun
  obtain ⟨nodes, -, -, -, -, horder, -⟩ := taskQueue_fifo hr
  exact ⟨r, hr, nodes, horder⟩

end Log

end OServer
