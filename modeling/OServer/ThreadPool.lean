/-
  OServer/ThreadPool.lean
  =======================
  **The thread pool (`thread_pool.c`): its workers, and its destruction.**

  A worker takes a task from the queue of `SyncQueueLock`, runs it and frees it, until
  there is none.  `thread_pool_destroy` signals the shutdown, joins the workers, and frees
  what is left in the queue.

    * `threadPool_conserved` — every task that is accepted is queued, held by one worker or
                               has been run, once; when the workers have exited all have
                               been run, nothing is left to drain, and the memory of each
                               is freed;
    * `threadPool_joins`     — if no worker misses the broadcast, the workers exit: they can
                               always go on, and they cannot go on for ever.
-/
import OServer.SyncQueueLock
import Mathlib.Algebra.BigOperators.Group.Finset.Basic
import Mathlib.Algebra.Group.Action.Defs
import Mathlib.Algebra.Order.BigOperators.Group.Finset
import Mathlib.Algebra.Order.Group.Multiset
import Mathlib.Data.Fintype.Basic

namespace OServer

open Run

/-! ## 1. State and steps -/

structure ThreadPool (α : Type) (n : Nat) where
  queue : LockedQueue α n
  /-- the task of a worker, and whether it has been run -/
  held : Fin n → Option (Ptr × Bool)

inductive PoolEvent (α : Type) (n : Nat) where
  /-- a step of `sync_queue_pop_front` in a worker, `thread_pool_add_task`, or
      `sync_queue_signal_destroy` -/
  | lock (e : LockEvent α n)
  /-- `task->run(task->arg)` -/
  | run (w : Fin n)
  /-- `free(task)` -/
  | free (w : Fin n)
  /-- `thread_pool_destroy` has joined the workers, and takes and frees a task -/
  | drain

inductive PoolObs (α : Type) (n : Nat) where
  | queue (o : QueueObs α)
  | ran (w : Fin n) (task : α)
  /-- a task that is added after the shutdown -/
  | dropped (node : Ptr)

namespace ThreadPool

variable {α : Type} {n : Nat}

/-- The worker comes back with the first task, or with none. -/
def took (s : ThreadPool α n) (w : Fin n) : ThreadPool α n × List (PoolObs α n) :=
  ({ queue := (s.queue.taken w).1
     held := Function.update s.held w (s.queue.tasks.queue.head.map fun node => (node, false)) },
    (s.queue.taken w).2.map .queue)

def ran (s : ThreadPool α n) (w : Fin n) (node : Ptr) : ThreadPool α n × List (PoolObs α n) :=
  ({ s with held := Function.update s.held w (some (node, true)) },
    [.ran w (s.queue.tasks.task node)])

def freed (s : ThreadPool α n) (w : Fin n) (tasks : TaskQueue α) : ThreadPool α n where
  queue := { s.queue with tasks := tasks }
  held := Function.update s.held w none

/-- A round of the loop of `thread_pool_destroy`. -/
def drained (s : ThreadPool α n) : ThreadPool α n × List (PoolObs α n) :=
  let r := s.queue.tasks.popFront
  let tasks := match s.queue.tasks.queue.head with
    | none => r.1
    | some node =>
        { r.1 with allocated := r.1.allocated.erase node, taken := r.1.taken.erase node }
  ({ s with queue := { s.queue with tasks := tasks } }, r.2.map .queue)

/-- The task of a push that sees `destorying` is forgotten. -/
def droppedBy (s : ThreadPool α n) : LockEvent α n → List (PoolObs α n)
  | .push node _ _ => if s.queue.tasks.queue.destorying then [.dropped node] else []
  | _ => []

def locked (s : ThreadPool α n) (e : LockEvent α n) (r : LockedQueue α n × List (QueueObs α)) :
    ThreadPool α n × List (PoolObs α n) :=
  ({ s with queue := r.1 }, r.2.map .queue ++ s.droppedBy e)

def Joined (s : ThreadPool α n) : Prop :=
  s.queue.shutdown = .done ∧ ∀ w, s.queue.worker w = .exited

instance (s : ThreadPool α n) : Decidable s.Joined := inferInstanceAs (Decidable (_ ∧ _))

end ThreadPool

/-- A worker is in `sync_queue_pop_front` only when it has no task. -/
def threadPoolStep {α : Type} {n : Nat} (s : ThreadPool α n) :
    PoolEvent α n → Option (ThreadPool α n × List (PoolObs α n))
  | .lock (.take w) => if s.queue.worker w = .take then some (s.took w) else none
  | .lock (.free _) => none
  | .lock (.lock w) =>
      if s.held w = none then
        (lockStep s.queue (.lock w)).map (s.locked (.lock w))
      else none
  | .lock e => (lockStep s.queue e).map (s.locked e)
  | .run w =>
      match s.held w with
      | some (node, false) => some (s.ran w node)
      | _ => none
  | .free w =>
      match s.held w with
      | some (node, true) =>
          (taskQueueStep s.queue.tasks (.free node)).map fun r => (s.freed w r.1, [])
      | _ => none
  | .drain => if s.Joined then some s.drained else none

/-- `thread_pool_init` with `initial_thread_count` workers. -/
structure ThreadPool.Started {α : Type} {n : Nat} (s : ThreadPool α n) (allocated : List Ptr) :
    Prop where
  queue : s.queue.Started
  tasks : ∃ heap task, s.queue.tasks = TaskQueue.init heap task allocated
  held : ∀ w, s.held w = none

/-- A step of the lock that takes no task and frees none. -/
def TakesNothing {α : Type} {n : Nat} : LockEvent α n → Prop
  | .take _ | .free _ => False
  | _ => True

/-- What one step can do. -/
inductive PoolStep {α : Type} {n : Nat} (s : ThreadPool α n) :
    PoolEvent α n → ThreadPool α n × List (PoolObs α n) → Prop where
  | lock {e : LockEvent α n} {r : LockedQueue α n × List (QueueObs α)} (he : TakesNothing e)
      (hheld : ∀ w, e = .lock w → s.held w = none) (hstep : lockStep s.queue e = some r) :
      PoolStep s (.lock e) (s.locked e r)
  | take {w : Fin n} (hw : s.queue.worker w = .take) : PoolStep s (.lock (.take w)) (s.took w)
  | run {w : Fin n} {node : Ptr} (hheld : s.held w = some (node, false)) :
      PoolStep s (.run w) (s.ran w node)
  | free {w : Fin n} {node : Ptr} {r : TaskQueue α × List (QueueObs α)}
      (hheld : s.held w = some (node, true))
      (hstep : taskQueueStep s.queue.tasks (.free node) = some r) :
      PoolStep s (.free w) (s.freed w r.1, [])
  | drain (hjoined : s.Joined) : PoolStep s .drain s.drained

section Cases
variable {α : Type} {n : Nat} {s : ThreadPool α n}

theorem threadPoolStep_lock {e : LockEvent α n} {r : ThreadPool α n × List (PoolObs α n)}
    (he : TakesNothing e) (hheld : ∀ w, e = .lock w → s.held w = none)
    (h : (lockStep s.queue e).map (s.locked e) = some r) : PoolStep s (.lock e) r := by
  obtain ⟨r', hstep, rfl⟩ := Option.map_eq_some_iff.mp h
  exact .lock he hheld hstep

theorem threadPoolStep_cases {e : PoolEvent α n} {r : ThreadPool α n × List (PoolObs α n)}
    (h : threadPoolStep s e = some r) : PoolStep s e r := by
  cases e with
  | lock e =>
    cases e with
    | take w =>
      obtain ⟨hw, ⟨⟩⟩ := Option.ite_none_right_eq_some.mp h
      exact .take hw
    | free node => cases h
    | lock w =>
      obtain ⟨hnone, hmap⟩ := Option.ite_none_right_eq_some.mp h
      refine threadPoolStep_lock trivial ?_ hmap
      intro w' heq
      cases heq
      exact hnone
    | test w => exact threadPoolStep_lock trivial nofun h
    | wait w => exact threadPoolStep_lock trivial nofun h
    | wake w => exact threadPoolStep_lock trivial nofun h
    | relock w => exact threadPoolStep_lock trivial nofun h
    | push node task woken => exact threadPoolStep_lock trivial nofun h
    | setDestorying => exact threadPoolStep_lock trivial nofun h
    | broadcast => exact threadPoolStep_lock trivial nofun h
  | run w =>
    rw [threadPoolStep] at h
    split at h
    · rename_i node hheld
      cases h
      exact .run hheld
    · cases h
  | free w =>
    rw [threadPoolStep] at h
    split at h
    · rename_i node hheld
      obtain ⟨r', hstep, rfl⟩ := Option.map_eq_some_iff.mp h
      exact .free hheld hstep
    · cases h
  | drain =>
    obtain ⟨hjoined, ⟨⟩⟩ := Option.ite_none_right_eq_some.mp h
    exact .drain hjoined

end Cases

/-! ## 2. What the workers hold -/

/-- The share of one member of a finite family changes. -/
theorem sum_of_ne {ι M : Type} [Fintype ι] [DecidableEq ι] [AddCommMonoid M] (f f' : ι → M) (i : ι)
    (h : ∀ j, j ≠ i → f' j = f j) : ∑ j, f' j + f i = ∑ j, f j + f' i := by
  have hrest : ∑ j ∈ Finset.univ.erase i, f' j = ∑ j ∈ Finset.univ.erase i, f j :=
    Finset.sum_congr rfl fun j hj => h j (Finset.ne_of_mem_erase hj)
  rw [← Finset.add_sum_erase Finset.univ f' (Finset.mem_univ i),
    ← Finset.add_sum_erase Finset.univ f (Finset.mem_univ i), hrest]
  exact add_right_comm _ _ _ |>.trans (congrArg (· + _) (add_comm _ _)) |>.trans
    (add_right_comm _ _ _)

/-- One worker holds something else. -/
theorem sum_held_update {M : Type} [AddCommMonoid M] {n : Nat} (f : Option (Ptr × Bool) → M)
    (held : Fin n → Option (Ptr × Bool)) (w : Fin n) (x : Option (Ptr × Bool)) :
    ∑ w', f (Function.update held w x w') + f (held w) = ∑ w', f (held w') + f x := by
  have hsum := sum_of_ne (fun w' => f (held w')) (fun w' => f (Function.update held w x w')) w
    fun w' hne => congrArg f (Function.update_of_ne hne ..)
  rwa [Function.update_self] at hsum

/-- The node of the task. -/
def heldNode : Option (Ptr × Bool) → Multiset Ptr
  | none => 0
  | some (node, _) => {node}

/-- The task, if it has not been run yet. -/
def toRun {α : Type} (task : Ptr → α) : Option (Ptr × Bool) → Multiset α
  | some (node, false) => {task node}
  | _ => 0

def queueObs {α : Type} {n : Nat} (obs : List (PoolObs α n)) : List (QueueObs α) :=
  obs.filterMap fun
    | .queue o => some o
    | _ => none

def ranTasks {α : Type} {n : Nat} (obs : List (PoolObs α n)) : List α :=
  obs.filterMap fun
    | .ran _ task => some task
    | _ => none

def droppedNodes {α : Type} {n : Nat} (obs : List (PoolObs α n)) : List Ptr :=
  obs.filterMap fun
    | .dropped node => some node
    | _ => none

section Obs
variable {α : Type} {n : Nat}

@[simp] theorem queueObs_append (obs obs' : List (PoolObs α n)) :
    queueObs (obs ++ obs') = queueObs obs ++ queueObs obs' := List.filterMap_append

@[simp] theorem ranTasks_append (obs obs' : List (PoolObs α n)) :
    ranTasks (obs ++ obs') = ranTasks obs ++ ranTasks obs' := List.filterMap_append

@[simp] theorem droppedNodes_append (obs obs' : List (PoolObs α n)) :
    droppedNodes (obs ++ obs') = droppedNodes obs ++ droppedNodes obs' := List.filterMap_append

@[simp] theorem queueObs_map (obs : List (QueueObs α)) :
    queueObs (obs.map (PoolObs.queue (n := n))) = obs := by
  induction obs with
  | nil => rfl
  | cons o obs ih =>
    rw [List.map_cons]
    exact congrArg (o :: ·) ih

@[simp] theorem ranTasks_map (obs : List (QueueObs α)) :
    ranTasks (obs.map (PoolObs.queue (n := n))) = [] := by
  induction obs with
  | nil => rfl
  | cons o obs ih =>
    rw [List.map_cons]
    exact ih

@[simp] theorem droppedNodes_map (obs : List (QueueObs α)) :
    droppedNodes (obs.map (PoolObs.queue (n := n))) = [] := by
  induction obs with
  | nil => rfl
  | cons o obs ih =>
    rw [List.map_cons]
    exact ih

/-- What is dropped is seen by nobody. -/
theorem droppedBy_quiet (s : ThreadPool α n) (e : LockEvent α n) :
    queueObs (s.droppedBy e) = [] ∧ ranTasks (s.droppedBy e) = [] := by
  cases e with
  | push node task woken =>
    cases hdestorying : s.queue.tasks.queue.destorying <;>
      simp [ThreadPool.droppedBy, hdestorying, queueObs, ranTasks]
  | _ => exact ⟨rfl, rfl⟩

end Obs

/-- The memory that is in use: what was in use before, the nodes that are queued or taken, and what
    has been dropped. -/
def Accounted {α : Type} (allocated : List Ptr) (s : TaskQueue α) (dropped : List Ptr) : Prop :=
  ∃ nodes, QueueRep s nodes ∧ (s.allocated : Multiset Ptr) = allocated + nodes + s.taken + dropped

section Memory
variable {α : Type} {s : TaskQueue α} {allocated dropped : List Ptr}

theorem accounted_init (heap : Heap) (task : Ptr → α) :
    Accounted allocated (TaskQueue.init heap task allocated) [] := by
  refine ⟨[], taskQueue_init heap task allocated, ?_⟩
  simp [TaskQueue.init]

theorem addTask_accounted (h : Accounted allocated s dropped) {node : Ptr}
    (hnode : node ∉ s.allocated) (task : α) :
    Accounted allocated (s.addTask node task).1
      (dropped ++ if s.queue.destorying then [node] else []) := by
  obtain ⟨nodes, hrep, hall⟩ := h
  have hcons : ((s.addTask node task).1.allocated : Multiset Ptr) =
      s.allocated + {node} := by
    rw [add_comm, Multiset.singleton_add, Multiset.cons_coe]
    rfl
  cases hdestorying : s.queue.destorying with
  | true =>
    refine ⟨nodes, (addTask_refused hrep hnode task hdestorying).1, ?_⟩
    rw [hcons, hall, if_pos rfl, ← Multiset.coe_add, Multiset.coe_singleton]
    exact add_assoc _ _ _
  | false =>
    refine ⟨nodes ++ [node], (addTask_accepted hrep hnode task hdestorying).1, ?_⟩
    rw [hcons, hall, if_neg (by simp), List.append_nil, ← Multiset.coe_add, Multiset.coe_singleton]
    show (allocated : Multiset Ptr) + nodes + s.taken + dropped + {node} =
      allocated + (nodes + {node}) + s.taken + dropped
    rw [← add_assoc, add_right_comm _ (dropped : Multiset Ptr),
      add_right_comm _ (s.taken : Multiset Ptr)]

theorem popFront_accounted (h : Accounted allocated s dropped) :
    Accounted allocated s.popFront.1 dropped := by
  obtain ⟨nodes, hrep, hall⟩ := h
  refine ⟨nodes.tail, (popFront_rep hrep).1, ?_⟩
  refine hall.trans ?_
  cases nodes with
  | nil =>
    have hhead := hrep.head_none.mpr rfl
    simp [TaskQueue.popFront, Heap.syncQueuePopFront, hhead]
  | cons node nodes =>
    have hhead : s.queue.head = some node := hrep.linked.1
    have htaken : s.popFront.1.taken = node :: s.taken := by
      simp [TaskQueue.popFront, Heap.syncQueuePopFront, hhead]
    have hmoved : (((node :: nodes : List Ptr) : Multiset Ptr) + s.taken) =
        nodes + (node :: s.taken : List Ptr) :=
      Multiset.coe_eq_coe.mpr List.perm_middle.symm
    rw [htaken, add_assoc (allocated : Multiset Ptr), hmoved, ← add_assoc]
    rfl

theorem free_accounted (h : Accounted allocated s dropped) {node : Ptr} (hnode : node ∈ s.taken) :
    Accounted allocated
      { s with allocated := s.allocated.erase node, taken := s.taken.erase node } dropped := by
  obtain ⟨nodes, hrep, hall⟩ := h
  refine ⟨nodes, free_rep hrep node hnode, ?_⟩
  have herase : ((s.allocated.erase node : List Ptr) : Multiset Ptr) =
      (s.allocated : Multiset Ptr).erase node := rfl
  have hmem : node ∈ (s.taken : Multiset Ptr) := Multiset.mem_coe.mpr hnode
  show ((s.allocated.erase node : List Ptr) : Multiset Ptr) =
    allocated + nodes + (s.taken : Multiset Ptr).erase node + dropped
  rw [herase, hall, Multiset.erase_add_left_pos _ (Multiset.mem_add.mpr (.inr hmem)),
    Multiset.erase_add_right_pos _ hmem]

end Memory

/-- What has been accepted is queued as `nodes`, held, or has been run; what has been taken from
    the queue is held. -/
structure Conserved {α : Type} {n : Nat} (s : ThreadPool α n) (past : List (PoolObs α n))
    (nodes : List Ptr) : Prop where
  rep : QueueRep s.queue.tasks nodes
  tasks : (acceptedTasks (queueObs past) : Multiset α) =
    ranTasks past + ∑ w, toRun s.queue.tasks.task (s.held w) + (nodes.map s.queue.tasks.task : List α)
  taken : (s.queue.tasks.taken : Multiset Ptr) = ∑ w, heldNode (s.held w)
  drained : ∀ w, s.queue.worker w = .exited → Drained s.queue.tasks nodes

structure ThreadPoolInv {α : Type} {n : Nat} (allocated : List Ptr) (s : ThreadPool α n)
    (past : List (PoolObs α n)) : Prop where
  lock : LockInv s.queue
  /-- who has the lock is at one of its points -/
  holder : ∀ w, s.queue.lock = some w → (s.queue.worker w).locked = true
  outside : ∀ w, s.held w ≠ none → s.queue.worker w = .outside
  conserved : ∃ nodes, Conserved s past nodes
  memory : Accounted allocated s.queue.tasks (droppedNodes past)

section Conserve
variable {α : Type} {n : Nat} {s : ThreadPool α n} {past : List (PoolObs α n)} {nodes : List Ptr}

/-- A task that is held is not overwritten by another one. -/
theorem Conserved.held_ne (h : Conserved s past nodes) {node : Ptr}
    (hnode : node ∉ s.queue.tasks.allocated) (w : Fin n) : node ∉ heldNode (s.held w) := by
  intro hmem
  have htaken : node ∈ (s.queue.tasks.taken : Multiset Ptr) := by
    rw [h.taken]
    exact Multiset.mem_of_le (Finset.single_le_sum (fun _ _ => Multiset.zero_le _) (Finset.mem_univ w))
      hmem
  exact hnode (h.rep.allocated node (List.mem_append_right _ (Multiset.mem_coe.mp htaken)))

theorem toRun_update (task : Ptr → α) (node : Ptr) (t : α) {held : Option (Ptr × Bool)}
    (h : node ∉ heldNode held) : toRun (Function.update task node t) held = toRun task held := by
  cases held with
  | none => rfl
  | some entry =>
    obtain ⟨node', ran⟩ := entry
    have hne : node' ≠ node := fun heq => h (Multiset.mem_singleton.mpr heq.symm)
    cases ran with
    | true => rfl
    | false => simp only [toRun, Function.update_of_ne hne]

/-- **A step of the queue** that hands out what the workers then hold. -/
theorem Conserved.next (h : Conserved s past nodes) {s' : ThreadPool α n} {nodes' : List Ptr}
    {obs : List (QueueObs α)} (hqueued : Queued nodes s.queue.tasks obs nodes' s'.queue.tasks)
    (hheld : ∑ w, toRun s'.queue.tasks.task (s'.held w) =
      ∑ w, toRun s.queue.tasks.task (s.held w) + (handedOutTasks obs : Multiset α))
    (htaken : (s'.queue.tasks.taken : Multiset Ptr) = ∑ w, heldNode (s'.held w))
    (hexited : ∀ w, s'.queue.worker w = .exited → s.queue.worker w = .exited ∨ .empty ∈ obs) :
    Conserved s' (past ++ obs.map .queue) nodes' where
  rep := hqueued.rep
  tasks := by
    have horder := congrArg (fun l : List α => (l : Multiset α)) hqueued.order
    simp only [← Multiset.coe_add] at horder
    rw [queueObs_append, queueObs_map, acceptedTasks_append, ← Multiset.coe_add, h.tasks,
      ranTasks_append, ranTasks_map, List.append_nil, hheld]
    calc (ranTasks past + ∑ w, toRun s.queue.tasks.task (s.held w) +
          (nodes.map s.queue.tasks.task : List α) + (acceptedTasks obs : Multiset α))
        = ranTasks past + ∑ w, toRun s.queue.tasks.task (s.held w) +
          ((nodes.map s.queue.tasks.task : List α) + (acceptedTasks obs : Multiset α)) :=
          add_assoc _ _ _
      _ = _ := by rw [horder, ← add_assoc, ← add_assoc]
  taken := htaken
  drained := by
    intro w hw
    apply hqueued.drained
    rcases hexited w hw with hold | hempty
    · exact .inl (h.drained w hold)
    · exact .inr hempty

/-- What is seen of neither the queue nor a run changes nothing. -/
theorem Conserved.quiet (h : Conserved s past nodes) {obs : List (PoolObs α n)}
    (hobs : queueObs obs = [] ∧ ranTasks obs = []) : Conserved s (past ++ obs) nodes where
  rep := h.rep
  tasks := by
    rw [queueObs_append, ranTasks_append, hobs.1, hobs.2, List.append_nil, List.append_nil]
    exact h.tasks
  taken := h.taken
  drained := h.drained

end Conserve

/-! ## 3. Steps -/

/-- What a step of the lock leaves when it takes no task and frees none. -/
structure LockKeeps {α : Type} {n : Nat} (s : LockedQueue α n) (e : LockEvent α n)
    (r : LockedQueue α n × List (QueueObs α)) : Prop where
  taken : r.1.tasks.taken = s.tasks.taken
  handedOut : handedOutTasks r.2 = []
  task : r.1.tasks.task = s.tasks.task ∨
    ∃ node t, node ∉ s.tasks.allocated ∧ r.1.tasks.task = Function.update s.tasks.task node t
  exited : ∀ w, r.1.worker w = .exited → s.worker w = .exited
  outside : ∀ w, s.worker w = .outside → e ≠ .lock w → r.1.worker w = .outside

section Keeps
variable {α : Type} {n : Nat} {s : LockedQueue α n}

/-- A worker moves that is not outside, and does not exit. -/
theorem LockKeeps.move {e : LockEvent α n} {w : Fin n} {point : WorkerPoint}
    (hpoint : point ≠ .exited) (hw : s.worker w = .outside → e = .lock w)
    (lock : Option (Fin n)) : LockKeeps s e ({ s.move w point with lock := lock }, []) := by
  refine ⟨rfl, rfl, .inl rfl, ?_, ?_⟩
  · intro w' hw'
    by_cases heq : w' = w
    · rw [heq] at hw'
      exact absurd ((LockedQueue.move_self s w point).symm.trans hw') hpoint
    · exact (LockedQueue.move_of_ne s heq point).symm.trans hw'
  · intro w' hw' hne
    by_cases heq : w' = w
    · subst heq
      exact absurd (hw hw') hne
    · exact (LockedQueue.move_of_ne s heq point).trans hw'

theorem LockKeeps.push {node : Ptr} {task : α} {woken : Option (Fin n)} (hsignals : s.Signals woken)
    (hnode : node ∉ s.tasks.allocated) :
    LockKeeps s (.push node task woken)
      ({ s.signal woken with tasks := (s.tasks.addTask node task).1 },
        (s.tasks.addTask node task).2) := by
  have hworker : ∀ w, (s.signal woken).worker w = s.worker w ∨
      s.worker w = .waiting ∧ (s.signal woken).worker w = .woken := by
    intro w
    cases woken with
    | none => exact .inl rfl
    | some w' =>
      by_cases heq : w = w'
      · subst heq
        exact .inr ⟨hsignals.2, LockedQueue.move_self s w .woken⟩
      · exact .inl (LockedQueue.move_of_ne s heq .woken)
  refine ⟨?_, ?_, .inr ⟨node, task, hnode, rfl⟩, ?_, ?_⟩
  · rfl
  · simp only [TaskQueue.addTask]
    split <;> rfl
  · intro w hw
    rcases hworker w with heq | ⟨-, heq⟩
    · exact heq.symm.trans hw
    · exact absurd (heq.symm.trans hw) (by simp)
  · intro w hw _
    rcases hworker w with heq | ⟨hwait, -⟩
    · exact heq.trans hw
    · exact absurd (hw.symm.trans hwait) (by simp)

theorem lockStep_keeps {e : LockEvent α n} (he : TakesNothing e)
    {r : LockedQueue α n × List (QueueObs α)} (hstep : lockStep s e = some r) : LockKeeps s e r := by
  have hpush := hstep
  cases lockStep_cases hstep with
  | @lock w hw => exact .move (by simp) (fun _ => rfl) _
  | @test w hw =>
    refine .move ?_ (fun ho => absurd (hw.symm.trans ho) (by simp)) s.lock
    split <;> simp
  | wait hw => exact .move (by simp) (fun ho => absurd (hw.symm.trans ho) (by simp)) _
  | wake hw => exact .move (by simp) (fun ho => absurd (hw.symm.trans ho) (by simp)) s.lock
  | relock hw => exact .move (by simp) (fun ho => absurd (hw.symm.trans ho) (by simp)) _
  | take => exact he.elim
  | @push node task woken _ hlock hr =>
    obtain ⟨⟨-, hsignals⟩, -⟩ := Option.ite_none_right_eq_some.mp hpush
    obtain ⟨hnode, ⟨⟩⟩ := Option.ite_none_left_eq_some.mp hr
    exact .push hsignals hnode
  | free => exact he.elim
  | setDestorying hbegin hr =>
    cases hr
    exact ⟨rfl, rfl, .inl rfl, fun w hw => hw, fun w hw _ => hw⟩
  | broadcast =>
    refine ⟨rfl, rfl, .inl rfl, ?_, ?_⟩
    · intro w hw
      have hw' : (if s.worker w = .waiting then WorkerPoint.woken else s.worker w) = .exited := hw
      split at hw'
      · cases hw'
      · exact hw'
    · intro w hw _
      show (if s.worker w = .waiting then WorkerPoint.woken else s.worker w) = .outside
      rw [if_neg (by rw [hw]; simp), hw]

/-- The lock is where it was, or a worker has taken it that is at one of its points. -/
theorem lockStep_holder (hholder : ∀ w, s.lock = some w → (s.worker w).locked = true)
    {e : LockEvent α n} {r : LockedQueue α n × List (QueueObs α)} (hstep : lockStep s e = some r)
    (w : Fin n) (hlock : r.1.lock = some w) : (r.1.worker w).locked = true := by
  cases lockStep_cases hstep with
  | lock hw =>
    obtain rfl := Option.some.inj hlock
    exact congrArg WorkerPoint.locked (LockedQueue.move_self s _ _)
  | @test w' hw =>
    by_cases heq : w = w'
    · subst heq
      refine (congrArg WorkerPoint.locked (LockedQueue.move_self s w _)).trans ?_
      split <;> rfl
    · exact (congrArg WorkerPoint.locked (LockedQueue.move_of_ne s heq _)).trans (hholder w hlock)
  | wait => cases hlock
  | @wake w' hw =>
    have hlocked := hholder w hlock
    have hne : w ≠ w' := by
      rintro rfl
      rw [hw] at hlocked
      cases hlocked
    exact (congrArg WorkerPoint.locked (LockedQueue.move_of_ne s hne _)).trans hlocked
  | relock hw =>
    obtain rfl := Option.some.inj hlock
    exact congrArg WorkerPoint.locked (LockedQueue.move_self s _ _)
  | take => cases hlock
  | @push node task woken _ hnone hr =>
    have hsame : (s.signal woken).lock = s.lock := by cases woken <;> rfl
    exact absurd (hsame.symm.trans hlock) (by rw [hnone]; simp)
  | free => exact hholder w hlock
  | setDestorying => exact hholder w hlock
  | broadcast =>
    have hlocked := hholder w hlock
    show (if s.worker w = .waiting then WorkerPoint.woken else s.worker w).locked = true
    split
    · rename_i hw
      rw [hw] at hlocked
      cases hlocked
    · exact hlocked

end Keeps

section Steps
variable {α : Type} {n : Nat} {s : ThreadPool α n} {past : List (PoolObs α n)}
  {allocated : List Ptr} (h : ThreadPoolInv allocated s past)
include h

/-- Only a push allocates. -/
theorem lock_accounted {e : LockEvent α n} (he : TakesNothing e)
    {r : LockedQueue α n × List (QueueObs α)} (hstep : lockStep s.queue e = some r) :
    Accounted allocated r.1.tasks (droppedNodes past ++ droppedNodes (s.droppedBy e)) := by
  have hsame : Accounted allocated s.queue.tasks (droppedNodes past ++ []) := by
    rw [List.append_nil]
    exact h.memory
  cases lockStep_cases hstep with
  | lock => exact hsame
  | test => exact hsame
  | wait => exact hsame
  | wake => exact hsame
  | relock => exact hsame
  | take => exact he.elim
  | @push node task woken _ hlock hr =>
    obtain ⟨hnode, ⟨⟩⟩ := Option.ite_none_left_eq_some.mp hr
    have hadded := addTask_accounted h.memory hnode task
    have hdropped : droppedNodes (s.droppedBy (.push node task woken)) =
        if s.queue.tasks.queue.destorying then [node] else [] := by
      rw [ThreadPool.droppedBy]
      split <;> rfl
    rw [hdropped]
    exact hadded
  | free => exact he.elim
  | setDestorying hbegin hr =>
    cases hr
    obtain ⟨nodes, hrep, hall⟩ := hsame
    exact ⟨nodes, ⟨hrep.linked, hrep.tail, hrep.nodup, hrep.allocated⟩, hall⟩
  | broadcast => exact hsame

theorem pool_lock_inv {e : LockEvent α n} (he : TakesNothing e)
    (hheld : ∀ w, e = .lock w → s.held w = none) {r : LockedQueue α n × List (QueueObs α)}
    (hstep : lockStep s.queue e = some r) :
    ThreadPoolInv allocated (s.locked e r).1 (past ++ (s.locked e r).2) := by
  obtain ⟨nodes, hnodes⟩ := h.conserved
  obtain ⟨hlock, es, hes⟩ := lockStep_taskQueue h.lock hstep
  obtain ⟨nodes', hqueued⟩ := taskQueue_queued hnodes.rep hes
  have hkeeps := lockStep_keeps he hstep
  have hmemory : Accounted allocated r.1.tasks (droppedNodes (past ++ (s.locked e r).2)) := by
    rw [ThreadPool.locked, droppedNodes_append, droppedNodes_append, droppedNodes_map, List.nil_append]
    exact lock_accounted h he hstep
  rw [show (s.locked e r).2 = r.2.map .queue ++ s.droppedBy e from rfl, ← List.append_assoc]
    at hmemory ⊢
  refine ⟨hlock, lockStep_holder h.holder hstep, ?_, ⟨nodes', .quiet ?_ (droppedBy_quiet s e)⟩,
    hmemory⟩
  · intro w hw
    refine hkeeps.outside w (h.outside w hw) ?_
    rintro rfl
    exact hw (hheld w rfl)
  · refine hnodes.next hqueued ?_ ?_ fun w hw => .inl (hkeeps.exited w hw)
    · rw [hkeeps.handedOut, Multiset.coe_nil, add_zero]
      refine Finset.sum_congr rfl fun w _ => ?_
      rcases hkeeps.task with heq | ⟨node, t, hnode, heq⟩
      · exact congrArg (toRun · (s.held w)) heq
      · exact (congrArg (toRun · (s.held w)) heq).trans
          (toRun_update _ node t (hnodes.held_ne hnode w))
    · exact (congrArg _ hkeeps.taken).trans hnodes.taken

/-- A worker comes back from the queue. -/
theorem pool_take_inv {w : Fin n} (hw : s.queue.worker w = .take) :
    ThreadPoolInv allocated (s.took w).1 (past ++ (s.took w).2) := by
  obtain ⟨nodes, hnodes⟩ := h.conserved
  have hstep : lockStep s.queue (.take w) = some (s.queue.taken w) := if_pos hw
  have hnone : s.held w = none := by
    by_contra hheld
    exact absurd (hw.symm.trans (h.outside w hheld)) (by simp)
  have hqueued := popFront_queued hnodes.rep (h.lock.take w hw)
  have hobs := (popFront_rep hnodes.rep).2
  have hsum : ∀ {M : Type} [AddCommMonoid M] (f : Option (Ptr × Bool) → M) (x), f none = 0 →
      ∑ w', f (Function.update s.held w x w') = ∑ w', f (s.held w') + f x := by
    intro M _ f x hzero
    have hupdate := sum_held_update f s.held w x
    rw [hnone, hzero, add_zero] at hupdate
    exact hupdate
  have hmemory : Accounted allocated s.queue.tasks.popFront.1 (droppedNodes (past ++ (s.took w).2)) := by
    rw [ThreadPool.took, droppedNodes_append, droppedNodes_map, List.append_nil]
    exact popFront_accounted h.memory
  refine ⟨(lockStep_taskQueue h.lock hstep).1, lockStep_holder h.holder hstep, ?_,
    ⟨nodes.tail, ?_⟩, hmemory⟩
  · intro w' hw'
    by_cases heq : w' = w
    · subst heq
      refine (LockedQueue.move_self s.queue w' _).trans (if_neg fun hhead => hw' ?_)
      refine (Function.update_self ..).trans ?_
      rw [hhead]
      rfl
    · have hsame : (s.took w).1.held w' = s.held w' := Function.update_of_ne heq ..
      rw [hsame] at hw'
      exact (LockedQueue.move_of_ne s.queue heq _).trans (h.outside w' hw')
  · refine hnodes.next hqueued ((hsum _ _ rfl).trans (congrArg _ ?_)) ?_ ?_
    · show toRun s.queue.tasks.task (s.queue.tasks.queue.head.map _) =
        (handedOutTasks s.queue.tasks.popFront.2 : Multiset α)
      rw [hobs]
      cases nodes with
      | nil =>
        rw [hnodes.rep.head_none.mpr rfl]
        rfl
      | cons node nodes =>
        rw [show s.queue.tasks.queue.head = some node from hnodes.rep.linked.1]
        rfl
    · refine Eq.trans ?_ (hsum heldNode _ rfl).symm
      rw [← hnodes.taken]
      cases hhead : s.queue.tasks.queue.head with
      | none =>
        have htaken : (s.took w).1.queue.tasks.taken = s.queue.tasks.taken := by
          simp [ThreadPool.took, LockedQueue.taken, TaskQueue.popFront, Heap.syncQueuePopFront, hhead]
        rw [htaken]
        exact (add_zero _).symm
      | some node =>
        have htaken : (s.took w).1.queue.tasks.taken = node :: s.queue.tasks.taken := by
          simp [ThreadPool.took, LockedQueue.taken, TaskQueue.popFront, Heap.syncQueuePopFront, hhead]
        rw [htaken, ← Multiset.cons_coe, ← Multiset.singleton_add]
        exact add_comm _ _
    · intro w' hw'
      by_cases heq : w' = w
      · subst heq
        right
        have hhead : s.queue.tasks.queue.head = none := by
          by_contra hhead
          have hmoved := (LockedQueue.move_self s.queue w' _).symm.trans hw'
          rw [if_neg hhead] at hmoved
          cases hmoved
        obtain rfl := hnodes.rep.head_none.mp hhead
        show QueueObs.empty ∈ s.queue.tasks.popFront.2
        rw [hobs]
        exact List.mem_cons_self
      · exact .inl ((LockedQueue.move_of_ne s.queue heq _).symm.trans hw')

theorem pool_run_inv {w : Fin n} {node : Ptr} (hheld : s.held w = some (node, false)) :
    ThreadPoolInv allocated (s.ran w node).1 (past ++ (s.ran w node).2) := by
  obtain ⟨nodes, hnodes⟩ := h.conserved
  have hmemory : Accounted allocated s.queue.tasks (droppedNodes (past ++ (s.ran w node).2)) := by
    rw [droppedNodes_append, show droppedNodes (s.ran w node).2 = [] from rfl, List.append_nil]
    exact h.memory
  refine ⟨h.lock, h.holder, ?_, ⟨nodes, hnodes.rep, ?_, ?_, hnodes.drained⟩, hmemory⟩
  · intro w' hw'
    by_cases heq : w' = w
    · subst heq
      exact h.outside w' (by rw [hheld]; simp)
    · have hsame : (s.ran w node).1.held w' = s.held w' := Function.update_of_ne heq ..
      rw [hsame] at hw'
      exact h.outside w' hw'
  · have hsum := sum_held_update (toRun s.queue.tasks.task) s.held w (some (node, true))
    rw [hheld] at hsum
    have hzero : toRun s.queue.tasks.task (some (node, true)) = 0 := rfl
    rw [hzero, add_zero] at hsum
    rw [queueObs_append, ranTasks_append, acceptedTasks_append]
    have hsame : acceptedTasks (queueObs (s.ran w node).2) = [] := rfl
    rw [hsame, List.append_nil, hnodes.tasks, ← hsum, ← Multiset.coe_add]
    congr 1
    exact (congrArg (_ + ·) (add_comm _ _)).trans (add_assoc _ _ _).symm
  · refine hnodes.taken.trans ?_
    have hsum := sum_held_update heldNode s.held w (some (node, true))
    rw [hheld] at hsum
    exact (add_right_cancel hsum).symm

theorem pool_free_inv {w : Fin n} {node : Ptr} {r : TaskQueue α × List (QueueObs α)}
    (hheld : s.held w = some (node, true))
    (hstep : taskQueueStep s.queue.tasks (.free node) = some r) :
    ThreadPoolInv allocated (s.freed w r.1) past := by
  obtain ⟨nodes, hnodes⟩ := h.conserved
  obtain ⟨hnode, ⟨⟩⟩ := Option.ite_none_right_eq_some.mp hstep
  have hsum : ∀ {M : Type} [AddCommMonoid M] (f : Option (Ptr × Bool) → M), f none = 0 →
      ∑ w', f (Function.update s.held w none w') + f (some (node, true)) = ∑ w', f (s.held w') := by
    intro M _ f hzero
    have hupdate := sum_held_update f s.held w none
    rwa [hheld, hzero, add_zero] at hupdate
  refine ⟨⟨h.lock.locked, h.lock.take⟩, h.holder, ?_,
    ⟨nodes, free_rep hnodes.rep node hnode, ?_, ?_, hnodes.drained⟩, free_accounted h.memory hnode⟩
  · intro w' hw'
    by_cases heq : w' = w
    · subst heq
      exact h.outside w' (by rw [hheld]; simp)
    · have hsame : (s.freed w
        { s.queue.tasks with
          allocated := s.queue.tasks.allocated.erase node
          taken := s.queue.tasks.taken.erase node }).held w' = s.held w' :=
        Function.update_of_ne heq ..
      rw [hsame] at hw'
      exact h.outside w' hw'
  · rw [hnodes.tasks, ← hsum (toRun s.queue.tasks.task) rfl]
    congr 1
    exact congrArg _ (add_zero _)
  · have hrest := hsum heldNode rfl
    have hcons : (s.queue.tasks.taken : Multiset Ptr) =
        (s.queue.tasks.taken.erase node : List Ptr) + {node} := by
      rw [add_comm, Multiset.singleton_add, Multiset.cons_coe]
      exact Multiset.coe_eq_coe.mpr (List.perm_cons_erase hnode)
    exact add_right_cancel (hcons.symm.trans (hnodes.taken.trans hrest.symm))

/-- When the workers have exited there is nothing to drain. -/
theorem pool_drained (hn : 0 < n) (hjoined : s.Joined) :
    s.queue.tasks.queue.head = none ∧ ThreadPoolInv allocated s.drained.1 (past ++ s.drained.2) := by
  obtain ⟨nodes, hnodes⟩ := h.conserved
  obtain ⟨hdestorying, rfl⟩ := hnodes.drained ⟨0, hn⟩ (hjoined.2 _)
  have hhead := hnodes.rep.head_none.mpr rfl
  have hdrained : s.drained.1 = s ∧ s.drained.2 = [.queue .empty] := by
    simp [ThreadPool.drained, TaskQueue.popFront, Heap.syncQueuePopFront, hhead]
  rw [hdrained.1, hdrained.2]
  have hempty : queueObs ([.queue .empty] : List (PoolObs α n)) = [.empty] := rfl
  have hran : ranTasks ([.queue .empty] : List (PoolObs α n)) = [] := rfl
  have hdropped : droppedNodes ([.queue .empty] : List (PoolObs α n)) = [] := rfl
  refine ⟨hhead, h.lock, h.holder, h.outside,
    ⟨[], hnodes.rep, ?_, hnodes.taken, hnodes.drained⟩, ?_⟩
  · rw [queueObs_append, ranTasks_append, acceptedTasks_append, hempty, hran, List.append_nil]
    exact (congrArg _ (List.append_nil _)).trans hnodes.tasks
  · rw [droppedNodes_append, hdropped, List.append_nil]
    exact h.memory

theorem threadPoolStep_inv (hn : 0 < n) {e : PoolEvent α n}
    {r : ThreadPool α n × List (PoolObs α n)} (hstep : threadPoolStep s e = some r) :
    ThreadPoolInv allocated r.1 (past ++ r.2) := by
  cases threadPoolStep_cases hstep with
  | lock he hheld hlock => exact pool_lock_inv h he hheld hlock
  | take hw => exact pool_take_inv h hw
  | run hheld => exact pool_run_inv h hheld
  | free hheld hfree =>
    rw [List.append_nil]
    exact pool_free_inv h hheld hfree
  | drain hjoined => exact (pool_drained h hn hjoined).2

end Steps

/-! ## 4. Every task is run once -/

section Runs
variable {α : Type} {n : Nat} {s : ThreadPool α n} {allocated : List Ptr}

theorem ThreadPool.Started.inv (h : s.Started allocated) : ThreadPoolInv allocated s [] := by
  obtain ⟨heap, task, htasks⟩ := h.tasks
  have hworker : ∀ w, (s.queue.worker w).locked = false := fun w => by rw [h.queue.worker w]; rfl
  have hsum : ∀ {M : Type} [AddCommMonoid M] (f : Option (Ptr × Bool) → M), f none = 0 →
      ∑ w, f (s.held w) = 0 := by
    intro M _ f hzero
    exact Finset.sum_eq_zero fun w _ => by rw [h.held w, hzero]
  refine ⟨.of_unlocked hworker, ?_, fun w hw => absurd (h.held w) hw, ⟨[], ?_, ?_, ?_, ?_⟩, ?_⟩
  · intro w hlock
    rw [h.queue.lock] at hlock
    cases hlock
  · rw [htasks]
    exact taskQueue_init heap task allocated
  · rw [hsum _ rfl]
    rfl
  · rw [hsum _ rfl, htasks]
    rfl
  · intro w hw
    rw [h.queue.worker w] at hw
    cases hw
  · rw [htasks]
    exact accounted_init heap task

theorem threadPoolRun_inv (hn : 0 < n) {past : List (PoolObs α n)}
    (h : ThreadPoolInv allocated s past) {es : List (PoolEvent α n)}
    {r : ThreadPool α n × List (PoolObs α n)} (hrun : Run.run threadPoolStep es s = some r) :
    ThreadPoolInv allocated r.1 (past ++ r.2) :=
  run_history (P := ThreadPoolInv allocated)
    (fun _ _ _ _ hinv _ hstep => threadPoolStep_inv hinv hn hstep) past h (allowed_true es s) hrun

/-- Who has exited holds nothing. -/
theorem ThreadPoolInv.joined {past : List (PoolObs α n)} (h : ThreadPoolInv allocated s past)
    (hexited : ∀ w, s.queue.worker w = .exited) (w : Fin n) : s.held w = none := by
  by_contra hheld
  exact absurd ((hexited w).symm.trans (h.outside w hheld)) (by simp)

/-- **No task is lost and none is run twice**, in every run of the workers, of whoever adds tasks,
    and of the destruction: what has been accepted has been run, is held by one worker, or is in
    the nodes that the queue consists of.  When all workers have exited it has been run, each task
    once; nothing is left to drain, and of the memory only what was added after the shutdown is
    still in use. -/
theorem threadPool_conserved (hn : 0 < n) (hstart : s.Started allocated)
    {es : List (PoolEvent α n)} {r : ThreadPool α n × List (PoolObs α n)}
    (hrun : Run.run threadPoolStep es s = some r) :
    (∃ nodes, QueueRep r.1.queue.tasks nodes ∧ (acceptedTasks (queueObs r.2) : Multiset α) =
      ranTasks r.2 + ∑ w, toRun r.1.queue.tasks.task (r.1.held w) +
        (nodes.map r.1.queue.tasks.task : List α)) ∧
    ((∀ w, r.1.queue.worker w = .exited) →
      (ranTasks r.2).Perm (acceptedTasks (queueObs r.2)) ∧ r.1.queue.tasks.queue.head = none ∧
      r.1.queue.tasks.allocated.Perm (allocated ++ droppedNodes r.2)) := by
  have hinv := threadPoolRun_inv hn hstart.inv hrun
  rw [List.nil_append] at hinv
  obtain ⟨nodes, hnodes⟩ := hinv.conserved
  refine ⟨⟨nodes, hnodes.rep, hnodes.tasks⟩, fun hexited => ?_⟩
  have hnone := hinv.joined hexited
  have hsum : ∀ {M : Type} [AddCommMonoid M] (f : Option (Ptr × Bool) → M), f none = 0 →
      ∑ w, f (r.1.held w) = 0 := by
    intro M _ f hzero
    exact Finset.sum_eq_zero fun w _ => by rw [hnone w, hzero]
  obtain ⟨-, rfl⟩ := hnodes.drained ⟨0, hn⟩ (hexited _)
  refine ⟨?_, hnodes.rep.head_none.mpr rfl, ?_⟩
  · have htasks := hnodes.tasks
    rw [hsum _ rfl, add_zero] at htasks
    exact (Multiset.coe_eq_coe.mp (htasks.trans (add_zero _))).symm
  · obtain ⟨nodes', hrep, hall⟩ := hinv.memory
    obtain rfl := hnodes.rep.linked.unique hrep.linked Linked.ends_none Linked.ends_none
    have htaken := hnodes.taken
    rw [hsum _ rfl] at htaken
    rw [htaken, Multiset.coe_nil, add_zero, add_zero] at hall
    exact Multiset.coe_eq_coe.mp (hall.trans (Multiset.coe_add _ _))

end Runs

/-! ## 5. The destruction comes to its end -/

/-- The steps that the workers have still to take, at least. -/
def WorkerPoint.effort (held : Option (Ptr × Bool)) : WorkerPoint → Nat
  | .outside =>
      match held with
      | some (_, false) => 5
      | some (_, true) => 4
      | none => 3
  | .woken => 3
  | .test => 2
  | .take => 1
  | _ => 0

/-- The steps of the workers, without those of `thread_pool_add_task` and
    `thread_pool_destroy`. -/
def OfWorker {α : Type} {n : Nat} : PoolEvent α n → Prop
  | .lock (.lock _) | .lock (.test _) | .lock (.wait _) | .lock (.wake _) | .lock (.relock _)
  | .lock (.take _) | .run _ | .free _ => True
  | _ => False

/-- At the broadcast no worker is between its test and its wait. -/
def PoolHeeded {α : Type} {n : Nat} (s : ThreadPool α n) (e : PoolEvent α n) : Prop :=
  ∀ e', e = .lock e' → Heeded s.queue e'

/-- The shutdown has been signalled; a queued task costs six steps. -/
structure Ending {α : Type} {n : Nat} (allocated : List Ptr) (s : ThreadPool α n) (k : Nat) :
    Prop where
  shutdown : s.queue.shutdown = .done
  awake : ShutdownInv s.queue
  inv : ∃ past, ThreadPoolInv allocated s past
  effort : ∃ nodes, QueueRep s.queue.tasks nodes ∧
    k = 6 * nodes.length + ∑ w, (s.queue.worker w).effort (s.held w)

section Ending
variable {α : Type} {n : Nat} {s : ThreadPool α n} {allocated : List Ptr}

theorem threadPoolStep_shutdown (h : ShutdownInv s.queue) {e : PoolEvent α n} (hallow : PoolHeeded s e)
    {r : ThreadPool α n × List (PoolObs α n)} (hstep : threadPoolStep s e = some r) :
    ShutdownInv r.1.queue := by
  cases threadPoolStep_cases hstep with
  | lock he hheld hlock => exact lockStep_shutdown h (hallow _ rfl) hlock
  | @take w hw =>
    have htake : lockStep s.queue (.take w) = some (s.queue.taken w) := if_pos hw
    have hheeded : Heeded s.queue (.take w) := trivial
    exact lockStep_shutdown h hheeded htake
  | run => exact h
  | free hheld hfree =>
    rcases taskQueueStep_destorying hfree with hflag | heq
    · exact h.of rfl hflag fun _ _ => .inl rfl
    · cases heq
  | drain =>
    refine h.of rfl ?_ fun _ _ => .inl rfl
    have hflag := popFront_destorying s.queue.tasks
    cases hhead : s.queue.tasks.queue.head <;> simp only [ThreadPool.drained, hhead] <;> exact hflag

/-- One worker goes on. -/
theorem effort_lt {s' : ThreadPool α n} {w : Fin n} {nodes nodes' : List Ptr}
    (hworker : ∀ w', w' ≠ w → s'.queue.worker w' = s.queue.worker w')
    (hheld : ∀ w', w' ≠ w → s'.held w' = s.held w')
    (hlt : 6 * nodes'.length + (s'.queue.worker w).effort (s'.held w) <
      6 * nodes.length + (s.queue.worker w).effort (s.held w)) :
    6 * nodes'.length + ∑ w', (s'.queue.worker w').effort (s'.held w') <
      6 * nodes.length + ∑ w', (s.queue.worker w').effort (s.held w') := by
  have hsum := sum_of_ne (fun w' => (s.queue.worker w').effort (s.held w'))
    (fun w' => (s'.queue.worker w').effort (s'.held w')) w
    fun w' hne => by rw [hworker w' hne, hheld w' hne]
  omega

/-- **Every step of a worker brings the end nearer.** -/
theorem threadPoolStep_effort (hn : 0 < n) {k : Nat} (h : Ending allocated s k) {e : PoolEvent α n}
    (he : OfWorker e) {r : ThreadPool α n × List (PoolObs α n)} (hstep : threadPoolStep s e = some r) :
    ∃ k' < k, Ending allocated r.1 k' := by
  obtain ⟨past, hinv⟩ := h.inv
  obtain ⟨nodes, hrep, rfl⟩ := h.effort
  have hinv' := threadPoolStep_inv hinv hn hstep
  have hflag := h.awake.destorying (by rw [h.shutdown]; simp)
  have hawake := h.awake.awake h.shutdown
  have hheeded : PoolHeeded s e := by
    rintro e' rfl
    cases e' with
    | broadcast => exact he.elim
    | _ => trivial
  have hshutdown' := threadPoolStep_shutdown h.awake hheeded hstep
  have hdone : ∀ {nodes'}, r.1.queue.shutdown = .done → QueueRep r.1.queue.tasks nodes' →
      6 * nodes'.length + ∑ w, (r.1.queue.worker w).effort (r.1.held w) <
        6 * nodes.length + ∑ w, (s.queue.worker w).effort (s.held w) →
      ∃ k' < 6 * nodes.length + ∑ w, (s.queue.worker w).effort (s.held w),
        Ending allocated r.1 k' :=
    fun hend hrep' hlt => ⟨_, hlt, hend, hshutdown', ⟨_, hinv'⟩, _, hrep', rfl⟩
  have hmoved : ∀ {w point}, (∀ w', w' ≠ w → (s.queue.move w point).worker w' = s.queue.worker w') :=
    fun w' hne => LockedQueue.move_of_ne s.queue hne _
  cases threadPoolStep_cases hstep with
  | @lock e r' hnothing hheld hlock =>
    cases lockStep_cases hlock with
    | @lock w hw =>
      refine hdone h.shutdown hrep (effort_lt (w := w) hmoved (fun _ _ => rfl) ?_)
      show _ + WorkerPoint.effort _ ((s.queue.move w .test).worker w) < _
      rw [LockedQueue.move_self, hw, show s.held w = none from hheld w rfl]
      simp [WorkerPoint.effort]
    | @test w hw =>
      have hwait : s.queue.tasks.queue.mustWait = false := by simp [SyncQueue.mustWait, hflag]
      refine hdone h.shutdown hrep (effort_lt (w := w) hmoved (fun _ _ => rfl) ?_)
      show _ + WorkerPoint.effort _ ((s.queue.move w _).worker w) < _
      rw [LockedQueue.move_self, hwait, hw]
      simp [WorkerPoint.effort]
    | wait hw => exact absurd hw (hawake _).1
    | wake hw => exact absurd hw (hawake _).2
    | @relock w hw =>
      refine hdone h.shutdown hrep (effort_lt (w := w) hmoved (fun _ _ => rfl) ?_)
      show _ + WorkerPoint.effort _ ((s.queue.move w .test).worker w) < _
      rw [LockedQueue.move_self, hw]
      simp [WorkerPoint.effort]
    | take => exact hnothing.elim
    | push => exact he.elim
    | free => exact hnothing.elim
    | setDestorying => exact he.elim
    | broadcast => exact he.elim
  | @take w hw =>
    have hother : ∀ w', w' ≠ w → (s.took w).1.held w' = s.held w' :=
      fun w' hne => Function.update_of_ne hne ..
    have hself : (s.took w).1.held w = s.queue.tasks.queue.head.map fun node => (node, false) :=
      Function.update_self ..
    refine hdone h.shutdown (popFront_rep hrep).1 (effort_lt (w := w) hmoved hother ?_)
    rw [hself]
    show _ + WorkerPoint.effort _ ((s.queue.move w _).worker w) < _
    rw [LockedQueue.move_self, hw]
    cases nodes with
    | nil =>
      rw [hrep.head_none.mpr rfl]
      simp [WorkerPoint.effort]
    | cons node nodes =>
      rw [show s.queue.tasks.queue.head = some node from hrep.linked.1]
      simp [WorkerPoint.effort]
      omega
  | @run w node hheld =>
    have hw := hinv.outside w (by rw [hheld]; simp)
    have hself : (s.ran w node).1.held w = some (node, true) := Function.update_self ..
    refine hdone h.shutdown hrep (effort_lt (w := w) (fun _ _ => rfl)
      (fun w' hne => Function.update_of_ne hne ..) ?_)
    rw [hself, hheld]
    show _ + WorkerPoint.effort _ (s.queue.worker w) < _
    rw [hw]
    simp [WorkerPoint.effort]
  | @free w node r' hheld hfree =>
    have hw := hinv.outside w (by rw [hheld]; simp)
    obtain ⟨hnode, ⟨⟩⟩ := Option.ite_none_right_eq_some.mp hfree
    refine hdone h.shutdown (free_rep hrep node hnode) (effort_lt (w := w) (fun _ _ => rfl)
      (fun w' hne => Function.update_of_ne hne ..) ?_)
    rw [hheld]
    show _ + WorkerPoint.effort (Function.update s.held w none w) (s.queue.worker w) < _
    rw [Function.update_self, hw]
    simp [WorkerPoint.effort]
  | drain => exact he.elim

/-- As long as a worker has not exited, some worker can go on. -/
theorem Ending.goesOn {k : Nat} (h : Ending allocated s k) {w : Fin n}
    (hw : s.queue.worker w ≠ .exited) : ∃ e r, OfWorker e ∧ threadPoolStep s e = some r := by
  obtain ⟨past, hinv⟩ := h.inv
  have hawake := h.awake.awake h.shutdown
  cases hlock : s.queue.lock with
  | some w' =>
    have hlocked := hinv.holder w' hlock
    cases hpoint : s.queue.worker w' with
    | test => exact ⟨.lock (.test w'), _, trivial, by simp [threadPoolStep, lockStep, hpoint]; rfl⟩
    | take => exact ⟨.lock (.take w'), _, trivial, if_pos hpoint⟩
    | wait => exact absurd hpoint (hawake w').1
    | _ => simp [hpoint, WorkerPoint.locked] at hlocked
  | none =>
    have hunlocked := hinv.lock.unlocked hlock w
    cases hpoint : s.queue.worker w with
    | outside =>
      cases hheld : s.held w with
      | none =>
        exact ⟨.lock (.lock w), _, trivial, by simp [threadPoolStep, lockStep, hpoint, hheld, hlock]; rfl⟩
      | some entry =>
        obtain ⟨node, ran⟩ := entry
        cases ran with
        | false => exact ⟨.run w, _, trivial, by simp [threadPoolStep, hheld]; rfl⟩
        | true =>
          obtain ⟨nodes, hnodes⟩ := hinv.conserved
          have hnode : node ∈ (s.queue.tasks.taken : Multiset Ptr) := by
            rw [hnodes.taken]
            refine Multiset.mem_of_le (Finset.single_le_sum (fun _ _ => Multiset.zero_le _)
              (Finset.mem_univ w)) ?_
            rw [hheld]
            exact Multiset.mem_singleton_self node
          exact ⟨.free w, _, trivial, by
            simp [threadPoolStep, hheld, taskQueueStep, Multiset.mem_coe.mp hnode]; rfl⟩
    | woken =>
      exact ⟨.lock (.relock w), _, trivial, by simp [threadPoolStep, lockStep, hpoint, hlock]; rfl⟩
    | wait => exact absurd hpoint (hawake w).1
    | waiting => exact absurd hpoint (hawake w).2
    | exited => exact absurd hpoint hw
    | _ => simp [hpoint, WorkerPoint.locked] at hunlocked

theorem effort_le (point : WorkerPoint) (held : Option (Ptr × Bool)) : point.effort held ≤ 5 := by
  cases point with
  | outside =>
    cases held with
    | none => exact Nat.le_add_left 3 2
    | some entry =>
      obtain ⟨node, ran⟩ := entry
      cases ran
      · exact le_rfl
      · exact Nat.le_add_right 4 1
  | _ => simp [WorkerPoint.effort]

theorem ThreadPool.Started.awake (h : s.Started allocated) : ShutdownInv s.queue where
  destorying := fun hne => absurd h.queue.shutdown hne
  awake := by
    intro hdone
    rw [h.queue.shutdown] at hdone
    cases hdone

theorem threadPoolRun_shutdown (h : ShutdownInv s.queue) {es : List (PoolEvent α n)}
    (hall : Run.Allowed threadPoolStep PoolHeeded es s) {r : ThreadPool α n × List (PoolObs α n)}
    (hrun : Run.run threadPoolStep es s = some r) : ShutdownInv r.1.queue :=
  run_invariant (P := fun s => ShutdownInv s.queue)
    (fun _ _ _ hinv hallow hstep => threadPoolStep_shutdown hinv hallow hstep) h hall hrun

/-- **The workers can be joined.**  If no worker was between its test and its wait when the shutdown
    was broadcast, the workers take at most six steps for every task that is queued and five for
    every worker from then on, in any order, and as long as one of them has not exited one of them
    can take a step; no run of them stops before all have exited, and none goes on for ever. -/
theorem threadPool_joins (hn : 0 < n) (hstart : s.Started allocated) {es : List (PoolEvent α n)}
    (hall : Run.Allowed threadPoolStep PoolHeeded es s) {r : ThreadPool α n × List (PoolObs α n)}
    (hrun : Run.run threadPoolStep es s = some r) (hdone : r.1.queue.shutdown = .done) :
    ∃ nodes, QueueRep r.1.queue.tasks nodes ∧
      ∀ es' r', (∀ e ∈ es', OfWorker e) → Run.run threadPoolStep es' r.1 = some r' →
        es'.length ≤ 6 * nodes.length + 5 * n ∧
          ((∃ w, r'.1.queue.worker w ≠ .exited) →
            ∃ e r'', OfWorker e ∧ threadPoolStep r'.1 e = some r'') := by
  have hinv := threadPoolRun_inv hn hstart.inv hrun
  obtain ⟨nodes, hnodes⟩ := hinv.conserved
  have hending : Ending allocated r.1 _ :=
    ⟨hdone, threadPoolRun_shutdown hstart.awake hall hrun, ⟨_, hinv⟩, nodes, hnodes.rep, rfl⟩
  refine ⟨nodes, hnodes.rep, fun es' r' hes' hrun' => ?_⟩
  have hdown : ∀ (s : ThreadPool α n) e r k, Ending allocated s k → OfWorker e →
      threadPoolStep s e = some r → ∃ k' < k, Ending allocated r.1 k' := by
    intro s e r k hk he hstep
    exact threadPoolStep_effort hn hk he hstep
  obtain ⟨k, hend, hle⟩ := run_length_le hdown hending (allowed_of_forall hes' _) hrun'
  have hsum : ∑ w, (r.1.queue.worker w).effort (r.1.held w) ≤ 5 * n := by
    have hcard := Finset.sum_le_card_nsmul Finset.univ
      (fun w => (r.1.queue.worker w).effort (r.1.held w)) 5 fun w _ => effort_le _ _
    rw [Finset.card_univ, Fintype.card_fin, smul_eq_mul, Nat.mul_comm] at hcard
    exact hcard
  refine ⟨by omega, ?_⟩
  rintro ⟨w, hw⟩
  exact hend.goesOn hw

end Ending

/-! ## 6. Two workers -/

/-- Two workers, and nothing to do. -/
def ThreadPool.two : ThreadPool String 2 where
  queue :=
    { tasks := TaskQueue.init ⟨fun _ => none, fun _ => none⟩ (fun _ => "") []
      lock := none
      worker := fun _ => .outside
      shutdown := .begin }
  held _ := none

theorem threadPool_two_started : ThreadPool.two.Started [] :=
  ⟨⟨rfl, rfl, fun _ => rfl, rfl⟩, ⟨_, _, rfl⟩, fun _ => rfl⟩

/-- The first worker has a task when the shutdown begins, and there is another one in the queue. -/
def poolEvents : List (PoolEvent String 2) :=
  [.lock (.push 8 "first" none), .lock (.push 9 "second" none), .lock (.lock 0), .lock (.test 0),
    .lock (.take 0), .run 0, .lock .setDestorying] ++ [.lock .broadcast]

/-- The rest of the run, to the end. -/
def poolEnd : List (PoolEvent String 2) :=
  [.lock (.push 10 "third" none), .lock (.lock 1), .lock (.test 1), .lock (.take 1), .free 0,
    .lock (.lock 0), .lock (.test 0), .lock (.take 0), .run 1, .free 1, .lock (.lock 1),
    .lock (.test 1), .lock (.take 1)]

/-- When the shutdown begins the first task has been run and the second is queued; in the end both
    are run, and the third one, added too late, is left in memory. -/
theorem threadPool_conserved_two :
    (∃ r nodes, Run.run threadPoolStep poolEvents .two = some r ∧ ranTasks r.2 = ["first"] ∧
      QueueRep r.1.queue.tasks nodes ∧ nodes.map r.1.queue.tasks.task = ["second"]) ∧
    ∃ r, Run.run threadPoolStep (poolEvents ++ poolEnd) .two = some r ∧
      droppedNodes r.2 = [10] ∧ (ranTasks r.2).Perm ["first", "second"] ∧
      r.1.queue.tasks.allocated.Perm [10] := by
  refine ⟨?_, ?_⟩
  · have hrun : ∃ r, Run.run threadPoolStep poolEvents .two = some r ∧ ranTasks r.2 = ["first"] ∧
        acceptedTasks (queueObs r.2) = ["first", "second"] ∧
        ∑ w, toRun r.1.queue.tasks.task (r.1.held w) = 0 := ⟨_, rfl, rfl, rfl, by decide⟩
    obtain ⟨r, hr, hran, haccepted, hheld⟩ := hrun
    obtain ⟨nodes, hrep, htasks⟩ :=
      (threadPool_conserved (by decide) threadPool_two_started hr).1
    rw [haccepted, hran, hheld, add_zero] at htasks
    have hperm : ["first", "second"].Perm (["first"] ++ nodes.map r.1.queue.tasks.task) :=
      Multiset.coe_eq_coe.mp (htasks.trans (Multiset.coe_add _ _))
    exact ⟨r, nodes, hr, hran, hrep, List.perm_singleton.mp hperm.cons_inv.symm⟩
  have hrun : ∃ r, Run.run threadPoolStep (poolEvents ++ poolEnd) .two = some r ∧
      droppedNodes r.2 = [10] ∧ acceptedTasks (queueObs r.2) = ["first", "second"] ∧
      ∀ w, r.1.queue.worker w = .exited := ⟨_, rfl, rfl, rfl, by decide⟩
  obtain ⟨r, hr, hdropped, haccepted, hexited⟩ := hrun
  obtain ⟨hran, -, hall⟩ := (threadPool_conserved (by decide) threadPool_two_started hr).2 hexited
  rw [haccepted] at hran
  rw [hdropped] at hall
  exact ⟨r, hr, hdropped, hran, hall⟩

/-- Only the broadcast can be too early. -/
theorem allowed_poolHeeded {α : Type} {n : Nat} {s : ThreadPool α n} {es : List (PoolEvent α n)}
    (h : .lock .broadcast ∉ es) : Run.Allowed threadPoolStep PoolHeeded es s := by
  refine allowed_of_invariant (P := fun _ => True) ?_ (fun _ _ _ _ _ _ => trivial) trivial
  rintro s _ hmem - e rfl
  cases e with
  | broadcast => exact absurd hmem h
  | _ => trivial

theorem poolEvents_allowed : Run.Allowed threadPoolStep PoolHeeded poolEvents .two := by
  refine allowed_append (allowed_poolHeeded (by simp)) fun r hr => ⟨?_, fun _ _ => trivial⟩
  have hworker : ∀ w, r.1.queue.worker w = .outside := by
    cases hr
    decide
  rintro e' heq
  cases heq
  intro w
  rw [hworker w]
  simp

/-- What is left for the two workers takes at most sixteen steps. -/
theorem threadPool_joins_two :
    ∃ r nodes, Run.run threadPoolStep poolEvents .two = some r ∧ QueueRep r.1.queue.tasks nodes ∧
      ∀ es' r', (∀ e ∈ es', OfWorker e) → Run.run threadPoolStep es' r.1 = some r' →
        es'.length ≤ 6 * nodes.length + 5 * 2 := by
  have hrun : ∃ r, Run.run threadPoolStep poolEvents .two = some r ∧
      r.1.queue.shutdown = .done := ⟨_, rfl, rfl⟩
  obtain ⟨r, hr, hdone⟩ := hrun
  obtain ⟨nodes, hrep, hbound⟩ :=
    threadPool_joins (by decide) threadPool_two_started poolEvents_allowed hr hdone
  exact ⟨r, nodes, hr, hrep, fun es' r' hes' hrun' => (hbound es' r' hes' hrun').1⟩

end OServer
