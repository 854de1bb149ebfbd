/-
  OServer/SyncQueueLock.lean
  ==========================
  **The lock and the condition of the task queue, and its shutdown.**

  A worker in `sync_queue_pop_front` takes the lock, tests, and waits if there is nothing
  to do; the wait gives the lock back and puts the worker to sleep in one step.
  `sync_queue_signal_destroy` sets its flag and wakes the sleepers without the lock, so
  that both can fall between the test of a worker and its wait.

    * `lockStep_taskQueue`  — what happens under the lock is a step of `SyncQueue`, so that
                              `lockRun_order` holds of every run;
    * `shutdown_wakes`      — no worker sleeps after the shutdown if none is between its
                              test and its wait at the broadcast; if one is, it sleeps.
-/
import OServer.SyncQueue
import Mathlib.Data.Fintype.Defs

namespace OServer

open Run

/-! ## 1. State and steps -/

/-- Where a worker is. -/
inductive WorkerPoint where
  /-- not in `sync_queue_pop_front` -/
  | outside
  /-- with the lock, before the condition of the loop -/
  | test
  /-- with the lock, before `pthread_cond_wait` -/
  | wait
  /-- asleep in `pthread_cond_wait` -/
  | waiting
  /-- woken up, without the lock -/
  | woken
  /-- with the lock, behind the loop -/
  | take
  | exited
deriving DecidableEq

/-- How far `sync_queue_signal_destroy` is. -/
inductive ShutdownPoint where
  | begin
  | flagged
  | done
deriving DecidableEq

structure LockedQueue (α : Type) (n : Nat) where
  tasks : TaskQueue α
  lock : Option (Fin n)
  worker : Fin n → WorkerPoint
  shutdown : ShutdownPoint

inductive LockEvent (α : Type) (n : Nat) where
  /-- `pthread_mutex_lock` -/
  | lock (w : Fin n)
  /-- `while(!queue->destorying && !queue->head)` -/
  | test (w : Fin n)
  /-- `pthread_cond_wait` gives the lock back -/
  | wait (w : Fin n)
  /-- `pthread_cond_wait` may end for no reason -/
  | wake (w : Fin n)
  /-- `pthread_cond_wait` takes the lock again -/
  | relock (w : Fin n)
  /-- the first node is taken, and the lock is given back -/
  | take (w : Fin n)
  /-- a whole `thread_pool_add_task`; the signal wakes `woken` -/
  | push (node : Ptr) (task : α) (woken : Option (Fin n))
  | free (node : Ptr)
  /-- `queue->destorying = 1` -/
  | setDestorying
  /-- `pthread_cond_broadcast` -/
  | broadcast

namespace LockedQueue

variable {α : Type} {n : Nat}

def move (s : LockedQueue α n) (w : Fin n) (point : WorkerPoint) : LockedQueue α n :=
  { s with worker := Function.update s.worker w point }

/-- Whom a push may wake: a sleeper if there is one, and nobody after the shutdown. -/
def Signals (s : LockedQueue α n) : Option (Fin n) → Prop
  | none => s.tasks.queue.destorying = true ∨ ∀ w, s.worker w ≠ .waiting
  | some w => s.tasks.queue.destorying = false ∧ s.worker w = .waiting

instance (s : LockedQueue α n) : (woken : Option (Fin n)) → Decidable (s.Signals woken)
  | none => inferInstanceAs (Decidable (_ ∨ _))
  | some _ => inferInstanceAs (Decidable (_ ∧ _))

def signal (s : LockedQueue α n) : Option (Fin n) → LockedQueue α n
  | none => s
  | some w => s.move w .woken

/-- The worker goes on with its task, or ends when there is none. -/
def taken (s : LockedQueue α n) (w : Fin n) : LockedQueue α n × List (QueueObs α) :=
  ({ s.move w (if s.tasks.queue.head = none then .exited else .outside) with
      tasks := s.tasks.popFront.1, lock := none }, s.tasks.popFront.2)

def wakeAll (s : LockedQueue α n) : LockedQueue α n :=
  { s with worker := fun w => if s.worker w = .waiting then .woken else s.worker w }

end LockedQueue

def lockStep {α : Type} {n : Nat} (s : LockedQueue α n) :
    LockEvent α n → Option (LockedQueue α n × List (QueueObs α))
  | .lock w =>
      if s.worker w = .outside ∧ s.lock = none then some ({ s.move w .test with lock := some w }, [])
      else none
  | .test w =>
      if s.worker w = .test then
        some (s.move w (if s.tasks.queue.mustWait then .wait else .take), [])
      else none
  | .wait w =>
      if s.worker w = .wait then some ({ s.move w .waiting with lock := none }, []) else none
  | .wake w => if s.worker w = .waiting then some (s.move w .woken, []) else none
  | .relock w =>
      if s.worker w = .woken ∧ s.lock = none then some ({ s.move w .test with lock := some w }, [])
      else none
  | .take w => if s.worker w = .take then some (s.taken w) else none
  | .push node task woken =>
      if s.lock = none ∧ s.Signals woken then
        (taskQueueStep s.tasks (.addTask node task)).map fun r =>
          ({ s.signal woken with tasks := r.1 }, r.2)
      else none
  | .free node =>
      (taskQueueStep s.tasks (.free node)).map fun r => ({ s with tasks := r.1 }, r.2)
  | .setDestorying =>
      if s.shutdown = .begin then
        (taskQueueStep s.tasks .signalDestroy).map fun r =>
          ({ s with tasks := r.1, shutdown := .flagged }, r.2)
      else none
  | .broadcast =>
      if s.shutdown = .flagged then some ({ s.wakeAll with shutdown := .done }, []) else none

/-- What an event can do, and when. -/
inductive LockStep {α : Type} {n : Nat} (s : LockedQueue α n) :
    LockEvent α n → LockedQueue α n × List (QueueObs α) → Prop where
  | lock {w : Fin n} (hw : s.worker w = .outside) (hlock : s.lock = none) :
      LockStep s (.lock w) ({ s.move w .test with lock := some w }, [])
  | test {w : Fin n} (hw : s.worker w = .test) :
      LockStep s (.test w) (s.move w (if s.tasks.queue.mustWait then .wait else .take), [])
  | wait {w : Fin n} (hw : s.worker w = .wait) :
      LockStep s (.wait w) ({ s.move w .waiting with lock := none }, [])
  | wake {w : Fin n} (hw : s.worker w = .waiting) : LockStep s (.wake w) (s.move w .woken, [])
  | relock {w : Fin n} (hw : s.worker w = .woken) (hlock : s.lock = none) :
      LockStep s (.relock w) ({ s.move w .test with lock := some w }, [])
  | take {w : Fin n} (hw : s.worker w = .take) : LockStep s (.take w) (s.taken w)
  | push {node : Ptr} {task : α} {woken : Option (Fin n)} {r : TaskQueue α × List (QueueObs α)}
      (hlock : s.lock = none) (hr : taskQueueStep s.tasks (.addTask node task) = some r) :
      LockStep s (.push node task woken) ({ s.signal woken with tasks := r.1 }, r.2)
  | free {node : Ptr} {r : TaskQueue α × List (QueueObs α)}
      (hr : taskQueueStep s.tasks (.free node) = some r) :
      LockStep s (.free node) ({ s with tasks := r.1 }, r.2)
  | setDestorying {r : TaskQueue α × List (QueueObs α)} (hbegin : s.shutdown = .begin)
      (hr : taskQueueStep s.tasks .signalDestroy = some r) :
      LockStep s .setDestorying ({ s with tasks := r.1, shutdown := .flagged }, r.2)
  | broadcast (hflagged : s.shutdown = .flagged) :
      LockStep s .broadcast ({ s.wakeAll with shutdown := .done }, [])

theorem lockStep_cases {α : Type} {n : Nat} {s : LockedQueue α n} {e : LockEvent α n}
    {r : LockedQueue α n × List (QueueObs α)} (h : lockStep s e = some r) : LockStep s e r := by
  cases e with
  | lock w =>
    obtain ⟨hw, ⟨⟩⟩ := Option.ite_none_right_eq_some.mp h
    exact .lock hw.1 hw.2
  | test w =>
    obtain ⟨hw, ⟨⟩⟩ := Option.ite_none_right_eq_some.mp h
    exact .test hw
  | wait w =>
    obtain ⟨hw, ⟨⟩⟩ := Option.ite_none_right_eq_some.mp h
    exact .wait hw
  | wake w =>
    obtain ⟨hw, ⟨⟩⟩ := Option.ite_none_right_eq_some.mp h
    exact .wake hw
  | relock w =>
    obtain ⟨hw, ⟨⟩⟩ := Option.ite_none_right_eq_some.mp h
    exact .relock hw.1 hw.2
  | take w =>
    obtain ⟨hw, ⟨⟩⟩ := Option.ite_none_right_eq_some.mp h
    exact .take hw
  | push node task woken =>
    obtain ⟨hpush, hmap⟩ := Option.ite_none_right_eq_some.mp h
    obtain ⟨r', hr, rfl⟩ := Option.map_eq_some_iff.mp hmap
    exact .push hpush.1 hr
  | free node =>
    obtain ⟨r', hr, rfl⟩ := Option.map_eq_some_iff.mp h
    exact .free hr
  | setDestorying =>
    obtain ⟨hbegin, hmap⟩ := Option.ite_none_right_eq_some.mp h
    obtain ⟨r', hr, rfl⟩ := Option.map_eq_some_iff.mp hmap
    exact .setDestorying hbegin hr
  | broadcast =>
    obtain ⟨hflagged, ⟨⟩⟩ := Option.ite_none_right_eq_some.mp h
    exact .broadcast hflagged

/-- Before the workers start. -/
structure LockedQueue.Started {α : Type} {n : Nat} (s : LockedQueue α n) : Prop where
  queue : s.tasks.queue = syncQueueInit
  lock : s.lock = none
  worker : ∀ w, s.worker w = .outside
  shutdown : s.shutdown = .begin

/-! ## 2. The lock -/

/-- The points at which a worker has the lock. -/
def WorkerPoint.locked : WorkerPoint → Bool
  | .test | .wait | .take => true
  | _ => false

/-- Who has the lock is at one of its points, and nobody else is; who is behind the loop has a
    reason to be there. -/
structure LockInv {α : Type} {n : Nat} (s : LockedQueue α n) : Prop where
  locked : ∀ w, (s.worker w).locked = true → s.lock = some w
  take : ∀ w, s.worker w = .take → s.tasks.queue.mustWait = false

section Lock
variable {α : Type} {n : Nat} {s : LockedQueue α n}

@[simp] theorem LockedQueue.move_self (s : LockedQueue α n) (w : Fin n) (point : WorkerPoint) :
    (s.move w point).worker w = point := Function.update_self ..

theorem LockedQueue.move_of_ne (s : LockedQueue α n) {w w' : Fin n} (h : w' ≠ w)
    (point : WorkerPoint) : (s.move w point).worker w' = s.worker w' := Function.update_of_ne h ..

theorem move_cases (s : LockedQueue α n) (w w' : Fin n) (point : WorkerPoint) :
    (s.move w point).worker w' = s.worker w' ∨ (s.move w point).worker w' = point := by
  by_cases heq : w' = w
  · exact .inr (heq ▸ LockedQueue.move_self s w point)
  · exact .inl (LockedQueue.move_of_ne s heq point)

theorem LockInv.unlocked (h : LockInv s) (hlock : s.lock = none) (w : Fin n) :
    (s.worker w).locked = false := by
  rw [Bool.eq_false_iff]
  intro hw
  exact absurd (hlock.symm.trans (h.locked w hw)) (by simp)

theorem LockInv.locked_unique (h : LockInv s) {w w' : Fin n} (hw : (s.worker w).locked = true)
    (hw' : (s.worker w').locked = true) : w' = w :=
  Option.some.inj ((h.locked w' hw').symm.trans (h.locked w hw))

/-- Nobody has the lock. -/
theorem LockInv.of_unlocked (h : ∀ w, (s.worker w).locked = false) : LockInv s where
  locked := fun w hw => absurd ((h w).symm.trans hw) (by simp)
  take := fun w hw => absurd (h w) (by rw [hw]; decide)

/-- A worker takes the lock. -/
theorem LockInv.enter (h : LockInv s) (hlock : s.lock = none) (w : Fin n) :
    LockInv { s.move w .test with lock := some w } := by
  constructor
  · intro w' hw'
    by_cases heq : w' = w
    · exact heq ▸ rfl
    · rw [LockedQueue.move_of_ne s heq] at hw'
      exact absurd ((h.unlocked hlock w').symm.trans hw') (by simp)
  · intro w' hw'
    by_cases heq : w' = w
    · rw [heq, LockedQueue.move_self] at hw'
      cases hw'
    · rw [LockedQueue.move_of_ne s heq] at hw'
      exact h.take w' hw'

/-- The worker that has the lock gives it back. -/
theorem LockInv.leave (h : LockInv s) {w : Fin n} (hw : (s.worker w).locked = true)
    {point : WorkerPoint} (hpoint : point.locked = false) (tasks : TaskQueue α) :
    LockInv { s.move w point with lock := none, tasks := tasks } := by
  apply LockInv.of_unlocked
  intro w'
  by_cases heq : w' = w
  · rw [heq, LockedQueue.move_self]
    exact hpoint
  · rw [LockedQueue.move_of_ne s heq, Bool.eq_false_iff]
    exact fun hw' => heq (h.locked_unique hw hw')

/-- A worker that has not the lock comes to a point without it. -/
theorem LockInv.wake (h : LockInv s) {worker : Fin n → WorkerPoint}
    (hworker : ∀ w, worker w = s.worker w ∨ (worker w).locked = false) :
    LockInv { s with worker := worker } := by
  constructor
  · intro w hw
    rcases hworker w with heq | hfalse
    · exact h.locked w (heq ▸ hw)
    · exact absurd (hfalse.symm.trans hw) (by simp)
  · intro w hw
    rcases hworker w with heq | hfalse
    · exact h.take w (heq ▸ hw)
    · rw [show worker w = .take from hw] at hfalse
      cases hfalse

theorem LockInv.test (h : LockInv s) {w : Fin n} (hw : s.worker w = .test) :
    LockInv (s.move w (if s.tasks.queue.mustWait then .wait else .take)) := by
  have hlock : s.lock = some w := h.locked w (by rw [hw]; rfl)
  constructor
  · intro w' hw'
    by_cases heq : w' = w
    · exact heq ▸ hlock
    · rw [LockedQueue.move_of_ne s heq] at hw'
      exact h.locked w' hw'
  · intro w' hw'
    by_cases heq : w' = w
    · rw [heq, LockedQueue.move_self] at hw'
      split at hw'
      · cases hw'
      · rename_i hwait
        exact Bool.eq_false_iff.mpr hwait
    · rw [LockedQueue.move_of_ne s heq] at hw'
      exact h.take w' hw'

theorem LockInv.signal (h : LockInv s) (woken : Option (Fin n)) (tasks : TaskQueue α)
    (hlock : s.lock = none) : LockInv { s.signal woken with tasks := tasks } := by
  apply LockInv.of_unlocked
  intro w
  have hw := h.unlocked hlock w
  cases woken with
  | none => exact hw
  | some w' =>
    by_cases heq : w = w'
    · rw [heq]
      exact (congrArg WorkerPoint.locked (LockedQueue.move_self s w' .woken))
    · exact (congrArg WorkerPoint.locked (LockedQueue.move_of_ne s heq .woken)).trans hw

/-- **What happens under the lock is one step of the queue**, and what happens outside it does not
    touch the queue. -/
theorem lockStep_taskQueue (h : LockInv s) {e : LockEvent α n}
    {r : LockedQueue α n × List (QueueObs α)} (hstep : lockStep s e = some r) :
    LockInv r.1 ∧ ∃ es, Run.run taskQueueStep es s.tasks = some (r.1.tasks, r.2) := by
  cases lockStep_cases hstep with
  | lock hw hlock => exact ⟨h.enter hlock _, [], rfl⟩
  | test hw => exact ⟨h.test hw, [], rfl⟩
  | wait hw => exact ⟨h.leave (by rw [hw]; rfl) rfl s.tasks, [], rfl⟩
  | wake hw =>
    refine ⟨h.wake fun w' => ?_, [], rfl⟩
    rcases move_cases s _ w' .woken with heq | heq
    · exact .inl heq
    · exact .inr (congrArg WorkerPoint.locked heq)
  | relock hw hlock => exact ⟨h.enter hlock _, [], rfl⟩
  | take hw =>
    have hpop : taskQueueStep s.tasks .popFront = some s.tasks.popFront := by
      simp [taskQueueStep, h.take _ hw]
    refine ⟨h.leave (by rw [hw]; rfl) ?_ s.tasks.popFront.1, [.popFront],
      run_cons.mpr ⟨_, _, hpop, rfl, ?_⟩⟩
    · split <;> rfl
    · simp [LockedQueue.taken]
  | push hlock hr =>
    exact ⟨h.signal _ _ hlock, [.addTask _ _], run_cons.mpr ⟨_, _, hr, rfl, by simp⟩⟩
  | free hr =>
    refine ⟨⟨h.locked, fun w hw => ?_⟩, [.free _], run_cons.mpr ⟨_, _, hr, rfl, by simp⟩⟩
    obtain ⟨-, ⟨⟩⟩ := Option.ite_none_right_eq_some.mp hr
    exact h.take w hw
  | setDestorying hbegin hr =>
    refine ⟨⟨h.locked, fun w hw => ?_⟩, [.signalDestroy], run_cons.mpr ⟨_, _, hr, rfl, by simp⟩⟩
    cases hr
    rfl
  | broadcast hflagged =>
    have hwake : LockInv s.wakeAll := h.wake fun w => by
      split
      · exact .inr rfl
      · exact .inl rfl
    exact ⟨⟨hwake.locked, hwake.take⟩, [], rfl⟩

/-- A run of the workers and producers, as the queue sees it. -/
theorem lockRun_taskQueue (h : LockInv s) {es : List (LockEvent α n)}
    {r : LockedQueue α n × List (QueueObs α)} (hrun : Run.run lockStep es s = some r) :
    ∃ es', Run.run taskQueueStep es' s.tasks = some (r.1.tasks, r.2) := by
  induction es generalizing s r with
  | nil =>
    cases hrun
    exact ⟨[], rfl⟩
  | cons e es ih =>
    obtain ⟨r₁, r₂, hstep, htail, rfl⟩ := run_cons.mp hrun
    obtain ⟨hinv, es₁, hes₁⟩ := lockStep_taskQueue h hstep
    obtain ⟨es₂, hes₂⟩ := ih hinv htail
    exact ⟨es₁ ++ es₂, run_append hes₁ hes₂⟩

/-- Where the queue ends: what is accepted under the lock is what is handed out, and what is left. -/
theorem lockRun_order {heap : Heap} {task : Ptr → α} {allocated : List Ptr} (hs : s.Started)
    (htasks : s.tasks = TaskQueue.init heap task allocated) {es : List (LockEvent α n)}
    {r : LockedQueue α n × List (QueueObs α)} (hrun : Run.run lockStep es s = some r) :
    ∃ nodes, QueueRep r.1.tasks nodes ∧
      acceptedTasks r.2 = handedOutTasks r.2 ++ nodes.map r.1.tasks.task := by
  have hinv : LockInv s := .of_unlocked fun w => by rw [hs.worker w]; rfl
  obtain ⟨es', hes'⟩ := lockRun_taskQueue hinv hrun
  rw [htasks] at hes'
  obtain ⟨nodes, hqueued⟩ := taskQueue_queued (taskQueue_init heap task allocated) hes'
  exact ⟨nodes, hqueued.rep, by simpa using hqueued.order⟩

end Lock

/-! ## 3. The shutdown -/

section Shutdown
variable {α : Type} {n : Nat} {s : LockedQueue α n}

/-- At the broadcast no worker has found nothing and not gone to sleep yet. -/
def Heeded (s : LockedQueue α n) : LockEvent α n → Prop
  | .broadcast => ∀ w, s.worker w ≠ .wait
  | _ => True

/-- The shutdown has been signalled, and a worker sleeps that nobody has woken. -/
def Asleep (s : LockedQueue α n) : Prop := s.shutdown = .done ∧ ∃ w, s.worker w = .waiting

structure ShutdownInv (s : LockedQueue α n) : Prop where
  destorying : s.shutdown ≠ .begin → s.tasks.queue.destorying = true
  awake : s.shutdown = .done → ∀ w, s.worker w ≠ .wait ∧ s.worker w ≠ .waiting

theorem ShutdownInv.of (h : ShutdownInv s) {s' : LockedQueue α n} (hshutdown : s'.shutdown = s.shutdown)
    (hflag : s'.tasks.queue.destorying = s.tasks.queue.destorying)
    (hworker : s.shutdown = .done → ∀ w,
      s'.worker w = s.worker w ∨ s'.worker w ≠ .wait ∧ s'.worker w ≠ .waiting) : ShutdownInv s' where
  destorying := by
    rw [hshutdown, hflag]
    exact h.destorying
  awake := by
    intro hdone w
    rw [hshutdown] at hdone
    rcases hworker hdone w with heq | hne
    · rw [heq]
      exact h.awake hdone w
    · exact hne

/-- A worker comes to a point that is neither before the wait nor in it. -/
theorem move_awake (s : LockedQueue α n) (w : Fin n) {point : WorkerPoint} (hwait : point ≠ .wait)
    (hwaiting : point ≠ .waiting) (w' : Fin n) :
    (s.move w point).worker w' = s.worker w' ∨
      (s.move w point).worker w' ≠ .wait ∧ (s.move w point).worker w' ≠ .waiting := by
  rcases move_cases s w w' point with heq | heq
  · exact .inl heq
  · rw [heq]
    exact .inr ⟨hwait, hwaiting⟩

theorem signal_awake (s : LockedQueue α n) (woken : Option (Fin n)) (w : Fin n) :
    (s.signal woken).worker w = s.worker w ∨
      (s.signal woken).worker w ≠ .wait ∧ (s.signal woken).worker w ≠ .waiting := by
  cases woken with
  | none => exact .inl rfl
  | some w' => exact move_awake s w' (by simp) (by simp) w

theorem addTask_destorying (s : TaskQueue α) (node : Ptr) (task : α) :
    (s.addTask node task).1.queue.destorying = s.queue.destorying := by
  cases hdestorying : s.queue.destorying <;> cases htail : s.queue.tail <;>
    simp [TaskQueue.addTask, Heap.syncQueuePushBack, hdestorying, htail]

theorem taskQueueStep_destorying {t : TaskQueue α} {e : QueueEvent α}
    {r : TaskQueue α × List (QueueObs α)} (hstep : taskQueueStep t e = some r) :
    r.1.queue.destorying = t.queue.destorying ∨ e = .signalDestroy := by
  cases e with
  | addTask node task =>
    simp only [taskQueueStep] at hstep
    split at hstep
    · cases hstep
    · cases hstep
      exact .inl (addTask_destorying t node task)
  | popFront =>
    simp only [taskQueueStep] at hstep
    split at hstep
    · cases hstep
    · cases hstep
      exact .inl (popFront_destorying t)
  | free node =>
    simp only [taskQueueStep] at hstep
    split at hstep
    · cases hstep
      exact .inl rfl
    · cases hstep
  | signalDestroy => exact .inr rfl

theorem lockStep_shutdown (h : ShutdownInv s) {e : LockEvent α n} (hallow : Heeded s e)
    {r : LockedQueue α n × List (QueueObs α)} (hstep : lockStep s e = some r) : ShutdownInv r.1 := by
  cases lockStep_cases hstep with
  | lock hw hlock => exact h.of rfl rfl fun _ => move_awake s _ (by simp) (by simp)
  | test hw =>
    refine h.of rfl rfl fun hdone w' => ?_
    -- the flag is set, so the worker does not wait
    have hflag := h.destorying (by rw [hdone]; simp)
    have hwait : s.tasks.queue.mustWait = false := by simp [SyncQueue.mustWait, hflag]
    rw [hwait]
    exact move_awake s _ (by simp) (by simp) w'
  | wait hw => exact h.of rfl rfl fun hdone => absurd hw (h.awake hdone _).1
  | wake hw => exact h.of rfl rfl fun _ => move_awake s _ (by simp) (by simp)
  | relock hw hlock => exact h.of rfl rfl fun _ => move_awake s _ (by simp) (by simp)
  | take hw =>
    refine h.of rfl (popFront_destorying s.tasks) fun _ => move_awake s _ ?_ ?_
    · split <;> simp
    · split <;> simp
  | push hlock hr =>
    rename_i woken _
    rcases taskQueueStep_destorying hr with hflag | heq
    · refine h.of ?_ hflag fun _ => signal_awake s woken
      cases woken <;> rfl
    · cases heq
  | free hr =>
    rcases taskQueueStep_destorying hr with hflag | heq
    · exact h.of rfl hflag fun _ _ => .inl rfl
    · cases heq
  | setDestorying hbegin hr =>
    cases hr
    exact ⟨fun _ => rfl, fun hdone => by cases hdone⟩
  | broadcast hflagged =>
    refine ⟨fun _ => h.destorying (by rw [hflagged]; simp), fun _ w => ?_⟩
    show (if s.worker w = .waiting then WorkerPoint.woken else s.worker w) ≠ .wait ∧
      (if s.worker w = .waiting then WorkerPoint.woken else s.worker w) ≠ .waiting
    split
    · simp
    · rename_i hwaiting
      exact ⟨hallow w, hwaiting⟩

theorem shutdown_inv (h : Reachable lockStep Heeded LockedQueue.Started s) : ShutdownInv s := by
  refine h.invariant (P := ShutdownInv) (fun s hs => ⟨fun hne => absurd hs.shutdown hne, ?_⟩)
    fun s e r hinv hallow hstep => lockStep_shutdown hinv hallow hstep
  intro hdone
  rw [hs.shutdown] at hdone
  cases hdone

/-- The worker that is before its wait goes to sleep when everything is over. -/
theorem unheeded_sleeps {e : LockEvent α n} (hallow : ¬ Heeded s e)
    {r : LockedQueue α n × List (QueueObs α)} (hstep : lockStep s e = some r) :
    ∃ w r', lockStep r.1 (.wait w) = some r' ∧ Asleep r'.1 := by
  cases lockStep_cases hstep with
  | broadcast hflagged =>
    simp only [Heeded, not_forall, not_not] at hallow
    obtain ⟨w, hw⟩ := hallow
    refine ⟨w, _, if_pos ?_, rfl, w, LockedQueue.move_self _ w _⟩
    show (if s.worker w = .waiting then WorkerPoint.woken else s.worker w) = .wait
    rw [hw]
    rfl
  | _ => exact absurd trivial hallow

/-- Only the broadcast can be too early. -/
theorem allowed_heeded (es : List (LockEvent α n)) (h : .broadcast ∉ es) :
    Run.Allowed lockStep Heeded es s := by
  induction es generalizing s with
  | nil => trivial
  | cons e es ih =>
    rw [List.mem_cons, not_or] at h
    refine ⟨?_, fun r _ => ih h.2⟩
    cases e with
    | broadcast => exact absurd rfl h.1
    | _ => trivial

/-- **No worker sleeps through the shutdown** in a run in which, at the broadcast, no worker is
    between its test and its wait; and when one is, it can go to sleep after the broadcast. -/
theorem shutdown_wakes (h : Reachable lockStep Heeded LockedQueue.Started s) :
    ¬ Asleep s ∧ ∀ e r, ¬ Heeded s e → lockStep s e = some r →
      ∃ w r', lockStep r.1 (.wait w) = some r' ∧ Asleep r'.1 := by
  constructor
  · rintro ⟨hdone, w, hw⟩
    exact ((shutdown_inv h).awake hdone w).2 hw
  · intro e r hallow hstep
    exact unheeded_sleeps hallow hstep

end Shutdown

/-- One worker, and an empty queue. -/
def LockedQueue.one : LockedQueue Unit 1 where
  tasks := TaskQueue.init ⟨fun _ => none, fun _ => none⟩ (fun _ => ()) []
  lock := none
  worker _ := .outside
  shutdown := .begin

/-- The worker sleeps before the broadcast, and is woken by it. -/
theorem shutdown_wakes_one :
    ∃ s : LockedQueue Unit 1, Reachable lockStep Heeded LockedQueue.Started s ∧
      s.shutdown = .done ∧ s.worker 0 = .woken ∧ ¬ Asleep s := by
  have hstart : Reachable lockStep Heeded LockedQueue.Started LockedQueue.one :=
    .init ⟨rfl, rfl, fun _ => rfl, rfl⟩
  have hrun : ∃ r r', Run.run lockStep [.lock 0, .test 0, .wait 0, .setDestorying]
      LockedQueue.one = some r ∧ r.1.worker 0 = .waiting ∧ lockStep r.1 .broadcast = some r' ∧
        r'.1.shutdown = .done ∧ r'.1.worker 0 = .woken := ⟨_, _, rfl, rfl, rfl, rfl, rfl⟩
  obtain ⟨r, r', hr, hwaiting, hstep, hdone, hwoken⟩ := hrun
  have hheeded : Heeded r.1 .broadcast := by
    intro w
    rw [Fin.fin_one_eq_zero w, hwaiting]
    simp
  have hreach := (hstart.run (allowed_heeded _ (by simp)) hr).step hheeded hstep
  exact ⟨r'.1, hreach, hdone, hwoken, (shutdown_wakes hreach).1⟩

/-- The flag is set and broadcast between the test of the worker and its wait. -/
theorem shutdown_asleep :
    ∃ s : LockedQueue Unit 1, Reachable lockStep (fun _ _ => True) LockedQueue.Started s ∧ Asleep s := by
  have hstart : Reachable lockStep (fun _ _ => True) LockedQueue.Started LockedQueue.one :=
    .init ⟨rfl, rfl, fun _ => rfl, rfl⟩
  have hrun : ∃ r, Run.run lockStep [.lock 0, .test 0, .setDestorying, .broadcast, .wait 0]
      LockedQueue.one = some r ∧ r.1.shutdown = .done ∧ r.1.worker 0 = .waiting :=
    ⟨_, rfl, rfl, rfl⟩
  obtain ⟨r, hr, hdone, hw⟩ := hrun
  exact ⟨r.1, hstart.run (allowed_true _ _) hr, hdone, 0, hw⟩

end OServer
