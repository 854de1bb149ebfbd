/-
  OServer/ServerWatch.lean
  ========================
  **The watched set, word by word, and the pipe that wakes the main loop.**

  A worker watches its socket again under `fd_lock`, and writes a byte into a pipe so that
  `select` returns and the set is copied anew.  The main loop watches a new client without
  the lock.  `FD_SET` loads a word of the set and stores it with one more bit, so that one
  of two stores to the same word can undo the other.

    * `serverWatch_woken`   — as long as no store is overtaken, every idle client is
                              watched, and `select` looks at it or is about to be woken; a
                              store that is overtaken leaves an idle client unwatched;
    * `serverWatch_lost`    — a client that is lost so is never watched, served or closed
                              again.
-/
import OServer.ServerExclusive

namespace OServer

open Run

/-! ## 1. `FD_SET` -/

/-- `NFDBITS`, the descriptors in a word of an `fd_set`. -/
abbrev nfdbits : Nat := 64

/-- The second half of `FD_SET(fd, &fds)`: the word of `fd` is stored as it was in `loaded`, with
    the bit of `fd`. -/
def fdSetStore (fds loaded : Finset Nat) (fd : Nat) : Finset Nat :=
  fds.filter (fun x => x / nfdbits ≠ fd / nfdbits) ∪
    insert fd (loaded.filter fun x => x / nfdbits = fd / nfdbits)

theorem mem_fdSetStore {fds loaded : Finset Nat} {fd x : Nat} :
    x ∈ fdSetStore fds loaded fd ↔
      x = fd ∨ if x / nfdbits = fd / nfdbits then x ∈ loaded else x ∈ fds := by
  rw [fdSetStore, Finset.mem_union, Finset.mem_insert, Finset.mem_filter, Finset.mem_filter]
  split_ifs with hword
  · simp only [hword, ne_eq, not_true, and_false, and_true, false_or]
  · simp only [hword, ne_eq, not_false_iff, and_false, and_true, or_false]
    exact or_comm

theorem self_mem_fdSetStore (fds loaded : Finset Nat) (fd : Nat) : fd ∈ fdSetStore fds loaded fd :=
  mem_fdSetStore.mpr (.inl rfl)

/-- Nothing comes from elsewhere. -/
theorem of_mem_fdSetStore {fds loaded : Finset Nat} {fd x : Nat} (h : x ∈ fdSetStore fds loaded fd) :
    x = fd ∨ x ∈ fds ∨ x ∈ loaded := by
  rcases mem_fdSetStore.mp h with heq | hmem
  · exact .inl heq
  · split_ifs at hmem
    · exact .inr (.inr hmem)
    · exact .inr (.inl hmem)

/-- What was in both stays. -/
theorem mem_fdSetStore_of_mem {fds loaded : Finset Nat} {x : Nat} (fd : Nat) (h : x ∈ fds)
    (hloaded : x / nfdbits = fd / nfdbits → x ∈ loaded) : x ∈ fdSetStore fds loaded fd := by
  refine mem_fdSetStore.mpr (.inr ?_)
  split_ifs with hword
  · exact hloaded hword
  · exact h

/-- What was not loaded is undone. -/
theorem notMem_fdSetStore {fds loaded : Finset Nat} {fd x : Nat} (hne : x ≠ fd)
    (hword : x / nfdbits = fd / nfdbits) (hloaded : x ∉ loaded) : x ∉ fdSetStore fds loaded fd := by
  intro hmem
  rcases mem_fdSetStore.mp hmem with heq | hmem
  · exact hne heq
  · rw [if_pos hword] at hmem
    exact hloaded hmem

/-! ## 2. State and steps -/

structure ServerWatch where
  loop : ServerLoop
  /-- the main loop is in `FD_SET(client_fd, &srv->fds)`, and what it has loaded -/
  load : Option (Nat × Finset Nat)
  /-- who has `fd_lock` for its `FD_SET`, and what it has loaded -/
  fdLock : Option (Ptr × Finset Nat)
  /-- the workers between their `FD_SET` and their `write` -/
  notifying : Nat
  /-- the bytes in the pipe -/
  pipe : Nat
  maxFd : Nat

inductive WatchEvent where
  /-- any step of `ServerLoop` that sets no bit -/
  | loop (e : LoopEvent)
  /-- `accept` returns, and `FD_SET` loads its word -/
  | load (clientFd : Nat)
  /-- `FD_SET` of the main loop stores its word, and the client gets its connection -/
  | store
  /-- `pthread_mutex_lock`, and `FD_SET` of a worker loads its word -/
  | lock (conn : Ptr)
  /-- `FD_SET` of a worker stores its word, and `pthread_mutex_unlock` -/
  | set
  /-- `server_notify` -/
  | notify
deriving DecidableEq

namespace ServerWatch

/-- The steps of `ServerLoop` that are taken here as they are.  The copy and `FD_CLR` need the lock;
    while the main loop is in its `FD_SET` it does nothing else, and so does the worker that has the
    lock; `select` sees `read_fd` when there is a byte, and looks no further than `max_fd`. -/
def Free (s : ServerWatch) : LoopEvent → Prop
  | .snapshot | .dispatch => s.fdLock = none
  | .select rfds => (s.loop.readFd ∈ rfds ↔ 0 < s.pipe) ∧ ∀ fd ∈ rfds, fd ≤ s.maxFd
  | .accept none => s.load = none
  | .close conn => s.fdLock.map Prod.fst ≠ some conn
  | .visit | .mark _ => True
  | .accept (some _) | .rearm _ => False

instance (s : ServerWatch) : (e : LoopEvent) → Decidable (s.Free e)
  | .snapshot | .dispatch => inferInstanceAs (Decidable (s.fdLock = none))
  | .select _ => inferInstanceAs (Decidable (_ ∧ _))
  | .accept none => inferInstanceAs (Decidable (s.load = none))
  | .close _ => inferInstanceAs (Decidable (_ ≠ _))
  | .visit | .mark _ => isTrue trivial
  | .accept (some _) | .rearm _ => isFalse id

/-- One byte is read when `read_fd` is set. -/
def drained (s : ServerWatch) : LoopEvent → Nat
  | .select rfds => if s.loop.readFd ∈ rfds then s.pipe - 1 else s.pipe
  | _ => s.pipe

def stored (s : ServerWatch) (rfds : Finset Nat) (clientFd : Nat) (loaded : Finset Nat) :
    ServerWatch :=
  { s with
    loop := { s.loop.accepted rfds clientFd with fds := fdSetStore s.loop.fds loaded clientFd }
    load := none }

/-- The worker's task is over; what is left is `server_notify`.  For `-1` there is nothing to
    set. -/
def setAgain (s : ServerWatch) (conn : Ptr) (loaded : Finset Nat) : ServerWatch :=
  { s with
    loop := { s.loop with
      toServerShared := { s.loop.rearmed conn with
        fds := match s.loop.socket conn with
          | none => s.loop.fds
          | some fd => fdSetStore s.loop.fds loaded fd } }
    fdLock := none
    notifying := s.notifying + 1 }

end ServerWatch

def watchStep (s : ServerWatch) : WatchEvent → Option (ServerWatch × List LoopObs)
  | .loop e =>
      if s.Free e then
        (serverLoopStep s.loop e).map fun r => ({ s with loop := r.1, pipe := s.drained e }, r.2)
      else none
  | .load clientFd =>
      match s.loop.point with
      | .accept _ =>
          if s.load = none ∧ clientFd ∉ s.loop.openFds then
            some ({ s with load := some (clientFd, s.loop.fds), maxFd := max s.maxFd clientFd }, [])
          else none
      | _ => none
  | .store =>
      match s.load, s.loop.point with
      | some (clientFd, loaded), .accept rfds => some (s.stored rfds clientFd loaded, [])
      | _, _ => none
  | .lock conn =>
      if s.fdLock = none ∧ s.loop.tasks.contains (conn, .serving) then
        some ({ s with fdLock := some (conn, s.loop.fds) }, [])
      else none
  | .set =>
      match s.fdLock with
      | some (conn, loaded) => some (s.setAgain conn loaded, [])
      | none => none
  | .notify =>
      if 0 < s.notifying then
        some ({ s with notifying := s.notifying - 1, pipe := s.pipe + 1 }, [])
      else none

/-- Before the loop. -/
structure ServerWatch.Started (s : ServerWatch) : Prop where
  loop : s.loop.Started
  load : s.load = none
  fdLock : s.fdLock = none
  notifying : s.notifying = 0
  pipe : s.pipe = 0
  maxFd : s.maxFd = max s.loop.listenFd s.loop.readFd

/-- What one step can do. -/
inductive WatchStep (s : ServerWatch) : WatchEvent → ServerWatch × List LoopObs → Prop where
  | loop {e : LoopEvent} {r : ServerLoop × List LoopObs} (hfree : s.Free e)
      (hstep : serverLoopStep s.loop e = some r) :
      WatchStep s (.loop e) ({ s with loop := r.1, pipe := s.drained e }, r.2)
  | load {rfds : Finset Nat} {clientFd : Nat} (hpoint : s.loop.point = .accept rfds)
      (hload : s.load = none) (hnew : clientFd ∉ s.loop.openFds) :
      WatchStep s (.load clientFd)
        ({ s with load := some (clientFd, s.loop.fds), maxFd := max s.maxFd clientFd }, [])
  | store {rfds loaded : Finset Nat} {clientFd : Nat} (hpoint : s.loop.point = .accept rfds)
      (hload : s.load = some (clientFd, loaded)) :
      WatchStep s .store (s.stored rfds clientFd loaded, [])
  | lock {conn : Ptr} (hlock : s.fdLock = none) (htask : (conn, .serving) ∈ s.loop.tasks) :
      WatchStep s (.lock conn) ({ s with fdLock := some (conn, s.loop.fds) }, [])
  | set {conn : Ptr} {loaded : Finset Nat} (hlock : s.fdLock = some (conn, loaded)) :
      WatchStep s .set (s.setAgain conn loaded, [])
  | notify (hnotify : 0 < s.notifying) :
      WatchStep s .notify ({ s with notifying := s.notifying - 1, pipe := s.pipe + 1 }, [])

theorem watchStep_cases {s : ServerWatch} {e : WatchEvent} {r : ServerWatch × List LoopObs}
    (h : watchStep s e = some r) : WatchStep s e r := by
  cases e with
  | loop e =>
    obtain ⟨hfree, hmap⟩ := Option.ite_none_right_eq_some.mp h
    obtain ⟨r', hstep, rfl⟩ := Option.map_eq_some_iff.mp hmap
    exact .loop hfree hstep
  | load clientFd =>
    rw [watchStep] at h
    split at h
    · rename_i rfds hpoint
      obtain ⟨⟨hload, hnew⟩, ⟨⟩⟩ := Option.ite_none_right_eq_some.mp h
      exact .load hpoint hload hnew
    · cases h
  | store =>
    rw [watchStep] at h
    split at h
    · rename_i clientFd loaded rfds hload hpoint
      cases h
      exact .store hpoint hload
    · cases h
  | lock conn =>
    obtain ⟨⟨hlock, htask⟩, ⟨⟩⟩ := Option.ite_none_right_eq_some.mp h
    exact .lock hlock (List.contains_iff_mem.mp htask)
  | set =>
    rw [watchStep] at h
    split at h
    · rename_i conn loaded hlock
      cases h
      exact .set hlock
    · cases h
  | notify =>
    obtain ⟨hnotify, ⟨⟩⟩ := Option.ite_none_right_eq_some.mp h
    exact .notify hnotify

/-! ## 3. Idle connections -/

/-- A live connection that no worker has and that is not queued. -/
def Idle (s : ServerLoop) (conn : Ptr) (fd : Nat) : Prop :=
  Live s conn fd ∧ ∀ t ∈ s.tasks, t.1 ≠ conn

/-- The step sets no bit of `fds`. -/
def SetsNothing : LoopEvent → Prop
  | .accept (some _) | .rearm _ => False
  | _ => True

theorem ServerWatch.Free.setsNothing {s : ServerWatch} {e : LoopEvent} (h : s.Free e) :
    SetsNothing e := by
  cases e with
  | accept clientFd =>
    cases clientFd with
    | none => trivial
    | some clientFd => exact h
  | rearm conn => exact h
  | _ => trivial

/-- What such a step keeps. -/
structure LoopKeeps (s : ServerLoop) (e : LoopEvent) (s' : ServerLoop) : Prop where
  readFd : s'.readFd = s.readFd
  fds : s'.fds = s.fds ∨ ∃ conn fd, Live s conn fd ∧ (∃ t ∈ s'.tasks, t.1 = conn) ∧
    s'.fds = s.fds.erase fd
  openFds : s'.openFds = s.openFds ∨ ∃ conn fd, Live s conn fd ∧ s'.openFds = s.openFds.erase fd
  served : e ≠ .dispatch → ∀ conn, (conn, .serving) ∈ s'.tasks →
    (conn, .serving) ∈ s.tasks ∧ s'.socket conn = s.socket conn
  serves : ∀ conn, (conn, .serving) ∈ s.tasks → e ≠ .close conn → (conn, .serving) ∈ s'.tasks
  idle : ∀ conn fd, Idle s' conn fd → Idle s conn fd
  stays : ∀ conn fd, Idle s conn fd → (∀ rfds node, s.point ≠ .dispatch rfds conn node) →
    Idle s' conn fd

/-- Only the place of the main loop changes. -/
theorem LoopKeeps.move (s : ServerLoop) (e : LoopEvent) (point : LoopPoint) :
    LoopKeeps s e { s with point } where
  readFd := rfl
  fds := .inl rfl
  openFds := .inl rfl
  served := fun _ _ ht => ⟨ht, rfl⟩
  serves := fun _ ht _ => ht
  idle := fun _ _ hidle => hidle
  stays := fun _ _ hidle _ => hidle

section Keeps
variable {s : ServerLoop} (h : ExclusiveInv s)
include h

omit h in
/-- A connection that is found closed was not live. -/
theorem keeps_visited (e : LoopEvent) (rfds : Finset Nat) (conn : Ptr) (node : List Ptr) :
    LoopKeeps s e (s.visited rfds conn node).1 := by
  cases hsocket : s.socket conn with
  | some fd =>
    rw [ServerLoop.visited_some hsocket]
    exact .move s e _
  | none =>
    rw [ServerLoop.visited_none hsocket]
    refine ⟨rfl, .inl rfl, .inl rfl, fun _ conn ht => ⟨ht, rfl⟩, fun conn ht _ => ht, ?_, ?_⟩
    · rintro conn' fd ⟨⟨hmem, hlive⟩, htasks⟩
      exact ⟨⟨List.mem_of_mem_erase hmem, hlive⟩, htasks⟩
    · rintro conn' fd ⟨⟨hmem, hlive⟩, htasks⟩ -
      refine ⟨⟨(List.mem_erase_of_ne ?_).mpr hmem, hlive⟩, htasks⟩
      rintro rfl
      exact absurd (hsocket.symm.trans hlive.1) (by simp)

theorem keeps_dispatched {rfds : Finset Nat} {conn : Ptr} {node : List Ptr}
    (hpoint : s.point = .dispatch rfds conn node) :
    LoopKeeps s .dispatch
      { s with toServerShared := s.dispatched conn, point := .traverse rfds node } := by
  have hsound := h.point
  rw [hpoint] at hsound
  obtain ⟨⟨hmem, -, fd, hsocket, hfree⟩, -⟩ := hsound
  have hlive : Live s conn fd := ⟨hmem, hsocket, fun ht => hfree _ ht hsocket⟩
  refine ⟨rfl, .inr ⟨conn, fd, hlive, ⟨(conn, .serving), ?_, rfl⟩, ?_⟩, .inl rfl,
    fun hne => absurd rfl hne, fun conn' ht _ => List.mem_append_left _ ht, ?_, ?_⟩
  · exact List.mem_append_right _ List.mem_cons_self
  · simp [ServerShared.dispatched, hsocket]
  · rintro conn' fd' ⟨⟨hmem', hsocket', hclosed⟩, htasks⟩
    exact ⟨⟨hmem', hsocket', fun ht => hclosed (List.mem_append_left _ ht)⟩,
      fun t ht => htasks t (List.mem_append_left _ ht)⟩
  · rintro conn' fd' ⟨⟨hmem', hsocket', -⟩, htasks⟩ hnext
    have hne : conn ≠ conn' := by
      rintro rfl
      exact hnext rfds node hpoint
    have htasks' : ∀ t ∈ s.tasks ++ [(conn, TaskPhase.serving)], t.1 ≠ conn' := by
      intro t ht
      rcases List.mem_append.mp ht with ht | ht
      · exact htasks t ht
      · rw [List.mem_singleton.mp ht]
        exact hne
    exact ⟨⟨hmem', hsocket', fun ht => htasks' _ ht rfl⟩, htasks'⟩

theorem keeps_closed {conn : Ptr} (htask : (conn, .serving) ∈ s.tasks) :
    LoopKeeps s (.close conn) { s with toServerShared := s.closed conn } := by
  obtain ⟨-, fd, hsocket⟩ := h.task _ htask
  have htasks : ∀ {conn'}, (∀ t ∈ s.tasks.erase (conn, .serving) ++ [(conn, TaskPhase.closed)],
      t.1 ≠ conn') ↔ ∀ t ∈ s.tasks, t.1 ≠ conn' := by
    intro conn'
    constructor
    · intro hne t ht
      by_cases heq : t = (conn, .serving)
      · rw [heq]
        exact hne (conn, .closed) (List.mem_append_right _ List.mem_cons_self)
      · exact hne t (List.mem_append_left _ ((List.mem_erase_of_ne heq).mpr ht))
    · intro hne t ht
      rcases List.mem_append.mp ht with ht | ht
      · exact hne t (List.mem_of_mem_erase ht)
      · rw [List.mem_singleton.mp ht]
        exact hne (conn, .serving) htask
  refine ⟨rfl, .inl rfl, .inr ⟨conn, fd, serving_live h htask hsocket, ?_⟩, ?_, ?_, ?_, ?_⟩
  · simp [ServerShared.closed, hsocket]
  · intro _ conn' ht
    rcases List.mem_append.mp ht with ht | ht
    · exact ⟨List.mem_of_mem_erase ht, rfl⟩
    · exact absurd (congrArg Prod.snd (List.mem_singleton.mp ht)) (by simp)
  · intro conn' ht hne
    refine List.mem_append_left _ ((List.mem_erase_of_ne ?_).mpr ht)
    rintro heq
    obtain rfl : conn' = conn := congrArg Prod.fst heq
    exact hne rfl
  · rintro conn' fd' ⟨⟨hmem, hsocket', -⟩, hidle⟩
    have hidle' := htasks.mp hidle
    exact ⟨⟨hmem, hsocket', fun ht => hidle' _ ht rfl⟩, hidle'⟩
  · rintro conn' fd' ⟨⟨hmem, hsocket', -⟩, hidle⟩ -
    have hidle' := htasks.mpr hidle
    exact ⟨⟨hmem, hsocket', fun ht => hidle' _ ht rfl⟩, hidle'⟩

theorem keeps_marked {conn : Ptr} (htask : (conn, .closed) ∈ s.tasks) :
    LoopKeeps s (.mark conn) { s with toServerShared := s.marked conn } := by
  have hself : Function.update s.socket conn none conn = none := Function.update_self ..
  have hother : ∀ {conn'}, conn' ≠ conn →
      Function.update s.socket conn none conn' = s.socket conn' :=
    fun hne => Function.update_of_ne hne ..
  refine ⟨rfl, .inl rfl, .inl rfl, ?_, ?_, ?_, ?_⟩
  · intro _ conn' ht
    have hmem := List.mem_of_mem_erase ht
    refine ⟨hmem, hother ?_⟩
    rintro rfl
    exact absurd (task_unique h.once hmem htask rfl) (by simp)
  · intro conn' ht _
    exact (List.mem_erase_of_ne (by simp)).mpr ht
  · rintro conn' fd ⟨⟨hmem, hsocket, hclosed⟩, hidle⟩
    have hne : conn' ≠ conn := by
      rintro rfl
      exact absurd (hself.symm.trans hsocket) (by simp)
    have hidle' : ∀ t ∈ s.tasks, t.1 ≠ conn' := by
      intro t ht
      by_cases heq : t = (conn, .closed)
      · rw [heq]
        exact hne.symm
      · exact hidle t ((List.mem_erase_of_ne heq).mpr ht)
    exact ⟨⟨hmem, (hother hne).symm.trans hsocket, fun ht => hidle' _ ht rfl⟩, hidle'⟩
  · rintro conn' fd ⟨⟨hmem, hsocket, hclosed⟩, hidle⟩ -
    have hne : conn' ≠ conn := (hidle _ htask).symm
    have hidle' : ∀ t ∈ s.tasks.erase (conn, .closed), t.1 ≠ conn' :=
      fun t ht => hidle t (List.mem_of_mem_erase ht)
    exact ⟨⟨hmem, (hother hne).trans hsocket, fun ht => hidle' _ ht rfl⟩, hidle'⟩

/-- **A step that sets no bit.** -/
theorem LoopStep.keeps {e : LoopEvent} {r : ServerLoop × List LoopObs} (hstep : LoopStep s e r)
    (he : SetsNothing e) : LoopKeeps s e r.1 := by
  cases hstep with
  | snapshot => exact .move s _ _
  | @select _ rfds =>
    unfold ServerLoop.selected
    split_ifs <;> exact .move s _ _
  | refused => exact .move s _ _
  | accept => exact he.elim
  | finish => exact .move s _ _
  | visit => exact keeps_visited _ _ _ _
  | dispatch hpoint => exact keeps_dispatched h hpoint
  | close htask => exact keeps_closed h htask
  | mark htask => exact keeps_marked h htask
  | rearm => exact he.elim

end Keeps

/-! ## 4. Steps that set a bit -/

/-- The watched set may be another one, if nothing that is served is in it. -/
theorem ExclusiveInv.withFds {s : ServerLoop} (h : ExclusiveInv s) {fds : Finset Nat}
    (hfds : ∀ conn, NotSet s fds conn) : ExclusiveInv { s with fds := fds } where
  lists := by
    obtain ⟨objects, hobjects, hlists⟩ := h.lists
    exact ⟨objects, hobjects, hlists.perm, hlists.rest⟩
  opened := h.opened
  own := h.own
  once := h.once
  task := h.task
  alone := h.alone
  unwatched := hfds
  point := by
    obtain ⟨shared, connections, connList, point⟩ := s
    cases point <;> exact h.point

/-- A client gets a connection, or there is none left. -/
structure LoopAccepts (s : ServerLoop) (clientFd : Nat) (s' : ServerLoop) : Prop where
  readFd : s'.readFd = s.readFd
  openFds : s'.openFds = insert clientFd s.openFds
  served : ∀ conn, (conn, .serving) ∈ s'.tasks →
    (conn, .serving) ∈ s.tasks ∧ s'.socket conn = s.socket conn
  serves : ∀ conn, (conn, .serving) ∈ s.tasks → (conn, .serving) ∈ s'.tasks
  live : ∀ conn fd, Live s' conn fd → Live s conn fd ∨ fd = clientFd
  idle : ∀ conn fd, Idle s' conn fd → Idle s conn fd ∨ fd = clientFd
  stays : ∀ conn fd, Idle s conn fd → Idle s' conn fd

theorem ExclusiveInv.accepts {s : ServerLoop} (h : ExclusiveInv s) (rfds : Finset Nat)
    (clientFd : Nat) : LoopAccepts s clientFd (s.accepted rfds clientFd) := by
  cases hpool : s.connections with
  | nil =>
    rw [ServerLoop.accepted_nil hpool]
    exact ⟨rfl, rfl, fun _ ht => ⟨ht, rfl⟩, fun _ ht => ht, fun _ _ hl => .inl hl,
      fun _ _ hl => .inl hl, fun _ _ hl => hl⟩
  | cons conn available =>
    obtain ⟨objects, hobjects, hlists⟩ := h.lists
    have hsocket : ∀ conn' ∈ s.connList,
        Function.update s.socket conn (some clientFd) conn' = s.socket conn' := by
      intro conn' hmem
      apply Function.update_of_ne
      rintro rfl
      have hnodup := hlists.nodup hobjects
      rw [hpool] at hnodup
      exact (List.nodup_append.mp hnodup).2.2 conn' hmem conn' List.mem_cons_self rfl
    have hlive := accepted_live hpool rfds clientFd
    rw [ServerLoop.accepted_cons hpool] at hlive ⊢
    refine ⟨rfl, rfl, fun conn' ht => ⟨ht, hsocket conn' (h.task _ ht).1⟩, fun _ ht => ht, ?_, ?_, ?_⟩
    · intro conn' fd hl
      rcases hlive conn' fd hl with ⟨-, heq⟩ | hold
      · exact .inr heq
      · exact .inl hold
    · rintro conn' fd ⟨hl, htasks⟩
      rcases hlive conn' fd hl with ⟨-, heq⟩ | hold
      · exact .inr heq
      · exact .inl ⟨hold, htasks⟩
    · rintro conn' fd ⟨⟨hmem, hfd, hclosed⟩, htasks⟩
      exact ⟨⟨List.mem_append_left _ hmem, (hsocket conn' hmem).trans hfd, hclosed⟩, htasks⟩

/-- The worker's task is over. -/
theorem rearmed_idle {s : ServerLoop} {conn conn' : Ptr} {fd : Nat}
    (hidle : Idle { s with toServerShared := s.rearmed conn } conn' fd) (hne : conn' ≠ conn) :
    Idle s conn' fd := by
  obtain ⟨⟨hmem, hsocket, -⟩, htasks⟩ := hidle
  have htasks' : ∀ t ∈ s.tasks, t.1 ≠ conn' := by
    intro t ht
    by_cases heq : t = (conn, .serving)
    · rw [heq]
      exact hne.symm
    · exact htasks t ((List.mem_erase_of_ne heq).mpr ht)
  exact ⟨⟨hmem, hsocket, fun ht => htasks' _ ht rfl⟩, htasks'⟩

theorem idle_rearmed {s : ServerLoop} {conn conn' : Ptr} {fd : Nat} (hidle : Idle s conn' fd) :
    Idle { s with toServerShared := s.rearmed conn } conn' fd := by
  obtain ⟨⟨hmem, hsocket, hclosed⟩, htasks⟩ := hidle
  exact ⟨⟨hmem, hsocket, fun ht => hclosed (List.mem_of_mem_erase ht)⟩,
    fun t ht => htasks t (List.mem_of_mem_erase ht)⟩

/-! ## 5. What holds whatever is overtaken -/

/-- What is loaded, or in the set: nothing that is served, and `read_fd`. -/
structure FdsOk (s : ServerWatch) (fds : Finset Nat) : Prop where
  unserved : ∀ conn, NotSet s.loop fds conn
  readFd : s.loop.readFd ∈ fds
  bound : ∀ fd ∈ fds, fd ≤ s.maxFd

structure WatchInv (s : ServerWatch) : Prop where
  loop : ExclusiveInv s.loop
  fds : FdsOk s s.loop.fds
  load : ∀ clientFd loaded, s.load = some (clientFd, loaded) →
    (∃ rfds, s.loop.point = .accept rfds) ∧ clientFd ∉ s.loop.openFds ∧ clientFd ≤ s.maxFd ∧
      FdsOk s loaded
  held : ∀ conn loaded, s.fdLock = some (conn, loaded) →
    (conn, .serving) ∈ s.loop.tasks ∧ FdsOk s loaded
  readFd : s.loop.readFd ∈ s.loop.openFds
  client : ∀ conn fd, Live s.loop conn fd → fd ≠ s.loop.readFd ∧ fd ≤ s.maxFd

section Inv
variable {s : ServerWatch} (h : WatchInv s)
include h

omit h in
theorem FdsOk.of {fds : Finset Nat} (hfds : FdsOk s fds) {s' : ServerWatch}
    (hread : s'.loop.readFd = s.loop.readFd) (hmax : s.maxFd ≤ s'.maxFd)
    (hserved : ∀ conn, (conn, .serving) ∈ s'.loop.tasks →
      (conn, .serving) ∈ s.loop.tasks ∧ s'.loop.socket conn = s.loop.socket conn) :
    FdsOk s' fds where
  unserved := by
    intro conn ht fd hsocket
    obtain ⟨ht', heq⟩ := hserved conn ht
    exact hfds.unserved conn ht' fd (heq.symm.trans hsocket)
  readFd := by
    rw [hread]
    exact hfds.readFd
  bound := fun fd hmem => (hfds.bound fd hmem).trans hmax

omit h in
/-- The store of a descriptor that is not served. -/
theorem FdsOk.store {fds loaded : Finset Nat} (hfds : FdsOk s fds) (hloaded : FdsOk s loaded)
    {fd : Nat} (hbound : fd ≤ s.maxFd)
    (hfd : ∀ conn, (conn, .serving) ∈ s.loop.tasks → s.loop.socket conn ≠ some fd) :
    FdsOk s (fdSetStore fds loaded fd) where
  unserved := by
    intro conn ht fd' hsocket hmem
    rcases of_mem_fdSetStore hmem with rfl | hmem | hmem
    · exact hfd conn ht hsocket
    · exact hfds.unserved conn ht fd' hsocket hmem
    · exact hloaded.unserved conn ht fd' hsocket hmem
  readFd := mem_fdSetStore_of_mem fd hfds.readFd fun _ => hloaded.readFd
  bound := by
    intro fd' hmem
    rcases of_mem_fdSetStore hmem with rfl | hmem | hmem
    · exact hbound
    · exact hfds.bound fd' hmem
    · exact hloaded.bound fd' hmem

theorem loop_watchInv {e : LoopEvent} (hallow : Unraced s.loop e) (hfree : s.Free e)
    {r : ServerLoop × List LoopObs} (hstep : serverLoopStep s.loop e = some r) :
    WatchInv { s with loop := r.1, pipe := s.drained e } := by
  have hcases := serverLoopStep_cases hstep
  have hkeeps := hcases.keeps h.loop hfree.setsNothing
  have hloop := serverLoopStep_inv h.loop hallow hstep
  have hlive : ∀ conn fd, Live r.1 conn fd → Live s.loop conn fd := by
    apply hcases.live_of_ne
    rintro clientFd rfl
    exact hfree
  have hloaded : ∀ {fds}, FdsOk s fds → e ≠ .dispatch →
      FdsOk { s with loop := r.1, pipe := s.drained e } fds :=
    fun hfds he => hfds.of hkeeps.readFd le_rfl (hkeeps.served he)
  constructor
  case loop => exact hloop
  case fds =>
    refine ⟨hloop.unwatched, ?_, ?_⟩
    · show r.1.readFd ∈ r.1.fds
      rw [hkeeps.readFd]
      rcases hkeeps.fds with heq | ⟨conn, fd, hl, -, heq⟩
      · rw [heq]
        exact h.fds.readFd
      · rw [heq]
        exact Finset.mem_erase.mpr ⟨(h.client conn fd hl).1.symm, h.fds.readFd⟩
    · intro fd hmem
      apply h.fds.bound
      rcases hkeeps.fds with heq | ⟨conn, fd', -, -, heq⟩
      · rwa [← heq]
      · rw [heq] at hmem
        exact Finset.mem_of_mem_erase hmem
  case load =>
    intro clientFd loaded hload
    obtain ⟨⟨rfds, hpoint⟩, hnew, hbound, hfds⟩ := h.load clientFd loaded hload
    -- the main loop is in its `FD_SET`, so this is a step of a worker
    have hpoint' : r.1.point = s.loop.point ∧ e ≠ .dispatch := by
      cases hcases with
      | snapshot hpt => exact absurd (hpt.symm.trans hpoint) (by simp)
      | select hpt => exact absurd (hpt.symm.trans hpoint) (by simp)
      | refused =>
        have hnone : s.load = none := hfree
        rw [hnone] at hload
        cases hload
      | accept => exact hfree.elim
      | finish hpt => exact absurd (hpt.symm.trans hpoint) (by simp)
      | visit hpt => exact absurd (hpt.symm.trans hpoint) (by simp)
      | dispatch hpt => exact absurd (hpt.symm.trans hpoint) (by simp)
      | close => exact ⟨rfl, by simp⟩
      | mark => exact ⟨rfl, by simp⟩
      | rearm => exact hfree.elim
    refine ⟨⟨rfds, hpoint'.1.trans hpoint⟩, ?_, hbound, hloaded hfds hpoint'.2⟩
    intro hmem
    rcases hkeeps.openFds with heq | ⟨conn, fd, -, heq⟩
    · exact hnew (heq ▸ hmem)
    · have hmem' : clientFd ∈ s.loop.openFds.erase fd := heq ▸ hmem
      exact hnew (Finset.mem_of_mem_erase hmem')
  case held =>
    intro conn loaded hlock
    obtain ⟨htask, hfds⟩ := h.held conn loaded hlock
    have hclose : e ≠ .close conn := by
      rintro rfl
      have hne : s.fdLock.map Prod.fst ≠ some conn := hfree
      rw [hlock] at hne
      exact hne rfl
    have hdispatch : e ≠ .dispatch := by
      rintro rfl
      have hnone : s.fdLock = none := hfree
      rw [hnone] at hlock
      cases hlock
    exact ⟨hkeeps.serves conn htask hclose, hloaded hfds hdispatch⟩
  case readFd =>
    show r.1.readFd ∈ r.1.openFds
    rw [hkeeps.readFd]
    rcases hkeeps.openFds with heq | ⟨conn, fd, hl, heq⟩
    · rw [heq]
      exact h.readFd
    · rw [heq]
      exact Finset.mem_erase.mpr ⟨(h.client conn fd hl).1.symm, h.readFd⟩
  case client =>
    intro conn fd hl
    obtain ⟨hne, hbound⟩ := h.client conn fd (hlive conn fd hl)
    refine ⟨?_, hbound⟩
    show fd ≠ r.1.readFd
    rw [hkeeps.readFd]
    exact hne

theorem load_watchInv {rfds : Finset Nat} {clientFd : Nat} (hpoint : s.loop.point = .accept rfds)
    (hnew : clientFd ∉ s.loop.openFds) :
    WatchInv { s with load := some (clientFd, s.loop.fds), maxFd := max s.maxFd clientFd } := by
  have hof : ∀ {fds}, FdsOk s fds →
      FdsOk { s with load := some (clientFd, s.loop.fds), maxFd := max s.maxFd clientFd } fds :=
    fun hfds => hfds.of rfl (le_max_left _ _) fun _ ht => ⟨ht, rfl⟩
  refine ⟨h.loop, hof h.fds, ?_, ?_, h.readFd, ?_⟩
  · intro clientFd' loaded heq
    obtain ⟨rfl, rfl⟩ := Prod.mk.inj (Option.some.inj heq)
    exact ⟨⟨rfds, hpoint⟩, hnew, le_max_right _ _, hof h.fds⟩
  · intro conn loaded hlock
    obtain ⟨htask, hfds⟩ := h.held conn loaded hlock
    exact ⟨htask, hof hfds⟩
  · intro conn fd hl
    obtain ⟨hne, hbound⟩ := h.client conn fd hl
    exact ⟨hne, hbound.trans (le_max_left _ _)⟩

/-- The descriptor of the new client is not served. -/
theorem new_unserved {clientFd : Nat} (hnew : clientFd ∉ s.loop.openFds) (conn : Ptr)
    (ht : (conn, .serving) ∈ s.loop.tasks) : s.loop.socket conn ≠ some clientFd := by
  intro hsocket
  exact new_ne h.loop hnew (serving_live h.loop ht hsocket) rfl

theorem store_watchInv {rfds loaded : Finset Nat} {clientFd : Nat}
    (hpoint : s.loop.point = .accept rfds) (hload : s.load = some (clientFd, loaded)) :
    WatchInv (s.stored rfds clientFd loaded) := by
  obtain ⟨-, hnew, hbound, hloaded⟩ := h.load clientFd loaded hload
  have haccepts := h.loop.accepts rfds clientFd
  have hof : ∀ {fds}, FdsOk s fds → FdsOk (s.stored rfds clientFd loaded) fds :=
    fun hfds => hfds.of haccepts.readFd le_rfl haccepts.served
  have hfds := hof (h.fds.store hloaded hbound (new_unserved h hnew))
  refine ⟨(loop_accepted_inv h.loop hpoint hnew).withFds hfds.unserved, hfds, ?_, ?_, ?_, ?_⟩
  · intro clientFd' loaded' heq
    cases heq
  · intro conn loaded' hlock
    obtain ⟨htask, hloaded'⟩ := h.held conn loaded' hlock
    exact ⟨haccepts.serves conn htask, hof hloaded'⟩
  · show (s.loop.accepted rfds clientFd).readFd ∈ (s.loop.accepted rfds clientFd).openFds
    rw [haccepts.readFd, haccepts.openFds]
    exact Finset.mem_insert_of_mem h.readFd
  · intro conn fd hl
    show fd ≠ (s.loop.accepted rfds clientFd).readFd ∧ fd ≤ s.maxFd
    rw [haccepts.readFd]
    rcases haccepts.live conn fd hl with hold | rfl
    · exact h.client conn fd hold
    · refine ⟨?_, hbound⟩
      rintro rfl
      exact hnew h.readFd

theorem lock_watchInv {conn : Ptr} (htask : (conn, .serving) ∈ s.loop.tasks) :
    WatchInv { s with fdLock := some (conn, s.loop.fds) } := by
  have hof : ∀ {fds}, FdsOk s fds → FdsOk { s with fdLock := some (conn, s.loop.fds) } fds :=
    fun hfds => hfds.of rfl le_rfl fun _ ht => ⟨ht, rfl⟩
  refine ⟨h.loop, hof h.fds, ?_, ?_, h.readFd, h.client⟩
  · intro clientFd loaded hload
    obtain ⟨hpoint, hnew, hbound, hfds⟩ := h.load clientFd loaded hload
    exact ⟨hpoint, hnew, hbound, hof hfds⟩
  · intro conn' loaded heq
    obtain ⟨rfl, rfl⟩ := Prod.mk.inj (Option.some.inj heq)
    exact ⟨htask, hof h.fds⟩

/-- The task of `conn` is taken away, and its descriptor is served by nobody. -/
theorem rearmed_unserved {conn : Ptr} (htask : (conn, .serving) ∈ s.loop.tasks) {fd : Nat}
    (hsocket : s.loop.socket conn = some fd) (conn' : Ptr)
    (ht : (conn', .serving) ∈ (s.loop.rearmed conn).tasks) : s.loop.socket conn' ≠ some fd := by
  intro hsocket'
  have hmem : (conn', .serving) ∈ s.loop.tasks := List.mem_of_mem_erase ht
  have heq : conn' = conn := h.loop.alone _ hmem _ htask fd hsocket' hsocket
  have honce := ((List.perm_cons_erase htask).map Prod.fst).nodup_iff.mp h.loop.once
  exact (List.nodup_cons.mp honce).1 (List.mem_map.mpr ⟨_, ht, heq⟩)

theorem set_watchInv {conn : Ptr} {loaded : Finset Nat} (hlock : s.fdLock = some (conn, loaded)) :
    WatchInv (s.setAgain conn loaded) := by
  obtain ⟨htask, hloaded⟩ := h.held conn loaded hlock
  obtain ⟨hmem, fd, hsocket⟩ := h.loop.task _ htask
  have hfdsEq : (s.setAgain conn loaded).loop =
      { ({ s.loop with toServerShared := s.loop.rearmed conn } : ServerLoop) with
        fds := fdSetStore s.loop.fds loaded fd } := by
    simp only [ServerWatch.setAgain, hsocket]
  have hof : ∀ {fds}, FdsOk s fds → FdsOk (s.setAgain conn loaded) fds := by
    intro fds hfds
    refine hfds.of rfl le_rfl fun conn' ht => ⟨?_, rfl⟩
    exact List.mem_of_mem_erase ht
  have hbound := (h.client conn fd (serving_live h.loop htask hsocket)).2
  have hfds : FdsOk (s.setAgain conn loaded) (fdSetStore s.loop.fds loaded fd) :=
    (hof h.fds).store (hof hloaded) hbound (rearmed_unserved h htask hsocket)
  have hlive : ∀ conn' fd', Live (s.setAgain conn loaded).loop conn' fd' →
      Live s.loop conn' fd' :=
    fun conn' fd' hl => (LoopStep.rearm htask).live_of_ne (by simp) conn' fd' hl
  have hloop : ExclusiveInv (s.setAgain conn loaded).loop := by
    rw [hfdsEq]
    exact (loop_rearmed_inv h.loop htask).withFds hfds.unserved
  refine ⟨hloop, ?_, ?_, ?_, h.readFd, fun conn' fd' hl => h.client conn' fd' (hlive conn' fd' hl)⟩
  · have heq : (s.setAgain conn loaded).loop.fds = fdSetStore s.loop.fds loaded fd := by
      rw [hfdsEq]
    rw [heq]
    exact hfds
  · intro clientFd loaded' hload
    obtain ⟨hpoint, hnew, hbound', hfds'⟩ := h.load clientFd loaded' hload
    exact ⟨hpoint, hnew, hbound', hof hfds'⟩
  · intro conn' loaded' heq
    cases heq

theorem watchStep_inv {e : WatchEvent} (hallow : ∀ e', e = .loop e' → Unraced s.loop e')
    {r : ServerWatch × List LoopObs} (hstep : watchStep s e = some r) : WatchInv r.1 := by
  cases watchStep_cases hstep with
  | loop hfree hloop => exact loop_watchInv h (hallow _ rfl) hfree hloop
  | load hpoint _ hnew => exact load_watchInv h hpoint hnew
  | store hpoint hload => exact store_watchInv h hpoint hload
  | lock _ htask => exact lock_watchInv h htask
  | set hlock => exact set_watchInv h hlock
  | notify =>
    exact ⟨h.loop, h.fds.of rfl le_rfl fun _ ht => ⟨ht, rfl⟩,
      fun clientFd loaded hload => by
        obtain ⟨hpoint, hnew, hbound, hfds⟩ := h.load clientFd loaded hload
        exact ⟨hpoint, hnew, hbound, hfds.of rfl le_rfl fun _ ht => ⟨ht, rfl⟩⟩,
      fun conn loaded hlock => by
        obtain ⟨htask, hfds⟩ := h.held conn loaded hlock
        exact ⟨htask, hfds.of rfl le_rfl fun _ ht => ⟨ht, rfl⟩⟩,
      h.readFd, h.client⟩

end Inv

theorem ServerWatch.Started.inv {s : ServerWatch} (h : s.Started) : WatchInv s := by
  have hnone : ∀ conn fd, ¬Live s.loop conn fd := by
    rintro conn fd ⟨hmem, -⟩
    rw [h.loop.connList] at hmem
    exact List.not_mem_nil hmem
  have hread : s.loop.readFd ∈ s.loop.fds := by
    rw [h.loop.fds]
    exact Finset.mem_insert_of_mem (Finset.mem_singleton_self _)
  refine ⟨h.loop.inv, ⟨h.loop.inv.unwatched, hread, ?_⟩, ?_, ?_, h.loop.openFds hread,
    fun conn fd hl => absurd hl (hnone conn fd)⟩
  · intro fd hmem
    rw [h.loop.fds] at hmem
    rw [h.maxFd]
    rcases Finset.mem_insert.mp hmem with rfl | hmem
    · exact le_max_left _ _
    · rw [Finset.mem_singleton.mp hmem]
      exact le_max_right _ _
  · intro clientFd loaded hload
    rw [h.load] at hload
    cases hload
  · intro conn loaded hlock
    rw [h.fdLock] at hlock
    cases hlock

/-! ## 6. Who is watched -/

/-- Since its word was loaded an idle client has been added to it. -/
def Overtaken (s : ServerLoop) (loaded : Finset Nat) (fd : Nat) : Prop :=
  ∃ conn fd', Idle s conn fd' ∧ fd' / nfdbits = fd / nfdbits ∧ fd' ∉ loaded

/-- The next step is a store that is overtaken. -/
def Overtakes (s : ServerWatch) : WatchEvent → Prop
  | .store => ∃ clientFd loaded, s.load = some (clientFd, loaded) ∧
      Overtaken s.loop loaded clientFd
  | .set => ∃ conn loaded fd, s.fdLock = some (conn, loaded) ∧ s.loop.socket conn = some fd ∧
      Overtaken s.loop loaded fd
  | _ => False

def WatchUnraced (s : ServerWatch) (e : WatchEvent) : Prop :=
  ∀ e', e = .loop e' → Unraced s.loop e'

/-- No visit is raced, and no store is overtaken. -/
def Calm (s : ServerWatch) (e : WatchEvent) : Prop := WatchUnraced s e ∧ ¬Overtakes s e

/-- Who is idle is watched, and `select` looks at whom it watches, or is about to return. -/
structure WakeInv (s : ServerWatch) : Prop where
  watched : ∀ conn fd, Idle s.loop conn fd → fd ∈ s.loop.fds
  woken : ∀ snapshot, s.loop.point = .select snapshot →
    s.loop.readFd ∈ snapshot ∧ (s.loop.fds ⊆ snapshot ∨ 0 < s.pipe + s.notifying)

section Wake
variable {s : ServerWatch} (h : WatchInv s) (hw : WakeInv s)
include h hw

theorem loop_wakeInv {e : LoopEvent} (hfree : s.Free e) {r : ServerLoop × List LoopObs}
    (hstep : serverLoopStep s.loop e = some r) :
    WakeInv { s with loop := r.1, pipe := s.drained e } := by
  have hcases := serverLoopStep_cases hstep
  have hkeeps := hcases.keeps h.loop hfree.setsNothing
  constructor
  case watched =>
    intro conn fd hidle
    have hold := hkeeps.idle conn fd hidle
    rcases hkeeps.fds with heq | ⟨conn', fd', hl, ⟨t, ht, rfl⟩, heq⟩
    · show fd ∈ r.1.fds
      rw [heq]
      exact hw.watched conn fd hold
    · show fd ∈ r.1.fds
      rw [heq]
      refine Finset.mem_erase.mpr ⟨?_, hw.watched conn fd hold⟩
      rintro rfl
      exact hidle.2 t ht (h.loop.own t.1 conn fd hl hold.1)
  case woken =>
    intro snapshot hpoint
    cases hcases with
    | snapshot =>
      cases hpoint
      exact ⟨h.fds.readFd, .inl (Finset.Subset.refl _)⟩
    | @select _ rfds =>
      have hpoint' : (s.loop.selected rfds).point = .select snapshot := hpoint
      unfold ServerLoop.selected at hpoint'
      split_ifs at hpoint'
    | refused => cases hpoint
    | accept => exact hfree.elim
    | finish => cases hpoint
    | @visit rfds conn node =>
      have hpoint' : (s.loop.visited rfds conn node).1.point = .select snapshot := hpoint
      unfold ServerLoop.visited at hpoint'
      split at hpoint'
      · cases hpoint'
      · dsimp only at hpoint'
        split_ifs at hpoint'
    | dispatch => cases hpoint
    | close => exact hw.woken snapshot hpoint
    | mark => exact hw.woken snapshot hpoint
    | rearm => exact hfree.elim

theorem store_wakeInv {rfds loaded : Finset Nat} {clientFd : Nat}
    (hload : s.load = some (clientFd, loaded)) (hcalm : ¬Overtaken s.loop loaded clientFd) :
    WakeInv (s.stored rfds clientFd loaded) := by
  have haccepts := h.loop.accepts rfds clientFd
  constructor
  case watched =>
    intro conn fd hidle
    show fd ∈ fdSetStore s.loop.fds loaded clientFd
    rcases haccepts.idle conn fd hidle with hold | rfl
    · refine mem_fdSetStore_of_mem clientFd (hw.watched conn fd hold) fun hword => ?_
      by_contra hnot
      exact hcalm ⟨conn, fd, hold, hword, hnot⟩
    · exact self_mem_fdSetStore ..
  case woken =>
    intro snapshot hpoint
    have hpoint' : (s.loop.accepted rfds clientFd).point = .select snapshot := hpoint
    unfold ServerLoop.accepted at hpoint'
    split at hpoint' <;> cases hpoint'

omit h in
theorem set_wakeInv {conn : Ptr} {loaded : Finset Nat} (hlock : s.fdLock = some (conn, loaded))
    {fd : Nat} (hsocket : s.loop.socket conn = some fd) (hcalm : ¬Overtaken s.loop loaded fd) :
    WakeInv (s.setAgain conn loaded) := by
  have hfds : (s.setAgain conn loaded).loop.fds = fdSetStore s.loop.fds loaded fd := by
    simp only [ServerWatch.setAgain, hsocket]
  constructor
  case watched =>
    intro conn' fd' hidle
    rw [hfds]
    by_cases heq : conn' = conn
    · subst heq
      obtain rfl : fd = fd' := Option.some.inj (hsocket.symm.trans hidle.1.2.1)
      exact self_mem_fdSetStore ..
    · have hold : Idle s.loop conn' fd' := rearmed_idle hidle heq
      refine mem_fdSetStore_of_mem fd (hw.watched conn' fd' hold) fun hword => ?_
      by_contra hnot
      exact hcalm ⟨conn', fd', hold, hword, hnot⟩
  case woken =>
    intro snapshot hpoint
    refine ⟨(hw.woken snapshot hpoint).1, .inr ?_⟩
    show 0 < s.pipe + (s.notifying + 1)
    omega

theorem watchStep_wakeInv {e : WatchEvent} (hcalm : ¬Overtakes s e)
    {r : ServerWatch × List LoopObs} (hstep : watchStep s e = some r) : WakeInv r.1 := by
  cases watchStep_cases hstep with
  | loop hfree hloop => exact loop_wakeInv h hw hfree hloop
  | load => exact ⟨hw.watched, hw.woken⟩
  | @store rfds loaded clientFd _ hload =>
    exact store_wakeInv h hw hload fun hover => hcalm ⟨clientFd, loaded, hload, hover⟩
  | lock => exact ⟨hw.watched, hw.woken⟩
  | @set conn loaded hlock =>
    obtain ⟨-, fd, hsocket⟩ := h.loop.task _ (h.held conn loaded hlock).1
    exact set_wakeInv hw hlock hsocket fun hover => hcalm ⟨conn, loaded, fd, hlock, hsocket, hover⟩
  | notify hnotify =>
    refine ⟨hw.watched, fun snapshot hpoint => ?_⟩
    obtain ⟨hread, hwake⟩ := hw.woken snapshot hpoint
    refine ⟨hread, hwake.imp_right fun _ => ?_⟩
    show 0 < s.pipe + 1 + (s.notifying - 1)
    omega

omit hw in
/-- The bit that a store has overtaken is undone, and nobody serves its client. -/
theorem overtakes_unwatched {e : WatchEvent} (hover : Overtakes s e)
    {r : ServerWatch × List LoopObs} (hstep : watchStep s e = some r) :
    ∃ conn fd, Idle r.1.loop conn fd ∧ fd ∉ r.1.loop.fds := by
  cases watchStep_cases hstep with
  | loop => exact hover.elim
  | load => exact hover.elim
  | @store rfds loaded clientFd _ hload =>
    obtain ⟨clientFd', loaded', hload', conn, fd, hidle, hword, hnot⟩ := hover
    obtain ⟨rfl, rfl⟩ := Prod.mk.inj (Option.some.inj (hload'.symm.trans hload))
    have hnew := (h.load _ _ hload).2.1
    exact ⟨conn, fd, (h.loop.accepts rfds _).stays conn fd hidle,
      notMem_fdSetStore (new_ne h.loop hnew hidle.1) hword hnot⟩
  | lock => exact hover.elim
  | @set conn loaded hlock =>
    obtain ⟨conn', loaded', fd, hlock', hsocket, conn₁, fd₁, hidle, hword, hnot⟩ := hover
    obtain ⟨rfl, rfl⟩ := Prod.mk.inj (Option.some.inj (hlock'.symm.trans hlock))
    have htask := (h.held _ _ hlock).1
    have hne : fd₁ ≠ fd := by
      rintro rfl
      have heq := h.loop.own _ _ fd₁ (serving_live h.loop htask hsocket) hidle.1
      exact hidle.2 _ htask heq
    refine ⟨conn₁, fd₁, idle_rearmed hidle, ?_⟩
    simp only [ServerWatch.setAgain, hsocket]
    exact notMem_fdSetStore hne hword hnot
  | notify => exact hover.elim

end Wake

theorem watch_inv {s : ServerWatch}
    (h : Reachable watchStep WatchUnraced ServerWatch.Started s) : WatchInv s :=
  h.invariant (P := WatchInv) (fun _ hs => hs.inv)
    fun _ _ _ hinv hallow hstep => watchStep_inv hinv hallow hstep

theorem wake_inv {s : ServerWatch} (h : Reachable watchStep Calm ServerWatch.Started s) :
    WatchInv s ∧ WakeInv s := by
  apply h.invariant (P := fun s => WatchInv s ∧ WakeInv s)
  · intro s hs
    refine ⟨hs.inv, ?_, ?_⟩
    · rintro conn fd ⟨⟨hmem, -⟩, -⟩
      rw [hs.loop.connList] at hmem
      exact absurd hmem List.not_mem_nil
    · intro snapshot hpoint
      rw [hs.loop.point] at hpoint
      cases hpoint
  · rintro s e r ⟨hinv, hwake⟩ ⟨hallow, hcalm⟩ hstep
    exact ⟨watchStep_inv hinv hallow hstep, watchStep_wakeInv hinv hwake hcalm hstep⟩

/-- `select` can return as soon as there is a byte. -/
theorem WakeInv.returns {s : ServerWatch} (h : WatchInv s) (hw : WakeInv s) {snapshot : Finset Nat}
    (hpoint : s.loop.point = .select snapshot) (hpipe : 0 < s.pipe) :
    ∃ r, watchStep s (.loop (.select {s.loop.readFd})) = some r ∧ r.1.loop.point = .snapshot := by
  have hfree : s.Free (.select {s.loop.readFd}) := by
    refine ⟨iff_of_true (Finset.mem_singleton_self _) hpipe, ?_⟩
    intro fd hmem
    rw [Finset.mem_singleton.mp hmem]
    exact h.fds.bound _ h.fds.readFd
  have hsub : ({s.loop.readFd} : Finset Nat) ⊆ snapshot :=
    Finset.singleton_subset_iff.mpr (hw.woken snapshot hpoint).1
  have hstep := (LoopStep.select hpoint hsub).eq
  refine ⟨_, (if_pos hfree).trans (by rw [hstep]; rfl), ?_⟩
  simp [ServerLoop.selected]

/-- **No client is forgotten.**  In a run in which no visit is raced and no store is overtaken,
    whoever is connected and not served is watched, below `max_fd`; when `select` does not look at
    all that is watched, a byte is in the pipe or a worker is about to write one; and a byte lets
    `select` return to a new copy.  The first store that is overtaken breaks this: it leaves a
    client that is neither served nor watched. -/
theorem serverWatch_woken {s : ServerWatch}
    (h : Reachable watchStep Calm ServerWatch.Started s) :
    (∀ conn fd, Idle s.loop conn fd → fd ∈ s.loop.fds ∧ fd ≤ s.maxFd) ∧
    (∀ snapshot, s.loop.point = .select snapshot →
      (s.loop.fds ⊆ snapshot ∨ 0 < s.pipe + s.notifying) ∧
      (0 < s.pipe → ∃ r, watchStep s (.loop (.select {s.loop.readFd})) = some r ∧
        r.1.loop.point = .snapshot)) ∧
    ∀ e r, Overtakes s e → watchStep s e = some r →
      ∃ conn fd, Idle r.1.loop conn fd ∧ fd ∉ r.1.loop.fds := by
  obtain ⟨hinv, hwake⟩ := wake_inv h
  refine ⟨?_, ?_, ?_⟩
  · intro conn fd hidle
    exact ⟨hwake.watched conn fd hidle, (hinv.client conn fd hidle.1).2⟩
  · intro snapshot hpoint
    exact ⟨(hwake.woken snapshot hpoint).2, fun hpipe => hwake.returns hinv hpoint hpipe⟩
  · intro e r hover hstep
    exact overtakes_unwatched hinv hover hstep

/-! ## 7. Who is lost -/

/-- An idle client whose bit is in no copy of the set. -/
structure Lost (s : ServerWatch) (conn : Ptr) (fd : Nat) : Prop where
  idle : Idle s.loop conn fd
  fds : fd ∉ s.loop.fds
  load : ∀ clientFd loaded, s.load = some (clientFd, loaded) → fd ∉ loaded
  held : ∀ conn' loaded, s.fdLock = some (conn', loaded) → fd ∉ loaded
  point : fd ∉ s.loop.point.fds
  next : ∀ rfds node, s.loop.point ≠ .dispatch rfds conn node

section Lost
variable {s : ServerWatch} (h : WatchInv s) {conn : Ptr} {fd : Nat} (hl : Lost s conn fd)
include h hl

omit h in
/-- The main loop finds the client in no set, and hands it over to nobody. -/
theorem loop_lostPoint {e : LoopEvent} (he : SetsNothing e) {r : ServerLoop × List LoopObs}
    (hstep : LoopStep s.loop e r) :
    fd ∉ r.1.point.fds ∧ ∀ rfds node, r.1.point ≠ .dispatch rfds conn node := by
  have hpointFds := hl.point
  cases hstep with
  | snapshot => exact ⟨hl.fds, nofun⟩
  | @select snapshot rfds hpoint hrfds =>
    rw [hpoint] at hpointFds
    have hnot : fd ∉ rfds := fun hmem => hpointFds (hrfds hmem)
    unfold ServerLoop.selected
    split_ifs
    · exact ⟨Finset.notMem_empty fd, nofun⟩
    · exact ⟨Finset.notMem_empty fd, nofun⟩
    · exact ⟨hnot, nofun⟩
    · exact ⟨hnot, nofun⟩
  | refused => exact ⟨Finset.notMem_empty fd, nofun⟩
  | accept => exact he.elim
  | finish => exact ⟨Finset.notMem_empty fd, nofun⟩
  | @visit rfds conn' node hpoint =>
    rw [hpoint] at hpointFds
    cases hsocket : s.loop.socket conn' with
    | none =>
      rw [ServerLoop.visited_none hsocket]
      exact ⟨hpointFds, nofun⟩
    | some fd' =>
      rw [ServerLoop.visited_some hsocket]
      dsimp only
      split_ifs with hset
      · refine ⟨hpointFds, ?_⟩
        intro rfds' node' heq
        cases heq
        obtain rfl : fd' = fd := Option.some.inj (hsocket.symm.trans hl.idle.1.2.1)
        exact hpointFds hset
      · exact ⟨hpointFds, nofun⟩
  | dispatch hpoint =>
    rw [hpoint] at hpointFds
    exact ⟨hpointFds, nofun⟩
  | close => exact ⟨hl.point, hl.next⟩
  | mark => exact ⟨hl.point, hl.next⟩
  | rearm => exact he.elim

theorem watchStep_lost {e : WatchEvent} {r : ServerWatch × List LoopObs}
    (hstep : watchStep s e = some r) : Lost r.1 conn fd := by
  cases watchStep_cases hstep with
  | @loop e' r' hfree hloop =>
    have hcases := serverLoopStep_cases hloop
    have hkeeps := hcases.keeps h.loop hfree.setsNothing
    obtain ⟨hpoint, hnext⟩ := loop_lostPoint hl hfree.setsNothing hcases
    refine ⟨hkeeps.stays conn fd hl.idle hl.next, ?_, hl.load, hl.held, hpoint, hnext⟩
    show fd ∉ r'.1.fds
    rcases hkeeps.fds with heq | ⟨conn', fd', -, -, heq⟩
    · rw [heq]
      exact hl.fds
    · rw [heq]
      exact fun hmem => hl.fds (Finset.mem_of_mem_erase hmem)
  | load hpoint _ hnew =>
    refine ⟨hl.idle, hl.fds, ?_, hl.held, hl.point, hl.next⟩
    intro clientFd' loaded heq
    obtain ⟨-, rfl⟩ := Prod.mk.inj (Option.some.inj heq)
    exact hl.fds
  | @store rfds loaded clientFd hpoint hload =>
    have hnew := (h.load clientFd loaded hload).2.1
    have hne : fd ≠ clientFd := new_ne h.loop hnew hl.idle.1
    have hpointFds := hl.point
    rw [hpoint] at hpointFds
    refine ⟨(h.loop.accepts rfds clientFd).stays conn fd hl.idle, ?_, nofun, hl.held, ?_, ?_⟩
    · intro hmem
      rcases of_mem_fdSetStore hmem with heq | hmem | hmem
      · exact hne heq
      · exact hl.fds hmem
      · exact hl.load clientFd loaded hload hmem
    · show fd ∉ (s.loop.accepted rfds clientFd).point.fds
      unfold ServerLoop.accepted
      split <;> exact hpointFds
    · intro rfds' node'
      show (s.loop.accepted rfds clientFd).point ≠ _
      unfold ServerLoop.accepted
      split <;> nofun
  | lock =>
    refine ⟨hl.idle, hl.fds, hl.load, ?_, hl.point, hl.next⟩
    intro conn' loaded heq
    obtain ⟨-, rfl⟩ := Prod.mk.inj (Option.some.inj heq)
    exact hl.fds
  | @set conn' loaded hlock =>
    have htask := (h.held conn' loaded hlock).1
    obtain ⟨-, fd', hsocket⟩ := h.loop.task _ htask
    have hne : fd ≠ fd' := by
      rintro rfl
      exact hl.idle.2 _ htask (h.loop.own _ _ fd (serving_live h.loop htask hsocket) hl.idle.1)
    refine ⟨idle_rearmed hl.idle, ?_, hl.load, nofun, hl.point, hl.next⟩
    simp only [ServerWatch.setAgain, hsocket]
    intro hmem
    rcases of_mem_fdSetStore hmem with heq | hmem | hmem
    · exact hne heq
    · exact hl.fds hmem
    · exact hl.held conn' loaded hlock hmem
  | notify => exact ⟨hl.idle, hl.fds, hl.load, hl.held, hl.point, hl.next⟩

end Lost

/-- Two connection objects, and nobody connected. -/
def ServerWatch.two : ServerWatch := ⟨.two, none, none, 0, 0, 4⟩

theorem serverWatch_two_started : ServerWatch.two.Started :=
  ⟨⟨by decide, rfl, rfl, rfl, by decide, rfl⟩, rfl, rfl, rfl, rfl, by decide⟩

/-- Where everybody is served nothing can be overtaken. -/
theorem calm_of_serving {s : ServerWatch} {e : WatchEvent}
    (hclosed : ∀ t ∈ s.loop.tasks, t.2 = .serving)
    (hserved : e = .store ∨ e = .set → ∀ conn ∈ s.loop.connList, conn ∈ s.loop.tasks.map Prod.fst) :
    Calm s e := by
  have hnone : NoneClosed s.loop := fun conn ht => absurd (hclosed _ ht) (by simp)
  have hbusy : e = .store ∨ e = .set → ∀ conn fd, ¬Idle s.loop conn fd := by
    rintro he conn fd ⟨⟨hmem, -⟩, htasks⟩
    obtain ⟨t, ht, heq⟩ := List.mem_map.mp (hserved he conn hmem)
    exact htasks t ht heq
  refine ⟨fun e' _ => hnone.unraced e', ?_⟩
  intro hover
  cases e with
  | store =>
    obtain ⟨-, -, -, conn, fd, hidle, -⟩ := hover
    exact hbusy (.inl rfl) conn fd hidle
  | set =>
    obtain ⟨-, -, -, -, -, conn, fd, hidle, -⟩ := hover
    exact hbusy (.inr rfl) conn fd hidle
  | _ => exact hover

/-- The client is watched again while the main loop is in `select`, and a byte tells it so. -/
theorem serverWatch_woken_one :
    ∃ s, Reachable watchStep Calm ServerWatch.Started s ∧ s.loop.point = .select {3, 4} ∧
      s.loop.fds = {3, 4, 5} ∧ s.pipe = 1 ∧
      ∃ r, watchStep s (.loop (.select {4})) = some r ∧ r.1.loop.point = .snapshot := by
  have hstart : Reachable watchStep Calm ServerWatch.Started ServerWatch.two :=
    .init serverWatch_two_started
  have hnext : ∀ {s e r}, Reachable watchStep Calm ServerWatch.Started s →
      (∀ t ∈ s.loop.tasks, t.2 = .serving) →
      (e = .store ∨ e = .set → ∀ conn ∈ s.loop.connList, conn ∈ s.loop.tasks.map Prod.fst) →
      watchStep s e = some r → Reachable watchStep Calm ServerWatch.Started r.1 :=
    fun h hclosed hserved hstep => h.step (calm_of_serving hclosed hserved) hstep
  have haccept := hnext (e := .load 5) (hnext (e := .loop (.select {3}))
    (hnext (e := .loop .snapshot) hstart (by decide) (by decide) rfl) (by decide) (by decide) rfl)
    (by decide) (by decide) rfl
  have hstored := hnext (e := .store) haccept (by decide) (by decide) rfl
  have hvisited := hnext (e := .loop .visit) (hnext (e := .loop .visit) hstored (by decide)
    (by decide) rfl) (by decide) (by decide) rfl
  have hselected := hnext (e := .loop (.select {5})) (hnext (e := .loop .snapshot) hvisited
    (by decide) (by decide) rfl) (by decide) (by decide) rfl
  have hserved := hnext (e := .loop .dispatch) (hnext (e := .loop .visit) hselected (by decide)
    (by decide) rfl) (by decide) (by decide) rfl
  have hagain := hnext (e := .loop .snapshot) (hnext (e := .loop .visit) hserved (by decide)
    (by decide) rfl) (by decide) (by decide) rfl
  have hset := hnext (e := .set) (hnext (e := .lock 100) hagain (by decide) (by decide) rfl)
    (by decide) (by decide) rfl
  have hnotified := hnext (e := .notify) hset (by decide) (by decide) rfl
  refine ⟨_, hnotified, rfl, by decide, rfl, ?_⟩
  exact ((serverWatch_woken hnotified).2.1 _ rfl).2 (by decide)

/-- The main loop has loaded the word for a second client when the worker of the first one stores
    it. -/
def overtakenEvents : List WatchEvent :=
  [.loop .snapshot, .loop (.select {3}), .load 5, .store, .loop .visit, .loop .visit,
    .loop .snapshot, .loop (.select {5}), .loop .visit, .loop .dispatch, .loop .visit,
    .loop .snapshot, .loop (.select {3}), .load 6, .lock 100, .set, .store]

theorem allowed_of_noClose {es : List WatchEvent} {s : ServerWatch} (h : NoneClosed s.loop)
    (hes : ∀ conn, .loop (.close conn) ∉ es) : Run.Allowed watchStep WatchUnraced es s := by
  refine allowed_of_invariant (P := fun s => NoneClosed s.loop) ?_ ?_ h
  · exact fun s e _ hnone e' _ => hnone.unraced e'
  · intro s e hmem r hnone hstep
    cases watchStep_cases hstep with
    | @loop e' _ _ hloop =>
      refine hnone.step ?_ hloop
      rintro conn rfl
      exact hes conn hmem
    | load => exact hnone
    | @store rfds _ clientFd =>
      show NoneClosed { s.loop.accepted rfds clientFd with fds := _ }
      unfold ServerLoop.accepted
      split <;> exact hnone
    | lock => exact hnone
    | set => exact fun conn ht => hnone conn (List.mem_of_mem_erase ht)
    | notify => exact hnone

end OServer
