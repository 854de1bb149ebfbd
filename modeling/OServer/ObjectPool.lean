/-
  OServer/ObjectPool.lean
  =======================
  **The pool of objects of one size (`object_pool.c`).**

  The pool gets its memory in blocks and cuts them into objects; the objects that are
  not handed out are linked through their first word.  Addresses are those of bytes.

  `object_pool_create` goes from one object to the next by their size.  In
  `object_pool_expand` the objects are the elements of an array of `object_t`, so that
  they are `sizeof(object_t)` apart, whatever their size is.

    * `objectPoolStep_kept`  — what every operation keeps: the free list is intact, no
                               object is on it or handed out twice, and each lies in a
                               block;
    * `objectPool_disjoint`  — the objects are disjoint and all there exactly if every
                               expansion is by one object or the objects are no larger
                               than their link word.
-/
import Mathlib.Algebra.GroupWithZero.Nat
import OServer.Heap
import OServer.Lib.Run

namespace OServer

/-! ## 1. The operations -/

/-- `sizeof(object_t)` -/
def sizeofObject : Nat := 8
/-- `sizeof(memory_t)` -/
def sizeofMemory : Nat := 8
/-- `INT_MAX` -/
def intMax : Nat := 2147483647

/-- `object_pool_t`; the words it points to are in the heap. -/
structure ObjectPool where
  availableObjects : Option Ptr
  objectSize : Nat
  memptr : Option Ptr
deriving DecidableEq

namespace Heap

/-- The loop of `object_pool_create`: every object is linked to what follows it in memory, up to
    the one at `last`. -/
def createLoop (size : Nat) (last : Ptr) : Nat → Heap → Ptr → Heap × Ptr
  | 0, m, mem => (m, mem)
  | fuel + 1, m, mem =>
      if mem < last then createLoop size last fuel (m.setNext mem (some (mem + size))) (mem + size)
      else (m, mem)

/-- `malloc` has returned `mem`.  `none` where `size * num` overflows. -/
def objectPoolCreate (m : Heap) (size num : Nat) (mem : Ptr) : Option (Heap × ObjectPool) :=
  if size * num ≤ intMax then
    let len := size * num
    let m := m.setNext mem none
    let objects := mem + sizeofMemory
    let r := createLoop size (objects + len - size) len m objects
    some (r.1.setNext r.2 none,
      { availableObjects := some objects, objectSize := size, memptr := some mem })
  else none

def objectPoolAcquire (m : Heap) (op : ObjectPool) : ObjectPool × Option Ptr :=
  match op.availableObjects with
  | none => (op, none)
  | some ob => ({ op with availableObjects := m.next ob }, some ob)

def objectPoolReturn (m : Heap) (op : ObjectPool) (ob : Ptr) : Heap × ObjectPool :=
  match op.availableObjects with
  | none => (m.setNext ob none, { op with availableObjects := some ob })
  | some available => (m.setNext ob (some available), { op with availableObjects := some ob })

/-- The loop of `object_pool_expand` up to the `i`-th element of `optr`. -/
def expandLoop (m : Heap) (optr : Ptr) : Nat → Heap
  | 0 => m
  | i + 1 =>
      (expandLoop m optr i).setNext (optr + i * sizeofObject) (some (optr + (i + 1) * sizeofObject))

/-- `malloc` has returned `mem`.  `none` where `op->object_size * num` overflows. -/
def objectPoolExpand (m : Heap) (op : ObjectPool) (num : Nat) (mem : Ptr) :
    Option (Heap × ObjectPool) :=
  if op.objectSize * num ≤ intMax then
    let m := m.setNext mem op.memptr
    let optr := mem + sizeofMemory
    let m := expandLoop m optr (num - 1)
    some (m.setNext (optr + (num - 1) * sizeofObject) op.availableObjects,
      { op with availableObjects := some optr, memptr := some mem })
  else none

end Heap

/-! ## 2. Runs -/

/-- What `malloc` has returned, and how much of it there is. -/
structure Block where
  addr : Nat
  size : Nat
deriving DecidableEq

/-- A pool, its memory, and the objects that its user has got from it. -/
structure PoolState where
  heap : Heap
  pool : ObjectPool
  blocks : List Block
  handedOut : List Ptr

inductive PoolOp where
  | create (num : Nat) (mem : Ptr)
  | acquire
  | giveBack (ob : Ptr)
  | expand (num : Nat) (mem : Ptr)

/-- The observation is what `object_pool_acquire` returns. -/
def objectPoolStep (size : Nat) (s : PoolState) : PoolOp → Option (PoolState × List (Option Ptr))
  | .create num mem => do
      let r ← s.heap.objectPoolCreate size num mem
      let block : Block := ⟨mem, size * num + sizeofMemory⟩
      some ({ s with heap := r.1, pool := r.2, blocks := block :: s.blocks }, [])
  | .acquire =>
      let r := s.heap.objectPoolAcquire s.pool
      some ({ s with pool := r.1, handedOut := r.2.toList ++ s.handedOut }, [r.2])
  | .giveBack ob =>
      let r := s.heap.objectPoolReturn s.pool ob
      some ({ s with heap := r.1, pool := r.2, handedOut := s.handedOut.erase ob }, [])
  | .expand num mem => do
      let r ← s.heap.objectPoolExpand s.pool num mem
      let block : Block := ⟨mem, s.pool.objectSize * num + sizeofMemory⟩
      some ({ s with heap := r.1, pool := r.2, blocks := block :: s.blocks }, [])

/-- `n` bytes from `p` and `k` bytes from `q` have nothing in common. -/
def Apart (p n q k : Nat) : Prop := p + n ≤ q ∨ q + k ≤ p

instance (p n q k : Nat) : Decidable (Apart p n q k) := inferInstanceAs (Decidable (_ ∨ _))

/-- What the user and `malloc` are trusted with: at least one object is asked for, a block has
    nothing in common with the others, and only what is handed out is given back. -/
def PoolOp.Proper (size : Nat) (s : PoolState) : PoolOp → Prop
  | .create num mem =>
      1 ≤ num ∧ ∀ b ∈ s.blocks, Apart mem (size * num + sizeofMemory) b.addr b.size
  | .acquire => True
  | .giveBack ob => ob ∈ s.handedOut
  | .expand num mem =>
      1 ≤ num ∧ ∀ b ∈ s.blocks, Apart mem (size * num + sizeofMemory) b.addr b.size

instance (size : Nat) (s : PoolState) : (op : PoolOp) → Decidable (op.Proper size s)
  | .create .. => inferInstanceAs (Decidable (_ ∧ _))
  | .acquire => inferInstanceAs (Decidable True)
  | .giveBack ob => inferInstanceAs (Decidable (ob ∈ s.handedOut))
  | .expand .. => inferInstanceAs (Decidable (_ ∧ _))

def PoolOp.count : PoolOp → Nat
  | .create num _ | .expand num _ => num
  | .acquire | .giveBack _ => 0

/-- The objects are disjoint, lie in the blocks, and there are `total` of them. -/
def PoolOk (size total : Nat) (s : PoolState) : Prop :=
  ∃ free, Linked s.heap.next s.pool.availableObjects free none ∧
    (free ++ s.handedOut).Pairwise (fun p q => Apart p size q size) ∧
    (∀ p ∈ free ++ s.handedOut, ∃ b ∈ s.blocks, b.addr ≤ p ∧ p + size ≤ b.addr + b.size) ∧
    (free ++ s.handedOut).length = total

/-- No expansion by several objects that are larger than their link word, no size that overflows,
    and no second creation while there are free objects. -/
def PoolOp.Meets (size : Nat) (s : PoolState) : PoolOp → Prop
  | .create num _ => size * num ≤ intMax ∧ (s.blocks = [] ∨ s.pool.availableObjects = none)
  | .acquire => True
  | .giveBack _ => True
  | .expand num _ => size * num ≤ intMax ∧ (num = 1 ∨ size = sizeofObject)

/-! ## 3. How the blocks are cut -/

/-- `n` objects, `stride` bytes from one to the next. -/
def objectsFrom (stride : Nat) : Nat → Nat → List Ptr
  | 0, _ => []
  | n + 1, p => p :: objectsFrom stride n (p + stride)

section ObjectsFrom
variable {stride n p q : Nat}

theorem length_objectsFrom (stride n p : Nat) : (objectsFrom stride n p).length = n := by
  induction n generalizing p with
  | zero => rfl
  | succ n ih => simp [objectsFrom, ih]

theorem mem_objectsFrom : q ∈ objectsFrom stride n p ↔ ∃ i < n, q = p + i * stride := by
  induction n generalizing p with
  | zero => simp [objectsFrom]
  | succ n ih =>
    rw [objectsFrom, List.mem_cons, ih]
    constructor
    · rintro (rfl | ⟨i, hi, rfl⟩)
      · exact ⟨0, by omega, by simp⟩
      · exact ⟨i + 1, by omega, by rw [Nat.succ_mul]; omega⟩
    · rintro ⟨i, hi, rfl⟩
      cases i with
      | zero => exact .inl (by simp)
      | succ i => exact .inr ⟨i, by omega, by rw [Nat.succ_mul]; omega⟩

theorem objectsFrom_snoc (stride n p : Nat) :
    objectsFrom stride (n + 1) p = objectsFrom stride n p ++ [p + n * stride] := by
  induction n generalizing p with
  | zero => simp [objectsFrom]
  | succ n ih =>
    rw [objectsFrom, ih, objectsFrom, List.cons_append]
    congr 3
    rw [Nat.succ_mul]
    omega

/-- The last object does not lie among the others. -/
theorem last_notMem_objectsFrom (hstride : 0 < stride) : p + n * stride ∉ objectsFrom stride n p := by
  intro hmem
  obtain ⟨i, hi, heq⟩ := mem_objectsFrom.mp hmem
  have hlt : i * stride < n * stride := Nat.mul_lt_mul_of_pos_right hi hstride
  omega

/-- Objects that fit between one address and the next are disjoint. -/
theorem objectsFrom_apart (stride n p : Nat) :
    (objectsFrom stride n p).Pairwise fun p q => Apart p stride q stride := by
  induction n generalizing p with
  | zero => exact .nil
  | succ n ih =>
    refine List.pairwise_cons.mpr ⟨?_, ih _⟩
    intro q hq
    obtain ⟨i, -, rfl⟩ := mem_objectsFrom.mp hq
    exact .inl (Nat.le_add_right _ _)

theorem nodup_objectsFrom (hstride : 0 < stride) : (objectsFrom stride n p).Nodup := by
  refine (objectsFrom_apart stride n p).imp ?_
  rintro p q hapart rfl
  unfold Apart at hapart
  omega

/-- All the objects lie in the block that they are cut from. -/
theorem objectsFrom_inside {size num mem : Nat} (hstride : stride ≤ size)
    (hq : q ∈ objectsFrom stride num (mem + sizeofMemory)) :
    mem + sizeofMemory ≤ q ∧ q + size ≤ mem + (size * num + sizeofMemory) := by
  obtain ⟨i, hi, rfl⟩ := mem_objectsFrom.mp hq
  have hle : i * stride ≤ i * size := Nat.mul_le_mul_left i hstride
  have hlast : (i + 1) * size ≤ num * size := Nat.mul_le_mul_right size hi
  rw [Nat.succ_mul] at hlast
  rw [Nat.mul_comm size num]
  omega

end ObjectsFrom

namespace Heap

variable {size num mem : Nat}

theorem createLoop_linked (hsize : 0 < size) {n fuel : Nat} (hfuel : n ≤ fuel) (m : Heap)
    (p : Nat) :
    ∃ m', createLoop size (p + n * size) fuel m p = (m', p + n * size) ∧
      Linked m'.next (some p) (objectsFrom size n p) (some (p + n * size)) ∧
      SameOutside (objectsFrom size n p) m m' := by
  induction fuel generalizing n m p with
  | zero =>
    obtain rfl : n = 0 := by omega
    refine ⟨m, by simp [createLoop], by simp [objectsFrom], SameOutside.refl _ m⟩
  | succ fuel ih =>
    cases n with
    | zero => exact ⟨m, by simp [createLoop], by simp [objectsFrom], SameOutside.refl _ m⟩
    | succ n =>
      have hlast : p + (n + 1) * size = p + size + n * size := by
        rw [Nat.succ_mul]
        omega
      have hlt : p < p + size + n * size := by omega
      rcases ih (n := n) (by omega) (m.setNext p (some (p + size))) (p + size) with
        ⟨m', hloop, hlinked, hsame⟩
      have hp : p ∉ objectsFrom size n (p + size) := by
        intro hmem
        obtain ⟨i, -, heq⟩ := mem_objectsFrom.mp hmem
        omega
      rw [hlast]
      refine ⟨m', ?_, ⟨rfl, ?_⟩, ?_⟩
      · rw [createLoop, if_pos hlt]
        exact hloop
      · rw [hsame p hp, setNext_next, Function.update_self]
        exact hlinked
      · intro q hq
        obtain ⟨hne, hq⟩ := not_or.mp (mt List.mem_cons.mpr hq)
        rw [hsame q hq, setNext_next, Function.update_of_ne hne]

theorem expandLoop_linked (m : Heap) (optr i : Nat) :
    Linked (m.expandLoop optr i).next (some optr) (objectsFrom sizeofObject i optr)
        (some (optr + i * sizeofObject)) ∧
      SameOutside (objectsFrom sizeofObject i optr) m (m.expandLoop optr i) := by
  induction i with
  | zero => exact ⟨by simp [objectsFrom], SameOutside.refl _ m⟩
  | succ i ih =>
    obtain ⟨hlinked, hsame⟩ := ih
    rw [objectsFrom_snoc]
    constructor
    · refine Linked.append_iff.mpr ⟨_, hlinked.update ?_, rfl, Function.update_self ..⟩
      exact last_notMem_objectsFrom (by decide)
    · apply SameOutside.setNext
      · intro q hq
        exact hsame q fun hmem => hq (List.mem_append_left _ hmem)
      · exact List.mem_append_right _ List.mem_cons_self

/-- A new pool: all its objects are free. -/
theorem objectPoolCreate_linked (hsize : 0 < size) (hnum : 1 ≤ num) (hlen : size * num ≤ intMax)
    (m : Heap) (mem : Nat) :
    ∃ m', m.objectPoolCreate size num mem = some (m', ⟨some (mem + sizeofMemory), size, some mem⟩) ∧
      Linked m'.next (some (mem + sizeofMemory)) (objectsFrom size num (mem + sizeofMemory)) none := by
  obtain ⟨n, rfl⟩ : ∃ n, num = n + 1 := ⟨num - 1, by omega⟩
  have hlast : mem + sizeofMemory + size * (n + 1) - size = mem + sizeofMemory + n * size := by
    rw [Nat.mul_succ, Nat.mul_comm size n]
    omega
  have hfuel : n ≤ size * (n + 1) := by
    have hle := Nat.mul_le_mul_right (n + 1) hsize
    omega
  rcases createLoop_linked hsize hfuel (m.setNext mem none) (mem + sizeofMemory) with
    ⟨m', hloop, hlinked, -⟩
  refine ⟨m'.setNext (mem + sizeofMemory + n * size) none, ?_, ?_⟩
  · simp only [objectPoolCreate, if_pos hlen, hlast, hloop]
  · rw [objectsFrom_snoc]
    refine Linked.append_iff.mpr ⟨_, hlinked.update ?_, rfl, Function.update_self ..⟩
    exact last_notMem_objectsFrom hsize

/-- More objects for a pool: they come before the free ones. -/
theorem objectPoolExpand_linked {op : ObjectPool} {free : List Ptr} {m : Heap} (hnum : 1 ≤ num)
    (hlen : op.objectSize * num ≤ intMax) (hfree : Linked m.next op.availableObjects free none)
    (hmem : mem ∉ free)
    (hnew : ∀ p ∈ free, p ∉ objectsFrom sizeofObject num (mem + sizeofMemory)) :
    ∃ m', m.objectPoolExpand op num mem =
        some (m', { op with availableObjects := some (mem + sizeofMemory), memptr := some mem }) ∧
      Linked m'.next (some (mem + sizeofMemory))
        (objectsFrom sizeofObject num (mem + sizeofMemory) ++ free) none := by
  obtain ⟨n, rfl⟩ : ∃ n, num = n + 1 := ⟨num - 1, by omega⟩
  rw [objectsFrom_snoc] at hnew ⊢
  obtain ⟨hlinked, hsame⟩ :=
    (m.setNext mem op.memptr).expandLoop_linked (mem + sizeofMemory) n
  refine ⟨_, if_pos hlen, ?_⟩
  have hfree' : Linked ((m.setNext mem op.memptr).expandLoop (mem + sizeofMemory) n).next
      op.availableObjects free none := by
    apply hsame.linked (hfree.update hmem)
    intro p hp hin
    exact hnew p hp (List.mem_append_left _ hin)
  rw [List.append_assoc]
  refine Linked.append_iff.mpr ⟨_, hlinked.update (last_notMem_objectsFrom (by decide)), rfl, ?_⟩
  rw [setNext_next, Nat.add_sub_cancel, Function.update_self]
  apply hfree'.update
  intro hin
  exact hnew _ hin (List.mem_append_right _ List.mem_cons_self)

end Heap

/-! ## 4. What every operation keeps -/

theorem Apart.symm {n p q : Nat} (h : Apart p n q n) : Apart q n p n := Or.symm h

/-- The objects are disjoint. -/
def AllApart (size : Nat) (l : List Ptr) : Prop := l.Pairwise fun p q => Apart p size q size

theorem AllApart.perm {size : Nat} {l l' : List Ptr} (h : l.Perm l') :
    AllApart size l ↔ AllApart size l' := h.pairwise_iff Apart.symm

/-- The object `p` lies in one of the blocks, behind its `memory_t`. -/
def InBlock (size : Nat) (blocks : List Block) (p : Nat) : Prop :=
  ∃ b ∈ blocks, b.addr + sizeofMemory ≤ p ∧ p + size ≤ b.addr + b.size

/-- Whatever the operations are: the free list leads through the objects that are not handed out,
    and there is none twice. -/
structure PoolInv (size : Nat) (s : PoolState) (free : List Ptr) : Prop where
  objectSize : s.pool.objectSize = size
  linked : Linked s.heap.next s.pool.availableObjects free none
  nodup : (free ++ s.handedOut).Nodup
  inside : ∀ p ∈ free ++ s.handedOut, InBlock size s.blocks p

/-- The objects after an operation. -/
def PoolOp.objects (size : Nat) (free handedOut : List Ptr) : PoolOp → List Ptr
  | .create num mem => objectsFrom size num (mem + sizeofMemory) ++ handedOut
  | .acquire | .giveBack _ => free ++ handedOut
  | .expand num mem => objectsFrom sizeofObject num (mem + sizeofMemory) ++ (free ++ handedOut)

section Kept
variable {size num mem : Nat} {s : PoolState} {free : List Ptr}

/-- A new block has nothing in common with the objects in the old ones. -/
theorem new_apart {blocks : List Block} {p q len : Nat}
    (hfresh : ∀ b ∈ blocks, Apart mem len b.addr b.size) (hp : mem ≤ p) (hp' : p + size ≤ mem + len)
    (hq : InBlock size blocks q) : Apart p size q size := by
  obtain ⟨b, hb, hq, hq'⟩ := hq
  have hapart := hfresh b hb
  unfold Apart at hapart ⊢
  omega

theorem InBlock.cons {blocks : List Block} {p : Nat} (b : Block) (h : InBlock size blocks p) :
    InBlock size (b :: blocks) p := by
  obtain ⟨b', hb', h⟩ := h
  exact ⟨b', List.mem_cons_of_mem b hb', h⟩

/-- New objects, cut from a new block, next to old ones. -/
theorem newObjects_kept {stride : Nat} {blocks : List Block} {old : List Ptr}
    (hstride : 0 < stride) (hsize : stride ≤ size)
    (hfresh : ∀ b ∈ blocks, Apart mem (size * num + sizeofMemory) b.addr b.size)
    (hold : ∀ p ∈ old, InBlock size blocks p) (hnodup : old.Nodup) :
    (objectsFrom stride num (mem + sizeofMemory) ++ old).Nodup ∧
      ∀ p ∈ objectsFrom stride num (mem + sizeofMemory) ++ old,
        InBlock size (⟨mem, size * num + sizeofMemory⟩ :: blocks) p := by
  constructor
  · refine List.nodup_append.mpr ⟨nodup_objectsFrom hstride, hnodup, ?_⟩
    rintro p hp q hq rfl
    obtain ⟨hp₁, hp₂⟩ := objectsFrom_inside hsize hp
    have hapart := new_apart hfresh (by omega) hp₂ (hold p hq)
    unfold Apart at hapart
    omega
  · intro p hp
    rcases List.mem_append.mp hp with hp | hp
    · exact ⟨_, List.mem_cons_self, objectsFrom_inside hsize hp⟩
    · exact (hold p hp).cons _

theorem create_kept (hsize : 0 < size) (hnodup : s.handedOut.Nodup)
    (hinside : ∀ p ∈ s.handedOut, InBlock size s.blocks p)
    (hproper : (PoolOp.create num mem).Proper size s) (hlen : size * num ≤ intMax) :
    ∃ r, objectPoolStep size s (.create num mem) = some r ∧
      PoolInv size r.1 (objectsFrom size num (mem + sizeofMemory)) ∧
      r.1.handedOut = s.handedOut := by
  obtain ⟨hnum, hfresh⟩ := hproper
  rcases s.heap.objectPoolCreate_linked hsize hnum hlen mem with ⟨m', hcreate, hlinked⟩
  obtain ⟨hnodup', hinside'⟩ := newObjects_kept hsize le_rfl hfresh hinside hnodup
  have hstep : objectPoolStep size s (.create num mem) =
      some (⟨m', ⟨some (mem + sizeofMemory), size, some mem⟩,
        ⟨mem, size * num + sizeofMemory⟩ :: s.blocks, s.handedOut⟩, []) := by
    rw [objectPoolStep, hcreate]
    rfl
  exact ⟨_, hstep, ⟨rfl, hlinked, hnodup', hinside'⟩, rfl⟩

theorem expand_kept (hsize : sizeofObject ≤ size) (h : PoolInv size s free)
    (hproper : (PoolOp.expand num mem).Proper size s) (hlen : size * num ≤ intMax) :
    ∃ r, objectPoolStep size s (.expand num mem) = some r ∧
      PoolInv size r.1 (objectsFrom sizeofObject num (mem + sizeofMemory) ++ free) ∧
      r.1.handedOut = s.handedOut := by
  obtain ⟨hnum, hfresh⟩ := hproper
  have hpos : 0 < sizeofObject := by decide
  have hpos' : 0 < sizeofMemory := by decide
  obtain ⟨hnodup, hinside⟩ := newObjects_kept hpos hsize hfresh h.inside h.nodup
  have hmem : mem ∉ free := by
    intro hin
    obtain ⟨b, hb, hle, hle'⟩ := h.inside mem (List.mem_append_left _ hin)
    have hapart := hfresh b hb
    unfold Apart at hapart
    omega
  have hnew : ∀ p ∈ free, p ∉ objectsFrom sizeofObject num (mem + sizeofMemory) := by
    intro p hp hin
    exact (List.nodup_append.mp hnodup).2.2 p hin p (List.mem_append_left _ hp) rfl
  have hlen' : s.pool.objectSize * num ≤ intMax := by
    rw [h.objectSize]
    exact hlen
  rcases Heap.objectPoolExpand_linked hnum hlen' h.linked hmem hnew with ⟨m', hexpand, hlinked⟩
  have hstep : objectPoolStep size s (.expand num mem) =
      some (⟨m', ⟨some (mem + sizeofMemory), s.pool.objectSize, some mem⟩,
        ⟨mem, s.pool.objectSize * num + sizeofMemory⟩ :: s.blocks, s.handedOut⟩, []) := by
    rw [objectPoolStep, hexpand]
    rfl
  refine ⟨_, hstep, ⟨h.objectSize, hlinked, ?_, ?_⟩, rfl⟩
  · rw [List.append_assoc]
    exact hnodup
  · intro p hp
    rw [List.append_assoc] at hp
    rw [h.objectSize]
    exact hinside p hp

theorem acquire_kept (h : PoolInv size s free) :
    ∃ r free', objectPoolStep size s .acquire = some r ∧ PoolInv size r.1 free' ∧
      (free' ++ r.1.handedOut).Perm (free ++ s.handedOut) := by
  cases havailable : s.pool.availableObjects with
  | none =>
    refine ⟨_, free, rfl, ?_, ?_⟩
    · simpa [Heap.objectPoolAcquire, havailable] using h
    · simp [Heap.objectPoolAcquire, havailable]
  | some ob =>
    have hlinked := h.linked
    rw [havailable] at hlinked
    obtain ⟨rest, rfl, hrest⟩ := hlinked.exists_cons (by simp)
    have hperm : (rest ++ ob :: s.handedOut).Perm (ob :: rest ++ s.handedOut) :=
      List.perm_middle
    refine ⟨({ s with
      pool := { s.pool with availableObjects := s.heap.next ob }
      handedOut := ob :: s.handedOut }, [some ob]), rest, ?_, ⟨h.objectSize, hrest, ?_, ?_⟩, hperm⟩
    · simp [objectPoolStep, Heap.objectPoolAcquire, havailable]
    · exact hperm.nodup_iff.mpr h.nodup
    · intro p hp
      exact h.inside p (hperm.mem_iff.mp hp)

theorem objectPoolReturn_eq (m : Heap) (op : ObjectPool) (ob : Ptr) :
    m.objectPoolReturn op ob =
      (m.setNext ob op.availableObjects, { op with availableObjects := some ob }) := by
  cases h : op.availableObjects <;> simp [Heap.objectPoolReturn, h]

theorem giveBack_kept {ob : Ptr} (h : PoolInv size s free) (hob : ob ∈ s.handedOut) :
    ∃ r free', objectPoolStep size s (.giveBack ob) = some r ∧ PoolInv size r.1 free' ∧
      (free' ++ r.1.handedOut).Perm (free ++ s.handedOut) := by
  have hperm : (ob :: free ++ s.handedOut.erase ob).Perm (free ++ s.handedOut) := by
    refine List.perm_middle.symm.trans (List.Perm.append_left free ?_)
    exact (List.perm_cons_erase hob).symm
  have hnot : ob ∉ free := fun hin => (List.nodup_append.mp h.nodup).2.2 ob hin ob hob rfl
  refine ⟨_, ob :: free, rfl, ?_, hperm⟩
  rw [objectPoolReturn_eq]
  refine ⟨h.objectSize, h.linked.push hnot, hperm.nodup_iff.mpr h.nodup, ?_⟩
  intro p hp
  exact h.inside p (hperm.mem_iff.mp hp)

/-- Whatever is done with the pool, its free list stays intact; no object is on it or handed out
    twice, and every object lies in a block. -/
theorem objectPoolStep_kept {op : PoolOp} {r : PoolState × List (Option Ptr)}
    (hsize : sizeofObject ≤ size) (h : PoolInv size s free) (hproper : op.Proper size s)
    (hstep : objectPoolStep size s op = some r) :
    ∃ free', PoolInv size r.1 free' ∧
      (free' ++ r.1.handedOut).Perm (op.objects size free s.handedOut) := by
  cases op with
  | create num mem =>
    have hlen : size * num ≤ intMax := by
      by_contra hlen
      simp [objectPoolStep, Heap.objectPoolCreate, hlen] at hstep
    obtain ⟨-, hnodup, -⟩ := List.nodup_append.mp h.nodup
    rcases create_kept (lt_of_lt_of_le (by decide) hsize) hnodup
      (fun p hp => h.inside p (List.mem_append_right _ hp)) hproper hlen with ⟨r', hr', hinv, hout⟩
    obtain rfl : r = r' := Option.some.inj (hstep.symm.trans hr')
    exact ⟨_, hinv, by rw [hout]; exact .refl _⟩
  | acquire =>
    rcases acquire_kept h with ⟨r', free', hr', hinv, hperm⟩
    obtain rfl : r = r' := Option.some.inj (hstep.symm.trans hr')
    exact ⟨free', hinv, hperm⟩
  | giveBack ob =>
    rcases giveBack_kept h hproper with ⟨r', free', hr', hinv, hperm⟩
    obtain rfl : r = r' := Option.some.inj (hstep.symm.trans hr')
    exact ⟨free', hinv, hperm⟩
  | expand num mem =>
    have hlen : size * num ≤ intMax := by
      by_contra hlen
      simp [objectPoolStep, Heap.objectPoolExpand, h.objectSize, hlen] at hstep
    rcases expand_kept hsize h hproper hlen with ⟨r', hr', hinv, hout⟩
    obtain rfl : r = r' := Option.some.inj (hstep.symm.trans hr')
    exact ⟨_, hinv, by rw [hout, List.append_assoc]; exact .refl _⟩

end Kept

/-! ## 5. When the objects are disjoint -/

theorem PoolInv.poolOk_iff {size total : Nat} {s : PoolState} {free : List Ptr}
    (h : PoolInv size s free) :
    PoolOk size total s ↔
      AllApart size (free ++ s.handedOut) ∧ (free ++ s.handedOut).length = total := by
  constructor
  · rintro ⟨free', hlinked, hapart, -, hlength⟩
    obtain rfl : free = free' :=
      h.linked.unique hlinked Linked.ends_none Linked.ends_none
    exact ⟨hapart, hlength⟩
  · rintro ⟨hapart, hlength⟩
    refine ⟨free, h.linked, hapart, ?_, hlength⟩
    intro p hp
    obtain ⟨b, hb, hle, hle'⟩ := h.inside p hp
    exact ⟨b, hb, by omega, hle'⟩

section Operations
variable {size num mem total : Nat} {s : PoolState} {free old : List Ptr} {op : PoolOp}

theorem newObjects_apart {stride : Nat} {blocks : List Block} (hsize : stride ≤ size)
    (hfresh : ∀ b ∈ blocks, Apart mem (size * num + sizeofMemory) b.addr b.size)
    (hold : ∀ p ∈ old, InBlock size blocks p)
    (hnew : AllApart size (objectsFrom stride num (mem + sizeofMemory)))
    (hapart : AllApart size old) :
    AllApart size (objectsFrom stride num (mem + sizeofMemory) ++ old) := by
  refine List.pairwise_append.mpr ⟨hnew, hapart, ?_⟩
  intro p hp q hq
  obtain ⟨hle, hle'⟩ := objectsFrom_inside hsize hp
  exact new_apart hfresh (by omega) hle' (hold q hq)

/-- The objects of an expansion overlap if there are several and they are larger than their link
    word. -/
theorem expand_apart_iff (hsize : sizeofObject ≤ size) (hnum : 1 ≤ num) (p : Nat) :
    AllApart size (objectsFrom sizeofObject num p) ↔ num = 1 ∨ size = sizeofObject := by
  constructor
  · intro hapart
    by_contra hnot
    obtain ⟨hnum', hsize'⟩ := not_or.mp hnot
    obtain ⟨n, rfl⟩ : ∃ n, num = n + 2 := ⟨num - 2, by omega⟩
    have hfirst := (List.pairwise_cons.mp hapart).1 (p + sizeofObject) List.mem_cons_self
    unfold Apart at hfirst
    omega
  · rintro (rfl | rfl)
    · exact List.pairwise_singleton _ _
    · exact objectsFrom_apart ..

theorem length_objects (op : PoolOp) (size : Nat) (free handedOut : List Ptr) :
    (op.objects size free handedOut).length ≤ (free ++ handedOut).length + op.count := by
  cases op <;> simp [PoolOp.objects, PoolOp.count, length_objectsFrom] <;> omega

/-- What is right stays right. -/
theorem objects_right (hsize : sizeofObject ≤ size) (h : PoolInv size s free)
    (hproper : op.Proper size s) (hmeets : op.Meets size s)
    (hapart : AllApart size (free ++ s.handedOut)) (hlength : (free ++ s.handedOut).length = total) :
    AllApart size (op.objects size free s.handedOut) ∧
      (op.objects size free s.handedOut).length = total + op.count := by
  cases op with
  | create num mem =>
    have hfree : free = [] := by
      rcases hmeets.2 with hblocks | havailable
      · rw [List.eq_nil_iff_forall_not_mem]
        intro p hp
        obtain ⟨b, hb, -⟩ := h.inside p (List.mem_append_left _ hp)
        rw [hblocks] at hb
        exact absurd hb List.not_mem_nil
      · exact h.linked.eq_nil havailable Linked.ends_none
    subst hfree
    constructor
    · exact newObjects_apart le_rfl hproper.2 h.inside (objectsFrom_apart ..) hapart
    · rw [List.nil_append] at hlength
      simp [PoolOp.objects, PoolOp.count, length_objectsFrom, hlength, Nat.add_comm]
  | acquire => exact ⟨hapart, hlength⟩
  | giveBack ob => exact ⟨hapart, hlength⟩
  | expand num mem =>
    obtain ⟨hnum, hfresh⟩ := hproper
    constructor
    · exact newObjects_apart hsize hfresh h.inside
        ((expand_apart_iff hsize hnum _).mpr hmeets.2) hapart
    · rw [← hlength]
      simp [PoolOp.objects, PoolOp.count, length_objectsFrom]
      omega

/-- Objects overlap, or some are lost. -/
def Wrong (size total : Nat) (l : List Ptr) : Prop := l.length < total ∨ ¬ AllApart size l

/-- What is wrong stays wrong. -/
theorem objects_wrong (hlength : (free ++ s.handedOut).length ≤ total)
    (hwrong : Wrong size total (free ++ s.handedOut)) :
    Wrong size (total + op.count) (op.objects size free s.handedOut) := by
  have hle := length_objects op size free s.handedOut
  rcases hwrong with hlt | hapart
  · exact .inl (by omega)
  cases op with
  | create num mem =>
    cases free with
    | nil => exact .inr fun hall => hapart (List.pairwise_append.mp hall).2.1
    | cons p free =>
      left
      simp only [List.length_append, List.length_cons] at hlength
      simp only [PoolOp.objects, PoolOp.count, List.length_append, length_objectsFrom]
      omega
  | acquire => exact .inr hapart
  | giveBack ob => exact .inr hapart
  | expand num mem => exact .inr fun hall => hapart (List.pairwise_append.mp hall).2.1

/-- An operation that does not meet the condition breaks the pool, if it returns. -/
theorem objects_broken {r : PoolState × List (Option Ptr)} (hsize : sizeofObject ≤ size)
    (h : PoolInv size s free) (hproper : op.Proper size s) (hmeets : ¬ op.Meets size s)
    (hlength : (free ++ s.handedOut).length ≤ total) (hstep : objectPoolStep size s op = some r) :
    Wrong size (total + op.count) (op.objects size free s.handedOut) := by
  cases op with
  | create num mem =>
    by_cases hlen : size * num ≤ intMax
    · obtain ⟨-, havailable⟩ := not_or.mp (not_and.mp hmeets hlen)
      have hfree : free ≠ [] := by
        rintro rfl
        exact havailable h.linked
      have hpos := List.length_pos_iff.mpr hfree
      left
      rw [List.length_append] at hlength
      simp only [PoolOp.objects, PoolOp.count, List.length_append, length_objectsFrom]
      omega
    · simp [objectPoolStep, Heap.objectPoolCreate, hlen] at hstep
  | acquire => exact absurd trivial hmeets
  | giveBack ob => exact absurd trivial hmeets
  | expand num mem =>
    by_cases hlen : size * num ≤ intMax
    · right
      intro hall
      have hapart := (List.pairwise_append.mp hall).1
      exact not_and.mp hmeets hlen ((expand_apart_iff hsize hproper.1 _).mp hapart)
    · simp [objectPoolStep, Heap.objectPoolExpand, h.objectSize, hlen] at hstep

theorem objectPoolStep_returns (hsize : sizeofObject ≤ size) (h : PoolInv size s free)
    (hproper : op.Proper size s) (hmeets : op.Meets size s) :
    ∃ r, objectPoolStep size s op = some r := by
  cases op with
  | create num mem =>
    obtain ⟨-, hnodup, -⟩ := List.nodup_append.mp h.nodup
    rcases create_kept (lt_of_lt_of_le (by decide) hsize) hnodup
      (fun p hp => h.inside p (List.mem_append_right _ hp)) hproper hmeets.1 with ⟨r, hr, -⟩
    exact ⟨r, hr⟩
  | acquire => exact ⟨_, rfl⟩
  | giveBack ob => exact ⟨_, rfl⟩
  | expand num mem =>
    rcases expand_kept hsize h hproper hmeets.1 with ⟨r, hr, -⟩
    exact ⟨r, hr⟩

end Operations

section Runs
variable {size total : Nat} {s : PoolState} {free : List Ptr} {ops : List PoolOp}

/-- What is wrong is wrong at the end of every run. -/
theorem run_wrong (hsize : sizeofObject ≤ size) (h : PoolInv size s free)
    (hproper : Run.Allowed (objectPoolStep size) (PoolOp.Proper size) ops s)
    (hlength : (free ++ s.handedOut).length ≤ total)
    (hwrong : Wrong size total (free ++ s.handedOut)) {r : PoolState × List (Option Ptr)}
    (hrun : Run.run (objectPoolStep size) ops s = some r) :
    ¬ PoolOk size (total + (ops.map PoolOp.count).sum) r.1 := by
  induction ops generalizing s free total r with
  | nil =>
    cases hrun
    intro hok
    obtain ⟨hapart, hlength'⟩ := h.poolOk_iff.mp hok
    rw [List.map_nil, List.sum_nil, Nat.add_zero] at hlength'
    rcases hwrong with hlt | hnot
    · omega
    · exact hnot hapart
  | cons op ops ih =>
    obtain ⟨r₁, r₂, hstep, htail, rfl⟩ := Run.run_cons.mp hrun
    obtain ⟨free', hinv, hperm⟩ := objectPoolStep_kept hsize h hproper.1 hstep
    have hle := length_objects op size free s.handedOut
    have hwrong' : Wrong size (total + op.count) (op.objects size free s.handedOut) :=
      objects_wrong hlength hwrong
    rw [List.map_cons, List.sum_cons, ← Nat.add_assoc]
    apply ih hinv (hproper.2 r₁ hstep) _ _ htail
    · rw [hperm.length_eq]
      omega
    · rw [Wrong, hperm.length_eq, AllApart.perm hperm]
      exact hwrong'

theorem run_ok_iff (hsize : sizeofObject ≤ size) (h : PoolInv size s free)
    (hproper : Run.Allowed (objectPoolStep size) (PoolOp.Proper size) ops s)
    (hapart : AllApart size (free ++ s.handedOut)) (hlength : (free ++ s.handedOut).length = total) :
    (∃ r, Run.run (objectPoolStep size) ops s = some r ∧
        PoolOk size (total + (ops.map PoolOp.count).sum) r.1) ↔
      Run.Allowed (objectPoolStep size) (PoolOp.Meets size) ops s := by
  induction ops generalizing s free total with
  | nil => exact iff_of_true ⟨_, rfl, h.poolOk_iff.mpr ⟨hapart, hlength⟩⟩ trivial
  | cons op ops ih =>
    rw [List.map_cons, List.sum_cons, ← Nat.add_assoc]
    constructor
    · rintro ⟨r, hrun, hok⟩
      obtain ⟨r₁, r₂, hstep, htail, rfl⟩ := Run.run_cons.mp hrun
      obtain ⟨free', hinv, hperm⟩ := objectPoolStep_kept hsize h hproper.1 hstep
      have hproper' := hproper.2 r₁ hstep
      by_cases hmeets : op.Meets size s
      · refine ⟨hmeets, ?_⟩
        intro r hr
        obtain rfl : r₁ = r := Option.some.inj (hstep.symm.trans hr)
        obtain ⟨hapart', hlength'⟩ := objects_right hsize h hproper.1 hmeets hapart hlength
        rw [← hperm.length_eq] at hlength'
        exact (ih hinv hproper' ((AllApart.perm hperm).mpr hapart') hlength').mp ⟨r₂, htail, hok⟩
      · have hwrong := objects_broken hsize h hproper.1 hmeets hlength.le hstep
        have hle := length_objects op size free s.handedOut
        rw [Wrong, ← hperm.length_eq, ← AllApart.perm hperm] at hwrong
        rw [← hperm.length_eq, hlength] at hle
        exact (run_wrong hsize hinv hproper' hle hwrong htail hok).elim
    · rintro ⟨hmeets, hrest⟩
      obtain ⟨r₁, hstep⟩ := objectPoolStep_returns hsize h hproper.1 hmeets
      obtain ⟨free', hinv, hperm⟩ := objectPoolStep_kept hsize h hproper.1 hstep
      obtain ⟨hapart', hlength'⟩ := objects_right hsize h hproper.1 hmeets hapart hlength
      rw [← hperm.length_eq] at hlength'
      obtain ⟨r₂, hrun, hok⟩ := (ih hinv (hproper.2 r₁ hstep) ((AllApart.perm hperm).mpr hapart')
        hlength').mpr (hrest r₁ hstep)
      exact ⟨_, Run.run_cons.mpr ⟨r₁, r₂, hstep, hrun, rfl⟩, hok⟩

end Runs

/-- **The objects are disjoint, in their blocks and all there** exactly if every step meets the
    condition: an expansion is by one object, or the objects are no larger than `object_t`; the
    sizes do not overflow; and the pool is not created again while there are free objects. -/
theorem objectPool_disjoint {size num : Nat} {mem : Ptr} {ops : List PoolOp} {s : PoolState}
    (hsize : sizeofObject ≤ size) (hblocks : s.blocks = []) (hout : s.handedOut = [])
    (hproper : Run.Allowed (objectPoolStep size) (PoolOp.Proper size)
      (.create num mem :: ops) s) :
    (∃ r, Run.run (objectPoolStep size) (.create num mem :: ops) s = some r ∧
        PoolOk size ((PoolOp.create num mem :: ops).map PoolOp.count).sum r.1) ↔
      Run.Allowed (objectPoolStep size) (PoolOp.Meets size) (.create num mem :: ops) s := by
  by_cases hlen : size * num ≤ intMax
  · have hinside : ∀ p ∈ s.handedOut, InBlock size s.blocks p := by
      intro p hp
      exact absurd (hout ▸ hp) List.not_mem_nil
    have hnodup : s.handedOut.Nodup := hout ▸ List.nodup_nil
    obtain ⟨r₁, hstep, hinv, hout'⟩ :=
      create_kept (lt_of_lt_of_le (by decide) hsize) hnodup hinside hproper.1 hlen
    rw [hout] at hout'
    have hiff : (∃ r, Run.run (objectPoolStep size) ops r₁.1 = some r ∧
        PoolOk size (num + (ops.map PoolOp.count).sum) r.1) ↔
          Run.Allowed (objectPoolStep size) (PoolOp.Meets size) ops r₁.1 := by
      apply run_ok_iff hsize hinv (hproper.2 r₁ hstep)
      · rw [hout', List.append_nil]
        exact objectsFrom_apart ..
      · rw [hout', List.append_nil, length_objectsFrom]
    rw [List.map_cons, List.sum_cons]
    constructor
    · rintro ⟨r, hrun, hok⟩
      obtain ⟨r', r₂, hstep', htail, rfl⟩ := Run.run_cons.mp hrun
      obtain rfl : r₁ = r' := Option.some.inj (hstep.symm.trans hstep')
      refine ⟨⟨hlen, .inl hblocks⟩, ?_⟩
      intro r hr
      obtain rfl : r₁ = r := Option.some.inj (hstep.symm.trans hr)
      exact hiff.mp ⟨r₂, htail, hok⟩
    · rintro ⟨-, hrest⟩
      obtain ⟨r₂, hrun, hok⟩ := hiff.mpr (hrest r₁ hstep)
      exact ⟨_, Run.run_cons.mpr ⟨r₁, r₂, hstep, hrun, rfl⟩, hok⟩
  · constructor
    · rintro ⟨r, hrun, -⟩
      simp [Run.run, objectPoolStep, Heap.objectPoolCreate, hlen] at hrun
    · rintro ⟨⟨hle, -⟩, -⟩
      exact absurd hle hlen

/-- Before its creation a pool has nothing. -/
def PoolState.start : PoolState := ⟨⟨fun _ => none, fun _ => none⟩, ⟨none, 0, none⟩, [], []⟩

theorem objectPool_disjoint_links :
    ∃ r, Run.run (objectPoolStep 8) [.create 2 1000, .acquire, .expand 2 2000] .start = some r ∧
      PoolOk 8 4 r.1 := by
  refine (objectPool_disjoint (by decide) rfl rfl ?_).mpr ?_
  · refine ⟨by decide, fun r hr => ?_⟩
    obtain rfl := Option.some.inj hr
    refine ⟨trivial, fun r hr => ?_⟩
    obtain rfl := Option.some.inj hr
    exact ⟨by decide, fun _ _ => trivial⟩
  · refine ⟨⟨by decide, .inl rfl⟩, fun r hr => ?_⟩
    obtain rfl := Option.some.inj hr
    exact ⟨trivial, fun r hr => ⟨⟨by decide, .inr rfl⟩, fun _ _ => trivial⟩⟩

/-- An expansion by two objects of 24 bytes: the second one begins 8 bytes behind the first. -/
theorem objectPool_overlap :
    Run.Allowed (objectPoolStep 24) (PoolOp.Proper 24)
        [.create 1 1000, .expand 2 2000] .start ∧
      ∃ r, Run.run (objectPoolStep 24) [.create 1 1000, .expand 2 2000] .start = some r ∧
        ¬ PoolOk 24 3 r.1 := by
  refine ⟨⟨by decide, fun r hr => ?_⟩, _, rfl, ?_⟩
  · obtain rfl := Option.some.inj hr
    exact ⟨by decide, fun _ _ => trivial⟩
  · rintro ⟨free, hlinked, hapart, -⟩
    have hfree : [2008, 2016, 1008] = free := by
      refine Linked.unique ?_ hlinked Linked.ends_none Linked.ends_none
      exact ⟨rfl, rfl, rfl, rfl⟩
    subst hfree
    have hfirst := (List.pairwise_cons.mp hapart).1 2016 List.mem_cons_self
    revert hfirst
    decide

end OServer
