/-
  OServer/ObjectPoolLife.lean
  ===========================
  **A pool from its creation to its destruction, with users that write.**

  An object that is handed out belongs to its user, who may write into it what he
  likes; the pool's own words, the links of the free objects and of the blocks, lie in
  the same memory.  `object_pool_destroy` walks along the blocks and frees one after
  the other.  What was freed is not there any more: its contents are arbitrary, and to
  free it again breaks.

    * `objectPool_lifecycle` — as long as the objects are disjoint no user can do any
                               harm: objects are handed out once, the pool is empty only
                               when all are out, and its destruction frees every block
                               once;
    * `objectPool_forged`    — after an expansion by several objects of two words or more
                               a user's write decides what the pool hands out.
-/
import Mathlib.Data.List.Pairwise
import OServer.ObjectPool

namespace OServer

/-! ## 1. Writes and destruction -/

namespace Heap

/-- The `n` bytes from `p` are overwritten.  A word that lies in them, or partly, now is
    anything. -/
def scramble (m : Heap) (p n : Nat) (junk : Ptr → Option Ptr) : Heap :=
  { m with next := fun q => if Apart p n q sizeofObject then m.next q else junk q }

theorem scramble_apart {m : Heap} {p n q : Nat} {junk : Ptr → Option Ptr}
    (h : Apart p n q sizeofObject) : (m.scramble p n junk).next q = m.next q := if_pos h

/-- The loop of `object_pool_destroy`.  The next block is read before the block is freed.
    `none` where something is freed that `malloc` has not returned, or not any more. -/
def destroyLoop (junk : Ptr → Option Ptr) :
    Nat → Heap → List Block → Option Ptr → Option (Heap × List Block × List Ptr)
  | _, m, blocks, none => some (m, blocks, [])
  | 0, _, _, some _ => none
  | fuel + 1, m, blocks, some ptr => do
      let next := m.next ptr
      let mem ← blocks.find? fun b => b.addr = ptr
      let r ← destroyLoop junk fuel (m.scramble mem.addr mem.size junk) (blocks.erase mem) next
      some (r.1, r.2.1, mem.addr :: r.2.2)

/-- As many rounds as there are blocks: after them there is nothing left to free. -/
def objectPoolDestroy (m : Heap) (op : ObjectPool) (blocks : List Block)
    (junk : Ptr → Option Ptr) : Option (Heap × List Block × List Ptr × ObjectPool) := do
  let r ← destroyLoop junk blocks.length m blocks op.memptr
  some (r.1, r.2.1, r.2.2, { op with memptr := none, availableObjects := none })

end Heap

inductive PoolAction where
  | call (op : PoolOp)
  | write (ob : Ptr) (junk : Ptr → Option Ptr)
  | destroy (junk : Ptr → Option Ptr)

/-- What `object_pool_acquire` returns, and the blocks that are freed. -/
inductive PoolSeen where
  | acquired (ob : Option Ptr)
  | freed (mem : Ptr)
deriving DecidableEq

/-- After the destruction nobody may use the objects. -/
def poolLifeStep (size : Nat) (s : PoolState) : PoolAction → Option (PoolState × List PoolSeen)
  | .call op => (objectPoolStep size s op).map fun r => (r.1, r.2.map .acquired)
  | .write ob junk => some ({ s with heap := s.heap.scramble ob size junk }, [])
  | .destroy junk => do
      let r ← s.heap.objectPoolDestroy s.pool s.blocks junk
      some (⟨r.1, r.2.2.2, r.2.1, []⟩, r.2.2.1.map .freed)

/-- Users write into objects that they have got.  The pool is created when it has no blocks, and
    its operations meet the condition under which its objects are disjoint. -/
def PoolAction.Careful (size : Nat) (s : PoolState) : PoolAction → Prop
  | .call op => op.Proper size s ∧ op.Meets size s ∧ (∀ num mem, op = .create num mem → s.blocks = [])
  | .write ob _ => ob ∈ s.handedOut
  | .destroy _ => True

/-- The number of objects after an action on a pool of `total`. -/
def PoolAction.total (total : Nat) : PoolAction → Nat
  | .call op => total + op.count
  | .write .. => total
  | .destroy _ => 0

/-- The blocks are disjoint and linked in the order in which they came, the last one first. -/
structure PoolBlocks (s : PoolState) : Prop where
  chain : Linked s.heap.next s.pool.memptr (s.blocks.map Block.addr) none
  apart : s.blocks.Pairwise fun b b' => Apart b.addr b.size b'.addr b'.size
  header : ∀ b ∈ s.blocks, sizeofMemory ≤ b.size

/-- What holds of a pool of `total` objects as long as everybody is careful. -/
structure PoolLifeInv (size total : Nat) (s : PoolState) (free : List Ptr) : Prop where
  inv : PoolInv size s free
  objects : AllApart size (free ++ s.handedOut)
  length : (free ++ s.handedOut).length = total
  blocks : PoolBlocks s

/-! ## 2. The words of the pool -/

section Words
variable {size total : Nat} {s : PoolState} {free : List Ptr}

/-- An object has nothing in common with the link word of a block. -/
theorem PoolBlocks.header_apart (h : PoolBlocks s) {p : Nat} (hp : InBlock size s.blocks p)
    {b : Block} (hb : b ∈ s.blocks) : Apart p size b.addr sizeofObject := by
  obtain ⟨b', hb', hle, hle'⟩ := hp
  have hword : sizeofObject ≤ b.size := h.header b hb
  have hobject : sizeofObject = sizeofMemory := rfl
  by_cases heq : b' = b
  · subst heq
    exact .inr (by omega)
  · have hapart : Apart b'.addr b'.size b.addr b.size := by
      have hsymm : Std.Symm fun b b' : Block => Apart b.addr b.size b'.addr b'.size :=
        ⟨fun _ _ => Or.symm⟩
      exact h.apart.forall hb' hb heq
    unfold Apart at hapart ⊢
    omega

/-- Nor with the link word of a free object. -/
theorem PoolLifeInv.free_apart (h : PoolLifeInv size total s free) (hsize : sizeofObject ≤ size)
    {ob p : Nat} (hob : ob ∈ s.handedOut) (hp : p ∈ free) : Apart ob size p sizeofObject := by
  have hapart := (List.pairwise_append.mp h.objects).2.2 p hp ob hob
  unfold Apart at hapart ⊢
  omega

/-- **A user cannot harm the pool.** -/
theorem PoolLifeInv.write (h : PoolLifeInv size total s free) (hsize : sizeofObject ≤ size)
    {ob : Ptr} (hob : ob ∈ s.handedOut) (junk : Ptr → Option Ptr) :
    PoolLifeInv size total { s with heap := s.heap.scramble ob size junk } free := by
  have hinside := h.inv.inside ob (List.mem_append_right _ hob)
  refine ⟨⟨h.inv.objectSize, ?_, h.inv.nodup, h.inv.inside⟩, h.objects, h.length, ?_,
    h.blocks.apart, h.blocks.header⟩
  · apply h.inv.linked.congr
    intro p hp
    exact Heap.scramble_apart (h.free_apart hsize hob hp)
  · apply h.blocks.chain.congr
    intro p hp
    obtain ⟨b, hb, rfl⟩ := List.mem_map.mp hp
    exact Heap.scramble_apart (h.blocks.header_apart hinside hb)

/-- The loop of `object_pool_destroy` frees the blocks that are linked, each once. -/
theorem destroyLoop_frees (junk : Ptr → Option Ptr) (m : Heap) (blocks : List Block)
    (link : Option Ptr) (hchain : Linked m.next link (blocks.map Block.addr) none)
    (hapart : blocks.Pairwise fun b b' => Apart b.addr b.size b'.addr b'.size)
    (hheader : ∀ b ∈ blocks, sizeofMemory ≤ b.size) :
    ∃ m', m.destroyLoop junk blocks.length blocks link = some (m', [], blocks.map Block.addr) := by
  induction blocks generalizing m link with
  | nil =>
    obtain rfl : link = none := hchain
    exact ⟨m, rfl⟩
  | cons b blocks ih =>
    obtain ⟨rfl, hrest⟩ := Linked.cons_iff.mp hchain
    rcases List.pairwise_cons.mp hapart with ⟨hb, hapart'⟩
    -- the links of the other blocks survive that this one is freed
    have hrest' : Linked (m.scramble b.addr b.size junk).next (m.next b.addr)
        (blocks.map Block.addr) none := by
      apply hrest.congr
      intro p hp
      obtain ⟨b', hb', rfl⟩ := List.mem_map.mp hp
      apply Heap.scramble_apart
      have hfar := hb b' hb'
      have hword := hheader b' (List.mem_cons_of_mem b hb')
      have hobject : sizeofObject = sizeofMemory := rfl
      unfold Apart at hfar ⊢
      omega
    obtain ⟨m', hloop⟩ := ih (m.scramble b.addr b.size junk) (m.next b.addr) hrest' hapart'
      fun b' hb' => hheader b' (List.mem_cons_of_mem b hb')
    refine ⟨m', ?_⟩
    have hfind : (b :: blocks).find? (fun b' => b'.addr = b.addr) = some b := by simp
    rw [List.length_cons, Heap.destroyLoop, hfind]
    simp [hloop]

theorem PoolLifeInv.destroy (h : PoolLifeInv size total s free) (junk : Ptr → Option Ptr) :
    ∃ m, poolLifeStep size s (.destroy junk) =
      some (⟨m, ⟨none, s.pool.objectSize, none⟩, [], []⟩,
        s.blocks.map fun b => .freed b.addr) := by
  obtain ⟨m, hloop⟩ := destroyLoop_frees junk s.heap s.blocks s.pool.memptr h.blocks.chain
    h.blocks.apart h.blocks.header
  refine ⟨m, ?_⟩
  simp [poolLifeStep, Heap.objectPoolDestroy, hloop, Function.comp_def]

end Words

/-! ## 3. The blocks stay linked -/

section Blocks
variable {size total num mem : Nat} {s : PoolState} {free : List Ptr}

theorem objectPoolCreate_chain (hsize : 0 < size) (hnum : 1 ≤ num) (hlen : size * num ≤ intMax)
    (m : Heap) {r : Heap × ObjectPool} (hr : m.objectPoolCreate size num mem = some r) :
    Linked r.1.next r.2.memptr [mem] none := by
  obtain ⟨n, rfl⟩ : ∃ n, num = n + 1 := ⟨num - 1, by omega⟩
  have hlast : mem + sizeofMemory + size * (n + 1) - size = mem + sizeofMemory + n * size := by
    rw [Nat.mul_succ, Nat.mul_comm size n]
    omega
  have hfuel : n ≤ size * (n + 1) := by
    have hle := Nat.mul_le_mul_right (n + 1) hsize
    omega
  obtain ⟨m', hloop, -, hsame⟩ :=
    Heap.createLoop_linked hsize hfuel (m.setNext mem none) (mem + sizeofMemory)
  have hpos : 0 < sizeofMemory := by decide
  have hmem : mem ∉ objectsFrom size n (mem + sizeofMemory) := by
    intro hin
    obtain ⟨i, -, heq⟩ := mem_objectsFrom.mp hin
    omega
  simp only [Heap.objectPoolCreate, if_pos hlen, hlast, hloop, Option.some.injEq] at hr
  subst hr
  refine ⟨rfl, ?_⟩
  have hne : mem ≠ mem + sizeofMemory + n * size := by omega
  rw [Heap.setNext_next, Function.update_of_ne hne, hsame mem hmem, Heap.setNext_next,
    Function.update_self]
  rfl

/-- A new pool has one block. -/
theorem PoolBlocks.create (hsize : 0 < size) (hblocks : s.blocks = []) (hnum : 1 ≤ num)
    (hlen : size * num ≤ intMax) {r : PoolState × List (Option Ptr)}
    (hr : objectPoolStep size s (.create num mem) = some r) : PoolBlocks r.1 := by
  obtain ⟨u, hu, hr⟩ := Option.bind_eq_some_iff.mp hr
  obtain rfl := Option.some.inj hr
  have hchain := objectPoolCreate_chain hsize hnum hlen s.heap hu
  refine ⟨?_, ?_, ?_⟩ <;> simp only [hblocks]
  · exact hchain
  · exact List.pairwise_singleton _ _
  · intro b hb
    obtain rfl := List.mem_singleton.mp hb
    exact Nat.le_add_left _ _

/-- An expansion writes its own block only. -/
theorem objectPoolExpand_frame {op : ObjectPool} (hnum : 1 ≤ num) {m : Heap}
    {r : Heap × ObjectPool} (hr : m.objectPoolExpand op num mem = some r) {q : Ptr}
    (hq : q ∉ objectsFrom sizeofObject num (mem + sizeofMemory)) :
    r.1.next q = (m.setNext mem op.memptr).next q := by
  obtain ⟨n, rfl⟩ : ∃ n, num = n + 1 := ⟨num - 1, by omega⟩
  obtain ⟨-, hsame⟩ := (m.setNext mem op.memptr).expandLoop_linked (mem + sizeofMemory) n
  rw [objectsFrom_snoc, List.mem_append, not_or, List.mem_singleton] at hq
  unfold Heap.objectPoolExpand at hr
  split_ifs at hr with hlen
  obtain rfl := Option.some.inj hr
  rw [Heap.setNext_next, Nat.add_sub_cancel, Function.update_of_ne hq.2, hsame q hq.1]

theorem expand_chain (h : PoolLifeInv size total s free) (hsize : sizeofObject ≤ size)
    (hproper : (PoolOp.expand num mem).Proper size s) {r : Heap × ObjectPool}
    (hr : s.heap.objectPoolExpand s.pool num mem = some r) :
    Linked r.1.next r.2.memptr (mem :: s.blocks.map Block.addr) none := by
  obtain ⟨hnum, hfresh⟩ := hproper
  have hpos : 0 < sizeofMemory := by decide
  have hpos' : 0 < sizeofObject := by decide
  have hmemptr : r.2.memptr = some mem := by
    unfold Heap.objectPoolExpand at hr
    split_ifs at hr
    obtain rfl := Option.some.inj hr
    rfl
  -- the objects lie behind the link word of their block and apart from the other blocks
  have hout : ∀ q : Nat, q ∈ objectsFrom sizeofObject num (mem + sizeofMemory) →
      mem + sizeofMemory ≤ q ∧ q + size ≤ mem + (size * num + sizeofMemory) :=
    fun q hq => objectsFrom_inside hsize hq
  have hmem : mem ∉ objectsFrom sizeofObject num (mem + sizeofMemory) := by
    intro hin
    obtain ⟨hle, -⟩ := hout mem hin
    omega
  have hself : r.1.next mem = s.pool.memptr := by
    rw [objectPoolExpand_frame hnum hr hmem]
    exact Function.update_self ..
  rw [hmemptr]
  refine ⟨rfl, ?_⟩
  rw [hself]
  apply h.blocks.chain.congr
  intro p hp
  obtain ⟨b, hb, rfl⟩ := List.mem_map.mp hp
  have hfar := hfresh b hb
  have hword := h.blocks.header b hb
  unfold Apart at hfar
  have hne : b.addr ≠ mem := by omega
  have hb' : b.addr ∉ objectsFrom sizeofObject num (mem + sizeofMemory) := by
    intro hin
    obtain ⟨hle, hle'⟩ := hout b.addr hin
    omega
  rw [objectPoolExpand_frame hnum hr hb']
  exact Function.update_of_ne hne ..

theorem giveBack_chain (h : PoolLifeInv size total s free) (hsize : sizeofObject ≤ size) {ob : Ptr}
    (hob : ob ∈ s.handedOut) :
    Linked (s.heap.objectPoolReturn s.pool ob).1.next s.pool.memptr (s.blocks.map Block.addr)
      none := by
  have hinside := h.inv.inside ob (List.mem_append_right _ hob)
  rw [objectPoolReturn_eq]
  apply h.blocks.chain.update
  intro hin
  obtain ⟨b, hb, rfl⟩ := List.mem_map.mp hin
  have hapart := h.blocks.header_apart hinside hb
  have hpos : 0 < sizeofObject := by decide
  unfold Apart at hapart
  omega

theorem PoolBlocks.call {op : PoolOp} (h : PoolLifeInv size total s free) (hsize : sizeofObject ≤ size)
    (hcareful : (PoolAction.call op).Careful size s) {r : PoolState × List (Option Ptr)}
    (hr : objectPoolStep size s op = some r) : PoolBlocks r.1 := by
  obtain ⟨hproper, hmeets, hfirst⟩ := hcareful
  cases op with
  | create num mem =>
    exact PoolBlocks.create (lt_of_lt_of_le (by decide) hsize) (hfirst num mem rfl) hproper.1
      hmeets.1 hr
  | acquire =>
    obtain rfl := Option.some.inj hr
    refine ⟨?_, h.blocks.apart, h.blocks.header⟩
    have hmemptr : (s.heap.objectPoolAcquire s.pool).1.memptr = s.pool.memptr := by
      unfold Heap.objectPoolAcquire
      split <;> rfl
    change Linked s.heap.next (s.heap.objectPoolAcquire s.pool).1.memptr _ none
    rw [hmemptr]
    exact h.blocks.chain
  | giveBack ob =>
    obtain rfl := Option.some.inj hr
    refine ⟨?_, h.blocks.apart, h.blocks.header⟩
    have hmemptr : (s.heap.objectPoolReturn s.pool ob).2.memptr = s.pool.memptr := by
      rw [objectPoolReturn_eq]
    change Linked (s.heap.objectPoolReturn s.pool ob).1.next
      (s.heap.objectPoolReturn s.pool ob).2.memptr _ none
    rw [hmemptr]
    exact giveBack_chain h hsize hproper
  | expand num mem =>
    obtain ⟨u, hu, hr⟩ := Option.bind_eq_some_iff.mp hr
    obtain rfl := Option.some.inj hr
    refine ⟨expand_chain h hsize hproper hu, ?_, ?_⟩
    · refine List.pairwise_cons.mpr ⟨?_, h.blocks.apart⟩
      intro b hb
      have hfar := hproper.2 b hb
      rw [h.inv.objectSize]
      exact hfar
    · intro b hb
      rcases List.mem_cons.mp hb with rfl | hb
      · exact Nat.le_add_left _ _
      · exact h.blocks.header b hb

end Blocks

/-! ## 4. Runs -/

section Runs
variable {size total : Nat} {s : PoolState} {free : List Ptr}

/-- What one action of careful users keeps. -/
theorem PoolLifeInv.step (hsize : sizeofObject ≤ size) (h : PoolLifeInv size total s free)
    {act : PoolAction} (hcareful : act.Careful size s) :
    ∃ r free', poolLifeStep size s act = some r ∧ PoolLifeInv size (act.total total) r.1 free' := by
  cases act with
  | call op =>
    obtain ⟨hproper, hmeets, hfirst⟩ := hcareful
    obtain ⟨r, hr⟩ := objectPoolStep_returns hsize h.inv hproper hmeets
    obtain ⟨free', hinv, hperm⟩ := objectPoolStep_kept hsize h.inv hproper hr
    obtain ⟨hapart, hlength⟩ := objects_right hsize h.inv hproper hmeets h.objects h.length
    have hblocks := PoolBlocks.call h hsize ⟨hproper, hmeets, hfirst⟩ hr
    refine ⟨(r.1, r.2.map .acquired), free', ?_, hinv, (AllApart.perm hperm).mpr hapart,
      hperm.length_eq.trans hlength, hblocks⟩
    rw [poolLifeStep, hr]
    rfl
  | write ob junk => exact ⟨_, free, rfl, h.write hsize hcareful junk⟩
  | destroy junk =>
    obtain ⟨m, hdestroy⟩ := h.destroy junk
    refine ⟨_, [], hdestroy, ⟨h.inv.objectSize, rfl, List.nodup_nil, ?_⟩, List.Pairwise.nil, rfl, rfl,
      List.Pairwise.nil, ?_⟩
    · exact fun p hp => absurd hp List.not_mem_nil
    · exact fun b hb => absurd hb List.not_mem_nil

theorem PoolLifeInv.run (hsize : sizeofObject ≤ size) {acts : List PoolAction}
    (h : PoolLifeInv size total s free)
    (hall : Run.Allowed (poolLifeStep size) (PoolAction.Careful size) acts s) :
    ∃ r free', Run.run (poolLifeStep size) acts s = some r ∧
      PoolLifeInv size (acts.foldl PoolAction.total total) r.1 free' := by
  induction acts generalizing s free total with
  | nil => exact ⟨_, free, rfl, h⟩
  | cons act acts ih =>
    obtain ⟨r₁, free₁, hr₁, h₁⟩ := h.step hsize hall.1
    obtain ⟨r₂, free₂, hr₂, h₂⟩ := ih h₁ (hall.2 r₁ hr₁)
    exact ⟨_, free₂, Run.run_cons.mpr ⟨r₁, r₂, hr₁, hr₂, rfl⟩, h₂⟩

theorem PoolLifeInv.create (hsize : sizeofObject ≤ size) (hblocks : s.blocks = [])
    (hout : s.handedOut = []) {num : Nat} {mem : Ptr}
    (hcareful : (PoolAction.call (.create num mem)).Careful size s) :
    ∃ r free, poolLifeStep size s (.call (.create num mem)) = some r ∧
      PoolLifeInv size num r.1 free := by
  obtain ⟨hproper, hmeets, -⟩ := hcareful
  have hpos : 0 < size := lt_of_lt_of_le (by decide) hsize
  have hinside : ∀ p ∈ s.handedOut, InBlock size s.blocks p := fun p hp =>
    absurd (hout ▸ hp) List.not_mem_nil
  obtain ⟨r, hr, hinv, hout'⟩ :=
    create_kept hpos (hout ▸ List.nodup_nil) hinside hproper hmeets.1
  have hstep : poolLifeStep size s (.call (.create num mem)) = some (r.1, r.2.map .acquired) := by
    rw [poolLifeStep, hr]
    rfl
  refine ⟨_, _, hstep, hinv, ?_, ?_, PoolBlocks.create hpos hblocks hproper.1 hmeets.1 hr⟩
  · rw [hout', hout, List.append_nil]
    exact objectsFrom_apart ..
  · rw [hout', hout, List.append_nil, length_objectsFrom]

end Runs

/-- What the next call of `object_pool_acquire` does: it returns an object with memory of its
    own, or `NULL`, and that only when all the objects are out. -/
def AcquireOk (size total : Nat) (s : PoolState) : Prop :=
  match (s.heap.objectPoolAcquire s.pool).2 with
  | none => s.handedOut.length = total
  | some ob => ∀ q ∈ s.handedOut, Apart ob size q size

theorem PoolLifeInv.acquireOk {size total : Nat} {s : PoolState} {free : List Ptr}
    (h : PoolLifeInv size total s free) : AcquireOk size total s := by
  have hlinked := h.inv.linked
  unfold AcquireOk Heap.objectPoolAcquire
  cases havailable : s.pool.availableObjects with
  | none =>
    have hfree : free = [] := hlinked.eq_nil havailable Linked.ends_none
    rw [← h.length, hfree, List.nil_append]
  | some ob =>
    rw [havailable] at hlinked
    obtain ⟨rest, rfl, -⟩ := hlinked.exists_cons (by simp)
    intro q hq
    exact (List.pairwise_append.mp h.objects).2.2 ob List.mem_cons_self q hq

/-- **A pool among careful users.**  After every run the objects are disjoint and as many
    as were asked for since the last creation, whatever the users have written into theirs;
    a call of `object_pool_acquire` turns down its caller only if all of them are out; and
    a call of `object_pool_destroy` frees every block that the pool has got, each once, and
    leaves an empty pool. -/
theorem objectPool_lifecycle {size num : Nat} {mem : Ptr} {acts : List PoolAction} {s : PoolState}
    (hsize : sizeofObject ≤ size) (hblocks : s.blocks = []) (hout : s.handedOut = [])
    (hall : Run.Allowed (poolLifeStep size) (PoolAction.Careful size)
      (.call (.create num mem) :: acts) s) :
    ∃ r, Run.run (poolLifeStep size) (.call (.create num mem) :: acts) s = some r ∧
      PoolOk size (acts.foldl PoolAction.total num) r.1 ∧
      AcquireOk size (acts.foldl PoolAction.total num) r.1 ∧
      (r.1.blocks.map Block.addr).Nodup ∧
      ∀ junk, ∃ m, poolLifeStep size r.1 (.destroy junk) =
        some (⟨m, ⟨none, r.1.pool.objectSize, none⟩, [], []⟩,
          r.1.blocks.map fun b => .freed b.addr) := by
  obtain ⟨r₁, free₁, hr₁, h₁⟩ := PoolLifeInv.create hsize hblocks hout hall.1
  obtain ⟨r₂, free₂, hr₂, h₂⟩ := h₁.run hsize (hall.2 r₁ hr₁)
  refine ⟨_, Run.run_cons.mpr ⟨r₁, r₂, hr₁, hr₂, rfl⟩, h₂.inv.poolOk_iff.mpr ⟨h₂.objects, h₂.length⟩,
    h₂.acquireOk, ?_, h₂.destroy⟩
  rw [List.Nodup, List.pairwise_map]
  refine h₂.blocks.apart.imp_of_mem ?_
  intro b b' hb hb' hapart heq
  have hword := h₂.blocks.header b hb
  have hword' := h₂.blocks.header b' hb'
  have hpos : 0 < sizeofMemory := by decide
  unfold Apart at hapart
  omega

/-- A pool of two objects and an expansion by one, a user who overwrites his object, and the
    creation of a second pool in its place. -/
theorem objectPool_lifecycle_two :
    ∃ r, Run.run (poolLifeStep 24) [.call (.create 2 1000), .call .acquire, .write 1008 fun _ => some 4711,
        .call (.expand 1 2000), .destroy fun _ => some 4711, .call (.create 1 1000)] .start = some r ∧
      PoolOk 24 1 r.1 := by
  have hall : Run.Allowed (poolLifeStep 24) (PoolAction.Careful 24) [.call (.create 2 1000),
      .call .acquire, .write 1008 fun _ => some 4711, .call (.expand 1 2000), .destroy fun _ => some 4711,
      .call (.create 1 1000)] .start := by
    refine ⟨⟨by decide, ⟨by decide, .inl rfl⟩, fun _ _ _ => rfl⟩, fun r hr => ?_⟩
    obtain rfl := Option.some.inj hr
    refine ⟨⟨trivial, trivial, nofun⟩, fun r hr => ?_⟩
    obtain rfl := Option.some.inj hr
    refine ⟨List.mem_cons_self, fun r hr => ?_⟩
    obtain rfl := Option.some.inj hr
    refine ⟨⟨by decide, ⟨by decide, .inl rfl⟩, nofun⟩, fun r hr => ?_⟩
    obtain rfl := Option.some.inj hr
    refine ⟨trivial, fun r hr => ?_⟩
    obtain rfl := Option.some.inj hr
    refine ⟨⟨⟨by decide, fun b hb => ?_⟩, ⟨by decide, .inl rfl⟩, fun _ _ _ => rfl⟩, fun _ _ => trivial⟩
    exact absurd hb List.not_mem_nil
  obtain ⟨r, hrun, hok, -⟩ := objectPool_lifecycle (by decide) rfl rfl hall
  exact ⟨r, hrun, hok⟩

/-! ## 5. Objects that overlap -/

theorem acquire_some {size : Nat} {s : PoolState} {ob : Ptr} (h : s.pool.availableObjects = some ob) :
    poolLifeStep size s (.call .acquire) = some
      (⟨s.heap, { s.pool with availableObjects := s.heap.next ob }, s.blocks, ob :: s.handedOut⟩,
        [.acquired (some ob)]) := by
  simp [poolLifeStep, objectPoolStep, Heap.objectPoolAcquire, h]

theorem acquire_returns (size : Nat) (s : PoolState) :
    ∃ s', poolLifeStep size s (.call .acquire) = some (s', [.acquired s.pool.availableObjects]) := by
  cases h : s.pool.availableObjects with
  | none => exact ⟨_, by simp [poolLifeStep, objectPoolStep, Heap.objectPoolAcquire, h]; rfl⟩
  | some ob => exact ⟨_, acquire_some h⟩

/-- **A user decides what the pool hands out.**  The objects of an expansion by several
    begin one word after the other.  Where they are of two words or more, the first user
    of such an object can write over the link of the next one: the call after the next
    one of `object_pool_acquire` returns what he has put there. -/
theorem objectPool_forged {size num mem : Nat} {s : PoolState} {free : List Ptr}
    (hsize : 2 * sizeofObject ≤ size) (hnum : 2 ≤ num) (h : PoolInv size s free)
    (hproper : (PoolOp.expand num mem).Proper size s) (hlen : size * num ≤ intMax)
    (forged : Option Ptr) :
    ∃ junk r₁ r₂ r₃,
      Run.run (poolLifeStep size) [.call (.expand num mem), .call .acquire] s = some r₁ ∧
      r₁.2 = [.acquired (some (mem + sizeofMemory))] ∧ mem + sizeofMemory ∈ r₁.1.handedOut ∧
      poolLifeStep size r₁.1 (.write (mem + sizeofMemory) junk) = some r₂ ∧
      Run.run (poolLifeStep size) [.call .acquire, .call .acquire] r₂.1 = some r₃ ∧
      r₃.2 = [.acquired (some (mem + sizeofMemory + sizeofObject)), .acquired forged] := by
  obtain ⟨n, rfl⟩ : ∃ n, num = n + 2 := ⟨num - 2, by omega⟩
  obtain ⟨r, hr, hinv, -⟩ := expand_kept (by omega) h hproper hlen
  obtain ⟨hfirst, hsecond, -⟩ := hinv.linked
  -- the link of the second object lies in the first one
  have hoverlap : ¬ Apart (mem + sizeofMemory) size (mem + sizeofMemory + sizeofObject) sizeofObject := by
    have hpos : 0 < sizeofObject := by decide
    unfold Apart
    omega
  have hforged : (r.1.heap.scramble (mem + sizeofMemory) size fun _ => forged).next
      (mem + sizeofMemory + sizeofObject) = forged := if_neg hoverlap
  have hexpand : poolLifeStep size s (.call (.expand (n + 2) mem)) = some (r.1, []) := by
    obtain ⟨u, hu, hr'⟩ := Option.bind_eq_some_iff.mp hr
    obtain rfl := Option.some.inj hr'
    rw [poolLifeStep, hr]
    rfl
  let s₁ : PoolState := ⟨r.1.heap, { r.1.pool with
    availableObjects := r.1.heap.next (mem + sizeofMemory) }, r.1.blocks,
    (mem + sizeofMemory) :: r.1.handedOut⟩
  let s₂ : PoolState := { s₁ with
    heap := s₁.heap.scramble (mem + sizeofMemory) size fun _ => forged }
  let s₃ : PoolState := ⟨s₂.heap, { s₂.pool with
    availableObjects := s₂.heap.next (mem + sizeofMemory + sizeofObject) }, s₂.blocks,
    (mem + sizeofMemory + sizeofObject) :: s₂.handedOut⟩
  have hnext : s₂.pool.availableObjects = some (mem + sizeofMemory + sizeofObject) := hsecond
  have hlast : s₃.pool.availableObjects = forged := hforged
  obtain ⟨s₄, hs₄⟩ := acquire_returns size s₃
  rw [hlast] at hs₄
  have hrun : Run.run (poolLifeStep size) [.call (.expand (n + 2) mem), .call .acquire] s =
      some (s₁, [.acquired (some (mem + sizeofMemory))]) :=
    Run.run_cons.mpr ⟨_, (s₁, _), hexpand,
      Run.run_cons.mpr ⟨_, _, acquire_some hfirst, rfl, rfl⟩, rfl⟩
  have hrun' : Run.run (poolLifeStep size) [.call .acquire, .call .acquire] s₂ =
      some (s₄, [.acquired (some (mem + sizeofMemory + sizeofObject)), .acquired forged]) :=
    Run.run_cons.mpr ⟨_, (s₄, _), acquire_some hnext,
      Run.run_cons.mpr ⟨_, _, hs₄, rfl, rfl⟩, rfl⟩
  exact ⟨fun _ => forged, _, (s₂, []), _, hrun, rfl, List.mem_cons_self, rfl, hrun', rfl⟩

/-- Objects of 24 bytes: the third address handed out is the user's. -/
theorem objectPool_forged_two : ∃ s junk r₁ r₂ r₃,
    Run.run (poolLifeStep 24) [.call (.expand 2 2000), .call .acquire] s = some r₁ ∧
      r₁.2 = [.acquired (some 2008)] ∧ 2008 ∈ r₁.1.handedOut ∧
      poolLifeStep 24 r₁.1 (.write 2008 junk) = some r₂ ∧
      Run.run (poolLifeStep 24) [.call .acquire, .call .acquire] r₂.1 = some r₃ ∧
      r₃.2 = [.acquired (some 2016), .acquired (some 4711)] := by
  obtain ⟨r, hr, hinv, -⟩ : ∃ r, objectPoolStep 24 .start (.create 1 1000) = some r ∧
      PoolInv 24 r.1 (objectsFrom 24 1 (1000 + sizeofMemory)) ∧ r.1.handedOut = [] :=
    create_kept (by decide) List.nodup_nil (fun p hp => absurd hp List.not_mem_nil) (by decide)
      (by decide)
  obtain rfl := Option.some.inj hr
  exact ⟨_, objectPool_forged (by decide) (by decide) hinv (by decide) (by decide) (some 4711)⟩

end OServer
