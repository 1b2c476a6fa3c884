import Linuxyz.Lib.Heap
import Linuxyz.Lib.System

/-!
# Linuxyz.Queue.Dynamic

The bounded queue of `data-queue-concurrent/dynamic.c`: a doubly linked list of
allocated nodes under one mutex and one condition variable, used by one producer
thread (`enqueue`) and one consumer thread (`dequeue`).

Both functions touch the queue only with the mutex held, so what they do between
`LOCK` and `LOCK_SIG_WAIT` or `UNLOCK` is one step here.  A signal goes to the
thread that waits, if one does.

`enqueue` signals when it finds the queue empty, `dequeue` when it finds it full
-- but the test for a full queue stands in the branch of `dequeue` for more than
one item.  In a queue of one slot the only item is taken out in the other
branch, and the producer that waits for room is not told.
-/

namespace Linuxyz.Queue.Dynamic

/-- `struct node`; `data` is the address of the item's own block. -/
structure Node where
  data : Nat
  prev : Option Nat
  next : Option Nat

/-- `bucket`, with the heaps of the nodes and of the blocks they own. -/
structure Bucket (α : Type) where
  limit : UInt32
  len : UInt32
  qhead : Option Nat
  qtail : Option Nat
  nodes : Heap Node
  blocks : Heap α

/-- `make_queue`. -/
def makeQueue (limit : UInt32) : Bucket α := ⟨limit, 0, none, none, .empty, .empty⟩

variable {α : Type}

/-- `enqueue` from the allocation on: the queue, and whether it signals.  `none`
is an access through `NULL` or to a node that was freed. -/
def enqueue (q : Bucket α) (data : α) : Option (Bucket α × Bool) :=
  let newd := q.nodes.next
  let nodes := q.nodes.malloc ⟨q.blocks.next, none, q.qhead⟩
  let blocks := q.blocks.malloc data
  if q.len = 0 then
    some (⟨q.limit, q.len + 1, some newd, some newd, nodes, blocks⟩, true)
  else do
    let head ← q.qhead
    let node ← nodes.block head
    let nodes ← nodes.store head { node with prev := some newd }
    some (⟨q.limit, q.len + 1, some newd, q.qtail, nodes, blocks⟩, false)

/-- `dequeue` from the access to `qtail` on: the item, the queue, and whether it
signals. -/
def dequeue (q : Bucket α) : Option (α × Bucket α × Bool) := do
  let d ← q.qtail
  let node ← q.nodes.block d
  let data ← q.blocks.block node.data
  let blocks ← q.blocks.free node.data
  let nodes ← q.nodes.free d
  if q.len = 1 then
    some (data, ⟨q.limit, q.len - 1, none, none, nodes, blocks⟩, false)
  else do
    let tail ← node.prev
    let last ← nodes.block tail
    let nodes ← nodes.store tail { last with next := none }
    some (data, ⟨q.limit, q.len - 1, q.qhead, node.prev, nodes, blocks⟩, q.len = q.limit)

/-! ## the threads -/

/-- Where a thread stands. -/
inductive Pc where
  /-- between two calls -/
  | idle
  /-- at `LOCK` -/
  | lock
  /-- blocked in `LOCK_SIG_WAIT` -/
  | wait
  /-- woken up, about to take the mutex back -/
  | woken
  /-- after its last call -/
  | finished
deriving DecidableEq, Repr

/-- `pthread_cond_signal`, sent by the other thread. -/
def Pc.wake : Pc → Pc
  | .wait => .woken
  | pc => pc

/-- The queue and its threads, `data` being the item of the running `enqueue`,
and the items that went in and came out. -/
structure State (α : Type) where
  q : Bucket α
  prod : Pc
  data : α
  cons : Pc
  enq : List α
  deq : List α

inductive Act (α : Type) where
  /-- the producer calls `enqueue` -/
  | enqueue (x : α)
  /-- the consumer calls `dequeue` -/
  | dequeue
  /-- the producer has the mutex, until it waits or returns -/
  | runProd
  /-- the consumer has the mutex, until it waits or returns -/
  | runCons
  /-- the producer makes no further call -/
  | finishProd
  /-- the consumer makes no further call -/
  | finishCons

/-- The rest of `enqueue` after the test, which the producer leaves idle. -/
def State.enqueue (s : State α) : Option (State α) :=
  (Dynamic.enqueue s.q s.data).map fun (q, signal) =>
    { s with q := q, prod := .idle, cons := if signal then s.cons.wake
      else s.cons, enq := s.enq ++ [s.data] }

/-- The rest of `dequeue` after the test. -/
def State.dequeue (s : State α) : Option (State α) :=
  (Dynamic.dequeue s.q).map fun (x, q, signal) =>
    { s with q := q, cons := .idle, prod := if signal then s.prod.wake
      else s.prod, deq := s.deq ++ [x] }

def step (s : State α) : Act α → Option (State α)
  | .enqueue x => if s.prod = .idle then some { s with prod := .lock, data := x } else none
  | .dequeue => if s.cons = .idle then some { s with cons := .lock } else none
  | .runProd =>
      match s.prod with
      | .lock => if s.q.len = s.q.limit then some { s with prod := .wait } else s.enqueue
      -- the queue is not tested again
      | .woken => s.enqueue
      | .idle | .wait | .finished => none
  | .runCons =>
      match s.cons with
      | .lock => if s.q.len = 0 then some { s with cons := .wait } else s.dequeue
      | .woken => s.dequeue
      | .idle | .wait | .finished => none
  | .finishProd => if s.prod = .idle then some { s with prod := .finished } else none
  | .finishCons => if s.cons = .idle then some { s with cons := .finished } else none

/-- The queue with limit `limit` and its two threads. -/
def dynamic (α : Type) (limit : UInt32) : System (State α) (Act α) where
  init s := s.q = makeQueue limit ∧ s.prod = .idle ∧ s.cons = .idle ∧ s.enq = [] ∧ s.deq = []
  step := step

/-! ## what one call does to the length -/

/-- An `enqueue` adds one to the length, and signals exactly if the queue was empty. -/
theorem enqueue_spec {q q' : Bucket α} (h : Dynamic.enqueue q data = some (q', signal)) :
    q'.limit = q.limit ∧ q'.len = q.len + 1 ∧ (signal = true ↔ q.len = 0) := by
  simp only [Dynamic.enqueue] at h
  split at h
  next hempty =>
    cases h
    exact ⟨rfl, rfl, by simp [hempty]⟩
  next hsome =>
    simp only [Option.bind_eq_bind, Option.bind_eq_some_iff] at h
    obtain ⟨head, -, node, -, nodes, -, h⟩ := h
    cases h
    exact ⟨rfl, rfl, by simp [hsome]⟩

/-- `dequeue` tells a producer about the room only where another item is left. -/
theorem dequeue_spec {q q' : Bucket α} (h : Dynamic.dequeue q = some (x, q', signal)) :
    q'.limit = q.limit ∧ q'.len = q.len - 1 ∧ (signal = true ↔ q.len ≠ 1 ∧ q.len = q.limit) := by
  simp only [Dynamic.dequeue, Option.bind_eq_bind, Option.bind_eq_some_iff] at h
  obtain ⟨d, -, node, -, data, -, blocks, -, nodes, -, h⟩ := h
  split at h
  next hone =>
    cases h
    exact ⟨rfl, rfl, by simp [hone]⟩
  next hmore =>
    simp only [Option.bind_eq_some_iff] at h
    obtain ⟨tail, -, last, -, nodes, -, h⟩ := h
    cases h
    exact ⟨rfl, rfl, by simp [hmore]⟩

/-! ## the invariant -/

/-- A thread that waits has a reason to, and one that was woken up has none any
more. -/
structure Awake (limit : UInt32) (s : State α) : Prop where
  limit_eq : s.q.limit = limit
  le : s.q.len.toNat ≤ limit.toNat
  prodWait : s.prod = .wait → s.q.len.toNat = limit.toNat
  prodWoken : s.prod = .woken → s.q.len.toNat < limit.toNat
  consWait : s.cons = .wait → s.q.len.toNat = 0
  consWoken : s.cons = .woken → 0 < s.q.len.toNat

variable {limit : UInt32} {s s' : State α}

theorem awake_start (h : (dynamic α limit).init s) : Awake limit s := by
  obtain ⟨hq, hprod, hcons, -, -⟩ := h
  refine ⟨by rw [hq]; rfl, by rw [hq]; exact Nat.zero_le _, ?_, ?_, ?_, ?_⟩ <;> simp [hprod, hcons]

/-- The rest of an `enqueue` that has room. -/
theorem Awake.enqueue (h : Awake limit s) (hroom : s.q.len.toNat < limit.toNat)
    (hs : s.enqueue = some s') : Awake limit s' := by
  obtain ⟨⟨q, signal⟩, hq, rfl⟩ := Option.map_eq_some_iff.mp hs
  obtain ⟨hlimit, hlen, hsignal⟩ := enqueue_spec hq
  have hmax := limit.toNat_lt
  have hlen' : q.len.toNat = s.q.len.toNat + 1 := by
    rw [hlen, UInt32.toNat_add]
    exact Nat.mod_eq_of_lt (by simp; omega)
  refine ⟨hlimit.trans h.limit_eq, by simp only; omega, by simp,
    by simp, fun hwait => ?_, fun _ => by simp only; omega⟩
  -- a consumer that waits does so in an empty queue, and is told
  have hempty : s.q.len = 0 → signal = true := hsignal.mpr
  have hcons := h.consWait
  simp only at hwait
  cases signal with
  | true => cases hpc : s.cons <;> simp [hpc, Pc.wake] at hwait
  | false =>
      have hzero : s.q.len = 0 := UInt32.toNat_inj.mp (hcons hwait)
      cases hempty hzero

/-- The rest of a `dequeue` that finds an item, in a queue of more than one
slot. -/
theorem Awake.dequeue (h : Awake limit s) (hone : limit ≠ 1) (hitem : 0 < s.q.len.toNat)
    (hs : s.dequeue = some s') : Awake limit s' := by
  obtain ⟨⟨x, q, signal⟩, hq, rfl⟩ := Option.map_eq_some_iff.mp hs
  obtain ⟨hlimit, hlen, hsignal⟩ := dequeue_spec hq
  have hle := h.le
  have hlen' : q.len.toNat = s.q.len.toNat - 1 := by
    rw [hlen, UInt32.toNat_sub_of_le]
    · rfl
    · exact UInt32.le_iff_toNat_le.mpr hitem
  refine ⟨hlimit.trans h.limit_eq,
    by simp only; omega, fun hwait => ?_, fun _ => by simp only; omega, by simp, by simp⟩
  -- a producer that waits does so in a full queue of more than one item, and is told
  have hprod := h.prodWait
  simp only at hwait
  cases signal with
  | true => cases hpc : s.prod <;> simp [hpc, Pc.wake] at hwait
  | false =>
      have hfull : s.q.len = limit := UInt32.toNat_inj.mp (hprod hwait)
      cases hsignal.mpr ⟨hfull ▸ hone, hfull.trans h.limit_eq.symm⟩

/-- In a queue of more than one slot no signal comes too early or is missed. -/
theorem Awake.step (h : Awake limit s) (hone : limit ≠ 1) {a : Act α} (hs : step s a = some s') :
    Awake limit s' := by
  cases a with
  | enqueue x | dequeue | finishProd | finishCons =>
      simp only [Dynamic.step, Option.ite_none_right_eq_some, Option.some.injEq] at hs
      obtain ⟨hidle, rfl⟩ := hs
      grind [Awake]
  | runProd =>
      cases hpc : s.prod <;> simp only [Dynamic.step, hpc, reduceCtorEq] at hs
      case lock =>
        split at hs
        next hfull =>
          cases hs
          have hlen : s.q.len.toNat = limit.toNat := by rw [hfull, h.limit_eq]
          grind [Awake]
        next hroom =>
          have hne : s.q.len.toNat ≠ limit.toNat :=
            fun he => hroom ((UInt32.toNat_inj.mp he).trans h.limit_eq.symm)
          exact h.enqueue (Nat.lt_of_le_of_ne h.le hne) hs
      case woken => exact h.enqueue (h.prodWoken hpc) hs
  | runCons =>
      cases hpc : s.cons <;> simp only [Dynamic.step, hpc, reduceCtorEq] at hs
      case lock =>
        split at hs
        next hempty =>
          cases hs
          have hlen : s.q.len.toNat = 0 := by rw [hempty]; rfl
          grind [Awake]
        next hitem =>
          have hne : s.q.len.toNat ≠ 0 := fun he => hitem (UInt32.toNat_inj.mp he)
          exact h.dequeue hone (Nat.pos_of_ne_zero hne) hs
      case woken => exact h.dequeue hone (h.consWoken hpc) hs

/-! ## deadlock -/

/-- So both threads never wait at once, nor one for what the other, which has finished,
has left. -/
theorem Awake.unblocked (h : Awake limit s) (hpos : 1 ≤ limit.toNat) :
    ¬ (s.prod = .wait ∧ s.cons = .wait) ∧
      ¬ (s.prod = .wait ∧ s.cons = .finished ∧ s.q.len ≠ s.q.limit) ∧
      ¬ (s.cons = .wait ∧ s.prod = .finished ∧ s.q.len ≠ 0) := by
  refine ⟨fun ⟨hp, hc⟩ => ?_, fun ⟨hp, _, hroom⟩ => ?_, fun ⟨hc, _, hitem⟩ => ?_⟩
  · have hfull := h.prodWait hp
    have hempty := h.consWait hc
    omega
  · exact hroom ((UInt32.toNat_inj.mp (h.prodWait hp)).trans h.limit_eq.symm)
  · exact hitem (UInt32.toNat_inj.mp (h.consWait hc))

/-- The producer fills a queue of one slot and waits, the consumer empties it
and waits. -/
def fillAndEmpty (x : α) : List (Act α) :=
  [.enqueue x, .runProd, .enqueue x, .runProd, .dequeue, .runCons, .dequeue, .runCons]

/-- An item goes through an empty queue, and nobody is told about the room. -/
theorem dequeue_enqueue (limit : UInt32) (x : α) :
    ∃ q q', Dynamic.enqueue (makeQueue limit) x = some (q, true) ∧
      Dynamic.dequeue q = some (x, q', false) ∧ q.len = 1 ∧ q.limit = limit ∧ q'.len = 0 := by
  obtain ⟨nodes', hnodes, -, -⟩ :=
    Heap.free_of_live (Heap.block_malloc_self (.empty : Heap Node) ⟨0, none, none⟩)
  obtain ⟨blocks', hblocks, -, -⟩ := Heap.free_of_live (Heap.block_malloc_self (.empty : Heap α) x)
  refine ⟨⟨limit, 1, some 0, some 0, Heap.empty.malloc ⟨0, none, none⟩, Heap.empty.malloc x⟩,
    ⟨limit, 1 - 1, none, none, nodes', blocks'⟩, by rw [Dynamic.enqueue]; exact if_pos rfl, ?_,
    rfl, rfl, rfl⟩
  have hnode : (Heap.empty.malloc (⟨0, none, none⟩ : Node)).block 0 = some ⟨0, none, none⟩ :=
    Heap.block_malloc_self .empty _
  have hblock : (Heap.empty.malloc x).block 0 = some x := Heap.block_malloc_self .empty x
  simp only [Dynamic.dequeue, Option.bind_eq_bind, Option.bind_some, hnode, hblock]
  rw [show Heap.free _ 0 = some blocks' from hblocks, show Heap.free _ 0 = some nodes' from hnodes]
  rfl

/-- In a queue of one slot an `enqueue` and a `dequeue` can leave both threads
waiting. -/
theorem run_fillAndEmpty (x : α) :
    ∃ s, (dynamic α 1).run ⟨makeQueue 1, .idle, x, .idle, [], []⟩ (fillAndEmpty x) = some s ∧
      s.prod = .wait ∧ s.cons = .wait := by
  obtain ⟨q, q', henqueue, hdequeue, hlen, hlimit, hlen'⟩ := dequeue_enqueue 1 x
  have hroom : (makeQueue 1 : Bucket α).len ≠ (makeQueue 1 : Bucket α).limit :=
    (by decide : (0 : UInt32) ≠ 1)
  have hfull : q.len = q.limit := hlen.trans hlimit.symm
  have hitem : q.len ≠ 0 := by rw [hlen]; decide
  refine ⟨⟨q', .wait, x, .wait, [x], [x]⟩, ?_, rfl, rfl⟩
  simp only [fillAndEmpty, System.run_cons, System.run, dynamic, step, if_true, Option.bind_some,
    if_neg hroom, State.enqueue, henqueue, Pc.wake, Option.map_some, if_pos hfull, if_neg hitem,
    State.dequeue, hdequeue, Bool.false_eq_true, if_false, if_pos hlen', List.nil_append]

/-- **The linked queue deadlocks exactly at limit 1.**  For every limit of at
least 1 and every interleaving of the two threads: producer and consumer are
never blocked together, and none is left blocked in a queue that would let it go
on after the other has finished, if and only if the limit is not 1. -/
theorem dynamic_unblocked_iff [Inhabited α] (limit : UInt32) (hpos : 1 ≤ limit.toNat) :
    (∀ s, (dynamic α limit).Reachable s →
      ¬ (s.prod = .wait ∧ s.cons = .wait) ∧
        ¬ (s.prod = .wait ∧ s.cons = .finished ∧ s.q.len ≠ s.q.limit) ∧
        ¬ (s.cons = .wait ∧ s.prod = .finished ∧ s.q.len ≠ 0)) ↔ limit ≠ 1 := by
  constructor
  · rintro h rfl
    obtain ⟨s, hrun, hprod, hcons⟩ := run_fillAndEmpty (default : α)
    have hreach := System.reachable_of_run (M := dynamic α 1) (.init ⟨rfl, rfl, rfl, rfl, rfl⟩) hrun
    exact (h s hreach).1 ⟨hprod, hcons⟩
  · intro hone s hs
    have h :=
      hs.invariant (P := Awake limit) (fun _ => awake_start) fun _ _ _ h hs => h.step hone hs
    exact h.unblocked hpos

/-- Two slots are enough. -/
theorem dynamic_unblocked_two :
    1 ≤ (2 : UInt32).toNat ∧ ∀ s, (dynamic Nat 2).Reachable s →
      ¬ (s.prod = .wait ∧ s.cons = .wait) ∧
        ¬ (s.prod = .wait ∧ s.cons = .finished ∧ s.q.len ≠ s.q.limit) ∧
        ¬ (s.cons = .wait ∧ s.prod = .finished ∧ s.q.len ≠ 0) :=
  ⟨by decide, (dynamic_unblocked_iff 2 (by decide)).mpr (by decide)⟩

/-- In a queue of one slot both threads end up blocked; and a producer is left
blocked in an empty queue by a consumer that has finished. -/
theorem dynamic_deadlocks :
    (∃ s, (dynamic Nat 1).run ⟨makeQueue 1, .idle, 5, .idle, [], []⟩ (fillAndEmpty 5) = some s ∧
      s.prod = .wait ∧ s.cons = .wait) ∧
    ∃ s, (dynamic Nat 1).run ⟨makeQueue 1, .idle, 5, .idle, [], []⟩
        [.enqueue 5, .runProd, .enqueue 6, .runProd, .dequeue, .runCons, .finishCons] = some s ∧
      s.prod = .wait ∧ s.cons = .finished ∧ s.q.len = 0 ∧ s.q.limit = 1 := by
  refine ⟨run_fillAndEmpty 5, ?_⟩
  have hpcs : ((dynamic Nat 1).run ⟨makeQueue 1, .idle, 5, .idle, [], []⟩
      [.enqueue 5, .runProd, .enqueue 6, .runProd, .dequeue, .runCons, .finishCons]).map
      (fun s => (s.prod, s.cons, s.q.len, s.q.limit)) = some (.wait, .finished, 0, 1) := by
        decide +kernel
  obtain ⟨s, hs, hleft⟩ := Option.map_eq_some_iff.mp hpcs
  simp only [Prod.mk.injEq] at hleft
  exact ⟨s, hs, hleft⟩

end Linuxyz.Queue.Dynamic
