import Linuxyz.Lib.System
import Mathlib.Logic.Function.Basic

/-!
# Linuxyz.Queue.Static

The bounded queue of `data-queue-concurrent/static.c`, compiled with
`LOCK_SPIN 0`: a ring of `limit` slots under one mutex and one condition
variable, used by one producer thread (`enqueue`) and one consumer thread
(`dequeue`).

Each thread runs its function statement by statement; a `Pc` names the
statement it is about to execute, and its locals survive between the two
tests around the condition wait.  The mutex is its owner.  A thread blocked
in `pthread_cond_wait` sits at `wait`; a signal or a spurious wakeup moves it
to `woken`, where it competes for the mutex again.  An item is one block of
`datalen` bytes, here a value of an arbitrary type `α`.
-/

namespace Linuxyz.Queue

/-- `struct node`: one slot. -/
structure Node (α : Type) where
  inUse : UInt8
  data : α

/-- The store `arr[i].in_use = v`. -/
def setInUse (arr : Nat → Node α) (i : Nat) (v : UInt8) : Nat → Node α :=
  Function.update arr i { arr i with inUse := v }

/-- The `memcpy` of the block `x` to `arr[i].data`. -/
def setData (arr : Nat → Node α) (i : Nat) (x : α) : Nat → Node α :=
  Function.update arr i { arr i with data := x }

@[simp] theorem setInUse_data (arr : Nat → Node α) (i j : Nat) (v : UInt8) :
    (setInUse arr i v j).data = (arr j).data := by
  by_cases h : j = i
  · subst h; simp [setInUse]
  · simp [setInUse, h]

@[simp] theorem setInUse_self (arr : Nat → Node α) (i : Nat) (v : UInt8) :
    (setInUse arr i v i).inUse = v := by
  simp [setInUse]

theorem setInUse_of_ne (arr : Nat → Node α) (v : UInt8) (h : j ≠ i) :
    (setInUse arr i v j).inUse = (arr j).inUse := by
  simp [setInUse, h]

@[simp] theorem setData_inUse (arr : Nat → Node α) (i j : Nat) (x : α) :
    (setData arr i x j).inUse = (arr j).inUse := by
  by_cases h : j = i
  · subst h; simp [setData]
  · simp [setData, h]

@[simp] theorem setData_self (arr : Nat → Node α) (i : Nat) (x : α) :
    (setData arr i x i).data = x := by
  simp [setData]

theorem setData_of_ne (arr : Nat → Node α) (x : α) (h : j ≠ i) :
    (setData arr i x j).data = (arr j).data := by
  simp [setData, h]

/-- The two threads. -/
inductive Tid where
  | producer
  | consumer
deriving Repr, DecidableEq

/-- The statement a thread executes next, in the order of the source. -/
inductive Pc where
  /-- outside the function -/
  | idle
  /-- `LOCK`, at the head of the loop -/
  | lock
  /-- `hidx = q->head % q->limit` -/
  | loadHead
  /-- `tidx = q->tail % q->limit` -/
  | loadTail
  /-- the test before the wait -/
  | test
  /-- blocked in `LOCK_SIG_WAIT` -/
  | wait
  /-- woken up, about to take the mutex back -/
  | woken
  /-- the test after the wait -/
  | retest
  /-- `UNLOCK` before `continue` -/
  | release
  /-- the `memcpy` -/
  | copy
  /-- the test that guards `LOCK_SIG_SEND` -/
  | signal
  /-- the store to `in_use` -/
  | mark
  /-- the increment of `tail` or `head` -/
  | advance
  /-- `UNLOCK` before `break` -/
  | unlock
deriving Repr, DecidableEq

/-- A thread's locals: where it is, its two indices, and the block `data`
points to. -/
structure Local (α : Type) where
  pc : Pc
  hidx : Nat
  tidx : Nat
  data : α

/-- The queue, its two threads, and the history of completed copies: `enq`
grows when `tail` advances, `deq` when `head` does. -/
structure State (α : Type) where
  limit : Nat
  arr : Nat → Node α
  head : UInt32
  tail : UInt32
  lock : Option Tid
  prod : Local α
  cons : Local α
  enq : List α
  deq : List α

variable {α : Type}

/-- `pthread_cond_signal`, sent by the other thread: a waiter is woken up. -/
def Local.wake (l : Local α) : Local α := if l.pc = .wait then { l with pc := .woken } else l

/-- `pthread_mutex_lock` by `t`: possible when the mutex is free. -/
def State.acquire (s : State α) (t : Tid) : Option (State α) :=
  if s.lock = none then some { s with lock := some t } else none

/-- The producer's next statement in `enqueue`. -/
def enqueueStep (s : State α) : Option (State α) :=
  let p := s.prod
  match p.pc with
  | .idle => none
  | .lock => (s.acquire .producer).map fun s => { s with prod := { p with pc := .loadHead } }
  | .loadHead => some { s with prod := { p with hidx := s.head.toNat % s.limit, pc := .loadTail } }
  | .loadTail => some { s with prod := { p with tidx := s.tail.toNat % s.limit, pc := .test } }
  | .test =>
      if p.hidx = p.tidx ∧ (s.arr p.hidx).inUse = 1 then
        -- `pthread_cond_wait` releases the mutex and blocks in one step
        some { s with lock := none, prod := { p with pc := .wait } }
      else some { s with prod := { p with pc := .copy } }
  | .wait => none
  | .woken => (s.acquire .producer).map fun s => { s with prod := { p with pc := .retest } }
  | .retest =>
      if p.hidx = p.tidx ∧ (s.arr p.hidx).inUse = 1 then
        some { s with prod := { p with pc := .release } }
      else some { s with prod := { p with pc := .copy } }
  | .release => some { s with lock := none, prod := { p with pc := .lock } }
  | .copy => some { s with arr := setData s.arr p.tidx p.data, prod := { p with pc := .signal } }
  | .signal =>
      if p.hidx = p.tidx ∧ (s.arr p.hidx).inUse ≠ 1 then
        some { s with cons := s.cons.wake, prod := { p with pc := .mark } }
      else some { s with prod := { p with pc := .mark } }
  | .mark => some { s with arr := setInUse s.arr p.tidx 1, prod := { p with pc := .advance } }
  | .advance =>
      some { s with tail := s.tail + 1, enq := s.enq ++ [p.data], prod := { p with pc := .unlock } }
  | .unlock => some { s with lock := none, prod := { p with pc := .idle } }

/-- The consumer's next statement in `dequeue`. -/
def dequeueStep (s : State α) : Option (State α) :=
  let c := s.cons
  match c.pc with
  | .idle => none
  | .lock => (s.acquire .consumer).map fun s => { s with cons := { c with pc := .loadHead } }
  | .loadHead => some { s with cons := { c with hidx := s.head.toNat % s.limit, pc := .loadTail } }
  | .loadTail => some { s with cons := { c with tidx := s.tail.toNat % s.limit, pc := .test } }
  | .test =>
      if c.hidx = c.tidx ∧ (s.arr c.hidx).inUse ≠ 1 then
        some { s with lock := none, cons := { c with pc := .wait } }
      else some { s with cons := { c with pc := .copy } }
  | .wait => none
  | .woken => (s.acquire .consumer).map fun s => { s with cons := { c with pc := .retest } }
  | .retest =>
      if c.hidx = c.tidx ∧ (s.arr c.hidx).inUse ≠ 1 then
        some { s with cons := { c with pc := .release } }
      else some { s with cons := { c with pc := .copy } }
  | .release => some { s with lock := none, cons := { c with pc := .lock } }
  | .copy => some { s with cons := { c with data := (s.arr c.hidx).data, pc := .signal } }
  | .signal =>
      if c.hidx = c.tidx ∧ (s.arr c.hidx).inUse = 1 then
        some { s with prod := s.prod.wake, cons := { c with pc := .mark } }
      else some { s with cons := { c with pc := .mark } }
  | .mark => some { s with arr := setInUse s.arr c.hidx 0, cons := { c with pc := .advance } }
  | .advance =>
      some { s with head := s.head + 1, deq := s.deq ++ [c.data], cons := { c with pc := .unlock } }
  | .unlock => some { s with lock := none, cons := { c with pc := .idle } }

/-- What can happen next. -/
inductive Act (α : Type) where
  /-- the producer calls `enqueue` with the block `x` -/
  | enqueue (x : α)
  /-- the consumer calls `dequeue` -/
  | dequeue
  /-- the scheduler lets a thread execute one statement -/
  | run (t : Tid)
  /-- a blocked thread's `pthread_cond_wait` returns without a signal -/
  | spurious (t : Tid)

def step (s : State α) : Act α → Option (State α)
  | .enqueue x =>
      if s.prod.pc = .idle then some { s with prod := { s.prod with data := x, pc := .lock } }
      else none
  | .dequeue =>
      if s.cons.pc = .idle then some { s with cons := { s.cons with pc := .lock } } else none
  | .run .producer => enqueueStep s
  | .run .consumer => dequeueStep s
  | .spurious .producer => if s.prod.pc = .wait then some { s with prod := s.prod.wake } else none
  | .spurious .consumer => if s.cons.pc = .wait then some { s with cons := s.cons.wake } else none

/-- `make_queue(datalen, max)` before the first call: every slot free and the
counters zero.  What the data blocks and the threads' locals hold is arbitrary. -/
structure MakeQueue (max : Nat) (s : State α) : Prop where
  limit : s.limit = max
  arr : ∀ i < max, (s.arr i).inUse = 0
  head : s.head = 0
  tail : s.tail = 0
  lock : s.lock = none
  prod : s.prod.pc = .idle
  cons : s.cons.pc = .idle
  enq : s.enq = []
  deq : s.deq = []

/-- The fresh queue whose blocks all hold `x`. -/
def makeQueue (max : Nat) (x : α) : State α where
  limit := max
  arr := fun _ => ⟨0, x⟩
  head := 0
  tail := 0
  lock := none
  prod := ⟨.idle, 0, 0, x⟩
  cons := ⟨.idle, 0, 0, x⟩
  enq := []
  deq := []

theorem makeQueue_init (max : Nat) (x : α) : MakeQueue max (makeQueue max x) :=
  ⟨rfl, fun _ _ => rfl, rfl, rfl, rfl, rfl, rfl, rfl, rfl⟩

/-- The queue of capacity `max` with its two threads. -/
def static (α : Type) (max : Nat) : System (State α) (Act α) where
  init := MakeQueue max
  step := step

end Linuxyz.Queue
