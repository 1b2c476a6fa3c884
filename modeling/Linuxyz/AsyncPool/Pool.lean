import Linuxyz.Lib.System
import Mathlib.Data.List.Nodup
import Mathlib.Logic.Function.Basic

/-!
# Linuxyz.AsyncPool.Pool

The pools of `dev-sock-epoll-tcp-async-pool`: `to_worker` pushes a buffer and
signals a condition variable, the thread of the pool waits for the signal and
pops one buffer.  Both sides hold the pool's mutex while they touch it, so a
critical section is one step here; a caller that finds the pool full goes round
its loop and does not count as a step.

`data_idx` is the index of the top buffer, and the thread takes a negative one
for an empty pool.  But `main` creates a pool with `data_idx` 0 and nothing in
`data[0]`, and the thread waits before it looks at the pool: a signal sent
while it does not wait is lost.  So the hand-over works only while each push
finds the thread waiting, with no wakeup on its way.
-/

namespace Linuxyz.AsyncPool

/-- `MAX_BUFF`: the size of a buffer and of a pool's array. -/
def maxBuff : Nat := 1024

/-- `async_pool`.  `data i` is the buffer `data[i]` points to, `none` where the
pointer was never stored or the buffer was freed; `allocated` is false once the
array itself was freed. -/
structure Pool (α : Type) where
  fd : Int
  data : Int → Option α
  dataIdx : Int
  allocated : Bool

/-- A pool as `main` creates it: zeroed, with an array that is not. -/
def Pool.start : Pool α := ⟨0, fun _ => none, 0, true⟩

/-- `idx` is an index of an array that is still there. -/
def Pool.InArray (p : Pool α) (idx : Int) : Prop := p.allocated = true ∧ 0 ≤ idx ∧ idx < maxBuff

instance Pool.decidableInArray (p : Pool α) (idx : Int) : Decidable (p.InArray idx) :=
  inferInstanceAs (Decidable (_ ∧ _ ∧ _))

/-- The critical section of `to_worker` and `to_writer`.  A store outside the
array is not found again by any pop. -/
def Pool.push (p : Pool α) (fd : Int) (b : α) : Pool α where
  fd := fd
  data :=
    if p.InArray (p.dataIdx + 1) then Function.update p.data (p.dataIdx + 1) (some b) else p.data
  dataIdx := p.dataIdx + 1
  allocated := p.allocated

/-- The buffer a pop reads. -/
def Pool.top (p : Pool α) : Option α := if p.InArray p.dataIdx then p.data p.dataIdx else none

theorem Pool.push_data {p : Pool α} {fd : Int} {b : α} (h : p.InArray (p.dataIdx + 1)) (i : Int) :
    (p.push fd b).data i = if i = p.dataIdx + 1 then some b else p.data i := by
  simp only [Pool.push, if_pos h, Function.update_apply]

theorem Pool.push_top {p : Pool α} {fd : Int} {b : α} (h : p.InArray (p.dataIdx + 1)) :
    (p.push fd b).top = some b := by
  have hin : (p.push fd b).InArray (p.push fd b).dataIdx := h
  rw [Pool.top, if_pos hin, Pool.push_data h]
  exact if_pos rfl

/-- What the critical section of `worker` leaves: the buffer is freed. -/
def Pool.pop (p : Pool α) : Pool α :=
  { p with data := Function.update p.data p.dataIdx none, dataIdx := p.dataIdx - 1 }

/-- Where the thread of a pool stands. -/
inductive Stage (β : Type) where
  /-- about to lock the mutex, at the head of its loop -/
  | lock
  /-- blocked in `pthread_cond_wait` -/
  | waiting
  /-- woken up, about to take the mutex back -/
  | woken
  /-- past the critical section, with what it popped -/
  | busy (item : β)
deriving DecidableEq, Repr

/-- `pthread_cond_signal`: without a waiter nothing happens. -/
def Stage.signal : Stage β → Stage β
  | .waiting => .woken
  | s => s

/-! ## one pool and its worker -/

/-- A pool of buffers, numbered as they are pushed, and its worker; with the
number of pushes, what the pops found and the indices used so far. -/
structure Handover where
  pool : Pool Nat
  worker : Stage Unit
  pushed : Nat
  popped : List (Option Nat)
  indices : List Int

def Handover.start : Handover := ⟨.start, .lock, 0, [], []⟩

inductive Act where
  /-- the critical section of `to_worker` -/
  | toWorker (fd : Int)
  /-- the worker locks the mutex and waits -/
  | wait
  /-- `pthread_cond_wait` returns without a signal -/
  | spurious
  /-- the worker's critical section after the wait -/
  | wake
  /-- the worker is done with its buffer -/
  | finish
deriving DecidableEq, Repr

/-- The critical section of `to_worker`, unless the pool is full. -/
def toWorker (s : Handover) (fd : Int) : Option Handover :=
  if s.pool.dataIdx = maxBuff then none
  else some ⟨s.pool.push fd s.pushed, s.worker.signal, s.pushed + 1, s.popped,
    s.indices ++ [s.pool.dataIdx + 1]⟩

/-- The critical section of `worker` after the wait. -/
def workerWake (s : Handover) : Handover :=
  if s.pool.dataIdx < 0 then { s with worker := .lock }
  else ⟨s.pool.pop, .busy (), s.pushed, s.popped ++ [s.pool.top], s.indices ++ [s.pool.dataIdx]⟩

def handover : System Handover Act where
  init s := s = .start
  step s
    | .toWorker fd => toWorker s fd
    | .wait => if s.worker = .lock then some { s with worker := .waiting } else none
    | .spurious => if s.worker = .waiting then some { s with worker := .woken } else none
    | .wake => if s.worker = .woken then some (workerWake s) else none
    | .finish => if s.worker = .busy () then some { s with worker := .lock } else none

/-- `to_worker` is called while the worker waits and no wakeup is on its way,
and no wakeup is spurious. -/
def Awaited (s : Handover) : Act → Prop
  | .toWorker _ => s.worker = .waiting
  | .spurious => False
  | _ => True

instance decidableAwaited (s : Handover) : (a : Act) → Decidable (Awaited s a)
  | .toWorker _ => inferInstanceAs (Decidable (s.worker = .waiting))
  | .spurious => .isFalse id
  | .wait | .wake | .finish => .isTrue trivial

/-! ## the invariant -/

/-- Nothing is in the pool, and everything pushed was popped. -/
def Handover.Empty (s : Handover) : Prop :=
  s.pool.dataIdx = 0 ∧ (∀ i, s.pool.data i = none) ∧ s.popped = (List.range s.pushed).map some

/-- The buffer pushed last is in the pool, and those before it were popped. -/
def Handover.Loaded (s : Handover) : Prop :=
  ∃ n, s.pushed = n + 1 ∧ s.pool.dataIdx = 1 ∧
    (∀ i, s.pool.data i = if i = 1 then some n else none) ∧ s.popped = (List.range n).map some

/-- The pool is loaded exactly while a wakeup is on its way. -/
structure InTurn (s : Handover) : Prop where
  allocated : s.pool.allocated = true
  empty : s.worker ≠ .woken → s.Empty
  loaded : s.worker = .woken → s.Loaded
  indices : ∀ i ∈ s.indices, i = 1

theorem inTurn_start : InTurn .start where
  allocated := rfl
  empty _ := ⟨rfl, fun _ => rfl, rfl⟩
  loaded h := by cases h
  indices i hi := by cases hi

/-- A push for a worker that waits keeps the order: the worker is signalled and has
nothing else to take. -/
theorem InTurn.toWorker {s s' : Handover} (h : InTurn s) (hw : s.worker = .waiting)
    (hs : toWorker s fd = some s') : InTurn s' := by
  obtain ⟨hidx, hdata, hpopped⟩ := h.empty (by simp [hw])
  rw [AsyncPool.toWorker, hidx, if_neg (by decide)] at hs
  cases hs
  refine ⟨h.allocated, fun hne => absurd (by rw [hw]; rfl) hne, fun _ => ?_, ?_⟩
  · have hin : s.pool.InArray (s.pool.dataIdx + 1) :=
      ⟨h.allocated, by rw [hidx]; decide, by rw [hidx]; decide⟩
    refine ⟨s.pushed, rfl, by simp [Pool.push, hidx], fun i => ?_, hpopped⟩
    rw [Pool.push_data hin, hdata, hidx, Int.zero_add]
  · exact List.forall_mem_append.mpr ⟨h.indices, List.forall_mem_singleton.mpr rfl⟩

/-- A worker that wakes up pops the item it was signalled for. -/
theorem InTurn.workerWake {s : Handover} (h : InTurn s) (hw : s.worker = .woken) :
    InTurn (workerWake s) := by
  obtain ⟨n, hpushed, hidx, hdata, hpopped⟩ := h.loaded hw
  have hin : s.pool.InArray s.pool.dataIdx :=
    ⟨h.allocated, by rw [hidx]; decide, by rw [hidx]; decide⟩
  have htop : s.pool.top = some n := by rw [Pool.top, if_pos hin, hdata, if_pos hidx]
  rw [AsyncPool.workerWake, if_neg (by rw [hidx]; decide)]
  refine ⟨h.allocated, fun _ => ⟨?_, fun i => ?_, ?_⟩, fun he => (by cases he), ?_⟩
  · simp [Pool.pop, hidx]
  · simp only [Pool.pop, Function.update_apply, hidx, hdata]
    split <;> rfl
  · simp [htop, hpopped, hpushed, List.range_succ]
  · exact List.forall_mem_append.mpr ⟨h.indices, List.forall_mem_singleton.mpr hidx⟩

/-- A step of the worker outside the critical sections. -/
theorem InTurn.moves {s : Handover} (h : InTurn s) (hfrom : s.worker ≠ .woken)
    (hto : stage ≠ .woken) : InTurn { s with worker := stage } :=
  ⟨h.allocated, fun _ => h.empty hfrom, fun he => absurd he hto, h.indices⟩

/-- One step, under the condition that items come to a worker that waits. -/
theorem inTurn_step {s s' : Handover} {a : Act} (h : InTurn s) (ha : Awaited s a)
    (hs : handover.step s a = some s') : InTurn s' := by
  cases a with
  | toWorker fd => exact h.toWorker ha hs
  | spurious => exact absurd ha id
  | wait | finish =>
      simp only [handover, Option.ite_none_right_eq_some, Option.some.injEq] at hs
      obtain ⟨hw, rfl⟩ := hs
      exact h.moves (by simp [hw]) (by simp)
  | wake =>
      simp only [handover, Option.ite_none_right_eq_some, Option.some.injEq] at hs
      obtain ⟨hw, rfl⟩ := hs
      exact h.workerWake hw

theorem InTurn.popped_eq {s : Handover} (h : InTurn s) :
    ∃ n ≤ s.pushed, s.popped = (List.range n).map some := by
  by_cases hw : s.worker = .woken
  · obtain ⟨n, hpushed, -, -, hpopped⟩ := h.loaded hw
    exact ⟨n, by omega, hpopped⟩
  · exact ⟨s.pushed, Nat.le_refl _, (h.empty hw).2.2⟩

/-- **Awaited pushes are handed over exactly once.**  In every run in which
`to_worker` is called only while the worker waits without a wakeup on its way,
and no wakeup is spurious: every pop found a buffer that was pushed and not yet
popped, no buffer was popped twice, every index lies in the array, and a worker
that waits leaves nothing in the pool. -/
theorem handed_over_once_of_awaited {as : List Act} {s : Handover}
    (has : handover.Meets Awaited .start as) (hrun : handover.run .start as = some s) :
    (∀ b ∈ s.popped, ∃ n < s.pushed, b = some n) ∧ s.popped.Nodup ∧
      (∀ i ∈ s.indices, 0 ≤ i ∧ i < maxBuff) ∧
      (s.worker = .waiting → (∀ i, s.pool.data i = none) ∧ s.popped.length = s.pushed) := by
  have h := has.invariant (I := InTurn) (fun _ _ _ h ha hs => inTurn_step h ha hs) inTurn_start hrun
  obtain ⟨n, hn, hpopped⟩ := h.popped_eq
  refine ⟨fun b hb => ?_, ?_, fun i hi => ?_, fun hw => ?_⟩
  · rw [hpopped] at hb
    obtain ⟨k, hk, rfl⟩ := List.mem_map.mp hb
    exact ⟨k, Nat.lt_of_lt_of_le (List.mem_range.mp hk) hn, rfl⟩
  · rw [hpopped]
    exact List.nodup_range.map fun _ _ he => Option.some.inj he
  · rw [h.indices i hi]
    decide
  · obtain ⟨-, hdata, hall⟩ := h.empty (by simp [hw])
    exact ⟨hdata, by rw [hall, List.length_map, List.length_range]⟩

/-- Two buffers, each pushed while the worker waits. -/
theorem handed_over_once_in_turn :
    ∃ s, handover.run .start [.wait, .toWorker 5, .wake, .finish, .wait, .toWorker 6, .wake] =
      some s ∧ (∀ b ∈ s.popped, ∃ n < s.pushed, b = some n) ∧ s.popped.Nodup ∧
      (∀ i ∈ s.indices, 0 ≤ i ∧ i < maxBuff) ∧
      (s.worker = .waiting → (∀ i, s.pool.data i = none) ∧ s.popped.length = s.pushed) := by
  have has :
      handover.Meets Awaited .start [.wait, .toWorker 5, .wake, .finish, .wait, .toWorker 6,
        .wake] := by
    decide
  exact ⟨_, rfl, handed_over_once_of_awaited has rfl⟩

/-- A first wakeup that is spurious pops `data[0]`, which was never stored; and
a buffer pushed before the worker waits is left behind. -/
theorem handover_pops_nothing_and_strands :
    (∃ s, handover.run .start [.wait, .spurious, .wake] = some s ∧ s.pushed = 0 ∧
      s.popped = [none]) ∧
    ∃ s, handover.run .start [.toWorker 5, .wait] = some s ∧ s.worker = .waiting ∧
      s.pool.data 1 = some 0 :=
  ⟨⟨_, rfl, rfl, rfl⟩, _, rfl, rfl, rfl⟩

end Linuxyz.AsyncPool
