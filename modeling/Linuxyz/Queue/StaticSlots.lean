import Linuxyz.Queue.Static
import Linuxyz.Lib.RingIndex

/-!
# Linuxyz.Queue.StaticSlots

Which slots the calls of `data-queue-concurrent/static.c` use, for any capacity and
any number of calls.

`enqueue` writes the slot `tail % limit` and `dequeue` reads the slot `head % limit`.
The counters have 32 bits, so the slot of the `i`-th call is `i % 2 ^ 32 % limit`
(`slots_of_run`), for both of them: item `i` is always read where it was written.  From
one call to the next the slot goes on by one as long as the counter does not wrap
around, and at the wrap it does so only when the capacity divides `2 ^ 32`.
-/

namespace Linuxyz.Queue

open RingIndex

variable {α : Type}

/-! ## the slots of a run -/

/-- The slot that an action of thread `t` copies to or from. -/
def slotUsed (s : State α) : Tid → Act α → Option Nat
  | .producer, .run .producer => if s.prod.pc = .copy then some s.prod.tidx else none
  | .consumer, .run .consumer => if s.cons.pc = .copy then some s.cons.hidx else none
  | _, _ => none

/-- The slots that the calls of thread `t` use along a run, in order. -/
def slots (t : Tid) (s : State α) : List (Act α) → List Nat
  | [] => []
  | a :: as =>
      match step s a with
      | none => []
      | some s' => (slotUsed s t a).toList ++ slots t s' as

/-- A call has made its copy and has still to advance its counter. -/
def Pc.copied : Pc → Bool
  | .signal | .mark | .advance => true
  | _ => false

/-- The index that a call of thread `t` works with is loaded, and its counter not
advanced yet. -/
def Pc.indexed : Tid → Pc → Bool
  | .consumer, .loadTail => true
  | _, .test | _, .wait | _, .woken | _, .retest | _, .copy | _, .signal | _, .mark | _, .advance =>
      true
  | _, _ => false

@[simp] theorem Pc.indexed_copy (t : Tid) : Pc.indexed t .copy = true := by cases t <;> rfl

@[simp] theorem Pc.indexed_lock (t : Tid) : Pc.indexed t .lock = false := by cases t <;> rfl

@[simp] theorem Pc.indexed_unlock (t : Tid) : Pc.indexed t .unlock = false := by cases t <;> rfl

/-- What a thread works with: where it is, its index, its counter, and how many of its
calls have advanced the counter. -/
structure Side where
  pc : Pc
  idx : Nat
  counter : UInt32
  done : Nat

def State.side (s : State α) : Tid → Side
  | .producer => ⟨s.prod.pc, s.prod.tidx, s.tail, s.enq.length⟩
  | .consumer => ⟨s.cons.pc, s.cons.hidx, s.head, s.deq.length⟩

/-- How many copies the thread has made. -/
def Side.copies (x : Side) : Nat := x.done + x.pc.copied.toNat

def State.copies (s : State α) (t : Tid) : Nat := (s.side t).copies

/-! ## what an action does to a thread -/

/-- The counter advances, or the slot `used` is copied to or from, or the index is loaded,
or the thread only moves on. -/
def SideStep (t : Tid) (limit : Nat) (x x' : Side) (used : Option Nat) : Prop :=
  (x.pc = .advance ∧ x' = ⟨.unlock, x.idx, x.counter + 1, x.done + 1⟩ ∧ used = none) ∨
    (x.pc = .copy ∧ x' = { x with pc := .signal } ∧ used = some x.idx) ∨
    (x.pc.copied = false ∧ x'.pc.copied = false ∧ used = none ∧
      x' = { x with pc := x'.pc, idx := x.counter.toNat % limit }) ∨
    ((x'.pc.indexed t → x.pc.indexed t) ∧ x'.pc.copied = x.pc.copied ∧ used = none ∧
      x' = { x with pc := x'.pc })

variable {s s' : State α} {cap : Nat} {t : Tid} {x x' : Side} {used : Option Nat}

theorem Local.wake_hidx (l : Local α) : l.wake.hidx = l.hidx := by
  rw [Local.wake]
  split <;> rfl

theorem Local.wake_tidx (l : Local α) : l.wake.tidx = l.tidx := by
  rw [Local.wake]
  split <;> rfl

/-- A thread that is woken up, or not. -/
theorem sideStep_wake (l : Local α) (t : Tid) (limit idx : Nat) (counter : UInt32) (done : Nat) :
    SideStep t limit ⟨l.pc, idx, counter, done⟩ ⟨l.wake.pc, idx, counter, done⟩ none := by
  refine .inr (.inr (.inr ⟨?_, ?_, rfl, rfl⟩))
  · grind [Local.wake, Pc.indexed]
  · grind [Local.wake, Pc.copied]

/-- A call begins. -/
theorem sideStep_call (t : Tid) (limit idx : Nat) (counter : UInt32) (done : Nat) :
    SideStep t limit ⟨.idle, idx, counter, done⟩ ⟨.lock, idx, counter, done⟩ none :=
  .inr (.inr (.inr ⟨by simp, rfl, rfl, rfl⟩))

theorem sideStep_refl (t : Tid) (limit : Nat) (x : Side) : SideStep t limit x x none :=
  .inr (.inr (.inr ⟨id, rfl, rfl, rfl⟩))

/-- A statement of `enqueue` leaves the consumer alone, or wakes it up. -/
theorem enqueueStep_other (hs : enqueueStep s = some s') :
    s'.limit = s.limit ∧ s'.head = s.head ∧ s'.deq = s.deq ∧
      (s'.cons = s.cons ∨ s'.cons = s.cons.wake) := by
  cases hpc : s.prod.pc <;> simp only [enqueueStep, hpc, State.acquire, reduceCtorEq] at hs <;>
    grind

theorem enqueueStep_self (hs : enqueueStep s = some s') :
    SideStep .producer s.limit (s.side .producer) (s'.side .producer)
    (slotUsed s .producer (.run .producer)) := by
  cases hpc : s.prod.pc <;> simp only [enqueueStep, hpc, State.acquire, reduceCtorEq] at hs <;>
    grind [SideStep, State.side, slotUsed, Pc.indexed, Pc.copied]

/-- A statement of `dequeue` leaves the producer alone, or wakes it up. -/
theorem dequeueStep_other (hs : dequeueStep s = some s') :
    s'.limit = s.limit ∧ s'.tail = s.tail ∧ s'.enq = s.enq ∧
      (s'.prod = s.prod ∨ s'.prod = s.prod.wake) := by
  cases hpc : s.cons.pc <;> simp only [dequeueStep, hpc, State.acquire, reduceCtorEq] at hs <;>
    grind

theorem dequeueStep_self (hs : dequeueStep s = some s') :
    SideStep .consumer s.limit (s.side .consumer) (s'.side .consumer)
    (slotUsed s .consumer (.run .consumer)) := by
  cases hpc : s.cons.pc <;> simp only [dequeueStep, hpc, State.acquire, reduceCtorEq] at hs <;>
    grind [SideStep, State.side, slotUsed, Pc.indexed, Pc.copied]

variable {a : Act α}

/-- Every action is a step of either thread. -/
theorem step_sides (hs : step s a = some s') :
    s'.limit = s.limit ∧ ∀ t, SideStep t s.limit (s.side t) (s'.side t) (slotUsed s t a) := by
  cases a with
  | run u =>
      cases u with
      | producer =>
          obtain ⟨hlimit, hhead, hdeq, hcons⟩ := enqueueStep_other hs
          refine ⟨hlimit, fun t => ?_⟩
          cases t with
          | producer => exact enqueueStep_self hs
          | consumer =>
              rw [State.side, State.side, hhead, hdeq]
              obtain hcons | hcons := hcons
              · rw [hcons]
                exact sideStep_refl _ _ _
              · rw [hcons, Local.wake_hidx]
                exact sideStep_wake s.cons _ _ _ _ _
      | consumer =>
          obtain ⟨hlimit, htail, henq, hprod⟩ := dequeueStep_other hs
          refine ⟨hlimit, fun t => ?_⟩
          cases t with
          | consumer => exact dequeueStep_self hs
          | producer =>
              rw [State.side, State.side, htail, henq]
              obtain hprod | hprod := hprod
              · rw [hprod]
                exact sideStep_refl _ _ _
              · rw [hprod, Local.wake_tidx]
                exact sideStep_wake s.prod _ _ _ _ _
  | enqueue x =>
      obtain ⟨hpc, hs⟩ := Option.ite_none_right_eq_some.mp hs
      cases hs
      refine ⟨rfl, fun t => ?_⟩
      cases t with
      | producer =>
          rw [State.side, hpc]
          exact sideStep_call _ _ _ _ _
      | consumer => exact sideStep_refl _ _ _
  | dequeue =>
      obtain ⟨hpc, hs⟩ := Option.ite_none_right_eq_some.mp hs
      cases hs
      refine ⟨rfl, fun t => ?_⟩
      cases t with
      | producer => exact sideStep_refl _ _ _
      | consumer =>
          rw [State.side, hpc]
          exact sideStep_call _ _ _ _ _
  | spurious u =>
      cases u with
      | producer =>
          obtain ⟨-, hs⟩ := Option.ite_none_right_eq_some.mp hs
          cases hs
          refine ⟨rfl, fun t => ?_⟩
          cases t with
          | producer =>
              rw [State.side, State.side, Local.wake_tidx]
              exact sideStep_wake s.prod _ _ _ _ _
          | consumer => exact sideStep_refl _ _ _
      | consumer =>
          obtain ⟨-, hs⟩ := Option.ite_none_right_eq_some.mp hs
          cases hs
          refine ⟨rfl, fun t => ?_⟩
          cases t with
          | producer => exact sideStep_refl _ _ _
          | consumer =>
              rw [State.side, State.side, Local.wake_hidx]
              exact sideStep_wake s.cons _ _ _ _ _

/-! ## the indices follow the counters -/

/-- The counter counts the calls, and an index that is in use belongs to it. -/
structure Side.Indexed (cap : Nat) (t : Tid) (x : Side) : Prop where
  counter : x.counter = UInt32.ofNat x.done
  idx : x.pc.indexed t → x.idx = x.counter.toNat % cap

/-- An index that is loaded stays the counter modulo the limit until the counter
advances. -/
theorem Side.Indexed.step (h : x.Indexed cap t) (hs : SideStep t cap x x' used) :
    x'.Indexed cap t := by
  obtain ⟨-, rfl, -⟩ | ⟨hpc, rfl, -⟩ | ⟨-, -, -, heq⟩ | ⟨hindexed, -, -, heq⟩ := hs
  · exact ⟨by rw [h.counter, ofNat_succ], by simp⟩
  · exact ⟨h.counter, fun _ => h.idx (by rw [hpc, Pc.indexed_copy])⟩
  · rw [heq]
    exact ⟨h.counter, fun _ => rfl⟩
  · rw [heq]
    exact ⟨h.counter, fun hpc => h.idx (hindexed hpc)⟩

/-- The copies are counted by the actions that make them. -/
theorem SideStep.copies (hs : SideStep t cap x x' used) :
    x'.copies = x.copies + used.toList.length := by
  obtain ⟨hpc, rfl, rfl⟩ | ⟨hpc, rfl, rfl⟩ | ⟨hold, hnew, rfl, heq⟩ | ⟨-, hcopied, rfl, heq⟩ := hs
  · simp only [Side.copies, hpc]
    rfl
  · simp only [Side.copies, hpc]
    rfl
  · have hdone := congrArg Side.done heq
    simp only [Side.copies, hold, hnew, hdone]
    rfl
  · have hdone := congrArg Side.done heq
    simp only [Side.copies, hcopied, hdone]
    rfl

/-- The slot of the `i`-th copy of either thread. -/
def slotAt (cap i : Nat) : Nat := wrappedSlot (2 ^ 32) cap i

/-- An action that copies uses the slot of its number. -/
theorem Side.Indexed.slot (h : x.Indexed cap t) {k : Nat} (hs : SideStep t cap x x' (some k)) :
    k = slotAt cap x.copies := by
  obtain ⟨-, -, hk⟩ | ⟨hpc, -, hk⟩ | ⟨-, -, hk, -⟩ | ⟨-, -, hk, -⟩ := hs
  · cases hk
  · cases hk
    rw [h.idx (by rw [hpc, Pc.indexed_copy]), h.counter, UInt32.toNat_ofNat', Side.copies, hpc]
    rfl
  · cases hk
  · cases hk

/-- The invariant of a run. -/
structure Indexed (cap : Nat) (s : State α) : Prop where
  limit : s.limit = cap
  side : ∀ t, (s.side t).Indexed cap t

/-- In a new queue no index is loaded. -/
theorem Indexed.init (h : MakeQueue cap s) : Indexed cap s where
  limit := h.limit
  side t := by
    cases t with
    | producer =>
        rw [State.side, h.tail, h.enq, h.prod]
        exact ⟨rfl, fun hpc => by cases hpc⟩
    | consumer =>
        rw [State.side, h.head, h.deq, h.cons]
        exact ⟨rfl, fun hpc => by cases hpc⟩

theorem Indexed.sideStep (h : Indexed cap s) (hs : Queue.step s a = some s') (t : Tid) :
    SideStep t cap (s.side t) (s'.side t) (slotUsed s t a) := h.limit ▸ (step_sides hs).2 t

theorem Indexed.step (h : Indexed cap s) (hs : Queue.step s a = some s') : Indexed cap s' :=
  ⟨(step_sides hs).1.trans h.limit, fun t => (h.side t).step (h.sideStep hs t)⟩

/-! ## the slots of every run -/

theorem slots_cons {t : Tid} (hs : step s a = some s') (as : List (Act α)) :
    slots t s (a :: as) = (slotUsed s t a).toList ++ slots t s' as := by
  simp only [slots, hs]

variable {as : List (Act α)}

/-- The copies along a run go to the slots of their numbers. -/
theorem slots_of_indexed {t : Tid} (h : Indexed cap s) (hrun : (static α cap).run s as = some s') :
    slots t s as = (List.range' (s.copies t) (slots t s as).length).map (slotAt cap) := by
  induction as generalizing s with
  | nil => rfl
  | cons a as ih =>
      rw [System.run_cons, Option.bind_eq_some_iff] at hrun
      obtain ⟨s₁, hs₁, hrun⟩ := hrun
      have hcopies : s₁.copies t = _ := (h.sideStep hs₁ t).copies
      have hrest := ih (h.step hs₁) hrun
      rw [slots_cons hs₁]
      cases hk : slotUsed s t a with
      | none =>
          rw [hk] at hcopies
          rw [hcopies] at hrest
          exact hrest
      | some k =>
          have hslot : k = slotAt cap (s.copies t) := (h.side t).slot (hk ▸ h.sideStep hs₁ t)
          rw [hk] at hcopies
          rw [hcopies] at hrest
          rw [Option.toList_some, List.singleton_append, List.length_cons, List.range'_succ,
            List.map_cons, ← hslot]
          exact congrArg (k :: ·) hrest

/-- In every run the slots of a thread are those of its counter, from 0 on. -/
theorem slots_of_run {t : Tid} (h : MakeQueue cap s) (hrun : (static α cap).run s as = some s') :
    slots t s as = (List.range (slots t s as).length).map (slotAt cap) := by
  have hzero : s.copies t = 0 := by
    cases t with
    | producer => rw [State.copies, State.side, h.enq, h.prod]; rfl
    | consumer => rw [State.copies, State.side, h.deq, h.cons]; rfl
  have hslots := slots_of_indexed (t := t) (Indexed.init h) hrun
  rw [hzero] at hslots
  rw [List.range_eq_range']
  exact hslots

theorem slotAt_of_getElem? {t : Tid} (h : MakeQueue cap s)
    (hrun : (static α cap).run s as = some s') {i k : Nat} (hk : (slots t s as)[i]? = some k) :
    k = slotAt cap i := by
  have hi : i < (slots t s as).length := (List.getElem?_eq_some_iff.mp hk).1
  rw [slots_of_run h hrun, List.getElem?_map, List.getElem?_range hi] at hk
  exact (Option.some.inj hk).symm

/-- Each copy counts as one. -/
theorem length_slots {t : Tid} (hrun : (static α cap).run s as = some s') :
    s'.copies t = s.copies t + (slots t s as).length := by
  induction as generalizing s with
  | nil =>
      cases hrun
      rfl
  | cons a as ih =>
      rw [System.run_cons, Option.bind_eq_some_iff] at hrun
      obtain ⟨s₁, hs₁, hrun⟩ := hrun
      have hcopies : s₁.copies t = _ := ((step_sides hs₁).2 t).copies
      rw [ih hrun, hcopies, slots_cons hs₁, List.length_append, Nat.add_assoc]
      rfl

/-- **Ring slots**: along every run of a queue of any capacity, the slots of successive
enqueues and of successive dequeues are consecutive if and only if the capacity divides
`2 ^ 32` or neither counter has come to its end.  The `i`-th enqueue and the `i`-th
dequeue use the same slot in any case. -/
theorem ring_slots_iff {max : Nat} {s s' : State α} (h : MakeQueue max s) {as : List (Act α)}
    (hrun : (static α max).run s as = some s') :
    (Consecutive max (slots .producer s as) ∧ Consecutive max (slots .consumer s as) ↔
      max ∣ 2 ^ 32 ∨ ((slots .producer s as).length ≤ 2 ^ 32 ∧
        (slots .consumer s as).length ≤ 2 ^ 32)) ∧
      ∀ (i a b : Nat), (slots .producer s as)[i]? = some a →
        (slots .consumer s as)[i]? = some b → a = b := by
  have hwrap : 0 < 2 ^ 32 := Nat.two_pow_pos 32
  have hprod : Consecutive max (slots .producer s as) ↔
      max ∣ 2 ^ 32 ∨ (slots .producer s as).length ≤ 2 ^ 32 := by
    rw [slots_of_run h hrun, List.length_map, List.length_range]
    exact consecutive_wrappedSlot_iff hwrap
  have hcons : Consecutive max (slots .consumer s as) ↔
      max ∣ 2 ^ 32 ∨ (slots .consumer s as).length ≤ 2 ^ 32 := by
    rw [slots_of_run h hrun, List.length_map, List.length_range]
    exact consecutive_wrappedSlot_iff hwrap
  refine ⟨by rw [hprod, hcons, or_and_left], fun i a b ha hb => ?_⟩
  rw [slotAt_of_getElem? h hrun ha, slotAt_of_getElem? h hrun hb]

/-- Two items through a queue of three slots. -/
theorem ring_slots_iff_two :
    ∃ as s', (static Nat 3).run (makeQueue 3 0) as = some s' ∧
      slots .producer (makeQueue 3 0) as = [0, 1] ∧
      Consecutive 3 (slots .producer (makeQueue 3 0) as) := by
  have hrun : ((static Nat 3).run (makeQueue 3 0)
      (Act.enqueue 5 :: List.replicate 9 (Act.run .producer) ++
        Act.enqueue 6 :: List.replicate 9 (Act.run .producer))).isSome := by decide +kernel
  have hslots : slots .producer (makeQueue 3 0)
      (Act.enqueue 5 :: List.replicate 9 (Act.run .producer) ++
        Act.enqueue 6 :: List.replicate 9 (Act.run .producer)) = [0, 1] := by decide +kernel
  have hslots' : slots .consumer (makeQueue 3 0)
      (Act.enqueue 5 :: List.replicate 9 (Act.run .producer) ++
        Act.enqueue 6 :: List.replicate 9 (Act.run .producer)) = [] := by decide +kernel
  obtain ⟨s', hs'⟩ := Option.isSome_iff_exists.mp hrun
  have hiff := (ring_slots_iff (makeQueue_init 3 0) hs').1
  exact ⟨_, s', hs', hslots, (hiff.mpr (.inr (by rw [hslots, hslots']; decide))).1⟩

/-! ## runs of any length -/

/-- Nobody is in a call, and no slot is in use. -/
structure Quiet (cap : Nat) (s : State α) : Prop where
  limit : s.limit = cap
  arr : ∀ i, (s.arr i).inUse = 0
  heads : s.head = s.tail
  lock : s.lock = none
  prod : s.prod.pc = .idle
  cons : s.cons.pc = .idle

/-- `enqueue` without interruption, when the slot at `tail` is free. -/
theorem run_enqueue (h : Quiet cap s) (x : α) :
    (static α cap).run s (Act.enqueue x :: List.replicate 9 (Act.run .producer)) =
      some { s with
        arr := setInUse (setData s.arr (s.tail.toNat % cap) x) (s.tail.toNat % cap) 1
        tail := s.tail + 1
        prod := ⟨.idle, s.tail.toNat % cap, s.tail.toNat % cap, x⟩
        enq := s.enq ++ [x] } := by
  obtain ⟨limit, arr, head, tail, lock, ⟨ppc, ph, pt, pd⟩, ⟨cpc, ch, ct, cd⟩, enq, deq⟩ := s
  obtain ⟨hlimit, harr, hheads, hlock, hprod, hcons⟩ := h
  simp only at hlimit harr hheads hlock hprod hcons
  subst hlimit hheads hlock hprod hcons
  simp [static, System.run, step, enqueueStep, List.replicate, State.acquire, harr, Local.wake]

/-- `dequeue` without interruption, when the slot at `head` is in use. -/
theorem run_dequeue {n : Nat} (hlimit : s.limit = cap) (hn : s.head.toNat % cap = n)
    (huse : (s.arr n).inUse = 1) (hlock : s.lock = none) (hprod : s.prod.pc = .idle)
    (hcons : s.cons.pc = .idle) :
    (static α cap).run s (Act.dequeue :: List.replicate 9 (Act.run .consumer)) =
      some { s with
        arr := setInUse s.arr n 0
        head := s.head + 1
        cons := ⟨.idle, n, s.tail.toNat % cap, (s.arr n).data⟩
        deq := s.deq ++ [(s.arr n).data] } := by
  obtain ⟨limit, arr, head, tail, lock, ⟨ppc, ph, pt, pd⟩, ⟨cpc, ch, ct, cd⟩, enq, deq⟩ := s
  simp only at hlimit hn huse hlock hprod hcons
  subst hlimit hlock hprod hcons hn
  simp [static, System.run, step, dequeueStep, List.replicate, State.acquire, huse, Local.wake]

/-- From there an item can go in and out again. -/
theorem Quiet.cycle (h : Quiet cap s) (x : α) :
    ∃ as s', (static α cap).run s as = some s' ∧ Quiet cap s' ∧
      s'.enq.length = s.enq.length + 1 := by
  have henq := run_enqueue h x
  have hdeq := run_dequeue (n := s.tail.toNat % cap) (s := { s with
      arr := setInUse (setData s.arr (s.tail.toNat % cap) x) (s.tail.toNat % cap) 1
      tail := s.tail + 1
      prod := ⟨.idle, s.tail.toNat % cap, s.tail.toNat % cap, x⟩
      enq := s.enq ++ [x] }) h.limit (by rw [h.heads]) (setInUse_self _ _ _) h.lock rfl h.cons
  have hrun := (System.run_append (M := static α cap) s _ _).trans
    ((congrArg (Option.bind · _) henq).trans ((Option.bind_some _ _).trans hdeq))
  refine ⟨_, _, hrun, ⟨h.limit, fun i => ?_, ?_, h.lock, rfl, rfl⟩, ?_⟩
  · by_cases hi : i = s.tail.toNat % cap
    · rw [hi]
      exact setInUse_self _ _ _
    · rw [setInUse_of_ne _ _ hi, setInUse_of_ne _ _ hi, setData_inUse, h.arr]
  · show s.head + 1 = s.tail + 1
    rw [h.heads]
  · rw [List.length_append, List.length_singleton]

/-- So there are runs with any number of calls. -/
theorem exists_run (cap : Nat) (x : α) (n : Nat) :
    ∃ as s', (static α cap).run (makeQueue cap x) as = some s' ∧ Quiet cap s' ∧
      s'.enq.length = n := by
  induction n with
  | zero => exact ⟨[], makeQueue cap x, rfl, ⟨rfl, fun _ => rfl, rfl, rfl, rfl, rfl⟩, rfl⟩
  | succ n ih =>
      obtain ⟨as, s₁, hrun, hquiet, hlen⟩ := ih
      obtain ⟨bs, s₂, hrun', hquiet', hlen'⟩ := hquiet.cycle x
      exact ⟨as ++ bs, s₂, by rw [System.run_append, hrun, Option.bind_some, hrun'], hquiet',
        by rw [hlen', hlen]⟩

/-- A queue of three slots, used `2 ^ 32 + 1` times: slot 0 is written twice in a row. -/
theorem ring_slots_wrapped :
    ∃ as s', (static Unit 3).run (makeQueue 3 ()) as = some s' ∧
      (slots .producer (makeQueue 3 ()) as)[2 ^ 32 - 1]? = some 0 ∧
      (slots .producer (makeQueue 3 ()) as)[2 ^ 32]? = some 0 ∧
      ¬Consecutive 3 (slots .producer (makeQueue 3 ()) as) := by
  obtain ⟨as, s', hrun, hquiet, hlen⟩ := exists_run 3 () (2 ^ 32 + 1)
  have hslots := slots_of_run (t := .producer) (makeQueue_init 3 ()) hrun
  have hcount : (slots .producer (makeQueue 3 ()) as).length = 2 ^ 32 + 1 := by
    have hcopies := length_slots (t := .producer) hrun
    rw [State.copies, State.side, Side.copies, hquiet.prod, hlen] at hcopies
    exact (Nat.zero_add _).symm.trans hcopies.symm
  have hlast : (slots .producer (makeQueue 3 ()) as)[2 ^ 32 - 1]? = some 0 := by
    rw [hslots, hcount, List.getElem?_map, List.getElem?_range (by decide)]
    rfl
  have hfirst : (slots .producer (makeQueue 3 ()) as)[2 ^ 32]? = some 0 := by
    rw [hslots, hcount, List.getElem?_map, List.getElem?_range (by decide)]
    rfl
  exact ⟨as, s', hrun, hlast, hfirst, fun h => absurd (h _ 0 0 hlast hfirst) (by decide)⟩

end Linuxyz.Queue
