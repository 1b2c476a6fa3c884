import Linuxyz.Queue.StaticFifo

/-!
# Linuxyz.Queue.Chan

The queue of `data-queue-channel/chan.c`, compiled with `USE_SPIN 0`: the ring
of `static.c` with the same threads, locals and tests, but for one place.  A
thread that comes out of `pthread_cond_wait` does not test the queue again; it
goes on to its `memcpy`.

So the queue relies on what woke the thread up.  `chan_fifo_of_resumes` says
that nothing goes wrong as long as a thread that has the mutex back finds what
it waited for, and `resumes_of_signalled` that a signal always sees to that: a
spurious wakeup is the only way in.
-/

namespace Linuxyz.Queue.Chan

open RingIndex

variable {α : Type}

/-- The producer's next statement in `enqueue`. -/
def enqueueStep (s : State α) : Option (State α) :=
  let p := s.prod
  match p.pc with
  | .lock => (s.acquire .producer).map fun s => { s with prod := { p with pc := .loadHead } }
  | .loadHead => some { s with prod := { p with hidx := s.head.toNat % s.limit, pc := .loadTail } }
  | .loadTail => some { s with prod := { p with tidx := s.tail.toNat % s.limit, pc := .test } }
  | .test =>
      if p.hidx = p.tidx ∧ (s.arr p.hidx).inUse = 1 then
        some { s with lock := none, prod := { p with pc := .wait } }
      else some { s with prod := { p with pc := .copy } }
  -- no second test: the indices loaded before the wait are used as they are
  | .woken => (s.acquire .producer).map fun s => { s with prod := { p with pc := .copy } }
  | .copy => some { s with arr := setData s.arr p.tidx p.data, prod := { p with pc := .signal } }
  | .signal =>
      if p.hidx = p.tidx ∧ (s.arr p.hidx).inUse ≠ 1 then
        some { s with cons := s.cons.wake, prod := { p with pc := .mark } }
      else some { s with prod := { p with pc := .mark } }
  | .mark => some { s with arr := setInUse s.arr p.tidx 1, prod := { p with pc := .advance } }
  | .advance =>
      some { s with tail := s.tail + 1, enq := s.enq ++ [p.data], prod := { p with pc := .unlock } }
  | .unlock => some { s with lock := none, prod := { p with pc := .idle } }
  | .idle | .wait | .retest | .release => none

/-- The consumer's next statement in `dequeue`. -/
def dequeueStep (s : State α) : Option (State α) :=
  let c := s.cons
  match c.pc with
  | .lock => (s.acquire .consumer).map fun s => { s with cons := { c with pc := .loadHead } }
  | .loadHead => some { s with cons := { c with hidx := s.head.toNat % s.limit, pc := .loadTail } }
  | .loadTail => some { s with cons := { c with tidx := s.tail.toNat % s.limit, pc := .test } }
  | .test =>
      if c.hidx = c.tidx ∧ (s.arr c.hidx).inUse ≠ 1 then
        some { s with lock := none, cons := { c with pc := .wait } }
      else some { s with cons := { c with pc := .copy } }
  | .woken => (s.acquire .consumer).map fun s => { s with cons := { c with pc := .copy } }
  | .copy => some { s with cons := { c with data := (s.arr c.hidx).data, pc := .signal } }
  | .signal =>
      if c.hidx = c.tidx ∧ (s.arr c.hidx).inUse = 1 then
        some { s with prod := s.prod.wake, cons := { c with pc := .mark } }
      else some { s with cons := { c with pc := .mark } }
  | .mark => some { s with arr := setInUse s.arr c.hidx 0, cons := { c with pc := .advance } }
  | .advance =>
      some { s with head := s.head + 1, deq := s.deq ++ [c.data], cons := { c with pc := .unlock } }
  | .unlock => some { s with lock := none, cons := { c with pc := .idle } }
  | .idle | .wait | .retest | .release => none

def step (s : State α) : Act α → Option (State α)
  | .run .producer => enqueueStep s
  | .run .consumer => dequeueStep s
  -- calls and spurious wakeups are those of the other queue
  | .enqueue x => Queue.step s (.enqueue x)
  | .dequeue => Queue.step s .dequeue
  | .spurious t => Queue.step s (.spurious t)

/-- The queue of capacity `max` with its two threads, from an empty queue. -/
def chan (α : Type) (max : Nat) : System (State α) (Act α) where
  init := MakeQueue max
  step := step

/-! ## what differs from the static queue -/

variable {s s' : State α} {cap : Nat}

/-- Apart from the way out of the wait, `enqueue` is that of the static queue. -/
theorem enqueueStep_eq (hpc : s.prod.pc ≠ .woken) (hstep : enqueueStep s = some s') :
    Queue.enqueueStep s = some s' := by
  cases h : s.prod.pc <;> simp_all [enqueueStep, Queue.enqueueStep]

theorem dequeueStep_eq (hpc : s.cons.pc ≠ .woken) (hstep : dequeueStep s = some s') :
    Queue.dequeueStep s = some s' := by
  cases h : s.cons.pc <;> simp_all [dequeueStep, Queue.dequeueStep]

/-- A thread about to take the mutex back after its wait finds its slot as it
waited for it: free for the producer, in use for the consumer. -/
def Resumes (s : State α) : Act α → Prop
  | .run .producer => s.lock = none → s.prod.pc = .woken → (s.arr s.prod.tidx).inUse ≠ 1
  | .run .consumer => s.lock = none → s.cons.pc = .woken → (s.arr s.cons.hidx).inUse = 1
  | _ => True

instance decidableResumes (s : State α) : (a : Act α) → Decidable (Resumes s a)
  | .run .producer =>
      inferInstanceAs (Decidable (s.lock = none → s.prod.pc = .woken →
        (s.arr s.prod.tidx).inUse ≠ 1))
  | .run .consumer =>
      inferInstanceAs (Decidable (s.lock = none → s.cons.pc = .woken →
        (s.arr s.cons.hidx).inUse = 1))
  | .enqueue _ | .dequeue | .spurious _ => .isTrue trivial

/-! ## runs in which every thread resumes well -/

/-- The producer goes on after its wait, into a free slot. -/
theorem inv_prodResume (h : Inv cap s) (hcap : 0 < cap) (hfree : s.lock = none)
    (hpc : s.prod.pc = .woken) (hslot : (s.arr s.prod.tidx).inUse ≠ 1) :
    Inv cap { s with prod := { s.prod with pc := .copy }, lock := some .producer } := by
  have hok := h.prod
  simp only [ProdOk, hpc] at hok
  -- with the mutex in hand, a free slot at the tail is room
  have hheld : Inv cap { s with prod := { s.prod with pc := .retest }, lock := some .producer } :=
    h.prodTake _ hfree rfl (by simp) hok
  have hroom := hheld.room_of_not_inUse hcap rfl (by simp) (by rwa [← hok.2])
  exact h.prodTake _ hfree rfl (by simp) ⟨hok.2, hroom, fun _ => hok.1.trans hok.2.symm⟩

/-- The consumer goes on after its wait, from a slot in use. -/
theorem inv_consResume (h : Inv cap s) (hcap : 0 < cap) (hfree : s.lock = none)
    (hpc : s.cons.pc = .woken) (hslot : (s.arr s.cons.hidx).inUse = 1) :
    Inv cap { s with cons := { s.cons with pc := .copy }, lock := some .consumer } := by
  have hok := h.cons
  simp only [ConsOk, hpc] at hok
  have hheld : Inv cap { s with cons := { s.cons with pc := .retest }, lock := some .consumer } :=
    h.consTake _ hfree rfl (by simp) hok
  have hitem := hheld.item_of_inUse hcap rfl (by simp) (by rwa [← hok.1])
  exact h.consTake _ hfree rfl (by simp) ⟨hok.1, hitem, fun _ => hok.1.trans hok.2.symm⟩

/-- Where threads resume well, the invariant of the static queue is kept. -/
theorem inv_step (h : Inv cap s) (hcap : 0 < cap) (hdvd : cap ∣ 2 ^ 32) {a : Act α}
    (ha : Resumes s a) (hstep : step s a = some s') : Inv cap s' := by
  cases a with
  | run t =>
      cases t with
      | producer =>
          by_cases hpc : s.prod.pc = .woken
          · simp only [step, enqueueStep, hpc] at hstep
            obtain ⟨s₁, hacq, rfl⟩ := Option.map_eq_some_iff.mp hstep
            obtain ⟨hfree, rfl⟩ := Inv.lock_of_acquire hacq
            have hinv := inv_prodResume h hcap hfree hpc (ha hfree hpc)
            exact hinv
          · exact h.enqueueStep hcap hdvd (enqueueStep_eq hpc hstep)
      | consumer =>
          by_cases hpc : s.cons.pc = .woken
          · simp only [step, dequeueStep, hpc] at hstep
            obtain ⟨s₁, hacq, rfl⟩ := Option.map_eq_some_iff.mp hstep
            obtain ⟨hfree, rfl⟩ := Inv.lock_of_acquire hacq
            have hinv := inv_consResume h hcap hfree hpc (ha hfree hpc)
            exact hinv
          · exact h.dequeueStep hcap hdvd (dequeueStep_eq hpc hstep)
  | enqueue x =>
      have hcall : Queue.step s (.enqueue x) = some s' := hstep
      exact h.step hcap hdvd hcall
  | dequeue =>
      have hcall : Queue.step s .dequeue = some s' := hstep
      exact h.step hcap hdvd hcall
  | spurious t =>
      have hwake : Queue.step s (.spurious t) = some s' := hstep
      exact h.step hcap hdvd hwake

/-! ## a signal is enough -/

/-- A woken thread has been given what it waited for, or the thread that
signalled is about to give it. -/
structure Granted (cap : Nat) (s : State α) : Prop where
  prod : s.prod.pc = .woken →
    s.enq.length < s.deq.length + cap ∨ s.cons.pc = .mark ∨ s.cons.pc = .advance
  cons : s.cons.pc = .woken → s.deq.length < s.enq.length ∨ s.prod.pc = .mark ∨ s.prod.pc = .advance

/-- The producer's statement that signals and those up to its increment keep
the promise; no other one touches what the consumer waits for. -/
theorem Granted.enqueueStep (h : Granted cap s) (hle : s.deq.length ≤ s.enq.length)
    (hstep : enqueueStep s = some s') : Granted cap s' := by
  have hcons := h.cons
  cases hpc : s.prod.pc <;> simp only [Chan.enqueueStep, hpc] at hstep
  all_goals grind [Granted, State.acquire, Local.wake]

theorem Granted.dequeueStep (h : Granted cap s) (hle : s.enq.length ≤ s.deq.length + cap)
    (hstep : dequeueStep s = some s') : Granted cap s' := by
  have hprod := h.prod
  cases hpc : s.cons.pc <;> simp only [Chan.dequeueStep, hpc] at hstep
  all_goals grind [Granted, State.acquire, Local.wake]

/-- A wakeup that is not a signal. -/
def Act.isSpurious : Act α → Bool
  | .spurious _ => true
  | .enqueue _ | .dequeue | .run _ => false

/-- One step that is not a spurious wakeup keeps the promise of a signal. -/
theorem Granted.step (h : Granted cap s) (hinv : Inv cap s) {a : Act α}
    (ha : Act.isSpurious a = false) (hstep : step s a = some s') : Granted cap s' := by
  cases a with
  | run t =>
      cases t with
      | producer => exact h.enqueueStep hinv.le hstep
      | consumer => exact h.dequeueStep hinv.le' hstep
  | enqueue x =>
      simp only [Chan.step, Queue.step, Option.ite_none_right_eq_some, Option.some.injEq] at hstep
      obtain ⟨hidle, rfl⟩ := hstep
      have hcons := h.cons
      grind [Granted]
  | dequeue =>
      simp only [Chan.step, Queue.step, Option.ite_none_right_eq_some, Option.some.injEq] at hstep
      obtain ⟨hidle, rfl⟩ := hstep
      have hprod := h.prod
      grind [Granted]
  | spurious t => cases ha

/-- With the mutex free nobody is about to give anything: the promise is kept. -/
theorem Granted.resumes (h : Granted cap s) (hinv : Inv cap s) (a : Act α) : Resumes s a := by
  match a with
  | .run .producer =>
      intro hfree hpc
      have hok := hinv.prod
      simp only [ProdOk, hpc] at hok
      have hheld :
          Inv cap { s with prod := { s.prod with pc := .retest }, lock := some .producer } :=
        hinv.prodTake _ hfree rfl (by simp) hok
      have hroom : s.enq.length < s.deq.length + cap := by
        have hout := hheld.exclusive rfl
        have hgrant := h.prod hpc
        grind [Pc.holds]
      rw [hok.2, hheld.tail_free rfl (by simp) hroom]
      decide
  | .run .consumer =>
      intro hfree hpc
      have hok := hinv.cons
      simp only [ConsOk, hpc] at hok
      have hheld :
          Inv cap { s with cons := { s.cons with pc := .retest }, lock := some .consumer } :=
        hinv.consTake _ hfree rfl (by simp) hok
      have hitem : s.deq.length < s.enq.length := by
        have hout := hheld.exclusive' rfl
        have hgrant := h.cons hpc
        grind [Pc.holds]
      rw [hok.1]
      exact hheld.head_used rfl (by simp) hitem
  | .enqueue _ | .dequeue | .spurious _ => trivial

/-- Without spurious wakeups every thread resumes well. -/
theorem resumes_of_signalled {k : Nat} (hk : k < 32) {as : List (Act α)}
    (hinit : MakeQueue (2 ^ k) s)
    (has : ∀ a ∈ as, Act.isSpurious a = false) : (chan α (2 ^ k)).Meets Resumes s as := by
  have hcap : 0 < 2 ^ k := Nat.two_pow_pos k
  have hdvd : 2 ^ k ∣ 2 ^ 32 := Nat.pow_dvd_pow 2 (by omega)
  have hstart : Granted (2 ^ k) s := ⟨by simp [hinit.prod], by simp [hinit.cons]⟩
  refine System.meets_of_invariant (I := fun s => Inv (2 ^ k) s ∧ Granted (2 ^ k) s) ?_
    (fun s a h _ => h.2.resumes h.1 a) ⟨Inv.init hinit, hstart⟩ has
  intro s a s' h ha hs
  exact ⟨inv_step h.1 hcap hdvd (h.2.resumes h.1 a) hs, h.2.step h.1 ha hs⟩

/-- **The channel queue is a FIFO as long as threads resume well.**  In every
run of a queue of `2 ^ k` slots in which a thread that takes the mutex back
after its wait finds its slot as it waited for it, whatever woke it up: the
dequeued items are a prefix of the enqueued ones, `enqueue` copies only into a
slot that is not in use, and `dequeue` only out of one that is. -/
theorem chan_fifo_of_resumes (k : Nat) (hk : k < 32) {as : List (Act α)} {s₀ s : State α}
    (hinit : MakeQueue (2 ^ k) s₀) (has : (chan α (2 ^ k)).Meets Resumes s₀ as)
    (hrun : (chan α (2 ^ k)).run s₀ as = some s) :
    s.deq <+: s.enq ∧ (s.prod.pc = .copy → (s.arr s.prod.tidx).inUse ≠ 1) ∧
      (s.cons.pc = .copy → (s.arr s.cons.hidx).inUse = 1) := by
  have hcap : 0 < 2 ^ k := Nat.two_pow_pos k
  have hdvd : 2 ^ k ∣ 2 ^ 32 := Nat.pow_dvd_pow 2 (by omega)
  have hinv := has.invariant (I := Inv (2 ^ k)) (fun _ _ _ h ha hs => inv_step h hcap hdvd ha hs)
    (Inv.init hinit) hrun
  refine ⟨hinv.fifo, fun hpc => ?_, fun hpc => ?_⟩
  · have hok := hinv.prod
    simp only [ProdOk, hpc] at hok
    rw [hok.1, hinv.tail_free (by rw [hpc]; rfl) (by simp [hpc]) hok.2.1]
    decide
  · have hok := hinv.cons
    simp only [ConsOk, hpc] at hok
    rw [hok.1]
    exact hinv.head_used (by rw [hpc]; rfl) (by simp [hpc]) hok.2.1

/-- The consumer waits in an empty queue of one slot, the producer enqueues 5
and wakes it up, and the consumer is about to copy. -/
def handedOver : List (Act Nat) :=
  Act.dequeue :: List.replicate 4 (Act.run .consumer) ++
    Act.enqueue 5 :: List.replicate 9 (Act.run .producer) ++ [Act.run .consumer]

theorem chan_fifo_handedOver :
    ∃ s, (chan Nat (2 ^ 0)).run (makeQueue 1 0) handedOver = some s ∧ s.cons.pc = .copy ∧
      s.deq <+: s.enq ∧ (s.prod.pc = .copy → (s.arr s.prod.tidx).inUse ≠ 1) ∧
      (s.cons.pc = .copy → (s.arr s.cons.hidx).inUse = 1) := by
  have has : (chan Nat (2 ^ 0)).Meets Resumes (makeQueue 1 0) handedOver :=
    resumes_of_signalled (by decide) (makeQueue_init 1 0) (by decide)
  have hpc : ((chan Nat (2 ^ 0)).run (makeQueue 1 0) handedOver).map (fun s => s.cons.pc) =
      some .copy := by
    decide +kernel
  obtain ⟨s, hrun, hcopy⟩ := Option.map_eq_some_iff.mp hpc
  exact ⟨s, hrun, hcopy, chan_fifo_of_resumes 0 (by decide) (makeQueue_init 1 0) has hrun⟩

/-- A spurious wakeup lets the consumer copy out of the unused slot of an empty
queue, and lets the producer copy over the item of a full one. -/
theorem chan_spurious_breaks :
    (∃ s, (chan Nat (2 ^ 0)).run (makeQueue 1 0)
        (Act.dequeue :: List.replicate 4 (Act.run .consumer) ++
          Act.spurious .consumer :: List.replicate 6 (Act.run .consumer)) = some s ∧
      s.enq = [] ∧ s.deq = [0] ∧ ¬ s.deq <+: s.enq) ∧
    ∃ s, (chan Nat (2 ^ 0)).run (makeQueue 1 0)
        (Act.enqueue 5 :: List.replicate 9 (Act.run .producer) ++
          Act.enqueue 6 :: List.replicate 4 (Act.run .producer) ++
          [Act.spurious .producer, Act.run .producer]) =
        some s ∧
      s.prod.pc = .copy ∧ s.prod.data = 6 ∧ (s.arr s.prod.tidx).inUse = 1 ∧
        (s.arr s.prod.tidx).data = 5 := by
  constructor
  · have hlogs : ((chan Nat (2 ^ 0)).run (makeQueue 1 0)
        (Act.dequeue :: List.replicate 4 (Act.run .consumer) ++
          Act.spurious .consumer :: List.replicate 6 (Act.run .consumer))).map
            (fun s => (s.enq, s.deq)) =
        some ([], [0]) := by decide +kernel
    obtain ⟨s, hrun, hs⟩ := Option.map_eq_some_iff.mp hlogs
    obtain ⟨henq, hdeq⟩ := Prod.mk.inj hs
    exact ⟨s, hrun, henq, hdeq, by rw [henq, hdeq]; decide⟩
  · have hslot : ((chan Nat (2 ^ 0)).run (makeQueue 1 0)
        (Act.enqueue 5 :: List.replicate 9 (Act.run .producer) ++
          Act.enqueue 6 :: List.replicate 4 (Act.run .producer) ++
          [Act.spurious .producer, Act.run .producer])).map
        (fun s => (s.prod.pc, s.prod.data, (s.arr s.prod.tidx).inUse, (s.arr s.prod.tidx).data)) =
        some (.copy, 6, 1, 5) := by decide +kernel
    obtain ⟨s, hrun, hs⟩ := Option.map_eq_some_iff.mp hslot
    simp only [Prod.mk.injEq] at hs
    exact ⟨s, hrun, hs⟩

end Linuxyz.Queue.Chan
