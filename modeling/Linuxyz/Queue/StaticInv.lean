import Linuxyz.Queue.Static
import Linuxyz.Lib.RingIndex

/-!
# Linuxyz.Queue.StaticInv

The invariant of the static queue, for a capacity that divides `2 ^ 32`.

The unbounded counters behind `tail` and `head` are the lengths of the two
histories.  The slots of the window from `lo` to `hi` are in use and hold the
corresponding items; all others are free.  `lo` and `hi` run one step ahead of
the histories while a thread sits between its store to `in_use` and its
increment.  `ProdOk` and `ConsOk` say, statement by statement, what a thread
knows: in particular the indices it loaded before the wait are still those of
its own counter, because nobody else moves that counter.
-/

namespace Linuxyz.Queue

open RingIndex

variable {α : Type}

/-! ## the invariant -/

/-- The statements executed with the mutex held. -/
def Pc.holds : Pc → Bool
  | .idle | .lock | .wait | .woken => false
  | _ => true

/-- The first counter value whose slot is still in use. -/
def State.lo (s : State α) : Nat := s.deq.length + if s.cons.pc = .advance then 1 else 0

/-- The first counter value whose slot is not in use yet. -/
def State.hi (s : State α) : Nat := s.enq.length + if s.prod.pc = .advance then 1 else 0

/-- What the producer knows at each statement of `enqueue`: `T` items went in,
`H` came out of a queue of `n` slots, its slot holds `slot`, and the consumer
is at `cpc`. -/
def ProdOk (n H T : Nat) (slot : α) (cpc : Pc) (p : Local α) : Prop :=
  match p.pc with
  | .loadTail => p.hidx = H % n
  | .test => p.hidx = H % n ∧ p.tidx = T % n
  | .wait => p.hidx = T % n ∧ p.tidx = T % n ∧ T = H + n
  | .woken | .retest => p.hidx = T % n ∧ p.tidx = T % n
  | .copy => p.tidx = T % n ∧ T < H + n ∧ (T = H → p.hidx = p.tidx)
  | .signal => p.tidx = T % n ∧ T < H + n ∧ (T = H → p.hidx = p.tidx) ∧ slot = p.data
  | .mark | .advance => p.tidx = T % n ∧ T < H + n ∧ slot = p.data ∧ cpc ≠ .wait
  | _ => True

/-- What the consumer knows at each statement of `dequeue`: `next` is the
oldest item still in the queue, and the producer is at `ppc`. -/
def ConsOk (n H T : Nat) (next : Option α) (ppc : Pc) (c : Local α) : Prop :=
  match c.pc with
  | .loadTail => c.hidx = H % n
  | .test => c.hidx = H % n ∧ c.tidx = T % n
  | .wait => c.hidx = H % n ∧ c.tidx = H % n ∧ T = H
  | .woken | .retest => c.hidx = H % n ∧ c.tidx = H % n
  | .copy => c.hidx = H % n ∧ H < T ∧ (T = H + n → c.hidx = c.tidx)
  | .signal => c.hidx = H % n ∧ H < T ∧ (T = H + n → c.hidx = c.tidx) ∧ next = some c.data
  | .mark | .advance => c.hidx = H % n ∧ H < T ∧ next = some c.data ∧ ppc ≠ .wait
  | _ => True

/-- The invariant of every reachable state. -/
structure Inv (max : Nat) (s : State α) : Prop where
  limit : s.limit = max
  prodLock : s.prod.pc.holds = true ↔ s.lock = some .producer
  consLock : s.cons.pc.holds = true ↔ s.lock = some .consumer
  head : s.head = UInt32.ofNat s.deq.length
  tail : s.tail = UInt32.ofNat s.enq.length
  le : s.deq.length ≤ s.enq.length
  le' : s.enq.length ≤ s.deq.length + max
  used : ∀ j, s.lo ≤ j → j < s.hi → (s.arr (j % max)).inUse = 1
  free : ∀ j, s.hi ≤ j → j < s.lo + max → (s.arr (j % max)).inUse = 0
  data : ∀ j, s.deq.length ≤ j → ∀ h : j < s.enq.length, (s.arr (j % max)).data = s.enq[j]
  fifo : s.deq <+: s.enq
  prod : ProdOk max s.deq.length s.enq.length (s.arr s.prod.tidx).data s.cons.pc s.prod
  cons : ConsOk max s.deq.length s.enq.length s.enq[s.deq.length]? s.prod.pc s.cons

variable {s : State α} {cap : Nat}

/-- The two threads never hold the mutex together. -/
theorem Inv.exclusive (h : Inv cap s) (hp : s.prod.pc.holds = true) : s.cons.pc.holds = false := by
  by_contra hc
  have h1 := h.prodLock.mp hp
  have h2 := h.consLock.mp (by simpa using hc)
  rw [h1] at h2
  cases h2

/-! ## what a thread knows survives the other thread's steps -/

/-- Outside its critical section and not blocked, the producer only relies on
its own counter. -/
theorem ProdOk.of_outside {p : Local α} (h : ProdOk n H T slot cpc p) (hout : p.pc.holds = false)
    (hw : p.pc ≠ .wait) : ProdOk n H' T slot' cpc' p := by
  cases hpc : p.pc <;> simp_all [ProdOk, Pc.holds]

/-- The producer cares where the consumer is only inside its own critical
section, and then only that it is not blocked. -/
theorem ProdOk.of_pc {p : Local α} (h : ProdOk n H T slot cpc p)
    (hw : cpc' = .wait → p.pc.holds = false ∨ cpc = .wait) : ProdOk n H T slot cpc' p := by
  cases hpc : p.pc <;> simp only [ProdOk, hpc] at h ⊢ <;> try exact h
  all_goals exact ⟨h.1, h.2.1, h.2.2.1, fun hwait =>
    h.2.2.2 (by simpa [hpc, Pc.holds] using hw hwait)⟩

/-- Outside its critical section and not blocked, the consumer only relies on
its own counter. -/
theorem ConsOk.of_outside {c : Local α} (h : ConsOk n H T next ppc c) (hout : c.pc.holds = false)
    (hw : c.pc ≠ .wait) : ConsOk n H T' next' ppc' c := by
  cases hpc : c.pc <;> simp_all [ConsOk, Pc.holds]

/-- The mirror image of `ProdOk.of_pc`. -/
theorem ConsOk.of_pc {c : Local α} (h : ConsOk n H T next ppc c)
    (hw : ppc' = .wait → c.pc.holds = false ∨ ppc = .wait) : ConsOk n H T next ppc' c := by
  cases hpc : c.pc <;> simp only [ConsOk, hpc] at h ⊢ <;> try exact h
  all_goals exact ⟨h.1, h.2.1, h.2.2.1, fun hwait =>
    h.2.2.2 (by simpa [hpc, Pc.holds] using hw hwait)⟩

/-! ## moves that leave the queue alone -/

/-- A step that touches only the threads' locals and the mutex, and takes
neither thread past its store to `in_use` or its increment. -/
theorem Inv.localMove (h : Inv cap s) (p c : Local α) (l : Option Tid)
    (hp : p.pc = .advance ↔ s.prod.pc = .advance) (hc : c.pc = .advance ↔ s.cons.pc = .advance)
    (hlp : p.pc.holds = true ↔ l = some .producer) (hlc : c.pc.holds = true ↔ l = some .consumer)
    (hprod : ProdOk cap s.deq.length s.enq.length (s.arr p.tidx).data c.pc p)
    (hcons : ConsOk cap s.deq.length s.enq.length s.enq[s.deq.length]? p.pc c) :
    Inv cap { s with prod := p, cons := c, lock := l } where
  limit := h.limit
  prodLock := hlp
  consLock := hlc
  head := h.head
  tail := h.tail
  le := h.le
  le' := h.le'
  used := by simpa [State.lo, State.hi, hp, hc] using h.used
  free := by simpa [State.lo, State.hi, hp, hc] using h.free
  data := h.data
  fifo := h.fifo
  prod := hprod
  cons := hcons

/-- A producer step that touches only its locals and the mutex. -/
theorem Inv.prodMove (h : Inv cap s) (p : Local α) (l : Option Tid) (hpc : s.prod.pc ≠ .advance)
    (hpc' : p.pc ≠ .advance) (hlp : p.pc.holds = true ↔ l = some .producer)
    (hlc : s.cons.pc.holds = true ↔ l = some .consumer)
    (hwait : p.pc = .wait → s.cons.pc.holds = false)
    (hok : ProdOk cap s.deq.length s.enq.length (s.arr p.tidx).data s.cons.pc p) :
    Inv cap { s with prod := p, lock := l } :=
  h.localMove p s.cons l (iff_of_false hpc' hpc) Iff.rfl hlp hlc hok
    (h.cons.of_pc fun hw => .inl (hwait hw))

/-- The producer moves inside its critical section. -/
theorem Inv.prodStay (h : Inv cap s) (p : Local α) (hheld : s.prod.pc.holds = true)
    (hpc : s.prod.pc ≠ .advance) (hheld' : p.pc.holds = true) (hpc' : p.pc ≠ .advance)
    (hok : ProdOk cap s.deq.length s.enq.length (s.arr p.tidx).data s.cons.pc p) :
    Inv cap { s with prod := p } :=
  h.prodMove p s.lock hpc hpc' (by simpa [hheld, hheld'] using h.prodLock) h.consLock
    (fun _ => h.exclusive hheld) hok

/-- The producer takes the free mutex. -/
theorem Inv.prodTake (h : Inv cap s) (p : Local α) (hfree : s.lock = none)
    (hheld' : p.pc.holds = true) (hpc' : p.pc ≠ .advance)
    (hok : ProdOk cap s.deq.length s.enq.length (s.arr p.tidx).data s.cons.pc p) :
    Inv cap { s with prod := p, lock := some .producer } := by
  have hp := h.prodLock
  have hc := h.consLock
  rw [hfree] at hp hc
  have hpc : s.prod.pc ≠ .advance := by
    intro hadv
    rw [hadv] at hp
    simp [Pc.holds] at hp
  exact h.prodMove p _ hpc hpc' (by simpa using hheld') (by simpa using hc)
    (fun _ => by simpa using hc) hok

/-- The producer gives the mutex back, to block or to leave. -/
theorem Inv.prodDrop (h : Inv cap s) (p : Local α) (hheld : s.prod.pc.holds = true)
    (hpc : s.prod.pc ≠ .advance) (hout : p.pc.holds = false)
    (hok : ProdOk cap s.deq.length s.enq.length (s.arr p.tidx).data s.cons.pc p) :
    Inv cap { s with prod := p, lock := none } := by
  have hc := h.exclusive hheld
  have hpc' : p.pc ≠ .advance := by
    intro hadv
    rw [hadv] at hout
    simp [Pc.holds] at hout
  exact h.prodMove p _ hpc hpc' (by simp [hout]) (by simp [hc]) (fun _ => hc) hok

/-- A consumer step that touches only its locals and the mutex. -/
theorem Inv.consMove (h : Inv cap s) (c : Local α) (l : Option Tid) (hpc : s.cons.pc ≠ .advance)
    (hpc' : c.pc ≠ .advance) (hlp : s.prod.pc.holds = true ↔ l = some .producer)
    (hlc : c.pc.holds = true ↔ l = some .consumer) (hwait : c.pc = .wait → s.prod.pc.holds = false)
    (hok : ConsOk cap s.deq.length s.enq.length s.enq[s.deq.length]? s.prod.pc c) :
    Inv cap { s with cons := c, lock := l } :=
  h.localMove s.prod c l Iff.rfl (iff_of_false hpc' hpc) hlp hlc
    (h.prod.of_pc fun hw => .inl (hwait hw)) hok

theorem Inv.exclusive' (h : Inv cap s) (hc : s.cons.pc.holds = true) : s.prod.pc.holds = false := by
  by_contra hp
  have hout := h.exclusive (by simpa using hp)
  simp [hc] at hout

/-- The consumer moves inside its critical section. -/
theorem Inv.consStay (h : Inv cap s) (c : Local α) (hheld : s.cons.pc.holds = true)
    (hpc : s.cons.pc ≠ .advance) (hheld' : c.pc.holds = true) (hpc' : c.pc ≠ .advance)
    (hok : ConsOk cap s.deq.length s.enq.length s.enq[s.deq.length]? s.prod.pc c) :
    Inv cap { s with cons := c } :=
  h.consMove c s.lock hpc hpc' h.prodLock (by simpa [hheld, hheld'] using h.consLock)
    (fun _ => h.exclusive' hheld) hok

/-- The consumer takes the free mutex. -/
theorem Inv.consTake (h : Inv cap s) (c : Local α) (hfree : s.lock = none)
    (hheld' : c.pc.holds = true) (hpc' : c.pc ≠ .advance)
    (hok : ConsOk cap s.deq.length s.enq.length s.enq[s.deq.length]? s.prod.pc c) :
    Inv cap { s with cons := c, lock := some .consumer } := by
  have hp := h.prodLock
  have hc := h.consLock
  rw [hfree] at hp hc
  have hpc : s.cons.pc ≠ .advance := by
    intro hadv
    rw [hadv] at hc
    simp [Pc.holds] at hc
  exact h.consMove c _ hpc hpc' (by simpa using hp) (by simpa using hheld')
    (fun _ => by simpa using hp) hok

/-- The consumer gives the mutex back, to block or to leave. -/
theorem Inv.consDrop (h : Inv cap s) (c : Local α) (hheld : s.cons.pc.holds = true)
    (hpc : s.cons.pc ≠ .advance) (hout : c.pc.holds = false)
    (hok : ConsOk cap s.deq.length s.enq.length s.enq[s.deq.length]? s.prod.pc c) :
    Inv cap { s with cons := c, lock := none } := by
  have hp := h.exclusive' hheld
  have hpc' : c.pc ≠ .advance := by
    intro hadv
    rw [hadv] at hout
    simp [Pc.holds] at hout
  exact h.consMove c _ hpc hpc' (by simp [hp]) (by simp [hout]) (fun _ => hp) hok

/-! ## the steps that change the queue -/

/-- With the mutex held by the producer, the window is the two histories. -/
theorem Inv.lo_eq (h : Inv cap s) (hp : s.prod.pc.holds = true) : s.lo = s.deq.length := by
  have hc := h.exclusive hp
  cases hpc : s.cons.pc <;> simp_all [State.lo, Pc.holds]

theorem Inv.hi_eq (h : Inv cap s) (hc : s.cons.pc.holds = true) : s.hi = s.enq.length := by
  have hp := h.exclusive' hc
  cases hpc : s.prod.pc <;> simp_all [State.hi, Pc.holds]

/-- A slot other than the next one to fill is not the next one's slot. -/
theorem Inv.slot_ne_tail (h : Inv cap s) (hroom : s.enq.length < s.deq.length + cap) {j : Nat}
    (hj : s.deq.length ≤ j) (hj' : j < s.deq.length + cap) (hne : j ≠ s.enq.length) :
    j % cap ≠ s.enq.length % cap :=
  fun heq => hne (slot_inj hj hj' h.le hroom heq)

/-- `memcpy` into the free slot at the tail. -/
theorem Inv.prodCopy (h : Inv cap s) (hpc : s.prod.pc = .copy) :
    Inv cap { s with
      arr := setData s.arr s.prod.tidx s.prod.data, prod := { s.prod with pc := .signal } } := by
  have hok := h.prod
  simp only [ProdOk, hpc] at hok
  obtain ⟨ht, hroom, hempty⟩ := hok
  refine { h with prodLock := ?_, used := ?_, free := ?_, data := ?_, prod := ?_, cons := ?_ }
  · simpa [hpc, Pc.holds] using h.prodLock
  · simpa [State.lo, State.hi, hpc] using h.used
  · simpa [State.lo, State.hi, hpc] using h.free
  · intro j (hj : s.deq.length ≤ j) (hj' : j < s.enq.length)
    have hne := h.slot_ne_tail hroom hj (by omega) (by omega)
    rw [ht, setData_of_ne _ _ hne]
    exact h.data j hj hj'
  · exact ⟨ht, hroom, hempty, by simp⟩
  · exact h.cons.of_pc (by simp)

/-- The store `in_use = 1` at the tail. -/
theorem Inv.prodMark (h : Inv cap s) (hpc : s.prod.pc = .mark) :
    Inv cap { s with
      arr := setInUse s.arr s.prod.tidx 1, prod := { s.prod with pc := .advance } } := by
  have hok := h.prod
  simp only [ProdOk, hpc] at hok
  obtain ⟨ht, hroom, hdata, hwait⟩ := hok
  have hlo := h.lo_eq (by rw [hpc]; rfl)
  have hhi : s.hi = s.enq.length := by simp [State.hi, hpc]
  have hle := h.le
  refine { h with prodLock := ?_, used := ?_, free := ?_, data := ?_, prod := ?_, cons := ?_ }
  · simpa [hpc, Pc.holds] using h.prodLock
  · intro j (hj : s.lo ≤ j) (hj' : j < s.enq.length + 1)
    by_cases hlast : j = s.enq.length
    · rw [hlast, ← ht, setInUse_self]
    · rw [ht, setInUse_of_ne _ _ (h.slot_ne_tail hroom (by omega) (by omega) hlast)]
      exact h.used j hj (by omega)
  · intro j (hj : s.enq.length + 1 ≤ j) (hj' : j < s.lo + cap)
    rw [ht, setInUse_of_ne _ _ (h.slot_ne_tail hroom (by omega) (by omega) (by omega))]
    exact h.free j (by omega) hj'
  · simpa using h.data
  · exact ⟨ht, hroom, by simpa using hdata, hwait⟩
  · exact h.cons.of_pc (by simp)

/-- The increment of `tail`: the item is in the queue. -/
theorem Inv.prodAdvance (h : Inv cap s) (hpc : s.prod.pc = .advance) :
    Inv cap { s with
      tail := s.tail + 1, enq := s.enq ++ [s.prod.data],
      prod := { s.prod with pc := .unlock } } := by
  have hok := h.prod
  simp only [ProdOk, hpc] at hok
  obtain ⟨ht, hroom, hdata, hwait⟩ := hok
  have hout := h.exclusive (by rw [hpc]; rfl)
  have hle := h.le
  refine { h with
    prodLock := ?_, tail := ?_, le := ?_, le' := ?_, used := ?_, free := ?_, data := ?_, fifo := ?_
    prod := trivial, cons := ?_ }
  · simpa [hpc, Pc.holds] using h.prodLock
  · show s.tail + 1 = UInt32.ofNat (s.enq ++ [s.prod.data]).length
    rw [h.tail, ofNat_succ, List.length_append, List.length_singleton]
  · simp; omega
  · simp; omega
  · simpa [State.lo, State.hi, hpc] using h.used
  · simpa [State.lo, State.hi, hpc] using h.free
  · intro j (hj : s.deq.length ≤ j) hj'
    by_cases hlast : j = s.enq.length
    · subst hlast
      simpa [ht] using hdata
    · have hlt : j < s.enq.length := by simp at hj'; omega
      simpa [List.getElem_append_left hlt] using h.data j hj hlt
  · exact h.fifo.trans (List.prefix_append _ _)
  · exact h.cons.of_outside hout hwait

/-- A slot other than the oldest one is not the oldest one's slot. -/
theorem Inv.slot_ne_head {j : Nat} (hj : s.deq.length ≤ j) (hj' : j < s.deq.length + cap)
    (hne : j ≠ s.deq.length) : j % cap ≠ s.deq.length % cap :=
  fun heq => hne (slot_inj hj hj' (Nat.le_refl _) (by omega) heq)

/-- The store `in_use = 0` at the head. -/
theorem Inv.consMark (h : Inv cap s) (hpc : s.cons.pc = .mark) :
    Inv cap { s with
      arr := setInUse s.arr s.cons.hidx 0, cons := { s.cons with pc := .advance } } := by
  have hok := h.cons
  simp only [ConsOk, hpc] at hok
  obtain ⟨hh, hsome, hnext, hwait⟩ := hok
  have hhi := h.hi_eq (by rw [hpc]; rfl)
  have hlo : s.lo = s.deq.length := by simp [State.lo, hpc]
  have hle := h.le'
  refine { h with consLock := ?_, used := ?_, free := ?_, data := ?_, prod := ?_, cons := ?_ }
  · simpa [hpc, Pc.holds] using h.consLock
  · intro j (hj : s.deq.length + 1 ≤ j) (hj' : j < s.hi)
    rw [hh, setInUse_of_ne _ _ (Inv.slot_ne_head (by omega) (by omega) (by omega))]
    exact h.used j (by omega) hj'
  · intro j (hj : s.hi ≤ j) (hj' : j < s.deq.length + 1 + cap)
    by_cases hlast : j = s.deq.length + cap
    · -- the slot just freed closes the window of free slots
      rw [hlast, slot_add_size, ← hh, setInUse_self]
    · rw [hh, setInUse_of_ne _ _ (Inv.slot_ne_head (by omega) (by omega) (by omega))]
      exact h.free j hj (by omega)
  · simpa using h.data
  · simpa using h.prod.of_pc (by simp)
  · exact ⟨hh, hsome, hnext, hwait⟩

/-- The increment of `head`: the item has left the queue. -/
theorem Inv.consAdvance (h : Inv cap s) (hpc : s.cons.pc = .advance) :
    Inv cap { s with
      head := s.head + 1, deq := s.deq ++ [s.cons.data],
      cons := { s.cons with pc := .unlock } } := by
  have hok := h.cons
  simp only [ConsOk, hpc] at hok
  obtain ⟨hh, hsome, hnext, hwait⟩ := hok
  have hout := h.exclusive' (by rw [hpc]; rfl)
  have hle := h.le'
  refine { h with
    consLock := ?_, head := ?_, le := ?_, le' := ?_, used := ?_, free := ?_, data := ?_, fifo := ?_
    prod := ?_, cons := trivial }
  · simpa [hpc, Pc.holds] using h.consLock
  · show s.head + 1 = UInt32.ofNat (s.deq ++ [s.cons.data]).length
    rw [h.head, ofNat_succ, List.length_append, List.length_singleton]
  · simp; omega
  · simp; omega
  · simpa [State.lo, State.hi, hpc] using h.used
  · simpa [State.lo, State.hi, hpc] using h.free
  · intro j hj hj'
    exact h.data j (by simp at hj; omega) hj'
  · obtain ⟨rest, hrest⟩ := h.fifo
    cases rest with
    | nil => rw [← hrest] at hsome; simp at hsome
    | cons x rest =>
        have hx : x = s.cons.data := by simpa [← hrest] using hnext
        exact ⟨rest, by simp [← hrest, hx]⟩
  · exact h.prod.of_outside hout hwait

/-! ## wakeups -/

@[simp] theorem Local.wake_holds (l : Local α) : l.wake.pc.holds = l.pc.holds := by
  cases hpc : l.pc <;> simp [Local.wake, hpc, Pc.holds]

@[simp] theorem Local.wake_advance (l : Local α) : l.wake.pc = .advance ↔ l.pc = .advance := by
  cases hpc : l.pc <;> simp [Local.wake, hpc]

@[simp] theorem Local.wake_pc_ne_wait (l : Local α) : l.wake.pc ≠ .wait := by
  cases hpc : l.pc <;> simp [Local.wake, hpc]

/-- A wakeup, by a signal or spurious, keeps what the consumer knows. -/
theorem Inv.consWake (h : Inv cap s) : Inv cap { s with cons := s.cons.wake } := by
  refine { h with consLock := ?_, used := ?_, free := ?_, prod := ?_, cons := ?_ }
  · simpa using h.consLock
  · simpa [State.lo, State.hi] using h.used
  · simpa [State.lo, State.hi] using h.free
  · exact h.prod.of_pc (fun hw => absurd hw (Local.wake_pc_ne_wait _))
  · have hok := h.cons
    by_cases hw : s.cons.pc = .wait
    · simp only [ConsOk, hw] at hok
      simp only [Local.wake, hw, if_true, ConsOk]
      exact ⟨hok.1, hok.2.1⟩
    · simpa [Local.wake, hw] using hok

/-- A wakeup keeps what the producer knows. -/
theorem Inv.prodWake (h : Inv cap s) : Inv cap { s with prod := s.prod.wake } := by
  refine { h with prodLock := ?_, used := ?_, free := ?_, prod := ?_, cons := ?_ }
  · simpa using h.prodLock
  · simpa [State.lo, State.hi] using h.used
  · simpa [State.lo, State.hi] using h.free
  · have hok := h.prod
    by_cases hw : s.prod.pc = .wait
    · simp only [ProdOk, hw] at hok
      simp only [Local.wake, hw, if_true, ProdOk]
      exact ⟨hok.1, hok.2.1⟩
    · simpa [Local.wake, hw] using hok
  · exact h.cons.of_pc (fun hw => absurd hw (Local.wake_pc_ne_wait _))

end Linuxyz.Queue
