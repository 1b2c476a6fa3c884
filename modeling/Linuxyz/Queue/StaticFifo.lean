import Linuxyz.Queue.StaticInv

/-!
# Linuxyz.Queue.StaticFifo

What the invariant of the static queue gives, for every power-of-two capacity
and every interleaving of its two threads:

* `static_bounded_fifo` -- the queue is a bounded FIFO: nothing is lost,
  duplicated, reordered or overwritten, across any number of counter
  wraparounds and spurious wakeups;
* `static_no_lost_wakeup` -- a thread that is blocked without a pending
  wakeup has a reason: the producer only while the queue is full, the consumer
  only while it is empty.
-/

namespace Linuxyz.Queue

open RingIndex

variable {α : Type} {s s' : State α} {cap : Nat}

/-! ## every step preserves the invariant -/

/-- With room, the slot of the tail is free. -/
theorem Inv.tail_free (h : Inv cap s) (hp : s.prod.pc.holds = true) (hpc : s.prod.pc ≠ .advance)
    (hroom : s.enq.length < s.deq.length + cap) : (s.arr (s.enq.length % cap)).inUse = 0 :=
  h.free _ (by simp [State.hi, hpc]) (by rw [h.lo_eq hp]; exact hroom)

/-- With an item, the slot of the head is in use. -/
theorem Inv.head_used (h : Inv cap s) (hc : s.cons.pc.holds = true) (hpc : s.cons.pc ≠ .advance)
    (hitem : s.deq.length < s.enq.length) : (s.arr (s.deq.length % cap)).inUse = 1 :=
  h.used _ (by simp [State.lo, hpc]) (by rw [h.hi_eq hc]; exact hitem)

/-- A slot of the tail that is not in use is room. -/
theorem Inv.room_of_not_inUse (h : Inv cap s) (hcap : 0 < cap) (hp : s.prod.pc.holds = true)
    (hpc : s.prod.pc ≠ .advance) (hfree : (s.arr (s.enq.length % cap)).inUse ≠ 1) :
    s.enq.length < s.deq.length + cap := by
  by_contra hfull
  have hle := h.le'
  have heq : s.enq.length = s.deq.length + cap := by omega
  refine hfree ?_
  rw [heq, slot_add_size]
  exact h.used _ (by rw [h.lo_eq hp]) (by simp [State.hi, hpc]; omega)

/-- A slot of the head that is in use is an item. -/
theorem Inv.item_of_inUse (h : Inv cap s) (hcap : 0 < cap) (hc : s.cons.pc.holds = true)
    (hpc : s.cons.pc ≠ .advance) (hused : (s.arr (s.deq.length % cap)).inUse = 1) :
    s.deq.length < s.enq.length := by
  by_contra hempty
  have hle := h.le
  have heq : s.enq.length = s.deq.length := by omega
  have hzero := h.free s.deq.length (by rw [h.hi_eq hc]; omega) (by simp [State.lo, hpc]; omega)
  rw [hzero] at hused
  cases hused

/-- Head and tail share a slot that is in use: the window is the whole ring. -/
theorem Inv.full_of_inUse (h : Inv cap s) (hp : s.prod.pc.holds = true) (hpc : s.prod.pc ≠ .advance)
    (hwrap : s.enq.length % cap = s.deq.length % cap)
    (hused : (s.arr (s.enq.length % cap)).inUse = 1) : s.enq.length = s.deq.length + cap := by
  by_contra hlt
  have hle := h.le
  have hle' := h.le'
  have heq : s.enq.length = s.deq.length := slot_inj hle (by omega) (Nat.le_refl _) (by omega) hwrap
  rw [h.tail_free hp hpc (by omega)] at hused
  cases hused

/-- The slot of the head is free: the window is empty. -/
theorem Inv.empty_of_not_inUse (h : Inv cap s) (hc : s.cons.pc.holds = true)
    (hpc : s.cons.pc ≠ .advance) (hfree : (s.arr (s.deq.length % cap)).inUse ≠ 1) :
    s.enq.length = s.deq.length := by
  by_contra hne
  have hle := h.le
  exact hfree (h.head_used hc hpc (by omega))

theorem Inv.lock_of_acquire {t : Tid} (h : s.acquire t = some s') :
    s.lock = none ∧ s' = { s with lock := some t } := by
  unfold State.acquire at h
  split at h
  · next hfree => exact ⟨hfree, (Option.some.inj h).symm⟩
  · cases h

/-- One statement of `enqueue`. -/
theorem Inv.enqueueStep (h : Inv cap s) (hcap : 0 < cap) (hdvd : cap ∣ 2 ^ 32)
    (hstep : enqueueStep s = some s') : Inv cap s' := by
  have hok := h.prod
  have hslot := toNat_ofNat_mod hdvd
  cases hpc : s.prod.pc <;> simp only [Queue.enqueueStep, hpc, reduceCtorEq] at hstep
  case lock =>
    obtain ⟨s₁, hacq, rfl⟩ := Option.map_eq_some_iff.mp hstep
    obtain ⟨hfree, rfl⟩ := Inv.lock_of_acquire hacq
    exact h.prodTake _ hfree rfl (by simp) trivial
  case loadHead =>
    obtain rfl := Option.some.inj hstep
    refine h.prodStay _ (by rw [hpc]; rfl) (by simp [hpc]) rfl (by simp) ?_
    show s.head.toNat % s.limit = _
    rw [h.limit, h.head, hslot]
  case loadTail =>
    obtain rfl := Option.some.inj hstep
    simp only [ProdOk, hpc] at hok
    refine h.prodStay _ (by rw [hpc]; rfl) (by simp [hpc]) rfl (by simp) ⟨hok, ?_⟩
    show s.tail.toNat % s.limit = _
    rw [h.limit, h.tail, hslot]
  case test =>
    simp only [ProdOk, hpc] at hok
    split at hstep
    · next hfull =>
        obtain rfl := Option.some.inj hstep
        refine h.prodDrop _ (by rw [hpc]; rfl) (by simp [hpc]) rfl ?_
        have hwrap : s.enq.length % cap = s.deq.length % cap := by rw [← hok.1, ← hok.2, hfull.1]
        have hused : (s.arr (s.enq.length % cap)).inUse = 1 := by
          rw [hwrap, ← hok.1]
          exact hfull.2
        exact ⟨by rw [hok.1, ← hwrap], hok.2,
          h.full_of_inUse (by rw [hpc]; rfl) (by simp [hpc]) hwrap hused⟩
    · next hroom =>
        obtain rfl := Option.some.inj hstep
        refine h.prodStay _ (by rw [hpc]; rfl) (by simp [hpc]) rfl (by simp)
          ⟨hok.2, ?_, fun heq => by rw [hok.1, hok.2, heq]⟩
        by_cases hidx : s.prod.hidx = s.prod.tidx
        · refine h.room_of_not_inUse hcap (by rw [hpc]; rfl) (by simp [hpc]) ?_
          rw [← hok.2, ← hidx]
          exact fun hused => hroom ⟨hidx, hused⟩
        · have hle' := h.le'
          have hne : s.enq.length ≠ s.deq.length + cap := by
            intro heq
            exact hidx (by rw [hok.1, hok.2, heq, slot_add_size])
          omega
  case woken =>
    simp only [ProdOk, hpc] at hok
    obtain ⟨s₁, hacq, rfl⟩ := Option.map_eq_some_iff.mp hstep
    obtain ⟨hfree, rfl⟩ := Inv.lock_of_acquire hacq
    exact h.prodTake _ hfree rfl (by simp) hok
  case retest =>
    simp only [ProdOk, hpc] at hok
    split at hstep
    · obtain rfl := Option.some.inj hstep
      exact h.prodStay _ (by rw [hpc]; rfl) (by simp [hpc]) rfl (by simp) trivial
    · next hroom =>
        obtain rfl := Option.some.inj hstep
        have hidx : s.prod.hidx = s.prod.tidx := by rw [hok.1, hok.2]
        -- the stale index is still the tail's slot, so a free slot is room
        refine h.prodStay _ (by rw [hpc]; rfl) (by simp [hpc]) rfl (by simp) ⟨hok.2,
          ?_, fun _ => hidx⟩
        refine h.room_of_not_inUse hcap (by rw [hpc]; rfl) (by simp [hpc]) ?_
        rw [← hok.1]
        exact fun hused => hroom ⟨hidx, hused⟩
  case release =>
    obtain rfl := Option.some.inj hstep
    exact h.prodDrop _ (by rw [hpc]; rfl) (by simp [hpc]) rfl trivial
  case copy =>
    obtain rfl := Option.some.inj hstep
    exact h.prodCopy hpc
  case signal =>
    simp only [ProdOk, hpc] at hok
    obtain ⟨ht, hroom, hempty, hdata⟩ := hok
    split at hstep
    · obtain rfl := Option.some.inj hstep
      exact h.consWake.prodStay _ (by simp only [hpc]; rfl) (by simp [hpc]) rfl (by simp)
        ⟨ht, hroom, hdata, Local.wake_pc_ne_wait _⟩
    · next hquiet =>
        obtain rfl := Option.some.inj hstep
        refine h.prodStay _ (by rw [hpc]; rfl) (by simp [hpc]) rfl (by simp) ⟨ht, hroom, hdata, ?_⟩
        -- a blocked consumer means an empty queue, and then the signal is sent
        intro hwait
        have hcons := h.cons
        simp only [ConsOk, hwait] at hcons
        refine hquiet ⟨hempty hcons.2.2, ?_⟩
        rw [hempty hcons.2.2, ht, h.tail_free (by rw [hpc]; rfl) (by simp [hpc]) hroom]
        decide
  case mark =>
    obtain rfl := Option.some.inj hstep
    exact h.prodMark hpc
  case advance =>
    obtain rfl := Option.some.inj hstep
    exact h.prodAdvance hpc
  case unlock =>
    obtain rfl := Option.some.inj hstep
    exact h.prodDrop _ (by rw [hpc]; rfl) (by simp [hpc]) rfl trivial

/-- One statement of `dequeue`. -/
theorem Inv.dequeueStep (h : Inv cap s) (hcap : 0 < cap) (hdvd : cap ∣ 2 ^ 32)
    (hstep : dequeueStep s = some s') : Inv cap s' := by
  have hok := h.cons
  have hslot := toNat_ofNat_mod hdvd
  cases hpc : s.cons.pc <;> simp only [Queue.dequeueStep, hpc, reduceCtorEq] at hstep
  case lock =>
    obtain ⟨s₁, hacq, rfl⟩ := Option.map_eq_some_iff.mp hstep
    obtain ⟨hfree, rfl⟩ := Inv.lock_of_acquire hacq
    exact h.consTake _ hfree rfl (by simp) trivial
  case loadHead =>
    obtain rfl := Option.some.inj hstep
    refine h.consStay _ (by rw [hpc]; rfl) (by simp [hpc]) rfl (by simp) ?_
    show s.head.toNat % s.limit = _
    rw [h.limit, h.head, hslot]
  case loadTail =>
    obtain rfl := Option.some.inj hstep
    simp only [ConsOk, hpc] at hok
    refine h.consStay _ (by rw [hpc]; rfl) (by simp [hpc]) rfl (by simp) ⟨hok, ?_⟩
    show s.tail.toNat % s.limit = _
    rw [h.limit, h.tail, hslot]
  case test =>
    simp only [ConsOk, hpc] at hok
    split at hstep
    · next hempty =>
        obtain rfl := Option.some.inj hstep
        refine h.consDrop _ (by rw [hpc]; rfl) (by simp [hpc]) rfl ?_
        have hlen := h.empty_of_not_inUse (by rw [hpc]; rfl) (by simp [hpc]) (hok.1 ▸ hempty.2)
        exact ⟨hok.1, by rw [hok.2, hlen], hlen⟩
    · next hitem =>
        obtain rfl := Option.some.inj hstep
        refine h.consStay _ (by rw [hpc]; rfl) (by simp [hpc]) rfl (by simp)
          ⟨hok.1, ?_, fun heq => by rw [hok.1, hok.2, heq, slot_add_size]⟩
        by_cases hidx : s.cons.hidx = s.cons.tidx
        · refine h.item_of_inUse hcap (by rw [hpc]; rfl) (by simp [hpc]) ?_
          rw [← hok.1]
          by_contra hused
          exact hitem ⟨hidx, hused⟩
        · have hle := h.le
          have hne : s.enq.length ≠ s.deq.length := by
            intro heq
            exact hidx (by rw [hok.1, hok.2, heq])
          omega
  case woken =>
    simp only [ConsOk, hpc] at hok
    obtain ⟨s₁, hacq, rfl⟩ := Option.map_eq_some_iff.mp hstep
    obtain ⟨hfree, rfl⟩ := Inv.lock_of_acquire hacq
    exact h.consTake _ hfree rfl (by simp) hok
  case retest =>
    simp only [ConsOk, hpc] at hok
    split at hstep
    · obtain rfl := Option.some.inj hstep
      exact h.consStay _ (by rw [hpc]; rfl) (by simp [hpc]) rfl (by simp) trivial
    · next hitem =>
        obtain rfl := Option.some.inj hstep
        have hidx : s.cons.hidx = s.cons.tidx := by rw [hok.1, hok.2]
        -- the stale index is still the head's slot, so a slot in use is an item
        refine h.consStay _ (by rw [hpc]; rfl) (by simp [hpc]) rfl (by simp) ⟨hok.1,
          ?_, fun _ => hidx⟩
        refine h.item_of_inUse hcap (by rw [hpc]; rfl) (by simp [hpc]) ?_
        rw [← hok.1]
        by_contra hused
        exact hitem ⟨hidx, hused⟩
  case release =>
    obtain rfl := Option.some.inj hstep
    exact h.consDrop _ (by rw [hpc]; rfl) (by simp [hpc]) rfl trivial
  case copy =>
    simp only [ConsOk, hpc] at hok
    obtain rfl := Option.some.inj hstep
    refine h.consStay _ (by rw [hpc]; rfl) (by simp [hpc]) rfl (by simp) ⟨hok.1, hok.2.1,
      hok.2.2, ?_⟩
    show _ = some (s.arr s.cons.hidx).data
    rw [hok.1, h.data _ (Nat.le_refl _) hok.2.1, List.getElem?_eq_getElem]
  case signal =>
    simp only [ConsOk, hpc] at hok
    obtain ⟨hh, hitem, hfull, hnext⟩ := hok
    split at hstep
    · obtain rfl := Option.some.inj hstep
      exact h.prodWake.consStay _ (by simp only [hpc]; rfl) (by simp [hpc]) rfl (by simp)
        ⟨hh, hitem, hnext, Local.wake_pc_ne_wait _⟩
    · next hquiet =>
        obtain rfl := Option.some.inj hstep
        refine h.consStay _ (by rw [hpc]; rfl) (by simp [hpc]) rfl (by simp) ⟨hh, hitem, hnext, ?_⟩
        -- a blocked producer means a full queue, and then the signal is sent
        intro hwait
        have hprod := h.prod
        simp only [ProdOk, hwait] at hprod
        refine hquiet ⟨hfull hprod.2.2, ?_⟩
        rw [hh]
        exact h.head_used (by rw [hpc]; rfl) (by simp [hpc]) hitem
  case mark =>
    obtain rfl := Option.some.inj hstep
    exact h.consMark hpc
  case advance =>
    obtain rfl := Option.some.inj hstep
    exact h.consAdvance hpc
  case unlock =>
    obtain rfl := Option.some.inj hstep
    exact h.consDrop _ (by rw [hpc]; rfl) (by simp [hpc]) rfl trivial

/-- Every action preserves the invariant. -/
theorem Inv.step (h : Inv cap s) (hcap : 0 < cap) (hdvd : cap ∣ 2 ^ 32) {a : Act α}
    (hstep : step s a = some s') : Inv cap s' := by
  cases a with
  | enqueue x =>
      simp only [Queue.step] at hstep
      split at hstep
      · next hidle =>
          obtain rfl := Option.some.inj hstep
          have hl := h.prodLock
          rw [hidle] at hl
          exact h.prodMove _ _ (by simp [hidle]) (by simp)
            (by simpa [Pc.holds] using hl) h.consLock (by simp)
            trivial
      · cases hstep
  | dequeue =>
      simp only [Queue.step] at hstep
      split at hstep
      · next hidle =>
          obtain rfl := Option.some.inj hstep
          have hl := h.consLock
          rw [hidle] at hl
          exact h.consMove _ _ (by simp [hidle]) (by simp) h.prodLock
            (by simpa [Pc.holds] using hl) (by simp)
            trivial
      · cases hstep
  | run t =>
      cases t with
      | producer => exact h.enqueueStep hcap hdvd hstep
      | consumer => exact h.dequeueStep hcap hdvd hstep
  | spurious t =>
      cases t with
      | producer =>
          simp only [Queue.step] at hstep
          split at hstep
          · obtain rfl := Option.some.inj hstep
            exact h.prodWake
          · cases hstep
      | consumer =>
          simp only [Queue.step] at hstep
          split at hstep
          · obtain rfl := Option.some.inj hstep
            exact h.consWake
          · cases hstep

/-- A new queue. -/
theorem Inv.init (h : MakeQueue cap s) : Inv cap s where
  limit := h.limit
  prodLock := by simp [h.prod, h.lock, Pc.holds]
  consLock := by simp [h.cons, h.lock, Pc.holds]
  head := by simp [h.head, h.deq]
  tail := by simp [h.tail, h.enq]
  le := by simp [h.deq]
  le' := by simp [h.enq]
  used := by simp [State.hi, h.enq, h.prod]
  free := by
    intro j _ hj
    have hlt : j < cap := by simpa [State.lo, h.deq, h.cons] using hj
    exact h.arr _ (Nat.mod_lt _ (by omega))
  data := by simp [h.enq]
  fifo := by simp [h.deq]
  prod := by simp [ProdOk, h.prod]
  cons := by simp [ConsOk, h.cons]

/-- The invariant holds in every reachable state. -/
theorem inv_of_reachable (hcap : 0 < cap) (hdvd : cap ∣ 2 ^ 32) (h : (static α cap).Reachable s) :
    Inv cap s :=
  h.invariant (fun _ => Inv.init) fun _ _ _ hi hs => hi.step hcap hdvd hs

/-! ## bounded FIFO -/

/-- **Bounded FIFO**: in every reachable state of a queue of `2 ^ k` slots the
dequeued items are a prefix of the enqueued ones; `enqueue` copies only into a
slot that is not in use and `dequeue` copies only out of one that is; no item
that is still in the queue has been overwritten; and at most `2 ^ k` items are
in the queue. -/
theorem static_bounded_fifo (k : Nat) (hk : k < 32) (s : State α)
    (h : (static α (2 ^ k)).Reachable s) :
    s.deq <+: s.enq ∧
      (s.prod.pc = .copy → (s.arr s.prod.tidx).inUse = 0) ∧
      (s.cons.pc = .copy → (s.arr s.cons.hidx).inUse = 1 ∧
        s.enq[s.deq.length]? = some (s.arr s.cons.hidx).data) ∧
      (∀ j, s.deq.length ≤ j → ∀ hj : j < s.enq.length, (s.arr (j % 2 ^ k)).data = s.enq[j]) ∧
      s.enq.length ≤ s.deq.length + 2 ^ k := by
  have hinv := inv_of_reachable (Nat.two_pow_pos k) (Nat.pow_dvd_pow 2 (by omega)) h
  refine ⟨hinv.fifo, ?_, ?_, hinv.data, hinv.le'⟩
  · intro hpc
    have hok := hinv.prod
    simp only [ProdOk, hpc] at hok
    rw [hok.1]
    exact hinv.free _ (by simp [State.hi, hpc])
      (by rw [hinv.lo_eq (by rw [hpc]; rfl)]; exact hok.2.1)
  · intro hpc
    have hok := hinv.cons
    simp only [ConsOk, hpc] at hok
    rw [hok.1]
    refine ⟨hinv.used _ (by simp [State.lo, hpc])
      (by rw [hinv.hi_eq (by rw [hpc]; rfl)]; exact hok.2.1), ?_⟩
    rw [hinv.data _ (Nat.le_refl _) hok.2.1, List.getElem?_eq_getElem]

/-- Two items through a queue of two slots, stopped where the consumer is about
to copy the first one out. -/
theorem static_bounded_fifo_copying :
    ∃ s : State Nat, (static Nat (2 ^ 1)).Reachable s ∧ s.enq = [5, 6] ∧ s.cons.pc = .copy ∧
      s.deq <+: s.enq ∧ (s.arr s.cons.hidx).inUse = 1 := by
  have hlogs : ((static Nat (2 ^ 1)).run (makeQueue 2 0)
      (Act.enqueue 5 :: List.replicate 9 (Act.run .producer) ++
        Act.enqueue 6 :: List.replicate 9 (Act.run .producer) ++
        Act.dequeue :: List.replicate 4 (Act.run .consumer))).map (fun s => (s.enq, s.cons.pc)) =
          some ([5, 6], .copy) := by decide +kernel
  obtain ⟨s, hrun, hs⟩ := Option.map_eq_some_iff.mp hlogs
  obtain ⟨henq, hpc⟩ := Prod.mk.inj hs
  have hreach := System.reachable_of_run (.init (makeQueue_init 2 0)) hrun
  have hfifo := static_bounded_fifo 1 (by decide) s hreach
  exact ⟨s, hreach, henq, hpc, hfifo.1, (hfifo.2.2.1 hpc).1⟩

/-! ## no lost wakeup -/

/-- Every slot is in use and as many items went in as the capacity allows. -/
def State.Full (s : State α) : Prop :=
  (∀ i < s.limit, (s.arr i).inUse = 1) ∧ s.enq.length = s.deq.length + s.limit

/-- No slot is in use and every item has come out again. -/
def State.Empty (s : State α) : Prop :=
  (∀ i < s.limit, (s.arr i).inUse = 0) ∧ s.enq.length = s.deq.length

/-- A producer that waits has found the queue full, and it still is. -/
theorem Inv.full_of_prod_wait (h : Inv cap s) (hw : s.prod.pc = .wait) : s.Full := by
  have hok := h.prod
  simp only [ProdOk, hw] at hok
  have hlo : s.lo = s.deq.length := by
    have hcons := h.cons
    cases hpc : s.cons.pc <;> simp_all [State.lo, ConsOk]
  refine ⟨fun i hi => ?_, by rw [h.limit]; exact hok.2.2⟩
  obtain ⟨j, hj, hj', rfl⟩ := exists_slot s.deq.length (h.limit ▸ hi)
  exact h.used j (by omega) (by simp [State.hi, hw]; omega)

/-- A consumer that waits has found the queue empty, and it still is. -/
theorem Inv.empty_of_cons_wait (h : Inv cap s) (hw : s.cons.pc = .wait) : s.Empty := by
  have hok := h.cons
  simp only [ConsOk, hw] at hok
  have hhi : s.hi = s.enq.length := by
    have hprod := h.prod
    cases hpc : s.prod.pc <;> simp_all [State.hi, ProdOk]
  refine ⟨fun i hi => ?_, hok.2.2⟩
  obtain ⟨j, hj, hj', rfl⟩ := exists_slot s.deq.length (h.limit ▸ hi)
  exact h.free j (by omega) (by simp [State.lo, hw]; omega)

/-- **No lost wakeup**: a producer blocked without a pending wakeup faces a
full queue, a consumer so blocked an empty one, and so the two are never
blocked together. -/
theorem static_no_lost_wakeup (k : Nat) (hk : k < 32) (s : State α)
    (h : (static α (2 ^ k)).Reachable s) :
    (s.prod.pc = .wait → s.Full) ∧ (s.cons.pc = .wait → s.Empty) ∧
      ¬ (s.prod.pc = .wait ∧ s.cons.pc = .wait) := by
  have hinv := inv_of_reachable (Nat.two_pow_pos k) (Nat.pow_dvd_pow 2 (by omega)) h
  refine ⟨hinv.full_of_prod_wait, hinv.empty_of_cons_wait, ?_⟩
  rintro ⟨hp, hc⟩
  have hfull := (hinv.full_of_prod_wait hp).2
  have hempty := (hinv.empty_of_cons_wait hc).2
  have hpos := Nat.two_pow_pos k
  rw [hinv.limit] at hfull
  omega

/-- A producer that blocks on a full queue of one slot. -/
theorem static_no_lost_wakeup_blocked :
    ∃ s : State Nat, (static Nat (2 ^ 0)).Reachable s ∧ s.prod.pc = .wait ∧ s.Full := by
  have hwait : ((static Nat (2 ^ 0)).run (makeQueue 1 0)
      (Act.enqueue 5 :: List.replicate 9 (Act.run .producer) ++
        Act.enqueue 6 :: List.replicate 4 (Act.run .producer))).map (fun s => s.prod.pc) =
          some .wait := by
    decide +kernel
  obtain ⟨s, hrun, hpc⟩ := Option.map_eq_some_iff.mp hwait
  have hreach := System.reachable_of_run (.init (makeQueue_init 1 0)) hrun
  exact ⟨s, hreach, hpc, (static_no_lost_wakeup 0 (by decide) s hreach).1 hpc⟩

end Linuxyz.Queue
