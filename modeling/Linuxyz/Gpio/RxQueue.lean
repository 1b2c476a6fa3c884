import Linuxyz.Gpio.Line
import Linuxyz.Lib.Buffer
import Linuxyz.Lib.System
import Mathlib.Logic.Function.Basic

/-!
# Linuxyz.Gpio.RxQueue

The receive queue of `kdev-gpio-irqsock/kgpio_irqsk.c`: `geth_napi_interrupt`
pushes a completed frame and schedules a poll, `geth_poll` takes frames off and
hands them to the network stack.

The two share `i_q_ptr`, the index of the top entry, without a lock (the calls
are commented out), and the queue has `MAX_Q_LEN` = 1 entry.  `geth_poll` copies
the top entry once, before its loop, and does not look at `i_q_ptr` first.  So a
frame has to find the queue empty and no poll in its loop: one that comes
earlier is stored behind the array, one that comes while the loop runs makes it
deliver the old copy again.

`geth_poll` runs statement by statement here, and interrupts fall between any
two.  `none` is an access outside an array.
-/

namespace Linuxyz.Gpio

open Buffer

/-- `MAX_Q_LEN`. -/
def maxQLen : Nat := 1

/-- The state bits of the NAPI instance: it is scheduled, and it was scheduled
again meanwhile. -/
structure Napi where
  sched : Bool
  missed : Bool
deriving DecidableEq, Repr

/-- `napi_schedule`. -/
def Napi.schedule (n : Napi) : Napi := if n.sched then ⟨true, true⟩ else ⟨true, false⟩

/-- `napi_complete_done`. -/
def Napi.completeDone (n : Napi) : Napi := ⟨n.missed, false⟩

/-- The statement `geth_poll` executes next. -/
inductive PollPc where
  /-- no poll runs -/
  | idle
  /-- `pkt.datalen = i_q_len[i_q_ptr]` -/
  | len
  /-- `memcpy(pkt.data, i_q[i_q_ptr], pkt.datalen)` -/
  | copy
  /-- the test of the loop -/
  | test
  /-- `i_q_ptr -= 1` -/
  | take
  /-- from `dev_alloc_skb` to the end of the loop's body -/
  | deliver
  /-- after the loop -/
  | complete
deriving DecidableEq, Repr

/-- The queue, the NAPI instance and the locals of the running poll; with the
frames accepted and the frames handed to the network stack. -/
structure RxQueue where
  iQPtr : Int
  iQLen : Int → Nat
  iQ : Int → List UInt8
  napi : Napi
  pc : PollPc
  budget : Nat
  npackets : Nat
  datalen : Nat
  data : List UInt8
  accepted : List (List UInt8)
  delivered : List (List UInt8)

def RxQueue.start : RxQueue where
  iQPtr := -1
  iQLen := fun _ => 0
  iQ := fun _ => List.replicate maxPktlen 0
  napi := ⟨false, false⟩
  pc := .idle
  budget := 0
  npackets := 0
  datalen := 0
  data := []
  accepted := []
  delivered := []

/-- `i` is an index of `i_q` and `i_q_len`. -/
def InQueue (i : Int) : Prop := 0 ≤ i ∧ i < maxQLen

instance decidableInQueue (i : Int) : Decidable (InQueue i) :=
  inferInstanceAs (Decidable (0 ≤ i ∧ i < maxQLen))

/-- `geth_napi_interrupt`. -/
def gethNapiInterrupt (s : RxQueue) (c : Call) : Option RxQueue :=
  if InQueue (s.iQPtr + 1) ∧ c.len ≤ maxPktlen then
    some { s with
      iQPtr := s.iQPtr + 1
      iQLen := Function.update s.iQLen (s.iQPtr + 1) c.len
      iQ := Function.update s.iQ (s.iQPtr + 1) (overwrite (s.iQ (s.iQPtr + 1)) 0 c.bytes)
      napi := s.napi.schedule }
  else none

/-- The next statement of `geth_poll`; `alloc` is whether `dev_alloc_skb`
succeeds. -/
def gethPoll (s : RxQueue) (alloc : Bool) : Option RxQueue :=
  match s.pc with
  | .idle => none
  | .len =>
      if InQueue s.iQPtr then some { s with datalen := s.iQLen s.iQPtr, pc := .copy } else none
  | .copy =>
      if InQueue s.iQPtr then some { s with data := (s.iQ s.iQPtr).take s.datalen, pc := .test }
      else none
  | .test =>
      some { s with pc := if s.npackets < s.budget ∧ s.iQPtr + 1 ≠ 0 then .take else .complete }
  | .take => some { s with iQPtr := s.iQPtr - 1, pc := .deliver }
  | .deliver =>
      some { s with
        delivered := if alloc then s.delivered ++ [s.data] else s.delivered
        npackets := s.npackets + 1
        pc := .test }
  | .complete =>
      some { s with napi := if s.npackets < s.budget then s.napi.completeDone
        else s.napi, pc := .idle }

/-- A completed frame is pushed. -/
def accept (s : RxQueue) (c : Call) : Option RxQueue :=
  (gethNapiInterrupt s c).map fun s => { s with accepted := s.accepted ++ [c.bytes] }

inductive RxAct where
  /-- a completed frame -/
  | frame (c : Call)
  /-- `geth_tx_timeout`, which calls `geth_interrupt` with what `i_value` holds -/
  | txTimeout (c : Call)
  /-- NAPI starts a poll -/
  | poll (budget : Nat)
  /-- the running poll goes on -/
  | next (alloc : Bool)

def rxQueue : System RxQueue RxAct where
  init s := s = .start
  step s
    | .frame c => accept s c
    | .txTimeout c => gethNapiInterrupt s c
    | .poll budget =>
        if s.pc = .idle ∧ s.napi.sched = true ∧ 1 ≤ budget then
          some { s with pc := .len, budget := budget, npackets := 0 }
        else none
    | .next alloc => gethPoll s alloc

/-- A frame finds the queue empty and no poll before the end of its loop, no
transmission times out, a poll may take two packets, and the allocation of a
socket buffer succeeds. -/
def Spaced (s : RxQueue) : RxAct → Prop
  | .frame _ => s.iQPtr = -1 ∧ (s.pc = .idle ∨ s.pc = .complete)
  | .txTimeout _ => False
  | .poll budget => 2 ≤ budget
  | .next alloc => s.pc = .deliver → alloc = true

instance decidableSpaced (s : RxQueue) : (a : RxAct) → Decidable (Spaced s a)
  | .frame _ => inferInstanceAs (Decidable (s.iQPtr = -1 ∧ (s.pc = .idle ∨ s.pc = .complete)))
  | .txTimeout _ => .isFalse id
  | .poll budget => inferInstanceAs (Decidable (2 ≤ budget))
  | .next alloc => inferInstanceAs (Decidable (s.pc = .deliver → alloc = true))

/-! ## the invariant -/

/-- The queue is empty and every frame was delivered. -/
structure Clear (s : RxQueue) : Prop where
  ptr : s.iQPtr = -1
  all : s.delivered = s.accepted

/-- The entry of the queue is the one frame not yet delivered. -/
structure Held (s : RxQueue) (f : List UInt8) : Prop where
  ptr : s.iQPtr = 0
  len : s.iQLen 0 = f.length
  bytes : (s.iQ 0).take f.length = f
  rest : s.delivered ++ [f] = s.accepted

/-- What holds at each statement of a poll.  The poll takes exactly one frame,
and the next one comes only when its loop has ended. -/
def Paced (s : RxQueue) : Prop :=
  match s.pc with
  | .idle =>
      s.napi.missed = false ∧ (s.napi.sched = false → Clear s) ∧
        (s.napi.sched = true → ∃ f, Held s f)
  | .len => s.napi = ⟨true, false⟩ ∧ s.npackets = 0 ∧ 2 ≤ s.budget ∧ ∃ f, Held s f
  | .copy =>
      s.napi = ⟨true, false⟩ ∧ s.npackets = 0 ∧ 2 ≤ s.budget ∧ ∃ f, Held s f ∧ s.datalen = f.length
  | .test =>
      s.napi = ⟨true, false⟩ ∧ 2 ≤ s.budget ∧
        ((s.npackets = 0 ∧ s.iQPtr = 0 ∧ s.delivered ++ [s.data] = s.accepted) ∨
          (s.npackets = 1 ∧ Clear s))
  | .take =>
      s.napi = ⟨true, false⟩ ∧ 2 ≤ s.budget ∧ s.npackets = 0 ∧ s.iQPtr = 0 ∧
        s.delivered ++ [s.data] = s.accepted
  | .deliver =>
      s.napi = ⟨true, false⟩ ∧ 2 ≤ s.budget ∧ s.npackets = 0 ∧ s.iQPtr = -1 ∧
        s.delivered ++ [s.data] = s.accepted
  | .complete =>
      s.napi.sched = true ∧ 2 ≤ s.budget ∧ s.npackets = 1 ∧
        (s.napi.missed = false → Clear s) ∧ (s.napi.missed = true → ∃ f, Held s f)

theorem paced_start : Paced .start := ⟨rfl, fun _ => ⟨rfl, rfl⟩, fun h => by cases h⟩

variable {s : RxQueue}

/-- A frame that finds the queue clear is held. -/
theorem held_of_accept {t : RxQueue} (h : Clear s) (ht : accept s c = some t) :
    Held t c.bytes ∧ t.napi = s.napi.schedule ∧ t.pc = s.pc ∧ t.budget = s.budget ∧
      t.npackets = s.npackets := by
  obtain ⟨s', hs', rfl⟩ := Option.map_eq_some_iff.mp ht
  simp only [gethNapiInterrupt, Option.ite_none_right_eq_some, Option.some.injEq] at hs'
  obtain ⟨⟨-, hlen⟩, rfl⟩ := hs'
  have hbytes : c.bytes.length = c.len := by
    rw [Call.bytes, List.length_take, Vector.length_toList]
    exact Nat.min_eq_left hlen
  have hptr : s.iQPtr + 1 = 0 := by rw [h.ptr]; rfl
  refine ⟨⟨hptr, ?_, ?_, by rw [h.all]⟩, rfl, rfl, rfl, rfl⟩
  · simp only [hptr, Function.update_self, hbytes]
  · simp only [hptr, Function.update_self, take_overwrite_zero]

theorem Held.ptr_ne (h : ∃ f, Held s f) : s.iQPtr ≠ -1 := by
  obtain ⟨f, hf⟩ := h
  rw [hf.ptr]
  decide

/-- A frame that comes to an empty queue is the only one in it. -/
theorem Paced.frame {t : RxQueue} (h : Paced s) (hclear : s.iQPtr = -1)
    (hpc : s.pc = .idle ∨ s.pc = .complete) (ht : accept s c = some t) : Paced t := by
  rcases hpc with hpc | hpc
  · simp only [Paced, hpc] at h
    obtain ⟨-, hidle, hsched⟩ := h
    have hoff : s.napi.sched = false :=
      Bool.eq_false_iff.mpr fun hb => Held.ptr_ne (hsched hb) hclear
    obtain ⟨hheld, hnapi, hpc', -, -⟩ := held_of_accept (hidle hoff) ht
    have hon : t.napi = ⟨true, false⟩ := by rw [hnapi, Napi.schedule, hoff]; rfl
    rw [Paced, hpc', hpc, hon]
    exact ⟨rfl, fun hb => (by cases hb), fun _ => ⟨_, hheld⟩⟩
  · simp only [Paced, hpc] at h
    obtain ⟨hsched, hbudget, hn, hlast, hagain⟩ := h
    have hfirst : s.napi.missed = false :=
      Bool.eq_false_iff.mpr fun hb => Held.ptr_ne (hagain hb) hclear
    obtain ⟨hheld, hnapi, hpc', hbudget', hn'⟩ := held_of_accept (hlast hfirst) ht
    have hon : t.napi = ⟨true, true⟩ := by rw [hnapi, Napi.schedule, hsched]; rfl
    rw [Paced, hpc', hpc, hon]
    exact ⟨rfl, hbudget' ▸ hbudget, hn'.trans hn, fun hb => (by cases hb), fun _ => ⟨_, hheld⟩⟩

theorem Paced.poll (h : Paced s) (hpc : s.pc = .idle) (hsched : s.napi.sched = true)
    (hbudget : 2 ≤ budget) : Paced { s with pc := .len, budget := budget, npackets := 0 } := by
  simp only [Paced, hpc] at h
  obtain ⟨f, hheld⟩ := h.2.2 hsched
  refine ⟨?_, rfl, hbudget, f, ⟨hheld.ptr, hheld.len, hheld.bytes, hheld.rest⟩⟩
  rw [← hsched, ← h.1]

/-- One statement of a poll. -/
theorem Paced.next {s' : RxQueue} (h : Paced s) (halloc : s.pc = .deliver → alloc = true)
    (hs : gethPoll s alloc = some s') : Paced s' := by
  cases hpc : s.pc with
  | idle => simp [gethPoll, hpc] at hs
  | len =>
      simp only [gethPoll, hpc, Option.ite_none_right_eq_some, Option.some.injEq] at hs
      obtain ⟨-, rfl⟩ := hs
      simp only [Paced, hpc] at h
      obtain ⟨hnapi, hn, hbudget, f, hheld⟩ := h
      exact ⟨hnapi, hn, hbudget, f, ⟨hheld.ptr, hheld.len, hheld.bytes, hheld.rest⟩,
        by rw [hheld.ptr, hheld.len]⟩
  | copy =>
      simp only [gethPoll, hpc, Option.ite_none_right_eq_some, Option.some.injEq] at hs
      obtain ⟨-, rfl⟩ := hs
      simp only [Paced, hpc] at h
      obtain ⟨hnapi, hn, hbudget, f, hheld, hlen⟩ := h
      refine ⟨hnapi, hbudget, .inl ⟨hn, hheld.ptr, ?_⟩⟩
      simp only [hheld.ptr, hlen, hheld.bytes, hheld.rest]
  | test =>
      simp only [gethPoll, hpc, Option.some.injEq] at hs
      subst hs
      simp only [Paced, hpc] at h
      obtain ⟨hnapi, hbudget, ⟨hn, hptr, hrest⟩ | ⟨hn, hclear⟩⟩ := h
      · have hloop : s.npackets < s.budget ∧ s.iQPtr + 1 ≠ 0 := by omega
        rw [if_pos hloop]
        exact ⟨hnapi, hbudget, hn, hptr, hrest⟩
      · have hend : ¬ (s.npackets < s.budget ∧ s.iQPtr + 1 ≠ 0) := by rw [hclear.ptr]; omega
        rw [if_neg hend]
        refine ⟨by simp [hnapi], hbudget, hn, fun _ => ⟨hclear.ptr, hclear.all⟩, fun hm => ?_⟩
        simp [hnapi] at hm
  | take =>
      simp only [gethPoll, hpc, Option.some.injEq] at hs
      subst hs
      simp only [Paced, hpc] at h
      obtain ⟨hnapi, hbudget, hn, hptr, hrest⟩ := h
      exact ⟨hnapi, hbudget, hn, by simp [hptr], hrest⟩
  | deliver =>
      simp only [gethPoll, hpc, halloc hpc, if_true, Option.some.injEq] at hs
      subst hs
      simp only [Paced, hpc] at h
      obtain ⟨hnapi, hbudget, hn, hptr, hrest⟩ := h
      exact ⟨hnapi, hbudget, .inr ⟨by simp [hn], hptr, hrest⟩⟩
  | complete =>
      simp only [gethPoll, hpc, Option.some.injEq] at hs
      subst hs
      simp only [Paced, hpc] at h
      obtain ⟨hsched, hbudget, hn, hlast, hagain⟩ := h
      have hless : s.npackets < s.budget := by omega
      rw [if_pos hless]
      refine ⟨rfl, fun hm => ?_, fun hm => ?_⟩
      · exact ⟨(hlast hm).ptr, (hlast hm).all⟩
      · obtain ⟨f, hheld⟩ := hagain hm
        exact ⟨f, hheld.ptr, hheld.len, hheld.bytes, hheld.rest⟩

/-- One step, where a frame comes only to an empty queue. -/
theorem paced_step {s' : RxQueue} {a : RxAct} (h : Paced s) (ha : Spaced s a)
    (hs : rxQueue.step s a = some s') : Paced s' := by
  cases a with
  | frame c => exact h.frame ha.1 ha.2 hs
  | txTimeout c => exact absurd ha id
  | poll budget =>
      simp only [rxQueue, Option.ite_none_right_eq_some, Option.some.injEq] at hs
      obtain ⟨⟨hpc, hsched, -⟩, rfl⟩ := hs
      exact h.poll hpc hsched ha
  | next alloc => exact h.next ha hs

/-- Where the index of the queue stands, and what was delivered, at any
statement. -/
theorem Paced.bounds (h : Paced s) : (s.iQPtr = -1 ∨ s.iQPtr = 0) ∧ s.delivered <+: s.accepted := by
  have hheld {f : List UInt8} (hf : Held s f) :
      (s.iQPtr = -1 ∨ s.iQPtr = 0) ∧ s.delivered <+: s.accepted :=
    ⟨.inr hf.ptr, [f], hf.rest⟩
  have hclear (hc : Clear s) : (s.iQPtr = -1 ∨ s.iQPtr = 0) ∧ s.delivered <+: s.accepted :=
    ⟨.inl hc.ptr, [], by rw [List.append_nil, hc.all]⟩
  cases hpc : s.pc with
  | idle =>
      simp only [Paced, hpc] at h
      cases hb : s.napi.sched with
      | false => exact hclear (h.2.1 hb)
      | true => exact hheld (h.2.2 hb).choose_spec
  | len =>
      simp only [Paced, hpc] at h
      exact hheld h.2.2.2.choose_spec
  | copy =>
      simp only [Paced, hpc] at h
      exact hheld h.2.2.2.choose_spec.1
  | test =>
      simp only [Paced, hpc] at h
      rcases h.2.2 with ⟨-, hptr, hrest⟩ | ⟨-, hc⟩
      · exact ⟨.inr hptr, [s.data], hrest⟩
      · exact hclear hc
  | take =>
      simp only [Paced, hpc] at h
      exact ⟨.inr h.2.2.2.1, [s.data], h.2.2.2.2⟩
  | deliver =>
      simp only [Paced, hpc] at h
      exact ⟨.inl h.2.2.2.1, [s.data], h.2.2.2.2⟩
  | complete =>
      simp only [Paced, hpc] at h
      cases hb : s.napi.missed with
      | false => exact hclear (h.2.2.2.1 hb)
      | true => exact hheld (h.2.2.2.2 hb).choose_spec

theorem Paced.inQueue (h : Paced s) (hpc : s.pc = .len ∨ s.pc = .copy) : InQueue s.iQPtr := by
  have hptr : s.iQPtr = 0 := by
    rcases hpc with hpc | hpc <;> simp only [Paced, hpc] at h
    · exact h.2.2.2.choose_spec.ptr
    · exact h.2.2.2.choose_spec.1.ptr
  rw [hptr]
  decide

/-- **Spaced frames are delivered exactly once.**  In every run in which a frame
finds the queue empty and no poll before the end of its loop, transmissions do
not time out, polls may take two packets and get their socket buffers: the index
stays in its range, a poll reads only entries of the queue, what was delivered
is the front of what was accepted, and nothing is left once NAPI has no poll to
make. -/
theorem frames_delivered_once_of_spaced {as : List RxAct} {s : RxQueue}
    (has : rxQueue.Meets Spaced .start as) (hrun : rxQueue.run .start as = some s) :
    (-1 ≤ s.iQPtr ∧ s.iQPtr ≤ (maxQLen : Int) - 1) ∧
      (s.pc = .len ∨ s.pc = .copy → InQueue s.iQPtr) ∧
      s.delivered <+: s.accepted ∧ (s.pc = .idle → s.napi.sched = false →
        s.delivered = s.accepted) := by
  have h := has.invariant (I := Paced) (fun _ _ _ h ha hs => paced_step h ha hs) paced_start hrun
  obtain ⟨hptr, hfront⟩ := h.bounds
  have hmax : (maxQLen : Int) = 1 := rfl
  refine ⟨by omega, h.inQueue, hfront, fun hpc hoff => ?_⟩
  simp only [Paced, hpc] at h
  exact (h.2.1 hoff).all

/-- A frame of one byte. -/
def oneByte (b : UInt8) : Call := ⟨Vector.replicate maxPktlen b, 8⟩

/-- The seven statements of a poll that takes one frame. -/
def wholePoll : List RxAct := List.replicate 7 (.next true)

/-- Two frames, the second of which comes when the poll for the first has left
its loop. -/
def spacedFrames : List RxAct :=
  [RxAct.frame (oneByte 1), .poll 2] ++ List.replicate 6 (RxAct.next true) ++
    [RxAct.frame (oneByte 2), .next true, .poll 2] ++ wholePoll

theorem frames_delivered_once_spacedFrames :
    ∃ s, rxQueue.run .start spacedFrames = some s ∧
      (-1 ≤ s.iQPtr ∧ s.iQPtr ≤ (maxQLen : Int) - 1) ∧
      (s.pc = .len ∨ s.pc = .copy → InQueue s.iQPtr) ∧
      s.delivered <+: s.accepted ∧ (s.pc = .idle → s.napi.sched = false →
        s.delivered = s.accepted) := by
  have has : rxQueue.Meets Spaced .start spacedFrames := by decide +kernel
  have hrun : (rxQueue.run .start spacedFrames).isSome := by decide +kernel
  obtain ⟨s, hs⟩ := Option.isSome_iff_exists.mp hrun
  exact ⟨s, hs, frames_delivered_once_of_spaced has hs⟩

/-- A second frame between the delivery of the first and the test of the loop:
the first is delivered again, the second is lost, and the poll that NAPI still
makes reads `i_q_len[-1]`. -/
theorem frame_delivered_twice :
    (∃ s, rxQueue.run .start ([RxAct.frame (oneByte 1), .poll 2] ++
      List.replicate 5 (RxAct.next true) ++
        [RxAct.frame (oneByte 2)] ++ List.replicate 5 (RxAct.next true) ++ [RxAct.poll 2]) =
          some s ∧
      s.accepted = [[1], [2]] ∧ s.delivered = [[1], [1]] ∧ s.pc = .len ∧ s.iQPtr = -1) ∧
    rxQueue.run .start [.frame (oneByte 1), .frame (oneByte 2)] = none := by
  have hlogs {r : Option RxQueue} {fs gs : List (List UInt8)} {pc : PollPc} {i : Int}
      (h : r.map (fun s => (s.accepted, s.delivered, s.pc, s.iQPtr)) = some (fs, gs, pc, i)) :
      ∃ s, r = some s ∧ s.accepted = fs ∧ s.delivered = gs ∧ s.pc = pc ∧ s.iQPtr = i := by
    obtain ⟨s, hs, heq⟩ := Option.map_eq_some_iff.mp h
    simp only [Prod.mk.injEq] at heq
    exact ⟨s, hs, heq⟩
  constructor
  · exact hlogs (by decide +kernel)
  · rfl

end Linuxyz.Gpio
