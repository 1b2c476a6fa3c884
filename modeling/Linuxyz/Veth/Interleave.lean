import Linuxyz.Lib.System
import Linuxyz.Veth.Device

/-!
# Linuxyz.Veth.Interleave

`dummveth_xmit` and `dummveth_poll` on both devices, interleaved.

A step is a lock-protected section or a single access outside a lock; each
`status |= bit` is a load and a store.  Calls of `dummveth_xmit` are serialised
for each device, and so are polls.  The kernel may call `dummveth_xmit` and poll
a device at any time; a poll that starts takes the scheduled flag of its
device, and `dev_alloc_skb` may fail at any packet.

`sent`, `received` and `skbs` record what happened: the frames handed to
`dummveth_xmit` and dequeued by polls, by device, and how many socket buffers
the kernel has handed over, which are numbered in that order.

`Move` lists what a step can do, with its guards; `netStep_cases` is the
inversion.
-/

namespace Linuxyz.Veth

/-! ## the four activities -/

/-- Where a device's `dummveth_xmit` is. -/
inductive XmitPc where
  | idle
  | enter (skb : Nat)
  | get
  | fill (pkt : Addr)
  | enqueue (pkt : Addr)
  | rxTest
  | rxLoad
  | rxStore (v : Status)
  | rxIntr
  | txLen
  | txLoad
  | txStore (v : Status)
  | lockupTest
  | txIntr
deriving DecidableEq

/-- A device's `dummveth_xmit`, with the frame it transmits. -/
structure Xmit where
  pc : XmitPc
  buf : List UInt8
deriving DecidableEq

/-- Where a device's `dummveth_poll` is. -/
inductive PollPc where
  | idle
  | test
  | dequeue
  | receive (pkt : Addr)
  | release (pkt : Addr)
  | stoppedTest (pkt : Addr)
  | nextTest (pkt : Addr)
  | wake (pkt : Addr)
  | complete
deriving DecidableEq

/-- A device's `dummveth_poll`; `dequeued` counts the packets this poll has
taken from the queue. -/
structure Poll where
  pc : PollPc
  budget : Nat
  npackets : Nat
  dequeued : Nat
deriving DecidableEq

structure Net where
  sys : Sys
  xmit : Dev → Xmit
  poll : Dev → Poll
  sent : Dev → List (List UInt8)
  received : Dev → List (List UInt8)
  skbs : Nat

inductive Act where
  | xmit (d : Dev) (data : List UInt8)
  | runXmit (d : Dev)
  | poll (d : Dev) (budget : Nat)
  | runPoll (d : Dev) (alloc : Bool)

namespace Net

variable (n : Net) (d : Dev)

/-- A step of `dummveth_xmit` on `d`. -/
def onXmit (s : Sys) (pc : XmitPc) : Net :=
  { n with sys := s, xmit := Function.update n.xmit d { n.xmit d with pc := pc } }

/-- A step of `dummveth_poll` on `d`. -/
def onPoll (s : Sys) (pc : PollPc) : Net :=
  { n with sys := s, poll := Function.update n.poll d { n.poll d with pc := pc } }

/-- The kernel hands a socket buffer to `dummveth_xmit`. -/
def callXmit (data : List UInt8) : Net :=
  { n with
    xmit := Function.update n.xmit d ⟨.enter n.skbs, padded data⟩
    sent := Function.update n.sent d (n.sent d ++ [padded data])
    skbs := n.skbs + 1 }

/-- The kernel polls a device. -/
def callPoll (budget : Nat) : Net :=
  { n with
    sys := n.sys.setScheduled d false
    poll := Function.update n.poll d ⟨.test, budget, 0, 0⟩ }

/-- A poll has taken a packet from the queue. -/
def takeRx (s : Sys) (a : Addr) (pkt : Packet) : Net :=
  { n with
    sys := s
    poll := Function.update n.poll d { n.poll d with
      pc := .receive a, dequeued := (n.poll d).dequeued + 1 }
    received := Function.update n.received d (n.received d ++ [pkt.frame]) }

/-- A poll has passed on a packet or dropped it. -/
def countRx (a : Addr) (pkt : Packet) (alloc : Bool) : Net :=
  { n with
    sys := n.sys.receive d alloc pkt.datalen
    poll := Function.update n.poll d { n.poll d with
      pc := .release a, npackets := (n.poll d).npackets + 1 } }

end Net

def xmitStep (lockup : Nat) (n : Net) (d : Dev) : Option Net :=
  let s := n.sys
  let buf := (n.xmit d).buf
  match (n.xmit d).pc with
  | .idle => none
  | .enter skb => some (n.onXmit d (s.setSkb d skb) .get)
  | .get =>
      if buf.length < headersLen then some (n.onXmit d s .idle)
      else
        (getTxBuffer s d).map fun
          | (s, none) => n.onXmit d s .idle
          | (s, some a) => n.onXmit d s (.fill a)
  | .fill a => (s.heap a).map fun pkt => n.onXmit d (s.write a (pkt.fill buf)) (.enqueue a)
  | .enqueue a => (enqueueBuf s d.peer a).map fun s => n.onXmit d s .rxTest
  | .rxTest => some (n.onXmit d s (if (s.priv d.peer).rxIntEnabled then .rxLoad else .txLen))
  | .rxLoad => some (n.onXmit d s (.rxStore (s.priv d.peer).status))
  | .rxStore v => some (n.onXmit d (s.setStatus d.peer { v with rx := true }) .rxIntr)
  | .rxIntr => (napiInterrupt s d.peer).map fun s => n.onXmit d s .txLen
  | .txLen => some (n.onXmit d (s.setTxPacketlen d buf.length) .txLoad)
  | .txLoad => some (n.onXmit d s (.txStore (s.priv d).status))
  | .txStore v => some (n.onXmit d (s.setStatus d { v with tx := true }) .lockupTest)
  | .lockupTest =>
      some (if locksUp lockup (s.priv d) then
        n.onXmit d (s.setStopped d true) .idle else n.onXmit d s .txIntr)
  | .txIntr => (napiInterrupt s d).map fun s => n.onXmit d s .idle

def pollStep (n : Net) (d : Dev) (alloc : Bool) : Option Net :=
  let s := n.sys
  match (n.poll d).pc with
  | .idle => none
  | .test =>
      some (n.onPoll d s
        (if (n.poll d).npackets < (n.poll d).budget ∧ (s.priv d).rxQueue ≠ none then
          .dequeue else .complete))
  | .dequeue =>
      (dequeueBuf s d).bind fun
        | (_, none) => none
        | (s, some a) => (s.heap a).map fun pkt => n.takeRx d s a pkt
  | .receive a => (s.heap a).map fun pkt => n.countRx d a pkt alloc
  | .release a => (putBuffer s a).map fun s => n.onPoll d s (.stoppedTest a)
  | .stoppedTest a =>
      (s.heap a).map fun pkt =>
        n.onPoll d s (if (s.priv pkt.dev).stopped then .nextTest a else .test)
  | .nextTest a => (s.heap a).map fun pkt =>
      n.onPoll d s (if pkt.next = none then .wake a else .test)
  | .wake a => (s.heap a).map fun pkt => n.onPoll d (s.setStopped pkt.dev false) .test
  | .complete =>
      if (n.poll d).npackets < (n.poll d).budget then
        if (s.priv d).lock then none else some (n.onPoll d s .idle)
      else some (n.onPoll d (s.setScheduled d true) .idle)

def netStep (lockup : Nat) (n : Net) : Act → Option Net
  | .xmit d data => if (n.xmit d).pc = .idle then some (n.callXmit d data) else none
  | .runXmit d => xmitStep lockup n d
  | .poll d budget => if (n.poll d).pc = .idle then some (n.callPoll d budget) else none
  | .runPoll d alloc => pollStep n d alloc

/-- The devices after `dummveth_setup`, with nothing running. -/
def Net.start (poolSize : Nat) : Net :=
  ⟨setup poolSize, fun _ => ⟨.idle, []⟩, fun _ => ⟨.idle, 0, 0, 0⟩, fun _ => [], fun _ => [], 0⟩

/-- Every interleaving of transmissions and polls. -/
def netSystem (lockup poolSize : Nat) : System Net Act where
  init n := n = .start poolSize
  step := netStep lockup

/-! ## what a step can do -/

inductive Move (lockup : Nat) (n : Net) : Act → Net → Prop where
  | callXmit : (n.xmit d).pc = .idle → Move lockup n (.xmit d data) (n.callXmit d data)
  | enter : (n.xmit d).pc = .enter skb → Move lockup n (.runXmit d)
      (n.onXmit d (n.sys.setSkb d skb) .get)
  | short : (n.xmit d).pc = .get → (n.xmit d).buf.length < headersLen →
      Move lockup n (.runXmit d) (n.onXmit d n.sys .idle)
  | outOfPool : (n.xmit d).pc = .get → headersLen ≤ (n.xmit d).buf.length →
    (n.sys.priv d).lock = false →
      (n.sys.priv d).ppool = none → Move lockup n (.runXmit d) (n.onXmit d (n.sys.keepLock d) .idle)
  | take : (n.xmit d).pc = .get → headersLen ≤ (n.xmit d).buf.length → (n.sys.priv d).lock = false →
      (n.sys.priv d).ppool = some a → n.sys.heap a = some pkt →
      Move lockup n (.runXmit d) (n.onXmit d (n.sys.takePool d pkt.next) (.fill a))
  | fill : (n.xmit d).pc = .fill a → n.sys.heap a = some pkt →
      Move lockup n (.runXmit d) (n.onXmit d (n.sys.write a (pkt.fill (n.xmit d).buf)) (.enqueue a))
  | enqueue : (n.xmit d).pc = .enqueue a → (n.sys.priv d.peer).lock = false →
    n.sys.heap a = some pkt →
      Move lockup n (.runXmit d) (n.onXmit d (n.sys.putRx d.peer a pkt) .rxTest)
  | rxOn : (n.xmit d).pc = .rxTest → (n.sys.priv d.peer).rxIntEnabled = true →
      Move lockup n (.runXmit d) (n.onXmit d n.sys .rxLoad)
  | rxOff : (n.xmit d).pc = .rxTest → (n.sys.priv d.peer).rxIntEnabled = false →
      Move lockup n (.runXmit d) (n.onXmit d n.sys .txLen)
  | rxLoad : (n.xmit d).pc = .rxLoad →
      Move lockup n (.runXmit d) (n.onXmit d n.sys (.rxStore (n.sys.priv d.peer).status))
  | rxStore : (n.xmit d).pc = .rxStore v →
      Move lockup n (.runXmit d) (n.onXmit d (n.sys.setStatus d.peer { v with rx := true }) .rxIntr)
  | rxIntr : (n.xmit d).pc = .rxIntr → napiInterrupt n.sys d.peer = some s →
      Move lockup n (.runXmit d) (n.onXmit d s .txLen)
  | txLen : (n.xmit d).pc = .txLen →
      Move lockup n (.runXmit d) (n.onXmit d (n.sys.setTxPacketlen d (n.xmit d).buf.length) .txLoad)
  | txLoad : (n.xmit d).pc = .txLoad →
      Move lockup n (.runXmit d) (n.onXmit d n.sys (.txStore (n.sys.priv d).status))
  | txStore : (n.xmit d).pc = .txStore v →
      Move lockup n (.runXmit d) (n.onXmit d (n.sys.setStatus d { v with tx := true }) .lockupTest)
  | lockUp : (n.xmit d).pc = .lockupTest → locksUp lockup (n.sys.priv d) = true →
      Move lockup n (.runXmit d) (n.onXmit d (n.sys.setStopped d true) .idle)
  | noLockup : (n.xmit d).pc = .lockupTest → locksUp lockup (n.sys.priv d) = false →
      Move lockup n (.runXmit d) (n.onXmit d n.sys .txIntr)
  | txIntr : (n.xmit d).pc = .txIntr → napiInterrupt n.sys d = some s →
      Move lockup n (.runXmit d) (n.onXmit d s .idle)
  | callPoll : (n.poll d).pc = .idle → Move lockup n (.poll d budget) (n.callPoll d budget)
  | more : (n.poll d).pc = .test → (n.poll d).npackets < (n.poll d).budget →
    (n.sys.priv d).rxQueue ≠ none → Move lockup n (.runPoll d alloc) (n.onPoll d n.sys .dequeue)
  | done : (n.poll d).pc = .test →
      (n.poll d).budget ≤ (n.poll d).npackets ∨ (n.sys.priv d).rxQueue = none →
      Move lockup n (.runPoll d alloc) (n.onPoll d n.sys .complete)
  | dequeue : (n.poll d).pc = .dequeue → (n.sys.priv d).lock = false →
    (n.sys.priv d).rxQueue = some a → n.sys.heap a = some pkt →
      Move lockup n (.runPoll d alloc) (n.takeRx d (n.sys.setRxQueue d pkt.next) a pkt)
  | receive : (n.poll d).pc = .receive a → n.sys.heap a = some pkt →
      Move lockup n (.runPoll d alloc) (n.countRx d a pkt alloc)
  | release : (n.poll d).pc = .release a → n.sys.heap a = some pkt →
    (n.sys.priv pkt.dev).lock = false →
      Move lockup n (.runPoll d alloc) (n.onPoll d (n.sys.putPool pkt.dev a pkt) (.stoppedTest a))
  | started : (n.poll d).pc = .stoppedTest a → n.sys.heap a = some pkt →
    (n.sys.priv pkt.dev).stopped = false → Move lockup n (.runPoll d alloc) (n.onPoll d n.sys .test)
  | stopped : (n.poll d).pc = .stoppedTest a → n.sys.heap a = some pkt →
    (n.sys.priv pkt.dev).stopped = true →
      Move lockup n (.runPoll d alloc) (n.onPoll d n.sys (.nextTest a))
  | others : (n.poll d).pc = .nextTest a → n.sys.heap a = some pkt → pkt.next ≠ none →
      Move lockup n (.runPoll d alloc) (n.onPoll d n.sys .test)
  | alone : (n.poll d).pc = .nextTest a → n.sys.heap a = some pkt → pkt.next = none →
      Move lockup n (.runPoll d alloc) (n.onPoll d n.sys (.wake a))
  | wake : (n.poll d).pc = .wake a → n.sys.heap a = some pkt →
      Move lockup n (.runPoll d alloc) (n.onPoll d (n.sys.setStopped pkt.dev false) .test)
  | complete : (n.poll d).pc = .complete → (n.poll d).npackets < (n.poll d).budget →
      (n.sys.priv d).lock = false → Move lockup n (.runPoll d alloc) (n.onPoll d n.sys .idle)
  | again : (n.poll d).pc = .complete → (n.poll d).budget ≤ (n.poll d).npackets →
      Move lockup n (.runPoll d alloc) (n.onPoll d (n.sys.setScheduled d true) .idle)

variable {lockup : Nat} {n n' : Net} {d : Dev}

/-- Every statement of a transmission is one of the moves. -/
theorem xmitStep_cases (h : xmitStep lockup n d = some n') : Move lockup n (.runXmit d) n' := by
  unfold xmitStep at h
  cases hpc : (n.xmit d).pc with
  | idle => simp [hpc] at h
  | enter skb =>
      simp only [hpc, Option.some.injEq] at h
      exact h ▸ .enter hpc
  | get =>
      simp only [hpc] at h
      split at h
      · cases h
        exact .short hpc ‹_›
      · have hlen := Nat.not_lt.mp ‹_›
        rw [getTxBuffer] at h
        cases hlock : (n.sys.priv d).lock with
        | true => simp [hlock] at h
        | false =>
            cases hpool : (n.sys.priv d).ppool with
            | none =>
                simp only [hlock, hpool, Bool.false_eq_true, if_false, Option.map_some,
                  Option.some.injEq] at h
                exact h ▸ .outOfPool hpc hlen hlock hpool
            | some a =>
                simp only [hlock, hpool, Bool.false_eq_true, if_false, Option.map_map,
                  Option.map_eq_some_iff] at h
                obtain ⟨pkt, hget, rfl⟩ := h
                exact .take hpc hlen hlock hpool hget
  | fill a =>
      simp only [hpc, Option.map_eq_some_iff] at h
      obtain ⟨pkt, hget, rfl⟩ := h
      exact .fill hpc hget
  | enqueue a =>
      simp only [hpc, enqueueBuf] at h
      cases hlock : (n.sys.priv d.peer).lock with
      | true => simp [hlock] at h
      | false =>
          simp only [hlock, Bool.false_eq_true, if_false, Option.map_map,
            Option.map_eq_some_iff] at h
          obtain ⟨pkt, hget, rfl⟩ := h
          exact .enqueue hpc hlock hget
  | rxTest =>
      cases hon : (n.sys.priv d.peer).rxIntEnabled with
      | true =>
          simp only [hpc, hon, if_true, Option.some.injEq] at h
          exact h ▸ .rxOn hpc hon
      | false =>
          simp only [hpc, hon, Bool.false_eq_true, if_false, Option.some.injEq] at h
          exact h ▸ .rxOff hpc hon
  | rxLoad =>
      simp only [hpc, Option.some.injEq] at h
      exact h ▸ .rxLoad hpc
  | rxStore v =>
      simp only [hpc, Option.some.injEq] at h
      exact h ▸ .rxStore hpc
  | rxIntr =>
      simp only [hpc, Option.map_eq_some_iff] at h
      obtain ⟨s, hs, rfl⟩ := h
      exact .rxIntr hpc hs
  | txLen =>
      simp only [hpc, Option.some.injEq] at h
      exact h ▸ .txLen hpc
  | txLoad =>
      simp only [hpc, Option.some.injEq] at h
      exact h ▸ .txLoad hpc
  | txStore v =>
      simp only [hpc, Option.some.injEq] at h
      exact h ▸ .txStore hpc
  | lockupTest =>
      cases hup : locksUp lockup (n.sys.priv d) with
      | true =>
          simp only [hpc, hup, if_true, Option.some.injEq] at h
          exact h ▸ .lockUp hpc hup
      | false =>
          simp only [hpc, hup, Bool.false_eq_true, if_false, Option.some.injEq] at h
          exact h ▸ .noLockup hpc hup
  | txIntr =>
      simp only [hpc, Option.map_eq_some_iff] at h
      obtain ⟨s, hs, rfl⟩ := h
      exact .txIntr hpc hs

/-- Every statement of a poll is one of the moves. -/
theorem pollStep_cases (h : pollStep n d alloc = some n') :
    Move lockup n (.runPoll d alloc) n' := by
  unfold pollStep at h
  cases hpc : (n.poll d).pc with
  | idle => simp [hpc] at h
  | test =>
      simp only [hpc, Option.some.injEq] at h
      split at h
      · rename_i hmore
        exact h ▸ .more hpc hmore.1 hmore.2
      · rename_i hdone
        refine h ▸ .done hpc ?_
        rwa [not_and_or, Nat.not_lt, not_not] at hdone
  | dequeue =>
      simp only [hpc, dequeueBuf] at h
      cases hlock : (n.sys.priv d).lock with
      | true => simp [hlock] at h
      | false =>
          cases hrx : (n.sys.priv d).rxQueue with
          | none => simp [hlock, hrx] at h
          | some a =>
              cases hget : n.sys.heap a with
              | none => simp [hlock, hrx, hget] at h
              | some pkt =>
                  have hget' : (n.sys.setRxQueue d pkt.next).heap a = some pkt := hget
                  simp only [hlock, hrx, hget, hget', Bool.false_eq_true, if_false, Option.map_some,
                    Option.bind_some, Option.some.injEq] at h
                  exact h ▸ .dequeue hpc hlock hrx hget
  | receive a =>
      simp only [hpc, Option.map_eq_some_iff] at h
      obtain ⟨pkt, hget, rfl⟩ := h
      exact .receive hpc hget
  | release a =>
      simp only [hpc, putBuffer, Option.map_eq_some_iff, Option.bind_eq_some_iff] at h
      obtain ⟨s, ⟨pkt, hget, hs⟩, rfl⟩ := h
      cases hlock : (n.sys.priv pkt.dev).lock with
      | true => simp [hlock] at hs
      | false =>
          simp only [hlock, Bool.false_eq_true, if_false, Option.some.injEq] at hs
          exact hs ▸ .release hpc hget hlock
  | stoppedTest a =>
      simp only [hpc, Option.map_eq_some_iff] at h
      obtain ⟨pkt, hget, rfl⟩ := h
      cases hst : (n.sys.priv pkt.dev).stopped with
      | true => exact .stopped hpc hget hst
      | false => exact .started hpc hget hst
  | nextTest a =>
      simp only [hpc, Option.map_eq_some_iff] at h
      obtain ⟨pkt, hget, rfl⟩ := h
      by_cases hnext : pkt.next = none
      · rw [if_pos hnext]
        exact .alone hpc hget hnext
      · rw [if_neg hnext]
        exact .others hpc hget hnext
  | wake a =>
      simp only [hpc, Option.map_eq_some_iff] at h
      obtain ⟨pkt, hget, rfl⟩ := h
      exact .wake hpc hget
  | complete =>
      simp only [hpc] at h
      split at h
      · rename_i hlt
        cases hlock : (n.sys.priv d).lock with
        | true => simp [hlock] at h
        | false =>
            simp only [hlock, Bool.false_eq_true, if_false, Option.some.injEq] at h
            exact h ▸ .complete hpc hlt hlock
      · rename_i hge
        cases h
        exact .again hpc (Nat.not_lt.mp hge)

/-- Every action is one of the moves. -/
theorem netStep_cases {a : Act} (h : netStep lockup n a = some n') : Move lockup n a n' := by
  cases a with
  | xmit d data =>
      rw [netStep] at h
      split at h
      · cases h
        exact .callXmit ‹_›
      · cases h
  | runXmit d => exact xmitStep_cases h
  | poll d budget =>
      rw [netStep] at h
      split at h
      · cases h
        exact .callPoll ‹_›
      · cases h
  | runPoll d alloc => exact pollStep_cases h

end Linuxyz.Veth
