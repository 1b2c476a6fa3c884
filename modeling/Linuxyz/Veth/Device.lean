import Linuxyz.Lib.Buffer
import Linuxyz.Lib.Chain
import Linuxyz.Lib.Ethernet

/-!
# Linuxyz.Veth.Device

The paired network devices of `kdev-net-veth/kernel/core.c` in NAPI mode: the
packet buffers with their intrusive `next` pointers, the private data of the
two devices, and the driver's functions.

Each lock-protected section of the source is a function here, and the functions
that the kernel calls are composed of them.  A spinlock is a flag that stays set
when a function returns without unlocking; `none` is a thread that spins on such
a lock for ever, or one that follows a pointer to no buffer.  `kmalloc` hands
out addresses in increasing order and does not fail.  Log output is left out.
-/

namespace Linuxyz.Veth

open Buffer

abbrev Addr := Nat

/-- `dummveth_devs[0]` and `dummveth_devs[1]`. -/
inductive Dev where
  | dummveth0
  | dummveth1
deriving DecidableEq

/-- The other device of the pair. -/
def Dev.peer : Dev → Dev
  | .dummveth0 => .dummveth1
  | .dummveth1 => .dummveth0

@[simp] theorem Dev.peer_peer (d : Dev) : d.peer.peer = d := by cases d <;> rfl

@[simp] theorem Dev.peer_ne (d : Dev) : d.peer ≠ d := by cases d <;> simp [Dev.peer]

@[simp] theorem Dev.ne_peer (d : Dev) : d ≠ d.peer := (Dev.peer_ne d).symm

theorem Dev.eq_peer_of_ne {d e : Dev} (h : d ≠ e) : d = e.peer := by
  cases d <;> cases e <;> first | rfl | exact absurd rfl h

/-- `struct dummveth_packet`. -/
structure Packet where
  next : Option Addr
  dev : Dev
  datalen : Nat
  data : List UInt8
deriving DecidableEq

/-- The frame a packet carries. -/
def Packet.frame (p : Packet) : List UInt8 := p.data.take p.datalen

/-- The bits `DUMMVETH_RX_INTR` and `DUMMVETH_TX_INTR` of `status`. -/
structure Status where
  rx : Bool
  tx : Bool
deriving DecidableEq

/-- The counters of `struct net_device_stats` that the driver uses. -/
structure Stats where
  rxPackets : Nat
  rxBytes : Nat
  rxDropped : Nat
  txPackets : Nat
  txBytes : Nat
  txErrors : Nat
deriving DecidableEq

/-- `struct dummveth_priv` with the state of the device's transmit queue and of
its NAPI instance: `scheduled` is a poll that is due.  `skb` is the identity of
the socket buffer it points to. -/
structure Priv where
  stats : Stats
  status : Status
  ppool : Option Addr
  rxQueue : Option Addr
  rxIntEnabled : Bool
  txPacketlen : Nat
  skb : Option Nat
  lock : Bool
  stopped : Bool
  scheduled : Bool
deriving DecidableEq

/-- The packet buffers, both devices, and the socket buffers freed so far. -/
structure Sys where
  heap : Addr → Option Packet
  nextAddr : Addr
  priv : Dev → Priv
  freed : List Nat

namespace Sys

variable (s : Sys) (d : Dev)

def setPriv (p : Priv) : Sys := { s with priv := Function.update s.priv d p }

/-- A store to a packet buffer. -/
def write (a : Addr) (pkt : Packet) : Sys := { s with heap := Function.update s.heap a (some pkt) }

def setSkb (skb : Nat) : Sys := s.setPriv d { s.priv d with skb := some skb }

def setStatus (v : Status) : Sys := s.setPriv d { s.priv d with status := v }

def setTxPacketlen (len : Nat) : Sys := s.setPriv d { s.priv d with txPacketlen := len }

/-- `netif_stop_queue`, `netif_wake_queue` and `netif_start_queue`. -/
def setStopped (b : Bool) : Sys := s.setPriv d { s.priv d with stopped := b }

/-- `napi_schedule`, and the start of a poll that was due. -/
def setScheduled (b : Bool) : Sys := s.setPriv d { s.priv d with scheduled := b }

/-- The lock is left locked. -/
def keepLock : Sys := s.setPriv d { s.priv d with lock := true }

end Sys

/-! ## private data that stay -/

/-- The private data agree in what `f` reads. -/
def Same (f : Priv → α) (s s' : Sys) : Prop := ∀ e, f (s'.priv e) = f (s.priv e)

theorem same_refl (f : Priv → α) (s : Sys) : Same f s s := fun _ => rfl

theorem same_setPriv {f : Priv → α} {s : Sys} {d : Dev} {p : Priv} (h : f p = f (s.priv d)) :
    Same f s (s.setPriv d p) := by
  intro e
  by_cases hed : e = d
  · subst hed
    simp [Sys.setPriv, h]
  · simp [Sys.setPriv, hed]

/-! ## pool and queue -/

/-- The head of the pool becomes the packet after it, and the queue is stopped
when there is none. -/
def Sys.takePool (s : Sys) (d : Dev) (next : Option Addr) : Sys :=
  s.setPriv d { s.priv d with ppool := next, stopped := (s.priv d).stopped || next.isNone }

/-- A packet put in front of a pool. -/
def Sys.putPool (s : Sys) (d : Dev) (a : Addr) (pkt : Packet) : Sys :=
  (s.write a { pkt with next := (s.priv d).ppool }).setPriv d { s.priv d with ppool := some a }

/-- A packet put in front of a receive queue. -/
def Sys.putRx (s : Sys) (d : Dev) (a : Addr) (pkt : Packet) : Sys :=
  (s.write a { pkt with next := (s.priv d).rxQueue }).setPriv d { s.priv d with rxQueue := some a }

def Sys.setRxQueue (s : Sys) (d : Dev) (next : Option Addr) : Sys :=
  s.setPriv d { s.priv d with rxQueue := next }

/-- `dummveth_get_tx_buffer`.  When the pool is empty it returns with the lock
locked. -/
def getTxBuffer (s : Sys) (d : Dev) : Option (Sys × Option Addr) :=
  if (s.priv d).lock then none
  else
    match (s.priv d).ppool with
    | none => some (s.keepLock d, none)
    | some a => (s.heap a).map fun pkt => (s.takePool d pkt.next, some a)

/-- The locked part of `dummveth_release_buffer`. -/
def putBuffer (s : Sys) (a : Addr) : Option Sys :=
  (s.heap a).bind fun pkt => if (s.priv pkt.dev).lock then none else some (s.putPool pkt.dev a pkt)

/-- `dummveth_release_buffer`. -/
def releaseBuffer (s : Sys) (a : Addr) : Option Sys :=
  (putBuffer s a).bind fun s =>
    (s.heap a).map fun pkt =>
      if (s.priv pkt.dev).stopped ∧ pkt.next = none then s.setStopped pkt.dev false else s

/-- `dummveth_enqueue_buf`. -/
def enqueueBuf (s : Sys) (d : Dev) (a : Addr) : Option Sys :=
  if (s.priv d).lock then none else (s.heap a).map fun pkt => s.putRx d a pkt

/-- `dummveth_dequeue_buf`. -/
def dequeueBuf (s : Sys) (d : Dev) : Option (Sys × Option Addr) :=
  if (s.priv d).lock then none
  else
    match (s.priv d).rxQueue with
    | none => some (s, none)
    | some a => (s.heap a).map fun pkt => (s.setRxQueue d pkt.next, some a)

/-- A new packet from `kmalloc` put in front of the pool. -/
def Sys.addPacket (s : Sys) (d : Dev) : Sys :=
  { s with
    heap := Function.update s.heap s.nextAddr (some ⟨(s.priv d).ppool, d, 0, []⟩)
    nextAddr := s.nextAddr + 1
    priv := Function.update s.priv d { s.priv d with ppool := some s.nextAddr } }

def Sys.clearPool (s : Sys) (d : Dev) : Sys := s.setPriv d { s.priv d with ppool := none }

/-- `dummveth_setup_pool`. -/
def setupPool (s : Sys) (d : Dev) (poolSize : Nat) : Sys :=
  (List.range poolSize).foldl (fun s _ => s.addPacket d) (s.clearPool d)

/-- `dummveth_teardown_pool`. -/
def teardownPool (s : Sys) (d : Dev) : Option Sys :=
  (freeAll Packet.next (s.nextAddr + 1) s.heap (s.priv d).ppool).map fun (heap, _) =>
    Sys.clearPool { s with heap := heap } d

/-- Private data cleared to zero, with receive interrupts enabled. -/
def Priv.new : Priv :=
  ⟨⟨0, 0, 0, 0, 0, 0⟩, ⟨false, false⟩, none, none, true, 0, none, false, false, false⟩

/-- `dummveth_setup` of both devices. -/
def setup (poolSize : Nat) : Sys :=
  setupPool (setupPool ⟨fun _ => none, 0, fun _ => .new,
    []⟩ .dummveth0 poolSize) .dummveth1 poolSize

/-! ## interrupts -/

/-- The receive part of the interrupt handler. -/
def Priv.receiveIntr (p : Priv) : Priv :=
  { p with status := ⟨false, false⟩, scheduled := p.scheduled || p.status.rx }

/-- The transmit part of the interrupt handler. -/
def Priv.transmitIntr (p : Priv) : Priv :=
  { p with
    stats := { p.stats with
      txPackets := p.stats.txPackets + 1
      txBytes := p.stats.txBytes + p.txPacketlen }
    skb := none }

/-- `dummveth_napi_interrupt`. -/
def napiInterrupt (s : Sys) (d : Dev) : Option Sys :=
  if (s.priv d).lock then none
  else if (s.priv d).status.tx then
    some { s with
      priv := Function.update s.priv d (s.priv d).receiveIntr.transmitIntr
      freed := s.freed ++ (s.priv d).skb.toList }
  else some (s.setPriv d (s.priv d).receiveIntr)

/-! ## transmission -/

/-- The frame copied to a packet buffer.  The source does not compare its length
with the size of the buffer, and neither does the copy here. -/
def Packet.fill (pkt : Packet) (buf : List UInt8) : Packet :=
  { pkt with datalen := buf.length, data := overwrite pkt.data 0 buf }

@[simp] theorem Packet.frame_fill (pkt : Packet) (buf : List UInt8) : (pkt.fill buf).frame = buf :=
  take_overwrite_zero ..

/-- The test that simulates a lost transmit interrupt. -/
def locksUp (lockup : Nat) (p : Priv) : Bool := lockup != 0 && (p.stats.txPackets + 1) % lockup == 0

/-- The receive interrupt that `dummveth_hw_tx` raises on the peer `d`. -/
def raiseRx (s : Sys) (d : Dev) : Option Sys :=
  if (s.priv d).rxIntEnabled then
    napiInterrupt (s.setStatus d { (s.priv d).status with rx := true }) d
  else some s

/-- The transmit interrupt that `dummveth_hw_tx` raises for a frame of `len`
bytes, or the simulated loss of it. -/
def raiseTx (lockup : Nat) (s : Sys) (d : Dev) (len : Nat) : Option Sys :=
  let s := s.setTxPacketlen d len
  let s := s.setStatus d { (s.priv d).status with tx := true }
  if locksUp lockup (s.priv d) then some (s.setStopped d true) else napiInterrupt s d

/-- `dummveth_hw_tx` from the copy of the frame to `tx_buffer` on. -/
def sendBuffer (lockup : Nat) (s : Sys) (buf : List UInt8) (d : Dev) (a : Addr) : Option Sys := do
  let pkt ← s.heap a
  let s ← enqueueBuf (s.write a (pkt.fill buf)) d.peer a
  let s ← raiseRx s d.peer
  raiseTx lockup s d buf.length

/-- `dummveth_hw_tx`. -/
def dummvethHwTx (lockup : Nat) (s : Sys) (buf : List UInt8) (d : Dev) : Option Sys :=
  if buf.length < headersLen then some s
  else
    (getTxBuffer s d).bind fun
      | (s, none) => some s
      | (s, some a) => sendBuffer lockup s buf d a

/-- `dummveth_xmit`. -/
def dummvethXmit (lockup : Nat) (s : Sys) (skb : Nat) (data : List UInt8) (d : Dev) : Option Sys :=
  dummvethHwTx lockup (s.setSkb d skb) (padded data) d

/-! ## polls -/

/-- The counters after a packet of `len` bytes, for which `dev_alloc_skb` gave a
socket buffer or not. -/
def Stats.receive (st : Stats) (alloc : Bool) (len : Nat) : Stats :=
  if alloc then { st with rxPackets := st.rxPackets + 1, rxBytes := st.rxBytes + len }
  else { st with rxDropped := st.rxDropped + 1 }

def Sys.receive (s : Sys) (d : Dev) (alloc : Bool) (len : Nat) : Sys :=
  s.setPriv d { s.priv d with stats := (s.priv d).stats.receive alloc len }

/-- The loop of `dummveth_poll` with what is left of the budget. -/
def pollLoop (alloc : Nat → Bool) (d : Dev) : Nat → Sys → Option (Sys × Nat)
  | 0, s => some (s, 0)
  | left + 1, s =>
      if (s.priv d).rxQueue = none then some (s, left + 1)
      else do
        let (s, pkt) ← dequeueBuf s d
        let a ← pkt
        let pkt ← s.heap a
        let s ← releaseBuffer (s.receive d (alloc left) pkt.datalen) a
        pollLoop alloc d left s

/-- `dummveth_poll`.  A poll that used up its budget stays scheduled. -/
def dummvethPoll (alloc : Nat → Bool) (s : Sys) (budget : Nat) (d : Dev) : Option Sys :=
  (pollLoop alloc d budget s).bind fun (s, left) =>
    if left = 0 then some (s.setScheduled d true)
    else if (s.priv d).lock then none
    else some s

/-! ## life cycle -/

/-- `dummveth_open`, but for the enabling of NAPI. -/
def dummvethOpen (s : Sys) (d : Dev) : Sys := s.setStopped d false

/-- `dummveth_stop`, but for the disabling of NAPI. -/
def dummvethStop (s : Sys) (d : Dev) : Sys := s.setStopped d true

/-- `tx_errors` counts a transmission that timed out. -/
def Sys.countTxError (s : Sys) (d : Dev) : Sys :=
  s.setPriv d { s.priv d with
    stats := { (s.priv d).stats with txErrors := (s.priv d).stats.txErrors + 1 } }

/-- `dummveth_tx_timeout`. -/
def dummvethTxTimeout (poolSize : Nat) (s : Sys) (d : Dev) : Option Sys := do
  let s ← napiInterrupt (s.setStatus d { (s.priv d).status with tx := true }) d
  let s := s.countTxError d
  if (s.priv d).lock then none
  else
    let s ← teardownPool s d
    some ((setupPool s d poolSize).setStopped d false)

end Linuxyz.Veth
