import Linuxyz.Lib.Buffer
import Linuxyz.Lib.Ethernet
import Linuxyz.Lib.System
import Mathlib.Logic.Function.Basic

/-!
# Linuxyz.Kxdp.Driver

The XDP driver of `kxdp/native/kxdp.c`: transmissions on one device of the pair,
interleaved with the polls of the other.

A step is a lock-protected section, with the accesses of the same thread before
it that no other thread makes; only transmissions on the peer touch the status
word of the polled device.  The lists `ppool` and `rx_queue` are the chains that
their head pointers start.  A spinlock is a flag that stays set when a function
returns without unlocking.  `none` is a step that never comes: a thread that
spins for ever, or a fault.  Transmissions may start at any time, so the state
of the transmit queue, which nothing here reads, is left out; so are the contents
of the socket buffers, which only the program reads, and log output.

NAPI keeps one instance for each device.  A poll ends with `napi_complete_done`
for NAPI, but its function goes on to release the packet buffer, and may be
overtaken there by the next poll: such buffers wait in `releasing`.
-/

namespace Linuxyz.Kxdp

open Buffer

/-- `kxdp_devs[0]` and `kxdp_devs[1]`. -/
inductive Dev where
  | kxdp0
  | kxdp1
deriving DecidableEq

/-- The other device of the pair. -/
def Dev.peer : Dev → Dev
  | .kxdp0 => .kxdp1
  | .kxdp1 => .kxdp0

@[simp] theorem Dev.peer_ne (d : Dev) : d.peer ≠ d := by cases d <;> simp [Dev.peer]

@[simp] theorem Dev.ne_peer (d : Dev) : d ≠ d.peer := (Dev.peer_ne d).symm

/-- `struct kxdp_packet`. -/
structure Packet where
  dev : Dev
  datalen : Nat
  data : List UInt8
deriving DecidableEq

/-- The frame copied to a packet buffer.  The source does not compare its length
with the size of the buffer, and neither does the copy here. -/
def Packet.fill (pkt : Packet) (buf : List UInt8) : Packet :=
  { pkt with datalen := buf.length, data := overwrite pkt.data 0 buf }

/-! ## NAPI -/

/-- An instance is idle, scheduled, or scheduled with a further poll asked for
meanwhile. -/
inductive Napi where
  | idle
  | scheduled
  | missed
deriving DecidableEq

/-- `napi_schedule`. -/
def Napi.schedule : Napi → Napi
  | .idle => .scheduled
  | .scheduled | .missed => .missed

/-- `napi_complete_done`. -/
def Napi.completeDone : Napi → Napi
  | .idle | .scheduled => .idle
  | .missed => .scheduled

/-- The polls an instance has still to see through. -/
def Napi.polls : Napi → Nat
  | .idle => 0
  | .scheduled => 1
  | .missed => 2

/-! ## private data -/

/-- The bits `KXDP_RX_INTR` and `KXDP_TX_INTR` of `status`. -/
structure Status where
  rx : Bool
  tx : Bool

/-- The counters of `struct net_device_stats` that the driver uses. -/
structure Stats where
  rxPackets : Nat
  rxBytes : Nat
  txPackets : Nat
  txBytes : Nat

/-- `struct kxdp_priv`; `skb` is the identity of the socket buffer it points
to. -/
structure Priv where
  stats : Stats
  status : Status
  ppool : List Packet
  rxQueue : List Packet
  rxIntEnabled : Bool
  txPacketlen : Nat
  skb : Option Nat
  lock : Bool
  napi : Napi

/-- Both devices, and the transmitted socket buffers freed so far. -/
structure Sys where
  priv : Dev → Priv
  freed : List Nat

def Sys.setPriv (s : Sys) (d : Dev) (p : Priv) : Sys :=
  { s with priv := Function.update s.priv d p }

@[simp] theorem Sys.setPriv_self (s : Sys) (d : Dev) (p : Priv) : (s.setPriv d p).priv d = p := by
  simp [Sys.setPriv]

@[simp] theorem Sys.setPriv_of_ne (s : Sys) (p : Priv) (h : e ≠ d) :
    (s.setPriv d p).priv e = s.priv e := by
  simp [Sys.setPriv, h]

/-- `kxdp_tx_reserve_buffer`.  When the pool is empty it returns with the lock
locked. -/
def txReserveBuffer (s : Sys) (d : Dev) : Option (Sys × Option Packet) :=
  if (s.priv d).lock then none
  else
    match (s.priv d).ppool with
    | [] => some (s.setPriv d { s.priv d with lock := true }, none)
    | pkt :: rest => some (s.setPriv d { s.priv d with ppool := rest }, some pkt)

/-- `kxdp_tx_release_buffer`, but for the wake-up of the transmit queue. -/
def txReleaseBuffer (s : Sys) (pkt : Packet) : Option Sys :=
  if (s.priv pkt.dev).lock then none
  else some (s.setPriv pkt.dev { s.priv pkt.dev with ppool := pkt :: (s.priv pkt.dev).ppool })

/-- `kxdp_rx_prod_buf`. -/
def rxProdBuf (s : Sys) (d : Dev) (pkt : Packet) : Option Sys :=
  if (s.priv d).lock then none
  else some (s.setPriv d { s.priv d with rxQueue := pkt :: (s.priv d).rxQueue })

/-- `kxdp_rx_cons_buf`. -/
def rxConsBuf (s : Sys) (d : Dev) : Option (Sys × Option Packet) :=
  if (s.priv d).lock then none
  else
    match (s.priv d).rxQueue with
    | [] => some (s, none)
    | pkt :: rest => some (s.setPriv d { s.priv d with rxQueue := rest }, some pkt)

/-- The receive part of the interrupt handler. -/
def Priv.receiveIntr (p : Priv) : Priv :=
  { p with
    status := ⟨false, false⟩
    napi := if p.status.rx then p.napi.schedule else p.napi }

/-- The transmit part of the interrupt handler. -/
def Priv.transmitIntr (p : Priv) : Priv :=
  { p with
    stats := { p.stats with
      txPackets := p.stats.txPackets + 1
      txBytes := p.stats.txBytes + p.txPacketlen }
    skb := none }

/-- `kxdp_napi_interrupt`. -/
def napiInterrupt (s : Sys) (d : Dev) : Option Sys :=
  if (s.priv d).lock then none
  else if (s.priv d).status.tx then
    some { s.setPriv d (s.priv d).receiveIntr.transmitIntr with
      freed := s.freed ++ (s.priv d).skb.toList }
  else some (s.setPriv d (s.priv d).receiveIntr)

/-- A device after `kxdp_setup`. -/
def Priv.new (d : Dev) (poolSize : Nat) : Priv :=
  ⟨⟨0, 0, 0, 0⟩, ⟨false, false⟩, List.replicate poolSize ⟨d, 0, []⟩, [], true, 0, none,
    false, .idle⟩

/-! ## the activities -/

/-- Where `kxdp_xmit` is. -/
inductive XmitPc where
  | idle
  | enter (skb : Nat)
  | reserve
  | produce (pkt : Packet)
  | rxIntr
  | txIntr
deriving DecidableEq

/-- Where `kxdp_poll` is; `skb` is the socket buffer it has allocated, and
`npackets` what it has counted. -/
inductive PollPc where
  | idle
  | consume
  | run (pkt : Packet) (skb : Nat)
  | complete (pkt : Packet) (npackets : Nat)
deriving DecidableEq

/-- Device `d` is polled, its peer transmits.  `skbs` is how many socket buffers
`kxdp_poll` has allocated, which are numbered in that order, and `delivered`
those it has passed to `netif_receive_skb`. -/
structure Net where
  sys : Sys
  xmit : XmitPc
  buf : List UInt8
  transmissions : Nat
  poll : PollPc
  budget : Nat
  releasing : List Packet
  skbs : Nat
  delivered : List Nat

inductive Act where
  | xmit (data : List UInt8)
  | runXmit
  | poll (budget : Nat)
  /-- The packet is taken from the queue; `alloc` is whether `dev_alloc_skb`
  succeeds. -/
  | consume (alloc : Bool)
  /-- The program, where there is one, returns a verdict. -/
  | run (verdict : Option UInt32)
  | complete
  | release (i : Nat)

def xdpPass : UInt32 := 2

/-- The packet is passed on: there is no program, or it returns `XDP_PASS`. -/
def passes (verdict : Option UInt32) : Bool := verdict.all (· == xdpPass)

/-- The interrupt on the polled device that `kxdp_hw_tx` raises. -/
def raiseRx (s : Sys) (d : Dev) : Option Sys :=
  if (s.priv d).rxIntEnabled then
    napiInterrupt (s.setPriv d { s.priv d with status := { (s.priv d).status with rx := true } }) d
  else some s

/-- The interrupt on the transmitting device that `kxdp_hw_tx` raises for a frame
of `len` bytes, or the simulated loss of it. -/
def raiseTx (lockup : Nat) (s : Sys) (d : Dev) (len : Nat) : Option Sys :=
  let s :=
    s.setPriv d { s.priv d with
      txPacketlen := len, status := { (s.priv d).status with tx := true } }
  if lockup ≠ 0 ∧ ((s.priv d).stats.txPackets + 1) % lockup = 0 then some s else napiInterrupt s d

/-- A step of `kxdp_xmit` on the peer of `d`. -/
def xmitStep (lockup : Nat) (d : Dev) (n : Net) : Option Net :=
  let s := n.sys
  match n.xmit with
  | .idle => none
  | .enter skb =>
      let s := s.setPriv d.peer { s.priv d.peer with skb := some skb }
      some { n with sys := s, xmit := if n.buf.length < headersLen then .idle else .reserve }
  | .reserve =>
      (txReserveBuffer s d.peer).map fun
        | (s, none) => { n with sys := s, xmit := .idle }
        | (s, some pkt) => { n with sys := s, xmit := .produce pkt }
  | .produce pkt => (rxProdBuf s d (pkt.fill n.buf)).map fun s =>
      { n with sys := s, xmit := .rxIntr }
  | .rxIntr => (raiseRx s d).map fun s => { n with sys := s, xmit := .txIntr }
  | .txIntr => (raiseTx lockup s d.peer n.buf.length).map fun s =>
      { n with sys := s, xmit := .idle }

/-- The packet that `kxdp_poll` takes must be there, and so must the socket
buffer for it: neither is checked before it is used. -/
def consumeStep (d : Dev) (n : Net) (alloc : Bool) : Option Net :=
  (rxConsBuf n.sys d).bind fun
    | (_, none) => none
    | (s, some pkt) =>
        if alloc then some { n with sys := s, poll := .run pkt n.skbs, skbs := n.skbs + 1 }
        else none

/-- A packet that passes is delivered and counted; for any other verdict
`kxdp_poll` goes on without its socket buffer. -/
def runStep (d : Dev) (n : Net) (pkt : Packet) (skb : Nat) (verdict : Option UInt32) : Net :=
  if passes verdict then
    let p := n.sys.priv d
    let stats := { p.stats with
      rxPackets := p.stats.rxPackets + 1
      rxBytes := p.stats.rxBytes + pkt.datalen }
    { n with
      sys := n.sys.setPriv d { p with stats := stats }
      delivered := n.delivered ++ [skb]
      poll := .complete pkt 1 }
  else { n with poll := .complete pkt 0 }

/-- A poll that used up its budget is left scheduled. -/
def completeStep (d : Dev) (n : Net) (pkt : Packet) (npackets : Nat) : Option Net :=
  if npackets < n.budget then
    if (n.sys.priv d).lock then none
    else
      some { n with
        sys := n.sys.setPriv d { n.sys.priv d with napi := (n.sys.priv d).napi.completeDone }
        poll := .idle
        releasing := pkt :: n.releasing }
  else some { n with poll := .idle, releasing := pkt :: n.releasing }

def netStep (lockup : Nat) (d : Dev) (n : Net) : Act → Option Net
  | .xmit data =>
      match n.xmit with
      | .idle =>
          some { n with
            xmit := .enter n.transmissions, buf := padded data,
            transmissions := n.transmissions + 1 }
      | _ => none
  | .runXmit => xmitStep lockup d n
  | .poll budget =>
      match n.poll with
      | .idle =>
          if (n.sys.priv d).napi = .idle then none
          else some { n with poll := .consume, budget := budget }
      | _ => none
  | .consume alloc =>
      match n.poll with
      | .consume => consumeStep d n alloc
      | _ => none
  | .run verdict =>
      match n.poll with
      | .run pkt skb => some (runStep d n pkt skb verdict)
      | _ => none
  | .complete =>
      match n.poll with
      | .complete pkt npackets => completeStep d n pkt npackets
      | _ => none
  | .release i =>
      n.releasing[i]?.bind fun pkt =>
        (txReleaseBuffer n.sys pkt).map fun s =>
          { n with sys := s, releasing := n.releasing.eraseIdx i }

/-- The devices after `kxdp_setup`, with nothing running. -/
def Net.start (poolSize : Nat) : Net :=
  ⟨⟨fun d => .new d poolSize, []⟩, .idle, [], 0, .idle, 0, [], 0, []⟩

/-- Transmissions on the peer of `d`, interleaved with polls of `d`. -/
def netSystem (lockup poolSize : Nat) (d : Dev) : System Net Act where
  init n := n = .start poolSize
  step := netStep lockup d

end Linuxyz.Kxdp
