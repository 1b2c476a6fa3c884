import Linuxyz.Lib.Buffer
import Mathlib.Logic.Function.Basic

/-!
# Linuxyz.Xfrm.Device

The paired network devices of `kxfrm/cbc/kxfrm.c`: their packet pools, receive
queues, interrupt status and spinlocks, and the part of `kxfrm_hw_tx` after
the protocol dispatch, which hands a frame to the peer device.

A spinlock is a flag; `none` is a thread that spins on a lock that is never
released.  The lists `ppool` and `rx_queue` are the chains their head pointers
start, first element first.  Log output is left out.
-/

namespace Linuxyz.Xfrm

open Buffer

/-- `kxfrm_devs[0]` and `kxfrm_devs[1]`. -/
inductive Dev where
  | kxfrm0
  | kxfrm1
deriving Repr, DecidableEq

/-- The other device of the pair. -/
def Dev.peer : Dev → Dev
  | .kxfrm0 => .kxfrm1
  | .kxfrm1 => .kxfrm0

@[simp] theorem Dev.peer_ne (d : Dev) : d.peer ≠ d := by cases d <;> simp [Dev.peer]

@[simp] theorem Dev.ne_peer (d : Dev) : d ≠ d.peer := (Dev.peer_ne d).symm

/-- `struct kxfrm_packet`: the device whose pool it belongs to, and its data. -/
structure Packet where
  dev : Dev
  datalen : Nat
  data : List UInt8
deriving DecidableEq

/-- The frame a queued packet carries. -/
def Packet.frame (p : Packet) : List UInt8 := p.data.take p.datalen

/-- `struct kxfrm_priv` with the device's transmit queue state.  `skb` is the
identity of the socket buffer it points to. -/
structure Priv where
  ppool : List Packet
  rxQueue : List Packet
  rxIntEnabled : Bool
  rxIntr : Bool
  txIntr : Bool
  txPacketlen : Nat
  skb : Option Nat
  lock : Bool
  txPackets : Nat
  txBytes : Nat
  stopped : Bool
  napiScheduled : Bool

/-- The module: both devices, `spi_vals`, `lockup`, and the socket buffers
freed so far. -/
structure Sys where
  priv : Dev → Priv
  spiVals : Dev → UInt32
  lockup : Nat
  freed : List Nat

def Sys.setPriv (s : Sys) (d : Dev) (p : Priv) : Sys :=
  { s with priv := Function.update s.priv d p }

@[simp] theorem Sys.setPriv_self (s : Sys) (d : Dev) (p : Priv) : (s.setPriv d p).priv d = p := by
  simp [Sys.setPriv]

@[simp] theorem Sys.setPriv_of_ne (s : Sys) (p : Priv) (h : e ≠ d) :
    (s.setPriv d p).priv e = s.priv e := by
  simp [Sys.setPriv, h]

/-! ## locks, pool and queue -/

/-- `spin_lock` on the device's lock. -/
def spinLock (s : Sys) (d : Dev) : Option Sys :=
  if (s.priv d).lock then none else some (s.setPriv d { s.priv d with lock := true })

/-- `spin_unlock` on the device's lock. -/
def spinUnlock (s : Sys) (d : Dev) : Sys := s.setPriv d { s.priv d with lock := false }

/-- `kxfrm_tx_reserve_buffer`.  An empty pool returns with the lock held. -/
def txReserveBuffer (s : Sys) (d : Dev) : Option (Option Packet × Sys) :=
  (spinLock s d).map fun s =>
    match (s.priv d).ppool with
    | [] => (none, s)
    | pkt :: rest =>
        let p := { s.priv d with ppool := rest }
        let p := if rest = [] then { p with stopped := true } else p
        (some pkt, spinUnlock (s.setPriv d p) d)

/-- `kxfrm_rx_prod_buf`: put a packet at the head of the receive queue. -/
def rxProdBuf (s : Sys) (d : Dev) (pkt : Packet) : Option Sys :=
  (spinLock s d).map fun s =>
    spinUnlock (s.setPriv d { s.priv d with rxQueue := pkt :: (s.priv d).rxQueue }) d

/-- `kxfrm_napi_interrupt`, the function `kxfrm_interrupt` points to. -/
def napiInterrupt (s : Sys) (d : Dev) : Option Sys :=
  (spinLock s d).map fun s =>
    let p := s.priv d
    let rx := p.rxIntr
    let tx := p.txIntr
    let p := { p with rxIntr := false, txIntr := false }
    let p := if rx then { p with napiScheduled := true } else p
    let freed := if tx then p.skb.toList else []
    let p := if tx then
        { p with txPackets := p.txPackets + 1, txBytes := p.txBytes + p.txPacketlen, skb := none }
      else p
    spinUnlock { s.setPriv d p with freed := s.freed ++ freed } d

/-! ## handing a frame to the peer -/

/-- The end of `kxfrm_hw_tx`: copy the frame into a pool buffer, queue it on
the peer and raise both interrupts.  The source does not check `len` against
the `ETH_DATA_LEN` bytes of `data`, and neither does the copy here. -/
def forward (s : Sys) (buf : List UInt8) (dev : Dev) : Option Sys :=
  let dest := dev.peer
  (txReserveBuffer s dev).bind fun (txBuffer, s) =>
    match txBuffer with
    | none => some s
    | some pkt =>
        (rxProdBuf s dest { pkt with datalen := buf.length, data := overwrite pkt.data 0 buf }).bind
          fun s =>
        (if (s.priv dest).rxIntEnabled then
            napiInterrupt (s.setPriv dest { s.priv dest with rxIntr := true }) dest
          else some s).bind fun s =>
        let s := s.setPriv dev { s.priv dev with txPacketlen := buf.length, txIntr := true }
        if s.lockup ≠ 0 ∧ ((s.priv dev).txPackets + 1) % s.lockup = 0 then
          some (s.setPriv dev { s.priv dev with stopped := true })
        else napiInterrupt s dev

end Linuxyz.Xfrm
