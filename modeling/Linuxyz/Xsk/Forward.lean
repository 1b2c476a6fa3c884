import Linuxyz.Xsk.Conserve
import Linuxyz.Xsk.Rewrite
import Linuxyz.Xsk.Shutdown

/-!
# Linuxyz.Xsk.Forward

The forwarding plane of `dev-net-ebpf-xdp/xsk`: `port_init` fills the fill queue of each
port from its cache, and the threads call `handle_port` for pairs of ports, which takes
packets from the receive queue of the one, replaces their frames in its fill queue, and
sends them through the transmit queue of the other, whose completion queue gives frames
back to the cache.

The kernel is the other party of the four queues: it takes a frame from a fill queue for
a packet that came in, and puts a frame into a completion queue when its packet has gone
out.  It may do so between any two statements of the threads.

An address stands for its frame; the headroom that the kernel leaves in front of a packet
is not modelled.
-/

namespace Linuxyz.Xsk.Forward

open Linuxyz.LittleEndian (Mem storeBytes bytesAt)

/-! ## State -/

/-- `struct xdp_desc` -/
structure Desc where
  addr : Nat
  len : Nat
deriving DecidableEq, Repr

/-- The queues of a `struct port`, the oldest entry first, and the packets that have come
in and gone out. -/
structure Port where
  umemFq : List Nat
  rxq : List Desc
  txq : List Desc
  umemCq : List Nat
  received : List (List UInt8)
  sent : List (List UInt8)
deriving DecidableEq, Repr

/-- Where a thread is in `handle_port`: outside, in a `bcache_cons_check` that has traded a
slab, at the receive queue, at the fill queue, writing its entries, at the next packet,
at the transmit queue, at the completion queue, returning a frame, and in a `bcache_prod`
that has traded a slab. -/
inductive Pc where
  | idle
  | checking
  | peeking
  | reserving
  | filling
  | handling
  | sending
  | reaping
  | recycling
  | trading
deriving DecidableEq, Repr

/-- A thread and the variables of its call of `handle_port`: `hand` is what is left of
`brx`, `filled` the reserved entries of the fill queue that are written, and `comps` the
completions that are still to be returned. -/
structure Thread where
  ports : List Nat
  pc : Pc
  rx : Nat
  tx : Nat
  nPkts : Nat
  hand : List Desc
  filled : List Nat
  comps : List Nat
deriving DecidableEq, Repr

/-- The settings of `main` for one pool, its ports, and the threads that are given them. -/
structure Config where
  params : Params
  /-- The size of a `struct bpool`. -/
  header : Nat
  /-- `MAX_BURST_RX` -/
  maxBurstRx : Nat
  fillSize : Nat
  txSize : Nat
  compSize : Nat
  nPorts : Nat
  threads : List (List Nat)
  perSlab_pos : 0 < params.perSlab
  fits : params.totalSize header < 2 ^ 64
  burst_le : maxBurstRx ≤ params.perSlab
  owned : threads.flatten.Nodup
  ports_lt : ∀ c ∈ threads.flatten, c < nPorts

/-- The pool, the ports, the memory of the frames and the threads. -/
structure Sys where
  pool : State
  ports : List Port
  umem : Mem
  threads : List Thread

variable (cfg : Config)

/-! ## `port_init` -/

/-- `umem_fq_size` -/
def Config.fqSize : Nat := cfg.fillSize / Shutdown.bpoolGrp

/-- `bcache_cons` for cache `c`, with what it returns. -/
def takeBuffer (pool : State) (c : Nat) : Option (Nat × State) := do
  let bc ← pool.caches[c]?
  some (pool.mem (bc.slabCons + (bc.nBuffersCons - 1)), bcacheCons pool c bc)

/-- The loop that writes `n` entries of the fill queue. -/
def takeBuffers (pool : State) (c : Nat) : Nat → Option (List Nat × State)
  | 0 => some ([], pool)
  | n + 1 => do
      let (addrs, pool) ← takeBuffers pool c n
      let (addr, pool) ← takeBuffer pool c
      some (addrs ++ [addr], pool)

/-- `port_init`; no other thread runs yet.  A port that cannot be made ends the program. -/
def portInit (s : State × List Port) : Option (State × List Port) := do
  let (pool, ports) := s
  let c := ports.length
  if pool.nSlabsReservedAvailable = 0 then none
  else
    let pool := bcacheInit pool
    if cfg.params.perSlab < cfg.fqSize then none
    else
      let bc ← pool.caches[c]?
      let pool := bcacheConsCheck pool c bc cfg.fqSize
      let bc ← pool.caches[c]?
      let pool := finish cfg.params.perSlab pool c bc
      let bc ← pool.caches[c]?
      if bc.granted < cfg.fqSize then none
      else
        let (addrs, pool) ← takeBuffers pool c cfg.fqSize
        some (pool, ports ++ [⟨addrs, [], [], [], [], []⟩])

def initPorts : Nat → State × List Port → Option (State × List Port)
  | 0, s => some s
  | n + 1, s => do
      let s ← initPorts n s
      portInit cfg s

/-- A thread before its first call. -/
def Thread.fresh (ports : List Nat) : Thread := ⟨ports, .idle, 0, 0, 0, [], [], []⟩

/-- The state when `main` has created its threads. -/
def start (umem : Mem) : Option Sys := do
  let pool ← bpoolInit cfg.params
  let (pool, ports) ← initPorts cfg cfg.nPorts (pool, [])
  some ⟨pool, ports, umem, cfg.threads.map .fresh⟩

/-! ## `handle_port` -/

/-- The call of `handle_port` for the `j`-th pair of a thread, up to where
`bcache_cons_check` leaves the lock. -/
def call (s : Sys) (i : Nat) (t : Thread) (j : Nat) : Option Sys := do
  let rx ← t.ports[j]?
  let tx ← t.ports[(j + 1) % t.ports.length]?
  let bc ← s.pool.caches[rx]?
  let pool := bcacheConsCheck s.pool rx bc cfg.maxBurstRx
  let bc ← pool.caches[rx]?
  let pc := if bc.phase = .idle then .peeking else .checking
  some { s with pool, threads := s.threads.set i { t with rx, tx, pc, nPkts := bc.granted } }

/-- The rest of `bcache_cons_check`. -/
def endCheck (s : Sys) (i : Nat) (t : Thread) : Option Sys := do
  let bc ← s.pool.caches[t.rx]?
  let pool := finish cfg.params.perSlab s.pool t.rx bc
  let bc ← pool.caches[t.rx]?
  some { s with pool, threads := s.threads.set i { t with pc := .peeking, nPkts := bc.granted } }

/-- `xsk_ring_cons__peek` on the receive queue, and the copy of the descriptors. -/
def peek (s : Sys) (i : Nat) (t : Thread) : Option Sys := do
  let port ← s.ports[t.rx]?
  let n := min t.nPkts port.rxq.length
  if n = 0 then some { s with threads := s.threads.set i { t with pc := .idle } }
  else
    some { s with
      ports := s.ports.set t.rx { port with rxq := port.rxq.drop n }
      threads := s.threads.set i { t with pc := .reserving, hand := port.rxq.take n } }

/-- A turn of the loop that reserves entries of the fill queue. -/
def reserveFq (s : Sys) (i : Nat) (t : Thread) : Option Sys := do
  let port ← s.ports[t.rx]?
  if port.umemFq.length + t.hand.length ≤ cfg.fillSize then
    some { s with threads := s.threads.set i { t with pc := .filling } }
  else some s

/-- A turn of the loop that writes the reserved entries, or `xsk_ring_prod__submit`. -/
def fillFq (s : Sys) (i : Nat) (t : Thread) : Option Sys := do
  if t.filled.length < t.hand.length then
    let (addr, pool) ← takeBuffer s.pool t.rx
    some { s with pool, threads := s.threads.set i { t with filled := t.filled ++ [addr] } }
  else
    let port ← s.ports[t.rx]?
    some { s with
      ports := s.ports.set t.rx { port with umemFq := port.umemFq ++ t.filled }
      threads := s.threads.set i { t with pc := .handling, filled := [] } }

/-- `handle_packet` on the next packet, or the end of `handle_port`. -/
def handle (s : Sys) (i : Nat) (t : Thread) : Option Sys :=
  match t.hand with
  | [] => some { s with threads := s.threads.set i { t with pc := .idle } }
  | d :: _ => do
      let (pkt, _) ← Rewrite.handlePacket (fun k => s.umem (d.addr + k)) d.len
      some { s with
        umem := fun a => if a < d.addr then s.umem a else pkt (a - d.addr)
        threads := s.threads.set i { t with pc := .sending } }

/-- A turn of the loop that reserves an entry of the transmit queue; with the entry, it is
written and submitted. -/
def send (s : Sys) (i : Nat) (t : Thread) : Option Sys :=
  match t.hand with
  | [] => none
  | d :: rest => do
      let port ← s.ports[t.tx]?
      if port.txq.length < cfg.txSize then
        some { s with
          ports := s.ports.set t.tx { port with txq := port.txq ++ [d] }
          threads := s.threads.set i { t with pc := .reaping, hand := rest } }
      else some s

/-- `xsk_ring_cons__peek` on the completion queue. -/
def reap (s : Sys) (i : Nat) (t : Thread) : Option Sys := do
  let port ← s.ports[t.tx]?
  some { s with
    ports := s.ports.set t.tx { port with umemCq := port.umemCq.drop cfg.compSize }
    threads := s.threads.set i { t with pc := .recycling, comps := port.umemCq.take cfg.compSize } }

/-- `bcache_prod` for the next completion, up to where it leaves the lock. -/
def recycle (s : Sys) (i : Nat) (t : Thread) : Option Sys :=
  match t.comps with
  | [] => some { s with threads := s.threads.set i { t with pc := .handling } }
  | addr :: rest => do
      let bc ← s.pool.caches[t.tx]?
      let pool := bcacheProd cfg.params.perSlab s.pool t.tx bc addr
      let bc ← pool.caches[t.tx]?
      let pc := if bc.phase = .idle then .recycling else .trading
      some { s with pool, threads := s.threads.set i { t with pc, comps := rest } }

/-- The rest of `bcache_prod`. -/
def endTrade (s : Sys) (i : Nat) (t : Thread) : Option Sys := do
  let bc ← s.pool.caches[t.tx]?
  let pool := finish cfg.params.perSlab s.pool t.tx bc
  some { s with pool, threads := s.threads.set i { t with pc := .recycling } }

/-- The next step of a thread inside `handle_port`. -/
def threadStep (s : Sys) (i : Nat) (t : Thread) : Option Sys :=
  match t.pc with
  | .idle => none
  | .checking => endCheck cfg s i t
  | .peeking => peek s i t
  | .reserving => reserveFq cfg s i t
  | .filling => fillFq s i t
  | .handling => handle s i t
  | .sending => send cfg s i t
  | .reaping => reap cfg s i t
  | .recycling => recycle cfg s i t
  | .trading => endTrade cfg s i t

/-! ## The kernel -/

/-- A packet comes in at port `c`, into the oldest frame of its fill queue. -/
def deliver (s : Sys) (c : Nat) (pkt : List UInt8) : Option Sys := do
  let port ← s.ports[c]?
  match port.umemFq with
  | [] => none
  | addr :: rest =>
      if cfg.params.bufferSize.toNat < pkt.length then none
      else
        some { s with
          umem := storeBytes s.umem addr pkt
          ports := s.ports.set c
            { port with
              umemFq := rest, rxq := port.rxq ++ [⟨addr, pkt.length⟩],
              received := port.received ++ [pkt] } }

/-- The oldest packet of the transmit queue of port `c` goes out. -/
def transmit (s : Sys) (c : Nat) : Option Sys := do
  let port ← s.ports[c]?
  match port.txq with
  | [] => none
  | d :: rest =>
      some { s with
        ports := s.ports.set c
          { port with
            txq := rest, umemCq := port.umemCq ++ [d.addr],
            sent := port.sent ++ [bytesAt s.umem d.addr d.len] } }

inductive Act where
  | call (i j : Nat)
  | thread (i : Nat)
  | deliver (c : Nat) (pkt : List UInt8)
  | transmit (c : Nat)
deriving DecidableEq, Repr

def step (s : Sys) : Act → Option Sys
  | .call i j => do
      let t ← s.threads[i]?
      if t.pc = .idle then call cfg s i t j else none
  | .thread i => do
      let t ← s.threads[i]?
      threadStep cfg s i t
  | .deliver c pkt => deliver cfg s c pkt
  | .transmit c => transmit s c

def forwarder : System Sys Act where
  init s := ∃ umem, start cfg umem = some s
  step := step cfg

/-! ## Where the frames are -/

def Port.frames (port : Port) : List Nat :=
  port.umemFq ++ port.rxq.map Desc.addr ++ port.txq.map Desc.addr ++ port.umemCq

def Thread.frames (t : Thread) : List Nat := t.hand.map Desc.addr ++ t.filled ++ t.comps

/-- The frames that are out of the pool and its caches. -/
def Sys.inFlight (s : Sys) : List Nat :=
  s.ports.flatMap Port.frames ++ s.threads.flatMap Thread.frames

end Linuxyz.Xsk.Forward
