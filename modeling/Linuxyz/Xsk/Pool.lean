import Mathlib.Algebra.Ring.Nat
import Mathlib.Logic.Function.Basic
import Linuxyz.Lib.System

/-!
# Linuxyz.Xsk.Pool

The buffer pool of `dev-net-ebpf-xdp/xsk`: `bpool_init` makes a pool of slabs full
of buffers, `bcache_init` gives a user a cache with two reserved slabs, and
`bcache_cons_check`, `bcache_cons` and `bcache_prod` move buffers, trading whole
slabs with the pool when a cache runs empty or full.

A slab is known by its address, counted in buffer slots of 8 bytes from the start
of `buffers`; a pointer has 64 bits, so addresses are taken modulo `2 ^ 61`.  A
call that trades a slab leaves the lock before it updates its cache, and other
users can come in between; these are two steps.
-/

namespace Linuxyz.Xsk

/-- `struct bpool_params`, without the flags for `mmap`. -/
structure Params where
  nBuffers : UInt32
  bufferSize : UInt32
  nUsersMax : UInt32
  nBuffersPerSlab : UInt32
deriving DecidableEq, Repr

namespace Params

variable (p : Params)

def perSlab : Nat := p.nBuffersPerSlab.toNat

/-- The two sizes that are computed with 32 bits. -/
def nSlabs : Nat := ((p.nBuffers + p.nBuffersPerSlab - 1) / p.nBuffersPerSlab).toNat

def nSlabsReserved : Nat := (p.nUsersMax * 2).toNat

/-- The bytes that the pool needs, `header` being the size of a `struct bpool`. -/
def totalSize (header : Nat) : Nat :=
  header + 8 * p.nSlabs + 8 * p.nSlabsReserved + 8 * (p.nSlabs * p.perSlab) +
    8 * (p.nSlabsReserved * p.perSlab)

/-- The buffers of the pool. -/
def buffers : List Nat := (List.range (p.nSlabs * p.perSlab)).map (· * p.bufferSize.toNat)

end Params

/-- Where the user of a cache is: outside, or in a call that has traded a slab and
has still to put it into the cache. -/
inductive Phase where
  | idle
  | consuming (slabFull n : Nat)
  | producing (slabEmpty buffer : Nat)
deriving DecidableEq, Repr

/-- `struct bcache`; `granted` is how often `bcache_cons` may still be called after
the last check. -/
structure Cache where
  slabCons : Nat
  slabProd : Nat
  nBuffersCons : Nat
  nBuffersProd : Nat
  granted : Nat
  phase : Phase
deriving DecidableEq, Repr

/-- The pool and its users; `mem` is what the buffer slots hold and `out` what has
been consumed and not been returned. -/
structure State where
  slabs : Nat → Nat
  nSlabsAvailable : Nat
  slabsReserved : Nat → Nat
  nSlabsReservedAvailable : Nat
  mem : Nat → Nat
  caches : List Cache
  out : List Nat

/-! ## The calls -/

/-- `bpool_init`, when it gets what it asks the kernel for; a mapping of no bytes is
refused. -/
def bpoolInit (p : Params) : Option State :=
  if p.nSlabs * p.perSlab * p.bufferSize.toNat = 0 then none
  else some
    { slabs := fun i => i * p.perSlab % 2 ^ 61
      nSlabsAvailable := p.nSlabs
      slabsReserved := fun i => (p.nSlabs * p.perSlab + i * p.perSlab) % 2 ^ 61
      nSlabsReservedAvailable := p.nSlabsReserved
      mem := fun i => if i < p.nSlabs * p.perSlab then i * p.bufferSize.toNat else 0
      caches := []
      out := [] }

/-- `bcache_init` -/
def bcacheInit (s : State) : State :=
  let r := s.nSlabsReservedAvailable
  if r = 0 then s
  else
    { s with
      caches := s.caches ++ [⟨s.slabsReserved (r - 1), s.slabsReserved (r - 2), 0, 0, 0, .idle⟩]
      nSlabsReservedAvailable := r - 2 }

/-- `bcache_cons_check`, up to where it leaves the lock. -/
def bcacheConsCheck (s : State) (c : Nat) (bc : Cache) (n : Nat) : State :=
  if bc.nBuffersCons ≠ 0 then
    { s with caches := s.caches.set c { bc with granted := if bc.nBuffersCons < n then
      bc.nBuffersCons else n } }
  else if s.nSlabsAvailable = 0 then { s with caches := s.caches.set c { bc with granted := 0 } }
  else
    let avail := s.nSlabsAvailable - 1
    { s with
      slabs := Function.update s.slabs avail bc.slabCons
      nSlabsAvailable := avail
      caches := s.caches.set c { bc with granted := 0, phase := .consuming (s.slabs avail) n } }

/-- `bcache_cons` -/
def bcacheCons (s : State) (c : Nat) (bc : Cache) : State :=
  { s with
    caches := s.caches.set c { bc with
      nBuffersCons := bc.nBuffersCons - 1, granted := bc.granted - 1 }
    out := s.mem (bc.slabCons + (bc.nBuffersCons - 1)) :: s.out }

/-- `bcache_prod`, up to where it leaves the lock. -/
def bcacheProd (perSlab : Nat) (s : State) (c : Nat) (bc : Cache) (buffer : Nat) : State :=
  if bc.nBuffersProd < perSlab then
    { s with
      mem := Function.update s.mem (bc.slabProd + bc.nBuffersProd) buffer
      caches := s.caches.set c { bc with nBuffersProd := bc.nBuffersProd + 1 }
      out := s.out.erase buffer }
  else
    { s with
      slabs := Function.update s.slabs s.nSlabsAvailable bc.slabProd
      nSlabsAvailable := s.nSlabsAvailable + 1
      caches := s.caches.set c { bc with phase := .producing (s.slabs s.nSlabsAvailable) buffer }
      out := s.out.erase buffer }

/-- The rest of a call that has traded a slab. -/
def finish (perSlab : Nat) (s : State) (c : Nat) (bc : Cache) : State :=
  match bc.phase with
  | .idle => s
  | .consuming slabFull n =>
      { s with
        caches := s.caches.set c
          { bc with slabCons := slabFull, nBuffersCons := perSlab, granted := n, phase := .idle } }
  | .producing slabEmpty buffer =>
      { s with
        mem := Function.update s.mem slabEmpty buffer
        caches := s.caches.set c { bc with
          slabProd := slabEmpty, nBuffersProd := 1, phase := .idle } }

inductive Act where
  | init
  | check (c n : Nat)
  | cons (c : Nat)
  | prod (c buffer : Nat)
  | finish (c : Nat)
deriving DecidableEq, Repr

/-- The users keep to the rules: a check asks for at most one slab, buffers are
consumed only as granted, and only what was consumed is returned. -/
def step (p : Params) (s : State) : Act → Option State
  | .init => some (bcacheInit s)
  | .check c n => do
      let bc ← s.caches[c]?
      if bc.phase = .idle ∧ n ≤ p.perSlab then some (bcacheConsCheck s c bc n) else none
  | .cons c => do
      let bc ← s.caches[c]?
      if bc.phase = .idle ∧ 0 < bc.granted then some (bcacheCons s c bc) else none
  | .prod c buffer => do
      let bc ← s.caches[c]?
      if bc.phase = .idle ∧ buffer ∈ s.out then some (bcacheProd p.perSlab s c bc buffer) else none
  | .finish c => do
      let bc ← s.caches[c]?
      if bc.phase = .idle then none else some (finish p.perSlab s c bc)

def users (p : Params) : System State Act where
  init s := bpoolInit p = some s
  step := step p

/-! ## Who holds what -/

/-- The first `n` slots of a slab. -/
def cells (mem : Nat → Nat) (slab n : Nat) : List Nat := (List.range n).map fun k => mem (slab + k)

namespace Cache

variable (bc : Cache)

/-- The slab to consume from; between the two steps of a trade it is the new one. -/
def consSlab : Nat :=
  match bc.phase with
  | .consuming slabFull _ => slabFull
  | .idle | .producing _ _ => bc.slabCons

def consCount (perSlab : Nat) : Nat :=
  match bc.phase with
  | .consuming _ _ => perSlab
  | .idle | .producing _ _ => bc.nBuffersCons

def prodSlab : Nat :=
  match bc.phase with
  | .producing slabEmpty _ => slabEmpty
  | .idle | .consuming _ _ => bc.slabProd

def prodCount : Nat :=
  match bc.phase with
  | .producing _ _ => 0
  | .idle | .consuming _ _ => bc.nBuffersProd

/-- The buffer on its way into a new slab. -/
def returning : List Nat :=
  match bc.phase with
  | .producing _ buffer => [buffer]
  | .idle | .consuming _ _ => []

def slabs : List Nat := [bc.consSlab, bc.prodSlab]

/-- The buffers in the slabs of the cache, and the one on its way there. -/
def contents (perSlab : Nat) (mem : Nat → Nat) : List Nat :=
  cells mem bc.consSlab (bc.consCount perSlab) ++ cells mem bc.prodSlab bc.prodCount ++ bc.returning

end Cache

namespace State

variable (p : Params) (s : State)

/-- The buffers in the full slabs of the pool. -/
def inPool : List Nat :=
  (List.range s.nSlabsAvailable).flatMap fun i => cells s.mem (s.slabs i) p.perSlab

def inCaches : List Nat := s.caches.flatMap fun bc => bc.contents p.perSlab s.mem

/-- The slabs that hold buffers: the full ones of the pool and those of the caches. -/
def inUse : List Nat := (List.range s.nSlabsAvailable).map s.slabs ++ s.caches.flatMap Cache.slabs

/-- All slabs: those of the pool, those in reserve and those of the caches. -/
def allSlabs : List Nat :=
  (List.range p.nSlabs).map s.slabs ++ (List.range s.nSlabsReservedAvailable).map s.slabsReserved ++
    s.caches.flatMap Cache.slabs

end State

end Linuxyz.Xsk
