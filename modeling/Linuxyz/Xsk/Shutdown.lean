import Linuxyz.Lib.Heap
import Mathlib.Data.List.Nodup

/-!
# Linuxyz.Xsk.Shutdown

How `main` of `dev-net-ebpf-xdp/xsk` makes its buffer pools and ports, and how it frees
them at the end.

Ports are assigned to pools in groups of `BPOOL_GRP`: port `i` uses pool
`i / BPOOL_GRP` (`startUp_spec`).  The shutdown loop computes the same index, but it
frees the pool in every turn, so after the first port of a group; the next port of the
group then puts its slabs back into a pool that is gone.

Pools, caches and ports are blocks of three heaps.  An access to a block that was freed,
a second `free` and an access outside `bp` or `ports` are faults (`none`), as is a
start-up that `main` gives up.
-/

namespace Linuxyz.Xsk.Shutdown

open Option (bind_some bind_eq_bind bind_eq_some_iff)

def maxBpool : Nat := 16

def bpoolGrp : Nat := 2

/-- `n_users_max` of `bpool_params_default`. -/
def nUsersMax : Nat := 16

/-- `struct bpool`: the reserved slabs, the last one first. -/
structure Pool where
  slabsReserved : List Nat
deriving DecidableEq

/-- `struct bcache` -/
structure Cache where
  bp : Nat
  slabCons : Nat
  slabProd : Nat
deriving DecidableEq

/-- `struct port` -/
structure Port where
  bc : Nat
deriving DecidableEq

/-- The heaps, and the arrays `bp` and `ports` of `main`. -/
structure State where
  pools : Heap Pool
  caches : Heap Cache
  portBlocks : Heap Port
  bp : List Nat
  ports : List Nat

/-! ## Start-up -/

def bpoolInit (s : State) : State :=
  { s with
    pools := s.pools.malloc ⟨List.range (2 * nUsersMax)⟩
    bp := s.bp ++ [s.pools.next] }

/-- `port_init` with its `bcache_init`; a pool without a reserved slab is refused. -/
def portInit (s : State) (bp : Nat) : Option State := do
  let pool ← s.pools.block bp
  match pool.slabsReserved with
  | slabCons :: slabProd :: rest =>
      let pools ← s.pools.store bp ⟨rest⟩
      some { s with
        pools
        caches := s.caches.malloc ⟨bp, slabCons, slabProd⟩
        portBlocks := s.portBlocks.malloc ⟨s.caches.next⟩
        ports := s.ports ++ [s.portBlocks.next] }
  | _ => none

/-- `bpptr` in turn `i` of either loop. -/
def nextPool (bpptr i : Nat) : Nat := if i ≠ 0 ∧ i % bpoolGrp = 0 then bpptr + 1 else bpptr

def startTurn (s : State × Nat) (i : Nat) : Option (State × Nat) := do
  let bpptr := nextPool s.2 i
  let bp ← s.1.bp[bpptr]?
  let s ← portInit s.1 bp
  some (s, bpptr)

/-- The pools, before the first port. -/
def pools : State :=
  (List.range maxBpool).foldl (fun s _ => bpoolInit s) ⟨.empty, .empty, .empty, [], []⟩

/-- The start-up loop for `nPorts` ports. -/
def startUp (nPorts : Nat) : Option State := do
  let (s, _) ← (List.range nPorts).foldlM startTurn (pools, 0)
  some s

/-! ## Shutdown -/

/-- `bcache_free`: the slabs go back, under the lock of the pool. -/
def bcacheFree (s : State) (bc : Nat) : Option State := do
  let cache ← s.caches.block bc
  let pool ← s.pools.block cache.bp
  let pools ← s.pools.store cache.bp ⟨cache.slabCons :: cache.slabProd :: pool.slabsReserved⟩
  let caches ← s.caches.free bc
  some { s with pools, caches }

def portFree (s : State) (p : Nat) : Option State := do
  let port ← s.portBlocks.block p
  let s ← bcacheFree s port.bc
  let portBlocks ← s.portBlocks.free p
  some { s with portBlocks }

def bpoolFree (s : State) (bp : Nat) : Option State := do
  let pools ← s.pools.free bp
  some { s with pools }

def stopTurn (s : State × Nat) (i : Nat) : Option (State × Nat) := do
  let bpptr := nextPool s.2 i
  let p ← s.1.ports[i]?
  let s ← portFree s.1 p
  let bp ← s.bp[bpptr]?
  let s ← bpoolFree s bp
  some (s, bpptr)

/-- The shutdown loop. -/
def shutDown (s : State) (nPorts : Nat) : Option State := do
  let (s, _) ← (List.range nPorts).foldlM stopTurn (s, 0)
  some s

/-- The pool of a port. -/
def State.poolOf (s : State) (p : Nat) : Option Nat := do
  let port ← s.portBlocks.block p
  let cache ← s.caches.block port.bc
  some cache.bp

/-- The shutdown goes through, so nothing is freed twice and no pool is used when it is
gone, and it leaves no port and no pool of a port. -/
def Clean (s : State) (nPorts : Nat) : Prop :=
  ∃ s', shutDown s nPorts = some s' ∧ ∀ p ∈ s.ports, s'.portBlocks.block p = none ∧
    ∀ bp, s.poolOf p = some bp → s'.pools.block bp = none

/-! ## What the start-up leaves -/

/-- The state before turn `n` of the start-up loop: port `i` belongs to pool
`i / BPOOL_GRP`, and all pools are there. -/
structure Started (n : Nat) (s : State) (bpptr : Nat) : Prop where
  bpptr : bpptr = (n - 1) / bpoolGrp
  live : ∀ bp ∈ s.bp, ∃ pool, s.pools.block bp = some pool
  length : s.ports.length = n
  nodup : s.ports.Nodup
  pool : ∀ i < n, ∃ p bp, s.ports[i]? = some p ∧ s.bp[i / bpoolGrp]? = some bp ∧
    s.poolOf p = some bp

theorem nextPool_eq (n : Nat) : nextPool ((n - 1) / bpoolGrp) n = n / bpoolGrp := by
  rw [nextPool, bpoolGrp]
  split <;> omega

/-- All pools are live before the first port. -/
theorem pools_live : ∀ bp ∈ pools.bp, ∃ pool, pools.pools.block bp = some pool := by
  have hlive (n : Nat) :
      ∀ bp ∈ ((List.range n).foldl (fun s _ => bpoolInit s) ⟨.empty, .empty, .empty, [], []⟩).bp,
        ∃ pool, ((List.range n).foldl (fun s _ => bpoolInit s) ⟨.empty, .empty, .empty, [],
          []⟩).pools.block bp =
        some pool := by
    induction n with
    | zero => exact fun bp hbp => absurd hbp List.not_mem_nil
    | succ n ih =>
        rw [List.range_succ, List.foldl_append]
        intro bp hbp
        rcases List.mem_append.mp hbp with hold | hnew
        · obtain ⟨pool, hpool⟩ := ih bp hold
          exact ⟨pool, Heap.block_malloc_of_live hpool _⟩
        · rw [List.mem_singleton.mp hnew]
          exact ⟨_, Heap.block_malloc_self _ _⟩
  exact hlive maxBpool

variable {s s' : State} {n bp p bpptr : Nat}

theorem poolOf_eq_some_iff : s.poolOf p = some bp ↔
    ∃ port cache, s.portBlocks.block p = some port ∧ s.caches.block port.bc = some cache ∧
      cache.bp = bp := by
  simp [State.poolOf, bind_eq_some_iff]

/-- One more port is opened on a pool, and the others stay as they are. -/
theorem portInit_spec (h : portInit s bp = some s') :
    s'.bp = s.bp ∧ s'.ports = s.ports ++ [s.portBlocks.next] ∧
      s'.poolOf s.portBlocks.next = some bp ∧
      (∀ b, (∃ pool, s.pools.block b = some pool) → ∃ pool, s'.pools.block b = some pool) ∧
      ∀ q b, s.poolOf q = some b → s'.poolOf q = some b ∧ q ≠ s.portBlocks.next := by
  simp only [portInit, bind_eq_bind, bind_eq_some_iff] at h
  obtain ⟨pool, hpool, h⟩ := h
  match hslabs : pool.slabsReserved with
  | [] => rw [hslabs] at h; cases h
  | [_] => rw [hslabs] at h; cases h
  | slabCons :: slabProd :: rest =>
      simp only [hslabs, bind_eq_some_iff] at h
      obtain ⟨pools', hstore, heq⟩ := h
      cases heq
      refine ⟨rfl, rfl, ?_, fun b hb => ?_, fun q b hq => ?_⟩
      · exact poolOf_eq_some_iff.mpr ⟨_, _, Heap.block_malloc_self _ _,
          Heap.block_malloc_self _ _, rfl⟩
      · obtain ⟨pools₁, hstore₁, hblock⟩ := Heap.store_of_live hpool ⟨rest⟩
        obtain rfl : pools₁ = pools' := Option.some.inj (hstore₁.symm.trans hstore)
        by_cases hbp : b = bp
        · exact ⟨_, hbp ▸ hblock⟩
        · obtain ⟨pool', hpool'⟩ := hb
          exact ⟨pool', (Heap.block_of_store hstore hbp).trans hpool'⟩
      · obtain ⟨port, cache, hport, hcache, hbp⟩ := poolOf_eq_some_iff.mp hq
        exact ⟨poolOf_eq_some_iff.mpr ⟨port, cache, Heap.block_malloc_of_live hport _,
          Heap.block_malloc_of_live hcache _, hbp⟩, Heap.ne_next_of_live hport⟩

theorem started_zero : Started 0 pools 0 where
  bpptr := rfl
  live := pools_live
  length := by decide
  nodup := by decide
  pool _ hi := absurd hi (Nat.not_lt_zero _)

/-- One turn of the loop that opens the ports. -/
theorem Started.turn (h : Started n s bpptr) (hturn : startTurn (s, bpptr) n = some (s', bpptr')) :
    Started (n + 1) s' bpptr' := by
  simp only [startTurn, bind_eq_bind, bind_eq_some_iff] at hturn
  obtain ⟨bp, hbp, s₁, hinit, heq⟩ := hturn
  cases heq
  rw [h.bpptr, nextPool_eq] at hbp
  obtain ⟨hbps, hports, hnew, hlive, hold⟩ := portInit_spec hinit
  constructor
  case bpptr => rw [h.bpptr, nextPool_eq, Nat.add_sub_cancel]
  case live =>
    rw [hbps]
    exact fun b hb => hlive b (h.live b hb)
  case length => rw [hports, List.length_append, List.length_singleton, h.length]
  case nodup =>
    have hfresh : s.portBlocks.next ∉ s.ports := by
      intro hmem
      obtain ⟨i, hi⟩ := List.getElem?_of_mem hmem
      obtain ⟨q, b, hq, -, hpool⟩ := h.pool i (h.length ▸ (List.getElem?_eq_some_iff.mp hi).1)
      rw [hi] at hq
      exact (hold q b hpool).2 (Option.some.inj hq).symm
    rw [hports]
    exact h.nodup.append (List.nodup_singleton _) (by simpa using hfresh)
  case pool =>
    intro i hi
    rw [hports, hbps]
    by_cases hlast : i = n
    · refine ⟨_, bp, ?_, hlast ▸ hbp, hnew⟩
      rw [hlast, ← h.length, List.getElem?_concat_length]
    · obtain ⟨q, b, hq, hb, hpool⟩ := h.pool i (by omega)
      exact ⟨q, b, List.getElem?_append_left (List.getElem?_eq_some_iff.mp hq).1 ▸ hq, hb,
        (hold q b hpool).1⟩

/-- Each port is assigned to the pool of its group. -/
theorem startUp_spec (h : startUp n = some s) : ∃ bpptr, Started n s bpptr := by
  simp only [startUp, bind_eq_bind, bind_eq_some_iff] at h
  obtain ⟨⟨s₁, bpptr⟩, hfold, heq⟩ := h
  cases heq
  refine ⟨bpptr, ?_⟩
  induction n generalizing s₁ bpptr with
  | zero =>
      cases hfold
      exact started_zero
  | succ n ih =>
      simp only [List.range_succ, List.foldlM_append, bind_eq_bind, bind_eq_some_iff,
        List.foldlM_cons, List.foldlM_nil, Option.pure_def, Option.some.injEq] at hfold
      obtain ⟨⟨s₀, bpptr₀⟩, hfold, r, hturn, rfl⟩ := hfold
      exact (ih s₀ bpptr₀ hfold).turn hturn

/-! ## The shutdown loop -/

/-- A port whose pool is there is freed with its cache; the pool stays. -/
theorem portFree_of_live (hp : s.poolOf p = some bp) (hbp : s.pools.block bp = some pool) :
    ∃ s', portFree s p = some s' ∧ s'.portBlocks.block p = none ∧ s'.bp = s.bp ∧
      s'.ports = s.ports ∧ ∃ pool', s'.pools.block bp = some pool' := by
  obtain ⟨port, cache, hport, hcache, rfl⟩ := poolOf_eq_some_iff.mp hp
  obtain ⟨pools', hstore, hblock⟩ :=
    Heap.store_of_live hbp ⟨cache.slabCons :: cache.slabProd :: pool.slabsReserved⟩
  obtain ⟨caches', hcaches, -, -⟩ := Heap.free_of_live hcache
  obtain ⟨blocks', hblocks, -, -⟩ := Heap.free_of_live hport
  refine ⟨⟨pools', caches', blocks', s.bp, s.ports⟩, ?_, Heap.block_of_free hblocks, rfl,
    rfl, _, hblock⟩
  simp only [portFree, bcacheFree, hport, hcache, hbp, hstore, hcaches, hblocks,
    bind_eq_bind, bind_some]

/-- Freeing a port takes a live pool, and leaves the ports that stay where they are. -/
theorem portFree_spec (h : portFree s p = some s') :
    (∃ bp pool, s.poolOf p = some bp ∧ s.pools.block bp = some pool) ∧ s'.bp = s.bp ∧
      s'.ports = s.ports ∧ ∀ q b, s'.poolOf q = some b → s.poolOf q = some b := by
  simp only [portFree, bcacheFree, bind_eq_bind, bind_eq_some_iff] at h
  obtain ⟨port, hport, s₁, hcacheFree, blocks', hblocks, heq⟩ := h
  obtain ⟨cache, hcache, pool, hpool, pools', hstore, caches', hcaches, heq₁⟩ := hcacheFree
  cases heq₁
  cases heq
  refine ⟨⟨_, _, poolOf_eq_some_iff.mpr ⟨_, _, hport, hcache, rfl⟩, hpool⟩, rfl,
    rfl, fun q b hq => ?_⟩
  obtain ⟨port', cache', hport', hcache', hbp⟩ := poolOf_eq_some_iff.mp hq
  exact poolOf_eq_some_iff.mpr ⟨port', cache', Heap.live_of_free hblocks hport',
    Heap.live_of_free hcaches hcache', hbp⟩

/-- The first turn frees the first port and its pool. -/
theorem Started.stopTurn_zero (h : Started (n + 1) s bpptr) :
    ∃ s' p bp, stopTurn (s, 0) 0 = some (s', 0) ∧ s.ports[0]? = some p ∧ s.bp[0]? = some bp ∧
      s.poolOf p = some bp ∧
      s'.portBlocks.block p = none ∧ s'.pools.block bp = none ∧ s'.ports = s.ports ∧
      ∀ q b, s'.poolOf q = some b → s.poolOf q = some b := by
  obtain ⟨p, bp, hp, hbp, hpool⟩ := h.pool 0 (Nat.succ_pos n)
  obtain ⟨pool, hlive⟩ := h.live bp (List.mem_of_getElem? hbp)
  obtain ⟨s₁, hfree, hgone, hbps, hports, pool', hlive'⟩ := portFree_of_live hpool hlive
  obtain ⟨pools', hpools, -, -⟩ := Heap.free_of_live hlive'
  have hbp₁ : s₁.bp[0]? = some bp := by rw [hbps]; exact hbp
  refine ⟨{ s₁ with pools := pools' }, p, bp, ?_, hp, hbp, hpool, hgone,
    Heap.block_of_free hpools, hports, ?_⟩
  · simp only [stopTurn, nextPool, hp, hfree, hbp₁, bpoolFree, hpools, bind_eq_bind,
      bind_some, ne_eq, not_true_eq_false, false_and, if_false]
  · exact (portFree_spec hfree).2.2.2

/-- In the second turn the pool of the port is gone. -/
theorem Started.shutDown_none (h : Started (n + 2) s bpptr) : shutDown s (n + 2) = none := by
  obtain ⟨s₁, p, bp, hturn, -, hbp, -, -, hgone, hports, hpools⟩ := h.stopTurn_zero
  obtain ⟨q, b, hq, hb, hpool⟩ := h.pool 1 (by omega)
  have hb : b = bp := Option.some.inj (hb.symm.trans hbp)
  have hdead : portFree s₁ q = none := by
    rw [Option.eq_none_iff_forall_ne_some]
    intro s₂ hfree
    obtain ⟨⟨b', pool, hb', hlive⟩, -⟩ := portFree_spec hfree
    have : b' = bp := (Option.some.inj ((hpools q b' hb').symm.trans hpool)).trans hb
    rw [this, hgone] at hlive
    cases hlive
  have hturn' : stopTurn (s₁, 0) 1 = none := by
    simp only [stopTurn, hports, hq, hdead, bind_eq_bind, bind_some, Option.bind_none]
  rw [shutDown, List.range_succ_eq_map, List.range_succ_eq_map]
  simp only [List.map_cons, List.foldlM_cons, hturn, hturn', bind_eq_bind, bind_some,
    Option.bind_none]

theorem Started.clean_zero (h : Started 0 s bpptr) : Clean s 0 := by
  have hports := List.eq_nil_of_length_eq_zero h.length
  have hnone : shutDown s 0 = some s := by
    simp only [shutDown, List.range_zero, List.foldlM_nil, bind_eq_bind, Option.pure_def,
      bind_some]
  refine ⟨s, hnone, fun p hp => ?_⟩
  rw [hports] at hp
  cases hp

/-- With one port the shutdown frees everything. -/
theorem Started.clean_one (h : Started 1 s bpptr) : Clean s 1 := by
  obtain ⟨s', p, bp, hturn, hp, -, hpool, hport, hgone, -, -⟩ := h.stopTurn_zero
  obtain ⟨p', hports⟩ := List.length_eq_one_iff.mp h.length
  have hone : shutDown s 1 = some s' := by
    simp only [shutDown, List.range_one, List.foldlM_cons, List.foldlM_nil, hturn,
      bind_eq_bind, bind_some, Option.pure_def]
  refine ⟨s', hone, fun q hq => ?_⟩
  rw [hports] at hp hq
  obtain rfl : p' = p := Option.some.inj hp
  rw [List.mem_singleton.mp hq]
  refine ⟨hport, fun b hb => ?_⟩
  rw [hpool] at hb
  exact Option.some.inj hb ▸ hgone

/-- **Shutdown order**: the shutdown loop frees what the start-up loop has made in order
if and only if there is at most one port. -/
theorem shutDown_clean_iff {nPorts : Nat} {s : State} (h : startUp nPorts = some s) :
    Clean s nPorts ↔ nPorts ≤ 1 := by
  obtain ⟨bpptr, hstarted⟩ := startUp_spec h
  clear h
  match nPorts with
  | 0 => exact iff_of_true hstarted.clean_zero (Nat.zero_le 1)
  | 1 => exact iff_of_true hstarted.clean_one (Nat.le_refl 1)
  | n + 2 =>
      refine iff_of_false ?_ (fun hle => Nat.not_succ_le_zero n (Nat.le_of_succ_le_succ hle))
      rintro ⟨s', hs', -⟩
      rw [hstarted.shutDown_none] at hs'
      cases hs'

theorem shutDown_clean_one : ∃ s, startUp 1 = some s ∧ Clean s 1 := by
  have hstart : (startUp 1).isSome := by decide
  obtain ⟨s, hs⟩ := Option.isSome_iff_exists.mp hstart
  exact ⟨s, hs, (shutDown_clean_iff hs).mpr (Nat.le_refl 1)⟩

/-- The eight ports that `setup` makes: the second one is freed when its pool is gone. -/
theorem shutDown_pool_gone : ∃ s, startUp 8 = some s ∧ shutDown s 8 = none := by
  have hstart : (startUp 8).isSome := by decide
  obtain ⟨s, hs⟩ := Option.isSome_iff_exists.mp hstart
  obtain ⟨bpptr, hstarted⟩ := startUp_spec hs
  exact ⟨s, hs, hstarted.shutDown_none⟩

end Linuxyz.Xsk.Shutdown
