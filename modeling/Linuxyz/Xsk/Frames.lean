import Linuxyz.Xsk.Forward

/-!
# Linuxyz.Xsk.Frames

Conservation of frames in the forwarding plane: the threads are users of the pool that
keep to its rules, and what is out of the pool is exactly what stands in the queues and
in the hands of the threads (`forward_conserves`).

A thread touches the caches of its own ports only, and no other thread has them
(`Inv.owned`), so what a thread knows about its caches is not disturbed by the others
(`Thread.Ok.frame`).  Each step moves frames from one holder to another
(`Inv.move`, `Inv.kernel`).  That the buffers of the pool are conserved is then the result
about its users.
-/

namespace Linuxyz.Xsk.Forward

open Linuxyz.LittleEndian (Mem)
open Option (bind_eq_bind bind_eq_some_iff)
open List (count_append count_cons count_nil getElem?_eq_some_iff getElem?_set_self map_nil
  mem_of_getElem? perm_iff_count)

/-! ## What the calls do to the caches -/

section Pool

variable {p : Params} {s : State} {c : Nat} {bc : Cache}

theorem nodup_of_reachable (h : (users p).Reachable s) : p.buffers.Nodup :=
  h.invariant (P := fun _ => p.buffers.Nodup) (fun _ hs => nodup_buffers hs)
    fun _ _ _ hnodup _ => hnodup

theorem reachable_check (h : (users p).Reachable s) (hc : s.caches[c]? = some bc)
    (hidle : bc.phase = .idle) {n : Nat} (hn : n ≤ p.perSlab) :
    (users p).Reachable (bcacheConsCheck s c bc n) :=
  h.step (a := .check c n) (by simp [users, Xsk.step, hc, hidle, hn])

theorem reachable_cons (h : (users p).Reachable s) (hc : s.caches[c]? = some bc)
    (hidle : bc.phase = .idle) (hgranted : 0 < bc.granted) :
    (users p).Reachable (bcacheCons s c bc) :=
  h.step (a := .cons c) (by simp [users, Xsk.step, hc, hidle, hgranted])

theorem reachable_prod (h : (users p).Reachable s) (hc : s.caches[c]? = some bc)
    (hidle : bc.phase = .idle) {addr : Nat} (hout : addr ∈ s.out) :
    (users p).Reachable (bcacheProd p.perSlab s c bc addr) :=
  h.step (a := .prod c addr) (by simp [users, Xsk.step, hc, hidle, hout])

theorem reachable_finish (h : (users p).Reachable s) (hc : s.caches[c]? = some bc) :
    (users p).Reachable (finish p.perSlab s c bc) := by
  by_cases hidle : bc.phase = .idle
  · rw [finish, hidle]
    exact h
  · exact h.step (a := .finish c) (by simp [users, Xsk.step, hc, hidle])

/-- A call on cache `c` replaces it and leaves the others alone. -/
def Leaves (c : Nat) (s s' : State) : Prop := ∃ bc', s'.caches = s.caches.set c bc'

theorem Leaves.getElem? {s s' : State} (h : Leaves c s s') {c' : Nat} (hne : c' ≠ c) :
    s'.caches[c']? = s.caches[c']? := by
  obtain ⟨bc', hcaches⟩ := h
  rw [hcaches, List.getElem?_set_ne hne.symm]

theorem Leaves.length {s s' : State} (h : Leaves c s s') : s'.caches.length = s.caches.length := by
  obtain ⟨bc', hcaches⟩ := h
  rw [hcaches, List.length_set]

theorem set_concat {l : List Cache} {n : Nat} (hn : l.length = n) (bc bc' : Cache) :
    (l ++ [bc]).set n bc' = l ++ [bc'] := by
  rw [← hn, List.set_append_right _ _ (Nat.le_refl _), Nat.sub_self, List.set_cons_zero]

/-- A call on the last cache. -/
theorem Leaves.concat {s s' : State} {l : List Cache} (h : Leaves c s s') (hc : l.length = c)
    (hs : s.caches = l ++ [bc]) : ∃ bc', s'.caches = l ++ [bc'] := by
  obtain ⟨bc', hcaches⟩ := h
  exact ⟨bc', by rw [hcaches, hs, set_concat hc]⟩

theorem leaves_bcacheConsCheck (s : State) (c : Nat) (bc : Cache) (n : Nat) :
    Leaves c s (bcacheConsCheck s c bc n) := by
  unfold bcacheConsCheck
  split
  · exact ⟨_, rfl⟩
  · split
    · exact ⟨_, rfl⟩
    · exact ⟨_, rfl⟩

theorem leaves_bcacheCons (s : State) (c : Nat) (bc : Cache) : Leaves c s (bcacheCons s c bc) :=
  ⟨_, rfl⟩

theorem leaves_bcacheProd (perSlab : Nat) (s : State) (c : Nat) (bc : Cache) (addr : Nat) :
    Leaves c s (bcacheProd perSlab s c bc addr) := by
  unfold bcacheProd
  split
  · exact ⟨_, rfl⟩
  · exact ⟨_, rfl⟩

theorem leaves_finish (perSlab : Nat) (hc : s.caches[c]? = some bc) :
    Leaves c s (finish perSlab s c bc) := by
  unfold finish
  split
  · obtain ⟨hlt, rfl⟩ := List.getElem?_eq_some_iff.mp hc
    exact ⟨_, (List.set_getElem_self hlt).symm⟩
  · exact ⟨_, rfl⟩
  · exact ⟨_, rfl⟩

@[simp] theorem out_bcacheConsCheck (s : State) (c : Nat) (bc : Cache) (n : Nat) :
    (bcacheConsCheck s c bc n).out = s.out := by
  unfold bcacheConsCheck
  split
  · rfl
  · split <;> rfl

@[simp] theorem out_finish (perSlab : Nat) (s : State) (c : Nat) (bc : Cache) :
    (finish perSlab s c bc).out = s.out := by
  unfold finish
  split <;> rfl

@[simp] theorem out_bcacheProd (perSlab : Nat) (s : State) (c : Nat) (bc : Cache) (addr : Nat) :
    (bcacheProd perSlab s c bc addr).out = s.out.erase addr := by
  unfold bcacheProd
  split <;> rfl

/-- A trade that is over leaves the cache idle. -/
theorem caches_finish (perSlab : Nat) (hc : s.caches[c]? = some bc) :
    ∃ bc', (finish perSlab s c bc).caches[c]? = some bc' ∧ bc'.phase = .idle := by
  obtain ⟨hlt, -⟩ := List.getElem?_eq_some_iff.mp hc
  unfold finish
  split
  · next hidle => exact ⟨bc, hc, hidle⟩
  · exact ⟨_, getElem?_set_self hlt, rfl⟩
  · exact ⟨_, getElem?_set_self hlt, rfl⟩

end Pool

/-! ## The invariant -/

/-- The cache that a thread has left in the middle of a trade. -/
def Thread.trades (t : Thread) : Option Nat :=
  match t.pc with
  | .checking => some t.rx
  | .trading => some t.tx
  | .idle | .peeking | .reserving | .filling | .handling | .sending | .reaping | .recycling => none

/-- What a thread knows at each statement: which of its lists are empty, and that the
cache has granted what is still to be taken. -/
def Thread.Knows (caches : List Cache) (t : Thread) : Prop :=
  match t.pc with
  | .idle | .checking => t.hand = [] ∧ t.filled = [] ∧ t.comps = []
  | .peeking =>
      t.hand = [] ∧ t.filled = [] ∧ t.comps = [] ∧ ∃ bc, caches[t.rx]? = some bc ∧
        t.nPkts ≤ bc.granted
  | .reserving | .filling =>
      t.comps = [] ∧ t.filled.length ≤ t.hand.length ∧
        ∃ bc, caches[t.rx]? = some bc ∧ t.hand.length ≤ t.filled.length + bc.granted
  | .handling | .reaping => t.filled = [] ∧ t.comps = []
  | .sending => t.filled = [] ∧ t.comps = [] ∧ t.hand ≠ []
  | .recycling | .trading => t.filled = []

structure Thread.Ok (caches : List Cache) (t : Thread) : Prop where
  rx : t.pc ≠ .idle → t.rx ∈ t.ports
  tx : t.pc ≠ .idle → t.tx ∈ t.ports
  idle : ∀ c ∈ t.ports, t.trades ≠ some c → ∃ bc, caches[c]? = some bc ∧ bc.phase = .idle
  knows : t.Knows caches

structure Inv (cfg : Config) (s : Sys) : Prop where
  pool : (users cfg.params).Reachable s.pool
  out : s.pool.out.Perm s.inFlight
  owned : (s.threads.flatMap Thread.ports).Nodup
  threads : ∀ t ∈ s.threads, t.Ok s.pool.caches

variable {cfg : Config} {s : Sys} {i : Nat} {t t' : Thread} {caches caches' : List Cache}

/-- What a thread knows depends on the caches of its ports only. -/
theorem Thread.Ok.frame (h : t.Ok caches)
    (hsame : ∀ c ∈ t.ports, caches'[c]? = caches[c]?) : t.Ok caches' where
  rx := h.rx
  tx := h.tx
  idle c hc htrades := by
    rw [hsame c hc]
    exact h.idle c hc htrades
  knows := by
    have hknows := h.knows
    have hrx := h.rx
    unfold Thread.Knows at hknows ⊢
    cases hpc : t.pc with
    | peeking | reserving | filling => rwa [hpc, ← hsame t.rx (hrx (by simp [hpc]))] at hknows
    | idle | checking | handling | sending | reaping | recycling | trading => rwa [hpc] at hknows

/-- The ports of two threads are different. -/
theorem Inv.disjoint (h : Inv cfg s) (ht : s.threads[i]? = some t) {k : Nat} {z : Thread}
    (hne : k ≠ i) (hz : s.threads[k]? = some z) : ∀ c ∈ z.ports, c ∉ t.ports := by
  obtain ⟨hi, rfl⟩ := List.getElem?_eq_some_iff.mp ht
  have hperm := (List.getElem_cons_eraseIdx_perm hi).flatMap_right Thread.ports
  have hnodup := hperm.nodup_iff.mpr h.owned
  have hmem : z ∈ s.threads.eraseIdx i := List.mem_eraseIdx_iff_getElem?.mpr ⟨k, hne, hz⟩
  rw [List.flatMap_cons, List.nodup_append] at hnodup
  intro c hc hc'
  exact hnodup.2.2 c hc' c (List.mem_flatMap.mpr ⟨z, hmem, hc⟩) rfl

theorem Inv.nodup_ports (h : Inv cfg s) (ht : t ∈ s.threads) : t.ports.Nodup :=
  (List.nodup_flatMap.mp h.owned).1 t ht

variable {pool : State} {ports : List Port} {umem : Mem}

/-- **A thread's step**: it moves frames between the pool, the queues and its own hands,
and touches the caches of its own ports only. -/
theorem Inv.move (h : Inv cfg s) (ht : s.threads[i]? = some t) (hports : t'.ports = t.ports)
    (hpool : (users cfg.params).Reachable pool)
    (hcaches : ∀ c ∉ t.ports, pool.caches[c]? = s.pool.caches[c]?)
    (hout : ∀ a, pool.out.count a + (s.ports.flatMap Port.frames).count a + t.frames.count a =
      s.pool.out.count a + (ports.flatMap Port.frames).count a + t'.frames.count a)
    (hok : t'.Ok pool.caches) : Inv cfg ⟨pool, ports, umem, s.threads.set i t'⟩ where
  pool := hpool
  out := by
    rw [perm_iff_count]
    intro a
    have hold := h.out.count_eq a
    have hset :=
      count_flatMap_set (x := t') (f := Thread.frames) (g := Thread.frames) ht (fun _ _ => rfl) a
    have hmoved := hout a
    simp only [Sys.inFlight, count_append] at hold ⊢
    omega
  owned := by
    rw [flatMap_set_of_eq ht hports]
    exact h.owned
  threads z hz := by
    obtain ⟨k, hk⟩ := List.mem_iff_getElem?.mp hz
    by_cases hki : k = i
    · subst hki
      obtain ⟨hlt, -⟩ := List.getElem?_eq_some_iff.mp ht
      rw [getElem?_set_self hlt] at hk
      cases hk
      exact hok
    · rw [List.getElem?_set_ne (Ne.symm hki)] at hk
      refine (h.threads z (mem_of_getElem? hk)).frame fun c hc => ?_
      exact hcaches c (h.disjoint ht hki hk c hc)

/-- A step that leaves the pool alone. -/
theorem Inv.moveQueues (h : Inv cfg s) (ht : s.threads[i]? = some t) (hports : t'.ports = t.ports)
    (hout : ∀ a, (s.ports.flatMap Port.frames).count a + t.frames.count a =
      (ports.flatMap Port.frames).count a + t'.frames.count a)
    (hok : t'.Ok s.pool.caches) : Inv cfg ⟨s.pool, ports, umem, s.threads.set i t'⟩ :=
  h.move ht hports h.pool (fun _ _ => rfl) (fun a => by have := hout a; omega) hok

/-- A step that moves frames between the thread and the queues of one port. -/
theorem Inv.exchange (h : Inv cfg s) (ht : s.threads[i]? = some t) {c : Nat} {port port' : Port}
    (hport : s.ports[c]? = some port) (hports : t'.ports = t.ports)
    (hmoved : ∀ a, port'.frames.count a + t'.frames.count a =
      port.frames.count a + t.frames.count a)
    (hok : t'.Ok s.pool.caches) :
    Inv cfg ⟨s.pool, s.ports.set c port', s.umem, s.threads.set i t'⟩ := by
  refine h.moveQueues ht hports (fun a => ?_) hok
  have hset :=
    count_flatMap_set (x := port') (f := Port.frames) (g := Port.frames) hport (fun _ _ => rfl) a
  have := hmoved a
  omega

/-- **The kernel's step**: it moves frames between the queues of a port. -/
theorem Inv.kernel (h : Inv cfg s) {c : Nat} {port port' : Port} (hc : s.ports[c]? = some port)
    (hframes : port'.frames.Perm port.frames) :
    Inv cfg ⟨s.pool, s.ports.set c port', umem, s.threads⟩ where
  pool := h.pool
  out := by
    rw [perm_iff_count]
    intro a
    have hold := h.out.count_eq a
    have hset :=
      count_flatMap_set (x := port') (f := Port.frames) (g := Port.frames) hc (fun _ _ => rfl) a
    have hsame := hframes.count_eq a
    simp only [Sys.inFlight, count_append] at hold ⊢
    omega
  owned := h.owned
  threads := h.threads

/-! ## The steps of a thread -/

theorem Thread.Ok.idle_of_not_trading (h : t.Ok caches) (htrades : t.trades = none) :
    ∀ c ∈ t.ports, ∃ bc, caches[c]? = some bc ∧ bc.phase = .idle :=
  fun c hc => h.idle c hc (by simp [htrades])

/-- Between two statements outside of a trade, only what the thread knows changes. -/
theorem Thread.Ok.goto (h : t.Ok caches) (hpc : t.pc ≠ .idle) (htrades : t.trades = none)
    (hports : t'.ports = t.ports) (hrx : t'.rx = t.rx) (htx : t'.tx = t.tx)
    (hknows : t'.Knows caches) : t'.Ok caches where
  rx _ := by
    rw [hrx, hports]
    exact h.rx hpc
  tx _ := by
    rw [htx, hports]
    exact h.tx hpc
  idle c hc _ := h.idle_of_not_trading htrades c (hports ▸ hc)
  knows := hknows

/-- The thread returns from `handle_port`. -/
theorem Thread.Ok.ret (h : t.Ok caches) (htrades : t.trades = none)
    (hknows : t.hand = [] ∧ t.filled = [] ∧ t.comps = []) :
    Thread.Ok caches { t with pc := .idle } where
  rx hne := absurd rfl hne
  tx hne := absurd rfl hne
  idle c hc _ := h.idle_of_not_trading htrades c hc
  knows := hknows

variable {pool' : State}

/-- After a call on cache `c` the other caches of the thread are idle as before. -/
theorem Thread.Ok.idle_of_leaves {c : Nat} (h : t.Ok pool.caches) (hleaves : Leaves c pool pool')
    (htrades : ∀ c', c' ≠ c → t.trades ≠ some c') :
    ∀ c' ∈ t.ports, c' ≠ c → ∃ bc, pool'.caches[c']? = some bc ∧ bc.phase = .idle := by
  intro c' hc' hne
  obtain ⟨bc, hbc, hidle⟩ := h.idle c' hc' (htrades c' hne)
  exact ⟨bc, (hleaves.getElem? hne).trans hbc, hidle⟩

theorem Leaves.of_not_mem {c : Nat} {cs : List Nat} (h : Leaves c pool pool') (hc : c ∈ cs) :
    ∀ c' ∉ cs, pool'.caches[c']? = pool.caches[c']? :=
  fun _ hc' => h.getElem? fun heq => hc' (heq ▸ hc)

variable {s' : Sys}

/-- The thread enters `handle_port`. -/
theorem inv_call {j : Nat} (h : Inv cfg s) (ht : s.threads[i]? = some t) (hpc : t.pc = .idle)
    (hs : call cfg s i t j = some s') : Inv cfg s' := by
  have hok := h.threads t (mem_of_getElem? ht)
  have htrades : t.trades = none := by rw [Thread.trades, hpc]
  have hknows := hok.knows
  simp only [Thread.Knows, hpc] at hknows
  simp only [call, bind_eq_bind, bind_eq_some_iff, Option.some.injEq] at hs
  obtain ⟨rx, hrx, tx, htx, bc, hbc, bc', hbc', rfl⟩ := hs
  have hmem := mem_of_getElem? hrx
  obtain ⟨_, hbc₀, hphase⟩ := hok.idle_of_not_trading htrades rx hmem
  cases hbc.symm.trans hbc₀
  have hleaves := leaves_bcacheConsCheck s.pool rx bc cfg.maxBurstRx
  have hothers := hok.idle_of_leaves hleaves (fun c' _ => by simp [htrades])
  refine h.move ht (by rfl) (reachable_check h.pool hbc hphase cfg.burst_le)
    (hleaves.of_not_mem hmem)
    (fun a => by rw [out_bcacheConsCheck]; rfl) ?_
  by_cases hidle : bc'.phase = .idle
  · rw [if_pos hidle]
    exact
      { rx := fun _ => hmem
        tx := fun _ => mem_of_getElem? htx
        idle := fun c hc _ => by
          by_cases hcrx : c = rx
          · exact ⟨bc', hcrx ▸ hbc', hidle⟩
          · exact hothers c hc hcrx
        knows := ⟨hknows.1, hknows.2.1, hknows.2.2, bc', hbc', Nat.le_refl _⟩ }
  · rw [if_neg hidle]
    exact
      { rx := fun _ => hmem
        tx := fun _ => mem_of_getElem? htx
        idle := fun c hc hne => hothers c hc fun heq => hne (by rw [heq]; rfl)
        knows := hknows }

/-- The rest of a call that has traded a slab. -/
theorem Inv.finish {c : Nat} {bc : Cache} (h : Inv cfg s) (ht : s.threads[i]? = some t)
    (hpc : t.pc ≠ .idle) (htrades : t.trades = some c) (hmem : c ∈ t.ports)
    (hbc : s.pool.caches[c]? = some bc) (hports : t'.ports = t.ports) (hrx : t'.rx = t.rx)
    (htx : t'.tx = t.tx) (hframes : t'.frames = t.frames)
    (hknows : t'.Knows (finish cfg.params.perSlab s.pool c bc).caches) :
    Inv cfg ⟨finish cfg.params.perSlab s.pool c bc, s.ports, s.umem, s.threads.set i t'⟩ := by
  have hok := h.threads t (mem_of_getElem? ht)
  have hleaves := leaves_finish cfg.params.perSlab hbc
  have hothers := hok.idle_of_leaves hleaves (fun c' hne => by simp [htrades, Ne.symm hne])
  refine h.move ht hports (reachable_finish h.pool hbc) (hleaves.of_not_mem hmem)
    (fun a => by rw [out_finish, hframes]) ⟨fun _ => ?_, fun _ => ?_, fun c' hc' _ => ?_, hknows⟩
  · rw [hrx, hports]
    exact hok.rx hpc
  · rw [htx, hports]
    exact hok.tx hpc
  · by_cases heq : c' = c
    · rw [heq]
      exact caches_finish cfg.params.perSlab hbc
    · exact hothers c' (hports ▸ hc') heq

/-- It has checked that the cache has buffers for a burst. -/
theorem inv_endCheck (h : Inv cfg s) (ht : s.threads[i]? = some t) (hpc : t.pc = .checking)
    (hs : endCheck cfg s i t = some s') : Inv cfg s' := by
  have hok := h.threads t (mem_of_getElem? ht)
  have hknows := hok.knows
  simp only [Thread.Knows, hpc] at hknows
  simp only [endCheck, bind_eq_bind, bind_eq_some_iff, Option.some.injEq] at hs
  obtain ⟨bc, hbc, bc', hbc', rfl⟩ := hs
  exact h.finish ht (by simp [hpc]) (by rw [Thread.trades, hpc]) (hok.rx (by simp [hpc])) hbc
    rfl rfl rfl rfl ⟨hknows.1, hknows.2.1, hknows.2.2, bc', hbc', Nat.le_refl _⟩

/-- It takes what has been received. -/
theorem inv_peek (h : Inv cfg s) (ht : s.threads[i]? = some t) (hpc : t.pc = .peeking)
    (hs : peek s i t = some s') : Inv cfg s' := by
  have hok := h.threads t (mem_of_getElem? ht)
  have htrades : t.trades = none := by rw [Thread.trades, hpc]
  have hknows := hok.knows
  simp only [Thread.Knows, hpc] at hknows
  obtain ⟨hhand, hfilled, hcomps, bc, hbc, hgranted⟩ := hknows
  simp only [peek, bind_eq_bind, bind_eq_some_iff] at hs
  obtain ⟨port, hport, hs⟩ := hs
  split at hs
  · cases hs
    exact h.moveQueues ht (by rfl) (fun _ => rfl) (hok.ret htrades ⟨hhand, hfilled, hcomps⟩)
  · cases hs
    refine h.exchange ht hport (by rfl) (fun a => ?_)
      (hok.goto (by simp [hpc]) htrades rfl rfl rfl ⟨hcomps, by simp [hfilled], bc, hbc, ?_⟩)
    · -- what is taken from the receive queue is then in hand
      have hsplit := congrArg (fun l => (l.map Desc.addr).count a)
        (List.take_append_drop (min t.nPkts port.rxq.length) port.rxq)
      simp only [Port.frames, Thread.frames, hhand, List.map_append, count_append,
        map_nil, count_nil] at hsplit ⊢
      omega
    · simp only [List.length_take, hfilled, List.length_nil]
      omega

/-- It reserves room in the fill queue. -/
theorem inv_reserveFq (h : Inv cfg s) (ht : s.threads[i]? = some t) (hpc : t.pc = .reserving)
    (hs : reserveFq cfg s i t = some s') : Inv cfg s' := by
  have hok := h.threads t (mem_of_getElem? ht)
  simp only [reserveFq, bind_eq_bind, bind_eq_some_iff] at hs
  obtain ⟨port, -, hs⟩ := hs
  split at hs
  · cases hs
    have hknows := hok.knows
    simp only [Thread.Knows, hpc] at hknows
    exact h.moveQueues ht (by rfl) (fun _ => rfl)
      (hok.goto (by simp [hpc]) (by rw [Thread.trades, hpc]) rfl rfl rfl hknows)
  · cases hs
    exact h

/-- It fills the room with buffers out of the cache. -/
theorem inv_fillFq (h : Inv cfg s) (ht : s.threads[i]? = some t) (hpc : t.pc = .filling)
    (hs : fillFq s i t = some s') : Inv cfg s' := by
  have hok := h.threads t (mem_of_getElem? ht)
  have hidle := hok.idle_of_not_trading (by rw [Thread.trades, hpc])
  have hrx := hok.rx (by simp [hpc])
  have htx := hok.tx (by simp [hpc])
  have hknows := hok.knows
  simp only [Thread.Knows, hpc] at hknows
  obtain ⟨hcomps, hle, bc, hbc, hgranted⟩ := hknows
  rw [fillFq] at hs
  split at hs
  · next hlt =>
    simp only [takeBuffer, hbc, bind_eq_bind, Option.bind_some, Option.some.injEq] at hs
    subst hs
    obtain ⟨_, hbc₀, hphase⟩ := hidle t.rx hrx
    cases hbc.symm.trans hbc₀
    obtain ⟨hltc, -⟩ := List.getElem?_eq_some_iff.mp hbc
    have hleaves := leaves_bcacheCons s.pool t.rx bc
    have hself :=
      getElem?_set_self (a := { bc with
        nBuffersCons := bc.nBuffersCons - 1, granted := bc.granted - 1 }) hltc
    refine h.move ht (by rfl) (reachable_cons h.pool hbc hphase (by omega)) (hleaves.of_not_mem hrx)
      (fun a => ?_)
      { rx := fun _ => hrx
        tx := fun _ => htx
        idle := fun c hc _ => ?_
        knows := ?_ }
    · simp only [bcacheCons, Thread.frames, count_append, count_cons, count_nil]
      omega
    · by_cases hcrx : c = t.rx
      · rw [hcrx]
        exact ⟨_, hself, hphase⟩
      · rw [hleaves.getElem? hcrx]
        exact hidle c hc
    · simp only [Thread.Knows, hpc, List.length_append, List.length_singleton]
      exact ⟨hcomps, hlt, _, hself, by simp only; omega⟩
  · simp only [bind_eq_bind, bind_eq_some_iff, Option.some.injEq] at hs
    obtain ⟨port, hport, rfl⟩ := hs
    refine h.exchange ht hport (by rfl) (fun a => ?_)
      (hok.goto (by simp [hpc]) (by rw [Thread.trades, hpc]) rfl rfl rfl ⟨rfl, hcomps⟩)
    simp only [Port.frames, Thread.frames, count_append, count_nil]
    omega

/-- It rewrites a packet that was received. -/
theorem inv_handle (h : Inv cfg s) (ht : s.threads[i]? = some t) (hpc : t.pc = .handling)
    (hs : handle s i t = some s') : Inv cfg s' := by
  have hok := h.threads t (mem_of_getElem? ht)
  have htrades : t.trades = none := by rw [Thread.trades, hpc]
  have hknows := hok.knows
  simp only [Thread.Knows, hpc] at hknows
  rw [handle] at hs
  split at hs
  · next hhand =>
    cases hs
    exact h.moveQueues ht (by rfl) (fun _ => rfl) (hok.ret htrades ⟨hhand, hknows.1, hknows.2⟩)
  · next hhand =>
    simp only [bind_eq_bind, bind_eq_some_iff, Option.some.injEq] at hs
    obtain ⟨_, -, rfl⟩ := hs
    exact h.moveQueues ht (by rfl) (fun _ => rfl)
      (hok.goto (by simp [hpc]) htrades rfl rfl rfl ⟨hknows.1, hknows.2, by simp [hhand]⟩)

/-- It puts a packet into the transmit queue, or waits for room. -/
theorem inv_send (h : Inv cfg s) (ht : s.threads[i]? = some t) (hpc : t.pc = .sending)
    (hs : send cfg s i t = some s') : Inv cfg s' := by
  have hok := h.threads t (mem_of_getElem? ht)
  have hknows := hok.knows
  simp only [Thread.Knows, hpc] at hknows
  rw [send] at hs
  split at hs
  · cases hs
  · next d rest hhand =>
    simp only [bind_eq_bind, bind_eq_some_iff] at hs
    obtain ⟨port, hport, hs⟩ := hs
    split at hs
    · cases hs
      refine h.exchange ht hport (by rfl) (fun a => ?_)
        (hok.goto (by simp [hpc]) (by rw [Thread.trades, hpc]) rfl rfl rfl ⟨hknows.1, hknows.2.1⟩)
      simp only [Port.frames, Thread.frames, hhand, List.map_append, List.map_cons, map_nil,
        count_append, count_cons, count_nil]
      omega
    · cases hs
      exact h

/-- It takes what has been sent out of the completion queue. -/
theorem inv_reap (h : Inv cfg s) (ht : s.threads[i]? = some t) (hpc : t.pc = .reaping)
    (hs : reap cfg s i t = some s') : Inv cfg s' := by
  have hok := h.threads t (mem_of_getElem? ht)
  have hknows := hok.knows
  simp only [Thread.Knows, hpc] at hknows
  simp only [reap, bind_eq_bind, bind_eq_some_iff, Option.some.injEq] at hs
  obtain ⟨port, hport, rfl⟩ := hs
  refine h.exchange ht hport (by rfl) (fun a => ?_)
    (hok.goto (by simp [hpc]) (by rw [Thread.trades, hpc]) rfl rfl rfl hknows.1)
  have hsplit := congrArg (fun l => l.count a) (List.take_append_drop cfg.compSize port.umemCq)
  simp only [Port.frames, Thread.frames, hknows.2, count_append, count_nil] at hsplit ⊢
  omega

/-- It puts the buffers of packets that were sent back into the cache. -/
theorem inv_recycle (h : Inv cfg s) (ht : s.threads[i]? = some t) (hpc : t.pc = .recycling)
    (hs : recycle cfg s i t = some s') : Inv cfg s' := by
  have hok := h.threads t (mem_of_getElem? ht)
  have hidle := hok.idle_of_not_trading (by rw [Thread.trades, hpc])
  have hrx := hok.rx (by simp [hpc])
  have htx := hok.tx (by simp [hpc])
  have hfilled := hok.knows
  simp only [Thread.Knows, hpc] at hfilled
  rw [recycle] at hs
  split at hs
  · next hcomps =>
    cases hs
    exact h.moveQueues ht (by rfl) (fun _ => rfl)
      (hok.goto (by simp [hpc]) (by rw [Thread.trades, hpc]) rfl rfl rfl ⟨hfilled, hcomps⟩)
  · next addr rest hcomps =>
    simp only [bind_eq_bind, bind_eq_some_iff, Option.some.injEq] at hs
    obtain ⟨bc, hbc, bc', hbc', rfl⟩ := hs
    obtain ⟨_, hbc₀, hphase⟩ := hidle t.tx htx
    cases hbc.symm.trans hbc₀
    have hout : addr ∈ s.pool.out := by
      refine h.out.mem_iff.mpr (List.mem_append_right _
        (List.mem_flatMap.mpr ⟨t, mem_of_getElem? ht, ?_⟩))
      simp [Thread.frames, hcomps]
    have hleaves := leaves_bcacheProd cfg.params.perSlab s.pool t.tx bc addr
    have hothers := hok.idle_of_leaves hleaves (fun c' _ => by simp [Thread.trades, hpc])
    refine h.move ht (by rfl) (reachable_prod h.pool hbc hphase hout) (hleaves.of_not_mem htx)
      (fun a => ?_) ?_
    · have hcount := count_erase_add hout a
      simp only [out_bcacheProd, Thread.frames, hcomps, count_append, count_cons,
        count_nil] at hcount ⊢
      omega
    by_cases hidle' : bc'.phase = .idle
    · rw [if_pos hidle']
      exact
        { rx := fun _ => hrx
          tx := fun _ => htx
          idle := fun c hc _ => by
            by_cases hctx : c = t.tx
            · exact ⟨bc', hctx ▸ hbc', hidle'⟩
            · exact hothers c hc hctx
          knows := hfilled }
    · rw [if_neg hidle']
      exact
        { rx := fun _ => hrx
          tx := fun _ => htx
          idle := fun c hc hne => hothers c hc fun heq => hne (by rw [heq]; rfl)
          knows := hfilled }

/-- It ends a trade of slabs. -/
theorem inv_endTrade (h : Inv cfg s) (ht : s.threads[i]? = some t) (hpc : t.pc = .trading)
    (hs : endTrade cfg s i t = some s') : Inv cfg s' := by
  have hok := h.threads t (mem_of_getElem? ht)
  have hknows := hok.knows
  simp only [Thread.Knows, hpc] at hknows
  simp only [endTrade, bind_eq_bind, bind_eq_some_iff, Option.some.injEq] at hs
  obtain ⟨bc, hbc, rfl⟩ := hs
  exact h.finish ht (by simp [hpc]) (by rw [Thread.trades, hpc]) (hok.tx (by simp [hpc])) hbc
    rfl rfl rfl rfl hknows

/-- One statement of a thread. -/
theorem inv_threadStep (h : Inv cfg s) (ht : s.threads[i]? = some t)
    (hs : threadStep cfg s i t = some s') : Inv cfg s' := by
  rw [threadStep] at hs
  cases hpc : t.pc with
  | idle => rw [hpc] at hs; cases hs
  | checking => rw [hpc] at hs; exact inv_endCheck h ht hpc hs
  | peeking => rw [hpc] at hs; exact inv_peek h ht hpc hs
  | reserving => rw [hpc] at hs; exact inv_reserveFq h ht hpc hs
  | filling => rw [hpc] at hs; exact inv_fillFq h ht hpc hs
  | handling => rw [hpc] at hs; exact inv_handle h ht hpc hs
  | sending => rw [hpc] at hs; exact inv_send h ht hpc hs
  | reaping => rw [hpc] at hs; exact inv_reap h ht hpc hs
  | recycling => rw [hpc] at hs; exact inv_recycle h ht hpc hs
  | trading => rw [hpc] at hs; exact inv_endTrade h ht hpc hs

/-! ## The kernel's steps -/

/-- The kernel puts a packet into a buffer of the fill queue. -/
theorem inv_deliver {c : Nat} {pkt : List UInt8} (h : Inv cfg s)
    (hs : deliver cfg s c pkt = some s') : Inv cfg s' := by
  simp only [deliver, bind_eq_bind, bind_eq_some_iff] at hs
  obtain ⟨port, hport, hs⟩ := hs
  split at hs
  · cases hs
  · next addr rest hfq =>
    split at hs
    · cases hs
    · cases hs
      refine h.kernel hport (List.perm_iff_count.mpr fun a => ?_)
      simp only [Port.frames, hfq, List.map_append, List.map_cons, map_nil, count_append,
        count_cons, count_nil]
      omega

/-- The kernel sends a packet, and its buffer goes to the completion queue. -/
theorem inv_transmit {c : Nat} (h : Inv cfg s) (hs : transmit s c = some s') : Inv cfg s' := by
  simp only [transmit, bind_eq_bind, bind_eq_some_iff] at hs
  obtain ⟨port, hport, hs⟩ := hs
  split at hs
  · cases hs
  · next d rest htxq =>
    cases hs
    refine h.kernel hport (List.perm_iff_count.mpr fun a => ?_)
    simp only [Port.frames, htxq, List.map_cons, count_append, count_cons, count_nil]
    omega

/-- One step of a thread or of the kernel. -/
theorem inv_forward_step {a : Act} (h : Inv cfg s) (hs : step cfg s a = some s') : Inv cfg s' := by
  cases a with
  | call i j =>
      simp only [step, bind_eq_bind, bind_eq_some_iff] at hs
      obtain ⟨t, ht, hs⟩ := hs
      split at hs
      · next hpc => exact inv_call h ht hpc hs
      · cases hs
  | thread i =>
      simp only [step, bind_eq_bind, bind_eq_some_iff] at hs
      obtain ⟨t, ht, hs⟩ := hs
      exact inv_threadStep h ht hs
  | deliver c pkt => exact inv_deliver h hs
  | transmit c => exact inv_transmit h hs

/-! ## `port_init` -/

/-- The ports that have been made so far: all caches are idle, and what is out of the pool
stands in the fill queues. -/
structure Opened (cfg : Config) (pool : State) (ports : List Port) : Prop where
  reachable : (users cfg.params).Reachable pool
  out : pool.out.Perm (ports.flatMap Port.frames)
  caches : pool.caches.length = ports.length
  idle : ∀ bc ∈ pool.caches, bc.phase = .idle

/-- The loop of `bcache_cons` that fills the fill queue. -/
theorem takeBuffers_spec {p : Params} {c n : Nat} {bc : Cache} {addrs : List Nat}
    (hpool : (users p).Reachable pool) (hbc : pool.caches[c]? = some bc) (hidle : bc.phase = .idle)
    (hgranted : n ≤ bc.granted) (htake : takeBuffers pool c n = some (addrs, pool')) :
    (users p).Reachable pool' ∧ pool'.out.Perm (addrs ++ pool.out) ∧ addrs.length = n ∧
      ∃ bc', bc'.phase = .idle ∧ bc'.granted = bc.granted - n ∧
      pool'.caches = pool.caches.set c bc' := by
  induction n generalizing addrs pool' with
  | zero =>
      cases htake
      obtain ⟨hlt, rfl⟩ := List.getElem?_eq_some_iff.mp hbc
      exact ⟨hpool, .refl _, rfl, _, hidle, rfl, (List.set_getElem_self hlt).symm⟩
  | succ n ih =>
      simp only [takeBuffers, takeBuffer, bind_eq_bind, bind_eq_some_iff,
        Option.some.injEq, Prod.exists, Prod.mk.injEq] at htake
      obtain ⟨addrs₁, pool₁, htake, addr, _, ⟨bc₁, hbc₁, rfl, rfl⟩, rfl, rfl⟩ := htake
      obtain ⟨hpool₁, hout, hlength, bc', hidle', hgranted', hcaches⟩ := ih (by omega) htake
      obtain ⟨hlt, -⟩ := List.getElem?_eq_some_iff.mp hbc
      rw [hcaches, getElem?_set_self hlt] at hbc₁
      cases hbc₁
      have hself : pool₁.caches[c]? = some bc₁ := by rw [hcaches, getElem?_set_self hlt]
      refine ⟨reachable_cons hpool₁ hself hidle' (by omega), ?_, by simp [hlength],
        { bc₁ with nBuffersCons := bc₁.nBuffersCons - 1, granted := bc₁.granted - 1 }, hidle',
        by simp only; omega, ?_⟩
      · refine List.perm_iff_count.mpr fun a => ?_
        have hcount := hout.count_eq a
        simp only [bcacheCons, count_cons, count_append, count_nil] at hcount ⊢
        omega
      · rw [bcacheCons, hcaches, List.set_set]

/-- One more port is opened, with a full fill queue. -/
theorem Opened.portInit {ports' : List Port} (h : Opened cfg pool ports)
    (hinit : portInit cfg (pool, ports) = some (pool', ports')) :
    Opened cfg pool' ports' ∧ ∃ addrs, addrs.length = cfg.fqSize ∧
      ports' = ports ++ [⟨addrs, [], [], [], [], []⟩] := by
  simp only [Forward.portInit, bind_eq_bind, Option.ite_none_left_eq_some,
    bind_eq_some_iff, Option.some.injEq, Prod.exists, Prod.mk.injEq] at hinit
  obtain ⟨hreserved, hsize, bc, hbc, bc₁, hbc₁, bc₂, hbc₂, hgranted, addrs, pool₃, htake, rfl,
    rfl⟩ := hinit
  -- the cache of the new port is the last one
  obtain ⟨new, hnew, hidle⟩ : ∃ new, (bcacheInit pool).caches = pool.caches ++ [new] ∧
    new.phase = .idle := by
    simp only [bcacheInit, if_neg hreserved]
    exact ⟨_, rfl, rfl⟩
  have hout : (bcacheInit pool).out = pool.out := by simp only [bcacheInit, if_neg hreserved]
  have hlast : ∀ bc', (pool.caches ++ [bc'])[ports.length]? = some bc' := by
    intro bc'
    rw [← h.caches, List.getElem?_concat_length]
  have hinit : (users cfg.params).Reachable (bcacheInit pool) := h.reachable.step (a := .init) rfl
  rw [hnew, hlast] at hbc
  cases hbc
  have hleaves₁ := leaves_bcacheConsCheck (bcacheInit pool) ports.length bc cfg.fqSize
  have hchecked := reachable_check hinit (hnew ▸ hlast bc) hidle (Nat.not_lt.mp hsize)
  have hleaves₂ := leaves_finish cfg.params.perSlab hbc₁
  have hfinished := reachable_finish hchecked hbc₁
  obtain ⟨_, hbc₂', hidle₂⟩ := caches_finish cfg.params.perSlab hbc₁
  cases hbc₂.symm.trans hbc₂'
  obtain ⟨hreach, hperm, hlength, bc₃, hidle₃, -, hcaches⟩ :=
    takeBuffers_spec hfinished hbc₂ hidle₂ (Nat.not_lt.mp hgranted) htake
  obtain ⟨_, hcaches₁⟩ := hleaves₁.concat h.caches hnew
  obtain ⟨_, hcaches₂⟩ := hleaves₂.concat h.caches hcaches₁
  rw [hcaches₂, set_concat h.caches] at hcaches
  rw [out_finish, out_bcacheConsCheck, hout] at hperm
  refine ⟨⟨hreach, ?_, ?_, ?_⟩, addrs, hlength, rfl⟩
  · rw [List.flatMap_append, List.flatMap_singleton]
    refine hperm.trans (List.perm_append_comm.trans (h.out.append ?_))
    simp only [Port.frames, map_nil, List.append_nil]
    exact .refl _
  · rw [hcaches, List.length_append, List.length_append, h.caches]
    rfl
  · rw [hcaches]
    exact List.forall_mem_append.mpr ⟨h.idle, List.forall_mem_singleton.mpr hidle₃⟩

/-- What the ports are when all are made: nothing has come in yet, and each fill queue
has its frames. -/
theorem initPorts_spec {n : Nat} (h : Opened cfg pool [])
    (hinit : initPorts cfg n (pool, []) = some (pool', ports)) :
    Opened cfg pool' ports ∧ ports.length = n ∧
      ∀ port ∈ ports, ∃ addrs, addrs.length = cfg.fqSize ∧ port = ⟨addrs, [], [], [], [], []⟩ := by
  induction n generalizing pool' ports with
  | zero =>
      cases hinit
      exact ⟨h, rfl, fun _ hport => absurd hport List.not_mem_nil⟩
  | succ n ih =>
      simp only [initPorts, bind_eq_bind, bind_eq_some_iff, Prod.exists] at hinit
      obtain ⟨pool₁, ports₁, hinit, hlast⟩ := hinit
      obtain ⟨hopened, hlength, hports⟩ := ih hinit
      obtain ⟨hopened', addrs, haddrs, rfl⟩ := hopened.portInit hlast
      refine ⟨hopened', by rw [List.length_append, hlength]; rfl, ?_⟩
      exact List.forall_mem_append.mpr ⟨hports, List.forall_mem_singleton.mpr ⟨addrs, haddrs, rfl⟩⟩

/-- What the start leaves: all ports with full fill queues, and all threads idle. -/
theorem start_spec (hs : start cfg umem = some s) :
    Opened cfg s.pool s.ports ∧ s.ports.length = cfg.nPorts ∧ s.threads = cfg.threads.map .fresh ∧
      ∀ port ∈ s.ports, ∃ addrs, addrs.length = cfg.fqSize ∧
      port = ⟨addrs, [], [], [], [], []⟩ := by
  simp only [start, bind_eq_bind, bind_eq_some_iff, Option.some.injEq,
    Prod.exists] at hs
  obtain ⟨pool, hpool, pool', ports, hinit, rfl⟩ := hs
  have hopened : Opened cfg pool [] := by
    refine ⟨.init hpool, ?_, ?_, ?_⟩
    all_goals
      simp only [bpoolInit, Option.ite_none_left_eq_some, Option.some.injEq] at hpool
      obtain ⟨-, rfl⟩ := hpool
      simp
  obtain ⟨hopened, hlength, hports⟩ := initPorts_spec hopened hinit
  exact ⟨hopened, hlength, rfl, hports⟩

/-- After the start every buffer is in one place. -/
theorem inv_start (hs : start cfg umem = some s) : Inv cfg s := by
  obtain ⟨hopened, hlength, hthreads, -⟩ := start_spec hs
  have hports : s.threads.flatMap Thread.ports = cfg.threads.flatten := by
    rw [hthreads, List.flatMap_map]
    exact List.flatMap_id'
  refine ⟨hopened.reachable, ?_, ?_, ?_⟩
  · have hnone : s.threads.flatMap Thread.frames = [] := by
      rw [hthreads, List.flatMap_map]
      exact List.flatMap_eq_nil_iff.mpr fun _ _ => rfl
    rw [Sys.inFlight, hnone, List.append_nil]
    exact hopened.out
  · rw [hports]
    exact cfg.owned
  · intro t ht
    have hmem : ∀ c ∈ t.ports, c < s.pool.caches.length := by
      intro c hc
      rw [hopened.caches, hlength]
      exact cfg.ports_lt c (hports ▸ List.mem_flatMap.mpr ⟨t, ht, hc⟩)
    rw [hthreads] at ht
    obtain ⟨ports, -, rfl⟩ := List.mem_map.mp ht
    exact
      { rx := fun hne => absurd rfl hne
        tx := fun hne => absurd rfl hne
        idle :=
          fun c hc _ =>
            ⟨_, List.getElem?_eq_getElem (hmem c hc), hopened.idle _ (List.getElem_mem _)⟩
        knows := ⟨rfl, rfl, rfl⟩ }

/-! ## Whole runs -/

theorem inv_of_reachable (h : (forwarder cfg).Reachable s) : Inv cfg s := by
  refine h.invariant (P := Inv cfg) (fun s hs => ?_) fun _ _ _ hinv hs => inv_forward_step hinv hs
  obtain ⟨_, hs⟩ := hs
  exact inv_start hs

/-- **Conservation of frames.**  In every interleaving of the threads and the kernel, the
threads have used the pool by its rules, and each frame is in exactly one place: in a full
slab of the pool, in the cache of a port, in one of the queues of a port or in the hands
of a thread. -/
theorem forward_conserves (h : (forwarder cfg).Reachable s) :
    (users cfg.params).Reachable s.pool ∧
      (s.pool.inPool cfg.params ++ s.pool.inCaches cfg.params ++
        s.inFlight).Perm cfg.params.buffers ∧
      (s.pool.inPool cfg.params ++ s.pool.inCaches cfg.params ++ s.inFlight).Nodup := by
  have hinv := inv_of_reachable h
  have hpool := reachable_inv cfg.perSlab_pos cfg.fits hinv.pool
  have hperm := ((hinv.out.symm.append_left _).trans hpool.buffers)
  exact ⟨hinv.pool, hperm, hperm.nodup_iff.mpr (nodup_of_reachable hinv.pool)⟩

/-- Two ports with a fill queue of one frame each, in a pool of four slabs of two
buffers. -/
def twoPorts : Config where
  params := ⟨8, 64, 2, 2⟩
  header := 272
  maxBurstRx := 2
  fillSize := 2
  txSize := 2
  compSize := 2
  nPorts := 2
  threads := [[0, 1]]
  perSlab_pos := by decide
  fits := by decide
  burst_le := by decide
  owned := by decide
  ports_lt := by decide

/-- A packet comes in at the first port and goes out at the second, and its frame is
returned to the cache of the second. -/
def forwardOne : List Act :=
  [.deliver 0 [1, 2, 3], .call 0 0, .thread 0, .thread 0, .thread 0, .thread 0, .thread 0,
    .thread 0, .transmit 1, .thread 0, .thread 0, .thread 0, .thread 0]

theorem forward_conserves_one :
    ∃ s, (forwarder twoPorts).Reachable s ∧ s.ports.map Port.sent = [[], [[1, 2, 3]]] ∧
      (s.pool.inPool twoPorts.params ++ s.pool.inCaches twoPorts.params ++
        s.inFlight).Perm twoPorts.params.buffers := by
  have hrun : ((start twoPorts fun _ => 0).bind fun s => (forwarder twoPorts).run s forwardOne).map
      (fun s => s.ports.map Port.sent) = some [[], [[1, 2, 3]]] := by decide +kernel
  obtain ⟨s, hs, hsent⟩ := Option.map_eq_some_iff.mp hrun
  obtain ⟨s₀, hs₀, hrun⟩ := Option.bind_eq_some_iff.mp hs
  have hinit : (forwarder twoPorts).init s₀ := ⟨_, hs₀⟩
  have hreach := System.reachable_of_run (.init hinit) hrun
  exact ⟨s, hreach, hsent, (forward_conserves hreach).2.1⟩

end Linuxyz.Xsk.Forward
