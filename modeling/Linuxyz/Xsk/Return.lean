import Linuxyz.Xsk.Order

/-!
# Linuxyz.Xsk.Return

Every call of `handle_port` comes to its end.  In a reachable state the next statement of
a thread is defined, and each one leaves less to do (`Thread.work`), but for the loop that
waits for an entry of the transmit queue: it turns while the queue is full, and the kernel
makes room.  The loop that waits for entries of the fill queue never turns: the thread
returns as many frames as it has taken out, so they find room.
-/

namespace Linuxyz.Xsk.Forward

open Option (bind_some bind_eq_bind)

variable {cfg : Config} {s s' : Sys} {i : Nat} {t t' : Thread}

/-- The statements for one packet: it is filled in, handled, sent and followed by the
completions. -/
def Config.perPacket (cfg : Config) : Nat := 2 * cfg.compSize + 6

/-- A bound for the statements that a call has still to execute. -/
def Thread.work (cfg : Config) (t : Thread) : Nat :=
  match t.pc with
  | .idle => 0
  | .checking => cfg.params.perSlab * (cfg.perPacket + 1) + 5
  | .peeking => t.nPkts * (cfg.perPacket + 1) + 4
  | .reserving => t.hand.length * (cfg.perPacket + 1) + 3
  | .filling => t.hand.length * cfg.perPacket + (t.hand.length - t.filled.length) + 2
  | .handling => t.hand.length * cfg.perPacket + 1
  | .sending => t.hand.length * cfg.perPacket
  | .reaping => t.hand.length * cfg.perPacket + 2 * cfg.compSize + 4
  | .recycling => t.hand.length * cfg.perPacket + 2 * t.comps.length + 2
  | .trading => t.hand.length * cfg.perPacket + 2 * t.comps.length + 3

/-- The next statement is defined and leaves less to do, or the transmit queue is full. -/
def Moves (cfg : Config) (s : Sys) (i : Nat) (t : Thread) (next : Option Sys) : Prop :=
  ∃ s', next = some s' ∧
    ((∃ t', s'.threads[i]? = some t' ∧ t'.tx = t.tx ∧ t'.work cfg < t.work cfg) ∨
    t.pc = .sending ∧ cfg.txSize ≤ (s.port t.tx).txq.length ∧ s' = s)

theorem Moves.of_set (ht : s.threads[i]? = some t) {pool : State} {ports : List Port}
    {umem : LittleEndian.Mem} (htx : t'.tx = t.tx) (hwork : t'.work cfg < t.work cfg) :
    Moves cfg s i t (some ⟨pool, ports, umem, s.threads.set i t'⟩) := by
  obtain ⟨hlt, -⟩ := List.getElem?_eq_some_iff.mp ht
  exact ⟨_, rfl, .inl ⟨t', List.getElem?_set_self hlt, htx, hwork⟩⟩

theorem Flow.cache (h : Flow cfg s) (ht : t ∈ s.threads) {c : Nat} (hc : c ∈ t.ports) :
    ∃ bc, s.pool.caches[c]? = some bc := by
  have hlt : c < s.pool.caches.length := by
    rw [h.caches]
    exact h.ports t ht c hc
  exact ⟨_, List.getElem?_eq_getElem hlt⟩

theorem Flow.port (h : Flow cfg s) (ht : t ∈ s.threads) {c : Nat} (hc : c ∈ t.ports) :
    s.ports[c]? = some (s.port c) := by
  have hlt := h.ports t ht c hc
  rw [Sys.port, List.getElem?_eq_getElem hlt, Option.getD_some]

/-- The check ends. -/
theorem moves_endCheck (hinv : Inv cfg s) (h : Flow cfg s) (ht : s.threads[i]? = some t)
    (hpc : t.pc = .checking) : Moves cfg s i t (endCheck cfg s i t) := by
  have hmem := List.mem_of_getElem? ht
  obtain ⟨bc, hbc⟩ := h.cache hmem (h.pairs t hmem (by simp [hpc])).mem.1
  obtain ⟨bc', hbc', hidle⟩ := caches_finish cfg.params.perSlab hbc
  simp only [endCheck, hbc, hbc', bind_eq_bind, bind_some]
  refine .of_set ht rfl ?_
  -- the cache grants no more than a slab
  have hpool := reachable_inv cfg.perSlab_pos cfg.fits (reachable_finish hinv.pool hbc)
  have hsound := hpool.caches bc' (List.mem_of_getElem? hbc')
  have hle :=
    Nat.mul_le_mul_right (cfg.perPacket + 1) (hsound.granted.trans (hsound.nBuffersCons_le hidle))
  simp only [Thread.work, hpc]
  omega

/-- The thread takes what has been received, at most a burst. -/
theorem moves_peek (h : Flow cfg s) (ht : s.threads[i]? = some t) (hpc : t.pc = .peeking) :
    Moves cfg s i t (peek s i t) := by
  have hmem := List.mem_of_getElem? ht
  simp only [peek, h.port hmem (h.pairs t hmem (by simp [hpc])).mem.1, bind_eq_bind,
    bind_some]
  split
  · refine .of_set ht rfl ?_
    simp only [Thread.work, hpc]
    omega
  · refine .of_set ht rfl ?_
    have hle :=
      Nat.mul_le_mul_right (cfg.perPacket + 1) (Nat.min_le_left t.nPkts (s.port t.rx).rxq.length)
    simp only [Thread.work, hpc, List.length_take, Nat.min_assoc, Nat.min_self]
    omega

/-- The frames that a thread has to return to the fill queue find room in it. -/
theorem moves_reserveFq (h : Flow cfg s) (ht : s.threads[i]? = some t) (hpc : t.pc = .reserving) :
    Moves cfg s i t (reserveFq cfg s i t) := by
  have hmem := List.mem_of_getElem? ht
  have hrx := (h.pairs t hmem (by simp [hpc])).mem.1
  have howed := h.owed t hmem t.rx hrx
  have hroom : (s.port t.rx).umemFq.length + t.hand.length ≤ cfg.fillSize := by
    have hhalf : cfg.fqSize ≤ cfg.fillSize := Nat.div_le_self ..
    simp only [Thread.owes, hpc, true_or, and_self, if_true] at howed
    omega
  simp only [reserveFq, h.port hmem hrx, bind_eq_bind, bind_some, if_pos hroom]
  refine .of_set ht rfl ?_
  simp only [Thread.work, hpc, Nat.mul_add]
  omega

/-- One buffer less is left to be filled in. -/
theorem moves_fillFq (h : Flow cfg s) (ht : s.threads[i]? = some t) (hpc : t.pc = .filling) :
    Moves cfg s i t (fillFq s i t) := by
  have hmem := List.mem_of_getElem? ht
  have hrx := (h.pairs t hmem (by simp [hpc])).mem.1
  rw [fillFq]
  split
  · obtain ⟨bc, hbc⟩ := h.cache hmem hrx
    simp only [takeBuffer, hbc, bind_eq_bind, bind_some]
    refine .of_set ht rfl ?_
    simp only [Thread.work, hpc, List.length_append, List.length_singleton]
    omega
  · simp only [h.port hmem hrx, bind_eq_bind, bind_some]
    refine .of_set ht rfl ?_
    simp only [Thread.work, hpc]
    omega

/-- One packet less is left to be rewritten. -/
theorem moves_handle (ht : s.threads[i]? = some t) (hpc : t.pc = .handling) :
    Moves cfg s i t (handle s i t) := by
  rw [handle]
  split
  · refine .of_set ht rfl ?_
    simp only [Thread.work, hpc]
    omega
  · next d rest hhand =>
    obtain ⟨pkt, r, hpkt, -⟩ := handlePacket_alike (fun k => s.umem (d.addr + k)) d.len
    simp only [hpkt, bind_eq_bind, bind_some]
    refine .of_set ht rfl ?_
    simp only [Thread.work, hpc]
    omega

/-- The packets go into the transmit queue, or the thread waits for the kernel. -/
theorem moves_send (hinv : Inv cfg s) (h : Flow cfg s) (ht : s.threads[i]? = some t)
    (hpc : t.pc = .sending) : Moves cfg s i t (send cfg s i t) := by
  have hmem := List.mem_of_getElem? ht
  have hknows := (hinv.threads t hmem).knows
  simp only [Thread.Knows, hpc] at hknows
  rw [send]
  split
  · next hhand => exact absurd hhand hknows.2.2
  · next d rest hhand =>
    simp only [h.port hmem (h.pairs t hmem (by simp [hpc])).mem.2, bind_eq_bind,
      bind_some]
    split
    · refine .of_set ht rfl ?_
      simp only [Thread.work, hpc, hhand, List.length_cons, Nat.succ_mul, Config.perPacket]
      omega
    · next hfull => exact ⟨s, rfl, .inr ⟨hpc, Nat.not_lt.mp hfull, rfl⟩⟩

theorem moves_reap (h : Flow cfg s) (ht : s.threads[i]? = some t) (hpc : t.pc = .reaping) :
    Moves cfg s i t (reap cfg s i t) := by
  have hmem := List.mem_of_getElem? ht
  simp only [reap, h.port hmem (h.pairs t hmem (by simp [hpc])).mem.2, bind_eq_bind,
    bind_some]
  refine .of_set ht rfl ?_
  simp only [Thread.work, hpc, List.length_take]
  omega

/-- One buffer less is left to be put back. -/
theorem moves_recycle (h : Flow cfg s) (ht : s.threads[i]? = some t) (hpc : t.pc = .recycling) :
    Moves cfg s i t (recycle cfg s i t) := by
  have hmem := List.mem_of_getElem? ht
  rw [recycle]
  split
  · refine .of_set ht rfl ?_
    simp only [Thread.work, hpc]
    omega
  · next addr rest hcomps =>
    obtain ⟨bc, hbc⟩ := h.cache hmem (h.pairs t hmem (by simp [hpc])).mem.2
    obtain ⟨hlt, -⟩ := List.getElem?_eq_some_iff.mp hbc
    obtain ⟨bc', hcaches⟩ := leaves_bcacheProd cfg.params.perSlab s.pool t.tx bc addr
    simp only [hbc, hcaches, List.getElem?_set_self hlt, bind_eq_bind, bind_some]
    refine .of_set ht rfl ?_
    by_cases hidle : bc'.phase = .idle
    · simp only [Thread.work, hpc, hidle, hcomps, if_true, List.length_cons]
      omega
    · simp only [Thread.work, hpc, hidle, hcomps, if_false, List.length_cons]
      omega

theorem moves_endTrade (h : Flow cfg s) (ht : s.threads[i]? = some t) (hpc : t.pc = .trading) :
    Moves cfg s i t (endTrade cfg s i t) := by
  have hmem := List.mem_of_getElem? ht
  obtain ⟨bc, hbc⟩ := h.cache hmem (h.pairs t hmem (by simp [hpc])).mem.2
  simp only [endTrade, hbc, bind_eq_bind, bind_some]
  refine .of_set ht rfl ?_
  simp only [Thread.work, hpc]
  omega

/-- Every statement leaves the thread less to do, unless it waits for the kernel. -/
theorem moves_threadStep (hinv : Inv cfg s) (h : Flow cfg s) (ht : s.threads[i]? = some t)
    (hpc : t.pc ≠ .idle) : Moves cfg s i t (threadStep cfg s i t) := by
  rw [threadStep]
  cases hcase : t.pc with
  | idle => exact absurd hcase hpc
  | checking => exact moves_endCheck hinv h ht hcase
  | peeking => exact moves_peek h ht hcase
  | reserving => exact moves_reserveFq h ht hcase
  | filling => exact moves_fillFq h ht hcase
  | handling => exact moves_handle ht hcase
  | sending => exact moves_send hinv h ht hcase
  | reaping => exact moves_reap h ht hcase
  | recycling => exact moves_recycle h ht hcase
  | trading => exact moves_endTrade h ht hcase

/-- The kernel sends a packet of a transmit queue that is not empty. -/
theorem exists_transmit {c : Nat} (hport : s.ports[c]? = some (s.port c))
    (hne : (s.port c).txq ≠ []) :
    ∃ s', transmit s c = some s' ∧ s'.threads = s.threads ∧
      (s'.port c).txq.length < (s.port c).txq.length := by
  obtain ⟨d, rest, htxq⟩ := List.exists_cons_of_ne_nil hne
  simp only [transmit, hport, htxq, bind_eq_bind, bind_some]
  refine ⟨_, rfl, rfl, ?_⟩
  rw [Sys.port_set hport, if_pos rfl, List.length_cons]
  exact Nat.lt_succ_self _

/-- **Every call returns.**  From every reachable state of the threads and the kernel, a
thread in `handle_port` comes out of it by its own statements, of which there are at most
`Thread.work`, if the kernel sends from the transmit queue that it waits for. -/
theorem handle_port_returns (htxSize : 0 < cfg.txSize) (h : (forwarder cfg).Reachable s)
    (ht : s.threads[i]? = some t) :
    ∃ as s' t', (forwarder cfg).run s as = some s' ∧
      (∀ a ∈ as, a = .thread i ∨ a = .transmit t.tx) ∧
      as.count (.thread i) ≤ t.work cfg ∧ s'.threads[i]? = some t' ∧ t'.pc = .idle := by
  -- outer induction on what is left to do, inner one on what is left in the transmit queue
  induction hwork : t.work cfg using Nat.strong_induction_on generalizing s t with
  | h work ih =>
  induction hqueue : (s.port t.tx).txq.length using Nat.strong_induction_on generalizing s with
  | h queue ihq =>
  obtain ⟨hinv, hflow⟩ := flow_of_reachable h
  by_cases hpc : t.pc = .idle
  · exact ⟨[], s, t, rfl, by simp, by simp, ht, hpc⟩
  have hmem := List.mem_of_getElem? ht
  obtain ⟨s₁, hs₁, ⟨t₁, ht₁, htx₁, hless⟩ | ⟨hsending, hfull, rfl⟩⟩ :=
    moves_threadStep hinv hflow ht hpc
  · have hstep : (forwarder cfg).step s (.thread i) = some s₁ := by
      simp only [forwarder, step, ht, bind_eq_bind, bind_some, hs₁]
    obtain ⟨as, s', t', hrun, hacts, hcount, ht', hidle⟩ :=
      ih _ (hwork ▸ hless) (h.step hstep) ht₁ rfl
    refine ⟨.thread i :: as, s', t', ?_, ?_, ?_, ht', hidle⟩
    · rw [System.run_cons, hstep]
      exact hrun
    · rw [htx₁] at hacts
      exact List.forall_mem_cons.mpr ⟨.inl rfl, hacts⟩
    · rw [List.count_cons_self]
      omega
  · have hne : (s₁.port t.tx).txq ≠ [] := fun hnil => by
      rw [hnil, List.length_nil] at hfull
      omega
    obtain ⟨s₂, hs₂, hthreads, hshorter⟩ :=
      exists_transmit (hflow.port hmem (hflow.pairs t hmem hpc).mem.2) hne
    have hstep : (forwarder cfg).step s₁ (.transmit t.tx) = some s₂ := hs₂
    obtain ⟨as, s', t', hrun, hacts, hcount, ht', hidle⟩ :=
      ihq _ (hqueue ▸ hshorter) (h.step hstep) (hthreads ▸ ht) rfl
    refine ⟨.transmit t.tx :: as, s', t', ?_, ?_, ?_, ht', hidle⟩
    · rw [System.run_cons, hstep]
      exact hrun
    · exact List.forall_mem_cons.mpr ⟨.inr rfl, hacts⟩
    · rw [List.count_cons_of_ne (by simp)]
      exact hcount

/-- A thread with a packet in hand returns. -/
theorem handle_port_returns_one :
    ∃ s t as s' t', (forwarder twoPorts).Reachable s ∧ s.threads[0]? = some t ∧ t.pc = .sending ∧
      (forwarder twoPorts).run s as = some s' ∧ s'.threads[0]? = some t' ∧ t'.pc = .idle := by
  have hrun :
      ((start twoPorts fun _ => 0).bind fun s => (forwarder twoPorts).run s (forwardOne.take 7)).map
      (fun s => s.threads) = some [⟨[0, 1], .sending, 0, 1, 1, [⟨448, 3⟩], [], []⟩] := by
        decide +kernel
  obtain ⟨s, hs, hthreads⟩ := Option.map_eq_some_iff.mp hrun
  obtain ⟨s₀, hs₀, hrun⟩ := Option.bind_eq_some_iff.mp hs
  have hinit : (forwarder twoPorts).init s₀ := ⟨_, hs₀⟩
  have hreach := System.reachable_of_run (.init hinit) hrun
  have ht : s.threads[0]? = some ⟨[0, 1], .sending, 0, 1, 1, [⟨448, 3⟩], [], []⟩ := by
    rw [hthreads]; rfl
  obtain ⟨as, s', t', hrun, -, -, ht', hidle⟩ := handle_port_returns (by decide) hreach ht
  exact ⟨s, _, as, s', t', hreach, ht, rfl, hrun, ht', hidle⟩

end Linuxyz.Xsk.Forward
