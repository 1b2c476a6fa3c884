import Linuxyz.Lib.System
import Linuxyz.Veth.Stock
import Mathlib.Data.List.Perm.Basic

/-!
# Linuxyz.Veth.LifeCycle

Whole calls of the driver's functions, one after the other: transmissions and
polls, and in between devices that are opened and stopped and transmissions
that time out.

`Cycle` says where the buffers are while one of the functions runs, `hand`
being those it has taken out of a list; each function is shown to return and to
keep it.  `dummveth_open` starts a queue whatever is in the pool, and
`dummveth_tx_timeout` makes a new pool whatever is in flight, so these two need
a condition (`Restarts`).
-/

namespace Linuxyz.Veth

open Function (update update_self update_of_ne)

variable {poolSize : Nat} {s s' : Sys} {d e : Dev} {lists : Slot → List Addr}
    {bufs hand : Dev → List Addr}
  {a : Addr} {pkt pkt' : Packet}

/-! ## the calls -/

/-- A call of the kernel, by the fields of `dummveth_netdev_ops`. -/
inductive Op where
  | ndoStartXmit (d : Dev) (skb : Nat) (data : List UInt8)
  | poll (d : Dev) (budget : Nat) (alloc : Nat → Bool)
  | ndoOpen (d : Dev)
  | ndoStop (d : Dev)
  | ndoTxTimeout (d : Dev)

def opStep (lockup poolSize : Nat) (s : Sys) : Op → Option Sys
  | .ndoStartXmit d skb data => dummvethXmit lockup s skb data d
  | .poll d budget alloc => dummvethPoll alloc s budget d
  | .ndoOpen d => some (dummvethOpen s d)
  | .ndoStop d => some (dummvethStop s d)
  | .ndoTxTimeout d => dummvethTxTimeout poolSize s d

/-- Every sequence of calls. -/
def opSystem (lockup poolSize : Nat) : System Sys Op where
  init s := s = setup poolSize
  step := opStep lockup poolSize

/-- The kernel transmits only while the queue is started. -/
def Transmits (s : Sys) : Op → Prop
  | .ndoStartXmit d _ _ => (s.priv d).stopped = false
  | _ => True

/-- A device is opened only with a buffer in its pool, and its transmission
times out only with none of its buffers in the queue of its peer. -/
def Restarts (s : Sys) : Op → Prop
  | .ndoOpen d => (s.priv d).ppool ≠ none
  | .ndoTxTimeout d => (s.priv d.peer).rxQueue = none
  | _ => True

instance : DecidablePred (Transmits s)
  | .ndoStartXmit d _ _ => inferInstanceAs (Decidable ((s.priv d).stopped = false))
  | .poll _ _ _ | .ndoOpen _ | .ndoStop _ | .ndoTxTimeout _ => .isTrue trivial

instance : DecidablePred (Restarts s)
  | .ndoOpen d => inferInstanceAs (Decidable ((s.priv d).ppool ≠ none))
  | .ndoTxTimeout d => inferInstanceAs (Decidable ((s.priv d.peer).rxQueue = none))
  | .ndoStartXmit _ _ _ | .poll _ _ _ | .ndoStop _ => .isTrue trivial

/-! ## the invariant -/

/-- Each device has `pool_size` buffers, each in one place; no lock is locked,
and a started queue has a buffer in its pool. -/
structure Cycle (poolSize : Nat) (s : Sys) (lists : Slot → List Addr)
    (bufs hand : Dev → List Addr) : Prop where
  stock : Stock s lists bufs
  place : ∀ d, (lists (.pool d) ++ lists (.rx d.peer) ++ hand d).Perm (bufs d)
  size : ∀ d, (bufs d).length = poolSize
  unlocked : ∀ d, (s.priv d).lock = false
  started : ∀ d, (s.priv d).stopped = false → lists (.pool d) ≠ []

/-- `Cycle` of some lists, with the buffers in `hand` outside them. -/
def Sound (poolSize : Nat) (s : Sys) (hand : Dev → List Addr) : Prop :=
  ∃ lists bufs, Cycle poolSize s lists bufs hand

/-- No buffer outside the lists. -/
def handsFree : Dev → List Addr := fun _ => []

/-- One buffer of device `d` outside the lists. -/
def holding (d : Dev) (a : Addr) : Dev → List Addr := update handsFree d [a]

/-- The lock and the state of the queue. -/
def Priv.gate (p : Priv) : Bool × Bool := (p.lock, p.stopped)

/-- A step that leaves the locks and the queues alone and empties no pool. -/
theorem Cycle.move {lists' : Slot → List Addr} {hand' : Dev → List Addr}
    (h : Cycle poolSize s lists bufs hand) (hstock : Stock s' lists' bufs)
    (hplace : ∀ d, (lists' (.pool d) ++ lists' (.rx d.peer) ++ hand' d).Perm (bufs d))
    (hgate : Same Priv.gate s s') (hpool : ∀ d, lists (.pool d) ≠ [] → lists' (.pool d) ≠ []) :
    Cycle poolSize s' lists' bufs hand' where
  stock := hstock
  place := hplace
  size := h.size
  unlocked := by
    intro d
    have hlock : (s'.priv d).lock = (s.priv d).lock := congrArg Prod.fst (hgate d)
    rw [hlock, h.unlocked]
  started := by
    intro d hst
    have hstopped : (s'.priv d).stopped = (s.priv d).stopped := congrArg Prod.snd (hgate d)
    exact hpool d (h.started d (hstopped.symm.trans hst))

theorem Cycle.same (h : Cycle poolSize s lists bufs hand) (hstock : Stock s' lists bufs)
    (hgate : Same Priv.gate s s') : Cycle poolSize s' lists bufs hand :=
  h.move hstock h.place hgate fun _ => id

theorem Sound.setPriv {p : Priv} (h : Sound poolSize s hand) (hhead : (s.setPriv d p).head = s.head)
    (hgate : p.gate = (s.priv d).gate) : Sound poolSize (s.setPriv d p) hand := by
  obtain ⟨lists, bufs, h⟩ := h
  exact ⟨lists, bufs, h.same (h.stock.same rfl rfl hhead) (same_setPriv hgate)⟩

theorem Sound.setStatus (h : Sound poolSize s hand) (d : Dev) (v : Status) :
    Sound poolSize (s.setStatus d v) hand :=
  h.setPriv (Sys.head_setStatus ..) rfl

/-- A queue is stopped, or started with a buffer in the pool. -/
theorem Cycle.setStopped (h : Cycle poolSize s lists bufs hand)
    (hb : b = false → lists (.pool d) ≠ []) :
    Cycle poolSize (s.setStopped d b) lists bufs hand where
  stock := h.stock.same rfl rfl (Sys.head_setStopped ..)
  place := h.place
  size := h.size
  unlocked := by
    intro e
    by_cases hed : e = d
    · subst hed
      simp [Sys.setStopped, Sys.setPriv, h.unlocked]
    · simp [Sys.setStopped, Sys.setPriv, hed, h.unlocked]
  started := by
    intro e hst
    by_cases hed : e = d
    · subst hed
      simp only [Sys.setStopped, Sys.setPriv, update_self] at hst
      exact hb hst
    · simp only [Sys.setStopped, Sys.setPriv, update_of_ne hed] at hst
      exact h.started e hst

theorem Sound.stop (h : Sound poolSize s hand) (d : Dev) :
    Sound poolSize (s.setStopped d true) hand := by
  obtain ⟨lists, bufs, h⟩ := h
  exact ⟨lists, bufs, h.setStopped nofun⟩

theorem Sound.start (h : Sound poolSize s hand) (hpool : (s.priv d).ppool ≠ none) :
    Sound poolSize (s.setStopped d false) hand := by
  obtain ⟨lists, bufs, h⟩ := h
  have hne : lists (.pool d) ≠ [] :=
    mt (h.stock.chains.head_eq_none_iff (i := Slot.pool d)).mpr hpool
  exact ⟨lists, bufs, h.setStopped fun _ => hne⟩

/-- A buffer in a hand is there, and belongs to the device it is held for. -/
theorem Sound.get (h : Sound poolSize s (holding d a)) :
    ∃ pkt, s.heap a = some pkt ∧ pkt.dev = d := by
  obtain ⟨lists, bufs, h⟩ := h
  refine (h.stock.dev d a).mp ((h.place d).mem_iff.mp ?_)
  simp [holding]

/-- The interrupt goes through. -/
theorem Sound.interrupt (h : Sound poolSize s hand) (d : Dev) :
    ∃ s', napiInterrupt s d = some s' ∧ Sound poolSize s' hand := by
  obtain ⟨lists, bufs, h⟩ := h
  have hsome : ∃ s', napiInterrupt s d = some s' ∧ Same Priv.gate s s' := by
    rw [napiInterrupt, if_neg (by simp [h.unlocked])]
    split
    · exact ⟨_, rfl, same_setPriv (s := s) rfl⟩
    · exact ⟨_, rfl, same_setPriv rfl⟩
  obtain ⟨s', hs, hgate⟩ := hsome
  obtain ⟨hheap, hnext, hhead⟩ := napiInterrupt_lists hs
  exact ⟨s', hs, lists, bufs, h.same (h.stock.same hheap hnext hhead) hgate⟩

/-! ## transmission -/

/-- A started queue has a buffer to send. -/
theorem Sound.getTxBuffer (h : Sound poolSize s handsFree) (hst : (s.priv d).stopped = false) :
    ∃ s' a, getTxBuffer s d = some (s', some a) ∧ Sound poolSize s' (holding d a) := by
  obtain ⟨lists, bufs, h⟩ := h
  have hpool : (s.priv d).ppool ≠ none := fun hnone =>
    h.started d hst ((h.stock.chains.head_eq_none_iff (i := Slot.pool d)).mp hnone)
  obtain ⟨a, ha⟩ := Option.ne_none_iff_exists'.mp hpool
  obtain ⟨pkt, l, hget, hl, -⟩ := h.stock.chains.pop (i := Slot.pool d) ha
  obtain ⟨-, hstock⟩ := h.stock.takePool ha hget
  refine ⟨s.takePool d pkt.next, a, ?_, _, bufs, hstock, fun e => ?_,
    h.size, fun e => ?_, fun e he => ?_⟩
  · rw [Veth.getTxBuffer, h.unlocked d, ha]
    simp [hget]
  · refine (List.perm_iff_count.mpr fun x => ?_).trans (h.place e)
    by_cases hed : e = d
    · subst hed
      simp [holding, handsFree, hl, List.count_cons]
      omega
    · simp [holding, hed]
  · by_cases hed : e = d
    · subst hed
      simp [Sys.takePool, Sys.setPriv, h.unlocked]
    · simp [Sys.takePool, Sys.setPriv, hed, h.unlocked]
  · by_cases hed : e = d
    · subst hed
      simp only [Sys.takePool, Sys.setPriv, update_self, Bool.or_eq_false_iff] at he
      have hhead : (s.takePool e pkt.next).head (.pool e) ≠ none := by
        rw [Sys.head_takePool, update_self]
        exact Option.isNone_eq_false_iff.mp he.2 |> Option.isSome_iff_ne_none.mp
      exact mt hstock.chains.head_eq_none_iff.mpr hhead
    · simp only [Sys.takePool, Sys.setPriv, update_of_ne hed] at he
      simp only [update_of_ne (by simp [hed] : Slot.pool e ≠ .pool d)]
      exact h.started e he

/-- The store of a frame to a buffer. -/
theorem Sound.fill (h : Sound poolSize s hand) (hget : s.heap a = some pkt) (buf : List UInt8) :
    Sound poolSize (s.write a (pkt.fill buf)) hand := by
  obtain ⟨lists, bufs, h⟩ := h
  exact ⟨lists, bufs, h.same (h.stock.write hget rfl rfl) (same_refl _ _)⟩

/-- The buffer in hand is queued at the peer. -/
theorem Sound.enqueueBuf (h : Sound poolSize s (holding d a)) :
    ∃ s', enqueueBuf s d.peer a = some s' ∧ Sound poolSize s' handsFree := by
  obtain ⟨pkt, hget, -⟩ := h.get
  obtain ⟨lists, bufs, h⟩ := h
  have hout := h.stock.notMem_of_hand h.place (d := d) (a := a) (by simp [holding])
  refine ⟨s.putRx d.peer a pkt, ?_, _, bufs,
    h.move (h.stock.putRx hget hout) (fun e => ?_) (same_setPriv (s := s) rfl) fun e => ?_⟩
  · rw [Veth.enqueueBuf, h.unlocked, hget]
    rfl
  · refine (List.perm_iff_count.mpr fun x => ?_).trans (h.place e)
    by_cases hed : e = d
    · subst hed
      simp [holding, handsFree, List.count_cons]
    · have hpeer : e.peer ≠ d.peer := fun heq => hed (by rw [← e.peer_peer, heq, Dev.peer_peer])
      simp [holding, hed, hpeer]
  · rw [update_of_ne (by simp)]
    exact id

theorem Sound.raiseRx (h : Sound poolSize s hand) (d : Dev) :
    ∃ s', raiseRx s d = some s' ∧ Sound poolSize s' hand := by
  rw [Veth.raiseRx]
  split
  · exact (h.setStatus d _).interrupt d
  · exact ⟨s, rfl, h⟩

theorem Sound.raiseTx (h : Sound poolSize s hand) (lockup : Nat) (d : Dev) (len : Nat) :
    ∃ s', raiseTx lockup s d len = some s' ∧ Sound poolSize s' hand := by
  have hlen : Sound poolSize (s.setTxPacketlen d len) hand :=
    h.setPriv (Sys.head_setTxPacketlen ..) rfl
  rw [Veth.raiseTx]
  split
  · exact ⟨_, rfl, (hlen.setStatus d _).stop d⟩
  · exact (hlen.setStatus d _).interrupt d

/-- A buffer is sent, and the interrupts go through. -/
theorem Sound.sendBuffer (h : Sound poolSize s (holding d a)) (lockup : Nat) (buf : List UInt8) :
    ∃ s', sendBuffer lockup s buf d a = some s' ∧ Sound poolSize s' handsFree := by
  obtain ⟨pkt, hget, -⟩ := h.get
  obtain ⟨s₁, hs₁, h₁⟩ := (h.fill hget buf).enqueueBuf
  obtain ⟨s₂, hs₂, h₂⟩ := h₁.raiseRx d.peer
  obtain ⟨s₃, hs₃, h₃⟩ := h₂.raiseTx lockup d buf.length
  refine ⟨s₃, ?_, h₃⟩
  rw [Veth.sendBuffer, hget, Option.bind_eq_bind, Option.bind_some, hs₁, Option.bind_eq_bind,
    Option.bind_some, hs₂]
  exact hs₃

/-- A transmission on a queue that is started goes through. -/
theorem Sound.xmit (h : Sound poolSize s handsFree) (hst : (s.priv d).stopped = false)
    (lockup skb : Nat) (data : List UInt8) :
    ∃ s', dummvethXmit lockup s skb data d = some s' ∧ Sound poolSize s' handsFree := by
  have hskb : Sound poolSize (s.setSkb d skb) handsFree := h.setPriv (Sys.head_setSkb ..) rfl
  have hst' : ((s.setSkb d skb).priv d).stopped = false := by
    simpa [Sys.setSkb, Sys.setPriv] using hst
  rw [dummvethXmit, dummvethHwTx]
  split
  · exact ⟨_, rfl, hskb⟩
  · obtain ⟨s₁, a, hs₁, h₁⟩ := hskb.getTxBuffer hst'
    rw [hs₁, Option.bind_some]
    exact h₁.sendBuffer lockup _

/-! ## polls -/

/-- A packet that is queued is taken, with its buffer in hand. -/
theorem Sound.dequeueBuf (h : Sound poolSize s handsFree) (hrx : (s.priv d).rxQueue ≠ none) :
    ∃ s' a, dequeueBuf s d = some (s', some a) ∧ Sound poolSize s' (holding d.peer a) := by
  obtain ⟨lists, bufs, h⟩ := h
  obtain ⟨a, ha⟩ := Option.ne_none_iff_exists'.mp hrx
  obtain ⟨pkt, l, hget, hl, -⟩ := h.stock.chains.pop (i := Slot.rx d) ha
  obtain ⟨-, hstock⟩ := h.stock.takeRx ha hget
  refine ⟨s.setRxQueue d pkt.next, a, ?_, _, bufs,
    h.move hstock (fun e => ?_) (same_setPriv rfl) fun e => ?_⟩
  · rw [Veth.dequeueBuf, h.unlocked d, ha]
    simp [hget]
  · refine (List.perm_iff_count.mpr fun x => ?_).trans (h.place e)
    by_cases hed : e.peer = d
    · subst hed
      simp [holding, handsFree, hl, List.count_cons]
    · have hpeer : e ≠ d.peer := fun heq => hed (by rw [heq, Dev.peer_peer])
      simp [holding, hed, hpeer]
  · rw [update_of_ne (by simp)]
    exact id

/-- The buffer in hand is put back into the pool of its device. -/
theorem Sound.putBuffer (h : Sound poolSize s (holding d a)) :
    ∃ s', putBuffer s a = some s' ∧ Sound poolSize s' handsFree ∧
      (∃ pkt, s'.heap a = some pkt ∧ pkt.dev = d) ∧ (s'.priv d).ppool ≠ none := by
  obtain ⟨pkt, hget, rfl⟩ := h.get
  obtain ⟨lists, bufs, h⟩ := h
  have hout := h.stock.notMem_of_hand h.place (d := pkt.dev) (a := a) (by simp [holding])
  refine ⟨s.putPool pkt.dev a pkt, ?_, ⟨_, bufs, h.move (h.stock.putPool hget hout) (fun e => ?_)
    (same_setPriv (s := s) rfl) fun e => ?_⟩, ⟨_, update_self .., rfl⟩, ?_⟩
  · rw [Veth.putBuffer, hget, Option.bind_some, h.unlocked]
    rfl
  · refine (List.perm_iff_count.mpr fun x => ?_).trans (h.place e)
    by_cases hed : e = pkt.dev
    · subst hed
      simp [holding, handsFree, List.count_cons]
      omega
    · simp [holding, hed]
  · by_cases hed : e = pkt.dev
    · subst hed
      simp
    · simp [hed]
  · simp [Sys.putPool, Sys.setPriv]

theorem Sound.releaseBuffer (h : Sound poolSize s (holding d a)) :
    ∃ s', releaseBuffer s a = some s' ∧ Sound poolSize s' handsFree := by
  obtain ⟨s₁, hs₁, h₁, ⟨pkt, hget, rfl⟩, hpool⟩ := h.putBuffer
  rw [Veth.releaseBuffer, hs₁, Option.bind_some, hget, Option.map_some]
  refine ⟨_, rfl, ?_⟩
  split
  · exact h₁.start hpool
  · exact h₁

/-- The loop of a poll goes through. -/
theorem Sound.pollLoop (h : Sound poolSize s handsFree) (alloc : Nat → Bool) (d : Dev)
    (left : Nat) : ∃ r, pollLoop alloc d left s = some r ∧ Sound poolSize r.1 handsFree := by
  induction left generalizing s with
  | zero => exact ⟨_, rfl, h⟩
  | succ left ih =>
      rw [Veth.pollLoop]
      split
      · exact ⟨_, rfl, h⟩
      · rename_i hrx
        obtain ⟨s₁, a, hs₁, h₁⟩ := h.dequeueBuf hrx
        obtain ⟨pkt, hget, -⟩ := h₁.get
        have h₂ : Sound poolSize (s₁.receive d (alloc left) pkt.datalen) (holding d.peer a) :=
          h₁.setPriv (Sys.head_receive ..) rfl
        obtain ⟨s₃, hs₃, h₃⟩ := h₂.releaseBuffer
        rw [hs₁]
        simp only [Option.bind_eq_bind, Option.bind_some, hget, hs₃]
        exact ih h₃

/-- A poll goes through. -/
theorem Sound.poll (h : Sound poolSize s handsFree) (alloc : Nat → Bool) (budget : Nat) (d : Dev) :
    ∃ s', dummvethPoll alloc s budget d = some s' ∧ Sound poolSize s' handsFree := by
  obtain ⟨⟨s₁, left⟩, hs₁, h₁⟩ := h.pollLoop alloc d budget
  simp only [dummvethPoll, hs₁, Option.bind_some]
  split
  · have hagain : Sound poolSize (s₁.setScheduled d true) handsFree :=
      h₁.setPriv (Sys.head_setScheduled ..) rfl
    exact ⟨_, rfl, hagain⟩
  · obtain ⟨lists, bufs, h₁'⟩ := h₁
    have hlock : (s₁.priv d).lock = false := h₁'.unlocked d
    rw [if_neg (by simp [hlock])]
    exact ⟨s₁, rfl, lists, bufs, h₁'⟩

/-! ## timeouts -/

/-- The pool after its buffers `l` were freed. -/
def Sys.dropPool (s : Sys) (d : Dev) (l : List Addr) : Sys :=
  Sys.clearPool { s with heap := fun x => if x ∈ l then none else s.heap x } d

theorem Stock.teardownPool_eq (h : Stock s lists bufs) (d : Dev) :
    teardownPool s d = some (s.dropPool d (lists (.pool d))) := by
  have hfree := freeAll_of_chain (h.chains (.pool d)) (h.length_lt _)
  exact congrArg (Option.map _) hfree

/-- A pool that holds every buffer of its device is freed. -/
theorem Stock.dropPool (h : Stock s lists bufs) (hmem : ∀ x, x ∈ lists (.pool d) ↔ x ∈ bufs d)
    (hother : ∀ i, i ≠ .pool d → ∀ x ∈ lists i, x ∉ lists (.pool d)) :
    Stock (s.dropPool d (lists (.pool d))) (update lists (.pool d) [])
    (update bufs d []) where
  chains := by
    intro i
    rw [Sys.dropPool, Sys.head_clearPool]
    by_cases hi : i = .pool d
    · subst hi
      simp only [update_self]
      exact .nil
    · rw [update_of_ne hi, update_of_ne hi]
      exact (h.chains i).congr fun x hx e he =>
        ⟨e, by rw [← he]; exact if_neg (hother i hi x hx), rfl⟩
  dev := by
    intro e x
    have hheap : (s.dropPool d (lists (.pool d))).heap x = if x ∈ bufs d then
        none else s.heap x := by
      simp only [Sys.dropPool, Sys.clearPool, Sys.setPriv, hmem]
    rw [hheap]
    by_cases hx : x ∈ bufs d
    · rw [if_pos hx]
      by_cases hed : e = d
      · simp [hed]
      · simpa [hed] using fun he => hed (h.dev_unique he hx)
    · rw [if_neg hx, ← h.dev]
      by_cases hed : e = d
      · simp [hed, hx]
      · simp [hed]
  nodup := by
    intro e
    by_cases hed : e = d
    · simp [hed]
    · simp [hed, h.nodup]
  fresh := by
    intro x hx
    have hold : s.heap x = none := h.fresh x hx
    simp [Sys.dropPool, Sys.clearPool, Sys.setPriv, hold]

/-- With no buffer in flight, the pool is torn down and made again. -/
theorem Cycle.rebuild (h : Cycle poolSize s lists bufs handsFree) (hpos : 0 < poolSize)
    (hrx : lists (.rx d.peer) = []) :
    ∃ s', teardownPool s d = some s' ∧
      Sound poolSize ((setupPool s' d poolSize).setStopped d false) handsFree := by
  have hmem (x : Addr) : x ∈ lists (.pool d) ↔ x ∈ bufs d := by
    rw [← (h.place d).mem_iff, hrx]
    simp [handsFree]
  have hother (i : Slot) (hi : i ≠ .pool d) (x : Addr) (hx : x ∈ lists i) :
      x ∉ lists (.pool d) := by
    intro hfree
    have hd := (hmem x).mp hfree
    cases i with
    | pool e =>
        have he : x ∈ bufs e := (h.place e).mem_iff.mp (by simp [hx])
        exact hi (by rw [h.stock.dev_unique hd he])
    | rx e =>
        have he : x ∈ bufs e.peer := (h.place e.peer).mem_iff.mp (by simp [hx])
        rw [h.stock.dev_unique hd he, Dev.peer_peer] at hrx
        rw [hrx] at hx
        cases hx
  refine ⟨_, h.stock.teardownPool_eq d, ?_⟩
  obtain ⟨l, hlen, hstock⟩ := (h.stock.dropPool hmem hother).setupPool d poolSize
  obtain ⟨-, p, hpriv⟩ := setupPool_frame (s.dropPool d (lists (.pool d))) d poolSize
  simp only [update_self, Function.update_idem, List.append_nil] at hstock
  have hne : l ≠ [] := List.length_pos_iff.mp (hlen.symm ▸ hpos)
  have hgate : Same Priv.gate s (setupPool (s.dropPool d (lists (.pool d))) d poolSize) := by
    have hdrop : Same Priv.gate s (s.dropPool d (lists (.pool d))) := same_setPriv (s := s) rfl
    have hsetup : Same Priv.gate (s.dropPool d (lists (.pool d)))
        ((s.dropPool d (lists (.pool d))).setPriv d { (s.dropPool d (lists (.pool d))).priv d with
          ppool := p }) :=
      same_setPriv rfl
    intro e
    rw [hpriv]
    exact (hsetup e).trans (hdrop e)
  refine ⟨_, _, Cycle.setStopped ⟨hstock, fun e => ?_, fun e => ?_, fun e => ?_, fun e he => ?_⟩
    fun _ => ?_⟩
  · by_cases hed : e = d
    · subst hed
      simp [handsFree, hrx]
    · simpa [hed] using h.place e
  · by_cases hed : e = d
    · simp [hed, hlen]
    · simp [hed, h.size]
  · exact (congrArg Prod.fst (hgate e)).trans (h.unlocked e)
  · by_cases hed : e = d
    · simp [hed, hne]
    · simpa [hed] using h.started e ((congrArg Prod.snd (hgate e)).symm.trans he)
  · simpa using hne

/-- A timeout goes through while the peer has no packet queued. -/
theorem Sound.txTimeout (h : Sound poolSize s handsFree) (hpos : 0 < poolSize)
    (hrx : (s.priv d.peer).rxQueue = none) :
    ∃ s', dummvethTxTimeout poolSize s d = some s' ∧ Sound poolSize s' handsFree := by
  obtain ⟨s₁, hs₁, h₁⟩ := (h.setStatus d { (s.priv d).status with tx := true }).interrupt d
  have hhead : s₁.head = s.head := (napiInterrupt_lists hs₁).2.2.trans (Sys.head_setStatus ..)
  have h₂ : Sound poolSize (s₁.countTxError d) handsFree :=
    h₁.setPriv (Sys.head_countTxError ..) rfl
  obtain ⟨lists, bufs, h₂⟩ := h₂
  have hempty : lists (.rx d.peer) = [] := by
    refine h₂.stock.chains.head_eq_none_iff.mp ?_
    rw [Sys.head_countTxError, hhead]
    exact hrx
  obtain ⟨s₃, hs₃, h₃⟩ := h₂.rebuild hpos hempty
  refine ⟨_, ?_, h₃⟩
  have hlock := h₂.unlocked d
  simp only [dummvethTxTimeout, hs₁, Option.bind_eq_bind, Option.bind_some, hlock, hs₃]
  rfl

/-! ## the theorem -/

/-- One call that meets the conditions goes through. -/
theorem Sound.step {op : Op} (h : Sound poolSize s handsFree) (hpos : 0 < poolSize)
    (hxmit : Transmits s op) (hrestart : Restarts s op) :
    ∃ s', opStep lockup poolSize s op = some s' ∧ Sound poolSize s' handsFree := by
  cases op with
  | ndoStartXmit d skb data => exact h.xmit hxmit lockup skb data
  | poll d budget alloc => exact h.poll alloc budget d
  | ndoOpen d => exact ⟨_, rfl, h.start hrestart⟩
  | ndoStop d => exact ⟨_, rfl, h.stop d⟩
  | ndoTxTimeout d => exact h.txTimeout hpos hrestart

/-- After the setup every buffer is in its pool. -/
theorem sound_setup (hpos : 0 < poolSize) : Sound poolSize (setup poolSize) handsFree := by
  obtain ⟨lists, bufs, hstock, hd⟩ := stock_setup poolSize
  refine ⟨lists, bufs, hstock, fun d => ?_, fun d => (hd d).2.2, fun d => ?_, fun d _ => ?_⟩
  · rw [(hd d).2.1, (hd d.peer).1]
    simp [handsFree]
  · obtain ⟨p, hp⟩ := setup_priv poolSize d
    rw [hp]
    rfl
  · rw [(hd d).2.1]
    exact List.length_pos_iff.mp ((hd d).2.2.symm ▸ hpos)

/-- In a sequence of calls in which the kernel transmits only while the queue is
started, opens a device only with a buffer in its pool and lets a transmission
time out only with none of the device's buffers in flight: every call returns,
each device has `pool_size` buffers, and a started queue has one in its pool. -/
theorem pool_bound (lockup poolSize : Nat) (hpos : 0 < poolSize) (ops : List Op)
    (hmeets : (opSystem lockup poolSize).Meets (fun s op => Transmits s op ∧
      Restarts s op) (setup poolSize) ops) :
    ∃ s, (opSystem lockup poolSize).run (setup poolSize) ops = some s ∧
      (∀ d, (liveBuffers s d).length = poolSize) ∧
      ∀ d, (s.priv d).stopped = false → (s.priv d).ppool ≠ none := by
  obtain ⟨s, hrun, lists, bufs, h⟩ :=
    hmeets.run (I := fun s => Sound poolSize s handsFree) (fun _ _ h hP => h.step hpos hP.1 hP.2)
      (sound_setup hpos)
  refine ⟨s, hrun, fun d => (h.stock.live_perm d).length_eq.symm.trans (h.size d),
    fun d hst hnone => ?_⟩
  exact h.started d hst ((h.stock.chains.head_eq_none_iff (i := Slot.pool d)).mp hnone)

/-- A frame sent and received, a timeout, and a stop and a start. -/
def restarted : List Op :=
  [.ndoStartXmit .dummveth0 0 [], .poll .dummveth1 2 fun _ => true, .ndoTxTimeout .dummveth0,
    .ndoStop .dummveth0, .ndoOpen .dummveth0]

theorem pool_bound_restarted :
    ∃ s, (opSystem 0 1).run (setup 1) restarted = some s ∧ (∀ d, (liveBuffers s d).length = 1) ∧
      (s.priv .dummveth0).ppool ≠ none := by
  obtain ⟨s, hrun, hlive, hpool⟩ := pool_bound 0 1 (by decide) restarted (by decide)
  refine ⟨s, hrun, hlive, hpool .dummveth0 ?_⟩
  cases hrun
  rfl

/-- A timeout with the buffer in flight makes a second one, and a device that is
stopped and opened with its buffer in flight may transmit with an empty pool. -/
theorem restart_in_flight :
    ((opSystem 0 1).Meets Transmits (setup 1) [.ndoStartXmit .dummveth0 0 [],
      .ndoTxTimeout .dummveth0] ∧
      ∃ s, (opSystem 0 1).run (setup 1)
      [.ndoStartXmit .dummveth0 0 [], .ndoTxTimeout .dummveth0] = some s ∧
        (liveBuffers s .dummveth0).length = 2) ∧
    (opSystem 0 1).Meets Transmits (setup 1)
        [.ndoStartXmit .dummveth0 0 [], .ndoStop .dummveth0, .ndoOpen .dummveth0] ∧
      ∃ s, (opSystem 0 1).run (setup 1)
          [.ndoStartXmit .dummveth0 0 [], .ndoStop .dummveth0, .ndoOpen .dummveth0] = some s ∧
        (s.priv .dummveth0).stopped = false ∧ (s.priv .dummveth0).ppool = none :=
  ⟨⟨by decide, _, rfl, rfl⟩, by decide, _, rfl, rfl, rfl⟩

end Linuxyz.Veth
