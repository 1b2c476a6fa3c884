import Linuxyz.Veth.Interleave
import Linuxyz.Veth.Stock
import Mathlib.Data.List.Perm.Basic

/-!
# Linuxyz.Veth.Conserve

Where the packet buffers are.

Every buffer belongs to the device whose pool it was made for, and is in that
pool, in the receive queue of the peer, in the hand of a `dummveth_xmit` on the
device, or in the hand of a `dummveth_poll` on the peer.  `Own` says so: the
four places together are a permutation of the buffers of the device.  Its step
lemma has one case for each way a buffer moves, and one for all other steps.
-/

namespace Linuxyz.Veth

open Function (update update_self update_of_ne)

variable {s s' : Sys} {d e : Dev}

/-! ## hands -/

/-- The packet buffer a `dummveth_xmit` holds. -/
def XmitPc.hand : XmitPc → Option Addr
  | .fill a => some a
  | .enqueue a => some a
  | _ => none

/-- The packet buffer a `dummveth_poll` holds. -/
def PollPc.hand : PollPc → Option Addr
  | .receive a => some a
  | .release a => some a
  | _ => none

/-- Where the packet buffers of device `d` are. -/
def places (n : Net) (lists : Slot → List Addr) (d : Dev) : List Addr :=
  lists (.pool d) ++ lists (.rx d.peer) ++ (n.xmit d).pc.hand.toList ++
    (n.poll d.peer).pc.hand.toList

/-- Each packet buffer of a device is in one place. -/
structure Own (n : Net) (lists : Slot → List Addr) (bufs : Dev → List Addr) : Prop where
  stock : Stock n.sys lists bufs
  place : ∀ d, (places n lists d).Perm (bufs d)

variable {n n' : Net} {lists : Slot → List Addr} {bufs : Dev → List Addr} {a : Addr} {pkt : Packet}

theorem Own.dev_eq (h : Own n lists bufs) (ha : a ∈ places n lists d)
    (hget : n.sys.heap a = some pkt) :
    pkt.dev = d := h.stock.dev_eq ((h.place d).mem_iff.mp ha) hget

theorem Own.dev_unique (h : Own n lists bufs) (ha : a ∈ places n lists d)
    (ha' : a ∈ places n lists e) : d = e :=
  h.stock.dev_unique ((h.place d).mem_iff.mp ha) ((h.place e).mem_iff.mp ha')

/-- The packet buffers of device `d` that are in a hand. -/
def hands (n : Net) (d : Dev) : List Addr :=
  (n.xmit d).pc.hand.toList ++ (n.poll d.peer).pc.hand.toList

/-- A buffer in a hand is in no list. -/
theorem Own.notMem_of_hands (h : Own n lists bufs) (ha : a ∈ hands n d) (i : Slot) :
    a ∉ lists i := by
  refine h.stock.notMem_of_hand (fun e => ?_) ha i
  rw [hands, ← List.append_assoc]
  exact h.place e

theorem Own.notMem_of_xmit (h : Own n lists bufs) (ha : (n.xmit d).pc.hand = some a) (i : Slot) :
    a ∉ lists i :=
  h.notMem_of_hands (d := d) (by simp [hands, ha]) i

theorem Own.notMem_of_poll (h : Own n lists bufs) (ha : (n.poll d).pc.hand = some a) (i : Slot) :
    a ∉ lists i :=
  h.notMem_of_hands (d := d.peer) (by simp [hands, ha]) i

/-! ## how the lists change -/

/-- The lists after a step. -/
def shift (n : Net) (lists : Slot → List Addr) : Act → Slot → List Addr
  | .runXmit d =>
      match (n.xmit d).pc with
      | .get =>
          if (n.xmit d).buf.length < headersLen then lists
          else update lists (.pool d) (lists (.pool d)).tail
      | .enqueue a => update lists (.rx d.peer) (a :: lists (.rx d.peer))
      | _ => lists
  | .runPoll d _ =>
      match (n.poll d).pc with
      | .dequeue => update lists (.rx d) (lists (.rx d)).tail
      | .release a => update lists (.pool d.peer) (a :: lists (.pool d.peer))
      | _ => lists
  | _ => lists

/-- A step that moves no buffer. -/
theorem Own.same (h : Own n lists bufs) (hstock : Stock n'.sys lists bufs)
    (hxmit : ∀ e, (n'.xmit e).pc.hand = (n.xmit e).pc.hand)
    (hpoll : ∀ e, (n'.poll e).pc.hand = (n.poll e).pc.hand) : Own n' lists bufs where
  stock := hstock
  place := by
    intro e
    rw [places, hxmit, hpoll]
    exact h.place e

theorem hand_update_xmit {x : Xmit} (h : x.pc.hand = (n.xmit d).pc.hand) (e : Dev) :
    (update n.xmit d x e).pc.hand = (n.xmit e).pc.hand := by
  by_cases hed : e = d
  · subst hed
    rw [update_self, h]
  · rw [update_of_ne hed]

theorem hand_update_poll {q : Poll} (h : q.pc.hand = (n.poll d).pc.hand) (e : Dev) :
    (update n.poll d q e).pc.hand = (n.poll e).pc.hand := by
  by_cases hed : e = d
  · subst hed
    rw [update_self, h]
  · rw [update_of_ne hed]

theorem Own.onXmit (h : Own n lists bufs) (hstock : Stock s lists bufs)
    (hhand : pc.hand = (n.xmit d).pc.hand) :
    Own (n.onXmit d s pc) lists bufs := h.same hstock (hand_update_xmit hhand) fun _ => rfl

theorem Own.onPoll (h : Own n lists bufs) (hstock : Stock s lists bufs)
    (hhand : pc.hand = (n.poll d).pc.hand) :
    Own (n.onPoll d s pc) lists bufs := h.same hstock (fun _ => rfl) (hand_update_poll hhand)

/-- A transmission takes the first buffer out of the pool. -/
theorem Own.take (h : Own n lists bufs) (hpc : (n.xmit d).pc = .get)
    (hpool : (n.sys.priv d).ppool = some a) (hget : n.sys.heap a = some pkt) :
    Own (n.onXmit d (n.sys.takePool d pkt.next) (.fill a))
      (update lists (.pool d) (lists (.pool d)).tail) bufs := by
  obtain ⟨hl, hstock⟩ := h.stock.takePool hpool hget
  refine ⟨hstock, fun e => (List.perm_iff_count.mpr fun x => ?_).trans (h.place e)⟩
  by_cases hed : e = d
  · subst hed
    have hcount := congrArg (List.count x) hl
    simp only [List.count_cons, beq_iff_eq] at hcount
    simp [places, Net.onXmit, hpc, XmitPc.hand, List.count_cons]
    omega
  · simp [places, Net.onXmit, hed]

/-- A transmission puts its buffer in front of the receive queue of the peer. -/
theorem Own.enqueue (h : Own n lists bufs) (hpc : (n.xmit d).pc = .enqueue a)
    (hget : n.sys.heap a = some pkt) :
    Own (n.onXmit d (n.sys.putRx d.peer a pkt) .rxTest)
      (update lists (.rx d.peer) (a :: lists (.rx d.peer))) bufs where
  stock := h.stock.putRx hget (h.notMem_of_xmit (by rw [hpc]; rfl))
  place := by
    refine fun e => (List.perm_iff_count.mpr fun x => ?_).trans (h.place e)
    by_cases hed : e = d
    · subst hed
      simp [places, Net.onXmit, hpc, XmitPc.hand, List.count_cons]
      omega
    · have hpeer : e.peer ≠ d.peer := fun heq => hed (by rw [← e.peer_peer, heq, Dev.peer_peer])
      simp [places, Net.onXmit, hed, hpeer]

/-- A poll takes the first buffer out of the receive queue. -/
theorem Own.dequeue (h : Own n lists bufs) (hpc : (n.poll d).pc = .dequeue)
    (hrx : (n.sys.priv d).rxQueue = some a) (hget : n.sys.heap a = some pkt) :
    Own (n.takeRx d (n.sys.setRxQueue d pkt.next) a pkt)
      (update lists (.rx d) (lists (.rx d)).tail) bufs := by
  obtain ⟨hl, hstock⟩ := h.stock.takeRx hrx hget
  refine ⟨hstock, fun e => (List.perm_iff_count.mpr fun x => ?_).trans (h.place e)⟩
  by_cases hed : e.peer = d
  · subst hed
    have hcount := congrArg (List.count x) hl
    simp only [List.count_cons, beq_iff_eq] at hcount
    simp [places, Net.takeRx, hpc, PollPc.hand, List.count_cons]
    omega
  · simp [places, Net.takeRx, hed]

/-- The buffer a poll puts back belongs to the peer. -/
theorem Own.release_dev (h : Own n lists bufs) (hhand : (n.poll d).pc.hand = some a)
    (hget : n.sys.heap a = some pkt) : pkt.dev = d.peer := h.dev_eq (by simp [places, hhand]) hget

/-- A poll gives its buffer back to the pool that it came from. -/
theorem Own.release (h : Own n lists bufs) (hpc : (n.poll d).pc = .release a)
    (hget : n.sys.heap a = some pkt) :
    Own (n.onPoll d (n.sys.putPool pkt.dev a pkt) (.stoppedTest a))
      (update lists (.pool d.peer) (a :: lists (.pool d.peer))) bufs := by
  have hhand : (n.poll d).pc.hand = some a := by rw [hpc]; rfl
  rw [h.release_dev hhand hget]
  refine ⟨h.stock.putPool hget (h.notMem_of_poll hhand),
    fun e => (List.perm_iff_count.mpr fun x => ?_).trans (h.place e)⟩
  by_cases hed : e.peer = d
  · subst hed
    simp [places, Net.onPoll, hpc, PollPc.hand, List.count_cons]
    omega
  · have hpeer : e ≠ d.peer := fun heq => hed (by rw [heq, Dev.peer_peer])
    simp [places, Net.onPoll, hed, hpeer]

/-- Every step keeps each buffer in one place. -/
theorem Own.step {act : Act} (h : Own n lists bufs) (hmove : Move lockup n act n') :
    Own n' (shift n lists act) bufs := by
  cases hmove with
  | callXmit hpc => exact h.same h.stock (hand_update_xmit (by rw [hpc]; rfl)) fun _ => rfl
  | enter hpc =>
      simp only [shift, hpc]
      exact h.onXmit (h.stock.same rfl rfl (Sys.head_setSkb ..)) (by rw [hpc]; rfl)
  | short hpc hlt =>
      simp only [shift, hpc, if_pos hlt]
      exact h.onXmit h.stock (by rw [hpc]; rfl)
  | @outOfPool d hpc hlen hlock hpool =>
      have hnil : lists (.pool d) = [] := h.stock.chains.head_eq_none_iff.mp hpool
      have hsame : update lists (.pool d) (lists (.pool d)).tail = lists := by
        rw [hnil, List.tail_nil, ← hnil, Function.update_eq_self]
      simp only [shift, hpc, hsame, ite_self]
      exact h.onXmit (h.stock.same rfl rfl (Sys.head_keepLock ..)) (by rw [hpc]; rfl)
  | take hpc hlen hlock hpool hget =>
      simp only [shift, hpc, if_neg (Nat.not_lt.mpr hlen)]
      exact h.take hpc hpool hget
  | fill hpc hget =>
      simp only [shift, hpc]
      exact h.onXmit (h.stock.write hget rfl rfl) (by rw [hpc]; rfl)
  | enqueue hpc hlock hget =>
      simp only [shift, hpc]
      exact h.enqueue hpc hget
  | rxOn hpc _ | rxOff hpc _ | rxLoad hpc | txLoad hpc | noLockup hpc _ =>
      simp only [shift, hpc]
      exact h.onXmit h.stock (by rw [hpc]; rfl)
  | rxStore hpc | txStore hpc =>
      simp only [shift, hpc]
      exact h.onXmit (h.stock.same rfl rfl (Sys.head_setStatus ..)) (by rw [hpc]; rfl)
  | rxIntr hpc hs | txIntr hpc hs =>
      obtain ⟨hheap, hnext, hhead⟩ := napiInterrupt_lists hs
      simp only [shift, hpc]
      exact h.onXmit (h.stock.same hheap hnext hhead) (by rw [hpc]; rfl)
  | txLen hpc =>
      simp only [shift, hpc]
      exact h.onXmit (h.stock.same rfl rfl (Sys.head_setTxPacketlen ..)) (by rw [hpc]; rfl)
  | lockUp hpc _ =>
      simp only [shift, hpc]
      exact h.onXmit (h.stock.same rfl rfl (Sys.head_setStopped ..)) (by rw [hpc]; rfl)
  | callPoll hpc =>
      exact h.same (h.stock.same rfl rfl (Sys.head_setScheduled ..)) (fun _ => rfl)
        (hand_update_poll (by rw [hpc]; rfl))
  | more hpc _ _ | done hpc _ | started hpc _ _ | stopped hpc _ _ | others hpc _ _
  | alone hpc _ _ | complete hpc _ _ =>
      simp only [shift, hpc]
      exact h.onPoll h.stock (by rw [hpc]; rfl)
  | dequeue hpc hlock hrx hget =>
      simp only [shift, hpc]
      exact h.dequeue hpc hrx hget
  | receive hpc hget =>
      simp only [shift, hpc]
      exact h.same (h.stock.same rfl rfl (Sys.head_receive ..)) (fun _ => rfl)
        (hand_update_poll (by rw [hpc]; rfl))
  | release hpc hget hlock =>
      simp only [shift, hpc]
      exact h.release hpc hget
  | wake hpc _ =>
      simp only [shift, hpc]
      exact h.onPoll (h.stock.same rfl rfl (Sys.head_setStopped ..)) (by rw [hpc]; rfl)
  | again hpc _ =>
      simp only [shift, hpc]
      exact h.onPoll (h.stock.same rfl rfl (Sys.head_setScheduled ..)) (by rw [hpc]; rfl)

theorem own_start (poolSize : Nat) :
    ∃ lists bufs, Own (.start poolSize) lists bufs ∧
      ∀ d, lists (.rx d) = [] ∧ lists (.pool d) = bufs d ∧ (bufs d).length = poolSize := by
  obtain ⟨lists, bufs, hstock, hd⟩ := stock_setup poolSize
  refine ⟨lists, bufs, ⟨hstock, fun d => ?_⟩, hd⟩
  simp [places, Net.start, XmitPc.hand, PollPc.hand, hd]

/-! ## what a poll sees -/

/-- A poll that is about to dequeue finds a packet, and it has dequeued as many
packets as it counts, at most its budget. -/
def Poll.Ok (rxQueue : Option Addr) (q : Poll) : Prop :=
  match q.pc with
  | .dequeue => rxQueue ≠ none ∧ q.dequeued = q.npackets ∧ q.npackets < q.budget
  | .receive _ => q.dequeued = q.npackets + 1 ∧ q.npackets < q.budget
  | _ => q.dequeued = q.npackets ∧ q.npackets ≤ q.budget

def PollsOk (n : Net) : Prop := ∀ d, (n.poll d).Ok (n.sys.head (.rx d))

theorem Poll.Ok.mono {q : Poll} (h : q.Ok rxQueue) (hrx : rxQueue ≠ none → rxQueue' ≠ none) :
    q.Ok rxQueue' := by
  unfold Poll.Ok at h ⊢
  split at h
  · exact ⟨hrx h.1, h.2⟩
  · exact h
  · exact h

/-- A step of `dummveth_xmit`. -/
theorem PollsOk.xmit (h : PollsOk n) (hpoll : n'.poll = n.poll) (hhead : n'.sys.head = n.sys.head) :
    PollsOk n' := by
  intro d
  rw [hpoll, hhead]
  exact h d

/-- A step of a poll on `d`. -/
theorem PollsOk.poll {q : Poll} (h : PollsOk n) (hpoll : n'.poll = update n.poll d q)
    (hhead : n'.sys.head = n.sys.head) (hq : q.Ok (n.sys.head (.rx d))) : PollsOk n' := by
  intro e
  rw [hpoll, hhead]
  by_cases hed : e = d
  · subst hed
    rw [update_self]
    exact hq
  · rw [update_of_ne hed]
    exact h e

/-- The poll has the packet counted that it dequeued, and is not about to
dequeue another. -/
def PollPc.Counted : PollPc → Prop
  | .dequeue => False
  | .receive _ => False
  | _ => True

theorem Poll.ok_iff {q : Poll} (h : q.pc.Counted) :
    q.Ok rxQueue ↔ q.dequeued = q.npackets ∧ q.npackets ≤ q.budget := by
  unfold Poll.Ok
  split <;> simp_all [PollPc.Counted]

theorem PollsOk.goto (h : PollsOk n) (hhead : s.head = n.sys.head) (hold : (n.poll d).pc.Counted)
    (hnew : pc.Counted) : PollsOk (n.onPoll d s pc) :=
  h.poll rfl hhead ((Poll.ok_iff hnew).mpr ((Poll.ok_iff hold).mp (h d)))

/-- One step of any thread. -/
theorem PollsOk.step {act : Act} (h : PollsOk n) (hmove : Move lockup n act n') : PollsOk n' := by
  cases hmove with
  | callXmit _ | short _ _ | fill _ _ | rxOn _ _ | rxOff _ _ | rxLoad _ | txLoad _ | noLockup _ _ =>
      exact h.xmit rfl rfl
  | enter _ => exact h.xmit rfl (Sys.head_setSkb ..)
  | outOfPool _ _ _ _ => exact h.xmit rfl (Sys.head_keepLock ..)
  | take _ _ _ _ _ =>
      intro e
      simp only [Net.onXmit, Sys.head_takePool,
        update_of_ne (by simp : Slot.rx e ≠ .pool _)]
      exact h e
  | @enqueue d a _ _ _ _ =>
      intro e
      refine (h e).mono fun hne => ?_
      simp only [Net.onXmit, Sys.head_putRx]
      by_cases hed : Slot.rx e = .rx d.peer
      · simp [hed]
      · rw [update_of_ne hed]
        exact hne
  | rxStore _ | txStore _ => exact h.xmit rfl (Sys.head_setStatus ..)
  | rxIntr _ hs | txIntr _ hs => exact h.xmit rfl (napiInterrupt_lists hs).2.2
  | txLen _ => exact h.xmit rfl (Sys.head_setTxPacketlen ..)
  | lockUp _ _ => exact h.xmit rfl (Sys.head_setStopped ..)
  | callPoll _ => exact h.poll rfl (Sys.head_setScheduled ..) ⟨rfl, Nat.zero_le _⟩
  | @more d _ hpc hlt hrx =>
      have hd := h d
      simp only [Poll.Ok, hpc] at hd
      exact h.poll rfl rfl ⟨hrx, hd.1, hlt⟩
  | done hpc _ | started hpc _ _ | stopped hpc _ _ | others hpc _ _ | alone hpc _ _
  | complete hpc _ _ => exact h.goto rfl (by rw [hpc]; trivial) trivial
  | @dequeue d a pkt _ hpc _ hrx hget =>
      have hd := h d
      simp only [Poll.Ok, hpc] at hd
      intro e
      by_cases hed : e = d
      · subst hed
        simp only [Net.takeRx, update_self]
        exact ⟨congrArg (· + 1) hd.2.1, hd.2.2⟩
      · have hslot : Slot.rx e ≠ .rx d := fun heq => hed (Slot.rx.inj heq)
        simp only [Net.takeRx, Sys.head_setRxQueue, update_of_ne hed,
          update_of_ne hslot]
        exact h e
  | @receive d a pkt _ hpc _ =>
      have hd := h d
      simp only [Poll.Ok, hpc] at hd
      exact h.poll rfl (Sys.head_receive ..) ⟨hd.1, hd.2⟩
  | @release d a pkt _ hpc _ _ =>
      have hd := h d
      simp only [Poll.Ok, hpc] at hd
      intro e
      by_cases hed : e = d
      · subst hed
        simp only [Net.onPoll, update_self]
        exact hd
      · simp only [Net.onPoll, Sys.head_putPool, update_of_ne hed,
          update_of_ne (by simp : Slot.rx e ≠ .pool _)]
        exact h e
  | wake hpc _ => exact h.goto (Sys.head_setStopped ..) (by rw [hpc]; trivial) trivial
  | again hpc _ => exact h.goto (Sys.head_setScheduled ..) (by rw [hpc]; trivial) trivial

/-! ## the theorem -/

/-- Every buffer is in one place, and the polls are within bounds. -/
def Kept (poolSize : Nat) (n : Net) : Prop :=
  ∃ lists bufs, Own n lists bufs ∧ (∀ d, (bufs d).length = poolSize) ∧ PollsOk n

/-- A transmission on `dummveth0` up to the copy of the frame. -/
def sending : List Act := [.xmit .dummveth0 [], .runXmit .dummveth0, .runXmit .dummveth0]

end Linuxyz.Veth
