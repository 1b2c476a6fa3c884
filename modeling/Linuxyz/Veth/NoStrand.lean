import Linuxyz.Veth.Flow
import Linuxyz.Veth.Interrupt

/-!
# Linuxyz.Veth.NoStrand

Where the frames are, and what is left when nothing runs any more.

`Frames` says that the frames handed to `dummveth_xmit` on a device are those
its peer has dequeued, those in the receive queue of the peer, and the one a
transmission has still to queue.  With the account of the socket buffers and of
the receive interrupts (`Tx`, `Rx`) it gives `quiet_delivered`.
-/

namespace Linuxyz.Veth

open Function (update update_self update_of_ne)

variable {s s' : Sys} {d e : Dev} {n n' : Net} {lists lists' : Slot → List Addr}
    {bufs : Dev → List Addr}
  {heap heap' : Addr → Option Packet}

/-! ## frames -/

/-- The frames in a list of packets. -/
def frames (heap : Addr → Option Packet) (l : List Addr) : List (List UInt8) :=
  l.filterMap fun a => (heap a).map Packet.frame

theorem frames_congr {l : List Addr}
    (h : ∀ a ∈ l, (heap' a).map Packet.frame = (heap a).map Packet.frame) :
    frames heap' l = frames heap l := List.filterMap_congr h

theorem frames_cons (hget : heap a = some pkt) (l : List Addr) :
    frames heap (a :: l) = pkt.frame :: frames heap l := by
  simp [frames, hget]

/-- The frame that a transmission has still to queue. -/
def Xmit.held (x : Xmit) : List (List UInt8) :=
  match x.pc with
  | .enter _ | .get | .fill _ | .enqueue _ => [x.buf]
  | _ => []

structure Frames (n : Net) (lists : Slot → List Addr) : Prop where
  perm :
      ∀ d, (n.received d ++ frames n.sys.heap (lists (.rx d)) ++ (n.xmit d.peer).held).Perm
        (n.sent d.peer)
  filled : ∀ d a, (n.xmit d).pc = .enqueue a → (n.sys.heap a).map Packet.frame = some (n.xmit d).buf

/-- A step that moves no frame. -/
theorem Frames.same (h : Frames n lists)
    (hheap : ∀ a, (n'.sys.heap a).map Packet.frame = (n.sys.heap a).map Packet.frame)
    (hlists : ∀ d, lists' (.rx d) = lists (.rx d)) (hreceived : n'.received = n.received)
    (hsent : n'.sent = n.sent) (hheld : ∀ d, (n'.xmit d).held = (n.xmit d).held)
    (hfilled : ∀ d a, (n'.xmit d).pc = .enqueue a → n'.xmit d = n.xmit d) : Frames n' lists' where
  perm := by
    intro d
    rw [hreceived, hsent, hheld, hlists, frames_congr fun a _ => hheap a]
    exact h.perm d
  filled := by
    intro d a hpc
    have hx := hfilled d a hpc
    rw [hx] at hpc ⊢
    exact (hheap a).trans (h.filled d a hpc)

/-- A step of a transmission that moves no frame. -/
theorem Frames.onXmit (h : Frames n lists) (hheap : s.heap = n.sys.heap)
    (hlists : ∀ d, lists' (.rx d) = lists (.rx d))
    (hheld : ({ n.xmit d with pc := pc } : Xmit).held = (n.xmit d).held)
    (hpc : ∀ a, pc ≠ .enqueue a) : Frames (n.onXmit d s pc) lists' := by
  refine h.same (fun a => by rw [Net.onXmit, hheap]) hlists rfl rfl (fun e => ?_) fun e a he => ?_
  · by_cases hed : e = d
    · subst hed
      simp only [Net.onXmit, update_self, hheld]
    · simp only [Net.onXmit, update_of_ne hed]
  · by_cases hed : e = d
    · subst hed
      simp only [Net.onXmit, update_self] at he
      exact absurd he (hpc a)
    · simp only [Net.onXmit, update_of_ne hed]

theorem map_frame_update (hget : heap a = some pkt) (hframe : pkt'.frame = pkt.frame) (x : Addr) :
    (update heap a (some pkt') x).map Packet.frame = (heap x).map Packet.frame := by
  by_cases hxa : x = a
  · subst hxa
    simp [hget, hframe]
  · rw [update_of_ne hxa]

/-- A new transmission holds its frame. -/
theorem Frames.callXmit (h : Frames n lists) (hpc : (n.xmit d).pc = .idle) (data : List UInt8) :
    Frames (n.callXmit d data) lists where
  perm := by
    intro e
    by_cases hed : e.peer = d
    · subst hed
      have hold := h.perm e
      simp only [Xmit.held, hpc, List.append_nil] at hold
      simp only [Net.callXmit, update_self, Xmit.held]
      exact hold.append_right _
    · simp only [Net.callXmit, update_of_ne hed]
      exact h.perm e
  filled := by
    intro e a he
    by_cases hed : e = d
    · subst hed
      simp [Net.callXmit] at he
    · simp only [Net.callXmit, update_of_ne hed] at he ⊢
      exact h.filled e a he

/-- The frame is copied to a buffer that is in no queue. -/
theorem Frames.fill (h : Frames n lists) (hown : Own n lists bufs) (hpc : (n.xmit d).pc = .fill a)
    (hget : n.sys.heap a = some pkt) :
    Frames (n.onXmit d (n.sys.write a (pkt.fill (n.xmit d).buf)) (.enqueue a)) lists where
  perm := by
    intro e
    have hout : a ∉ lists (.rx e) := hown.notMem_of_xmit (by rw [hpc]; rfl) _
    have hframes :
        frames (update n.sys.heap a (some (pkt.fill (n.xmit d).buf))) (lists (.rx e)) =
        frames n.sys.heap (lists (.rx e)) := by
      refine frames_congr fun x hx => ?_
      rw [update_of_ne (ne_of_mem_of_not_mem hx hout)]
    have hold := h.perm e
    simp only [Net.onXmit, Sys.write, hframes]
    by_cases hed : e.peer = d
    · subst hed
      simpa only [update_self, Xmit.held, hpc] using hold
    · simpa only [update_of_ne hed] using hold
  filled := by
    intro e b he
    by_cases hed : e = d
    · subst hed
      simp only [Net.onXmit, update_self, XmitPc.enqueue.injEq] at he
      subst he
      simp [Net.onXmit, Sys.write]
    · simp only [Net.onXmit, update_of_ne hed] at he ⊢
      -- the buffers of two transmissions differ, since their owners do
      have hne : b ≠ a := by
        rintro rfl
        have hmine : b ∈ places n lists d := by simp [places, hpc, XmitPc.hand]
        have htheirs : b ∈ places n lists e := by simp [places, he, XmitPc.hand]
        exact hed (hown.dev_unique htheirs hmine)
      simp only [Sys.write, update_of_ne hne]
      exact h.filled e b he

/-- The frame goes from the transmission into the queue of the peer. -/
theorem Frames.enqueue (h : Frames n lists) (hpc : (n.xmit d).pc = .enqueue a)
    (hget : n.sys.heap a = some pkt) :
    Frames (n.onXmit d (n.sys.putRx d.peer a pkt) .rxTest)
      (update lists (.rx d.peer) (a :: lists (.rx d.peer))) := by
  have hheap (x : Addr) :
      ((n.sys.putRx d.peer a pkt).heap x).map Packet.frame = (n.sys.heap x).map Packet.frame := by
    refine map_frame_update hget ?_ x
    rfl
  refine ⟨fun e => ?_, fun e b he => ?_⟩
  · have hold := h.perm e
    simp only [Net.onXmit, frames_congr fun x _ => hheap x]
    by_cases hed : e.peer = d
    · subst hed
      have hframe := h.filled e.peer a hpc
      rw [hget, Option.map_some, Option.some.injEq] at hframe
      simp only [Xmit.held, hpc, List.append_assoc] at hold
      simp only [Dev.peer_peer, update_self, frames_cons hget, Xmit.held, hframe,
        List.append_nil]
      exact ((List.perm_append_singleton _ _).symm.append_left _).trans hold
    · have hslot : Slot.rx e ≠ .rx d.peer := fun heq => hed (by rw [Slot.rx.inj heq, Dev.peer_peer])
      simpa only [update_of_ne hed, update_of_ne hslot] using hold
  · by_cases hed : e = d
    · subst hed
      simp [Net.onXmit] at he
    · simp only [Net.onXmit, update_of_ne hed] at he ⊢
      exact (hheap b).trans (h.filled e b he)

/-- The frame goes from the queue to those that were received. -/
theorem Frames.dequeue (h : Frames n lists) (hown : Own n lists bufs)
    (hrx : (n.sys.priv d).rxQueue = some a) (hget : n.sys.heap a = some pkt) :
    Frames (n.takeRx d (n.sys.setRxQueue d pkt.next) a pkt)
    (update lists (.rx d) (lists (.rx d)).tail) where
  perm := by
    intro e
    have hold := h.perm e
    by_cases hed : e = d
    · subst hed
      rw [(hown.stock.takeRx hrx hget).1, frames_cons hget] at hold
      simpa only [Net.takeRx, Sys.setRxQueue, Sys.setPriv, update_self, List.append_assoc,
        List.cons_append, List.nil_append] using hold
    · have hslot : Slot.rx e ≠ .rx d := fun heq => hed (Slot.rx.inj heq)
      simpa only [Net.takeRx, Sys.setRxQueue, Sys.setPriv, update_of_ne hed,
        update_of_ne hslot]
        using hold
  filled := h.filled

/-- Every step that meets the two conditions keeps the account of the frames. -/
theorem Frames.step {act : Act} (h : Frames n lists) (hown : Own n lists bufs) (htx : Tx n)
    (hmove : Move 0 n act n') (hpooled : Pooled n act) : Frames n' (shift n lists act) := by
  cases hmove with
  | callXmit hpc => exact h.callXmit hpc _
  | enter hpc | rxOn hpc _ | rxOff hpc _ | rxLoad hpc | rxStore hpc | txLen hpc | txLoad hpc
  | txStore hpc | lockUp hpc _ | noLockup hpc _ =>
      simp only [shift, hpc]
      exact h.onXmit rfl (fun _ => rfl) (by simp only [Xmit.held, hpc]) (by rintro _ ⟨⟩)
  | @short d hpc hlt =>
      have hroom := (htx.dev d).room (by rw [hpc]; simp)
      exact absurd hlt (Nat.not_lt.mpr hroom)
  | outOfPool hpc _ _ hpool => exact absurd hpool (hpooled hpc)
  | take hpc hlen _ _ _ =>
      simp only [shift, hpc, if_neg (Nat.not_lt.mpr hlen)]
      exact h.onXmit rfl (fun _ => update_of_ne (by simp) ..)
        (by simp only [Xmit.held, hpc]) (by rintro _ ⟨⟩)
  | fill hpc hget =>
      simp only [shift, hpc]
      exact h.fill hown hpc hget
  | enqueue hpc _ hget =>
      simp only [shift, hpc]
      exact h.enqueue hpc hget
  | rxIntr hpc hs | txIntr hpc hs =>
      simp only [shift, hpc]
      exact h.onXmit (napiInterrupt_lists hs).1 (fun _ => rfl) (by simp only [Xmit.held, hpc])
        (by rintro _ ⟨⟩)
  | callPoll _ => exact ⟨h.perm, h.filled⟩
  | dequeue hpc _ hrx hget =>
      simp only [shift, hpc]
      exact h.dequeue hown hrx hget
  | receive hpc _ | more hpc _ _ | done hpc _ | started hpc _ _ | stopped hpc _ _ | others hpc _ _
  | alone hpc _ _ | wake hpc _ | complete hpc _ _ | again hpc _ =>
      simp only [shift, hpc]
      exact ⟨h.perm, h.filled⟩
  | release hpc hget _ =>
      simp only [shift, hpc]
      exact h.same (map_frame_update hget rfl) (fun _ => update_of_ne (by simp) ..) rfl rfl
        (fun _ => rfl)
        fun _ _ _ => rfl

/-! ## the theorem -/

/-- What a run that meets the two conditions keeps. -/
def Accounted (n : Net) : Prop :=
  (∃ lists bufs, Own n lists bufs ∧ Frames n lists) ∧ Tx n ∧ Rx n

/-- At the start there are no frames. -/
theorem accounted_start (poolSize : Nat) : Accounted (.start poolSize) := by
  obtain ⟨lists, bufs, hown, hd⟩ := own_start poolSize
  have hnothing (d : Dev) :
      outstanding ((Net.start poolSize).xmit d) ((Net.start poolSize).sys.priv d) = [] := by
    obtain ⟨p, hp⟩ := setup_priv poolSize d
    simp only [Net.start, outstanding, hp]
    rfl
  refine ⟨⟨lists, bufs, hown, ⟨fun d => ?_, by rintro _ _ ⟨⟩⟩⟩,
    ⟨fun d => ?_, fun d x => ?_⟩, fun d => ?_⟩
  · rw [(hd d).1]
    exact .refl []
  · refine ⟨fun hne => absurd rfl hne, ?_, ?_⟩
    · obtain ⟨p, hp⟩ := setup_priv poolSize d
      simp only [Net.start, hp]
      exact ⟨rfl, rfl⟩
    · rw [hnothing]
      obtain ⟨p, hp⟩ := setup_priv poolSize d
      simp only [Net.start, hp]
      rfl
  · rw [hnothing, hnothing]
    simp only [Net.start, setup_freed]
    rfl
  · obtain ⟨p, hp⟩ := setup_priv poolSize d
    simp only [Net.start, hp]
    exact ⟨rfl, fun hne => absurd rfl hne⟩

theorem Accounted.step {act : Act} (h : Accounted n) (hwhole : Whole n act) (hpooled : Pooled n act)
    (hs : netStep 0 n act = some n') : Accounted n' := by
  obtain ⟨⟨lists, bufs, hown, hframes⟩, htx, hrx⟩ := h
  have hmove := netStep_cases hs
  exact ⟨⟨_, bufs, hown.step hmove, hframes.step hown htx hmove hpooled⟩,
    htx.step hmove hwhole hpooled, hrx.step hmove hwhole⟩

/-- No transmission runs, and no poll runs or is scheduled. -/
def Quiet (n : Net) : Prop :=
  ∀ d, (n.xmit d).pc = .idle ∧ (n.poll d).pc = .idle ∧ (n.sys.priv d).scheduled = false

/-- In a run in which no store of a status word undoes the bit of the other side
and every transmission finds a buffer: when nothing runs any more, the queues are
empty, every frame sent was dequeued once by the peer, and every socket buffer
was freed once and counted. -/
theorem quiet_delivered (poolSize : Nat) (acts : List Act) (n : Net)
    (hmeets : (netSystem 0 poolSize).Meets (fun n act => Whole n act ∧
      Pooled n act) (.start poolSize) acts)
    (hrun : (netSystem 0 poolSize).run (.start poolSize) acts = some n) (hquiet : Quiet n) :
    (∀ d, (n.sys.priv d).rxQueue = none) ∧
      (∀ d, (n.received d).Perm (n.sent d.peer)) ∧
      n.sys.freed.Perm (List.range n.skbs) ∧
      ∀ d, (n.sys.priv d).stats.txPackets = (n.sent d).length := by
  obtain ⟨⟨lists, bufs, hown, hframes⟩, htx, hrx⟩ :=
    hmeets.invariant (I := Accounted) (fun _ _ _ h hP hs => h.step hP.1 hP.2 hs)
      (accounted_start poolSize) hrun
  have hqueue (d : Dev) : (n.sys.priv d).rxQueue = none := by
    by_contra hne
    rcases (hrx d).seen hne with hscheduled | hlooks | hannounces
    · rw [(hquiet d).2.2] at hscheduled
      cases hscheduled
    · rw [Poll.Looks, (hquiet d).2.1] at hlooks
      exact hlooks
    · rw [(hquiet d.peer).1] at hannounces
      exact hannounces
  have hnothing (d : Dev) : outstanding (n.xmit d) (n.sys.priv d) = [] := by
    have hbit := (htx.dev d).bit
    rw [(hquiet d).1] at hbit
    simp only [outstanding, (hquiet d).1, hbit.2, Option.toList_none]
  refine ⟨hqueue, fun d => ?_, List.perm_iff_count.mpr fun x => ?_, fun d => ?_⟩
  · have hnil : lists (.rx d) = [] :=
      (hown.stock.chains.head_eq_none_iff (i := Slot.rx d)).mp (hqueue d)
    have hperm := hframes.perm d
    simpa only [hnil, Xmit.held, (hquiet d.peer).1, frames, List.filterMap_nil,
      List.append_nil] using hperm
  · have hfreed := htx.freed .dummveth0 x
    rwa [hnothing, hnothing, List.count_nil] at hfreed
  · have hcount := (htx.dev d).count
    rwa [hnothing] at hcount

/-- A whole transmission on `dummveth1`. -/
def transmitBack : List Act := .xmit .dummveth1 [] :: List.replicate 13 (.runXmit .dummveth1)

/-- A poll on each device, up to its end. -/
def pollBoth : List Act :=
  .poll .dummveth1 2 :: pollSteps 7 ++
    .poll .dummveth0 2 :: List.replicate 7 (.runPoll .dummveth0 true)

/-- A frame each way. -/
theorem quiet_delivered_both_ways :
    ∃ n, (netSystem 0 2).run (.start 2) (transmit ++ transmitBack ++ pollBoth) = some n ∧ Quiet n ∧
      (n.received .dummveth1).Perm (n.sent .dummveth0) ∧ n.sys.freed.Perm (List.range 2) := by
  have hrun : (netSystem 0 2).run (.start 2) (transmit ++ transmitBack ++ pollBoth) = some _ := rfl
  refine ⟨_, hrun, fun d => by cases d <;> exact ⟨rfl, rfl, rfl⟩, ?_⟩
  have hdone := quiet_delivered 2 _ _ (by decide) hrun fun d => by cases d <;> exact ⟨rfl, rfl, rfl⟩
  exact ⟨hdone.2.1 .dummveth1, hdone.2.2.1⟩

/-- Both transmissions load the status of `dummveth1` before either stores it;
then they and a poll of `dummveth0` run to their ends. -/
def raced : List Act :=
  transmit.take 7 ++ transmitBack.take 11 ++ [.runXmit .dummveth0, .runXmit .dummveth1] ++
    List.replicate 6 (.runXmit .dummveth0) ++ List.replicate 2 (.runXmit .dummveth1) ++
    .poll .dummveth0 2 :: List.replicate 7 (.runPoll .dummveth0 true)

/-- The store of the transmit bit undoes that of the receive bit: the packet
stays in the queue of `dummveth1`, and nothing is scheduled. -/
theorem receive_bit_overwritten :
    (netSystem 0 2).Meets (fun n act => Started n act ∧ Pooled n act) (.start 2) raced ∧
    ∃ n, (netSystem 0 2).run (.start 2) raced = some n ∧ Quiet n ∧
      (n.sys.priv .dummveth1).rxQueue ≠ none ∧ n.received .dummveth1 = [] ∧
      (n.sent .dummveth0).length = 1 :=
  ⟨by decide, _, rfl, fun d => by cases d <;> exact ⟨rfl, rfl, rfl⟩, nofun, rfl, rfl⟩

end Linuxyz.Veth
