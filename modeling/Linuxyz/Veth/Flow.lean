import Linuxyz.Veth.Conserve

/-!
# Linuxyz.Veth.Flow

Flow control: a transmission that takes the last buffer of its pool stops the
queue of the device, and the release of a buffer into an empty pool wakes it.

`dummveth_release_buffer` decides about the wake-up after it has unlocked: it
reads whether the queue is stopped and then whether `pkt->next` is `NULL`.  By
then another transmission may have taken the buffer out of the pool again and
sent it, so that `NULL` no longer says that the pool was empty.  `Fresh` is the
condition that this does not happen; with it `Flow` holds in every state.
-/

namespace Linuxyz.Veth

open Function (update update_self update_of_ne)

variable {s s' : Sys} {d e : Dev} {n n' : Net} {lists lists' : Slot → List Addr}
    {bufs : Dev → List Addr}

/-! ## conditions on a step -/

/-- The kernel calls `dummveth_xmit` only while the queue is not stopped. -/
def Started (n : Net) : Act → Prop
  | .xmit d _ => (n.sys.priv d).stopped = false
  | _ => True

/-- When a release finds `pkt->next` to be `NULL`, its buffer is still in the
pool. -/
def FreshAt (s : Sys) : PollPc → Prop
  | .nextTest a => ∀ pkt ∈ s.heap a, pkt.next = none → a ∈ poolOf s pkt.dev
  | _ => True

def Fresh (n : Net) : Act → Prop
  | .runPoll d _ => FreshAt n.sys (n.poll d).pc
  | _ => True

instance : DecidablePred (Started n)
  | .xmit d _ => inferInstanceAs (Decidable ((n.sys.priv d).stopped = false))
  | .runXmit _ | .poll _ _ | .runPoll _ _ => .isTrue trivial

instance : DecidablePred (FreshAt s)
  | .nextTest a =>
      inferInstanceAs (Decidable (∀ pkt ∈ s.heap a, pkt.next = none → a ∈ poolOf s pkt.dev))
  | .idle | .test | .dequeue | .receive _ | .release _ | .stoppedTest _ | .wake _ | .complete =>
      .isTrue trivial

instance : DecidablePred (Fresh n)
  | .runPoll d _ => inferInstanceAs (Decidable (FreshAt n.sys (n.poll d).pc))
  | .xmit _ _ | .runXmit _ | .poll _ _ => .isTrue trivial

/-- `dummveth_release_buffer` is running on a buffer of device `d`. -/
def Releasing (n : Net) (d : Dev) : Prop :=
  match (n.poll d.peer).pc with
  | .release _ | .stoppedTest _ | .nextTest _ | .wake _ => True
  | _ => False

/-! ## the invariant -/

/-- The transmission has still to take a buffer. -/
def XmitPc.BeforeGet : XmitPc → Prop
  | .enter _ | .get => True
  | _ => False

/-- A stopped queue has an empty pool, or a pool of one buffer whose release
still has to wake the queue. -/
def Settled (pc : PollPc) (pool : List Addr) (stopped : Bool) : Prop :=
  match pc with
  | .stoppedTest a => stopped = true → pool = [] ∨ pool = [a]
  | .nextTest a => stopped = true ∧ (pool = [] ∨ pool = [a])
  | .wake a => stopped = true ∧ pool = [a]
  | _ => stopped = true → pool = []

/-- The buffer a release has put back and still tests. -/
def PollPc.tested : PollPc → Option Addr
  | .stoppedTest a | .nextTest a | .wake a => some a
  | _ => none

structure FlowAt (n : Net) (lists : Slot → List Addr) (bufs : Dev → List Addr) (d : Dev) :
    Prop where
  lock : (n.sys.priv d).lock = false
  empty : lists (.pool d) = [] → (n.sys.priv d).stopped = true
  started : (n.xmit d).pc.BeforeGet → (n.sys.priv d).stopped = false
  settled : Settled (n.poll d.peer).pc (lists (.pool d)) (n.sys.priv d).stopped
  tested : ∀ a, (n.poll d.peer).pc.tested = some a → a ∈ bufs d

def Flow (n : Net) (lists : Slot → List Addr) (bufs : Dev → List Addr) : Prop :=
  ∀ d, FlowAt n lists bufs d

/-- The lock and the queue state of a device. -/
def Priv.queue (p : Priv) : Bool × Bool := (p.lock, p.stopped)

theorem Same.lock (h : Same Priv.queue s s') (e : Dev) : (s'.priv e).lock = (s.priv e).lock :=
  congrArg Prod.fst (h e)

theorem Same.stopped (h : Same Priv.queue s s') (e : Dev) :
    (s'.priv e).stopped = (s.priv e).stopped :=
  congrArg Prod.snd (h e)

/-- The interrupt touches neither the lock nor the state of the queue. -/
theorem same_queue_napiInterrupt (h : napiInterrupt s d = some s') : Same Priv.queue s s' := by
  unfold napiInterrupt at h
  split at h
  · cases h
  · split at h
    · cases h
      exact same_setPriv (s := s) (p := (s.priv d).receiveIntr.transmitIntr) rfl
    · cases h
      exact same_setPriv rfl

/-- A step of a transmission that leaves locks, queue states and pools alone. -/
theorem Flow.onXmit (h : Flow n lists bufs) (hs : Same Priv.queue n.sys s)
    (hlists : ∀ e, lists' (.pool e) = lists (.pool e))
    (hpc : pc.BeforeGet → (n.xmit d).pc.BeforeGet) :
    Flow (n.onXmit d s pc) lists' bufs := fun e => {
  lock := (hs.lock e).trans (h e).lock
  empty := by
    rw [hlists]
    exact fun hnil => (hs.stopped e).trans ((h e).empty hnil)
  started := by
    intro hbefore
    refine (hs.stopped e).trans ((h e).started ?_)
    by_cases hed : e = d
    · subst hed
      simp only [Net.onXmit, update_self] at hbefore
      exact hpc hbefore
    · simpa only [Net.onXmit, update_of_ne hed] using hbefore
  settled := by
    rw [hlists]
    simp only [Net.onXmit, hs.stopped e]
    exact (h e).settled
  tested := (h e).tested }

/-- A step of a poll on `d` that leaves locks, queue states and pools alone. -/
theorem Flow.onPoll {q : Poll} (h : Flow n lists bufs) (hs : Same Priv.queue n.sys s)
    (hlists : ∀ e, lists' (.pool e) = lists (.pool e))
    (hq : Settled q.pc (lists (.pool d.peer)) (n.sys.priv d.peer).stopped)
    (htested : ∀ a, q.pc.tested = some a → (n.poll d).pc.tested = some a)
    (hsys : n'.sys = s) (hxmit : n'.xmit = n.xmit) (hpoll : n'.poll = update n.poll d q) :
    Flow n' lists' bufs := fun e => {
  lock := by
    rw [hsys]
    exact (hs.lock e).trans (h e).lock
  empty := by
    rw [hlists, hsys]
    exact fun hnil => (hs.stopped e).trans ((h e).empty hnil)
  started := by
    rw [hxmit, hsys]
    exact fun hbefore => (hs.stopped e).trans ((h e).started hbefore)
  settled := by
    rw [hlists, hsys, hpoll, hs.stopped e]
    by_cases hed : e.peer = d
    · subst hed
      rw [update_self]
      simpa only [Dev.peer_peer] using hq
    · rw [update_of_ne hed]
      exact (h e).settled
  tested := by
    rw [hpoll]
    by_cases hed : e.peer = d
    · subst hed
      rw [update_self]
      exact fun a ha => (h e).tested a (htested a ha)
    · rw [update_of_ne hed]
      exact (h e).tested }

theorem settled_iff (hpc : pc.tested = none) :
    Settled pc pool stopped ↔ (stopped = true → pool = []) := by
  cases pc <;> first | rfl | cases hpc

theorem Flow.settled_at (h : Flow n lists bufs) (hpc : (n.poll d).pc = pc) :
    Settled pc (lists (.pool d.peer)) (n.sys.priv d.peer).stopped := by
  have hsettled := (h d.peer).settled
  rwa [Dev.peer_peer, hpc] at hsettled

/-- A step of a poll outside a release. -/
theorem Flow.outside {q : Poll} (h : Flow n lists bufs) (hs : Same Priv.queue n.sys n'.sys)
    (hlists : ∀ e, lists' (.pool e) = lists (.pool e)) (hold : (n.poll d).pc.tested = none)
    (hnew : q.pc.tested = none) (hxmit : n'.xmit = n.xmit)
    (hpoll : n'.poll = update n.poll d q) : Flow n' lists' bufs := by
  refine h.onPoll hs hlists ?_ ?_ rfl hxmit hpoll
  · exact (settled_iff hnew).mpr ((settled_iff hold).mp (h.settled_at rfl))
  · rw [hnew]
    exact fun a ha => by cases ha

/-! ## steps that change a pool or a queue state -/

/-- The buffer taken was the last one exactly when the queue is stopped now. -/
theorem Flow.take (h : Flow n lists bufs) (hown : Own n lists bufs) (hpc : (n.xmit d).pc = .get)
    (hpool : (n.sys.priv d).ppool = some a) (hget : n.sys.heap a = some pkt) :
    Flow (n.onXmit d (n.sys.takePool d pkt.next) (.fill a))
      (update lists (.pool d) (lists (.pool d)).tail) bufs := by
  intro e
  by_cases hed : e = d
  · subst hed
    have hstarted : (n.sys.priv e).stopped = false := (h e).started (by rw [hpc]; trivial)
    have hnil : pkt.next = none ↔ (lists (.pool e)).tail = [] := by
      have hhead := (hown.stock.takePool hpool hget).2.chains.head_eq_none_iff (i := .pool e)
      simpa only [Sys.head_takePool, update_self] using hhead
    have hstopped : ((n.sys.takePool e pkt.next).priv e).stopped = true ↔
        (lists (.pool e)).tail = [] := by
      rw [← hnil]
      simp [Sys.takePool, Sys.setPriv, hstarted]
    have hsettled := (h e).settled
    refine ⟨?_, ?_, ?_, ?_, (h e).tested⟩
    · simpa [Net.onXmit, Sys.takePool, Sys.setPriv] using (h e).lock
    · simpa only [Net.onXmit, update_self] using hstopped.mpr
    · simp [Net.onXmit, XmitPc.BeforeGet]
    · simp only [Net.onXmit, update_self]
      rw [hstarted] at hsettled
      unfold Settled at hsettled ⊢
      split at hsettled
      · exact fun hst => .inl (hstopped.mp hst)
      · exact absurd hsettled.1 Bool.false_ne_true
      · exact absurd hsettled.1 Bool.false_ne_true
      · exact hstopped.mp
  · have hslot : Slot.pool e ≠ .pool d := fun heq => hed (Slot.pool.inj heq)
    have he := h e
    constructor
    · simpa [Net.onXmit, Sys.takePool, Sys.setPriv, hed] using he.lock
    · simpa [Net.onXmit, Sys.takePool, Sys.setPriv, hed] using he.empty
    · simpa [Net.onXmit, Sys.takePool, Sys.setPriv, hed] using he.started
    · simpa [Net.onXmit, Sys.takePool, Sys.setPriv, hed] using he.settled
    · exact he.tested

/-- A buffer put back into an empty pool is alone there. -/
theorem Flow.release (h : Flow n lists bufs) (hown : Own n lists bufs)
    (hpc : (n.poll d).pc = .release a) (hget : n.sys.heap a = some pkt) :
    Flow (n.onPoll d (n.sys.putPool pkt.dev a pkt) (.stoppedTest a))
      (update lists (.pool d.peer) (a :: lists (.pool d.peer))) bufs := by
  intro e
  have hhand : (n.poll d).pc.hand = some a := by rw [hpc]; rfl
  rw [hown.release_dev hhand hget]
  have hs : Same Priv.queue n.sys (n.sys.putPool d.peer a pkt) :=
    same_setPriv (s := n.sys.write a { pkt with next := (n.sys.priv d.peer).ppool }) rfl
  have he := h e
  by_cases hed : e = d.peer
  · subst hed
    refine ⟨(hs.lock _).trans he.lock, fun hnil => ?_,
      fun hbefore => (hs.stopped _).trans (he.started hbefore), ?_, ?_⟩
    · simp at hnil
    · have hsettled := he.settled
      simp only [Dev.peer_peer, hpc, Settled] at hsettled
      simp only [Net.onPoll, Dev.peer_peer, update_self, Settled, hs.stopped _]
      exact fun hst => .inr (by rw [hsettled hst])
    · intro b hb
      simp only [Net.onPoll, Dev.peer_peer, update_self, PollPc.tested,
        Option.some.injEq] at hb
      subst hb
      exact (hown.place d.peer).mem_iff.mp (by simp [places, hhand])
  · have hpeer : e.peer ≠ d := fun heq => hed (by rw [← heq, Dev.peer_peer])
    have hslot : Slot.pool e ≠ .pool d.peer := fun heq => hed (Slot.pool.inj heq)
    constructor
    · exact (hs.lock e).trans he.lock
    · rw [update_of_ne hslot]
      exact fun hnil => (hs.stopped e).trans (he.empty hnil)
    · exact fun hbefore => (hs.stopped e).trans (he.started hbefore)
    · simpa only [Net.onPoll, update_of_ne hpeer, update_of_ne hslot,
        hs.stopped e] using he.settled
    · simpa only [Net.onPoll, update_of_ne hpeer] using he.tested

/-- The buffer under test belongs to the peer of the polling device. -/
theorem Flow.tested_dev (h : Flow n lists bufs) (hown : Own n lists bufs)
    (ha : (n.poll d).pc.tested = some a) (hget : n.sys.heap a = some pkt) : pkt.dev = d.peer :=
  hown.stock.dev_eq ((h d.peer).tested a (by rwa [Dev.peer_peer])) hget

/-- A queue that is woken has a buffer in its pool. -/
theorem Flow.wake (h : Flow n lists bufs) (hown : Own n lists bufs) (hpc : (n.poll d).pc = .wake a)
    (hget : n.sys.heap a = some pkt) :
    Flow (n.onPoll d (n.sys.setStopped pkt.dev false) .test) lists bufs := by
  intro e
  rw [h.tested_dev hown (by rw [hpc]; rfl) hget]
  have he := h e
  by_cases hed : e = d.peer
  · subst hed
    have hsettled := he.settled
    simp only [Dev.peer_peer, hpc, Settled] at hsettled
    constructor
    · simpa [Net.onPoll, Sys.setStopped, Sys.setPriv] using he.lock
    · rw [hsettled.2]
      simp
    · simp [Net.onPoll, Sys.setStopped, Sys.setPriv]
    · simp [Net.onPoll, Sys.setStopped, Sys.setPriv, Settled]
    · simp [Net.onPoll, PollPc.tested]
  · have hpeer : e.peer ≠ d := fun heq => hed (by rw [← heq, Dev.peer_peer])
    constructor
    · simpa [Net.onPoll, Sys.setStopped, Sys.setPriv, hed] using he.lock
    · simpa [Net.onPoll, Sys.setStopped, Sys.setPriv, hed] using he.empty
    · simpa [Net.onPoll, Sys.setStopped, Sys.setPriv, hed] using he.started
    · simpa [Net.onPoll, Sys.setStopped, Sys.setPriv, hed, hpeer] using he.settled
    · simpa [Net.onPoll, hpeer] using he.tested

/-- Every step that meets the two conditions keeps the flow control intact. -/
theorem Flow.step {act : Act} (h : Flow n lists bufs) (hown : Own n lists bufs)
    (hmove : Move 0 n act n') (hstarted : Started n act) (hfresh : Fresh n act) :
    Flow n' (shift n lists act) bufs := by
  cases hmove with
  | @callXmit d data hpc =>
      intro e
      have he := h e
      refine ⟨he.lock, he.empty, fun hbefore => ?_, he.settled, he.tested⟩
      by_cases hed : e = d
      · subst hed
        exact hstarted
      · simp only [Net.callXmit, update_of_ne hed] at hbefore
        exact he.started hbefore
  | enter hpc =>
      simp only [shift, hpc]
      exact h.onXmit (same_setPriv rfl) (fun _ => rfl) (fun _ => by rw [hpc]; trivial)
  | short hpc hlt =>
      simp only [shift, hpc, if_pos hlt]
      exact h.onXmit (same_refl _ _) (fun _ => rfl) (by rintro ⟨⟩)
  | @outOfPool d hpc _ _ hpool =>
      -- the queue is not stopped, so the pool is not empty
      have hnil : lists (.pool d) = [] := hown.stock.chains.head_eq_none_iff.mp hpool
      have hst := (h d).started (by rw [hpc]; trivial)
      rw [(h d).empty hnil] at hst
      cases hst
  | take hpc hlen _ hpool hget =>
      simp only [shift, hpc, if_neg (Nat.not_lt.mpr hlen)]
      exact h.take hown hpc hpool hget
  | fill hpc _ | rxOn hpc _ | rxOff hpc _ | rxLoad hpc | txLoad hpc | noLockup hpc _ =>
      simp only [shift, hpc]
      exact h.onXmit (same_refl _ _) (fun _ => rfl) (by rintro ⟨⟩)
  | enqueue hpc _ _ =>
      simp only [shift, hpc]
      exact h.onXmit (same_setPriv rfl) (fun _ => by simp) (by rintro ⟨⟩)
  | rxStore hpc | txLen hpc | txStore hpc =>
      simp only [shift, hpc]
      exact h.onXmit (same_setPriv rfl) (fun _ => rfl) (by rintro ⟨⟩)
  | rxIntr hpc hs | txIntr hpc hs =>
      simp only [shift, hpc]
      exact h.onXmit (same_queue_napiInterrupt hs) (fun _ => rfl) (by rintro ⟨⟩)
  | lockUp _ hup => cases hup
  | callPoll hpc =>
      exact h.outside (same_setPriv rfl) (fun _ => rfl) (by rw [hpc]; rfl) rfl rfl rfl
  | more hpc _ _ | done hpc _ | complete hpc _ _ =>
      simp only [shift, hpc]
      exact h.outside (same_refl _ _) (fun _ => rfl) (by rw [hpc]; rfl) rfl rfl rfl
  | dequeue hpc _ _ _ =>
      simp only [shift, hpc]
      exact h.outside (same_setPriv rfl) (fun _ => by simp) (by rw [hpc]; rfl) rfl rfl rfl
  | receive hpc _ | again hpc _ =>
      simp only [shift, hpc]
      exact h.outside (same_setPriv rfl) (fun _ => rfl) (by rw [hpc]; rfl) rfl rfl rfl
  | release hpc hget _ =>
      simp only [shift, hpc]
      exact h.release hown hpc hget
  | @started d a pkt _ hpc hget hst =>
      rw [h.tested_dev hown (by rw [hpc]; rfl) hget] at hst
      simp only [shift, hpc]
      refine h.onPoll (same_refl _ _) (fun _ => rfl) ?_ (by simp [PollPc.tested]) rfl rfl rfl
      simp [Settled, hst]
  | @stopped d a pkt _ hpc hget hst =>
      rw [h.tested_dev hown (by rw [hpc]; rfl) hget] at hst
      have hsettled := h.settled_at hpc
      simp only [shift, hpc]
      refine h.onPoll (same_refl _ _) (fun _ => rfl) ?_ (by simp [hpc, PollPc.tested]) rfl rfl rfl
      exact ⟨hst, hsettled hst⟩
  | @others d a pkt _ hpc hget hnext =>
      have hsettled := h.settled_at hpc
      simp only [shift, hpc]
      refine h.onPoll (same_refl _ _) (fun _ => rfl) ?_ (by simp [PollPc.tested]) rfl rfl rfl
      intro _
      rcases hsettled.2 with hnil | hone
      · exact hnil
      · -- the only buffer of a list has no successor
        have hchain := hown.stock.chains (.pool d.peer)
        rw [hone] at hchain
        generalize n.sys.head (.pool d.peer) = p at hchain
        cases hchain with
        | cons hget' htail =>
            rw [hget] at hget'
            cases hget'
            generalize pkt.next = q at htail hnext
            cases htail
            exact absurd rfl hnext
  | @alone d a pkt _ hpc hget hnext =>
      have hsettled := h.settled_at hpc
      simp only [shift, hpc]
      refine h.onPoll (same_refl _ _) (fun _ => rfl) ?_ (by simp [hpc, PollPc.tested]) rfl rfl rfl
      refine ⟨hsettled.1, hsettled.2.resolve_left fun hnil => ?_⟩
      -- the buffer is in the pool, so the pool is not empty
      simp only [Fresh, FreshAt, hpc] at hfresh
      have hmem := hfresh pkt hget hnext
      rw [h.tested_dev hown (by rw [hpc]; rfl) hget, hown.stock.poolOf_eq, hnil] at hmem
      cases hmem
  | wake hpc hget =>
      simp only [shift, hpc]
      exact h.wake hown hpc hget

/-! ## the theorem -/

/-- At the start all pools are full and both queues are started. -/
theorem flow_start (hpos : 0 < poolSize) :
    ∃ lists bufs, Own (.start poolSize) lists bufs ∧ Flow (.start poolSize) lists bufs := by
  obtain ⟨lists, bufs, hown, hd⟩ := own_start poolSize
  refine ⟨lists, bufs, hown, fun d => ?_⟩
  obtain ⟨p, hpriv⟩ := setup_priv poolSize d
  have hlen := (hd d).2.2
  rw [← (hd d).2.1] at hlen
  refine ⟨?_, fun hnil => ?_, fun hbefore => ?_, ?_, fun a ha => ?_⟩
  · rw [Net.start, hpriv]
    rfl
  · rw [hnil] at hlen
    exact absurd hlen (Nat.ne_of_lt hpos)
  · cases hbefore
  · rw [Net.start, hpriv]
    exact fun hst => by cases hst
  · cases ha

/-- In a run in which the kernel respects the state of the queues, and no release
finds the buffer it tests taken again with `NULL` in its `next`: no transmission
finds its pool empty, no lock is left locked, and a queue is stopped exactly
when its pool is empty unless a release is running. -/
theorem flow_control (poolSize : Nat) (hpos : 0 < poolSize) (acts : List Act) (n : Net)
    (hmeets : (netSystem 0 poolSize).Meets (fun n act => Started n act ∧
      Fresh n act) (.start poolSize) acts)
    (hrun : (netSystem 0 poolSize).run (.start poolSize) acts = some n) :
    (∀ d, (n.xmit d).pc = .get → (n.sys.priv d).ppool ≠ none) ∧
      (∀ d, (n.sys.priv d).lock = false) ∧
      ∀ d, ¬ Releasing n d → ((n.sys.priv d).stopped = true ↔ (n.sys.priv d).ppool = none) := by
  obtain ⟨lists, bufs, hown, hflow⟩ :=
    hmeets.invariant (I := fun n => ∃ lists bufs, Own n lists bufs ∧ Flow n lists bufs)
      (by
        rintro n act n' ⟨lists, bufs, hown, hflow⟩ ⟨hstarted, hfresh⟩ hs
        have hmove := netStep_cases hs
        exact ⟨_, bufs, hown.step hmove, hflow.step hown hmove hstarted hfresh⟩)
      (flow_start hpos) hrun
  have hnil (d : Dev) : (n.sys.priv d).ppool = none ↔ lists (.pool d) = [] :=
    hown.stock.chains.head_eq_none_iff (i := Slot.pool d)
  refine ⟨fun d hpc hpool => ?_, fun d => (hflow d).lock, fun d hquiet => ?_⟩
  · have hst := (hflow d).started (by rw [hpc]; trivial)
    rw [(hflow d).empty ((hnil d).mp hpool)] at hst
    cases hst
  · rw [hnil]
    refine ⟨(settled_iff ?_).mp (hflow d).settled, (hflow d).empty⟩
    unfold Releasing at hquiet
    cases hpc : (n.poll d.peer).pc <;> simp_all [PollPc.tested]

/-- A whole transmission of an empty frame on `dummveth0`. -/
def transmit : List Act := .xmit .dummveth0 [] :: List.replicate 13 (.runXmit .dummveth0)

/-- A poll on `dummveth1` with `steps` steps. -/
def pollSteps (steps : Nat) : List Act := List.replicate steps (.runPoll .dummveth1 true)

/-- The only buffer is sent and comes back, and the queue is woken. -/
theorem flow_control_one_buffer :
    ∃ n, (netSystem 0 1).run (.start 1) (transmit ++ .poll .dummveth1 2 :: pollSteps 7) = some n ∧
      (n.sys.priv .dummveth0).lock = false ∧ (n.sys.priv .dummveth0).stopped = false := by
  have hrun :
      (netSystem 0 1).run (.start 1) (transmit ++ .poll .dummveth1 2 :: pollSteps 7) = some _ := rfl
  have hflow := flow_control 1 (by decide) _ _ (by decide) hrun
  exact ⟨_, hrun, hflow.2.1 .dummveth0, rfl⟩

/-- A release that is overtaken between its unlock and its tests by two
transmissions: they send the buffer just released and the other one. -/
def overtaken : List Act :=
  transmit ++ .poll .dummveth1 2 :: pollSteps 4 ++ transmit ++ transmit ++ pollSteps 3

/-- The queue is woken with an empty pool, and the transmission that the kernel
starts then returns with the lock locked. -/
theorem empty_pool_woken :
    (∃ n, (netSystem 0 2).run (.start 2) overtaken = some n ∧ ¬ Releasing n .dummveth0 ∧
      (n.sys.priv .dummveth0).stopped = false ∧ (n.sys.priv .dummveth0).ppool = none) ∧
    (netSystem 0 2).Meets Started (.start 2) (overtaken ++ transmit.take 3) ∧
    ∃ n, (netSystem 0 2).run (.start 2) (overtaken ++ transmit.take 3) = some n ∧
      (n.xmit .dummveth0).pc = .idle ∧ (n.sys.priv .dummveth0).lock = true :=
  ⟨⟨_, rfl, id, rfl, rfl⟩, by decide, _, rfl, rfl, rfl⟩

end Linuxyz.Veth
