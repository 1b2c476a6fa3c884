import Linuxyz.Kxdp.Driver
import Mathlib.Data.List.Perm.Basic

/-!
# Linuxyz.Kxdp.NoStrand

One packet for each poll.

`kxdp_poll` takes one packet, and NAPI remembers at most one poll beside the
current one.  So the packets in the queue are as many as the polls that NAPI has
still to see through, as long as no `napi_schedule` is lost; `Counted` says so,
for any state of the two activities.
-/

namespace Linuxyz.Kxdp

variable {s s' : Sys} {d : Dev} {n n' : Net} {pkt : Packet}

/-! ## the sections -/

/-- What the receiving side reads of the private data. -/
def Priv.rxView (p : Priv) : List Packet × Napi × Bool := (p.rxQueue, p.napi, p.rxIntEnabled)

/-- The interrupt of another device is not noticed. -/
theorem napiInterrupt_of_ne (h : napiInterrupt s e = some s') (hne : d ≠ e) :
    s'.priv d = s.priv d := by
  unfold napiInterrupt at h
  split at h
  · cases h
  · split at h <;> cases h <;> exact Sys.setPriv_of_ne s _ hne

theorem txReserveBuffer_priv (h : txReserveBuffer s d.peer = some (s', r)) :
    s'.priv d = s.priv d := by
  unfold txReserveBuffer at h
  split at h
  · cases h
  · split at h <;> cases h <;> exact Sys.setPriv_of_ne s _ (Dev.ne_peer d)

theorem raiseTx_priv (h : raiseTx lockup s d.peer len = some s') : s'.priv d = s.priv d := by
  simp only [raiseTx] at h
  split at h
  · cases h
    exact Sys.setPriv_of_ne s _ (Dev.ne_peer d)
  · rw [napiInterrupt_of_ne h (Dev.ne_peer d), Sys.setPriv_of_ne s _ (Dev.ne_peer d)]

/-- To release a buffer does not touch the receive side. -/
theorem txReleaseBuffer_rxView (h : txReleaseBuffer s pkt = some s') :
    (s'.priv d).rxView = (s.priv d).rxView := by
  unfold txReleaseBuffer at h
  split at h
  · cases h
  · cases h
    by_cases hd : d = pkt.dev
    · subst hd
      rw [Sys.setPriv_self]
      rfl
    · rw [Sys.setPriv_of_ne s _ hd]

theorem rxProdBuf_rxView (h : rxProdBuf s d pkt = some s') :
    (s'.priv d).rxView = (pkt :: (s.priv d).rxQueue, (s.priv d).napi, (s.priv d).rxIntEnabled) := by
  unfold rxProdBuf at h
  split at h
  · cases h
  · cases h
    rw [Sys.setPriv_self]
    rfl

/-- A receive interrupt schedules a poll. -/
theorem raiseRx_rxView (h : raiseRx s d = some s') (henabled : (s.priv d).rxIntEnabled = true) :
    (s'.priv d).rxView = ((s.priv d).rxQueue, (s.priv d).napi.schedule, true) := by
  rw [raiseRx, if_pos henabled, napiInterrupt] at h
  split at h
  · cases h
  · split at h <;> cases h <;> simp [Priv.rxView, Priv.receiveIntr, Priv.transmitIntr, henabled]

/-! ## the invariant -/

/-- The packet that a transmission has queued and not announced. -/
def XmitPc.announces : XmitPc → Nat
  | .rxIntr => 1
  | _ => 0

/-- The packet that the current poll has taken. -/
def PollPc.taken : PollPc → Nat
  | .run _ _ => 1
  | .complete _ _ => 1
  | _ => 0

/-- The socket buffer of the current poll. -/
def PollPc.skb : PollPc → Option Nat
  | .run _ skb => some skb
  | _ => none

/-- The poll will complete. -/
def PollPc.Within (budget : Nat) : PollPc → Prop
  | .idle => True
  | .complete _ npackets => npackets < budget
  | _ => 2 ≤ budget

/-- Each packet has its poll, and each socket buffer is delivered or in the hands
of the current poll. -/
structure Counted (d : Dev) (n : Net) : Prop where
  count :
      (n.sys.priv d).rxQueue.length + n.poll.taken = (n.sys.priv d).napi.polls + n.xmit.announces
  running : n.poll ≠ .idle → (n.sys.priv d).napi ≠ .idle
  enabled : (n.sys.priv d).rxIntEnabled = true
  within : n.poll.Within n.budget
  skbs : (n.delivered ++ n.poll.skb.toList).Perm (List.range n.skbs)

/-- The budget of each poll is at least two. -/
def Budgeted : Act → Prop
  | .poll budget => 2 ≤ budget
  | _ => True

/-- The program passes every packet, and no receive interrupt is raised while a
further poll is already asked for. -/
def Handled (d : Dev) (n : Net) : Act → Prop
  | .run verdict => passes verdict = true
  | .runXmit => n.xmit = .rxIntr → (n.sys.priv d).napi ≠ .missed
  | _ => True

theorem polls_schedule {napi : Napi} (h : napi ≠ .missed) :
    napi.schedule.polls = napi.polls + 1 := by
  cases napi with
  | idle => rfl
  | scheduled => rfl
  | missed => exact absurd rfl h

theorem schedule_ne_idle (napi : Napi) : napi.schedule ≠ .idle := by
  cases napi <;> simp [Napi.schedule]

/-- A poll that completes is one poll less. -/
theorem polls_completeDone {napi : Napi} (h : napi ≠ .idle) :
    napi.completeDone.polls + 1 = napi.polls := by
  cases napi with
  | idle => exact absurd rfl h
  | scheduled => rfl
  | missed => rfl

/-! ## transmissions -/

/-- What a poll has in hand. -/
def Net.pollView (n : Net) : PollPc × Nat × List Nat × Nat :=
  (n.poll, n.budget, n.delivered, n.skbs)

/-- A step that the current poll does not notice. -/
theorem Counted.xmit (h : Counted d n) (hpoll : n'.pollView = n.pollView)
    (hview : (n'.sys.priv d).rxView = (q, napi, (n.sys.priv d).rxIntEnabled))
    (hnapi : (n.sys.priv d).napi ≠ .idle → napi ≠ .idle)
    (hcount : q.length + (n.sys.priv d).napi.polls + n.xmit.announces =
      (n.sys.priv d).rxQueue.length + napi.polls + n'.xmit.announces) : Counted d n' := by
  simp only [Net.pollView, Prod.mk.injEq] at hpoll
  simp only [Priv.rxView, Prod.mk.injEq] at hview
  obtain ⟨hpc, hbudget, hdelivered, hskbs⟩ := hpoll
  obtain ⟨hq, hn, henabled⟩ := hview
  refine ⟨?_, fun hrun => ?_, henabled.trans h.enabled, ?_, ?_⟩
  · have hold := h.count
    rw [hpc, hq, hn]
    omega
  · rw [hpc] at hrun
    rw [hn]
    exact hnapi (h.running hrun)
  · rw [hpc, hbudget]
    exact h.within
  · rw [hpc, hdelivered, hskbs]
    exact h.skbs

/-- A step that the receiving side does not notice. -/
theorem Counted.same (h : Counted d n) (hpoll : n'.pollView = n.pollView)
    (hview : (n'.sys.priv d).rxView = (n.sys.priv d).rxView)
    (hpc : n'.xmit.announces = n.xmit.announces) :
    Counted d n' := h.xmit hpoll hview id (by rw [hpc])

/-- A step of the transmission, which may put a packet into the queue and raise an
interrupt. -/
theorem Counted.xmitStep (h : Counted d n)
    (hhandled : n.xmit = .rxIntr → (n.sys.priv d).napi ≠ .missed)
    (hs : xmitStep lockup d n = some n') : Counted d n' := by
  unfold Kxdp.xmitStep at hs
  cases hpc : n.xmit with
  | idle => simp [hpc] at hs
  | enter skb =>
      simp only [hpc, Option.some.injEq] at hs
      subst hs
      refine h.same rfl (by rw [Sys.setPriv_of_ne _ _ (Dev.ne_peer d)]) ?_
      rw [hpc]
      by_cases hlen : n.buf.length < headersLen
      · rw [if_pos hlen]
        rfl
      · rw [if_neg hlen]
        rfl
  | reserve =>
      simp only [hpc, Option.map_eq_some_iff] at hs
      obtain ⟨⟨s, r⟩, hr, hs⟩ := hs
      have hview : (s.priv d).rxView = (n.sys.priv d).rxView := by rw [txReserveBuffer_priv hr]
      cases r with
      | none | some pkt => exact hs ▸ h.same rfl hview (by rw [hpc]; rfl)
  | produce pkt =>
      simp only [hpc, Option.map_eq_some_iff] at hs
      obtain ⟨s, hr, rfl⟩ := hs
      refine h.xmit rfl (rxProdBuf_rxView hr) id ?_
      simp only [hpc, XmitPc.announces, List.length_cons]
      omega
  | rxIntr =>
      simp only [hpc, Option.map_eq_some_iff] at hs
      obtain ⟨s, hr, rfl⟩ := hs
      have hview := raiseRx_rxView hr h.enabled
      rw [← h.enabled] at hview
      refine h.xmit rfl hview (fun _ => schedule_ne_idle _) ?_
      simp only [hpc, XmitPc.announces, polls_schedule (hhandled hpc)]
      omega
  | txIntr =>
      simp only [hpc, Option.map_eq_some_iff] at hs
      obtain ⟨s, hr, rfl⟩ := hs
      exact h.same rfl (by rw [raiseTx_priv hr]) (by rw [hpc]; rfl)

/-! ## polls -/

/-- A poll finds a packet, since there is one for each poll. -/
theorem Counted.rxQueue_ne_nil (h : Counted d n) (hpc : n.poll = .consume) :
    (n.sys.priv d).rxQueue ≠ [] := by
  intro hnil
  have hcount := h.count
  have hrun := h.running (by rw [hpc]; nofun)
  simp only [hnil, hpc, PollPc.taken, List.length_nil] at hcount
  cases hnapi : (n.sys.priv d).napi with
  | idle => exact hrun hnapi
  | scheduled | missed => simp only [hnapi, Napi.polls] at hcount; omega

/-- The poll takes a packet out of the queue. -/
theorem Counted.consumeStep (h : Counted d n) (hpc : n.poll = .consume)
    (hs : consumeStep d n alloc = some n') : Counted d n' := by
  unfold Kxdp.consumeStep rxConsBuf at hs
  have hrun := h.running (by rw [hpc]; nofun)
  have hcount := h.count
  have hwithin := h.within
  have hskbs := h.skbs
  rw [hpc] at hcount hwithin hskbs
  split at hs
  · cases hs
  · cases hq : (n.sys.priv d).rxQueue with
    | nil => exact absurd hq (h.rxQueue_ne_nil hpc)
    | cons pkt rest =>
        cases alloc with
        | false => simp [hq] at hs
        | true =>
            simp only [hq, Option.bind_some, if_true, Option.some.injEq] at hs
            subst hs
            refine ⟨?_, fun _ => ?_, ?_, hwithin, ?_⟩
            · simp only [Sys.setPriv_self, PollPc.taken, hq, List.length_cons] at hcount ⊢
              omega
            · simpa using hrun
            · simpa using h.enabled
            · simp only [PollPc.skb, Option.toList_none, Option.toList_some, List.append_nil,
                List.range_succ] at hskbs ⊢
              exact hskbs.append_right _

/-- A verdict with which the poll goes on to complete the packet. -/
theorem Counted.runStep (h : Counted d n) (hpc : n.poll = .run pkt skb)
    (hpass : passes verdict = true) : Counted d (runStep d n pkt skb verdict) := by
  have hrun := h.running (by rw [hpc]; nofun)
  have hcount := h.count
  have hwithin := h.within
  have hskbs := h.skbs
  rw [hpc] at hcount hwithin hskbs
  rw [Kxdp.runStep, if_pos hpass]
  refine ⟨?_, fun _ => ?_, ?_, hwithin, ?_⟩
  · simpa [PollPc.taken] using hcount
  · simpa using hrun
  · simpa using h.enabled
  · simpa [PollPc.skb] using hskbs

/-- The poll completes a packet, and ends or takes the next one. -/
theorem Counted.completeStep (h : Counted d n) (hpc : n.poll = .complete pkt npackets)
    (hs : completeStep d n pkt npackets = some n') : Counted d n' := by
  have hrun := h.running (by rw [hpc]; nofun)
  have hcount := h.count
  have hwithin := h.within
  have hskbs := h.skbs
  rw [hpc] at hcount hwithin hskbs
  rw [Kxdp.completeStep, if_pos (by exact hwithin)] at hs
  split at hs
  · cases hs
  · cases hs
    refine ⟨?_, fun hne => absurd rfl hne, ?_, trivial, ?_⟩
    · have hpolls := polls_completeDone hrun
      simp only [Sys.setPriv_self, PollPc.taken] at hcount ⊢
      omega
    · simpa using h.enabled
    · simpa [PollPc.skb] using hskbs

/-- One step of the transmission or of the poll. -/
theorem Counted.step {act : Act} (h : Counted d n) (hbudget : Budgeted act)
    (hhandled : Handled d n act) (hs : netStep lockup d n act = some n') : Counted d n' := by
  cases act with
  | xmit data =>
      simp only [netStep] at hs
      split at hs
      · rename_i hpc
        cases hs
        exact h.same rfl rfl (by rw [hpc]; rfl)
      · cases hs
  | runXmit => exact h.xmitStep hhandled hs
  | poll budget =>
      simp only [netStep] at hs
      split at hs
      · rename_i hpc
        split at hs
        · cases hs
        · rename_i hnapi
          cases hs
          have hcount := h.count
          have hskbs := h.skbs
          rw [hpc] at hcount hskbs
          exact ⟨hcount, fun _ => hnapi, h.enabled, hbudget, hskbs⟩
      · cases hs
  | consume alloc =>
      simp only [netStep] at hs
      split at hs
      · exact h.consumeStep ‹_› hs
      · cases hs
  | run verdict =>
      simp only [netStep] at hs
      split at hs
      · cases hs
        exact h.runStep ‹_› hhandled
      · cases hs
  | complete =>
      simp only [netStep] at hs
      split at hs
      · exact h.completeStep ‹_› hs
      · cases hs
  | release i =>
      simp only [netStep, Option.bind_eq_some_iff, Option.map_eq_some_iff] at hs
      obtain ⟨pkt, -, s, hr, rfl⟩ := hs
      exact h.same rfl (txReleaseBuffer_rxView hr) rfl

/-! ## the theorem -/

theorem counted_start (poolSize : Nat) (d : Dev) : Counted d (.start poolSize) :=
  ⟨rfl, fun hne => absurd rfl hne, rfl, trivial, .refl []⟩

/-- In a run with budgets of at least two in which every packet passes and no
receive interrupt finds a further poll already asked for: when no transmission
runs and NAPI is idle, the queue is empty and every socket buffer allocated was
delivered once; and a poll always finds a packet. -/
theorem idle_delivered (lockup poolSize : Nat) (d : Dev) (acts : List Act) (n : Net)
    (hmeets : (netSystem lockup poolSize d).Meets (fun n act => Budgeted act ∧
      Handled d n act) (.start poolSize) acts)
    (hrun : (netSystem lockup poolSize d).run (.start poolSize) acts = some n) :
    (n.xmit = .idle → (n.sys.priv d).napi = .idle →
      (n.sys.priv d).rxQueue = [] ∧ n.delivered.Perm (List.range n.skbs)) ∧
    (n.poll = .consume → (n.sys.priv d).rxQueue ≠ []) := by
  have h : Counted d n :=
    hmeets.invariant (I := Counted d) (fun _ _ _ h hP hs => h.step hP.1 hP.2 hs)
      (counted_start poolSize d) hrun
  refine ⟨fun hxmit hnapi => ?_, h.rxQueue_ne_nil⟩
  have hpoll : n.poll = .idle := by
    by_contra hne
    exact h.running hne hnapi
  have hcount := h.count
  have hskbs := h.skbs
  rw [hxmit, hnapi, hpoll] at hcount
  rw [hpoll] at hskbs
  refine ⟨List.length_eq_zero_iff.mp hcount, ?_⟩
  simpa [PollPc.skb] using hskbs

/-- A whole transmission of an empty frame. -/
def transmit : List Act := .xmit [] :: List.replicate 5 .runXmit

/-- A whole poll. -/
def pollOnce (verdict : Option UInt32) : List Act :=
  [.poll 2, .consume true, .run verdict, .complete, .release 0]

instance : DecidablePred Budgeted
  | .poll budget => inferInstanceAs (Decidable (2 ≤ budget))
  | .xmit _ | .runXmit | .consume _ | .run _ | .complete | .release _ => .isTrue trivial

instance : DecidablePred (Handled d n)
  | .run verdict => inferInstanceAs (Decidable (passes verdict = true))
  | .runXmit => inferInstanceAs (Decidable (n.xmit = .rxIntr → (n.sys.priv d).napi ≠ .missed))
  | .xmit _ | .poll _ | .consume _ | .complete | .release _ => .isTrue trivial

/-- Two transmissions and two polls. -/
theorem idle_delivered_two :
    ∃ n, (netSystem 0 8 .kxdp1).run (.start 8)
    (transmit ++ transmit ++ pollOnce none ++ pollOnce (some 2)) = some n ∧
      (n.sys.priv .kxdp1).rxQueue = [] ∧ n.delivered.Perm (List.range 2) := by
  have hrun :
      (netSystem 0 8 .kxdp1).run (.start 8) (transmit ++ transmit ++ pollOnce none ++
        pollOnce (some 2)) =
      some _ := rfl
  exact ⟨_, hrun, (idle_delivered 0 8 .kxdp1 _ _ (by decide) hrun).1 rfl rfl⟩

/-- Three transmissions before the first poll leave two polls, and a packet stays
behind; and a packet that the program drops leaves its socket buffer. -/
theorem packet_stranded_skb_leaked :
    (∃ n, (netSystem 0 8 .kxdp1).run (.start 8)
        (transmit ++ transmit ++ transmit ++ pollOnce none ++ pollOnce none) = some n ∧
      n.xmit = .idle ∧ (n.sys.priv .kxdp1).napi = .idle ∧ (n.sys.priv .kxdp1).rxQueue.length = 1) ∧
    ∃ n, (netSystem 0 8 .kxdp1).run (.start 8) (transmit ++ pollOnce (some 1)) = some n ∧
      n.xmit = .idle ∧ (n.sys.priv .kxdp1).napi = .idle ∧ n.skbs = 1 ∧ n.delivered = [] :=
  ⟨⟨_, rfl, rfl, rfl, rfl⟩, _, rfl, rfl, rfl, rfl, rfl⟩

end Linuxyz.Kxdp
