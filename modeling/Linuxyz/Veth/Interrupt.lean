import Linuxyz.Veth.Conserve

/-!
# Linuxyz.Veth.Interrupt

The status words and what the interrupt handler does with them.

A status word is changed without a lock by the transmissions on its device,
which set the transmit bit, and by those on the peer, which set the receive
bit; each change is a load and a store.  `Whole` is the condition that no store
undoes a change made after its load.

`Tx` follows the transmit bit: a socket buffer is freed and a frame counted
exactly when the handler finds the bit that its transmission has set.  `Rx`
follows the receive bit: where a packet is queued, a poll runs or is scheduled,
or the transmission that queued it has still to announce it.
-/

namespace Linuxyz.Veth

open Function (update update_self update_of_ne)

variable {s s' : Sys} {d e : Dev} {n n' : Net}

/-! ## conditions on a step -/

/-- A transmission on `d` that stores a status word leaves the bit of the other
side as it is. -/
def WholeAt (s : Sys) (d : Dev) : XmitPc → Prop
  | .rxStore v => v.tx = (s.priv d.peer).status.tx
  | .txStore v => v.rx = (s.priv d).status.rx
  | _ => True

/-- No store of a `status |=` undoes another. -/
def Whole (n : Net) : Act → Prop
  | .runXmit d => WholeAt n.sys d (n.xmit d).pc
  | _ => True

/-- A transmission about to take a buffer finds one. -/
def Pooled (n : Net) : Act → Prop
  | .runXmit d => (n.xmit d).pc = .get → (n.sys.priv d).ppool ≠ none
  | _ => True

instance : DecidablePred (WholeAt s d)
  | .rxStore v => inferInstanceAs (Decidable (v.tx = (s.priv d.peer).status.tx))
  | .txStore v => inferInstanceAs (Decidable (v.rx = (s.priv d).status.rx))
  | .idle | .enter _ | .get | .fill _ | .enqueue _ | .rxTest | .rxLoad | .rxIntr | .txLen |
    .txLoad | .lockupTest
  | .txIntr => .isTrue trivial

instance : DecidablePred (Whole n)
  | .runXmit d => inferInstanceAs (Decidable (WholeAt n.sys d (n.xmit d).pc))
  | .xmit _ _ | .poll _ _ | .runPoll _ _ => .isTrue trivial

instance : DecidablePred (Pooled n)
  | .runXmit d => inferInstanceAs (Decidable ((n.xmit d).pc = .get → (n.sys.priv d).ppool ≠ none))
  | .xmit _ _ | .poll _ _ | .runPoll _ _ => .isTrue trivial

/-! ## the handler -/

/-- What `dummveth_napi_interrupt` on `d` does. -/
structure Interrupted (s : Sys) (d : Dev) (s' : Sys) : Prop where
  other : ∀ e, e ≠ d → s'.priv e = s.priv e
  status : (s'.priv d).status = ⟨false, false⟩
  scheduled : (s'.priv d).scheduled = ((s.priv d).scheduled || (s.priv d).status.rx)
  rxQueue : (s'.priv d).rxQueue = (s.priv d).rxQueue
  enabled : (s'.priv d).rxIntEnabled = (s.priv d).rxIntEnabled
  transmit :
    ((s.priv d).status.tx = true ∧ (s'.priv d).skb = none ∧
      (s'.priv d).stats.txPackets = (s.priv d).stats.txPackets + 1 ∧
      s'.freed = s.freed ++ (s.priv d).skb.toList) ∨
    ((s.priv d).status.tx = false ∧ (s'.priv d).skb = (s.priv d).skb ∧
      (s'.priv d).stats.txPackets = (s.priv d).stats.txPackets ∧ s'.freed = s.freed)

/-- What the interrupt does, from its definition. -/
theorem napiInterrupt_spec (h : napiInterrupt s d = some s') : Interrupted s d s' := by
  unfold napiInterrupt at h
  split at h
  · cases h
  · split at h
    · rename_i htx
      cases h
      refine ⟨fun e he => by simp [he], ?_, ?_, ?_, ?_, .inl ⟨htx, ?_, ?_, rfl⟩⟩ <;>
        simp [Priv.receiveIntr, Priv.transmitIntr]
    · rename_i htx
      cases h
      refine ⟨fun e he => by simp [Sys.setPriv, he], ?_, ?_, ?_, ?_,
        .inr ⟨by simpa using htx, ?_, ?_, rfl⟩⟩ <;>
        simp [Sys.setPriv, Priv.receiveIntr]

/-! ## the transmit bit -/

/-- The transmit bit and the socket buffer of the device during a transmission. -/
def TxBit (pc : XmitPc) (tx : Bool) (skb : Option Nat) : Prop :=
  match pc with
  | .idle | .enter _ => tx = false ∧ skb = none
  | .lockupTest | .txIntr => tx = skb.isSome
  | _ => tx = false ∧ skb.isSome = true

/-- The transmission has stored its socket buffer and not yet set the bit. -/
def XmitPc.Carrying : XmitPc → Prop
  | .idle | .enter _ | .lockupTest | .txIntr => False
  | _ => True

theorem txBit_iff (h : pc.Carrying) : TxBit pc tx skb ↔ tx = false ∧ skb.isSome = true := by
  cases pc <;> first | rfl | cases h

/-- The socket buffers handed to the device and not freed. -/
def outstanding (x : Xmit) (p : Priv) : List Nat :=
  match x.pc with
  | .enter skb => [skb]
  | _ => p.skb.toList

theorem outstanding_of_carrying {x : Xmit} (h : x.pc.Carrying) (p : Priv) :
    outstanding x p = p.skb.toList := by
  obtain ⟨pc, buf⟩ := x
  cases pc <;> first | rfl | cases h

structure TxAt (x : Xmit) (p : Priv) (sent : List (List UInt8)) : Prop where
  room : x.pc ≠ .idle → headersLen ≤ x.buf.length
  bit : TxBit x.pc p.status.tx p.skb
  count : p.stats.txPackets + (outstanding x p).length = sent.length

/-- Every frame sent is counted or under way, and every socket buffer freed or
outstanding. -/
structure Tx (n : Net) : Prop where
  dev : ∀ d, TxAt (n.xmit d) (n.sys.priv d) (n.sent d)
  freed : ∀ d x, n.sys.freed.count x + (outstanding (n.xmit d) (n.sys.priv d)).count x +
    (outstanding (n.xmit d.peer) (n.sys.priv d.peer)).count x = (List.range n.skbs).count x

/-- What `Tx` reads of the private data. -/
def Priv.txView (p : Priv) : Bool × Option Nat × Nat := (p.status.tx, p.skb, p.stats.txPackets)

/-- The transmit side depends on bit, socket buffer and counter only. -/
theorem txAt_congr {x : Xmit} {p p' : Priv} (h : p'.txView = p.txView) :
    TxAt x p' sent ↔ TxAt x p sent := by
  simp only [Priv.txView, Prod.mk.injEq] at h
  obtain ⟨htx, hskb, hcount⟩ := h
  constructor
  · rintro ⟨hroom, hbit, hcnt⟩
    exact ⟨hroom, by rwa [htx, hskb] at hbit, by rwa [outstanding, hskb, hcount] at hcnt⟩
  · rintro ⟨hroom, hbit, hcnt⟩
    exact ⟨hroom, by rwa [htx, hskb], by rwa [outstanding, hskb, hcount]⟩

theorem outstanding_congr {x : Xmit} {p p' : Priv} (h : p'.txView = p.txView) :
    outstanding x p' = outstanding x p := by
  simp only [Priv.txView, Prod.mk.injEq] at h
  rw [outstanding, outstanding, h.2.1]

/-- Only device `d` changes. -/
theorem Tx.update (h : Tx n) (d : Dev) (hxmit : n'.xmit d.peer = n.xmit d.peer)
    (hsent : n'.sent d.peer = n.sent d.peer)
    (hpriv : (n'.sys.priv d.peer).txView = (n.sys.priv d.peer).txView)
    (hd : TxAt (n'.xmit d) (n'.sys.priv d) (n'.sent d))
    (hfreed : ∀ x, n'.sys.freed.count x + (outstanding (n'.xmit d) (n'.sys.priv d)).count x +
      (List.range n.skbs).count x =
        n.sys.freed.count x + (outstanding (n.xmit d) (n.sys.priv d)).count x +
          (List.range n'.skbs).count x) :
    Tx n' := by
  have hpeer : TxAt (n'.xmit d.peer) (n'.sys.priv d.peer) (n'.sent d.peer) := by
    rw [hxmit, hsent, txAt_congr hpriv]
    exact h.dev d.peer
  have hcount : ∀ x, n'.sys.freed.count x + (outstanding (n'.xmit d) (n'.sys.priv d)).count x +
      (outstanding (n'.xmit d.peer) (n'.sys.priv d.peer)).count x =
        (List.range n'.skbs).count x := by
    intro x
    have hold := h.freed d x
    have hnew := hfreed x
    rw [hxmit, outstanding_congr hpriv]
    omega
  refine ⟨fun e => ?_, fun e x => ?_⟩
  · by_cases hed : e = d
    · exact hed ▸ hd
    · exact Dev.eq_peer_of_ne hed ▸ hpeer
  · have hx := hcount x
    by_cases hed : e = d
    · exact hed ▸ hx
    · rw [Dev.eq_peer_of_ne hed, Dev.peer_peer]
      omega

/-- A step that the transmissions do not notice. -/
theorem Tx.same (h : Tx n) (hs : Same Priv.txView n.sys n'.sys)
    (hfreed : n'.sys.freed = n.sys.freed) (hxmit : n'.xmit = n.xmit) (hsent : n'.sent = n.sent)
    (hskbs : n'.skbs = n.skbs) : Tx n' where
  dev := by
    intro d
    rw [hxmit, hsent, txAt_congr (hs d)]
    exact h.dev d
  freed := by
    intro d x
    rw [hxmit, hfreed, hskbs, outstanding_congr (hs d), outstanding_congr (hs d.peer)]
    exact h.freed d x

/-- A transmission goes on with its socket buffer. -/
theorem Tx.carry (h : Tx n) (hs : Same Priv.txView n.sys s) (hfreed : s.freed = n.sys.freed)
    (hold : (n.xmit d).pc.Carrying) (hnew : pc.Carrying) : Tx (n.onXmit d s pc) := by
  have hx : (n.onXmit d s pc).xmit d = { n.xmit d with pc := pc } := update_self ..
  have hout : outstanding { n.xmit d with pc := pc } (s.priv d) =
      outstanding (n.xmit d) (n.sys.priv d) := by
    have hskb : (s.priv d).skb = (n.sys.priv d).skb := congrArg (fun v => v.2.1) (hs d)
    rw [outstanding_of_carrying hnew, outstanding_of_carrying hold, hskb]
  obtain ⟨hroom, hbit, hcount⟩ := (txAt_congr (hs d)).mpr (h.dev d)
  have hidle : (n.xmit d).pc ≠ .idle := fun heq => by rw [heq] at hold; exact hold
  refine h.update d (update_of_ne (Dev.peer_ne d) ..) rfl (hs d.peer) ?_ fun x => ?_
  · rw [hx]
    refine ⟨fun _ => hroom hidle, (txBit_iff hnew).mpr ((txBit_iff hold).mp hbit), ?_⟩
    have hsame := congrArg List.length (outstanding_congr (x := n.xmit d) (hs d))
    rw [hsame, ← hout] at hcount
    exact hcount
  · rw [hx]
    simp only [Net.onXmit, hout, hfreed]

/-- The handler counts a frame and frees its socket buffer exactly when the
transmit bit is set. -/
theorem Tx.interrupt (h : Tx n) (hi : Interrupted n.sys d s) : Tx { n with sys := s } := by
  obtain ⟨hroom, hbit, hcount⟩ := h.dev d
  have hpeer : (s.priv d.peer).txView = (n.sys.priv d.peer).txView := by
    rw [hi.other d.peer (Dev.peer_ne d)]
  have htx' : (s.priv d).status.tx = false := by rw [hi.status]
  rcases hi.transmit with ⟨htx, hskb, hpackets, hfreed⟩ | ⟨htx, hskb, hpackets, hfreed⟩
  · -- only a transmission past its store has the bit set
    have hpc : (n.xmit d).pc = .lockupTest ∨ (n.xmit d).pc = .txIntr := by
      cases hpc : (n.xmit d).pc <;> simp_all [TxBit]
    have hsome : (n.sys.priv d).skb.isSome = true := by
      rcases hpc with hpc | hpc <;> simp only [TxBit, hpc, htx] at hbit <;> exact hbit.symm
    obtain ⟨k, hk⟩ := Option.isSome_iff_exists.mp hsome
    have hout : outstanding (n.xmit d) (n.sys.priv d) = [k] := by
      rcases hpc with hpc | hpc <;> simp [outstanding, hpc, hk]
    have hout' : outstanding (n.xmit d) (s.priv d) = [] := by
      rcases hpc with hpc | hpc <;> simp [outstanding, hpc, hskb]
    refine h.update d rfl rfl hpeer ⟨hroom, ?_, ?_⟩ fun x => ?_
    · rcases hpc with hpc | hpc <;> simp [TxBit, hpc, htx', hskb]
    · rw [hout] at hcount
      simpa only [hout', hpackets, List.length_nil, List.length_singleton] using hcount
    · simp only [hout, hout', hfreed, hk, Option.toList_some, List.count_append, List.count_nil]
      omega
  · have hview : (s.priv d).txView = (n.sys.priv d).txView := by
      simp only [Priv.txView, htx, htx', hskb, hpackets]
    refine h.same (fun e => ?_) hfreed rfl rfl rfl
    by_cases hed : e = d
    · rw [hed, hview]
    · rw [hi.other e hed]

/-- The transmission ends with its own interrupt. -/
theorem Tx.returns (h : Tx n) (hpc : (n.xmit d).pc = .txIntr)
    (htx : (n.sys.priv d).status.tx = false) : Tx (n.onXmit d n.sys .idle) := by
  have hx : (n.onXmit d n.sys .idle).xmit d = { n.xmit d with pc := .idle } :=
    update_self ..
  obtain ⟨hroom, hbit, hcount⟩ := h.dev d
  have hskb : (n.sys.priv d).skb = none := by simpa [TxBit, hpc, htx] using hbit
  have hout : outstanding { n.xmit d with pc := .idle } (n.sys.priv d) =
      outstanding (n.xmit d) (n.sys.priv d) := by
    simp only [outstanding, hpc]
  refine h.update d (update_of_ne (Dev.peer_ne d) ..) rfl rfl ?_ fun x => ?_
  · rw [hx]
    exact ⟨fun hne => absurd rfl hne, ⟨htx, hskb⟩,
      hcount.symm ▸ congrArg _ (congrArg List.length hout)⟩
  · rw [hx]
    simp only [Net.onXmit, hout]

theorem same_txView_setStatus {v : Status} (h : v.tx = (s.priv d).status.tx) :
    Same Priv.txView s (s.setStatus d v) := same_setPriv (by simp only [Priv.txView, h])

/-- A new transmission brings one frame and one socket buffer. -/
theorem Tx.callXmit (h : Tx n) (hpc : (n.xmit d).pc = .idle) (data : List UInt8) :
    Tx (n.callXmit d data) := by
  have hx : (n.callXmit d data).xmit d = ⟨.enter n.skbs, padded data⟩ := update_self ..
  have hsent : (n.callXmit d data).sent d = n.sent d ++ [padded data] := update_self ..
  obtain ⟨-, hbit, hcount⟩ := h.dev d
  rw [hpc] at hbit
  have hout : outstanding (n.xmit d) (n.sys.priv d) = [] := by simp [outstanding, hpc, hbit.2]
  refine h.update d (update_of_ne (Dev.peer_ne d) ..)
    (update_of_ne (Dev.peer_ne d) ..) rfl ?_
    fun x => ?_
  · rw [hx, hsent]
    refine ⟨fun _ => headersLen_le_length_padded data, hbit, ?_⟩
    rw [hout] at hcount
    simp only [outstanding, List.length_append, List.length_singleton, List.length_nil] at hcount ⊢
    exact congrArg (· + 1) hcount
  · rw [hx, hout]
    simp only [Net.callXmit, outstanding, List.range_succ, List.count_append, List.count_nil]
    omega

/-- The socket buffer is stored in the device. -/
theorem Tx.enter (h : Tx n) (hpc : (n.xmit d).pc = .enter skb) :
    Tx (n.onXmit d (n.sys.setSkb d skb) .get) := by
  have hx : (n.onXmit d (n.sys.setSkb d skb) .get).xmit d = { n.xmit d with pc := .get } :=
    update_self ..
  have hp : (n.sys.setSkb d skb).priv d = { n.sys.priv d with skb := some skb } :=
    update_self ..
  obtain ⟨hroom, hbit, hcount⟩ := h.dev d
  rw [hpc] at hbit
  have hout : outstanding (n.xmit d) (n.sys.priv d) = [skb] := by simp [outstanding, hpc]
  have hother : (n.sys.setSkb d skb).priv d.peer = n.sys.priv d.peer :=
    update_of_ne (Dev.peer_ne d) ..
  refine h.update d (update_of_ne (Dev.peer_ne d) ..) rfl (congrArg Priv.txView hother) ?_
    fun x => ?_
  · rw [hx]
    simp only [Net.onXmit, hp]
    exact ⟨fun _ => hroom (by rw [hpc]; simp), ⟨hbit.1, rfl⟩, by rw [hout] at hcount; exact hcount⟩
  · rw [hx, hout]
    simp only [Net.onXmit, hp, outstanding, Option.toList_some]
    rfl

/-- The store of the transmit bit. -/
theorem Tx.store (h : Tx n) (hpc : (n.xmit d).pc = .txStore v) :
    Tx (n.onXmit d (n.sys.setStatus d { v with tx := true }) .lockupTest) := by
  have hx : (n.onXmit d (n.sys.setStatus d { v with tx := true }) .lockupTest).xmit d =
      { n.xmit d with pc := .lockupTest } := update_self ..
  have hp : (n.sys.setStatus d { v with tx := true }).priv d =
      { n.sys.priv d with status := { v with tx := true } } := update_self ..
  have hother : (n.sys.setStatus d { v with tx := true }).priv d.peer = n.sys.priv d.peer :=
    update_of_ne (Dev.peer_ne d) ..
  obtain ⟨hroom, hbit, hcount⟩ := h.dev d
  rw [hpc] at hbit
  have hout : outstanding (n.xmit d) (n.sys.priv d) = (n.sys.priv d).skb.toList := by
    simp only [outstanding, hpc]
  refine h.update d (update_of_ne (Dev.peer_ne d) ..) rfl (congrArg Priv.txView hother) ?_
    fun x => ?_
  · rw [hx]
    simp only [Net.onXmit, hp]
    exact ⟨fun _ => hroom (by rw [hpc]; simp), hbit.2.symm, by rw [hout] at hcount; exact hcount⟩
  · rw [hx, hout]
    simp only [Net.onXmit, hp, outstanding]
    rfl

/-- No lockup is simulated, and the interrupt comes next. -/
theorem Tx.noLockup (h : Tx n) (hpc : (n.xmit d).pc = .lockupTest) :
    Tx (n.onXmit d n.sys .txIntr) := by
  have hx : (n.onXmit d n.sys .txIntr).xmit d = { n.xmit d with pc := .txIntr } :=
    update_self ..
  obtain ⟨hroom, hbit, hcount⟩ := h.dev d
  rw [hpc] at hbit
  have hout : outstanding (n.xmit d) (n.sys.priv d) = (n.sys.priv d).skb.toList := by
    simp only [outstanding, hpc]
  refine h.update d (update_of_ne (Dev.peer_ne d) ..) rfl rfl ?_ fun x => ?_
  · rw [hx]
    exact ⟨fun _ => hroom (by rw [hpc]; simp), hbit, by rw [hout] at hcount; exact hcount⟩
  · rw [hx, hout]
    rfl

/-- Every step that meets the two conditions keeps the account of the socket
buffers. -/
theorem Tx.step {act : Act} (h : Tx n) (hmove : Move 0 n act n') (hwhole : Whole n act)
    (hpooled : Pooled n act) : Tx n' := by
  cases hmove with
  | callXmit hpc => exact h.callXmit hpc _
  | enter hpc => exact h.enter hpc
  | @short d hpc hlt =>
      have hroom := (h.dev d).room (by rw [hpc]; simp)
      exact absurd hlt (Nat.not_lt.mpr hroom)
  | outOfPool hpc _ _ hpool => exact absurd hpool (hpooled hpc)
  | take hpc _ _ _ _ | enqueue hpc _ _ | txLen hpc =>
      exact h.carry (same_setPriv rfl) rfl (by rw [hpc]; trivial) trivial
  | fill hpc _ | rxOn hpc _ | rxOff hpc _ | rxLoad hpc | txLoad hpc =>
      exact h.carry (same_refl _ _) rfl (by rw [hpc]; trivial) trivial
  | rxStore hpc =>
      rw [Whole, hpc] at hwhole
      exact h.carry (same_txView_setStatus hwhole) rfl (by rw [hpc]; trivial) trivial
  | @rxIntr d s hpc hs =>
      have hi := h.interrupt (napiInterrupt_spec hs)
      exact hi.carry (d := d) (same_refl _ _) rfl (by rw [hpc]; trivial) trivial
  | txStore hpc => exact h.store hpc
  | lockUp _ hup => cases hup
  | noLockup hpc _ => exact h.noLockup hpc
  | txIntr hpc hs =>
      have hi := napiInterrupt_spec hs
      exact (h.interrupt hi).returns hpc (congrArg Status.tx hi.status)
  | callPoll _ | dequeue _ _ _ _ | release _ _ _ | wake _ _ | again _ _ =>
      exact h.same (same_setPriv rfl) rfl rfl rfl rfl
  | more _ _ _ | done _ _ | started _ _ _ | stopped _ _ _ | others _ _ _ | alone _ _ _
  | complete _ _ _ => exact h.same (same_refl _ _) rfl rfl rfl rfl
  | @receive d a pkt alloc _ _ =>
      refine h.same (same_setPriv ?_) rfl rfl rfl rfl
      cases alloc <;> rfl

/-! ## the receive bit -/

/-- The poll will look at the queue again, or be polled again. -/
def Poll.Looks (q : Poll) : Prop :=
  match q.pc with
  | .idle => False
  | .complete => q.budget ≤ q.npackets
  | _ => True

/-- The transmission has queued a packet and has still to raise the receive
interrupt. -/
def Announces (pc : XmitPc) (rx : Bool) : Prop :=
  match pc with
  | .rxTest | .rxLoad | .rxStore _ => True
  | .rxIntr => rx = true
  | _ => False

/-- A queued packet will be seen: by a poll, by a scheduled poll, or by one that
a transmission on the peer is about to schedule. -/
structure RxAt (pc : XmitPc) (q : Poll) (p : Priv) : Prop where
  enabled : p.rxIntEnabled = true
  seen : p.rxQueue ≠ none → p.scheduled = true ∨ q.Looks ∨ Announces pc p.status.rx

def Rx (n : Net) : Prop := ∀ d, RxAt (n.xmit d.peer).pc (n.poll d) (n.sys.priv d)

/-- What `Rx` reads of the private data. -/
def Priv.rxView (p : Priv) : Bool × Bool × Option Addr × Bool :=
  (p.rxIntEnabled, p.scheduled, p.rxQueue, p.status.rx)

/-- The receive side depends on its four fields only. -/
theorem rxAt_congr {q : Poll} {p p' : Priv} (h : p'.rxView = p.rxView) :
    RxAt pc q p' ↔ RxAt pc q p := by
  simp only [Priv.rxView, Prod.mk.injEq] at h
  obtain ⟨henabled, hscheduled, hrx, hbit⟩ := h
  constructor
  · rintro ⟨he, hseen⟩
    exact ⟨henabled ▸ he, by rwa [hrx, hscheduled, hbit] at hseen⟩
  · rintro ⟨he, hseen⟩
    exact ⟨henabled.trans he, by rwa [hrx, hscheduled, hbit]⟩

/-- A step of a transmission on `d` that the receiving side does not notice. -/
theorem Rx.onXmit (h : Rx n) (hs : Same Priv.rxView n.sys s)
    (hpc : Announces (n.xmit d).pc (s.priv d.peer).status.rx →
      Announces pc (s.priv d.peer).status.rx) :
    Rx (n.onXmit d s pc) := by
  intro e
  have he := (rxAt_congr (hs e)).mpr (h e)
  by_cases hed : e.peer = d
  · subst hed
    rw [Dev.peer_peer] at hpc
    simp only [Net.onXmit, update_self]
    exact ⟨he.enabled, fun hrx => (he.seen hrx).imp_right (Or.imp_right hpc)⟩
  · simp only [Net.onXmit, update_of_ne hed]
    exact he

/-- A step of a poll on `d`. -/
theorem Rx.onPoll {q : Poll} (h : Rx n)
    (hs : ∀ e, e ≠ d → (n'.sys.priv e).rxView = (n.sys.priv e).rxView) (hxmit : n'.xmit = n.xmit)
    (hpoll : n'.poll = update n.poll d q)
    (hd : RxAt (n.xmit d.peer).pc q (n'.sys.priv d)) : Rx n' := by
  intro e
  rw [hxmit, hpoll]
  by_cases hed : e = d
  · subst hed
    rw [update_self]
    exact hd
  · rw [update_of_ne hed, rxAt_congr (hs e hed)]
    exact h e

/-- The handler schedules a poll for the receive bit it clears. -/
theorem Rx.interrupt (h : Rx n) (hi : Interrupted n.sys d s) : Rx { n with sys := s } := by
  intro e
  by_cases hed : e = d
  · subst hed
    obtain ⟨henabled, hseen⟩ := h e
    refine ⟨hi.enabled.trans henabled, fun hrx => ?_⟩
    simp only [hi.scheduled, Bool.or_eq_true]
    rw [hi.rxQueue] at hrx
    rcases hseen hrx with hscheduled | hlooks | hannounces
    · exact .inl (.inl hscheduled)
    · exact .inr (.inl hlooks)
    · cases hpc : (n.xmit e.peer).pc with
      | rxIntr =>
          rw [hpc] at hannounces
          exact .inl (.inr hannounces)
      | rxTest | rxLoad | rxStore v => exact .inr (.inr trivial)
      | _ =>
          rw [hpc] at hannounces
          exact hannounces.elim
  · have hother := hi.other e hed
    simp only [hother]
    exact h e

theorem same_rxView_setStatus {v : Status} (h : v.rx = (s.priv d).status.rx) :
    Same Priv.rxView s (s.setStatus d v) := same_setPriv (by simp only [Priv.rxView, h])

/-- A transmission has queued a packet, or set the receive bit, on its peer. -/
theorem Rx.announce (h : Rx n) (hpeer : s.priv d = n.sys.priv d)
    (henabled : (s.priv d.peer).rxIntEnabled = (n.sys.priv d.peer).rxIntEnabled)
    (hpc : Announces pc (s.priv d.peer).status.rx) : Rx (n.onXmit d s pc) := by
  intro e
  by_cases hed : e = d
  · subst hed
    simp only [Net.onXmit, update_of_ne (Dev.peer_ne e), hpeer]
    exact h e
  · obtain rfl := Dev.eq_peer_of_ne hed
    simp only [Net.onXmit, Dev.peer_peer, update_self]
    exact ⟨henabled.trans (h d.peer).enabled, fun _ => .inr (.inr hpc)⟩

/-- A poll that will look at the queue again. -/
theorem Rx.looks {q : Poll} (h : Rx n)
    (hs : ∀ e, e ≠ d → (n'.sys.priv e).rxView = (n.sys.priv e).rxView)
    (henabled : (n'.sys.priv d).rxIntEnabled = (n.sys.priv d).rxIntEnabled)
    (hxmit : n'.xmit = n.xmit) (hpoll : n'.poll = update n.poll d q) (hq : q.Looks) :
    Rx n' :=
  h.onPoll hs hxmit hpoll ⟨henabled.trans (h d).enabled, fun _ => .inr (.inl hq)⟩

theorem Rx.goto (h : Rx n) (hs : Same Priv.rxView n.sys s)
    (hq : ({ n.poll d with pc := pc } : Poll).Looks) : Rx (n.onPoll d s pc) :=
  h.looks (fun e _ => hs e) (congrArg Prod.fst (hs d)) rfl rfl hq

/-- Every step that meets the condition keeps queued packets in view. -/
theorem Rx.step {act : Act} (h : Rx n) (hmove : Move 0 n act n') (hwhole : Whole n act) :
    Rx n' := by
  cases hmove with
  | @callXmit d data hpc =>
      have hx : Rx (n.onXmit d n.sys (.enter n.skbs)) :=
        h.onXmit (same_refl _ _) (by rw [hpc]; exact False.elim)
      intro e
      have he := hx e
      by_cases hed : e.peer = d
      · simpa [Net.callXmit, Net.onXmit, hed] using he
      · simpa [Net.callXmit, Net.onXmit, hed] using he
  | enter hpc | outOfPool hpc _ _ _ | take hpc _ _ _ _ | txLen hpc =>
      exact h.onXmit (same_setPriv rfl) (by rw [hpc]; exact False.elim)
  | short hpc _ | fill hpc _ | txLoad hpc | noLockup hpc _ =>
      exact h.onXmit (same_refl _ _) (by rw [hpc]; exact False.elim)
  | @enqueue d a pkt hpc _ _ =>
      refine h.announce ?_ ?_ trivial
      · simp [Sys.putRx, Sys.setPriv, Sys.write]
      · simp [Sys.putRx, Sys.setPriv]
  | rxOn hpc _ | rxLoad hpc => exact h.onXmit (same_refl _ _) fun _ => trivial
  | @rxOff d hpc hoff =>
      rw [(h d.peer).enabled] at hoff
      cases hoff
  | @rxStore d v hpc =>
      refine h.announce ?_ ?_ ?_
      · simp [Sys.setStatus, Sys.setPriv]
      · simp [Sys.setStatus, Sys.setPriv]
      · simp [Announces, Sys.setStatus, Sys.setPriv]
  | @rxIntr d s hpc hs =>
      have hi := napiInterrupt_spec hs
      refine (h.interrupt hi).onXmit (d := d) (same_refl _ _) fun hannounces => ?_
      simp [hpc, hi.status, Announces] at hannounces
  | txStore hpc =>
      rw [Whole, hpc] at hwhole
      exact h.onXmit (same_rxView_setStatus hwhole) (by rw [hpc]; exact False.elim)
  | lockUp _ hup => cases hup
  | @txIntr d s hpc hs =>
      exact (h.interrupt (napiInterrupt_spec hs)).onXmit (d := d) (same_refl _ _)
        (by rw [hpc]; exact False.elim)
  | callPoll _ =>
      refine h.looks (fun e hed => ?_) ?_ rfl rfl trivial
      · simp [Net.callPoll, Sys.setScheduled, Sys.setPriv, hed]
      · simp [Net.callPoll, Sys.setScheduled, Sys.setPriv]
  | more _ _ _ | started _ _ _ | stopped _ _ _ | others _ _ _ | alone _ _ _ =>
      exact h.goto (same_refl _ _) trivial
  | @done d _ hpc hdone =>
      rcases hdone with hbudget | hrx
      · exact h.goto (same_refl _ _) hbudget
      · exact h.onPoll (fun _ _ => rfl) rfl rfl ⟨(h d).enabled, fun hne => absurd hrx hne⟩
  | dequeue _ _ _ _ =>
      refine h.looks (fun e hed => ?_) ?_ rfl rfl trivial
      · simp [Net.takeRx, Sys.setRxQueue, Sys.setPriv, hed]
      · simp [Net.takeRx, Sys.setRxQueue, Sys.setPriv]
  | receive _ _ =>
      refine h.looks (fun e hed => ?_) ?_ rfl rfl trivial
      · simp [Net.countRx, Sys.receive, Sys.setPriv, hed]
      · simp [Net.countRx, Sys.receive, Sys.setPriv]
  | release _ _ _ | wake _ _ => exact h.goto (same_setPriv rfl) trivial
  | @complete d _ hpc hlt _ =>
      obtain ⟨henabled, hseen⟩ := h d
      refine h.onPoll (fun _ _ => rfl) rfl rfl ⟨henabled, fun hne => ?_⟩
      rcases hseen hne with hscheduled | hlooks | hannounces
      · exact .inl hscheduled
      · rw [Poll.Looks, hpc] at hlooks
        exact absurd hlt (Nat.not_lt.mpr hlooks)
      · exact .inr (.inr hannounces)
  | @again d _ hpc _ =>
      refine h.onPoll (fun e hed => ?_) rfl rfl ⟨?_, fun _ => .inl ?_⟩
      · simp [Net.onPoll, Sys.setScheduled, Sys.setPriv, hed]
      · simpa [Net.onPoll, Sys.setScheduled, Sys.setPriv] using (h d).enabled
      · simp [Net.onPoll, Sys.setScheduled, Sys.setPriv]

end Linuxyz.Veth
