import Linuxyz.Lib.Ethernet
import Linuxyz.Lib.System
import Linuxyz.Xfrm.Transparent

/-!
# Linuxyz.Xfrm.Skb

Who frees the socket buffers of `kxfrm/cbc/kxfrm.c`.

`kxfrm_xmit` keeps the socket buffer in `priv->skb`, and the transmit interrupt
at the end of `kxfrm_hw_tx` frees it.  A return before that interrupt keeps the
buffer, and the next call overwrites the pointer; a store outside a block ends the
call before it returns.  `Completes` is the condition that neither happens; it is
stated by the outcomes of the calls of the kernel and by the sizes in the frame.
Between transmissions the peer may be polled, which puts packet buffers back into
the pool.
-/

namespace Linuxyz.Xfrm

open Buffer

variable {k : Kernel} {x : XfrmState} {s s' : Sys} {dev d : Dev} {buf : List UInt8}

/-! ## the calls -/

/-- `kxfrm_xmit`, which returns `0` on every path. -/
def kxfrmXmit (k : Kernel) (s : Sys) (skb : Nat) (data : List UInt8) (dev : Dev) : Option Sys :=
  kxfrmHwTx k (s.setPriv dev { s.priv dev with skb := some skb }) (padded data) dev

/-- `kxfrm_tx_release_buffer`. -/
def txReleaseBuffer (s : Sys) (pkt : Packet) : Option Sys :=
  (spinLock s pkt.dev).map fun s =>
    let p := s.priv pkt.dev
    let s := spinUnlock (s.setPriv pkt.dev { p with ppool := pkt :: p.ppool }) pkt.dev
    if p.stopped ∧ p.ppool = [] then s.setPriv pkt.dev { s.priv pkt.dev with stopped := false }
    else s

/-- `kxfrm_rx_cons_buf`. -/
def rxConsBuf (s : Sys) (d : Dev) : Option (Option Packet × Sys) :=
  (spinLock s d).map fun s =>
    match (s.priv d).rxQueue with
    | [] => (none, spinUnlock s d)
    | pkt :: rest => (some pkt, spinUnlock (s.setPriv d { s.priv d with rxQueue := rest }) d)

/-- The loop of `kxfrm_poll` with what is left of the budget.  The socket buffers
it allocates and its counters are left out. -/
def pollLoop (d : Dev) : Nat → Sys → Option (Sys × Nat)
  | 0, s => some (s, 0)
  | left + 1, s =>
      if (s.priv d).rxQueue = [] then some (s, left + 1)
      else
        (rxConsBuf s d).bind fun
          | (none, _) => none
          | (some pkt, s) => (txReleaseBuffer s pkt).bind (pollLoop d left)

/-- `kxfrm_poll`.  A poll that used up its budget stays scheduled. -/
def kxfrmPoll (s : Sys) (budget : Nat) (d : Dev) : Option Sys :=
  (pollLoop d budget s).bind fun (s, left) =>
    if left = 0 then some s
    else (spinLock s d).map fun s =>
      spinUnlock (s.setPriv d { s.priv d with napiScheduled := false }) d

/-- The module and the number of socket buffers it was handed, which are numbered
in that order. -/
structure Calls where
  sys : Sys
  skbs : Nat

inductive Call where
  | xmit (k : Kernel) (data : List UInt8)
  | poll (budget : Nat)

def callStep (dev : Dev) (c : Calls) : Call → Option Calls
  | .xmit k data => (kxfrmXmit k c.sys c.skbs data dev).map fun s => ⟨s, c.skbs + 1⟩
  | .poll budget => (kxfrmPoll c.sys budget dev.peer).map fun s => ⟨s, c.skbs⟩

/-- A device after `kxfrm_setup`. -/
def Priv.new (d : Dev) (poolSize : Nat) : Priv where
  ppool := List.replicate poolSize ⟨d, 0, []⟩
  rxQueue := []
  rxIntEnabled := true
  rxIntr := false
  txIntr := false
  txPacketlen := 0
  skb := none
  lock := false
  txPackets := 0
  txBytes := 0
  stopped := false
  napiScheduled := false

/-- Both devices after `kxfrm_setup`, with `lockup` at its default. -/
def Calls.start (poolSize : Nat) (spiVals : Dev → UInt32) : Calls :=
  ⟨⟨fun d => .new d poolSize, spiVals, 0, []⟩, 0⟩

/-- Transmissions on `dev` and polls of its peer. -/
def callSystem (dev : Dev) (poolSize : Nat) (spiVals : Dev → UInt32) : System Calls Call where
  init c := c = .start poolSize spiVals
  step := callStep dev

/-! ## the condition -/

/-- A cipher request on whole blocks writes as many bytes as it reads. -/
structure CbcLength (k : Kernel) : Prop where
  decrypt : ∀ key iv bs, 16 ∣ bs.length → (k.cbcDecrypt key iv bs).length = bs.length
  encrypt : ∀ key iv bs, 16 ∣ bs.length → (k.cbcEncrypt key iv bs).length = bs.length

/-- Every call of the ESP branch whose failure is kept in `err` succeeds. -/
structure EspCallsOk (k : Kernel) : Prop where
  cipher : CbcLength k
  blocks : Nonempty (Blocks k)
  verify : k.hmacVerify.Ok
  setkey : k.setkey = 0
  decrypt : k.decrypt = 0
  encrypt : k.encrypt = 0
  sign : k.hmacSign.Ok

/-- The ESP branch stays inside its blocks, which have eight times the bytes behind the
IV: `hmac_sha256` has room for the 32 bytes it stores, and an authentic frame has a payload
of whole cipher blocks in which the length field of the inner packet, as it is read from
`buffer_dst`, fits the block. -/
structure EspFits (k : Kernel) (x : XfrmState) (buf : List UInt8) : Prop where
  digest : 62 ≤ buf.length
  payload : TagOk k x buf → 74 ≤ buf.length ∧ 16 ∣ (payload buf).length
  inner : TagOk k x buf → ∀ b : Blocks k,
    paddedLen (be16 (overwrite (fresh buf b.dst) 0 (inner k x buf)) 2) ≤ bufferSize buf

/-- `ETH_DATA_LEN`, the room of a packet buffer. -/
def ethDataLen : Nat := 1500

/-- A transmission finds the device's network and a packet buffer with room for the frame,
and for an ESP frame the state, no failing call and no store outside a block. -/
def Completes (dev : Dev) (c : Calls) : Call → Prop
  | .xmit k data =>
      k.devNet = true ∧ (c.sys.priv dev).ppool ≠ [] ∧ (padded data).length ≤ ethDataLen ∧
        (protocol (padded data) = ipprotoEsp →
          ∃ x, k.xfrmStateLookup (htonl (c.sys.spiVals dev)) = some x ∧ EspCallsOk k ∧
            EspFits k x (padded data))
  | .poll _ => True

/-! ## the ESP branch -/

theorem dvd_paddedLen (totLen : Nat) : 16 ∣ paddedLen totLen := (isLeast_paddedLen totLen).1.1

/-- With no failing call inside and room for the digest, `hmac_sha256` returns zero. -/
theorem finishes_hmacSha256 {calls : HmacCalls} {R : Int → Prop} (h : calls.Ok)
    (key ikm : List UInt8) {okm : List UInt8} (hroom : 32 ≤ okm.length) :
    Finishes (hmacSha256 k calls key ikm okm) (fun r => r.1 = 0 ∧ r.2.length = okm.length) R := by
  rw [hmacSha256_of_ok h key ikm hroom]
  exact .pure ⟨rfl, length_overwrite (by rw [Vector.length_toList]; omega)⟩

/-- The re-encryption reads and writes as many bytes as the inner packet has with its
padding. -/
theorem finishes_reencrypt (h : EspCallsOk k) (key nonce : List UInt8) {dst final : List UInt8}
    {pktLen : Nat} (hblocks : 16 ∣ pktLen) (hdst : pktLen ≤ dst.length)
    (hfinal : pktLen ≤ final.length) :
    Finishes (reencrypt k key nonce dst final pktLen) (fun l => l.length = final.length)
      (· = 0) := by
  simp only [reencrypt, h.encrypt, ne_eq, not_true_eq_false, if_false]
  refine (finishes_readFront hdst).bind fun plain hplain => finishes_copy ?_
  rw [h.cipher.encrypt key nonce plain (hplain ▸ hblocks)]
  omega

/-- The comparison with the received ciphertext leaves with `err = 0` or goes on. -/
theorem finishes_espReencrypt (h : EspCallsOk k) (src : List UInt8) {dst final : List UInt8}
    (hdst : paddedLen (be16 dst 2) ≤ dst.length) (hfinal : paddedLen (be16 dst 2) ≤ final.length) :
    Finishes (espReencrypt k x buf src dst final) (fun l => l.length = final.length) (· = 0) := by
  have hmatch (l : List UInt8) (hl : l.length = final.length) :
      Finishes (if src.take 16 ≠ l.take 16 then (throw 0 : Esp Unit) >>= fun _ => pure l
          else pure l) (fun l => l.length = final.length) (· = 0) := by
    split
    · exact .throw_bind rfl
    · exact .pure hl
  have hencrypt (l : List UInt8) (hl : l.length = final.length) :
      Finishes (reencrypt k x.key (nonceOrg buf) dst l (paddedLen (be16 dst 2)))
        (fun l => l.length = final.length) (· = 0) :=
    hl ▸ finishes_reencrypt h x.key (nonceOrg buf) (dvd_paddedLen _) hdst (hl ▸ hfinal)
  have htcp (l : List UInt8) (hl : l.length = final.length) :
      Finishes (if dst.getD 9 0 = ipprotoTcp then
          reencrypt k x.key (nonceOrg buf) dst l (paddedLen (be16 dst 2)) >>= fun l =>
            if src.take 16 ≠ l.take 16 then (throw 0 : Esp Unit) >>= fun _ => pure l else pure l
        else if src.take 16 ≠ l.take 16 then (throw 0 : Esp Unit) >>= fun _ => pure l else pure l)
        (fun l => l.length = final.length) (· = 0) := by
    split
    · exact (hencrypt l hl).bind hmatch
    · exact hmatch l hl
  simp only [espReencrypt]
  split
  · exact (hencrypt final rfl).bind htcp
  · exact htcp final rfl

/-- The blocks have room for the frame that is signed again, and the frame for what is
stored into it. -/
theorem finishes_espRebuild (hlen : 74 ≤ buf.length) (h : EspCallsOk k) {src dst final : List UInt8}
    (hsrc : src.length = bufferSize buf) (hdst : dst.length = bufferSize buf)
    (hfinal : final.length = bufferSize buf) :
    Finishes (espRebuild k x buf src dst final) (fun _ => True) (· = 0) := by
  have hsize : bufferSize buf = (buf.length - 58) * 8 := rfl
  have hn : (payloadlen buf).toNat = buf.length - 74 := by unfold payloadlen; omega
  have hesp : ((buf.drop 34).take 8).length = 8 := by simp; omega
  have hiv : (nonceOrg buf).length = 16 := by simp [nonceOrg]; omega
  unfold espRebuild
  simp only [hn]
  refine (finishes_copy (by omega)).bind fun src₁ h₁ => ?_
  refine (finishes_copy (by omega)).bind fun src₂ h₂ => ?_
  refine (finishes_readFront (by omega)).bind fun cipher hcipher => ?_
  refine (finishes_copy (by omega)).bind fun src₃ h₃ => ?_
  refine (finishes_readFront (by omega)).bind fun signed _ => ?_
  refine (finishes_hmacSha256 h.sign _ _ (by omega)).bind ?_
  rintro ⟨err, dst₁⟩ ⟨rfl, hdst₁⟩
  simp only [ne_eq, not_true_eq_false, if_false] at hdst₁ ⊢
  refine (finishes_copy (by omega)).bind fun buf₁ hbuf₁ => ?_
  refine (finishes_readFront (by omega)).bind fun newTag htag => ?_
  exact (finishes_copy (by omega)).bind fun buf₂ _ => .pure trivial

/-- An authentic frame goes through the branch, or leaves it with `err = 0`. -/
theorem finishes_espBody_of_tagOk (h : EspCallsOk k) (hfits : EspFits k x buf) (ht : TagOk k x buf)
    (hc : k.cipherAllocs) : Finishes (espBody k x buf) (fun _ => True) (· = 0) := by
  obtain ⟨b⟩ := h.blocks
  obtain ⟨hlen, hblocks⟩ := hfits.payload ht
  have hinner : (inner k x buf).length = (payload buf).length := h.cipher.decrypt _ _ _ hblocks
  have hfit : (payload buf).length ≤ bufferSize buf := by
    rw [length_payload hlen, bufferSize]
    omega
  have hd := length_digested (x := x) hfits.digest b
  have hsrc : (overwrite (digested k x buf b) 0 (payload buf)).length = bufferSize buf := by
    rw [length_overwrite (by omega), hd]
  have hdst : (overwrite (fresh buf b.dst) 0 (inner k x buf)).length = bufferSize buf := by
    rw [length_overwrite (by rw [length_fresh]; omega), length_fresh]
  have hpkt := hfits.inner ht b
  have hcalls : CallsOk k := ⟨h.blocks, h.verify, hc, h.setkey, h.decrypt⟩
  rw [espBody, espVerify_of_ok hfits.digest b h.verify, if_pos ht, pure_bind]
  simp only [espDecrypt_of_ok hlen hinner hcalls hd (length_fresh buf b.dst), pure_bind]
  refine (finishes_espReencrypt h _ (by omega) (by rw [length_fresh]; exact hpkt)).bind ?_
  intro final hfinal
  exact finishes_espRebuild hlen h hsrc hdst (by rw [hfinal, length_fresh])

/-- With no failing call and no store outside a block, `esp_end` is reached, with
`err = 0`, whatever the frame. -/
theorem atEspEnd_of_fits (h : EspCallsOk k) (hfits : EspFits k x buf) :
    ∃ buf', atEspEnd k x buf = some (0, buf') := by
  obtain ⟨b⟩ := h.blocks
  by_cases ht : TagOk k x buf
  · by_cases hc : k.cipherAllocs
    · rcases (finishes_espBody_of_tagOk h hfits ht hc).cases_run with ⟨buf', hr, -⟩ | ⟨e, hr, rfl⟩
      · exact ⟨buf', by rw [atEspEnd, hr]; rfl⟩
      · exact ⟨buf, by rw [atEspEnd, hr]; rfl⟩
    · exact ⟨buf, atEspEnd_of_bypass (hfits.payload ht).1 b h.verify (.inr hc)⟩
  · -- a wrong tag leaves before the payload is looked at
    refine ⟨buf, atEspEnd_of_throw ?_⟩
    rw [espBody, espVerify_of_ok hfits.digest b h.verify, if_neg ht]
    rfl

/-! ## sections that leave the socket buffers alone -/

/-- The lock, the transmit bit and the socket buffer. -/
def Priv.txView (p : Priv) : Bool × Bool × Option Nat := (p.lock, p.txIntr, p.skb)

/-- Nothing changes for the transmitting side. -/
structure Unmoved (s s' : Sys) : Prop where
  view : ∀ d, (s'.priv d).txView = (s.priv d).txView
  freed : s'.freed = s.freed
  lockup : s'.lockup = s.lockup

theorem Unmoved.refl (s : Sys) : Unmoved s s := ⟨fun _ => rfl, rfl, rfl⟩

theorem Unmoved.trans (h : Unmoved s s') (h' : Unmoved s' s'') : Unmoved s s'' :=
  ⟨fun d => (h'.view d).trans (h.view d), h'.freed.trans h.freed, h'.lockup.trans h.lockup⟩

/-- A change of private data elsewhere. -/
theorem unmoved_setPriv {p : Priv} (h : p.txView = (s.priv d).txView) :
    Unmoved s (s.setPriv d p) where
  view := by
    intro e
    by_cases hed : e = d
    · subst hed
      rw [Sys.setPriv_self, h]
    · rw [Sys.setPriv_of_ne s p hed]
  freed := rfl
  lockup := rfl

/-- A locked section. -/
theorem unmoved_section {p : Priv} (hlock : (s.priv d).lock = false)
    (h : p.txView = ({ s.priv d with lock := true } : Priv).txView) :
    Unmoved s (spinUnlock ((s.setPriv d { s.priv d with lock := true }).setPriv d p) d) where
  view := by
    intro e
    simp only [Priv.txView, Prod.mk.injEq] at h
    by_cases hed : e = d
    · subst hed
      simp [spinUnlock, Priv.txView, hlock, h]
    · simp [spinUnlock, hed]
  freed := rfl
  lockup := rfl

/-- To reserve a buffer does not move the socket buffer. -/
theorem unmoved_txReserveBuffer (h : txReserveBuffer s d = some (some pkt, s')) : Unmoved s s' := by
  cases hlock : (s.priv d).lock with
  | true => simp [txReserveBuffer, spinLock_held hlock] at h
  | false =>
      simp only [txReserveBuffer, spinLock_free hlock, Option.map_some, Option.some.injEq] at h
      split at h
      · cases h
      · cases h
        refine unmoved_section hlock ?_
        split <;> simp [Priv.txView]

theorem unmoved_rxProdBuf (h : rxProdBuf s d pkt = some s') : Unmoved s s' := by
  cases hlock : (s.priv d).lock with
  | true => simp [rxProdBuf, spinLock_held hlock] at h
  | false =>
      simp only [rxProdBuf, spinLock_free hlock, Option.map_some, Option.some.injEq] at h
      subst h
      exact unmoved_section hlock (by simp [Priv.txView])

/-- To take a received packet does not move the socket buffer. -/
theorem unmoved_rxConsBuf (h : rxConsBuf s d = some (some pkt, s')) : Unmoved s s' := by
  cases hlock : (s.priv d).lock with
  | true => simp [rxConsBuf, spinLock_held hlock] at h
  | false =>
      simp only [rxConsBuf, spinLock_free hlock, Option.map_some, Option.some.injEq] at h
      split at h
      · cases h
      · cases h
        exact unmoved_section hlock (by simp [Priv.txView])

/-- Nor does to give a buffer back. -/
theorem unmoved_txReleaseBuffer (h : txReleaseBuffer s pkt = some s') : Unmoved s s' := by
  cases hlock : (s.priv pkt.dev).lock with
  | true => simp [txReleaseBuffer, spinLock_held hlock] at h
  | false =>
      simp only [txReleaseBuffer, spinLock_free hlock, Option.map_some, Option.some.injEq] at h
      have hput := unmoved_section (s := s) (d := pkt.dev)
        (p := { s.priv pkt.dev with lock := true, ppool := pkt :: (s.priv pkt.dev).ppool }) hlock
          rfl
      split at h
      · subst h
        exact (by simpa using hput : Unmoved s _).trans (unmoved_setPriv rfl)
      · subst h
        simpa using hput

/-- Nor does the loop of a poll. -/
theorem unmoved_pollLoop (h : pollLoop d budget s = some (s', left)) : Unmoved s s' := by
  induction budget generalizing s with
  | zero =>
      cases h
      exact .refl _
  | succ budget ih =>
      rw [pollLoop] at h
      split at h
      · cases h
        exact .refl _
      · rw [Option.bind_eq_some_iff] at h
        obtain ⟨⟨r, s₁⟩, hs₁, h⟩ := h
        cases r with
        | none => cases h
        | some pkt =>
            simp only [Option.bind_eq_some_iff] at h
            obtain ⟨s₂, hs₂, h⟩ := h
            exact ((unmoved_rxConsBuf hs₁).trans (unmoved_txReleaseBuffer hs₂)).trans (ih h)

/-- Nor does a poll. -/
theorem unmoved_kxfrmPoll (h : kxfrmPoll s budget d = some s') : Unmoved s s' := by
  rw [kxfrmPoll, Option.bind_eq_some_iff] at h
  obtain ⟨⟨s₁, left⟩, hs₁, h⟩ := h
  refine (unmoved_pollLoop hs₁).trans ?_
  simp only at h
  split at h
  · cases h
    exact .refl _
  · cases hlock : (s₁.priv d).lock with
    | true => simp [spinLock_held hlock] at h
    | false =>
        simp only [spinLock_free hlock, Option.map_some, Option.some.injEq] at h
        subst h
        exact unmoved_section hlock (by simp [Priv.txView])

/-! ## the interrupts -/

/-- What `kxfrm_napi_interrupt` on `d` does to the transmitting side. -/
structure Interrupted (s : Sys) (d : Dev) (s' : Sys) : Prop where
  other : ∀ e, e ≠ d → s'.priv e = s.priv e
  view : (s'.priv d).txView = (false, false, if (s.priv d).txIntr then none else (s.priv d).skb)
  freed : s'.freed = s.freed ++ if (s.priv d).txIntr then (s.priv d).skb.toList else []
  lockup : s'.lockup = s.lockup

/-- What the interrupt does, from its definition. -/
theorem napiInterrupt_spec (h : napiInterrupt s d = some s') : Interrupted s d s' := by
  cases hlock : (s.priv d).lock with
  | true => simp [napiInterrupt, spinLock_held hlock] at h
  | false =>
      simp only [napiInterrupt, spinLock_free hlock, Option.map_some, Option.some.injEq] at h
      subst h
      refine ⟨fun e he => by simp [spinUnlock, Sys.setPriv, he], ?_, ?_, rfl⟩
      · cases (s.priv d).rxIntr <;> cases (s.priv d).txIntr <;> simp [spinUnlock, Priv.txView]
      · cases (s.priv d).rxIntr <;> cases (s.priv d).txIntr <;> simp [spinUnlock, Sys.setPriv]

/-- Between calls no lock is locked and no transmit bit is set. -/
structure Calm (s : Sys) : Prop where
  lock : ∀ d, (s.priv d).lock = false
  txIntr : ∀ d, (s.priv d).txIntr = false
  lockup : s.lockup = 0

theorem Calm.of_unmoved (h : Calm s) (hs : Unmoved s s') : Calm s' where
  lock := fun d => (congrArg Prod.fst (hs.view d)).trans (h.lock d)
  txIntr := fun d => (congrArg (fun v => v.2.1) (hs.view d)).trans (h.txIntr d)
  lockup := hs.lockup.trans h.lockup

/-- With no lock locked the loop of a poll goes through. -/
theorem Calm.pollLoop (h : Calm s) (d : Dev) (budget : Nat) :
    ∃ r, Xfrm.pollLoop d budget s = some r := by
  induction budget generalizing s with
  | zero => exact ⟨_, rfl⟩
  | succ budget ih =>
      rw [Xfrm.pollLoop]
      split
      · exact ⟨_, rfl⟩
      · next hqueue =>
          obtain ⟨pkt, rest, hq⟩ := List.exists_cons_of_ne_nil hqueue
          have hcons : ∃ s₁, rxConsBuf s d = some (some pkt, s₁) := by
            simp [rxConsBuf, spinLock_free (h.lock d), hq]
          obtain ⟨s₁, hs₁⟩ := hcons
          have h₁ := h.of_unmoved (unmoved_rxConsBuf hs₁)
          have hrelease : ∃ s₂, txReleaseBuffer s₁ pkt = some s₂ := by
            simp [txReleaseBuffer, spinLock_free (h₁.lock pkt.dev)]
          obtain ⟨s₂, hs₂⟩ := hrelease
          obtain ⟨r, hr⟩ := ih (h₁.of_unmoved (unmoved_txReleaseBuffer hs₂))
          simp only [hs₁, Option.bind_some, hs₂, hr]
          exact ⟨r, rfl⟩

/-- On a calm device a poll goes through. -/
theorem Calm.kxfrmPoll (h : Calm s) (budget : Nat) (d : Dev) :
    ∃ s', Xfrm.kxfrmPoll s budget d = some s' := by
  obtain ⟨⟨s₁, left⟩, hs₁⟩ := h.pollLoop d budget
  have h₁ := h.of_unmoved (unmoved_pollLoop hs₁)
  simp only [Xfrm.kxfrmPoll, hs₁, Option.bind_some]
  split
  · exact ⟨_, rfl⟩
  · rw [spinLock_free (h₁.lock d)]
    exact ⟨_, rfl⟩

/-- An interrupt with the transmit bit clear frees nothing. -/
theorem Calm.interrupt (h : Calm s) (hi : Interrupted s d s') : Unmoved s s' where
  view := by
    intro e
    by_cases hed : e = d
    · subst hed
      rw [hi.view, Priv.txView, h.lock, h.txIntr]
      rfl
    · rw [hi.other e hed]
  freed := by
    rw [hi.freed, h.txIntr]
    exact List.append_nil _
  lockup := hi.lockup

/-- A frame that is handed to the peer ends with the transmit interrupt, which
frees the socket buffer. -/
theorem Calm.forward (h : Calm s) (hpool : (s.priv dev).ppool ≠ []) (buf : List UInt8) :
    ∃ s', forward s buf dev = some s' ∧ Calm s' ∧ (s'.priv dev).skb = none ∧
      s'.freed = s.freed ++ (s.priv dev).skb.toList := by
  obtain ⟨s', -, hs, -⟩ := forward_of_ready ⟨h.lock dev, h.lock dev.peer, hpool⟩ buf
  refine ⟨s', hs, ?_⟩
  obtain ⟨pkt, rest, hp⟩ := List.exists_cons_of_ne_nil hpool
  obtain ⟨s₁, hs₁, -⟩ := txReserveBuffer_of_cons (h.lock dev) hp
  have h₁ := unmoved_txReserveBuffer hs₁
  simp only [Xfrm.forward, hs₁, Option.bind_some, Option.bind_eq_some_iff] at hs
  obtain ⟨s₂, hs₂, s₃, hs₃, hs⟩ := hs
  have h₂ := h₁.trans (unmoved_rxProdBuf hs₂)
  have h₃ : Unmoved s s₃ := by
    split at hs₃
    · have hbit := h₂.trans (unmoved_setPriv (s := s₂) (d := dev.peer)
        (p := { s₂.priv dev.peer with rxIntr := true }) rfl)
      exact hbit.trans ((h.of_unmoved hbit).interrupt (napiInterrupt_spec hs₃))
    · cases hs₃
      exact h₂
  have hcalm := h.of_unmoved h₃
  rw [if_neg (by simp [Sys.setPriv, hcalm.lockup])] at hs
  obtain ⟨hother, hview, hfreed, hlockup⟩ := napiInterrupt_spec hs
  simp only [Sys.setPriv_self, if_true, Priv.txView, Prod.mk.injEq] at hview
  obtain ⟨hlock, htx, hskb⟩ := hview
  refine ⟨⟨fun e => ?_, fun e => ?_, hlockup.trans hcalm.lockup⟩, hskb, ?_⟩
  · by_cases hed : e = dev
    · exact hed ▸ hlock
    · rw [hother e hed, Sys.setPriv_of_ne _ _ hed, hcalm.lock]
  · by_cases hed : e = dev
    · exact hed ▸ htx
    · rw [hother e hed, Sys.setPriv_of_ne _ _ hed, hcalm.txIntr]
  · have hsame : (s₃.priv dev).skb = (s.priv dev).skb := congrArg (fun v => v.2.2) (h₃.view dev)
    rw [hfreed, Sys.setPriv_self]
    simp only [if_true, hsame]
    rw [Sys.setPriv, h₃.freed]

/-! ## the theorem -/

/-- Between calls every socket buffer handed over has been freed, once. -/
structure Settled (dev : Dev) (c : Calls) : Prop where
  calm : Calm c.sys
  skb : (c.sys.priv dev).skb = none
  freed : c.sys.freed = List.range c.skbs

/-- A transmission that meets the condition hands a frame to the peer. -/
theorem forward_of_completes {c : Calls} (h : Completes dev c (.xmit k data)) :
    ∃ buf, kxfrmXmit k c.sys c.skbs data dev =
      forward (c.sys.setPriv dev { c.sys.priv dev with skb := some c.skbs }) buf dev := by
  obtain ⟨hnet, -, -, hesp⟩ := h
  have hlen := ethZlen_le_length_padded data
  rw [ethZlen] at hlen
  rw [kxfrmXmit, kxfrmHwTx, if_neg (by omega), if_neg (by simp [hnet])]
  split
  · exact ⟨_, rfl⟩
  · split
    · next hproto =>
        obtain ⟨x, hx, hcalls, hfits⟩ := hesp hproto
        obtain ⟨buf', hend⟩ := atEspEnd_of_fits hcalls hfits
        have hx' : k.xfrmStateLookup (htonl
            ((c.sys.setPriv dev { c.sys.priv dev with skb := some c.skbs }).spiVals dev)) =
              some x := hx
        refine ⟨buf', ?_⟩
        simp only [hx', hend, Option.bind_some, ne_eq, not_true_eq_false, if_false]
    · exact ⟨_, rfl⟩

/-- A call that meets the condition returns, with its socket buffer freed. -/
theorem Settled.step {c : Calls} {call : Call} (h : Settled dev c)
    (hcompletes : Completes dev c call) : ∃ c', callStep dev c call = some c' ∧ Settled dev c' := by
  cases call with
  | xmit k data =>
      obtain ⟨buf, hxmit⟩ := forward_of_completes hcompletes
      have hcalm : Calm (c.sys.setPriv dev { c.sys.priv dev with skb := some c.skbs }) := by
        refine ⟨fun e => ?_, fun e => ?_, h.calm.lockup⟩ <;>
          by_cases hed : e = dev <;> simp [Sys.setPriv, hed, h.calm.lock, h.calm.txIntr]
      have hpool : ((c.sys.setPriv dev { c.sys.priv dev with skb := some c.skbs }).priv dev).ppool ≠
          [] := by simpa using hcompletes.2.1
      obtain ⟨s', hs', hcalm', hskb, hfreed⟩ := hcalm.forward hpool buf
      refine ⟨⟨s', c.skbs + 1⟩, by rw [callStep, hxmit, hs', Option.map_some], hcalm', hskb, ?_⟩
      simp only [Sys.setPriv_self, Option.toList_some] at hfreed
      rw [hfreed, List.range_succ]
      exact congrArg (· ++ [c.skbs]) h.freed
  | poll budget =>
      obtain ⟨s', hs'⟩ := h.calm.kxfrmPoll budget dev.peer
      have hsame := unmoved_kxfrmPoll hs'
      exact ⟨⟨s', c.skbs⟩, by rw [callStep, hs', Option.map_some], h.calm.of_unmoved hsame,
        (congrArg (fun v => v.2.2) (hsame.view dev)).trans h.skb, hsame.freed.trans h.freed⟩

/-- A sequence of transmissions on a device, with polls of its peer in between, in which
every transmission meets the condition goes through: every call returns, and after it the
socket buffers handed over so far have been freed, each once, and `priv->skb` refers to
none, so the next call overwrites nothing. -/
theorem skb_freed_by_return (dev : Dev) (poolSize : Nat) (spiVals : Dev → UInt32)
    (calls : List Call)
    (hmeets : (callSystem dev poolSize spiVals).Meets (Completes dev) (.start poolSize spiVals)
      calls) :
    ∃ c, (callSystem dev poolSize spiVals).run (.start poolSize spiVals) calls = some c ∧
      c.sys.freed = List.range c.skbs ∧ (c.sys.priv dev).skb = none := by
  have hstart : Settled dev (.start poolSize spiVals) :=
    ⟨⟨fun _ => rfl, fun _ => rfl, rfl⟩, rfl, rfl⟩
  obtain ⟨c, hrun, h⟩ := hmeets.run (I := Settled dev) (fun _ _ h hP => h.step hP) hstart
  exact ⟨c, hrun, h.freed, h.skb⟩

/-- An authentic ESP frame, a poll of the peer, and a forged frame. -/
def sentTwice : List Call :=
  [.xmit willingKernel sealedFrame, .poll 2, .xmit willingKernel forgedFrame]

theorem skb_freed_by_return_twice :
    ∃ c, (callSystem .kxfrm0 1 fun _ => 0).run (.start 1 fun _ => 0) sentTwice = some c ∧
      c.skbs = 2 ∧ c.sys.freed = [0, 1] := by
  have hcalls : EspCallsOk willingKernel :=
    ⟨⟨fun _ _ _ _ => rfl, fun _ _ _ _ => rfl⟩,
      ⟨⟨fun _ => 0, fun _ => 0, fun _ => 0, rfl, rfl, rfl⟩⟩, ⟨rfl, rfl, rfl, rfl⟩, rfl, rfl, rfl,
      ⟨rfl, rfl, rfl, rfl⟩⟩
  have hdst : ∀ b : Blocks willingKernel, b.dst = fun _ => 0 :=
    fun b => (Option.some.inj b.hdst).symm
  have hsealed : EspFits willingKernel ⟨none, none⟩ (padded sealedFrame) :=
    ⟨by decide, fun _ => by decide, fun _ b => by rw [hdst b]; decide +kernel⟩
  -- the tag is wrong, so nothing is asked of the payload
  have htag : ¬ TagOk willingKernel ⟨none, none⟩ (padded forgedFrame) := by decide
  have hforged : EspFits willingKernel ⟨none, none⟩ (padded forgedFrame) :=
    ⟨by decide, fun h => absurd h htag, fun h => absurd h htag⟩
  have hesp (frame : List UInt8) (hfits : EspFits willingKernel ⟨none, none⟩ frame) :
      ∃ x, willingKernel.xfrmStateLookup (htonl 0) = some x ∧ EspCallsOk willingKernel ∧
        EspFits willingKernel x frame := ⟨⟨none, none⟩, rfl, hcalls, hfits⟩
  have hpool : ∀ (p : Packet) (ps : List Packet), p :: ps ≠ [] := List.cons_ne_nil
  have hmeets : (callSystem .kxfrm0 1 fun _ => 0).Meets (Completes .kxfrm0) (.start 1 fun _ => 0)
      sentTwice := by
    set_option maxRecDepth 4000 in
    refine .cons ⟨rfl, hpool _ _, by decide, fun _ => hesp _ hsealed⟩ rfl (.cons trivial rfl ?_)
    exact ⟨⟨rfl, hpool _ _, by decide, fun _ => hesp _ hforged⟩, fun _ _ => trivial⟩
  obtain ⟨c, hrun, hfreed, -⟩ := skb_freed_by_return .kxfrm0 1 (fun _ => 0) sentTwice hmeets
  set_option maxRecDepth 4000 in
  have hskbs : ((callSystem .kxfrm0 1 fun _ => 0).run (.start 1 fun _ => 0) sentTwice).map
      Calls.skbs = some 2 := rfl
  rw [hrun, Option.map_some, Option.some.injEq] at hskbs
  exact ⟨c, hrun, hskbs, by rw [hfreed, hskbs]; rfl⟩

/-- An ESP frame of 60 bytes. -/
def shortEspFrame : List UInt8 := List.replicate 23 0 ++ [50] ++ List.replicate 36 0

/-- Without a state for the ESP frames, the second transmission overwrites the
pointer to the socket buffer of the first, which was not freed; and an ESP frame of 60
bytes does not return although no call fails, since `hmac_sha256` stores 32 bytes into a
block of 16. -/
theorem skb_overwritten :
    (∃ c, (callSystem .kxfrm0 2 fun _ => 0).run (.start 2 fun _ => 0)
        [.xmit { willingKernel with xfrmStateLookup := fun _ => none } forgedFrame,
          .xmit { willingKernel with xfrmStateLookup := fun _ => none } forgedFrame] = some c ∧
      c.skbs = 2 ∧ c.sys.freed = [] ∧ (c.sys.priv .kxfrm0).skb = some 1) ∧
    (callSystem .kxfrm0 2 fun _ => 0).run (.start 2 fun _ => 0)
      [.xmit willingKernel shortEspFrame] = none :=
  ⟨⟨_, rfl, rfl, rfl, rfl⟩, rfl⟩

end Linuxyz.Xfrm
