import Linuxyz.Xfrm.Cbc
import Mathlib.Logic.IsEmpty.Basic

/-!
# Linuxyz.Xfrm.Auth

Which ESP frames `kxfrm_hw_tx` lets through.

Every failing call before the label `esp_end` should keep the frame from the
peer.  It does for every call that leaves a non-zero `err` behind
(`espVerify_of_kmalloc`, `espVerify_of_hmac`, `espDecrypt_of_error`), but the
tag comparison and two allocations jump to the label with the zero that
`hmac_sha256` returned, and the frame is forwarded.  `unauthenticated_dropped_iff`
states exactly when the intended property holds.
-/

namespace Linuxyz.Xfrm

open Buffer

/-! ## forwarding -/

/-- The devices are ready to pass a frame on: both locks are free and the
sender's pool has a buffer. -/
structure Ready (s : Sys) (dev : Dev) : Prop where
  lock : (s.priv dev).lock = false
  peerLock : (s.priv dev.peer).lock = false
  pool : (s.priv dev).ppool ≠ []

/-- The packet that carries `buf`, in the pool buffer `pkt`. -/
def Packet.carrying (pkt : Packet) (buf : List UInt8) : Packet :=
  { pkt with datalen := buf.length, data := overwrite pkt.data 0 buf }

@[simp] theorem Packet.frame_carrying (pkt : Packet) (buf : List UInt8) :
    (pkt.carrying buf).frame = buf :=
  take_overwrite_zero pkt.data buf

theorem spinLock_free {s : Sys} {d : Dev} (h : (s.priv d).lock = false) :
    spinLock s d = some (s.setPriv d { s.priv d with lock := true }) := by
  simp [spinLock, h]

theorem spinLock_held {s : Sys} {d : Dev} (h : (s.priv d).lock = true) : spinLock s d = none := by
  simp [spinLock, h]

/-- An interrupt on a device whose lock is free returns, and changes no queue. -/
theorem napiInterrupt_free {s : Sys} {d : Dev} (h : (s.priv d).lock = false) :
    ∃ s', napiInterrupt s d = some s' ∧ (s'.priv d).lock = false ∧
      (s'.priv d).rxQueue = (s.priv d).rxQueue ∧ ∀ e, e ≠ d → s'.priv e = s.priv e := by
  simp only [napiInterrupt, spinLock_free h, Option.map_some]
  refine ⟨_, rfl, by simp [spinUnlock], ?_, fun e he => by simp [spinUnlock, Sys.setPriv, he]⟩
  simp only [spinUnlock, Sys.setPriv_self]
  split <;> split <;> simp

/-- A buffer from a pool that has one. -/
theorem txReserveBuffer_of_cons {s : Sys} {d : Dev} (h : (s.priv d).lock = false)
    (hp : (s.priv d).ppool = pkt :: rest) :
    ∃ s', txReserveBuffer s d = some (some pkt, s') ∧ (s'.priv d).lock = false ∧
      ∀ e, e ≠ d → s'.priv e = s.priv e := by
  simp only [txReserveBuffer, spinLock_free h, Option.map_some, Sys.setPriv_self, hp]
  exact ⟨_, rfl, by simp [spinUnlock], fun e he => by simp [spinUnlock, he]⟩

/-- An empty pool yields no buffer and leaves the other device alone. -/
theorem txReserveBuffer_of_nil {s : Sys} {d : Dev} (h : (s.priv d).lock = false)
    (hp : (s.priv d).ppool = []) :
    ∃ s', txReserveBuffer s d = some (none, s') ∧ ∀ e, e ≠ d → s'.priv e = s.priv e := by
  simp only [txReserveBuffer, spinLock_free h, Option.map_some, Sys.setPriv_self, hp]
  exact ⟨_, rfl, fun e he => by simp [he]⟩

theorem rxProdBuf_free {s : Sys} {d : Dev} (h : (s.priv d).lock = false) (pkt : Packet) :
    ∃ s', rxProdBuf s d pkt = some s' ∧ (s'.priv d).lock = false ∧
      (s'.priv d).rxQueue = pkt :: (s.priv d).rxQueue ∧ ∀ e, e ≠ d → s'.priv e = s.priv e := by
  simp only [rxProdBuf, spinLock_free h, Option.map_some]
  exact ⟨_, rfl, by simp [spinUnlock], by simp [spinUnlock], fun e he => by simp [spinUnlock, he]⟩

/-- A ready pair of devices queues the frame on the peer. -/
theorem forward_of_ready {s : Sys} {dev : Dev} (h : Ready s dev) (buf : List UInt8) :
    ∃ s' pkt, forward s buf dev = some s' ∧
      (s'.priv dev.peer).rxQueue = pkt :: (s.priv dev.peer).rxQueue ∧ pkt.datalen = buf.length ∧
      pkt.frame = buf := by
  obtain ⟨hl, hl', hpool⟩ := h
  obtain ⟨pkt, rest, hp⟩ := List.exists_cons_of_ne_nil hpool
  obtain ⟨s₁, hres, hl₁, hother₁⟩ := txReserveBuffer_of_cons hl hp
  have hpeer₁ := hother₁ dev.peer (by simp)
  obtain ⟨s₂, hprod, hl₂, hq₂, hother₂⟩ := rxProdBuf_free (s := s₁) (by rw [hpeer₁]; exact hl')
    (pkt.carrying buf)
  have hint : ∃ s₃, (if (s₂.priv dev.peer).rxIntEnabled then
      napiInterrupt (s₂.setPriv dev.peer { s₂.priv dev.peer with rxIntr := true }) dev.peer
      else some s₂) = some s₃ ∧ (s₃.priv dev.peer).rxQueue = (s₂.priv dev.peer).rxQueue ∧
        s₃.priv dev = s₂.priv dev := by
    split
    · obtain ⟨s₃, hs₃, _, hq₃, hother₃⟩ := napiInterrupt_free
        (s := s₂.setPriv dev.peer { s₂.priv dev.peer with rxIntr := true }) (d := dev.peer)
          (by simpa using hl₂)
      exact ⟨s₃, hs₃, by simpa using hq₃, by simpa using hother₃ dev (by simp)⟩
    · exact ⟨s₂, rfl, rfl, rfl⟩
  obtain ⟨s₃, hs₃, hq₃, hdev₃⟩ := hint
  have hdev : (s₃.priv dev).lock = false := by rw [hdev₃, hother₂ dev (by simp), hl₁]
  have hqueue : (s₃.priv dev.peer).rxQueue = pkt.carrying buf :: (s.priv dev.peer).rxQueue := by
    rw [hq₃, hq₂, hpeer₁]
  have hout : ∃ s', forward s buf dev = some s' ∧
      (s'.priv dev.peer).rxQueue = (s₃.priv dev.peer).rxQueue := by
    simp only [forward, hres, Option.bind_some]
    rw [← Packet.carrying, hprod, Option.bind_some, hs₃, Option.bind_some]
    split
    · exact ⟨_, rfl, by simp⟩
    · obtain ⟨s₄, hs₄, _, _, hother₄⟩ := napiInterrupt_free
        (s := s₃.setPriv dev { s₃.priv dev with txPacketlen := buf.length, txIntr := true })
          (d := dev)
        (by simpa using hdev)
      exact ⟨s₄, hs₄, by simp [hother₄ dev.peer (by simp)]⟩
  obtain ⟨s', hs', hq'⟩ := hout
  exact ⟨s', pkt.carrying buf, hs', by rw [hq', hqueue], rfl, by simp⟩

/-- With a buffer in the pool, the call returns only from devices that are ready:
a held lock is waited for. -/
theorem ready_of_forward {s s' : Sys} {dev : Dev} (hpool : (s.priv dev).ppool ≠ [])
    {buf : List UInt8} (hs : forward s buf dev = some s') : Ready s dev := by
  obtain ⟨pkt, rest, hp⟩ := List.exists_cons_of_ne_nil hpool
  cases hl : (s.priv dev).lock with
  | true => simp [forward, txReserveBuffer, spinLock_held hl] at hs
  | false =>
      obtain ⟨s₁, hres, _, hother⟩ := txReserveBuffer_of_cons hl hp
      cases hl' : (s.priv dev.peer).lock with
      | true =>
          simp [forward, hres, rxProdBuf, spinLock_held (s := s₁) (d := dev.peer)
            (by rw [hother dev.peer (by simp)]; exact hl')] at hs
      | false => exact ⟨hl, hl', hpool⟩

/-- Devices that are not ready never queue the frame. -/
theorem forward_of_not_ready {s s' : Sys} {dev : Dev} (h : ¬ Ready s dev) (buf : List UInt8)
    (hs : forward s buf dev = some s') :
    (s'.priv dev.peer).rxQueue = (s.priv dev.peer).rxQueue := by
  cases hl : (s.priv dev).lock with
  | true => simp [forward, txReserveBuffer, spinLock_held hl] at hs
  | false =>
      cases hp : (s.priv dev).ppool with
      | nil =>
          obtain ⟨s₁, hres, hother⟩ := txReserveBuffer_of_nil hl hp
          simp only [forward, hres, Option.bind_some, Option.some.injEq] at hs
          rw [← hs, hother dev.peer (by simp)]
      | cons pkt rest => exact absurd (ready_of_forward (by simp [hp]) hs) h

/-! ## the calls up to the tag comparison -/

/-- Every call inside one `hmac_sha256` succeeds. -/
structure HmacCalls.Ok (c : HmacCalls) : Prop where
  allocShash : c.allocShash = true
  setkey : c.setkey = 0
  kzalloc : c.kzalloc = true
  digest : c.digest = 0

theorem hmacSha256_of_ok {k : Kernel} {c : HmacCalls} (h : c.Ok) (key ikm : List UInt8)
    {okm : List UInt8} (hlen : 32 ≤ okm.length) :
    hmacSha256 k c key ikm okm = pure (0, overwrite okm 0 (k.hmac key ikm).toList) := by
  simp only [hmacSha256, h.allocShash, h.setkey, h.kzalloc, h.digest, copy,
    memcpy_eq_some (show 0 + (k.hmac key ikm).toList.length ≤ okm.length by simpa using hlen)]
  rfl

/-- A failing call inside `hmac_sha256` shows in its return value. -/
theorem hmacSha256_of_not_ok {k : Kernel} {c : HmacCalls} (h : ¬ c.Ok) (key ikm okm : List UInt8) :
    ∃ err, err ≠ 0 ∧ hmacSha256 k c key ikm okm = pure (err, okm) := by
  unfold hmacSha256
  split
  · exact ⟨-1, by decide, rfl⟩
  · split
    · next hs => exact ⟨_, hs, rfl⟩
    · split
      · exact ⟨-12, by decide, rfl⟩
      · split
        · next hd => exact ⟨_, hd, rfl⟩
        · refine absurd ⟨?_, ?_, ?_, ?_⟩ h <;> simp_all

/-- The blocks that `kmalloc` returned, when none of the three calls failed. -/
structure Blocks (k : Kernel) where
  src : Nat → UInt8
  dst : Nat → UInt8
  final : Nat → UInt8
  hsrc : k.kmallocSrc = some src
  hdst : k.kmallocDst = some dst
  hfinal : k.kmallocFinal = some final

/-- The size of the three blocks. -/
def bufferSize (buf : List UInt8) : Nat := (buf.length - 58) * 8

/-- A fresh block. -/
def fresh (buf : List UInt8) (f : Nat → UInt8) : List UInt8 := (List.range (bufferSize buf)).map f

@[simp] theorem length_fresh (buf : List UInt8) (f : Nat → UInt8) :
    (fresh buf f).length = bufferSize buf := by
  simp [fresh]

theorem kmalloc_some {buf : List UInt8} (h : 58 ≤ buf.length) (f : Nat → UInt8) :
    kmalloc (some f) ((payloadlen buf + 16) * 8) = pure (fresh buf f) := by
  have hnn : ¬ (payloadlen buf + 16) * 8 < 0 := by unfold payloadlen; omega
  have hsize : ((payloadlen buf + 16) * 8).toNat = bufferSize buf := by
    unfold payloadlen bufferSize; omega
  simp only [kmalloc, hnn, if_false, hsize, fresh]

variable {k : Kernel} {x : XfrmState} {buf : List UInt8}

/-- A missing block stops the frame: `err` is still `-1`. -/
theorem espVerify_of_kmalloc (hlen : 74 ≤ buf.length) (h : IsEmpty (Blocks k)) :
    espVerify k x buf = throw (-1) := by
  simp only [espVerify]
  cases hs : k.kmallocSrc with
  | none => rfl
  | some src =>
      rw [kmalloc_some (by omega : 58 ≤ buf.length), pure_bind]
      cases hd : k.kmallocDst with
      | none => rfl
      | some dst =>
          rw [kmalloc_some (by omega : 58 ≤ buf.length), pure_bind]
          cases hf : k.kmallocFinal with
          | none => rfl
          | some final => exact (h.false ⟨src, dst, final, hs, hd, hf⟩).elim

/-- A failing HMAC computation stops the frame. -/
theorem espVerify_of_hmac (hlen : 74 ≤ buf.length) (b : Blocks k) (h : ¬ k.hmacVerify.Ok) :
    ∃ err, err ≠ 0 ∧ espVerify k x buf = throw err := by
  obtain ⟨err, hne, herr⟩ :=
    hmacSha256_of_not_ok (k := k) h x.authKey (authenticated buf) (fresh buf b.src)
  refine ⟨err, hne, ?_⟩
  simp only [espVerify, b.hsrc, b.hdst, b.hfinal, kmalloc_some (by omega : 58 ≤ buf.length),
    pure_bind, herr, hne, ne_eq, not_false_eq_true, if_true]
  rfl

/-- `buffer_src` after the HMAC was written to it. -/
def digested (k : Kernel) (x : XfrmState) (buf : List UInt8) (b : Blocks k) : List UInt8 :=
  overwrite (fresh buf b.src) 0 (k.hmac x.authKey (authenticated buf)).toList

theorem length_digested (hlen : 62 ≤ buf.length) (b : Blocks k) :
    (digested k x buf b).length = bufferSize buf := by
  rw [digested, length_overwrite, length_fresh]
  simp only [Vector.length_toList, length_fresh, bufferSize]
  omega

/-- The tag in the frame is the beginning of the HMAC over the frame. -/
def TagOk (k : Kernel) (x : XfrmState) (buf : List UInt8) : Prop :=
  tag buf = (k.hmac x.authKey (authenticated buf)).toList.take 16

instance : Decidable (TagOk k x buf) := inferInstanceAs (Decidable (_ = _))

/-- With the blocks and the HMAC there, the tag decides -- but a wrong tag
reaches `esp_end` with `err = 0`. -/
theorem espVerify_of_ok (hlen : 62 ≤ buf.length) (b : Blocks k) (h : k.hmacVerify.Ok) :
    espVerify k x buf =
      if TagOk k x buf then
        pure (digested k x buf b, fresh buf b.dst, fresh buf b.final)
      else throw 0 := by
  have hroom : 32 ≤ (fresh buf b.src).length := by rw [length_fresh, bufferSize]; omega
  have htake :
      (digested k x buf b).take 16 = (k.hmac x.authKey (authenticated buf)).toList.take 16 :=
    take_overwrite_zero_of_le _ _ (by simp)
  have hhmac : hmacSha256 k k.hmacVerify x.authKey (authenticated buf) (fresh buf b.src) =
      pure (0, digested k x buf b) := hmacSha256_of_ok h _ _ hroom
  simp only [espVerify, b.hsrc, b.hdst, b.hfinal, kmalloc_some (by omega : 58 ≤ buf.length),
    pure_bind, hhmac, ne_eq, not_true_eq_false, if_false, htake]
  by_cases ht : TagOk k x buf
  · have heq : tag buf = (k.hmac x.authKey (authenticated buf)).toList.take 16 := ht
    rw [if_pos ht, if_neg (not_not.mpr heq)]
  · have hne : ¬ tag buf = (k.hmac x.authKey (authenticated buf)).toList.take 16 := ht
    rw [if_neg ht, if_pos hne]
    rfl

/-! ## the calls up to the decryption -/

/-- The two allocations that jump to `esp_end` without setting `err`. -/
def Kernel.cipherAllocs (k : Kernel) : Prop := k.allocSkcipher = true ∧ k.requestAlloc = true

instance : Decidable k.cipherAllocs := inferInstanceAs (Decidable (_ ∧ _))

/-- The payload fits the block it is copied to. -/
theorem copy_payload (hlen : 74 ≤ buf.length) {src : List UInt8}
    (hsrc : src.length = bufferSize buf) :
    copy src 0 (payload buf) = pure (overwrite src 0 (payload buf)) := by
  have hfit : 0 + (payload buf).length ≤ src.length := by
    rw [hsrc, payload, List.length_take, bufferSize, payloadlen]; omega
  rw [copy, memcpy_eq_some hfit]
  rfl

/-- A failed cipher allocation reaches `esp_end` with `err = 0`. -/
theorem espDecrypt_of_alloc (hlen : 74 ≤ buf.length) {src : List UInt8}
    (hsrc : src.length = bufferSize buf) (dst : List UInt8) (h : ¬ k.cipherAllocs) :
    espDecrypt k x buf src dst = throw 0 := by
  have hnn : ¬ payloadlen buf < 0 := by unfold payloadlen; omega
  simp only [espDecrypt, hnn, if_false, copy_payload hlen hsrc, pure_bind]
  cases ha : k.allocSkcipher with
  | false => rfl
  | true =>
      cases hr : k.requestAlloc with
      | false => rfl
      | true => exact absurd ⟨ha, hr⟩ h

/-- A failing key setup or decryption stops the frame. -/
theorem espDecrypt_of_error (hlen : 74 ≤ buf.length) {src : List UInt8}
    (hsrc : src.length = bufferSize buf) (dst : List UInt8) (h : k.cipherAllocs)
    (herr : k.setkey ≠ 0 ∨ k.decrypt ≠ 0) :
    ∃ err, err ≠ 0 ∧ espDecrypt k x buf src dst = throw err := by
  have hnn : ¬ payloadlen buf < 0 := by unfold payloadlen; omega
  simp only [espDecrypt, hnn, if_false, copy_payload hlen hsrc, pure_bind, h.1, h.2, Bool.not_true,
    Bool.false_eq_true]
  by_cases hk : k.setkey = 0
  · have hd : k.decrypt ≠ 0 := herr.resolve_left (not_not.mpr hk)
    exact ⟨k.decrypt, hd,
      by simp only [hk, hd, ne_eq, not_true_eq_false, not_false_eq_true, if_true, if_false]; rfl⟩
  · exact ⟨k.setkey, hk, by simp only [hk, ne_eq, not_false_eq_true, if_true]; rfl⟩

/-! ## what reaches the peer -/

/-- A packet buffer for the frame is put on the peer's receive queue. -/
def Forwarded (k : Kernel) (s : Sys) (buf : List UInt8) (dev : Dev) : Prop :=
  ∃ s', kxfrmHwTx k s buf dev = some s' ∧ (s'.priv dev.peer).rxQueue ≠ (s.priv dev.peer).rxQueue

/-- The frame takes the ESP branch with room for a tag. -/
structure EspFrame (k : Kernel) (buf : List UInt8) : Prop where
  devNet : k.devNet = true
  protocol : protocol buf = ipprotoEsp
  length : 74 ≤ buf.length

/-- Every call needed to verify and decrypt the frame succeeds. -/
structure CallsOk (k : Kernel) : Prop where
  blocks : Nonempty (Blocks k)
  hmac : k.hmacVerify.Ok
  cipher : k.cipherAllocs
  setkey : k.setkey = 0
  decrypt : k.decrypt = 0

/-- The frame is authentic and nothing failed on the way to its plaintext. -/
def Authentic (k : Kernel) (s : Sys) (buf : List UInt8) (dev : Dev) : Prop :=
  ∃ x, k.xfrmStateLookup (htonl (s.spiVals dev)) = some x ∧ TagOk k x buf ∧ CallsOk k

/-- The way round the check: the state, the three blocks and the first HMAC are
there, and then the tag is wrong or a cipher allocation fails. -/
def Bypass (k : Kernel) (s : Sys) (buf : List UInt8) (dev : Dev) : Prop :=
  ∃ x, k.xfrmStateLookup (htonl (s.spiVals dev)) = some x ∧ Nonempty (Blocks k) ∧ k.hmacVerify.Ok ∧
    (¬ TagOk k x buf ∨ ¬ k.cipherAllocs)

theorem kxfrmHwTx_esp (h : EspFrame k buf) (s : Sys) (dev : Dev) :
    kxfrmHwTx k s buf dev = match k.xfrmStateLookup (htonl (s.spiVals dev)) with
      | none => some s
      | some x => (atEspEnd k x buf).bind fun r =>
          if r.1 ≠ 0 then some s else forward s r.2 dev := by
  have hlong : ¬ buf.length < 14 + 20 := by have := h.length; omega
  simp only [kxfrmHwTx, hlong, if_false, h.devNet, h.protocol]
  rfl

theorem atEspEnd_of_throw (h : espBody k x buf = throw err) :
    atEspEnd k x buf = some (err, buf) := by
  rw [atEspEnd, h]; rfl

/-- Round the check, the label is reached with `err = 0` and the frame as it came. -/
theorem atEspEnd_of_bypass (hlen : 74 ≤ buf.length) (b : Blocks k) (hh : k.hmacVerify.Ok)
    (h : ¬ TagOk k x buf ∨ ¬ k.cipherAllocs) : atEspEnd k x buf = some (0, buf) := by
  apply atEspEnd_of_throw
  by_cases ht : TagOk k x buf
  · simp only [espBody, espVerify_of_ok (by omega : 62 ≤ buf.length) b hh, ht, if_true, pure_bind,
      espDecrypt_of_alloc hlen (length_digested (by omega) b) _ (h.resolve_left (not_not.mpr ht))]
    rfl
  · simp only [espBody, espVerify_of_ok (by omega : 62 ≤ buf.length) b hh, ht, if_false]
    rfl

/-- Off that way, a frame that is not authentic reaches the label with a
non-zero `err`. -/
theorem atEspEnd_of_failure (hlen : 74 ≤ buf.length) (hfail : ¬ (TagOk k x buf ∧ CallsOk k))
    (hb : ¬ (Nonempty (Blocks k) ∧ k.hmacVerify.Ok ∧ (¬ TagOk k x buf ∨ ¬ k.cipherAllocs))) :
    ∃ err, err ≠ 0 ∧ atEspEnd k x buf = some (err, buf) := by
  rcases isEmpty_or_nonempty (Blocks k) with hempty | ⟨⟨b⟩⟩
  · refine ⟨-1, by decide, atEspEnd_of_throw ?_⟩
    simp only [espBody, espVerify_of_kmalloc hlen hempty]
    rfl
  · by_cases hh : k.hmacVerify.Ok
    · have hgood : TagOk k x buf ∧ k.cipherAllocs := by
        by_contra hbad
        exact hb ⟨⟨b⟩, hh, not_and_or.mp hbad⟩
      have herr : k.setkey ≠ 0 ∨ k.decrypt ≠ 0 := by
        by_contra hnone
        obtain ⟨hk, hd⟩ := not_or.mp hnone
        exact hfail ⟨hgood.1, ⟨b⟩, hh, hgood.2, not_not.mp hk, not_not.mp hd⟩
      obtain ⟨err, hne, hthrow⟩ :=
        espDecrypt_of_error (x := x) hlen (length_digested (x := x) (by omega) b)
        (fresh buf b.dst) hgood.2 herr
      refine ⟨err, hne, atEspEnd_of_throw ?_⟩
      simp only [espBody, espVerify_of_ok (by omega : 62 ≤ buf.length) b hh, hgood.1, if_true,
        pure_bind, hthrow]
      rfl
    · obtain ⟨err, hne, hthrow⟩ := espVerify_of_hmac (x := x) hlen b hh
      refine ⟨err, hne, atEspEnd_of_throw ?_⟩
      simp only [espBody, hthrow]
      rfl

/-- A frame that is not authentic is forwarded exactly on the way round the
check, by devices that are ready. -/
theorem forwarded_iff_of_not_authentic (h : EspFrame k buf) {s : Sys} {dev : Dev}
    (hna : ¬ Authentic k s buf dev) :
    Forwarded k s buf dev ↔ Bypass k s buf dev ∧ Ready s dev := by
  unfold Forwarded
  rw [kxfrmHwTx_esp h]
  cases hx : k.xfrmStateLookup (htonl (s.spiVals dev)) with
  | none =>
      -- without a state the function returns
      constructor
      · rintro ⟨s', hs', hq⟩
        obtain rfl := Option.some.inj hs'
        exact absurd rfl hq
      · rintro ⟨⟨x, hx', _⟩, _⟩
        rw [hx] at hx'
        cases hx'
  | some x =>
      have hfail : ¬ (TagOk k x buf ∧ CallsOk k) := fun hok => hna ⟨x, hx, hok⟩
      have hbypass : Bypass k s buf dev ↔
          Nonempty (Blocks k) ∧ k.hmacVerify.Ok ∧ (¬ TagOk k x buf ∨ ¬ k.cipherAllocs) := by
        constructor
        · rintro ⟨x', hx', hb⟩
          rw [hx] at hx'
          obtain rfl := Option.some.inj hx'
          exact hb
        · exact fun hb => ⟨x, hx, hb⟩
      rw [hbypass]
      by_cases hb : Nonempty (Blocks k) ∧ k.hmacVerify.Ok ∧ (¬ TagOk k x buf ∨ ¬ k.cipherAllocs)
      · obtain ⟨⟨b⟩, hh, hway⟩ := hb
        simp only [atEspEnd_of_bypass h.length b hh hway, Option.bind_some, ne_eq,
          not_true_eq_false, if_false]
        constructor
        · rintro ⟨s', hs', hq⟩
          refine ⟨⟨⟨b⟩, hh, hway⟩, ?_⟩
          by_contra hr
          exact hq (forward_of_not_ready hr buf hs')
        · rintro ⟨_, hr⟩
          obtain ⟨s', pkt, hs', hq, _⟩ := forward_of_ready hr buf
          exact ⟨s', hs', by simp [hq]⟩
      · obtain ⟨err, hne, hend⟩ := atEspEnd_of_failure h.length hfail hb
        simp only [hend, Option.bind_some, ne_eq, hne, not_false_eq_true, if_true]
        constructor
        · rintro ⟨s', hs', hq⟩
          obtain rfl := Option.some.inj hs'
          exact absurd rfl hq
        · exact fun hboth => absurd hboth.1 hb

/-- **Unauthenticated frames**: a frame whose tag is wrong, or for which a call
needed to verify or decrypt it fails, is kept from the peer if and only if the
failure is not one of those that reach `esp_end` with `err = 0` on devices
that are ready to forward. -/
theorem unauthenticated_dropped_iff (k : Kernel) (s : Sys) (buf : List UInt8) (dev : Dev)
    (h : EspFrame k buf) :
    (¬ Authentic k s buf dev → ¬ Forwarded k s buf dev) ↔ ¬ (Bypass k s buf dev ∧ Ready s dev) := by
  constructor
  · rintro hdrop ⟨hb, hr⟩
    have hna : ¬ Authentic k s buf dev := by
      rintro ⟨x, hx, ht, hok⟩
      obtain ⟨x', hx', _, _, hway⟩ := hb
      rw [hx] at hx'
      obtain rfl := Option.some.inj hx'
      exact hway.elim (fun hnt => hnt ht) fun hnc => hnc hok.cipher
    exact hdrop hna ((forwarded_iff_of_not_authentic h hna).mpr ⟨hb, hr⟩)
  · intro hsafe hna hfwd
    exact hsafe ((forwarded_iff_of_not_authentic h hna).mp hfwd)

/-! ## a forged frame gets through -/

/-- Two idle devices with one packet buffer each. -/
def idlePair : Sys where
  priv := fun d =>
    { ppool := [⟨d, 0, []⟩], rxQueue := [], rxIntEnabled := true, rxIntr := false, txIntr := false
      txPacketlen := 0, skb := none, lock := false, txPackets := 0, txBytes := 0, stopped := false
      napiScheduled := false }
  spiVals := fun d => match d with
    | .kxfrm0 => 0x01000000
    | .kxfrm1 => 0x02000000
  lockup := 0
  freed := []

/-- A kernel in which every call succeeds and every digest is all ones. -/
def willingKernel : Kernel where
  devNet := true
  xfrmStateLookup := fun _ => some ⟨none, none⟩
  kmallocSrc := some fun _ => 0
  kmallocDst := some fun _ => 0
  kmallocFinal := some fun _ => 0
  hmacVerify := ⟨true, 0, true, 0⟩
  hmacSign := ⟨true, 0, true, 0⟩
  allocSkcipher := true
  requestAlloc := true
  setkey := 0
  decrypt := 0
  encrypt := 0
  hmac := fun _ _ => Vector.replicate 32 1
  cbcEncrypt := fun _ _ bs => bs
  cbcDecrypt := fun _ _ bs => bs

/-- An ESP frame of 74 bytes with an all-zero tag. -/
def forgedFrame : List UInt8 := List.replicate 23 0 ++ [50] ++ List.replicate 50 0

theorem espFrame_forgedFrame : EspFrame willingKernel forgedFrame := ⟨rfl, rfl, by decide⟩

/-- The forged frame is put on the peer's queue although its tag is wrong and
every call succeeds. -/
theorem forgedFrame_forwarded :
    EspFrame willingKernel forgedFrame ∧ ¬ TagOk willingKernel ⟨none, none⟩ forgedFrame ∧
      ¬ Authentic willingKernel idlePair forgedFrame .kxfrm0 ∧
      Forwarded willingKernel idlePair forgedFrame .kxfrm0 := by
  have htag : ¬ TagOk willingKernel ⟨none, none⟩ forgedFrame := by decide
  have hna : ¬ Authentic willingKernel idlePair forgedFrame .kxfrm0 := by
    rintro ⟨x, hx, ht, _⟩
    obtain rfl := Option.some.inj hx
    exact htag ht
  refine ⟨espFrame_forgedFrame, htag, hna, ?_⟩
  refine (forwarded_iff_of_not_authentic espFrame_forgedFrame hna).mpr ⟨?_, rfl, rfl,
    by simp [idlePair]⟩
  exact ⟨⟨none, none⟩, rfl, ⟨⟨fun _ => 0, fun _ => 0, fun _ => 0, rfl, rfl, rfl⟩⟩,
    ⟨rfl, rfl, rfl, rfl⟩, .inl htag⟩

/-- The same frame is kept back when the sender's pool is empty. -/
theorem unauthenticated_dropped_no_buffer :
    EspFrame willingKernel forgedFrame ∧
      (¬ Authentic willingKernel { idlePair with priv := fun d =>
        { idlePair.priv d with ppool := [] } }
          forgedFrame .kxfrm0 →
        ¬ Forwarded willingKernel { idlePair with priv := fun d =>
          { idlePair.priv d with ppool := [] } }
          forgedFrame .kxfrm0) :=
  ⟨espFrame_forgedFrame,
    (unauthenticated_dropped_iff _ _ _ _ espFrame_forgedFrame).mpr fun h => h.2.pool rfl⟩

end Linuxyz.Xfrm
