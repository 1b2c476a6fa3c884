import Linuxyz.Xfrm.Auth
import Mathlib.Order.Bounds.Basic

/-!
# Linuxyz.Xfrm.Transparent

An authentic ESP frame passes the device pair unchanged.

The payload is decrypted into `buffer_dst`, its padded length is computed again
from the inner header, and the same number of bytes is encrypted into
`buffer_final` and signed again.  When the inner packet is TCP or UDP and its
padded length is the length of the payload, every one of these steps gives
back what was in the frame (`espBody_of_authentic`), so only the outer header
checksum is new.
-/

namespace Linuxyz.Xfrm

open Buffer Checksum

/-! ## the assumptions -/

/-- AES-CBC under one key and IV: on whole blocks, decryption and encryption
are inverse to each other and keep the length. -/
structure CbcInverse (k : Kernel) : Prop where
  encrypt_decrypt : ∀ key iv bs, 16 ∣ bs.length → k.cbcEncrypt key iv (k.cbcDecrypt key iv bs) = bs
  decrypt_encrypt : ∀ key iv bs, 16 ∣ bs.length → k.cbcDecrypt key iv (k.cbcEncrypt key iv bs) = bs
  length_decrypt : ∀ key iv bs, 16 ∣ bs.length → (k.cbcDecrypt key iv bs).length = bs.length

/-- The decrypted payload. -/
def inner (k : Kernel) (x : XfrmState) (buf : List UInt8) : List UInt8 :=
  k.cbcDecrypt x.key (nonceOrg buf) (payload buf)

/-- The payload is a TCP or UDP packet with exactly its ESP padding: its length
is the smallest multiple of 16 that leaves room for the two trailer bytes. -/
structure InnerPacket (k : Kernel) (x : XfrmState) (buf : List UInt8) : Prop where
  protocol : (inner k x buf).getD 9 0 = ipprotoTcp ∨ (inner k x buf).getD 9 0 = ipprotoUdp
  padded : IsLeast { m | 16 ∣ m ∧ be16 (inner k x buf) 2 + 2 ≤ m } (payload buf).length

variable {k : Kernel} {x : XfrmState} {buf : List UInt8}

/-- The padding loop computes the smallest multiple of 16 with room for the
trailer. -/
theorem isLeast_paddedLen (totLen : Nat) :
    IsLeast { m | 16 ∣ m ∧ totLen + 2 ≤ m } (paddedLen totLen) := by
  unfold paddedLen
  constructor
  · constructor
    · show 16 ∣ totLen + (if (totLen + 2) % 16 ≠ 0 then 16 - (totLen + 2) % 16 else 0) + 1 + 1
      split <;> omega
    · show totLen + 2 ≤ totLen + (if (totLen + 2) % 16 ≠ 0 then
        16 - (totLen + 2) % 16 else 0) + 1 + 1
      split <;> omega
  · rintro m ⟨⟨q, rfl⟩, hm⟩
    show totLen + (if (totLen + 2) % 16 ≠ 0 then 16 - (totLen + 2) % 16 else 0) + 1 + 1 ≤ 16 * q
    split <;> omega

theorem length_payload (hlen : 74 ≤ buf.length) : (payload buf).length = buf.length - 74 := by
  simp only [payload, List.length_take, List.length_drop, payloadlen]
  omega

theorem toNat_payloadlen (hlen : 74 ≤ buf.length) :
    (payloadlen buf).toNat = (payload buf).length := by
  rw [length_payload hlen, payloadlen]
  omega

/-! ## each stage gives back what the frame held -/

theorem readFront_overwrite (dst src : List UInt8) (hfit : src.length ≤ dst.length) :
    readFront (overwrite dst 0 src) src.length = pure src := by
  have hlen : src.length ≤ (overwrite dst 0 src).length := by
    rw [length_overwrite (by omega)]; exact hfit
  rw [readFront, if_pos hlen, take_overwrite_zero]

/-- Decryption leaves the ciphertext in `buffer_src` and the inner packet in
`buffer_dst`. -/
theorem espDecrypt_of_ok (hlen : 74 ≤ buf.length)
    (hinner : (inner k x buf).length = (payload buf).length) (hok : CallsOk k)
    {src dst : List UInt8} (hsrc : src.length = bufferSize buf)
    (hdst : dst.length = bufferSize buf) :
    espDecrypt k x buf src dst =
      pure (overwrite src 0 (payload buf), overwrite dst 0 (inner k x buf)) := by
  have hnn : ¬ payloadlen buf < 0 := by unfold payloadlen; omega
  have hfit : (payload buf).length ≤ bufferSize buf := by
    rw [length_payload hlen, bufferSize]; omega
  have hcopy : copy dst 0 (k.cbcDecrypt x.key (nonceOrg buf) (payload buf)) =
      pure (overwrite dst 0 (inner k x buf)) := copy_of_fits (by unfold inner at hinner; omega)
  simp only [espDecrypt, hnn, if_false, copy_payload hlen hsrc, pure_bind, hok.cipher.1,
    hok.cipher.2, hok.setkey, hok.decrypt, Bool.not_true, Bool.false_eq_true, ne_eq,
    not_true_eq_false, toNat_payloadlen hlen, readFront_overwrite src _ (hsrc ▸ hfit), hcopy]

/-- The re-encryption gives back the ciphertext. -/
theorem reencrypt_of_ok (hc : CbcInverse k) (henc : k.encrypt = 0)
    (hblock : 16 ∣ (payload buf).length) {dst final : List UInt8}
    (hdst : (payload buf).length ≤ dst.length) (hfinal : (payload buf).length ≤ final.length) :
    reencrypt k x.key (nonceOrg buf) (overwrite dst 0 (inner k x buf)) final (payload buf).length =
      pure (overwrite final 0 (payload buf)) := by
  have hinner : (inner k x buf).length = (payload buf).length := hc.length_decrypt _ _ _ hblock
  have hread :
      readFront (overwrite dst 0 (inner k x buf)) (payload buf).length = pure (inner k x buf) := by
    rw [← hinner]; exact readFront_overwrite _ _ (by omega)
  have hcipher : k.cbcEncrypt x.key (nonceOrg buf) (inner k x buf) = payload buf :=
    hc.encrypt_decrypt _ _ _ hblock
  simp only [reencrypt, henc, ne_eq, not_true_eq_false, if_false, hread, pure_bind, hcipher]
  exact copy_of_fits (by omega)

/-- A byte of the inner packet read from `buffer_dst`. -/
theorem getD_overwrite_zero {dst src : List UInt8} (hfit : src.length ≤ dst.length) {i : Nat}
    (h : i < src.length) : (overwrite dst 0 src).getD i 0 = src.getD i 0 := by
  rw [List.getD_eq_getElem?_getD, List.getD_eq_getElem?_getD, getElem?_overwrite (by omega),
    if_pos (by omega), Nat.sub_zero]

/-- The packet that was decrypted is encrypted to the payload again. -/
theorem espReencrypt_of_ok (hlen : 74 ≤ buf.length) (hc : CbcInverse k) (henc : k.encrypt = 0)
    (hp : InnerPacket k x buf) (src : List UInt8) {dst final : List UInt8}
    (hdst : dst.length = bufferSize buf) (hfinal : final.length = bufferSize buf) :
    espReencrypt k x buf (overwrite src 0 (payload buf)) (overwrite dst 0 (inner k x buf)) final =
      pure (overwrite final 0 (payload buf)) := by
  have hblock : 16 ∣ (payload buf).length := hp.padded.1.1
  have hinner : (inner k x buf).length = (payload buf).length := hc.length_decrypt _ _ _ hblock
  have hroom : be16 (inner k x buf) 2 + 2 ≤ (payload buf).length := hp.padded.1.2
  have h16 : 16 ≤ (payload buf).length := by omega
  have hfit : (payload buf).length ≤ bufferSize buf := by
    rw [length_payload hlen, bufferSize]; omega
  -- the inner length field and protocol are read from the decrypted copy
  have htot : be16 (overwrite dst 0 (inner k x buf)) 2 = be16 (inner k x buf) 2 := by
    rw [be16, be16, getD_overwrite_zero (by omega) (by omega),
      getD_overwrite_zero (by omega) (by omega)]
  have hproto : (overwrite dst 0 (inner k x buf)).getD 9 0 = (inner k x buf).getD 9 0 :=
    getD_overwrite_zero (by omega) (by omega)
  have hpkt : paddedLen (be16 (inner k x buf) 2) = (payload buf).length :=
    (isLeast_paddedLen _).unique hp.padded
  have hre :
      reencrypt k x.key (nonceOrg buf) (overwrite dst 0 (inner k x buf)) final
        (payload buf).length =
      pure (overwrite final 0 (payload buf)) := reencrypt_of_ok hc henc hblock (by omega) (by omega)
  have hcmp :
      (overwrite src 0 (payload buf)).take 16 = (overwrite final 0 (payload buf)).take 16 := by
    rw [take_overwrite_zero_of_le _ _ h16, take_overwrite_zero_of_le _ _ h16]
  simp only [espReencrypt, htot, hproto, hpkt]
  rcases hp.protocol with htcp | hudp
  · simp only [htcp, show ipprotoTcp ≠ ipprotoUdp by decide, if_false, if_true, hre,
      pure_bind, hcmp, ne_eq, not_true_eq_false]
  · simp only [hudp, show ipprotoUdp ≠ ipprotoTcp by decide, if_false, if_true, hre,
      pure_bind, hcmp, ne_eq, not_true_eq_false]

/-- ESP header, IV and payload put together again are the authenticated bytes. -/
theorem authenticated_eq (hlen : 74 ≤ buf.length) :
    (buf.drop 34).take 8 ++ nonceOrg buf ++ payload buf = authenticated buf := by
  have hn : (payloadlen buf).toNat = buf.length - 74 := by unfold payloadlen; omega
  have hsplit : buf.length - 34 - 16 = 8 + (16 + (buf.length - 74)) := by omega
  rw [authenticated, nonceOrg, payload, hn, hsplit, List.take_add, List.take_add, List.drop_drop,
    List.drop_drop, List.append_assoc]

/-- The frame is put together again as it came, but for the header checksum. -/
theorem espRebuild_of_ok (hlen : 74 ≤ buf.length) (hsign : k.hmacSign.Ok) (ht : TagOk k x buf)
    {src dst final : List UInt8} (hsrc : src.length = bufferSize buf)
    (hdst : dst.length = bufferSize buf) (hfinal : final.length = bufferSize buf) :
    espRebuild k x buf src dst (overwrite final 0 (payload buf)) = pure (ipSendCheck buf) := by
  have hpl := length_payload hlen
  have hfit : 8 + 16 + (payload buf).length ≤ bufferSize buf := by rw [hpl, bufferSize]; omega
  have hesp : ((buf.drop 34).take 8).length = 8 := by simp; omega
  have hiv : (nonceOrg buf).length = 16 := by simp [nonceOrg]; omega
  -- `buffer_src` is filled front to back with header, IV and payload
  have hl₁ : (overwrite src 0 ((buf.drop 34).take 8)).length = bufferSize buf := by
    rw [length_overwrite (by omega), hsrc]
  have hl₂ : (overwrite (overwrite src 0 ((buf.drop 34).take 8)) 8 (nonceOrg buf)).length =
      bufferSize buf := by rw [length_overwrite (by omega), hl₁]
  have hl₃ :
      (overwrite (overwrite (overwrite src 0 ((buf.drop 34).take 8)) 8 (nonceOrg buf)) (8 + 16)
      (payload buf)).length = bufferSize buf := by rw [length_overwrite (by omega), hl₂]
  have hsigned :
      (overwrite (overwrite (overwrite src 0 ((buf.drop 34).take 8)) 8 (nonceOrg buf)) (8 + 16)
      (payload buf)).take (8 + 16 + (payload buf).length) = authenticated buf := by
    have h₁ : (overwrite src 0 ((buf.drop 34).take 8)).take 8 = (buf.drop 34).take 8 := by
      have h := take_overwrite_zero src ((buf.drop 34).take 8)
      rwa [hesp] at h
    have h₂ : (overwrite (overwrite src 0 ((buf.drop 34).take 8)) 8 (nonceOrg buf)).take (8 + 16) =
        (buf.drop 34).take 8 ++ nonceOrg buf := by
      have h :=
        @take_overwrite_add _ (overwrite src 0 ((buf.drop 34).take 8)) (nonceOrg buf) 8 (by omega)
      rwa [hiv, h₁] at h
    rw [take_overwrite_add (by omega), h₂, authenticated_eq hlen]
  have hdig : ((k.hmac x.authKey (authenticated buf)).toList.take 16).length = 16 := by simp
  -- so the new tag is the one in the frame, and both stores write what is there
  have htag :
      (overwrite dst 0 (k.hmac x.authKey (authenticated buf)).toList).take 16 = tag buf := by
    rw [take_overwrite_zero_of_le _ _ (by simp)]; exact ht.symm
  have hbuf₁ : overwrite buf (34 + 8 + 16) (payload buf) = buf := overwrite_self buf 58 _
  have hbuf₂ : overwrite buf (34 + 8 + 16 + (payload buf).length) (tag buf) = buf := by
    have hoff : 34 + 8 + 16 + (payload buf).length = buf.length - 16 := by omega
    have hself := overwrite_self buf (buf.length - 16) 16
    have hall : (buf.drop (buf.length - 16)).take 16 = tag buf := by
      rw [tag, List.take_of_length_le]; simp; omega
    rwa [hoff, ← hall]
  have htl : (tag buf).length = 16 := by simp [tag]; omega
  simp only [espRebuild, toNat_payloadlen hlen]
  rw [copy_of_fits (by omega), pure_bind, copy_of_fits (by omega), pure_bind,
    readFront_overwrite final _ (by omega), pure_bind, copy_of_fits (by omega), pure_bind,
    readFront, if_pos (by omega), pure_bind, hsigned,
    hmacSha256_of_ok hsign _ _ (by rw [hdst, bufferSize]; omega), pure_bind]
  simp only [ne_eq, not_true_eq_false, if_false]
  rw [copy_of_fits (by omega), pure_bind, hbuf₁, readFront, if_pos (by
    rw [length_overwrite (by rw [Vector.length_toList, hdst, bufferSize]; omega), hdst,
      bufferSize]; omega),
    pure_bind, htag, copy_of_fits (by omega), pure_bind, hbuf₂]

/-- **The ESP branch on an authentic frame** computes the frame with a fresh
header checksum. -/
theorem espBody_of_authentic (hlen : 74 ≤ buf.length) (hok : CallsOk k) (hsign : k.hmacSign.Ok)
    (henc : k.encrypt = 0) (hc : CbcInverse k) (ht : TagOk k x buf) (hp : InnerPacket k x buf) :
    espBody k x buf = pure (ipSendCheck buf) := by
  obtain ⟨b⟩ := hok.blocks
  have hd := length_digested (x := x) (by omega : 62 ≤ buf.length) b
  have hfit : (payload buf).length ≤ bufferSize buf := by
    rw [length_payload hlen, bufferSize]; omega
  have hinner : (inner k x buf).length = (payload buf).length :=
    hc.length_decrypt _ _ _ hp.padded.1.1
  have hsrc : (overwrite (digested k x buf b) 0 (payload buf)).length = bufferSize buf := by
    rw [length_overwrite (by omega), hd]
  have hdst : (overwrite (fresh buf b.dst) 0 (inner k x buf)).length = bufferSize buf := by
    rw [length_overwrite (by simpa using hinner.trans_le hfit), length_fresh]
  simp only [espBody, espVerify_of_ok (by omega : 62 ≤ buf.length) b hok.hmac, ht,
    if_true, pure_bind, espDecrypt_of_ok hlen hinner hok hd (length_fresh buf b.dst),
    espReencrypt_of_ok hlen hc henc hp _ (length_fresh buf b.dst) (length_fresh buf b.final),
    espRebuild_of_ok hlen hsign ht hsrc hdst (length_fresh buf b.final)]

/-! ## the outer header -/

/-- The length of the outer header in 32-bit words. -/
def ihl (buf : List UInt8) : Nat := (buf.getD 14 0).toNat % 16

/-- The outer IPv4 header. -/
def outerHeader (buf : List UInt8) : List UInt8 := (buf.drop 14).take (4 * ihl buf)

/-- The frame with the checksum field of its outer header cleared. -/
def clearCheck (buf : List UInt8) : List UInt8 := overwrite buf 24 [0, 0]

/-- Only the new checksum is left of the two stores to the field. -/
theorem ipSendCheck_eq (hlen : 26 ≤ buf.length) :
    ipSendCheck buf = overwrite buf 24 (toBe16 (checksum (outerHeader (clearCheck buf)))) :=
  overwrite_overwrite rfl (by simp; omega)

theorem length_ipSendCheck (hlen : 26 ≤ buf.length) : (ipSendCheck buf).length = buf.length := by
  rw [ipSendCheck_eq hlen, length_overwrite (by simp; omega)]

/-- Bytes outside the checksum field stay. -/
theorem getElem?_ipSendCheck (hlen : 26 ≤ buf.length) {i : Nat} (h₁ : i ≠ 24) (h₂ : i ≠ 25) :
    (ipSendCheck buf)[i]? = buf[i]? := by
  rw [ipSendCheck_eq hlen, getElem?_overwrite (by simp; omega), if_neg (by simp; omega)]

/-- The field holds the checksum of the header with the field cleared. -/
theorem be16_ipSendCheck (hlen : 26 ≤ buf.length) :
    be16 (ipSendCheck buf) 24 = checksum (outerHeader (clearCheck buf)) := by
  rw [ipSendCheck_eq hlen, be16_overwrite_toBe16 (by omega) (checksum_le _)]

/-- The header around its checksum field. -/
theorem outerHeader_overwrite (hlen : 74 ≤ buf.length) {field : List UInt8}
    (hfield : field.length = 2) (hihl : 5 ≤ ihl buf) :
    outerHeader (overwrite buf 24 field) =
      (buf.drop 14).take 10 ++ field ++ (buf.drop 26).take (4 * ihl buf - 12) := by
  have hsame : ihl (overwrite buf 24 field) = ihl buf := by
    rw [ihl, ihl, List.getD_eq_getElem?_getD, List.getD_eq_getElem?_getD,
      getElem?_overwrite (by omega), if_neg (by omega)]
  obtain ⟨m, hm⟩ : ∃ m, 4 * ihl buf = 12 + m := ⟨4 * ihl buf - 12, by omega⟩
  have hpre : ((buf.drop 14).take 10 ++ field).length = 12 := by simp [hfield]; omega
  rw [outerHeader, hsame, hm, overwrite, List.append_assoc,
    List.drop_append_of_le_length (by simp; omega), List.drop_take, ← List.append_assoc, ← hpre,
    List.take_length_add_append, hfield, hpre, Nat.add_sub_cancel_left]

/-- The header a receiver checks sums to all ones. -/
theorem onesSum_ipSendCheck (hlen : 74 ≤ buf.length) (hihl : 5 ≤ ihl buf) :
    onesSum (outerHeader (ipSendCheck buf)) = 65535 := by
  have hcleared : outerHeader (clearCheck buf) =
      (buf.drop 14).take 10 ++ [0, 0] ++ (buf.drop 26).take (4 * ihl buf - 12) :=
    outerHeader_overwrite hlen rfl hihl
  have hpre : ((buf.drop 14).take 10).length = 10 := by simp; omega
  rw [ipSendCheck_eq (by omega), outerHeader_overwrite hlen (length_toBe16 _) hihl, hcleared]
  exact verifies_of_checksum _ _ (by omega)

/-! ## transparency -/

/-- No call of `kxfrm_hw_tx` into the kernel fails. -/
structure NoFailure (k : Kernel) : Prop where
  devNet : k.devNet = true
  calls : CallsOk k
  sign : k.hmacSign.Ok
  encrypt : k.encrypt = 0

/-- A payload with its padding makes the frame long enough for the ESP branch. -/
theorem InnerPacket.length_le (hp : InnerPacket k x buf) : 74 ≤ buf.length := by
  have hroom : be16 (inner k x buf) 2 + 2 ≤ (payload buf).length := hp.padded.1.2
  have hle : (payload buf).length ≤ (payloadlen buf).toNat := by
    rw [payload, List.length_take]; exact Nat.min_le_left _ _
  unfold payloadlen at hle
  omega

/-- An authentic frame leaves the ESP branch towards the peer. -/
theorem kxfrmHwTx_of_authentic (hk : NoFailure k) (hc : CbcInverse k)
    (hproto : protocol buf = ipprotoEsp) (ht : TagOk k x buf) (hp : InnerPacket k x buf)
    {s : Sys} {dev : Dev} (hx : k.xfrmStateLookup (htonl (s.spiVals dev)) = some x) :
    kxfrmHwTx k s buf dev = forward s (ipSendCheck buf) dev := by
  have hend : atEspEnd k x buf = some (0, ipSendCheck buf) := by
    rw [atEspEnd, espBody_of_authentic hp.length_le hk.calls hk.sign hk.encrypt hc ht hp]; rfl
  rw [kxfrmHwTx_esp ⟨hk.devNet, hproto, hp.length_le⟩]
  simp only [hx, hend, Option.bind_some, ne_eq, not_true_eq_false, if_false]

/-- **ESP transparency**: when no call fails and the sender has a packet buffer,
an authentic frame around a padded TCP or UDP packet is queued on the peer at
its length and with its bytes, but for the checksum field of the outer header,
which holds the checksum of that header.  The call returns once both device
locks are free. -/
theorem esp_transparent (k : Kernel) (s : Sys) (buf : List UInt8) (dev : Dev) (x : XfrmState)
    (hk : NoFailure k) (hc : CbcInverse k) (hpool : (s.priv dev).ppool ≠ [])
    (hproto : protocol buf = ipprotoEsp) (hx : k.xfrmStateLookup (htonl (s.spiVals dev)) = some x)
    (ht : TagOk k x buf) (hp : InnerPacket k x buf) :
    ((s.priv dev).lock = false → (s.priv dev.peer).lock = false →
      ∃ s', kxfrmHwTx k s buf dev = some s') ∧ ∀ s', kxfrmHwTx k s buf dev = some s' →
        ∃ pkt, (s'.priv dev.peer).rxQueue = pkt :: (s.priv dev.peer).rxQueue ∧
          pkt.datalen = buf.length ∧ pkt.frame.length = buf.length ∧
          (∀ i, i ≠ 24 → i ≠ 25 → pkt.frame[i]? = buf[i]?) ∧
          be16 pkt.frame 24 = checksum (outerHeader (clearCheck buf)) ∧
          (5 ≤ ihl buf → onesSum (outerHeader pkt.frame) = 65535) := by
  have hlen := hp.length_le
  rw [kxfrmHwTx_of_authentic hk hc hproto ht hp hx]
  constructor
  · intro hl hl'
    obtain ⟨s', _, hs', _⟩ := forward_of_ready ⟨hl, hl', hpool⟩ (ipSendCheck buf)
    exact ⟨s', hs'⟩
  · intro s' hs'
    obtain ⟨s'', pkt, hs'', hq, hdl, hframe⟩ :=
      forward_of_ready (ready_of_forward hpool hs') (ipSendCheck buf)
    obtain rfl := Option.some.inj (hs'.symm.trans hs'')
    rw [length_ipSendCheck (by omega)] at hdl
    refine ⟨pkt, hq, hdl, ?_, ?_, ?_, ?_⟩
    · rw [hframe, length_ipSendCheck (by omega)]
    · intro i h₁ h₂
      rw [hframe, getElem?_ipSendCheck (by omega) h₁ h₂]
    · rw [hframe, be16_ipSendCheck (by omega)]
    · intro hihl
      rw [hframe, onesSum_ipSendCheck hlen hihl]

/-- An ESP frame around a UDP packet of 28 bytes, with an all-ones tag. -/
def sealedFrame : List UInt8 :=
  List.replicate 14 0 ++ [0x45] ++ List.replicate 8 0 ++ [50] ++ List.replicate 34 0 ++
    ([0x45, 0, 0, 28] ++ List.replicate 5 0 ++ [17] ++ List.replicate 22 0) ++ List.replicate 16 1

theorem esp_transparent_sealedFrame :
    TagOk willingKernel ⟨none, none⟩ sealedFrame ∧
      ∃ s', kxfrmHwTx willingKernel idlePair sealedFrame .kxfrm0 = some s' := by
  have hk : NoFailure willingKernel :=
    ⟨rfl, ⟨⟨⟨fun _ => 0, fun _ => 0, fun _ => 0, rfl, rfl, rfl⟩⟩, ⟨rfl, rfl, rfl, rfl⟩,
      ⟨rfl, rfl⟩, rfl, rfl⟩, ⟨rfl, rfl, rfl, rfl⟩, rfl⟩
  have hc : CbcInverse willingKernel := ⟨fun _ _ _ _ => rfl, fun _ _ _ _ => rfl, fun _ _ _ _ => rfl⟩
  have hpad : paddedLen (be16 (inner willingKernel ⟨none, none⟩ sealedFrame) 2) =
      (payload sealedFrame).length :=
    rfl
  have htag : TagOk willingKernel ⟨none, none⟩ sealedFrame := by decide
  exact ⟨htag, (esp_transparent willingKernel idlePair sealedFrame .kxfrm0 ⟨none,
    none⟩ hk hc (by simp [idlePair])
    (by decide) rfl htag ⟨.inr (by decide), hpad ▸ isLeast_paddedLen _⟩).1 rfl rfl⟩

end Linuxyz.Xfrm
