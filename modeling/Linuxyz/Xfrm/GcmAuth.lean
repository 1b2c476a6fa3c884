import Linuxyz.Xfrm.Gcm
import Linuxyz.Xfrm.Transparent

/-!
# Linuxyz.Xfrm.GcmAuth

What the GCM driver puts on the peer's queue.

An ESP frame should reach the peer only when the AEAD has accepted it, and with
its bytes as they came.  Two ways lead round that: a request that cannot be
allocated reaches `esp_end` with `err = 0`, before anything is verified, and for
an inner protocol other than UDP and TCP the frame is rebuilt from a buffer that
nothing was written to.  `verified_unchanged_iff` states exactly when the
intended property holds.
-/

namespace Linuxyz.Xfrm.Gcm

open Buffer

variable {k : Kernel} {x : XfrmState} {buf : List UInt8}

/-! ## the frame and the blocks -/

theorem toNat_payloadlen (hlen : 66 ≤ buf.length) : (payloadlen buf).toNat = buf.length - 66 := by
  unfold payloadlen esplen
  omega

/-- Ciphertext and tag are the rest of the frame. -/
theorem payload_append_tag (hlen : 66 ≤ buf.length) : payload buf ++ tag buf = buf.drop 50 := by
  have htag :
      (buf.drop (50 + (buf.length - 66))).take 16 = (buf.drop 50).drop (buf.length - 66) := by
    rw [List.drop_drop, List.take_of_length_le]
    simp
    omega
  rw [payload, tag, toNat_payloadlen hlen, htag, List.take_append_drop]

/-- The associated data: the ESP header, with zeros in place of the IV. -/
def ad (buf : List UInt8) : List UInt8 := (buf.drop 34).take 8 ++ List.replicate 8 0

/-- The blocks that `kmalloc` returned, when none of the three calls failed. -/
structure Blocks (k : Kernel) where
  src : Nat → UInt8
  dst : Nat → UInt8
  final : Nat → UInt8
  hsrc : k.kmallocSrc = some src
  hdst : k.kmallocDst = some dst
  hfinal : k.kmallocFinal = some final

/-- The size of the three blocks. -/
def bufferSize (buf : List UInt8) : Nat := (buf.length - 50) * 8

/-- A fresh block. -/
def fresh (buf : List UInt8) (f : Nat → UInt8) : List UInt8 := (List.range (bufferSize buf)).map f

@[simp] theorem length_fresh (buf : List UInt8) (f : Nat → UInt8) :
    (fresh buf f).length = bufferSize buf := by
  simp [fresh]

theorem kmalloc_some (hlen : 66 ≤ buf.length) (f : Nat → UInt8) :
    kmalloc (some f) (esplen buf * 8) = pure (fresh buf f) := by
  have hnn : ¬ esplen buf * 8 < 0 := by unfold esplen; omega
  have hsize : (esplen buf * 8).toNat = bufferSize buf := by unfold esplen bufferSize; omega
  simp only [kmalloc, hnn, if_false, hsize, fresh]

theorem length_ad (hlen : 66 ≤ buf.length) : (ad buf).length = 16 := by
  simp [ad]
  omega

/-- `buffer_src` before the decryption: associated data, ciphertext and tag. -/
structure Source (buf src : List UInt8) : Prop where
  front : src.take (16 + (buf.length - 50)) = ad buf ++ buf.drop 50

theorem Source.take_ad (h : Source buf src) (hlen : 66 ≤ buf.length) : src.take 16 = ad buf := by
  have hfront := congrArg (List.take 16) h.front
  rw [List.take_take, Nat.min_eq_left (by omega)] at hfront
  rw [hfront, ← length_ad hlen, List.take_left]

/-- The place of ciphertext and tag in a block. -/
def cipherPart (buf block : List UInt8) : List UInt8 := (block.drop 16).take (buf.length - 50)

theorem Source.cipherPart_eq (h : Source buf src) (hlen : 66 ≤ buf.length) :
    cipherPart buf src = buf.drop 50 := by
  have hfront := congrArg (List.drop 16) h.front
  rw [List.drop_take, Nat.add_sub_cancel_left] at hfront
  rw [cipherPart, hfront, ← length_ad hlen, List.drop_left]

/-- With the blocks there, the frame is copied to `buffer_src`. -/
theorem espPrepare_of_blocks (hlen : 66 ≤ buf.length) (b : Blocks k) :
    ∃ src, espPrepare k buf = pure (src, fresh buf b.dst, fresh buf b.final) ∧ Source buf src := by
  have hn := toNat_payloadlen hlen
  have hB : bufferSize buf = (buf.length - 50) * 8 := rfl
  have hhdr : (espHeader buf).length = 16 := by simp [espHeader]; omega
  have hzero : (List.replicate 8 (0 : UInt8)).length = 8 := rfl
  have hpay : (payload buf).length = buf.length - 66 := by simp [payload, hn]; omega
  have htag : (tag buf).length = 16 := by simp [tag, hn]; omega
  have hnn : ¬ payloadlen buf < 0 := by unfold payloadlen esplen; omega
  -- `buffer_src` is filled front to back
  obtain ⟨s₀, hs₀⟩ : ∃ s₀, fresh buf b.src = s₀ := ⟨_, rfl⟩
  obtain ⟨s₁, hs₁⟩ : ∃ s₁, overwrite s₀ 0 (espHeader buf) = s₁ := ⟨_, rfl⟩
  obtain ⟨s₂, hs₂⟩ : ∃ s₂, overwrite s₁ 8 (List.replicate 8 0) = s₂ := ⟨_, rfl⟩
  obtain ⟨s₃, hs₃⟩ : ∃ s₃, overwrite s₂ 16 (payload buf) = s₃ := ⟨_, rfl⟩
  have h₀ : s₀.length = bufferSize buf := by rw [← hs₀, length_fresh]
  have h₁ : s₁.length = bufferSize buf := by rw [← hs₁, length_overwrite (by omega), h₀]
  have h₂ : s₂.length = bufferSize buf := by rw [← hs₂, length_overwrite (by omega), h₁]
  have h₃ : s₃.length = bufferSize buf := by rw [← hs₃, length_overwrite (by omega), h₂]
  have hrun : espPrepare k buf =
      pure (overwrite s₃ (16 + (buf.length - 66)) (tag buf), fresh buf b.dst,
        fresh buf b.final) := by
    simp only [espPrepare, b.hsrc, b.hdst, b.hfinal, kmalloc_some hlen, pure_bind, hnn,
      if_false, hs₀, hn]
    rw [copy_of_fits (by omega), pure_bind, hs₁, copy_of_fits (by omega), pure_bind, hs₂,
      copy_of_fits (by omega), pure_bind, hs₃, copy_of_fits (by omega), pure_bind]
  have hfront₂ : s₂.take (8 + (List.replicate 8 (0 : UInt8)).length) = ad buf := by
    rw [← hs₂, take_overwrite_add (by omega), ← hs₁,
      take_overwrite_zero_of_le _ _ (by omega), espHeader, List.take_take,
      Nat.min_eq_left (by omega), ad]
  have hfront₃ : s₃.take (16 + (buf.length - 66)) = ad buf ++ payload buf := by
    rw [← hs₃, ← hpay, take_overwrite_add (by omega)]
    exact congrArg (· ++ payload buf) hfront₂
  refine ⟨_, hrun, ⟨?_⟩⟩
  have hend : 16 + (buf.length - 50) = 16 + (buf.length - 66) + (tag buf).length := by omega
  rw [hend, take_overwrite_add (by omega), hfront₃, List.append_assoc, payload_append_tag hlen]

/-! ## the branch, stage by stage -/

/-- The calls that set the AEAD up succeed. -/
structure Keyed (k : Kernel) : Prop where
  allocAead : k.allocAead = true
  setauthsize : k.setauthsize = 0
  setkey : k.setkey = 0

/-- The plaintext of the frame, when the AEAD accepts it. -/
def inner (k : Kernel) (x : XfrmState) (buf : List UInt8) : Option (List UInt8) :=
  k.opened x.key (iv buf) (ad buf) (buf.drop 50)

/-- Decryption succeeds only on what encryption produces. -/
structure AeadInverse (k : Kernel) : Prop where
  sealed_of_opened : ∀ {key iv ad cipher plain},
    k.opened key iv ad cipher = some plain → k.sealed key iv ad plain = cipher

theorem length_of_inner (h : inner k x buf = some plain) : plain.length = buf.length - 66 := by
  obtain ⟨v, -, rfl⟩ := Option.map_eq_some_iff.mp h
  rw [Vector.length_toList, List.length_drop]
  omega

/-- An allocation that fails is an error. -/
theorem ends_kmalloc_missing (call : Kmalloc) (size : Int) :
    Ends (kmalloc call size) (fun _ => ∃ f, call = some f) (· ≠ 0) := by
  unfold kmalloc
  split
  · exact .throw (by decide)
  · next f =>
      split
      · exact .throw (by decide)
      · exact .pure ⟨f, rfl⟩

/-- A frame without room for the tag, or a block that is missing, leaves a
non-zero `err` behind. -/
theorem ends_espPrepare (h : buf.length < 66 ∨ IsEmpty (Blocks k)) :
    Ends (espPrepare k buf) (fun _ => False) (· ≠ 0) := by
  unfold espPrepare
  refine (ends_kmalloc_missing ..).bind ?_
  rintro src ⟨f, hf⟩
  refine (ends_kmalloc_missing ..).bind ?_
  rintro dst ⟨g, hg⟩
  refine (ends_kmalloc_missing ..).bind ?_
  rintro final ⟨l, hl⟩
  have hshort : buf.length < 66 := h.resolve_right fun hb => hb.false ⟨f, g, l, hf, hg, hl⟩
  have hneg : payloadlen buf < 0 := by unfold payloadlen esplen; omega
  refine (ends_copy (fun _ => trivial) ..).bind fun src _ => ?_
  refine (ends_copy (fun _ => trivial) ..).bind fun src _ => ?_
  rw [if_pos hneg]
  exact .fault_bind

/-- Every failure before the request is seen in `err`. -/
theorem ends_espDecrypt_of_not_keyed (h : ¬ Keyed k) (src dst : List UInt8) :
    Ends (espDecrypt k x buf src dst) (fun _ => False) (· ≠ 0) := by
  by_cases halloc : k.allocAead = true
  · by_cases hauth : k.setauthsize = 0
    · have hkey : k.setkey ≠ 0 := fun hkey => h ⟨halloc, hauth, hkey⟩
      rw [espDecrypt, halloc, if_neg (by decide), if_neg (not_not.mpr hauth), if_pos hkey]
      exact .throw_bind hkey
    · rw [espDecrypt, halloc, if_neg (by decide), if_pos hauth]
      exact .throw_bind hauth
  · rw [espDecrypt, Bool.eq_false_iff.mpr halloc, if_pos (by decide)]
    exact .throw_bind (by decide)

/-- Once the AEAD has its key, what follows depends on the request, on
`crypto_aead_decrypt` and on the AEAD itself. -/
theorem espDecrypt_of_keyed (hlen : 66 ≤ buf.length) (hk : Keyed k) (hs : Source buf src)
    (dst : List UInt8) :
    espDecrypt k x buf src dst =
      if !k.requestAlloc then throw 0
      else if k.decrypt ≠ 0 then throw k.decrypt
      else match inner k x buf with
        | none => throw (-74)
        | some plain => copy dst 16 plain := by
  have hcipher : (src.drop 16).take ((payloadlen buf).toNat + 16) = buf.drop 50 := by
    rw [← hs.cipherPart_eq hlen, cipherPart, toNat_payloadlen hlen]
    congr 1
    omega
  simp only [espDecrypt, hk.allocAead, hk.setauthsize, hk.setkey, hs.take_ad hlen, hcipher, inner]
  rfl

/-! ## the comparisons -/

/-- What the two `memcmp` calls compare: the first 16 bytes and the last 16. -/
def Agree (c g : List UInt8) : Prop :=
  c.take 16 = g.take 16 ∧ c.drop (c.length - 16) = g.drop (c.length - 16)

instance : Decidable (Agree c g) := inferInstanceAs (Decidable (_ ∧ _))

theorem take_cipherPart (hlen : 66 ≤ buf.length) (block : List UInt8) :
    (cipherPart buf block).take 16 = (block.drop 16).take 16 := by
  rw [cipherPart, List.take_take, Nat.min_eq_left (by omega)]

theorem drop_cipherPart (hlen : 66 ≤ buf.length) (block : List UInt8) :
    (cipherPart buf block).drop (buf.length - 66) =
      (block.drop (16 + (buf.length - 66))).take 16 := by
  rw [cipherPart, List.drop_take, List.drop_drop]
  congr 1
  omega

/-- The comparison goes through exactly if both texts agree in front and at the end. -/
theorem espCompare_eq (hlen : 66 ≤ buf.length) (hs : Source buf src) (final : List UInt8) :
    espCompare buf src final = if Agree (buf.drop 50)
    (cipherPart buf final) then pure final else throw 0 := by
  have hn : (buf.drop 50).length - 16 = buf.length - 66 := by rw [List.length_drop]; omega
  have hagree : Agree (buf.drop 50) (cipherPart buf final) ↔
      (src.drop 16).take 16 = (final.drop 16).take 16 ∧
        (src.drop (16 + (buf.length - 66))).take 16 =
          (final.drop (16 + (buf.length - 66))).take 16 := by
    unfold Agree
    rw [hn, ← hs.cipherPart_eq hlen, take_cipherPart hlen, take_cipherPart hlen,
      drop_cipherPart hlen, drop_cipherPart hlen]
  simp only [espCompare, toNat_payloadlen hlen]
  split
  · next hne => rw [if_neg fun h => hne (hagree.mp h).1]
  · next heq =>
      split
      · next hne => rw [if_neg fun h => hne (hagree.mp h).2]
      · next heq' => rw [if_pos (hagree.mpr ⟨not_not.mp heq, not_not.mp heq'⟩)]

/-- `buffer_final` is encrypted into for UDP and TCP only, and compared always. -/
theorem espReencrypt_eq (src dst final : List UInt8) :
    espReencrypt k x buf src dst final =
      (if dst.getD 25 0 = ipprotoUdp ∨ dst.getD 25 0 = ipprotoTcp then
        reencrypt k x buf src dst final
        else pure final) >>= espCompare buf src := by
  have hne : ipprotoUdp ≠ ipprotoTcp := by decide
  simp only [espReencrypt, Nat.reduceAdd]
  by_cases hu : dst.getD 25 0 = ipprotoUdp
  · simp only [hu, hne, true_or, if_true, if_false]
  · by_cases ht : dst.getD 25 0 = ipprotoTcp
    · simp only [ht, hne.symm, or_true, if_true, if_false]
    · simp only [hu, ht, or_self, if_false, pure_bind]

/-- The encryption of what was decrypted puts ciphertext and tag back. -/
theorem reencrypt_of_opened (hlen : 66 ≤ buf.length) (hc : AeadInverse k) (hs : Source buf src)
    (h : inner k x buf = some plain) (hdst : dst.length = bufferSize buf)
    (hfinal : final.length = bufferSize buf) :
    reencrypt k x buf src (overwrite dst 16 plain) final =
      if k.encrypt ≠ 0 then throw k.encrypt else pure (overwrite final 16 (buf.drop 50)) := by
  have hB : bufferSize buf = (buf.length - 50) * 8 := rfl
  have hp := length_of_inner h
  have had := length_ad hlen
  have hc' : (buf.drop 50).length = buf.length - 50 := List.length_drop
  have hdst' : (overwrite dst 16 plain).length = bufferSize buf := by
    rw [length_overwrite (by omega), hdst]
  have hfirst : (overwrite (overwrite dst 16 plain) 0 (ad buf)).take 16 = ad buf := by
    rw [← had, take_overwrite_zero]
  have hplain :
      ((overwrite (overwrite dst 16 plain) 0 (ad buf)).drop 16).take (buf.length - 66) = plain := by
    rw [← had, drop_overwrite_zero, had, ← hp, take_drop_overwrite (by omega)]
  rw [reencrypt, hs.take_ad hlen, copy_of_fits (by omega), pure_bind, toNat_payloadlen hlen,
    hfirst, hplain, hc.sealed_of_opened h]
  split
  · rfl
  · exact copy_of_fits (by omega)

/-- The frame is rebuilt around what stands in `buffer_final`. -/
theorem espRebuild_eq (hlen : 66 ≤ buf.length) (hfinal : final.length = bufferSize buf) :
    espRebuild buf final = pure (ipSendCheck (buf.take 50 ++ cipherPart buf final)) := by
  have hB : bufferSize buf = (buf.length - 50) * 8 := rfl
  have hn := toNat_payloadlen hlen
  have hpay : ((final.drop 16).take (buf.length - 66)).length = buf.length - 66 := by simp; omega
  have htag : ((final.drop (16 + (buf.length - 66))).take 16).length = 16 := by simp; omega
  have hsplit :
      (final.drop 16).take (buf.length - 66) ++ (final.drop (16 + (buf.length - 66))).take 16 =
      cipherPart buf final := by
    have htake :
        (final.drop 16).take (buf.length - 66) = (cipherPart buf final).take (buf.length - 66) := by
      rw [cipherPart, List.take_take, Nat.min_eq_left (by omega)]
    rw [htake, ← drop_cipherPart hlen, List.take_append_drop]
  have hpart : (cipherPart buf final).length = buf.length - 50 := by
    rw [← hsplit, List.length_append]; omega
  simp only [espRebuild, hn]
  rw [copy_of_fits (by omega), pure_bind,
    copy_of_fits (by rw [length_overwrite (by omega)]; omega), pure_bind]
  rw [overwrite_append hpay (by omega), hsplit, overwrite, hpart, List.drop_eq_nil_of_le (by omega),
    List.append_nil]

/-! ## the label `esp_end` -/

theorem atEspEnd_of_pure (h : espBody k x buf = pure buf') : atEspEnd k x buf = some (0, buf') := by
  rw [atEspEnd, h]
  rfl

theorem atEspEnd_of_throw (h : espBody k x buf = throw err) :
    atEspEnd k x buf = some (err, buf) := by
  rw [atEspEnd, h]
  rfl

/-- A body that ends with errors only gives one. -/
theorem err_ne_zero (h : Ends (espBody k x buf) (fun _ => False) (· ≠ 0))
    (hend : atEspEnd k x buf = some (err, buf')) : err ≠ 0 := by
  rw [atEspEnd, Option.map_eq_some_iff] at hend
  obtain ⟨r, hr, heq⟩ := hend
  cases r with
  | ok buf' => exact (h.ok _ hr).elim
  | error e =>
      cases heq
      exact h.error _ hr

/-- With the blocks there, the branch starts from a filled `buffer_src`. -/
theorem espBody_of_blocks (hlen : 66 ≤ buf.length) (b : Blocks k) (x : XfrmState) :
    ∃ src, Source buf src ∧ espBody k x buf =
      espDecrypt k x buf src (fresh buf b.dst) >>= fun dst =>
        espReencrypt k x buf src dst (fresh buf b.final) >>= espRebuild buf := by
  obtain ⟨src, hsrc, hs⟩ := espPrepare_of_blocks hlen b
  refine ⟨src, hs, ?_⟩
  rw [espBody, hsrc, pure_bind]

/-- The AEAD has accepted the frame, with this plaintext. -/
structure Accepted (k : Kernel) (x : XfrmState) (buf plain : List UInt8) : Prop where
  keyed : Keyed k
  request : k.requestAlloc = true
  decrypt : k.decrypt = 0
  opened : inner k x buf = some plain

/-- The protocol byte of the decrypted packet, as it is read from `buffer_dst`. -/
def innerProtocol (buf : List UInt8) (b : Blocks k) (plain : List UInt8) : UInt8 :=
  (overwrite (fresh buf b.dst) 16 plain).getD 25 0

/-- An accepted frame is decrypted, and its inner protocol decides what happens to
`buffer_final`. -/
theorem espBody_of_accepted (hlen : 66 ≤ buf.length) (b : Blocks k) (h : Accepted k x buf plain) :
    ∃ src, Source buf src ∧ espBody k x buf =
      (if innerProtocol buf b plain = ipprotoUdp ∨ innerProtocol buf b plain = ipprotoTcp then
        reencrypt k x buf src (overwrite (fresh buf b.dst) 16 plain) (fresh buf b.final)
        else pure (fresh buf b.final)) >>= espCompare buf src >>= espRebuild buf := by
  have hB : bufferSize buf = (buf.length - 50) * 8 := rfl
  have hpl := length_of_inner h.opened
  obtain ⟨src, hs, hbody⟩ := espBody_of_blocks hlen b x
  refine ⟨src, hs, ?_⟩
  rw [hbody, espDecrypt_of_keyed hlen h.keyed hs]
  simp only [h.request, h.decrypt, h.opened, Bool.not_true, Bool.false_eq_true, ne_eq,
    not_true_eq_false, if_false]
  rw [copy_of_fits (by rw [length_fresh]; omega), pure_bind, espReencrypt_eq]
  rfl

/-- An accepted frame with an inner UDP or TCP packet comes out as it went in. -/
theorem espBody_of_transport (hlen : 66 ≤ buf.length) (hc : AeadInverse k) (b : Blocks k)
    (h : Accepted k x buf plain)
    (hp : innerProtocol buf b plain = ipprotoUdp ∨ innerProtocol buf b plain = ipprotoTcp) :
    espBody k x buf = if k.encrypt ≠ 0 then throw k.encrypt else pure (ipSendCheck buf) := by
  have hB : bufferSize buf = (buf.length - 50) * 8 := rfl
  have hcl : (buf.drop 50).length = buf.length - 50 := List.length_drop
  have hpart : cipherPart buf (overwrite (fresh buf b.final) 16 (buf.drop 50)) = buf.drop 50 := by
    rw [cipherPart, ← hcl, take_drop_overwrite (by rw [length_fresh]; omega)]
  have hagree : Agree (buf.drop 50) (buf.drop 50) := ⟨rfl, rfl⟩
  obtain ⟨src, hs, hbody⟩ := espBody_of_accepted hlen b h
  rw [hbody, if_pos hp, reencrypt_of_opened hlen hc hs h.opened (length_fresh ..) (length_fresh ..)]
  split
  · rfl
  · rw [pure_bind, espCompare_eq hlen hs, hpart, if_pos hagree, pure_bind,
      espRebuild_eq hlen (by rw [length_overwrite (by rw [length_fresh]; omega), length_fresh]),
      hpart, List.take_append_drop]

/-- For any other inner packet the frame is compared with a fresh `buffer_final`,
and rebuilt from it. -/
theorem espBody_of_other (hlen : 66 ≤ buf.length) (b : Blocks k) (h : Accepted k x buf plain)
    (hp : ¬ (innerProtocol buf b plain = ipprotoUdp ∨ innerProtocol buf b plain = ipprotoTcp)) :
    espBody k x buf =
      if Agree (buf.drop 50) (cipherPart buf (fresh buf b.final)) then
        pure (ipSendCheck (buf.take 50 ++ cipherPart buf (fresh buf b.final)))
      else throw 0 := by
  obtain ⟨src, hs, hbody⟩ := espBody_of_accepted hlen b h
  rw [hbody, if_neg hp, pure_bind, espCompare_eq hlen hs]
  split
  · rw [pure_bind, espRebuild_eq hlen (length_fresh ..)]
  · rfl

/-- A request that cannot be allocated ends the branch with `err = 0`. -/
theorem espBody_of_no_request (hlen : 66 ≤ buf.length) (b : Blocks k) (hk : Keyed k)
    (hr : k.requestAlloc = false) : espBody k x buf = throw 0 := by
  obtain ⟨src, hs, hbody⟩ := espBody_of_blocks hlen b x
  rw [hbody, espDecrypt_of_keyed hlen hk hs, if_pos (by simp [hr])]
  rfl

/-- `err = 0` at `esp_end`: the frame is long enough, the calls before the request
succeeded, and either there was no request or the AEAD accepted the frame. -/
theorem accepted_of_atEspEnd (h : atEspEnd k x buf = some (0, buf')) :
    66 ≤ buf.length ∧ Nonempty (Blocks k) ∧ Keyed k ∧
      (k.requestAlloc = false ∨ ∃ plain, Accepted k x buf plain) := by
  by_cases hprep : buf.length < 66 ∨ IsEmpty (Blocks k)
  · exact absurd rfl (err_ne_zero ((ends_espPrepare hprep).bind fun _ hf => hf.elim) h)
  rw [not_or, not_isEmpty_iff, Nat.not_lt] at hprep
  obtain ⟨hlen, ⟨b⟩⟩ := hprep
  obtain ⟨src, hs, hbody⟩ := espBody_of_blocks hlen b x
  by_cases hk : Keyed k
  · refine ⟨hlen, ⟨b⟩, hk, ?_⟩
    cases hr : k.requestAlloc with
    | false => exact .inl rfl
    | true =>
        refine .inr ?_
        rw [espDecrypt_of_keyed hlen hk hs, if_neg (by simp [hr])] at hbody
        by_cases hd : k.decrypt ≠ 0
        · rw [if_pos hd] at hbody
          have hend := (atEspEnd_of_throw hbody).symm.trans h
          exact absurd (congrArg Prod.fst (Option.some.inj hend)) hd
        · rw [if_neg hd] at hbody
          cases hi : inner k x buf with
          | none =>
              rw [hi] at hbody
              have hend := (atEspEnd_of_throw hbody).symm.trans h
              cases hend
          | some plain => exact ⟨plain, hk, hr, not_not.mp hd, hi⟩
  · refine absurd rfl (err_ne_zero ?_ h)
    rw [hbody]
    exact (ends_espDecrypt_of_not_keyed hk ..).bind fun _ hf => hf.elim

/-! ## the frame on the peer's queue -/

/-- The frame takes the ESP branch. -/
structure EspFrame (k : Kernel) (buf : List UInt8) : Prop where
  length : 34 ≤ buf.length
  devNet : k.devNet = true
  protocol : protocol buf = ipprotoEsp

/-- The call puts `pkt` on the peer's receive queue. -/
def Queued (k : Kernel) (s : Sys) (buf : List UInt8) (dev : Dev) (pkt : Packet) : Prop :=
  ∃ s', kxfrmHwTx k buf s dev = some s' ∧
    (s'.priv dev.peer).rxQueue = pkt :: (s.priv dev.peer).rxQueue

/-- The bytes are those of `buf`, but for the checksum of the outer IPv4 header. -/
structure Unchanged (buf buf' : List UInt8) : Prop where
  length : buf'.length = buf.length
  getElem? : ∀ i, i ≠ 24 → i ≠ 25 → buf'[i]? = buf[i]?

theorem unchanged_ipSendCheck (hlen : 26 ≤ buf.length) : Unchanged buf (ipSendCheck buf) :=
  ⟨length_ipSendCheck hlen, fun _ h₁ h₂ => getElem?_ipSendCheck hlen h₁ h₂⟩

/-- Behind the headers, an unchanged frame is unchanged without exception. -/
theorem Unchanged.drop_eq (h : Unchanged buf buf') (hn : 26 ≤ n) : buf'.drop n = buf.drop n := by
  apply List.ext_getElem?
  intro i
  rw [List.getElem?_drop, List.getElem?_drop, h.getElem? (n + i) (by omega) (by omega)]

theorem kxfrmHwTx_esp (h : EspFrame k buf) (s : Sys) (dev : Dev) :
    kxfrmHwTx k buf s dev = match k.xfrmStateLookup (htonl (s.spiVals dev)) with
      | none => some s
      | some x => (atEspEnd k x buf).bind fun (err, buf) =>
          if err ≠ 0 then some s else forward s buf dev := by
  have hlong : ¬ buf.length < 14 + 20 := by have := h.length; omega
  simp only [kxfrmHwTx, hlong, if_false, h.devNet, h.protocol]
  rfl

/-- A frame that reaches `esp_end` with `err = 0` is queued when the devices are
ready. -/
theorem queued_of_atEspEnd (h : EspFrame k buf)
    (hx : k.xfrmStateLookup (htonl (s.spiVals dev)) = some x) (hr : Ready s dev)
    (hend : atEspEnd k x buf = some (0, buf')) :
    ∃ pkt, Queued k s buf dev pkt ∧ pkt.frame = buf' := by
  obtain ⟨s', pkt, hs', hq, -, hframe⟩ := forward_of_ready hr buf'
  refine ⟨pkt, ⟨s', ?_, hq⟩, hframe⟩
  rw [kxfrmHwTx_esp h]
  simp only [hx, hend, Option.bind_some, ne_eq, not_true_eq_false, if_false]
  exact hs'

/-- And only then. -/
theorem atEspEnd_of_queued (h : EspFrame k buf) (hq : Queued k s buf dev pkt) :
    Ready s dev ∧ ∃ x, k.xfrmStateLookup (htonl (s.spiVals dev)) = some x ∧
      atEspEnd k x buf = some (0, pkt.frame) := by
  obtain ⟨s', hs', hq⟩ := hq
  have hpush : (s'.priv dev.peer).rxQueue ≠ (s.priv dev.peer).rxQueue := by simp [hq]
  rw [kxfrmHwTx_esp h] at hs'
  cases hx : k.xfrmStateLookup (htonl (s.spiVals dev)) with
  | none =>
      simp only [hx, Option.some.injEq] at hs'
      exact absurd (by rw [hs']) hpush
  | some x =>
      simp only [hx, Option.bind_eq_some_iff] at hs'
      obtain ⟨⟨err, buf'⟩, hend, hs'⟩ := hs'
      by_cases herr : err = 0
      · subst herr
        simp only [ne_eq, not_true_eq_false, if_false] at hs'
        have hr : Ready s dev := not_not.mp fun hr => hpush (forward_of_not_ready hr buf' hs')
        obtain ⟨s'', pkt', hs'', hq', -, hframe⟩ := forward_of_ready hr buf'
        obtain rfl : s'' = s' := Option.some.inj (hs''.symm.trans hs')
        obtain rfl : pkt' = pkt := (List.cons.inj (hq'.symm.trans hq)).1
        exact ⟨hr, x, rfl, by rw [hend, hframe]⟩
      · simp only [ne_eq, herr, not_false_eq_true, if_true, Option.some.injEq] at hs'
        exact absurd (by rw [hs']) hpush

/-- The ways round the verification. -/
inductive Slips (k : Kernel) (x : XfrmState) (buf : List UInt8) : Prop
  /-- a request that cannot be allocated, after `err` became zero -/
  | noRequest (b : Blocks k) (hlen : 66 ≤ buf.length) (hk : Keyed k) (hr : k.requestAlloc = false)
  /-- an inner packet that is not encrypted again, and a fresh `buffer_final` that
  passes both comparisons without being the ciphertext -/
  | stale (b : Blocks k) (hlen : 66 ≤ buf.length) (plain : List UInt8) (h : Accepted k x buf plain)
      (hp : ¬ (innerProtocol buf b plain = ipprotoUdp ∨ innerProtocol buf b plain = ipprotoTcp))
      (ha : Agree (buf.drop 50) (cipherPart buf (fresh buf b.final)))
      (hne : cipherPart buf (fresh buf b.final) ≠ buf.drop 50)

/-- The AEAD has accepted the frame under the state that was looked up. -/
def Verified (k : Kernel) (s : Sys) (buf : List UInt8) (dev : Dev) : Prop :=
  ∃ x plain, k.xfrmStateLookup (htonl (s.spiVals dev)) = some x ∧ Accepted k x buf plain

/-- A frame that slips through is queued unverified, or with other bytes. -/
theorem queued_of_slips (h : EspFrame k buf)
    (hx : k.xfrmStateLookup (htonl (s.spiVals dev)) = some x) (hr : Ready s dev)
    (hslip : Slips k x buf) :
    ∃ pkt, Queued k s buf dev pkt ∧ ¬ (Verified k s buf dev ∧ Unchanged buf pkt.frame) := by
  cases hslip with
  | noRequest b hlen hk hreq =>
      obtain ⟨pkt, hq, -⟩ := queued_of_atEspEnd h hx hr
        (atEspEnd_of_throw (espBody_of_no_request hlen b hk hreq))
      refine ⟨pkt, hq, ?_⟩
      rintro ⟨⟨_, _, _, hacc⟩, -⟩
      exact absurd hacc.request (by simp [hreq])
  | stale b hlen plain hacc hp ha hne =>
      have htake : (buf.take 50).length = 50 := by rw [List.length_take]; omega
      have hrebuilt : 26 ≤ (buf.take 50 ++ cipherPart buf (fresh buf b.final)).length := by
        rw [List.length_append]; omega
      have hbody := espBody_of_other hlen b hacc hp
      rw [if_pos ha] at hbody
      obtain ⟨pkt, hq, hframe⟩ := queued_of_atEspEnd h hx hr (atEspEnd_of_pure hbody)
      refine ⟨pkt, hq, ?_⟩
      rintro ⟨-, hsame⟩
      have hpart := hsame.drop_eq (n := 50) (by omega)
      rw [hframe, (unchanged_ipSendCheck hrebuilt).drop_eq (by omega),
        List.drop_left' htake] at hpart
      exact hne hpart

/-- Whatever reaches the peer was verified and is unchanged, except when a frame
slips through between devices that are ready. -/
theorem verified_unchanged_iff (k : Kernel) (s : Sys) (buf : List UInt8) (dev : Dev)
    (hc : AeadInverse k) (h : EspFrame k buf) :
    (∀ pkt, Queued k s buf dev pkt → Verified k s buf dev ∧ Unchanged buf pkt.frame) ↔
      ¬ (Ready s dev ∧ ∃ x, k.xfrmStateLookup (htonl (s.spiVals dev)) = some x ∧
        Slips k x buf) := by
  constructor
  · rintro hsafe ⟨hr, x, hx, hslip⟩
    obtain ⟨pkt, hq, hnot⟩ := queued_of_slips h hx hr hslip
    exact hnot (hsafe pkt hq)
  · intro hno pkt hq
    obtain ⟨hr, x, hx, hend⟩ := atEspEnd_of_queued h hq
    have hslip : ¬ Slips k x buf := fun hs => hno ⟨hr, x, hx, hs⟩
    obtain ⟨hlen, ⟨b⟩, hk, hreq | ⟨plain, hacc⟩⟩ := accepted_of_atEspEnd hend
    · exact absurd (.noRequest b hlen hk hreq) hslip
    refine ⟨⟨x, plain, hx, hacc⟩, ?_⟩
    by_cases hp : innerProtocol buf b plain = ipprotoUdp ∨ innerProtocol buf b plain = ipprotoTcp
    · have hbody := espBody_of_transport hlen hc b hacc hp
      by_cases he : k.encrypt ≠ 0
      · rw [if_pos he] at hbody
        obtain ⟨herr, -⟩ :=
          Prod.mk.inj (Option.some.inj ((atEspEnd_of_throw hbody).symm.trans hend))
        exact absurd herr he
      · rw [if_neg he] at hbody
        obtain ⟨-, hframe⟩ :=
          Prod.mk.inj (Option.some.inj ((atEspEnd_of_pure hbody).symm.trans hend))
        exact hframe ▸ unchanged_ipSendCheck (by omega)
    · have hbody := espBody_of_other hlen b hacc hp
      by_cases ha : Agree (buf.drop 50) (cipherPart buf (fresh buf b.final))
      · have heq : cipherPart buf (fresh buf b.final) = buf.drop 50 :=
          not_not.mp fun hne => hslip (.stale b hlen plain hacc hp ha hne)
        rw [if_pos ha, heq, List.take_append_drop] at hbody
        obtain ⟨-, hframe⟩ :=
          Prod.mk.inj (Option.some.inj ((atEspEnd_of_pure hbody).symm.trans hend))
        exact hframe ▸ unchanged_ipSendCheck (by omega)
      · rw [if_neg ha] at hbody
        obtain ⟨-, hframe⟩ :=
          Prod.mk.inj (Option.some.inj ((atEspEnd_of_throw hbody).symm.trans hend))
        exact hframe ▸ ⟨rfl, fun _ _ _ => rfl⟩

/-! ## three frames -/

/-- An AEAD that appends sixteen ones. -/
def onesKernel (requestAlloc : Bool) (final : Nat → UInt8) : Kernel where
  devNet := true
  xfrmStateLookup := fun _ => some ⟨none⟩
  kmallocSrc := some fun _ => 0
  kmallocDst := some fun _ => 0
  kmallocFinal := some final
  allocAead := true
  setauthsize := 0
  setkey := 0
  requestAlloc := requestAlloc
  decrypt := 0
  encrypt := 0
  aeadDecrypt := fun _ _ _ c =>
    if c.drop (c.length - 16) = List.replicate 16 1 then
      some ⟨(c.take (c.length - 16)).toArray, by simp⟩
    else none
  aeadEncrypt := fun _ _ _ p => ⟨(p ++ List.replicate 16 1).toArray, by simp⟩

theorem aeadInverse_onesKernel (requestAlloc : Bool) (final : Nat → UInt8) :
    AeadInverse (onesKernel requestAlloc final) := by
  constructor
  intro key iv ad cipher plain h
  simp only [Kernel.opened, onesKernel] at h
  split at h
  · next htag =>
      cases h
      simp only [Kernel.sealed, onesKernel, ← htag]
      exact List.take_append_drop ..
  · cases h

/-- An ESP frame with 17 bytes of ciphertext, its tenth byte and its tag as given. -/
def espFrame (proto : UInt8) (tag : UInt8) : List UInt8 :=
  List.replicate 23 0 ++ [50] ++ List.replicate 35 0 ++ [proto] ++ List.replicate 7 0 ++
    List.replicate 16 tag

theorem espFrame_espFrame (requestAlloc : Bool) (final : Nat → UInt8) (proto tag : UInt8) :
    EspFrame (onesKernel requestAlloc final) (espFrame proto tag) := ⟨by simp [espFrame], rfl, rfl⟩

theorem ready_idlePair (dev : Dev) : Ready idlePair dev := ⟨rfl, rfl, by simp [idlePair]⟩

/-- What an earlier use may have left in a block: the same frame from the ESP header
on, but for one byte. -/
def staleBlock (i : Nat) : UInt8 := ((espFrame 1 1).set 66 9).getD (i + 34) 0

theorem accepted_onesKernel (final : Nat → UInt8) (proto : UInt8) :
    Accepted (onesKernel true final) ⟨none⟩ (espFrame proto 1)
    (List.replicate 9 0 ++ [proto] ++ List.replicate 7 0) :=
  ⟨⟨rfl, rfl, rfl⟩, rfl, rfl, rfl⟩

/-- Without a request, a frame that the AEAD would reject is queued; and a verified
frame with an inner packet that is neither UDP nor TCP is queued with another byte
in its ciphertext. -/
theorem unverified_and_altered_queued :
    (inner (onesKernel false fun _ => 0) ⟨none⟩ (espFrame 17 0) = none ∧
      ∃ pkt, Queued (onesKernel false fun _ => 0) idlePair (espFrame 17 0) .kxfrm0 pkt ∧
        ¬ Verified (onesKernel false fun _ => 0) idlePair (espFrame 17 0) .kxfrm0) ∧
      ∃ pkt, Queued (onesKernel true staleBlock) idlePair (espFrame 1 1) .kxfrm0 pkt ∧
        ¬ Unchanged (espFrame 1 1) pkt.frame := by
  refine ⟨⟨by decide, ?_⟩, ?_⟩
  · have hslip : Slips (onesKernel false fun _ => 0) ⟨none⟩ (espFrame 17 0) :=
      .noRequest ⟨_, _, _, rfl, rfl, rfl⟩ (by decide) ⟨rfl, rfl, rfl⟩ rfl
    obtain ⟨pkt, hq, -⟩ := queued_of_slips (espFrame_espFrame ..) rfl (ready_idlePair .kxfrm0) hslip
    refine ⟨pkt, hq, ?_⟩
    rintro ⟨_, _, _, hacc⟩
    exact Bool.false_ne_true hacc.request
  · have hacc := accepted_onesKernel staleBlock 1
    have hslip : Slips (onesKernel true staleBlock) ⟨none⟩ (espFrame 1 1) :=
      .stale ⟨fun _ => 0, fun _ => 0, staleBlock, rfl, rfl,
        rfl⟩ (by decide) _ hacc (by decide) (by decide) (by decide)
    obtain ⟨pkt, hq, hnot⟩ :=
      queued_of_slips (espFrame_espFrame ..) rfl (ready_idlePair .kxfrm0) hslip
    exact ⟨pkt, hq, fun hsame => hnot ⟨⟨_, _, rfl, hacc⟩, hsame⟩⟩

/-- With the request there, an inner UDP packet is forwarded, and as it came. -/
theorem verified_unchanged_udp :
    (∃ pkt, Queued (onesKernel true staleBlock) idlePair (espFrame 17 1) .kxfrm0 pkt) ∧
      ∀ pkt, Queued (onesKernel true staleBlock) idlePair (espFrame 17 1) .kxfrm0 pkt →
        Verified (onesKernel true staleBlock) idlePair (espFrame 17 1) .kxfrm0 ∧
          Unchanged (espFrame 17 1) pkt.frame := by
  have hc := aeadInverse_onesKernel true staleBlock
  have hacc := accepted_onesKernel staleBlock 17
  constructor
  · have hbody :=
      espBody_of_transport (by decide) hc ⟨fun _ => 0, fun _ => 0, staleBlock, rfl, rfl, rfl⟩ hacc
      (by decide)
    obtain ⟨pkt, hq, -⟩ := queued_of_atEspEnd (espFrame_espFrame ..) rfl (ready_idlePair .kxfrm0)
      (atEspEnd_of_pure hbody)
    exact ⟨pkt, hq⟩
  · refine (verified_unchanged_iff _ _ _ _ hc (espFrame_espFrame ..)).mpr ?_
    rintro ⟨-, x, hx, hslip⟩
    cases hslip with
    | noRequest b hlen hk hreq => exact Bool.false_ne_true hreq.symm
    | stale b hlen plain h hp ha hne =>
        obtain rfl := Option.some.inj hx
        obtain rfl := Option.some.inj (hacc.opened.symm.trans h.opened)
        obtain ⟨_, dst, _, _, hdst, _⟩ := b
        obtain rfl := Option.some.inj hdst
        exact hp (.inl rfl)

end Linuxyz.Xfrm.Gcm
