import Linuxyz.Lib.Checksum
import Linuxyz.Lib.Exits
import Linuxyz.Xfrm.Device

/-!
# Linuxyz.Xfrm.Cbc

`kxfrm_hw_tx` of `kxfrm/cbc/kxfrm.c`: the transmit path of the devices, with
its ESP branch.

A frame whose IPv4 protocol is ESP is authenticated with HMAC-SHA256,
decrypted with AES-CBC, re-encrypted and re-authenticated in place; all other
frames go straight to the peer.  The ESP branch leaves through the label
`esp_end`, where the value of `err` decides whether the frame goes on.  The
model keeps that structure: `espBody` is a computation in `Esp`, in which
`throw err` is `goto esp_end` with the current `err`, falling off the end is
reaching the label with `err = 0`, and a store outside a buffer is a fault.

`Kernel` is everything the kernel decides: which calls succeed, what fresh
memory holds, and the cryptographic functions.
-/

namespace Linuxyz.Xfrm

open Buffer Checksum

/-! ## the kernel -/

/-- The part of `struct xfrm_state` that is read: the keys of `aalg` and
`ealg`, when these are not `NULL`. -/
structure XfrmState where
  aalgKey : Option (Vector UInt8 32)
  ealgKey : Option (Vector UInt8 32)

/-- The outcomes of the calls inside one `hmac_sha256`. -/
structure HmacCalls where
  allocShash : Bool
  setkey : Int
  kzalloc : Bool
  digest : Int

/-- One call of `kmalloc`: `NULL`, or what the fresh block holds. -/
abbrev Kmalloc := Option (Nat → UInt8)

structure Kernel where
  /-- `dev_net(dev) != NULL` -/
  devNet : Bool
  /-- `xfrm_state_lookup_byspi` -/
  xfrmStateLookup : UInt32 → Option XfrmState
  kmallocSrc : Kmalloc
  kmallocDst : Kmalloc
  kmallocFinal : Kmalloc
  /-- the calls of the `hmac_sha256` that verifies -/
  hmacVerify : HmacCalls
  /-- the calls of the `hmac_sha256` that signs again -/
  hmacSign : HmacCalls
  allocSkcipher : Bool
  requestAlloc : Bool
  setkey : Int
  /-- the result of waiting for `crypto_skcipher_decrypt` -/
  decrypt : Int
  /-- the result of waiting for `crypto_skcipher_encrypt` -/
  encrypt : Int
  /-- HMAC-SHA256: key and message to digest -/
  hmac : List UInt8 → List UInt8 → Vector UInt8 32
  /-- AES-CBC under a key and an initialisation vector -/
  cbcEncrypt : List UInt8 → List UInt8 → List UInt8 → List UInt8
  cbcDecrypt : List UInt8 → List UInt8 → List UInt8 → List UInt8

/-! ## the branch up to `esp_end` -/

/-- A computation inside the ESP branch: `throw err` is `goto esp_end`, `none`
a memory fault. -/
abbrev Esp := ExceptT Int Option

/-- An out-of-bounds access. -/
def fault : Esp α := ExceptT.mk none

/-- A bounded copy; outside the block it faults. -/
def copy (dst : List UInt8) (off : Nat) (src : List UInt8) : Esp (List UInt8) :=
  ExceptT.mk ((memcpy dst off src).map .ok)

/-- A read of the first `n` bytes of a block. -/
def readFront (block : List UInt8) (n : Nat) : Esp (List UInt8) :=
  if n ≤ block.length then pure (block.take n) else fault

/-- `kmalloc(size)`; a negative `int` is a huge `size_t` and never served.
`err` is still `-1` when a block is missing. -/
def kmalloc (call : Kmalloc) (size : Int) : Esp (List UInt8) :=
  match call with
  | none => throw (-1)
  | some fresh => if size < 0 then throw (-1) else pure ((List.range size.toNat).map fresh)

theorem copy_of_fits {dst src : List UInt8} {off : Nat} (h : off + src.length ≤ dst.length) :
    copy dst off src = pure (overwrite dst off src) := by
  rw [copy, memcpy_eq_some h]; rfl

theorem ends_copy {Q : List UInt8 → Prop} {R : Int → Prop} (h : ∀ l, Q l) (dst src : List UInt8)
    (off : Nat) : Ends (copy dst off src) Q R := by
  unfold copy
  cases memcpy dst off src with
  | none => exact .fault
  | some l => exact .pure (h l)

/-- A copy inside its block keeps the size of the block. -/
theorem finishes_copy {dst src : List UInt8} {off : Nat} {R : Int → Prop}
    (h : off + src.length ≤ dst.length) :
    Finishes (copy dst off src) (fun l => l.length = dst.length) R := by
  rw [copy_of_fits h]
  exact .pure (length_overwrite h)

/-- A read inside its block. -/
theorem finishes_readFront {block : List UInt8} {n : Nat} {R : Int → Prop} (h : n ≤ block.length) :
    Finishes (readFront block n) (fun l => l.length = n) R := by
  rw [readFront, if_pos h]
  exact .pure (by rw [List.length_take, Nat.min_eq_left h])

/-- `hmac_sha256(key, 32, ikm, ikm_len, okm, 32)`: its return value and the
block `okm` points to. -/
def hmacSha256 (k : Kernel) (calls : HmacCalls) (key ikm okm : List UInt8) :
    Esp (Int × List UInt8) :=
  if !calls.allocShash then pure (-1, okm)
  else if calls.setkey ≠ 0 then pure (calls.setkey, okm)
  else if !calls.kzalloc then pure (-12, okm)
  else if calls.digest ≠ 0 then pure (calls.digest, okm)
  else do
    let okm ← copy okm 0 (k.hmac key ikm).toList
    return (0, okm)

/-- `pkt_len` after the padding loop and the two trailer bytes. -/
def paddedLen (totLen : Nat) : Nat :=
  let padtest := (totLen + 2) % 16
  let padlen := if padtest ≠ 0 then 16 - padtest else 0
  totLen + padlen + 1 + 1

def ipprotoTcp : UInt8 := 6
def ipprotoUdp : UInt8 := 17
def ipprotoEsp : UInt8 := 50

/-- The re-encryption of `buffer_dst` into `buffer_final` that the UDP and the
TCP case share. -/
def reencrypt (k : Kernel) (key nonceOrg bufferDst bufferFinal : List UInt8) (pktLen : Nat) :
    Esp (List UInt8) := do
  if k.encrypt ≠ 0 then throw k.encrypt
  let plain ← readFront bufferDst pktLen
  copy bufferFinal 0 (k.cbcEncrypt key nonceOrg plain)

/-- `iph->check = 0` and `ip_send_check` on the header at offset 14 of the
frame: the checksum over the `ihl` words of the header. -/
def ipSendCheck (buf : List UInt8) : List UInt8 :=
  let buf := overwrite buf 24 [0, 0]
  let ihl := (buf.getD 14 0).toNat % 16
  overwrite buf 24 (toBe16 (checksum ((buf.drop 14).take (4 * ihl))))

/-- The bytes the authentication tag covers: ESP header, IV and payload. -/
def authenticated (buf : List UInt8) : List UInt8 := (buf.drop 34).take (buf.length - 34 - 16)

/-- The tag at the end of the frame. -/
def tag (buf : List UInt8) : List UInt8 := buf.drop (buf.length - 16)

def XfrmState.authKey (x : XfrmState) : List UInt8 :=
  (x.aalgKey.getD (Vector.replicate 32 0)).toList

def XfrmState.key (x : XfrmState) : List UInt8 := (x.ealgKey.getD (Vector.replicate 32 0)).toList

/-- The initialisation vector in the frame.  The source copies it to `nonce`
afresh before each use, so what the cipher leaves there is never read. -/
def nonceOrg (buf : List UInt8) : List UInt8 := (buf.drop 42).take 16

/-- `payloadlen`: the frame less headers, ESP header, IV and tag. -/
def payloadlen (buf : List UInt8) : Int := (buf.length : Int) - 34 - 8 - 16 - 16

/-- The encrypted payload of the frame. -/
def payload (buf : List UInt8) : List UInt8 := (buf.drop 58).take (payloadlen buf).toNat

/-- From the three allocations to the comparison of the tags: `buffer_src`,
`buffer_dst` and `buffer_final`. -/
def espVerify (k : Kernel) (x : XfrmState) (buf : List UInt8) :
    Esp (List UInt8 × List UInt8 × List UInt8) := do
  let bufferSize := (payloadlen buf + 16) * 8
  let bufferSrc ← kmalloc k.kmallocSrc bufferSize
  let bufferDst ← kmalloc k.kmallocDst bufferSize
  let bufferFinal ← kmalloc k.kmallocFinal bufferSize
  let (err, bufferSrc) ← hmacSha256 k k.hmacVerify x.authKey (authenticated buf) bufferSrc
  if err ≠ 0 then throw err
  if tag buf ≠ bufferSrc.take 16 then throw err
  return (bufferSrc, bufferDst, bufferFinal)

/-- The decryption of the payload into `buffer_dst`. -/
def espDecrypt (k : Kernel) (x : XfrmState) (buf bufferSrc bufferDst : List UInt8) :
    Esp (List UInt8 × List UInt8) := do
  -- a negative `payloadlen` is a copy of nearly `SIZE_MAX` bytes
  if payloadlen buf < 0 then fault
  let bufferSrc ← copy bufferSrc 0 (payload buf)
  -- the next two failures reach `esp_end` with the `0` that the HMAC returned
  if !k.allocSkcipher then throw 0
  if !k.requestAlloc then throw 0
  if k.setkey ≠ 0 then throw k.setkey
  if k.decrypt ≠ 0 then throw k.decrypt
  let cipher ← readFront bufferSrc (payloadlen buf).toNat
  let bufferDst ← copy bufferDst 0 (k.cbcDecrypt x.key (nonceOrg buf) cipher)
  return (bufferSrc, bufferDst)

/-- The re-encryption and the comparison with the received ciphertext. -/
def espReencrypt (k : Kernel) (x : XfrmState) (buf bufferSrc bufferDst bufferFinal : List UInt8) :
    Esp (List UInt8) := do
  let pktLen := paddedLen (be16 bufferDst 2)
  let protocol := bufferDst.getD 9 0
  let mut bufferFinal := bufferFinal
  if protocol = ipprotoUdp then
    bufferFinal ← reencrypt k x.key (nonceOrg buf) bufferDst bufferFinal pktLen
  if protocol = ipprotoTcp then
    bufferFinal ← reencrypt k x.key (nonceOrg buf) bufferDst bufferFinal pktLen
  if bufferSrc.take 16 ≠ bufferFinal.take 16 then throw 0
  return bufferFinal

/-- The new tag and the stores into the frame. -/
def espRebuild (k : Kernel) (x : XfrmState) (buf bufferSrc bufferDst bufferFinal : List UInt8) :
    Esp (List UInt8) := do
  let n := (payloadlen buf).toNat
  let bufferSrc ← copy bufferSrc 0 ((buf.drop 34).take 8)
  let bufferSrc ← copy bufferSrc 8 (nonceOrg buf)
  let cipher ← readFront bufferFinal n
  let bufferSrc ← copy bufferSrc (8 + 16) cipher
  let signed ← readFront bufferSrc (8 + 16 + n)
  let (err, bufferDst) ← hmacSha256 k k.hmacSign x.authKey signed bufferDst
  if err ≠ 0 then throw err
  let buf ← copy buf (34 + 8 + 16) cipher
  let newTag ← readFront bufferDst 16
  let buf ← copy buf (34 + 8 + 16 + n) newTag
  return ipSendCheck buf

/-- The ESP branch up to the label `esp_end`; the frame is only written at its
very end. -/
def espBody (k : Kernel) (x : XfrmState) (buf : List UInt8) : Esp (List UInt8) := do
  let (bufferSrc, bufferDst, bufferFinal) ← espVerify k x buf
  let (bufferSrc, bufferDst) ← espDecrypt k x buf bufferSrc bufferDst
  let bufferFinal ← espReencrypt k x buf bufferSrc bufferDst bufferFinal
  espRebuild k x buf bufferSrc bufferDst bufferFinal

/-- At `esp_end`: the value of `err` and the frame as it is then. -/
def atEspEnd (k : Kernel) (x : XfrmState) (buf : List UInt8) : Option (Int × List UInt8) :=
  (espBody k x buf).run.map fun
    | .ok buf' => (0, buf')
    | .error err => (err, buf)

/-! ## `kxfrm_hw_tx` -/

/-- `ih->protocol` of the outer header. -/
def protocol (buf : List UInt8) : UInt8 := buf.getD 23 0

/-- `htonl` on a little-endian machine. -/
def htonl (v : UInt32) : UInt32 :=
  let mask : UInt32 := 0xff00
  v <<< 24 ||| (v &&& mask) <<< 8 ||| v >>> 8 &&& mask ||| v >>> 24

/-- `kxfrm_hw_tx(buf, len, dev)`: the state afterwards; `none` is a call that
never returns. -/
def kxfrmHwTx (k : Kernel) (s : Sys) (buf : List UInt8) (dev : Dev) : Option Sys :=
  if buf.length < 14 + 20 then some s
  else if !k.devNet then some s
  else if protocol buf = ipprotoUdp ∨ protocol buf = ipprotoTcp then forward s buf dev
  else if protocol buf = ipprotoEsp then
    match k.xfrmStateLookup (htonl (s.spiVals dev)) with
    | none => some s
    | some x =>
        (atEspEnd k x buf).bind fun (err, buf) =>
          if err ≠ 0 then some s else forward s buf dev
  else forward s buf dev

end Linuxyz.Xfrm
