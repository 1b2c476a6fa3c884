import Linuxyz.Xfrm.Cbc

/-!
# Linuxyz.Xfrm.Gcm

`kxfrm_hw_tx` of `kxfrm/gcm/kxfrm.c`.

The driver is the one of `kxfrm/cbc/kxfrm.c` with another ESP branch: the frame
is opened with the AEAD `rfc4106(gcm(aes))` and sealed again.  As there, the
branch is a computation that leaves through the label `esp_end` with the current
value of `err`, and a store outside a buffer is a fault.  Reads that only feed
log output are left out.
-/

namespace Linuxyz.Xfrm.Gcm

open Buffer

/-! ## the kernel -/

/-- The part of `struct xfrm_state` that is read: the key of `aead` with its
salt, when that is not `NULL`. -/
structure XfrmState where
  aeadKey : Option (Vector UInt8 36)

def XfrmState.key (x : XfrmState) : List UInt8 := (x.aeadKey.getD (Vector.replicate 36 0)).toList

structure Kernel where
  /-- `dev_net(dev) != NULL` -/
  devNet : Bool
  /-- `xfrm_state_lookup_byspi` -/
  xfrmStateLookup : UInt32 → Option XfrmState
  kmallocSrc : Kmalloc
  kmallocDst : Kmalloc
  kmallocFinal : Kmalloc
  allocAead : Bool
  setauthsize : Int
  setkey : Int
  requestAlloc : Bool
  /-- an error of `crypto_aead_decrypt` before it verifies the tag -/
  decrypt : Int
  /-- the result of waiting for `crypto_aead_encrypt` -/
  encrypt : Int
  /-- the AEAD under a key, an IV and associated data, on ciphertext and tag -/
  aeadDecrypt : List UInt8 → List UInt8 → List UInt8 → (cipher : List UInt8) →
    Option (Vector UInt8 (cipher.length - 16))
  /-- the AEAD under a key, an IV and associated data, on plaintext -/
  aeadEncrypt : List UInt8 → List UInt8 → List UInt8 → (plain : List UInt8) →
    Vector UInt8 (plain.length + 16)

variable (k : Kernel) (x : XfrmState) (buf : List UInt8)

/-- What `crypto_aead_decrypt` writes, when the tag is right. -/
def Kernel.opened (key iv ad cipher : List UInt8) : Option (List UInt8) :=
  (k.aeadDecrypt key iv ad cipher).map Vector.toList

/-- What `crypto_aead_encrypt` writes. -/
def Kernel.sealed (key iv ad plain : List UInt8) : List UInt8 :=
  (k.aeadEncrypt key iv ad plain).toList

/-! ## the frame -/

/-- `esplen`: the frame less headers, ESP header and IV. -/
def esplen : Int := (buf.length : Int) - 34 - 8 - 8

/-- `payloadlen`: what is left without the tag. -/
def payloadlen : Int := esplen buf - 16

/-- ESP header and IV. -/
def espHeader : List UInt8 := (buf.drop 34).take (8 + 8)

/-- The IV, which the source copies to `nonce` afresh before each use. -/
def iv : List UInt8 := (buf.drop 42).take 8

/-- The encrypted payload. -/
def payload : List UInt8 := (buf.drop 50).take (payloadlen buf).toNat

def tag : List UInt8 := (buf.drop (50 + (payloadlen buf).toNat)).take 16

/-! ## the branch up to `esp_end` -/

/-- From the three allocations to the last copy to `buffer_src`. -/
def espPrepare : Esp (List UInt8 × List UInt8 × List UInt8) := do
  let bufferSize := esplen buf * 8
  let bufferSrc ← kmalloc k.kmallocSrc bufferSize
  let bufferDst ← kmalloc k.kmallocDst bufferSize
  let bufferFinal ← kmalloc k.kmallocFinal bufferSize
  let bufferSrc ← copy bufferSrc 0 (espHeader buf)
  let bufferSrc ← copy bufferSrc 8 (List.replicate 8 0)
  -- a negative `payloadlen` is a copy of nearly `SIZE_MAX` bytes
  if payloadlen buf < 0 then fault
  let bufferSrc ← copy bufferSrc 16 (payload buf)
  let bufferSrc ← copy bufferSrc (16 + (payloadlen buf).toNat) (tag buf)
  return (bufferSrc, bufferDst, bufferFinal)

/-- The decryption of `buffer_src` into `buffer_dst`. -/
def espDecrypt (bufferSrc bufferDst : List UInt8) : Esp (List UInt8) := do
  if !k.allocAead then throw (-1)
  if k.setauthsize ≠ 0 then throw k.setauthsize
  if k.setkey ≠ 0 then throw k.setkey
  -- a missing request reaches `esp_end` with the `0` of `crypto_aead_setkey`
  if !k.requestAlloc then throw 0
  if k.decrypt ≠ 0 then throw k.decrypt
  match k.opened x.key (iv buf) (bufferSrc.take 16)
    ((bufferSrc.drop 16).take ((payloadlen buf).toNat + 16)) with
  | none => throw (-74)
  | some plain => copy bufferDst 16 plain

/-- The encryption of `buffer_dst` into `buffer_final` that the UDP and the TCP
case share. -/
def reencrypt (bufferSrc bufferDst bufferFinal : List UInt8) : Esp (List UInt8) := do
  let bufferDst ← copy bufferDst 0 (bufferSrc.take 16)
  if k.encrypt ≠ 0 then throw k.encrypt
  copy bufferFinal 16
    (k.sealed x.key (iv buf) (bufferDst.take 16) ((bufferDst.drop 16).take (payloadlen buf).toNat))

/-- The comparisons of `buffer_final` with the received ciphertext and tag. -/
def espCompare (bufferSrc bufferFinal : List UInt8) : Esp (List UInt8) :=
  let n := (payloadlen buf).toNat
  if (bufferSrc.drop 16).take 16 ≠ (bufferFinal.drop 16).take 16 then throw 0
  else if (bufferSrc.drop (16 + n)).take 16 ≠ (bufferFinal.drop (16 + n)).take 16 then throw 0
  else pure bufferFinal

/-- The encryption of an inner UDP or TCP packet, and the comparisons. -/
def espReencrypt (bufferSrc bufferDst bufferFinal : List UInt8) : Esp (List UInt8) := do
  let protocol := bufferDst.getD (16 + 9) 0
  let mut bufferFinal := bufferFinal
  if protocol = ipprotoUdp then
    bufferFinal ← reencrypt k x buf bufferSrc bufferDst bufferFinal
  if protocol = ipprotoTcp then
    bufferFinal ← reencrypt k x buf bufferSrc bufferDst bufferFinal
  espCompare buf bufferSrc bufferFinal

/-- The stores into the frame. -/
def espRebuild (bufferFinal : List UInt8) : Esp (List UInt8) := do
  let n := (payloadlen buf).toNat
  let buf ← copy buf 50 ((bufferFinal.drop 16).take n)
  let buf ← copy buf (50 + n) ((bufferFinal.drop (16 + n)).take 16)
  return ipSendCheck buf

/-- The ESP branch up to the label `esp_end`. -/
def espBody : Esp (List UInt8) := do
  let (bufferSrc, bufferDst, bufferFinal) ← espPrepare k buf
  let bufferDst ← espDecrypt k x buf bufferSrc bufferDst
  let bufferFinal ← espReencrypt k x buf bufferSrc bufferDst bufferFinal
  espRebuild buf bufferFinal

/-- At `esp_end`: the value of `err` and the frame as it is then. -/
def atEspEnd : Option (Int × List UInt8) :=
  (espBody k x buf).run.map fun
    | .ok buf' => (0, buf')
    | .error err => (err, buf)

/-! ## `kxfrm_hw_tx` -/

/-- `kxfrm_hw_tx(buf, len, dev)`: the state afterwards; `none` is a call that
never returns. -/
def kxfrmHwTx (s : Sys) (dev : Dev) : Option Sys :=
  if buf.length < 14 + 20 then some s
  else if !k.devNet then some s
  else if protocol buf = ipprotoUdp ∨ protocol buf = ipprotoTcp then forward s buf dev
  else if protocol buf = ipprotoEsp then
    match k.xfrmStateLookup (htonl (s.spiVals dev)) with
    | none => some s
    | some x =>
        (atEspEnd k x buf).bind fun (err, buf) =>
          if err ≠ 0 then some s else forward s buf dev
  else forward s buf dev

end Linuxyz.Xfrm.Gcm
