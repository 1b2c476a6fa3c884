import Linuxyz.Hex.Codec
import Linuxyz.Ncat.Client

/-!
# Linuxyz.CryptSym.Decrypt

`sym_decrypt` of `data-crypt-sym`, in both of its builds: CBC with an HMAC of the message,
and GCM with a tag.

The calls of the library are parameters (`Openssl`): each reports what it returns, what it
writes and the length it stores.  Files exist and have any content; what the arrays hold
before `fgets` is a parameter too (`Stack`), since nothing is stored into them from an
empty file.  A fault (`none`) is an access outside of a block or through `NULL`.

The message is copied to `dec_msg` before the check, and what the check finds is printed
only: the status is 0 in every run (`status_eq_zero`).
-/

namespace Linuxyz.CryptSym

open Buffer
open Linuxyz.Vector (readString)
open Linuxyz.Ncat.Client (fgets)

/-! ## The library -/

/-- A call of `EVP_DecryptUpdate` or `EVP_DecryptFinal`: its return value, what it writes to
its output, and the length it stores. -/
structure Written where
  rv : Bool
  out : List UInt8
  outlen : Int

/-- The library on a key, an IV, additional data and a ciphertext.  The calls that set a
context up cannot fail here without those on it failing. -/
structure Openssl where
  cbcUpdate : (key iv inbuf : List UInt8) → Written
  cbcFinal : (key iv inbuf : List UInt8) → Written
  hmac : (key message : List UInt8) → Option (List UInt8)
  gcmUpdate : (key iv ad inbuf : List UInt8) → Written
  gcmFinal : (key iv ad inbuf tag : List UInt8) → Written

/-! ## The inputs -/

inductive Mode where
  | cbc
  | gcm

def keylen : Nat := 32

def Mode.ivlen : Mode → Nat
  | .cbc => 16
  | .gcm => 12

def taglen : Nat := 16

def maxOut : Nat := 1024

structure Files where
  key : List UInt8
  iv : List UInt8
  enc : List UInt8
  /-- `auth_key.data` -/
  authKey : List UInt8
  /-- `auth.data` -/
  auth : List UInt8
  /-- `tag.data` -/
  tag : List UInt8

/-- The arrays that are not initialised. -/
inductive Local where
  | keyHex
  | ivHex
  | authHex
  | authValHex
  | tagHex

abbrev Stack := Local → Nat → UInt8

def Stack.array (stack : Stack) (v : Local) (size : Nat) : List UInt8 :=
  (List.range size).map (stack v)

/-- `fgets(buf, sizeof(buf), fp)` -/
def fgetsInto (buf file : List UInt8) : Option (List UInt8) :=
  let line := (fgets buf.length file).1
  if line = [] then some buf else memcpy buf 0 (line ++ [0])

/-- `hex2char`, which is `hex2bin` of `data-hex`; `*arrlen` is the length of the array. -/
def hex2char (hexarray : List UInt8) : Option (List UInt8) := Hex.hex2bin hexarray

/-- A file of digits, read into an array of that size. -/
def readHex (buf file : List UInt8) : Option (List UInt8) := do
  let hex ← fgetsInto buf file
  hex2char hex

/-- The first `n` bytes of a block, as a callee reads them. -/
def front (n : Int) (block : List UInt8) : Option (List UInt8) :=
  if 0 ≤ n ∧ n ≤ block.length then some (block.take n.toNat) else none

/-- What the library is given: `auth` is the stored HMAC or the tag. -/
structure Inputs where
  key : List UInt8
  iv : List UInt8
  authKey : List UInt8
  auth : List UInt8
  inbuf : List UInt8

/-- The first half of `sym_decrypt`. -/
def readInputs (mode : Mode) (stack : Stack) (files : Files) : Option Inputs := do
  let key ← readHex (stack.array .keyHex (keylen * 2 + 1)) files.key
  let iv ← readHex (stack.array .ivHex (mode.ivlen * 2 + 1)) files.iv
  let (authKey, auth) ← match mode with
    | .cbc => do
        let authKey ← readHex (stack.array .authHex (keylen * 2 + 1)) files.authKey
        let auth ← readHex (stack.array .authValHex (1024 + 1)) files.auth
        some (authKey, auth)
    | .gcm => do
        let tag ← readHex (stack.array .tagHex (taglen * 2 + 1)) files.tag
        some ([], tag)
  let inbuf ← readHex (List.replicate maxOut 0) files.enc
  let key ← front keylen key
  let iv ← front mode.ivlen iv
  some ⟨key, iv, authKey, auth, inbuf⟩

/-! ## `sym_decrypt` -/

/-- What is returned, the caller's `dec_msg`, and what the check has found. -/
structure Outcome where
  status : Int
  decMsg : List UInt8
  verified : Bool
deriving DecidableEq

/-- A write of the library to `outbuf + off`. -/
def writeOut (outbuf : List UInt8) (off : Int) (w : Written) : Option (List UInt8) :=
  if off < 0 then none else memcpy outbuf off.toNat w.out

def strcpy (dst src : List UInt8) : Option (List UInt8) := do
  let s ← readString src
  memcpy dst 0 (s ++ [0])

/-- The second half, with `#if CBC`. -/
def decryptCbc (lib : Openssl) (decMsg : List UInt8) (i : Inputs) : Option Outcome := do
  let outbuf := List.replicate maxOut 0
  let update := lib.cbcUpdate i.key i.iv i.inbuf
  let outbuf ← writeOut outbuf 0 update
  let final := lib.cbcFinal i.key i.iv i.inbuf
  let outbuf ← writeOut outbuf update.outlen final
  let plaintextLen := update.outlen + final.outlen
  let decMsg ← strcpy decMsg outbuf
  let authKey ← front keylen i.authKey
  let message ← front plaintextLen decMsg
  -- where `HMAC` returns `NULL`, `memcmp` reads through it
  let result ← lib.hmac authKey message
  let result ← front 32 result
  let auth ← front 32 i.auth
  some ⟨0, decMsg, result == auth⟩

/-- The second half, with `#else`. -/
def decryptGcm (lib : Openssl) (ad decMsg : List UInt8) (i : Inputs) : Option Outcome := do
  let outbuf := List.replicate maxOut 0
  let outbuf ← writeOut outbuf 0 (lib.gcmUpdate i.key i.iv ad i.inbuf)
  let decMsg ← strcpy decMsg outbuf
  let tag ← front taglen i.auth
  let final := lib.gcmFinal i.key i.iv ad i.inbuf tag
  let _outbuf ← writeOut outbuf 0 final
  some ⟨0, decMsg, final.rv⟩

def symDecrypt (mode : Mode) (lib : Openssl) (stack : Stack) (files : Files)
    (decMsg ad : List UInt8) :
    Option Outcome := do
  let i ← readInputs mode stack files
  match mode with
  | .cbc => decryptCbc lib decMsg i
  | .gcm => decryptGcm lib ad decMsg i

/-! ## Authentication -/

/-- The decrypted message, as the library has written it. -/
def Openssl.plaintext (lib : Openssl) (i : Inputs) : List UInt8 :=
  (lib.cbcUpdate i.key i.iv i.inbuf).out ++ (lib.cbcFinal i.key i.iv i.inbuf).out

/-- The HMAC of the decrypted message is not the stored one, or the tag is rejected. -/
def authFails (mode : Mode) (lib : Openssl) (stack : Stack) (files : Files) (ad : List UInt8) :
    Bool :=
  (readInputs mode stack files).any fun i =>
    match mode with
    | .cbc => lib.hmac (i.authKey.take keylen) (lib.plaintext i) != some (i.auth.take 32)
    | .gcm => !(lib.gcmFinal i.key i.iv ad i.inbuf (i.auth.take taglen)).rv

/-- The call returns, with a status other than 0, and `dec_msg` is as it was. -/
def Rejects (mode : Mode) (lib : Openssl) (stack : Stack) (files : Files) (decMsg ad : List UInt8) :
    Prop :=
  ∃ o, symDecrypt mode lib stack files decMsg ad = some o ∧ o.status ≠ 0 ∧ o.decMsg = decMsg

theorem decryptCbc_status {lib : Openssl} {decMsg : List UInt8} {i : Inputs} {o : Outcome}
    (h : decryptCbc lib decMsg i = some o) : o.status = 0 := by
  simp only [decryptCbc, Option.bind_eq_bind, Option.bind_eq_some_iff] at h
  obtain ⟨_, -, _, -, _, -, _, -, _, -, _, -, _, -, _, -, h⟩ := h
  cases h
  rfl

theorem decryptGcm_status {lib : Openssl} {ad decMsg : List UInt8} {i : Inputs} {o : Outcome}
    (h : decryptGcm lib ad decMsg i = some o) : o.status = 0 := by
  simp only [decryptGcm, Option.bind_eq_bind, Option.bind_eq_some_iff] at h
  obtain ⟨_, -, _, -, _, -, _, -, h⟩ := h
  cases h
  rfl

variable {mode : Mode} {lib : Openssl} {stack : Stack} {files : Files} {decMsg ad : List UInt8}

theorem status_eq_zero {o : Outcome} (h : symDecrypt mode lib stack files decMsg ad = some o) :
    o.status = 0 := by
  obtain ⟨i, -, hrun⟩ := Option.bind_eq_some_iff.mp h
  cases mode with
  | cbc => exact decryptCbc_status hrun
  | gcm => exact decryptGcm_status hrun

/-- No call rejects anything. -/
theorem not_rejects : ¬Rejects mode lib stack files decMsg ad := by
  rintro ⟨o, ho, hstatus, -⟩
  exact hstatus (status_eq_zero ho)

/-- **Authenticated decryption**: in both builds, for every library, all file contents and
all that the arrays may hold, a message that fails its authentication is never rejected:
the implication holds only where its premise does not. -/
theorem authentication_ignored (mode : Mode) (lib : Openssl) (stack : Stack) (files : Files)
    (decMsg ad : List UInt8) :
    ((authFails mode lib stack files ad = true → Rejects mode lib stack files decMsg ad) ↔
        authFails mode lib stack files ad = false) ∧
      ∀ o, symDecrypt mode lib stack files decMsg ad = some o → o.status = 0 := by
  refine ⟨?_, fun o ho => status_eq_zero ho⟩
  cases authFails mode lib stack files ad with
  | false => simp
  | true => simp [not_rejects]

/-! ## A forged message -/

/-- A library whose cipher leaves bytes as they are, and whose HMAC and tag are the bytes of
the key. -/
def Openssl.plain : Openssl where
  cbcUpdate _ _ inbuf := ⟨true, inbuf, inbuf.length⟩
  cbcFinal _ _ _ := ⟨true, [], 0⟩
  hmac key _ := some key
  gcmUpdate _ _ _ inbuf := ⟨true, inbuf, inbuf.length⟩
  gcmFinal key _ _ _ tag := ⟨tag == key.take taglen, [], 0⟩

/-- Keys of zero bytes, the ciphertext "hi", and an HMAC and a tag that are all `0x11`. -/
def forged : Files where
  key := List.replicate 64 48
  iv := List.replicate 32 48
  enc := [54, 56, 54, 57]
  authKey := List.replicate 64 48
  auth := List.replicate 64 49
  tag := List.replicate 32 49

/-- In both builds the authentication fails, the status is 0 and the message is in
`dec_msg`. -/
theorem forged_released :
    (authFails .cbc .plain (fun _ _ => 0) forged [] = true ∧
      symDecrypt .cbc .plain (fun _ _ => 0) forged [0, 0, 0] [] = some ⟨0, [104, 105, 0], false⟩) ∧
    authFails .gcm .plain (fun _ _ => 0) forged [] = true ∧
      symDecrypt .gcm .plain (fun _ _ => 0) forged [0, 0, 0]
      [] = some ⟨0, [104, 105, 0], false⟩ := by
  decide +kernel

end Linuxyz.CryptSym
