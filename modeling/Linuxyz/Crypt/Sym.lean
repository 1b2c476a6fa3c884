import Linuxyz.Lib.Base16
import Linuxyz.Lib.Buffer

/-!
# Linuxyz.Crypt.Sym

The symmetric encryption of the Go package `crypt/sym`: AES-256-CBC over hex
strings, and AES-GCM over byte slices.

The block cipher modes are parameters (`Cbc`, `Gcm`) of which only the documented
laws are used; hex encoding, padding, the checks and the buffers are the code's
own.  A string is its bytes, and a result `none` is a panic.

`DecryptAES256CBC` never removes the padding, and its buffer has twice the size of
the text (`decrypt_of_encrypt`).  `EncryptAESGCM` and `DecryptAESGCM` report an input
that is shorter than a nonce with `err.Error()` where `err` is `nil`.
-/

namespace Linuxyz.Crypt

open Linuxyz.Buffer (overwrite overwrite_all)

/-! ## Errors, keys and hex strings -/

inductive Err where
  /-- `fmt.Errorf` with a text. -/
  | errorf (text : String)
  /-- `fmt.Errorf` with the text of another error in it. -/
  | wrapped (format : String) (err : Err)
  /-- `aes.KeySizeError` -/
  | keySize (k : Nat)
  /-- `hex.InvalidByteError` -/
  | invalidByte (b : UInt8)
  /-- `hex.ErrLength` -/
  | oddLength
  /-- An error of the random source or of a cipher mode. -/
  | cipher (text : String)
deriving DecidableEq

/-- `aes.BlockSize` -/
def blockSize : Nat := 16

def ValidKey (key : List UInt8) : Prop := key.length = 16 ∨ key.length = 24 ∨ key.length = 32

instance (key : List UInt8) : Decidable (ValidKey key) := inferInstanceAs (Decidable (_ ∨ _ ∨ _))

/-- `aes.NewCipher`; a block cipher is its key. -/
def newCipher (key : List UInt8) : Except Err (List UInt8) :=
  if ValidKey key then .ok key else .error (.keySize key.length)

/-- `hextable` of `encoding/hex`. -/
def hexDigit (d : Nat) : UInt8 := UInt8.ofNat (if d < 10 then 48 + d else 87 + d)

/-- `reverseHexTable` of `encoding/hex`. -/
def hexValue (c : UInt8) : Option Nat :=
  if 48 ≤ c ∧ c ≤ 57 then some (c.toNat - 48)
  else if 97 ≤ c ∧ c ≤ 102 then some (c.toNat - 87)
  else if 65 ≤ c ∧ c ≤ 70 then some (c.toNat - 55)
  else none

/-- `hex.EncodeToString` -/
def encodeToString (src : List UInt8) : List UInt8 := Base16.encode hexDigit src

/-- `hex.DecodeString` -/
def decodeString : List UInt8 → Except Err (List UInt8)
  | [] => .ok []
  | [p] => if (hexValue p).isNone then .error (.invalidByte p) else .error .oddLength
  | p :: q :: src =>
      match hexValue p, hexValue q with
      | none, _ => .error (.invalidByte p)
      | some _, none => .error (.invalidByte q)
      | some a, some b => (decodeString src).map (UInt8.ofNat (16 * a + b) :: ·)

theorem hexValue_hexDigit {d : Nat} (h : d < 16) : hexValue (hexDigit d) = some d := by
  have hall : ∀ d : Fin 16, hexValue (hexDigit d) = some d.val := by decide
  exact hall ⟨d, h⟩

/-- `DecodeString` decodes what has a decoding. -/
theorem decodeString_of_decode : ∀ {src bs : List UInt8}, Base16.decode hexValue src = some bs →
    decodeString src = .ok bs
  | [], bs, h => by
      cases h
      rfl
  | [p], bs, h => by cases h
  | p :: q :: src, bs, h => by
      simp only [Base16.decode, Option.bind_eq_bind, Option.bind_eq_some_iff] at h
      obtain ⟨a, ha, b, hb, cs, hcs, hbs⟩ := h
      cases hbs
      simp only [decodeString, ha, hb, decodeString_of_decode hcs]
      rfl

theorem decodeString_encodeToString (src : List UInt8) :
    decodeString (encodeToString src) = .ok src :=
  decodeString_of_decode (Base16.decode_encode (fun _ => hexValue_hexDigit) src)

/-! ## CBC -/

/-- Cipher block chaining with a key and an IV over a text of whole blocks. -/
structure Cbc where
  encrypt : (key iv src : List UInt8) → List UInt8
  decrypt : (key iv src : List UInt8) → List UInt8

/-- The modes keep the length, and decryption inverts encryption. -/
structure Cbc.Lawful (cbc : Cbc) : Prop where
  length_encrypt : ∀ key iv src, (cbc.encrypt key iv src).length = src.length
  length_decrypt : ∀ key iv src, (cbc.decrypt key iv src).length = src.length
  decrypt_encrypt : ∀ key iv src, ValidKey key → iv.length = blockSize →
    src.length % blockSize = 0 → cbc.decrypt key iv (cbc.encrypt key iv src) = src

/-- `CryptBlocks` of a mode into `dst`; it panics for a part of a block and for a
`dst` that is too short. -/
def cryptBlocks (crypt : List UInt8 → List UInt8) (dst src : List UInt8) : Option (List UInt8) :=
  if src.length % blockSize = 0 ∧ src.length ≤ dst.length then some (overwrite dst 0 (crypt src))
  else none

/-- `PKCS5Padding`; `after` is not used. -/
def pkcs5Padding (ciphertext : List UInt8) (blockSize _after : Nat) : List UInt8 :=
  let padding := blockSize - ciphertext.length % blockSize
  ciphertext ++ List.replicate padding (UInt8.ofNat padding)

/-- `EncryptAES256CBC`, where `random` is what `rand.Read` gives for the IV.  An error
of it is dropped and leaves a `nil` IV, which `NewCBCEncrypter` panics for. -/
def encryptAES256CBC (cbc : Cbc) (random : Except Err (List UInt8)) (plaintext key : List UInt8) :
    Option (List UInt8) :=
  let bIV := random.toOption.getD []
  let bPlaintext := pkcs5Padding plaintext blockSize plaintext.length
  match newCipher key with
  | .error _ => none
  | .ok block =>
      if bIV.length ≠ blockSize then none
      else
        let ciphertext := List.replicate (bPlaintext.length + blockSize) 0
        match cryptBlocks (cbc.encrypt block bIV) (ciphertext.drop blockSize) bPlaintext with
        | none => none
        | some dst => some (encodeToString (overwrite (ciphertext.take blockSize ++ dst) 0 bIV))

/-- `DecryptAES256CBC` -/
def decryptAES256CBC (cbc : Cbc) (ciphertext key : List UInt8) : Option (Except Err (List UInt8)) :=
  if key.length ≠ 32 then some (.error (.errorf "key must be 32 bytes for AES-256"))
  else
    match decodeString ciphertext with
    | .error err => some (.error err)
    | .ok cipherData =>
        if cipherData.length < blockSize then some (.error (.errorf "cipherText too short"))
        else
          let iv := cipherData.take blockSize
          let cipherText := cipherData.drop blockSize
          match newCipher key with
          | .error err => some (.error err)
          | .ok block =>
              if cipherText.length % blockSize ≠ 0 then
                some (.error (.errorf "cipherText is not a multiple of the block size"))
              else
                let plainText := List.replicate (cipherText.length * 2) 0
                (cryptBlocks (cbc.decrypt block iv) plainText cipherText).map .ok

theorem length_pkcs5Padding_mod (p : List UInt8) (after : Nat) :
    (pkcs5Padding p blockSize after).length % blockSize = 0 ∧
      p.length < (pkcs5Padding p blockSize after).length := by
  simp only [pkcs5Padding, blockSize, List.length_append, List.length_replicate]
  omega

/-- The ciphertext is the IV and the encrypted text, in hex. -/
theorem encryptAES256CBC_eq {cbc : Cbc} (hcbc : cbc.Lawful) {iv key : List UInt8}
    (hiv : iv.length = blockSize) (hkey : ValidKey key) (p : List UInt8) :
    encryptAES256CBC cbc (.ok iv) p key =
      some (encodeToString (iv ++ cbc.encrypt key iv (pkcs5Padding p blockSize p.length))) := by
  obtain ⟨hmod, -⟩ := length_pkcs5Padding_mod p p.length
  have hblocks : cryptBlocks (cbc.encrypt key iv)
      ((List.replicate ((pkcs5Padding p blockSize p.length).length + blockSize) 0).drop blockSize)
      (pkcs5Padding p blockSize p.length) =
        some (cbc.encrypt key iv (pkcs5Padding p blockSize p.length)) := by
    rw [cryptBlocks, if_pos ⟨hmod, by simp⟩, overwrite_all (by rw [hcbc.length_encrypt]; simp)]
  have hcopy : ∀ zeros dst : List UInt8, zeros.length = blockSize →
      overwrite (zeros ++ dst) 0 iv = iv ++ dst :=
    fun zeros dst hz => by simp [overwrite, hiv, ← hz]
  have hfit : (Except.ok iv : Except Err (List UInt8)).toOption.getD [] = iv := rfl
  simp only [encryptAES256CBC, newCipher, if_pos hkey, hfit, if_neg (not_not_intro hiv), hblocks]
  rw [hcopy _ _ (by simp)]

/-- What is decrypted is the padded text, and as many zero bytes again. -/
theorem decrypt_of_encrypt {cbc : Cbc} (hcbc : cbc.Lawful) {iv key : List UInt8}
    (hiv : iv.length = blockSize) (hkey : key.length = 32) (p : List UInt8) :
    decryptAES256CBC cbc (encodeToString (iv ++
      cbc.encrypt key iv (pkcs5Padding p blockSize p.length))) key =
      some (.ok (pkcs5Padding p blockSize p.length ++
        List.replicate (pkcs5Padding p blockSize p.length).length 0)) := by
  have hvalid : ValidKey key := .inr (.inr hkey)
  obtain ⟨hmod, -⟩ := length_pkcs5Padding_mod p p.length
  generalize pkcs5Padding p blockSize p.length = src at hmod ⊢
  have hlen : (cbc.encrypt key iv src).length = src.length := hcbc.length_encrypt key iv src
  have htake : (iv ++ cbc.encrypt key iv src).take blockSize = iv := by rw [← hiv, List.take_left]
  have hdrop : (iv ++ cbc.encrypt key iv src).drop blockSize = cbc.encrypt key iv src := by
    rw [← hiv, List.drop_left]
  have hblocks :
      cryptBlocks (cbc.decrypt key iv) (List.replicate (src.length * 2) 0)
        (cbc.encrypt key iv src) =
      some (src ++ List.replicate src.length 0) := by
    have hzeros : src.length * 2 - src.length = src.length := by omega
    rw [cryptBlocks, if_pos ⟨by rw [hlen, hmod], by rw [hlen, List.length_replicate]; omega⟩,
      hcbc.decrypt_encrypt key iv src hvalid hiv hmod]
    simp [overwrite, hzeros]
  have hlong : ¬(iv ++ cbc.encrypt key iv src).length < blockSize := by
    rw [List.length_append, hiv]; omega
  simp only [decryptAES256CBC, if_neg (not_not_intro hkey), decodeString_encodeToString,
    if_neg hlong, htake, hdrop, newCipher, if_pos hvalid, hlen, if_neg (not_not_intro hmod),
    hblocks, Option.map_some]

/-- **CBC does not round trip**: whatever the text, what is decrypted is not the text
that was encrypted but the text, its padding and as many zero bytes as both. -/
theorem cbc_never_roundTrips {cbc : Cbc} (hcbc : cbc.Lawful) {random : Except Err (List UInt8)}
    (hrandom : ∀ iv, random = .ok iv → iv.length = blockSize) {key : List UInt8}
    (hkey : key.length = 32) (p : List UInt8) :
    (¬∃ c, encryptAES256CBC cbc random p key = some c ∧ decryptAES256CBC cbc c key = some (.ok p)) ∧
      ∀ c, encryptAES256CBC cbc random p key = some c → decryptAES256CBC cbc c key =
        some (.ok (pkcs5Padding p blockSize p.length ++
          List.replicate (pkcs5Padding p blockSize p.length).length 0)) := by
  have hdecrypt : ∀ c, encryptAES256CBC cbc random p key = some c → decryptAES256CBC cbc c key =
      some (.ok (pkcs5Padding p blockSize p.length ++
        List.replicate (pkcs5Padding p blockSize p.length).length 0)) := by
    intro c hc
    cases random with
    | error err =>
        -- without an IV there is no ciphertext
        simp [encryptAES256CBC, newCipher, ValidKey, hkey, Except.toOption, blockSize] at hc
    | ok iv =>
        have hiv : iv.length = blockSize := hrandom iv rfl
        rw [encryptAES256CBC_eq hcbc hiv (.inr (.inr hkey)), Option.some.injEq] at hc
        rw [← hc, decrypt_of_encrypt hcbc hiv hkey]
  refine ⟨?_, hdecrypt⟩
  rintro ⟨c, hc, hp⟩
  rw [hdecrypt c hc, Option.some.injEq, Except.ok.injEq] at hp
  have hlen := congrArg List.length hp
  have hlt := (length_pkcs5Padding_mod p p.length).2
  rw [List.length_append, List.length_replicate] at hlen
  omega

/-- A mode that leaves every block as it is. -/
def Cbc.plain : Cbc := ⟨fun _ _ src => src, fun _ _ src => src⟩

theorem Cbc.plain_lawful : Cbc.plain.Lawful where
  length_encrypt _ _ _ := rfl
  length_decrypt _ _ _ := rfl
  decrypt_encrypt _ _ _ _ _ _ := rfl

theorem cbc_never_roundTrips_empty :
    ¬∃ c, encryptAES256CBC .plain (.ok (List.replicate 16 7)) [] (List.replicate 32 1) = some c ∧
      decryptAES256CBC .plain c (List.replicate 32 1) = some (.ok []) :=
  (cbc_never_roundTrips Cbc.plain_lawful (fun iv h => by cases h; rfl) (by decide) []).1

/-- The text `hi` comes back with its padding and 16 zero bytes. -/
theorem cbc_keeps_padding :
    (encryptAES256CBC .plain (.ok (List.replicate 16 7)) [104, 105] (List.replicate 32 1)).bind
        (decryptAES256CBC .plain · (List.replicate 32 1)) =
      some (.ok ([104, 105] ++ List.replicate 14 14 ++ List.replicate 16 0)) ∧
      [104, 105] ++ List.replicate 14 14 ++ List.replicate 16 0 ≠ ([104, 105] : List UInt8) := by
  decide

/-! ## GCM -/

/-- Galois/counter mode with a key and a nonce. -/
structure Gcm where
  sealText : (key nonce plaintext : List UInt8) → List UInt8
  openText : (key nonce ciphertext : List UInt8) → Except Err (List UInt8)

/-- `gcm.NonceSize()` of the GCM that `cipher.NewGCM` returns. -/
def nonceSize : Nat := 12

/-- The longest plaintext: `Seal` panics for a longer one. -/
def maxPlaintext : Nat := (2 ^ 32 - 2) * blockSize

/-- `Open` inverts `Seal` on the plaintexts that `Seal` takes; else it fails with an error,
which its type says. -/
def Gcm.Lawful (g : Gcm) : Prop :=
  ∀ key nonce p, ValidKey key → nonce.length = nonceSize → p.length ≤ maxPlaintext →
    g.openText key nonce (g.sealText key nonce p) = .ok p

/-- `gcm.Seal(nil, nonce, plaintext, nil)` -/
def Gcm.sealed (g : Gcm) (key nonce plaintext : List UInt8) : Option (List UInt8) :=
  if maxPlaintext < plaintext.length then none else some (g.sealText key nonce plaintext)

/-- `cipher.NewGCM` for a cipher with this block size. -/
def newGCM (size : Nat) : Except Err Unit :=
  if size = 16 then .ok () else .error (.cipher "cipher: NewGCM requires 128-bit block cipher")

/-- The return of `fmt.Errorf(format, err.Error())`; a `nil` error has no text. -/
def failed {α : Type} (format : String) (err : Option Err) : Option (Except Err α) :=
  err.map fun err => .error (.wrapped format err)

/-- `EncryptAESGCM`, where `random` is what `io.ReadFull` leaves in the nonce. -/
def encryptAESGCM (g : Gcm) (random : Except Err (List UInt8)) (key fileByte : List UInt8) :
    Option (Except Err (List UInt8)) :=
  match newCipher key with
  | .error err => failed "failed to encrypt with symmetric key: %s" (some err)
  | .ok c =>
      match newGCM blockSize with
      | .error err => failed "failed to encrypt with symmetric key: %s" (some err)
      | .ok () =>
          match random with
          | .error err => failed "failed to encrypt with symmetric key: %s" (some err)
          | .ok nonce =>
              -- `err` is what `io.ReadFull` returned with the nonce
              if fileByte.length < nonceSize then
                failed "failed to encrypt with symmetric key: %s" none
              else (g.sealed c nonce fileByte).map fun ciphertext => .ok (nonce ++ ciphertext)

/-- `DecryptAESGCM` -/
def decryptAESGCM (g : Gcm) (key fileByte : List UInt8) : Option (Except Err (List UInt8)) :=
  match newCipher key with
  | .error err => failed "failed to decrypt with symmetric key: %s" (some err)
  | .ok c =>
      match newGCM blockSize with
      | .error err => failed "failed to decrypt with symmetric key: %s" (some err)
      | .ok () =>
          -- `err` is what `NewGCM` returned with the mode
          if fileByte.length < nonceSize then failed "failed to decrypt with symmetric key: %s" none
          else
            match g.openText c (fileByte.take nonceSize) (fileByte.drop nonceSize) with
            | .error err => failed "failed to decrypt with symmetric key: %s" (some err)
            | .ok plainfile => some (.ok plainfile)

section Gcm

variable {g : Gcm} {random : Except Err (List UInt8)} {key : List UInt8}

/-- A text that `EncryptAESGCM` can seal. -/
def Sealable (p : List UInt8) : Prop := nonceSize ≤ p.length ∧ p.length ≤ maxPlaintext

theorem encryptAESGCM_invalid (h : ¬ValidKey key) (p : List UInt8) :
    encryptAESGCM g random key p =
      some (.error (.wrapped "failed to encrypt with symmetric key: %s"
        (.keySize key.length))) := by
  simp only [encryptAESGCM, newCipher, if_neg h]
  rfl

theorem encryptAESGCM_error (h : ValidKey key) (err : Err) (p : List UInt8) :
    encryptAESGCM g (.error err) key p =
      some (.error (.wrapped "failed to encrypt with symmetric key: %s" err)) := by
  simp only [encryptAESGCM, newCipher, if_pos h]
  rfl

theorem encryptAESGCM_ok (h : ValidKey key) (nonce : List UInt8) {p : List UInt8}
    (hp : Sealable p) :
    encryptAESGCM g (.ok nonce) key p = some (.ok (nonce ++ g.sealText key nonce p)) := by
  have hshort : ¬p.length < nonceSize := Nat.not_lt.mpr hp.1
  have hlong : ¬maxPlaintext < p.length := Nat.not_lt.mpr hp.2
  simp only [encryptAESGCM, newCipher, if_pos h, newGCM, blockSize, if_true, if_neg hshort,
    Gcm.sealed, if_neg hlong]
  rfl

/-- For every other text there is a panic: `err` is `nil`, or `Seal` gives up. -/
theorem encryptAESGCM_panics (h : ValidKey key) (nonce : List UInt8) {p : List UInt8}
    (hp : ¬Sealable p) : encryptAESGCM g (.ok nonce) key p = none := by
  simp only [encryptAESGCM, newCipher, if_pos h, newGCM, blockSize, if_true]
  by_cases hshort : p.length < nonceSize
  · rw [if_pos hshort]
    rfl
  · have hlong : maxPlaintext < p.length :=
      Nat.lt_of_not_le fun hle => hp ⟨Nat.le_of_not_lt hshort, hle⟩
    rw [if_neg hshort, Gcm.sealed, if_pos hlong]
    rfl

/-- The slice of the nonce is in range exactly if the text is as long as a nonce, and it
is not taken with a key that is refused. -/
theorem decryptAESGCM_ne_none (c : List UInt8) :
    decryptAESGCM g key c ≠ none ↔ ¬ValidKey key ∨ nonceSize ≤ c.length := by
  by_cases h : ValidKey key
  · simp only [decryptAESGCM, newCipher, if_pos h, newGCM, blockSize, if_true]
    by_cases hshort : c.length < nonceSize
    · rw [if_pos hshort]
      exact iff_of_false (fun hne => hne rfl) fun hor => hor.elim (absurd h) (Nat.not_le.mpr hshort)
    · rw [if_neg hshort]
      refine iff_of_true ?_ (.inr (Nat.le_of_not_lt hshort))
      cases g.openText key (c.take nonceSize) (c.drop nonceSize) with
      | error err => simp [failed]
      | ok plainfile => simp
  · simp only [decryptAESGCM, newCipher, if_neg h]
    exact iff_of_true (by simp [failed]) (.inl h)

/-- What was sealed behind its nonce is opened. -/
theorem decryptAESGCM_seal (hg : g.Lawful) (h : ValidKey key) {nonce p : List UInt8}
    (hnonce : nonce.length = nonceSize) (hp : p.length ≤ maxPlaintext) :
    decryptAESGCM g key (nonce ++ g.sealText key nonce p) = some (.ok p) := by
  have hlong : ¬(nonce ++ g.sealText key nonce p).length < nonceSize := by
    rw [List.length_append, hnonce]
    omega
  simp only [decryptAESGCM, newCipher, if_pos h, newGCM, blockSize, if_true, if_neg hlong]
  rw [← hnonce, List.take_left, List.drop_left, hg key nonce p h hnonce hp]

/-- **GCM round trip and error handling**: with a valid key and a lawful mode a text is
decrypted to itself if and only if it is at least as long as a nonce and short enough for
`Seal`; and, whatever the mode, the functions panic exactly for the other texts and for
ciphertexts shorter than a nonce, where the key is valid (and the nonce could be drawn). -/
theorem gcm_total_iff_long_enough (g : Gcm) (random : Except Err (List UInt8))
    (key p c : List UInt8) :
    (g.Lawful → ValidKey key → (∃ nonce, random = .ok nonce ∧ nonce.length = nonceSize) →
      ((∃ c, encryptAESGCM g random key p = some (.ok c) ∧
        decryptAESGCM g key c = some (.ok p)) ↔ Sealable p)) ∧
      (encryptAESGCM g random key p ≠ none ↔
        ¬ValidKey key ∨ (∃ err, random = .error err) ∨ Sealable p) ∧
      (decryptAESGCM g key c ≠ none ↔ ¬ValidKey key ∨ nonceSize ≤ c.length) := by
  refine ⟨?_, ?_, decryptAESGCM_ne_none c⟩
  · rintro hg hkey ⟨nonce, rfl, hnonce⟩
    constructor
    · rintro ⟨c, hc, -⟩
      by_contra hp
      rw [encryptAESGCM_panics hkey nonce hp] at hc
      cases hc
    · intro hp
      exact ⟨_, encryptAESGCM_ok hkey nonce hp, decryptAESGCM_seal hg hkey hnonce hp.2⟩
  · by_cases hkey : ValidKey key
    · cases random with
      | error err =>
          exact iff_of_true (by simp [encryptAESGCM_error hkey err p]) (.inr (.inl ⟨err, rfl⟩))
      | ok nonce =>
          by_cases hp : Sealable p
          · exact iff_of_true (by simp [encryptAESGCM_ok hkey nonce hp]) (.inr (.inr hp))
          · refine iff_of_false (fun hne => hne (encryptAESGCM_panics hkey nonce hp)) ?_
            rintro (hnot | ⟨err, herr⟩ | hs)
            · exact hnot hkey
            · cases herr
            · exact hp hs
    · exact iff_of_true (by simp [encryptAESGCM_invalid hkey p]) (.inl hkey)

/-- A mode whose tag is the byte `1`. -/
def Gcm.tagged : Gcm where
  sealText _ _ p := 1 :: p
  openText
    | _, _, 1 :: p => .ok p
    | _, _, _ => .error (.cipher "cipher: message authentication failed")

theorem gcm_total_iff_long_enough_sixteen :
    ∃ c, encryptAESGCM .tagged (.ok (List.replicate 12 3)) (List.replicate 16 1)
        (List.replicate 16 5) = some (.ok c) ∧
      decryptAESGCM .tagged (List.replicate 16 1) c = some (.ok (List.replicate 16 5)) :=
  ((gcm_total_iff_long_enough .tagged (.ok (List.replicate 12 3)) (List.replicate 16 1)
    (List.replicate 16 5) []).1 (fun _ _ _ _ _ _ => rfl) (.inl rfl) ⟨_, rfl, rfl⟩).mpr
      ⟨by decide, by decide⟩

/-- A text and a ciphertext of three bytes. -/
theorem gcm_nil_error :
    encryptAESGCM .tagged (.ok (List.replicate 12 3)) (List.replicate 16 1) [1, 2, 3] = none ∧
      decryptAESGCM .tagged (List.replicate 16 1) [1, 2, 3] = none := by
  decide

end Gcm

end Linuxyz.Crypt
