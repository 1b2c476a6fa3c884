/-!
# Linuxyz.Lib.Base16

Byte strings written with two digits for each byte, over any alphabet of sixteen
digits: `digit` writes a digit and `val` reads it.
-/

namespace Linuxyz.Base16

variable {γ : Type} {digit : Nat → γ} {val : γ → Option Nat}

/-- The two digits of a byte. -/
def byteDigits (digit : Nat → γ) (b : UInt8) : List γ :=
  [digit (b.toNat / 16), digit (b.toNat % 16)]

/-- The digits of a byte string. -/
def encode (digit : Nat → γ) (bs : List UInt8) : List γ := bs.flatMap (byteDigits digit)

/-- The byte string with these digits. -/
def decode (val : γ → Option Nat) : List γ → Option (List UInt8)
  | [] => some []
  | [_] => none
  | a :: b :: rest => do
      let hi ← val a
      let lo ← val b
      let bs ← decode val rest
      some (UInt8.ofNat (16 * hi + lo) :: bs)

@[simp] theorem encode_cons (b : UInt8) (bs : List UInt8) :
    encode digit (b :: bs) = digit (b.toNat / 16) :: digit (b.toNat % 16) :: encode digit bs := rfl

theorem encode_append (bs cs : List UInt8) :
    encode digit (bs ++ cs) = encode digit bs ++ encode digit cs :=
  List.flatMap_append

@[simp] theorem length_encode (bs : List UInt8) : (encode digit bs).length = 2 * bs.length := by
  induction bs with
  | nil => rfl
  | cons b bs ih =>
      rw [encode_cons, List.length_cons, List.length_cons, ih, List.length_cons]
      omega

/-- A byte from the values of its digits. -/
theorem ofNat_digits (b : UInt8) : UInt8.ofNat (16 * (b.toNat / 16) + b.toNat % 16) = b := by
  rw [Nat.div_add_mod]
  exact UInt8.ofNat_toNat

/-- What was written is read back. -/
theorem decode_encode (hval : ∀ d < 16, val (digit d) = some d) (bs : List UInt8) :
    decode val (encode digit bs) = some bs := by
  induction bs with
  | nil => rfl
  | cons b bs ih =>
      have hb : b.toNat < 256 := b.toNat_lt
      rw [encode_cons, decode, hval _ (by omega), hval _ (by omega), ih]
      simp only [Option.bind_eq_bind, Option.bind_some, ofNat_digits]

/-- Every text of an even number of digits is the text of a byte string. -/
theorem exists_encode : ∀ s : List γ, s.length % 2 = 0 → (∀ c ∈ s, ∃ d < 16, c = digit d) →
      ∃ bs, s = encode digit bs
  | [], _, _ => ⟨[], rfl⟩
  | [_], h, _ => absurd h (by simp)
  | a :: b :: s, hlen, hdigits => by
      obtain ⟨hi, hhi, rfl⟩ := hdigits a (by simp)
      obtain ⟨lo, hlo, rfl⟩ := hdigits b (by simp)
      simp only [List.length_cons] at hlen
      obtain ⟨bs, rfl⟩ := exists_encode s (by omega) fun c hc => hdigits c (by simp [hc])
      have hbyte : (UInt8.ofNat (16 * hi + lo)).toNat = 16 * hi + lo := by
        rw [UInt8.toNat_ofNat']
        omega
      refine ⟨UInt8.ofNat (16 * hi + lo) :: bs, ?_⟩
      rw [encode_cons, hbyte, show (16 * hi + lo) / 16 = hi by omega,
        show (16 * hi + lo) % 16 = lo by omega]

end Linuxyz.Base16
