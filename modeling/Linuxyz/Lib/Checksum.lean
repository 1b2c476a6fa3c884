import Linuxyz.Lib.Buffer
import Mathlib.Algebra.Ring.Nat

/-!
# Linuxyz.Lib.Checksum

The Internet checksum: the one's complement of the one's complement sum of
the 16-bit words of a header.

The sum is computed with end-around carry.  It is determined by two facts: it
is congruent to the plain sum of the words modulo `65535` (`sumFrom_mod`), and
it is zero only if every word is (`sumFrom_eq_zero_iff`).  From these,
`verifies_of_checksum`: a header that carries the checksum of its other words
sums to `65535`, the test a receiver makes.
-/

namespace Linuxyz.Checksum

open Buffer

/-! ## end-around carry -/

/-- 16-bit addition with end-around carry. -/
def addCarry (a b : Nat) : Nat := (a + b) % 65536 + (a + b) / 65536

theorem addCarry_le {a b : Nat} (ha : a ≤ 65535) (hb : b ≤ 65535) : addCarry a b ≤ 65535 := by
  unfold addCarry; omega

theorem addCarry_mod (a b : Nat) : addCarry a b % 65535 = (a + b) % 65535 := by
  unfold addCarry; omega

theorem addCarry_eq_zero_iff {a b : Nat} : addCarry a b = 0 ↔ a = 0 ∧ b = 0 := by
  unfold addCarry; omega

/-- The one's complement sum of a list of words on top of `acc`. -/
def sumFrom (acc : Nat) (ws : List Nat) : Nat := ws.foldl addCarry acc

theorem sumFrom_le {acc : Nat} {ws : List Nat} (hacc : acc ≤ 65535) (hws : ∀ w ∈ ws, w ≤ 65535) :
    sumFrom acc ws ≤ 65535 := by
  induction ws generalizing acc with
  | nil => exact hacc
  | cons w ws ih =>
      exact ih (addCarry_le hacc (hws w (by simp))) fun v hv => hws v (by simp [hv])

/-- The sum of words modulo 65535. -/
theorem sumFrom_mod (acc : Nat) (ws : List Nat) :
    sumFrom acc ws % 65535 = (acc + ws.sum) % 65535 := by
  induction ws generalizing acc with
  | nil => rfl
  | cons w ws ih =>
      have hstep := ih (addCarry acc w)
      have hcarry := addCarry_mod acc w
      rw [List.sum_cons]
      show sumFrom (addCarry acc w) ws % 65535 = _
      omega

/-- The sum is zero only if all the words are. -/
theorem sumFrom_eq_zero_iff {acc : Nat} {ws : List Nat} :
    sumFrom acc ws = 0 ↔ acc = 0 ∧ ws.sum = 0 := by
  induction ws generalizing acc with
  | nil => simp [sumFrom]
  | cons w ws ih =>
      have hstep := @ih (addCarry acc w)
      have hzero := @addCarry_eq_zero_iff acc w
      rw [List.sum_cons]
      show sumFrom (addCarry acc w) ws = 0 ↔ _
      omega

/-! ## the checksum of a byte string -/

/-- The big-endian 16-bit words of a byte string; a last odd byte is padded
with zero. -/
def words : List UInt8 → List Nat
  | [] => []
  | [b] => [b.toNat * 256]
  | b :: c :: bs => (b.toNat * 256 + c.toNat) :: words bs

theorem word_le (b c : UInt8) : b.toNat * 256 + c.toNat ≤ 65535 := by
  have hb := b.toNat_lt
  have hc := c.toNat_lt
  omega

/-- Each word has 16 bits. -/
theorem le_of_mem_words : ∀ bs : List UInt8, ∀ w ∈ words bs, w ≤ 65535
  | [], w, h => by simp [words] at h
  | [b], w, h => by
      have hb := b.toNat_lt
      simp only [words, List.mem_singleton] at h
      omega
  | b :: c :: bs, w, h => by
      rw [words, List.mem_cons] at h
      cases h with
      | inl h => rw [h]; exact word_le b c
      | inr h => exact le_of_mem_words bs w h

/-- Words of an even prefix come first. -/
theorem words_append : ∀ as bs : List UInt8, 2 ∣ as.length → words (as ++ bs) = words as ++ words bs
  | [], bs, _ => rfl
  | [a], bs, h => by simp at h
  | a :: b :: as, bs, h => by
      have hlen : 2 ∣ as.length := by
        rw [List.length_cons, List.length_cons] at h
        omega
      simp only [List.cons_append, words, words_append as bs hlen]

/-- The one's complement sum of a byte string. -/
def onesSum (bs : List UInt8) : Nat := sumFrom 0 (words bs)

/-- The checksum field for a byte string whose checksum field is zero. -/
def checksum (bs : List UInt8) : Nat := 65535 - onesSum bs

theorem onesSum_le (bs : List UInt8) : onesSum bs ≤ 65535 :=
  sumFrom_le (by decide) (le_of_mem_words bs)

theorem checksum_le (bs : List UInt8) : checksum bs ≤ 65535 := Nat.sub_le _ _

theorem words_toBe16 {n : Nat} (h : n ≤ 65535) : words (toBe16 n) = [n] := by
  have hhi : n / 256 % 256 * 256 + n % 256 = n := by omega
  simp [toBe16, words, hhi]

/-- **Verification**: with its checksum in place of a zero field at an even
offset, a header sums to `65535`. -/
theorem verifies_of_checksum (pre post : List UInt8) (heven : 2 ∣ pre.length) :
    onesSum (pre ++ toBe16 (checksum (pre ++ [0, 0] ++ post)) ++ post) = 65535 := by
  have hle := checksum_le (pre ++ [0, 0] ++ post)
  have hwords : ∀ mid : List UInt8, mid.length = 2 →
      words (pre ++ mid ++ post) = words pre ++ words mid ++ words post := by
    intro mid hmid
    rw [words_append _ _ (by rw [List.length_append, hmid]; omega), words_append _ _ heven]
  -- the plain sums with and without the checksum differ by exactly the checksum
  have hzero : (words (pre ++ [0, 0] ++ post)).sum = (words pre).sum + (words post).sum := by
    rw [hwords _ rfl]; simp [words]
  have hfull : (words (pre ++ toBe16 (checksum (pre ++ [0, 0] ++ post)) ++ post)).sum =
      (words pre).sum + checksum (pre ++ [0, 0] ++ post) + (words post).sum := by
    rw [hwords _ rfl, words_toBe16 hle]; simp; omega
  have hsum := sumFrom_mod 0 (words (pre ++ [0, 0] ++ post))
  have hsum' := sumFrom_mod 0 (words (pre ++ toBe16 (checksum (pre ++ [0, 0] ++ post)) ++ post))
  have hnz :=
    @sumFrom_eq_zero_iff 0 (words (pre ++ toBe16 (checksum (pre ++ [0, 0] ++ post)) ++ post))
  have hnz' := @sumFrom_eq_zero_iff 0 (words (pre ++ [0, 0] ++ post))
  have hb := onesSum_le (pre ++ toBe16 (checksum (pre ++ [0, 0] ++ post)) ++ post)
  have hb' := onesSum_le (pre ++ [0, 0] ++ post)
  have hdef : checksum (pre ++ [0, 0] ++ post) = 65535 - onesSum (pre ++ [0, 0] ++ post) := rfl
  unfold onesSum at hb hb' hdef ⊢
  omega

/-! ## sums in the other byte order -/

/-- The little-endian 16-bit words of a byte string; a last odd byte is padded with
zero. -/
def leWords : List UInt8 → List Nat
  | [] => []
  | [b] => [b.toNat]
  | b :: c :: bs => (b.toNat + 256 * c.toNat) :: leWords bs

/-- Bytes behind an even number of others keep their words. -/
theorem leWords_append : ∀ as bs : List UInt8, 2 ∣ as.length →
      leWords (as ++ bs) = leWords as ++ leWords bs
  | [], bs, _ => rfl
  | [a], bs, h => by simp at h
  | a :: b :: as, bs, h => by
      have hlen : 2 ∣ as.length := by
        rw [List.length_cons, List.length_cons] at h
        omega
      simp only [List.cons_append, leWords, leWords_append as bs hlen]

/-- Swapping the bytes of every word multiplies a sum by `256`, modulo `65535`. -/
theorem sum_words_mod : ∀ bs : List UInt8, (words bs).sum % 65535 = 256 * (leWords bs).sum % 65535
  | [] => rfl
  | [b] => by
      simp only [words, leWords, List.sum_singleton]
      omega
  | b :: c :: bs => by
      have ih := sum_words_mod bs
      simp only [words, leWords, List.sum_cons]
      omega

/-- In either byte order the words add up to zero only if all bytes are zero. -/
theorem sum_words_eq_zero_iff : ∀ bs : List UInt8, (words bs).sum = 0 ↔ (leWords bs).sum = 0
  | [] => Iff.rfl
  | [b] => by
      simp only [words, leWords, List.sum_singleton]
      omega
  | b :: c :: bs => by
      have ih := sum_words_eq_zero_iff bs
      simp only [words, leWords, List.sum_cons]
      omega

/-- **Verification in the other byte order**: a byte string that is not all zero sums to
`65535` where its little-endian words sum to a multiple of `65535`. -/
theorem onesSum_eq_iff_leWords {bs : List UInt8} (hne : (leWords bs).sum ≠ 0) :
    onesSum bs = 65535 ↔ (leWords bs).sum % 65535 = 0 := by
  have hle := onesSum_le bs
  have hsum := sumFrom_mod 0 (words bs)
  have hzero := @sumFrom_eq_zero_iff 0 (words bs)
  have hwords := sum_words_mod bs
  have hwords' := sum_words_eq_zero_iff bs
  unfold onesSum at hle ⊢
  omega

end Linuxyz.Checksum
