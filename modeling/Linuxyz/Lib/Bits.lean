import Mathlib.Data.List.GetD
import Mathlib.Tactic.IntervalCases

/-!
# Linuxyz.Lib.Bits

Bytes as streams of bits, least significant bit first.

`bitStream` flattens a byte list into the bits a serial sender shifts out;
`Packed` says that a fixed buffer holds a bit stream packed the same way,
with every bit beyond the stream still clear.  `Packed.push` is the one fact
a receiver needs for each incoming bit, and `Packed.take_eq` the one it needs
when the stream was a whole number of bytes.
-/

namespace Linuxyz.Bits

/-! ## the bits of a byte -/

/-- Bit `j` of a byte, bit `0` the least significant. -/
def bitOf (b : UInt8) (j : Nat) : Bool := b.toBitVec.getLsbD j

/-- A byte is determined by its eight bits. -/
theorem eq_of_bitOf {a b : UInt8} (h : ∀ j < 8, bitOf a j = bitOf b j) : a = b := by
  apply UInt8.toBitVec_inj.mp
  exact BitVec.eq_of_getLsbD_eq h

@[simp] theorem bitOf_zero (j : Nat) : bitOf 0 j = false := by
  simp [bitOf]

@[simp] theorem bitOf_or (a b : UInt8) (j : Nat) :
    bitOf (a ||| b) j = (bitOf a j || bitOf b j) := by
  simp [bitOf]

/-- The one-bit mask `1 << k` has exactly bit `k` set. -/
theorem bitOf_mask {j k : Nat} (hj : j < 8) (hk : k < 8) :
    bitOf ((1 : UInt8) <<< UInt8.ofNat k) j = decide (j = k) := by
  interval_cases k <;> interval_cases j <;> rfl

/-- Masking with `1 << k` and comparing with zero reads bit `k`. -/
theorem and_mask_ne_zero (b : UInt8) {k : Nat} (hk : k < 8) :
    ((b &&& ((1 : UInt8) <<< UInt8.ofNat k)) != 0) = bitOf b k := by
  have hbits : ∀ j, j < 8 → bitOf (b &&& ((1 : UInt8) <<< UInt8.ofNat k)) j =
      (bitOf b j && decide (j = k)) := by
    intro j hj
    rw [← bitOf_mask hj hk]
    simp [bitOf]
  cases hb : bitOf b k with
  | false =>
      have hz : b &&& ((1 : UInt8) <<< UInt8.ofNat k) = 0 := by
        apply eq_of_bitOf
        intro j hj
        rw [hbits j hj, bitOf_zero]
        by_cases hjk : j = k
        · subst hjk; simp [hb]
        · simp [hjk]
      simp [hz]
  | true =>
      rw [bne_iff_ne]
      intro hz
      have hk' := hbits k hk
      rw [hz, bitOf_zero, hb] at hk'
      simp at hk'

/-- The eight bits of a byte, least significant first. -/
def bitsOf (b : UInt8) : List Bool := (List.range 8).map (bitOf b)

@[simp] theorem length_bitsOf (b : UInt8) : (bitsOf b).length = 8 := by
  simp [bitsOf]

/-! ## bit streams -/

/-- The bits of a byte list in transmission order. -/
def bitStream : List UInt8 → List Bool
  | [] => []
  | b :: bs => bitsOf b ++ bitStream bs

@[simp] theorem length_bitStream (bs : List UInt8) : (bitStream bs).length = 8 * bs.length := by
  induction bs with
  | nil => rfl
  | cons b bs ih =>
      simp only [bitStream, List.length_append, length_bitsOf, ih, List.length_cons]; omega

/-- Bit `j` of byte `p` is found at position `8 * p + j` of the stream. -/
theorem getD_bitStream (bs : List UInt8) (p j : Nat) (hp : p < bs.length) (hj : j < 8) :
    (bitStream bs).getD (8 * p + j) false = bitOf bs[p] j := by
  induction bs generalizing p with
  | nil => simp at hp
  | cons b bs ih =>
      cases p with
      | zero =>
          rw [bitStream, List.getD_append _ _ _ _ (by simp; omega)]
          simp [bitsOf, List.getD_eq_getElem?_getD, hj]
      | succ p =>
          rw [bitStream, List.getD_append_right _ _ _ _ (by simp; omega), length_bitsOf,
            show 8 * (p + 1) + j - 8 = 8 * p + j by omega]
          exact ih p (by simpa using hp)

/-! ## buffers that hold a bit stream -/

/-- The buffer `v` holds the stream `bits`, packed least significant bit
first, and is clear beyond it. -/
def Packed (v : Vector UInt8 n) (bits : List Bool) : Prop :=
  ∀ p (hp : p < n), ∀ j < 8, bitOf v[p] j = bits.getD (8 * p + j) false

/-- A cleared buffer holds the empty stream. -/
theorem Packed.nil : Packed (Vector.replicate n 0) [] := by
  intro p hp j hj
  simp

/-- Or-ing `bit` into the position after the stream appends it. -/
theorem Packed.push {v : Vector UInt8 n} {bits : List Bool} (h : Packed v bits) (bit : Bool)
    (hn : bits.length / 8 < n) :
    Packed (v.set (bits.length / 8) (v[bits.length / 8] |||
      (bif bit then (1 : UInt8) <<< UInt8.ofNat (bits.length % 8) else 0)) hn) (bits ++ [bit]) := by
  intro p hp j hj
  have hold := h p hp j hj
  by_cases hat : 8 * p + j = bits.length
  · -- the freshly written bit
    have hpe : bits.length / 8 = p := by omega
    have hje : bits.length % 8 = j := by omega
    have hclear : bits.getD (8 * p + j) false = false := by
      rw [List.getD_eq_default _ _ (by omega)]
    have hnew : (bits ++ [bit]).getD (8 * p + j) false = bit := by
      rw [hat, List.getD_append_right _ _ _ _ (Nat.le_refl _), Nat.sub_self]; rfl
    rw [hnew]
    simp only [hpe, hje, Vector.getElem_set_self, bitOf_or, hold, hclear, Bool.false_or]
    cases bit with
    | false => simp
    | true => simp [bitOf_mask hj hj]
  · -- every other bit keeps its value, in the written byte as in the rest
    have hnew : (bits ++ [bit]).getD (8 * p + j) false = bits.getD (8 * p + j) false := by
      by_cases hlt : 8 * p + j < bits.length
      · exact List.getD_append _ _ _ _ hlt
      · rw [List.getD_eq_default _ _ (by simp; omega), List.getD_eq_default _ _ (by omega)]
    rw [hnew, ← hold]
    by_cases hpe : bits.length / 8 = p
    · have hne : j ≠ bits.length % 8 := by omega
      simp only [hpe, Vector.getElem_set_self, bitOf_or]
      cases bit with
      | false => simp
      | true => simp [bitOf_mask hj (Nat.mod_lt _ (by omega : 0 < 8)), hne]
    · rw [Vector.getElem_set_ne _ _ hpe]

/-- A buffer that holds the stream of whole bytes starts with these bytes. -/
theorem Packed.take_eq {v : Vector UInt8 n} {bs : List UInt8} (h : Packed v (bitStream bs))
    (hn : bs.length ≤ n) : v.toList.take bs.length = bs := by
  apply List.ext_getElem
  · simp [hn]
  · intro p hp hp'
    rw [List.getElem_take, Vector.getElem_toList]
    apply eq_of_bitOf
    intro j hj
    rw [h p (by omega) j hj, getD_bitStream bs p j hp' hj]

end Linuxyz.Bits
