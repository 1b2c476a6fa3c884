import Linuxyz.Lib.Checksum
import Mathlib.Logic.Function.Basic

/-!
# Linuxyz.Lib.LittleEndian

Byte-addressed memory of a little-endian machine: 16-bit and 32-bit loads, 16-bit
stores, copies, the bytes from an address on, and what a store does to the sum of their
words.
-/

namespace Linuxyz.LittleEndian

open Checksum (leWords)

/-- The byte at each address. -/
abbrev Mem := Nat → UInt8

def load16 (m : Mem) (a : Nat) : Nat := (m a).toNat + 256 * (m (a + 1)).toNat

def load32 (m : Mem) (a : Nat) : Nat := load16 m a + 65536 * load16 m (a + 2)

def store16 (m : Mem) (a v : Nat) : Mem :=
  Function.update (Function.update m a (UInt8.ofNat v)) (a + 1) (UInt8.ofNat (v / 256))

/-- `htons` and `ntohs`: the bytes of a 16-bit value, swapped. -/
def htons (n : Nat) : Nat := n % 256 * 256 + n / 256 % 256

/-- `memcpy` of `bs` to `a` -/
def storeBytes (m : Mem) (a : Nat) (bs : List UInt8) : Mem :=
  fun i => if a ≤ i ∧ i < a + bs.length then bs.getD (i - a) 0 else m i

/-- The `n` bytes from `a` on. -/
def bytesAt (m : Mem) (a : Nat) : Nat → List UInt8
  | 0 => []
  | n + 1 => m a :: bytesAt m (a + 1) n

theorem load16_lt (m : Mem) (a : Nat) : load16 m a < 65536 := by
  have h0 := (m a).toNat_lt
  have h1 := (m (a + 1)).toNat_lt
  unfold load16
  omega

theorem htons_lt (n : Nat) : htons n < 65536 := by
  unfold htons
  omega

/-- The lower half of a 32-bit value. -/
theorem load32_mod (m : Mem) (a : Nat) : load32 m a % 65536 = load16 m a := by
  have hlt := load16_lt m a
  unfold load32
  omega

/-- The upper half of a 32-bit value. -/
theorem load32_div (m : Mem) (a : Nat) : load32 m a / 65536 % 65536 = load16 m (a + 2) := by
  have hlt := load16_lt m a
  have hlt' := load16_lt m (a + 2)
  unfold load32
  omega

variable {m : Mem} {a b : Nat}

/-- A store changes its two bytes only. -/
theorem store16_of_ne (v : Nat) (h : b ≠ a) (h' : b ≠ a + 1) : store16 m a v b = m b := by
  rw [store16, Function.update_of_ne h', Function.update_of_ne h]

/-- A store to another place is not seen by a load. -/
theorem load16_store16_of_apart (v : Nat) (h : a + 2 ≤ b ∨ b + 2 ≤ a) :
    load16 (store16 m a v) b = load16 m b := by
  rw [load16, store16_of_ne v (by omega) (by omega), store16_of_ne v (by omega) (by omega), load16]

variable {v : Nat}

theorem load16_store16 (h : v < 65536) : load16 (store16 m a v) a = v := by
  rw [load16, store16, Function.update_self, Function.update_of_ne (by omega), Function.update_self,
    UInt8.toNat_ofNat', UInt8.toNat_ofNat']
  omega

theorem bytesAt_congr {m' : Mem} {n : Nat} (h : ∀ i, a ≤ i → i < a + n → m' i = m i) :
    bytesAt m' a n = bytesAt m a n := by
  induction n generalizing a with
  | zero => rfl
  | succ n ih =>
      rw [bytesAt, bytesAt, h a (by omega) (by omega)]
      congr 1
      exact ih fun i hi hi' => h i (by omega) (by omega)

@[simp] theorem length_bytesAt (m : Mem) (a n : Nat) : (bytesAt m a n).length = n := by
  induction n generalizing a with
  | zero => rfl
  | succ n ih => rw [bytesAt, List.length_cons, ih]

/-- The words of two bytes more. -/
theorem leWords_bytesAt (m : Mem) (a n : Nat) :
    leWords (bytesAt m a (n + 2)) = load16 m a :: leWords (bytesAt m (a + 2) n) := rfl

theorem bytesAt_add (m : Mem) (a n k : Nat) :
    bytesAt m a (n + k) = bytesAt m a n ++ bytesAt m (a + n) k := by
  induction n generalizing a with
  | zero => rw [Nat.zero_add, Nat.add_zero, bytesAt, List.nil_append]
  | succ n ih =>
      rw [Nat.succ_add, bytesAt, ih, bytesAt, List.cons_append, Nat.add_right_comm a 1 n,
        Nat.add_assoc]

theorem getElem?_bytesAt (m : Mem) (a n i : Nat) :
    (bytesAt m a n)[i]? = if i < n then some (m (a + i)) else none := by
  induction n generalizing a i with
  | zero => rfl
  | succ n ih =>
      cases i with
      | zero => rfl
      | succ i => rw [bytesAt, List.getElem?_cons_succ, ih, Nat.add_right_comm a 1 i]; grind

/-- What was copied is read back. -/
theorem bytesAt_storeBytes (m : Mem) (a : Nat) (bs : List UInt8) :
    bytesAt (storeBytes m a bs) a bs.length = bs := by
  refine List.ext_getElem? fun i => ?_
  rw [getElem?_bytesAt, storeBytes]
  grind

/-- A copy does not touch what stands before it. -/
theorem storeBytes_of_lt (m : Mem) {i : Nat} (bs : List UInt8) (h : i < a) :
    storeBytes m a bs i = m i :=
  if_neg fun hin => absurd hin.1 (by omega)

theorem load16_storeBytes_of_le (m : Mem) (bs : List UInt8) (h : b + 2 ≤ a) :
    load16 (storeBytes m a bs) b = load16 m b := by
  rw [load16, storeBytes_of_lt m bs (by omega), storeBytes_of_lt m bs (by omega), load16]

theorem bytesAt_storeBytes_of_le (m : Mem) {n : Nat} (bs : List UInt8) (h : b + n ≤ a) :
    bytesAt (storeBytes m a bs) b n = bytesAt m b n :=
  bytesAt_congr fun i _ hi => storeBytes_of_lt m bs (by omega)

theorem load16_congr {m' : Mem} (h : ∀ i, a ≤ i → i < a + 2 → m' i = m i) :
    load16 m' a = load16 m a := by
  rw [load16, h a (by omega) (by omega), h (a + 1) (by omega) (by omega), load16]

theorem load32_congr {m' : Mem} (h : ∀ i, a ≤ i → i < a + 4 → m' i = m i) :
    load32 m' a = load32 m a := by
  rw [load32, load16_congr fun i hi hi' => h i hi (by omega), load16_congr fun i hi hi' =>
    h i (by omega) (by omega), load32]

/-- The bytes of a 16-bit value. -/
def le16 (v : Nat) : List UInt8 := [UInt8.ofNat v, UInt8.ofNat (v / 256)]

/-- The bytes of a 32-bit value. -/
def le32 (v : Nat) : List UInt8 := le16 v ++ le16 (v / 65536)

/-- The bytes stand in the memory from `a` on. -/
def Holds (m : Mem) (a : Nat) (bs : List UInt8) : Prop := bytesAt m a bs.length = bs

theorem holds_append {xs ys : List UInt8} :
    Holds m a (xs ++ ys) ↔ Holds m a xs ∧ Holds m (a + xs.length) ys := by
  unfold Holds
  rw [List.length_append, bytesAt_add]
  constructor
  · exact fun h => List.append_inj h (length_bytesAt ..)
  · rintro ⟨hx, hy⟩
    rw [hx, hy]

theorem Holds.load16 (h : Holds m a (le16 v)) (hv : v < 65536) : load16 m a = v := by
  obtain ⟨h0, h1⟩ : m a = UInt8.ofNat v ∧ m (a + 1) = UInt8.ofNat (v / 256) := by
    simpa [Holds, le16, bytesAt] using h
  rw [LittleEndian.load16, h0, h1, UInt8.toNat_ofNat', UInt8.toNat_ofNat']
  omega

/-- A value of 32 bits that stands in memory is loaded. -/
theorem Holds.load32 (h : Holds m a (le32 v)) (hv : v < 4294967296) : load32 m a = v := by
  obtain ⟨hlow, hhigh⟩ := holds_append.mp h
  have hhigh : LittleEndian.load16 m (a + 2) = v / 65536 := hhigh.load16 (by omega)
  -- the two lower bytes are those of the remainder
  obtain ⟨h0, h1⟩ : m a = UInt8.ofNat v ∧ m (a + 1) = UInt8.ofNat (v / 256) := by
    simpa [Holds, le16, bytesAt] using hlow
  rw [LittleEndian.load32, hhigh, LittleEndian.load16, h0, h1, UInt8.toNat_ofNat',
    UInt8.toNat_ofNat']
  omega

/-- A store of a word changes the sum by the difference of the words. -/
theorem sum_leWords_store16 (hv : v < 65536) : ∀ {n a k : Nat}, 2 * k + 2 ≤ n →
    (leWords (bytesAt (store16 m (a + 2 * k) v) a n)).sum + load16 m (a + 2 * k) =
      (leWords (bytesAt m a n)).sum + v
  | 0, _, _, h => absurd h (by omega)
  | 1, _, _, h => absurd h (by omega)
  | n + 2, a, 0, _ => by
      have hrest : bytesAt (store16 m (a + 2 * 0) v) (a + 2) n = bytesAt m (a + 2) n :=
        bytesAt_congr fun i hi _ => store16_of_ne v (by omega) (by omega)
      rw [leWords_bytesAt, leWords_bytesAt, hrest, List.sum_cons, List.sum_cons, Nat.mul_zero,
        Nat.add_zero, load16_store16 hv]
      omega
  | n + 2, a, k + 1, h => by
      have ih :
          (leWords (bytesAt (store16 m (a + 2 + 2 * k) v) (a + 2) n)).sum +
            load16 m (a + 2 + 2 * k) = _ :=
        sum_leWords_store16 hv (by omega)
      rw [show a + 2 + 2 * k = a + 2 * (k + 1) by omega] at ih
      rw [leWords_bytesAt, leWords_bytesAt, List.sum_cons, List.sum_cons,
        load16_store16_of_apart v (by omega)]
      omega

end Linuxyz.LittleEndian
