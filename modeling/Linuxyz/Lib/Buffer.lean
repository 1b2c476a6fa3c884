import Mathlib.Algebra.Ring.Nat
import Mathlib.Data.List.Basic

/-!
# Linuxyz.Lib.Buffer

Fixed-size memory blocks as byte lists.

`overwrite dst off src` is what a copy of `src` to offset `off` leaves in
`dst`; `memcpy` is the same copy with its bounds, `none` standing for a store
outside the block.  Reads are `List.take` and `List.drop`.
-/

namespace Linuxyz.Buffer

variable {α : Type}

/-! ## copies -/

/-- The block `dst` after a copy of `src` to offset `off`. -/
def overwrite (dst : List α) (off : Nat) (src : List α) : List α :=
  dst.take off ++ src ++ dst.drop (off + src.length)

/-- A copy that has to stay inside the block. -/
def memcpy (dst : List α) (off : Nat) (src : List α) : Option (List α) :=
  if off + src.length ≤ dst.length then some (overwrite dst off src) else none

theorem memcpy_eq_some {dst src : List α} {off : Nat} (h : off + src.length ≤ dst.length) :
    memcpy dst off src = some (overwrite dst off src) := if_pos h

/-- A copy inside the block keeps its size. -/
theorem length_overwrite {dst src : List α} {off : Nat} (h : off + src.length ≤ dst.length) :
    (overwrite dst off src).length = dst.length := by
  simp only [overwrite, List.length_append, List.length_take, List.length_drop]
  omega

/-- What was copied to the front is read back from the front. -/
theorem take_overwrite_zero (dst src : List α) : (overwrite dst 0 src).take src.length = src := by
  simp [overwrite]

/-- A shorter read from the front of a copy reads the copied bytes. -/
theorem take_overwrite_zero_of_le (dst src : List α) {n : Nat} (h : n ≤ src.length) :
    (overwrite dst 0 src).take n = src.take n := by
  simp [overwrite, List.take_append_of_le_length h]

/-- Reading up to the end of a copy reads what stood before it, then the copy. -/
theorem take_overwrite_add {dst src : List α} {off : Nat} (h : off ≤ dst.length) :
    (overwrite dst off src).take (off + src.length) = dst.take off ++ src := by
  have hl : (dst.take off ++ src).length = off + src.length := by simp [h]
  rw [overwrite, ← hl, List.take_left]

/-- What was copied is read back from where it was copied to. -/
theorem take_drop_overwrite {dst src : List α} {off : Nat} (h : off ≤ dst.length) :
    ((overwrite dst off src).drop off).take src.length = src := by
  have hl : (dst.take off).length = off := by simp [h]
  rw [overwrite, List.append_assoc, List.drop_left' hl, List.take_left]

/-- Behind a copy to the front the block is as before. -/
theorem drop_overwrite_zero (dst src : List α) :
    (overwrite dst 0 src).drop src.length = dst.drop src.length := by
  simp [overwrite]

/-- A copy of the size of the block replaces it. -/
theorem overwrite_all {dst src : List α} (h : src.length = dst.length) :
    overwrite dst 0 src = src := by
  rw [overwrite, List.take_zero, List.nil_append, Nat.zero_add, h, List.drop_length,
    List.append_nil]

/-- Copying a block's own bytes back changes nothing. -/
theorem overwrite_self (dst : List α) (off n : Nat) :
    overwrite dst off ((dst.drop off).take n) = dst := by
  rw [overwrite, List.append_assoc]
  have hsrc :
      (dst.drop off).take n ++ dst.drop (off + ((dst.drop off).take n).length) = dst.drop off := by
    rw [← List.drop_drop]
    have hsplit := List.take_append_drop ((dst.drop off).take n).length (dst.drop off)
    rw [List.take_eq_take_iff.mpr] at hsplit
    · exact hsplit
    · simp
  rw [hsrc, List.take_append_drop]

/-- A copy inside the block, element by element. -/
theorem getElem?_overwrite {dst src : List α} {off : Nat}
    (h : off + src.length ≤ dst.length) (i : Nat) :
    (overwrite dst off src)[i]? =
      if off ≤ i ∧ i < off + src.length then src[i - off]? else dst[i]? := by
  have hpre : (dst.take off).length = off := by rw [List.length_take]; omega
  rw [overwrite, List.append_assoc]
  rcases Nat.lt_or_ge i off with hlt | hge
  · rw [List.getElem?_append_left (by omega), List.getElem?_take_of_lt hlt, if_neg (by omega)]
  · rw [List.getElem?_append_right (by omega), hpre]
    rcases Nat.lt_or_ge i (off + src.length) with hin | hout
    · rw [List.getElem?_append_left (by omega), if_pos ⟨hge, hin⟩]
    · rw [List.getElem?_append_right (by omega), List.getElem?_drop, if_neg (by omega)]
      congr 1
      omega

/-- Of two copies to one place only the second is seen. -/
theorem overwrite_overwrite {dst src src' : List α} {off : Nat} (hlen : src.length = src'.length)
    (h : off + src.length ≤ dst.length) :
    overwrite (overwrite dst off src) off src' = overwrite dst off src' := by
  apply List.ext_getElem?
  intro i
  have hfit : off + src'.length ≤ (overwrite dst off src).length := by
    rw [length_overwrite h]; omega
  rw [getElem?_overwrite hfit, getElem?_overwrite h, getElem?_overwrite (by omega), hlen]
  split <;> rfl

/-- Two adjacent copies are one. -/
theorem overwrite_append {dst src src' : List α} {off n : Nat} (hn : src.length = n)
    (h : off + n ≤ dst.length) :
    overwrite (overwrite dst off src) (off + n) src' = overwrite dst off (src ++ src') := by
  subst hn
  have hl : (dst.take off ++ src).length = off + src.length := by
    rw [List.length_append, List.length_take]; omega
  have hrest : (overwrite dst off src).drop (off + src.length + src'.length) =
      dst.drop (off + (src ++ src').length) := by
    rw [overwrite, ← List.drop_drop, List.drop_left' hl, List.drop_drop, List.length_append,
      Nat.add_assoc]
  rw [overwrite, take_overwrite_add (by omega), hrest, overwrite,
    List.append_assoc (dst.take off) src src']

/-! ## blocks of one length -/

/-- Block `i` of a concatenation of blocks of length `n`. -/
theorem take_drop_flatten {blocks : List (List α)} {rest : List α}
    (hlen : ∀ b ∈ blocks, b.length = n)
    (hi : blocks[i]? = some b) : ((blocks.flatten ++ rest).drop (n * i)).take n = b := by
  induction blocks generalizing i with
  | nil => simp at hi
  | cons a blocks ih =>
      have ha : a.length = n := hlen a List.mem_cons_self
      rw [List.flatten_cons, List.append_assoc]
      cases i with
      | zero =>
          have hab : a = b := by simpa using hi
          rw [Nat.mul_zero, List.drop_zero, ← ha, List.take_left, hab]
      | succ i =>
          have hdrop : n * (i + 1) = a.length + n * i := by rw [ha, Nat.mul_succ, Nat.add_comm]
          rw [hdrop, List.drop_length_add_append]
          exact ih (fun b hb => hlen b (List.mem_cons_of_mem _ hb)) (by simpa using hi)

/-! ## reading big-endian halfwords -/

/-- The big-endian 16-bit value at offset `off`; bytes outside the block read
as zero. -/
def be16 (bs : List UInt8) (off : Nat) : Nat :=
  (bs.getD off 0).toNat * 256 + (bs.getD (off + 1) 0).toNat

/-- The two bytes of a 16-bit value, most significant first. -/
def toBe16 (n : Nat) : List UInt8 := [UInt8.ofNat (n / 256), UInt8.ofNat n]

@[simp] theorem length_toBe16 (n : Nat) : (toBe16 n).length = 2 := rfl

/-- A halfword is read back from where it was stored. -/
theorem be16_overwrite_toBe16 {dst : List UInt8} {off n : Nat} (h : off + 2 ≤ dst.length)
    (hn : n ≤ 65535) : be16 (overwrite dst off (toBe16 n)) off = n := by
  have hread : ∀ i, (overwrite dst off (toBe16 n))[i]? =
      if off ≤ i ∧ i < off + 2 then (toBe16 n)[i - off]? else dst[i]? := getElem?_overwrite h
  have hhi : n / 256 % 256 * 256 + n % 256 = n := by omega
  rw [be16, List.getD_eq_getElem?_getD, List.getD_eq_getElem?_getD, hread, hread, if_pos (by simp),
    if_pos (by simp)]
  simp [toBe16, hhi]

/-! ## big-endian words -/

/-- The big-endian 32-bit value at the front of a block. -/
def be32 (bs : List UInt8) : Nat := be16 bs 0 * 65536 + be16 bs 2

/-- The four bytes of a 32-bit value, most significant first. -/
def toBe32 (n : Nat) : List UInt8 := toBe16 (n / 65536) ++ toBe16 n

@[simp] theorem length_toBe32 (n : Nat) : (toBe32 n).length = 4 := rfl

theorem be32_toBe32 (h : n < 2 ^ 32) : be32 (toBe32 n) = n := by
  simp only [be32, be16, toBe32, toBe16, List.cons_append, List.nil_append, List.getD_cons_zero,
    List.getD_cons_succ, UInt8.toNat_ofNat']
  omega

theorem be32_lt (bs : List UInt8) : be32 bs < 2 ^ 32 := by
  have hlt : ∀ i, (bs.getD i 0).toNat < 256 := fun i => (bs.getD i 0).toNat_lt
  have h0 := hlt 0
  have h1 := hlt (0 + 1)
  have h2 := hlt 2
  have h3 := hlt (2 + 1)
  simp only [be32, be16]
  omega

/-- The bytes of a 32-bit value that was read from four bytes. -/
theorem toBe32_be32 : ∀ {bs : List UInt8}, bs.length = 4 → toBe32 (be32 bs) = bs
  | [a, b, c, d], _ => by
      have hbyte : ∀ (x : UInt8) (n : Nat), n % 256 = x.toNat → UInt8.ofNat n = x := fun x n h => by
        apply UInt8.toNat_inj.mp
        rw [UInt8.toNat_ofNat', h]
      have ha := a.toNat_lt
      have hb := b.toNat_lt
      have hc := c.toNat_lt
      have hd := d.toNat_lt
      have hval :
          be32 [a, b, c, d] = ((a.toNat * 256 + b.toNat) * 65536 + (c.toNat * 256 + d.toNat)) := rfl
      rw [hval, toBe32, toBe16, toBe16, hbyte a _ (by omega), hbyte b _ (by omega),
        hbyte c _ (by omega), hbyte d _ (by omega)]
      rfl

end Linuxyz.Buffer
