import Linuxyz.Lib.Base16
import Linuxyz.Lib.Buffer
import Linuxyz.Vector.Model
import Mathlib.Data.List.TakeWhile

/-!
# Linuxyz.Hex.Codec

`bin2hex` and `hex2bin` of `data-hex`: the digits of a byte array as a string, and
the byte array of a string of digits.

The length of an array and of a string is an `int` in both.  `bin2hex_eq_some` and
`hex2bin_length` say what that means for every result: `bin2hex` returns only for
lengths from `0` to `2 ^ 30 - 1`, and the array of `hex2bin` has half of what is left
of the length of its string as an `int`.

A fault (`none`) is an access outside of a block, a string without a terminator, an
`int` that overflows, and a size that `malloc` refuses, since `memset` then writes
through `NULL`.
-/

namespace Linuxyz.Hex

open Linuxyz.Base16 (byteDigits encode encode_append length_encode exists_encode)
open Linuxyz.Vector (toInt toSize ptrdiffMax readString)

/-! ## Formatted output and input -/

/-- A digit as `%X` writes it. -/
def digitX (d : Nat) : UInt8 := UInt8.ofNat (if d < 10 then 48 + d else 55 + d)

/-- `sprintf(ptr + off, "%02X", x)` for an `unsigned char`: two digits and the
terminator. -/
def sprintf02X (block : List UInt8) (off : Nat) (x : UInt8) : Option (List UInt8) :=
  Buffer.memcpy block off (byteDigits digitX x ++ [0])

/-- `isspace` -/
def isSpace (c : UInt8) : Bool := c == 32 || (9 ≤ c && c ≤ 13)

/-- The value of a digit as `strtoul` reads it in base 16. -/
def hexVal (c : UInt8) : Option Nat :=
  if 48 ≤ c ∧ c ≤ 57 then some (c.toNat - 48)
  else if 65 ≤ c ∧ c ≤ 70 then some (c.toNat - 55)
  else if 97 ≤ c ∧ c ≤ 102 then some (c.toNat - 87)
  else none

/-- `sscanf(s, "%2x", &n)`: the value that is stored, or `none` where nothing is.
White space is skipped; the field is at most two characters, a sign and a digit or
one or two digits.  Of `0x`, which the field cuts off, the 0 is stored as glibc has it; by the C
standard nothing is. -/
def sscanf2x (s : List UInt8) : Option UInt32 :=
  match s.dropWhile isSpace with
  | [] => none
  | c :: rest =>
      if c = 43 ∨ c = 45 then
        match rest.head?.bind hexVal with
        | none => none
        | some d => some (if c = 45 then -UInt32.ofNat d else UInt32.ofNat d)
      else
        match hexVal c, rest with
        | none, _ => none
        | some d, [] => some (UInt32.ofNat d)
        | some d, e :: _ =>
            match hexVal e with
            | none => some (UInt32.ofNat d)
            | some d' => some (UInt32.ofNat (16 * d + d'))

/-! ## The two functions -/

/-- `malloc` of `outstrlen` bytes, and `memset`. -/
def zeroed (outstrlen : Int) : Option (List UInt8) :=
  if toSize outstrlen ≤ ptrdiffMax then some (List.replicate (toSize outstrlen) 0) else none

/-- The loop of `bin2hex` from `i`, with `k` turns left. -/
def writeDigits (bytearray : List UInt8) : Nat → Nat → List UInt8 → Option (List UInt8)
  | 0, _, hexarray => some hexarray
  | k + 1, i, hexarray => do
      let x ← bytearray[i]?
      let hexarray ← sprintf02X hexarray (2 * i) x
      writeDigits bytearray k (i + 1) hexarray

/-- `bin2hex`: the block that is returned. -/
def bin2hex (arrlen : Int) (bytearray : List UInt8) : Option (List UInt8) :=
  if -2 ^ 31 ≤ 2 * arrlen ∧ 2 * arrlen + 1 < 2 ^ 31 then
    (zeroed (2 * arrlen + 1)).bind (writeDigits bytearray arrlen.toNat 0)
  else none

/-- The loop of `hex2bin` from `i`, with `k` turns left.  `n` keeps its value where
`sscanf` stores none. -/
def readDigits (hexarray : List UInt8) : Nat → Nat → UInt32 → List UInt8 → Option (List UInt8)
  | 0, _, _, chararray => some chararray
  | k + 1, i, n, chararray =>
      let n := (sscanf2x (hexarray.drop (2 * i))).getD n
      if i < chararray.length then readDigits hexarray k (i + 1) n (chararray.set i n.toUInt8)
      else none

/-- `hex2bin`: the block that is returned. -/
def hex2bin (hexarray : List UInt8) : Option (List UInt8) := do
  let s ← readString hexarray
  let outstrlen := (toInt s.length).tdiv 2
  let chararray ← zeroed outstrlen
  readDigits hexarray outstrlen.toNat 0 0 chararray

/-! ## What a result says of the lengths -/

/-- The loop of `bin2hex` keeps the length of the block. -/
theorem length_writeDigits {bytearray : List UInt8} : ∀ {k i : Nat} {hexarray out : List UInt8},
    writeDigits bytearray k i hexarray = some out → out.length = hexarray.length
  | 0, _, _, _, h => by
      rw [writeDigits, Option.some.injEq] at h
      rw [h]
  | k + 1, i, hexarray, out, h => by
      rw [writeDigits, Option.bind_eq_bind, Option.bind_eq_some_iff] at h
      obtain ⟨x, -, h⟩ := h
      rw [Option.bind_eq_bind, Option.bind_eq_some_iff] at h
      obtain ⟨block, hblock, h⟩ := h
      rw [sprintf02X, Buffer.memcpy] at hblock
      split at hblock
      · next hfit =>
        cases hblock
        rw [length_writeDigits h, Buffer.length_overwrite hfit]
      · cases hblock

/-- The loop of `hex2bin` keeps the length of the block. -/
theorem length_readDigits {hexarray : List UInt8} :
    ∀ {k i : Nat} {n : UInt32} {chararray out : List UInt8}, readDigits hexarray k i n chararray =
      some out → out.length = chararray.length
  | 0, _, _, _, _, h => by
      rw [readDigits, Option.some.injEq] at h
      rw [h]
  | k + 1, i, n, chararray, out, h => by
      rw [readDigits] at h
      split at h
      · rw [length_readDigits h, List.length_set]
      · cases h

/-- The block that is returned has the length that was asked for. -/
theorem length_zeroed {outstrlen : Int} {block : List UInt8} (h : zeroed outstrlen = some block)
    (hlo : -2 ^ 31 ≤ outstrlen) (hhi : outstrlen < 2 ^ 31) : (block.length : Int) = outstrlen := by
  rw [zeroed] at h
  split at h
  · next hsize =>
    cases h
    rw [ptrdiffMax] at hsize
    rw [List.length_replicate]
    rw [toSize] at hsize ⊢
    omega
  · cases h

/-- `bin2hex` returns for lengths below `2 ^ 30` only, and then two digits for each
byte, and a terminator. -/
theorem bin2hex_eq_some {arrlen : Int} {bytearray hex : List UInt8}
    (h : bin2hex arrlen bytearray = some hex) :
    (hex.length : Int) = 2 * arrlen + 1 ∧ arrlen < 2 ^ 30 := by
  rw [bin2hex] at h
  split at h
  · next hint =>
    obtain ⟨block, hblock, hwrite⟩ := Option.bind_eq_some_iff.mp h
    rw [length_writeDigits hwrite]
    exact ⟨length_zeroed hblock (by omega) hint.2, by omega⟩
  · cases h

theorem toInt_range (n : Nat) : -2 ^ 31 ≤ toInt n ∧ toInt n < 2 ^ 31 := by
  simp only [toInt]
  split <;> omega

theorem toInt_of_lt {n : Nat} (h : n < 2 ^ 31) : toInt n = n := by
  simp only [toInt]
  split <;> omega

theorem tdiv_two_range {i : Int} (hlo : -2 ^ 31 ≤ i) (hhi : i < 2 ^ 31) :
    -2 ^ 31 ≤ i.tdiv 2 ∧ i.tdiv 2 < 2 ^ 31 := by
  rw [Int.tdiv_eq_ediv]
  split
  · omega
  · rw [show Int.sign 2 = 1 from rfl]
    omega

/-- The array of `hex2bin` has half the length of the string as an `int`. -/
theorem hex2bin_length {hexarray bin : List UInt8} (h : hex2bin hexarray = some bin) :
    ∃ s, readString hexarray = some s ∧ (bin.length : Int) = (toInt s.length).tdiv 2 := by
  simp only [hex2bin, Option.bind_eq_bind, Option.bind_eq_some_iff] at h
  obtain ⟨s, hs, block, hblock, hread⟩ := h
  refine ⟨s, hs, ?_⟩
  obtain ⟨hlo, hhi⟩ := toInt_range s.length
  obtain ⟨hlo, hhi⟩ := tdiv_two_range hlo hhi
  rw [length_readDigits hread]
  exact length_zeroed hblock hlo hhi

/-- A string is shorter than its block. -/
theorem readString_length {block s : List UInt8} (h : readString block = some s) :
    s.length < block.length := by
  rw [readString] at h
  split at h
  · next hmem =>
    cases h
    have hrest : block.dropWhile (· ≠ 0) ≠ [] :=
      fun hnil => by simpa using List.dropWhile_eq_nil_iff.mp hnil 0 hmem
    have hpos := List.length_pos_of_ne_nil hrest
    have hlen := congrArg List.length (List.takeWhile_append_dropWhile (p := (· ≠ 0)) (l := block))
    rw [List.length_append] at hlen
    omega
  · cases h

/-! ## Arrays that fit -/

theorem hexVal_digitX {d : Nat} (h : d < 16) : hexVal (digitX d) = some d := by
  have hall : ∀ d : Fin 16, hexVal (digitX d) = some d.val := by decide
  exact hall ⟨d, h⟩

/-- No digit is a character that `sscanf` treats in another way. -/
theorem digitX_plain {d : Nat} (h : d < 16) :
    isSpace (digitX d) = false ∧ ¬(digitX d = 43 ∨ digitX d = 45) ∧ digitX d ≠ 0 := by
  have hall : ∀ d : Fin 16,
      isSpace (digitX d) = false ∧ ¬(digitX d = 43 ∨ digitX d = 45) ∧ digitX d ≠ 0 := by decide
  exact hall ⟨d, h⟩

/-- `sscanf` reads what `sprintf` has written. -/
theorem sscanf2x_byteDigits (x : UInt8) (rest : List UInt8) :
    sscanf2x (byteDigits digitX x ++ rest) = some (UInt32.ofNat x.toNat) := by
  have hx : x.toNat < 256 := x.toNat_lt
  have hhi := digitX_plain (d := x.toNat / 16) (by omega)
  simp only [byteDigits, List.cons_append, List.nil_append, sscanf2x, List.dropWhile_cons, hhi.1,
    Bool.false_eq_true, if_false, if_neg hhi.2.1, hexVal_digitX (show x.toNat / 16 < 16 by omega),
    hexVal_digitX (show x.toNat % 16 < 16 by omega), Nat.div_add_mod]

/-- The loop of `bin2hex` with the digits of the first `i` bytes written. -/
theorem writeDigits_eq (b : List UInt8) : ∀ k i, i + k = b.length →
    writeDigits b k i (encode digitX (b.take i) ++ List.replicate (2 * k + 1) 0) =
      some (encode digitX b ++ [0])
  | 0, i, hi => by
      rw [Nat.add_zero] at hi
      rw [hi, List.take_length]
      rfl
  | k + 1, i, hi => by
      have hx : b[i]? = some b[i] := List.getElem?_eq_getElem (by omega)
      have hlen : (encode digitX (b.take i)).length = 2 * i := by
        rw [length_encode, List.length_take]; omega
      have hsplit : List.replicate (2 * (k + 1) + 1) (0 : UInt8) =
          [0, 0] ++ 0 :: List.replicate (2 * k) 0 := rfl
      have hnext :
          encode digitX (b.take (i + 1)) = encode digitX (b.take i) ++ byteDigits digitX b[i] := by
        rw [List.take_add_one, hx, encode_append]
        rfl
      have hsprintf :
          sprintf02X (encode digitX (b.take i) ++ List.replicate (2 * (k + 1) + 1) 0) (2 * i) b[i] =
          some (encode digitX (b.take (i + 1)) ++ List.replicate (2 * k + 1) 0) := by
        have hfit :
            2 * i + 3 ≤
              (encode digitX (b.take i) ++ List.replicate (2 * (k + 1) + 1) 0).length := by
          rw [List.length_append, hlen, List.length_replicate]
          omega
        rw [sprintf02X, Buffer.memcpy_eq_some hfit, Buffer.overwrite, ← hlen, List.take_left,
          ← List.drop_drop, List.drop_left, hsplit, hnext]
        simp [byteDigits, List.replicate_succ]
      rw [writeDigits, hx, Option.bind_eq_bind, Option.bind_some, hsprintf, Option.bind_eq_bind,
        Option.bind_some]
      exact writeDigits_eq b k (i + 1) (by omega)

theorem zeroed_of_lt {n : Nat} (h : n < 2 ^ 31) : zeroed n = some (List.replicate n 0) := by
  have hsize : toSize n = n := by rw [toSize]; omega
  rw [zeroed, hsize, if_pos (by rw [ptrdiffMax]; omega)]

theorem bin2hex_of_lt {b : List UInt8} (h : b.length < 2 ^ 30) :
    bin2hex (toInt b.length) b = some (encode digitX b ++ [0]) := by
  have hout : (2 * (b.length : Int) + 1) = ((2 * b.length + 1 : Nat) : Int) := by omega
  rw [toInt_of_lt (by omega), bin2hex, if_pos (by omega), hout, zeroed_of_lt (by omega),
    Option.bind_some, Int.toNat_natCast]
  exact writeDigits_eq b b.length 0 (by omega)

/-- The loop of `hex2bin` with the first `i` bytes read. -/
theorem readDigits_eq (b : List UInt8) : ∀ k i n, i + k = b.length →
    readDigits (encode digitX b ++ [0]) k i n (b.take i ++ List.replicate k 0) = some b
  | 0, i, n, hi => by
      rw [Nat.add_zero] at hi
      rw [hi, List.take_length]
      simp [readDigits]
  | k + 1, i, n, hi => by
      have hlt : i < b.length := by omega
      have hlen : (encode digitX (b.take i)).length = 2 * i := by
        rw [length_encode, List.length_take]; omega
      have hdrop : (encode digitX b ++ [0]).drop (2 * i) =
          byteDigits digitX b[i] ++ (encode digitX (b.drop (i + 1)) ++ [0]) := by
        have hb : encode digitX b = encode digitX (b.take i) ++ encode digitX (b.drop i) := by
          rw [← encode_append, List.take_append_drop]
        rw [hb, ← hlen, List.append_assoc, List.drop_left, List.drop_eq_getElem_cons hlt]
        rfl
      have hset : (b.take i ++ List.replicate (k + 1) 0).set i b[i] =
          b.take (i + 1) ++ List.replicate k 0 := by
        have htake : (b.take i).length = i := by rw [List.length_take]; omega
        rw [List.set_append_right _ _ (by omega), htake, Nat.sub_self, List.take_add_one,
          List.getElem?_eq_getElem hlt, List.append_assoc]
        rfl
      have hbyte : (UInt32.ofNat b[i].toNat).toUInt8 = b[i] := by
        apply UInt8.toNat_inj.mp
        rw [UInt32.toNat_toUInt8, UInt32.toNat_ofNat']
        have := b[i].toNat_lt
        omega
      rw [readDigits, hdrop, sscanf2x_byteDigits, Option.getD_some, hbyte, hset,
        if_pos (by simp; omega)]
      exact readDigits_eq b k (i + 1) _ (by omega)

/-- No digit is NUL, so that the string ends at the terminator. -/
theorem readString_encode (b : List UInt8) :
    readString (encode digitX b ++ [0]) = some (encode digitX b) := by
  have hall : ∀ c ∈ encode digitX b, decide (c ≠ 0) = true := by
    intro c hc
    rw [encode, List.mem_flatMap] at hc
    obtain ⟨x, -, hx⟩ := hc
    have hlt : x.toNat < 256 := x.toNat_lt
    rw [byteDigits, List.mem_cons, List.mem_singleton] at hx
    rcases hx with rfl | rfl
    · exact decide_eq_true (digitX_plain (by omega)).2.2
    · exact decide_eq_true (digitX_plain (by omega)).2.2
  rw [readString, if_pos (by simp), List.takeWhile_append_of_pos hall]
  simp

/-- The digits of an array below 2^30 bytes are read back. -/
theorem hex2bin_encode {b : List UInt8} (h : b.length < 2 ^ 30) :
    hex2bin (encode digitX b ++ [0]) = some b := by
  have hout : (toInt (encode digitX b).length).tdiv 2 = (b.length : Int) := by
    rw [length_encode, toInt_of_lt (by omega), Int.tdiv_eq_ediv_of_nonneg (by omega)]
    omega
  rw [hex2bin, readString_encode]
  simp only [Option.bind_eq_bind, Option.bind_some, hout,
    zeroed_of_lt (show b.length < 2 ^ 31 by omega)]
  exact readDigits_eq b b.length 0 0 (by omega)

/-! ## The round trips -/

/-- A string of an even number of upper case digits. -/
structure HexString where
  digits : List UInt8
  even : digits.length % 2 = 0
  upper : ∀ c ∈ digits, ∃ d < 16, c = digitX d

/-- **The codec's round trips**: a byte array is read back from its digits if and only
if it has fewer than `2 ^ 30` bytes, and a string of digits is written back from its
byte array if and only if it has fewer than `2 ^ 31` characters. -/
theorem hex_roundTrip_iff_fits (b : List UInt8) (s : HexString) :
    ((∃ hex, bin2hex (toInt b.length) b = some hex ∧ hex2bin hex = some b) ↔ b.length < 2 ^ 30) ∧
      ((∃ bin, hex2bin (s.digits ++ [0]) = some bin ∧
        bin2hex (toInt bin.length) bin = some (s.digits ++ [0])) ↔ s.digits.length < 2 ^ 31) := by
  refine ⟨⟨?_, fun h => ⟨_, bin2hex_of_lt h, hex2bin_encode h⟩⟩, ⟨?_, fun h => ?_⟩⟩
  · rintro ⟨hex, hhex, hbin⟩
    obtain ⟨hlen, hlt⟩ := bin2hex_eq_some hhex
    obtain ⟨t, ht, hb⟩ := hex2bin_length hbin
    have hshort := readString_length ht
    rw [toInt_of_lt (by omega), Int.tdiv_eq_ediv_of_nonneg (by omega)] at hb
    omega
  · rintro ⟨bin, -, hhex⟩
    obtain ⟨hlen, hlt⟩ := bin2hex_eq_some hhex
    rw [List.length_append, List.length_singleton] at hlen
    omega
  · obtain ⟨b, hb⟩ := exists_encode s.digits s.even s.upper
    have hlen : b.length < 2 ^ 30 := by rw [hb, length_encode] at h; omega
    rw [hb]
    exact ⟨b, hex2bin_encode hlen, bin2hex_of_lt hlen⟩

/-- An array of `2 ^ 30` bytes has a string of `2 ^ 31` digits. -/
theorem hex_roundTrip_too_long :
    ¬∃ hex, bin2hex (toInt (List.replicate (2 ^ 30) (0 : UInt8)).length)
    (List.replicate (2 ^ 30) 0) = some hex ∧ hex2bin hex = some (List.replicate (2 ^ 30) 0) := by
  rintro ⟨hex, hhex, -⟩
  have hlt := (bin2hex_eq_some hhex).2
  rw [List.length_replicate, toInt_of_lt (by omega)] at hlt
  omega

end Linuxyz.Hex
