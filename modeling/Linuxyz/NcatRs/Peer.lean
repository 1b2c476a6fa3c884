import Linuxyz.Lib.Buffer
import Linuxyz.Lib.Segments

/-!
# Linuxyz.NcatRs.Peer

The two ends of a connection of `0xetc/rs/ncat/src/ncat/ncat.rs`: what `client`
writes for the lines it reads, and the loop of `listen_and_serve` that prints what
it receives.

A connection is a stream in pieces, and `read` returns at most what is left of the
piece at the front.  `write` takes the whole buffer.
-/

namespace Linuxyz.NcatRs

open Buffer

/-! ## `client` -/

/-- `char::is_whitespace`. -/
def isWhitespace (c : Char) : Bool :=
  (0x9 ≤ c.toNat ∧ c.toNat ≤ 0xd) ∨ (0x2000 ≤ c.toNat ∧ c.toNat ≤ 0x200a) ∨
    c.toNat ∈ [0x20, 0x85, 0xa0, 0x1680, 0x2028, 0x2029, 0x202f, 0x205f, 0x3000]

/-- The characters of `message.trim()`. -/
def trim (message : String) : List Char :=
  ((message.toList.dropWhile isWhitespace).reverse.dropWhile isWhitespace).reverse

/-- `message.trim() == "exit"`. -/
def isExit (message : String) : Bool := trim message = ['e', 'x', 'i', 't']

/-- `message.as_bytes()`. -/
def asBytes (message : String) : List UInt8 := message.toUTF8.data.toList

/-- The buffer that is written for a message; `none` is a panic. -/
def wbuff (message : String) : Option (List UInt8) :=
  let messageSize := (asBytes message).length % 2 ^ 32
  let totalsize := 4 + messageSize
  -- an overflow panics, in the addition or, where that wraps, in the slice `[..4]`
  if 2 ^ 32 ≤ totalsize then none
  else
    let wbuff := overwrite (List.replicate totalsize 0) 0 (toBe32 messageSize)
    -- `copy_from_slice` panics unless the lengths are the same
    if totalsize - 4 = (asBytes message).length then some (overwrite wbuff 4 (asBytes message))
    else none

/-- What is written before the loop over the lines ends, by `exit`, by the end of the
input or by a panic. -/
def client : List String → List UInt8
  | [] => []
  | message :: lines =>
      if isExit message then []
      else match wbuff message with
        | none => []
        | some wbuff => wbuff ++ client lines

/-! ## `listen_and_serve` -/

/-- The loop that fills `buf` up to `size` bytes, from `valread` on; `none` when a
read returns 0. -/
def readLoop (size : Nat) (buf : List UInt8) (valread : Nat) (s : Segments UInt8) :
    Option (List UInt8) × Segments UInt8 :=
  let bytes := s.read (buf.length - valread)
  if bytes.length = 0 then (none, s)
  else if valread + bytes.length = size then
    (some (overwrite buf valread bytes), s.skip bytes.length)
  else readLoop size (overwrite buf valread bytes) (valread + bytes.length) (s.skip bytes.length)
termination_by s.bytes.length
decreasing_by
  have hread := s.length_skip_read (buf.length - valread)
  have hne : ¬ (s.read (buf.length - valread)).length = 0 := ‹_›
  omega

/-- What one pass of the loop comes to: a notice and the end of the connection, or a
line that is printed. -/
inductive Pass where
  | close (notice : String) (s : Segments UInt8)
  | next (header : List UInt8) (line : String) (s : Segments UInt8)

/-- The pass from `BigEndian::read_u32` on; `none` is the panic of `unwrap` on text
that is not UTF-8. -/
def passData (header : List UInt8) (s : Segments UInt8) : Option Pass :=
  let datalen := be32 header
  match readLoop datalen (List.replicate datalen 0) 0 s with
  | (none, s) => some (.close "read data error" s)
  | (some data, s) => (String.fromUTF8? ⟨data.toArray⟩).map fun line => .next header line s

def pass (header : List UInt8) (s : Segments UInt8) : Option Pass :=
  match readLoop 4 header 0 s with
  | (none, s) => some (.close "read header error" s)
  | (some header, s) => passData header s

/-- A loop that fills its buffer has read something. -/
theorem readLoop_consumes (h : readLoop size buf valread s = (some buf', s')) :
    s'.bytes.length < s.bytes.length := by
  fun_induction readLoop size buf valread s with
  | case1 => cases h
  | case2 buf valread s bytes hne _ =>
      cases h
      have hread : (s.skip bytes.length).bytes.length + bytes.length = s.bytes.length :=
        s.length_skip_read (buf.length - valread)
      omega
  | case3 buf valread s bytes hne _ ih =>
      have hread : (s.skip bytes.length).bytes.length + bytes.length = s.bytes.length :=
        s.length_skip_read (buf.length - valread)
      have hrest := ih h
      omega

/-- Each turn that prints a line reads some bytes, so that the loop ends. -/
theorem pass_consumes (h : pass header s = some (.next header' line s')) :
    s'.bytes.length < s.bytes.length := by
  simp only [pass] at h
  split at h
  · cases h
  · next hhead =>
      have hread := readLoop_consumes hhead
      simp only [passData] at h
      split at h
      · cases h
      · next hdata =>
          obtain ⟨_, -, heq⟩ := Option.map_eq_some_iff.mp h
          cases heq
          exact Nat.lt_trans (readLoop_consumes hdata) hread

/-- The loop over the messages of one connection: what `println!` was called with, and
what is left of the stream when the connection is given up. -/
def connLoop (header : List UInt8) (out : List String) (s : Segments UInt8) :
    Option (List String × Segments UInt8) :=
  match _h : pass header s with
  | none => none
  | some (.close notice s') => some (out ++ [notice], s')
  | some (.next header line s') => connLoop header (out ++ [line]) s'
termination_by s.bytes.length
decreasing_by exact pass_consumes ‹_›

/-- The loop as it is entered for a new connection. -/
def serveConn (s : Segments UInt8) : Option (List String × Segments UInt8) :=
  connLoop [0, 0, 0, 0] [] s

end Linuxyz.NcatRs
