import Linuxyz.Lib.Buffer
import Linuxyz.Lib.Segments
import Mathlib.Algebra.Ring.Int.Defs

/-!
# Linuxyz.Ncat.Server

The connection loop of `NCAT_listen_and_serve` of `var-ncat/ncat.c`.

A connection is a stream in pieces, and `read` returns at most what is left of the
piece at the front.  The loop returns what it has printed when `keepalive` becomes
zero; a store outside its object, an overflow of an `int` and a use of `NULL` are
faults, for which it returns `none`.
-/

namespace Linuxyz.Ncat

open Buffer

/-- The conversion of a byte count to `int`. -/
def toInt (n : Nat) : Int := ((n + 2 ^ 31) % 2 ^ 32 : Nat) - 2 ^ 31

/-- `read(connfd, block + off, n)`: its result as an `int`, the block and the
connection afterwards. -/
def readInto (block : List UInt8) (off n : Nat) (s : Segments UInt8) :
    Option (Int × List UInt8 × Segments UInt8) :=
  let bytes := s.read n
  -- at the end of the stream nothing is stored
  if bytes = [] then some (0, block, s)
  else (memcpy block off bytes).map fun block => (toInt bytes.length, block, s.skip bytes.length)

/-- The loop that fills `size` bytes of a block through a pointer to objects of
`stride` bytes, from `valread` on; with it the value of `keepalive`. -/
def readLoop (stride size : Nat) (block : List UInt8) (valread : Nat) (s : Segments UInt8) :
    Option (Bool × List UInt8 × Segments UInt8) :=
  if valread < size then
    match readInto block (stride * valread) (size - valread) s with
    | none => none
    | some (rb, block, s) =>
        if rb ≤ 0 then some (false, block, s)
        else if valread + rb.toNat < 2 ^ 31 then readLoop stride size block (valread + rb.toNat) s
        else none
  else some (true, block, s)
termination_by size - valread

/-- The loop that reads the length, into `uint32_t rhead`: `&rhead + valread` steps
by four bytes. -/
def readHead (rhead : List UInt8) (s : Segments UInt8) :
    Option (Bool × List UInt8 × Segments UInt8) :=
  readLoop 4 4 rhead 0 s

/-- The loop that reads the message, into `uint8_t* data`. -/
def readData (datalen : Nat) (data : List UInt8) (s : Segments UInt8) :
    Option (Bool × List UInt8 × Segments UInt8) :=
  readLoop 1 datalen data 0 s

/-- `fprintf(stdout, "%s\n", data)`. -/
def printLine (data : List UInt8) : Option (List UInt8) :=
  if 0 ∈ data then some (data.takeWhile (· ≠ 0) ++ [10]) else none

/-- What one pass of the loop comes to: `keepalive` is zero, or the header and the
printed line, and the connection. -/
inductive Pass where
  | leave
  | next (rhead line : List UInt8) (s : Segments UInt8)

/-- The pass from `ntohl(rhead)` on. -/
def passData (malloc : Nat → Option (Nat → UInt8)) (rhead : List UInt8) (s : Segments UInt8) :
    Option Pass := do
  let datalen := be32 rhead
  let size := (datalen + 1) % 2 ^ 32
  let fresh ← malloc size
  let data ← memcpy ((List.range size).map fresh) datalen [0]
  let (keepalive, data, s) ← readData datalen data s
  if !keepalive then some .leave
  else (printLine data).map fun line => .next rhead line s

/-- One pass of `while(keepalive)`. -/
def pass (malloc : Nat → Option (Nat → UInt8)) (rhead : List UInt8) (s : Segments UInt8) :
    Option Pass := do
  let (keepalive, rhead, s) ← readHead rhead s
  if !keepalive then some .leave else passData malloc rhead s

/-! ## every pass reads -/

/-- A read takes at least as much from the stream as it reports. -/
theorem readInto_consumes (h : readInto block off n s = some (rb, block', s')) :
    s'.bytes.length + rb.toNat ≤ s.bytes.length := by
  simp only [readInto] at h
  split at h
  · obtain ⟨rfl, -, rfl⟩ : 0 = rb ∧ block = block' ∧ s = s' := by simpa using h
    exact Nat.le_refl _
  · simp only [Option.map_eq_some_iff, Prod.mk.injEq] at h
    obtain ⟨_, -, rfl, -, rfl⟩ := h
    have hlen := s.length_skip_read n
    have hint : (toInt (s.read n).length).toNat ≤ (s.read n).length := by unfold toInt; omega
    omega

/-- A loop that runs to its end has read what it was asked for. -/
theorem readLoop_consumes (h : readLoop stride size block valread s = some (true, block', s')) :
    s'.bytes.length + (size - valread) ≤ s.bytes.length := by
  fun_induction readLoop stride size block valread s with
  | case1 => cases h
  | case2 => cases h
  | case3 _ _ _ _ rb _ _ hread hrb _ ih =>
      have hstep := readInto_consumes hread
      have hrest := ih h
      omega
  | case4 => cases h
  | case5 _ valread _ hv =>
      cases h
      omega

/-- Each turn that prints a line reads some bytes, so that the loop ends. -/
theorem pass_consumes (h : pass malloc rhead s = some (.next rhead' line s')) :
    s'.bytes.length < s.bytes.length := by
  simp only [pass, Option.bind_eq_bind, Option.bind_eq_some_iff] at h
  obtain ⟨⟨keepalive, head, s₁⟩, hhead, h⟩ := h
  cases keepalive with
  | false => cases h
  | true =>
      simp only [Bool.not_true, Bool.false_eq_true, if_false, passData, Option.bind_eq_bind,
        Option.bind_eq_some_iff] at h
      obtain ⟨fresh, -, data, -, ⟨keepalive, data', s₂⟩, hdata, h⟩ := h
      cases keepalive with
      | false => cases h
      | true =>
          simp only [Bool.not_true, Bool.false_eq_true, if_false, Option.map_eq_some_iff] at h
          obtain ⟨_, -, heq⟩ := h
          cases heq
          have h₁ := readLoop_consumes hhead
          have h₂ := readLoop_consumes hdata
          omega

/-- `while(keepalive)`, with the header of the pass before and what has been printed. -/
def connLoop (malloc : Nat → Option (Nat → UInt8)) (rhead out : List UInt8) (s : Segments UInt8) :
    Option (List UInt8) :=
  match _h : pass malloc rhead s with
  | none => none
  | some .leave => some out
  | some (.next rhead line s') => connLoop malloc rhead (out ++ line) s'
termination_by s.bytes.length
decreasing_by exact pass_consumes ‹_›

/-- The loop as it is entered after `accept`: `rhead` is zero and nothing is printed. -/
def serveConn (malloc : Nat → Option (Nat → UInt8)) (s : Segments UInt8) : Option (List UInt8) :=
  connLoop malloc [0, 0, 0, 0] [] s

end Linuxyz.Ncat
