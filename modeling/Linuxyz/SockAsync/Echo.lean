import Linuxyz.Lib.Buffer
import Linuxyz.Lib.System

/-!
# Linuxyz.SockAsync.Echo

The echo server of `0xetc/go/sock-tcp-async`, one connection: `readHandler`
fills a block of 1024 bytes and sends it to `worker`, `worker` hands it on to
`writeHandler`, over channels of capacity 1024.

`readHandler` has one buffer for the whole connection, and what it sends is a
slice of it.  All slices on their way share that array, so a channel is known by
the number of slices in it, and a write takes the bytes that are in the buffer
by then.  The echo is faithful only while the reader waits for each block to be
written before it reads on.
-/

namespace Linuxyz.SockAsync

open Buffer

/-- The size of a block, and the capacity of a channel. -/
def blockLen : Nat := 1024

/-- One connection.  `worker` and `writer` tell whether the goroutine holds a
slice; a goroutine that returned after an error is `closed`.  `received` and
`written` are the bytes read so far and the blocks written so far, `sent` is
the number of slices sent. -/
structure Echo where
  buf : List UInt8
  readlen : Nat
  readClosed : Bool
  rc : Nat
  worker : Bool
  wc : Nat
  writer : Bool
  writeClosed : Bool
  received : List UInt8
  sent : Nat
  written : List (List UInt8)

def Echo.start : Echo := ⟨List.replicate blockLen 0, 0, false, 0, false, 0, false, false, [], 0, []⟩

inductive Act where
  /-- `c.Read` returns bytes -/
  | read (bs : List UInt8)
  /-- `c.Read` fails -/
  | readError
  /-- `rc <- buf` -/
  | send
  /-- `rbuf := <-rc` -/
  | workerReceive
  /-- `wc <- rbuf` -/
  | workerSend
  /-- `wbuf := <-wc` -/
  | writerReceive
  /-- `c.Write` takes the whole slice -/
  | write
  /-- `c.Write` fails -/
  | writeError
deriving DecidableEq, Repr

/-- `c.Read(buf[readlen:])`, while the block is not complete. -/
def read (s : Echo) (bs : List UInt8) : Option Echo :=
  if s.readClosed = false ∧ s.readlen ≠ blockLen ∧ s.readlen + bs.length ≤ blockLen then
    some { s with
      buf := overwrite s.buf s.readlen bs, readlen := s.readlen + bs.length,
      received := s.received ++ bs }
  else none

def step (s : Echo) : Act → Option Echo
  | .read bs => read s bs
  | .readError =>
      if s.readClosed = false ∧ s.readlen ≠ blockLen then some { s with readClosed := true }
      else none
  | .send =>
      if s.readClosed = false ∧ s.readlen = blockLen ∧ s.rc < blockLen then
        some { s with readlen := 0, rc := s.rc + 1, sent := s.sent + 1 }
      else none
  | .workerReceive =>
      if s.worker = false ∧ 0 < s.rc then some { s with rc := s.rc - 1, worker := true } else none
  | .workerSend =>
      if s.worker = true ∧ s.wc < blockLen then some { s with worker := false, wc := s.wc + 1 }
      else none
  | .writerReceive =>
      if s.writeClosed = false ∧ s.writer = false ∧ 0 < s.wc then
        some { s with wc := s.wc - 1, writer := true }
      else none
  | .write =>
      if s.writer = true then some { s with writer := false, written := s.written ++ [s.buf] }
      else none
  | .writeError =>
      if s.writer = true then some { s with writer := false, writeClosed := true } else none

def echo : System Echo Act where
  init s := s = .start
  step := step

/-- The reader reads while every block it sent was written back. -/
def Settled (s : Echo) : Act → Prop
  | .read _ => s.sent = s.written.length
  | _ => True

instance decidableSettled (s : Echo) : (a : Act) → Decidable (Settled s a)
  | .read _ => inferInstanceAs (Decidable (s.sent = s.written.length))
  | .readError | .send | .workerReceive | .workerSend | .writerReceive | .write | .writeError =>
      .isTrue trivial

/-! ## the invariant -/

/-- Behind the written blocks the reader has received the front of the buffer,
or the one whole block that is on its way. -/
structure Faithful (s : Echo) : Prop where
  length_buf : s.buf.length = blockLen
  blocks : ∀ b ∈ s.written, b.length = blockLen
  onWay : s.written.length + s.rc + s.worker.toNat + s.wc + s.writer.toNat ≤ s.sent
  received : (s.sent = s.written.length ∧ s.received = s.written.flatten ++ s.buf.take s.readlen) ∨
    (s.sent = s.written.length + 1 ∧ s.readlen = 0 ∧ s.received = s.written.flatten ++ s.buf)

theorem faithful_start : Faithful .start where
  length_buf := List.length_replicate
  blocks b hb := by cases hb
  onWay := Nat.le_refl _
  received := .inl ⟨rfl, rfl⟩

/-- A read, when every block that was handed on has been written. -/
theorem Faithful.read {s s' : Echo} (h : Faithful s) (hsettled : s.sent = s.written.length)
    (hs : read s bs = some s') : Faithful s' := by
  simp only [SockAsync.read, Option.ite_none_right_eq_some, Option.some.injEq] at hs
  obtain ⟨⟨-, -, hfit⟩, rfl⟩ := hs
  have hroom : s.readlen + bs.length ≤ s.buf.length := h.length_buf ▸ hfit
  refine ⟨(length_overwrite hroom).trans h.length_buf, h.blocks, h.onWay, .inl ⟨hsettled, ?_⟩⟩
  rcases h.received with ⟨-, hrec⟩ | ⟨hsent, -⟩
  · simp only
    rw [take_overwrite_add (by omega), hrec, List.append_assoc]
  · omega

/-- A complete block becomes the one on its way. -/
theorem Faithful.send {s : Echo} (h : Faithful s) (hfull : s.readlen = blockLen) :
    Faithful { s with readlen := 0, rc := s.rc + 1, sent := s.sent + 1 } := by
  have hway := h.onWay
  refine ⟨h.length_buf, h.blocks, ?_, .inr ?_⟩
  · simp only
    omega
  · rcases h.received with ⟨hsent, hrec⟩ | ⟨-, hzero, -⟩
    · rw [hfull, ← h.length_buf, List.take_length] at hrec
      exact ⟨congrArg (· + 1) hsent, rfl, hrec⟩
    · rw [hzero] at hfull
      cases hfull

/-- A write of the buffer, which holds the block that is on its way. -/
theorem Faithful.write {s : Echo} (h : Faithful s) (hheld : s.writer = true) :
    Faithful { s with writer := false, written := s.written ++ [s.buf] } := by
  have hway := h.onWay
  rw [hheld, Bool.toNat_true] at hway
  refine ⟨h.length_buf, ?_, ?_, .inl ?_⟩
  · exact List.forall_mem_append.mpr ⟨h.blocks, List.forall_mem_singleton.mpr h.length_buf⟩
  · simp only [List.length_append, List.length_singleton, Bool.toNat_false]
    omega
  · rcases h.received with ⟨hsent, -⟩ | ⟨hsent, hzero, hrec⟩
    · omega
    · refine ⟨by simpa using hsent, ?_⟩
      simp [hzero, hrec]

/-- Steps that only move slices between the goroutines and channels. -/
theorem Faithful.moves {s : Echo} (h : Faithful s)
    (hle : rc + worker.toNat + wc + writer.toNat ≤ s.rc + s.worker.toNat + s.wc + s.writer.toNat) :
    Faithful { s with
      readClosed := readClosed, rc := rc, worker := worker, wc := wc, writer := writer,
      writeClosed := writeClosed } :=
  ⟨h.length_buf, h.blocks, by have := h.onWay; simp only; omega, h.received⟩

/-- One step, where a block is read only when the one before it has been written. -/
theorem faithful_step {s s' : Echo} {a : Act} (h : Faithful s) (ha : Settled s a)
    (hs : echo.step s a = some s') : Faithful s' := by
  cases a with
  | read bs => exact h.read ha hs
  | send =>
      simp only [echo, step, Option.ite_none_right_eq_some, Option.some.injEq] at hs
      obtain ⟨⟨-, hfull, -⟩, rfl⟩ := hs
      exact h.send hfull
  | write =>
      simp only [echo, step, Option.ite_none_right_eq_some, Option.some.injEq] at hs
      obtain ⟨hheld, rfl⟩ := hs
      exact h.write hheld
  | readError | workerReceive | workerSend | writerReceive | writeError =>
      simp only [echo, step, Option.ite_none_right_eq_some, Option.some.injEq] at hs
      obtain ⟨hguard, rfl⟩ := hs
      exact h.moves (by grind)

/-- **The echo is faithful while each block is written before the next is
read.**  In every run in which the reader reads only while nothing is on its
way, the bytes written are the front of the bytes received, block by block. -/
theorem echo_of_settled {as : List Act} {s : Echo} (has : echo.Meets Settled .start as)
    (hrun : echo.run .start as = some s) :
    s.written.flatten <+: s.received ∧
      ∀ i b, s.written[i]? = some b → b = (s.received.drop (blockLen * i)).take blockLen := by
  have h :=
    has.invariant (I := Faithful) (fun _ _ _ h ha hs => faithful_step h ha hs) faithful_start hrun
  have hfront : ∃ rest, s.received = s.written.flatten ++ rest := by
    rcases h.received with ⟨-, hrec⟩ | ⟨-, -, hrec⟩ <;> exact ⟨_, hrec⟩
  obtain ⟨rest, hrest⟩ := hfront
  refine ⟨⟨rest, hrest.symm⟩, fun i b hb => ?_⟩
  rw [hrest, take_drop_flatten h.blocks hb]

/-- A block of one byte value, read at once. -/
def block (b : UInt8) : List UInt8 := List.replicate blockLen b

/-- Two blocks, one after the other. -/
def inTurn : List Act :=
  [.read (block 1), .send, .workerReceive, .workerSend, .writerReceive, .write,
    .read (block 2), .send, .workerReceive, .workerSend, .writerReceive, .write]

theorem echo_inTurn :
    ∃ s, echo.run .start inTurn = some s ∧ s.written.flatten <+: s.received ∧
      ∀ i b, s.written[i]? = some b → b = (s.received.drop (blockLen * i)).take blockLen := by
  have has : echo.Meets Settled .start inTurn := by decide +kernel
  have hrun : (echo.run .start inTurn).isSome := by decide +kernel
  obtain ⟨s, hs⟩ := Option.isSome_iff_exists.mp hrun
  exact ⟨s, hs, echo_of_settled has hs⟩

/-- The first byte of a second block arrives before the first block is
written. -/
def overtaken : List Act :=
  [.read (block 1), .send, .read [2], .workerReceive, .workerSend, .writerReceive, .write]

/-- The block written back begins with the byte of the next one. -/
theorem echo_overtaken :
    ∃ s, echo.run .start overtaken = some s ∧ s.received = block 1 ++ [2] ∧
      s.written = [2 :: List.replicate (blockLen - 1) 1] ∧ ¬ s.written.flatten <+: s.received := by
  have hrun : (echo.run .start overtaken).map (fun s => (s.received, s.written)) =
      some (block 1 ++ [2], [2 :: List.replicate (blockLen - 1) 1]) := by decide +kernel
  obtain ⟨s, hs, hlogs⟩ := Option.map_eq_some_iff.mp hrun
  have hreceived : s.received = block 1 ++ [2] := congrArg Prod.fst hlogs
  have hwritten : s.written = [2 :: List.replicate (blockLen - 1) 1] := congrArg Prod.snd hlogs
  refine ⟨s, hs, hreceived, hwritten, ?_⟩
  rw [hreceived, hwritten]
  decide +kernel

end Linuxyz.SockAsync
