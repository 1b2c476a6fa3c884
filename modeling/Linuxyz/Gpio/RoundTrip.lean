import Linuxyz.Gpio.Line
import Mathlib.Data.List.Basic

/-!
# Linuxyz.Gpio.RoundTrip

The line code is transparent: whatever sequence of frames `gpio_tx` sends,
the receiver hands exactly the non-empty frames to `geth_interrupt`, in order
and byte for byte, and both ends return to their idle state after every
frame.

The proof is layered like the code:

* **bits** -- `Receiving bits mode` ties the receiver to the bits received so
  far; `receive_bitPulses` moves it by one bit;
* **bytes** -- `receive_bodyPulses` iterates it over the bit stream of the
  frame;
* **frames** -- `receive_framePulses` adds the preamble and the trailer, and
  `receive_frames` runs a whole list of frames.
-/

namespace Linuxyz.Gpio

open Bits

/-! ## what the sender puts on the line -/

/-- The pulses of one bit: a toggle if the mode changes, then the data pulse. -/
def bitPulses (mode bit : Bool) : List Pulse := if mode = bit then [.data] else [.ctl, .data]

/-- The pulses of a run of bits sent from `mode`. -/
def bodyPulses (mode : Bool) : List Bool → List Pulse
  | [] => []
  | bit :: bits => bitPulses mode bit ++ bodyPulses bit bits

/-- The pulses that open and close a frame. -/
def marker : List Pulse := [.ctl, .ctl, .ctl, .data]

/-- The pulses of one frame sent from the idle state. -/
def framePulses (data : List UInt8) : List Pulse :=
  marker ++ bodyPulses false (bitStream data) ++ marker

theorem checkBit_eq_bitOf (b : UInt8) {j : Nat} (hj : j < 8) : checkBit b j = bitOf b j :=
  and_mask_ne_zero b hj

theorem gpioTxBit_eq (s : Tx) (bit : Bool) :
    gpioTxBit s bit = ⟨bit, s.line ++ bitPulses s.commsModeO bit⟩ := by
  obtain ⟨mode, line⟩ := s
  cases bit <;> cases mode <;> simp [gpioTxBit, gpioCtlOn, gpioDataOn, bitPulses]

/-- A run of bits leaves the mode at the last bit sent. -/
theorem foldl_gpioTxBit (s : Tx) (bits : List Bool) :
    bits.foldl gpioTxBit s =
      ⟨bits.getLastD s.commsModeO, s.line ++ bodyPulses s.commsModeO bits⟩ := by
  induction bits generalizing s with
  | nil => simp [bodyPulses]
  | cons bit bits ih =>
      rw [List.foldl_cons, ih, gpioTxBit_eq]
      simp only [bodyPulses, List.append_assoc]
      cases bits <;> rfl

theorem gpioTxByte_eq (s : Tx) (b : UInt8) : gpioTxByte s b = (bitsOf b).foldl gpioTxBit s := by
  rw [gpioTxByte, bitsOf, List.foldl_map]
  apply List.foldl_ext
  intro s j hj
  rw [checkBit_eq_bitOf b (List.mem_range.mp hj)]

/-- The two nested loops of `gpio_tx` send the bit stream of the data. -/
theorem foldl_gpioTxByte (s : Tx) (data : List UInt8) :
    data.foldl gpioTxByte s = (bitStream data).foldl gpioTxBit s := by
  induction data generalizing s with
  | nil => rfl
  | cons b data ih => rw [List.foldl_cons, ih, gpioTxByte_eq, bitStream, List.foldl_append]

/-- `gpio_tx` from the idle state emits one frame and ends in the idle state. -/
theorem gpioTx_of_idle (s : Tx) (hs : s.Idle) (data : List UInt8) :
    gpioTx s data = ⟨false, s.line ++ framePulses data⟩ := by
  obtain ⟨mode, line⟩ := s
  have hm : mode = false := hs
  subst hm
  simp only [gpioTx, foldl_gpioTxByte, foldl_gpioTxBit]
  simp [gpioCtlOn, gpioDataOn, framePulses, marker, List.range_succ]

/-- Sending frames from the idle state concatenates their pulses. -/
theorem foldl_gpioTx_of_idle (s : Tx) (hs : s.Idle) (frames : List (List UInt8)) :
    frames.foldl gpioTx s = ⟨false, s.line ++ frames.flatMap framePulses⟩ := by
  induction frames generalizing s with
  | nil =>
      obtain ⟨mode, line⟩ := s
      have hm : mode = false := hs
      simp [hm]
  | cons f fs ih =>
      have hidle : Tx.Idle ⟨false, s.line ++ framePulses f⟩ := rfl
      rw [List.foldl_cons, gpioTx_of_idle s hs f, ih _ hidle]
      simp [List.flatMap_cons]

/-! ## what the receiver makes of it -/

theorem receive_append (s : Rx × List Call) (ps qs : List Pulse) :
    receive s (ps ++ qs) = (receive s ps).bind (receive · qs) := by
  simp [receive, List.foldlM_append]

/-- The receiver inside a frame: `bits` are stored, the next data pulse
without a toggle stands for `mode`, and the pins are `o` and `i`. -/
structure Receiving (o i : Int) (bits : List Bool) (mode : Bool) (s : Rx) : Prop where
  gpioCtlO : s.gpioCtlO = o
  gpioCtlI : s.gpioCtlI = i
  ctlBitsCount : s.ctlBitsCount = 0
  dataBitsCount : s.dataBitsCount = bits.length
  commsModeI : s.commsModeI = mode
  packed : Packed s.iValue bits

variable {s : Rx}

theorem Receiving.of_idle (h : s.Idle) : Receiving s.gpioCtlO s.gpioCtlI [] false s where
  gpioCtlO := rfl
  gpioCtlI := rfl
  ctlBitsCount := h.ctlBitsCount
  dataBitsCount := h.dataBitsCount
  commsModeI := h.commsModeI
  packed := by rw [h.iValue]; exact Packed.nil

/-- Storing a bit inside the buffer appends the current mode. -/
theorem Receiving.storeBit (h : Receiving o i bits mode s) (hlen : bits.length < 8 * maxPktlen) :
    ∃ s', storeBit s = some s' ∧ Receiving o i (bits ++ [mode]) mode s' := by
  obtain ⟨so, si, sm, sc, sd, sv⟩ := s
  obtain ⟨rfl, rfl, rfl, rfl, rfl, hp⟩ := h
  have hidx : bits.length / 8 < maxPktlen := by omega
  simp only [Gpio.storeBit, hidx, dite_true]
  refine ⟨_, rfl, rfl, rfl, rfl, by simp, rfl, ?_⟩
  have hpush := hp.push sm hidx
  cases sm <;> simpa using hpush

/-- One transmitted bit is one received bit. -/
theorem receive_bitPulses (h : Receiving o i bits mode s) (bit : Bool) (calls : List Call)
    (hlen : bits.length < 8 * maxPktlen) :
    ∃ s', receive (s, calls) (bitPulses mode bit) = some (s', calls) ∧
      Receiving o i (bits ++ [bit]) bit s' := by
  by_cases hmode : mode = bit
  · -- no toggle: the data pulse finds no pending control pulse
    subst hmode
    obtain ⟨s', hs', hr⟩ := h.storeBit hlen
    refine ⟨s', ?_, hr⟩
    simp [receive, bitPulses, deliver, gpioDataIrqHandler, h.ctlBitsCount, hs']
  · -- one control pulse is pending, so the data pulse toggles before it stores
    have htoggle :
        Receiving o i bits bit { s with ctlBitsCount := 0, commsModeI := !s.commsModeI } := by
      refine ⟨h.gpioCtlO, h.gpioCtlI, rfl, h.dataBitsCount, ?_, h.packed⟩
      rw [h.commsModeI]
      cases mode <;> cases bit <;> simp_all
    obtain ⟨s', hs', hr⟩ := htoggle.storeBit hlen
    refine ⟨s', ?_, hr⟩
    simp [receive, bitPulses, hmode, deliver, gpioCtlIrqHandler, gpioDataIrqHandler,
      h.ctlBitsCount, hs']

/-- A run of bits is received bit by bit, as long as it fits the buffer. -/
theorem receive_bodyPulses (more : List Bool) (h : Receiving o i bits mode s) (calls : List Call)
    (hlen : bits.length + more.length ≤ 8 * maxPktlen) :
    ∃ s' mode', receive (s, calls) (bodyPulses mode more) = some (s', calls) ∧
      Receiving o i (bits ++ more) mode' s' := by
  induction more generalizing s bits mode with
  | nil => exact ⟨s, mode, by simp [receive, bodyPulses], by simpa using h⟩
  | cons bit more ih =>
      simp only [List.length_cons] at hlen
      obtain ⟨s₁, hrun₁, h₁⟩ := receive_bitPulses h bit calls (by omega)
      obtain ⟨s₂, mode₂, hrun₂, h₂⟩ := ih h₁ (by simp; omega)
      refine ⟨s₂, mode₂, ?_, by simpa using h₂⟩
      rw [bodyPulses, receive_append, hrun₁, Option.bind_some, hrun₂]

/-- The preamble leaves the idle receiver as it is. -/
theorem receive_preamble (h : s.Idle) (calls : List Call) :
    receive (s, calls) marker = some (s, calls) := by
  obtain ⟨o, i, m, c, d, v⟩ := s
  obtain ⟨rfl, rfl, rfl, rfl⟩ := h
  simp [receive, marker, deliver, gpioCtlIrqHandler, gpioDataIrqHandler]

/-- The trailer after `bits` makes the receiver idle; it calls
`geth_interrupt` exactly if bits were received and both directions are
configured. -/
theorem receive_trailer (h : Receiving o i bits mode s) (hnil : bits = [] → s.Idle)
    (calls : List Call) :
    ∃ s' call, receive (s, calls) marker = some (s', calls ++ call) ∧ s'.Idle ∧
      s'.gpioCtlO = o ∧ s'.gpioCtlI = i ∧
      call = if bits ≠ [] ∧ i ≠ 0 ∧ o ≠ 0 then [⟨s.iValue, bits.length⟩] else [] := by
  by_cases hb : bits = []
  · refine ⟨s, [], ?_, hnil hb, h.gpioCtlO, h.gpioCtlI, by simp [hb]⟩
    rw [receive_preamble (hnil hb), List.append_nil]
  · have hd : s.dataBitsCount ≠ 0 := by
      rw [h.dataBitsCount]; exact fun hz => hb (List.length_eq_zero_iff.mp hz)
    obtain ⟨so, si, sm, sc, sd, sv⟩ := s
    obtain ⟨rfl, rfl, rfl, rfl, rfl, hp⟩ := h
    refine ⟨⟨so, si, false, 0, 0, Vector.replicate maxPktlen 0⟩, _, ?_, ⟨rfl, rfl, rfl, rfl⟩,
      rfl, rfl, rfl⟩
    have hne : bits.length ≠ 0 := hd
    by_cases hpins : si ≠ 0 ∧ so ≠ 0
    · simp [receive, marker, deliver, gpioCtlIrqHandler, gpioDataIrqHandler, hb, hpins]
    · simp [receive, marker, deliver, gpioCtlIrqHandler, gpioDataIrqHandler, hb, hpins]

/-- The calls made for the announced frames, seen as (bytes, length) pairs. -/
def seen (calls : List Call) : List (List UInt8 × Nat) := calls.map fun c => (c.bytes, c.len)

/-- One frame of at most `MAX_PKTLEN` bytes: the receiver is idle again and
has announced the frame unless it is empty. -/
theorem receive_framePulses (h : s.Idle) (data : List UInt8) (hlen : data.length ≤ maxPktlen)
    (calls : List Call) :
    ∃ s' call, receive (s, calls) (framePulses data) = some (s', calls ++ call) ∧ s'.Idle ∧
      s'.gpioCtlO = s.gpioCtlO ∧ s'.gpioCtlI = s.gpioCtlI ∧
      seen call = (announced s [data]).map fun f => (f, f.length) := by
  obtain ⟨s₁, mode, hbody, h₁⟩ := receive_bodyPulses (bitStream data) (Receiving.of_idle h) calls
    (by simp; omega)
  rw [List.nil_append] at h₁
  have hnil : bitStream data = [] → s₁.Idle := by
    intro hz
    rw [hz] at hbody
    have hs : s = s₁ := by simpa [receive, bodyPulses] using hbody
    exact hs ▸ h
  obtain ⟨s₂, call, htrail, hidle, ho, hi, hcall⟩ := receive_trailer h₁ hnil calls
  refine ⟨s₂, call, ?_, hidle, ho, hi, ?_⟩
  · rw [framePulses, List.append_assoc, receive_append, receive_preamble h, Option.bind_some,
      receive_append, hbody, Option.bind_some, htrail]
  · by_cases hd : data = []
    · simp [hcall, hd, bitStream, seen, announced]
    · have hbits : bitStream data ≠ [] := by
        intro hz
        have hl := length_bitStream data
        rw [hz] at hl
        exact hd (List.length_eq_zero_iff.mp (by simpa using hl.symm))
      by_cases hpins : s.gpioCtlI ≠ 0 ∧ s.gpioCtlO ≠ 0
      · simp [hcall, hbits, hpins, seen, announced, hd, Call.bytes, Call.len,
          h₁.packed.take_eq hlen]
      · simp [hcall, hpins, seen, announced]

/-- A list of frames, from any idle receiver. -/
theorem receive_frames (h : s.Idle) (frames : List (List UInt8))
    (hlen : ∀ f ∈ frames, f.length ≤ maxPktlen) (calls : List Call) :
    ∃ s' made, receive (s, calls) (frames.flatMap framePulses) = some (s', calls ++ made) ∧
      s'.Idle ∧ seen made = (announced s frames).map fun f => (f, f.length) := by
  induction frames generalizing s calls with
  | nil => exact ⟨s, [], by simp [receive], h, by simp [seen, announced]⟩
  | cons f fs ih =>
      obtain ⟨s₁, call, hrun₁, h₁, ho, hi, hcall⟩ :=
        receive_framePulses h f (hlen f (by simp)) calls
      obtain ⟨s₂, made, hrun₂, h₂, hmade⟩ :=
        ih h₁ (fun g hg => hlen g (by simp [hg])) (calls ++ call)
      refine ⟨s₂, call ++ made, ?_, h₂, ?_⟩
      · rw [List.flatMap_cons, receive_append, hrun₁, Option.bind_some, hrun₂, List.append_assoc]
      · have hsplit : announced s (f :: fs) = announced s [f] ++ announced s₁ fs := by
          simp only [announced, ho, hi]
          split
          · rw [← List.filter_append]; rfl
          · rfl
        rw [hsplit, List.map_append, ← hcall, ← hmade, seen, seen, seen, List.map_append]

/-! ## the round trip -/

/-- **Round trip**: for every list of frames of at most `MAX_PKTLEN` bytes and
every prefix of it, feeding the pulses of `gpio_tx` to an idle receiver never
leaves the buffer, calls `geth_interrupt` exactly for the non-empty frames
(byte for byte, in order), and leaves both ends idle.  A receiver without both
directions configured decodes the same frames and calls nothing. -/
theorem gpio_round_trip (o i : Int) (frames : List (List UInt8))
    (hlen : ∀ f ∈ frames, f.length ≤ maxPktlen) (n : Nat) :
    ((frames.take n).foldl gpioTx Tx.idle).Idle ∧
      ∃ rx calls, receive (Rx.idle o i, [])
      ((frames.take n).foldl gpioTx Tx.idle).line = some (rx, calls) ∧ rx.Idle ∧
        calls.map (fun c => (c.bytes, c.len)) =
          if i ≠ 0 ∧ o ≠ 0 then ((frames.take n).filter (· ≠ [])).map (fun f => (f, f.length))
          else [] := by
  have hpulses := foldl_gpioTx_of_idle Tx.idle rfl (frames.take n)
  rw [hpulses]
  refine ⟨rfl, ?_⟩
  obtain ⟨rx, made, hrun, hidle, hseen⟩ := receive_frames (Rx.idle_idle o i) (frames.take n)
    (fun f hf => hlen f (List.mem_of_mem_take hf)) []
  refine ⟨rx, made, hrun, hidle, ?_⟩
  rw [← seen, hseen, announced, apply_ite (List.map _)]
  rfl

/-- Two frames with an empty one between them. -/
theorem gpio_round_trip_example :
    (∀ f ∈ [[0xa5, 0x00], [], [0xff]], f.length ≤ maxPktlen) ∧
      ∃ rx calls, receive (Rx.idle 24 17, [])
          (([[0xa5, 0x00], [], [0xff]] : List (List UInt8)).foldl gpioTx Tx.idle).line =
            some (rx, calls) ∧
        rx.Idle ∧ calls.map (fun c => (c.bytes, c.len)) = [([0xa5, 0x00], 2), ([0xff], 1)] := by
  have hlen : ∀ f ∈ ([[0xa5, 0x00], [], [0xff]] : List (List UInt8)), f.length ≤ maxPktlen := by
    decide
  exact ⟨by decide, (gpio_round_trip 24 17 _ hlen 3).2⟩

end Linuxyz.Gpio
