import Linuxyz.Gpio.RoundTrip
import Linuxyz.Lib.Ethernet

/-!
# Linuxyz.Gpio.Xmit

What `geth_xmit` sends, and whether the receiver has room for it.

The network stack hands over frames of up to 1514 bytes, the MTU of 1500 and the
Ethernet header, and `geth_xmit` sends each of them whole, a short one filled up to
`ETH_ZLEN` bytes.  The buffers of the receiver have `MAX_PKTLEN` = 1500 bytes: that is
the MTU without the header.
-/

namespace Linuxyz.Gpio

open Bits

/-! ## the transmit path -/

/-- The sending side of the device: the line, `priv->stats`, `priv->skb`, and whether the
queue is stopped. -/
structure Sender where
  tx : Tx
  txPackets : Nat
  txBytes : Nat
  skb : Option (List UInt8)
  stopped : Bool
deriving DecidableEq

/-- The device before its first frame. -/
def Sender.idle : Sender := ⟨Tx.idle, 0, 0, none, false⟩

theorem Sender.idle_idle : Sender.idle.tx.Idle := rfl

/-- `geth_hw_tx` on the bytes at `buf`. -/
def gethHwTx (lockup : Nat) (d : Sender) (buf : List UInt8) : Sender :=
  if buf.length < headersLen then d
  else
    { tx := gpioTx d.tx buf
      txPackets := d.txPackets + 1
      txBytes := d.txBytes + buf.length
      skb := none
      stopped := d.stopped || (lockup != 0 && (d.txPackets + 1 + 1) % lockup == 0) }

/-- `geth_xmit`; a short `skb` is sent from `shortpkt`. -/
def gethXmit (lockup : Nat) (d : Sender) (skb : List UInt8) : Sender :=
  gethHwTx lockup { d with skb := some skb } (padded skb)

/-- The pulses between two states of the sender. -/
def emitted (d d' : Sender) : List Pulse := d'.tx.line.drop d.tx.line.length

/-- The receiver decodes the pulses without a store outside `i_value`, and every length
that `geth_napi_interrupt` computes is one that the buffers have. -/
def Fits (rx : Rx) (pulses : List Pulse) : Prop :=
  ∃ rx' calls, receive (rx, []) pulses = some (rx', calls) ∧ ∀ c ∈ calls, c.len ≤ maxPktlen

/-- `geth_xmit` never meets the test for short packets, and sends one frame. -/
theorem emitted_gethXmit (lockup : Nat) {d : Sender} (hd : d.tx.Idle) (skb : List UInt8) :
    emitted d (gethXmit lockup d skb) = framePulses (padded skb) := by
  have hlong : ¬(padded skb).length < headersLen := Nat.not_lt.mpr (headersLen_le_length_padded skb)
  simp only [gethXmit, gethHwTx, if_neg hlong, emitted, gpioTx_of_idle _ hd, List.drop_left]

/-! ## frames that are too long -/

/-- A bit that arrives when the buffer is full is stored behind it. -/
theorem receive_bitPulses_full {s : Rx} (h : Receiving o i bits mode s) (bit : Bool)
    (calls : List Call) (hfull : bits.length = 8 * maxPktlen) :
    receive (s, calls) (bitPulses mode bit) = none := by
  have hout : ¬s.dataBitsCount / 8 < maxPktlen := by
    rw [h.dataBitsCount, hfull]
    omega
  by_cases hmode : mode = bit
  · simp [receive, bitPulses, hmode, deliver, gpioDataIrqHandler, h.ctlBitsCount, storeBit, hout]
  · simp [receive, bitPulses, hmode, deliver, gpioCtlIrqHandler, gpioDataIrqHandler, h.ctlBitsCount,
      storeBit, hout]

/-- A run of bits that does not fit leaves the buffer. -/
theorem receive_bodyPulses_overflow {s : Rx} (more : List Bool) (h : Receiving o i bits mode s)
    (calls : List Call) (hroom : bits.length ≤ 8 * maxPktlen)
    (hlen : 8 * maxPktlen < bits.length + more.length) :
    receive (s, calls) (bodyPulses mode more) = none := by
  induction more generalizing s bits mode with
  | nil =>
      rw [List.length_nil] at hlen
      omega
  | cons bit more ih =>
      rw [bodyPulses, receive_append]
      by_cases hfull : bits.length = 8 * maxPktlen
      · rw [receive_bitPulses_full h bit calls hfull]
        rfl
      · obtain ⟨s₁, hrun, h₁⟩ := receive_bitPulses h bit calls (by omega)
        rw [hrun, Option.bind_some]
        rw [List.length_cons] at hlen
        exact ih h₁ (by rw [List.length_append, List.length_singleton]; omega)
          (by rw [List.length_append, List.length_singleton]; omega)

/-- A frame that is longer than the receiver's buffer makes it write behind its end. -/
theorem receive_framePulses_overflow {s : Rx} (h : s.Idle) {data : List UInt8}
    (hlen : maxPktlen < data.length) (calls : List Call) :
    receive (s, calls) (framePulses data) = none := by
  have hbody : receive (s, calls) (bodyPulses false (bitStream data)) = none :=
    receive_bodyPulses_overflow (bitStream data) (Receiving.of_idle h) calls (Nat.zero_le _)
      (by rw [length_bitStream, List.length_nil]; omega)
  rw [framePulses, List.append_assoc, receive_append, receive_preamble h, Option.bind_some,
    receive_append, hbody]
  rfl

/-- A frame fits if and only if it is not longer than the buffer. -/
theorem fits_framePulses_iff {rx : Rx} (h : rx.Idle) (data : List UInt8) :
    Fits rx (framePulses data) ↔ data.length ≤ maxPktlen := by
  constructor
  · rintro ⟨rx', calls, hrun, -⟩
    by_contra hlong
    rw [receive_framePulses_overflow h (Nat.not_le.mp hlong)] at hrun
    cases hrun
  · intro hlen
    obtain ⟨rx', calls, hrun, -, -, -, hseen⟩ := receive_framePulses h data hlen []
    refine ⟨rx', calls, hrun, fun c hc => ?_⟩
    have hmem : (c.bytes, c.len) ∈ seen calls := List.mem_map_of_mem hc
    rw [hseen] at hmem
    obtain ⟨f, hf, heq⟩ := List.mem_map.mp hmem
    have hf : f = data := by
      rw [announced] at hf
      split at hf
      · exact List.mem_singleton.mp (List.mem_of_mem_filter hf)
      · cases hf
    rw [← (Prod.mk.inj heq).2, hf]
    exact hlen

/-- **Frames fit the receiver**: for every `skb`, what `geth_xmit` puts on the line fits
an idle receiver if and only if the `skb` has at most `MAX_PKTLEN` bytes. -/
theorem xmit_fits_iff (lockup : Nat) {d : Sender} (hd : d.tx.Idle) {rx : Rx} (hrx : rx.Idle)
    (skb : List UInt8) : Fits rx (emitted d (gethXmit lockup d skb)) ↔ skb.length ≤ maxPktlen := by
  rw [emitted_gethXmit lockup hd, fits_framePulses_iff hrx, length_padded, Nat.max_le]
  exact and_iff_left (by decide)

/-- A frame of 42 bytes, sent with padding. -/
theorem xmit_fits_arp :
    Fits (Rx.idle 24 17) (emitted .idle (gethXmit 0 .idle (List.replicate 42 0))) :=
  (xmit_fits_iff 0 Sender.idle_idle (Rx.idle_idle 24 17) _).mpr (by decide)

/-- A full frame, of 1500 bytes and its header: the receiver stores bits behind
`i_value`. -/
theorem xmit_full_frame :
    receive (Rx.idle 24 17, [])
    (emitted .idle (gethXmit 0 .idle (List.replicate 1514 0))) = none := by
  rw [emitted_gethXmit 0 Sender.idle_idle]
  refine receive_framePulses_overflow (Rx.idle_idle 24 17) ?_ []
  rw [length_padded, List.length_replicate]
  decide

end Linuxyz.Gpio
