import Linuxyz.Lib.Bits

/-!
# Linuxyz.Gpio.Line

The two-wire line code of `kdev-gpio-irqsock/kgpio_irqsk.c`.

The sender (`gpio_tx`) drives a *control* and a *data* pin; a rising edge on
either is one `Pulse`.  Three control pulses and a data pulse open and close a
frame; inside a frame every data pulse is one bit, and a single control pulse
before it toggles the bit value the following data pulses stand for.  The
receiver is the pair of interrupt handlers `gpio_ctl_irq_handler` and
`gpio_data_irq_handler` over the module's static variables.

Pulses are events here: the `udelay` between the two pin writes of
`gpio_ctl_on` / `gpio_data_on` only shapes the edge.
-/

namespace Linuxyz.Gpio

/-- `MAX_PKTLEN`, the size of the receive buffer `i_value`. -/
def maxPktlen : Nat := 1500

/-- One rising edge on the line. -/
inductive Pulse where
  | ctl
  | data
deriving Repr, DecidableEq

/-! ## the sender -/

/-- The sender's state: `comms_mode_o` and the pulses emitted so far. -/
structure Tx where
  commsModeO : Bool
  line : List Pulse
deriving Repr, DecidableEq

/-- `CHECK_BIT(var, pos)` as a truth value. -/
def checkBit (var : UInt8) (pos : Nat) : Bool := (var &&& ((1 : UInt8) <<< UInt8.ofNat pos)) != 0

def gpioCtlOn (s : Tx) : Tx := { s with line := s.line ++ [.ctl] }

def gpioDataOn (s : Tx) : Tx := { s with line := s.line ++ [.data] }

/-- The body of the inner loop of `gpio_tx`: one bit of one byte. -/
def gpioTxBit (s : Tx) (bit : Bool) : Tx :=
  if bit then
    let s := if !s.commsModeO then { gpioCtlOn s with commsModeO := true } else s
    gpioDataOn s
  else
    let s := if s.commsModeO then { gpioCtlOn s with commsModeO := false } else s
    gpioDataOn s

/-- The inner loop of `gpio_tx`: the eight bits of `data[i]`. -/
def gpioTxByte (s : Tx) (b : UInt8) : Tx :=
  (List.range 8).foldl (fun s j => gpioTxBit s (checkBit b j)) s

/-- `gpio_tx(data, datalen)` on the `datalen` bytes at `data`. -/
def gpioTx (s : Tx) (data : List UInt8) : Tx :=
  let s := (List.range 3).foldl (fun s _ => gpioCtlOn s) s
  let s := gpioDataOn s
  let s := data.foldl gpioTxByte s
  let s := (List.range 3).foldl (fun s _ => gpioCtlOn s) s
  let s := gpioDataOn s
  { s with commsModeO := false }

/-! ## the receiver -/

/-- The receiver's static variables, with the two module parameters that
decide whether a finished frame goes to the network device. -/
structure Rx where
  gpioCtlO : Int
  gpioCtlI : Int
  commsModeI : Bool
  ctlBitsCount : Nat
  dataBitsCount : Nat
  iValue : Vector UInt8 maxPktlen

/-- What `geth_interrupt` finds in the static variables when it is called. -/
structure Call where
  iValue : Vector UInt8 maxPktlen
  dataBitsCount : Nat

/-- The length `geth_napi_interrupt` computes. -/
def Call.len (c : Call) : Nat := c.dataBitsCount / 8

/-- The bytes `geth_napi_interrupt` copies out of `i_value`. -/
def Call.bytes (c : Call) : List UInt8 := c.iValue.toList.take c.len

def gpioCtlIrqHandler (s : Rx) : Rx := { s with ctlBitsCount := s.ctlBitsCount + 1 }

/-- The end of `gpio_data_irq_handler`: store one bit.  `none` is a store
outside `i_value`. -/
def storeBit (s : Rx) : Option Rx :=
  if h : s.dataBitsCount / 8 < maxPktlen then
    let pktidx := s.dataBitsCount / 8
    let bitidx := s.dataBitsCount % 8
    let mask : UInt8 := if s.commsModeI then 1 <<< UInt8.ofNat bitidx else 0 <<< UInt8.ofNat bitidx
    some { s with
      iValue := s.iValue.set pktidx (s.iValue[pktidx] ||| mask) h
      dataBitsCount := s.dataBitsCount + 1 }
  else
    none

/-- `gpio_data_irq_handler`: the new state and, when the pulse closes a frame
on a device with both directions configured, the call of `geth_interrupt`. -/
def gpioDataIrqHandler (s : Rx) : Option (Rx × Option Call) :=
  if s.ctlBitsCount = 3 then
    let s := { s with ctlBitsCount := 0 }
    if s.dataBitsCount = 0 then
      some (s, none)
    else
      let call := if s.gpioCtlI ≠ 0 ∧ s.gpioCtlO ≠ 0 then some ⟨s.iValue, s.dataBitsCount⟩ else none
      some ({ s with
        iValue := Vector.replicate maxPktlen 0, dataBitsCount := 0, commsModeI := false }, call)
  else
    let s :=
      if s.ctlBitsCount = 1 then { s with ctlBitsCount := 0, commsModeI := !s.commsModeI } else s
    (storeBit s).map (·, none)

/-- Deliver one pulse to its handler; the calls of `geth_interrupt` are
collected in order. -/
def deliver (s : Rx × List Call) : Pulse → Option (Rx × List Call)
  | .ctl => some (gpioCtlIrqHandler s.1, s.2)
  | .data => (gpioDataIrqHandler s.1).map fun r => (r.1, s.2 ++ r.2.toList)

/-- Deliver a sequence of pulses, each exactly once and in order. -/
def receive (s : Rx × List Call) (ps : List Pulse) : Option (Rx × List Call) := ps.foldlM deliver s

/-! ## the idle states -/

/-- The sender before its first frame. -/
def Tx.idle : Tx := ⟨false, []⟩

/-- The receiver as the module loads, with its two control pins. -/
def Rx.idle (o i : Int) : Rx := ⟨o, i, false, 0, 0, Vector.replicate maxPktlen 0⟩

/-- The sender between frames. -/
def Tx.Idle (s : Tx) : Prop := s.commsModeO = false

/-- The receiver between frames. -/
structure Rx.Idle (s : Rx) : Prop where
  ctlBitsCount : s.ctlBitsCount = 0
  dataBitsCount : s.dataBitsCount = 0
  commsModeI : s.commsModeI = false
  iValue : s.iValue = Vector.replicate maxPktlen 0

theorem Rx.idle_idle (o i : Int) : (Rx.idle o i).Idle := ⟨rfl, rfl, rfl, rfl⟩

/-- The frames that `geth_interrupt` is called for: with both directions
configured every non-empty frame, else none. -/
def announced (s : Rx) (frames : List (List UInt8)) : List (List UInt8) :=
  if s.gpioCtlI ≠ 0 ∧ s.gpioCtlO ≠ 0 then frames.filter (· ≠ []) else []

end Linuxyz.Gpio
