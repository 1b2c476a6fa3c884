import Linuxyz.Gpio.RoundTrip

/-!
# Linuxyz.Gpio.Resync

Whether the receiver of the line code finds its way back after spurious or lost
pulses.

A data pulse closes a frame after exactly three control pulses and toggles the
bit value after exactly one; after any other number it only stores a bit and
leaves the count as it is.  So a control pulse too many before a preamble makes
the count four, and from then on no number of frames brings it back.  Without
a pending control pulse the next preamble closes whatever was received so far,
and the receiver is in step again.
-/

namespace Linuxyz.Gpio

/-- After some number of correctly transmitted frames the receiver is idle, and
every later frame is received byte for byte. -/
def Rx.Resyncs (s : Rx) : Prop :=
  ∃ n, ∀ first : List (List UInt8), first.length = n → (∀ f ∈ first, f.length ≤ maxPktlen) →
    ∃ s' calls, receive (s, []) (first.foldl gpioTx Tx.idle).line = some (s', calls) ∧ s'.Idle ∧
      ∀ later : List (List UInt8), (∀ f ∈ later, f.length ≤ maxPktlen) →
        ∃ s'' made, receive (s', []) (later.foldl gpioTx Tx.idle).line = some (s'', made) ∧
          s''.Idle ∧ seen made = (announced s' later).map fun f => (f, f.length)

theorem receive_cons (s : Rx × List Call) (p : Pulse) (ps : List Pulse) :
    receive s (p :: ps) = (deliver s p).bind (receive · ps) := rfl

/-- What every pulse preserves, a sequence of pulses preserves. -/
theorem receive_invariant {P : Rx → Prop} (hstep : ∀ s p s', P s.1 → deliver s p = some s' → P s'.1)
    {s s' : Rx × List Call} {ps : List Pulse} (hs : P s.1) (hrun : receive s ps = some s') :
    P s'.1 := by
  induction ps generalizing s with
  | nil =>
      cases hrun
      exact hs
  | cons p ps ih =>
      rw [receive_cons, Option.bind_eq_some_iff] at hrun
      obtain ⟨s₁, hs₁, hrest⟩ := hrun
      exact ih (hstep s p s₁ hs hs₁) hrest

theorem storeBit_eq_some {s s' : Rx} (h : storeBit s = some s') :
    s'.ctlBitsCount = s.ctlBitsCount ∧ s'.dataBitsCount = s.dataBitsCount + 1 := by
  rw [storeBit] at h
  split at h
  · cases h
    exact ⟨rfl, rfl⟩
  · cases h

/-! ## out of step -/

/-- Four pending control pulses never become fewer. -/
theorem deliver_stuck {s s' : Rx × List Call} {p : Pulse} (hs : 4 ≤ s.1.ctlBitsCount)
    (h : deliver s p = some s') : 4 ≤ s'.1.ctlBitsCount := by
  cases p with
  | ctl =>
      cases h
      exact Nat.le_succ_of_le hs
  | data =>
      have hthree : s.1.ctlBitsCount ≠ 3 := by omega
      have hone : s.1.ctlBitsCount ≠ 1 := by omega
      simp only [deliver, gpioDataIrqHandler, hthree, hone, if_false, Option.map_map,
        Option.map_eq_some_iff] at h
      obtain ⟨t, ht, rfl⟩ := h
      exact (storeBit_eq_some ht).1 ▸ hs

/-- A receiver with a pending control pulse does not resynchronise. -/
theorem ctlBitsCount_of_resyncs {s : Rx} (h : s.Resyncs) : s.ctlBitsCount = 0 := by
  obtain ⟨n, hn⟩ := h
  obtain ⟨s', calls, hrun, hidle, -⟩ := hn (List.replicate n []) List.length_replicate
    fun f hf => by rw [List.eq_of_mem_replicate hf]; exact Nat.zero_le _
  rw [foldl_gpioTx_of_idle Tx.idle rfl] at hrun
  cases n with
  | zero =>
      cases hrun
      exact hidle.ctlBitsCount
  | succ n =>
      -- the preamble of the first frame adds three to what is pending
      by_contra hc
      have hthree :
          4 ≤ (gpioCtlIrqHandler (gpioCtlIrqHandler (gpioCtlIrqHandler s))).ctlBitsCount := by
        simp only [gpioCtlIrqHandler]
        omega
      have hstuck : 4 ≤ s'.ctlBitsCount :=
        receive_invariant (P := fun s => 4 ≤ s.ctlBitsCount) (fun _ _ _ => deliver_stuck)
          (s := (gpioCtlIrqHandler (gpioCtlIrqHandler (gpioCtlIrqHandler s)), [])) hthree hrun
      rw [hidle.ctlBitsCount] at hstuck
      omega

/-! ## back in step -/

/-- Without a bit stored, the bit value and the buffer are as at the start. -/
def Rx.Fresh (s : Rx) : Prop :=
  s.dataBitsCount = 0 → s.commsModeI = false ∧ s.iValue = Vector.replicate maxPktlen 0

/-- Each pulse keeps it: a pulse that stores a bit counts it, and one that closes a
frame resets the receiver. -/
theorem deliver_fresh {s s' : Rx × List Call} {p : Pulse} (hs : s.1.Fresh)
    (h : deliver s p = some s') : s'.1.Fresh := by
  cases p with
  | ctl =>
      cases h
      exact hs
  | data =>
      simp only [deliver, gpioDataIrqHandler] at h
      split at h
      · split at h
        · cases h
          exact hs
        · cases h
          exact fun _ => ⟨rfl, rfl⟩
      · simp only [Option.map_map, Option.map_eq_some_iff] at h
        obtain ⟨t, ht, rfl⟩ := h
        intro hzero
        have hcount := (storeBit_eq_some ht).2
        simp only [Function.comp_apply] at hzero
        omega

/-- A preamble without pending control pulses makes the receiver idle. -/
theorem receive_marker {s : Rx} (hs : s.Fresh) (hc : s.ctlBitsCount = 0) :
    ∃ s' calls, receive (s, []) marker = some (s', calls) ∧ s'.Idle := by
  by_cases hd : s.dataBitsCount = 0
  · have hidle : s.Idle := ⟨hc, hd, (hs hd).1, (hs hd).2⟩
    exact ⟨s, [], receive_preamble hidle [], hidle⟩
  · obtain ⟨o, i, m, c, d, v⟩ := s
    have hc : c = 0 := hc
    have hd : d ≠ 0 := hd
    subst hc
    exact ⟨⟨o, i, false, 0, 0, Vector.replicate maxPktlen 0⟩, _,
      by simp [receive, marker, deliver, gpioCtlIrqHandler, gpioDataIrqHandler, hd]; rfl,
      ⟨rfl, rfl, rfl, rfl⟩⟩

/-- Without pending control pulses one frame is enough. -/
theorem resyncs_of_ctlBitsCount {s : Rx} (hs : s.Fresh) (hc : s.ctlBitsCount = 0) : s.Resyncs := by
  refine ⟨1, fun first hone hfit => ?_⟩
  obtain ⟨f, rfl⟩ := List.length_eq_one_iff.mp hone
  obtain ⟨s₁, calls, hmarker, hidle₁⟩ := receive_marker hs hc
  obtain ⟨s₂, call, hframe, hidle₂, -⟩ := receive_framePulses hidle₁ f (hfit f (by simp)) calls
  refine ⟨s₂, calls ++ call, ?_, hidle₂, fun later hlater => ?_⟩
  · -- once idle, the receiver takes the rest of the frame as if it had seen the preamble idle
    have hrest := hframe
    rw [framePulses, List.append_assoc, receive_append, receive_preamble hidle₁,
      Option.bind_some] at hrest
    rw [foldl_gpioTx_of_idle Tx.idle rfl]
    simp only [Tx.idle, List.nil_append, List.flatMap_cons, List.flatMap_nil, List.append_nil]
    rw [framePulses, List.append_assoc, receive_append, hmarker, Option.bind_some, hrest]
  · obtain ⟨s₃, made, hrun, hidle₃, hseen⟩ := receive_frames hidle₂ later hlater []
    refine ⟨s₃, made, ?_, hidle₃, hseen⟩
    rw [foldl_gpioTx_of_idle Tx.idle rfl]
    exact hrun

/-- **The receiver resynchronises exactly without pending control pulses.**
After any sequence of pulses, spurious or not, that stays inside the buffer,
some number of correctly transmitted frames puts the receiver back in step if
and only if no control pulse is pending when they begin. -/
theorem resyncs_iff (o i : Int) {noise : List Pulse} {s : Rx} {calls : List Call}
    (hnoise : receive (Rx.idle o i, []) noise = some (s, calls)) :
    s.Resyncs ↔ s.ctlBitsCount = 0 := by
  have hfresh : s.Fresh :=
    receive_invariant (P := Rx.Fresh) (fun _ _ _ => deliver_fresh) (s := (Rx.idle o i, []))
      (fun _ => ⟨rfl, rfl⟩) hnoise
  exact ⟨ctlBitsCount_of_resyncs, resyncs_of_ctlBitsCount hfresh⟩

/-- One spurious data pulse is a bit too many, which the next preamble ends. -/
theorem resyncs_after_data :
    ∃ s calls, receive (Rx.idle 24 17, [])
    [.data] = some (s, calls) ∧ s.dataBitsCount = 1 ∧ s.Resyncs := by
  have hrun : ∃ s calls, receive (Rx.idle 24 17, []) [.data] = some (s, calls) ∧
      s.dataBitsCount = 1 ∧ s.ctlBitsCount = 0 := ⟨_, _, rfl, rfl, rfl⟩
  obtain ⟨s, calls, hnoise, hd, hc⟩ := hrun
  exact ⟨s, calls, hnoise, hd, (resyncs_iff 24 17 hnoise).mpr hc⟩

/-- One spurious control pulse is enough to lose the receiver for good. -/
theorem not_resyncs_after_ctl :
    ∃ s calls, receive (Rx.idle 24 17, []) [.ctl] = some (s, calls) ∧ ¬ s.Resyncs := by
  refine ⟨_, _, rfl, fun h => ?_⟩
  cases ctlBitsCount_of_resyncs h

end Linuxyz.Gpio
