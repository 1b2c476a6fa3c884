import Linuxyz.Lib.Buffer
import Linuxyz.Lib.Ethernet

/-!
# Linuxyz.Firewall.Xdp

The XDP firewall: `firewall_prog`, and the verdict that an IPv4/TCP frame should get.

The program looks for the TCP header behind the 20 bytes of `struct iphdr`.  The wire
format has it behind `ihl` words, so that for a header with options the program takes two
bytes of the options for the port.
-/

namespace Linuxyz.Firewall

open Buffer

inductive XdpAction where
  | drop
  | pass
deriving DecidableEq, Repr

/-! ## the program -/

def protoIp : Nat := 0x0800

def ipprotoTcp : UInt8 := 6

/-- `sizeof(struct ethhdr)` and `sizeof(struct tcphdr)`; `headersLen` is the length up to
the end of `struct iphdr`. -/
def ethhdrLen : Nat := 14

def tcphdrLen : Nat := 20

/-- `firewall_prog` on the bytes between `data` and `data_end`, and the map `port_verdict`.
The key is the lower half of `dest_port`. -/
def firewallProg (portVerdict : UInt16 → Option UInt16) (data : List UInt8) : XdpAction :=
  if data.length < ethhdrLen then .drop
  else if be16 data 12 ≠ protoIp then .pass
  else if data.length < headersLen then .drop
  else if data.getD (ethhdrLen + 9) 0 ≠ ipprotoTcp then .pass
  else if data.length < headersLen + tcphdrLen then .drop
  else
    let destPort := be16 data (headersLen + 2)
    match portVerdict (UInt16.ofNat destPort) with
    | none => .pass
    | some verdict =>
        if verdict = 1 then .pass
        else if verdict = 0 then .drop
        else .pass

/-! ## the wire format -/

/-- The length of the IPv4 header in words. -/
def ihl (frame : List UInt8) : Nat := (frame.getD ethhdrLen 0).toNat % 16

/-- An Ethernet frame with an IPv4/TCP packet that is complete and no fragment. -/
structure Ipv4Tcp (frame : List UInt8) : Prop where
  ethertype : be16 frame 12 = protoIp
  version : (frame.getD ethhdrLen 0).toNat / 16 = 4
  ihl : 5 ≤ ihl frame
  protocol : frame.getD (ethhdrLen + 9) 0 = ipprotoTcp
  unfragmented : be16 frame (ethhdrLen + 6) % 0x4000 = 0
  headers : 4 * Firewall.ihl frame + tcphdrLen ≤ be16 frame (ethhdrLen + 2)
  complete : ethhdrLen + be16 frame (ethhdrLen + 2) ≤ frame.length

/-- The destination port, in the TCP header that starts `tcp` bytes into the frame. -/
def destPort (frame : List UInt8) (tcp : Nat) : UInt16 := UInt16.ofNat (be16 frame (tcp + 2))

/-- Where the TCP header of the frame starts. -/
def tcpOffset (frame : List UInt8) : Nat := ethhdrLen + 4 * ihl frame

/-! ## the verdict -/

variable (portVerdict : UInt16 → Option UInt16)

/-- The program asks for the port of a header without options. -/
theorem firewallProg_eq_drop_iff {frame : List UInt8} (h : Ipv4Tcp frame) :
    firewallProg portVerdict frame = .drop ↔ portVerdict (destPort frame headersLen) = some 0 := by
  have hlen : headersLen + tcphdrLen ≤ frame.length := by
    have hihl := h.ihl
    have hheaders := h.headers
    have hcomplete := h.complete
    have heth : ethhdrLen = 14 := rfl
    rw [headersLen]
    omega
  have heth : ¬frame.length < ethhdrLen := by grind [ethhdrLen, headersLen]
  have hip : ¬frame.length < headersLen := by omega
  have htcp : ¬frame.length < headersLen + tcphdrLen := Nat.not_lt.mpr hlen
  rw [firewallProg, if_neg heth, if_neg (not_not.mpr h.ethertype), if_neg hip,
    if_neg (not_not.mpr h.protocol), if_neg htcp, destPort]
  dsimp only
  cases portVerdict (UInt16.ofNat (be16 frame (headersLen + 2))) with
  | none => exact iff_of_false (by decide) (by decide)
  | some verdict =>
      by_cases hpass : verdict = 1
      · rw [hpass]
        decide
      · by_cases hdrop : verdict = 0
        · rw [hdrop]
          decide
        · simp [hpass, hdrop]

/-- What is not IPv4, or not TCP, passes whatever the map says. -/
theorem firewallProg_of_not_tcp {frame : List UInt8}
    (h : ethhdrLen ≤ frame.length ∧ be16 frame 12 ≠ protoIp ∨
      headersLen ≤ frame.length ∧ frame.getD (ethhdrLen + 9) 0 ≠ ipprotoTcp) :
    firewallProg portVerdict frame = .pass := by
  have heth : ¬frame.length < ethhdrLen := by grind [ethhdrLen, headersLen]
  rw [firewallProg, if_neg heth]
  by_cases hproto : be16 frame 12 ≠ protoIp
  · rw [if_pos hproto]
  · obtain ⟨hlen, htcp⟩ := h.resolve_left fun hip => hproto hip.2
    rw [if_neg hproto, if_neg (Nat.not_lt.mpr hlen), if_pos htcp]

/-- A header without options is where the program looks for it. -/
theorem firewallProg_of_no_options {frame : List UInt8} (h : Ipv4Tcp frame) (hihl : ihl frame = 5) :
    firewallProg portVerdict frame = .drop ↔
      portVerdict (destPort frame (tcpOffset frame)) = some 0 := by
  rw [firewallProg_eq_drop_iff portVerdict h, tcpOffset, hihl]
  exact Iff.rfl

/-! ## options -/

instance decidableIpv4Tcp (frame : List UInt8) : Decidable (Ipv4Tcp frame) :=
  decidable_of_iff (be16 frame 12 = protoIp ∧ (frame.getD ethhdrLen 0).toNat / 16 = 4 ∧
      5 ≤ ihl frame ∧ frame.getD (ethhdrLen + 9) 0 = ipprotoTcp ∧
      be16 frame (ethhdrLen + 6) % 0x4000 = 0 ∧
      4 * ihl frame + tcphdrLen ≤ be16 frame (ethhdrLen + 2) ∧
      ethhdrLen + be16 frame (ethhdrLen + 2) ≤ frame.length)
    ⟨fun ⟨h₁, h₂, h₃, h₄, h₅, h₆, h₇⟩ => ⟨h₁, h₂, h₃, h₄, h₅, h₆, h₇⟩,
      fun ⟨h₁, h₂, h₃, h₄, h₅, h₆, h₇⟩ => ⟨h₁, h₂, h₃, h₄, h₅, h₆, h₇⟩⟩

/-- A frame to port 80 with `words` words of `NOP` options. -/
def frameTo80 (words : Nat) : List UInt8 :=
  List.replicate 12 0 ++ [0x08, 0x00] ++
    [UInt8.ofNat (0x45 + words), 0, 0, UInt8.ofNat (40 + 4 * words), 0, 0, 0x40, 0, 64, 6, 0, 0,
      10, 0, 0, 1, 10, 0, 0, 2] ++ List.replicate (4 * words) 1 ++
    [0x30, 0x39, 0, 80, 0, 0, 0, 0, 0, 0, 0, 0, 0x50, 2, 0x20, 0, 0, 0, 0, 0]

/-- The map after port 80 was blocked. -/
def block80 (port : UInt16) : Option UInt16 := if port = 80 then some 0 else none

/-- With options of any length the frame to the blocked port passes. -/
theorem frameTo80_passes (words : Fin 10) :
    Ipv4Tcp (frameTo80 (words + 1)) ∧ ihl (frameTo80 (words + 1)) = words + 6 ∧
      block80 (destPort (frameTo80 (words + 1)) (tcpOffset (frameTo80 (words + 1)))) = some 0 ∧
      firewallProg block80 (frameTo80 (words + 1)) = .pass := by
  revert words
  decide

/-- **Verdict**: of the legal header lengths, 5 words is the one for which the program, for
every map and every frame with a complete TCP packet, drops exactly the frames whose port
has the verdict 0; for each of the others there are a map and a frame for which it does not.
Every frame that is not IPv4 or not TCP passes. -/
theorem firewall_verdict_iff (n : Nat) (hn : 5 ≤ n) (hmax : n ≤ 15) :
    ((∀ portVerdict frame, Ipv4Tcp frame → ihl frame = n →
        (firewallProg portVerdict frame = .drop ↔
          portVerdict (destPort frame (tcpOffset frame)) = some 0)) ↔ n = 5) ∧
      ∀ portVerdict other, ethhdrLen ≤ other.length ∧ be16 other 12 ≠ protoIp ∨
          headersLen ≤ other.length ∧ other.getD (ethhdrLen + 9) 0 ≠ ipprotoTcp →
        firewallProg portVerdict other = .pass := by
  refine ⟨⟨fun hright => ?_, ?_⟩, fun portVerdict other => firewallProg_of_not_tcp portVerdict⟩
  · by_contra hne
    obtain ⟨words, rfl⟩ : ∃ words : Fin 10, n = words + 6 := ⟨⟨n - 6, by omega⟩, by simp; omega⟩
    obtain ⟨hframe, hihl, hblocked, hpass⟩ := frameTo80_passes words
    have hdrop := (hright block80 _ hframe hihl).mpr hblocked
    rw [hpass] at hdrop
    cases hdrop
  · rintro rfl portVerdict frame hframe hihl
    exact firewallProg_of_no_options portVerdict hframe hihl

/-- A frame without options to the blocked port. -/
theorem firewall_verdict_blocked :
    firewallProg block80 (frameTo80 0) = .drop ↔
      block80 (destPort (frameTo80 0) (tcpOffset (frameTo80 0))) = some 0 :=
  (firewall_verdict_iff 5 (by decide) (by decide)).1.mpr rfl block80 _ (by decide) (by decide)

/-- With one word of options the first two `NOP` options are looked up as port 257, and the
frame to the blocked port passes; so it does with every other number of words. -/
theorem firewall_verdict_options :
    (Ipv4Tcp (frameTo80 1) ∧ ihl (frameTo80 1) = 6 ∧
      block80 (destPort (frameTo80 1) (tcpOffset (frameTo80 1))) = some 0 ∧
      destPort (frameTo80 1) headersLen = 257 ∧ firewallProg block80 (frameTo80 1) = .pass) ∧
    ∀ words : Fin 10, Ipv4Tcp (frameTo80 (words + 1)) ∧ ihl (frameTo80 (words + 1)) = words + 6 ∧
      block80 (destPort (frameTo80 (words + 1)) (tcpOffset (frameTo80 (words + 1)))) = some 0 ∧
      firewallProg block80 (frameTo80 (words + 1)) = .pass :=
  ⟨by decide, frameTo80_passes⟩

end Linuxyz.Firewall
