/-!
# Linuxyz.Lib.Ethernet

Lengths of Ethernet frames, and the padding of short ones.
-/

namespace Linuxyz

/-- The length of the shortest frame, without its check sequence. -/
def ethZlen : Nat := 60

/-- A short frame is padded with zeros to `ETH_ZLEN` bytes. -/
def padded (data : List UInt8) : List UInt8 :=
  if data.length < ethZlen then data ++ List.replicate (ethZlen - data.length) 0 else data

theorem length_padded (data : List UInt8) : (padded data).length = max data.length ethZlen := by
  unfold padded
  split
  · rw [List.length_append, List.length_replicate]
    omega
  · omega

theorem ethZlen_le_length_padded (data : List UInt8) : ethZlen ≤ (padded data).length := by
  rw [length_padded]
  exact Nat.le_max_right _ _

/-- The lengths of an Ethernet and an IP header. -/
def headersLen : Nat := 34

theorem headersLen_le_length_padded (data : List UInt8) : headersLen ≤ (padded data).length :=
  Nat.le_trans (by decide) (ethZlen_le_length_padded data)

end Linuxyz
