import Linuxyz.Xdp.Parse

/-!
# Linuxyz.Xdp.BlockPort

`xdp_block_port_func` of `xdp_packet_block.c`: TCP packets to port 9999 are dropped and
counted, and UDP packets get their destination port decremented, with the checksum
adapted in place.

The program looks at the first two VLAN tags, at the protocol of the IP header and at what
stands directly behind it.  It does not look at the fragment offset or the total length,
and takes an IPv6 extension header for no TCP or UDP.  So what is dropped is what reads as a
TCP header with port 9999 there (`xdp_block_port_drops_iff`): a later fragment or the
padding of a short packet may read so, and a TCP packet behind an extension header does not.

`check += bpf_htons(1)` adds one to the last byte of the checksum without a carry, so that
after the change of a UDP port it is right only where that byte was not `0xFF` and the port
not 0 (`udp_checksum_kept_iff`); and for TCP, whose port is swapped and swapped back, it is
never right again (`tcp_checksum_broken`).
-/

namespace Linuxyz.Xdp

open Linuxyz.Buffer (toBe16 memcpy overwrite)
open Linuxyz.Checksum (words onesSum words_append words_toBe16)
open Linuxyz.LittleEndian (htons htons_lt)

/-! ## The program -/

inductive XdpAction where
  | aborted
  | drop
  | pass
deriving DecidableEq, Repr

def store16 (data : List UInt8) (pos v : Nat) : Option (List UInt8) :=
  memcpy data pos [UInt8.ofNat v, UInt8.ofNat (v / 256)]

/-- `check += bpf_htons(1)`, twice if the first gives zero -/
def bumpCheck (check : Nat) : Nat :=
  let check := (check + htons 1) % 65536
  if check = 0 then (check + htons 1) % 65536 else check

/-- The branch for UDP; `rxcnt` is the counter in the map. -/
def blockUdp (rxcnt : Nat) (data : List UInt8) (pos : Nat) :
    Option (XdpAction × List UInt8 × Nat) := do
  let (len, _) ← parseUdphdr data pos
  if len < 0 then some (.aborted, data, rxcnt)
  else
    let dest ← load16 data (pos + 2)
    let data ← store16 data (pos + 2) (htons ((htons dest + 65535) % 65536))
    let check ← load16 data (pos + 6)
    let data ← store16 data (pos + 6) (bumpCheck check)
    some (.pass, data, rxcnt)

/-- The branch for TCP. -/
def blockTcp (rxcnt : Nat) (data : List UInt8) (pos : Nat) :
    Option (XdpAction × List UInt8 × Nat) := do
  let (len, _) ← parseTcphdr data pos
  if len < 0 then some (.aborted, data, rxcnt)
  else
    let dest ← load16 data (pos + 2)
    let data ← store16 data (pos + 2) (htons dest)
    let check ← load16 data (pos + 16)
    let data ← store16 data (pos + 16) (bumpCheck check)
    let dest ← load16 data (pos + 2)
    if dest = 9999 then some (.drop, data, rxcnt + 1)
    else
      let data ← store16 data (pos + 2) (htons dest)
      some (.pass, data, rxcnt)

def ethPIp : Nat := 0x0800

def ethPIpv6 : Nat := 0x86DD

def ipprotoTcp : UInt8 := 6

def ipprotoUdp : UInt8 := 17

/-- The part behind the IP header. -/
def blockL4 (rxcnt : Nat) (data : List UInt8) (ipType : Int) (pos : Nat) :
    Option (XdpAction × List UInt8 × Nat) :=
  if ipType = ipprotoUdp.toNat then blockUdp rxcnt data pos
  else if ipType = ipprotoTcp.toNat then blockTcp rxcnt data pos
  else some (.pass, data, rxcnt)

/-- `xdp_block_port_func`: the verdict, the packet and the counter. -/
def xdpBlockPortFunc (rxcnt : Nat) (data : List UInt8) : Option (XdpAction × List UInt8 × Nat) := do
  let (ethType, pos) ← parseEthhdr data 0
  if ethType < 0 then some (.aborted, data, rxcnt)
  else if ethType = htons ethPIp then do
    let (ipType, pos) ← parseIphdr data pos
    blockL4 rxcnt data ipType pos
  else if ethType = htons ethPIpv6 then do
    let (ipType, pos) ← parseIp6hdr data pos
    blockL4 rxcnt data ipType pos
  else some (.pass, data, rxcnt)

/-! ## Stores -/

/-- A store to a halfword that stands in a packet. -/
theorem store16_append {front rest : List UInt8} {n v pos : Nat} (hpos : pos = front.length)
    (hv : v < 65536) :
    store16 (front ++ (toBe16 n ++ rest)) pos (htons v) = some (front ++ (toBe16 v ++ rest)) := by
  subst hpos
  obtain ⟨hi, lo, hhi, hlo, rfl⟩ := exists_bytes hv
  have hmod : ∀ n m : Nat, UInt8.ofNat (n * 256 + m) = UInt8.ofNat m := fun n m => by
    apply UInt8.toNat_inj.mp
    rw [UInt8.toNat_ofNat', UInt8.toNat_ofNat']
    omega
  have hbytes : [UInt8.ofNat (htons (hi * 256 + lo)), UInt8.ofNat (htons (hi * 256 + lo) / 256)] =
      toBe16 (hi * 256 + lo) := by
    rw [htons_bytes hhi hlo, toBe16, bytes_div hhi, bytes_div hlo, hmod lo hi, hmod hi lo]
  rw [store16, hbytes, Buffer.memcpy_eq_some (by simp), overwrite]
  simp [toBe16]

/-- What `check += bpf_htons(1)` does to a checksum as it stands on the wire. -/
def bumped (check : Nat) : Nat :=
  if check % 256 = 255 then (if check = 255 then 1 else check - 255) else check + 1

theorem bumped_lt {check : Nat} (h : check < 65536) : bumped check < 65536 := by
  unfold bumped
  split
  · split <;> omega
  · omega

/-- The change of the checksum: one more, or without the carry 255 or 254 less. -/
theorem bumped_cases (check : Nat) :
    check % 256 ≠ 255 ∧ bumped check = check + 1 ∨
      check % 256 = 255 ∧ (bumped check + 255 = check ∨ bumped check + 254 = check) := by
  unfold bumped
  split
  · split <;> omega
  · omega

/-- The increment in network order is one of the last byte. -/
theorem bumpCheck_htons {check : Nat} (h : check < 65536) :
    bumpCheck (htons check) = htons (bumped check) := by
  obtain ⟨hi, lo, hhi, hlo, rfl⟩ := exists_bytes h
  have hone : htons 1 = 256 := rfl
  rw [htons_bytes hhi hlo]
  by_cases hff : lo = 255
  · by_cases hzero : hi = 0
    · subst hff hzero
      rfl
    · have hbumped : bumped (hi * 256 + lo) = hi * 256 + 0 := by
        rw [bumped, if_pos (by omega), if_neg (by omega)]
        omega
      have hsum : (lo * 256 + hi + 256) % 65536 = hi := by omega
      simp only [bumpCheck, hone, hsum, if_neg hzero]
      rw [hbumped, htons_bytes hhi (by omega), Nat.zero_mul, Nat.zero_add]
  · have hbumped : bumped (hi * 256 + lo) = hi * 256 + (lo + 1) := by
      rw [bumped, if_neg (by omega), Nat.add_assoc]
    have hsum : (lo * 256 + hi + 256) % 65536 = (lo + 1) * 256 + hi := by omega
    simp only [bumpCheck, hone, hsum]
    rw [if_neg (by omega), hbumped, htons_bytes hhi (by omega)]

/-! ## The branches -/

/-- The UDP header after the program. -/
def UdpHeader.moved (h : UdpHeader) : UdpHeader :=
  { h with
    dest := (h.dest + 65535) % 65536
    check := bumped h.check
    dest_lt := Nat.mod_lt _ (by decide)
    check_lt := bumped_lt h.check_lt }

/-- The TCP header after the program has let it pass. -/
def TcpHeader.touched (h : TcpHeader) : TcpHeader :=
  { h with check := bumped h.check, check_lt := bumped_lt h.check_lt }

-- stated for arbitrary fields: in those of `moved` the kernel would count down from 65535
theorem UdpHeader.fields_mk (source dest len check : Nat) (h₁ : source < 65536) (h₂ : dest < 65536)
    (h₃ : len < 65536) (h₄ : check < 65536) (h₅ : 8 ≤ len) :
    let h := UdpHeader.mk source dest len check h₁ h₂ h₃ h₄ h₅
    h.source = source ∧ h.dest = dest ∧ h.len = len ∧ h.check = check :=
  ⟨rfl, rfl, rfl, rfl⟩

theorem UdpHeader.moved_fields (h : UdpHeader) :
    h.moved.source = h.source ∧ h.moved.dest = (h.dest + 65535) % 65536 ∧ h.moved.len = h.len ∧
      h.moved.check = bumped h.check :=
  UdpHeader.fields_mk ..

/-- A UDP packet, with its two fields that change. -/
theorem udp_packet (front rest : List UInt8) (source dest len check : Nat) :
    front ++ (toBe16 source ++ (toBe16 dest ++ (toBe16 len ++ toBe16 check)) ++ rest) =
        (front ++ toBe16 source) ++ (toBe16 dest ++ (toBe16 len ++ (toBe16 check ++ rest))) ∧
      (front ++ toBe16 source) ++ (toBe16 dest ++ (toBe16 len ++ (toBe16 check ++ rest))) =
        (front ++ toBe16 source ++ toBe16 dest ++ toBe16 len) ++ (toBe16 check ++ rest) := by
  simp

/-- The branch for UDP on a packet with a UDP header there. -/
theorem blockUdp_append (rxcnt : Nat) (front rest : List UInt8) (h : UdpHeader) :
    blockUdp rxcnt (front ++ (h.bytes ++ rest)) front.length =
      some (.pass, front ++ (h.moved.bytes ++ rest), rxcnt) := by
  have hmin := h.min
  have hlt : (h.dest + 65535) % 65536 < 65536 := Nat.mod_lt _ (by decide)
  have hbytes : h.moved.bytes =
      toBe16 h.source ++ (toBe16 ((h.dest + 65535) % 65536) ++
        (toBe16 h.len ++ toBe16 (bumped h.check))) := by
    obtain ⟨hsource, hdest, hlen, hcheck⟩ := h.moved_fields
    rw [UdpHeader.bytes, hsource, hdest, hlen, hcheck]
  rw [blockUdp, parseUdphdr_append]
  simp only [Option.bind_eq_bind, Option.bind_some]
  rw [if_neg (by omega), UdpHeader.bytes, (udp_packet ..).1, load16_append (by simp)]
  simp only [Option.bind_some]
  rw [htons_htons h.dest_lt, store16_append (by simp) hlt]
  simp only [Option.bind_some]
  rw [(udp_packet ..).2, load16_append (by simp)]
  simp only [Option.bind_some]
  rw [bumpCheck_htons h.check_lt, store16_append (by simp) (bumped_lt h.check_lt)]
  simp only [Option.bind_some]
  rw [hbytes, (udp_packet ..).1, (udp_packet ..).2]

/-- A TCP packet, with its two fields that change. -/
theorem tcp_packet (front rest middle options : List UInt8) (source dest check : Nat) :
    front ++ (toBe16 source ++ (toBe16 dest ++ (middle ++ (toBe16 check ++ options))) ++ rest) =
        (front ++ toBe16 source) ++ (toBe16 dest ++
          (middle ++ (toBe16 check ++ (options ++ rest)))) ∧
      (front ++ toBe16 source) ++ (toBe16 dest ++ (middle ++ (toBe16 check ++ (options ++ rest)))) =
        (front ++ toBe16 source ++ toBe16 dest ++ middle) ++
          (toBe16 check ++ (options ++ rest)) := by
  simp

/-- The TCP branch: the checksum is changed, and the port is swapped, compared and, if the
packet passes, swapped back. -/
theorem blockTcp_append (rxcnt : Nat) (front rest : List UInt8) (h : TcpHeader) :
    blockTcp rxcnt (front ++ (h.bytes ++ rest)) front.length =
      if h.dest = 9999 then
        some (.drop, (front ++ toBe16 h.source ++ toBe16 (htons h.dest) ++ h.middle) ++
          (toBe16 (bumped h.check) ++ (h.options ++ rest)), rxcnt + 1)
      else some (.pass, front ++ (h.touched.bytes ++ rest), rxcnt) := by
  have hmin := h.min
  have hbytes : h.touched.bytes =
      toBe16 h.source ++ (toBe16 h.dest ++
        (h.middle ++ (toBe16 (bumped h.check) ++ h.options))) := by
    simp only [TcpHeader.bytes, TcpHeader.touched]
  rw [blockTcp, parseTcphdr_append]
  simp only [Option.bind_eq_bind, Option.bind_some]
  rw [if_neg (by omega), TcpHeader.bytes, (tcp_packet ..).1, load16_append (by simp)]
  simp only [Option.bind_some]
  rw [store16_append (by simp) (htons_lt h.dest)]
  simp only [Option.bind_some]
  rw [(tcp_packet ..).2, load16_append (by simp [h.middle_length])]
  simp only [Option.bind_some]
  rw [bumpCheck_htons h.check_lt, store16_append (by simp [h.middle_length]) (bumped_lt h.check_lt)]
  simp only [Option.bind_some]
  rw [← (tcp_packet ..).2, load16_append (by simp)]
  simp only [Option.bind_some, htons_htons h.dest_lt]
  rw [store16_append (by simp) h.dest_lt, hbytes, (tcp_packet ..).1]
  rfl

/-! ## Packets -/

/-- An IP header behind the Ethernet type that announces it. -/
inductive IpHeader : Nat → List UInt8 → UInt8 → Prop where
  | v4 {ip : List UInt8} {protocol : UInt8} : Ipv4Header ip protocol → IpHeader ethPIp ip protocol
  | v6 {ip : List UInt8} {nexthdr : UInt8} : Ipv6Header ip nexthdr → IpHeader ethPIpv6 ip nexthdr

/-- Packets that begin with `front` have at most two tags and an IPv4 header with this
protocol, or an IPv6 header with this next header, and so no extension header. -/
def Carries (protocol : UInt8) (front : List UInt8) : Prop :=
  ∃ (macs : List UInt8) (tags : List Tag) (type : Nat) (ip : List UInt8), macs.length = 12 ∧
    tags.length ≤ vlanMaxDepth ∧ IpHeader type ip protocol ∧ front = ethernet macs tags type ++ ip

/-- The program gets to what is behind the IP header. -/
theorem xdpBlockPortFunc_of_carries (rxcnt : Nat) {protocol : UInt8} {front : List UInt8}
    (h : Carries protocol front) (payload : List UInt8) :
    xdpBlockPortFunc rxcnt (front ++ payload) =
      blockL4 rxcnt (front ++ payload) protocol.toNat front.length := by
  obtain ⟨macs, tags, type, ip, hmacs, htags, hip, rfl⟩ := h
  have htype : type < 65536 ∧ ¬IsVlanType type := by
    cases hip with
    | v4 => decide
    | v6 => decide
  rw [List.append_assoc, List.length_append, xdpBlockPortFunc, parseEthhdr,
    parseEthhdrVlan_ethernet hmacs htags htype.1 htype.2]
  simp only [Option.bind_eq_bind, Option.bind_some]
  rw [if_neg (by omega)]
  cases hip with
  | v4 hip =>
      rw [if_pos rfl, parseIphdr_append hip]
      rfl
  | v6 hip =>
      rw [if_neg (by decide), if_pos rfl, parseIp6hdr_append hip]
      rfl

/-- Without an IP header the program changes nothing and does not drop. -/
theorem xdpBlockPortFunc_cases (rxcnt : Nat) (data : List UInt8) :
    (∃ protocol front payload, Carries protocol front ∧ data = front ++ payload) ∨
      ∃ action, action ≠ .drop ∧ xdpBlockPortFunc rxcnt data = some (action, data, rxcnt) := by
  by_cases hshort : data.length < 14
  · refine .inr ⟨.aborted, by decide, ?_⟩
    rw [xdpBlockPortFunc, parseEthhdr, parseEthhdrVlan, if_pos (by omega)]
    rfl
  obtain ⟨macs, tags, type, rest, hmacs, htags, htype, rfl, hparse⟩ :=
    parseEthhdrVlan_sound (Nat.not_lt.mp hshort)
  have hswap : ∀ n < 65536, ((htons type : Int) = htons n ↔ type = n) := fun n hn => by
    rw [Int.ofNat_inj]
    exact htons_inj htype hn
  rw [xdpBlockPortFunc, parseEthhdr, hparse]
  simp only [Option.bind_eq_bind, Option.bind_some, hswap ethPIp (by decide),
    hswap ethPIpv6 (by decide)]
  rw [if_neg (by omega)]
  by_cases hv4 : type = ethPIp
  · rcases parseIphdr_sound (ethernet macs tags type) rest with ⟨ip, protocol, payload, rfl, hip⟩ |
      hfail
    · exact .inl ⟨protocol, _, payload, ⟨macs, tags, type, ip, hmacs, htags, hv4 ▸ .v4 hip, rfl⟩,
        (List.append_assoc ..).symm⟩
    · exact .inr ⟨.pass, by decide, by rw [if_pos hv4, hfail]; rfl⟩
  by_cases hv6 : type = ethPIpv6
  · rcases parseIp6hdr_sound (ethernet macs tags type) rest with ⟨ip, nexthdr, payload, rfl, hip⟩ |
      hfail
    · exact .inl ⟨nexthdr, _, payload, ⟨macs, tags, type, ip, hmacs, htags, hv6 ▸ .v6 hip, rfl⟩,
        (List.append_assoc ..).symm⟩
    · exact .inr ⟨.pass, by decide, by rw [if_neg hv4, if_pos hv6, hfail]; rfl⟩
  · exact .inr ⟨.pass, by decide, by rw [if_neg hv4, if_neg hv6]⟩

/-! ## What is dropped -/

/-- What stands behind the IP header reads as a TCP header with the blocked port.  Whether it
is one is left open: the fragment offset and the total length of the packet are not asked. -/
def ReadsBlockedPort (data : List UInt8) : Prop :=
  ∃ (front : List UInt8) (h : TcpHeader) (payload : List UInt8), Carries ipprotoTcp front ∧
    h.dest = 9999 ∧ data = front ++ (h.bytes ++ payload)

theorem drop_of_readsBlockedPort (rxcnt : Nat) {data : List UInt8} (h : ReadsBlockedPort data) :
    ∃ data', xdpBlockPortFunc rxcnt data = some (.drop, data', rxcnt + 1) ∧
      data'.length = data.length := by
  obtain ⟨front, h, payload, hcarries, hdest, rfl⟩ := h
  refine ⟨_,
    by rw [xdpBlockPortFunc_of_carries rxcnt hcarries, blockL4, if_neg (by decide), if_pos rfl,
      blockTcp_append, if_pos hdest], ?_⟩
  simp [TcpHeader.bytes]

/-- A packet that is not dropped. -/
theorem kept_of_not_drop {rxcnt : Nat} {data data' : List UInt8} {action : XdpAction}
    (h : xdpBlockPortFunc rxcnt data = some (action, data', rxcnt))
    (hlen : data'.length = data.length) (hne : action ≠ .drop) :
    ∃ action data' rxcnt', xdpBlockPortFunc rxcnt data = some (action, data', rxcnt') ∧
      data'.length = data.length ∧
      (action = .drop ↔ ReadsBlockedPort data) ∧ rxcnt' = if action = .drop then
        rxcnt + 1 else rxcnt := by
  refine ⟨action, data', rxcnt, h, hlen, iff_of_false hne fun hblocked => ?_, by rw [if_neg hne]⟩
  obtain ⟨_, hdrop, -⟩ := drop_of_readsBlockedPort rxcnt hblocked
  rw [h] at hdrop
  cases hdrop

/-- **What is dropped.**  For every packet the program stays inside of it and keeps its
length, it drops the packet exactly if behind at most two VLAN tags and an IP header for TCP
it reads as a TCP header with port 9999, and it counts exactly what it drops. -/
theorem xdp_block_port_drops_iff (rxcnt : Nat) (data : List UInt8) :
    ∃ action data' rxcnt', xdpBlockPortFunc rxcnt data = some (action, data', rxcnt') ∧
      data'.length = data.length ∧
      (action = .drop ↔ ReadsBlockedPort data) ∧ rxcnt' = if action = .drop then
        rxcnt + 1 else rxcnt := by
  rcases xdpBlockPortFunc_cases rxcnt data with ⟨protocol, front, payload, hcarries, rfl⟩ |
    ⟨action, hne, hfunc⟩
  swap
  · exact kept_of_not_drop hfunc rfl hne
  have hfunc := xdpBlockPortFunc_of_carries rxcnt hcarries payload
  rw [blockL4] at hfunc
  by_cases hudp : protocol = ipprotoUdp
  · subst hudp
    rw [if_pos rfl] at hfunc
    rcases parseUdphdr_sound front payload with ⟨h, rest, rfl⟩ | ⟨pos, hfail⟩
    · rw [blockUdp_append] at hfunc
      exact kept_of_not_drop hfunc (by simp [UdpHeader.length_bytes]) (by decide)
    · rw [blockUdp, hfail] at hfunc
      exact kept_of_not_drop hfunc rfl (by decide)
  by_cases htcp : protocol = ipprotoTcp
  · subst htcp
    rw [if_neg (by decide), if_pos rfl] at hfunc
    rcases parseTcphdr_sound front payload with ⟨h, rest, rfl⟩ | hfail
    · by_cases hdest : h.dest = 9999
      · have hblocked : ReadsBlockedPort (front ++ (h.bytes ++ rest)) :=
          ⟨front, h, rest, hcarries, hdest, rfl⟩
        obtain ⟨data', hdrop, hlen⟩ := drop_of_readsBlockedPort rxcnt hblocked
        exact ⟨.drop, data', rxcnt + 1, hdrop, hlen, iff_of_true rfl hblocked, rfl⟩
      · rw [blockTcp_append, if_neg hdest] at hfunc
        exact kept_of_not_drop hfunc (by simp [TcpHeader.length_bytes, TcpHeader.touched])
          (by decide)
    · rw [blockTcp, hfail] at hfunc
      exact kept_of_not_drop hfunc rfl (by decide)
  · have hne : ∀ p : UInt8, protocol ≠ p → (protocol.toNat : Int) ≠ p.toNat := fun p hp heq =>
      hp (UInt8.toNat_inj.mp (Int.ofNat_inj.mp heq))
    rw [if_neg (hne _ hudp), if_neg (hne _ htcp)] at hfunc
    exact kept_of_not_drop hfunc rfl (by decide)

/-- A later fragment whose bytes read as a header with port 9999 is dropped. -/
example : (xdpBlockPortFunc 0 (ethernet (List.replicate 12 0) [] ethPIp ++
    [0x45, 0, 0, 40, 0, 0, 0, 1, 64, 6, 0, 0, 10, 0, 0, 1, 10, 0, 0, 2] ++
    [0, 0, 0x27, 0x0F, 0, 0, 0, 0, 0, 0, 0, 0, 0x50, 0, 0, 0, 0, 0, 0, 0])).map Prod.fst =
    some .drop := by
  decide

/-- A TCP packet to port 9999 behind a hop-by-hop header passes. -/
example : (xdpBlockPortFunc 0 (ethernet (List.replicate 12 0) [] ethPIpv6 ++
    ([0x60, 0, 0, 0, 0, 28, 0, 64] ++ List.replicate 32 0) ++ [6, 0, 1, 4, 0, 0, 0, 0] ++
    [0, 0, 0x27, 0x0F, 0, 0, 0, 0, 0, 0, 0, 0, 0x50, 0, 0, 0, 0, 0, 0, 0])).map Prod.fst =
    some .pass := by
  decide

/-! ## Checksums -/

/-- A byte string verifies if its words sum to a multiple of `65535` that is not zero. -/
theorem onesSum_eq_iff (bs : List UInt8) :
    onesSum bs = 65535 ↔ (words bs).sum % 65535 = 0 ∧ (words bs).sum ≠ 0 := by
  have hle := Checksum.onesSum_le bs
  have hmod := Checksum.sumFrom_mod 0 (words bs)
  have hzero := @Checksum.sumFrom_eq_zero_iff 0 (words bs)
  unfold onesSum at hle ⊢
  omega

/-- The words of a UDP segment behind its pseudo-header. -/
theorem UdpHeader.sum_words (h : UdpHeader) {pseudo : List UInt8} (heven : 2 ∣ pseudo.length)
    (payload : List UInt8) :
    (words (pseudo ++ h.bytes ++ payload)).sum =
      (words pseudo).sum + h.source + h.dest + h.len + h.check + (words payload).sum := by
  have hsource := h.source_lt
  have hdest := h.dest_lt
  have hlen := h.len_lt
  have hcheck := h.check_lt
  rw [List.append_assoc, words_append _ _ heven, words_append _ _ (by rw [h.length_bytes]; decide),
    UdpHeader.bytes, words_append _ _ (by simp), words_append _ _ (by simp),
    words_append _ _ (by simp), words_toBe16 (by omega), words_toBe16 (by omega),
    words_toBe16 (by omega), words_toBe16 (by omega)]
  simp only [List.sum_append, List.sum_singleton]
  omega

/-- The words of a TCP segment behind its pseudo-header. -/
theorem TcpHeader.sum_words (h : TcpHeader) {pseudo : List UInt8} (heven : 2 ∣ pseudo.length)
    (payload : List UInt8) :
    (words (pseudo ++ h.bytes ++ payload)).sum =
      (words pseudo).sum + h.source + h.dest + (words h.middle).sum + h.check +
        (words (h.options ++ payload)).sum := by
  have hsource := h.source_lt
  have hdest := h.dest_lt
  have hcheck := h.check_lt
  have hbytes : pseudo ++ h.bytes ++ payload =
      pseudo ++
        (toBe16 h.source ++ (toBe16 h.dest ++
          (h.middle ++ (toBe16 h.check ++ (h.options ++ payload))))) := by
    simp [TcpHeader.bytes]
  rw [hbytes, words_append _ _ heven, words_append _ _ (by simp), words_append _ _ (by simp),
    words_append _ _ (by rw [h.middle_length]; decide), words_append _ _ (by simp),
    words_toBe16 (by omega), words_toBe16 (by omega), words_toBe16 (by omega)]
  simp only [List.sum_append, List.sum_singleton]
  omega

/-- **UDP.**  A UDP header directly behind at most two tags and the IP header passes with its
port decremented, and a checksum that was right is right afterwards if and only if its last
byte was not `0xFF` and the port was not 0. -/
theorem udp_checksum_kept_iff (rxcnt : Nat) {front : List UInt8}
    (hcarries : Carries ipprotoUdp front) (h : UdpHeader) (payload : List UInt8) :
    xdpBlockPortFunc rxcnt (front ++ (h.bytes ++ payload)) =
      some (.pass, front ++ (h.moved.bytes ++ payload), rxcnt) ∧
      ∀ pseudo segment : List UInt8, 2 ∣ pseudo.length →
        onesSum (pseudo ++ h.bytes ++ segment) = 65535 →
        (onesSum (pseudo ++ h.moved.bytes ++ segment) = 65535 ↔ h.dest ≠ 0 ∧
          h.check % 256 ≠ 255) := by
  constructor
  · rw [xdpBlockPortFunc_of_carries rxcnt hcarries, blockL4, if_pos rfl, blockUdp_append]
  · intro pseudo segment heven hvalid
    rw [onesSum_eq_iff, h.sum_words heven] at hvalid
    rw [onesSum_eq_iff, h.moved.sum_words heven]
    have hdest := h.dest_lt
    have hcheck := h.check_lt
    have hport : (h.dest + 65535) % 65536 = if h.dest = 0 then 65535 else h.dest - 1 := by
      split <;> omega
    have hbump := bumped_cases h.check
    obtain ⟨hsource, hmoved, hlen, hbumped⟩ := h.moved_fields
    rw [hsource, hmoved, hlen, hbumped, hport]
    split <;> omega

/-- An Ethernet and an IPv4 header, from 10.0.0.1 to 10.0.0.2. -/
def frontTo2 (protocol : UInt8) : List UInt8 :=
  ethernet (List.replicate 12 0) [] ethPIp ++
    [0x45, 0, 0, 28, 0, 0, 0x40, 0, 64, protocol, 0, 0, 10, 0, 0, 1, 10, 0, 0, 2]

theorem carries_frontTo2 (protocol : UInt8) : Carries protocol (frontTo2 protocol) :=
  ⟨List.replicate 12 0, [], ethPIp, _, rfl, by decide, .v4 ⟨Nat.le_refl _, by simp, rfl⟩, rfl⟩

/-- A checksum that ends in `0xFF` is not right afterwards. -/
theorem udp_checksum_lost :
    ∃ h : UdpHeader, onesSum ([10, 0, 0, 1, 10, 0, 0, 2, 0, 17, 0, 8] ++ h.bytes ++ []) = 65535 ∧
      onesSum ([10, 0, 0, 1, 10, 0, 0, 2, 0, 17, 0, 8] ++ h.moved.bytes ++ []) ≠ 65535 := by
  refine ⟨⟨935, 53, 8, 0xE7FF, by decide, by decide, by decide, by decide, by decide⟩,
    by decide, fun hvalid => ?_⟩
  have hkept := (udp_checksum_kept_iff 0 (carries_frontTo2 ipprotoUdp)
    ⟨935, 53, 8, 0xE7FF, by decide, by decide, by decide, by decide, by decide⟩ []).2
    [10, 0, 0, 1, 10, 0, 0, 2, 0, 17, 0, 8] [] (by decide) (by decide)
  exact (hkept.mp hvalid).2 rfl

/-- **TCP.**  A TCP header for another port directly behind at most two tags and the IP header
passes with the same ports, and its checksum, if it was right, is not right any more. -/
theorem tcp_checksum_broken (rxcnt : Nat) {front : List UInt8} (hcarries : Carries ipprotoTcp front)
    (h : TcpHeader) (hdest : h.dest ≠ 9999) (payload : List UInt8) :
    xdpBlockPortFunc rxcnt (front ++ (h.bytes ++ payload)) =
      some (.pass, front ++ (h.touched.bytes ++ payload), rxcnt) ∧
      ∀ pseudo segment : List UInt8, 2 ∣ pseudo.length →
        onesSum (pseudo ++ h.bytes ++ segment) = 65535 →
        onesSum (pseudo ++ h.touched.bytes ++ segment) ≠ 65535 := by
  constructor
  · rw [xdpBlockPortFunc_of_carries rxcnt hcarries, blockL4, if_neg (by decide), if_pos rfl,
      blockTcp_append, if_neg hdest]
  · intro pseudo segment heven hvalid hvalid'
    rw [onesSum_eq_iff, h.sum_words heven] at hvalid
    rw [onesSum_eq_iff, h.touched.sum_words heven] at hvalid'
    have hbump := bumped_cases h.check
    simp only [TcpHeader.touched] at hvalid'
    omega

/-- A segment to port 80. -/
def tcpTo80 : TcpHeader :=
  ⟨935, 80, [0, 0, 0, 1, 0, 0, 0, 0, 0x50, 2, 0x20, 0], 0x77E8, [0, 0], by decide, by decide, rfl,
    by decide, by decide, by decide⟩

theorem tcp_checksum_broken_80 :
    onesSum ([10, 0, 0, 1, 10, 0, 0, 2, 0, 6, 0, 20] ++ tcpTo80.bytes ++ []) = 65535 ∧
      onesSum ([10, 0, 0, 1, 10, 0, 0, 2, 0, 6, 0, 20] ++ tcpTo80.touched.bytes ++ []) ≠ 65535 :=
  ⟨by decide,
    (tcp_checksum_broken 0 (carries_frontTo2 ipprotoTcp) tcpTo80 (by decide) []).2 _ [] (by decide)
    (by decide)⟩

end Linuxyz.Xdp
