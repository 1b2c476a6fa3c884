import Linuxyz.Lib.LittleEndian

/-!
# Linuxyz.Xsk.Rewrite

`handle_packet` of `af_rxtx.c`: the TCP or UDP checksum of an IPv4 packet is computed
anew and stored, on a little-endian host.

The two checksum functions add the 16-bit words as the machine loads them.
`tcp_checksum` starts with the pseudo-header and adds all carries at the end,
`udp_checksum` ends with it and adds the carries whenever bit 31 is set.  Either way
what is left is congruent to the plain sum of the words modulo `65535` and zero only
if they all are (`Folds`), and that is all that the receiver's test depends on
(`onesSum_of_stored`).
-/

namespace Linuxyz.Xsk.Rewrite

open Linuxyz.Buffer (toBe16)
open Linuxyz.Checksum (leWords leWords_append onesSum onesSum_eq_iff_leWords)
open Linuxyz.LittleEndian

/-! ## The checksum functions -/

/-- `sum += w`; a sum that does not fit into 32 bits is `none`. -/
def add32 (sum w : Nat) : Option Nat := if sum + w < 2 ^ 32 then some (sum + w) else none

/-- `(sum & 0xFFFF) + (sum >> 16)` -/
def addCarries (sum : Nat) : Nat := sum % 65536 + sum / 65536

/-- `while (sum >> 16)` with the carries added in each turn; a loop that is not over by
then is `none`. -/
def foldCarries : Nat → Nat → Option Nat
  | 0, _ => none
  | turns + 1, sum => if sum / 65536 = 0 then some sum else foldCarries turns (addCarries sum)

/-- The loop over the `len` bytes from `buf` on, with what is done to the sum after each
word and with how the last odd byte is read. -/
def sumBuf (carry : Nat → Nat) (odd : Mem → Nat → Nat) (pkt : Mem) : Nat → Nat → Nat → Option Nat
  | 0, _, sum => some sum
  | 1, buf, sum => add32 sum (odd pkt buf)
  | len + 2, buf, sum => do
      let sum ← add32 sum (load16 pkt buf)
      sumBuf carry odd pkt len (buf + 2) (carry sum)

/-- `tcp_checksum`; the odd byte is loaded with the one behind it, and masked. -/
def tcpChecksum (pkt : Mem) (header len srcAddr destAddr : Nat) : Option Nat := do
  let tcplen := htons (len % 65536)
  let sum ← [srcAddr / 65536 % 65536, srcAddr % 65536, destAddr / 65536 % 65536,
      destAddr % 65536, htons 6,
    tcplen].foldlM add32 0
  let sum ← sumBuf id (fun pkt buf => load16 pkt buf &&& htons 0xFF00) pkt len header sum
  let sum ← foldCarries 3 sum
  some (65535 - sum % 65536)

/-- `if (sum & 0x80000000)` the carries are added. -/
def addCarriesAt31 (sum : Nat) : Nat := if sum / 2 ^ 31 % 2 = 1 then addCarries sum else sum

/-- `udp_checksum` -/
def udpChecksum (pkt : Mem) (header len srcAddr destAddr : Nat) : Option Nat := do
  let sum ← sumBuf addCarriesAt31 (fun pkt buf => (pkt buf).toNat) pkt len header 0
  let sum ← [srcAddr % 65536, srcAddr / 65536 % 65536, destAddr % 65536,
      destAddr / 65536 % 65536, htons 17,
    htons (len % 65536)].foldlM add32 sum
  let sum ← foldCarries 3 sum
  some (65535 - sum % 65536)

/-! ## `handle_packet` -/

/-- `handle_packet`, with the memory from `pkt` on: the Ethernet header has 14 bytes and
`struct iphdr` 20.  `pkt_len` is not used. -/
def handlePacket (pkt : Mem) (_pktLen : Nat) : Option (Mem × Nat) :=
  if htons (load16 pkt 12) ≠ 0x0800 then some (pkt, 0)
  else if pkt 23 = 6 then do
    let pkt := store16 pkt (34 + 16) 0
    let tcplen := (((htons (load16 pkt 16) : Int) - (pkt 14).toNat % 16 * 4) % 65536).toNat
    let check ← tcpChecksum pkt 34 tcplen (load32 pkt 26) (load32 pkt 30)
    some (store16 pkt (34 + 16) check, 1)
  else if pkt 23 = 17 then do
    let pkt := store16 pkt (34 + 6) 0
    let check ← udpChecksum pkt 34 (htons (load16 pkt 38)) (load32 pkt 26) (load32 pkt 30)
    some (store16 pkt (34 + 6) check, 1)
  else some (pkt, 1)

/-! ## What a sum stands for -/

/-- `r` has the one's complement value of `total`. -/
def Folds (r total : Nat) : Prop := r % 65535 = total % 65535 ∧ (r = 0 ↔ total = 0)

theorem Folds.refl (n : Nat) : Folds n n := ⟨rfl, Iff.rfl⟩

theorem Folds.trans {a b c : Nat} (h : Folds a b) (h' : Folds b c) : Folds a c :=
  ⟨h.1.trans h'.1, h.2.trans h'.2⟩

theorem Folds.add {a b : Nat} (h : Folds a b) (n : Nat) : Folds (a + n) (b + n) := by
  unfold Folds at *
  omega

theorem folds_addCarries (sum : Nat) : Folds (addCarries sum) sum := by
  unfold Folds addCarries
  omega

theorem folds_addCarriesAt31 (sum : Nat) : Folds (addCarriesAt31 sum) sum := by
  unfold addCarriesAt31
  split
  · exact folds_addCarries sum
  · exact .refl sum

/-- Three tests of the loop are enough for 32 bits. -/
theorem foldCarries_spec {sum : Nat} (h : sum < 2 ^ 32) :
    ∃ r, foldCarries 3 sum = some r ∧ r ≤ 65535 ∧ Folds r sum := by
  have hone := folds_addCarries sum
  have htwo := folds_addCarries (addCarries sum)
  simp only [foldCarries]
  by_cases h1 : sum / 65536 = 0
  · exact ⟨sum, if_pos h1, by omega, .refl sum⟩
  by_cases h2 : addCarries sum / 65536 = 0
  · exact ⟨addCarries sum, by rw [if_neg h1, if_pos h2], by omega, hone⟩
  · have hlt : addCarries (addCarries sum) ≤ 65535 := by
      unfold addCarries at *
      omega
    exact ⟨addCarries (addCarries sum), by rw [if_neg h1, if_neg h2, if_pos (by omega)], hlt,
      htwo.trans hone⟩

theorem foldlM_add32 {ws : List Nat} {sum : Nat} (h : sum + ws.sum < 2 ^ 32) :
    ws.foldlM add32 sum = some (sum + ws.sum) := by
  induction ws generalizing sum with
  | nil => rfl
  | cons w ws ih =>
      rw [List.sum_cons] at h
      rw [List.foldlM_cons, add32, if_pos (by omega), Option.bind_eq_bind, Option.bind_some,
        ih (by omega), List.sum_cons, Nat.add_assoc]

/-- The loop over the segment, where `bound len` is a bound on the sum with `len` bytes to
go that every turn keeps. -/
theorem sumBuf_spec (carry : Nat → Nat) (odd : Mem → Nat → Nat) (bound : Nat → Nat) (pkt : Mem)
    (hcarry : ∀ sum, Folds (carry sum) sum) (hodd : ∀ buf, odd pkt buf = (pkt buf).toNat)
    (hword : ∀ len sum w, sum < bound (len + 2) → w < 65536 → sum + w < 2 ^ 32 ∧
      carry (sum + w) < bound len)
    (hlast : ∀ sum w, sum < bound 1 → w < 256 → sum + w < 2 ^ 32 ∧ sum + w < bound 0) :
    ∀ (len buf sum : Nat), sum < bound len → ∃ r, sumBuf carry odd pkt len buf sum = some r ∧
      r < bound 0 ∧ Folds r (sum + (leWords (bytesAt pkt buf len)).sum)
  | 0, _, sum, h => ⟨sum, rfl, h, .refl sum⟩
  | 1, buf, sum, h => by
      have hbyte := (pkt buf).toNat_lt
      obtain ⟨hfit, hbound⟩ := hlast sum (pkt buf).toNat h hbyte
      refine ⟨sum + (pkt buf).toNat, ?_, hbound, .refl _⟩
      rw [sumBuf, hodd, add32, if_pos hfit]
  | len + 2, buf, sum, h => by
      obtain ⟨hfit, hbound⟩ := hword len sum (load16 pkt buf) h (load16_lt pkt buf)
      obtain ⟨r, hr, hr0, hfolds⟩ :=
        sumBuf_spec carry odd bound pkt hcarry hodd hword hlast len (buf + 2) _ hbound
      refine ⟨r, ?_, hr0, ?_⟩
      · rw [sumBuf, add32, if_pos hfit, Option.bind_eq_bind, Option.bind_some, hr]
      · rw [leWords_bytesAt, List.sum_cons, ← Nat.add_assoc]
        exact hfolds.trans ((hcarry _).add _)

/-! ## The checksums -/

/-- The words of the pseudo-header. -/
def pseudoSum (pkt : Mem) (protocol len : Nat) : Nat :=
  load16 pkt 26 + load16 pkt 28 + load16 pkt 30 + load16 pkt 32 + 256 * protocol + htons len

/-- The checksum of a segment whose words, with those of the pseudo-header, have the sum
`total`. -/
def IsChecksum (check total : Nat) : Prop := ∃ r, check = 65535 - r ∧ r ≤ 65535 ∧ Folds r total

/-- The last byte of an odd segment is what the mask leaves. -/
theorem load16_and_mask (pkt : Mem) (buf : Nat) :
    load16 pkt buf &&& htons 0xFF00 = (pkt buf).toNat := by
  have hmask : htons 0xFF00 = 2 ^ 8 - 1 := by decide
  have hbyte := (pkt buf).toNat_lt
  rw [hmask, Nat.and_two_pow_sub_one_eq_mod, load16]
  omega

theorem pseudoSum_lt (pkt : Mem) {protocol : Nat} (hproto : protocol < 256) (len : Nat) :
    pseudoSum pkt protocol len < 6 * 65536 := by
  have h26 := load16_lt pkt 26
  have h28 := load16_lt pkt 28
  have h30 := load16_lt pkt 30
  have h32 := load16_lt pkt 32
  have hlen := htons_lt len
  unfold pseudoSum
  omega

/-- `tcp_checksum` adds less than `2 ^ 16` for each word. -/
def tcpBound (len : Nat) : Nat := 2 ^ 32 - 65536 * ((len + 1) / 2)

/-- `udp_checksum` leaves bit 31 clear after each word. -/
def udpBound (len : Nat) : Nat := if len = 0 then 2 ^ 31 + 256 else 2 ^ 31

/-- With the bound one word more never overflows. -/
theorem udpBound_word {len sum w : Nat} (h : sum < udpBound (len + 2)) (hw : w < 65536) :
    sum + w < 2 ^ 32 ∧ addCarriesAt31 (sum + w) < udpBound len := by
  have hle : 2 ^ 31 ≤ udpBound len := by
    unfold udpBound
    split <;> omega
  rw [udpBound, if_neg (by omega)] at h
  refine ⟨by omega, Nat.lt_of_lt_of_le ?_ hle⟩
  unfold addCarriesAt31
  split
  · unfold addCarries
    omega
  · omega

/-- `tcp_checksum` is the checksum of pseudo header and segment, at every length. -/
theorem tcpChecksum_spec (pkt : Mem) (header : Nat) {len : Nat} (hlen : len < 65536) :
    ∃ check, tcpChecksum pkt header len (load32 pkt 26) (load32 pkt 30) = some check ∧
      IsChecksum check (pseudoSum pkt 6 len + (leWords (bytesAt pkt header len)).sum) := by
  have hsmall := pseudoSum_lt pkt (show 6 < 256 by omega) len
  have hpseudo :
      [load32 pkt 26 / 65536 % 65536, load32 pkt 26 % 65536, load32 pkt 30 / 65536 % 65536,
        load32 pkt 30 % 65536, htons 6, htons (len % 65536)].sum = pseudoSum pkt 6 len := by
    simp only [load32_mod, load32_div, Nat.mod_eq_of_lt hlen, List.sum_cons,
      List.sum_nil, pseudoSum, show htons 6 = 256 * 6 from rfl, Nat.reduceAdd]
    omega
  obtain ⟨s, hs, hs0, hfolds⟩ :=
    sumBuf_spec id (fun pkt buf => load16 pkt buf &&& htons 0xFF00) tcpBound pkt
    .refl (load16_and_mask pkt)
    (fun len sum w h hw => by unfold tcpBound at *; simp only [id]; omega)
    (fun sum w h hw => by unfold tcpBound at *; omega) len header (pseudoSum pkt 6 len)
      (by unfold tcpBound; omega)
  obtain ⟨r, hr, hr', hrs⟩ := foldCarries_spec hs0
  refine ⟨65535 - r, ?_, r, rfl, hr', hrs.trans hfolds⟩
  simp only [tcpChecksum]
  rw [foldlM_add32 (by rw [hpseudo]; omega), hpseudo, Nat.zero_add]
  simp only [Option.bind_eq_bind, Option.bind_some, hs, hr]
  rw [Nat.mod_eq_of_lt (by omega)]

/-- `udp_checksum` is the checksum of pseudo header and datagram, at every length. -/
theorem udpChecksum_spec (pkt : Mem) (header : Nat) {len : Nat} (hlen : len < 65536) :
    ∃ check, udpChecksum pkt header len (load32 pkt 26) (load32 pkt 30) = some check ∧
      IsChecksum check (pseudoSum pkt 17 len + (leWords (bytesAt pkt header len)).sum) := by
  have hsmall := pseudoSum_lt pkt (show 17 < 256 by omega) len
  have hpseudo : [load32 pkt 26 % 65536, load32 pkt 26 / 65536 % 65536, load32 pkt 30 % 65536,
      load32 pkt 30 / 65536 % 65536, htons 17, htons (len % 65536)].sum = pseudoSum pkt 17 len := by
    simp only [load32_mod, load32_div, Nat.mod_eq_of_lt hlen, List.sum_cons,
      List.sum_nil, pseudoSum, show htons 17 = 256 * 17 from rfl, Nat.reduceAdd]
    omega
  obtain ⟨s, hs, hs0, hfolds⟩ :=
    sumBuf_spec addCarriesAt31 (fun pkt buf => (pkt buf).toNat) udpBound pkt
    folds_addCarriesAt31 (fun _ => rfl) (fun len sum w h hw => udpBound_word h hw)
    (fun sum w h hw => by
      rw [udpBound] at *
      simp only [if_true, Nat.one_ne_zero, if_false] at *
      omega) len header 0
    (by unfold udpBound; split <;> omega)
  rw [udpBound, if_pos rfl] at hs0
  rw [Nat.zero_add] at hfolds
  obtain ⟨r, hr, hr', hrs⟩ := foldCarries_spec (show s + pseudoSum pkt 17 len < 2 ^ 32 by omega)
  refine ⟨65535 - r, ?_, r, rfl, hr', hrs.trans ?_⟩
  · simp only [udpChecksum, hs, Option.bind_eq_bind, Option.bind_some]
    rw [foldlM_add32 (by rw [hpseudo]; omega), hpseudo]
    simp only [Option.bind_some, hr]
    rw [Nat.mod_eq_of_lt (by omega)]
  · rw [Nat.add_comm (pseudoSum pkt 17 len)]
    exact hfolds.add _

/-! ## The receiver's test -/

/-- The pseudo-header on the wire: the addresses of the IP header, a zero byte, the
protocol and the length of the segment. -/
def pseudoHeader (pkt : Mem) (protocol : UInt8) (len : Nat) : List UInt8 :=
  bytesAt pkt 26 8 ++ [0, protocol] ++ toBe16 len

/-- The pseudo header, word by word. -/
theorem sum_leWords_pseudoHeader (pkt : Mem) (protocol : UInt8) (len : Nat) :
    (leWords (pseudoHeader pkt protocol len)).sum = pseudoSum pkt protocol.toNat len := by
  have hfield : (leWords (toBe16 len)).sum = htons len := by
    simp only [toBe16, leWords, List.sum_cons, List.sum_nil, UInt8.toNat_ofNat', htons]
    omega
  rw [pseudoHeader, leWords_append _ _ (by simp), leWords_append _ _ (by simp), List.sum_append,
    List.sum_append, hfield]
  simp only [bytesAt, leWords, List.sum_cons, List.sum_nil, pseudoSum, load16, Nat.reduceAdd,
    UInt8.toNat_zero]
  omega

/-- A segment with its checksum at an even offset, where zero was, passes the test. -/
theorem onesSum_of_stored {pkt : Mem} {protocol : UInt8} {len k check : Nat} (hproto : protocol ≠ 0)
    (hk : 2 * k + 2 ≤ len) (hzero : load16 pkt (34 + 2 * k) = 0)
    (hcheck : IsChecksum check (pseudoSum pkt protocol.toNat len +
      (leWords (bytesAt pkt 34 len)).sum)) :
    onesSum (pseudoHeader (store16 pkt (34 + 2 * k) check) protocol len ++
      bytesAt (store16 pkt (34 + 2 * k) check) 34 len) = 65535 := by
  obtain ⟨r, rfl, hr, hmod, hnz⟩ := hcheck
  have hstored := @sum_leWords_store16 pkt (65535 - r) (by omega) len 34 k hk
  have hheader : pseudoHeader (store16 pkt (34 + 2 * k) (65535 - r)) protocol len =
      pseudoHeader pkt protocol len := by
    rw [pseudoHeader, pseudoHeader, bytesAt_congr fun i _ hi =>
      store16_of_ne _ (by omega) (by omega)]
  have hsum : (leWords (pseudoHeader (store16 pkt (34 + 2 * k) (65535 - r)) protocol len ++
      bytesAt (store16 pkt (34 + 2 * k) (65535 - r)) 34 len)).sum =
      pseudoSum pkt protocol.toNat len + (leWords (bytesAt pkt 34 len)).sum + (65535 - r) := by
    rw [leWords_append _ _ (by simp [pseudoHeader]), List.sum_append, hheader,
      sum_leWords_pseudoHeader pkt protocol len]
    omega
  have hpos : 0 < pseudoSum pkt protocol.toNat len := by
    have hne : protocol.toNat ≠ 0 := fun h => hproto (UInt8.toNat_inj.mp h)
    unfold pseudoSum
    omega
  rw [onesSum_eq_iff_leWords (by rw [hsum]; omega), hsum]
  omega

/-! ## Packets -/

inductive Proto where
  | tcp
  | udp

namespace Proto

/-- `IPPROTO_TCP`, `IPPROTO_UDP` -/
def number : Proto → UInt8
  | tcp => 6
  | udp => 17

/-- Where `check` stands in the header. -/
def checkAt : Proto → Nat
  | tcp => 16
  | udp => 6

/-- The length of the header. -/
def headerLen : Proto → Nat
  | tcp => 20
  | udp => 8

/-- The length of the segment, as the packet declares it: `tot_len` without the IP header,
or `len` of the UDP header. -/
def segmentLen (pkt : Mem) : Proto → Nat
  | tcp => htons (load16 pkt 16) - 20
  | udp => htons (load16 pkt 38)

end Proto

/-- An Ethernet frame with an IPv4 packet without options, whose segment is not shorter
than its header and lies inside of the frame. -/
structure Ipv4Packet (pkt : Mem) (pktLen : Nat) (p : Proto) : Prop where
  ethertype : pkt 12 = 0x08 ∧ pkt 13 = 0x00
  versionIhl : pkt 14 = 0x45
  protocol : pkt 23 = p.number
  header : p.headerLen ≤ p.segmentLen pkt
  fits : 34 + p.segmentLen pkt ≤ pktLen

theorem Proto.segmentLen_lt (pkt : Mem) (p : Proto) : p.segmentLen pkt < 65536 := by
  have htcp := htons_lt (load16 pkt 16)
  have hudp := htons_lt (load16 pkt 38)
  cases p with
  | tcp =>
      rw [segmentLen]
      omega
  | udp => exact hudp

/-- The length does not depend on the checksum. -/
theorem Proto.segmentLen_store16 (pkt : Mem) (p q : Proto) (v : Nat) :
    p.segmentLen (store16 pkt (34 + q.checkAt) v) = p.segmentLen pkt := by
  have h16 : load16 (store16 pkt (34 + q.checkAt) v) 16 = load16 pkt 16 :=
    load16_store16_of_apart v (.inr (by omega))
  have h38 : load16 (store16 pkt (34 + q.checkAt) v) 38 = load16 pkt 38 :=
    load16_store16_of_apart v (.inr (by cases q <;> simp [checkAt]))
  cases p with
  | tcp => rw [segmentLen, segmentLen, h16]
  | udp => rw [segmentLen, segmentLen, h38]

/-- What `handle_packet` does to such a packet. -/
theorem handlePacket_eq {pkt : Mem} {pktLen : Nat} {p : Proto} (h : Ipv4Packet pkt pktLen p) :
    ∃ check, handlePacket pkt pktLen =
      some (store16 (store16 pkt (34 + p.checkAt) 0) (34 + p.checkAt) check, 1) ∧
      IsChecksum check (pseudoSum (store16 pkt (34 + p.checkAt) 0) p.number.toNat
        (p.segmentLen pkt) +
        (leWords (bytesAt (store16 pkt (34 + p.checkAt) 0) 34 (p.segmentLen pkt))).sum) := by
  have hlt := p.segmentLen_lt pkt
  have heth : ¬htons (load16 pkt 12) ≠ 0x0800 := by
    rw [load16, h.ethertype.1, h.ethertype.2]
    decide
  rw [handlePacket, if_neg heth]
  cases p with
  | tcp =>
      have hproto : pkt 23 = 6 := h.protocol
      have hheader : 20 ≤ htons (load16 pkt 16) - 20 := h.header
      have hihl : store16 pkt (34 + 16) 0 14 = 0x45 := by
        rw [store16_of_ne 0 (by omega) (by omega), h.versionIhl]
      have htot : load16 (store16 pkt (34 + 16) 0) 16 = load16 pkt 16 :=
        load16_store16_of_apart 0 (.inr (by omega))
      have htcplen :
          (((htons (load16 pkt 16) : Int) - (0x45 : UInt8).toNat % 16 * 4) % 65536).toNat =
          Proto.tcp.segmentLen pkt := by
        have hmax := htons_lt (load16 pkt 16)
        have hnib : (0x45 : UInt8).toNat % 16 * 4 = 20 := by decide
        rw [Proto.segmentLen]
        omega
      obtain ⟨check, hcheck, his⟩ := tcpChecksum_spec (store16 pkt (34 + 16) 0) 34 hlt
      refine ⟨check, ?_, his⟩
      simp only [if_pos hproto, hihl, htot, htcplen, hcheck, Option.bind_eq_bind, Option.bind_some]
      rfl
  | udp =>
      have hproto : pkt 23 = 17 := h.protocol
      have hne : ¬pkt 23 = 6 := by rw [hproto]; decide
      have hlen : htons (load16 (store16 pkt (34 + 6) 0) 38) = Proto.udp.segmentLen pkt := by
        rw [load16_store16_of_apart 0 (.inr (by omega)), Proto.segmentLen]
      obtain ⟨check, hcheck, his⟩ := udpChecksum_spec (store16 pkt (34 + 6) 0) 34 hlt
      refine ⟨check, ?_, his⟩
      simp only [if_neg hne, if_pos hproto, hlen, hcheck, Option.bind_eq_bind, Option.bind_some]
      rfl

/-- **The rewritten checksum is right**: no sum of `handle_packet` leaves 32 bits, the
pseudo-header and the segment of the packet it leaves sum to `0xFFFF`, and no byte but
the two of the checksum has changed. -/
theorem l4_checksum_rewritten {pkt : Mem} {pktLen : Nat} {p : Proto} (h : Ipv4Packet pkt pktLen p) :
    ∃ pkt', handlePacket pkt pktLen = some (pkt', 1) ∧
      onesSum (pseudoHeader pkt' p.number (p.segmentLen pkt') ++
        bytesAt pkt' 34 (p.segmentLen pkt')) = 65535 ∧
      ∀ i, i ≠ 34 + p.checkAt → i ≠ 34 + p.checkAt + 1 → pkt' i = pkt i := by
  obtain ⟨check, heq, hcheck⟩ := handlePacket_eq h
  refine ⟨_, heq, ?_, fun i hi hi' => by rw [store16_of_ne check hi hi', store16_of_ne 0 hi hi']⟩
  obtain ⟨k, hk⟩ : ∃ k, p.checkAt = 2 * k := ⟨p.checkAt / 2, by cases p <;> rfl⟩
  have hin : p.checkAt + 2 ≤ p.headerLen := by cases p <;> decide
  have hne : p.number ≠ 0 := by cases p <;> decide
  have hheader := h.header
  rw [p.segmentLen_store16, p.segmentLen_store16]
  rw [hk] at hcheck hin ⊢
  exact onesSum_of_stored hne (by omega) (load16_store16 (by omega)) hcheck

/-- A UDP packet with one byte of data. -/
theorem l4_checksum_rewritten_odd :
    ∃ pkt', handlePacket (fun i =>
      [0, 0, 0, 0, 0, 0, 0, 0, 0, 0, 0, 0, 8, 0, 0x45, 0, 0, 29, 0, 0, 0, 0, 64, 17, 0, 0,
        10, 0, 0, 1, 10, 0, 0, 2, 0, 53, 0, 53, 0, 9, 7, 7, 65].getD i 0) 43 = some (pkt', 1) ∧
      onesSum (pseudoHeader pkt' 17 9 ++ bytesAt pkt' 34 9) = 65535 := by
  have h :
      Ipv4Packet (fun i => [0, 0, 0, 0, 0, 0, 0, 0, 0, 0, 0, 0, 8, 0, 0x45, 0, 0, 29, 0, 0, 0, 0,
        64, 17, 0, 0, 10, 0, 0, 1, 10, 0, 0, 2, 0, 53, 0, 53, 0, 9, 7, 7, 65].getD i 0) 43 .udp :=
    ⟨by decide, by decide, by decide, by decide, by decide⟩
  obtain ⟨pkt', heq, hsum, hsame⟩ := l4_checksum_rewritten h
  have hlen : Proto.udp.segmentLen pkt' = 9 := by
    rw [Proto.segmentLen, load16, hsame 38 (by decide) (by decide),
      hsame 39 (by decide) (by decide)]
    decide
  exact ⟨pkt', heq, hlen ▸ hsum⟩

end Linuxyz.Xsk.Rewrite
