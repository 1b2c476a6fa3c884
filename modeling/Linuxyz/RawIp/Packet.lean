import Linuxyz.Lib.LittleEndian

/-!
# Linuxyz.RawIp.Packet

The packets of `dev-sock-raw-mmap-packet-ip`: the checksum `ipcsum` and
`make_ip_packet`, over the memory from the start of the packet on.

`ipcsum` counts words, and is called with the length of the datagram in bytes: it adds
the header, the payload that is still zero, and as many bytes again from behind the
packet (`behindHeader`).
-/

namespace Linuxyz.RawIp

open Checksum LittleEndian

/-! ## `ipcsum` -/

/-- The loop of `ipcsum`. -/
def addWords (m : Mem) : Nat → Nat → Nat → Nat
  | 0, _, sum => sum
  | nwords + 1, buf, sum => addWords m nwords (buf + 2) (sum + load16 m buf)

/-- `sum = (sum >> 16) + (sum & 0xffff); sum += (sum >> 16);`, cut to 16 bits -/
def foldTwice (sum : Nat) : Nat :=
  let sum := sum / 65536 + sum % 65536
  let sum := sum + sum / 65536
  sum % 65536

def ipcsum (m : Mem) (buf nwords : Nat) : Nat := 65535 - foldTwice (addWords m nwords buf 0)

/-! ## `make_ip_packet` -/

def serverHwAddr : List UInt8 := [0xaa, 0xaa, 0xaa, 0x01, 0x01, 0x01]

def clientHwAddr : List UInt8 := [0xaa, 0xaa, 0xaa, 0x02, 0x02, 0x02]

/-- The packet when `ipcsum` is called: all zero but the two headers. -/
def withHeader (m : Mem) (msglen : Nat) : Mem :=
  let m := storeBytes m 0 (List.replicate (34 + msglen) 0)
  let m := storeBytes m 0 serverHwAddr
  let m := storeBytes m 6 clientHwAddr
  let m := store16 m 12 (htons 0x0800)
  let m := Function.update m 14 0x45 -- version and ihl
  let m := Function.update m 15 0
  let m := store16 m 16 (htons (20 + msglen))
  let m := store16 m 18 0
  let m := store16 m 20 (htons 0x4000)
  let m := Function.update m 22 64
  let m := storeBytes m 26 [192, 168, 10, 2]
  let m := storeBytes m 30 [192, 168, 10, 1]
  let m := Function.update m 23 0xFD
  store16 m 24 0

/-- `make_ip_packet` on the memory `m` from `packet` on. -/
def makeIpPacket (m : Mem) (msg : List UInt8) : Mem :=
  let m := withHeader m msg.length
  let m := store16 m 24 (ipcsum m 14 (20 + msg.length))
  storeBytes m 34 msg

/-- The header verifies, its checksum is that of the ten words of the header, and the
message follows. -/
structure Good (m : Mem) (msg : List UInt8) : Prop where
  verifies : onesSum (bytesAt m 14 20) = 65535
  headerOnly : load16 m 24 = ipcsum (store16 m 24 0) 14 10
  payload : bytesAt m 34 msg.length = msg

/-- The words that `ipcsum` adds to those of the header: the payload, which is zero, and
what follows the packet. -/
def behindHeader (m : Mem) (msglen : Nat) : Nat :=
  (leWords (List.replicate msglen 0 ++ bytesAt m (34 + msglen) (20 + msglen))).sum

/-! ## the sums -/

theorem addWords_eq (m : Mem) (nwords buf sum : Nat) :
    addWords m nwords buf sum = sum + (leWords (bytesAt m buf (2 * nwords))).sum := by
  induction nwords generalizing buf sum with
  | zero => rfl
  | succ nwords ih =>
      rw [addWords, ih, Nat.mul_succ, leWords_bytesAt, List.sum_cons, Nat.add_assoc]

/-- A sum of fewer than `65538` words needs no third fold. -/
theorem foldTwice_spec {sum : Nat} (h : sum < 2 ^ 32) :
    foldTwice sum ≤ 65535 ∧ foldTwice sum % 65535 = sum % 65535 ∧
      (foldTwice sum = 0 ↔ sum = 0) := by
  have hcarry : (sum / 65536 + sum % 65536) / 65536 ≤ 1 := by omega
  have hmod : (sum / 65536 + sum % 65536) % 65535 = sum % 65535 := by omega
  unfold foldTwice
  generalize honce : sum / 65536 + sum % 65536 = once at hcarry hmod
  have hzero : once = 0 ↔ sum = 0 := by omega
  have htop : once ≤ 2 * 65535 := by omega
  dsimp only
  rw [← hmod, ← hzero]
  obtain hnone | hone : once / 65536 = 0 ∨ once / 65536 = 1 := by omega
  · omega
  · omega

theorem ipcsum_lt (m : Mem) (buf nwords : Nat) : ipcsum m buf nwords < 65536 :=
  Nat.lt_succ_of_le (Nat.sub_le 65535 _)

/-- The sum of the words before it is folded. -/
theorem sum_leWords_le (m : Mem) (nwords buf : Nat) :
    (leWords (bytesAt m buf (2 * nwords))).sum ≤ nwords * 65535 := by
  induction nwords generalizing buf with
  | zero => exact Nat.le_refl 0
  | succ nwords ih =>
      have hw := load16_lt m buf
      have hrest := ih (buf + 2)
      rw [Nat.mul_succ, leWords_bytesAt, List.sum_cons]
      omega

/-! ## the header -/

/-- The sum of the header's words without the checksum. -/
def headerSum (m : Mem) (msglen : Nat) : Nat := (leWords (bytesAt (withHeader m msglen) 14 20)).sum

/-- The first word has the version. -/
theorem headerSum_pos (m : Mem) (msglen : Nat) : 0 < headerSum m msglen := by
  have hversion : load16 (withHeader m msglen) 14 = 0x45 := by
    simp [load16, withHeader, store16, storeBytes]
  rw [headerSum, leWords_bytesAt, List.sum_cons, hversion]
  omega

theorem headerSum_le (m : Mem) (msglen : Nat) : headerSum m msglen ≤ 10 * 65535 :=
  sum_leWords_le _ 10 14

/-- Behind the header the memory is as `memset` has left it. -/
theorem withHeader_of_le (m : Mem) (msglen : Nat) {i : Nat} (h : 34 ≤ i) :
    withHeader m msglen i = if i < 34 + msglen then 0 else m i := by
  have hne : ∀ k, k < 34 → i ≠ k := fun k hk => by omega
  simp only [withHeader, store16, storeBytes, Function.update_of_ne, hne, Nat.reduceAdd,
    Nat.reduceLT, ne_eq, not_false_eq_true]
  grind [serverHwAddr, clientHwAddr]

/-- What the sum takes in behind the header: zeros for as long as the message is, and
then what was in memory. -/
theorem bytesAt_behindHeader (m : Mem) (msglen : Nat) :
    bytesAt (withHeader m msglen) 34 (msglen + (20 + msglen)) =
      List.replicate msglen 0 ++ bytesAt m (34 + msglen) (20 + msglen) := by
  have hzero : bytesAt (withHeader m msglen) 34 msglen = List.replicate msglen 0 := by
    refine List.ext_getElem? fun i => ?_
    rw [getElem?_bytesAt, withHeader_of_le m msglen (Nat.le_add_right 34 i)]
    grind
  have hrest : bytesAt (withHeader m msglen) (34 + msglen) (20 + msglen) =
      bytesAt m (34 + msglen) (20 + msglen) :=
    bytesAt_congr fun i hi _ => by rw [withHeader_of_le m msglen (by omega), if_neg (by omega)]
  rw [bytesAt_add, hzero, hrest]

/-- What `make_ip_packet` has `ipcsum` add up. -/
theorem addWords_withHeader (m : Mem) (msglen : Nat) :
    addWords (withHeader m msglen)
    (20 + msglen) 14 0 = headerSum m msglen + behindHeader m msglen := by
  have hlen : 2 * (20 + msglen) = 20 + (msglen + (20 + msglen)) := by omega
  have heven : 2 ∣ (bytesAt (withHeader m msglen) 14 20).length := by rw [length_bytesAt]; decide
  rw [addWords_eq, Nat.zero_add, hlen, bytesAt_add, leWords_append _ _ heven, List.sum_append,
    bytesAt_behindHeader, behindHeader, headerSum]

/-! ## the packet -/

theorem load16_makeIpPacket (m : Mem) (msg : List UInt8) :
    load16 (makeIpPacket m msg) 24 = ipcsum (withHeader m msg.length) 14 (20 + msg.length) := by
  have hlt := ipcsum_lt (withHeader m msg.length) 14 (20 + msg.length)
  rw [makeIpPacket, load16_storeBytes_of_le _ _ (by decide), load16_store16 hlt]

/-- A new checksum changes the sum of the header by the difference. -/
theorem sum_store_check (m : Mem) {check : Nat} (hlt : check < 65536) :
    (leWords (bytesAt (store16 m 24 check) 14 20)).sum + load16 m 24 =
      (leWords (bytesAt m 14 20)).sum + check :=
  sum_leWords_store16 (a := 14) (k := 5) hlt (by decide)

/-- The words of the finished header. -/
theorem sum_makeIpPacket (m : Mem) (msg : List UInt8) :
    (leWords (bytesAt (makeIpPacket m msg) 14 20)).sum =
      headerSum m msg.length + load16 (makeIpPacket m msg) 24 := by
  have hstore :=
    sum_store_check (withHeader m msg.length)
      (ipcsum_lt (withHeader m msg.length) 14 (20 + msg.length))
  have hzero : load16 (withHeader m msg.length) 24 = 0 := load16_store16 (by decide)
  rw [hzero, Nat.add_zero] at hstore
  rw [load16_makeIpPacket, makeIpPacket, bytesAt_storeBytes_of_le _ _ (by decide)]
  exact hstore

/-- The checksum of the header alone. -/
theorem ipcsum_header (m : Mem) (msg : List UInt8) :
    ipcsum (store16 (makeIpPacket m msg) 24 0) 14 10 =
      65535 - foldTwice (headerSum m msg.length) := by
  have hstore := sum_store_check (makeIpPacket m msg) (show 0 < 65536 by decide)
  rw [sum_makeIpPacket, Nat.add_zero] at hstore
  have hsum : (leWords (bytesAt (store16 (makeIpPacket m msg) 24 0) 14 (2 * 10))).sum =
      headerSum m msg.length :=
    Nat.add_right_cancel hstore
  rw [ipcsum, addWords_eq, Nat.zero_add, hsum]

/-- **Header checksum**: for every message of at most 1480 bytes and every memory, the
packet is good if and only if what `ipcsum` adds to the header's words is a multiple of
`65535`. -/
theorem makeIpPacket_good_iff (m : Mem) {msg : List UInt8} (hlen : msg.length ≤ 1480) :
    Good (makeIpPacket m msg) msg ↔ behindHeader m msg.length % 65535 = 0 := by
  have hpayload : bytesAt (makeIpPacket m msg) 34 msg.length = msg := bytesAt_storeBytes _ 34 msg
  have hcheck := load16_makeIpPacket m msg
  have hpos := headerSum_pos m msg.length
  have hmax : headerSum m msg.length < 2 ^ 32 :=
    Nat.lt_of_le_of_lt (headerSum_le m msg.length) (by decide)
  have htotal : headerSum m msg.length + behindHeader m msg.length < 2 ^ 32 := by
    have hle := sum_leWords_le (withHeader m msg.length) (20 + msg.length) 14
    have hadd := addWords_eq (withHeader m msg.length) (20 + msg.length) 14 0
    rw [addWords_withHeader] at hadd
    omega
  obtain ⟨hle, hmod, hzero⟩ := foldTwice_spec htotal
  obtain ⟨hle', hmod', hzero'⟩ := foldTwice_spec hmax
  rw [ipcsum, addWords_withHeader] at hcheck
  have hverifies : onesSum (bytesAt (makeIpPacket m msg) 14 20) = 65535 ↔
      (headerSum m msg.length + load16 (makeIpPacket m msg) 24) % 65535 = 0 := by
    rw [onesSum_eq_iff_leWords (by rw [sum_makeIpPacket]; omega), sum_makeIpPacket]
  constructor
  · intro h
    have hsum := hverifies.mp h.verifies
    omega
  · intro h
    refine ⟨hverifies.mpr (by omega), ?_, hpayload⟩
    rw [ipcsum_header]
    omega

/-- A message in a memory that is all zero. -/
theorem makeIpPacket_good_hi : Good (makeIpPacket (fun _ => 0) [104, 105]) [104, 105] :=
  (makeIpPacket_good_iff (fun _ => 0) (by decide)).mpr (by decide)

/-- The same message, with the byte 1 behind the packet: the header does not verify. -/
theorem makeIpPacket_bad_hi :
    onesSum (bytesAt (makeIpPacket (fun i => if i = 36 then 1 else 0) [104, 105]) 14 20) =
      65279 := by decide

end Linuxyz.RawIp
