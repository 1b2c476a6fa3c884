import Linuxyz.Lib.Buffer
import Linuxyz.Lib.LittleEndian

/-!
# Linuxyz.Xdp.Parse

The header parsers of `parsing_helpers.h`, for a little-endian host: `parse_ethhdr_vlan`
with its unrolled loop over the tags, and the parsers of the IPv4, IPv6, UDP and TCP
headers.

Each parser gets the bytes from `data` to `data_end` and the position of the cursor, and
gives what it returns and the cursor then.  A load is `none` outside of the packet, so that
a parser with a result has stayed inside.  The theorems are about packets that are
concatenations of headers: what a parser accepts is such a packet, and it accepts all of
them.
-/

namespace Linuxyz.Xdp

open Linuxyz.Buffer (be16 toBe16)
open Linuxyz.LittleEndian (htons htons_lt)

/-! ## The parsers -/

/-- A 16-bit load. -/
def load16 (data : List UInt8) (pos : Nat) : Option Nat := do
  let lo ← data[pos]?
  let hi ← data[pos + 1]?
  some (lo.toNat + 256 * hi.toNat)

def ethP8021Q : Nat := 0x8100

def ethP8021AD : Nat := 0x88A8

def vlanMaxDepth : Nat := 2

/-- `proto_is_vlan` -/
def protoIsVlan (hProto : Nat) : Bool := hProto = htons ethP8021Q || hProto = htons ethP8021AD

/-- The turns `i, ..` of the loop of `parse_ethhdr_vlan`, `n` of them left, with the VLAN
ids that are collected. -/
def vlanLoop (data : List UInt8) : Nat → Nat → Nat → List Nat → Option (Nat × Nat × List Nat)
  | 0, vlh, hProto, ids => some (hProto, vlh, ids)
  | n + 1, vlh, hProto, ids =>
      if !protoIsVlan hProto then some (hProto, vlh, ids)
      else if data.length < vlh + 4 then some (hProto, vlh, ids)
      else do
        let encapsulated ← load16 data (vlh + 2)
        let tci ← load16 data vlh
        vlanLoop data n (vlh + 4) encapsulated (ids ++ [htons tci % 0x1000])

/-- `parse_ethhdr_vlan`, with `vlans` -/
def parseEthhdrVlan (data : List UInt8) (pos : Nat) : Option (Int × Nat × List Nat) :=
  if data.length < pos + 14 then some (-1, pos, [])
  else do
    let hProto ← load16 data (pos + 12)
    let (hProto, vlh, ids) ← vlanLoop data vlanMaxDepth (pos + 14) hProto []
    some (hProto, vlh, ids)

/-- `parse_ethhdr` -/
def parseEthhdr (data : List UInt8) (pos : Nat) : Option (Int × Nat) := do
  let (hProto, pos, _) ← parseEthhdrVlan data pos
  some (hProto, pos)

/-- `parse_ip6hdr` -/
def parseIp6hdr (data : List UInt8) (pos : Nat) : Option (Int × Nat) :=
  if data.length < pos + 40 then some (-1, pos)
  else do
    let nexthdr ← data[pos + 6]?
    some (nexthdr.toNat, pos + 40)

/-- `parse_iphdr` -/
def parseIphdr (data : List UInt8) (pos : Nat) : Option (Int × Nat) :=
  if data.length < pos + 20 then some (-1, pos)
  else do
    let versionIhl ← data[pos]?
    let hdrsize := versionIhl.toNat % 16 * 4
    if hdrsize < 20 then some (-1, pos)
    else if data.length < pos + hdrsize then some (-1, pos)
    else do
      let protocol ← data[pos + 9]?
      some (protocol.toNat, pos + hdrsize)

/-- `parse_udphdr` -/
def parseUdphdr (data : List UInt8) (pos : Nat) : Option (Int × Nat) :=
  if data.length < pos + 8 then some (-1, pos)
  else do
    let len ← load16 data (pos + 4)
    let len : Int := htons len - 8
    if len < 0 then some (-1, pos + 8) else some (len, pos + 8)

/-- `parse_tcphdr` -/
def parseTcphdr (data : List UInt8) (pos : Nat) : Option (Int × Nat) :=
  if data.length < pos + 20 then some (-1, pos)
  else do
    let doff ← data[pos + 12]?
    let len := doff.toNat / 16 * 4
    if len < 20 then some (-1, pos)
    else if data.length < pos + len then some (-1, pos)
    else some (len, pos + len)

/-! ## Loads -/

/-- The bytes of a 16-bit value, swapped. -/
theorem htons_bytes {hi lo : Nat} (hhi : hi < 256) (hlo : lo < 256) :
    htons (hi * 256 + lo) = lo * 256 + hi := by
  unfold htons
  omega

theorem bytes_div {hi lo : Nat} (hlo : lo < 256) : (hi * 256 + lo) / 256 = hi := by
  omega

theorem exists_bytes {n : Nat} (h : n < 65536) : ∃ hi lo, hi < 256 ∧ lo < 256 ∧ n = hi * 256 + lo :=
  ⟨n / 256, n % 256, by omega, by omega, by omega⟩

theorem htons_htons {n : Nat} (h : n < 65536) : htons (htons n) = n := by
  obtain ⟨hi, lo, hhi, hlo, rfl⟩ := exists_bytes h
  rw [htons_bytes hhi hlo, htons_bytes hlo hhi]

theorem htons_inj {n m : Nat} (hn : n < 65536) (hm : m < 65536) : htons n = htons m ↔ n = m := by
  unfold htons
  omega

/-- A load of a halfword that stands in a packet. -/
theorem load16_append {front rest : List UInt8} {n pos : Nat} (hpos : pos = front.length) :
    load16 (front ++ (toBe16 n ++ rest)) pos = some (htons n) := by
  subst hpos
  have hread :
      ∀ k, (front ++ (toBe16 n ++ rest))[front.length + k]? = (toBe16 n ++ rest)[k]? := fun k => by
    rw [List.getElem?_append_right (Nat.le_add_right ..), Nat.add_sub_cancel_left]
  have h0 := hread 0
  have h1 := hread 1
  rw [Nat.add_zero] at h0
  rw [load16, h0, h1]
  simp [toBe16, htons]
  omega

/-- Two bytes are a halfword. -/
theorem exists_toBe16 {bs : List UInt8} (h : 2 ≤ bs.length) :
    ∃ n < 65536, ∃ rest, bs = toBe16 n ++ rest := by
  match bs, h with
  | a :: b :: rest, _ =>
      have ha := a.toNat_lt
      have hb := b.toNat_lt
      refine ⟨a.toNat * 256 + b.toNat, by omega, rest, ?_⟩
      have hhi : (a.toNat * 256 + b.toNat) / 256 = a.toNat := by omega
      have hlo : UInt8.ofNat (a.toNat * 256 + b.toNat) = b := by
        apply UInt8.toNat_inj.mp
        rw [UInt8.toNat_ofNat']
        omega
      simp [toBe16, hhi, hlo]

/-! ## Tags -/

/-- A VLAN tag: its type, and the priority and VLAN id. -/
structure Tag where
  tpid : Nat
  tci : Nat
  isVlan : tpid = ethP8021Q ∨ tpid = ethP8021AD
  tci_lt : tci < 65536

/-- A tag as it stands behind the addresses, in front of the type of what it encapsulates. -/
def Tag.bytes (t : Tag) : List UInt8 := toBe16 t.tpid ++ toBe16 t.tci

def Tag.vid (t : Tag) : Nat := t.tci % 0x1000

def IsVlanType (n : Nat) : Prop := n = ethP8021Q ∨ n = ethP8021AD

instance (n : Nat) : Decidable (IsVlanType n) := inferInstanceAs (Decidable (_ ∨ _))

theorem protoIsVlan_htons {n : Nat} (h : n < 65536) :
    protoIsVlan (htons n) = decide (IsVlanType n) := by
  rw [protoIsVlan, decide_eq_decide.mpr (htons_inj h (show ethP8021Q < 65536 by decide)),
    decide_eq_decide.mpr (htons_inj h (show ethP8021AD < 65536 by decide)), ← Bool.decide_or]
  rfl

theorem length_flatMap_bytes (tags : List Tag) :
    (tags.flatMap Tag.bytes).length = 4 * tags.length := by
  induction tags with
  | nil => rfl
  | cons t tags ih =>
      rw [List.flatMap_cons, List.length_append, ih, List.length_cons]
      simp [Tag.bytes]
      omega

/-- The type that stands in front of what is left. -/
def firstType : List Tag → Nat → Nat
  | [], type => type
  | t :: _, _ => t.tpid

theorem Tag.tpid_lt (t : Tag) : t.tpid < 65536 := by
  rcases t.isVlan with h | h
  · rw [h]
    decide
  · rw [h]
    decide

theorem firstType_bytes (tags : List Tag) (type : Nat) (rest : List UInt8) :
    ∃ rest', tags.flatMap Tag.bytes ++ (toBe16 type ++ rest) =
      toBe16 (firstType tags type) ++ rest' := by
  cases tags with
  | nil => exact ⟨rest, rfl⟩
  | cons t tags =>
      exact ⟨_, by rw [List.flatMap_cons, Tag.bytes, List.append_assoc, List.append_assoc]; rfl⟩

/-- One turn of the loop, at a tag that is complete. -/
theorem vlanLoop_tag (n : Nat) (front rest : List UInt8) (t : Tag) (type : Nat) (ids : List Nat) :
    vlanLoop (front ++ (t.bytes ++ (toBe16 type ++ rest))) (n + 1) (front.length + 2)
    (htons t.tpid) ids =
      vlanLoop ((front ++ t.bytes) ++ (toBe16 type ++ rest)) n ((front ++ t.bytes).length + 2)
      (htons type)
        (ids ++ [t.vid]) := by
  have hvlan : protoIsVlan (htons t.tpid) = true := by
    rw [protoIsVlan_htons t.tpid_lt]
    exact decide_eq_true t.isVlan
  have hlen : ¬(front ++ (t.bytes ++ (toBe16 type ++ rest))).length < front.length + 2 + 4 := by
    simp [Tag.bytes]
    omega
  have hinner : load16 (front ++ (t.bytes ++ (toBe16 type ++ rest))) (front.length + 2 + 2) =
      some (htons type) := by
    rw [← List.append_assoc]
    exact load16_append (by simp [Tag.bytes])
  have htci : load16 (front ++ (t.bytes ++ (toBe16 type ++ rest))) (front.length + 2) =
      some (htons t.tci) := by
    rw [Tag.bytes, List.append_assoc, ← List.append_assoc front]
    exact load16_append (by simp)
  have hpos : (front ++ t.bytes).length + 2 = front.length + 2 + 4 := by simp [Tag.bytes]
  rw [vlanLoop, hvlan, if_neg (by decide), if_neg hlen, hinner, htci]
  simp only [Option.bind_eq_bind, Option.bind_some, htons_htons t.tci_lt]
  rw [hpos, ← List.append_assoc]
  rfl

/-- **Round trip**: the loop reads as many tags of a packet as it has turns, and stops at
the type behind them. -/
theorem vlanLoop_tags (tags : List Tag) {type : Nat} (htype : type < 65536)
    (hnot : ¬IsVlanType type) (rest : List UInt8) (n : Nat) (front : List UInt8)
    (ids : List Nat) :
    vlanLoop (front ++ (tags.flatMap Tag.bytes ++ (toBe16 type ++ rest))) n (front.length + 2)
        (htons (firstType tags type)) ids =
      some (htons (firstType (tags.drop n) type), front.length + 2 + 4 * (tags.take n).length,
        ids ++ (tags.take n).map Tag.vid) := by
  induction tags generalizing n front ids with
  | nil =>
      have hstop : (!protoIsVlan (htons type)) = true := by simp [protoIsVlan_htons htype, hnot]
      cases n with
      | zero => simp [vlanLoop, firstType]
      | succ n => simp [vlanLoop, firstType, hstop]
  | cons t tags ih =>
      cases n with
      | zero => simp [vlanLoop, firstType]
      | succ n =>
          obtain ⟨rest', hrest⟩ := firstType_bytes tags type rest
          rw [List.flatMap_cons, List.append_assoc, hrest, firstType, vlanLoop_tag, ← hrest,
            ih n (front ++ t.bytes)]
          simp [Tag.bytes]
          omega

/-- What the loop has passed over are tags. -/
theorem vlanLoop_sound (n : Nat) (front rest : List UInt8) {type : Nat} (htype : type < 65536)
    (ids : List Nat) :
    ∃ (tags : List Tag) (type' : Nat) (rest' : List UInt8), type' < 65536 ∧ tags.length ≤ n ∧
      toBe16 type ++ rest = tags.flatMap Tag.bytes ++ (toBe16 type' ++ rest') ∧
      vlanLoop (front ++ (toBe16 type ++ rest)) n (front.length + 2) (htons type) ids =
        some (htons type', front.length + 2 + 4 * tags.length, ids ++ tags.map Tag.vid) := by
  induction n generalizing front rest type ids with
  | zero => exact ⟨[], type, rest, htype, Nat.le_refl _, rfl, by simp [vlanLoop]⟩
  | succ n ih =>
      by_cases hvlan : IsVlanType type
      · by_cases hshort : rest.length < 4
        · refine ⟨[], type, rest, htype, Nat.zero_le _, rfl, ?_⟩
          have hend : (front ++ (toBe16 type ++ rest)).length < front.length + 2 + 4 := by
            simp
            omega
          rw [vlanLoop, protoIsVlan_htons htype, decide_eq_true hvlan, if_neg (by decide),
            if_pos hend]
          simp
        · obtain ⟨tci, htci, rest₁, rfl⟩ := exists_toBe16 (show 2 ≤ rest.length by omega)
          obtain ⟨type₁, htype₁, rest₂, rfl⟩ :=
            exists_toBe16 (show 2 ≤ rest₁.length by simp at hshort; omega)
          obtain ⟨tags, type', rest', htype', hn, hbytes, hloop⟩ :=
            ih (front ++ (⟨type, tci, hvlan, htci⟩ : Tag).bytes) rest₂ htype₁ (ids ++
              [tci % 0x1000])
          have htag : toBe16 type ++ (toBe16 tci ++ (toBe16 type₁ ++ rest₂)) =
              (⟨type, tci, hvlan, htci⟩ : Tag).bytes ++ (toBe16 type₁ ++ rest₂) := by
            rw [Tag.bytes, List.append_assoc]
          refine ⟨⟨type, tci, hvlan, htci⟩ :: tags, type', rest', htype', by simpa using hn, ?_, ?_⟩
          · rw [htag, hbytes, List.flatMap_cons, List.append_assoc]
          · have hturn := vlanLoop_tag n front rest₂ ⟨type, tci, hvlan, htci⟩ type₁ ids
            rw [htag]
            refine hturn.trans (hloop.trans ?_)
            simp [Tag.bytes, Tag.vid]
            omega
      · refine ⟨[], type, rest, htype, Nat.zero_le _, rfl, ?_⟩
        simp [vlanLoop, protoIsVlan_htons htype, hvlan]

/-! ## Ethernet headers -/

/-- The parser of the whole header, by its loop over the tags. -/
theorem parseEthhdrVlan_of_bytes {macs rest : List UInt8} {type : Nat} (hmacs : macs.length = 12)
    {hProto pos : Nat} {ids : List Nat}
    (h : vlanLoop (macs ++ (toBe16 type ++ rest)) vlanMaxDepth (macs.length + 2) (htons type) [] =
      some (hProto, pos, ids)) :
    parseEthhdrVlan (macs ++ (toBe16 type ++ rest)) 0 = some ((hProto : Int), pos, ids) := by
  have hlen : ¬(macs ++ (toBe16 type ++ rest)).length < 0 + 14 := by
    simp [hmacs]
    omega
  rw [hmacs] at h
  rw [parseEthhdrVlan, if_neg hlen, load16_append (by rw [hmacs])]
  simp only [Option.bind_eq_bind, Option.bind_some, Nat.zero_add, h]

/-- An Ethernet header with tags. -/
def ethernet (macs : List UInt8) (tags : List Tag) (type : Nat) : List UInt8 :=
  macs ++ (tags.flatMap Tag.bytes ++ toBe16 type)

theorem length_ethernet {macs : List UInt8} (hmacs : macs.length = 12) (tags : List Tag)
    (type : Nat) : (ethernet macs tags type).length = 14 + 4 * tags.length := by
  rw [ethernet, List.length_append, List.length_append, length_flatMap_bytes, hmacs,
    Buffer.length_toBe16]
  omega

/-- `parse_ethhdr_vlan` on a packet with any number of tags. -/
theorem parseEthhdrVlan_tags {macs : List UInt8} (tags : List Tag) {type : Nat}
    (hmacs : macs.length = 12) (htype : type < 65536) (hnot : ¬IsVlanType type)
    (rest : List UInt8) :
    parseEthhdrVlan (ethernet macs tags type ++ rest) 0 =
      some ((htons (firstType (tags.drop vlanMaxDepth) type) : Int),
        14 + 4 * (tags.take vlanMaxDepth).length, (tags.take vlanMaxDepth).map Tag.vid) := by
  have hloop := vlanLoop_tags tags htype hnot rest vlanMaxDepth macs []
  obtain ⟨rest', hrest⟩ := firstType_bytes tags type rest
  have hdata : ethernet macs tags type ++ rest =
      macs ++ (tags.flatMap Tag.bytes ++ (toBe16 type ++ rest)) := by simp [ethernet]
  rw [hrest] at hloop hdata
  rw [hdata, parseEthhdrVlan_of_bytes hmacs hloop, hmacs]
  rfl

/-- **Round trip** of `parse_ethhdr_vlan`, for packets with at most two tags. -/
theorem parseEthhdrVlan_ethernet {macs : List UInt8} {tags : List Tag} {type : Nat}
    (hmacs : macs.length = 12) (htags : tags.length ≤ vlanMaxDepth) (htype : type < 65536)
    (hnot : ¬IsVlanType type) (rest : List UInt8) :
    parseEthhdrVlan (ethernet macs tags type ++ rest) 0 =
      some ((htons type : Int), (ethernet macs tags type).length, tags.map Tag.vid) := by
  rw [parseEthhdrVlan_tags tags hmacs htype hnot, List.drop_eq_nil_of_le htags,
    List.take_of_length_le htags, length_ethernet hmacs]
  rfl

/-- What `parse_ethhdr_vlan` accepts: an Ethernet header with at most two tags. -/
theorem parseEthhdrVlan_sound {data : List UInt8} (hlen : 14 ≤ data.length) :
    ∃ (macs : List UInt8) (tags : List Tag) (type : Nat) (rest : List UInt8), macs.length = 12 ∧
      tags.length ≤ vlanMaxDepth ∧ type < 65536 ∧ data = ethernet macs tags type ++ rest ∧
      parseEthhdrVlan data 0 = some ((htons type : Int), (ethernet macs tags type).length,
        tags.map Tag.vid) := by
  have hmacs : (data.take 12).length = 12 := by
    rw [List.length_take]
    omega
  obtain ⟨type₀, htype₀, rest₀, hrest₀⟩ :=
    exists_toBe16 (show 2 ≤ (data.drop 12).length by rw [List.length_drop]; omega)
  obtain ⟨tags, type, rest, htype, htags, hbytes, hloop⟩ :=
    vlanLoop_sound vlanMaxDepth (data.take 12) rest₀ htype₀ []
  have hdata : data = data.take 12 ++ (toBe16 type₀ ++ rest₀) := by
    rw [← hrest₀, List.take_append_drop]
  have hparse := parseEthhdrVlan_of_bytes hmacs hloop
  rw [← hdata, hmacs] at hparse
  refine ⟨data.take 12, tags, type, rest, hmacs, htags, htype, ?_, ?_⟩
  · simp only [ethernet, List.append_assoc]
    rw [← hbytes]
    exact hdata
  · rw [length_ethernet hmacs]
    exact hparse

/-! ## IP headers -/

/-- The bytes behind the cursor. -/
theorem getElem?_behind (front rest : List UInt8) (k : Nat) :
    (front ++ rest)[front.length + k]? = rest[k]? := by
  rw [List.getElem?_append_right (Nat.le_add_right ..), Nat.add_sub_cancel_left]

/-- An IPv4 header, of `ihl` words. -/
structure Ipv4Header (ip : List UInt8) (protocol : UInt8) : Prop where
  min : 20 ≤ ip.length
  ihl : ip.length = (ip.getD 0 0).toNat % 16 * 4
  protocol : ip[9]? = some protocol

/-- An IPv6 header. -/
structure Ipv6Header (ip : List UInt8) (nexthdr : UInt8) : Prop where
  length : ip.length = 40
  nexthdr : ip[6]? = some nexthdr

theorem getElem?_eq_getD {l : List UInt8} {k : Nat} (h : k < l.length) :
    l[k]? = some (l.getD k 0) := by
  rw [List.getD_eq_getElem?_getD, List.getElem?_eq_getElem h, Option.getD_some]

/-- A complete IPv4 header is parsed, whatever stands behind. -/
theorem parseIphdr_append {front ip rest : List UInt8} {protocol : UInt8}
    (h : Ipv4Header ip protocol) :
    parseIphdr (front ++ (ip ++ rest)) front.length =
      some ((protocol.toNat : Int), front.length + ip.length) := by
  have hmin := h.min
  have hihl := h.ihl
  have hlen : (front ++ (ip ++ rest)).length = front.length + (ip.length + rest.length) := by simp
  have hread :
      ∀ k < ip.length, (front ++ (ip ++ rest))[front.length + k]? = ip[k]? := fun k hk => by
    rw [getElem?_behind, List.getElem?_append_left hk]
  have hfirst := (hread 0 (by omega)).trans (getElem?_eq_getD (by omega))
  rw [Nat.add_zero] at hfirst
  rw [parseIphdr, hlen, if_neg (by omega), hfirst]
  simp only [Option.bind_eq_bind, Option.bind_some]
  rw [if_neg (by omega), if_neg (by omega), hread 9 (by omega), h.protocol, hihl]
  rfl

/-- Without a complete header, `parse_iphdr` fails. -/
theorem parseIphdr_sound (front rest : List UInt8) :
    (∃ ip protocol rest', rest = ip ++ rest' ∧ Ipv4Header ip protocol) ∨
      parseIphdr (front ++ rest) front.length = some (-1, front.length) := by
  rw [parseIphdr, List.length_append]
  by_cases hshort : front.length + rest.length < front.length + 20
  · exact .inr (if_pos hshort)
  have hfirst := (getElem?_behind front rest 0).trans (getElem?_eq_getD (by omega))
  rw [Nat.add_zero] at hfirst
  rw [if_neg hshort, hfirst]
  simp only [Option.bind_eq_bind, Option.bind_some]
  by_cases hmin : (rest.getD 0 0).toNat % 16 * 4 < 20
  · exact .inr (if_pos hmin)
  by_cases hend : front.length + rest.length < front.length + (rest.getD 0 0).toNat % 16 * 4
  · exact .inr (by rw [if_neg hmin, if_pos hend])
  obtain ⟨n, hn⟩ : ∃ n, n = (rest.getD 0 0).toNat % 16 * 4 := ⟨_, rfl⟩
  have hlen : (rest.take n).length = n := by
    rw [List.length_take]
    omega
  refine .inl ⟨rest.take n, rest.getD 9 0, rest.drop n, (List.take_append_drop ..).symm, ?_, ?_, ?_⟩
  · omega
  · rw [hlen, List.getD_eq_getElem?_getD, List.getElem?_take_of_lt (by omega),
      ← List.getD_eq_getElem?_getD, hn]
  · rw [List.getElem?_take_of_lt (by omega), getElem?_eq_getD (by omega)]

/-- A complete IPv6 header is parsed, whatever stands behind. -/
theorem parseIp6hdr_append {front ip rest : List UInt8} {nexthdr : UInt8}
    (h : Ipv6Header ip nexthdr) :
    parseIp6hdr (front ++ (ip ++ rest)) front.length =
      some ((nexthdr.toNat : Int), front.length + ip.length) := by
  have hlen := h.length
  have hend : ¬(front ++ (ip ++ rest)).length < front.length + 40 := by simp [hlen]
  rw [parseIp6hdr, if_neg hend, getElem?_behind, List.getElem?_append_left (by omega),
    h.nexthdr, hlen]
  rfl

/-- Conversely, what is parsed is a complete IPv6 header, or the parser fails. -/
theorem parseIp6hdr_sound (front rest : List UInt8) :
    (∃ ip nexthdr rest', rest = ip ++ rest' ∧ Ipv6Header ip nexthdr) ∨
      parseIp6hdr (front ++ rest) front.length = some (-1, front.length) := by
  by_cases hshort : rest.length < 40
  · refine .inr (if_pos ?_)
    rw [List.length_append]
    omega
  · refine .inl ⟨rest.take 40, rest.getD 6 0, rest.drop 40, (List.take_append_drop ..).symm, ?_, ?_⟩
    · rw [List.length_take]
      omega
    · rw [List.getElem?_take_of_lt (by omega), getElem?_eq_getD (by omega)]

/-! ## UDP and TCP headers -/

/-- A UDP header whose length counts at least itself. -/
structure UdpHeader where
  source : Nat
  dest : Nat
  len : Nat
  check : Nat
  source_lt : source < 65536
  dest_lt : dest < 65536
  len_lt : len < 65536
  check_lt : check < 65536
  min : 8 ≤ len

def UdpHeader.bytes (h : UdpHeader) : List UInt8 :=
  toBe16 h.source ++ (toBe16 h.dest ++ (toBe16 h.len ++ toBe16 h.check))

/-- A TCP header of `doff` words: the ports, the 12 bytes up to the checksum, and what is
behind it. -/
structure TcpHeader where
  source : Nat
  dest : Nat
  middle : List UInt8
  check : Nat
  options : List UInt8
  source_lt : source < 65536
  dest_lt : dest < 65536
  middle_length : middle.length = 12
  check_lt : check < 65536
  min : 2 ≤ options.length
  doff : 18 + options.length = (middle.getD 8 0).toNat / 16 * 4

def TcpHeader.bytes (h : TcpHeader) : List UInt8 :=
  toBe16 h.source ++ (toBe16 h.dest ++ (h.middle ++ (toBe16 h.check ++ h.options)))

theorem UdpHeader.length_bytes (h : UdpHeader) : h.bytes.length = 8 := rfl

theorem TcpHeader.length_bytes (h : TcpHeader) : h.bytes.length = 18 + h.options.length := by
  simp [TcpHeader.bytes, h.middle_length]
  omega

/-- A complete UDP header is parsed, whatever stands behind. -/
theorem parseUdphdr_append (front rest : List UInt8) (h : UdpHeader) :
    parseUdphdr (front ++ (h.bytes ++ rest)) front.length =
      some ((h.len : Int) - 8, front.length + 8) := by
  have hend : ¬(front ++ (h.bytes ++ rest)).length < front.length + 8 := by simp [h.length_bytes]
  have hdata : front ++ (h.bytes ++ rest) =
      (front ++ toBe16 h.source ++ toBe16 h.dest) ++
        (toBe16 h.len ++ (toBe16 h.check ++ rest)) := by
    simp [UdpHeader.bytes]
  have hmin := h.min
  rw [parseUdphdr, if_neg hend, hdata, load16_append (by simp)]
  simp only [Option.bind_eq_bind, Option.bind_some, htons_htons h.len_lt]
  rw [if_neg (by omega)]

/-- Without a header whose length counts at least itself, `parse_udphdr` fails. -/
theorem parseUdphdr_sound (front rest : List UInt8) :
    (∃ (h : UdpHeader) (rest' : List UInt8), rest = h.bytes ++ rest') ∨
      ∃ pos, parseUdphdr (front ++ rest) front.length = some (-1, pos) := by
  by_cases hshort : rest.length < 8
  · refine .inr ⟨_, if_pos ?_⟩
    rw [List.length_append]
    omega
  obtain ⟨source, hsource, rest₁, rfl⟩ := exists_toBe16 (show 2 ≤ rest.length by omega)
  obtain ⟨dest, hdest, rest₂, rfl⟩ := exists_toBe16 (show 2 ≤ rest₁.length by simp at hshort; omega)
  obtain ⟨len, hlen, rest₃, rfl⟩ := exists_toBe16 (show 2 ≤ rest₂.length by simp at hshort; omega)
  obtain ⟨check, hcheck, rest', rfl⟩ :=
    exists_toBe16 (show 2 ≤ rest₃.length by simp at hshort; omega)
  by_cases hmin : 8 ≤ len
  · exact .inl ⟨⟨source, dest, len, check, hsource, hdest, hlen, hcheck, hmin⟩, rest',
      by simp [UdpHeader.bytes]⟩
  · refine .inr ⟨front.length + 8, ?_⟩
    have hdata :
        front ++ (toBe16 source ++ (toBe16 dest ++ (toBe16 len ++ (toBe16 check ++ rest')))) =
        (front ++ toBe16 source ++ toBe16 dest) ++ (toBe16 len ++ (toBe16 check ++ rest')) := by
          simp
    rw [parseUdphdr, if_neg (by rw [List.length_append]; omega), hdata, load16_append (by simp)]
    simp only [Option.bind_eq_bind, Option.bind_some, htons_htons hlen]
    rw [if_pos (by omega)]

/-- The byte with the length of a TCP header. -/
theorem TcpHeader.getElem?_doff (h : TcpHeader) (rest : List UInt8) :
    (h.bytes ++ rest)[12]? = some (h.middle.getD 8 0) := by
  have hmiddle := h.middle_length
  have hbytes :
      h.bytes ++ rest = (toBe16 h.source ++ toBe16 h.dest) ++
        (h.middle ++ (toBe16 h.check ++ h.options ++ rest)) := by
    simp [TcpHeader.bytes]
  rw [hbytes, List.getElem?_append_right (by simp), List.getElem?_append_left (by simp; omega)]
  exact getElem?_eq_getD (by simp; omega)

/-- A complete TCP header is parsed, whatever stands behind. -/
theorem parseTcphdr_append (front rest : List UInt8) (h : TcpHeader) :
    parseTcphdr (front ++ (h.bytes ++ rest)) front.length =
      some ((h.bytes.length : Int), front.length + h.bytes.length) := by
  have hmin := h.min
  have hdoff := h.doff
  have hlen : (front ++ (h.bytes ++ rest)).length =
      front.length + (18 + h.options.length + rest.length) := by
    rw [List.length_append, List.length_append, h.length_bytes]
  rw [parseTcphdr, hlen, if_neg (by omega), getElem?_behind, h.getElem?_doff]
  simp only [Option.bind_eq_bind, Option.bind_some]
  rw [if_neg (by omega), if_neg (by omega), h.length_bytes, hdoff]

/-- Conversely, what is parsed is a complete TCP header, or the parser fails. -/
theorem parseTcphdr_sound (front rest : List UInt8) :
    (∃ (h : TcpHeader) (rest' : List UInt8), rest = h.bytes ++ rest') ∨
      parseTcphdr (front ++ rest) front.length = some (-1, front.length) := by
  rw [parseTcphdr, List.length_append, getElem?_behind]
  by_cases hshort : front.length + rest.length < front.length + 20
  · exact .inr (if_pos hshort)
  rw [if_neg hshort, getElem?_eq_getD (by omega)]
  simp only [Option.bind_eq_bind, Option.bind_some]
  by_cases hmin : (rest.getD 12 0).toNat / 16 * 4 < 20
  · exact .inr (if_pos hmin)
  by_cases hend : front.length + rest.length < front.length + (rest.getD 12 0).toNat / 16 * 4
  · exact .inr (by rw [if_neg hmin, if_pos hend])
  left
  obtain ⟨source, hsource, rest₁, rfl⟩ := exists_toBe16 (show 2 ≤ rest.length by omega)
  obtain ⟨dest, hdest, rest₂, rfl⟩ := exists_toBe16 (show 2 ≤ rest₁.length by simp at hshort; omega)
  have hmiddle : (rest₂.take 12).length = 12 := by
    simp at hshort ⊢
    omega
  obtain ⟨check, hcheck, rest₃, hrest₃⟩ :=
    exists_toBe16 (show 2 ≤ (rest₂.drop 12).length by simp at hshort ⊢; omega)
  have hrest₂ : rest₂ = rest₂.take 12 ++ (toBe16 check ++ rest₃) := by
    rw [← hrest₃, List.take_append_drop]
  have hdoff : (toBe16 source ++ (toBe16 dest ++ rest₂)).getD 12 0 = (rest₂.take 12).getD 8 0 := by
    rw [List.getD_eq_getElem?_getD, List.getD_eq_getElem?_getD, List.getElem?_take_of_lt (by omega)]
    rfl
  rw [hdoff] at hmin hend
  have hlen : rest₂.length = 12 + (2 + rest₃.length) := by
    rw [hrest₂, List.length_append, hmiddle]; simp
  obtain ⟨n, hn⟩ : ∃ n, 18 + n = ((rest₂.take 12).getD 8 0).toNat / 16 * 4 :=
    ⟨((rest₂.take 12).getD 8 0).toNat / 16 * 4 - 18, by omega⟩
  have hoptions : (rest₃.take n).length = n := by
    rw [List.length_append, List.length_append, Buffer.length_toBe16, Buffer.length_toBe16] at hend
    rw [List.length_take]
    omega
  refine ⟨⟨source, dest, rest₂.take 12, check, rest₃.take n, hsource, hdest, hmiddle, hcheck,
    by omega, by omega⟩, rest₃.drop n, ?_⟩
  simp only [TcpHeader.bytes, List.append_assoc, List.take_append_drop]
  rw [← hrest₂]

end Linuxyz.Xdp
