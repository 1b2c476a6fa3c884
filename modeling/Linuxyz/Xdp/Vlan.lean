import Linuxyz.Xdp.BlockPort

/-!
# Linuxyz.Xdp.Vlan

`vlan_tag_push` and `vlan_tag_pop` of `rewrite_helpers.h`.  Each copies the Ethernet
header, moves the head of the packet by the four bytes of a tag, and writes the header to
its new place.

A pushed tag is the first one of the packet for the parser, and popping it gives the
packet back (`vlan_push_pop`).
-/

namespace Linuxyz.Xdp

open Linuxyz.Buffer (toBe16 memcpy overwrite)
open Linuxyz.LittleEndian (htons)

/-- `struct xdp_md`: the bytes that the head may grow into, and the packet. -/
structure Ctx where
  headroom : List UInt8
  data : List UInt8
deriving DecidableEq, Repr

/-- `bpf_xdp_adjust_head` by `n` bytes back; the packet begins with what was there. -/
def growHead (ctx : Ctx) (n : Nat) : Option Ctx :=
  if ctx.headroom.length < n then none
  else
    let keep := ctx.headroom.length - n
    some ⟨ctx.headroom.take keep, ctx.headroom.drop keep ++ ctx.data⟩

/-- `bpf_xdp_adjust_head` by `n` bytes forward, which has to leave an Ethernet header. -/
def shrinkHead (ctx : Ctx) (n : Nat) : Option Ctx :=
  if ctx.data.length < n + 14 then none else some ⟨ctx.headroom ++ ctx.data.take n, ctx.data.drop n⟩

/-- `vlan_tag_pop`, with the Ethernet header at the head of the packet. -/
def vlanTagPop (ctx : Ctx) : Option (Int × Ctx) := do
  let hProto ← load16 ctx.data 12
  if !protoIsVlan hProto then some (-1, ctx)
  else if ctx.data.length < 18 then some (-1, ctx)
  else
    let tci ← load16 ctx.data 14
    let encapsulated ← load16 ctx.data 16
    let ethCpy := ctx.data.take 14
    match shrinkHead ctx 4 with
    | none => some (-1, ctx)
    | some ctx =>
        if ctx.data.length < 14 then some (-1, ctx)
        else
          let data ← memcpy ctx.data 0 ethCpy
          let data ← store16 data 12 encapsulated
          some (htons tci, { ctx with data })

/-- `vlan_tag_push`; the argument `vlid` is stored as a 16-bit number. -/
def vlanTagPush (ctx : Ctx) (vlid : Nat) : Option (Int × Ctx) :=
  let ethCpy := ctx.data.take 14
  match growHead ctx 4 with
  | none => some (-1, ctx)
  | some ctx =>
      if ctx.data.length < 14 then some (-1, ctx)
      else do
        let data ← memcpy ctx.data 0 ethCpy
        if data.length < 18 then some (-1, { ctx with data })
        else
          let data ← store16 data 14 (htons (vlid % 65536))
          let hProto ← load16 data 12
          let data ← store16 data 16 hProto
          let data ← store16 data 12 (htons ethP8021Q)
          some (0, { ctx with data })

/-- The tag that is pushed. -/
def pushedTag (vlid : Nat) : Tag := ⟨ethP8021Q, vlid % 65536, .inl rfl, Nat.mod_lt _ (by decide)⟩

theorem memcpy_zero {dst src : List UInt8} (h : src.length ≤ dst.length) :
    memcpy dst 0 src = some (src ++ dst.drop src.length) := by
  rw [Buffer.memcpy_eq_some (by omega), overwrite]
  simp

/-- The first bytes of a packet that begins with an Ethernet header. -/
theorem take_ethernet {macs : List UInt8} (hmacs : macs.length = 12) (type : Nat)
    (rest : List UInt8) : (macs ++ (toBe16 type ++ rest)).take 14 = macs ++ toBe16 type := by
  rw [← List.append_assoc]
  exact List.take_left' (by simp [hmacs])

/-- `vlan_tag_push` puts a tag behind the addresses. -/
theorem vlanTagPush_eq {ctx : Ctx} {macs rest : List UInt8} {type : Nat} (hmacs : macs.length = 12)
    (htype : type < 65536) (hroom : 4 ≤ ctx.headroom.length)
    (hdata : ctx.data = macs ++ (toBe16 type ++ rest)) (vlid : Nat) :
    vlanTagPush ctx vlid = some (0, ⟨ctx.headroom.take (ctx.headroom.length - 4),
      macs ++ ((pushedTag vlid).bytes ++ (toBe16 type ++ rest))⟩) := by
  obtain ⟨room, hroom'⟩ : ∃ room, ctx.headroom.drop (ctx.headroom.length - 4) = room := ⟨_, rfl⟩
  have hlen : room.length = 4 := by
    rw [← hroom', List.length_drop]
    omega
  -- the last bytes of the old addresses are where the tag is written to
  obtain ⟨n, -, last, hlast⟩ :=
    exists_toBe16 (show 2 ≤ (macs.drop 10).length by rw [List.length_drop]; omega)
  have hnil : last = [] := by
    have hlength := congrArg List.length hlast
    rw [List.length_drop, List.length_append, Buffer.length_toBe16] at hlength
    exact List.length_eq_zero_iff.mp (by omega)
  have hgrown :
      (room ++ (macs ++ (toBe16 type ++ rest))).drop 14 = toBe16 n ++ (toBe16 type ++ rest) := by
    have h14 : 14 = room.length + 10 := by omega
    rw [h14, ← List.drop_drop, List.drop_left, List.drop_append_of_le_length (by omega), hlast,
      hnil, List.append_nil]
  have hsize : (room ++ (macs ++ (toBe16 type ++ rest))).length = 18 + rest.length := by
    simp [hlen, hmacs]
    omega
  have hheader : (macs ++ toBe16 type).length = 14 := by simp [hmacs]
  rw [vlanTagPush, growHead, if_neg (by omega)]
  simp only [hroom', hdata, take_ethernet hmacs]
  rw [if_neg (by omega), memcpy_zero (by omega), hheader, hgrown]
  simp only [Option.bind_eq_bind, Option.bind_some]
  rw [if_neg (by simp [hmacs]; omega), store16_append (by simp [hmacs]) (Nat.mod_lt _ (by decide))]
  simp only [Option.bind_some]
  have hproto : (macs ++ toBe16 type) ++ (toBe16 (vlid % 65536) ++ (toBe16 type ++ rest)) =
      macs ++ (toBe16 type ++ (toBe16 (vlid % 65536) ++ (toBe16 type ++ rest))) :=
        List.append_assoc ..
  have hinner : (macs ++ toBe16 type) ++ (toBe16 (vlid % 65536) ++ (toBe16 type ++ rest)) =
      (macs ++ toBe16 type ++ toBe16 (vlid % 65536)) ++ (toBe16 type ++ rest) := by simp
  rw [hproto, load16_append (by simp [hmacs])]
  simp only [Option.bind_some]
  rw [← hproto, hinner, store16_append (by simp [hmacs]) htype]
  simp only [Option.bind_some]
  rw [← hinner, hproto, store16_append (by simp [hmacs]) (by decide)]
  simp [pushedTag, Tag.bytes]

/-- `vlan_tag_pop` takes the outermost tag away. -/
theorem vlanTagPop_eq {ctx : Ctx} {macs rest : List UInt8} {type : Nat} (t : Tag)
    (hmacs : macs.length = 12) (htype : type < 65536)
    (hdata : ctx.data = macs ++ (t.bytes ++ (toBe16 type ++ rest))) :
    vlanTagPop ctx = some ((t.tci : Int),
      ⟨ctx.headroom ++ macs.take 4, macs ++ (toBe16 type ++ rest)⟩) := by
  have htpid : macs ++ (t.bytes ++ (toBe16 type ++ rest)) =
      macs ++ (toBe16 t.tpid ++ (toBe16 t.tci ++ (toBe16 type ++ rest))) := by simp [Tag.bytes]
  have htci : macs ++ (toBe16 t.tpid ++ (toBe16 t.tci ++ (toBe16 type ++ rest))) =
      (macs ++ toBe16 t.tpid) ++ (toBe16 t.tci ++ (toBe16 type ++ rest)) :=
        (List.append_assoc ..).symm
  have hinner : (macs ++ toBe16 t.tpid) ++ (toBe16 t.tci ++ (toBe16 type ++ rest)) =
      (macs ++ toBe16 t.tpid ++ toBe16 t.tci) ++ (toBe16 type ++ rest) :=
        (List.append_assoc ..).symm
  have hvlan : protoIsVlan (htons t.tpid) = true := by
    rw [protoIsVlan_htons t.tpid_lt]
    exact decide_eq_true t.isVlan
  have hsize : (macs ++ (toBe16 t.tpid ++ (toBe16 t.tci ++ (toBe16 type ++ rest)))).length =
      18 + rest.length := by
    simp [hmacs]
    omega
  have hcut :
      ((macs ++ (toBe16 t.tpid ++ (toBe16 t.tci ++ (toBe16 type ++ rest)))).drop 4).drop 14 =
        rest := by
    rw [List.drop_drop, htci, hinner, ← List.append_assoc]
    exact List.drop_left' (by simp [hmacs])
  have hheader : (macs ++ toBe16 t.tpid).length = 14 := by simp [hmacs]
  rw [vlanTagPop, hdata, htpid, load16_append (by rw [hmacs])]
  simp only [Option.bind_eq_bind, Option.bind_some]
  rw [hvlan, if_neg (by decide), hsize, if_neg (by omega), htci, load16_append (by simp [hmacs])]
  simp only [Option.bind_some]
  rw [hinner, load16_append (by simp [hmacs])]
  simp only [Option.bind_some, shrinkHead, hdata]
  rw [← hinner, ← htci, htpid, hsize, if_neg (by omega), take_ethernet hmacs,
    List.take_append_of_le_length (by omega)]
  simp only
  rw [List.length_drop, hsize, if_neg (by omega),
    memcpy_zero (by rw [List.length_drop, hsize, hheader]; omega), hheader, hcut]
  simp only [Option.bind_some]
  rw [List.append_assoc, store16_append (by rw [hmacs]) htype]
  simp only [Option.bind_some, htons_htons t.tci_lt]

/-- A pushed tag is the first one that the parser finds, whatever stands behind it. -/
theorem parseEthhdrVlan_pushed {macs rest : List UInt8} {type : Nat} (hmacs : macs.length = 12)
    (htype : type < 65536) (vlid : Nat) :
    ∃ hProto pos ids,
      parseEthhdrVlan (macs ++ ((pushedTag vlid).bytes ++ (toBe16 type ++ rest))) 0 =
        some (hProto, pos, vlid % 0x1000 :: ids) := by
  have hvid : (pushedTag vlid).vid = vlid % 0x1000 := by
    simp only [Tag.vid, pushedTag]
    omega
  have hturn := vlanLoop_tag 1 macs rest (pushedTag vlid) type []
  obtain ⟨tags, type', -, -, -, -, hrest⟩ :=
    vlanLoop_sound 1 (macs ++ (pushedTag vlid).bytes) rest htype ([] ++ [(pushedTag vlid).vid])
  rw [hrest, hvid, Tag.bytes, List.append_assoc] at hturn
  rw [Tag.bytes, List.append_assoc]
  exact ⟨_, _, tags.map Tag.vid, parseEthhdrVlan_of_bytes hmacs hturn⟩

/-- **Push and pop.**  In front of any Ethernet packet, a tag that is pushed is the first one
that the parser finds; of a packet with tags the parser then finds the new tag and as many
of the old ones as it has turns for.  Popped, the tag gives its 16 bits back and leaves the
packet as it was, with the same room in front. -/
theorem vlan_push_pop (ctx : Ctx) (hlen : 14 ≤ ctx.data.length) (hroom : 4 ≤ ctx.headroom.length)
    (vlid : Nat) :
    ∃ ctx', vlanTagPush ctx vlid = some (0, ctx') ∧
      (∃ hProto pos ids,
        parseEthhdrVlan ctx'.data 0 = some (hProto, pos, vlid % 0x1000 :: ids)) ∧
      (∀ (macs : List UInt8) (tags : List Tag) (type : Nat) (rest : List UInt8),
        macs.length = 12 → type < 65536 → ¬IsVlanType type →
        ctx.data = ethernet macs tags type ++ rest →
        ∃ hProto pos, parseEthhdrVlan ctx'.data 0 =
            some (hProto, pos, (vlid % 0x1000 :: tags.map Tag.vid).take vlanMaxDepth) ∧
          (tags.length < vlanMaxDepth → hProto = htons type)) ∧
      ∃ ctx'', vlanTagPop ctx' = some (((vlid % 65536 : Nat) : Int), ctx'') ∧
        ctx''.data = ctx.data ∧ ctx''.headroom.length = ctx.headroom.length := by
  have hmacs : (ctx.data.take 12).length = 12 := by
    rw [List.length_take]
    omega
  obtain ⟨type, htype, rest, hrest⟩ :=
    exists_toBe16 (show 2 ≤ (ctx.data.drop 12).length by rw [List.length_drop]; omega)
  have hbytes : ctx.data = ctx.data.take 12 ++ (toBe16 type ++ rest) := by
    rw [← hrest, List.take_append_drop]
  refine ⟨_, vlanTagPush_eq hmacs htype hroom hbytes vlid, parseEthhdrVlan_pushed hmacs htype vlid,
    fun macs tags type' rest' hmacs' htype' hnot hdata => ?_, _,
    vlanTagPop_eq (pushedTag vlid) hmacs htype rfl, hbytes.symm, ?_⟩
  · have hfront : ctx.data.take 12 = macs := by
      rw [hdata, ethernet, List.append_assoc, ← hmacs', List.take_left]
    have hbehind : toBe16 type ++ rest = tags.flatMap Tag.bytes ++ (toBe16 type' ++ rest') := by
      rw [← hrest, hdata, ethernet, List.append_assoc, ← hmacs', List.drop_left,
        List.append_assoc]
    have htagged : ctx.data.take 12 ++ ((pushedTag vlid).bytes ++ (toBe16 type ++ rest)) =
        ethernet macs (pushedTag vlid :: tags) type' ++ rest' := by
      rw [hfront, hbehind]
      simp [ethernet]
    have hvid : (pushedTag vlid).vid = vlid % 0x1000 := by
      simp only [Tag.vid, pushedTag]
      omega
    have hparse := parseEthhdrVlan_tags (pushedTag vlid :: tags) hmacs' htype' hnot rest'
    rw [List.map_take, List.map_cons, hvid] at hparse
    refine ⟨_, _, (congrArg (parseEthhdrVlan · 0) htagged).trans hparse, fun htags => ?_⟩
    rw [List.drop_eq_nil_of_le (by rw [List.length_cons]; omega), firstType]
  · simp [hmacs]
    omega

/-- Tag 0x0064 on a packet that has the tags 0x2005 and 0x0006: the parser finds the first
two, and the tag is popped again. -/
theorem vlan_push_pop_tagged :
    ∃ ctx' ctx'', vlanTagPush ⟨[1, 2, 3, 4, 5], ethernet (List.replicate 12 0xAA)
          [pushedTag 0x2005, pushedTag 6] ethPIp ++ [7]⟩ 0x64 = some (0, ctx') ∧
      (∃ hProto pos, parseEthhdrVlan ctx'.data 0 = some (hProto, pos, [0x64, 5])) ∧
      vlanTagPop ctx' = some (0x64, ctx'') ∧
      ctx''.data = ethernet (List.replicate 12 0xAA)
      [pushedTag 0x2005, pushedTag 6] ethPIp ++ [7] := by
  obtain ⟨ctx', hpush, -, hids, ctx'', hpop, hdata, -⟩ := vlan_push_pop
    ⟨[1, 2, 3, 4, 5], ethernet (List.replicate 12 0xAA) [pushedTag 0x2005,
      pushedTag 6] ethPIp ++ [7]⟩
    (by decide) (by decide) 0x64
  obtain ⟨hProto, pos, hparse, -⟩ := hids _ _ _ _ rfl (by decide) (by decide) rfl
  exact ⟨ctx', ctx'', hpush, ⟨hProto, pos, hparse⟩, hpop, hdata⟩

end Linuxyz.Xdp
