import Linuxyz.Lib.LittleEndian

/-!
# Linuxyz.Netlink.Arp

`process_message` of `dev-sock-netlink/arp.c`: the walk over the messages that one `recv` has
brought, and over the attributes of each.

Messages that are written as netlink writes them are printed one by one (`process_message_prints`).
The length that is left is compared as an unsigned one: behind a last message that is not padded
it is negative, and the loop goes on to a header that was not received.  It always stops there,
and reads no more than nine bytes behind the end (`process_message_reads`).
-/

namespace Linuxyz.Netlink

open LittleEndian

/-! ## The program -/

/-- `RTM_NEWNEIGH` -/
def rtmNewneigh : Nat := 28

/-- `RTM_DELNEIGH` -/
def rtmDelneigh : Nat := 29

/-- `NDA_DST` -/
def ndaDst : Nat := 1

/-- `NDA_LLADDR` -/
def ndaLladdr : Nat := 2

/-- The size of a `struct nlmsghdr`. -/
def hdrSize : Nat := 16

/-- The offset of the attributes, `NLMSG_SPACE(sizeof(struct rtmsg))`. -/
def attrOffset : Nat := 28

/-- A line that is printed. -/
inductive Event where
  | newneigh
  | delneigh
  | error
  /-- the four bytes of an address -/
  | addr (bytes : List UInt8)
  | lladdr (bytes : List UInt8)
  | nda (type : Nat)
deriving DecidableEq, Repr

/-- `NLMSG_ALIGN` and `RTA_ALIGN` -/
def align (n : Nat) : Nat := (n + 3) / 4 * 4 % 4294967296

/-- A value that is stored in an `int`. -/
def int (n : Int) : Int := n.bmod 4294967296

/-- The body of the loop over the attributes. -/
def printAttr (m : Mem) (rtatp : Nat) : Event :=
  let type := load16 m (rtatp + 2)
  if type = ndaDst then .addr (bytesAt m (rtatp + 4) 4)
  else if type = ndaLladdr then .lladdr (bytesAt m (rtatp + 4) (load16 m rtatp - 4))
  else .nda type

/-- The loop over the attributes, for a number of rounds. -/
def attributes (m : Mem) : Nat → Nat → Int → Option (List Event)
  | 0, _, _ => none
  | fuel + 1, rtatp, rtattrlen =>
      -- RTA_OK
      if 4 ≤ rtattrlen ∧ 4 ≤ load16 m rtatp ∧ (load16 m rtatp : Int) ≤ rtattrlen then
        (attributes m fuel (rtatp + align (load16 m rtatp))
          (int (rtattrlen - align (load16 m rtatp)))).map
          (printAttr m rtatp :: ·)
      else some []

/-- What is printed for the type of a message. -/
def kind (type : Nat) : List Event :=
  if type = rtmNewneigh then [.newneigh] else if type = rtmDelneigh then [.delneigh] else []

/-- The check of a message.  In `NLMSG_OK` the length that is left is compared with an unsigned
one. -/
def Bad (nlmsgLen : Nat) (rawMsgLen : Int) : Prop :=
  let len := int nlmsgLen
  let reqLen := int (len - hdrSize)
  reqLen < 0 ∨ rawMsgLen < len ∨
    ¬(hdrSize ≤ rawMsgLen ∧ hdrSize ≤ nlmsgLen ∧ (nlmsgLen : Int) ≤ rawMsgLen % 4294967296)

instance (nlmsgLen : Nat) (rawMsgLen : Int) : Decidable (Bad nlmsgLen rawMsgLen) :=
  inferInstanceAs (Decidable (_ ∨ _ ∨ _))

/-- The loop over the messages, for a number of rounds. -/
def messages (m : Mem) : Nat → Nat → Int → Option (List Event)
  | 0, _, _ => none
  | fuel + 1, nlmp, rawMsgLen =>
      -- an `int` is compared with a `size_t`
      if hdrSize < rawMsgLen % 18446744073709551616 then
        let nlmsgLen := load32 m nlmp
        let head := kind (load16 m (nlmp + 4))
        if Bad nlmsgLen rawMsgLen then some (head ++ [.error])
        else
          let rtattrlen := int (nlmsgLen - attrOffset)
          (attributes m (rtattrlen.toNat + 1) (nlmp + attrOffset) rtattrlen).bind fun attrs =>
            (messages m fuel (nlmp + align nlmsgLen) (int (rawMsgLen - align nlmsgLen))).map
              (head ++ attrs ++ ·)
      else some []

/-- `process_message` on the first bytes of the memory. -/
def processMessage (m : Mem) (rawMsgLen : Nat) : Option (List Event) :=
  messages m (rawMsgLen + 1) 0 rawMsgLen

/-! ## The arithmetic -/

variable {m m' : Mem} {n fuel p : Nat} {raw : Int}

theorem int_eq_self {n : Int} (hlow : -2147483648 ≤ n) (hhigh : n < 2147483648) : int n = n :=
  Int.bmod_eq_of_le hlow hhigh

theorem align_eq (hn : n < 2147483648) : align n = (n + 3) / 4 * 4 := by
  unfold align
  omega

/-- The check refuses what does not fit into what is left. -/
theorem bad_iff {nlmsgLen : Nat} (hlen : nlmsgLen < 4294967296) (hlow : -3 ≤ raw)
    (hhigh : raw < 2147483648) :
    Bad nlmsgLen raw ↔ ¬(hdrSize ≤ nlmsgLen ∧ (nlmsgLen : Int) ≤ raw) := by
  unfold Bad hdrSize
  by_cases hsmall : nlmsgLen < 2147483648
  · have hint : int nlmsgLen = nlmsgLen := int_eq_self (by omega) (by omega)
    simp only [hint]
    rw [int_eq_self (by omega) (by omega)]
    omega
  · -- such a length is negative as an `int`, but too large for `NLMSG_OK`
    refine iff_of_true (.inr (.inr ?_)) ?_ <;> omega

theorem load32_lt (m : Mem) (a : Nat) : load32 m a < 4294967296 := by
  have hlow := load16_lt m a
  have hhigh := load16_lt m (a + 2)
  unfold load32
  omega

/-- A round over a message that fits. -/
theorem messages_message (hlow : -3 ≤ raw) (hhigh : raw < 2147483648) (hraw : 16 < raw)
    (hmin : hdrSize ≤ load32 m p) (hmax : (load32 m p : Int) ≤ raw) :
    messages m (fuel + 1) p raw =
      (attributes m (load32 m p - attrOffset + 1) (p + attrOffset) (load32 m p - attrOffset)).bind
        fun attrs =>
        (messages m fuel (p + align (load32 m p)) (raw - align (load32 m p))).map
          (kind (load16 m (p + 4)) ++ attrs ++ ·) := by
  have halign := align_eq (n := load32 m p) (by omega)
  have hgood : ¬Bad (load32 m p) raw := by
    rw [bad_iff (load32_lt m p) hlow hhigh, not_not]; exact ⟨hmin, hmax⟩
  have hattr : int (load32 m p - attrOffset) = load32 m p - attrOffset := by
    unfold attrOffset
    exact int_eq_self (by omega) (by omega)
  have hnat : ((load32 m p : Int) - attrOffset).toNat = load32 m p - attrOffset := by omega
  rw [messages, if_pos (by unfold hdrSize; omega)]
  dsimp only
  rw [if_neg hgood, hattr, hnat, int_eq_self (by omega) (by omega)]

/-- A round that ends with an error. -/
theorem messages_error (hlow : -3 ≤ raw) (hhigh : raw < 2147483648) (hraw : raw < 0 ∨ 16 < raw)
    (hbad : ¬(hdrSize ≤ load32 m p ∧ (load32 m p : Int) ≤ raw)) :
    messages m (fuel + 1) p raw = some (kind (load16 m (p + 4)) ++ [.error]) := by
  rw [messages, if_pos (by unfold hdrSize; omega)]
  dsimp only
  rw [if_pos ((bad_iff (load32_lt m p) hlow hhigh).mpr hbad)]

theorem messages_done (hlow : 0 ≤ raw) (hraw : raw ≤ 16) :
    messages m (fuel + 1) p raw = some [] := by
  rw [messages, if_neg (by unfold hdrSize; omega)]

/-- A round over an attribute that fits. -/
theorem attributes_attr {len : Int} (hhigh : len < 2147483648) (hmin : 4 ≤ load16 m p)
    (hmax : (load16 m p : Int) ≤ len) :
    attributes m (fuel + 1) p len =
      (attributes m fuel (p + align (load16 m p)) (len - align (load16 m p))).map
        (printAttr m p :: ·) := by
  have halign := align_eq (n := load16 m p) (by omega)
  rw [attributes, if_pos ⟨by omega, hmin, hmax⟩, int_eq_self (by omega) (by omega)]

theorem attributes_done {len : Int} (h : ¬(4 ≤ len ∧ 4 ≤ load16 m p ∧ (load16 m p : Int) ≤ len)) :
    attributes m (fuel + 1) p len = some [] := if_neg h

/-! ## How far it reads -/

/-- The two memories have the same bytes up to an address. -/
def Agree (m m' : Mem) (n : Int) : Prop := ∀ i : Nat, (i : Int) < n → m' i = m i

theorem Agree.mono {n k : Int} (h : Agree m m' n) (hk : k ≤ n) : Agree m m' k :=
  fun i hi => h i (by omega)

theorem Agree.load16 {k : Int} (h : Agree m m' k) (hp : (p : Int) + 2 ≤ k) :
    load16 m' p = load16 m p :=
  load16_congr fun i _ hi => h i (by omega)

theorem Agree.load32 {k : Int} (h : Agree m m' k) (hp : (p : Int) + 4 ≤ k) :
    load32 m' p = load32 m p :=
  load32_congr fun i _ hi => h i (by omega)

theorem Agree.bytesAt {k : Int} (h : Agree m m' k) (hp : (p : Int) + n ≤ k) :
    bytesAt m' p n = bytesAt m p n :=
  bytesAt_congr fun i _ hi => h i (by omega)

theorem printAttr_congr {len : Int} (h : Agree m m' (p + len + 4)) (hmin : 4 ≤ len)
    (hmax : (load16 m p : Int) ≤ len) : printAttr m' p = printAttr m p := by
  have htype : load16 m' (p + 2) = load16 m (p + 2) := h.load16 (by omega)
  have hlen : load16 m' p = load16 m p := h.load16 (by omega)
  have haddr : bytesAt m' (p + 4) 4 = bytesAt m (p + 4) 4 := h.bytesAt (by omega)
  have hlladdr : bytesAt m' (p + 4) (load16 m p - 4) = bytesAt m (p + 4) (load16 m p - 4) :=
    h.bytesAt (by omega)
  simp only [printAttr, htype, hlen, haddr, hlladdr]

/-- The loop over the attributes ends, and reads at most four bytes behind them. -/
theorem attributes_reads {len : Int} (h : Agree m m' (p + len + 4)) (hhigh : len < 2147483648)
    (hfuel : len < fuel) :
    attributes m' fuel p len = attributes m fuel p len ∧
      (0 < fuel → attributes m fuel p len ≠ none) := by
  induction fuel generalizing p len with
  | zero => exact ⟨rfl, fun hpos => absurd hpos (Nat.lt_irrefl 0)⟩
  | succ fuel ih =>
      by_cases hok : 4 ≤ len ∧ 4 ≤ load16 m p ∧ (load16 m p : Int) ≤ len
      · obtain ⟨hlen, hmin, hmax⟩ := hok
        have hload : load16 m' p = load16 m p := h.load16 (by omega)
        have halign := align_eq (n := load16 m p) (by omega)
        have hrest : attributes m' fuel (p + align (load16 m p)) (len - align (load16 m p)) = _ ∧
            _ :=
          ih (h.mono (by omega)) (by omega) (by omega)
        rw [attributes_attr hhigh hmin hmax, attributes_attr hhigh (hload ▸ hmin) (hload ▸ hmax),
          hload, hrest.1, printAttr_congr h hlen hmax]
        exact ⟨rfl, fun _ hnone => hrest.2 (by omega) (Option.map_eq_none_iff.mp hnone)⟩
      · have hok' : ¬(4 ≤ len ∧ 4 ≤ load16 m' p ∧ (load16 m' p : Int) ≤ len) := fun hok' => by
          have hload : load16 m' p = load16 m p := h.load16 (by omega)
          exact hok (hload ▸ hok')
        rw [attributes_done hok, attributes_done hok']
        exact ⟨rfl, fun _ hnone => by cases hnone⟩

/-- The whole walk from a message on, by induction on the rounds: a header that was not
received is read only when less than nothing is left. -/
theorem messages_reads (h : Agree m m' (p + raw + 9)) (hlow : -3 ≤ raw) (hhigh : raw < 2147483648)
    (hfuel : raw < fuel) (hpos : 0 < fuel) :
    messages m' fuel p raw = messages m fuel p raw ∧ messages m fuel p raw ≠ none := by
  induction fuel generalizing p raw with
  | zero => exact absurd hpos (Nat.lt_irrefl 0)
  | succ fuel ih =>
      by_cases hdone : 0 ≤ raw ∧ raw ≤ 16
      · rw [messages_done hdone.1 hdone.2, messages_done hdone.1 hdone.2]
        exact ⟨rfl, fun hnone => by cases hnone⟩
      have hmore : raw < 0 ∨ 16 < raw := by omega
      -- where the length is negative, the header starts up to three bytes behind the end
      have hload : load32 m' p = load32 m p := h.load32 (by omega)
      have hkind : load16 m' (p + 4) = load16 m (p + 4) := h.load16 (by omega)
      by_cases hok : hdrSize ≤ load32 m p ∧ (load32 m p : Int) ≤ raw
      · obtain ⟨hmin, hmax⟩ := hok
        have hraw : 16 < raw := by
          unfold hdrSize at hmin
          omega
        have halign := align_eq (n := load32 m p) (by omega)
        have hattrs :
            attributes m' (load32 m p - attrOffset + 1) (p + attrOffset) (load32 m p - attrOffset) =
              _ ∧ _ :=
          attributes_reads (h.mono (by omega)) (by omega) (by omega)
        have hpositive : 0 < align (load32 m p) := by
          unfold hdrSize at hmin
          omega
        have hrest : messages m' fuel (p + align (load32 m p)) (raw - align (load32 m p)) = _ ∧ _ :=
          ih (h.mono (by omega)) (by omega) (by omega) (by omega) (by omega)
        rw [messages_message hlow hhigh hraw hmin hmax,
          messages_message hlow hhigh hraw (hload ▸ hmin) (hload ▸ hmax), hload, hkind,
          hattrs.1, hrest.1]
        refine ⟨rfl, fun hnone => ?_⟩
        obtain ⟨attrs, hsome⟩ := Option.ne_none_iff_exists'.mp (hattrs.2 (Nat.succ_pos _))
        rw [hsome, Option.bind_some] at hnone
        exact hrest.2 (Option.map_eq_none_iff.mp hnone)
      · rw [messages_error hlow hhigh hmore hok,
          messages_error hlow hhigh hmore (hload ▸ hok), hkind]
        exact ⟨rfl, fun hnone => by cases hnone⟩

/-- **How far it reads.**  Whatever has been received, `process_message` ends, and what it prints
depends on no byte that stands nine bytes or more behind the end. -/
theorem process_message_reads (n : Nat) (hn : n < 2147483648) (h : ∀ i < n + 9, m' i = m i) :
    processMessage m' n = processMessage m n ∧ processMessage m n ≠ none :=
  messages_reads (fun i hi => h i (by omega)) (by omega) (by omega) (by omega) (Nat.succ_pos n)

/-- 33 bytes, of which the only attribute has one byte, and in front of a 28 in byte 40. -/
def shortMem : Mem := storeBytes (Function.update (fun _ => 0) 40 28) 0
  (le32 33 ++ (le16 29 ++ (List.replicate 22 0 ++ [5, 0, 3, 0, 7])))

/-- The byte eight behind the end is read, and the one behind that is not. -/
theorem process_message_reads_short :
    processMessage (Function.update shortMem 41 1) 33 ≠ processMessage shortMem 33 ∧
      processMessage (Function.update shortMem 42 1) 33 = processMessage shortMem 33 := by
  refine ⟨by decide +kernel, (process_message_reads 33 (by decide) fun i hi => ?_).1⟩
  exact Function.update_of_ne (by omega) ..

/-! ## Messages as netlink writes them -/

structure Attr where
  type : Nat
  payload : List UInt8
deriving DecidableEq, Repr

/-- `rta_len` -/
def Attr.len (a : Attr) : Nat := 4 + a.payload.length

structure Attr.Valid (a : Attr) : Prop where
  type : a.type < 65536
  len : a.len < 65536
  addr : a.type = ndaDst → 4 ≤ a.payload.length

def Attr.bytes (a : Attr) : List UInt8 := le16 a.len ++ (le16 a.type ++ a.payload)

def padding (n : Nat) : List UInt8 := List.replicate ((n + 3) / 4 * 4 - n) 0

/-- Attributes one behind the other; the last one is not padded if `cut`. -/
def area (cut : Bool) : List Attr → List UInt8
  | [] => []
  | [a] => a.bytes ++ if cut then [] else padding a.len
  | a :: b :: as => (a.bytes ++ padding a.len) ++ area cut (b :: as)

/-- What is printed for an attribute: of an address the first four bytes. -/
def Attr.event (a : Attr) : Event :=
  if a.type = ndaDst then .addr (a.payload.take 4)
  else if a.type = ndaLladdr then .lladdr a.payload
  else .nda a.type

/-- A message: its type, flags, sequence number and port ID, the `struct ndmsg`, and the
attributes. -/
structure Msg where
  type : Nat
  info : List UInt8
  ndmsg : List UInt8
  attrs : List Attr
deriving DecidableEq, Repr

structure Msg.Valid (msg : Msg) : Prop where
  type : msg.type < 65536
  info : msg.info.length = 10
  ndmsg : msg.ndmsg.length = 12
  attrs : ∀ a ∈ msg.attrs, a.Valid

/-- `nlmsg_len` -/
def Msg.len (cut : Bool) (msg : Msg) : Nat := attrOffset + (area cut msg.attrs).length

def Msg.bytes (cut : Bool) (msg : Msg) : List UInt8 :=
  le32 (msg.len cut) ++ (le16 msg.type ++ (msg.info ++ (msg.ndmsg ++ area cut msg.attrs)))

def Msg.events (msg : Msg) : List Event := kind msg.type ++ msg.attrs.map Attr.event

variable {a : Attr} {as : List Attr} {msg : Msg} {cut : Bool}

@[simp] theorem length_le16 (v : Nat) : (le16 v).length = 2 := rfl

@[simp] theorem length_le32 (v : Nat) : (le32 v).length = 4 := rfl

theorem Attr.length_bytes (a : Attr) : a.bytes.length = a.len := by
  simp only [Attr.bytes, Attr.len, List.length_append, length_le16]
  omega

theorem length_padding (n : Nat) : (padding n).length = (n + 3) / 4 * 4 - n := List.length_replicate

/-- The fields of an attribute in memory, and what is printed for it. -/
theorem Attr.Valid.holds (ha : a.Valid) (h : Holds m p a.bytes) :
    load16 m p = a.len ∧ printAttr m p = a.event := by
  obtain ⟨hlen, hrest⟩ := holds_append.mp h
  obtain ⟨htype, hpayload⟩ := holds_append.mp hrest
  have hlen : load16 m p = a.len := hlen.load16 ha.len
  have htype : load16 m (p + 2) = a.type := htype.load16 ha.type
  have hpayload : bytesAt m (p + 4) a.payload.length = a.payload := hpayload
  refine ⟨hlen, ?_⟩
  simp only [printAttr, Attr.event, htype, hlen]
  by_cases hdst : a.type = ndaDst
  · obtain ⟨k, hk⟩ := Nat.exists_eq_add_of_le (ha.addr hdst)
    have htake : bytesAt m (p + 4) 4 = a.payload.take 4 := by
      rw [← hpayload, hk, bytesAt_add, List.take_left' (length_bytesAt ..)]
    rw [if_pos hdst, if_pos hdst, htake]
  · rw [if_neg hdst, if_neg hdst, Attr.len, Nat.add_sub_cancel_left, hpayload]

/-- The loop prints the attributes, whether the last one is padded or not. -/
theorem attributes_area (has : ∀ a ∈ as, a.Valid) (hlen : (area cut as).length < 2147483648)
    (h : Holds m p (area cut as)) (hfuel : (area cut as).length < fuel) :
    attributes m fuel p (area cut as).length = some (as.map Attr.event) := by
  induction as generalizing p fuel with
  | nil =>
      obtain ⟨fuel, rfl⟩ :=
        Nat.exists_eq_add_one_of_ne_zero (Nat.ne_of_gt (Nat.zero_lt_of_lt hfuel))
      exact attributes_done fun hok => absurd hok.1 (by simp [area])
  | cons a as ih =>
      obtain ⟨ha, has⟩ := List.forall_mem_cons.mp has
      obtain ⟨fuel, rfl⟩ :=
        Nat.exists_eq_add_one_of_ne_zero (Nat.ne_of_gt (Nat.zero_lt_of_lt hfuel))
      have hbytes := a.length_bytes
      have halign : align a.len = (a.len + 3) / 4 * 4 := align_eq (Nat.lt_trans ha.len (by decide))
      have hfour : 4 ≤ a.len := Nat.le_add_right 4 _
      cases as with
      | nil =>
          obtain ⟨hload, hprint⟩ := ha.holds (holds_append.mp h).1
          have hle : a.len ≤ (area cut [a]).length := by
            rw [area, List.length_append, hbytes]; omega
          have hge : (area cut [a]).length ≤ (a.len + 3) / 4 * 4 := by
            rw [area, List.length_append, hbytes]
            cases cut
            · simp only [Bool.false_eq_true, if_false, length_padding]
              omega
            · simp only [if_true, List.length_nil]
              omega
          obtain ⟨fuel, rfl⟩ := Nat.exists_eq_add_one_of_ne_zero (n := fuel) (by omega)
          rw [attributes_attr (by omega) (by omega) (by omega), hprint, hload,
            attributes_done fun hok => by omega]
          rfl
      | cons b as =>
          have harea : area cut (a :: b :: as) = (a.bytes ++ padding a.len) ++ area cut (b :: as) :=
            rfl
          have hfront : (a.bytes ++ padding a.len).length = align a.len := by
            rw [List.length_append, hbytes, length_padding, halign]
            omega
          rw [harea] at h hlen hfuel ⊢
          obtain ⟨hattr, hrest⟩ := holds_append.mp h
          obtain ⟨hload, hprint⟩ := ha.holds (holds_append.mp hattr).1
          rw [List.length_append, hfront] at hlen hfuel ⊢
          rw [hfront] at hrest
          have hsub : ((align a.len + (area cut (b :: as)).length : Nat) : Int) - align a.len =
              (area cut (b :: as)).length := by omega
          rw [attributes_attr (by omega) (by omega) (by omega), hprint, hload, hsub,
            ih has (by omega) hrest (by omega)]
          rfl

/-- The fields of a message in memory, and what is printed for its attributes. -/
theorem Msg.Valid.holds (hmsg : msg.Valid) (hlen : msg.len cut < 2147483648)
    (h : Holds m p (msg.bytes cut)) :
    load32 m p = msg.len cut ∧ load16 m (p + 4) = msg.type ∧
      attributes m (msg.len cut - attrOffset + 1) (p + attrOffset)
      ((msg.len cut : Int) - attrOffset) = some (msg.attrs.map Attr.event) := by
  obtain ⟨hload, h⟩ := holds_append.mp h
  obtain ⟨htype, h⟩ := holds_append.mp h
  obtain ⟨-, h⟩ := holds_append.mp h
  obtain ⟨-, harea⟩ := holds_append.mp h
  have hoffset :
      p + (le32 (msg.len cut)).length + (le16 msg.type).length + msg.info.length +
        msg.ndmsg.length =
      p + attrOffset := by
    rw [length_le32, length_le16, hmsg.info, hmsg.ndmsg, attrOffset]
  rw [hoffset] at harea
  have hnat : msg.len cut - attrOffset = (area cut msg.attrs).length := Nat.add_sub_cancel_left ..
  have hint : (msg.len cut : Int) - attrOffset = (area cut msg.attrs).length := by
    rw [Msg.len]
    omega
  refine ⟨hload.load32 (by omega), htype.load16 hmsg.type, ?_⟩
  rw [hnat, hint]
  exact attributes_area hmsg.attrs (by rw [Msg.len] at hlen; omega) harea (Nat.lt_succ_self _)

theorem Msg.Valid.length_bytes (hmsg : msg.Valid) (cut : Bool) :
    (msg.bytes cut).length = msg.len cut := by
  simp only [Msg.bytes, List.length_append, length_le32, length_le16, hmsg.info, hmsg.ndmsg,
    Msg.len, attrOffset]
  omega

/-- Padded attributes fill whole words. -/
theorem length_area_mod (as : List Attr) : (area false as).length % 4 = 0 := by
  induction as with
  | nil => rfl
  | cons a as ih =>
      have hbytes := a.length_bytes
      have hpad := length_padding a.len
      cases as with
      | nil =>
          simp only [area, List.length_append, Bool.false_eq_true, if_false]
          omega
      | cons b as =>
          rw [area, List.length_append, List.length_append]
          omega

/-- What is printed behind a message that is not padded, for the header that was not received. -/
def beyond (m : Mem) (n : Nat) : List Event :=
  if n % 4 = 0 then [] else kind (load16 m ((n + 3) / 4 * 4 + 4)) ++ [.error]

/-- One round of the loop, over a message that is well formed. -/
theorem messages_msg (hmsg : msg.Valid) (h : Holds m p (msg.bytes cut))
    (hraw : (msg.len cut : Int) ≤ raw) (hhigh : raw < 2147483648) :
    messages m (fuel + 1) p raw =
      (messages m fuel (p + (msg.len cut + 3) / 4 * 4)
        (raw - ((msg.len cut + 3) / 4 * 4 : Nat))).map
        (msg.events ++ ·) := by
  have hmin : attrOffset ≤ msg.len cut := Nat.le_add_right ..
  unfold attrOffset at hmin
  obtain ⟨hload, htype, hattrs⟩ := hmsg.holds (by omega) h
  rw [messages_message (by omega) hhigh (by omega) (by rw [hload, hdrSize]; omega)
    (by rw [hload]; exact hraw), hload, htype, hattrs, Option.bind_some, align_eq (by omega)]
  rfl

/-- The last message, and what the loop finds behind it. -/
theorem messages_last (hmsg : msg.Valid) (hp : p % 4 = 0) (h : Holds m p (msg.bytes cut))
    (hend : p + msg.len cut = n) (hlt : n < 2147483648) (hfuel : msg.len cut < fuel) :
    messages m fuel p (msg.len cut) = some (msg.events ++ beyond m n) := by
  have hmin : attrOffset ≤ msg.len cut := Nat.le_add_right ..
  unfold attrOffset at hmin
  obtain ⟨fuel, rfl⟩ : ∃ k, fuel = k + 1 + 1 := ⟨fuel - 2, by omega⟩
  have hnext : p + (msg.len cut + 3) / 4 * 4 = (n + 3) / 4 * 4 := by omega
  rw [messages_msg hmsg h (by omega) (by omega), hnext, beyond]
  by_cases hpadded : n % 4 = 0
  · rw [if_pos hpadded, messages_done (by omega) (by omega), Option.map_some]
  · rw [if_neg hpadded, messages_error (by omega) (by omega) (by omega) (by omega), Option.map_some]

/-- The walk over messages that stand in memory, by induction on the messages in front
of the last one. -/
theorem messages_walk {msgs : List Msg} {last : Msg} (hmsgs : ∀ msg ∈ msgs, msg.Valid)
    (hlast : last.Valid) (hp : p % 4 = 0)
    (h : Holds m p (msgs.flatMap (Msg.bytes false) ++ last.bytes cut))
    (hend : p + (msgs.flatMap (Msg.bytes false) ++ last.bytes cut).length = n)
    (hlt : n < 2147483648)
    (hfuel : (msgs.flatMap (Msg.bytes false) ++ last.bytes cut).length < fuel) :
    messages m fuel p (msgs.flatMap (Msg.bytes false) ++ last.bytes cut).length =
      some (msgs.flatMap Msg.events ++ (last.events ++ beyond m n)) := by
  induction msgs generalizing p fuel with
  | nil =>
      simp only [List.flatMap_nil, List.nil_append, hlast.length_bytes] at h hend hfuel ⊢
      exact messages_last hlast hp h hend hlt hfuel
  | cons msg msgs ih =>
      obtain ⟨hmsg, hmsgs⟩ := List.forall_mem_cons.mp hmsgs
      rw [List.flatMap_cons, List.append_assoc] at h hend hfuel ⊢
      rw [List.length_append, hmsg.length_bytes] at hend hfuel ⊢
      obtain ⟨hhead, hrest⟩ := holds_append.mp h
      rw [hmsg.length_bytes] at hrest
      have hmin : attrOffset ≤ msg.len false := Nat.le_add_right ..
      unfold attrOffset at hmin
      have hwords : (msg.len false + 3) / 4 * 4 = msg.len false := by
        have harea := length_area_mod msg.attrs
        unfold Msg.len attrOffset
        omega
      obtain ⟨fuel, rfl⟩ : ∃ k, fuel = k + 1 := ⟨fuel - 1, by omega⟩
      have hleft :
          ((msg.len false + (msgs.flatMap (Msg.bytes false) ++
            last.bytes cut).length : Nat) : Int) -
          (msg.len false : Nat) = (msgs.flatMap (Msg.bytes false) ++ last.bytes cut).length := by
            omega
      rw [messages_msg hmsg hhead (by omega) (by omega), hwords, hleft,
        ih hmsgs (by omega) hrest (by omega) (by omega), Option.map_some, List.flatMap_cons,
        List.append_assoc]

/-- **What is printed.**  Messages one behind the other, of which the last may be without its
padding, are printed one by one.  If it is, an error is printed behind them, and before that
what the bytes behind the end say the type of a further message is. -/
theorem process_message_prints {msgs : List Msg} {last : Msg} (hmsgs : ∀ msg ∈ msgs, msg.Valid)
    (hlast : last.Valid) (hn : (msgs.flatMap (Msg.bytes false) ++ last.bytes cut).length = n)
    (hlt : n < 2147483648) (h : Holds m 0 (msgs.flatMap (Msg.bytes false) ++ last.bytes cut)) :
    processMessage m n = some (msgs.flatMap Msg.events ++ (last.events ++ beyond m n)) := by
  have hwalk :=
    messages_walk hmsgs hlast (Nat.zero_mod 4) h (by omega) hlt
      (Nat.lt_succ_of_le (Nat.le_of_eq hn))
  rwa [hn] at hwalk

/-- A new neighbour with a link-layer address of six bytes. -/
def oneNeigh : Msg := ⟨28, List.replicate 10 0, List.replicate 12 0, [⟨2, [1, 2, 3, 4, 5, 6]⟩]⟩

theorem oneNeigh_valid : oneNeigh.Valid where
  type := by decide
  info := by decide
  ndmsg := by decide
  attrs := List.forall_mem_singleton.mpr ⟨by decide, by decide, by decide⟩

theorem process_message_prints_cut :
    processMessage (storeBytes (fun _ => 0) 0 (oneNeigh.bytes false ++ oneNeigh.bytes true)) 78 =
      some [.newneigh, .lladdr [1, 2, 3, 4, 5, 6], .newneigh, .lladdr [1, 2, 3, 4, 5, 6],
        .error] := by
  have hprints :
      processMessage (storeBytes (fun _ => 0) 0 (oneNeigh.bytes false ++ oneNeigh.bytes true)) 78 =
      some ([oneNeigh].flatMap Msg.events ++ (oneNeigh.events ++ beyond _ 78)) :=
    process_message_prints (List.forall_mem_singleton.mpr oneNeigh_valid) oneNeigh_valid
      (by decide) (by decide)
      (bytesAt_storeBytes ..)
  rw [hprints]
  decide +kernel

end Linuxyz.Netlink
