import Linuxyz.Ncat.Server

/-!
# Linuxyz.Ncat.Framing

Which streams the connection loop decodes.

The message loop reads any message shorter than `2 ^ 31` bytes, however the stream
is cut (`readData_eq`).  The header loop steps its pointer by four bytes for each byte
it has read: a header that arrives whole is read (`readHead_of_uncut`), one that
arrives in pieces is stored outside `rhead` (`readHead_of_cut`).
`messages_printed_iff` puts the two together for every list of messages.
-/

namespace Linuxyz.Ncat

open Buffer

/-! ## messages -/

/-- A message that a C string and a 32-bit length can carry. -/
structure Message where
  text : List UInt8
  nulFree : 0 ∉ text
  fits : text.length < 2 ^ 32

/-- The length in network byte order, then the message. -/
def Message.frame (m : Message) : List UInt8 := toBe32 m.text.length ++ m.text

def encode (ms : List Message) : List UInt8 := ms.flatMap Message.frame

/-- The messages, one on a line. -/
def printed (ms : List Message) : List UInt8 := ms.flatMap fun m => m.text ++ [10]

/-- No header is cut: the stream is nowhere cut one, two or three bytes behind the
start of a frame. -/
def HeadersWhole (ms : List Message) (s : Segments UInt8) : Prop :=
  ∀ n < ms.length, ∀ i < 4, 0 < i → (encode (ms.take n)).length + i ∉ s.ends

instance : Decidable (HeadersWhole ms s) :=
  inferInstanceAs (Decidable (∀ n < ms.length, ∀ i < 4, 0 < i →
    (encode (ms.take n)).length + i ∉ s.ends))

/-- No header of a stream is cut exactly if the first is not, nor one of the rest. -/
theorem headersWhole_cons (m : Message) (ms : List Message) (s : Segments UInt8) :
    HeadersWhole (m :: ms) s ↔
      (∀ i < 4, 0 < i → i ∉ s.ends) ∧ HeadersWhole ms (s.skip m.frame.length) := by
  have hshift (n i : Nat) : (encode ((m :: ms).take (n + 1))).length + i =
      m.frame.length + ((encode (ms.take n)).length + i) := by
    rw [List.take_succ_cons, encode, List.flatMap_cons, List.length_append, encode]
    omega
  constructor
  · intro h
    constructor
    · intro i h₄ h₀
      simpa [encode] using h 0 (by simp) i h₄ h₀
    · intro n hn i h₄ h₀
      rw [s.mem_ends_skip _ (by omega), ← hshift]
      exact h (n + 1) (by simpa using hn) i h₄ h₀
  · rintro ⟨hhead, hrest⟩ n hn i h₄ h₀
    cases n with
    | zero => simpa [encode] using hhead i h₄ h₀
    | succ n =>
        rw [hshift, ← s.mem_ends_skip _ (by omega)]
        exact hrest n (by simpa using hn) i h₄ h₀

/-! ## the loops -/

theorem toInt_of_lt (h : n < 2 ^ 31) : toInt n = n := by
  unfold toInt
  omega

/-- One round of a loop. -/
theorem readLoop_step (hv : valread < size) (hm : (s.read (size - valread)).length = m)
    (hpos : 0 < m) (hint : valread + m < 2 ^ 31) (hfit : stride * valread + m ≤ block.length) :
    readLoop stride size block valread s =
      readLoop stride size (overwrite block (stride * valread) (s.bytes.take m)) (valread + m)
      (s.skip m) := by
  have hbytes : s.read (size - valread) = s.bytes.take m := by rw [s.read_eq, hm]
  have hne : s.read (size - valread) ≠ [] := List.ne_nil_of_length_pos (by omega)
  have hread : readInto block (stride * valread) (size - valread) s =
      some ((m : Int), overwrite block (stride * valread) (s.bytes.take m), s.skip m) := by
    simp only [readInto, if_neg hne, hm, toInt_of_lt (show m < 2 ^ 31 by omega)]
    rw [memcpy_eq_some (by omega), hbytes, Option.map_some]
  rw [readLoop, if_pos hv, hread]
  simp only [Int.toNat_natCast]
  rw [if_neg (by omega), if_pos hint]

theorem readLoop_done (stride size : Nat) (block : List UInt8) (s : Segments UInt8) :
    readLoop stride size block size s = some (true, block, s) := by
  rw [readLoop, if_neg (Nat.lt_irrefl _)]

/-- A loop that runs to its end has counted up to `size` in an `int`. -/
theorem size_lt_of_readLoop (h : readLoop stride size block valread s = some (true, block', s')) :
    size ≤ valread ∨ size < 2 ^ 31 := by
  fun_induction readLoop stride size block valread s with
  | case1 => cases h
  | case2 => cases h
  | case3 _ _ _ _ rb _ _ _ _ hint ih =>
      have := ih h
      omega
  | case4 => cases h
  | case5 => omega

/-- The message loop fills the block with the next bytes of the stream, however they
arrive. -/
theorem readData_eq (hint : datalen < 2 ^ 31) (hfit : datalen ≤ data.length)
    (hs : datalen ≤ s.bytes.length) :
    readData datalen data s = some (true, overwrite data 0 (s.bytes.take datalen),
      s.skip datalen) := by
  -- the part that is still missing is the request to the stream
  have hloop : ∀ n (s : Segments UInt8), n ≤ s.bytes.length → ∀ data valread, valread + n < 2 ^ 31 →
      valread + n ≤ data.length → readLoop 1 (valread + n) data valread s =
        some (true, overwrite data valread (s.bytes.take n), s.skip n) := by
    refine Segments.serve_induction ?_ ?_
    · intro s data valread hint hfit
      rw [Nat.add_zero, readLoop_done, s.skip_zero]
      simp [overwrite]
    · intro n s m hn hs hm hpos hle ih data valread hint hfit
      have htake : (s.bytes.take m).length = m := by rw [List.length_take]; omega
      have hm' : (s.read (valread + n - valread)).length = m := by rw [Nat.add_sub_cancel_left, hm]
      have hrest := ih (overwrite data valread (s.bytes.take m)) (valread + m) (by omega)
        (by rw [length_overwrite (by omega)]; omega)
      rw [readLoop_step (by omega) hm' hpos (by omega) (by omega), Nat.one_mul]
      rw [show valread + m + (n - m) = valread + n by omega] at hrest
      rw [hrest, overwrite_append htake (by omega), s.bytes_skip, s.skip_skip, ← List.take_add,
        Nat.add_sub_cancel' hle]
  simpa [readData] using hloop datalen s hs data 0 (by omega) (by omega)

/-- A header that arrives whole is read. -/
theorem readHead_of_uncut (hr : rhead.length = 4) (hs : 4 ≤ s.bytes.length)
    (h : ∀ i < 4, 0 < i → i ∉ s.ends) : readHead rhead s =
      some (true, s.bytes.take 4, s.skip 4) := by
  rw [readHead, readLoop_step (by omega) (s.length_read_of_uncut hs h) (by omega) (by omega)
    (by omega), Nat.zero_add, readLoop_done, overwrite_all (by rw [List.length_take]; omega)]

/-- A header that arrives in pieces is not: the second piece is stored behind
`rhead`. -/
theorem readHead_of_cut (hr : rhead.length = 4) (hs : 4 ≤ s.bytes.length) (h₄ : i < 4)
    (hcut : i ∈ s.ends) : readHead rhead s = none := by
  obtain ⟨m, hm⟩ : ∃ m, (s.read 4).length = m := ⟨_, rfl⟩
  have hpos : 0 < m := hm ▸ s.length_read_pos (by omega) (by omega)
  have hlt : m < 4 := hm ▸ s.length_read_of_cut h₄ hcut
  have htake : (s.bytes.take m).length = m := by rw [List.length_take]; omega
  have hstep : readLoop 4 4 rhead 0 s =
      readLoop 4 4 (overwrite rhead (4 * 0) (s.bytes.take m)) (0 + m) (s.skip m) :=
    readLoop_step (by omega) hm hpos (by omega) (by omega)
  have hblock : (overwrite rhead (4 * 0) (s.bytes.take m)).length = 4 := by
    rw [length_overwrite (by omega), hr]
  have hmore : 0 < ((s.skip m).read (4 - m)).length :=
    (s.skip m).length_read_pos (by omega) (by rw [s.bytes_skip, List.length_drop]; omega)
  have hout :
      readInto (overwrite rhead (4 * 0) (s.bytes.take m)) (4 * (0 + m)) (4 - (0 + m)) (s.skip m) =
        none := by
    rw [Nat.zero_add]
    simp only [readInto, if_neg (List.ne_nil_of_length_pos hmore), memcpy]
    rw [if_neg (by omega), Option.map_none]
  rw [readHead, hstep, readLoop, if_pos (by omega), hout]

/-- At the end of the stream `keepalive` becomes zero. -/
theorem readHead_of_nil (hs : s.bytes = []) (rhead : List UInt8) :
    readHead rhead s = some (false, rhead, s) := by
  have hread : s.read 4 = [] := by rw [s.read_eq, hs, List.take_nil]
  have hinto : readInto rhead (4 * 0) (4 - 0) s = some (0, rhead, s) := by
    simp only [readInto, hread, if_true]
  rw [readHead, readLoop, if_pos (by omega), hinto]
  rfl

/-! ## one pass -/

theorem bytes_frame {s : Segments UInt8} (m : Message) (hs : s.bytes = m.frame ++ rest) :
    s.bytes.take 4 = toBe32 m.text.length ∧ (s.skip 4).bytes = m.text ++ rest := by
  rw [s.bytes_skip, hs, Message.frame, List.append_assoc]
  exact ⟨rfl, rfl⟩

/-- A whole header is taken for the length of its message. -/
theorem pass_of_uncut {s : Segments UInt8} (m : Message) (hr : rhead.length = 4)
    (hs : s.bytes = m.frame ++ rest) (hhead : ∀ i < 4, 0 < i → i ∉ s.ends) :
    pass malloc rhead s = passData malloc (toBe32 m.text.length) (s.skip 4) := by
  have hlen : 4 ≤ s.bytes.length := by rw [hs, Message.frame]; simp
  rw [pass, readHead_of_uncut hr hlen hhead, (bytes_frame m hs).1]
  rfl

/-- A message shorter than `2 ^ 31` bytes is printed. -/
theorem passData_of_short {s : Segments UInt8} (hmalloc : ∀ size, ∃ fresh, malloc size = some fresh)
    (m : Message) (hs : s.bytes = m.text ++ rest) (hint : m.text.length < 2 ^ 31) :
    passData malloc (toBe32 m.text.length) s =
      some (.next (toBe32 m.text.length) (m.text ++ [10]) (s.skip m.text.length)) := by
  have hsize : (m.text.length + 1) % 2 ^ 32 = m.text.length + 1 := Nat.mod_eq_of_lt (by omega)
  obtain ⟨fresh, hfresh⟩ := hmalloc (m.text.length + 1)
  obtain ⟨block, hblock⟩ : ∃ block, (List.range (m.text.length + 1)).map fresh = block := ⟨_, rfl⟩
  have hlen : block.length = m.text.length + 1 := by simp [← hblock]
  have hterm : (overwrite block m.text.length [0]).drop m.text.length = [0] := by
    have htake : (block.take m.text.length).length = m.text.length := by
      rw [List.length_take]; omega
    have hrest : block.drop (m.text.length + [(0 : UInt8)].length) = [] :=
      List.drop_eq_nil_of_le (by simp [hlen])
    rw [overwrite, hrest, List.append_nil, List.drop_left' htake]
  have hstore : memcpy block m.text.length [0] = some (overwrite block m.text.length [0]) :=
    memcpy_eq_some (by simp [hlen])
  have hdata : readData m.text.length (overwrite block m.text.length [0]) s =
      some (true, m.text ++ [0], s.skip m.text.length) := by
    rw [readData_eq hint (by rw [length_overwrite (by simp [hlen])]; omega) (by simp [hs]), hs,
      List.take_left, overwrite, Nat.zero_add, hterm, List.take_zero, List.nil_append]
  have hline : printLine (m.text ++ [0]) = some (m.text ++ [10]) := by
    have htext : ∀ c ∈ m.text, decide (c ≠ 0) = true := by
      intro c hc
      rw [decide_eq_true_iff]
      rintro rfl
      exact m.nulFree hc
    rw [printLine, if_pos (by simp), List.takeWhile_append_of_pos htext]
    simp
  simp only [passData, be32_toBe32 m.fits, hsize, hfresh, hblock, hstore, hdata, hline,
    Option.bind_eq_bind, Option.bind_some, Bool.not_true, Bool.false_eq_true, if_false,
    Option.map_some]

/-- A longer one is not. -/
theorem passData_of_long (m : Message) (hint : 2 ^ 31 ≤ m.text.length) (s : Segments UInt8) :
    passData malloc (toBe32 m.text.length) s = none ∨
      passData malloc (toBe32 m.text.length) s = some .leave := by
  cases h : passData malloc (toBe32 m.text.length) s with
  | none => exact .inl rfl
  | some p =>
      cases p with
      | leave => exact .inr rfl
      | next rhead line s' =>
          simp only [passData, be32_toBe32 m.fits, Option.bind_eq_bind,
            Option.bind_eq_some_iff] at h
          obtain ⟨fresh, -, data, -, ⟨keepalive, data', s₂⟩, hdata, h⟩ := h
          cases keepalive with
          | false => cases h
          | true =>
              have := size_lt_of_readLoop hdata
              omega

/-! ## the connection -/

theorem connLoop_of_next (h : pass malloc rhead s = some (.next rhead' line s'))
    (out : List UInt8) : connLoop malloc rhead out s = connLoop malloc rhead' (out ++ line) s' := by
  rw [connLoop]
  split <;> simp_all

theorem connLoop_of_leave (h : pass malloc rhead s = some .leave) (out : List UInt8) :
    connLoop malloc rhead out s = some out := by
  rw [connLoop]
  split <;> simp_all

theorem connLoop_of_fault (h : pass malloc rhead s = none) (out : List UInt8) :
    connLoop malloc rhead out s = none := by
  rw [connLoop]
  split <;> simp_all

/-- From any header and output, the messages are appended to the output exactly if
every header is whole and every message is short. -/
theorem connLoop_eq_iff (hmalloc : ∀ size, ∃ fresh, malloc size = some fresh) (ms : List Message) :
    ∀ {rhead out : List UInt8} {s : Segments UInt8}, rhead.length = 4 → s.bytes = encode ms →
      (connLoop malloc rhead out s = some (out ++ printed ms) ↔
        HeadersWhole ms s ∧ ∀ m ∈ ms, m.text.length < 2 ^ 31) := by
  induction ms with
  | nil =>
      intro rhead out s _ hs
      have hpass : pass malloc rhead s = some .leave := by
        rw [pass, readHead_of_nil hs]
        rfl
      rw [connLoop_of_leave hpass]
      simp [printed, HeadersWhole]
  | cons m ms ih =>
      intro rhead out s hr hs
      have hs : s.bytes = m.frame ++ encode ms := hs
      rw [headersWhole_cons, List.forall_mem_cons]
      by_cases hhead : ∀ i < 4, 0 < i → i ∉ s.ends
      · have hpass : pass malloc rhead s = _ := pass_of_uncut m hr hs hhead
        by_cases hint : m.text.length < 2 ^ 31
        · have hlen : m.frame.length = 4 + m.text.length := by
            rw [Message.frame, List.length_append, length_toBe32]
          have hrest : (s.skip m.frame.length).bytes = encode ms := by
            rw [s.bytes_skip, hs, List.drop_left]
          have hout : out ++ printed (m :: ms) = out ++ (m.text ++ [10]) ++ printed ms := by
            rw [printed, List.flatMap_cons, ← List.append_assoc, printed]
          rw [passData_of_short hmalloc m (bytes_frame m hs).2 hint, s.skip_skip, ← hlen] at hpass
          rw [connLoop_of_next hpass, hout, ih (length_toBe32 _) hrest]
          constructor
          · rintro ⟨hwhole, hshort⟩
            exact ⟨⟨hhead, hwhole⟩, hint, hshort⟩
          · rintro ⟨⟨-, hwhole⟩, -, hshort⟩
            exact ⟨hwhole, hshort⟩
        · -- nothing is printed for a message that is too long
          have hprinted : some out ≠ some (out ++ printed (m :: ms)) := by simp [printed]
          rcases passData_of_long m (Nat.not_lt.mp hint) (s.skip 4) with hdata | hdata
          · rw [connLoop_of_fault (hpass.trans hdata)]
            exact iff_of_false (Option.some_ne_none _).symm fun h => hint h.2.1
          · rw [connLoop_of_leave (hpass.trans hdata)]
            exact iff_of_false hprinted fun h => hint h.2.1
      · have hcut : ∃ i, i < 4 ∧ i ∈ s.ends := by
          by_contra hno
          exact hhead fun i h₄ _ hi => hno ⟨i, h₄, hi⟩
        obtain ⟨i, h₄, hi⟩ := hcut
        have hlen : 4 ≤ s.bytes.length := by rw [hs, Message.frame]; simp
        have hpass : pass malloc rhead s = none := by rw [pass, readHead_of_cut hr hlen h₄ hi]; rfl
        rw [connLoop_of_fault hpass]
        exact iff_of_false (Option.some_ne_none _).symm fun h => hhead h.1.1

/-- The loop prints the messages, one on a line, and leaves exactly if no header is
cut and every message is shorter than `2 ^ 31` bytes. -/
theorem messages_printed_iff (malloc : Nat → Option (Nat → UInt8))
    (hmalloc : ∀ size, ∃ fresh, malloc size = some fresh) (ms : List Message) (s : Segments UInt8)
    (hs : s.bytes = encode ms) :
    serveConn malloc s = some (printed ms) ↔ HeadersWhole ms s ∧ ∀ m ∈ ms, m.text.length < 2 ^ 31 :=
  connLoop_eq_iff hmalloc ms rfl hs

/-- The message `hi`. -/
def hi : Message := ⟨[104, 105], by decide, by decide⟩

/-- `hi` and an empty message, in pieces that end behind the headers and inside `hi`. -/
def wholeHeaders : Segments UInt8 := ⟨[[0, 0, 0, 2], [104], [105], [0, 0, 0, 0]], by decide⟩

theorem messages_printed_wholeHeaders :
    wholeHeaders.bytes = encode [hi, ⟨[], by decide, by decide⟩] ∧
      serveConn (fun _ => some fun _ => 7) wholeHeaders =
        some (printed [hi, ⟨[], by decide, by decide⟩]) :=
  ⟨rfl, (messages_printed_iff _ (fun _ => ⟨_, rfl⟩) _ wholeHeaders rfl).mpr ⟨by decide, by decide⟩⟩

/-- `hi`, in pieces of which the first ends inside the header. -/
def cutHeader : Segments UInt8 := ⟨[[0, 0], [0, 2, 104, 105]], by decide⟩

/-- `hi` is not printed when its header arrives in two pieces: the second piece is
stored eight bytes behind the start of `rhead`. -/
theorem cutHeader_not_printed :
    cutHeader.bytes = encode [hi] ∧ readInto [0, 0, 0, 0] (4 * 2) (4 - 2)
    (cutHeader.skip 2) = none ∧ serveConn (fun _ => some fun _ => 0) cutHeader = none := by
  have hout : readInto [0, 0, 0, 0] (4 * 2) (4 - 2) (cutHeader.skip 2) = none := rfl
  have hpass : pass (fun _ => some fun _ => 0) [0, 0, 0, 0] cutHeader = none := by
    rw [pass, readHead_of_cut rfl (by decide) (show 2 < 4 by decide) (by decide)]
    rfl
  exact ⟨rfl, hout, connLoop_of_fault hpass []⟩

end Linuxyz.Ncat
