import Linuxyz.NcatRs.Peer

/-!
# Linuxyz.NcatRs.Framing

What the Rust server prints of what the Rust client writes.

A read of the server's loop that returns 0 means that the peer is gone.  With room
left in the buffer that is so (`readLoop_eq`), but for an empty message the buffer
has no room, the read returns 0 at once (`readLoop_nil`), and the connection is given
up with the rest of the stream unread.  `lines_printed_iff` states for which lines
the server prints what was typed.
-/

namespace Linuxyz.NcatRs

open Buffer

/-! ## text -/

theorem fromUTF8?_asBytes (message : String) :
    String.fromUTF8? ⟨(asBytes message).toArray⟩ = some message := by
  rw [asBytes, Array.toArray_toList]
  unfold String.fromUTF8?
  exact dif_pos message.isValidUTF8

theorem asBytes_eq_nil : asBytes message = [] ↔ message = "" := by
  constructor
  · intro h
    have hm := fromUTF8?_asBytes message
    rw [h] at hm
    exact Option.some.inj (hm.symm.trans (fromUTF8?_asBytes ""))
  · rintro rfl
    rfl

/-! ## what is written -/

/-- The length in network byte order, then the text. -/
def frame (message : String) : List UInt8 := toBe32 (asBytes message).length ++ asBytes message

theorem length_frame (message : String) :
    (frame message).length = 4 + (asBytes message).length := by
  rw [frame, List.length_append, length_toBe32]

/-- A message whose frame is shorter than 2^32 bytes is framed. -/
theorem wbuff_of_lt (h : (asBytes message).length + 4 < 2 ^ 32) :
    wbuff message = some (frame message) := by
  have hmod : (asBytes message).length % 2 ^ 32 = (asBytes message).length :=
    Nat.mod_eq_of_lt (by omega)
  simp only [wbuff, hmod]
  rw [if_neg (by omega), if_pos (by omega)]
  have hjoin : overwrite (overwrite (List.replicate (4 + (asBytes message).length) 0) 0
      (toBe32 (asBytes message).length)) (0 + 4) (asBytes message) = frame message := by
    rw [overwrite_append (length_toBe32 _) (by simp), ← frame,
      overwrite_all (by simp [length_frame])]
  rw [← hjoin]

theorem wbuff_of_ge (h : 2 ^ 32 ≤ (asBytes message).length + 4) : wbuff message = none := by
  simp only [wbuff]
  split
  · rfl
  · rw [if_neg (by omega)]

/-! ## the loop that fills a buffer -/

/-- A read that returns 0 ends the loop. -/
theorem readLoop_nil (h : s.read (buf.length - valread) = []) :
    readLoop size buf valread s = (none, s) := by
  rw [readLoop]
  simp only [h, List.length_nil, if_true]

/-- A buffer with room is filled with the next bytes of the stream, however they
arrive. -/
theorem readLoop_eq {s : Segments UInt8} (hpos : 0 < buf.length)
    (hs : buf.length ≤ s.bytes.length) :
    readLoop buf.length buf 0 s = (some (s.bytes.take buf.length), s.skip buf.length) := by
  -- the part that is still missing is the request to the stream
  have hloop : ∀ n (s : Segments UInt8), n ≤ s.bytes.length →
      ∀ buf valread, valread + n = buf.length → 0 < n →
      readLoop buf.length buf valread s =
        (some (overwrite buf valread (s.bytes.take n)), s.skip n) := by
    refine Segments.serve_induction ?_ ?_
    · intro s buf valread _ hn
      omega
    · intro n s m hn hs hm hpos hle ih buf valread hbuf _
      have hroom : buf.length - valread = n := by omega
      have htake : (s.bytes.take m).length = m := by rw [List.length_take]; omega
      have hread : s.read n = s.bytes.take m := by rw [s.read_eq, hm]
      rw [readLoop]
      simp only [hroom, hread, htake]
      rw [if_neg (by omega)]
      rcases Nat.eq_or_lt_of_le hle with rfl | hlt
      · rw [if_pos hbuf]
      · have hlen : (overwrite buf valread (s.bytes.take m)).length = buf.length :=
          length_overwrite (by omega)
        have hrest :=
          ih (overwrite buf valread (s.bytes.take m)) (valread + m) (by omega) (by omega)
        rw [hlen] at hrest
        rw [if_neg (by omega), hrest, overwrite_append htake (by omega), s.bytes_skip, s.skip_skip,
          ← List.take_add, Nat.add_sub_cancel' hle]
  rw [hloop buf.length s hs buf 0 (by omega) hpos, overwrite_all (by rw [List.length_take]; omega)]

/-! ## one pass -/

/-- At the end of the stream the connection is closed. -/
theorem pass_of_nil (hs : s.bytes = []) (header : List UInt8) :
    pass header s = some (.close "read header error" s) := by
  rw [pass, readLoop_nil (by rw [s.read_eq, hs, List.take_nil])]

/-- The header of a frame is taken for the length of its text. -/
theorem pass_of_frame {s : Segments UInt8} (hh : header.length = 4)
    (hs : s.bytes = frame message ++ rest) :
    pass header s = passData (toBe32 (asBytes message).length) (s.skip 4) := by
  have hlen : 4 ≤ s.bytes.length := by rw [hs, List.length_append, length_frame]; omega
  have htake : s.bytes.take 4 = toBe32 (asBytes message).length := by
    rw [hs, frame, List.append_assoc]
    rfl
  have hloop : readLoop header.length header 0 s = _ := readLoop_eq (by omega) (by omega)
  rw [hh, htake] at hloop
  rw [pass, hloop]

/-- A text that is not empty is printed. -/
theorem passData_of_ne {s : Segments UInt8} (hne : message ≠ "")
    (hfits : (asBytes message).length < 2 ^ 32) (hs : s.bytes = asBytes message ++ rest) :
    passData (toBe32 (asBytes message).length) s =
      some (.next (toBe32 (asBytes message).length) message (s.skip (asBytes message).length)) := by
  have hpos : 0 < (asBytes message).length := List.length_pos_of_ne_nil (mt asBytes_eq_nil.mp hne)
  have hroom :
      (List.replicate (asBytes message).length (0 : UInt8)).length = (asBytes message).length :=
    List.length_replicate
  have hlen : (asBytes message).length ≤ s.bytes.length := by
    rw [hs, List.length_append]
    exact Nat.le_add_right ..
  have hloop := readLoop_eq (hroom.symm ▸ hpos) (hroom.symm ▸ hlen)
  rw [hroom, hs, List.take_left] at hloop
  simp only [passData, be32_toBe32 hfits, hloop, fromUTF8?_asBytes, Option.map_some]

/-- For an empty one the connection is closed. -/
theorem passData_of_empty (s : Segments UInt8) :
    passData (toBe32 0) s = some (.close "read data error" s) := by
  have hloop : readLoop 0 [] 0 s = (none, s) := readLoop_nil (by simp [Segments.read])
  simp only [passData, be32_toBe32 (show 0 < 2 ^ 32 by decide), List.replicate_zero, hloop]

/-! ## the connection -/

theorem connLoop_of_next (h : pass header s = some (.next header' line s')) (out : List String) :
    connLoop header out s = connLoop header' (out ++ [line]) s' := by
  rw [connLoop]
  split <;> simp_all

theorem connLoop_of_close (h : pass header s = some (.close notice s')) (out : List String) :
    connLoop header out s = some (out ++ [notice], s') := by
  rw [connLoop]
  split <;> simp_all

/-- The lines that are typed before `exit`. -/
def typed (lines : List String) : List String := lines.takeWhile fun line => !isExit line

/-- The server prints the lines and then closes the connection, with nothing left of
the stream. -/
def Printed (lines : List String) (result : Option (List String × Segments UInt8)) : Prop :=
  ∃ s, result = some (lines ++ ["read header error"], s) ∧ s.bytes = []

/-- A connection that is closed before the last line has not printed the lines. -/
theorem not_printed_of_close (out : List String) (line : String) (lines : List String)
    (notice : String) (s : Segments UInt8) :
    ¬ Printed (out ++ line :: lines) (some (out ++ [notice], s)) := by
  rintro ⟨s', heq, -⟩
  have hlen := congrArg List.length (Prod.mk.inj (Option.some.inj heq)).1
  simp at hlen

/-- From any header and output, the lines are appended to the output exactly if none
is empty and all fit. -/
theorem printed_connLoop_iff (lines : List String) :
    ∀ {header : List UInt8} {out : List String}
    {s : Segments UInt8}, header.length = 4 → s.bytes = client lines →
      (Printed (out ++ typed lines) (connLoop header out s) ↔
        ∀ line ∈ typed lines, line ≠ "" ∧ (asBytes line).length + 4 < 2 ^ 32) := by
  have hend : ∀ {header : List UInt8} {out : List String} {s : Segments UInt8}, s.bytes = [] →
      Printed out (connLoop header out s) := by
    intro header out s hs
    rw [connLoop_of_close (pass_of_nil hs header)]
    exact ⟨s, rfl, hs⟩
  induction lines with
  | nil =>
      intro header out s _ hs
      simpa [typed] using hend hs
  | cons message lines ih =>
      intro header out s hh hs
      rw [client] at hs
      by_cases hexit : isExit message = true
      · rw [if_pos hexit] at hs
        simpa [typed, hexit] using hend hs
      · have htyped : typed (message :: lines) = message :: typed lines := by simp [typed, hexit]
        rw [if_neg hexit] at hs
        rw [htyped, List.forall_mem_cons]
        by_cases hfits : (asBytes message).length + 4 < 2 ^ 32
        · rw [wbuff_of_lt hfits] at hs
          have hs : s.bytes = frame message ++ client lines := hs
          have hpass : pass header s = _ := pass_of_frame hh hs
          by_cases hne : message = ""
          · -- the read into a buffer without room returns 0
            subst hne
            rw [connLoop_of_close (hpass.trans (passData_of_empty _))]
            exact iff_of_false (not_printed_of_close _ _ _ _ _) fun h => h.1.1 rfl
          · have hdata : (s.skip 4).bytes = asBytes message ++ client lines := by
              rw [s.bytes_skip, hs, frame, List.append_assoc]
              rfl
            have hrest : ((s.skip 4).skip (asBytes message).length).bytes = client lines := by
              rw [Segments.bytes_skip, hdata, List.drop_left]
            have hnext := hpass.trans (passData_of_ne hne (by omega) hdata)
            rw [connLoop_of_next hnext, List.append_cons, ih (length_toBe32 _) hrest]
            exact ⟨fun hlines => ⟨⟨hne, hfits⟩, hlines⟩, fun h => h.2⟩
        · rw [wbuff_of_ge (Nat.not_lt.mp hfits)] at hs
          rw [connLoop_of_close (pass_of_nil hs header)]
          exact iff_of_false (not_printed_of_close _ _ _ _ _) fun h => hfits h.1.2

/-- The server prints the typed lines and closes the connection at the end of the
stream exactly if no line is empty and every line fits, with its header, in 32 bits. -/
theorem lines_printed_iff (lines : List String) (s : Segments UInt8) (hs : s.bytes = client lines) :
    Printed (typed lines) (serveConn s) ↔
      ∀ line ∈ typed lines, line ≠ "" ∧ (asBytes line).length + 4 < 2 ^ 32 :=
  printed_connLoop_iff lines rfl hs

/-- `hi` in pieces that end inside the header and inside the text. -/
def pieces : Segments UInt8 := ⟨[[0, 0], [0, 2, 104], [105]], by decide⟩

theorem lines_printed_pieces :
    pieces.bytes = client ["hi", " exit ", "ho"] ∧ Printed ["hi"] (serveConn pieces) := by
  have hbytes : pieces.bytes = client ["hi", " exit ", "ho"] := by decide
  have htyped : typed ["hi", " exit ", "ho"] = ["hi"] := by decide
  have hline : ∀ line ∈ ["hi"], line ≠ "" ∧ (asBytes line).length + 4 < 2 ^ 32 := by decide
  refine ⟨hbytes, ?_⟩
  rw [← htyped] at hline ⊢
  exact (lines_printed_iff _ _ hbytes).mpr hline

/-- An empty line, then `hi`. -/
def emptyLine : Segments UInt8 := ⟨[[0, 0, 0, 0], [0, 0, 0, 2, 104, 105]], by decide⟩

/-- The empty line is taken for the end of the connection, and `hi` stays unread. -/
theorem emptyLine_closes :
    emptyLine.bytes = client ["", "hi"] ∧ typed ["", "hi"] = ["", "hi"] ∧
      ∃ s, serveConn emptyLine = some (["read data error"], s) ∧ s.bytes = frame "hi" := by
  have hbytes : emptyLine.bytes = frame "" ++ frame "hi" := by decide
  have hpass : pass [0, 0, 0, 0] emptyLine = some (.close "read data error" (emptyLine.skip 4)) :=
    (pass_of_frame rfl hbytes).trans (passData_of_empty _)
  refine ⟨by decide, by decide, emptyLine.skip 4, connLoop_of_close hpass [], ?_⟩
  rw [emptyLine.bytes_skip, hbytes]
  rfl

end Linuxyz.NcatRs
