import Linuxyz.Lib.Buffer

/-!
# Linuxyz.Webrtc.Video

`OnVideo` of the RTMP handler: the units of a video payload, each behind a length
of four bytes (AVCC), are written as a sample with a start code in front of each
(Annex B).

The loop leaves a unit out if the offset of its length field and the length reach
the end of the payload together.  The four bytes of the field itself are missing
from that sum: for a payload of whole units it never matters (`convert_avcc`), but
a unit that is cut in its last four bytes and a length field that is cut are
sliced out of the buffer all the same (`convert_spec`).
-/

namespace Linuxyz.Webrtc.Video

open Linuxyz.Buffer (be32 be32_lt be32_toBe32 length_toBe32 toBe32 toBe32_be32)

/-! ## The conversion loop -/

/-- A byte slice: its bytes, and those from its length to its capacity. -/
structure Slice where
  bytes : List UInt8
  spare : List UInt8

/-- `s[lo:hi]`; a slice may reach to the capacity and panics beyond it. -/
def Slice.slice (s : Slice) (lo hi : Nat) : Option (List UInt8) :=
  if lo ≤ hi ∧ hi ≤ s.bytes.length + s.spare.length then
    some (((s.bytes ++ s.spare).drop lo).take (hi - lo))
  else none

/-- `RTP_HEADER_LENGTH_FIELD` -/
def headerLengthField : Nat := 4

/-- The loop's variables, the bounds of the slices of the payload that were asked
for, and the offset and length of each unit in `outBuf`. -/
structure Loop where
  offset : Nat
  outBuf : List UInt8
  slices : List (Nat × Nat)
  units : List (Nat × Nat)
  panicked : Bool
deriving DecidableEq

def Loop.start : Loop := ⟨0, [], [], [], false⟩

/-- The slice that is asked for next, which panics. -/
def Loop.panic (l : Loop) (lo hi : Nat) : Loop :=
  ⟨l.offset, l.outBuf, l.slices ++ [(lo, hi)], l.units, true⟩

/-- The length field was read. -/
def Loop.header (l : Loop) : Loop :=
  ⟨l.offset, l.outBuf, l.slices ++ [(l.offset, l.offset + headerLengthField)], l.units, l.panicked⟩

/-- The unit behind the length field was written. -/
def Loop.unit (l : Loop) (nal : List UInt8) (bufferLength : Nat) : Loop :=
  let offset := l.offset + headerLengthField
  ⟨offset + bufferLength, l.outBuf ++ [0x00, 0x00, 0x00, 0x01] ++ nal,
    l.slices ++ [(offset, offset + bufferLength)], l.units ++ [(offset, bufferLength)], l.panicked⟩

/-- The loop on `videoBuffer`, for at most the given number of turns; `none` is a
loop that is not over by then.  An `int` has 64 bits, more than any sum here needs. -/
def convert (videoBuffer : Slice) : Nat → Loop → Option Loop
  | 0, _ => none
  | turns + 1, l =>
      if l.offset < videoBuffer.bytes.length then
        match videoBuffer.slice l.offset (l.offset + headerLengthField) with
        | none => some (l.panic l.offset (l.offset + headerLengthField))
        | some field =>
            let bufferLength := be32 field
            if videoBuffer.bytes.length ≤ l.offset + bufferLength then some l.header
            else
              let offset := l.offset + headerLengthField
              match videoBuffer.slice offset (offset + bufferLength) with
              | none => some (l.header.panic offset (offset + bufferLength))
              | some nal => convert videoBuffer turns (l.header.unit nal bufferLength)
      else some l

/-! ## `OnVideo` -/

section OnVideo

variable {Reader Track : Type}

/-- What `OnVideo` calls and looks up: the video tracks in `RTP_CONSUMERS`,
`flvtag.DecodeVideoData` with the reader of the data it leaves, and `io.Copy` into a
new buffer. -/
structure Handler (Reader Track : Type) where
  consumers : String → Option Track
  decodeVideoData : Reader → Except String Reader
  copy : Reader → Except String Slice

/-- `media.Sample`, with its duration in nanoseconds. -/
structure Sample where
  data : List UInt8
  duration : Nat
deriving DecidableEq

inductive Outcome (Track : Type) where
  | refused (err : String)
  | wroteSample (track : Track) (sample : Sample)
  | panicked
  | looping
deriving DecidableEq

/-- `OnVideo`; a loop that is still going after one turn for each byte would be
`looping`. -/
def onVideo (h : Handler Reader Track) (publisherKey : String) (payload : Reader) : Outcome Track :=
  match h.consumers publisherKey with
  | none => .refused "invalid publisher"
  | some consumerVideoTrack =>
      match h.decodeVideoData payload with
      | .error err => .refused err
      | .ok video =>
          match h.copy video with
          | .error err => .refused err
          | .ok videoBuffer =>
              match convert videoBuffer (videoBuffer.bytes.length + 1) Loop.start with
              | none => .looping
              | some l =>
                  if l.panicked then .panicked
                  else .wroteSample consumerVideoTrack ⟨l.outBuf, 1000000000 / 30⟩

end OnVideo

/-! ## Payloads of whole units -/

/-- A unit with a length that a length field can have. -/
structure NalUnit where
  bytes : List UInt8
  length_lt : bytes.length < 2 ^ 32

def NalUnit.framed (u : NalUnit) : List UInt8 := toBe32 u.bytes.length ++ u.bytes

/-- The units, each behind its length. -/
def avcc (us : List NalUnit) : List UInt8 := us.flatMap NalUnit.framed

/-- The units, each behind a start code. -/
def annexB (us : List NalUnit) : List UInt8 :=
  us.flatMap fun u => [0x00, 0x00, 0x00, 0x01] ++ u.bytes

theorem NalUnit.length_framed (u : NalUnit) :
    u.framed.length = headerLengthField + u.bytes.length := by
  rw [framed, List.length_append, length_toBe32]
  rfl

/-- A slice inside of the length does not depend on the capacity. -/
theorem Slice.slice_append {s : Slice} (pre mid rest : List UInt8) {lo hi : Nat}
    (h : s.bytes = pre ++ (mid ++ rest)) (hlo : lo = pre.length) (hhi : hi = lo + mid.length) :
    s.slice lo hi = some mid := by
  subst hlo hhi
  have hlen := congrArg List.length h
  simp only [List.length_append] at hlen
  rw [slice, if_pos (by omega), h, List.append_assoc, List.drop_left, Nat.add_sub_cancel_left,
    List.append_assoc, List.take_left]

variable {videoBuffer : Slice} {l : Loop}

/-- The turn for a whole unit. -/
theorem convert_unit {pre rest : List UInt8} {u : NalUnit} (turns : Nat)
    (h : videoBuffer.bytes = pre ++ (u.framed ++ rest)) (hl : l.offset = pre.length) :
    convert videoBuffer (turns + 1) l =
      convert videoBuffer turns (l.header.unit u.bytes u.bytes.length) := by
  have hlen := congrArg List.length h
  simp only [List.length_append, u.length_framed, headerLengthField] at hlen
  have hfield :
      videoBuffer.slice l.offset (l.offset + headerLengthField) = some (toBe32 u.bytes.length) :=
    Slice.slice_append pre _ (u.bytes ++ rest) (by rw [h, NalUnit.framed, List.append_assoc]) hl rfl
  have hnal :
      videoBuffer.slice (l.offset + headerLengthField) (l.offset + headerLengthField +
        u.bytes.length) =
      some u.bytes :=
    Slice.slice_append (pre ++ toBe32 u.bytes.length) _ rest
      (by rw [h, NalUnit.framed, List.append_assoc, List.append_assoc])
      (by rw [hl, List.length_append, length_toBe32]; rfl) rfl
  rw [convert, if_pos (by omega), hfield]
  simp only [be32_toBe32 u.length_lt]
  rw [if_neg (by omega), hnal]

/-- The loop writes the whole units at the front and goes on behind them. -/
theorem convert_avcc {rest : List UInt8} (us : List NalUnit) :
    ∀ (pre : List UInt8) (turns : Nat) (l : Loop), videoBuffer.bytes = pre ++ (avcc us ++ rest) →
      l.offset = pre.length → ∃ l', convert videoBuffer (us.length + turns) l =
        convert videoBuffer turns l' ∧
        l'.offset = (pre ++ avcc us).length ∧ l'.outBuf = l.outBuf ++ annexB us ∧
        l'.panicked = l.panicked := by
  induction us with
  | nil =>
      intro pre turns l _ hl
      exact ⟨l, by rw [List.length_nil, Nat.zero_add], by simpa [avcc] using hl,
        by simp [annexB], rfl⟩
  | cons u us ih =>
      intro pre turns l h hl
      have hcons : avcc (u :: us) = u.framed ++ avcc us := rfl
      have h' : videoBuffer.bytes = pre ++ (u.framed ++ (avcc us ++ rest)) := by
        rw [h, hcons, List.append_assoc]
      have hl' : (l.header.unit u.bytes u.bytes.length).offset = (pre ++ u.framed).length := by
        rw [List.length_append, u.length_framed, ← hl, ← Nat.add_assoc]
        rfl
      obtain ⟨l', hrun, hoff, hout, hpanic⟩ :=
        ih (pre ++ u.framed) turns _ (by rw [h', List.append_assoc]) hl'
      rw [List.append_assoc, ← hcons] at hoff
      refine ⟨l', ?_, hoff, ?_, hpanic⟩
      · rw [List.length_cons, Nat.add_right_comm, convert_unit _ h' hl, hrun]
      · rw [hout]
        simp [Loop.unit, Loop.header, annexB]

theorem length_le_avcc (us : List NalUnit) : us.length ≤ (avcc us).length := by
  induction us with
  | nil => exact Nat.zero_le _
  | cons u us ih =>
      rw [avcc, List.flatMap_cons, List.length_append, u.length_framed, List.length_cons,
        headerLengthField]
      rw [avcc] at ih
      omega

/-- **Conversion of whole units**: where the payload is a list of units, each behind
its length, the sample is the same units, each behind a start code. -/
theorem onVideo_annexB {Reader Track : Type} {h : Handler Reader Track} {publisherKey : String}
    {payload video : Reader} {track : Track} {videoBuffer : Slice}
    (hconsumer : h.consumers publisherKey = some track)
    (hdecode : h.decodeVideoData payload = .ok video) (hcopy : h.copy video = .ok videoBuffer)
    {us : List NalUnit} (hus : videoBuffer.bytes = avcc us) :
    onVideo h publisherKey payload = .wroteSample track ⟨annexB us, 1000000000 / 30⟩ := by
  have hturns : us.length ≤ videoBuffer.bytes.length := hus ▸ length_le_avcc us
  obtain ⟨l, hrun, hoff, hout, hpanic⟩ := @convert_avcc videoBuffer [] us []
    (videoBuffer.bytes.length - us.length + 1) Loop.start
      (by rw [hus, List.append_nil, List.nil_append]) rfl
  have hend : convert videoBuffer (videoBuffer.bytes.length + 1) Loop.start = some l := by
    rw [show videoBuffer.bytes.length + 1 =
      us.length + (videoBuffer.bytes.length - us.length + 1) by omega, hrun, convert,
        if_neg (by rw [hoff, hus, List.nil_append]; omega)]
  unfold onVideo
  simp only [hconsumer, hdecode, hcopy, hend, hpanic, hout]
  rfl

/-- Two units, the second of them empty, in a buffer that has room for more. -/
theorem onVideo_annexB_two :
    onVideo
      (⟨fun key => if key = "live" then some 1
        else none, fun r => .ok r.tail, fun r => .ok ⟨r, [9, 9]⟩⟩ : Handler (List UInt8) Nat) "live"
      [0x17, 0, 0, 0, 2, 7, 8, 0, 0, 0, 0] =
        .wroteSample 1 ⟨[0, 0, 0, 1, 7, 8, 0, 0, 0, 1], 33333333⟩ :=
  onVideo_annexB rfl rfl rfl (show _ = avcc [⟨[7, 8], by decide⟩, ⟨[], by decide⟩] from rfl)

/-! ## Any payload -/

/-- Whole units, and then nothing or a length field with a length that is not less
than what is left, the field included. -/
def Complete (payload : List UInt8) : Prop :=
  ∃ us tail, payload = avcc us ++ tail ∧
    (tail = [] ∨ headerLengthField ≤ tail.length ∧ tail.length ≤ be32 (tail.take headerLengthField))

variable {n : Nat}

/-- The unit at the front of a payload. -/
theorem framed_append_drop {payload : List UInt8} (hn : be32 (payload.take headerLengthField) = n)
    (hlen : headerLengthField + n ≤ payload.length) :
    ∃ u : NalUnit, u.bytes = (payload.drop headerLengthField).take n ∧ u.bytes.length = n ∧
      payload = u.framed ++ payload.drop (headerLengthField + n) := by
  have hun : ((payload.drop headerLengthField).take n).length = n := by
    rw [List.length_take, List.length_drop]
    omega
  refine ⟨⟨(payload.drop headerLengthField).take n, by rw [hun, ← hn]; exact be32_lt _⟩,
    rfl, hun, ?_⟩
  have hfield : toBe32 n = payload.take headerLengthField := by
    rw [← hn]
    refine toBe32_be32 ?_
    rw [List.length_take, headerLengthField] at *
    omega
  simp only [NalUnit.framed, hun]
  rw [hfield, List.append_assoc, ← List.drop_drop, List.take_append_drop, List.take_append_drop]

/-- Whether a payload is complete, read off from its front. -/
theorem complete_iff {payload : List UInt8} (hne : payload ≠ [])
    (hn : be32 (payload.take headerLengthField) = n) :
    Complete payload ↔ headerLengthField ≤ payload.length ∧
      (payload.length ≤ n ∨ headerLengthField + n ≤ payload.length ∧
        Complete (payload.drop (headerLengthField + n))) := by
  constructor
  · rintro ⟨us, tail, h, htail⟩
    cases us with
    | nil =>
        have htp : payload = tail := h
        subst htp
        have := htail.resolve_left hne
        exact ⟨this.1, .inl (hn ▸ this.2)⟩
    | cons u us =>
        have h' : payload = u.framed ++ (avcc us ++ tail) := by rw [h, ← List.append_assoc]; rfl
        have hun : n = u.bytes.length := by
          rw [← hn, h', NalUnit.framed, List.append_assoc,
            List.take_left' (show (toBe32 _).length = headerLengthField from length_toBe32 _),
            be32_toBe32 u.length_lt]
        have hlen := congrArg List.length h'
        rw [List.length_append, u.length_framed] at hlen
        refine ⟨by omega, .inr ⟨by omega, us, tail, ?_, htail⟩⟩
        rw [hun, ← u.length_framed, h', List.drop_left]
  · rintro ⟨hfield, hcut | ⟨hlen, us, tail, hrest, htail⟩⟩
    · exact ⟨[], payload, rfl, .inr ⟨hfield, hn ▸ hcut⟩⟩
    · obtain ⟨u, -, -, hu⟩ := framed_append_drop hn hlen
      refine ⟨u :: us, tail, ?_, htail⟩
      rw [hu, hrest, ← List.append_assoc]
      rfl

/-- No slice reaches beyond the `n` bytes of the payload, and every unit in `outBuf`
lies inside of them, behind a whole length field. -/
def Loop.Within (l : Loop) (n : Nat) : Prop :=
  (∀ s ∈ l.slices, s.2 ≤ n) ∧ ∀ u ∈ l.units, headerLengthField ≤ u.1 ∧ u.1 + u.2 ≤ n

theorem Loop.not_within {lo hi : Nat} (hmem : (lo, hi) ∈ l.slices) (h : n < hi) : ¬l.Within n :=
  fun hw => absurd (hw.1 _ hmem) (Nat.not_le.mpr h)

theorem Loop.Within.header (h : l.Within n) (hin : l.offset + headerLengthField ≤ n) :
    l.header.Within n := by
  refine ⟨fun s hs => ?_, h.2⟩
  rcases List.mem_append.mp hs with hold | hnew
  · exact h.1 s hold
  · rw [List.mem_singleton.mp hnew]
    exact hin

/-- A unit that is copied inside of the buffer. -/
theorem Loop.Within.unit {bufferLength : Nat} {nal : List UInt8} (h : l.Within n)
    (hin : l.offset + headerLengthField + bufferLength ≤ n) :
    (l.unit nal bufferLength).Within n := by
  refine ⟨fun s hs => ?_, fun u hu => ?_⟩
  · rcases List.mem_append.mp hs with hold | hnew
    · exact h.1 s hold
    · rw [List.mem_singleton.mp hnew]
      exact hin
  · rcases List.mem_append.mp hu with hold | hnew
    · exact h.2 u hold
    · rw [List.mem_singleton.mp hnew]
      exact ⟨Nat.le_add_left _ _, hin⟩

/-- What a turn of the loop can do. -/
theorem convert_cases (turns : Nat) (h : l.offset < videoBuffer.bytes.length) :
    (videoBuffer.slice l.offset (l.offset + headerLengthField) = none ∧
      convert videoBuffer (turns + 1) l = some (l.panic l.offset (l.offset + headerLengthField))) ∨
    ∃ field n, videoBuffer.slice l.offset (l.offset + headerLengthField) = some field ∧
      be32 field = n ∧
      ((videoBuffer.bytes.length ≤ l.offset + n ∧
        convert videoBuffer (turns + 1) l = some l.header) ∨
        l.offset + n < videoBuffer.bytes.length ∧
          (convert videoBuffer (turns + 1) l = some (l.header.panic (l.offset + headerLengthField)
              (l.offset + headerLengthField + n)) ∨
            ∃ nal, convert videoBuffer (turns + 1) l =
              convert videoBuffer turns (l.header.unit nal n))) := by
  rw [convert, if_pos h]
  cases videoBuffer.slice l.offset (l.offset + headerLengthField) with
  | none => exact .inl ⟨rfl, rfl⟩
  | some field =>
      refine .inr ⟨field, be32 field, rfl, rfl, ?_⟩
      by_cases hcut : videoBuffer.bytes.length ≤ l.offset + be32 field
      · exact .inl ⟨hcut, if_pos hcut⟩
      · refine .inr ⟨by omega, ?_⟩
        simp only [if_neg hcut]
        cases videoBuffer.slice (l.offset + headerLengthField) (l.offset + headerLengthField +
          be32 field) with
        | none => exact .inl rfl
        | some nal => exact .inr ⟨nal, rfl⟩

/-- The loop ends: every turn moves the offset on by a length field at least. -/
theorem convert_ends (videoBuffer : Slice) :
    ∀ (turns : Nat) (l : Loop), videoBuffer.bytes.length ≤ l.offset + turns →
    ∃ l', convert videoBuffer (turns + 1) l = some l' := by
  intro turns
  induction turns with
  | zero =>
      intro l h
      exact ⟨l, by rw [convert, if_neg (by omega)]⟩
  | succ turns ih =>
      intro l h
      by_cases hoff : l.offset < videoBuffer.bytes.length
      · rcases convert_cases (turns + 1) hoff with ⟨-, hp⟩ |
          ⟨field, n, -, -, ⟨-, hbreak⟩ | ⟨-, hp | ⟨nal, hnext⟩⟩⟩
        · exact ⟨_, hp⟩
        · exact ⟨_, hbreak⟩
        · exact ⟨_, hp⟩
        · rw [hnext]
          exact ih _ (by simp only [Loop.unit, Loop.header, headerLengthField]; omega)
      · exact ⟨l, by rw [convert, if_neg hoff]⟩

/-- No slice is forgotten. -/
theorem slices_subset_of_convert : ∀ {turns : Nat} {l l' : Loop},
    convert videoBuffer turns l = some l' → l.slices ⊆ l'.slices := by
  intro turns
  induction turns with
  | zero =>
      intro l l' h
      cases h
  | succ turns ih =>
      intro l l' h
      by_cases hoff : l.offset < videoBuffer.bytes.length
      · rcases convert_cases turns hoff with ⟨-, hp⟩ |
          ⟨field, n, -, -, ⟨-, hbreak⟩ | ⟨-, hp | ⟨nal, hnext⟩⟩⟩
        · cases hp.symm.trans h
          exact List.subset_append_left _ _
        · cases hbreak.symm.trans h
          exact List.subset_append_left _ _
        · cases hp.symm.trans h
          exact List.Subset.trans (List.subset_append_left _ _) (List.subset_append_left _ _)
        · have hunit : l.slices ⊆ (l.header.unit nal n).slices :=
            List.Subset.trans (List.subset_append_left _ _) (List.subset_append_left _ _)
          exact List.Subset.trans hunit (ih (hnext ▸ h))
      · rw [convert, if_neg hoff] at h
        cases h
        exact List.Subset.refl _

/-- A turn slices out the length field, and the unit behind it unless the length
makes the loop stop. -/
theorem mem_slices_of_convert {turns : Nat} {l' : Loop} (h : l.offset < videoBuffer.bytes.length)
    (hrun : convert videoBuffer (turns + 1) l = some l') :
    (l.offset, l.offset + headerLengthField) ∈ l'.slices ∧
      ∀ field, videoBuffer.slice l.offset (l.offset + headerLengthField) = some field →
        l.offset + be32 field < videoBuffer.bytes.length →
          (l.offset + headerLengthField, l.offset + headerLengthField + be32 field) ∈
            l'.slices := by
  rcases convert_cases turns h with ⟨hnone, hp⟩ |
    ⟨field, n, hfield, rfl, ⟨hcut, hbreak⟩ | ⟨hnot, hp | ⟨nal, hnext⟩⟩⟩
  · cases hp.symm.trans hrun
    refine ⟨by simp [Loop.panic], fun field hfield => ?_⟩
    rw [hnone] at hfield
    cases hfield
  · cases hbreak.symm.trans hrun
    refine ⟨by simp [Loop.header], fun field' hfield' hlt => ?_⟩
    rw [hfield] at hfield'
    cases hfield'
    omega
  · cases hp.symm.trans hrun
    refine ⟨by simp [Loop.panic, Loop.header], fun field' hfield' _ => ?_⟩
    rw [hfield] at hfield'
    cases hfield'
    simp [Loop.panic]
  · have hsub := slices_subset_of_convert (hnext ▸ hrun)
    refine ⟨hsub (by simp [Loop.unit, Loop.header]), fun field' hfield' _ => hsub ?_⟩
    rw [hfield] at hfield'
    cases hfield'
    simp [Loop.unit, Loop.header]

/-- From an offset on the loop stays inside of the payload if and only if what is
left of the payload is complete. -/
theorem convert_spec : ∀ {turns : Nat} {l l' : Loop}, convert videoBuffer turns l = some l' →
    l.Within videoBuffer.bytes.length →
      (l'.Within videoBuffer.bytes.length ↔ Complete (videoBuffer.bytes.drop l.offset)) := by
  intro turns
  induction turns with
  | zero =>
      intro l l' h
      cases h
  | succ turns ih =>
      intro l l' hrun hw
      by_cases hoff : l.offset < videoBuffer.bytes.length
      · obtain ⟨hmem, hmem'⟩ := mem_slices_of_convert hoff hrun
        have hlen : (videoBuffer.bytes.drop l.offset).length =
            videoBuffer.bytes.length - l.offset := List.length_drop
        have hne : videoBuffer.bytes.drop l.offset ≠ [] := List.ne_nil_of_length_pos (by omega)
        rw [complete_iff hne rfl, hlen]
        by_cases hfield : l.offset + headerLengthField ≤ videoBuffer.bytes.length
        · -- the length field lies inside of the payload
          have hsplit : videoBuffer.bytes = videoBuffer.bytes.take l.offset ++
              ((videoBuffer.bytes.drop l.offset).take headerLengthField ++
                (videoBuffer.bytes.drop l.offset).drop headerLengthField) := by
            rw [List.take_append_drop, List.take_append_drop]
          have hslice : videoBuffer.slice l.offset (l.offset + headerLengthField) =
              some ((videoBuffer.bytes.drop l.offset).take headerLengthField) :=
                Slice.slice_append _ _ _ hsplit
            (by rw [List.length_take]; omega) (by rw [List.length_take, hlen]; omega)
          generalize hn : be32 ((videoBuffer.bytes.drop l.offset).take headerLengthField) = n
          by_cases hcut : videoBuffer.bytes.length ≤ l.offset + n
          · have hbreak : convert videoBuffer (turns + 1) l = some l.header := by
              rw [convert, if_pos hoff, hslice]
              exact if_pos (hn ▸ hcut)
            cases hbreak.symm.trans hrun
            exact iff_of_true (hw.header hfield) ⟨by omega, .inl (by omega)⟩
          by_cases hunit : l.offset + headerLengthField + n ≤ videoBuffer.bytes.length
          · obtain ⟨u, -, hun, hu⟩ := framed_append_drop hn (by omega)
            have hpre : l.offset = (videoBuffer.bytes.take l.offset).length := by
              rw [List.length_take]; omega
            have hbytes :=
              (List.take_append_drop l.offset videoBuffer.bytes).symm.trans (congrArg _ hu)
            rw [convert_unit turns hbytes hpre, hun] at hrun
            rw [ih hrun ((hw.header hfield).unit hunit), Loop.unit, Loop.header, List.drop_drop,
              Nat.add_assoc]
            exact ⟨fun h => ⟨by omega, .inr ⟨by omega, h⟩⟩, fun h =>
              (h.2.resolve_left (by omega)).2⟩
          · -- the unit reaches beyond the payload, and the loop does not stop
            have hbad := hmem' _ hslice (by omega)
            rw [hn] at hbad
            exact iff_of_false (Loop.not_within hbad (by omega)) fun h => by omega
        · exact iff_of_false (Loop.not_within hmem (by omega)) fun h => hfield (by omega)
      · rw [convert, if_neg hoff] at hrun
        cases hrun
        rw [List.drop_eq_nil_of_le (by omega)]
        exact iff_of_true hw ⟨[], [], rfl, .inl rfl⟩

/-- **Malformed payloads**: the loop ends on every payload, and it never slices beyond
the payload and writes only units that lie inside of it if and only if the payload is
whole units, and then nothing or a length field with a length that is not less than
what is left. -/
theorem video_within_iff_complete (videoBuffer : Slice) :
    ∃ l, convert videoBuffer (videoBuffer.bytes.length + 1) Loop.start = some l ∧
      (l.Within videoBuffer.bytes.length ↔ Complete videoBuffer.bytes) := by
  obtain ⟨l, hl⟩ := convert_ends videoBuffer videoBuffer.bytes.length Loop.start (by omega)
  have hstart : Loop.start.Within videoBuffer.bytes.length := by simp [Loop.Within, Loop.start]
  exact ⟨l, hl, convert_spec hl hstart⟩

/-- A unit of five bytes that is cut after three: two bytes that do not belong to
the payload are written. -/
theorem video_beyond_payload :
    convert ⟨[0, 0, 0, 5, 1, 2, 3], [8, 9]⟩ 8 Loop.start =
        some ⟨9, [0, 0, 0, 1, 1, 2, 3, 8, 9], [(0, 4), (4, 9)], [(4, 5)], false⟩ ∧
      ¬Loop.Within ⟨9, [0, 0, 0, 1, 1, 2, 3, 8, 9], [(0, 4), (4, 9)], [(4, 5)], false⟩ 7 :=
  ⟨by decide, fun h => absurd (h.1 (4, 9) (by decide)) (by decide)⟩

end Linuxyz.Webrtc.Video
