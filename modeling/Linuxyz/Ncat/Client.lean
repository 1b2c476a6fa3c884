import Linuxyz.Ncat.Framing

/-!
# Linuxyz.Ncat.Client

The sending loop of `NCAT_client`: each turn reads a line with `fgets`, leaves the last
character out, which is taken for its newline, and sends the rest as a frame.

What `fgets` returns is not looked at.  At the end of the input it stores nothing, the
length of the empty message is one less than that of the header, and the loop goes on.
The block is cut to `content_len` bytes before it is compared with `exit` and before the
length is stored into it; `Beyond` is what an access behind its end does, and the results
hold for either.
-/

namespace Linuxyz.Ncat.Client

open Buffer

/-! ## Memory -/

/-- An access behind the end of a block that was made smaller: a fault, or it meets the
bytes that stand there. -/
inductive Beyond where
  | fault
  | stale
deriving DecidableEq

/-- A block: the bytes from its start on, and its size. -/
structure Block where
  bytes : Nat → UInt8
  size : Nat

def Block.get (mode : Beyond) (b : Block) (i : Nat) : Option UInt8 :=
  if i < b.size ∨ mode = .stale then some (b.bytes i) else none

def Block.put (mode : Beyond) (b : Block) (off : Nat) (src : List UInt8) : Option Block :=
  if off + src.length ≤ b.size ∨ mode = .stale then
    some ⟨fun i => if off ≤ i ∧ i < off + src.length then src.getD (i - off) 0
      else b.bytes i, b.size⟩
  else none

/-- `strlen`, over `turns` bytes at most. -/
def Block.strlen (mode : Beyond) (b : Block) : Nat → Nat → Option Nat
  | 0, _ => none
  | turns + 1, off => do
      let c ← b.get mode off
      if c = 0 then some 0 else (b.strlen mode turns (off + 1)).map (· + 1)

/-- Whether `strcmp` with the string `s`, its terminator included, gives `0`. -/
def Block.strcmp (mode : Beyond) (b : Block) : Nat → List UInt8 → Option Bool
  | _, [] => some true
  | off, c :: s => do
      let d ← b.get mode off
      if c = d then b.strcmp mode (off + 1) s else some false

/-! ## The loop -/

/-- `INPUT_BUFF_CHUNK` -/
def inputBuffChunk : Nat := 1024 * 8

/-- `header_size` -/
def headerSize : Nat := 4

/-- `CLIENT_EXIT`, with its terminator. -/
def clientExit : List UInt8 := [101, 120, 105, 116, 0]

/-- The bytes up to the first newline, which is one of them. -/
def upToNewline : List UInt8 → List UInt8
  | [] => []
  | b :: bs => if b = 10 then [b] else b :: upToNewline bs

/-- `fgets(s, n, stdin)`: what is stored before the terminator, nothing at the end of the
input, and what is left of the input. -/
def fgets (n : Nat) (input : List UInt8) : List UInt8 × List UInt8 :=
  let line := upToNewline (input.take (n - 1))
  (line, input.drop line.length)

/-- One turn of `while(keepalive)` with what `fgets` stored: the bytes that are sent, or
`none` if the line was `exit`. -/
def turn (mode : Beyond) (line : List UInt8) : Option (Option (List UInt8)) := do
  let data : Block := ⟨fun _ => 0, headerSize + inputBuffChunk⟩
  let data ← if line = [] then some data else data.put mode headerSize (line ++ [0])
  let messageLen ← data.strlen mode inputBuffChunk headerSize
  let contentLen := headerSize + messageLen - 1
  let data ← data.put mode contentLen [0]
  -- `realloc` to `content_len` bytes
  let data : Block := ⟨data.bytes, contentLen⟩
  let isExit ← data.strcmp mode headerSize clientExit
  if isExit then some none
  else do
    let datalen := (((contentLen : Int) - headerSize) % 2 ^ 32).toNat
    let data ← data.put mode 0 (toBe32 datalen)
    some (some ((List.range contentLen).map data.bytes))

inductive Outcome where
  /-- `keepalive` is zero -/
  | stopped (sent : List UInt8)
  | fault
  /-- the loop goes on -/
  | running (sent : List UInt8)
deriving DecidableEq

/-- The loop, for at most the given number of turns; `write` takes every buffer whole. -/
def client (mode : Beyond) : Nat → List UInt8 → List UInt8 → Outcome
  | 0, _, sent => .running sent
  | turns + 1, input, sent =>
      match turn mode (fgets (inputBuffChunk - headerSize) input).1 with
      | none => .fault
      | some none => .stopped sent
      | some (some bytes) =>
          client mode turns (fgets (inputBuffChunk - headerSize) input).2 (sent ++ bytes)

/-! ## One turn -/

theorem upToNewline_isPrefix : ∀ bs : List UInt8, upToNewline bs <+: bs
  | [] => List.prefix_refl _
  | b :: bs => by
      rw [upToNewline]
      split
      · exact ⟨bs, rfl⟩
      · obtain ⟨rest, hrest⟩ := upToNewline_isPrefix bs
        exact ⟨rest, by rw [List.cons_append, hrest]⟩

/-- `fgets` takes a piece off the front of the input that fits into the buffer, and takes
nothing only at the end. -/
theorem fgets_spec {n : Nat} (hn : 1 < n) (input : List UInt8) :
    input = (fgets n input).1 ++ (fgets n input).2 ∧ (fgets n input).1.length < n ∧
      ((fgets n input).1 = [] → input = []) := by
  have htake : upToNewline (input.take (n - 1)) <+: input :=
    (upToNewline_isPrefix _).trans ( List.take_prefix _ _)
  refine ⟨?_, ?_, fun h => ?_⟩
  · exact (List.prefix_iff_eq_append.mp htake).symm
  · have hle := (upToNewline_isPrefix (input.take (n - 1))).length_le
    rw [List.length_take] at hle
    simp only [fgets]
    omega
  · cases input with
    | nil => rfl
    | cons b input =>
        obtain ⟨k, hk⟩ : ∃ k, n - 1 = k + 1 := ⟨n - 2, by omega⟩
        simp only [fgets, hk, List.take_succ_cons, upToNewline] at h
        split at h
        · cases h
        · cases h

variable {mode : Beyond}

/-- `strlen` finds a terminator inside of the block. -/
theorem Block.strlen_eq {b : Block} : ∀ {n turns off : Nat}, (∀ j < n, b.bytes (off + j) ≠ 0) →
    b.bytes (off + n) = 0 → off + n < b.size → n < turns → b.strlen mode turns off = some n
  | 0, turns + 1, off, _, hzero, hsize, _ => by
      rw [strlen, get, if_pos (.inl hsize), Option.bind_eq_bind, Option.bind_some]
      exact if_pos hzero
  | n + 1, turns + 1, off, hne, hzero, hsize, hturns => by
      have hfirst : b.bytes off ≠ 0 := hne 0 (by omega)
      have hrest : b.strlen mode turns (off + 1) = some n := by
        refine strlen_eq (fun j hj => ?_) ?_ (by omega) (by omega)
        · rw [Nat.add_right_comm]
          exact hne (j + 1) (by omega)
        · rw [Nat.add_right_comm]
          exact hzero
      rw [strlen, get, if_pos (.inl (by omega)), Option.bind_eq_bind, Option.bind_some,
        if_neg hfirst, hrest]
      rfl

/-- A block of `size` bytes with a header of zeros and a text behind it. -/
def textBlock (text : List UInt8) (size : Nat) : Block :=
  ⟨fun i => if headerSize ≤ i then text.getD (i - headerSize) 0 else 0, size⟩

theorem Block.put_of_le {b : Block} {off : Nat} {src : List UInt8} (h : off + src.length ≤ b.size) :
    b.put mode off src =
      some ⟨fun i => if off ≤ i ∧ i < off + src.length then src.getD (i - off) 0
        else b.bytes i, b.size⟩ :=
  if_pos (.inl h)

/-- The buffer with the line that `fgets` stores. -/
theorem put_line (mode : Beyond) {line : List UInt8}
    (hlen : line.length < inputBuffChunk - headerSize) :
    (⟨fun _ => 0, headerSize + inputBuffChunk⟩ : Block).put mode headerSize (line ++ [0]) =
      some (textBlock line (headerSize + inputBuffChunk)) := by
  have hfit : headerSize + (line ++ [0]).length ≤ headerSize + inputBuffChunk := by
    rw [List.length_append, List.length_singleton]
    omega
  rw [Block.put_of_le hfit, textBlock]
  congr 2
  funext i
  rw [List.length_append, List.length_singleton, List.getD_eq_getElem?_getD,
    List.getD_eq_getElem?_getD]
  grind

/-- The newline, or whatever the last character is, is overwritten. -/
theorem put_end (mode : Beyond) {line : List UInt8} (hne : line ≠ [])
    (hlen : line.length < inputBuffChunk - headerSize) :
    (textBlock line (headerSize + inputBuffChunk)).put mode (headerSize + line.length - 1) [0] =
      some (textBlock line.dropLast (headerSize + inputBuffChunk)) := by
  have hpos : 0 < line.length := List.length_pos_of_ne_nil hne
  have hfit :
      headerSize + line.length - 1 + [(0 : UInt8)].length ≤ headerSize + inputBuffChunk := by
    rw [List.length_singleton]
    omega
  rw [Block.put_of_le hfit]
  simp only [textBlock, List.length_singleton, List.getD_eq_getElem?_getD,
    List.getElem?_dropLast, headerSize]
  congr 2
  funext i
  grind

/-- The frame in the block, with the length in the header. -/
theorem put_header (mode : Beyond) (text : List UInt8) :
    ∃ data, (textBlock text (headerSize + text.length)).put mode 0 (toBe32 text.length) =
      some data ∧
      (List.range (headerSize + text.length)).map data.bytes = toBe32 text.length ++ text := by
  have hfit : 0 + (toBe32 text.length).length ≤ headerSize + text.length := by
    rw [length_toBe32, headerSize]
    omega
  refine ⟨_, Block.put_of_le hfit, ?_⟩
  have hlen : (toBe32 text.length).length = 4 := length_toBe32 _
  apply List.ext_getElem?
  intro i
  simp only [textBlock, List.getElem?_map, List.getElem?_append, hlen, headerSize,
    List.getD_eq_getElem?_getD]
  grind

/-- A turn with a line: what is compared with `exit` and sent is the line without its last
character. -/
theorem turn_line {line : List UInt8} (hne : line ≠ []) (hnul : 0 ∉ line)
    (hlen : line.length < inputBuffChunk - headerSize) : turn mode line =
      ((textBlock line.dropLast (headerSize + line.dropLast.length)).strcmp mode headerSize
      clientExit).bind fun isExit =>
        if isExit then some none
        else some (some (toBe32 line.dropLast.length ++ line.dropLast)) := by
  have hpos : 0 < line.length := List.length_pos_of_ne_nil hne
  have hdrop : line.dropLast.length = line.length - 1 := List.length_dropLast
  have hstrlen :
      (textBlock line (headerSize + inputBuffChunk)).strlen mode inputBuffChunk headerSize =
      some line.length := by
    refine Block.strlen_eq (fun j hj => ?_) ?_ (by simp only [textBlock]; omega) (by omega)
    · rw [textBlock]
      simp only [Nat.le_add_right, if_true, Nat.add_sub_cancel_left]
      rw [List.getD_eq_getElem?_getD, List.getElem?_eq_getElem hj, Option.getD_some]
      exact fun h0 => hnul (h0 ▸ List.getElem_mem hj)
    · simp [textBlock]
  have hcontent : headerSize + line.length - 1 = headerSize + line.dropLast.length := by omega
  have hdatalen : (((headerSize + line.dropLast.length : Nat) : Int) - headerSize) % 2 ^ 32 =
      (line.dropLast.length : Int) := by
    simp only [inputBuffChunk, headerSize] at *
    omega
  obtain ⟨data, hdata, hbytes⟩ := put_header mode line.dropLast
  have hcut :
      ∀ size, (⟨(textBlock line.dropLast (headerSize + inputBuffChunk)).bytes, size⟩ : Block) =
      textBlock line.dropLast size := fun _ => rfl
  simp only [turn, if_neg hne, put_line mode hlen, Option.bind_eq_bind, Option.bind_some, hstrlen,
    put_end mode hne hlen]
  simp only [hcontent, hcut, hdatalen, Int.toNat_natCast, hdata, Option.bind_some, hbytes]

/-- At the end of the input three bytes of a length of `-1` are sent, if that is not a
fault. -/
theorem turn_nil (mode : Beyond) :
    turn mode [] = if mode = .stale then some (some [255, 255, 255]) else none := by
  cases mode <;> decide

/-! ## Every run -/

/-- A text behind its length. -/
def framed (text : List UInt8) : List UInt8 := toBe32 text.length ++ text

/-- The texts can be read off from their frames. -/
theorem framed_unique : ∀ {ps qs : List (List UInt8)}, (∀ p ∈ ps, p.length < 2 ^ 32) →
      (∀ q ∈ qs, q.length < 2 ^ 32) →
    ps.flatMap framed = qs.flatMap framed → ps = qs
  | [], [], _, _, _ => rfl
  | [], q :: qs, _, _, h => by simp [framed, toBe32, toBe16] at h
  | p :: ps, [], _, _, h => by simp [framed, toBe32, toBe16] at h
  | p :: ps, q :: qs, hps, hqs, h => by
      simp only [List.flatMap_cons, framed, List.append_assoc] at h
      obtain ⟨hheader, hrest⟩ := List.append_inj h rfl
      have hlen : p.length = q.length := by
        rw [← be32_toBe32 (hps p (by simp)), hheader, be32_toBe32 (hqs q (by simp))]
      obtain ⟨hpq, htail⟩ := List.append_inj hrest hlen
      rw [hpq,
        framed_unique (fun p hp => hps p (by simp [hp])) (fun q hq => hqs q (by simp [hq])) htail]

/-- The pieces of the input that are read before the loop stops, and what is sent for them.
The piece that it stops at is not sent, and it never stops at the end of the input. -/
theorem client_stopped : ∀ {turns : Nat} {input sent out : List UInt8}, 0 ∉ input →
    client mode turns input sent = .stopped out →
    ∃ (lines : List (List UInt8)) (rest : List UInt8), input = lines.flatten ++ rest ∧ rest ≠ [] ∧
      (∀ line ∈ lines, line ≠ [] ∧ line.length < inputBuffChunk - headerSize) ∧
      out = sent ++ (lines.map List.dropLast).flatMap framed
  | 0, _, _, _, _, h => by cases h
  | turns + 1, input, sent, out, hnul, h => by
      obtain ⟨hinput, hlen, hend⟩ :=
  fgets_spec (show 1 < inputBuffChunk - headerSize by decide) input
      rw [client] at h
      generalize fgets (inputBuffChunk - headerSize) input = read at hinput hlen hend h
      obtain ⟨line, rest⟩ := read
      simp only at hinput hlen hend h
      by_cases hline : line = []
      · -- nothing is left: three bytes are sent, and again nothing is left
        have hnil : input = [] := hend hline
        subst hline
        rw [turn_nil] at h
        have hrest : rest = [] := by rw [hnil, List.nil_append] at hinput; exact hinput.symm
        by_cases hmode : mode = .stale
        · simp only [if_pos hmode] at h
          obtain ⟨lines, rest', hsplit, hne, -⟩ := client_stopped (hrest ▸ List.not_mem_nil) h
          rw [hrest] at hsplit
          exact absurd (List.append_eq_nil_iff.mp hsplit.symm).2 hne
        · simp only [if_neg hmode] at h
          cases h
      · have hnulLine : 0 ∉ line := fun h0 => hnul (hinput ▸ List.mem_append_left _ h0)
        have hnulRest : 0 ∉ rest := fun h0 => hnul (hinput ▸ List.mem_append_right _ h0)
        rw [turn_line hline hnulLine hlen] at h
        generalize (textBlock line.dropLast _).strcmp mode headerSize clientExit = isExit at h
        match isExit with
        | none => cases h
        | some true =>
            cases h
            exact ⟨[], input, rfl, fun hnil => hline (List.append_eq_nil_iff.mp (hinput ▸ hnil)).1,
              by simp, by simp⟩
        | some false =>
            obtain ⟨lines, rest', hsplit, hne, hlines, hout⟩ := client_stopped hnulRest h
            refine ⟨line :: lines, rest',
              by rw [hinput, hsplit, List.flatten_cons, List.append_assoc], hne, ?_, ?_⟩
            · intro l hl
              rcases List.mem_cons.mp hl with rfl | hl
              · exact ⟨hline, hlen⟩
              · exact hlines l hl
            · rw [hout, List.map_cons, List.flatMap_cons, framed, List.append_assoc]

/-- The texts, each with or without a newline behind it, are the input. -/
def Rejoins (texts : List (List UInt8)) (input : List UInt8) : Prop :=
  ∃ newlines : List Bool, newlines.length = texts.length ∧
    input = (List.zipWith (fun text nl => text ++ if nl then [10] else []) texts newlines).flatten

/-- Input is at most as long as the texts of its lines and their line feeds. -/
theorem Rejoins.length_le : ∀ {texts : List (List UInt8)}
    {input : List UInt8}, Rejoins texts input → input.length ≤ texts.flatten.length + texts.length
  | [], input, ⟨newlines, _, h⟩ => by simp [h]
  | text :: texts, input, ⟨[], hlen, _⟩ => by cases hlen
  | text :: texts, input, ⟨nl :: newlines, hlen, h⟩ => by
      have ih : _ ≤ texts.flatten.length + texts.length :=
  Rejoins.length_le ⟨newlines, Nat.succ.inj hlen, rfl⟩
      rw [h, List.zipWith_cons_cons, List.flatten_cons, List.length_append, List.length_append,
        List.flatten_cons, List.length_append, List.length_cons]
      have hnl : (if nl then [(10 : UInt8)] else []).length ≤ 1 := by cases nl <;> decide
      omega

/-- Each line without its line feed is one byte shorter. -/
theorem length_flatten_dropLast : ∀ lines : List (List UInt8), (∀ line ∈ lines, line ≠ []) →
    (lines.map List.dropLast).flatten.length + lines.length = lines.flatten.length
  | [], _ => rfl
  | line :: lines, h => by
      have ih := length_flatten_dropLast lines fun l hl => h l (by simp [hl])
      have hpos := List.length_pos_of_ne_nil (h line (by simp))
      rw [List.map_cons, List.flatten_cons, List.flatten_cons, List.length_append,
        List.length_append, List.length_dropLast, List.length_cons]
      omega

/-- **The client never sends its input**: for no input does it stop, having sent frames
whose texts, with newlines behind them, are the input. -/
theorem client_never_sends_input (mode : Beyond) {input : List UInt8} (hnul : 0 ∉ input) :
    ¬∃ turns sent, ∃ ms : List Message, client mode turns input [] = .stopped sent ∧
      sent = encode ms ∧ Rejoins (ms.map Message.text) input := by
  rintro ⟨turns, sent, ms, hrun, hsent, hjoin⟩
  obtain ⟨lines, rest, hinput, hrest, hlines, hout⟩ := client_stopped hnul hrun
  have htexts : ms.map Message.text = lines.map List.dropLast := by
    refine framed_unique (fun p hp => ?_) (fun q hq => ?_) ?_
    · obtain ⟨m, -, rfl⟩ := List.mem_map.mp hp
      exact m.fits
    · obtain ⟨line, hline, rfl⟩ := List.mem_map.mp hq
      have hlen := (hlines line hline).2
      rw [List.length_dropLast]
      simp only [inputBuffChunk] at hlen
      omega
    · rw [List.nil_append] at hout
      rw [← hout, hsent, encode, List.flatMap_map]
      rfl
  -- what was sent has one character less for each piece, and nothing of the rest
  have hle := hjoin.length_le
  have hcount := length_flatten_dropLast lines fun line hline => (hlines line hline).1
  have hpos := List.length_pos_of_ne_nil hrest
  rw [htexts, List.length_map, hcount, hinput, List.length_append] at hle
  omega

theorem client_never_sends_input_hi :
    ¬∃ turns sent, ∃ ms : List Message, client .stale turns [104, 105, 10]
    [] = .stopped sent ∧ sent = encode ms ∧ Rejoins (ms.map Message.text) [104, 105, 10] :=
  client_never_sends_input .stale (by decide)

/-- The line `hi`: behind its frame, the first three bytes of a length of `-1` are sent
again and again, or the access behind the end of the block is a fault.  And the line `hi`
without a newline: the `i` is not sent. -/
theorem client_after_input :
    client .stale 3 [104, 105, 10]
    [] = .running [0, 0, 0, 2, 104, 105, 255, 255, 255, 255, 255, 255] ∧
      client .fault 3 [104, 105, 10] [] = .fault ∧
      client .stale 1 [104, 105] [] = .running [0, 0, 0, 1, 104] := by
  decide

end Linuxyz.Ncat.Client
