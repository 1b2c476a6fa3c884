import Mathlib.Data.List.Basic

/-!
# Linuxyz.Wc.Count

The line and word counts of `var-wc`: a heap copy of the file, which has no terminator,
is cut into pieces with `strsep` or `strtok`.

Memory is a list of bytes: the block, whose first byte has address 0, and the bytes that
follow it.  The string functions stop at a zero byte wherever it stands; `read` is the end
of what they have read, and to read behind the memory there is is a fault (`none`).
-/

namespace Linuxyz.Wc

open Option (bind_none bind_some bind_eq_bind)

/-! ## `strsep` and `strtok` -/

/-- The first byte that ends a scan from address `p` on, with its address. -/
def scan (stop : UInt8 → Bool) : List UInt8 → Nat → Option (Nat × UInt8)
  | [], _ => none
  | b :: bs, p => if stop b then some (p, b) else scan stop bs (p + 1)

/-- A call that cuts a piece off: the memory after it, the piece, the saved pointer and
the end of what was read. -/
structure Call (σ : Type) where
  mem : List UInt8
  token : Option Nat
  saved : σ
  read : Nat
deriving DecidableEq

/-- `strsep(&p, delim)`; the saved pointer is `p`, and `none` is `NULL`. -/
def strsep (delim : UInt8) (mem : List UInt8) : Option Nat → Option (Call (Option Nat))
  | none => some ⟨mem, none, none, 0⟩
  | some p => do
      let (e, c) ← scan (fun b => b == delim || b == 0) (mem.drop p) p
      if c = 0 then some ⟨mem, some p, none, e + 1⟩
      else some ⟨mem.set e 0, some p, some (e + 1), e + 1⟩

/-- `strtok`, from the pointer `p` that it is given or has saved. -/
def strtok (delim : UInt8) (mem : List UInt8) (p : Nat) : Option (Call Nat) := do
  let (s, c) ← scan (fun b => b != delim) (mem.drop p) p
  if c = 0 then some ⟨mem, none, s, s + 1⟩
  else
    let (e, c) ← scan (fun b => b == delim || b == 0) (mem.drop s) s
    if c = 0 then some ⟨mem, some s, e, e + 1⟩
    else some ⟨mem.set e 0, some s, e + 1, e + 1⟩

/-! ## the counts -/

/-- The loop of either count: the number of pieces, the end of what was read and the
saved pointer, after at most `turns` calls. -/
def countTokens {σ : Type} (next : List UInt8 → σ → Option (Call σ)) :
    Nat → List UInt8 → σ → Nat → Nat → Option (Nat × Nat × σ)
  | 0, _, _, _, _ => none
  | turns + 1, mem, saved, count, read => do
      let call ← next mem saved
      match call.token with
      | none => some (count, max read call.read, call.saved)
      | some _ => countTokens next turns call.mem call.saved (count + 1) (max read call.read)

/-- What is stored in `*line_count` or `*word_count`, the end of what was read, and the
pointer that is passed to `free`. -/
structure Outcome where
  count : Nat
  read : Nat
  freed : Option Nat
deriving DecidableEq

/-- `WC_count_line_from_buff`: `strsep` moves `target_buff` itself. -/
def countLineFromBuff (turns : Nat) (buff after : List UInt8) : Option Outcome := do
  let (newLines, read, targetBuff) ← countTokens (strsep 10) turns (buff ++ after) (some 0) 0 0
  some ⟨newLines, read, targetBuff⟩

/-- `WC_count_word_from_buff`: `strtok` has a pointer of its own. -/
def countWordFromBuff (turns : Nat) (buff after : List UInt8) : Option Outcome := do
  let targetBuff := 0
  let (words, read, _) ← countTokens (strtok 32) turns (buff ++ after) targetBuff 0 0
  some ⟨words, read, some targetBuff⟩

/-! ## what they are to count -/

/-- The runs of bytes other than a space; `inRun` says that one goes on. -/
def runsFrom : Bool → List UInt8 → Nat
  | _, [] => 0
  | inRun, b :: bs =>
      if b = 32 then runsFrom false bs else (if inRun then 0 else 1) + runsFrom true bs

/-- The number of maximal runs of bytes other than a space. -/
def runs (bs : List UInt8) : Nat := runsFrom false bs

/-- The function returns with this count, and has read the first `len` bytes at most. -/
def Counts (f : Nat → Option Outcome) (count len : Nat) : Prop :=
  ∃ turns r, f turns = some r ∧ r.read ≤ len ∧ r.count = count

/-- It also frees the block. -/
def Correct (f : Nat → Option Outcome) (count len : Nat) : Prop :=
  ∃ turns r, f turns = some r ∧ r.read ≤ len ∧ r.count = count ∧ r.freed = some 0

/-! ## scans -/

/-- The scan stops at the first byte that it looks for. -/
theorem scan_append {stop : UInt8 → Bool} {as bs : List UInt8} {b : UInt8}
    (ha : ∀ a ∈ as, stop a = false) (hb : stop b = true)
    (p : Nat) : scan stop (as ++ b :: bs) p = some (p + as.length, b) := by
  induction as generalizing p with
  | nil => rw [List.nil_append, scan, if_pos hb, List.length_nil, Nat.add_zero]
  | cons a as ih =>
      rw [List.cons_append, scan, ha a List.mem_cons_self, if_neg Bool.false_ne_true,
        ih fun x hx => ha x (List.mem_cons_of_mem a hx), List.length_cons, Nat.add_right_comm,
        Nat.add_assoc]

/-- Where the scan stops there is such a byte. -/
theorem scan_eq_some {stop : UInt8 → Bool} {bs : List UInt8} {p e : Nat} {c : UInt8}
    (h : scan stop bs p = some (e, c)) :
    ∃ as rest, bs = as ++ c :: rest ∧ e = p + as.length ∧ stop c = true := by
  induction bs generalizing p with
  | nil => cases h
  | cons b bs ih =>
      rw [scan] at h
      split at h
      · next hb =>
        cases h
        exact ⟨[], bs, rfl, rfl, hb⟩
      · obtain ⟨as, rest, rfl, rfl, hc⟩ := ih h
        exact ⟨b :: as, rest, rfl, by rw [List.length_cons]; omega, hc⟩

theorem drop_of_drop {mem as rest : List UInt8} {p : Nat} (h : mem.drop p = as ++ rest) :
    mem.drop (p + as.length) = rest := by
  rw [← List.drop_drop, h, List.drop_left]

/-- A store does not touch the memory behind it. -/
theorem drop_set_of_drop {mem as rest : List UInt8} {p : Nat} {c : UInt8}
    (h : mem.drop p = as ++ c :: rest) :
    (mem.set (p + as.length) 0).drop (p + as.length + 1) = rest := by
  rw [List.drop_set_of_lt (by omega), ← List.drop_drop, drop_of_drop h, List.drop_one,
    List.tail_cons]

section Loop

variable {σ : Type} {next : List UInt8 → σ → Option (Call σ)} {mem : List UInt8} {saved : σ}
    {call : Call σ}

theorem countTokens_last (h : next mem saved = some call) (hlast : call.token = none)
    (turns count read : Nat) :
    countTokens next (turns + 1) mem saved count read =
      some (count, max read call.read, call.saved) := by
  simp only [countTokens, h, bind_eq_bind, bind_some, hlast]

theorem countTokens_token {t : Nat} (h : next mem saved = some call) (htoken : call.token = some t)
    (turns count read : Nat) :
    countTokens next (turns + 1) mem saved count read =
      countTokens next turns call.mem call.saved (count + 1) (max read call.read) := by
  simp only [countTokens, h, bind_eq_bind, bind_some, htoken]

theorem countTokens_fault (h : next mem saved = none) (turns count read : Nat) :
    countTokens next turns mem saved count read = none := by
  cases turns with
  | zero => rfl
  | succ turns => simp only [countTokens, h, bind_eq_bind, bind_none]

end Loop

/-! ## lines -/

/-- At a line feed `strsep` ends the line and goes on behind it. -/
theorem strsep_of_newline {mem as rest : List UInt8} {p : Nat} (h : mem.drop p = as ++ 10 :: rest)
    (hline : 10 ∉ as) (hzero : 0 ∉ as) :
    strsep 10 mem (some p) = some ⟨mem.set (p + as.length) 0, some p, some (p + as.length + 1),
      p + as.length + 1⟩ := by
  have hscan : scan (fun b => b == 10 || b == 0) (mem.drop p) p = some (p + as.length, 10) := by
    rw [h]
    exact scan_append (by grind) (by decide) p
  simp only [strsep, hscan, bind_eq_bind, bind_some]
  rfl

theorem strsep_of_zero {mem as rest : List UInt8} {p : Nat} (h : mem.drop p = as ++ 0 :: rest)
    (hline : 10 ∉ as) (hzero : 0 ∉ as) :
    strsep 10 mem (some p) = some ⟨mem, some p, none, p + as.length + 1⟩ := by
  have hscan : scan (fun b => b == 10 || b == 0) (mem.drop p) p = some (p + as.length, 0) := by
    rw [h]
    exact scan_append (by grind) (by decide) p
  simp only [strsep, hscan, bind_eq_bind, bind_some]
  rfl

/-- The lines of a string with a terminator, and where the scan ends. -/
theorem countTokens_strsep {turns : Nat} {mem text rest : List UInt8} {p : Nat}
    (h : mem.drop p = text ++ 0 :: rest) (hzero : 0 ∉ text) (count read : Nat) :
    countTokens (strsep 10) turns mem (some p) count read =
      if text.count 10 + 2 ≤ turns then
        some (count + 1 + text.count 10, max read (p + text.length + 1), none)
      else none := by
  -- a turn takes a line off `text`, and the last one ends at the terminator
  induction turns generalizing mem text p count read with
  | zero => rfl
  | succ turns ih =>
      by_cases hline : 10 ∈ text
      · obtain ⟨as, bs, rfl, has⟩ := List.eq_append_cons_of_mem hline
        have hzero' : 0 ∉ as ∧ 0 ∉ bs := by grind
        have h' : mem.drop p = as ++ 10 :: (bs ++ 0 :: rest) := by rw [h]; simp
        rw [countTokens_token (strsep_of_newline h' has hzero'.1) rfl,
          ih (drop_set_of_drop h') hzero'.2]
        have hcount : (as ++ 10 :: bs).count 10 = bs.count 10 + 1 := by
          rw [List.count_append, List.count_eq_zero_of_not_mem has, List.count_cons_self,
            Nat.zero_add]
        have hlen : (as ++ 10 :: bs).length = as.length + bs.length + 1 := by simp; omega
        rw [hcount, hlen]
        grind
      · rw [countTokens_token (strsep_of_zero h hline hzero) rfl,
          List.count_eq_zero_of_not_mem hline]
        cases turns with
        | zero => rfl
        | succ turns =>
            rw [countTokens_last rfl rfl, if_pos (by omega)]
            simp

/-- Without a terminator the loop runs out of the memory. -/
theorem countTokens_strsep_none {turns : Nat} {mem : List UInt8} {p : Nat} (h : 0 ∉ mem.drop p)
    (count read : Nat) : countTokens (strsep 10) turns mem (some p) count read = none := by
  induction turns generalizing mem p count read with
  | zero => rfl
  | succ turns ih =>
      cases hscan : scan (fun b => b == 10 || b == 0) (mem.drop p) p with
      | none =>
          exact countTokens_fault
            (by simp only [strsep, hscan, bind_eq_bind, bind_none]) _ _ _
      | some found =>
          obtain ⟨e, c⟩ := found
          obtain ⟨as, rest, hdrop, rfl, hc⟩ := scan_eq_some hscan
          have hne : c ≠ 0 := fun hc => h (by rw [hdrop, hc]; simp)
          have hcall : strsep 10 mem (some p) =
              some ⟨mem.set (p + as.length) 0, some p, some (p + as.length + 1),
                p + as.length + 1⟩ := by
            simp only [strsep, hscan, bind_eq_bind, bind_some, if_neg hne]
          rw [countTokens_token hcall rfl]
          refine ih ?_ _ _
          rw [drop_set_of_drop hdrop]
          exact fun hmem => h (by rw [hdrop]; simp [hmem])

/-! ## words -/

/-- Some text is blank, or has a first word, which ends with the text or before a space. -/
theorem blank_or_word (text : List UInt8) :
    (∀ b ∈ text, b = 32) ∨ ∃ blank c word rest, text = blank ++ (c :: word ++ rest) ∧
      (∀ b ∈ blank, b = 32) ∧ 32 ∉ c :: word ∧ (rest = [] ∨ ∃ text', rest = 32 :: text') := by
  induction text with
  | nil => exact .inl fun b hb => absurd hb List.not_mem_nil
  | cons b text ih =>
      by_cases hb : b = 32
      · obtain hblank | ⟨blank, c, word, rest, rfl, hblank, hword, hrest⟩ := ih
        · exact .inl (by grind)
        · exact .inr ⟨b :: blank, c, word, rest, rfl, by grind, hword, hrest⟩
      · refine .inr ?_
        by_cases hspace : 32 ∈ text
        · obtain ⟨word, text', rfl, hword⟩ := List.eq_append_cons_of_mem hspace
          exact ⟨[], b, word, 32 :: text', rfl, by grind, by grind, .inr ⟨text', rfl⟩⟩
        · exact ⟨[], b, text, [], by simp, by grind, by grind, .inl rfl⟩

theorem strtok_of_blank {mem blank rest : List UInt8} {p : Nat}
    (h : mem.drop p = blank ++ 0 :: rest) (hblank : ∀ b ∈ blank, b = 32) :
    strtok 32 mem p = some ⟨mem, none, p + blank.length, p + blank.length + 1⟩ := by
  have hscan : scan (fun b => b != 32) (mem.drop p) p = some (p + blank.length, 0) := by
    rw [h]
    exact scan_append (by grind) (by decide) p
  simp only [strtok, hscan, bind_eq_bind, bind_some]
  rfl

/-- A word, up to the byte `d` behind it. -/
theorem strtok_of_word {mem blank word rest : List UInt8} {p : Nat} {c d : UInt8}
    (h : mem.drop p = blank ++ (c :: word ++ d :: rest)) (hblank : ∀ b ∈ blank, b = 32)
    (hword : 32 ∉ c :: word) (hzero : 0 ∉ c :: word) (hd : d = 32 ∨ d = 0) :
    strtok 32 mem p = some (
      if d = 0 then ⟨mem, some (p + blank.length), p + (blank ++ c :: word).length,
        p + (blank ++ c :: word).length + 1⟩
      else ⟨mem.set (p + (blank ++ c :: word).length) 0, some (p + blank.length),
        p + (blank ++ c :: word).length + 1, p + (blank ++ c :: word).length + 1⟩) := by
  have hstart : scan (fun b => b != 32) (mem.drop p) p = some (p + blank.length, c) := by
    rw [h, List.cons_append]
    exact scan_append (by grind) (by grind) p
  have hend : scan (fun b => b == 32 || b == 0) (mem.drop (p + blank.length)) (p + blank.length) =
      some (p + (blank ++ c :: word).length, d) := by
    rw [drop_of_drop h, scan_append (by grind) (by grind), List.length_append, Nat.add_assoc]
  have hc : c ≠ 0 := by grind
  simp only [strtok, hstart, hend, bind_eq_bind, bind_some, if_neg hc]
  split <;> rfl

theorem runsFrom_blank {blank : List UInt8} (hblank : ∀ b ∈ blank, b = 32) (text : List UInt8) :
    runsFrom false (blank ++ text) = runsFrom false text := by
  induction blank with
  | nil => rfl
  | cons b blank ih =>
      have hb := hblank b List.mem_cons_self
      grind [runsFrom]

theorem runsFrom_word {word : List UInt8} (hword : 32 ∉ word) (text : List UInt8) :
    runsFrom true (word ++ text) = runsFrom true text := by
  induction word with
  | nil => rfl
  | cons b word ih => grind [runsFrom]

/-- A first word counts one. -/
theorem runs_word {blank word text : List UInt8} {c : UInt8} (hblank : ∀ b ∈ blank, b = 32)
    (hword : 32 ∉ c :: word) : runs (blank ++ (c :: word ++ text)) = 1 + runsFrom true text := by
  have hc : c ≠ 32 := by grind
  have hword' : 32 ∉ word := by grind
  rw [runs, runsFrom_blank hblank, List.cons_append, runsFrom, if_neg hc, runsFrom_word hword',
    if_neg Bool.false_ne_true]

/-- The words of a string with a terminator, and where the scan ends. -/
theorem countTokens_strtok {turns : Nat} {mem text rest : List UInt8} {p : Nat}
    (h : mem.drop p = text ++ 0 :: rest) (hzero : 0 ∉ text) (count read : Nat) :
    countTokens (strtok 32) turns mem p count read =
      if runs text + 1 ≤ turns then
        some (count + runs text, max read (p + text.length + 1), p + text.length)
      else none := by
  induction turns generalizing mem text p count read with
  | zero => rfl
  | succ turns ih =>
      obtain hblank | ⟨blank, c, word, after, rfl, hblank, hword, hafter⟩ := blank_or_word text
      · have hruns : runs text = 0 := by
          have hempty := runsFrom_blank hblank []
          rw [List.append_nil] at hempty
          exact hempty
        rw [countTokens_last (strtok_of_blank h hblank) rfl, hruns, if_pos (by omega)]
        rfl
      · have hzero' : 0 ∉ c :: word ∧ 0 ∉ after := by grind
        rw [runs_word hblank hword]
        obtain rfl | ⟨text', rfl⟩ := hafter
        · -- the word ends at the terminator, where the next call finds nothing
          have h' : mem.drop p = blank ++ (c :: word ++ 0 :: rest) := by rw [h]; simp
          rw [countTokens_token (strtok_of_word h' hblank hword hzero'.1 (.inr rfl)) rfl,
            if_pos rfl]
          have hnext : mem.drop (p + (blank ++ c :: word).length) = [] ++ 0 :: rest := by
            refine drop_of_drop ?_
            rw [h']
            simp
          rw [ih hnext hzero'.2]
          grind [runs, runsFrom]
        · have h' : mem.drop p = blank ++ (c :: word ++ 32 :: (text' ++ 0 :: rest)) := by
            rw [h]; simp
          have hnext : mem.drop p = (blank ++ c :: word) ++ 32 :: (text' ++ 0 :: rest) := by
            rw [h]; simp
          rw [countTokens_token (strtok_of_word h' hblank hword hzero'.1 (.inl rfl)) rfl,
            if_neg (by decide), ih (drop_set_of_drop hnext) (by grind)]
          have hruns : runsFrom true (32 :: text') = runs text' := rfl
          have hlen :
              (blank ++ (c :: word ++ 32 :: text')).length =
                (blank ++ c :: word).length + text'.length + 1 := by
            simp
            omega
          rw [hruns, hlen]
          grind

/-- Without a terminator the loop runs out of the memory. -/
theorem countTokens_strtok_none {turns : Nat} {mem : List UInt8} {p : Nat} (h : 0 ∉ mem.drop p)
    (count read : Nat) : countTokens (strtok 32) turns mem p count read = none := by
  induction turns generalizing mem p count read with
  | zero => rfl
  | succ turns ih =>
      cases hstart : scan (fun b => b != 32) (mem.drop p) p with
      | none =>
          exact countTokens_fault
            (by simp only [strtok, hstart, bind_eq_bind, bind_none]) _ _ _
      | some found =>
          obtain ⟨s, c⟩ := found
          obtain ⟨blank, rest, hdrop, rfl, -⟩ := scan_eq_some hstart
          have hc : c ≠ 0 := by grind
          have hzero : 0 ∉ mem.drop (p + blank.length) := by
            rw [drop_of_drop hdrop]
            grind
          cases hend :
              scan (fun b => b == 32 || b == 0) (mem.drop (p + blank.length))
                (p + blank.length) with
          | none =>
              refine countTokens_fault ?_ _ _ _
              simp only [strtok, hstart, hend, bind_eq_bind, bind_some,
                bind_none, if_neg hc]
          | some found =>
              obtain ⟨e, d⟩ := found
              obtain ⟨word, rest', hdrop', rfl, -⟩ := scan_eq_some hend
              have hd : d ≠ 0 := by grind
              have hcall : strtok 32 mem p =
                  some ⟨mem.set (p + blank.length + word.length) 0, some (p + blank.length),
                    p + blank.length + word.length + 1, p + blank.length + word.length + 1⟩ := by
                simp only [strtok, hstart, hend, bind_eq_bind, bind_some,
                  if_neg hc, if_neg hd]
              rw [countTokens_token hcall rfl]
              refine ih ?_ _ _
              rw [drop_set_of_drop hdrop']
              grind

/-! ## the two functions -/

variable {buff after : List UInt8}

theorem countLineFromBuff_eq {text rest : List UInt8} (h : buff ++ after = text ++ 0 :: rest)
    (hzero : 0 ∉ text) (turns : Nat) :
    countLineFromBuff turns buff after =
      if text.count 10 + 2 ≤ turns then some ⟨1 + text.count 10, text.length + 1, none⟩
      else none := by
  rw [countLineFromBuff, countTokens_strsep (show (buff ++ after).drop 0 = _ from h) hzero]
  split <;> simp

theorem countWordFromBuff_eq {text rest : List UInt8} (h : buff ++ after = text ++ 0 :: rest)
    (hzero : 0 ∉ text) (turns : Nat) :
    countWordFromBuff turns buff after =
      if runs text + 1 ≤ turns then some ⟨runs text, text.length + 1, some 0⟩ else none := by
  rw [countWordFromBuff, countTokens_strtok (show (buff ++ after).drop 0 = _ from h) hzero]
  split <;> simp

/-- A function that scans to the first zero byte stays inside of the block if and only if
there is one. -/
theorem exists_outcome_iff {f : Nat → Option Outcome} {need count : List UInt8 → Nat}
    {freed : Option Nat} (hzero : ∀ {text rest}, buff ++ after = text ++ 0 :: rest →
      0 ∉ text → ∀ turns, f turns = if need text ≤ turns then
        some ⟨count text, text.length + 1, freed⟩ else none)
    (hnone : 0 ∉ buff ++ after → ∀ turns, f turns = none) (P : Outcome → Prop) :
    (∃ turns r, f turns = some r ∧ r.read ≤ buff.length ∧ P r) ↔
      ∃ text rest, buff = text ++ 0 :: rest ∧ 0 ∉ text ∧
        P ⟨count text, text.length + 1, freed⟩ := by
  constructor
  · rintro ⟨turns, r, hr, hread, hp⟩
    have hmem : 0 ∈ buff ++ after := by
      by_contra hmem
      rw [hnone hmem] at hr
      cases hr
    obtain ⟨text, rest, heq, htext⟩ := List.eq_append_cons_of_mem hmem
    rw [hzero heq htext] at hr
    obtain rfl : _ = r := Option.some.inj (Option.ite_none_right_eq_some.mp hr).2
    dsimp only at hread
    -- the zero byte stands inside of the block
    obtain ⟨more, rfl, -⟩ | ⟨inside, rfl, hrest⟩ := List.append_eq_append_iff.mp heq
    · rw [List.length_append] at hread
      omega
    · cases inside with
      | nil =>
          rw [List.append_nil] at hread
          omega
      | cons b inside =>
          obtain rfl : 0 = b := (List.cons.inj hrest).1
          exact ⟨text, inside, rfl, htext, hp⟩
  · rintro ⟨text, rest, rfl, htext, hp⟩
    refine ⟨need text, _, ?_, ?_, hp⟩
    · rw [hzero (List.append_assoc text (0 :: rest) after) htext, if_pos (Nat.le_refl _)]
    · simp

theorem countLineFromBuff_none (h : 0 ∉ buff ++ after) (turns : Nat) :
    countLineFromBuff turns buff after = none := by
  rw [countLineFromBuff, countTokens_strsep_none (show 0 ∉ (buff ++ after).drop 0 from h)]
  rfl

theorem countWordFromBuff_none (h : 0 ∉ buff ++ after) (turns : Nat) :
    countWordFromBuff turns buff after = none := by
  rw [countWordFromBuff, countTokens_strtok_none (show 0 ∉ (buff ++ after).drop 0 from h)]
  rfl

/-- The count of the lines alone is right if a zero byte stands behind the last newline. -/
theorem count_line_iff :
    Counts (countLineFromBuff · buff after) (1 + buff.count 10) buff.length ↔
      ∃ text rest, buff = text ++ 0 :: rest ∧ 0 ∉ text ∧ 10 ∉ rest := by
  rw [Counts, exists_outcome_iff countLineFromBuff_eq countLineFromBuff_none fun r => r.count = _]
  refine exists_congr fun text => exists_congr fun rest => and_congr_right fun heq =>
    and_congr_right fun _ => ?_
  rw [heq, List.count_append, List.count_cons_of_ne (by decide), ← List.count_eq_zero]
  dsimp only
  omega

/-- `strsep` leaves `NULL` in `target_buff`, so that the block is never freed. -/
theorem not_correct_line (count : Nat) :
    ¬Correct (countLineFromBuff · buff after) count buff.length := by
  rw [Correct, exists_outcome_iff countLineFromBuff_eq countLineFromBuff_none fun r => r.count = _ ∧
    r.freed = some 0]
  rintro ⟨text, rest, -, -, -, hfreed⟩
  cases hfreed

/-! ## the runs behind a zero byte -/

/-- What follows a byte is counted from whether that byte is of a run. -/
theorem runsFrom_append (inRun : Bool) (as : List UInt8) (c : UInt8) (bs : List UInt8) :
    runsFrom inRun (as ++ c :: bs) = runsFrom inRun (as ++ [c]) + runsFrom (c != 32) bs := by
  induction as generalizing inRun with
  | nil => grind [runsFrom]
  | cons a as ih => grind [runsFrom]

theorem runsFrom_false_eq_zero {bs : List UInt8} (h : runsFrom false bs = 0) :
    bs = List.replicate bs.length 32 := by
  induction bs with
  | nil => rfl
  | cons b bs ih => grind [runsFrom]

/-- No run begins in some bytes that go on with one: the run ends, and blanks follow. -/
theorem runsFrom_true_eq_zero_iff {bs : List UInt8} :
    runsFrom true bs = 0 ↔ ∃ word n, bs = word ++ List.replicate n 32 ∧ 32 ∉ word := by
  constructor
  · intro h
    induction bs with
    | nil => exact ⟨[], 0, rfl, List.not_mem_nil⟩
    | cons b bs ih =>
        by_cases hb : b = 32
        · rw [hb, runsFrom, if_pos rfl] at h
          refine ⟨[], bs.length + 1, ?_, List.not_mem_nil⟩
          rw [hb, List.nil_append, List.replicate_succ, ← runsFrom_false_eq_zero h]
        · rw [runsFrom, if_neg hb, if_pos rfl, Nat.zero_add] at h
          obtain ⟨word, n, rfl, hword⟩ := ih h
          exact ⟨b :: word, n, rfl, by grind⟩
  · rintro ⟨word, n, rfl, hword⟩
    rw [runsFrom_word hword]
    have hblank : runsFrom false (List.replicate n 32 ++ []) = 0 :=
      runsFrom_blank (fun b hb => List.eq_of_mem_replicate hb) []
    rw [List.append_nil] at hblank
    cases n with
    | zero => rfl
    | succ n => exact hblank

/-- The runs of a text are those of all bytes if the zero byte behind it goes on with its
last one, and no other begins. -/
theorem runs_eq_runs_append_iff {text rest : List UInt8} :
    runs text = runs (text ++ 0 :: rest) ↔
      ∃ front c word n, text = front ++ [c] ∧ c ≠ 32 ∧ rest = word ++ List.replicate n 32 ∧
        32 ∉ word := by
  obtain rfl | ⟨front, c, rfl⟩ := List.eq_nil_or_concat' text
  · refine iff_of_false (by grind [runs, runsFrom]) ?_
    rintro ⟨front, c, word, n, hnil, -⟩
    exact List.append_ne_nil_of_right_ne_nil front (List.cons_ne_nil c []) hnil.symm
  · have hsplit : runs (front ++ [c] ++ 0 :: rest) =
        runs (front ++ [c]) + runsFrom (c != 32) (0 :: rest) := by
      rw [runs, List.append_assoc, List.singleton_append, runsFrom_append]
      rfl
    rw [hsplit]
    by_cases hc : c = 32
    · refine iff_of_false (by grind [runsFrom]) ?_
      rintro ⟨front', c', word, n, heq, hc', -⟩
      obtain ⟨-, hlast⟩ := List.append_inj' heq rfl
      exact hc' ((List.cons.inj hlast).1.symm.trans hc)
    · have hrun : runsFrom (c != 32) (0 :: rest) = runsFrom true rest := by grind [runsFrom]
      rw [hrun, Nat.left_eq_add, runsFrom_true_eq_zero_iff]
      constructor
      · rintro ⟨word, n, hrest, hword⟩
        exact ⟨front, c, word, n, rfl, hc, hrest, hword⟩
      · rintro ⟨-, -, word, n, -, -, hrest, hword⟩
        exact ⟨word, n, hrest, hword⟩

/-- **Counts**: for every content and every bytes that follow the copies, the count of the
lines is never correct, as its block is not freed (the number alone is right, within the
block, if a zero byte stands behind the last newline); and that of the words is correct if
and only if the first zero byte follows a byte of a word, and behind it that word ends and
only spaces follow. -/
theorem counts_iff (buff after : List UInt8) :
    ¬Correct (countLineFromBuff · buff after) (1 + buff.count 10) buff.length ∧
      (Counts (countLineFromBuff · buff after) (1 + buff.count 10) buff.length ↔
        ∃ text rest, buff = text ++ 0 :: rest ∧ 0 ∉ text ∧ 10 ∉ rest) ∧
      (Correct (countWordFromBuff · buff after) (runs buff) buff.length ↔
        ∃ front c word n, buff = front ++ [c] ++ 0 :: (word ++ List.replicate n 32) ∧
          0 ∉ front ++ [c] ∧ c ≠ 32 ∧ 32 ∉ word) := by
  refine ⟨not_correct_line _, count_line_iff, ?_⟩
  rw [Correct, exists_outcome_iff countWordFromBuff_eq countWordFromBuff_none fun r => r.count = _ ∧
    r.freed = some 0]
  constructor
  · rintro ⟨text, rest, rfl, htext, hcount, -⟩
    obtain ⟨front, c, word, n, rfl, hc, rfl, hword⟩ := runs_eq_runs_append_iff.mp hcount
    exact ⟨front, c, word, n, rfl, htext, hc, hword⟩
  · rintro ⟨front, c, word, n, rfl, htext, hc, hword⟩
    exact ⟨front ++ [c], _, rfl, htext,
      runs_eq_runs_append_iff.mpr ⟨front, c, word, n, rfl, hc, rfl, hword⟩, rfl⟩

/-- The file "a b", and zero bytes behind the copies: both counts read one byte outside,
and the block of the first one is lost.  And the file "a", zero byte, " b": the second
word is not counted. -/
theorem counts_of_text :
    countLineFromBuff 9 [97, 32, 98] [0, 0] = some ⟨1, 4, none⟩ ∧
      countWordFromBuff 9 [97, 32, 98] [0, 0] = some ⟨2, 4, some 0⟩ ∧
      countWordFromBuff 9 [97, 0, 32, 98]
      [0, 0] = some ⟨1, 2, some 0⟩ ∧ runs [97, 0, 32, 98] = 2 := by
  decide

end Linuxyz.Wc
