import Mathlib.Data.List.Basic
import Mathlib.Data.List.Infix
import Mathlib.Data.List.TakeWhile

/-!
# Linuxyz.IoUring.Request

What the HTTP server of `dev-sock-io-uring-http` makes of the bytes of a request: `get_line`,
`handle_http_method` and `handle_client_request`.

Only the first line counts, and of it only the first word.  A request without a line that ends
within the first 1024 bytes ends the whole server, and one whose first line is blank makes
it follow the null pointer that `strtok_r` returns (`request_outcome`).
-/

namespace Linuxyz.IoUring

def cr : UInt8 := 13

def lf : UInt8 := 10

def space : UInt8 := 32

/-- `READ_SZ` -/
def readSz : Nat := 8192

/-- The size of `http_request`. -/
def lineSz : Nat := 1024

/-! ## The functions -/

/-- `get_line` with `dest_sz` bytes left: the line, or `none` for its return value 1.  The
outer `none` is a read behind the end of `src`. -/
def getLine : Nat → List UInt8 → Option (Option (List UInt8))
  | 0, _ => some none
  | _ + 1, [] => none
  | n + 1, c :: src =>
      if c = cr then
        match src with
        | [] => none
        | d :: _ => if d = lf then some (some []) else (getLine n src).map (Option.map (c :: ·))
      else (getLine n src).map (Option.map (c :: ·))

/-- The string in a buffer. -/
def cString (s : List UInt8) : List UInt8 := s.takeWhile (· ≠ 0)

/-- `strtok_r` with the delimiter " ": the word and what is left behind it. -/
def strtok (s : List UInt8) : Option (List UInt8 × List UInt8) :=
  match s.dropWhile (· = space) with
  | [] => none
  | c :: s => some ((c :: s).takeWhile (· ≠ space), ((c :: s).dropWhile (· ≠ space)).drop 1)

def tolower (c : UInt8) : UInt8 := if 65 ≤ c ∧ c ≤ 90 then c + 32 else c

def strtolower (s : List UInt8) : List UInt8 := s.map tolower

/-- "get" -/
def get : List UInt8 := [103, 101, 116]

/-- What becomes of a request. -/
inductive Outcome where
  /-- `exit(1)` -/
  | exit
  /-- an access through a null pointer -/
  | crash
  /-- `handle_get_method`, with the path -/
  | respond (path : Option (List UInt8))
  | ignore
deriving DecidableEq, Repr

def handleHttpMethod (methodBuffer : List UInt8) : Outcome :=
  match strtok (cString methodBuffer) with
  | none => .crash
  | some (method, saveptr) =>
      let path := (strtok saveptr).map Prod.fst
      if strtolower method = get then .respond path else .ignore

/-- `handle_client_request` on the buffer of a read; `none` is a read outside of it. -/
def handleClientRequest (buf : List UInt8) : Option Outcome :=
  match getLine lineSz buf with
  | none => none
  | some none => some .exit
  | some (some line) => some (handleHttpMethod line)

/-- The buffer of a read request: cleared, then filled by the kernel. -/
def readBuffer (data : List UInt8) : List UInt8 := data ++ List.replicate (readSz - data.length) 0

/-! ## The first line -/

/-- `line` ends at the first CRLF of `src`, in a buffer of `n` bytes. -/
structure FirstLine (n : Nat) (src line : List UInt8) : Prop where
  lt : line.length < n
  first : ¬[cr, lf] <:+: line
  ends : line ++ [cr, lf] <+: src

variable {n : Nat} {src : List UInt8}

/-- `get_line` stays inside of a buffer that is longer than the line it may read. -/
theorem getLine_ne_none (h : n < src.length) : getLine n src ≠ none := by
  induction n generalizing src with
  | zero => simp [getLine]
  | succ n ih =>
      match src, h with
      | c :: d :: src, h =>
          have hrest := ih (Nat.lt_of_succ_lt_succ h)
          simp only [getLine]
          split
          · split
            · exact Option.some_ne_none _
            · simpa using hrest
          · simpa using hrest

variable {line : List UInt8}

theorem not_infix_cons {c : UInt8} :
    ¬[cr, lf] <:+: c :: line ↔ ¬(c = cr ∧ line.head? = some lf) ∧ ¬[cr, lf] <:+: line := by
  rw [List.infix_cons_iff, not_or]
  refine and_congr_left fun _ => not_congr ?_
  cases line with
  | nil => simp
  | cons d line => simp [eq_comm]

theorem head?_of_ends (h : line ++ [cr, lf] <+: src) :
    line.head? = some lf ↔ src.head? = some lf := by
  obtain ⟨rest, rfl⟩ := h
  cases line with
  | nil => exact iff_of_false (by simp) fun hhead => absurd (Option.some.inj hhead) (by decide)
  | cons d line => rfl

/-- A first line is empty, or has a first byte that does not begin a CRLF. -/
theorem firstLine_cons {c : UInt8} : FirstLine (n + 1) (c :: src) line ↔
      (line = [] ∧ c = cr ∧ src.head? = some lf) ∨
        ∃ l, line = c :: l ∧ FirstLine n src l ∧ ¬(c = cr ∧ src.head? = some lf) := by
  constructor
  · rintro ⟨hlt, hfirst, hends⟩
    cases line with
    | nil =>
        obtain ⟨rest, hrest⟩ := hends
        obtain ⟨rfl, rfl⟩ := List.cons.inj hrest
        exact .inl ⟨rfl, rfl, rfl⟩
    | cons d l =>
        rw [List.cons_append, List.cons_prefix_cons] at hends
        obtain ⟨rfl, hends⟩ := hends
        rw [not_infix_cons, head?_of_ends hends] at hfirst
        exact .inr ⟨l, rfl, ⟨Nat.lt_of_succ_lt_succ hlt, hfirst.2, hends⟩, hfirst.1⟩
  · rintro (⟨rfl, rfl, hhead⟩ | ⟨l, rfl, hline, hnot⟩)
    · obtain ⟨rest, rfl⟩ := List.head?_eq_some_iff.mp hhead
      exact ⟨Nat.succ_pos n, by simp, rest, rfl⟩
    · refine ⟨Nat.succ_lt_succ hline.lt, ?_, ?_⟩
      · rw [not_infix_cons, head?_of_ends hline.ends]
        exact ⟨hnot, hline.first⟩
      · rw [List.cons_append, List.cons_prefix_cons]
        exact ⟨rfl, hline.ends⟩

/-- One round of the loop in `get_line`. -/
theorem getLine_cons_eq_some_iff {c : UInt8} : getLine (n + 1) (c :: src) = some (some line) ↔
      (line = [] ∧ c = cr ∧ src.head? = some lf) ∨
        ∃ l, line = c :: l ∧ getLine n src = some (some l) ∧ ¬(c = cr ∧ src.head? = some lf) := by
  have hmap : (getLine n src).map (Option.map (c :: ·)) = some (some line) ↔
      ∃ l, line = c :: l ∧ getLine n src = some (some l) := by
    simp only [Option.map_eq_some_iff]
    exact ⟨fun ⟨_, h, l, hl, e⟩ => ⟨l, e.symm, hl ▸ h⟩, fun ⟨l, e, h⟩ =>
      ⟨some l, h, l, rfl, e.symm⟩⟩
  cases src with
  | nil => cases n <;> simp [getLine]
  | cons d src =>
      simp only [getLine, List.head?_cons, Option.some.injEq] at hmap ⊢
      by_cases hcr : c = cr <;> by_cases hlf : d = lf
      · simp [hcr, hlf, eq_comm]
      all_goals simpa [hcr, hlf] using hmap

/-- `get_line` finds exactly the first line. -/
theorem getLine_eq_some_iff : getLine n src = some (some line) ↔ FirstLine n src line := by
  induction n generalizing src line with
  | zero => exact iff_of_false (by simp [getLine]) fun h => absurd h.lt (Nat.not_lt_zero _)
  | succ n ih =>
      cases src with
      | nil => exact iff_of_false (by simp [getLine]) fun h => by simpa using h.ends
      | cons c src => simp only [getLine_cons_eq_some_iff, firstLine_cons, ih]

/-- The cleared bytes behind a request are no part of its first line. -/
theorem firstLine_readBuffer {data : List UInt8} :
    FirstLine n (readBuffer data) line ↔ FirstLine n data line := by
  refine ⟨fun ⟨hlt, hfirst, hends⟩ => ⟨hlt, hfirst, ?_⟩, fun ⟨hlt, hfirst, hends⟩ =>
    ⟨hlt, hfirst, hends.trans (List.prefix_append ..)⟩⟩
  refine List.prefix_of_prefix_length_le hends (List.prefix_append ..) ?_
  by_contra hlong
  -- otherwise the line feed is one of the cleared bytes
  have hlast : (readBuffer data)[line.length + 1]? = some lf := by
    obtain ⟨rest, hrest⟩ := hends
    rw [← hrest, List.append_assoc, List.getElem?_append_right (Nat.le_add_right _ 1),
      Nat.add_sub_cancel_left]
    rfl
  rw [List.length_append, List.length_cons, List.length_singleton] at hlong
  rw [readBuffer, List.getElem?_append_right (by omega), List.getElem?_replicate] at hlast
  split at hlast <;> cases hlast

/-! ## The first word -/

variable {s : List UInt8}

/-- There is no word exactly in a line of blanks. -/
theorem strtok_eq_none_iff : strtok s = none ↔ ∀ c ∈ s, c = space := by
  unfold strtok
  split
  · next h => simpa [List.dropWhile_eq_nil_iff] using h
  · next c rest h =>
      refine iff_of_false (Option.some_ne_none _) fun hall => ?_
      have hnil : s.dropWhile (· = space) = [] :=
        List.dropWhile_eq_nil_iff.mpr (by simpa using hall)
      rw [h] at hnil
      cases hnil

/-- A word behind spaces, up to the next space. -/
structure FirstWord (s word tail : List UInt8) : Prop where
  word_ne : word ≠ []
  word_space : ∀ c ∈ word, c ≠ space
  tail_space : ∀ c, tail.head? = some c → c = space
  split : ∃ spaces : List UInt8, (∀ c ∈ spaces, c = space) ∧ s = spaces ++ (word ++ tail)

/-- The first word is what `strtok` returns. -/
theorem strtok_of_firstWord {word tail : List UInt8} (h : FirstWord s word tail) :
    strtok s = some (word, tail.drop 1) := by
  obtain ⟨spaces, hspaces, rfl⟩ := h.split
  obtain ⟨c, word', rfl⟩ := List.exists_cons_of_ne_nil h.word_ne
  have hc : c ≠ space := h.word_space c List.mem_cons_self
  have hdrop : (spaces ++ (c :: word' ++ tail)).dropWhile (· = space) = c :: (word' ++ tail) := by
    rw [List.dropWhile_append_of_pos (by simpa using hspaces), List.cons_append,
      List.dropWhile_cons_of_neg (by simpa using hc)]
  have hpos : ∀ d ∈ c :: word', decide (d ≠ space) = true :=
    fun d hd => decide_eq_true (h.word_space d hd)
  have htail : tail.takeWhile (· ≠ space) = [] ∧ tail.dropWhile (· ≠ space) = tail := by
    cases tail with
    | nil => exact ⟨rfl, rfl⟩
    | cons d tail =>
        have hd := h.tail_space d rfl
        exact ⟨List.takeWhile_cons_of_neg (by simpa using hd),
          List.dropWhile_cons_of_neg (by simpa using hd)⟩
  unfold strtok
  rw [hdrop]
  simp only
  rw [← List.cons_append, List.takeWhile_append_of_pos hpos, List.dropWhile_append_of_pos hpos,
    htail.1, htail.2, List.append_nil]

/-- A line that is not blank has a first word. -/
theorem exists_firstWord (h : ¬∀ c ∈ s, c = space) : ∃ word tail, FirstWord s word tail := by
  have hne : s.dropWhile (· = space) ≠ [] :=
    fun hnil => h (by simpa [List.dropWhile_eq_nil_iff] using hnil)
  obtain ⟨c, rest, hrest⟩ := List.exists_cons_of_ne_nil hne
  have hc : c ≠ space := by
    have := List.head_dropWhile_not (fun c => decide (c = space)) hne
    simpa [hrest] using this
  refine ⟨(c :: rest).takeWhile (· ≠ space), (c :: rest).dropWhile (· ≠ space), ?_, ?_, ?_, ?_⟩
  · rw [List.takeWhile_cons_of_pos (by simpa using hc)]
    exact List.cons_ne_nil _ _
  · intro d hd
    simpa using List.mem_takeWhile_imp hd
  · intro d hd
    have hne : (c :: rest).dropWhile (· ≠ space) ≠ [] := fun hnil => by
      rw [hnil] at hd
      cases hd
    have hhead := List.head_dropWhile_not (fun c => decide (c ≠ space)) hne
    rw [List.head?_eq_some_head hne, Option.some.injEq] at hd
    rw [hd] at hhead
    simpa using hhead
  · refine ⟨s.takeWhile (· = space), fun d hd => by simpa using List.mem_takeWhile_imp hd, ?_⟩
    rw [List.takeWhile_append_dropWhile, ← hrest, List.takeWhile_append_dropWhile]

/-! ## The outcome -/

theorem lineSz_lt_length_readBuffer (data : List UInt8) : lineSz < (readBuffer data).length := by
  rw [readBuffer, List.length_append, List.length_replicate, readSz, lineSz]
  omega

/-- No request makes the server read outside of its buffer. -/
theorem exists_outcome (data : List UInt8) :
    ∃ o, handleClientRequest (readBuffer data) = some o := by
  rw [handleClientRequest]
  split
  · next hnone => exact absurd hnone (getLine_ne_none (lineSz_lt_length_readBuffer data))
  · exact ⟨_, rfl⟩
  · exact ⟨_, rfl⟩

theorem handleHttpMethod_of_blank (h : ∀ c ∈ cString line, c = space) :
    handleHttpMethod line = .crash := by
  rw [handleHttpMethod, strtok_eq_none_iff.mpr h]

theorem handleHttpMethod_of_firstWord {word tail : List UInt8}
    (h : FirstWord (cString line) word tail) : handleHttpMethod line =
      if strtolower word = get then .respond ((strtok (tail.drop 1)).map Prod.fst)
      else .ignore := by
  rw [handleHttpMethod, strtok_of_firstWord h]

/-- No method has a space in it. -/
theorem firstWord_of_get {spaces method tail : List UInt8} (hspaces : ∀ c ∈ spaces, c = space)
    (hs : s = spaces ++ (method ++ tail)) (hget : strtolower method = get)
    (htail : ∀ c, tail.head? = some c → c = space) : FirstWord s method tail where
  word_ne := by
    rintro rfl
    cases hget
  word_space := by
    rintro c hc rfl
    have hmem : tolower space ∈ strtolower method := List.mem_map_of_mem hc
    rw [hget] at hmem
    revert hmem
    decide
  tail_space := htail
  split := ⟨spaces, hspaces, hs⟩

/-- **What becomes of a request.**  For every sequence of bytes the server stays inside of its
buffer.  It exits exactly if no line ends within the first 1024 bytes, follows a null pointer
exactly if the first line is blank, and answers exactly if the first word of it is GET, in
upper or lower case. -/
theorem request_outcome (data : List UInt8) :
    ∃ o, handleClientRequest (readBuffer data) = some o ∧
      (o = .exit ↔ ¬∃ line, FirstLine lineSz data line) ∧
      (o = .crash ↔ ∃ line, FirstLine lineSz data line ∧ ∀ c ∈ cString line, c = space) ∧
      ((∃ path, o = .respond path) ↔
        ∃ line spaces method tail, FirstLine lineSz data line ∧
          cString line = spaces ++ (method ++ tail) ∧
          (∀ c ∈ spaces, c = space) ∧ strtolower method = get ∧ ∀ c, tail.head? = some c →
            c = space) := by
  have hline : ∀ line, getLine lineSz (readBuffer data) = some (some line) ↔
      FirstLine lineSz data line :=
    fun line => getLine_eq_some_iff.trans firstLine_readBuffer
  rw [handleClientRequest]
  cases hget : getLine lineSz (readBuffer data) with
  | none => exact absurd hget (getLine_ne_none (lineSz_lt_length_readBuffer data))
  | some result =>
      cases result with
      | none =>
          have hnone : ∀ line, ¬FirstLine lineSz data line := fun line h => by
            rw [← hline, hget] at h
            cases h
          simp [hnone]
      | some line =>
          have huniq : ∀ line', FirstLine lineSz data line' ↔ line' = line := fun line' => by
            rw [← hline, hget, Option.some.injEq, Option.some.injEq, eq_comm]
          simp only [huniq, exists_eq_left, exists_eq, not_true_eq_false, iff_false]
          refine ⟨_, rfl, ?_⟩
          by_cases hblank : ∀ c ∈ cString line, c = space
          · rw [handleHttpMethod_of_blank hblank]
            refine ⟨by simp, iff_of_true rfl hblank, iff_of_false (by simp) ?_⟩
            rintro ⟨_, spaces, method, tail, rfl, hs, hspaces, hmethod, htail⟩
            have hword := firstWord_of_get hspaces hs hmethod htail
            obtain ⟨c, word', rfl⟩ := List.exists_cons_of_ne_nil hword.word_ne
            exact hword.word_space c List.mem_cons_self (hblank c (by simp [hs]))
          · obtain ⟨word, tail, hword⟩ := exists_firstWord hblank
            rw [handleHttpMethod_of_firstWord hword]
            by_cases hmethod : strtolower word = get
            · obtain ⟨spaces, hspaces, hs⟩ := hword.split
              rw [if_pos hmethod]
              exact ⟨by simp, iff_of_false (by simp) hblank,
                iff_of_true ⟨_, rfl⟩ ⟨line, spaces, word, tail, rfl, hs, hspaces, hmethod,
                  hword.tail_space⟩⟩
            · rw [if_neg hmethod]
              refine ⟨by simp, iff_of_false (by simp) hblank, iff_of_false (by simp) ?_⟩
              rintro ⟨_, spaces, method, tail', rfl, hs, hspaces, hget', htail⟩
              have hsame := strtok_of_firstWord (firstWord_of_get hspaces hs hget' htail)
              rw [strtok_of_firstWord hword, Option.some.injEq, Prod.mk.injEq] at hsame
              exact hmethod (hsame.1 ▸ hget')

end Linuxyz.IoUring
