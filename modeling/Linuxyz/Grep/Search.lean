import Mathlib.Data.List.Forall2
import Linuxyz.Grep.Model
import Linuxyz.Vector.Refine

/-!
# Linuxyz.Grep.Search

The search of `var-grep` from standard input to what was found.

However `fgets` cuts the input, the buffer has the input (`readInput_spec`).  Splitting
it is pushing its rows one after the other (`splitInput_eq`), and each turn of the
search adds a row that contains the target (`Searched.searchRow`).

The lengths of the rows and their number are `int`; the search is right exactly for
the inputs for which they fit.
-/

namespace Linuxyz.Grep

open Linuxyz.Vector (Mem CString Owns Holds getSlot readString resize intMax ptrdiffMax)
open Option (bind_some bind_eq_bind)

/-! ## Rows -/

/-- The rows with a newline between one and the next. -/
def join (rows : List CString) : List UInt8 := [10].intercalate (rows.map CString.bytes)

theorem join_cons (row : CString) {rows : List CString} (hne : rows ≠ []) :
    join (row :: rows) = row.bytes ++ 10 :: join rows := by
  rw [join, List.map_cons, List.intercalate_cons_of_ne_nil (by simpa using hne), List.append_assoc]
  rfl

theorem join_singleton (row : CString) : join [row] = row.bytes := List.intercalate_singleton

/-- The rows are C strings, so that the text has no NUL. -/
theorem zero_notMem_join (rows : List CString) : 0 ∉ join rows := by
  induction rows with
  | nil => simp [join]
  | cons row rows ih =>
      by_cases hne : rows = []
      · rw [hne, join_singleton]
        exact row.noNul
      · rw [join_cons row hne]
        simp [row.noNul, ih]

/-- A bound on the length of the text by that of its rows. -/
theorem length_join_le {rows : List CString} {n : Nat} (h : ∀ row ∈ rows, row.bytes.length < n) :
    (join rows).length ≤ rows.length * n := by
  induction rows with
  | nil => simp [join]
  | cons row rows ih =>
      obtain ⟨hrow, hrows⟩ := List.forall_mem_cons.mp h
      by_cases hne : rows = []
      · rw [hne, join_singleton, List.length_singleton, Nat.one_mul]
        exact Nat.le_of_lt hrow
      · have hle := ih hrows
        rw [join_cons row hne, List.length_append, List.length_cons, List.length_cons, Nat.succ_mul]
        omega

/-- There are at most as many rows as the text has bytes, and one. -/
theorem length_le_length_join (rows : List CString) : rows.length ≤ (join rows).length + 1 := by
  induction rows with
  | nil => exact Nat.zero_le _
  | cons row rows ih =>
      by_cases hne : rows = []
      · rw [hne, List.length_singleton]
        exact Nat.le_add_left ..
      · rw [join_cons row hne, List.length_append, List.length_cons, List.length_cons]
        omega

/-- Every text is its rows. -/
theorem exists_rows (input : CString) :
    ∃ rows : List CString, rows ≠ [] ∧ (∀ row ∈ rows, 10 ∉ row.bytes) ∧
      join rows = input.bytes := by
  obtain ⟨n, hn⟩ : ∃ n, input.bytes.length = n := ⟨_, rfl⟩
  induction n using Nat.strong_induction_on generalizing input with
  | _ n ih =>
      by_cases hmem : (10 : UInt8) ∈ input.bytes
      · obtain ⟨row, rest, hsplit, hrow⟩ := List.eq_append_cons_of_mem hmem
        have hnul := input.noNul
        rw [hsplit] at hnul hn
        simp only [List.mem_append, List.mem_cons, not_or] at hnul
        rw [List.length_append, List.length_cons] at hn
        obtain ⟨rows, hne, hrows, hjoin⟩ := ih rest.length (by omega) ⟨rest, hnul.2.2⟩ rfl
        refine ⟨⟨row, hnul.1⟩ :: rows, List.cons_ne_nil _ _,
          List.forall_mem_cons.mpr ⟨hrow, hrows⟩, ?_⟩
        rw [join_cons _ hne, hjoin, hsplit]
      · exact ⟨[input], List.cons_ne_nil _ _, List.forall_mem_singleton.mpr hmem,
          join_singleton input⟩

/-! ## The buffer -/

/-- The bytes start with a text and its terminator. -/
def HoldsText (cells : List (Option UInt8)) (s : List UInt8) : Prop :=
  ∃ rest, cells = s.map some ++ some 0 :: rest

section Buffer

variable {cells : List (Option UInt8)} {s t : List UInt8} {n p : Nat}

theorem holdsText_replicate (n : Nat) : HoldsText (List.replicate (n + 1) (some 0)) [] :=
  ⟨List.replicate n (some 0), List.replicate_succ⟩

theorem HoldsText.cString (h : HoldsText cells s) (hs : 0 ∉ s) : cString cells = some s := by
  obtain ⟨rest, rfl⟩ := h
  induction s with
  | nil => rfl
  | cons b s ih =>
      obtain ⟨hb, hs⟩ := not_or.mp (mt List.mem_cons.mpr hs)
      simp [Grep.cString, Ne.symm hb, ih hs]

theorem HoldsText.resize (h : HoldsText cells s) (hn : s.length < n) :
    HoldsText (resize n cells) s := by
  obtain ⟨rest, rfl⟩ := h
  obtain ⟨k, rfl⟩ := Nat.exists_eq_add_of_lt hn
  refine ⟨rest.take k ++ List.replicate (s.length + k + 1 - (s.length + (rest.length + 1))) none,
    ?_⟩
  simp [Vector.resize, List.take_append, Nat.add_assoc, List.take_of_length_le]

theorem length_resize (n : Nat) (cells : List (Option UInt8)) :
    (Vector.resize n cells).length = n := by
  simp only [Vector.resize, List.length_append, List.length_take, List.length_replicate]
  omega

/-- The new text goes to where the terminator was. -/
theorem HoldsText.strcat (h : HoldsText cells s) (hs : 0 ∉ s)
    (hlen : s.length + t.length < cells.length) :
    ∃ cells', strcat cells t = some cells' ∧ HoldsText cells' (s ++ t) := by
  have hfits : s.length + ((t ++ [0]).map some).length ≤ cells.length := by simp; omega
  refine ⟨Buffer.overwrite cells s.length ((t ++ [0]).map some), ?_,
    cells.drop (s.length + ((t ++ [0]).map some).length), ?_⟩
  · simp only [Grep.strcat, h.cString hs, bind_eq_bind, bind_some]
    exact Buffer.memcpy_eq_some hfits
  · obtain ⟨rest, rfl⟩ := h
    simp [Buffer.overwrite]

theorem strsep_last (h : HoldsText (cells.drop p) s) (hs : 0 ∉ s) (hline : 10 ∉ s) :
    strsep cells (some p) = some (cells, some p, none) := by
  simp only [strsep, h.cString hs, bind_eq_bind, bind_some, if_neg hline]

/-- At a line feed `strsep` ends the row and goes on behind it. -/
theorem strsep_line (h : HoldsText (cells.drop p) (s ++ 10 :: t)) (hs : 0 ∉ s ++ 10 :: t)
    (hline : 10 ∉ s) :
    ∃ cells', strsep cells (some p) = some (cells', some p, some (p + s.length + 1)) ∧
      HoldsText (cells'.drop p) s ∧ HoldsText (cells'.drop (p + s.length + 1)) t := by
  have hidx : (s ++ 10 :: t).idxOf 10 = s.length := by
    rw [List.idxOf_append_of_notMem hline, List.idxOf_cons_self, Nat.add_zero]
  refine ⟨cells.set (p + s.length) (some 0), ?_, ?_⟩
  · simp only [strsep, h.cString hs, hidx, bind_eq_bind, bind_some]
    exact if_pos (by simp)
  · obtain ⟨rest, hrest⟩ := h
    refine ⟨⟨t.map some ++ some 0 :: rest, ?_⟩, rest, ?_⟩
    · rw [List.drop_set, if_neg (by omega), Nat.add_sub_cancel_left, hrest]
      simp
    · rw [List.drop_set, if_pos (by omega), Nat.add_assoc, ← List.drop_drop, hrest]
      simp [List.drop_append]

end Buffer

/-! ## From standard input to rows -/

/-- However the input is cut, the buffer has all of it, unless there is no room for
it. -/
theorem readInput_spec {r : Reading} {s : List UInt8} {chunks : List (List UInt8)}
    (hbuffer : r.getBuffer.length = maxStdinputWidth) (htotal : r.totalInputSize = s.length + 1)
    (h : HoldsText r.buffInput s) (hnul : 0 ∉ s ++ chunks.flatten)
    (hfits : ∀ c ∈ chunks, c.length < maxStdinputWidth) :
    (readInput r chunks = some (.error (-1)) ∧ ptrdiffMax < (s ++ chunks.flatten).length + 1) ∨
      ∃ r', readInput r chunks = some (.ok r') ∧ HoldsText r'.buffInput (s ++ chunks.flatten) := by
  induction chunks generalizing r s with
  | nil => exact .inr ⟨r, rfl, by simpa using h⟩
  | cons chunk chunks ih =>
      obtain ⟨hchunk, hchunks⟩ := List.forall_mem_cons.mp hfits
      rw [List.flatten_cons, ← List.append_assoc] at hnul ⊢
      obtain ⟨hnul₁, -⟩ := not_or.mp (mt List.mem_append.mpr hnul)
      obtain ⟨hs, hc⟩ := not_or.mp (mt List.mem_append.mpr hnul₁)
      have hroom : 0 + (chunk ++ [0]).length ≤ r.getBuffer.length := by simp [hbuffer]; omega
      have hget : readString (Buffer.overwrite r.getBuffer 0 (chunk ++ [0])) = some chunk := by
        have hread := Vector.readString_append ⟨chunk, hc⟩ (r.getBuffer.drop (chunk.length + 1))
        simpa [Buffer.overwrite] using hread
      simp only [readInput, Buffer.memcpy_eq_some hroom, hget, htotal, bind_eq_bind,
        bind_some]
      by_cases hmax : ptrdiffMax < s.length + 1 + chunk.length
      · refine .inl ⟨if_pos hmax, ?_⟩
        simp only [List.length_append]
        omega
      · rw [if_neg hmax]
        obtain ⟨cells, hcat, htext⟩ :=
          (h.resize (n := s.length + 1 + chunk.length) (by omega)).strcat (t := chunk) hs
          (by rw [length_resize]; omega)
        simp only [hcat, bind_some]
        refine ih ?_ ?_ htext hnul hchunks
        · exact (Buffer.length_overwrite hroom).trans hbuffer
        · simp only [List.length_append]
          omega

/-- Splitting the buffer is pushing the rows of the text in it. -/
theorem splitInput_eq {rows : List CString} (hne : rows ≠ []) (hrows : ∀ row ∈ rows, 10 ∉ row.bytes)
    {cells : List (Option UInt8)} {p turns : Nat} (h : HoldsText (cells.drop p) (join rows))
    (hturns : rows.length < turns) (s : Mem × Input2d) :
    splitInput turns cells (some p) s = (rows.map CString.bytes).foldlM pushRow s := by
  induction rows generalizing cells p turns s with
  | nil => exact absurd rfl hne
  | cons row rows ih =>
      obtain ⟨hrow, hrows⟩ := List.forall_mem_cons.mp hrows
      obtain ⟨turns, rfl⟩ : ∃ k, turns = k + 1 := ⟨turns - 1, by omega⟩
      rw [List.length_cons] at hturns
      have hnul := zero_notMem_join (row :: rows)
      rw [List.map_cons, List.foldlM_cons]
      by_cases hempty : rows = []
      · -- the last row: the next call of `strsep` ends the loop
        subst hempty
        rw [join_singleton] at h
        obtain ⟨turns, rfl⟩ : ∃ k, turns = k + 1 := ⟨turns - 1, by simp at hturns; omega⟩
        have hend : strsep cells none = some (cells, none, none) := rfl
        simp only [splitInput, strsep_last h row.noNul hrow, h.cString row.noNul, hend,
          bind_eq_bind, bind_some, List.map_nil, List.foldlM_nil, Option.pure_def]
      · rw [join_cons row hempty] at h hnul
        obtain ⟨cells', hstrsep, hline, hrest⟩ := strsep_line h hnul hrow
        simp only [splitInput, hstrsep, hline.cString row.noNul, bind_eq_bind,
          bind_some]
        exact congrArg _ (funext fun s => ih hempty hrows hrest (by omega) s)

/-- All rows are pushed, one by one, behind those that are there. -/
theorem foldlM_pushRow {rows : List CString} {m : Mem} {in2d : Input2d}
    {cells : List (Nat × CString)} (h : Owns m in2d.buff2d cells)
    (hcount : in2d.rowCount = cells.length) (hlen : cells.length + rows.length ≤ intMax)
    (hshort : ∀ row ∈ rows, row.bytes.length < 2 ^ 31) :
    ∃ m' in2d' cells', (rows.map CString.bytes).foldlM pushRow (m, in2d) = some (m', in2d') ∧
      Owns m' in2d'.buff2d cells' ∧ in2d'.rowCount = cells'.length ∧
      cells'.map Prod.snd = cells.map Prod.snd ++ rows := by
  induction rows generalizing m in2d cells with
  | nil => exact ⟨m, in2d, cells, rfl, h, hcount, (List.append_nil _).symm⟩
  | cons row rows ih =>
      obtain ⟨hrow, hrows⟩ := List.forall_mem_cons.mp hshort
      rw [List.length_cons] at hlen
      obtain ⟨m₁, vec, hpush, howns⟩ := h.pushBackString (by omega) hrow
      obtain ⟨m', in2d', cells', hfold, howns', hcount', hsnd⟩ :=
        @ih m₁ ⟨in2d.rowCount + 1, vec⟩ _ howns (by simp [hcount]) (by simp; omega) hrows
      refine ⟨m', in2d', cells', ?_, howns', hcount', by rw [hsnd]; simp⟩
      rw [List.map_cons, List.foldlM_cons]
      simp only [pushRow, pushBackString, hcount, hpush, bind_eq_bind, bind_some]
      rw [← hcount]
      exact hfold

/-- What was pushed fits. -/
theorem fits_of_foldlM_pushRow {rows : List (List UInt8)} {s s' : Mem × Input2d}
    (h : rows.foldlM pushRow s = some s') :
    (∀ row ∈ rows, row.length < 2 ^ 31) ∧ (rows = [] ∨ s.2.rowCount + rows.length ≤ intMax) := by
  induction rows generalizing s with
  | nil => exact ⟨List.forall_mem_nil _, .inl rfl⟩
  | cons row rows ih =>
      rw [List.foldlM_cons] at h
      obtain ⟨s₁, hpush, hfold⟩ := Option.bind_eq_some_iff.mp h
      simp only [pushRow, bind_eq_bind, Option.bind_eq_some_iff] at hpush
      obtain ⟨⟨m, vec⟩, hpush, heq⟩ := hpush
      cases heq
      obtain ⟨hcount, hrow⟩ := Vector.fits_of_pushBackString hpush
      obtain ⟨hrows, hlen⟩ := ih hfold
      refine ⟨List.forall_mem_cons.mpr ⟨hrow, hrows⟩, .inr ?_⟩
      rcases hlen with rfl | hlen
      · exact hcount
      · rw [List.length_cons]
        simp only at hlen
        omega

/-- A way for `fgets` to deliver an input: in pieces that fit into the buffer. -/
structure Chunks (input : CString) where
  chunks : List (List UInt8)
  flatten : chunks.flatten = input.bytes
  nonempty : ∀ c ∈ chunks, c ≠ []
  fits : ∀ c ∈ chunks, c.length < maxStdinputWidth

/-- Rows are pushed one after the other, unless there is no room for the input. -/
theorem mapStdinTo2d_eq {input : CString} (chunks : Chunks input) {rows : List CString}
    (hne : rows ≠ []) (hrows : ∀ row ∈ rows, 10 ∉ row.bytes) (hjoin : join rows = input.bytes)
    (m : Mem) (in2d : Input2d) :
    (mapStdinTo2d chunks.chunks false m in2d = some (-1, m, in2d) ∧
      ptrdiffMax < input.bytes.length + 1) ∨ mapStdinTo2d chunks.chunks false m in2d =
        ((rows.map CString.bytes).foldlM pushRow (m, in2d)).map fun s => (0, s) := by
  have hread :=
    readInput_spec (r := .start) (s := []) (List.length_replicate ..) rfl
      (holdsText_replicate 1048575)
    (by rw [chunks.flatten]; exact input.noNul) chunks.fits
  rw [List.nil_append, chunks.flatten] at hread
  rcases hread with ⟨hread, hmax⟩ | ⟨r, hread, htext⟩
  · exact .inl ⟨by simp only [mapStdinTo2d, hread, bind_eq_bind, bind_some], hmax⟩
  · obtain ⟨rest, hrest⟩ := id htext
    have hlen := congrArg List.length hrest
    have hle := length_le_length_join rows
    simp only [List.length_append, List.length_map, List.length_cons, ← hjoin] at hlen
    have hsplit : splitInput (r.buffInput.length + 1) r.buffInput (some 0) (m, in2d) = _ :=
      splitInput_eq hne hrows (hjoin ▸ htext) (by omega) (m, in2d)
    right
    simp only [mapStdinTo2d, hread, hsplit, bind_eq_bind, bind_some,
      Bool.false_eq_true, if_false]
    cases (rows.map CString.bytes).foldlM pushRow (m, in2d) with
    | none => rfl
    | some s => rfl

/-! ## Search -/

/-- `strstr` returns the first place where the target stands. -/
theorem strstr_eq_some {s target : List UInt8} {k : Nat} (h : strstr s target = some k) :
    k ≤ s.length ∧ target <+: s.drop k ∧ ∀ j < k, ¬ target <+: s.drop j := by
  rw [strstr, List.find?_range_eq_some] at h
  obtain ⟨hpre, hmem, hfirst⟩ := h
  refine ⟨Nat.lt_succ_iff.mp (List.mem_range.mp hmem),
    List.isPrefixOf_iff_prefix.mp hpre, fun j hj hpre' => ?_⟩
  have hnot := hfirst j hj
  rw [List.isPrefixOf_iff_prefix.mpr hpre'] at hnot
  cases hnot

/-- `strstr` finds a target exactly if it is a part of the string. -/
theorem isSome_strstr_iff {s target : List UInt8} : (strstr s target).isSome ↔ target <:+: s := by
  rw [strstr, List.find?_isSome, List.infix_iff_prefix_suffix]
  constructor
  · intro ⟨k, _, hpre⟩
    exact ⟨s.drop k, List.isPrefixOf_iff_prefix.mp hpre, List.drop_suffix k s⟩
  · intro ⟨t, hpre, hsuf⟩
    refine ⟨s.length - t.length, List.mem_range.mpr (by omega), List.isPrefixOf_iff_prefix.mpr ?_⟩
    rw [← List.suffix_iff_eq_drop.mp hsuf]
    exact hpre

/-- A string from one of its bytes on. -/
def fromByte (s : CString) (k : Nat) : CString :=
  ⟨s.bytes.drop k, fun h => s.noNul (List.mem_of_mem_drop h)⟩

/-- What is found in a row. -/
def suffixAt (target : List UInt8) (rows : List CString) (i : Nat) : Option CString := do
  let row ← rows[i]?
  (strstr row.bytes target).map (fromByte row)

/-- The numbers of the rows with the target among the first `n`. -/
def hits (target : List UInt8) (rows : List CString) (n : Nat) : List Nat :=
  (List.range n).filter fun i => (suffixAt target rows i).isSome

/-- What is found in the first `n` rows. -/
def suffixes (target : List UInt8) (rows : List CString) (n : Nat) : List CString :=
  (List.range n).filterMap (suffixAt target rows)

section Search

variable {target : List UInt8} {rows : List CString} {in2d : Input2d} {n : Nat}

theorem length_hits_le : (hits target rows n).length ≤ n :=
  Nat.le_trans (List.length_filter_le ..) (Nat.le_of_eq List.length_range)

/-- To each number belongs what was found in its row. -/
theorem forall₂_hits : List.Forall₂ (fun i t => suffixAt target rows i = some t)
    (hits target rows n) (suffixes target rows n) := by
  rw [hits, suffixes]
  induction List.range n with
  | nil => exact .nil
  | cons i is ih =>
      cases hi : suffixAt target rows i with
      | none =>
          rw [List.filter_cons_of_neg (by simp [hi]), List.filterMap_cons_none hi]
          exact ih
      | some t =>
          rw [List.filter_cons_of_pos (by simp [hi]), List.filterMap_cons_some hi]
          exact .cons hi ih

theorem hits_succ {t : CString} (h : suffixAt target rows n = some t) :
    hits target rows (n + 1) = hits target rows n ++ [n] := by
  rw [hits, List.range_succ, List.filter_append, List.filter_singleton, h]
  rfl

theorem suffixes_succ {t : CString} (h : suffixAt target rows n = some t) :
    suffixes target rows (n + 1) = suffixes target rows n ++ [t] := by
  rw [suffixes, List.range_succ, List.filterMap_append, List.filterMap_cons_some h]
  rfl

theorem hits_succ_of_none (h : suffixAt target rows n = none) :
    hits target rows (n + 1) = hits target rows n := by
  rw [hits, List.range_succ, List.filter_append, List.filter_singleton, h]
  exact List.append_nil _

theorem suffixes_succ_of_none (h : suffixAt target rows n = none) :
    suffixes target rows (n + 1) = suffixes target rows n := by
  rw [suffixes, List.range_succ, List.filterMap_append, List.filterMap_cons_none h]
  exact List.append_nil _

/-- The search has passed the first `n` rows. -/
structure Searched (target : List UInt8) (rows : List CString) (in2d : Input2d) (n : Nat)
    (s : Heaps × Found) : Prop where
  input : ∃ cells, cells.map Prod.snd = rows ∧ Owns s.1.text in2d.buff2d cells
  count : s.2.foundCount = (hits target rows n).length
  index : hits target rows n ≠ [] →
    s.1.ints.block s.2.foundIndex = some (((hits target rows n).map Int32.ofNat).map some)
  found : ∃ cells, cells.map Prod.snd = suffixes target rows n ∧ Owns s.1.text s.2.buffFound cells
  apart : s.2.foundCount ≠ 0 → in2d.buff2d ≠ s.2.buffFound

/-- The search goes past a row without the target. -/
theorem Searched.skip {s : Heaps × Found} (h : Searched target rows in2d n s)
    (hat : suffixAt target rows n = none) : Searched target rows in2d (n + 1) s where
  input := h.input
  count := by rw [hits_succ_of_none hat, h.count]
  index := by
    rw [hits_succ_of_none hat]
    exact h.index
  found := by
    rw [suffixes_succ_of_none hat]
    exact h.found
  apart := h.apart

/-- The row's number and what was found in it are added to their vectors. -/
theorem Searched.push {s : Heaps × Found} (h : Searched target rows in2d n s) {t : CString}
    (hat : suffixAt target rows n = some t) (hshort : t.bytes.length < 2 ^ 31) (hn : n < intMax) :
    ∃ ints foundIndex text buffFound,
      pushBackInt s.1.ints s.2.foundIndex s.2.foundCount (Int32.ofNat n) = some (ints, foundIndex) ∧
      pushBackString s.1.text s.2.buffFound s.2.foundCount t.bytes = some (text, buffFound) ∧
      Searched target rows in2d (n + 1)
      (⟨text, ints⟩, ⟨s.2.foundCount + 1, foundIndex, buffFound⟩) := by
  obtain ⟨cells, hsnd, howns⟩ := h.input
  obtain ⟨found, hfound, hownsFound⟩ := h.found
  have hlen : found.length = s.2.foundCount := by
    rw [h.count, forall₂_hits.length_eq, ← hfound, List.length_map]
  have hcount : s.2.foundCount < intMax := h.count ▸ Nat.lt_of_le_of_lt length_hits_le hn
  have hints : ((hits target rows n).map Int32.ofNat).length < intMax := by
    rw [List.length_map, ← h.count]
    exact hcount
  obtain ⟨ints, foundIndex, hpushInt, hindex⟩ :=
    Vector.pushBackInt_spec hints (fun hne => h.index (by simpa using hne)) (Int32.ofNat n)
  rw [List.length_map, ← h.count] at hpushInt
  obtain ⟨text, buffFound, hpush, hownsFound'⟩ := hownsFound.pushBackString (hlen ▸ hcount) hshort
  rw [hlen] at hpush
  obtain ⟨hownsInput, hapart⟩ := howns.of_pushBackString hpush fun _ => h.apart
  have hne : cells ≠ [] := by
    rintro rfl
    rw [← hsnd] at hat
    cases hat
  refine ⟨ints, foundIndex, text, buffFound, hpushInt, hpush, ⟨cells, hsnd, hownsInput⟩,
    ?_, fun _ => ?_, ⟨_, ?_, hownsFound'⟩, fun _ => hapart hne⟩
  · rw [hits_succ hat, List.length_append, h.count]
    rfl
  · rw [hits_succ hat, List.map_append]
    exact hindex
  · rw [suffixes_succ hat, ← hfound, List.map_append]
    rfl

/-- One turn of the search. -/
theorem Searched.searchRow {s : Heaps × Found} (h : Searched target rows in2d n s) {row : CString}
    (hrow : rows[n]? = some row) (hshort : row.bytes.length < 2 ^ 31) (hn : n < intMax) :
    ∃ s', searchRow target in2d s n = some s' ∧ Searched target rows in2d (n + 1) s' := by
  obtain ⟨cells, hsnd, howns⟩ := h.input
  obtain ⟨p, hslot, rest, hblock⟩ := howns.getString (hsnd ▸ hrow)
  have hat : suffixAt target rows n = (strstr row.bytes target).map (fromByte row) := by
    simp only [suffixAt, hrow, bind_eq_bind, bind_some]
  simp only [Grep.searchRow, hslot, hblock, Vector.readString_append, bind_eq_bind,
    bind_some]
  cases hfind : strstr row.bytes target with
  | none =>
      rw [hfind, Option.map_none] at hat
      exact ⟨s, rfl, h.skip hat⟩
  | some k =>
      rw [hfind, Option.map_some] at hat
      have hread : readString ((row.bytes ++ 0 :: rest).drop k) = some (fromByte row k).bytes := by
        rw [List.drop_append_of_le_length (strstr_eq_some hfind).1]
        exact Vector.readString_append (fromByte row k) rest
      have hlen : (fromByte row k).bytes.length < 2 ^ 31 := by
        rw [fromByte, List.length_drop]
        omega
      obtain ⟨ints, foundIndex, text, buffFound, hpushInt, hpush, hsearched⟩ := h.push hat hlen hn
      exact ⟨_, by simp only [hpushInt, hread, hpush, bind_some], hsearched⟩

/-- All turns of the search, up to row `n`. -/
theorem Searched.foldlM {s : Heaps × Found} (h : Searched target rows in2d 0 s)
    (hshort : ∀ row ∈ rows, row.bytes.length < 2 ^ 31) (hrows : rows.length ≤ intMax)
    (hn : n ≤ rows.length) :
    ∃ s', (List.range n).foldlM (Grep.searchRow target in2d) s = some s' ∧
      Searched target rows in2d n s' := by
  induction n with
  | zero => exact ⟨s, rfl, h⟩
  | succ n ih =>
      obtain ⟨s₁, hfold, hsearched⟩ := ih (by omega)
      have hrow := List.getElem?_eq_getElem (l := rows) (i := n) (by omega)
      obtain ⟨s', hstep, hsearched'⟩ :=
        hsearched.searchRow hrow (hshort _ (List.getElem_mem _)) (by omega)
      exact ⟨s', by rw [Vector.foldlM_range_succ, hfold, bind_some, hstep], hsearched'⟩

end Search

/-! ## End to end -/

/-- A row from the first occurrence of the target on. -/
def FromFirst (target row suffix : List UInt8) : Prop :=
  ∃ k, suffix = row.drop k ∧ target <+: row.drop k ∧ ∀ j < k, ¬ target <+: row.drop j

/-- What a search is for: the rows of the input, in ascending order the numbers of those
that contain the target, and for each of these the row from the target on. -/
structure Greps (input target : CString) (rows : List CString) (index : List Nat)
    (suffixes : List CString) : Prop where
  nonempty : rows ≠ []
  join : join rows = input.bytes
  noNewline : ∀ row ∈ rows, 10 ∉ row.bytes
  sorted : index.Pairwise (· < ·)
  mem_index : ∀ i, i ∈ index ↔ ∃ row, rows[i]? = some row ∧ target.bytes <:+: row.bytes
  found : List.Forall₂ (fun i t => ∃ row, rows[i]? = some row ∧
    FromFirst target.bytes row.bytes t.bytes) index suffixes

/-- The program's vectors have the rows, their numbers and what was found. -/
structure Reports (s : State) (rows : List CString) (index : List Nat) (suffixes : List CString) :
    Prop where
  rowCount : s.in2d.rowCount = rows.length
  buff2d : ∃ cells, cells.map Prod.snd = rows ∧ Owns s.heaps.text s.in2d.buff2d cells
  count_index : s.found.foundCount = index.length
  count_suffixes : s.found.foundCount = suffixes.length
  foundIndex : index ≠ [] → ∃ slots : List Int32,
    s.heaps.ints.block s.found.foundIndex = some (slots.map some) ∧
      slots.map Int32.toInt = index.map Nat.cast
  buffFound : ∃ cells, cells.map Prod.snd = suffixes ∧ Owns s.heaps.text s.found.buffFound cells

/-- What is found is what a `grep` of the rows is to report. -/
theorem greps_hits {input : CString} (target : CString) {rows : List CString} (hne : rows ≠ [])
    (hrows : ∀ row ∈ rows, 10 ∉ row.bytes) (hjoin : join rows = input.bytes) :
    Greps input target rows (hits target.bytes rows rows.length)
    (suffixes target.bytes rows rows.length) where
  nonempty := hne
  join := hjoin
  noNewline := hrows
  sorted := List.pairwise_lt_range.filter _
  mem_index i := by
    rw [hits, List.mem_filter, List.mem_range]
    constructor
    · intro ⟨hi, hsome⟩
      refine ⟨rows[i], List.getElem?_eq_getElem hi, isSome_strstr_iff.mp ?_⟩
      simpa [suffixAt, List.getElem?_eq_getElem hi] using hsome
    · intro ⟨row, hrow, hinfix⟩
      obtain ⟨k, hk⟩ := Option.isSome_iff_exists.mp (isSome_strstr_iff.mpr hinfix)
      exact ⟨(List.getElem?_eq_some_iff.mp hrow).1, by simp [suffixAt, hrow, hk]⟩
  found := by
    refine forall₂_hits.imp fun i t hi => ?_
    simp only [suffixAt, bind_eq_bind, Option.bind_eq_some_iff, Option.map_eq_some_iff] at hi
    obtain ⟨row, hrow, k, hk, rfl⟩ := hi
    exact ⟨row, hrow, k, rfl, (strstr_eq_some hk).2⟩

/-- The lengths and the number of the rows fit into an `int`. -/
def RowsFit (input : List UInt8) : Prop :=
  (∀ row ∈ input.splitOn 10, row.length < 2 ^ 31) ∧ (input.splitOn 10).length < 2 ^ 31

theorem rowsFit_join_iff {rows : List CString} (hne : rows ≠ [])
    (hrows : ∀ row ∈ rows, 10 ∉ row.bytes) :
    RowsFit (join rows) ↔ (∀ row ∈ rows, row.bytes.length < 2 ^ 31) ∧ rows.length ≤ intMax := by
  have hsplit : (join rows).splitOn 10 = rows.map CString.bytes :=
    List.splitOn_intercalate 10 (by simpa using hrows) (by simpa using hne)
  rw [RowsFit, hsplit, List.forall_mem_map, List.length_map, intMax]
  refine and_congr_right fun _ => ?_
  omega

/-- Rows that fit leave room for the buffer. -/
theorem mapStdinTo2d_of_fits {input : CString} (chunks : Chunks input) {rows : List CString}
    (hne : rows ≠ []) (hrows : ∀ row ∈ rows, 10 ∉ row.bytes) (hjoin : join rows = input.bytes)
    (hshort : ∀ row ∈ rows, row.bytes.length < 2 ^ 31) (hlen : rows.length ≤ intMax)
    (buff2d : Nat) :
    ∃ m in2d cells, mapStdinTo2d chunks.chunks false ⟨.empty, .empty⟩ ⟨0, buff2d⟩ =
      some (0, m, in2d) ∧
      Owns m in2d.buff2d cells ∧ in2d.rowCount = cells.length ∧ cells.map Prod.snd = rows := by
  rcases mapStdinTo2d_eq chunks hne hrows hjoin ⟨.empty, .empty⟩ ⟨0, buff2d⟩ with ⟨-, hmax⟩ | hmap
  · have hle := length_join_le hshort
    rw [hjoin] at hle
    rw [intMax] at hlen
    rw [ptrdiffMax] at hmax
    omega
  · obtain ⟨m, in2d, cells, hfold, howns, hcount, hsnd⟩ :=
      @foldlM_pushRow rows ⟨.empty, .empty⟩ ⟨0,
        buff2d⟩ [] (Vector.owns_nil _ _) rfl (by simpa using hlen) hshort
    exact ⟨m, in2d, cells, by rw [hmap, hfold, Option.map_some], howns, hcount, hsnd⟩

/-- Input whose rows fit is searched to the end and reported. -/
theorem grep_of_rowsFit {input : CString} (target : CString) (chunks : Chunks input) (u : Unset)
    (hfit : RowsFit input.bytes) :
    ∃ s rows index suffixes, grep chunks.chunks false target.bytes u = some (0, s) ∧
      Reports s rows index suffixes ∧ Greps input target rows index suffixes := by
  obtain ⟨rows, hne, hrows, hjoin⟩ := exists_rows input
  rw [← hjoin, rowsFit_join_iff hne hrows] at hfit
  obtain ⟨hshort, hlen⟩ := hfit
  obtain ⟨m, in2d, cells, hmap, howns, hcount, hsnd⟩ :=
    mapStdinTo2d_of_fits chunks hne hrows hjoin hshort hlen u.buff2d
  have hstart : Searched target.bytes rows in2d 0 (⟨m, .empty⟩, ⟨0, u.foundIndex, u.buffFound⟩) :=
    ⟨⟨cells, hsnd, howns⟩, rfl, fun hne => absurd rfl hne,
      ⟨[], rfl, Vector.owns_nil _ _⟩, fun hne => absurd rfl hne⟩
  obtain ⟨⟨h, found⟩, hfold, hsearched⟩ := hstart.foldlM hshort hlen (Nat.le_refl _)
  have hrowCount : in2d.rowCount = rows.length := by rw [hcount, ← hsnd, List.length_map]
  refine ⟨⟨h, in2d, found⟩, rows, _, _, ?_, ?_, greps_hits target hne hrows hjoin⟩
  · simp only [grep, hmap, populateSearchResult, hrowCount, hfold, bind_eq_bind,
      bind_some]
    rfl
  · refine ⟨hrowCount, hsearched.input, hsearched.count,
      ?_, fun hne => ⟨_, hsearched.index hne, ?_⟩, hsearched.found⟩
    · rw [hsearched.count, forall₂_hits.length_eq]
    · rw [List.map_map]
      refine List.map_congr_left fun i hi => Int32.toInt_ofNat_of_lt ?_
      have hlt := List.mem_range.mp (List.mem_of_mem_filter hi)
      rw [intMax] at hlen
      omega

/-- Conversely, if the program ends with 0 the rows did fit. -/
theorem rowsFit_of_grep {input : CString} {target : List UInt8} {chunks : Chunks input}
    {u : Unset} {s : State} (h : grep chunks.chunks false target u = some (0, s)) :
    RowsFit input.bytes := by
  obtain ⟨rows, hne, hrows, hjoin⟩ := exists_rows input
  rw [← hjoin, rowsFit_join_iff hne hrows]
  simp only [grep, bind_eq_bind, Option.bind_eq_some_iff] at h
  obtain ⟨⟨status, m, in2d⟩, hmap, h⟩ := h
  rcases mapStdinTo2d_eq chunks hne hrows hjoin ⟨.empty, .empty⟩ ⟨0, u.buff2d⟩ with ⟨herror, -⟩ |
    hfold
  · rw [herror] at hmap
    cases hmap
    cases h
  · rw [hfold] at hmap
    obtain ⟨s', hfold, -⟩ := Option.map_eq_some_iff.mp hmap
    obtain ⟨hshort, hlen⟩ := fits_of_foldlM_pushRow hfold
    refine ⟨List.forall_mem_map.mp hshort, ?_⟩
    rcases hlen with hnil | hlen
    · exact absurd (List.map_eq_nil_iff.mp hnil) hne
    · simpa using hlen

/-- **The search is right.**  However standard input is delivered: the program ends with
the rows of the input and what a search for the target is to find in them, if and only
if the lengths of the rows and their number fit into an `int`. -/
theorem grep_correct_iff_rowsFit (input target : CString) (chunks : Chunks input) (u : Unset) :
    (∃ s rows index suffixes, grep chunks.chunks false target.bytes u = some (0, s) ∧
      Reports s rows index suffixes ∧ Greps input target rows index suffixes) ↔
        RowsFit input.bytes :=
  ⟨fun ⟨_, _, _, _, hgrep, _⟩ => rowsFit_of_grep hgrep, grep_of_rowsFit target chunks u⟩

/-- An input that is delivered byte by byte. -/
def Chunks.single (input : CString) : Chunks input where
  chunks := input.bytes.map fun b => [b]
  flatten := List.flatMap_singleton' input.bytes
  nonempty := by simp
  fits := by simp [maxStdinputWidth]

/-- The only row of an input of `2 ^ 32` bytes gets a block of one byte. -/
theorem grep_row_too_long :
    ∃ input : CString, input.bytes.length = 2 ^ 32 ∧ Nonempty (Chunks input) ∧
      ∀ (chunks : Chunks input) target u s, grep chunks.chunks false target u ≠ some (0, s) := by
  obtain ⟨input, hinput⟩ := Vector.exists_cString_replicate (2 ^ 32)
  have hlong : input.bytes.length = 2 ^ 32 := by rw [hinput, List.length_replicate]
  refine ⟨input, hlong, ⟨.single input⟩, fun chunks target u s hgrep => ?_⟩
  have hline : 10 ∉ input.bytes := by
    rw [hinput]
    exact fun hmem => absurd (List.eq_of_mem_replicate hmem) (by decide)
  have hfit :=
    (rowsFit_of_grep hgrep).1 input.bytes (by rw [List.splitOn_eq_singleton hline]; exact .head _)
  omega

end Linuxyz.Grep
