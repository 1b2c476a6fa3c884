import Mathlib.Data.List.Basic

/-!
# Linuxyz.Lib.Segments

A stream of items that arrives in pieces.

A reader that asks for `n` items gets at most `n`, and never more than what is left
of the piece at the front: `read` is what it gets, `skip` is the stream afterwards.
Every way a stream can be served to a reader is a `Segments`; `ends` lists the
places where it is cut.  `serve_induction` is the rule for loops that read until a
request has been met.
-/

namespace Linuxyz

variable {α : Type}

/-- The pieces that are still to be read, none of them empty. -/
structure Segments (α : Type) where
  segs : List (List α)
  nonempty : ∀ seg ∈ segs, seg ≠ []

namespace Segments

/-- The whole stream. -/
def bytes (s : Segments α) : List α := s.segs.flatten

/-- What one read of at most `n` items returns; nothing at the end of the stream. -/
def read (s : Segments α) (n : Nat) : List α := (s.segs.headD []).take n

/-- The pieces without the first `n` items. -/
def skipSegs : Nat → List (List α) → List (List α)
  | _, [] => []
  | n, seg :: rest => if n < seg.length then seg.drop n :: rest else skipSegs (n - seg.length) rest

/-- What is left of segments has no empty one. -/
theorem nonempty_skipSegs {segs : List (List α)} (h : ∀ seg ∈ segs, seg ≠ []) (n : Nat) :
    ∀ seg ∈ skipSegs n segs, seg ≠ [] := by
  induction segs generalizing n with
  | nil => nofun
  | cons seg rest ih =>
      rw [List.forall_mem_cons] at h
      rw [skipSegs]
      split
      · next hlt =>
          rw [List.forall_mem_cons]
          exact ⟨by simpa using hlt, h.2⟩
      · exact ih h.2 _

/-- The stream after its first `n` items. -/
def skip (s : Segments α) (n : Nat) : Segments α :=
  ⟨skipSegs n s.segs, nonempty_skipSegs s.nonempty n⟩

/-- The places at which the pieces end. -/
def endsSegs : List (List α) → List Nat
  | [] => []
  | seg :: rest => seg.length :: (endsSegs rest).map (seg.length + ·)

def ends (s : Segments α) : List Nat := endsSegs s.segs

/-! ## the stream afterwards -/

/-- To skip drops bytes from the front. -/
theorem bytes_skip (s : Segments α) (n : Nat) : (s.skip n).bytes = s.bytes.drop n := by
  obtain ⟨segs, hs⟩ := s
  simp only [skip, bytes]
  clear hs
  induction segs generalizing n with
  | nil => simp [skipSegs]
  | cons seg rest ih =>
      rw [skipSegs]
      split
      · next hlt =>
          rw [List.flatten_cons, List.flatten_cons, List.drop_append_of_le_length (by omega)]
      · next hge =>
          have hseg : seg.drop n = [] := List.drop_eq_nil_of_le (Nat.not_lt.mp hge)
          rw [ih, List.flatten_cons, List.drop_append, hseg, List.nil_append]

theorem skip_zero (s : Segments α) : s.skip 0 = s := by
  obtain ⟨segs, hs⟩ := s
  cases segs with
  | nil => rfl
  | cons seg rest =>
      have hseg := List.length_pos_of_ne_nil (hs seg List.mem_cons_self)
      simp only [skip, skipSegs, hseg, if_true, List.drop_zero]

/-- To skip twice is to skip the sum. -/
theorem skip_skip (s : Segments α) (a b : Nat) : (s.skip a).skip b = s.skip (a + b) := by
  obtain ⟨segs, hs⟩ := s
  simp only [skip, mk.injEq]
  clear hs
  induction segs generalizing a with
  | nil => rfl
  | cons seg rest ih =>
      by_cases ha : a < seg.length
      · rw [skipSegs, if_pos ha, skipSegs, skipSegs, List.length_drop, List.drop_drop]
        by_cases hab : a + b < seg.length
        · rw [if_pos (by omega), if_pos hab]
        · rw [if_neg (by omega), if_neg hab]
          congr 1
          omega
      · rw [skipSegs, if_neg ha, ih, skipSegs, if_neg (by omega)]
        congr 1
        omega

/-- A place behind the front is cut exactly if it was cut before. -/
theorem mem_ends_skip (s : Segments α) (n : Nat) (hi : 0 < i) :
    i ∈ (s.skip n).ends ↔ n + i ∈ s.ends := by
  obtain ⟨segs, hs⟩ := s
  simp only [skip, ends]
  clear hs
  induction segs generalizing n i with
  | nil => simp [skipSegs, endsSegs]
  | cons seg rest ih =>
      by_cases hn : n < seg.length
      · simp only [skipSegs, if_pos hn, endsSegs, List.mem_cons, List.mem_map, List.length_drop]
        constructor
        · rintro (h | ⟨j, hj, h⟩)
          · exact .inl (by omega)
          · exact .inr ⟨j, hj, by omega⟩
        · rintro (h | ⟨j, hj, h⟩)
          · exact .inl (by omega)
          · exact .inr ⟨j, hj, by omega⟩
      · rw [skipSegs, if_neg hn, ih _ hi, endsSegs, List.mem_cons, List.mem_map]
        constructor
        · intro h
          exact .inr ⟨_, h, by omega⟩
        · rintro (h | ⟨j, hj, h⟩)
          · omega
          · rwa [show n - seg.length + i = j by omega]

/-! ## one read -/

/-- A read returns the front of the stream. -/
theorem read_eq (s : Segments α) (n : Nat) : s.read n = s.bytes.take (s.read n).length := by
  obtain ⟨segs, hs⟩ := s
  cases segs with
  | nil => simp [read, bytes]
  | cons seg rest =>
      simp only [read, bytes, List.headD_cons, List.flatten_cons]
      rw [List.take_append_of_le_length (by rw [List.length_take]; omega), List.length_take,
        List.take_eq_take_min]

theorem length_read_le (s : Segments α) (n : Nat) : (s.read n).length ≤ n := by
  rw [read, List.length_take]
  exact Nat.min_le_left ..

/-- What is read and what is left make up the stream. -/
theorem length_skip_read (s : Segments α) (n : Nat) :
    (s.skip (s.read n).length).bytes.length + (s.read n).length = s.bytes.length := by
  have hle : (s.read n).length ≤ s.bytes.length := by
    rw [s.read_eq n, List.length_take]
    exact Nat.min_le_right ..
  rw [s.bytes_skip, List.length_drop]
  omega

/-- A read returns something while there is something. -/
theorem length_read_pos (s : Segments α) (hn : 0 < n) (hs : 0 < s.bytes.length) :
    0 < (s.read n).length := by
  obtain ⟨segs, hne⟩ := s
  cases segs with
  | nil => exact absurd hs (by simp [bytes])
  | cons seg rest =>
      have hseg := List.length_pos_of_ne_nil (hne seg List.mem_cons_self)
      rw [read, List.headD_cons, List.length_take]
      omega

/-- A request that no cut interrupts is met at once. -/
theorem length_read_of_uncut (s : Segments α) (hs : n ≤ s.bytes.length)
    (h : ∀ i < n, 0 < i → i ∉ s.ends) : (s.read n).length = n := by
  obtain ⟨segs, hne⟩ := s
  cases segs with
  | nil =>
      obtain rfl : n = 0 := by simpa [bytes] using hs
      rfl
  | cons seg rest =>
      have hseg := List.length_pos_of_ne_nil (hne seg List.mem_cons_self)
      have hlong : ¬ seg.length < n := fun hlt => h seg.length hlt hseg (by simp [ends, endsSegs])
      rw [read, List.headD_cons, List.length_take]
      omega

/-- A request with a cut inside is not. -/
theorem length_read_of_cut (s : Segments α) (hi : i < n) (h : i ∈ s.ends) :
    (s.read n).length < n := by
  obtain ⟨segs, hne⟩ := s
  cases segs with
  | nil => simp [ends, endsSegs] at h
  | cons seg rest =>
      have hseg : seg.length ≤ i := by
        simp only [ends, endsSegs, List.mem_cons, List.mem_map] at h
        obtain rfl | ⟨j, -, rfl⟩ := h
        · exact Nat.le_refl _
        · exact Nat.le_add_right ..
      rw [read, List.headD_cons, List.length_take]
      omega

/-- A loop that reads until it has the `n` items it wants: each read brings some of
them, and leaves a smaller request to the rest of the stream. -/
theorem serve_induction {P : Nat → Segments α → Prop} (done : ∀ s, P 0 s)
    (more : ∀ n s m, 0 < n → n ≤ s.bytes.length → (s.read n).length = m → 0 < m → m ≤ n →
      P (n - m) (s.skip m) → P n s)
    (n : Nat) (s : Segments α) (h : n ≤ s.bytes.length) : P n s := by
  induction n using Nat.strongRecOn generalizing s with
  | ind n ih =>
      rcases Nat.eq_zero_or_pos n with rfl | hn
      · exact done s
      · have hpos := s.length_read_pos hn (by omega)
        have hle := s.length_read_le n
        have hrest : n - (s.read n).length ≤ (s.skip (s.read n).length).bytes.length := by
          rw [bytes_skip, List.length_drop]
          omega
        exact more n s _ hn h rfl hpos hle (ih _ (by omega) _ hrest)

end Segments

end Linuxyz
