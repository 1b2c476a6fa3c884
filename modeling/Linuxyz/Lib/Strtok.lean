import Mathlib.Data.List.TakeWhile

/-!
# Linuxyz.Lib.Strtok

Tokens separated by delimiters, as `strtok` reads them off the front of a string: `strtok d s`
is the next token of `s` and what stands behind the delimiter that ends it, or `none` where only
delimiters are left.
-/

namespace Linuxyz

variable {α : Type} {d : α → Bool} {tok tail s : List α} {c : α}

def strtok (d : α → Bool) (s : List α) : Option (List α × List α) :=
  match s.dropWhile d with
  | [] => none
  | c :: s => some ((c :: s).takeWhile (!d ·), ((c :: s).dropWhile (!d ·)).drop 1)

theorem strtok_of_delimiters (h : ∀ c ∈ s, d c = true) : strtok d s = none := by
  rw [strtok, List.dropWhile_eq_nil_iff.mpr h]

/-- A delimiter in front of the next token does not matter. -/
theorem strtok_cons_of_delimiter (hc : d c = true) (s : List α) :
    strtok d (c :: s) = strtok d s := by
  rw [strtok, List.dropWhile_cons_of_pos hc, strtok]

/-- A token at the front, up to the delimiter behind it. -/
theorem strtok_of_token (hne : tok ≠ []) (htok : ∀ c ∈ tok, d c = false) (hc : d c = true) :
    strtok d (tok ++ c :: tail) = some (tok, tail) := by
  obtain ⟨a, rest, rfl⟩ := List.exists_cons_of_ne_nil hne
  have ha : d a = false := htok a List.mem_cons_self
  have hnot : ∀ b ∈ a :: rest, (!d b) = true := fun b hb => by rw [htok b hb, Bool.not_false]
  have hstart : ((a :: rest) ++ c :: tail).dropWhile d = (a :: rest) ++ c :: tail := by
    rw [List.cons_append, List.dropWhile_cons_of_neg (by rw [ha]; exact Bool.false_ne_true)]
  rw [strtok, hstart, List.cons_append]
  dsimp only
  rw [← List.cons_append, List.takeWhile_append_of_pos hnot, List.dropWhile_append_of_pos hnot]
  simp [hc]

end Linuxyz
