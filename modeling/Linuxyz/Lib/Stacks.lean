import Linuxyz.Lib.Chain

/-!
# Linuxyz.Lib.Stacks

Several `NULL`-terminated lists that share one heap and one link field, each
used as a stack: an entry is taken from the head of one list and later put at
the head of the same or another one.

`Stacks link heap head lists` says that list `i` starts at `head i` and passes
through `lists i`.  `pop` and `push` are the two moves, `write` is a store that
leaves the link of an entry alone.
-/

namespace Linuxyz

open Function (update update_self update_of_ne)

variable {ι κ α : Type} {link : α → Option ι} {heap : ι → Option α} {head : κ → Option ι}
    {lists : κ → List ι}

/-- List `i` starts at `head i` and passes through the addresses `lists i`. -/
def Stacks (link : α → Option ι) (heap : ι → Option α) (head : κ → Option ι) (lists : κ → List ι) :
    Prop :=
  ∀ i, Chain link heap (head i) (lists i)

namespace Stacks

theorem head_eq_none_iff (h : Stacks link heap head lists) : head i = none ↔ lists i = [] := by
  have hi := h i
  generalize head i = p at hi
  generalize lists i = l at hi
  cases hi with
  | nil => simp
  | cons _ _ => simp

/-- The first entry of a list and the list without it. -/
theorem pop [DecidableEq κ] (h : Stacks link heap head lists) (hhead : head i = some a) :
    ∃ e l, heap a = some e ∧ lists i = a :: l ∧
      Stacks link heap (update head i (link e)) (update lists i l) := by
  have hi := h i
  rw [hhead] at hi
  generalize hl : lists i = l at hi
  cases hi with
  | @cons _ e l hget htail =>
      refine ⟨e, l, hget, rfl, fun j => ?_⟩
      by_cases hji : j = i
      · subst hji
        rw [update_self, update_self]
        exact htail
      · rw [update_of_ne hji, update_of_ne hji]
        exact h j

/-- A store to an entry that keeps its link, or to an address of no list. -/
theorem write [DecidableEq ι] (h : Stacks link heap head lists)
    (hlink : (∀ i, a ∉ lists i) ∨ ∃ e, heap a = some e ∧ link e' = link e) :
    Stacks link (update heap a (some e')) head lists := by
  intro i
  refine (h i).congr fun b hb eb hget => ?_
  by_cases hba : b = a
  · subst hba
    rcases hlink with hout | ⟨e, he, hlink⟩
    · exact absurd hb (hout i)
    · rw [hget] at he
      cases he
      exact ⟨e', update_self .., hlink⟩
  · exact ⟨eb, (update_of_ne hba ..).trans hget, rfl⟩

/-- An entry of no list put in front of one. -/
theorem push [DecidableEq ι] [DecidableEq κ] (h : Stacks link heap head lists)
    (hout : ∀ i, a ∉ lists i) (hlink : link e = head i) :
    Stacks link (update heap a (some e)) (update head i (some a))
      (update lists i (a :: lists i)) := by
  have hkeep : Stacks link (update heap a (some e)) head lists := h.write (.inl hout)
  intro j
  by_cases hji : j = i
  · subst hji
    rw [update_self, update_self]
    exact .cons (update_self ..) (hlink ▸ hkeep j)
  · rw [update_of_ne hji, update_of_ne hji]
    exact hkeep j

end Stacks

end Linuxyz
