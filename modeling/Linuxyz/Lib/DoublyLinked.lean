import Linuxyz.Lib.Chain

/-!
# Linuxyz.Lib.DoublyLinked

`NULL`-terminated doubly linked lists in a heap, with the pointers `prev` and `next`
of an entry.

`DoublyLinked prev next heap l` says of every address of `l` that its entry points to
the addresses before and after it.  Both ways through the list are then chains, in
opposite orders (`chain_next`, `chain_prev`); `push` adds an entry in front and
`pop` takes the last one away.
-/

namespace Linuxyz

variable {ι α : Type} {prev next : α → Option ι} {heap heap' : ι → Option α} {l : List ι}

/-- Every entry of the list points to its neighbours in the list. -/
def DoublyLinked (prev next : α → Option ι) (heap : ι → Option α) (l : List ι) : Prop :=
  ∀ front a back, l = front ++ a :: back → ∃ e, heap a = some e ∧ prev e = front.getLast? ∧
    next e = back.head?

namespace DoublyLinked

theorem nil : DoublyLinked prev next heap [] := fun front a back h => by
  cases front <;> cases h

/-- The list from its head on. -/
theorem chain_next (h : DoublyLinked prev next heap l) : Chain next heap l.head? l := by
  have hback : ∀ back front, l = front ++ back → Chain next heap back.head? back := by
    intro back
    induction back with
    | nil => exact fun _ _ => .nil
    | cons a back ih =>
        intro front hl
        obtain ⟨e, he, -, hnext⟩ := h front a back hl
        refine .cons he (hnext ▸ ih (front ++ [a]) ?_)
        rw [hl, List.append_assoc]
        rfl
  exact hback l [] rfl

/-- The list from its end on. -/
theorem chain_prev (h : DoublyLinked prev next heap l) : Chain prev heap l.getLast? l.reverse := by
  have hfront : ∀ rfront front back, front = List.reverse rfront → l = front ++ back →
      Chain prev heap front.getLast? rfront := by
    intro rfront
    induction rfront with
    | nil =>
        rintro front back rfl -
        exact .nil
    | cons a rfront ih =>
        rintro front back rfl hl
        rw [List.reverse_cons, List.append_assoc] at hl
        obtain ⟨e, he, hprev, -⟩ := h rfront.reverse a back hl
        rw [List.reverse_cons, List.getLast?_concat]
        exact .cons he (hprev ▸ ih rfront.reverse (a :: back) rfl hl)
  exact hfront l.reverse l [] (List.reverse_reverse l).symm (List.append_nil l).symm

theorem nodup (h : DoublyLinked prev next heap l) : l.Nodup := h.chain_next.nodup

/-- An entry in front of the list, and the old head pointing back to it. -/
theorem push {a : ι} {e : α} (h : DoublyLinked prev next heap l) (hnew : heap' a = some e)
    (hprev : prev e = none) (hnext : next e = l.head?)
    (hhead : ∀ b e, l.head? = some b → heap b = some e →
      ∃ e', heap' b = some e' ∧ prev e' = some a ∧ next e' = next e)
    (hother : ∀ b ∈ l.tail, heap' b = heap b) : DoublyLinked prev next heap' (a :: l) := by
  intro front b back hl
  cases front with
  | nil =>
      cases hl
      exact ⟨e, hnew, hprev, hnext⟩
  | cons c front =>
      cases hl
      obtain ⟨eb, heb, hbprev, hbnext⟩ := h front b back rfl
      cases front with
      | nil =>
          obtain ⟨e', he', hprev', hnext'⟩ := hhead b eb rfl heb
          exact ⟨e', he', hprev', hnext'.trans hbnext⟩
      | cons d front => exact ⟨eb, by rw [hother b (by simp), heb], by simpa using hbprev, hbnext⟩

/-- The list without its last entry, the one before it pointing to nothing. -/
theorem pop {a : ι} (h : DoublyLinked prev next heap (l ++ [a]))
    (hlast : ∀ b e, l.getLast? = some b → heap b = some e →
      ∃ e', heap' b = some e' ∧ prev e' = prev e ∧ next e' = none)
    (hother : ∀ b ∈ l.dropLast, heap' b = heap b) : DoublyLinked prev next heap' l := by
  intro front b back hl
  obtain ⟨eb, heb, hbprev, hbnext⟩ := h front b (back ++ [a]) (by rw [hl, List.append_assoc]; rfl)
  cases back with
  | nil =>
      obtain ⟨e', he', hprev', hnext'⟩ := hlast b eb (by rw [hl, List.getLast?_concat]) heb
      exact ⟨e', he', hprev'.trans hbprev, hnext'⟩
  | cons c back =>
      have hmem : b ∈ l.dropLast := by
        rw [hl, List.dropLast_append_of_ne_nil (List.cons_ne_nil _ _),
          List.dropLast_cons_of_ne_nil (List.cons_ne_nil _ _)]
        simp
      exact ⟨eb, by rw [hother b hmem, heb], hbprev, hbnext⟩

end DoublyLinked

end Linuxyz
